import UoDOS.Library.Strings

/-! # printInt and atoi

The two versions of printInt, in console.c for the kernel and in printf.c for the programs, and
atoi of ulib.c.
-/
namespace UoDOS.Console
open ByteMemory Strings Function

def toByte (c : Char) : UInt8 := UInt8.ofNat c.toNat

def encode (l : List Char) : List UInt8 := l.map toByte

/-- The array `digits` of the kernel, and that of the user library. -/
def digits : List UInt8 := encode ['0','1','2','3','4','5','6','7','8','9','a','b','c','d','e','f']
def User.digits : List UInt8 := encode ['0','1','2','3','4','5','6','7','8','9','A','B','C','D','E','F']

def putDigit (buf : Bytes) (i : ℕ) (c : UInt8) : Option (Bytes × ℕ) :=
  if i < 16 then some (update buf i c,i + 1) else none

/-- `do buf[i++] = digits[x % base]; while ((x /= base) != 0);` with a bound on its rounds, of
which there is one more than places in the buffer. -/
def digitLoop (digits : List UInt8) (base : BitVec 32) : ℕ → BitVec 32 → Bytes → ℕ → Option (Bytes × ℕ)
  | 0, _, _, _ => none
  | n + 1, x, buf, i => do
    let (buf,i) ← putDigit buf i (digits.getD (x % base).toNat 0)
    let x := x / base
    if x ≠ 0 then digitLoop digits base n x buf i else some (buf,i)

def emitted (buf : Bytes) : ℕ → List UInt8
  | 0 => []
  | i + 1 => buf i :: emitted buf i

/-- The text that the kernel's printInt gives to consputc, if it stays in its buffer. -/
def printInt (buf : Bytes) (xx base : BitVec 32) (sign : Bool) : Option (List UInt8) := do
  let sign := sign && decide (xx.toInt < 0)
  let x := if sign then -xx else xx
  let (buf,i) ← digitLoop digits base 17 x buf 0
  let (buf,i) ← if sign then putDigit buf i 0x2D else some (buf,i)
  some (emitted buf i)

def User.printInt (buf : Bytes) (xx base : BitVec 32) (sgn : Bool) : Option (List UInt8) := do
  let (neg,x) := if sgn && decide (xx.toInt < 0) then (true,-xx) else (false,xx)
  let (buf,i) ← digitLoop User.digits base 17 x buf 0
  let (buf,i) ← if neg then putDigit buf i 0x2D else some (buf,i)
  some (emitted buf i)

/-- The loop of atoi at place `i`, with the number of bytes up to the end of the string. -/
def atoiLoop (s : Bytes) : ℕ → ℕ → BitVec 32 → BitVec 32
  | 0, _, n => n
  | k + 1, i, n =>
    if 0x30 ≤ s i ∧ s i ≤ 0x39 then atoiLoop s k (i + 1) (n * 10 + BitVec.ofNat 32 (s i).toNat - 0x30) else n

def atoi (s : CString) : BitVec 32 := atoiLoop s.bytes s.length 0 0

def upper (c : UInt8) : UInt8 := if 0x61 ≤ c ∧ c ≤ 0x7A then c - 0x20 else c

section Digits

variable {digits : List UInt8} {base x : BitVec 32} {buf : Bytes} {i n : ℕ} {f : Char → UInt8}

theorem emitted_update {j : ℕ} (h : i ≤ j) (c : UInt8) : emitted (update buf j c) i = emitted buf i := by
  induction i with
  | zero => rfl
  | succ i ih => rw [emitted,emitted,update_of_ne (by omega),ih (by omega)]

theorem putDigit_emits (buf : Bytes) (c : UInt8) (h : i < 16) : ∃ buf', putDigit buf i c = some (buf',i + 1) ∧
    emitted buf' (i + 1) = c :: emitted buf i := by
  refine ⟨update buf i c,if_pos h,?_⟩
  rw [emitted,update_self,emitted_update le_rfl]

theorem digitLoop_emits (hb : 1 < base.toNat) (hb' : base.toNat ≤ 16)
    (hdigits : ∀ d < 16, digits.getD d 0 = f (Nat.digitChar d)) (n : ℕ) (x : BitVec 32) (buf : Bytes) (i : ℕ)
    (hn : (Nat.toDigits base.toNat x.toNat).length ≤ n)
    (hroom : i + (Nat.toDigits base.toNat x.toNat).length ≤ 16) :
    ∃ buf', digitLoop digits base n x buf i = some (buf',i + (Nat.toDigits base.toNat x.toNat).length) ∧
      emitted buf' (i + (Nat.toDigits base.toNat x.toNat).length) =
        (Nat.toDigits base.toNat x.toNat).map f ++ emitted buf i := by
  induction n generalizing x buf i with
  | zero =>
    have := Nat.length_toDigits_pos (b := base.toNat) (n := x.toNat)
    omega
  | succ n ih =>
    have hlen := Nat.length_toDigits_pos (b := base.toNat) (n := x.toNat)
    obtain ⟨buf1,hput,hemit⟩ := putDigit_emits buf (digits.getD (x % base).toNat 0) (show i < 16 by omega)
    have hmod : (x % base).toNat = x.toNat % base.toNat := BitVec.toNat_umod
    have hdiv : (x / base).toNat = x.toNat / base.toNat := BitVec.toNat_udiv
    have hdigit : digits.getD (x % base).toNat 0 = f (Nat.digitChar (x.toNat % base.toNat)) := by
      rw [hmod]
      exact hdigits _ ((Nat.mod_lt _ (by omega)).trans_le hb')
    simp only [digitLoop,hput,Option.bind_eq_bind,Option.bind_some]
    rcases Nat.lt_or_ge x.toNat base.toNat with hlt | hge
    · -- the last digit
      have hz : x / base = 0 := BitVec.eq_of_toNat_eq (by rw [hdiv,Nat.div_eq_of_lt hlt]; rfl)
      rw [if_neg (by rw [hz]; simp),Nat.toDigits_of_lt_base hlt]
      refine ⟨buf1,rfl,?_⟩
      rw [List.length_singleton,hemit,hdigit,Nat.mod_eq_of_lt hlt]
      rfl
    · have hnz : x / base ≠ 0 := by
        intro hz
        have hzero := congrArg BitVec.toNat hz
        rw [hdiv] at hzero
        have := Nat.div_pos hge (by omega)
        change _ = 0 at hzero
        omega
      rw [Nat.toDigits_of_base_le hb hge,List.length_append,List.length_singleton,← hdiv] at hn hroom ⊢
      obtain ⟨buf2,hloop,hrest⟩ := ih (x / base) buf1 (i + 1) (by omega) (by omega)
      rw [if_pos hnz,hloop]
      have hplace : ∀ k, i + 1 + k = i + (k + 1) := by omega
      rw [hplace] at hrest ⊢
      refine ⟨buf2,rfl,?_⟩
      rw [hrest,hemit,hdigit,List.map_append,List.append_assoc]
      rfl

end Digits

section Texts

variable {xx : BitVec 32} {buf : Bytes} {f : Char → UInt8}

theorem digits_digitChar : ∀ d < 16, digits.getD d 0 = toByte (Nat.digitChar d) := by decide

theorem user_digits_digitChar : ∀ d < 16, User.digits.getD d 0 = upper (toByte (Nat.digitChar d)) := by decide

theorem digitLoop_numeral {digits : List UInt8} {base : BitVec 32} (hb : 10 ≤ base.toNat) (hb' : base.toNat ≤ 16)
    (hdigits : ∀ d < 16, digits.getD d 0 = f (Nat.digitChar d)) (buf : Bytes) (x : BitVec 32) :
    ∃ buf' i, digitLoop digits base 17 x buf 0 = some (buf',i) ∧ i < 16 ∧
      emitted buf' i = (Nat.toDigits base.toNat x.toNat).map f := by
  have hlen : (Nat.toDigits base.toNat x.toNat).length ≤ 10 := by
    rw [Nat.length_toDigits_le_iff (by omega) (by norm_num)]
    have hx := x.isLt
    have hpow : 10^10 ≤ base.toNat^10 := Nat.pow_le_pow_left hb 10
    omega
  obtain ⟨buf',hloop,hemit⟩ := digitLoop_emits (by omega) hb' hdigits 17 x buf 0 (by omega) (by omega)
  rw [Nat.zero_add] at hloop hemit
  exact ⟨buf',_,hloop,by omega,by rw [hemit,emitted,List.append_nil]⟩

theorem neg_toNat (h : xx.toInt < 0) : xx.toInt = -((-xx).toNat : ℤ) ∧ 0 < (-xx).toNat := by
  have hx := xx.isLt
  rw [BitVec.toInt_eq_toNat_cond] at h ⊢
  rw [BitVec.toNat_neg]
  split_ifs at h ⊢ with hc
  · omega
  · omega

theorem toInt_nonneg (h : ¬ xx.toInt < 0) : xx.toInt = (xx.toNat : ℤ) := by
  have hx := xx.isLt
  rw [BitVec.toInt_eq_toNat_cond] at h ⊢
  split_ifs at h ⊢ with hc
  · rfl
  · omega

theorem toString_neg {n : ℕ} (h : 0 < n) : (toString (-(n : ℤ))).toList = '-' :: Nat.toDigits 10 n := by
  obtain ⟨k,rfl⟩ : ∃ k, n = k + 1 := ⟨n - 1,by omega⟩
  change ("-" ++ (k + 1).repr).toList = _
  rw [String.toList_append,Nat.toList_repr]
  rfl

theorem toString_nat (n : ℕ) : (toString (n : ℤ)).toList = Nat.toDigits 10 n := Nat.toList_repr

theorem encode_neg (h : xx.toInt < 0) :
    encode (toString xx.toInt).toList = 0x2D :: encode (Nat.toDigits 10 (-xx).toNat) := by
  obtain ⟨habs,hpos⟩ := neg_toNat h
  rw [habs,toString_neg hpos]
  rfl

theorem encode_nonneg (h : ¬ xx.toInt < 0) :
    encode (toString xx.toInt).toList = encode (Nat.toDigits 10 xx.toNat) := by
  rw [toInt_nonneg h,toString_nat]

theorem printInt_decimal (buf : Bytes) (xx : BitVec 32) :
    printInt buf xx 10 true = some (encode (toString xx.toInt).toList) := by
  unfold printInt
  by_cases h : xx.toInt < 0
  · obtain ⟨buf1,i,hloop,hi,hemit⟩ := digitLoop_numeral (show 10 ≤ (10 : BitVec 32).toNat by decide) (by decide)
      digits_digitChar buf (-xx)
    obtain ⟨buf2,hput,hsign⟩ := putDigit_emits buf1 0x2D hi
    simp only [h,decide_true,Bool.and_self,if_true,Option.bind_eq_bind,hloop,Option.bind_some,hput,hsign,hemit]
    rw [encode_neg h]
    rfl
  · obtain ⟨buf1,i,hloop,-,hemit⟩ := digitLoop_numeral (show 10 ≤ (10 : BitVec 32).toNat by decide) (by decide)
      digits_digitChar buf xx
    simp only [h,decide_false,Bool.and_false,Bool.false_eq_true,if_false,Option.bind_eq_bind,hloop,Option.bind_some,
      hemit]
    rw [encode_nonneg h]
    rfl

theorem printInt_hexadecimal (buf : Bytes) (xx : BitVec 32) :
    printInt buf xx 16 false = some (encode (Nat.toDigits 16 xx.toNat)) := by
  obtain ⟨buf1,i,hloop,-,hemit⟩ := digitLoop_numeral (show 10 ≤ (16 : BitVec 32).toNat by decide) (by decide)
    digits_digitChar buf xx
  simp only [printInt,Bool.false_and,Bool.false_eq_true,if_false,Option.bind_eq_bind,hloop,Option.bind_some,hemit]
  rfl

theorem toByte_digit {c : Char} (h : c.isDigit = true) : 0x30 ≤ toByte c ∧ toByte c ≤ 0x39 ∧
    (toByte c).toNat = c.toNat := by
  have hrange : 48 ≤ c.toNat ∧ c.toNat ≤ 57 := by
    simp only [Char.isDigit,Bool.and_eq_true,decide_eq_true_eq] at h
    exact ⟨UInt32.le_iff_toNat_le.mp h.1,UInt32.le_iff_toNat_le.mp h.2⟩
  have hval : (toByte c).toNat = c.toNat := by
    rw [toByte,UInt8.toNat_ofNat',Nat.mod_eq_of_lt (by omega)]
  refine ⟨UInt8.le_iff_toNat_le.mpr ?_,UInt8.le_iff_toNat_le.mpr ?_,hval⟩
  · rw [hval]
    exact hrange.1
  · rw [hval]
    exact hrange.2

theorem upper_decimal {n : ℕ} : (Nat.toDigits 10 n).map (fun c => upper (toByte c)) = encode (Nat.toDigits 10 n) := by
  apply List.map_congr_left
  intro c hc
  obtain ⟨-,hhigh,-⟩ := toByte_digit (Nat.isDigit_of_mem_toDigits (by norm_num) le_rfl hc)
  rw [upper,if_neg]
  rintro ⟨hlow,-⟩
  have hlow' : 97 ≤ (toByte c).toNat := UInt8.le_iff_toNat_le.mp hlow
  have hhigh' : (toByte c).toNat ≤ 57 := UInt8.le_iff_toNat_le.mp hhigh
  omega

theorem user_printInt_decimal (buf : Bytes) (xx : BitVec 32) :
    User.printInt buf xx 10 true = some (encode (toString xx.toInt).toList) := by
  unfold User.printInt
  by_cases h : xx.toInt < 0
  · obtain ⟨buf1,i,hloop,hi,hemit⟩ := digitLoop_numeral (f := fun c => upper (toByte c))
      (show 10 ≤ (10 : BitVec 32).toNat by decide) (by decide) user_digits_digitChar buf (-xx)
    obtain ⟨buf2,hput,hsign⟩ := putDigit_emits buf1 0x2D hi
    simp only [h,decide_true,Bool.and_self,if_true,Option.bind_eq_bind,hloop,Option.bind_some,hput,hsign,hemit]
    rw [encode_neg h,← upper_decimal]
    rfl
  · obtain ⟨buf1,i,hloop,-,hemit⟩ := digitLoop_numeral (f := fun c => upper (toByte c))
      (show 10 ≤ (10 : BitVec 32).toNat by decide) (by decide) user_digits_digitChar buf xx
    simp only [h,decide_false,Bool.and_false,Bool.false_eq_true,if_false,Option.bind_eq_bind,hloop,Option.bind_some,
      hemit]
    rw [encode_nonneg h,← upper_decimal]
    rfl

theorem user_printInt_hexadecimal (buf : Bytes) (xx : BitVec 32) :
    User.printInt buf xx 16 false = some ((encode (Nat.toDigits 16 xx.toNat)).map upper) := by
  obtain ⟨buf1,i,hloop,-,hemit⟩ := digitLoop_numeral (f := fun c => upper (toByte c))
    (show 10 ≤ (16 : BitVec 32).toNat by decide) (by decide) user_digits_digitChar buf xx
  simp only [User.printInt,Bool.false_and,Bool.false_eq_true,if_false,Option.bind_eq_bind,hloop,Option.bind_some,hemit]
  rw [encode,List.map_map]
  rfl

end Texts

section Reading

theorem atoiLoop_value {s : Bytes} (l : List Char) (hl : ∀ c ∈ l, c.isDigit = true) (i v : ℕ)
    (hs : ∀ j (h : j < l.length), s (i + j) = toByte l[j]) :
    atoiLoop s l.length i (BitVec.ofNat 32 v) = BitVec.ofNat 32 (Nat.ofDigitChars 10 l v) := by
  induction l generalizing i v with
  | nil => rfl
  | cons c l ih =>
    obtain ⟨hlow,hhigh,hval⟩ := toByte_digit (hl c List.mem_cons_self)
    have hc : s i = toByte c := hs 0 (Nat.succ_pos _)
    have hstep : BitVec.ofNat 32 v * 10 + BitVec.ofNat 32 (toByte c).toNat - 0x30 =
        BitVec.ofNat 32 (10 * v + (c.toNat - '0'.toNat)) := by
      have hge : 48 ≤ c.toNat := hval ▸ UInt8.le_iff_toNat_le.mp hlow
      have hzero : '0'.toNat = 48 := rfl
      apply BitVec.eq_of_toNat_eq
      rw [hval,hzero]
      have hten : (10 : BitVec 32).toNat = 10 := rfl
      have hsub : (0x30 : BitVec 32).toNat = 48 := rfl
      simp only [BitVec.toNat_sub,BitVec.toNat_add,BitVec.toNat_mul,BitVec.toNat_ofNat,hten,hsub]
      omega
    rw [List.length_cons,atoiLoop,hc,if_pos ⟨hlow,hhigh⟩,hstep]
    refine ih (fun c hc => hl c (List.mem_cons_of_mem _ hc)) (i + 1) _ (fun j hj => ?_)
    rw [Nat.add_assoc,Nat.add_comm 1 j]
    exact hs (j + 1) (Nat.succ_lt_succ hj)

theorem atoi_decimal {s : CString} {n : ℕ} (h : s.text = encode (Nat.toDigits 10 n)) : atoi s = BitVec.ofNat 32 n := by
  have hlen : s.length = (Nat.toDigits 10 n).length := by
    rw [← text_length,h,encode,List.length_map]
  have hbytes : ∀ j (hj : j < (Nat.toDigits 10 n).length), s.bytes (0 + j) = toByte (Nat.toDigits 10 n)[j] := by
    intro j hj
    have hj' : j < s.text.length := by rw [text_length,hlen]; exact hj
    rw [Nat.zero_add,← text_getElem s hj']
    simp only [h,encode,List.getElem_map]
  rw [atoi,hlen]
  refine (atoiLoop_value _ (fun c hc => Nat.isDigit_of_mem_toDigits (by norm_num) le_rfl hc) 0 0 hbytes).trans ?_
  rw [Nat.ofDigitChars_ten_toDigits]

end Reading

/-- Both versions emit the numerals of the value, the user's with capital letters, and atoi
reads a number that is not negative back. -/
theorem numerals_canonical (buf : Bytes) (xx : BitVec 32) :
    printInt buf xx 10 true = some (encode (toString xx.toInt).toList) ∧
    printInt buf xx 16 false = some (encode (Nat.toDigits 16 xx.toNat)) ∧
    User.printInt buf xx 10 true = printInt buf xx 10 true ∧
    User.printInt buf xx 16 false = (printInt buf xx 16 false).map (List.map upper) ∧
    ∀ n : ℕ, n < 2^31 → ∀ s : CString, s.text = encode (toString n).toList → (atoi s).toInt = n := by
  refine ⟨printInt_decimal buf xx,printInt_hexadecimal buf xx,?_,?_,fun n hn s hs => ?_⟩
  · rw [user_printInt_decimal,printInt_decimal]
  · rw [user_printInt_hexadecimal,printInt_hexadecimal]
    rfl
  · rw [atoi_decimal (hs.trans (congrArg encode Nat.toList_repr)),BitVec.toInt_eq_toNat_cond,BitVec.toNat_ofNat,
      Nat.mod_eq_of_lt (by omega),if_pos (by omega)]

theorem numerals_canonical_least : printInt (fun _ => 0) 0x80000000 10 true =
    some (encode ['-','2','1','4','7','4','8','3','6','4','8']) :=
  (numerals_canonical (fun _ => 0) 0x80000000).1.trans (by decide)

end UoDOS.Console
