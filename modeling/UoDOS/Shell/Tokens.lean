import UoDOS.Library.Strings

/-! # Tokens of a command line

gettoken and peek of sh.c move a pointer through a line. A position stands for the
pointer, and `At` says which tokens lie behind it.
-/
namespace UoDOS.Shell
open ByteMemory Strings

def whitespace : List UInt8 := [' '.toUInt8,'\t'.toUInt8,'\r'.toUInt8,'\n'.toUInt8,11]
def symbols : List UInt8 :=
  ['<'.toUInt8,'|'.toUInt8,'>'.toUInt8,'&'.toUInt8,';'.toUInt8,'('.toUInt8,')'.toUInt8]

def strchr (s : List UInt8) (c : UInt8) : Bool := c ∈ s

def wordChar (c : UInt8) : Bool := !strchr whitespace c && !strchr symbols c

def skip (s : CString) (p : UInt8 → Bool) (ps : ℕ) : ℕ :=
  ps + first (fun i => !p (s.bytes (ps + i))) (s.length - ps)

/-- What gettoken returns and what it stores through its pointers. -/
structure Scanned where
  ret : UInt8
  q : ℕ
  eq : ℕ
  ps : ℕ

def gettoken (s : CString) (ps : ℕ) : Scanned :=
  let q := skip s (strchr whitespace) ps
  let c := s.bytes q
  let (ret,eq) :=
    if c = 0 then (c,q)
    else if c ∈ ['|'.toUInt8,'('.toUInt8,')'.toUInt8,';'.toUInt8,'&'.toUInt8,'<'.toUInt8] then (c,q + 1)
    else if c = '>'.toUInt8 then
      if s.bytes (q + 1) = '>'.toUInt8 then ('+'.toUInt8,q + 2) else (c,q + 1)
    else ('a'.toUInt8,skip s wordChar q)
  ⟨ret,q,eq,skip s (strchr whitespace) eq⟩

def peek (s : CString) (ps : ℕ) (toks : List UInt8) : Bool × ℕ :=
  let ps := skip s (strchr whitespace) ps
  (s.bytes ps ≠ 0 ∧ strchr toks (s.bytes ps),ps)

inductive Symbol
  | less
  | greater
  | append
  | bar
  | amp
  | semi
  | lparen
  | rparen
  deriving DecidableEq

def Symbol.text : Symbol → List UInt8
  | less => ['<'.toUInt8]
  | greater => ['>'.toUInt8]
  | append => ['>'.toUInt8,'>'.toUInt8]
  | bar => ['|'.toUInt8]
  | amp => ['&'.toUInt8]
  | semi => [';'.toUInt8]
  | lparen => ['('.toUInt8]
  | rparen => [')'.toUInt8]

def Symbol.char (x : Symbol) : UInt8 := x.text.headD 0

theorem eq_of_char {x y : Symbol} (hy : y.char ≠ '>'.toUInt8) (h : x.char ∈ [y.char]) : x = y := by
  cases y <;> first | exact absurd rfl hy | cases x <;> first | rfl | exact absurd h (by decide)

def Symbol.ret : Symbol → UInt8
  | append => '+'.toUInt8
  | x => x.char

inductive Token
  | word (text : List UInt8)
  | symbol (x : Symbol)

/-- The tokens of a text. Words and `>` go as far as they can. -/
inductive Lexed : List UInt8 → List Token → Prop
  | nil : Lexed [] []
  | blank {c : UInt8} {cs : List UInt8} {ts : List Token} (hc : strchr whitespace c) (h : Lexed cs ts) :
      Lexed (c :: cs) ts
  | symbol {x : Symbol} {cs : List UInt8} {ts : List Token}
      (hx : x = .greater → cs.head? ≠ some '>'.toUInt8) (h : Lexed cs ts) :
      Lexed (x.text ++ cs) (.symbol x :: ts)
  | word {w cs : List UInt8} {ts : List Token} (hne : w ≠ []) (hw : ∀ c ∈ w, wordChar c)
      (hend : ∀ c ∈ cs.head?, wordChar c = false) (h : Lexed cs ts) : Lexed (w ++ cs) (.word w :: ts)

theorem symbol_of_char {c : UInt8} (h : strchr symbols c) : ∃ x : Symbol, x ≠ .append ∧ x.text = [c] := by
  have hc : c ∈ symbols := by simpa [strchr] using h
  simp only [symbols,List.mem_cons,List.not_mem_nil,or_false] at hc
  rcases hc with rfl | rfl | rfl | rfl | rfl | rfl | rfl
  · exact ⟨.less,by decide,rfl⟩
  · exact ⟨.bar,by decide,rfl⟩
  · exact ⟨.greater,by decide,rfl⟩
  · exact ⟨.amp,by decide,rfl⟩
  · exact ⟨.semi,by decide,rfl⟩
  · exact ⟨.lparen,by decide,rfl⟩
  · exact ⟨.rparen,by decide,rfl⟩

theorem exists_lexed (cs : List UInt8) : ∃ ts, Lexed cs ts := by
  induction hn : cs.length using Nat.strong_induction_on generalizing cs with
  | _ n ih =>
  cases cs with
  | nil => exact ⟨[],.nil⟩
  | cons c cs =>
    rw [List.length_cons] at hn
    by_cases hb : strchr whitespace c
    · obtain ⟨ts,ht⟩ := ih cs.length (by omega) cs rfl
      exact ⟨ts,.blank hb ht⟩
    by_cases hs : strchr symbols c
    · obtain ⟨x,-,hx⟩ := symbol_of_char hs
      by_cases hg : x = .greater ∧ cs.head? = some '>'.toUInt8
      · obtain ⟨rfl,hh⟩ := hg
        obtain ⟨cs,rfl⟩ : ∃ r, cs = '>'.toUInt8 :: r := by
          cases cs with
          | nil => simp at hh
          | cons d r => exact ⟨r,by simpa using hh⟩
        obtain ⟨ts,ht⟩ := ih cs.length (by simp at hn; omega) cs rfl
        have hc : c = '>'.toUInt8 := by simpa [Symbol.text] using hx.symm
        rw [hc]
        exact ⟨_,.symbol (x := .append) (by simp) ht⟩
      · obtain ⟨ts,ht⟩ := ih cs.length (by omega) cs rfl
        have h := Lexed.symbol (x := x) (fun he hh => hg ⟨he,hh⟩) ht
        rw [hx] at h
        exact ⟨_,h⟩
    · have hlen := (List.dropWhile_sublist wordChar (l := cs)).length_le
      obtain ⟨ts,ht⟩ := ih (cs.dropWhile wordChar).length (by omega) _ rfl
      refine ⟨.word (c :: cs.takeWhile wordChar) :: ts,?_⟩
      have h := Lexed.word (w := c :: cs.takeWhile wordChar) (by simp) ?_ ?_ ht
      · rwa [List.cons_append,List.takeWhile_append_dropWhile] at h
      · intro d hd
        rcases List.mem_cons.mp hd with rfl | hd
        · simp [wordChar,hb,hs]
        · exact List.mem_takeWhile_imp hd
      · intro d hd
        have hh := List.head?_dropWhile_not wordChar cs
        rw [Option.mem_def.mp hd] at hh
        simpa using hh

section Positions

variable {s : CString} {ps q : ℕ} {p : UInt8 → Bool} {ts : List Token}

def rest (s : CString) (ps : ℕ) : List UInt8 := ((List.range s.length).map s.bytes).drop ps

theorem rest_cons (h : ps < s.length) : rest s ps = s.bytes ps :: rest s (ps + 1) := by
  rw [rest,List.drop_eq_getElem_cons (by simpa using h)]
  simp [rest]

theorem rest_length (s : CString) (ps : ℕ) : (rest s ps).length = s.length - ps := by
  simp [rest]

theorem rest_nil (h : s.length ≤ ps) : rest s ps = [] := by
  rw [← List.length_eq_zero_iff,rest_length]
  omega

theorem rest_append {w cs : List UInt8} (h : rest s ps = w ++ cs) (hps : ps ≤ s.length) :
    ps + w.length ≤ s.length ∧ rest s (ps + w.length) = cs ∧ ∀ i < w.length, s.bytes (ps + i) = w.getD i 0 := by
  have hlen := rest_length s ps
  rw [h,List.length_append] at hlen
  refine ⟨by omega,?_,?_⟩
  · have hd : rest s (ps + w.length) = (rest s ps).drop w.length := by simp [rest,List.drop_drop]
    rw [hd,h,List.drop_left]
  · intro i hi
    have hg : (rest s ps).getD i 0 = s.bytes (ps + i) := by
      have hlt : ps + i < s.length := by omega
      simp [rest,hlt]
    rw [← hg,h,List.getD_append _ _ _ _ hi]

theorem skip_le (hps : ps ≤ s.length) : skip s p ps ≤ s.length := by
  have h := first_le (fun i => !p (s.bytes (ps + i))) (s.length - ps)
  unfold skip
  omega

theorem skip_eq {k : ℕ} (hk : ps + k ≤ s.length) (hp : ∀ i < k, p (s.bytes (ps + i)))
    (hend : ps + k < s.length → p (s.bytes (ps + k)) = false) : skip s p ps = ps + k := by
  unfold skip
  congr 1
  apply Nat.le_antisymm
  · by_cases hlt : ps + k < s.length
    · exact first_le_of (by simp [hend hlt])
    · have hle := first_le (fun i => !p (s.bytes (ps + i))) (s.length - ps)
      omega
  · by_contra hlt
    have hl := Nat.lt_of_not_le hlt
    have ht := first_of_lt (p := fun i => !p (s.bytes (ps + i))) (n := s.length - ps) (by omega)
    simp [hp _ hl] at ht

structure At (s : CString) (ps : ℕ) (ts : List Token) : Prop where
  le : ps ≤ s.length
  lexed : Lexed (rest s ps) ts

theorem Lexed.unblank {c : UInt8} {cs : List UInt8} (h : Lexed (c :: cs) ts) (hc : strchr whitespace c) :
    Lexed cs ts := by
  generalize hl : c :: cs = l at h
  cases h with
  | nil => cases hl
  | blank hb h =>
    cases hl
    exact h
  | @symbol x ds ts hx h =>
    have hh : x.char = c := by
      cases x <;> · cases hl; rfl
    subst hh
    cases x <;> exact absurd hc (by decide)
  | @word w ds ts hne hw hend h =>
    obtain ⟨d,w,rfl⟩ := List.exists_cons_of_ne_nil hne
    cases hl
    have hd := hw c (by simp)
    simp [wordChar,hc] at hd

theorem At.advance {k : ℕ} (h : At s ps ts) (hk : ps + k ≤ s.length)
    (hb : ∀ i < k, strchr whitespace (s.bytes (ps + i))) : At s (ps + k) ts := by
  induction k with
  | zero => exact h
  | succ k ih =>
    have hk' := ih (by omega) (fun i hi => hb i (by omega))
    constructor
    · exact hk
    · have hl := hk'.lexed
      rw [rest_cons (by omega)] at hl
      exact hl.unblank (hb k (by omega))

theorem At.skip (h : At s ps ts) : At s (skip s (strchr whitespace) ps) ts ∧
    strchr whitespace (s.bytes (Shell.skip s (strchr whitespace) ps)) = false := by
  have hle := skip_le (p := strchr whitespace) h.le
  constructor
  · apply h.advance hle
    intro i hi
    simpa using not_of_lt_first hi
  · by_cases hlt : Shell.skip s (strchr whitespace) ps < s.length
    · have ht := first_of_lt (p := fun i => !strchr whitespace (s.bytes (ps + i))) (n := s.length - ps)
        (by unfold Shell.skip at hlt; omega)
      simpa [Shell.skip] using ht
    · rw [Nat.le_antisymm hle (Nat.le_of_not_lt hlt),s.terminated]
      rfl

theorem At.cases_token (h : At s ps ts) (hb : strchr whitespace (s.bytes ps) = false) :
    (ts = [] ∧ ps = s.length) ∨
    (∃ x ts', ts = .symbol x :: ts' ∧ rest s ps = x.text ++ rest s (ps + x.text.length) ∧
      At s (ps + x.text.length) ts' ∧ (x = .greater → s.bytes (ps + 1) ≠ '>'.toUInt8)) ∨
    ∃ w ts', ts = .word w :: ts' ∧ w ≠ [] ∧ rest s ps = w ++ rest s (ps + w.length) ∧
      At s (ps + w.length) ts' ∧ (∀ c ∈ w, wordChar c) ∧
      (ps + w.length < s.length → wordChar (s.bytes (ps + w.length)) = false) := by
  obtain ⟨hle,hl⟩ := h
  generalize hr : rest s ps = l at hl
  cases hl with
  | nil =>
    left
    have hlen := rest_length s ps
    rw [hr,List.length_nil] at hlen
    exact ⟨rfl,by omega⟩
  | @blank c cs ts hc hl =>
    have hlt : ps < s.length := by
      have hlen := rest_length s ps
      rw [hr,List.length_cons] at hlen
      omega
    rw [rest_cons hlt] at hr
    cases hr
    rw [hc] at hb
    cases hb
  | @symbol x cs ts hx hl =>
    obtain ⟨hk,hcs,-⟩ := rest_append hr hle
    refine .inr (.inl ⟨x,ts,rfl,by rw [hcs],⟨hk,by rwa [hcs]⟩,?_⟩)
    rintro rfl hgt
    refine hx rfl ?_
    have hlt : ps + 1 < s.length := by
      by_contra hn
      have he : s.bytes (ps + 1) = 0 := by
        rw [show ps + 1 = s.length by simp [Symbol.text] at hk; omega]
        exact s.terminated
      rw [he] at hgt
      exact absurd hgt (by decide)
    rw [← hcs]
    change (rest s (ps + 1)).head? = _
    rw [rest_cons hlt,hgt]
    rfl
  | @word w cs ts hne hw hend hl =>
    obtain ⟨hk,hcs,-⟩ := rest_append hr hle
    refine .inr (.inr ⟨w,ts,rfl,hne,by rw [hcs],⟨hk,by rwa [hcs]⟩,hw,fun hlt => ?_⟩)
    apply hend
    rw [← hcs,rest_cons hlt]
    rfl

structure WordAt (s : CString) (q eq : ℕ) (w : List UInt8) : Prop where
  nonempty : w ≠ []
  length : eq = q + w.length
  inside : eq ≤ s.length
  text : ∀ i < w.length, s.bytes (q + i) = w.getD i 0
  chars : ∀ c ∈ w, wordChar c
  ends : eq < s.length → wordChar (s.bytes eq) = false

theorem head_symbol {x : Symbol} (hps : ps ≤ s.length) (h : rest s ps = x.text ++ rest s (ps + x.text.length)) :
    s.bytes ps = x.char := by
  obtain ⟨-,-,ht⟩ := rest_append h hps
  have h0 := ht 0 (by cases x <;> decide)
  rw [Nat.add_zero] at h0
  rw [h0]
  cases x <;> rfl

theorem head_word {w : List UInt8} (hps : ps ≤ s.length) (h : rest s ps = w ++ rest s (ps + w.length))
    (hne : w ≠ []) : s.bytes ps ∈ w := by
  obtain ⟨-,-,ht⟩ := rest_append h hps
  obtain ⟨c,w,rfl⟩ := List.exists_cons_of_ne_nil hne
  have h0 := ht 0 (by simp)
  rw [Nat.add_zero] at h0
  simp [h0]

theorem At.gettoken_nil (h : At s ps []) : (gettoken s ps).ret = 0 ∧ At s (gettoken s ps).ps [] := by
  obtain ⟨h,hb⟩ := h.skip
  rcases h.cases_token hb with ⟨-,he⟩ | ⟨x,ts',hx,-⟩ | ⟨w,ts',hx,-⟩
  · have hz : s.bytes (Shell.skip s (strchr whitespace) ps) = 0 := by
      rw [he]
      exact s.terminated
    simp only [gettoken,hz,↓reduceIte]
    exact ⟨trivial,h.skip.1⟩
  · cases hx
  · cases hx

theorem At.gettoken_symbol {x : Symbol} (h : At s ps (.symbol x :: ts)) :
    (gettoken s ps).ret = x.ret ∧ At s (gettoken s ps).ps ts := by
  obtain ⟨h,hb⟩ := h.skip
  rcases h.cases_token hb with ⟨hx,-⟩ | ⟨x,ts',hx,hr,hat,hgt⟩ | ⟨w,ts',hx,-⟩
  · cases hx
  · cases hx
    have hc := head_symbol h.le hr
    have ht := (rest_append hr h.le).2.2
    have hnext := hat.skip.1
    unfold gettoken
    generalize Shell.skip s (strchr whitespace) ps = k at *
    cases x with
    | append =>
      have h1 : s.bytes (k + 1) = '>'.toUInt8 := ht 1 (by decide)
      have h0 : s.bytes k = '>'.toUInt8 := hc
      simp only [h0,h1]
      exact ⟨rfl,hnext⟩
    | greater =>
      have h1 := hgt rfl
      have h0 : s.bytes k = '>'.toUInt8 := hc
      simp only [h0,h1]
      exact ⟨rfl,hnext⟩
    | _ =>
      dsimp only
      rw [hc]
      exact ⟨rfl,hnext⟩
  · cases hx

theorem wordChar_ne {c : UInt8} (h : wordChar c) (h0 : c ≠ 0) :
    c ≠ '>'.toUInt8 ∧
      c ∉ ['|'.toUInt8,'('.toUInt8,')'.toUInt8,';'.toUInt8,'&'.toUInt8,'<'.toUInt8] := by
  constructor
  · rintro rfl
    exact absurd h (by decide)
  · intro hm
    have hs : strchr symbols c := by
      simp only [List.mem_cons,List.not_mem_nil,or_false] at hm
      simp only [strchr,symbols,List.mem_cons,List.not_mem_nil,or_false,decide_eq_true_eq]
      tauto
    simp [wordChar,hs] at h

theorem At.gettoken_word {w : List UInt8} (h : At s ps (.word w :: ts)) :
    (gettoken s ps).ret = 'a'.toUInt8 ∧ At s (gettoken s ps).ps ts ∧
      WordAt s (gettoken s ps).q (gettoken s ps).eq w := by
  obtain ⟨h,hb⟩ := h.skip
  rcases h.cases_token hb with ⟨hx,-⟩ | ⟨x,ts',hx,-⟩ | ⟨w,ts',hx,hne,hr,hat,hw,hend⟩
  · cases hx
  · cases hx
  · cases hx
    have hc := hw _ (head_word h.le hr hne)
    obtain ⟨hk,-,ht⟩ := rest_append hr h.le
    have hpos := List.length_pos_iff.mpr hne
    have hnext := hat.skip.1
    unfold gettoken
    generalize Shell.skip s (strchr whitespace) ps = k at *
    have h0 : s.bytes k ≠ 0 := s.nonzero k (by omega)
    obtain ⟨hgt,hsym⟩ := wordChar_ne hc h0
    have hskip : Shell.skip s wordChar k = k + w.length := by
      apply skip_eq hk _ hend
      intro i hi
      rw [ht i hi,List.getD_eq_getElem _ _ hi]
      exact hw _ (List.getElem_mem hi)
    simp only [if_neg h0,if_neg hsym,if_neg hgt,hskip]
    exact ⟨trivial,hnext,hne,rfl,hk,ht,hw,hend⟩

theorem At.peek (h : At s ps ts) (toks : List UInt8) (ht : toks ⊆ symbols) :
    At s (Shell.peek s ps toks).2 ts ∧
    ((Shell.peek s ps toks).1 = true ↔ ∃ x ts', ts = .symbol x :: ts' ∧ x.char ∈ toks) := by
  obtain ⟨h,hb⟩ := h.skip
  refine ⟨h,?_⟩
  simp only [Shell.peek,decide_eq_true_eq,strchr]
  rcases h.cases_token hb with ⟨rfl,he⟩ | ⟨x,ts',rfl,hr,-⟩ | ⟨w,ts',rfl,hne,hr,-,hw,-⟩
  · rw [he,s.terminated]
    simp
  · rw [head_symbol h.le hr]
    constructor
    · rintro ⟨-,hm⟩
      exact ⟨x,ts',rfl,hm⟩
    · rintro ⟨y,ts'',hy,hm⟩
      cases hy
      exact ⟨by cases x <;> decide,hm⟩
  · constructor
    · rintro ⟨-,hm⟩
      have hs := hw _ (head_word h.le hr hne)
      simp [wordChar,strchr,ht hm] at hs
    · rintro ⟨y,ts'',hy,-⟩
      cases hy

theorem At.peek_end (h : At s ps ts) (toks : List UInt8) :
    (Shell.peek s ps toks).2 = s.length ↔ ts = [] := by
  obtain ⟨h,hb⟩ := h.skip
  change Shell.skip s (strchr whitespace) ps = s.length ↔ ts = []
  rcases h.cases_token hb with ⟨rfl,he⟩ | ⟨x,ts',rfl,hr,hat,-⟩ | ⟨w,ts',rfl,hne,hr,hat,-⟩
  · simp [he]
  · have hle := hat.le
    have hpos : 0 < x.text.length := by cases x <;> decide
    simp only [reduceCtorEq,iff_false]
    omega
  · have hle := hat.le
    have hpos := List.length_pos_iff.mpr hne
    simp only [reduceCtorEq,iff_false]
    omega

end Positions

end UoDOS.Shell
