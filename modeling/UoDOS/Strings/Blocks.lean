import UoDOS.Library.ByteMemory

/-! # memmove and memset of string.c

The loops over single bytes and words, with 32-bit pointers that are reduced at each step. The
other modules take `move` and `fill` of the byte memory for what these functions do.
-/
namespace UoDOS.StringFunctions
open ByteMemory Function

section Copies

def copyUp : ℕ → Bytes → ℕ → ℕ → Bytes
  | 0, b, _, _ => b
  | n + 1, b, d, s => copyUp n (update b d (b s)) ((d + 1) % 2^32) ((s + 1) % 2^32)

def decrement (p : ℕ) : ℕ := if p = 0 then 2^32 - 1 else p - 1

def copyDown : ℕ → Bytes → ℕ → ℕ → Bytes
  | 0, b, _, _ => b
  | n + 1, b, d, s => copyDown n (update b (decrement d) (b (decrement s))) (decrement d) (decrement s)

def memmove (b : Bytes) (dst src n : ℕ) : Bytes :=
  if src < dst ∧ (src + n) % 2^32 > dst then copyDown n b ((dst + n) % 2^32) ((src + n) % 2^32)
  else copyUp n b dst src

variable {b : Bytes} {dst src n : ℕ}

theorem decrement_end {a : ℕ} (h : a + (n + 1) ≤ 2^32) : decrement ((a + (n + 1)) % 2^32) = a + n := by
  unfold decrement
  split_ifs <;> omega

theorem move_first (h : ∀ i < n, src + 1 + i ≠ dst) :
    move (update b dst (b src)) (dst + 1) (src + 1) n = move b dst src (n + 1) := by
  funext x
  unfold move
  by_cases hx : x = dst
  · rw [if_neg (by omega),if_pos (by omega),hx,update_self,Nat.sub_self,Nat.add_zero]
  · rw [update_of_ne hx]
    by_cases hin : dst + 1 ≤ x ∧ x < dst + 1 + n
    · rw [if_pos hin,if_pos (by omega),update_of_ne (h _ (by omega))]
      congr 1
      omega
    · rw [if_neg hin,if_neg (by omega)]

theorem move_last (h : ∀ i < n, src + i ≠ dst + n) :
    move (update b (dst + n) (b (src + n))) dst src n = move b dst src (n + 1) := by
  funext x
  unfold move
  by_cases hx : x = dst + n
  · rw [if_neg (by omega),if_pos (by omega),hx,update_self,Nat.add_sub_cancel_left]
  · rw [update_of_ne hx]
    by_cases hin : dst ≤ x ∧ x < dst + n
    · rw [if_pos hin,if_pos (by omega),update_of_ne (h _ (by omega))]
    · rw [if_neg hin,if_neg (by omega)]

theorem copyUp_moves (hd : dst + n ≤ 2^32) (hs : src + n ≤ 2^32) (h : dst ≤ src ∨ src + n ≤ dst) :
    copyUp n b dst src = move b dst src n := by
  induction n generalizing b dst src with
  | zero =>
    funext x
    rw [copyUp,move,if_neg (by omega)]
  | succ n ih =>
    rw [copyUp,← move_first (fun i hi => by omega)]
    rcases Nat.eq_zero_or_pos n with rfl | hn
    · funext x
      rw [copyUp,move,if_neg (by omega)]
    · rw [Nat.mod_eq_of_lt (by omega),Nat.mod_eq_of_lt (by omega)]
      exact ih (by omega) (by omega) (by omega)

theorem copyDown_moves (hd : dst + n ≤ 2^32) (hs : src + n ≤ 2^32) (h : src < dst) :
    copyDown n b ((dst + n) % 2^32) ((src + n) % 2^32) = move b dst src n := by
  induction n generalizing b with
  | zero =>
    funext x
    rw [copyDown,move,if_neg (by omega)]
  | succ n ih =>
    have hrest := ih (b := update b (dst + n) (b (src + n))) (by omega) (by omega)
    rw [Nat.mod_eq_of_lt (by omega),Nat.mod_eq_of_lt (by omega)] at hrest
    rw [copyDown,decrement_end hd,decrement_end hs,hrest,move_last (fun i hi => by omega)]

theorem memmove_eq_move (hd : dst + n ≤ 2^32) (hs : src + n ≤ 2^32) : memmove b dst src n = move b dst src n := by
  unfold memmove
  split_ifs with h
  · exact copyDown_moves hd hs h.1
  · refine copyUp_moves hd hs ?_
    by_contra hover
    exact h ⟨by omega,by rw [Nat.mod_eq_of_lt (by omega)]; omega⟩

/-- However the blocks lie, the destination gets the bytes that the source had, and nothing
else changes. -/
theorem memmove_copies (b : Bytes) (dst src n : ℕ) (hd : dst + n ≤ 2^32) (hs : src + n ≤ 2^32) :
    (∀ i < n, memmove b dst src n (dst + i) = b (src + i)) ∧
      ∀ x, x < dst ∨ dst + n ≤ x → memmove b dst src n x = b x := by
  rw [memmove_eq_move hd hs]
  refine ⟨fun i hi => ?_,fun x hx => ?_⟩
  · rw [move,if_pos (by omega),Nat.add_sub_cancel_left]
  · rw [move,if_neg (by omega)]

/-- Four bytes, two places up. -/
theorem memmove_copies_overlap : memmove (fun x => UInt8.ofNat x) 3 1 4 (3 + 1) = UInt8.ofNat (1 + 1) :=
  (memmove_copies (fun x => UInt8.ofNat x) 3 1 4 (by norm_num) (by norm_num)).1 1 (by norm_num)

end Copies

section Stores

def storeSequenceOfBytes (data : BitVec 32) : ℕ → Bytes → ℕ → Bytes
  | 0, b, _ => b
  | cnt + 1, b, addr => storeSequenceOfBytes data cnt (update b addr (UInt8.ofNat data.toNat)) ((addr + 1) % 2^32)

def storeSequenceOfDwords (data : BitVec 32) : ℕ → Bytes → ℕ → Bytes
  | 0, b, _ => b
  | cnt + 1, b, addr => storeSequenceOfDwords data cnt (writeWord b addr data.toNat) ((addr + 4) % 2^32)

def memset (b : Bytes) (dst : ℕ) (c : BitVec 32) (n : ℕ) : Bytes :=
  if (BitVec.ofNat 32 dst).srem 4 = 0 ∧ n % 4 = 0 then
    let c := c &&& 0xFF
    storeSequenceOfDwords (c <<< 24 ||| c <<< 16 ||| c <<< 8 ||| c) (n / 4) b dst
  else storeSequenceOfBytes c n b dst

variable {b : Bytes} {dst addr n cnt : ℕ} {c data : BitVec 32}

theorem fill_append (b : Bytes) (a k l : ℕ) (v : UInt8) : fill (fill b a k v) (a + k) l v = fill b a (k + l) v := by
  funext x
  unfold fill
  by_cases h1 : a + k ≤ x ∧ x < a + k + l
  · rw [if_pos h1,if_pos (by omega)]
  · rw [if_neg h1]
    by_cases h2 : a ≤ x ∧ x < a + k
    · rw [if_pos h2,if_pos (by omega)]
    · rw [if_neg h2,if_neg (by omega)]

theorem fill_zero (b : Bytes) (a : ℕ) (v : UInt8) : fill b a 0 v = b := by
  funext x
  rw [fill,if_neg (by omega)]

theorem fill_one (b : Bytes) (a : ℕ) (v : UInt8) : fill b a 1 v = update b a v := by
  funext x
  unfold fill
  by_cases hx : x = a
  · rw [if_pos (by omega),hx,update_self]
  · rw [if_neg (by omega),update_of_ne hx]

theorem storeSequenceOfBytes_fills (h : addr + cnt ≤ 2^32) :
    storeSequenceOfBytes data cnt b addr = fill b addr cnt (UInt8.ofNat data.toNat) := by
  induction cnt generalizing b addr with
  | zero => rw [storeSequenceOfBytes,fill_zero]
  | succ cnt ih =>
    rw [storeSequenceOfBytes,← fill_one,Nat.add_comm cnt 1,← fill_append]
    rcases Nat.eq_zero_or_pos cnt with rfl | hc
    · rw [storeSequenceOfBytes,fill_zero]
    · rw [Nat.mod_eq_of_lt (by omega)]
      exact ih (by omega)

theorem writeWord_fills {v : ℕ} {u : UInt8} (h : ∀ i : Fin 4, UInt8.ofNat (v / 2^(8 * i.val)) = u) :
    writeWord b addr v = fill b addr 4 u := by
  funext x
  unfold writeWord fill
  split_ifs with hx
  · exact h ⟨x - addr,by omega⟩
  · rfl

theorem storeSequenceOfDwords_fills {u : UInt8} (hu : ∀ i : Fin 4, UInt8.ofNat (data.toNat / 2^(8 * i.val)) = u)
    (h : addr + 4 * cnt ≤ 2^32) : storeSequenceOfDwords data cnt b addr = fill b addr (4 * cnt) u := by
  induction cnt generalizing b addr with
  | zero => rw [storeSequenceOfDwords,fill_zero]
  | succ cnt ih =>
    rw [storeSequenceOfDwords,writeWord_fills hu,Nat.mul_succ,Nat.add_comm (4 * cnt),← fill_append]
    rcases Nat.eq_zero_or_pos cnt with rfl | hc
    · rw [storeSequenceOfDwords,fill_zero]
    · rw [Nat.mod_eq_of_lt (by omega)]
      exact ih (by omega)

theorem assembled_bytes : ∀ (k : Fin 256) (i : Fin 4),
    UInt8.ofNat ((BitVec.ofNat 32 k <<< 24 ||| BitVec.ofNat 32 k <<< 16 ||| BitVec.ofNat 32 k <<< 8 |||
      BitVec.ofNat 32 k).toNat / 2^(8 * i.val)) = UInt8.ofNat k := by
  decide +kernel

theorem low_byte (c : BitVec 32) : c &&& 0xFF = BitVec.ofNat 32 (c.toNat % 256) := by
  apply BitVec.eq_of_toNat_eq
  rw [BitVec.toNat_and,BitVec.toNat_ofNat]
  change c.toNat &&& (2^8 - 1) = _
  rw [Nat.and_two_pow_sub_one_eq_mod]
  omega

theorem memset_eq_fill (h : dst + n ≤ 2^32) : memset b dst c n = fill b dst n (UInt8.ofNat c.toNat) := by
  unfold memset
  split_ifs with hwords
  · have hbytes := assembled_bytes ⟨c.toNat % 256,Nat.mod_lt _ (by norm_num)⟩
    have hu : UInt8.ofNat (c.toNat % 256) = UInt8.ofNat c.toNat := by
      apply UInt8.toNat_inj.mp
      rw [UInt8.toNat_ofNat',UInt8.toNat_ofNat']
      omega
    have hn : 4 * (n / 4) = n := by omega
    simp only [low_byte]
    rw [storeSequenceOfDwords_fills hbytes (by omega),hn,← hu]
  · exact storeSequenceOfBytes_fills h

/-- Both paths store the byte `c mod 256`, for every int `c`, and nothing else. -/
theorem memset_stores (b : Bytes) (dst : ℕ) (c : BitVec 32) (n : ℕ) (h : dst + n ≤ 2^32) :
    (∀ i < n, memset b dst c n (dst + i) = UInt8.ofNat (c.toInt % 256).toNat) ∧
      ∀ x, x < dst ∨ dst + n ≤ x → memset b dst c n x = b x := by
  have hbyte : UInt8.ofNat (c.toInt % 256).toNat = UInt8.ofNat c.toNat := by
    apply UInt8.toNat_inj.mp
    rw [UInt8.toNat_ofNat',UInt8.toNat_ofNat',BitVec.toInt_eq_toNat_bmod]
    simp only [Int.bmod]
    split_ifs <;> omega
  rw [memset_eq_fill h,hbyte]
  refine ⟨fun i hi => ?_,fun x hx => ?_⟩
  · rw [fill,if_pos (by omega)]
  · rw [fill,if_neg (by omega)]

theorem memset_stores_minus_one : memset (fun _ => 0) 8 (-1) 4 (8 + 1) =
    UInt8.ofNat ((-1 : BitVec 32).toInt % 256).toNat :=
  (memset_stores (fun _ => 0) 8 (-1) 4 (by norm_num)).1 1 (by norm_num)

end Stores

end UoDOS.StringFunctions
