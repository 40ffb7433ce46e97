import Mathlib

/-! # Byte memories

A memory is a function from addresses to bytes, with little-endian words of four
bytes and the block operations that C code uses.
-/
namespace UoDOS.ByteMemory

abbrev Bytes := ℕ → UInt8

def readWord (b : Bytes) (a : ℕ) : ℕ :=
  (b a).toNat + 2^8 * (b (a + 1)).toNat + 2^16 * (b (a + 2)).toNat + 2^24 * (b (a + 3)).toNat

def readHalf (b : Bytes) (a : ℕ) : UInt16 := UInt16.ofNat ((b a).toNat + 2^8 * (b (a + 1)).toNat)

def writeWord (b : Bytes) (a v : ℕ) : Bytes := fun x =>
  if a ≤ x ∧ x < a + 4 then UInt8.ofNat (v / 2^(8 * (x - a))) else b x

def fill (b : Bytes) (a n : ℕ) (c : UInt8) : Bytes := fun x => if a ≤ x ∧ x < a + n then c else b x

def move (b : Bytes) (dst src n : ℕ) : Bytes := fun x =>
  if dst ≤ x ∧ x < dst + n then b (src + (x - dst)) else b x

def write (b : Bytes) (a : ℕ) (data : List UInt8) : Bytes := fun x =>
  if a ≤ x ∧ x < a + data.length then data.getD (x - a) 0 else b x

def wordBytes (v : ℕ) : List UInt8 := (List.range 4).map (fun i => UInt8.ofNat (v / 2^(8 * i)))

variable (b : Bytes)

theorem readWord_lt (a : ℕ) : readWord b a < 2^32 := by
  have h0 := (b a).toNat_lt
  have h1 := (b (a + 1)).toNat_lt
  have h2 := (b (a + 2)).toNat_lt
  have h3 := (b (a + 3)).toNat_lt
  simp only [readWord]
  omega

theorem readWord_congr {b b' : Bytes} {a : ℕ} (h : ∀ x, a ≤ x → x < a + 4 → b' x = b x) :
    readWord b' a = readWord b a := by
  simp only [readWord,h a (by omega) (by omega),h (a + 1) (by omega) (by omega),
    h (a + 2) (by omega) (by omega),h (a + 3) (by omega) (by omega)]

theorem bytes_of_readWord {b b' : Bytes} {a a' : ℕ} (h : readWord b' a' = readWord b a) {i : ℕ} (hi : i < 4) :
    b' (a' + i) = b (a + i) := by
  have h0 := (b a).toNat_lt
  have h1 := (b (a + 1)).toNat_lt
  have h2 := (b (a + 2)).toNat_lt
  have h3 := (b (a + 3)).toNat_lt
  have h0' := (b' a').toNat_lt
  have h1' := (b' (a' + 1)).toNat_lt
  have h2' := (b' (a' + 2)).toNat_lt
  have h3' := (b' (a' + 3)).toNat_lt
  simp only [readWord] at h
  apply UInt8.toNat_inj.mp
  rcases (show i = 0 ∨ i = 1 ∨ i = 2 ∨ i = 3 by omega) with rfl | rfl | rfl | rfl
  · simp only [Nat.add_zero]
    omega
  · omega
  · omega
  · omega

theorem readWord_writeWord (a v : ℕ) (hv : v < 2^32) : readWord (writeWord b a v) a = v := by
  have h2 : a + 2 - a = 2 := by omega
  have h3 : a + 3 - a = 3 := by omega
  simp [readWord,writeWord,h2,h3]
  omega

theorem readWord_writeWord_of_disjoint {a a' v : ℕ} (h : a + 4 ≤ a' ∨ a' + 4 ≤ a) :
    readWord (writeWord b a v) a' = readWord b a' :=
  readWord_congr (fun x h1 h2 => if_neg (by omega))

theorem readWord_fill_inside {a n x : ℕ} {c : UInt8} (h1 : a ≤ x) (h2 : x + 4 ≤ a + n) :
    readWord (fill b a n c) x = readWord (fun _ => c) x :=
  readWord_congr (fun y h3 h4 => if_pos (by omega))

theorem readWord_fill_outside {a n x : ℕ} {c : UInt8} (h : x + 4 ≤ a ∨ a + n ≤ x) :
    readWord (fill b a n c) x = readWord b x :=
  readWord_congr (fun y h3 h4 => if_neg (by omega))

theorem readWord_move_outside {dst src n x : ℕ} (h : x + 4 ≤ dst ∨ dst + n ≤ x) :
    readWord (move b dst src n) x = readWord b x :=
  readWord_congr (fun y h3 h4 => if_neg (by omega))

theorem readWord_write_outside {a x : ℕ} {data : List UInt8} (h : x + 4 ≤ a ∨ a + data.length ≤ x) :
    readWord (write b a data) x = readWord b x :=
  readWord_congr (fun y h3 h4 => if_neg (by omega))

end UoDOS.ByteMemory
