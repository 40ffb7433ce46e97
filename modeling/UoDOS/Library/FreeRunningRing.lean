import Mathlib

/-! # Ring buffers indexed by free-running counters

The counters are `w`-bit words that are never reduced; a cell is addressed by a counter modulo
the ring size `N`.
-/
namespace UoDOS.FreeRunningRing

variable {α : Type*} {w N : ℕ}

def count (r p : BitVec w) : ℕ := (p - r).toNat

def contents (data : ℕ → α) (N : ℕ) (r : BitVec w) (k : ℕ) : List α :=
  (List.range k).map (fun i => data ((r.toNat + i) % N))

theorem count_eq_zero {r p : BitVec w} : count r p = 0 ↔ r = p := by
  unfold count
  constructor
  · intro h
    have h' : p - r = 0#w := BitVec.eq_of_toNat_eq (by simpa using h)
    rw [BitVec.sub_eq_iff_eq_add] at h'
    simpa using h'.symm
  · rintro rfl
    simp

theorem add_count (r p : BitVec w) : r + BitVec.ofNat w (count r p) = p := by
  rw [count,BitVec.ofNat_toNat,BitVec.setWidth_eq]
  ring

theorem full_iff (hN : N < 2^w) {r p : BitVec w} : p = r + BitVec.ofNat w N ↔ count r p = N := by
  constructor
  · rintro rfl
    simp [count,BitVec.add_comm r,Nat.mod_eq_of_lt hN]
  · intro h
    rw [← h,add_count]

theorem add_toNat_mod (hN : N ∣ 2^w) (r : BitVec w) (i : ℕ) :
    (r + BitVec.ofNat w i).toNat % N = (r.toNat + i) % N := by
  rw [BitVec.toNat_add,BitVec.toNat_ofNat,Nat.mod_mod_of_dvd _ hN,Nat.add_mod,
    Nat.mod_mod_of_dvd _ hN,← Nat.add_mod]

theorem toNat_mod_eq (hN : N ∣ 2^w) (r p : BitVec w) : p.toNat % N = (r.toNat + count r p) % N := by
  conv_lhs => rw [← add_count r p]
  exact add_toNat_mod hN r _

theorem count_push {r p : BitVec w} (h : count r p + 1 < 2^w) : count r (p + 1) = count r p + 1 := by
  have hp : p + 1 - r = (p - r) + 1 := by ring
  have h1 : (1 : BitVec w).toNat = 1 % 2^w := BitVec.toNat_ofNat 1 w
  unfold count at h ⊢
  rw [hp,BitVec.toNat_add,h1,Nat.add_mod_mod]
  exact Nat.mod_eq_of_lt h

theorem count_pop {r p : BitVec w} (h : r ≠ p) : count r p = count (r + 1) p + 1 := by
  have hp : p - r = (p - (r + 1)) + 1 := by ring
  have h1 : (1 : BitVec w).toNat = 1 % 2^w := BitVec.toNat_ofNat 1 w
  have h0 : count r p ≠ 0 := fun hc => h (count_eq_zero.mp hc)
  unfold count at h0 ⊢
  rw [hp,BitVec.toNat_add,h1,Nat.add_mod_mod] at h0 ⊢
  have hlt := (p - (r + 1)).isLt
  by_cases hw : (p - (r + 1)).toNat + 1 = 2^w
  · rw [hw,Nat.mod_self] at h0
    exact absurd rfl h0
  · exact Nat.mod_eq_of_lt (by omega)

theorem count_back {r p : BitVec w} (h : r ≠ p) : count r (p - 1) + 1 = count r p := by
  have hp : p - (r + 1) = p - 1 - r := by ring
  have hc := count_pop h
  unfold count at hc ⊢
  rw [hc,hp]

theorem count_injective {r p q : BitVec w} (h : count r p = count r q) : p = q := by
  rw [← add_count r p,h,add_count]

theorem count_between {r p q : BitVec w} (h : count r p ≤ count r q) :
    count p q = count r q - count r p := by
  have hs : q - p = (q - r) - (p - r) := by ring
  unfold count at h ⊢
  rw [hs,BitVec.toNat_sub_of_le h]

theorem contents_succ (data : ℕ → α) (N : ℕ) (r : BitVec w) (k : ℕ) :
    contents data N r (k + 1) = contents data N r k ++ [data ((r.toNat + k) % N)] := by
  unfold contents
  rw [List.range_succ,List.map_append,List.map_singleton]

@[simp] theorem contents_length (data : ℕ → α) (N : ℕ) (r : BitVec w) (k : ℕ) :
    (contents data N r k).length = k := by
  simp [contents]

theorem contents_push (hN : N ∣ 2^w) (data : ℕ → α) {r p : BitVec w} (h : count r p < N) (a : α) :
    contents (Function.update data (p.toNat % N) a) N r (count r p + 1) =
      contents data N r (count r p) ++ [a] := by
  have hlast := toNat_mod_eq hN r p
  unfold contents
  rw [List.range_succ,List.map_append,List.map_singleton,← hlast,Function.update_self]
  congr 1
  apply List.map_congr_left
  intro i hi
  apply Function.update_of_ne
  rw [hlast]
  intro he
  have hi := List.mem_range.mp hi
  have hd : N ∣ (r.toNat + count r p) - (r.toNat + i) := (Nat.modEq_iff_dvd' (by omega)).mp he
  rw [Nat.add_sub_add_left] at hd
  have hle := Nat.le_of_dvd (by omega) hd
  omega

theorem contents_pop (hN : N ∣ 2^w) (data : ℕ → α) (r : BitVec w) (k : ℕ) :
    contents data N r (k + 1) = data (r.toNat % N) :: contents data N (r + 1) k := by
  unfold contents
  rw [List.range_succ_eq_map,List.map_cons,List.map_map,Nat.add_zero]
  congr 1
  apply List.map_congr_left
  intro i _
  have h1 : (r + 1).toNat % N = (r.toNat + 1) % N := add_toNat_mod hN r 1
  have hi : ((r + 1).toNat + i) % N = (r.toNat + 1 + i) % N := by rw [Nat.add_mod,h1,← Nat.add_mod]
  simp only [Function.comp_apply,Nat.succ_eq_add_one,hi]
  congr 2
  omega

end UoDOS.FreeRunningRing
