import Mathlib

/-! # Counted references

Objects carry a count, and holders name at most one object each.
-/
namespace UoDOS.References

theorem sum_update_add {ι α A : Type*} [Fintype ι] [DecidableEq ι] [AddCommMonoid A] (g : α → A)
    (c : ι → α) (i : ι) (x : α) : ∑ j, g (Function.update c i x j) + g (c i) = ∑ j, g (c j) + g x := by
  have hu : ∑ j ∈ Finset.univ.erase i, g (Function.update c i x j) = ∑ j ∈ Finset.univ.erase i, g (c j) := by
    apply Finset.sum_congr rfl
    intro j hj
    rw [Function.update_of_ne (Finset.ne_of_mem_erase hj)]
  rw [← Finset.sum_erase_add _ _ (Finset.mem_univ i),← Finset.sum_erase_add Finset.univ (fun j => g (c j))
    (Finset.mem_univ i),hu,Function.update_self]
  exact add_right_comm _ _ _

variable {F H : Type*} [DecidableEq F] [Fintype H]

def holders (slot : H → Option F) (f : F) : ℕ := ∑ h, if slot h = some f then 1 else 0

def Balanced (count : F → ℕ) (slot : H → Option F) (inHand : Multiset F) : Prop :=
  ∀ f, count f = holders slot f + inHand.count f

theorem holders_update [DecidableEq H] (slot : H → Option F) (h : H) (x : Option F) (f : F) :
    holders (Function.update slot h x) f + (if slot h = some f then 1 else 0) =
      holders slot f + if x = some f then 1 else 0 :=
  sum_update_add (fun y => if y = some f then 1 else 0) slot h x

theorem holders_eq_zero {slot : H → Option F} {f : F} (h : ∀ k, slot k ≠ some f) :
    holders slot f = 0 := by
  unfold holders
  apply Finset.sum_eq_zero
  intro k _
  rw [if_neg (h k)]

variable {count : F → ℕ} {slot : H → Option F} {inHand : Multiset F} {f : F} {h : H}

theorem Balanced.take (hb : Balanced count slot inHand) (f : F) :
    Balanced (Function.update count f (count f + 1)) slot (f ::ₘ inHand) := by
  intro g
  have hg := hb g
  rcases eq_or_ne g f with rfl | hne
  · rw [Function.update_self,Multiset.count_cons_self]
    omega
  · rw [Function.update_of_ne hne,Multiset.count_cons_of_ne hne]
    exact hg

theorem Balanced.give [DecidableEq H] (hb : Balanced count slot (f ::ₘ inHand)) (hh : slot h = none) :
    Balanced count (Function.update slot h (some f)) inHand := by
  intro g
  have hg := hb g
  have hu := holders_update slot h (some f) g
  simp only [hh,reduceCtorEq,if_false,Option.some.injEq] at hu
  rcases eq_or_ne g f with rfl | hne
  · rw [Multiset.count_cons_self] at hg
    rw [if_pos rfl] at hu
    omega
  · rw [Multiset.count_cons_of_ne hne] at hg
    rw [if_neg (Ne.symm hne)] at hu
    omega

theorem Balanced.clear [DecidableEq H] (hb : Balanced count slot inHand) (hh : slot h = some f) :
    Balanced count (Function.update slot h none) (f ::ₘ inHand) := by
  intro g
  have hg := hb g
  have hu := holders_update slot h none g
  simp only [hh,reduceCtorEq,if_false,Option.some.injEq] at hu
  rcases eq_or_ne g f with rfl | hne
  · rw [Multiset.count_cons_self]
    rw [if_pos rfl] at hu
    omega
  · rw [Multiset.count_cons_of_ne hne]
    rw [if_neg (Ne.symm hne)] at hu
    omega

theorem Balanced.drop (hb : Balanced count slot (f ::ₘ inHand)) :
    Balanced (Function.update count f (count f - 1)) slot inHand := by
  intro g
  have hg := hb g
  rcases eq_or_ne g f with rfl | hne
  · rw [Multiset.count_cons_self] at hg
    rw [Function.update_self]
    omega
  · rw [Multiset.count_cons_of_ne hne] at hg
    rw [Function.update_of_ne hne]
    exact hg

theorem Balanced.unreferenced (hb : Balanced count slot 0) (hn : ∀ k, slot k ≠ some f) :
    count f = 0 := by
  rw [hb f,holders_eq_zero hn]
  simp

theorem Balanced.named (hb : Balanced count slot inHand) (hh : slot h = some f) : 0 < count f := by
  have hone : 1 ≤ holders slot f := by
    have hle := Finset.single_le_sum (f := fun k => if slot k = some f then 1 else 0)
      (fun _ _ => Nat.zero_le _) (Finset.mem_univ h)
    rwa [if_pos hh] at hle
  rw [hb f]
  omega

theorem Balanced.in_hand (hb : Balanced count slot inHand) (hf : f ∈ inHand) : 0 < count f := by
  have hc := Multiset.count_pos.mpr hf
  rw [hb f]
  omega

theorem Balanced.extend {count' : F → ℕ} {slot' extra : H → Option F} (hb : Balanced count slot inHand)
    (hs : ∀ k, slot k = none ∧ slot' k = extra k ∨ extra k = none ∧ slot' k = slot k)
    (hc : ∀ g, count' g = count g + holders extra g) : Balanced count' slot' inHand := by
  intro g
  have hadd : holders slot' g = holders slot g + holders extra g := by
    unfold holders
    rw [← Finset.sum_add_distrib]
    apply Finset.sum_congr rfl
    intro k _
    rcases hs k with ⟨h0,h1⟩ | ⟨h0,h1⟩ <;> simp [h0,h1]
  have hg := hb g
  rw [hc,hadd]
  omega

theorem holders_row {I : Type*} [Fintype I] [DecidableEq I] {n : ℕ} (i : I) (row : Fin n → Option F) (f : F) :
    holders (fun k : I × Fin n => if k.1 = i then row k.2 else none) f =
      (List.finRange n).countP (fun j => row j = some f) := by
  unfold holders
  rw [Fintype.sum_prod_type,Finset.sum_eq_single i,List.countP_eq_length_filter]
  · simp only [if_true,Finset.sum_boole,Nat.cast_id]
    rfl
  · intro j _ hj
    simp [hj]
  · simp

theorem Balanced.forget [Fintype F] {slot' : H → Option F} (hb : Balanced count slot inHand)
    (hs : ∀ k, slot' k = slot k ∨ slot' k = none) : ∃ left, Balanced count slot' left := by
  refine ⟨∑ g, Multiset.replicate (count g - holders slot' g) g,fun g => ?_⟩
  have hle : holders slot' g ≤ holders slot g := by
    unfold holders
    apply Finset.sum_le_sum
    intro k _
    rcases hs k with hk | hk
    · rw [hk]
    · simp [hk]
  have hg := hb g
  have hc : (∑ x, Multiset.replicate (count x - holders slot' x) x).count g = count g - holders slot' g := by
    rw [Multiset.count_sum']
    simp [Multiset.count_replicate]
  rw [hc]
  omega

end UoDOS.References
