import Mathlib

/-! # Lists of extents that cover the same places

An extent runs from a place up to another.
-/
namespace UoDOS.Extents

structure Extent where
  start : ℕ
  stop : ℕ

def Extent.Has (e : Extent) (x : ℕ) : Prop := e.start ≤ x ∧ x < e.stop

def Apart (e f : Extent) : Prop := e.stop ≤ f.start ∨ f.stop ≤ e.start

def Additive (μ : ℕ → ℕ → ℕ) : Prop := ∀ a b c, a ≤ b → b ≤ c → μ a b + μ b c = μ a c

def measure (μ : ℕ → ℕ → ℕ) (l : List Extent) : ℕ := (l.map (fun e => μ e.start e.stop)).sum

def Covers (l r : List Extent) : Prop := ∀ μ, Additive μ → measure μ l = measure μ r

variable {l l' r r' : List Extent} {μ : ℕ → ℕ → ℕ} {e f : Extent} {a b c : ℕ}

theorem measure_cons (μ : ℕ → ℕ → ℕ) (e : Extent) (l : List Extent) :
    measure μ (e :: l) = μ e.start e.stop + measure μ l := by
  simp [measure]

theorem measure_append (μ : ℕ → ℕ → ℕ) (l r : List Extent) : measure μ (l ++ r) = measure μ l + measure μ r := by
  simp [measure]

theorem Covers.refl (l : List Extent) : Covers l l := fun _ _ => rfl

theorem Covers.symm (h : Covers l r) : Covers r l := fun μ hμ => (h μ hμ).symm

theorem Covers.trans (h : Covers l r) (h' : Covers r r') : Covers l r' :=
  fun μ hμ => (h μ hμ).trans (h' μ hμ)

theorem covers_perm (h : l.Perm r) : Covers l r := by
  intro μ _
  exact (h.map _).sum_eq

theorem Covers.append (h : Covers l r) (h' : Covers l' r') : Covers (l ++ l') (r ++ r') := by
  intro μ hμ
  rw [measure_append,measure_append,h μ hμ,h' μ hμ]

theorem Covers.cons (e : Extent) (h : Covers l r) : Covers (e :: l) (e :: r) := by
  intro μ hμ
  rw [measure_cons,measure_cons,h μ hμ]

theorem covers_merge (hab : a ≤ b) (hbc : b ≤ c) (l : List Extent) :
    Covers (⟨a,b⟩ :: ⟨b,c⟩ :: l) (⟨a,c⟩ :: l) := by
  intro μ hμ
  rw [measure_cons,measure_cons,measure_cons,← Nat.add_assoc,hμ a b c hab hbc]

theorem covers_empty (a : ℕ) (l : List Extent) : Covers (⟨a,a⟩ :: l) l := by
  intro μ hμ
  have h := hμ a a a le_rfl le_rfl
  rw [measure_cons]
  simp only
  omega

theorem additive_length : Additive (fun a b => b - a) := by
  intro a b c hab hbc
  dsimp only
  omega

def point (x a b : ℕ) : ℕ := if a ≤ x ∧ x < b then 1 else 0

theorem additive_point (x : ℕ) : Additive (point x) := by
  intro a b c hab hbc
  unfold point
  split_ifs <;> omega

theorem measure_pos {x : ℕ} (he : e ∈ l) (hx : e.Has x) : 1 ≤ measure (point x) l := by
  have h := List.single_le_sum (l := l.map (fun e => point x e.start e.stop)) (by simp) _
    (List.mem_map.mpr ⟨e,he,rfl⟩)
  rw [point,if_pos (show e.start ≤ x ∧ x < e.stop from hx)] at h
  exact h

theorem exists_of_measure {x : ℕ} (h : measure (point x) l ≠ 0) : ∃ e ∈ l, e.Has x := by
  by_contra hn
  push Not at hn
  apply h
  unfold measure
  rw [List.sum_eq_zero_iff]
  intro y hy
  obtain ⟨e,he,rfl⟩ := List.mem_map.mp hy
  exact if_neg (hn e he)

theorem Covers.has {x : ℕ} (h : Covers l r) (he : e ∈ l) (hx : e.Has x) : ∃ f ∈ r, f.Has x := by
  apply exists_of_measure
  rw [← h _ (additive_point x)]
  have hp := measure_pos he hx
  omega

theorem measure_le_one (h : l.Pairwise Apart) (x : ℕ) : measure (point x) l ≤ 1 := by
  induction l with
  | nil => simp [measure]
  | cons e l ih =>
    rw [measure_cons]
    rw [List.pairwise_cons] at h
    by_cases hx : e.Has x
    · have hz : measure (point x) l = 0 := by
        by_contra hn
        obtain ⟨f,hf,hx'⟩ := exists_of_measure hn
        have ha := h.1 f hf
        unfold Apart at ha
        unfold Extent.Has at hx hx'
        omega
      rw [hz,point]
      split_ifs <;> omega
    · rw [point,if_neg (show ¬ (e.start ≤ x ∧ x < e.stop) from hx),Nat.zero_add]
      exact ih h.2

theorem pairwise_of_measure (h : ∀ x, measure (point x) l ≤ 1) (hpos : ∀ e ∈ l, e.start < e.stop) :
    l.Pairwise Apart := by
  induction l with
  | nil => exact .nil
  | cons e l ih =>
    rw [List.pairwise_cons]
    constructor
    · intro f hf
      by_contra hn
      unfold Apart at hn
      have he := hpos e (by simp)
      have hf' := hpos f (by simp [hf])
      have hx := h (max e.start f.start)
      rw [measure_cons,point,if_pos (by omega)] at hx
      have hp := measure_pos (x := max e.start f.start) hf (by unfold Extent.Has; omega)
      omega
    · apply ih
      · intro x
        have hx := h x
        rw [measure_cons] at hx
        omega
      · intro f hf
        exact hpos f (by simp [hf])

theorem Covers.apart (h : Covers l r) (hr : r.Pairwise Apart) (hpos : ∀ e ∈ l, e.start < e.stop) :
    l.Pairwise Apart := by
  apply pairwise_of_measure _ hpos
  intro x
  rw [h _ (additive_point x)]
  exact measure_le_one hr x

end UoDOS.Extents
