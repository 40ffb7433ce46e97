import Mathlib

/-! # Chains and rings of a successor function

A chain runs from a node through a list of nodes to a last one, each the successor of
the one before. A ring is a chain that ends where it began.
-/
namespace UoDOS.Chains

variable {α : Type} {next next' : α → α} {a b p q z : α} {l xs ys : List α}

def Chain (next : α → α) : α → List α → α → Prop
  | a, [], z => next a = z
  | a, b :: l, z => next a = b ∧ Chain next b l z

def Ring (next : α → α) : List α → Prop
  | [] => True
  | a :: l => Chain next a l a

theorem chain_append : Chain next a (xs ++ p :: ys) z ↔ Chain next a xs p ∧ Chain next p ys z := by
  induction xs generalizing a with
  | nil => rfl
  | cons x xs ih => simp [Chain,ih,and_assoc]

theorem ring_rotate : Ring next (xs ++ p :: ys) ↔ Chain next p (ys ++ xs) p := by
  cases xs with
  | nil => simp [Ring]
  | cons x xs =>
    rw [List.cons_append,Ring,chain_append,chain_append]
    exact and_comm

theorem Chain.restart (h : Chain next a l z) (hb : next' b = next a) (hl : ∀ x ∈ l, next' x = next x) :
    Chain next' b l z := by
  induction l generalizing a b with
  | nil => exact hb.trans h
  | cons x l ih =>
    obtain ⟨hx,h⟩ := h
    exact ⟨hb.trans hx,ih h (hl x (by simp)) (fun y hy => hl y (by simp [hy]))⟩

theorem Chain.next_head (h : Chain next a l z) : next a = l.headD z := by
  cases l with
  | nil => exact h
  | cons x l => exact h.1

theorem Chain.next_mem (h : Chain next a l z) (hq : q ∈ a :: l) : next q ∈ l ++ [z] := by
  induction l generalizing a with
  | nil =>
    cases List.mem_singleton.mp hq
    simpa [Chain] using h
  | cons x l ih =>
    obtain ⟨hx,h⟩ := h
    rcases List.mem_cons.mp hq with rfl | hq
    · simp [hx]
    · have hm := ih h hq
      simp only [List.cons_append,List.mem_cons]
      exact .inr hm

theorem Chain.next_rel {R : α → α → Prop} (h : Chain next a l z) (hr : (a :: l).Pairwise R)
    (hq : q ∈ a :: l) : next q = z ∨ R q (next q) := by
  induction l generalizing a with
  | nil =>
    cases List.mem_singleton.mp hq
    exact .inl h
  | cons x l ih =>
    obtain ⟨hx,h⟩ := h
    rcases List.mem_cons.mp hq with rfl | hq
    · right
      rw [hx]
      exact List.rel_of_pairwise_cons hr (by simp)
    · exact ih h (List.Pairwise.of_cons hr) hq

theorem Chain.next_last (h : Chain next a l z) : next (l.getLastD a) = z := by
  induction l generalizing a with
  | nil => exact h
  | cons x l ih =>
    rw [List.getLastD_cons]
    exact ih h.2

theorem Ring.split (h : Ring next l) (hp : p ∈ l) (hq : l.head? ≠ some (next p)) :
    ∃ xs ys, l = xs ++ p :: next p :: ys := by
  obtain ⟨xs,ys,rfl⟩ := List.append_of_mem hp
  have hn := (ring_rotate.mp h).next_head
  cases ys with
  | cons y ys =>
    rw [List.cons_append,List.headD_cons] at hn
    exact ⟨xs,ys,by rw [hn]⟩
  | nil =>
    rw [List.nil_append] at hn
    cases xs with
    | nil => simp [hn] at hq
    | cons x xs => simp [hn] at hq

theorem iterate_early {S : Finset α} (h : ∀ a, next a ∈ S) (a : α) (k : ℕ) :
    ∃ j ≤ S.card, next^[k] a = next^[j] a := by
  induction k using Nat.strong_induction_on with
  | h k ih =>
    rcases Nat.lt_or_ge S.card k with hk | hk
    · have hcard : S.card < (Finset.range (S.card + 1)).card := by simp
      have hmem : ∀ i ∈ Finset.range (S.card + 1), next^[i + 1] a ∈ S := fun i _ => by
        rw [Function.iterate_succ_apply']
        exact h _
      -- two of the first nodes are one, and the way between them can be left out
      obtain ⟨i,hi,j,hj,hne,he⟩ := Finset.exists_ne_map_eq_of_card_lt_of_maps_to hcard hmem
      wlog hij : i < j generalizing i j with hw
      · exact hw j hj i hi hne.symm he.symm (by omega)
      have hj := Finset.mem_range.mp hj
      have hcut : next^[k] a = next^[k - (j + 1) + (i + 1)] a := by
        rw [Function.iterate_add_apply,he,← Function.iterate_add_apply,Nat.sub_add_cancel (by omega)]
      rw [hcut]
      exact ih _ (by omega)
    · exact ⟨k,hk,rfl⟩

end UoDOS.Chains
