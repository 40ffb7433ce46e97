import Mathlib

/-! # Computations that may stop

Inversion of the steps of a computation in `Except`, what it delivers unless it stops, and
the invariant rule for a loop over a list.
-/
namespace UoDOS.Results

variable {ε α β σ : Type}

theorem bind_eq_ok {x : Except ε α} {f : α → Except ε β} {b : β} :
    x >>= f = .ok b ↔ ∃ a, x = .ok a ∧ f a = .ok b := by
  cases x with
  | error e => simp [bind,Except.bind]
  | ok a => simp [bind,Except.bind]

theorem map_eq_ok {x : Except ε α} {f : α → β} {b : β} : x.map f = .ok b ↔ ∃ a, x = .ok a ∧ f a = b := by
  cases x with
  | error e => simp [Except.map]
  | ok a => simp [Except.map]

theorem bind_returns {x : Except ε α} {f : α → Except ε β} (hx : ∃ a, x = .ok a)
    (hf : ∀ a, ∃ b, f a = .ok b) : ∃ b, x >>= f = .ok b := by
  obtain ⟨a,rfl⟩ := hx
  exact hf a

def Avoids (bad : ε → Prop) (x : Except ε α) : Prop := ∀ e, x = .error e → ¬ bad e

section Avoids

variable {bad : ε → Prop} {x : Except ε α} {f : α → Except ε β}

theorem avoids_ok (a : α) : Avoids bad (.ok a : Except ε α) := by
  intro e he
  cases he

theorem avoids_error {e : ε} (h : ¬ bad e) : Avoids bad (.error e : Except ε α) := by
  intro e' he
  cases he
  exact h

theorem avoids_bind (hx : Avoids bad x) (hf : ∀ a, x = .ok a → Avoids bad (f a)) : Avoids bad (x >>= f) := by
  cases x with
  | error e => exact avoids_error (hx e rfl)
  | ok a => exact hf a rfl

end Avoids

/-- The computation stops for a tolerated reason or returns a value with `P`. -/
inductive Delivers (tolerated : ε → Prop) (P : α → Prop) : Except ε α → Prop
  | error {e : ε} (h : tolerated e) : Delivers tolerated P (.error e)
  | ok {a : α} (h : P a) : Delivers tolerated P (.ok a)

section Delivers

variable {tolerated : ε → Prop} {P P' : α → Prop} {Q : β → Prop} {x : Except ε α} {f : α → Except ε β}

theorem Delivers.imp (h : Delivers tolerated P x) (hP : ∀ a, P a → P' a) : Delivers tolerated P' x := by
  cases h with
  | error h => exact .error h
  | ok h => exact .ok (hP _ h)

theorem Delivers.bind (h : Delivers tolerated P x) (hf : ∀ a, P a → Delivers tolerated Q (f a)) :
    Delivers tolerated Q (x >>= f) := by
  cases h with
  | error h => exact .error h
  | ok h => exact hf _ h

theorem Delivers.result (h : Delivers tolerated P x) : Delivers tolerated (fun a => P a ∧ x = .ok a) x := by
  cases h with
  | error h => exact .error h
  | ok h => exact .ok ⟨h,rfl⟩

theorem Delivers.returns {tolerated' : ε → Prop} (h : Delivers tolerated P x) (h' : Delivers tolerated' P' x)
    (hno : ∀ e, tolerated e → ¬ tolerated' e) : ∃ a, x = .ok a ∧ P a ∧ P' a := by
  cases h with
  | error h =>
    cases h' with
    | error h' => exact absurd h' (hno _ h)
  | ok h =>
    cases h' with
    | ok h' => exact ⟨_,rfl,h,h'⟩

end Delivers

theorem foldlM_invariant {f : σ → α → Except ε σ} {I : List α → σ → Prop} {l : List α} {s t : σ}
    (h : l.foldlM f s = .ok t) (hs : I [] s)
    (hstep : ∀ done a rest s t, l = done ++ a :: rest → I done s → f s a = .ok t → I (done ++ [a]) t) :
    I l t := by
  suffices hgen : ∀ rest done s, l = done ++ rest → I done s → rest.foldlM f s = .ok t → I l t from
    hgen l [] s rfl hs h
  intro rest
  induction rest with
  | nil =>
    intro done s hl hi h
    cases h
    rw [hl,List.append_nil]
    exact hi
  | cons a rest ih =>
    intro done s hl hi h
    rw [List.foldlM_cons,bind_eq_ok] at h
    obtain ⟨u,hu,ht⟩ := h
    exact ih (done ++ [a]) u (by simp [hl]) (hstep done a rest s u hl hi hu) ht

end UoDOS.Results
