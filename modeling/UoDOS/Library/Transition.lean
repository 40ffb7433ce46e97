import Mathlib

/-! # Finite runs of a labelled step relation

A label names one atomic step.
-/
namespace UoDOS.Transition

variable {S L : Type*} {step : S → L → S → Prop}

/-- Every label of the run is a literal step between two consecutive states. -/
inductive Runs (step : S → L → S → Prop) : S → List L → S → Prop
  | refl (s : S) : Runs step s [] s
  | snoc {s t u : S} {ls : List L} {l : L} (h : Runs step s ls t) (he : step t l u) :
      Runs step s (ls ++ [l]) u

def graph (f : S → L → Option S) (s : S) (l : L) (t : S) : Prop := f s l = some t

def guarded (step : S → L → S → Prop) (ok : S → L → Prop) (s : S) (l : L) (t : S) : Prop :=
  ok s l ∧ step s l t

theorem Runs.trans {s t u : S} {ls ms : List L} (h : Runs step s ls t) (h' : Runs step t ms u) :
    Runs step s (ls ++ ms) u := by
  induction h' with
  | refl => simpa using h
  | snoc _ he ih => simpa [List.append_assoc] using ih.snoc he

theorem Runs.one {s t : S} {l : L} (he : step s l t) : Runs step s [l] t := by
  simpa using (Runs.refl s).snoc he

theorem Runs.cons {s t u : S} {l : L} {ls : List L} (he : step s l t) (h : Runs step t ls u) :
    Runs step s (l :: ls) u := by
  simpa using (Runs.one he).trans h

theorem Runs.mono {step step' : S → L → S → Prop} {s t : S} {ls : List L} (h : Runs step s ls t)
    (hm : ∀ s l t, step s l t → step' s l t) : Runs step' s ls t := by
  induction h with
  | refl => exact .refl _
  | snoc _ he ih => exact ih.snoc (hm _ _ _ he)

theorem Runs.guarded {ok : S → L → Prop} {s t : S} {ls : List L} (h : Runs step s ls t)
    (hok : ∀ l ∈ ls, ∀ a, ok a l) : Runs (Transition.guarded step ok) s ls t := by
  induction h with
  | refl => exact .refl _
  | snoc _ he ih =>
    exact (ih (fun l hl => hok l (by simp [hl]))).snoc ⟨hok _ (by simp) _,he⟩

/-- The state after the listed steps of a partial step function. -/
def execute (f : S → L → Option S) : S → List L → Option S
  | s, [] => some s
  | s, l :: ls => (f s l).bind (fun t => execute f t ls)

theorem Runs.of_execute {f : S → L → Option S} {s t : S} {ls : List L} (h : execute f s ls = some t) :
    Runs (graph f) s ls t := by
  induction ls generalizing s with
  | nil => cases h; exact .refl _
  | cons l ls ih =>
    obtain ⟨u,hu,ht⟩ := Option.bind_eq_some_iff.mp h
    exact .cons hu (ih ht)

theorem Runs.of_execute_guarded {f : S → L → Option S} {ok : S → L → Prop} [∀ s l, Decidable (ok s l)]
    {s t : S} {ls : List L} (h : execute (fun a l => if ok a l then f a l else none) s ls = some t) :
    Runs (Transition.guarded (graph f) ok) s ls t := by
  refine (Runs.of_execute h).mono (fun a l b he => ?_)
  simp only [graph] at he
  split_ifs at he with hok
  exact ⟨hok,he⟩

theorem Runs.invariant {I : S → Prop} {s t : S} {ls : List L} (h : Runs step s ls t) (hs : I s)
    (hstep : ∀ a l b, I a → step a l b → I b) : I t := by
  induction h with
  | refl => exact hs
  | snoc _ he ih => exact hstep _ _ _ ih he

theorem Runs.invariant_trace {I : List L → S → Prop} {s t : S} {ls : List L} (h : Runs step s ls t)
    (hs : I [] s) (hstep : ∀ ms a l b, I ms a → step a l b → I (ms ++ [l]) b) : I ls t := by
  induction h with
  | refl => exact hs
  | snoc _ he ih => exact hstep _ _ _ _ ih he

theorem Runs.simulation {T : Type*} {step' : T → L → T → Prop} {R : S → T → Prop} {s t : S} {a : T}
    {ls : List L} (h : Runs step s ls t) (hs : R s a)
    (hstep : ∀ s l t a, R s a → step s l t → ∃ b, step' a l b ∧ R t b) :
    ∃ b, Runs step' a ls b ∧ R t b := by
  induction h with
  | refl => exact ⟨a,Runs.refl a,hs⟩
  | snoc _ he ih =>
    obtain ⟨b,hr,hb⟩ := ih
    obtain ⟨b',he',hb'⟩ := hstep _ _ _ _ hb he
    exact ⟨b',hr.snoc he',hb'⟩

end UoDOS.Transition
