import Mathlib

/-! # Computations with the events on their way

A computation that may stop, with the events up to its end. It performs another one if
it has the same result and its events keep a law, and that can be checked step by step.
-/
namespace UoDOS.Traces

structure Traced (ω ε α : Type) where
  events : List ω
  result : Except ε α

variable {ω ε ρ α β : Type}

instance : Monad (Traced ω ε) where
  pure a := ⟨[],.ok a⟩
  bind x f := match x.result with
    | .error e => ⟨x.events,.error e⟩
    | .ok a => ⟨x.events ++ (f a).events,(f a).result⟩

def emit (e : ω) : Traced ω ε Unit := ⟨[e],.ok ()⟩

def stop (e : ε) : Traced ω ε α := ⟨[],.error e⟩

@[simp] theorem pure_result (a : α) : (pure a : Traced ω ε α).result = .ok a := rfl

@[simp] theorem pure_events (a : α) : (pure a : Traced ω ε α).events = [] := rfl

theorem emit_bind (e : ω) (f : Unit → Traced ω ε α) : emit e >>= f = ⟨e :: (f ()).events,(f ()).result⟩ := rfl

theorem bind_of_ok {x : Traced ω ε α} {f : α → Traced ω ε β} {a : α} (h : x.result = .ok a) :
    x >>= f = ⟨x.events ++ (f a).events,(f a).result⟩ := by
  simp only [bind,h]

theorem bind_of_error {x : Traced ω ε α} {f : α → Traced ω ε β} {e : ε} (h : x.result = .error e) :
    x >>= f = ⟨x.events,.error e⟩ := by
  simp only [bind,h]

theorem events_bind_subset (x : Traced ω ε α) (f : α → Traced ω ε β) : x.events ⊆ (x >>= f).events := by
  cases h : x.result with
  | error e => rw [bind_of_error h]; exact List.Subset.refl _
  | ok a => rw [bind_of_ok h]; exact List.subset_append_left _ _

structure Law (G : List ω → Prop) : Prop where
  nil : G []
  append : ∀ as bs, G as → G bs → G (as ++ bs)

structure Performs (G : List ω → Prop) (x : Traced ω ε α) (y : Except ε α) : Prop where
  result : x.result = y
  events : G x.events

section Rules
variable {G : List ω → Prop} {x : Traced ω ε α} {y : Except ε α}

theorem Performs.pure (hG : Law G) (a : α) : Performs G (Pure.pure a : Traced ω ε α) (.ok a) := ⟨rfl,hG.nil⟩

theorem Performs.stop (hG : Law G) (e : ε) : Performs G (stop e : Traced ω ε α) (.error e) := ⟨rfl,hG.nil⟩

theorem Performs.bind {f : α → Traced ω ε β} {g : α → Except ε β} (hG : Law G) (hx : Performs G x y)
    (hf : ∀ a, y = .ok a → Performs G (f a) (g a)) : Performs G (x >>= f) (y >>= g) := by
  cases y with
  | error e =>
    rw [bind_of_error hx.result]
    exact ⟨rfl,hx.events⟩
  | ok a =>
    rw [bind_of_ok hx.result]
    have ha := hf a rfl
    exact ⟨ha.result,hG.append _ _ hx.events ha.events⟩

theorem Performs.seq {x : Traced ω ε α} {a : α} {f : α → Traced ω ε β} {y : Except ε β} (hG : Law G)
    (hx : Performs G x (.ok a)) (hf : Performs G (f a) y) : Performs G (x >>= f) y := by
  rw [bind_of_ok hx.result]
  exact ⟨hf.result,hG.append _ _ hx.events hf.events⟩

theorem Performs.emit {e : ω} {f : Unit → Traced ω ε α} (hG : Law G) (he : G [e]) (hx : Performs G (f ()) y) :
    Performs G (emit e >>= f) y :=
  ⟨hx.result,hG.append [e] _ he hx.events⟩

end Rules

theorem law_forall (P : ω → Prop) : Law (fun es => ∀ e ∈ es, P e) where
  nil := by simp
  append as bs ha hb e he := (List.mem_append.mp he).elim (ha e) (hb e)

def PairsOf (take give : ρ → ω) (P : ρ → Prop) (es : List ω) : Prop :=
  ∃ rs : List ρ, es = rs.flatMap (fun r => [take r,give r]) ∧ ∀ r ∈ rs, P r

theorem law_pairsOf (take give : ρ → ω) (P : ρ → Prop) : Law (PairsOf take give P) where
  nil := ⟨[],rfl,by simp⟩
  append := by
    rintro _ _ ⟨rs,rfl,hr⟩ ⟨rs',rfl,hr'⟩
    refine ⟨rs ++ rs',List.flatMap_append.symm,fun r h => ?_⟩
    exact (List.mem_append.mp h).elim (hr r) (hr' r)

end UoDOS.Traces
