import UoDOS.Process.Scheduling

/-! # What one step of the schedulers and the processes can do

A step changes the place of one scheduler or of the process it has switched to, and
at most one State apart from the sleepers it wakes.
-/
namespace UoDOS.Scheduling
open ProcState Transition Function
open Processes (ProcessTable Slot setState setParent Woken woken_wakeup1 woken_kill woken_setParent exited_exitSlot
  waitSlot_cases)

variable {U : Type} [DecidableEq U]

def Scheduler.locked : Scheduler → Bool
  | .starting | .loop | .running _ => false
  | _ => true

def Scheduler.quiet : Scheduler → Bool
  | .chosen _ | .running _ | .back _ => false
  | _ => true

def Control.locked : Control → Bool
  | .code _ => false
  | _ => true

def Control.isSwitching : Control → Bool
  | .switching _ _ => true
  | _ => false

def Code.owns : Code → Option (Fin NPROC)
  | .normal => none
  | .embryo np => some np
  | .built np => some np

def Control.owns : Control → Option (Fin NPROC)
  | .code k => k.owns
  | .publishing np => some np
  | .waking k _ => k.owns
  | .yielding k => k.owns
  | .switching k _ => k.owns
  | .resumed k _ => k.owns
  | .leaving k => k.owns
  | _ => none

def Steady (t t' : ProcessTable) (q : Fin NPROC) : Prop :=
  (t' q).ProcessId = (t q).ProcessId ∧
  ((t' q).State = (t q).State ∨ (t q).State = SLEEPING ∧ (t' q).State = RUNNABLE)

inductive Passes (u : U) : Option U → Bool → Option U → Bool → Prop
  | keep (l : Option U) (b : Bool) : Passes u l b l b
  | take : Passes u none false (some u) true
  | release (l : Option U) : Passes u l true none false

def Offered (x : ProcState) : Prop := x = RUNNABLE ∨ x = SLEEPING ∨ x = ZOMBIE

inductive Effect (s : System U) : System U → Prop
  | scheduler (u : U) (c : Scheduler) (t : ProcessTable) (l : Option U) (x : Option (Fin NPROC))
      (ht : ∀ q, Steady s.table t q) (hp : Passes u s.Lock (s.scheduler u).locked l c.locked)
      (hc : c.quiet = true) (hx : x = none ∨ (s.scheduler u).quiet = true ∧ x = s.Process u)
      (hr : ∀ p, s.scheduler u ≠ .running p) :
      Effect s { s with
        table := t, Lock := l, Process := update s.Process u x
        scheduler := update s.scheduler u c }
  | choose (u : U) (i : ℕ) (p : Fin NPROC) (hs : s.scheduler u = .scanning i) (hp : (s.table p).State = RUNNABLE) :
      Effect s ({ s with Process := update s.Process u (some p) }.schedule u (.chosen p))
  | dispatch (u : U) (p : Fin NPROC) (k : Code) (r : Caller) (hs : s.scheduler u = .chosen p)
      (hc : s.control p = .switching k r) :
      Effect s (({ s with table := setState s.table p RUNNING }.schedule u (.running p)).goto p (.resumed k r))
  | swtch (u : U) (p : Fin NPROC) (hs : s.scheduler u = .running p) (hc : (s.control p).isSwitching = true) :
      Effect s (s.schedule u (.back p))
  | process (u : U) (p : Fin NPROC) (c : Control) (t : ProcessTable) (l : Option U)
      (hs : s.scheduler u = .running p) (ht : ∀ q, Steady s.table t q)
      (hp : Passes u s.Lock (s.control p).locked l c.locked) (ho : ∀ np, c.owns = some np → (s.control p).owns = some np)
      (hb : (s.control p).isSwitching = false) (hc : c.isSwitching = false) :
      Effect s ({ s with table := t, Lock := l }.goto p c)
  | offer (u : U) (p : Fin NPROC) (k : Code) (r : Caller) (t : ProcessTable) (hs : s.scheduler u = .running p)
      (ht : ∀ q ≠ p, Steady s.table t q) (hp : (t p).ProcessId = (s.table p).ProcessId) (hx : Offered (t p).State)
      (hl : (s.control p).locked = true) (ho : ∀ np, k.owns = some np → (s.control p).owns = some np)
      (hb : (s.control p).isSwitching = false) :
      Effect s ({ s with table := t }.goto p (.switching k r))
  | allocate (u : U) (p np : Fin NPROC) (i : ℕ) (hs : s.scheduler u = .running p) (hc : s.control p = .allocating i)
      (hu : (s.table np).State = UNUSED) : Effect s (s.allocate p np)
  | publish (u : U) (p np : Fin NPROC) (hs : s.scheduler u = .running p) (hc : s.control p = .publishing np) :
      Effect s ({ s with table := setState s.table np RUNNABLE }.goto p (.leaving .normal))
  | fail (u : U) (p np : Fin NPROC) (hs : s.scheduler u = .running p) (hc : s.control p = .code (.embryo np)) :
      Effect s ({ s with table := setState s.table np UNUSED }.goto p (.code .normal))
  | reap (u : U) (p i : Fin NPROC) (x : Slot) (hs : s.scheduler u = .running p) (hc : s.control p = .waiting)
      (hz : (s.table i).State = ZOMBIE) (hx : x.State = UNUSED) :
      Effect s ({ s with table := update s.table i x }.goto p (.leaving .normal))

theorem Steady.refl (t : ProcessTable) (q : Fin NPROC) : Steady t t q := ⟨rfl,.inl rfl⟩

theorem steady_of_woken {t t' : ProcessTable} (h : Woken t t') (q : Fin NPROC) : Steady t t' q :=
  ⟨h.pid q,h.state q⟩

theorem steady_tidyUp (t : ProcessTable) (p q : Fin NPROC) : Steady t (tidyUp t p) q := by
  rcases eq_or_ne q p with rfl | hq
  · simp [Steady,tidyUp]
  · simp [Steady,tidyUp,hq]

theorem steady_update {t : ProcessTable} {p q : Fin NPROC} {x : Slot} (h : q ≠ p) :
    Steady t (update t p x) q := by
  simp [Steady,h]

section Effects
variable {s s' : System U} {u : U} {p : Fin NPROC}

theorem effect_of_begin {k : Code} {r : Request} {c : Control} (h : r.begin p k = some c) :
    c.owns = k.owns ∧ c.locked = true ∧ c.isSwitching = false := by
  cases r with
  | publish =>
    cases k <;> simp only [Request.begin] at h <;> cases h
    exact ⟨rfl,rfl,rfl⟩
  | wakeup chan => cases h; exact ⟨rfl,rfl,rfl⟩
  | yield => cases h; exact ⟨rfl,rfl,rfl⟩
  | _ =>
    simp only [Request.begin,Option.ite_none_right_eq_some] at h
    obtain ⟨hk,h⟩ := h
    cases h
    first
    | exact ⟨by rw [hk]; rfl,rfl,rfl⟩
    | exact ⟨by rw [hk.1]; rfl,rfl,rfl⟩

theorem Effect.stays {c c' : Control} {t : ProcessTable} (hs : s.scheduler u = .running p) (hc : s.control p = c)
    (ht : ∀ q, Steady s.table t q) (hl : c.locked = c'.locked) (ho : ∀ np, c'.owns = some np → c.owns = some np)
    (hb : c.isSwitching = false) (hn : c'.isSwitching = false) :
    Effect s ({ s with table := t }.goto p c') := by
  subst hc
  refine .process u p c' t s.Lock hs ht ?_ ho hb hn
  rw [← hl]
  exact .keep _ _

theorem effect_of_runProcess (hs : s.scheduler u = .running p) (he : runProcess s u p = some s') : Effect s s' := by
  unfold runProcess at he
  split at he
  case h_1 => cases he
  case h_2 i hc =>
    split_ifs at he with hi hu
    · cases he
      exact .allocate u p _ i hs hc hu
    · cases he
      exact .stays hs hc (Steady.refl _) rfl (fun _ => id) rfl rfl
    · cases he
      exact .stays hs hc (Steady.refl _) rfl (fun _ => id) rfl rfl
  case h_3 np hc =>
    cases he
    exact .publish u p np hs hc
  case h_4 k chan hc =>
    cases he
    exact .stays hs hc (steady_of_woken (woken_wakeup1 _ _)) rfl (fun _ => id) rfl rfl
  case h_5 pid hc =>
    cases he
    exact .stays hs hc (steady_of_woken (woken_kill _ _)) rfl (fun _ => id) rfl rfl
  case h_6 k hc =>
    cases he
    exact .offer u p k .yield _ hs (fun q hq => steady_update hq) (by simp [setState])
      (by simp [setState,Offered]) (by rw [hc]; rfl) (by rw [hc]; exact fun _ => id) (by rw [hc]; rfl)
  case h_7 chan hc =>
    cases he
    exact .offer u p .normal .sleep _ hs (fun q hq => steady_update hq) (by simp [goToSleep])
      (by simp [goToSleep,Offered]) (by rw [hc]; rfl) (by rw [hc]; exact fun _ => id) (by rw [hc]; rfl)
  case h_8 hc =>
    cases he
    have hx := exited_exitSlot s.table p
    exact .offer u p .normal .exit _ hs (fun q hq => ⟨hx.pid q,hx.state q hq⟩) (hx.pid p)
      (.inr (.inr hx.zombie)) (by rw [hc]; rfl) (by rw [hc]; exact fun _ => id) (by rw [hc]; rfl)
  case h_9 hc =>
    rcases waitSlot_cases p s.table with ⟨i,-,hz,hw⟩ | hw | ⟨-,hw⟩
    · rw [hw] at he
      cases he
      exact .reap u p i _ hs hc hz rfl
    · rw [hw] at he
      cases he
      exact .stays hs hc (Steady.refl _) rfl (fun _ => id) rfl rfl
    · rw [hw] at he
      cases he
      exact .offer u p .normal .wait _ hs (fun q hq => steady_update hq) (by simp) (by simp [Offered])
        (by rw [hc]; rfl) (by rw [hc]; exact fun _ => id) (by rw [hc]; rfl)
  case h_10 hc =>
    cases he
    exact .swtch u p hs (by rw [hc]; rfl)
  case h_11 k hc =>
    cases he
    exact .stays hs hc (Steady.refl _) rfl (fun _ => id) rfl rfl
  case h_12 k hc =>
    cases he
    exact .stays hs hc (Steady.refl _) rfl (fun _ => id) rfl rfl
  case h_13 k hc =>
    cases he
    exact .stays hs hc (steady_tidyUp _ _) rfl (fun _ => id) rfl rfl
  case h_14 k hc =>
    cases he
    exact .stays hs hc (steady_tidyUp _ _) rfl (fun _ h => nomatch h) rfl rfl
  case h_15 => cases he
  case h_16 k hc =>
    cases he
    exact .process u p _ s.table none hs (Steady.refl _) (by rw [hc]; exact .release _)
      (by rw [hc]; exact fun _ => id) (by rw [hc]; rfl) rfl

theorem Effect.passes {c c' : Scheduler} {t : ProcessTable} {l : Option U} (hs : s.scheduler u = c)
    (ht : ∀ q, Steady s.table t q) (hp : Passes u s.Lock c.locked l c'.locked) (hq : c.quiet = true)
    (hc : c'.quiet = true) : Effect s ({ s with table := t, Lock := l }.schedule u c') := by
  subst hs
  have he := Effect.scheduler (s := s) u c' t l (s.Process u) ht hp hc (.inr ⟨hq,rfl⟩)
    (fun p hr => by rw [hr] at hq; cases hq)
  rwa [update_eq_self] at he

theorem effect_of_runScheduler (he : runScheduler s u = some s') : Effect s s' := by
  unfold runScheduler at he
  split at he
  case h_1 | h_2 | h_3 => cases he
  case h_4 chan hs =>
    cases he
    exact .passes hs (steady_of_woken (woken_wakeup1 _ _)) (.keep _ _) rfl rfl
  case h_5 hs =>
    cases he
    exact .passes hs (Steady.refl _) (.release _) rfl rfl
  case h_6 i hs =>
    split_ifs at he with hi hr
    · cases he
      exact .choose u i _ hs hr
    · cases he
      exact .passes hs (Steady.refl _) (.keep _ _) rfl rfl
    · cases he
      exact .passes hs (Steady.refl _) (.keep _ _) rfl rfl
  case h_7 p hs =>
    split at he
    case h_1 k r hc =>
      cases he
      exact .dispatch u p k r hs hc
    case h_2 => cases he
  case h_8 p hs =>
    cases he
    exact .scheduler u _ s.table s.Lock none (Steady.refl _) (by rw [hs]; exact .keep _ _) rfl (.inl rfl)
      (fun q hq => by rw [hs] at hq; cases hq)

theorem effect_of_step {m : Move U} (he : step s m = some s') : Effect s s' := by
  cases m with
  | start u =>
    simp only [step] at he
    split at he
    case h_1 hs =>
      cases he
      exact .scheduler u _ s.table s.Lock none (Steady.refl _) (by rw [hs]; exact .keep _ _) rfl (.inl rfl)
        (fun q hq => by rw [hs] at hq; cases hq)
    case h_2 => cases he
  | interrupt u chan =>
    simp only [step] at he
    split at he
    case h_1 hs hl =>
      cases he
      exact .passes hs (Steady.refl _) (by rw [hl]; exact .take) rfl rfl
    case h_2 => cases he
  | acquire u =>
    simp only [step] at he
    split at he
    case h_1 hs hl =>
      cases he
      exact .passes hs (Steady.refl _) (by rw [hl]; exact .take) rfl rfl
    case h_2 => cases he
  | scheduler u => exact effect_of_runScheduler he
  | request u r =>
    simp only [step] at he
    split at he
    case h_1 p hs hl =>
      split at he
      case h_1 k hc =>
        obtain ⟨c,hb,he⟩ := Option.map_eq_some_iff.mp he
        obtain ⟨ho,hk,hn⟩ := effect_of_begin hb
        cases he
        exact .process u p c s.table (some u) hs (Steady.refl _) (by rw [hc,hl,hk]; exact .take)
          (by rw [ho,hc]; exact fun _ => id) (by rw [hc]; rfl) hn
      case h_2 => cases he
    case h_2 => cases he
  | run u =>
    simp only [step] at he
    split at he
    case h_1 p hs => exact effect_of_runProcess hs he
    case h_2 => cases he
  | build u =>
    simp only [step] at he
    split at he
    case h_1 p hs =>
      split at he
      case h_1 np hc =>
        cases he
        exact .stays hs hc (steady_of_woken (woken_setParent _ _ _)) rfl (fun _ => id) rfl rfl
      case h_2 => cases he
    case h_2 => cases he
  | fail u =>
    simp only [step] at he
    split at he
    case h_1 p hs =>
      split at he
      case h_1 np hc =>
        cases he
        exact .fail u p np hs hc
      case h_2 => cases he
    case h_2 => cases he

end Effects

end UoDOS.Scheduling
