import UoDOS.Library.Transition
import UoDOS.Process.State

/-! # sleep and wakeup of proc.c for arbitrary code

Processes take and release any locks, test conditions, call wakeup and call sleep in any order;
the discipline of their callers is a condition on the steps.
-/
namespace UoDOS.SleepWakeup
open ProcState Transition Function

variable {P C L : Type} [DecidableEq P] [DecidableEq C] [DecidableEq L]

inductive LockName (L : Type)
  | processTable
  | other (l : L)
  deriving DecidableEq

inductive Holder (P : Type)
  | process (p : P)
  | scheduler
  deriving DecidableEq

/-- Where a process is. `code` is outside of sleep and yield, with the channel of
the sleep it has just returned from. -/
inductive Control (C : Type)
  | code (returned : Option C)
  | sleepEnter (c : C)
  | sleepHandOver (c : C)
  | sleepCommit (c : C)
  | parked (c : C)
  | woken (c : C)
  | reacquire (c : C)
  | yielded
  | yieldBack

structure Process (C : Type) where
  State : ProcState
  Chan : Option C
  control : Control C

structure Config (P C L : Type) where
  process : P → Process C
  lock : LockName L → Option (Holder P)
  tested : P → C → Bool
  missed : P → C → Bool

inductive Move (P C L : Type)
  | acquire (p : P) (l : LockName L)
  | release (p : P) (l : LockName L)
  | test (p : P) (c : C)
  | wakeup (p : P) (c : C)
  | sleep (p : P) (c : C)
  | yield (p : P)
  | run (p : P)
  | kill (p : P)
  | schedulerAcquires
  | schedulerReleases
  | dispatch (p : P)

def Config.set (s : Config P C L) (p : P) (x : Process C) : Config P C L :=
  { s with process := update s.process p x }

def Config.goto (s : Config P C L) (p : P) (x : Control C) : Config P C L :=
  s.set p { s.process p with control := x }

def Config.pass (lk : C → LockName L) (s : Config P C L) (l : LockName L) (h : Option (Holder P)) : Config P C L :=
  { s with
    lock := update s.lock l h
    tested := fun p c => if lk c = l then false else s.tested p c }

def wakeup1 (chan : C) (process : P → Process C) (q : P) : Process C :=
  if (process q).State = SLEEPING ∧ (process q).Chan = some chan then
    { process q with State := RUNNABLE } else process q

def Control.isCode : Control C → Bool
  | .code _ => true
  | _ => false

def runProcess (lk : C → LockName L) (s : Config P C L) (p : P) : Option (Config P C L) :=
  match (s.process p).control with
  | .sleepEnter c =>
    if s.lock .processTable = none then
      some ((s.pass lk .processTable (some (.process p))).goto p (.sleepHandOver c)) else none
  | .sleepHandOver c => some ((s.pass lk (lk c) none).goto p (.sleepCommit c))
  | .sleepCommit c =>
    some ((s.pass lk .processTable (some .scheduler)).set p ⟨SLEEPING,some c,.parked c⟩)
  | .woken c =>
    if lk c = .processTable then some (s.set p { s.process p with Chan := none, control := .code (some c) })
    else some ((s.pass lk .processTable none).set p { s.process p with Chan := none, control := .reacquire c })
  | .reacquire c =>
    if s.lock (lk c) = none then
      some ((s.pass lk (lk c) (some (.process p))).goto p (.code (some c))) else none
  | .yieldBack => some ((s.pass lk .processTable none).goto p (.code none))
  | _ => none

/-- `wakeup` is wakeup1 by a process that holds processTable.Lock already and
wakeup otherwise. A step that needs a lock held by somebody else is not enabled. -/
def step (lk : C → LockName L) (s : Config P C L) : Move P C L → Option (Config P C L)
  | .acquire p l =>
    if (s.process p).State = RUNNING ∧ (s.process p).control.isCode ∧ s.lock l = none then
      some ((s.pass lk l (some (.process p))).goto p (.code none)) else none
  | .release p l =>
    if (s.process p).State = RUNNING ∧ (s.process p).control.isCode ∧ s.lock l = some (.process p) then
      some ((s.pass lk l none).goto p (.code none)) else none
  | .test p c =>
    if (s.process p).State = RUNNING ∧ (s.process p).control.isCode then
      some { s.goto p (.code none) with
        tested := fun q d => if q = p ∧ d = c then true else s.tested q d
        missed := fun q d => if q = p ∧ d = c then false else s.missed q d }
    else none
  | .wakeup p c =>
    if (s.process p).State = RUNNING ∧ (s.process p).control.isCode ∧
        (s.lock .processTable = none ∨ s.lock .processTable = some (.process p)) then
      some { s with
        process := wakeup1 c (s.goto p (.code none)).process
        tested := fun q d => if q = p ∧ d = c then false else s.tested q d
        missed := fun q d => if d = c then true else s.missed q d }
    else none
  | .sleep p c =>
    if (s.process p).State = RUNNING ∧ (s.process p).control.isCode then
      some (s.goto p (if lk c = .processTable then .sleepCommit c else .sleepEnter c))
    else none
  | .yield p =>
    if (s.process p).State = RUNNING ∧ (s.process p).control.isCode ∧ s.lock .processTable = none then
      some ((s.pass lk .processTable (some .scheduler)).set p
        { s.process p with State := RUNNABLE, control := .yielded })
    else none
  | .run p => if (s.process p).State = RUNNING then runProcess lk s p else none
  | .kill p =>
    if s.lock .processTable = none then
      some (s.set p { s.process p with
        State := if (s.process p).State = SLEEPING then RUNNABLE else (s.process p).State })
    else none
  | .schedulerAcquires =>
    if s.lock .processTable = none then some (s.pass lk .processTable (some .scheduler)) else none
  | .schedulerReleases =>
    if s.lock .processTable = some .scheduler then some (s.pass lk .processTable none) else none
  | .dispatch p =>
    if s.lock .processTable = some .scheduler ∧ (s.process p).State = RUNNABLE then
      match (s.process p).control with
      | .parked c => some ((s.pass lk .processTable (some (.process p))).set p
          { s.process p with State := RUNNING, control := .woken c })
      | .yielded => some ((s.pass lk .processTable (some (.process p))).set p
          { s.process p with State := RUNNING, control := .yieldBack })
      | _ => none
    else none

/-- The discipline of the claimants: a condition is tested, changed with a call of
wakeup, and waited for after a test, all under its lock. -/
def Disciplined (lk : C → LockName L) (s : Config P C L) : Move P C L → Prop
  | .test p c | .wakeup p c => s.lock (lk c) = some (.process p)
  | .sleep p c => s.lock (lk c) = some (.process p) ∧ s.tested p c = true
  | _ => True

instance (lk : C → LockName L) (s : Config P C L) (m : Move P C L) : Decidable (Disciplined lk s m) := by
  cases m <;> unfold Disciplined <;> infer_instance

/-- All locks are free, nobody sleeps, and the processes wait for their turn. -/
def Initial (s : Config P C L) : Prop :=
  (∀ l, s.lock l = none) ∧ (∀ p, (s.process p).State = RUNNABLE ∧ (s.process p).control = .yielded) ∧
  ∀ p c, s.tested p c = false

section Fields
omit [DecidableEq C] [DecidableEq L]
variable (s : Config P C L) (p q : P) (x : Process C) (y : Control C)

@[simp] theorem set_process : (s.set p x).process q = if q = p then x else s.process q := by
  simp [Config.set,update_apply]

@[simp] theorem set_lock : (s.set p x).lock = s.lock := rfl
@[simp] theorem set_tested : (s.set p x).tested = s.tested := rfl
@[simp] theorem set_missed : (s.set p x).missed = s.missed := rfl

end Fields

section Passed
omit [DecidableEq P] [DecidableEq C]
variable (lk : C → LockName L) (s : Config P C L) (l : LockName L) (h : Option (Holder P))

@[simp] theorem pass_process : (s.pass lk l h).process = s.process := rfl
@[simp] theorem pass_missed : (s.pass lk l h).missed = s.missed := rfl
@[simp] theorem pass_lock (m : LockName L) : (s.pass lk l h).lock m = if m = l then h else s.lock m := by
  simp [Config.pass,update_apply]

end Passed

section Wakeup
omit [DecidableEq P]
variable {c : C} {f : P → Process C} {q : P}

theorem wakeup1_control : (wakeup1 c f q).control = (f q).control := by
  unfold wakeup1
  split_ifs <;> rfl

theorem wakeup1_chan : (wakeup1 c f q).Chan = (f q).Chan := by
  unfold wakeup1
  split_ifs <;> rfl

theorem wakeup1_sleeping (h : (wakeup1 c f q).State = SLEEPING) :
    (f q).State = SLEEPING ∧ (f q).Chan ≠ some c := by
  unfold wakeup1 at h
  split_ifs at h with hn
  exact ⟨h,fun hc => hn ⟨h,hc⟩⟩

end Wakeup

end UoDOS.SleepWakeup
