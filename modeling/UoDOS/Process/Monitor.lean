import UoDOS.Library.Transition
import UoDOS.Process.State

/-! # Critical sections that sleep

The code of one spinlock `lk` is a control-flow graph: at a control point the holder works on
the protected data, calls wakeup, calls sleep, or releases.
-/
namespace UoDOS.Monitor
open ProcState Transition

variable {P K C D : Type} [DecidableEq P] [DecidableEq C]

inductive Action (K C D : Type)
  | work (k : K) (d : D)
  | wakeup (chan : C) (k : K)
  | sleep (chan : C) (k : K)
  | release (result : ℤ)

/-- Where a process stands relative to the lock. The three stages of sleep hold
`lk`, then both locks, then only `processTable.Lock`; `parked` is inside sched. -/
inductive Control (K C : Type)
  | outside
  | acquiring (k : K)
  | inside (k : K)
  | sleepEnter (chan : C) (k : K)
  | sleepHandOver (chan : C) (k : K)
  | sleepCommit (chan : C) (k : K)
  | parked (k : K)

/-- The fields of a Process that sleep, wakeup, kill and the scheduler touch. -/
structure Thread (K C : Type) where
  State : ProcState
  Chan : Option C
  IsKilled : Bool
  control : Control K C

structure Config (P K C D : Type) where
  data : D
  lock : Option P
  tableLock : Option P
  thread : P → Thread K C

/-- One atomic step: a call, the next step of a process inside its call, or one
of the steps taken under `processTable.Lock` on its behalf. -/
inductive Move (P K : Type)
  | call (p : P) (k : K)
  | run (p : P)
  | kill (p : P)
  | dispatch (p : P)
  | yield (p : P)

/-- wakeup1: every process SLEEPING on the channel becomes RUNNABLE. -/
def wakeup1 (chan : C) (thread : P → Thread K C) (q : P) : Thread K C :=
  if (thread q).State = SLEEPING ∧ (thread q).Chan = some chan then
    { thread q with State := RUNNABLE } else thread q

def kill (t : Thread K C) : Thread K C :=
  { t with IsKilled := true, State := if t.State = SLEEPING then RUNNABLE else t.State }

def Config.set (s : Config P K C D) (p : P) (t : Thread K C) : Config P K C D :=
  { s with thread := Function.update s.thread p t }

def Config.goto (s : Config P K C D) (p : P) (control : Control K C) : Config P K C D :=
  s.set p { s.thread p with control := control }

/-- The next step of a RUNNING process. A step that needs a lock held by
somebody else is not enabled. -/
def runThread (next : K → Bool → D → Action K C D) (s : Config P K C D) (p : P) :
    Option (Config P K C D) :=
  if (s.thread p).State ≠ RUNNING then none else
  match (s.thread p).control with
  | .outside => none
  | .acquiring k => if s.lock = none then some { s.goto p (.inside k) with lock := some p } else none
  | .inside k =>
    match next k (s.thread p).IsKilled s.data with
    | .work k' d => some { s.goto p (.inside k') with data := d }
    | .wakeup c k' =>
      if s.tableLock = none then
        some { s.goto p (.inside k') with thread := wakeup1 c (s.goto p (.inside k')).thread }
      else none
    | .sleep c k' => some (s.goto p (.sleepEnter c k'))
    | .release _ => some { s.goto p .outside with lock := none }
  | .sleepEnter c k =>
    if s.tableLock = none then some { s.goto p (.sleepHandOver c k) with tableLock := some p } else none
  | .sleepHandOver c k => some { s.goto p (.sleepCommit c k) with lock := none }
  | .sleepCommit c k =>
    some { s.set p { s.thread p with State := SLEEPING, Chan := some c, control := .parked k } with
      tableLock := none }
  | .parked k =>
    if s.tableLock = none then
      some (s.set p { s.thread p with Chan := none, control := .acquiring k })
    else none

def step (next : K → Bool → D → Action K C D) (entry : K → Bool) (s : Config P K C D) :
    Move P K → Option (Config P K C D)
  | .call p k =>
    match (s.thread p).control with
    | .outside =>
      if entry k = true ∧ (s.thread p).State = RUNNING then some (s.goto p (.acquiring k)) else none
    | _ => none
  | .run p => runThread next s p
  | .kill p =>
    if s.tableLock = none then
      some (s.set p (kill (s.thread p)))
    else none
  | .dispatch p =>
    if s.tableLock = none ∧ (s.thread p).State = RUNNABLE then
      some (s.set p { s.thread p with State := RUNNING })
    else none
  | .yield p =>
    match (s.thread p).control with
    | .outside | .acquiring _ =>
      if s.tableLock = none ∧ (s.thread p).State = RUNNING then
        some (s.set p { s.thread p with State := RUNNABLE })
      else none
    | _ => none

/-- Nobody is in a call, nobody sleeps, and both locks are free. -/
def Initial (s : Config P K C D) : Prop :=
  s.lock = none ∧ s.tableLock = none ∧
  ∀ p, (s.thread p).control = .outside ∧ (s.thread p).State = RUNNABLE

end UoDOS.Monitor
