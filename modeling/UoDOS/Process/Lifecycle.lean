import UoDOS.Library.Transition
import UoDOS.Process.ProcessTable

/-! # The life of a process

Each move is one lock-protected step of fork, exit, wait, kill, sleep, wakeup or the scheduler,
or one of the stores that fork makes without the lock.
-/
namespace UoDOS.Processes
open ProcState Transition Function

/-- Where the kernel code of a process stands between two steps. -/
inductive Control
  | user
  | allocated (np : Fin NPROC)
  | copied (np : Fin NPROC)
  | waiting
  | asleep
  | exited
  deriving DecidableEq

structure Config where
  table : ProcessTable
  nextpid : UInt32
  control : Fin NPROC → Control

inductive Move
  | fork (p : Fin NPROC)
  | abandon (p : Fin NPROC)
  | adopt (p : Fin NPROC)
  | publish (p : Fin NPROC)
  | exit (p : Fin NPROC)
  | wait (p : Fin NPROC)
  | kill (p : Fin NPROC) (pid : UInt32)
  | fault (p : Fin NPROC)
  | sleep (p : Fin NPROC) (address : ℕ)
  | wakeup (address : ℕ)
  | dispatch (p : Fin NPROC)
  | yield (p : Fin NPROC)

/-- What a step lets the processes see: an exit, or a pid that wait returns. -/
inductive Event
  | exited (p : Fin NPROC) (pid : UInt32)
  | reported (parent p : Fin NPROC) (pid : UInt32)
  deriving DecidableEq

def Config.next (s : Config) (t : ProcessTable) (p : Fin NPROC) (k : Control) : Config :=
  ⟨t,s.nextpid,update s.control p k⟩

def setState (t : ProcessTable) (p : Fin NPROC) (x : ProcState) : ProcessTable :=
  update t p { t p with State := x }

/-- The stores of a process that the scheduler lets return from sleep. -/
def wakeSlot (t : ProcessTable) (p : Fin NPROC) : ProcessTable :=
  update t p { t p with State := RUNNING, Chan := none }

def Config.runs (s : Config) (p : Fin NPROC) (k : Control) : Prop :=
  (s.table p).State = RUNNING ∧ s.control p = k

instance (s : Config) (p : Fin NPROC) (k : Control) : Decidable (s.runs p k) :=
  inferInstanceAs (Decidable (_ ∧ _))

def waitRound (s : Config) (t : ProcessTable) (p : Fin NPROC) : Config × Option Event :=
  match waitSlot p t with
  | (.reaped i pid,t) => (s.next t p .user,some (.reported p i pid))
  | (.failed,t) => (s.next t p .user,none)
  | (.asleep,t) => (s.next t p .waiting,none)

def step (s : Config) : Move → Option (Config × Option Event)
  | .fork p =>
    if s.runs p .user then
      match allocateSlot s.table s.nextpid with
      | some (np,t) => some (⟨t,s.nextpid + 1,update s.control p (.allocated np)⟩,none)
      | none => some (s,none)
    else none
  | .abandon p =>
    match s.control p with
    | .allocated np =>
      if (s.table p).State = RUNNING then some (s.next (setState s.table np UNUSED) p .user,none)
      else none
    | _ => none
  | .adopt p =>
    match s.control p with
    | .allocated np =>
      if (s.table p).State = RUNNING then
        some (s.next (setParent s.table np (some p)) p (.copied np),none)
      else none
    | _ => none
  | .publish p =>
    match s.control p with
    | .copied np =>
      if (s.table p).State = RUNNING then
        some ((s.next (setState s.table np RUNNABLE) p .user).next
          (setState s.table np RUNNABLE) np .user,none)
      else none
    | _ => none
  | .exit p =>
    if s.runs p .user ∧ p ≠ initproc then
      some (s.next (exitSlot p s.table) p .exited,some (.exited p (s.table p).ProcessId))
    else none
  | .wait p => if s.runs p .user then some (waitRound s s.table p) else none
  | .kill p pid =>
    if s.runs p .user then some ({ s with table := (kill pid s.table).2 },none) else none
  | .fault p =>
    if s.runs p .user then
      some (s.next (update s.table p { s.table p with IsKilled := true }) p .user,none)
    else none
  | .sleep p address =>
    if s.runs p .user then
      some (s.next (update s.table p
        { s.table p with Chan := some (.other address), State := SLEEPING }) p .asleep,none)
    else none
  | .wakeup address => some ({ s with table := wakeup1 (some (.other address)) s.table },none)
  | .dispatch p =>
    if (s.table p).State = RUNNABLE then
      match s.control p with
      | .waiting => some (waitRound s (wakeSlot s.table p) p)
      | .asleep => some (s.next (wakeSlot s.table p) p .user,none)
      | k => some (s.next (setState s.table p RUNNING) p k,none)
    else none
  | .yield p =>
    if (s.table p).State = RUNNING then
      some (s.next (setState s.table p RUNNABLE) p (s.control p),none)
    else none

def steps (s : Config) (l : Move × Option Event) (s' : Config) : Prop := step s l.1 = some (s',l.2)

def start : Config := ⟨firstTable,2,fun _ => .user⟩

inductive Effect (s : Config) : Move → Option Event → Config → Prop
  | forked {p np : Fin NPROC} {t : ProcessTable} (hr : s.runs p .user)
      (ha : allocateSlot s.table s.nextpid = some (np,t)) : Effect s (.fork p) none
        ⟨t,s.nextpid + 1,update s.control p (.allocated np)⟩
  | full {p : Fin NPROC} : Effect s (.fork p) none s
  | abandoned {p np : Fin NPROC} (hc : s.control p = .allocated np) :
      Effect s (.abandon p) none (s.next (setState s.table np UNUSED) p .user)
  | adopted {p np : Fin NPROC} (hc : s.control p = .allocated np)
      (hr : (s.table p).State = RUNNING) :
      Effect s (.adopt p) none (s.next (setParent s.table np (some p)) p (.copied np))
  | published {p np : Fin NPROC} (hc : s.control p = .copied np) :
      Effect s (.publish p) none ((s.next (setState s.table np RUNNABLE) p .user).next
        (setState s.table np RUNNABLE) np .user)
  | exits {p : Fin NPROC} (hr : s.runs p .user) (hp : p ≠ initproc) :
      Effect s (.exit p) (some (.exited p (s.table p).ProcessId))
        (s.next (exitSlot p s.table) p .exited)
  | waits {p : Fin NPROC} (hr : s.runs p .user) :
      Effect s (.wait p) (waitRound s s.table p).2 (waitRound s s.table p).1
  | kills {p : Fin NPROC} {pid : UInt32} :
      Effect s (.kill p pid) none { s with table := (kill pid s.table).2 }
  | faults {p : Fin NPROC} (hr : s.runs p .user) : Effect s (.fault p) none
      (s.next (update s.table p { s.table p with IsKilled := true }) p .user)
  | sleeps {p : Fin NPROC} {address : ℕ} (hr : s.runs p .user) : Effect s (.sleep p address) none
      (s.next (update s.table p
        { s.table p with Chan := some (.other address), State := SLEEPING }) p .asleep)
  | wakes {address : ℕ} : Effect s (.wakeup address) none
      { s with table := wakeup1 (some (.other address)) s.table }
  | rewaits {p : Fin NPROC} (hr : (s.table p).State = RUNNABLE) : Effect s (.dispatch p)
      (waitRound s (wakeSlot s.table p) p).2 (waitRound s (wakeSlot s.table p) p).1
  | returns {p : Fin NPROC} (hr : (s.table p).State = RUNNABLE) :
      Effect s (.dispatch p) none (s.next (wakeSlot s.table p) p .user)
  | dispatched {p : Fin NPROC} (hr : (s.table p).State = RUNNABLE) :
      Effect s (.dispatch p) none (s.next (setState s.table p RUNNING) p (s.control p))
  | yields {p : Fin NPROC} (hr : (s.table p).State = RUNNING) :
      Effect s (.yield p) none (s.next (setState s.table p RUNNABLE) p (s.control p))

theorem effect_of_steps {s s' : Config} {l : Move × Option Event} (he : steps s l s') :
    Effect s l.1 l.2 s' := by
  obtain ⟨m,e⟩ := l
  cases m with
  | fork p =>
    simp only [steps,step] at he
    split_ifs at he with hr
    split at he
    · rename_i ha
      cases he
      exact .forked hr ha
    · cases he
      exact .full
  | abandon p =>
    simp only [steps,step] at he
    split at he
    · rename_i hc
      split_ifs at he
      cases he
      exact .abandoned hc
    · cases he
  | adopt p =>
    simp only [steps,step] at he
    split at he
    · rename_i hc
      split_ifs at he with hr
      cases he
      exact .adopted hc hr
    · cases he
  | publish p =>
    simp only [steps,step] at he
    split at he
    · rename_i hc
      split_ifs at he
      cases he
      exact .published hc
    · cases he
  | exit p =>
    simp only [steps,step] at he
    split_ifs at he with hr
    cases he
    exact .exits hr.1 hr.2
  | wait p =>
    simp only [steps,step] at he
    split_ifs at he with hr
    have hw := Effect.waits hr
    rw [Option.some.inj he] at hw
    exact hw
  | kill p pid =>
    simp only [steps,step] at he
    split_ifs at he
    cases he
    exact .kills
  | fault p =>
    simp only [steps,step] at he
    split_ifs at he with hr
    cases he
    exact .faults hr
  | sleep p address =>
    simp only [steps,step] at he
    split_ifs at he with hr
    cases he
    exact .sleeps hr
  | wakeup address =>
    simp only [steps,step] at he
    cases he
    exact .wakes
  | dispatch p =>
    simp only [steps,step] at he
    split_ifs at he with hr
    split at he
    · have hw := Effect.rewaits hr
      rw [Option.some.inj he] at hw
      exact hw
    · cases he
      exact .returns hr
    · cases he
      exact .dispatched hr
  | yield p =>
    simp only [steps,step] at he
    split_ifs at he with hr
    cases he
    exact .yields hr

end UoDOS.Processes
