import UoDOS.Process.Lifecycle

/-! # Schedulers on any number of CPUs

Every CPU runs scheduler, which takes processTable.Lock, goes through the table and hands the
lock over to the process it switches to.
-/
namespace UoDOS.Scheduling
open ProcState Transition Function
open Processes (ProcessTable Channel wakeup1 kill exitSlot waitSlot setState setParent initproc firstTable)

variable {U : Type} [DecidableEq U]

inductive Scheduler
  | starting
  /-- the top of the loop, with interrupts on -/
  | loop
  /-- the wakeup of an interrupt handler -/
  | handling (chan : Option Channel)
  | releasing
  | scanning (i : ℕ)
  | chosen (p : Fin NPROC)
  /-- swtch has gone to the process -/
  | running (p : Fin NPROC)
  /-- swtch has come back -/
  | back (p : Fin NPROC)

/-- Where the code of a process stands outside of processTable.Lock: fork has a slot
that allocateProcess made EMBRYO, then one that is ready to be published. -/
inductive Code
  | normal
  | embryo (np : Fin NPROC)
  | built (np : Fin NPROC)
  deriving DecidableEq

inductive Caller
  | forkret
  | yield
  | sleep
  | wait
  | exit

/-- Where a process stands; all but `code` hold the lock. A timer interrupt calls
yield, and any interrupt wakeup, at any place of the code outside of the lock. -/
inductive Control
  | code (k : Code)
  | allocating (i : ℕ)
  | publishing (np : Fin NPROC)
  | waking (k : Code) (chan : Option Channel)
  | killing (pid : UInt32)
  | yielding (k : Code)
  | sleeping (chan : Channel)
  | exiting
  | waiting
  | switching (k : Code) (r : Caller)
  | resumed (k : Code) (r : Caller)
  | leaving (k : Code)

/-- `Process` is the field of each CPU and `created` counts the calls of
allocateProcess that found a slot. -/
structure System (U : Type) where
  table : ProcessTable
  nextpid : UInt32
  created : ℕ
  Lock : Option U
  Process : U → Option (Fin NPROC)
  scheduler : U → Scheduler
  control : Fin NPROC → Control

inductive Request
  | allocate
  | publish
  | wakeup (chan : Option Channel)
  | kill (pid : UInt32)
  | yield
  | sleep (chan : Channel)
  | exit
  | wait

inductive Move (U : Type)
  | start (u : U)
  | interrupt (u : U) (chan : Option Channel)
  | acquire (u : U)
  | scheduler (u : U)
  | request (u : U) (r : Request)
  | run (u : U)
  | build (u : U)
  | fail (u : U)

def System.goto (s : System U) (p : Fin NPROC) (c : Control) : System U :=
  { s with control := update s.control p c }

def System.schedule (s : System U) (u : U) (c : Scheduler) : System U :=
  { s with scheduler := update s.scheduler u c }

/-- Where a call that starts at `k` stands once it holds the lock. -/
def Request.begin (p : Fin NPROC) (k : Code) : Request → Option Control
  | .allocate => if k = .normal then some (.allocating 0) else none
  | .publish => match k with
    | .built np => some (.publishing np)
    | _ => none
  | .wakeup chan => some (.waking k chan)
  | .kill pid => if k = .normal then some (.killing pid) else none
  | .yield => some (.yielding k)
  | .sleep chan => if k = .normal then some (.sleeping chan) else none
  | .exit => if k = .normal ∧ p ≠ initproc then some .exiting else none
  | .wait => if k = .normal then some .waiting else none

def System.allocate (s : System U) (p np : Fin NPROC) : System U :=
  { s with
    table := update s.table np { s.table np with State := EMBRYO, ProcessId := s.nextpid }
    nextpid := s.nextpid + 1
    created := s.created + 1
    control := update (update s.control np (.switching .normal .forkret)) p
      (.leaving (.embryo np)) }

def goToSleep (t : ProcessTable) (p : Fin NPROC) (chan : Channel) : ProcessTable :=
  update t p { t p with Chan := some chan, State := SLEEPING }

def tidyUp (t : ProcessTable) (p : Fin NPROC) : ProcessTable := update t p { t p with Chan := none }

def runProcess (s : System U) (u : U) (p : Fin NPROC) : Option (System U) :=
  match s.control p with
  | .code _ => none
  | .allocating i =>
    if h : i < NPROC then
      if (s.table ⟨i,h⟩).State = UNUSED then some (s.allocate p ⟨i,h⟩)
      else some (s.goto p (.allocating (i + 1)))
    else some (s.goto p (.leaving .normal))
  | .publishing np => some ({ s with table := setState s.table np RUNNABLE }.goto p (.leaving .normal))
  | .waking k chan => some ({ s with table := wakeup1 chan s.table }.goto p (.leaving k))
  | .killing pid => some ({ s with table := (kill pid s.table).2 }.goto p (.leaving .normal))
  | .yielding k => some ({ s with table := setState s.table p RUNNABLE }.goto p (.switching k .yield))
  | .sleeping chan =>
    some ({ s with table := goToSleep s.table p chan }.goto p (.switching .normal .sleep))
  | .exiting => some ({ s with table := exitSlot p s.table }.goto p (.switching .normal .exit))
  | .waiting =>
    match waitSlot p s.table with
    | (.reaped _ _,t) => some ({ s with table := t }.goto p (.leaving .normal))
    | (.failed,t) => some ({ s with table := t }.goto p (.leaving .normal))
    | (.asleep,t) => some ({ s with table := t }.goto p (.switching .normal .wait))
  | .switching _ _ => some (s.schedule u (.back p))
  | .resumed k .forkret => some (s.goto p (.leaving k))
  | .resumed k .yield => some (s.goto p (.leaving k))
  | .resumed k .sleep => some ({ s with table := tidyUp s.table p }.goto p (.leaving k))
  | .resumed _ .wait => some ({ s with table := tidyUp s.table p }.goto p .waiting)
  | .resumed _ .exit => none
  | .leaving k => some ({ s with Lock := none }.goto p (.code k))

def runScheduler (s : System U) (u : U) : Option (System U) :=
  match s.scheduler u with
  | .starting | .loop | .running _ => none
  | .handling chan => some ({ s with table := wakeup1 chan s.table }.schedule u .releasing)
  | .releasing => some ({ s with Lock := none }.schedule u .loop)
  | .scanning i =>
    if h : i < NPROC then
      if (s.table ⟨i,h⟩).State = RUNNABLE then
        some ({ s with Process := update s.Process u (some ⟨i,h⟩) }.schedule u (.chosen ⟨i,h⟩))
      else some (s.schedule u (.scanning (i + 1)))
    else some (s.schedule u .releasing)
  | .chosen p =>
    match s.control p with
    | .switching k r =>
      some (({ s with table := setState s.table p RUNNING }.schedule u (.running p)).goto p (.resumed k r))
    | _ => none
  | .back p => some ({ s with Process := update s.Process u none }.schedule u (.scanning (p + 1)))

def step (s : System U) : Move U → Option (System U)
  | .start u =>
    match s.scheduler u with
    | .starting => some ({ s with Process := update s.Process u none }.schedule u .loop)
    | _ => none
  | .interrupt u chan =>
    match s.scheduler u, s.Lock with
    | .loop, none => some ({ s with Lock := some u }.schedule u (.handling chan))
    | _, _ => none
  | .acquire u =>
    match s.scheduler u, s.Lock with
    | .loop, none => some ({ s with Lock := some u }.schedule u (.scanning 0))
    | _, _ => none
  | .scheduler u => runScheduler s u
  | .request u r =>
    match s.scheduler u, s.Lock with
    | .running p, none =>
      match s.control p with
      | .code k => (r.begin p k).map fun c => { s with Lock := some u }.goto p c
      | _ => none
    | _, _ => none
  | .run u =>
    match s.scheduler u with
    | .running p => runProcess s u p
    | _ => none
  | .build u =>
    match s.scheduler u with
    | .running p =>
      match s.control p with
      | .code (.embryo np) =>
        some ({ s with table := setParent s.table np (some p) }.goto p (.code (.built np)))
      | _ => none
    | _ => none
  | .fail u =>
    match s.scheduler u with
    | .running p =>
      match s.control p with
      | .code (.embryo np) => some ({ s with table := setState s.table np UNUSED }.goto p (.code .normal))
      | _ => none
    | _ => none

/-- The table after initialiseFirstUserProcess; no CPU has entered scheduler yet. -/
def booted : System U :=
  ⟨firstTable,2,1,none,fun _ => none,fun _ => .starting,fun _ => .switching .normal .forkret⟩

end UoDOS.Scheduling
