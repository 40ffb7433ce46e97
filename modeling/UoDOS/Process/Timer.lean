import UoDOS.Library.Results
import UoDOS.Library.Transition
import UoDOS.Memory.PhysicalMemory
import UoDOS.Process.ProcessTable

/-! # The timer interrupt and sys_sleep

trap counts a timer interrupt if `myCpu()`, the address of a Cpu structure, is 0. It never is,
so `ticks` does not move and no sleep is ever over.
-/
namespace UoDOS.Timer
open ProcState Transition Results
open Processes (ProcessTable Channel wakeup1 kill exitSlot initproc firstTable exited_exitSlot Woken woken_wakeup1
  woken_kill)
open Paging (KERNLINK KERNBASE EXTMEM)

def T_IRQ0 : ℕ := 32
def IRQ_TIMER : ℕ := 0
def IRQ_KBD : ℕ := 1
def IRQ_COM1 : ℕ := 4
def IRQ_IDE : ℕ := 14
def IRQ_SPURIOUS : ℕ := 31

def NCPU : ℕ := 8

def sizeofCpu : ℕ := 176

/-- Where the linker has put the array `cpus` and the variable `ticks`, and the ids of
the CPUs that were found. -/
structure Cpus where
  cpus : ℕ
  ticks : ℕ
  ncpu : ℕ
  Apicid : ℕ → UInt8
  placed : KERNLINK ≤ cpus

/-- A pointer to the structure of the CPU; interrupts are off in trap. -/
def myCpu (c : Cpus) (apicid : UInt8) : Except Stop ℕ :=
  match (List.range c.ncpu).find? (fun i => c.Apicid i = apicid) with
  | some i => .ok (c.cpus + sizeofCpu * i)
  | none => .error (.panic "unknown apicid\n")

/-- The variables of a call of sys_sleep, where `ticks0` is set once tickslock is held.
`called` is how many timer interrupts the first CPU had handled before the call. -/
structure SleepCall where
  n : UInt32
  ticks0 : Option UInt32
  called : ℕ

/-- `Process` is the field of each Cpu structure, and `handled` counts the timer
interrupts of the first. -/
structure Machine where
  ticks : UInt32
  table : ProcessTable
  Process : Fin NCPU → Option (Fin NPROC)
  sleeps : Fin NPROC → Option SleepCall
  handled : ℕ

def ticksChannel (c : Cpus) : Channel := .other c.ticks

namespace Machine

def exit (m : Machine) (u : Fin NCPU) (p : Fin NPROC) : Except Stop Machine :=
  if p = initproc then .error (.panic "init exiting")
  else .ok { m with
    table := exitSlot p m.table
    Process := Function.update m.Process u none
    sleeps := Function.update m.sleeps p none }

def yield (m : Machine) (u : Fin NCPU) (p : Fin NPROC) : Machine :=
  { m with
    table := Function.update m.table p { m.table p with State := RUNNABLE }
    Process := Function.update m.Process u none }

/-- The switch of trap over the interrupts; `woken` are the channels that the handler of
a device wakes. -/
def interrupt (c : Cpus) (m : Machine) (u : Fin NCPU) (apicid : UInt8) (trapno : ℕ) (user : Bool)
    (woken : List (Option Channel)) : Except Stop Machine :=
  if trapno = T_IRQ0 + IRQ_TIMER then do
    let cpu ← myCpu c apicid
    if cpu = 0 then
      .ok { m with ticks := m.ticks + 1, table := wakeup1 (some (ticksChannel c)) m.table }
    else .ok m
  else if trapno = T_IRQ0 + IRQ_IDE ∨ trapno = T_IRQ0 + IRQ_KBD ∨ trapno = T_IRQ0 + IRQ_COM1 then
    .ok { m with table := woken.foldl (fun t chan => wakeup1 chan t) m.table }
  else if trapno = T_IRQ0 + IRQ_IDE + 1 ∨ trapno = T_IRQ0 + 7 ∨ trapno = T_IRQ0 + IRQ_SPURIOUS then .ok m
  else
    match m.Process u with
    | none => .error (.panic "trap")
    | some p =>
      if user then .ok { m with table := Function.update m.table p { m.table p with IsKilled := true } }
      else .error (.panic "trap")

def trap (c : Cpus) (m : Machine) (u : Fin NCPU) (apicid : UInt8) (trapno : ℕ) (user : Bool)
    (woken : List (Option Channel)) : Except Stop Machine := do
  let m ← m.interrupt c u apicid trapno user woken
  match m.Process u with
  | none => .ok m
  | some p =>
    if (m.table p).IsKilled = true ∧ user = true then m.exit u p
    else if (m.table p).State = RUNNING ∧ trapno = T_IRQ0 + IRQ_TIMER then .ok (m.yield u p)
    else .ok m

/-- sys_sleep returns, and trap looks once more whether the process has been killed. -/
def finish (m : Machine) (u : Fin NCPU) (p : Fin NPROC) : Except Stop Machine :=
  let m := { m with sleeps := Function.update m.sleeps p none }
  if (m.table p).IsKilled then m.exit u p else .ok m

/-- sys_sleep from the acquisition of tickslock, or from the end of sleep, to the next
test of the loop that puts the process to sleep or lets it return. -/
def round (c : Cpus) (m : Machine) (u : Fin NCPU) (p : Fin NPROC) (call : SleepCall) : Except Stop Machine :=
  let ticks0 := call.ticks0.getD m.ticks
  if m.ticks - ticks0 < call.n then
    if (m.table p).IsKilled then m.finish u p
    else .ok { m with
      table := Function.update m.table p { m.table p with State := SLEEPING, Chan := some (ticksChannel c) }
      Process := Function.update m.Process u none
      sleeps := Function.update m.sleeps p (some { call with ticks0 := some ticks0 }) }
  else m.finish u p

end Machine

inductive Event
  | trap (u : Fin NCPU) (trapno : ℕ) (user : Bool) (woken : List (Option Channel))
  /-- the system call, with the argument that it could fetch -/
  | sys_sleep (u : Fin NCPU) (n : Option UInt32)
  | goOn (u : Fin NCPU)
  | dispatch (u : Fin NCPU) (p : Fin NPROC)
  | kill (pid : UInt32)
  /-- anything else, with what it leaves of the table and of the Cpu structures -/
  | other (t : ProcessTable) (P : Fin NCPU → Option (Fin NPROC))

def Event.FirstTimer : Event → Prop
  | .trap u trapno _ _ => u.val = 0 ∧ trapno = T_IRQ0 + IRQ_TIMER
  | _ => False

instance : DecidablePred Event.FirstTimer
  | .trap .. => inferInstanceAs (Decidable (_ ∧ _))
  | .sys_sleep .. | .goOn .. | .dispatch .. | .kill .. | .other .. => inferInstanceAs (Decidable False)

/-- What the rest of the kernel may make of a process inside of sys_sleep. -/
def LeavesSleepers (m : Machine) (t : ProcessTable) (P : Fin NCPU → Option (Fin NPROC)) : Prop :=
  ∀ p, (m.sleeps p).isSome → ((t p).State = (m.table p).State ∨
    (m.table p).State = SLEEPING ∧ (t p).State = RUNNABLE) ∧ ∀ u, P u = some p ↔ m.Process u = some p

instance (m : Machine) (t : ProcessTable) (P : Fin NCPU → Option (Fin NPROC)) :
    Decidable (LeavesSleepers m t P) :=
  inferInstanceAs (Decidable (∀ _, _))

/-- The state after an event, unless it is impossible or stops the machine. -/
def next (c : Cpus) (m : Machine) : Event → Option Machine
  | .trap u trapno user woken =>
    if u.val < c.ncpu then
      (m.trap c u (c.Apicid u) trapno user woken).toOption.map (fun m' => { m' with
        handled := if u.val = 0 ∧ trapno = T_IRQ0 + IRQ_TIMER then m.handled + 1 else m.handled })
    else none
  | .sys_sleep u n =>
    match m.Process u with
    | none => none
    | some p =>
      if (m.sleeps p).isSome ∨ (m.table p).State ≠ RUNNING then none
      else if (m.table p).IsKilled then (m.exit u p).toOption
      else match n with
        | none => some m
        | some n => some { m with sleeps := Function.update m.sleeps p (some ⟨n,none,m.handled⟩) }
  | .goOn u =>
    match m.Process u with
    | none => none
    | some p =>
      match m.sleeps p with
      | none => none
      | some call => (m.round c u p call).toOption
  | .dispatch u p =>
    if u.val < c.ncpu ∧ m.Process u = none ∧ (m.table p).State = RUNNABLE then
      some { m with
        table := Function.update m.table p { m.table p with State := RUNNING }
        Process := Function.update m.Process u (some p) }
    else none
  | .kill pid => some { m with table := (kill pid m.table).2 }
  | .other t P => if LeavesSleepers m t P then some { m with table := t, Process := P } else none

def start : Machine := ⟨0,firstTable,fun _ => none,fun _ => none,0⟩

/-- `ticks` is the number of timer interrupts of the first CPU, and no process sleeps in
`sys_sleep(n)` once `n` of them have been handled since its call. -/
def Punctual (m : Machine) : Prop :=
  m.ticks = UInt32.ofNat m.handled ∧ ∀ p call, m.sleeps p = some call → (m.table p).State = SLEEPING →
    call.n.toNat < 2^31 → m.handled - call.called < call.n.toNat

variable {c : Cpus} {m m' m'' : Machine} {u : Fin NCPU} {p : Fin NPROC} {e : Event} {es : List Event}

theorem myCpu_ne_zero {apicid : UInt8} {cpu : ℕ} (h : myCpu c apicid = .ok cpu) : cpu ≠ 0 := by
  unfold myCpu at h
  split at h
  · cases h
    have hp := c.placed
    simp only [KERNLINK,KERNBASE,EXTMEM] at hp
    omega
  · cases h

/-- What every step keeps: `ticks`, and that a process sleeps for a number other than 0. -/
structure Still (m m' : Machine) : Prop where
  ticks : m'.ticks = m.ticks
  asleep : ∀ p call, m'.sleeps p = some call → (m'.table p).State = SLEEPING →
    m.sleeps p = some call ∧ (m.table p).State = SLEEPING ∨ call.n ≠ 0

theorem Still.refl (m : Machine) : Still m m := ⟨rfl,fun _ _ hs ha => .inl ⟨hs,ha⟩⟩

theorem Still.trans (h : Still m m') (h' : Still m' m'') : Still m m'' := by
  refine ⟨h'.ticks.trans h.ticks,fun p call hs ha => ?_⟩
  rcases h'.asleep p call hs ha with ⟨hs,ha⟩ | hn
  · exact h.asleep p call hs ha
  · exact .inr hn

theorem still_table {t : ProcessTable} (P : Fin NCPU → Option (Fin NPROC)) (k : ℕ)
    (h : ∀ p, (m.sleeps p).isSome → (t p).State = SLEEPING → (m.table p).State = SLEEPING) :
    Still m { m with table := t, Process := P, handled := k } :=
  ⟨rfl,fun p call hs ha => .inl ⟨hs,h p (by simp [show m.sleeps p = some call from hs]) ha⟩⟩

theorem woken_foldl (woken : List (Option Channel)) (t : ProcessTable) :
    Woken t (woken.foldl (fun t chan => wakeup1 chan t) t) := by
  induction woken generalizing t with
  | nil => exact Woken.refl t
  | cons chan woken ih => exact (woken_wakeup1 chan t).trans (ih _)

theorem still_exit (h : m.exit u p = .ok m') : Still m m' := by
  unfold Machine.exit at h
  split_ifs at h
  cases h
  refine ⟨rfl,fun q call hs ha => .inl ?_⟩
  have hx := exited_exitSlot m.table p
  rcases eq_or_ne q p with rfl | hq
  · simp at hs
  · refine ⟨by simpa [hq] using hs,?_⟩
    rcases hx.state q hq with he | ⟨-,he⟩
    · rw [← he]
      exact ha
    · change (exitSlot p m.table q).State = SLEEPING at ha
      rw [he] at ha
      cases ha

theorem still_interrupt {apicid : UInt8} {trapno : ℕ} {user : Bool} {woken : List (Option Channel)}
    (h : m.interrupt c u apicid trapno user woken = .ok m') : Still m m' := by
  unfold Machine.interrupt at h
  split_ifs at h
  · rw [bind_eq_ok] at h
    obtain ⟨cpu,hc,h⟩ := h
    rw [if_neg (myCpu_ne_zero hc)] at h
    cases h
    exact Still.refl m
  · cases h
    exact still_table m.Process m.handled (fun _ _ ha => (woken_foldl woken m.table).sleeping ha)
  · cases h
    exact Still.refl m
  · split at h
    · cases h
    · rename_i p _
      cases h
      refine still_table m.Process m.handled (fun q _ ha => ?_)
      rcases eq_or_ne q p with rfl | hq
      · simpa using ha
      · simpa [hq] using ha
  · split at h <;> cases h

theorem still_trap {apicid : UInt8} {trapno : ℕ} {user : Bool} {woken : List (Option Channel)}
    (h : m.trap c u apicid trapno user woken = .ok m') : Still m m' := by
  unfold Machine.trap at h
  rw [bind_eq_ok] at h
  obtain ⟨m1,hi,h⟩ := h
  have h1 := still_interrupt hi
  split at h
  · cases h
    exact h1
  · rename_i p _
    split_ifs at h
    · exact h1.trans (still_exit h)
    · cases h
      refine h1.trans (still_table (Function.update m1.Process u none) m1.handled (fun q _ ha => ?_))
      rcases eq_or_ne q p with rfl | hq
      · simp at ha
      · simpa [hq] using ha
    · cases h
      exact h1

theorem still_finish (h : m.finish u p = .ok m') : Still m m' := by
  have h1 : Still m { m with sleeps := Function.update m.sleeps p none } := by
    refine ⟨rfl,fun q call hs ha => .inl ⟨?_,ha⟩⟩
    rcases eq_or_ne q p with rfl | hq
    · simp at hs
    · simpa [hq] using hs
  unfold Machine.finish at h
  dsimp only at h
  split_ifs at h
  · exact h1.trans (still_exit h)
  · cases h
    exact h1

theorem still_round {call : SleepCall} (h : m.round c u p call = .ok m') : Still m m' := by
  unfold Machine.round at h
  dsimp only at h
  split_ifs at h with hlt
  · exact still_finish h
  · cases h
    refine ⟨rfl,fun q call' hs ha => ?_⟩
    rcases eq_or_ne q p with rfl | hq
    · right
      simp only [Function.update_self,Option.some.injEq] at hs
      rw [← hs]
      intro hz
      change call.n = 0 at hz
      rw [hz] at hlt
      exact absurd hlt UInt32.not_lt_zero
    · left
      exact ⟨by simpa [hq] using hs,by simpa [hq] using ha⟩
  · exact still_finish h

theorem toOption_eq_ok {x : Except Stop Machine} (h : x.toOption = some m) : x = .ok m := by
  cases x with
  | error e => cases h
  | ok a => cases h; rfl

theorem next_still (h : next c m e = some m') : Still m m' := by
  cases e with
  | trap u trapno user woken =>
    simp only [next] at h
    split at h
    swap
    · cases h
    obtain ⟨m1,hm1,rfl⟩ := Option.map_eq_some_iff.mp h
    exact (still_trap (toOption_eq_ok hm1)).trans (still_table m1.Process _ (fun _ _ ha => ha))
  | sys_sleep u n =>
    simp only [next] at h
    split at h
    · cases h
    · rename_i p _
      split_ifs at h with hs
      · exact still_exit (toOption_eq_ok h)
      · split at h
        · cases h
          exact Still.refl m
        · cases h
          refine ⟨rfl,fun q call hq ha => .inl ⟨?_,ha⟩⟩
          rcases eq_or_ne q p with rfl | hqp
          · rw [show (m.table q).State = RUNNING by simpa using fun hr => hs (.inr hr)] at ha
            cases ha
          · simpa [hqp] using hq
  | goOn u =>
    simp only [next] at h
    split at h
    · cases h
    · split at h
      · cases h
      · exact still_round (toOption_eq_ok h)
  | dispatch u p =>
    simp only [next] at h
    split_ifs at h
    cases h
    refine still_table (Function.update m.Process u (some p)) m.handled (fun q _ ha => ?_)
    rcases eq_or_ne q p with rfl | hq
    · simp at ha
    · simpa [hq] using ha
  | kill pid =>
    cases h
    exact still_table m.Process m.handled (fun q _ ha => (woken_kill pid m.table).sleeping ha)
  | other t P =>
    simp only [next] at h
    split_ifs at h with ht
    cases h
    refine still_table P m.handled (fun q hq ha => ?_)
    rcases (ht q hq).1 with he | ⟨-,he⟩
    · rw [← he]
      exact ha
    · rw [he] at ha
      cases ha

theorem exit_handled (h : m.exit u p = .ok m') : m'.handled = m.handled := by
  unfold Machine.exit at h
  split_ifs at h
  cases h
  rfl

theorem finish_handled (h : m.finish u p = .ok m') : m'.handled = m.handled := by
  unfold Machine.finish at h
  dsimp only at h
  split_ifs at h
  · exact exit_handled (m := { m with sleeps := Function.update m.sleeps p none }) h
  · cases h
    rfl

theorem next_handled (h : next c m e = some m') :
    m'.handled = if e.FirstTimer then m.handled + 1 else m.handled := by
  cases e with
  | trap u trapno user woken =>
    simp only [next] at h
    split at h
    swap
    · cases h
    obtain ⟨m1,-,rfl⟩ := Option.map_eq_some_iff.mp h
    by_cases hf : (Event.trap u trapno user woken).FirstTimer
    · rw [if_pos hf]
      exact if_pos hf
    · rw [if_neg hf]
      exact if_neg hf
  | sys_sleep u n =>
    simp only [next] at h
    rw [if_neg (show ¬ (Event.sys_sleep u n).FirstTimer from id)]
    split at h
    · cases h
    · split_ifs at h
      · exact exit_handled (toOption_eq_ok h)
      · split at h <;> (cases h; rfl)
  | goOn u =>
    simp only [next] at h
    rw [if_neg (show ¬ (Event.goOn u).FirstTimer from id)]
    split at h
    · cases h
    · split at h
      · cases h
      · have hr := toOption_eq_ok h
        unfold Machine.round at hr
        dsimp only at hr
        split_ifs at hr
        · exact finish_handled hr
        · cases hr
          rfl
        · exact finish_handled hr
  | dispatch u p =>
    simp only [next] at h
    split_ifs at h
    cases h
    rfl
  | kill pid =>
    cases h
    rfl
  | other t P =>
    simp only [next] at h
    split_ifs at h
    cases h
    rfl

structure Stopped (es : List Event) (m : Machine) : Prop where
  ticks : m.ticks = 0
  handled : m.handled = es.countP (fun e => e.FirstTimer)
  asleep : ∀ p call, m.sleeps p = some call → (m.table p).State = SLEEPING → call.n ≠ 0

theorem stopped_run (hr : Runs (graph (next c)) start es m) : Stopped es m := by
  apply hr.invariant_trace (I := Stopped)
  · exact ⟨rfl,rfl,fun p call hs => by cases hs⟩
  · intro es a e b ha he
    have hst := next_still he
    refine ⟨hst.ticks.trans ha.ticks,?_,fun p call hs hsl => ?_⟩
    · rw [next_handled he,ha.handled,List.countP_append,List.countP_singleton]
      by_cases hf : e.FirstTimer <;> simp [hf]
    · rcases hst.asleep p call hs hsl with ⟨hs,hsl⟩ | hn
      · exact ha.asleep p call hs hsl
      · exact hn

theorem Stopped.punctual_iff (h : Stopped es m) (hd : m.handled < 2^32) :
    Punctual m ↔ m.handled = 0 := by
  constructor
  · rintro ⟨ht,-⟩
    rw [h.ticks] at ht
    have hn := congrArg UInt32.toNat ht
    rw [UInt32.toNat_ofNat',Nat.mod_eq_of_lt hd] at hn
    exact hn.symm
  · intro hz
    refine ⟨by rw [h.ticks,hz]; rfl,fun p call hs hsl _ => ?_⟩
    have hn : call.n.toNat ≠ 0 := fun hn => h.asleep p call hs hsl (UInt32.toNat_inj.mp hn)
    omega

/-- All states of a run are punctual just if the first CPU handles no timer interrupt
in it. -/
theorem punctual_run_iff (hr : Runs (graph (next c)) start es m) :
    (∀ es₁ es₂ m₁, es = es₁ ++ es₂ → Runs (graph (next c)) start es₁ m₁ →
      Runs (graph (next c)) m₁ es₂ m → Punctual m₁) ↔ ∀ e ∈ es, ¬ e.FirstTimer := by
  constructor
  · intro h
    induction hr with
    | refl => simp
    | snoc hr he ih =>
      rename_i t v ls l
      have hls : ∀ e ∈ ls, ¬ e.FirstTimer := by
        refine ih (fun es₁ es₂ m₁ hes h₁ h₂ => ?_)
        exact h es₁ (es₂ ++ [l]) m₁ (by rw [hes,List.append_assoc]) h₁ (h₂.snoc he)
      have ht := stopped_run hr
      have ht0 : t.handled = 0 := by
        rw [ht.handled,List.countP_eq_zero]
        simpa using hls
      intro e hel
      rcases List.mem_append.mp hel with hel | hel
      · exact hls e hel
      · rw [List.mem_singleton.mp hel]
        intro hf
        have hv := next_handled he
        rw [if_pos hf,ht0] at hv
        have hp := h (ls ++ [l]) [] v (by simp) (hr.snoc he) (Runs.refl v)
        rw [(stopped_run (hr.snoc he)).punctual_iff (by omega)] at hp
        omega
  · rintro h es₁ es₂ m₁ rfl h₁ -
    have h1 := stopped_run h₁
    have hz : m₁.handled = 0 := by
      rw [h1.handled,List.countP_eq_zero]
      intro e he
      simpa using h e (by simp [he])
    exact (h1.punctual_iff (by omega)).mpr hz

def oneCpu : Cpus := ⟨0x80108000,0x80110000,1,fun _ => 0,by decide⟩

def oneTick : List Event :=
  [.dispatch ⟨0,by decide⟩ initproc,.sys_sleep ⟨0,by decide⟩ (some 1),.goOn ⟨0,by decide⟩]

def timerTrap : Event := .trap ⟨0,by decide⟩ (T_IRQ0 + IRQ_TIMER) false []

theorem oneTick_runs : (execute (next oneCpu) start oneTick).isSome = true := by decide +kernel

theorem oneTick_timer_runs : (execute (next oneCpu) start (oneTick ++ [timerTrap])).isSome = true := by
  decide +kernel

theorem punctual_run_iff_oneTick : ∃ m, Runs (graph (next oneCpu)) start oneTick m ∧ Punctual m := by
  have hr := Runs.of_execute (Option.some_get oneTick_runs).symm
  refine ⟨_,hr,(punctual_run_iff hr).mpr ?_ oneTick [] _ (by simp) hr (Runs.refl _)⟩
  decide

/-- After a timer interrupt of the only CPU `ticks` is still 0, and the process that
asked for one tick still sleeps. -/
theorem timer_not_counted : ∃ m, Runs (graph (next oneCpu)) start (oneTick ++ [timerTrap]) m ∧
    m.handled = 1 ∧ m.ticks = 0 ∧ (m.table initproc).State = SLEEPING ∧
    (∃ call, m.sleeps initproc = some call ∧ call.n = 1 ∧ call.called = 0) ∧ ¬ Punctual m := by
  have hr := Runs.of_execute (Option.some_get oneTick_timer_runs).symm
  have hh : ((execute (next oneCpu) start (oneTick ++ [timerTrap])).get oneTick_timer_runs).handled = 1 := by
    decide +kernel
  refine ⟨_,hr,hh,by decide +kernel,by decide +kernel,⟨⟨1,some 0,0⟩,by rfl,rfl,rfl⟩,fun hp => ?_⟩
  rw [(stopped_run hr).punctual_iff (by omega)] at hp
  omega

end UoDOS.Timer
