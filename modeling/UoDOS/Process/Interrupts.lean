import UoDOS.Library.Transition
import UoDOS.Process.State

/-! # pushCli, popCli and the switches of sched

Every thread, a process in the kernel or the scheduler of a CPU, has a stack of what it is
inside of: traps that iret will leave, a pushCli that has read the flags and not yet cleared
them, pushCli calls that wait for their popCli, and the frame of sched.
-/
namespace UoDOS.Interrupts
open Transition Function

variable {P U : Type} [DecidableEq P] [DecidableEq U]

/-- `IF` is the interrupt flag of the CPU and `current` the process it runs, `none`
while it runs its scheduler. -/
structure Cpu (P : Type) where
  CliDepth : ℕ
  InterruptsEnabled : Bool
  IF : Bool
  current : Option P

inductive Frame
  /-- a trap or interrupt that found this flag -/
  | trap (flag : Bool)
  /-- pushCli after readExtendedFlags -/
  | reads (eflags : Bool)
  /-- a completed pushCli that found this flag -/
  | pushed (flag : Bool)
  /-- the pushCli of the scheduler that the first popCli of a new process matches -/
  | inherited
  /-- sched, with the value it saved -/
  | switched (intena : Bool)
  /-- the context that allocateProcess sets up -/
  | fresh
  deriving DecidableEq

inductive Thread (P U : Type)
  | process (p : P)
  | scheduler (u : U)
  deriving DecidableEq

structure System (P U : Type) where
  cpu : U → Cpu P
  frames : Thread P U → List Frame

def System.thread (s : System P U) (u : U) : Thread P U :=
  match (s.cpu u).current with
  | some p => .process p
  | none => .scheduler u

def pushCli (c : Cpu P) (eflags : Bool) : Cpu P :=
  { c with
    IF := false
    InterruptsEnabled := if c.CliDepth = 0 then eflags else c.InterruptsEnabled
    CliDepth := c.CliDepth + 1 }

def popCli (c : Cpu P) : Except Stop (Cpu P) :=
  if c.IF then .error (.panic "popCli - interruptible")
  else if c.CliDepth = 0 then .error (.panic "popCli")
  else .ok { c with
    CliDepth := c.CliDepth - 1
    IF := if c.CliDepth - 1 = 0 ∧ c.InterruptsEnabled then true else c.IF }

inductive Move (P U : Type)
  | trap (u : U) (clears : Bool)
  | iret (u : U)
  | readFlags (u : U)
  | disable (u : U)
  | pop (u : U)
  | enable (u : U)
  | sched (u : U)
  | dispatch (u : U) (p : P)

/-- The thread of the CPU goes on with this CPU and this stack. -/
def System.advance (s : System P U) (u : U) (c : Cpu P) (l : List Frame) : System P U :=
  ⟨update s.cpu u c,update s.frames (s.thread u) l⟩

def System.switch (s : System P U) (u : U) (p : P) (c : Cpu P) (l : List Frame) : System P U :=
  ⟨update s.cpu u c,update s.frames (.process p) l⟩

/-- An interrupt needs the flag, the other traps come from user code. `enable` is the
top of the scheduler's loop, and the scheduler switches while it holds
processTable.Lock only. Code whose pushes and pops do not match has no step. -/
def step (s : System P U) : Move P U → Option (System P U)
  | .trap u clears =>
    if (s.cpu u).IF = true ∨ s.frames (s.thread u) = [] then
      some (s.advance u { s.cpu u with IF := if clears then false else (s.cpu u).IF }
        (.trap (s.cpu u).IF :: s.frames (s.thread u)))
    else none
  | .iret u =>
    match s.frames (s.thread u) with
    | .trap flag :: l => some (s.advance u { s.cpu u with IF := flag } l)
    | _ => none
  | .readFlags u => some (s.advance u (s.cpu u) (.reads (s.cpu u).IF :: s.frames (s.thread u)))
  | .disable u =>
    match s.frames (s.thread u) with
    | .reads eflags :: l => some (s.advance u (pushCli (s.cpu u) eflags) (.pushed eflags :: l))
    | _ => none
  | .pop u =>
    match s.frames (s.thread u) with
    | .pushed _ :: l => (popCli (s.cpu u)).toOption.map fun c => s.advance u c l
    | .inherited :: l => (popCli (s.cpu u)).toOption.map fun c => s.advance u c l
    | _ => none
  | .enable u =>
    if (s.cpu u).current = none ∧ s.frames (s.thread u) = [] then
      some (s.advance u { s.cpu u with IF := true } [])
    else none
  | .sched u =>
    match (s.cpu u).current with
    | some p =>
      if (s.cpu u).CliDepth = 1 ∧ (s.cpu u).IF = false then
        some (s.switch u p { s.cpu u with current := none }
          (.switched (s.cpu u).InterruptsEnabled :: s.frames (.process p)))
      else none
    | none => none
  | .dispatch u p =>
    match (s.cpu u).current, s.frames (.scheduler u), s.frames (.process p) with
    | none, [.pushed _], .switched intena :: l =>
      some (s.switch u p { s.cpu u with current := some p, InterruptsEnabled := intena } l)
    | none, [.pushed _], .fresh :: l => some (s.switch u p { s.cpu u with current := some p } l)
    | _, _, _ => none

/-- Every CPU is about to enter its scheduler and no process has run: its context
leads through forkret to trapret. -/
def Initial (s : System P U) : Prop :=
  (∀ u, (s.cpu u).CliDepth = 0 ∧ (s.cpu u).current = none ∧ s.frames (.scheduler u) = []) ∧
  ∀ p, ∃ flag, s.frames (.process p) = [.fresh,.inherited,.trap flag]

def depth : List Frame → ℕ
  | [] => 0
  | .pushed _ :: l => depth l + 1
  | .inherited :: l => depth l + 1
  | .trap _ :: l => depth l
  | .reads _ :: l => depth l
  | .switched _ :: l => depth l
  | .fresh :: l => depth l

def outermost : List Frame → Option Bool
  | [] => none
  | .pushed flag :: l => if depth l = 0 then some flag else outermost l
  | .inherited :: l => outermost l
  | .trap _ :: l => outermost l
  | .reads _ :: l => outermost l
  | .switched _ :: l => outermost l
  | .fresh :: l => outermost l

def WellFormed : List Frame → Prop
  | [] => True
  | .trap _ :: l => depth l = 0 ∧ WellFormed l
  | .switched _ :: _ => False
  | .fresh :: _ => False
  | .reads _ :: l => WellFormed l
  | .pushed _ :: l => WellFormed l
  | .inherited :: l => WellFormed l

/-- The stack of a process that does not execute: it is inside one push, and sched
has saved the flag of that push. -/
def Suspended : List Frame → Prop
  | .switched intena :: l => depth l = 1 ∧ WellFormed l ∧ ∀ flag, outermost l = some flag → intena = flag
  | .fresh :: l => depth l = 1 ∧ WellFormed l ∧ outermost l = none
  | _ => False

theorem outermost_of_depth {l : List Frame} (h : depth l = 0) : outermost l = none := by
  induction l with
  | nil => rfl
  | cons f l ih =>
    cases f with
    | pushed flag => cases h
    | inherited => cases h
    | _ => exact ih h

/-- What a CPU and the stack of the thread it executes agree on. The flag of the
scheduler's push is not kept: sched does not restore it. -/
structure Agrees (c : Cpu P) (l : List Frame) : Prop where
  depth_eq : c.CliDepth = depth l
  off : 0 < c.CliDepth → c.IF = false
  formed : WellFormed l
  saved : c.current ≠ none → ∀ flag, outermost l = some flag → c.InterruptsEnabled = flag

section Agrees
omit [DecidableEq P]
variable {c : Cpu P} {l : List Frame}

theorem Agrees.trap (h : Agrees c l) (hi : c.IF = true ∨ l = []) (clears : Bool) :
    Agrees { c with IF := if clears then false else c.IF } (.trap c.IF :: l) := by
  have hz : depth l = 0 := by
    rcases hi with hi | rfl
    · by_contra hn
      have := h.off (by rw [h.depth_eq]; omega)
      simp [hi] at this
    · rfl
  refine ⟨h.depth_eq,fun hd => ?_,⟨hz,h.formed⟩,h.saved⟩
  have := h.depth_eq
  simp only at hd
  omega

theorem Agrees.iret {flag : Bool} (h : Agrees c (.trap flag :: l)) : Agrees { c with IF := flag } l := by
  have hz : c.CliDepth = 0 := h.depth_eq.trans h.formed.1
  refine ⟨h.depth_eq,fun hd => ?_,h.formed.2,h.saved⟩
  simp [hz] at hd

theorem Agrees.readFlags (h : Agrees c l) : Agrees c (.reads c.IF :: l) := ⟨h.depth_eq,h.off,h.formed,h.saved⟩

theorem Agrees.disable {eflags : Bool} (h : Agrees c (.reads eflags :: l)) :
    Agrees (pushCli c eflags) (.pushed eflags :: l) := by
  refine ⟨congrArg (· + 1) h.depth_eq,fun _ => rfl,h.formed,fun hc flag hf => ?_⟩
  have hd : c.CliDepth = depth l := h.depth_eq
  by_cases hz : depth l = 0
  · rw [outermost,if_pos hz] at hf
    cases hf
    exact if_pos (hd.trans hz)
  · rw [outermost,if_neg hz] at hf
    exact (if_neg (hd ▸ hz)).trans (h.saved hc flag hf)

theorem popCli_eq_ok {d : Cpu P} (h : popCli c = .ok d) : c.IF = false ∧ 0 < c.CliDepth ∧
    d = { c with
      CliDepth := c.CliDepth - 1
      IF := if c.CliDepth - 1 = 0 ∧ c.InterruptsEnabled then true else c.IF } := by
  unfold popCli at h
  by_cases hi : c.IF = true
  · rw [if_pos hi] at h
    cases h
  · by_cases hz : c.CliDepth = 0
    · rw [if_neg hi,if_pos hz] at h
      cases h
    · rw [if_neg hi,if_neg hz] at h
      cases h
      exact ⟨by simpa using hi,Nat.pos_of_ne_zero hz,rfl⟩

theorem popCli_returns (h : c.IF = false) (hd : 0 < c.CliDepth) :
    popCli c = .ok { c with
      CliDepth := c.CliDepth - 1
      IF := if c.CliDepth - 1 = 0 ∧ c.InterruptsEnabled then true else c.IF } := by
  unfold popCli
  rw [if_neg (by simp [h]),if_neg (Nat.ne_of_gt hd)]

theorem Agrees.pop {f : Frame} {d : Cpu P} (h : Agrees c (f :: l)) (hp : popCli c = .ok d)
    (hd : depth (f :: l) = depth l + 1) (hf : WellFormed l)
    (ho : depth l ≠ 0 → outermost (f :: l) = outermost l) : Agrees d l := by
  obtain ⟨hi,-,rfl⟩ := popCli_eq_ok hp
  have hc := h.depth_eq.trans hd
  refine ⟨by simp [hc],fun hn => ?_,hf,fun hr flag hl => ?_⟩
  · simp only at hn ⊢
    rw [if_neg (by omega),hi]
  · by_cases hz : depth l = 0
    · rw [outermost_of_depth hz] at hl
      cases hl
    · exact h.saved hr flag ((ho hz).trans hl)

end Agrees

end UoDOS.Interrupts
