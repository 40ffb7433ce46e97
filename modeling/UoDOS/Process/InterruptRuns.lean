import UoDOS.Process.Interrupts

/-! # The interrupt flag over switches between CPUs

A process keeps the flag of its outermost pushCli in the CPU it runs on, and on its own stack
while it does not run.
-/
namespace UoDOS.Interrupts
open Transition

variable {P U : Type} [DecidableEq P] [DecidableEq U]

theorem Suspended.not_formed {l : List Frame} (h : Suspended l) : ¬ WellFormed l := by
  intro hf
  cases l with
  | nil => exact h
  | cons f l => cases f <;> first | exact h | exact hf

structure Inv (s : System P U) : Prop where
  agrees : ∀ u, Agrees (s.cpu u) (s.frames (s.thread u))
  suspended : ∀ p, (∀ u, (s.cpu u).current ≠ some p) → Suspended (s.frames (.process p))
  loop : ∀ u p, (s.cpu u).current = some p → ∃ flag, s.frames (.scheduler u) = [.pushed flag]
  once : ∀ u v p, (s.cpu u).current = some p → (s.cpu v).current = some p → u = v

section Steps
omit [DecidableEq P] [DecidableEq U]
variable {s : System P U} {u v : U} {p : P}

theorem thread_process (h : (s.cpu u).current = some p) : s.thread u = .process p := by
  simp [System.thread,h]

theorem thread_scheduler (h : (s.cpu u).current = none) : s.thread u = .scheduler u := by
  simp [System.thread,h]

theorem Inv.thread_injective (h : Inv s) (ht : s.thread u = s.thread v) : u = v := by
  cases hu : (s.cpu u).current with
  | none =>
    cases hv : (s.cpu v).current with
    | none =>
      rw [thread_scheduler hu,thread_scheduler hv] at ht
      cases ht
      rfl
    | some q => simp [thread_scheduler hu,thread_process hv] at ht
  | some p =>
    cases hv : (s.cpu v).current with
    | none => simp [thread_process hu,thread_scheduler hv] at ht
    | some q =>
      rw [thread_process hu,thread_process hv] at ht
      cases ht
      exact h.once u v p hu hv

theorem Initial.inv (h : Initial s) : Inv s := by
  refine ⟨fun u => ?_,fun p _ => ?_,fun u p hc => ?_,fun u v p hc => ?_⟩
  · obtain ⟨hd,hc,hf⟩ := h.1 u
    rw [thread_scheduler hc,hf]
    exact ⟨hd,fun hn => by omega,trivial,fun _ _ hn => by cases hn⟩
  · obtain ⟨flag,hf⟩ := h.2 p
    rw [hf]
    exact ⟨rfl,⟨rfl,trivial⟩,rfl⟩
  · simp [(h.1 u).2.1] at hc
  · simp [(h.1 u).2.1] at hc

end Steps

section Advance
variable {s : System P U} {u v : U} {p : P} {c : Cpu P} {l : List Frame}

theorem advance_current (hc : c.current = (s.cpu u).current) (v : U) :
    ((s.advance u c l).cpu v).current = (s.cpu v).current := by
  by_cases hv : v = u
  · rw [hv]
    simpa [System.advance] using hc
  · simp [System.advance,hv]

theorem advance_thread (hc : c.current = (s.cpu u).current) (v : U) :
    (s.advance u c l).thread v = s.thread v := by
  unfold System.thread
  rw [advance_current hc v]

theorem Inv.advance (h : Inv s) (hc : c.current = (s.cpu u).current) (ha : Agrees c l) :
    Inv (s.advance u c l) := by
  refine ⟨fun v => ?_,fun p hp => ?_,fun v p hv => ?_,fun v w p hv hw => ?_⟩
  · rw [advance_thread hc]
    by_cases hv : v = u
    · subst hv
      simpa [System.advance] using ha
    · have ht : s.thread v ≠ s.thread u := fun ht => hv (h.thread_injective ht)
      simpa [System.advance,hv,ht] using h.agrees v
  · have ht : Thread.process p ≠ s.thread u := by
      intro ht
      have hu := hp u
      rw [advance_current hc] at hu
      cases hcu : (s.cpu u).current with
      | none => simp [thread_scheduler hcu] at ht
      | some q =>
        rw [thread_process hcu] at ht
        cases ht
        exact hu hcu
    have hs := h.suspended p (fun v hv => hp v ((advance_current hc v).trans hv))
    simpa [System.advance,ht] using hs
  · rw [advance_current hc] at hv
    have ht : Thread.scheduler v ≠ s.thread u := by
      intro ht
      cases hcu : (s.cpu u).current with
      | none =>
        rw [thread_scheduler hcu] at ht
        cases ht
        simp [hcu] at hv
      | some q => simp [thread_process hcu] at ht
    simpa [System.advance,ht] using h.loop v p hv
  · rw [advance_current hc] at hv hw
    exact h.once v w p hv hw

theorem Inv.sched (h : Inv s) (hc : (s.cpu u).current = some p) (hd : (s.cpu u).CliDepth = 1)
    (hi : (s.cpu u).IF = false) : Inv (s.switch u p { s.cpu u with current := none }
      (.switched (s.cpu u).InterruptsEnabled :: s.frames (.process p))) := by
  have ha := h.agrees u
  rw [thread_process hc] at ha
  refine ⟨fun v => ?_,fun q hq => ?_,fun v q hv => ?_,fun v w q hv hw => ?_⟩
  · by_cases hv : v = u
    · subst hv
      obtain ⟨flag,hf⟩ := h.loop v p hc
      rw [thread_scheduler (by simp [System.switch])]
      simp only [System.switch,Function.update_self,ne_eq,reduceCtorEq,not_false_eq_true,Function.update_of_ne,hf]
      exact ⟨hd,fun _ => hi,trivial,fun hn => absurd rfl hn⟩
    · have hv' := h.agrees v
      have ht : (s.switch u p { s.cpu u with current := none }
          (.switched (s.cpu u).InterruptsEnabled :: s.frames (.process p))).thread v = s.thread v := by
        simp [System.thread,System.switch,hv]
      have hne : s.thread v ≠ .process p := fun ht =>
        hv (h.thread_injective (ht.trans (thread_process hc).symm))
      rw [ht]
      simpa [System.switch,hv,hne] using hv'
  · by_cases hqp : q = p
    · subst hqp
      simp only [System.switch,Function.update_self]
      exact ⟨ha.depth_eq.symm.trans hd,ha.formed,ha.saved (by simp [hc])⟩
    · have hs : Suspended (s.frames (.process q)) := by
        refine h.suspended q (fun v hv => ?_)
        by_cases hvu : v = u
        · rw [hvu,hc] at hv
          cases hv
          exact hqp rfl
        · exact hq v (by simpa [System.switch,hvu] using hv)
      simpa [System.switch,hqp] using hs
  · by_cases hvu : v = u
    · simp [System.switch,hvu] at hv
    · simpa [System.switch] using h.loop v q (by simpa [System.switch,hvu] using hv)
  · by_cases hvu : v = u
    · simp [System.switch,hvu] at hv
    · by_cases hwu : w = u
      · simp [System.switch,hwu] at hw
      · exact h.once v w q (by simpa [System.switch,hvu] using hv) (by simpa [System.switch,hwu] using hw)

theorem Inv.dispatch {intena flag : Bool} (h : Inv s) (hc : (s.cpu u).current = none)
    (hf : s.frames (.scheduler u) = [.pushed flag]) (hs : Suspended (s.frames (.process p)))
    (hd : depth l = 1) (hl : WellFormed l) (ho : ∀ b, outermost l = some b → intena = b) :
    Inv (s.switch u p { s.cpu u with current := some p, InterruptsEnabled := intena } l) := by
  have ha := h.agrees u
  rw [thread_scheduler hc,hf] at ha
  have hp : ∀ v, (s.cpu v).current ≠ some p := by
    intro v hv
    have hv' := h.agrees v
    rw [thread_process hv] at hv'
    exact hs.not_formed hv'.formed
  refine ⟨fun v => ?_,fun q hq => ?_,fun v q hv => ?_,fun v w q hv hw => ?_⟩
  · by_cases hv : v = u
    · subst hv
      rw [thread_process (p := p) (by simp [System.switch])]
      simp only [System.switch,Function.update_self]
      exact ⟨ha.depth_eq.trans hd.symm,ha.off,hl,fun _ => ho⟩
    · have hv' := h.agrees v
      have ht : (s.switch u p { s.cpu u with current := some p, InterruptsEnabled := intena } l).thread v =
          s.thread v := by
        simp [System.thread,System.switch,hv]
      have hne : s.thread v ≠ .process p := by
        intro ht
        cases hcv : (s.cpu v).current with
        | none => simp [thread_scheduler hcv] at ht
        | some q =>
          rw [thread_process hcv] at ht
          cases ht
          exact hp v hcv
      rw [ht]
      simpa [System.switch,hv,hne] using hv'
  · have hqp : q ≠ p := by
      rintro rfl
      exact hq u (by simp [System.switch])
    have hs : Suspended (s.frames (.process q)) := by
      refine h.suspended q (fun v hv => ?_)
      have hvu : v ≠ u := by
        rintro rfl
        simp [hc] at hv
      exact hq v (by simpa [System.switch,hvu] using hv)
    simpa [System.switch,hqp] using hs
  · by_cases hvu : v = u
    · subst hvu
      exact ⟨flag,by simpa [System.switch] using hf⟩
    · simpa [System.switch] using h.loop v q (by simpa [System.switch,hvu] using hv)
  · have back : ∀ {x}, ((s.switch u p { s.cpu u with current := some p, InterruptsEnabled := intena } l).cpu
        x).current = some q → x = u ∧ q = p ∨ x ≠ u ∧ (s.cpu x).current = some q := by
      intro x hx
      by_cases hxu : x = u
      · subst hxu
        exact .inl ⟨rfl,by simpa [System.switch,eq_comm] using hx⟩
      · exact .inr ⟨hxu,by simpa [System.switch,hxu] using hx⟩
    rcases back hv with ⟨hvu,hq⟩ | ⟨-,hv'⟩
    · rcases back hw with ⟨hwu,-⟩ | ⟨-,hw'⟩
      · exact hvu.trans hwu.symm
      · exact absurd hw' (hq ▸ hp w)
    · rcases back hw with ⟨-,hq⟩ | ⟨-,hw'⟩
      · exact absurd hv' (hq ▸ hp v)
      · exact h.once v w q hv' hw'

end Advance

theorem Inv.pop {s t : System P U} {u : U} {f : Frame} {l : List Frame} (h : Inv s)
    (hl : s.frames (s.thread u) = f :: l) (hd : depth (f :: l) = depth l + 1)
    (hf : WellFormed (f :: l) → WellFormed l) (ho : depth l ≠ 0 → outermost (f :: l) = outermost l)
    (he : ((popCli (s.cpu u)).toOption.map fun c => s.advance u c l) = some t) : Inv t := by
  have ha := h.agrees u
  rw [hl] at ha
  cases hp : popCli (s.cpu u) with
  | error e => simp [hp,Except.toOption] at he
  | ok d =>
    rw [hp] at he
    cases he
    refine h.advance ?_ (ha.pop hp hd (hf ha.formed) ho)
    obtain ⟨-,-,rfl⟩ := popCli_eq_ok hp
    rfl

theorem Inv.step {s t : System P U} {m : Move P U} (h : Inv s) (he : step s m = some t) : Inv t := by
  cases m with
  | trap u clears =>
    rw [Interrupts.step,Option.ite_none_right_eq_some] at he
    obtain ⟨hi,he⟩ := he
    cases he
    exact h.advance rfl ((h.agrees u).trap hi clears)
  | iret u =>
    have ha := h.agrees u
    simp only [Interrupts.step] at he
    split at he
    case h_1 flag l hl =>
      cases he
      rw [hl] at ha
      exact h.advance rfl ha.iret
    case h_2 => cases he
  | readFlags u =>
    cases he
    exact h.advance rfl (h.agrees u).readFlags
  | disable u =>
    have ha := h.agrees u
    simp only [Interrupts.step] at he
    split at he
    case h_1 eflags l hl =>
      cases he
      rw [hl] at ha
      exact h.advance rfl ha.disable
    case h_2 => cases he
  | pop u =>
    simp only [Interrupts.step] at he
    split at he
    case h_1 flag l hl => exact h.pop hl rfl id (fun hz => if_neg hz) he
    case h_2 l hl => exact h.pop hl rfl id (fun _ => rfl) he
    case h_3 => cases he
  | enable u =>
    have ha := h.agrees u
    rw [Interrupts.step,Option.ite_none_right_eq_some] at he
    obtain ⟨⟨hc,hl⟩,he⟩ := he
    cases he
    rw [hl] at ha
    refine h.advance rfl ⟨ha.depth_eq,fun hn => ?_,trivial,ha.saved⟩
    have hz : (s.cpu u).CliDepth = 0 := ha.depth_eq
    simp [hz] at hn
  | sched u =>
    simp only [Interrupts.step] at he
    split at he
    case h_1 p hc =>
      rw [Option.ite_none_right_eq_some] at he
      obtain ⟨⟨hd,hi⟩,he⟩ := he
      cases he
      exact h.sched hc hd hi
    case h_2 => cases he
  | dispatch u p =>
    have hp : Suspended (s.frames (.process p)) ∨ WellFormed (s.frames (.process p)) := by
      by_cases hr : ∃ v, (s.cpu v).current = some p
      · obtain ⟨v,hv⟩ := hr
        have ha := (h.agrees v).formed
        rw [thread_process hv] at ha
        exact .inr ha
      · exact .inl (h.suspended p (fun v hv => hr ⟨v,hv⟩))
    simp only [Interrupts.step] at he
    split at he
    case h_1 flag intena l hc hf hl =>
      cases he
      rcases hp with hs | hw
      · have hs' := hs
        rw [hl] at hs'
        exact h.dispatch hc hf hs hs'.1 hs'.2.1 hs'.2.2
      · rw [hl] at hw
        exact hw.elim
    case h_2 flag l hc hf hl =>
      cases he
      rcases hp with hs | hw
      · have hs' := hs
        rw [hl] at hs'
        exact h.dispatch hc hf hs hs'.1 hs'.2.1 (fun b hb => by simp [hs'.2.2] at hb)
      · rw [hl] at hw
        exact hw.elim
    case h_3 => cases he

/-- In every run interrupts are off on a CPU with CliDepth > 0, and the popCli that
matches the outermost pushCli of the process on a CPU returns with the interrupt
flag which that pushCli found, wherever it ran. -/
theorem interrupt_flag_restored {s t : System P U} {ms : List (Move P U)}
    (h : Runs (graph step) s ms t) (hs : Initial s) :
    (∀ u, 0 < (t.cpu u).CliDepth → (t.cpu u).IF = false) ∧
    ∀ u p flag l, (t.cpu u).current = some p → t.frames (.process p) = .pushed flag :: l → depth l = 0 →
      ∃ c, popCli (t.cpu u) = .ok c ∧ c.CliDepth = 0 ∧ c.IF = flag := by
  have hi : Inv t := h.invariant hs.inv (fun _ _ _ ha he => ha.step he)
  refine ⟨fun u => (hi.agrees u).off,fun u p flag l hc hl hz => ?_⟩
  have ha := hi.agrees u
  rw [thread_process hc,hl] at ha
  have hd : (t.cpu u).CliDepth = 1 := ha.depth_eq.trans (congrArg (· + 1) hz)
  have hf : (t.cpu u).InterruptsEnabled = flag := ha.saved (by simp [hc]) flag (if_pos hz)
  have hoff := ha.off (by omega)
  refine ⟨_,popCli_returns hoff (by omega),by simp [hd],?_⟩
  simp only [hd,hf,hoff]
  cases flag <;> rfl

def booting : System (Fin 2) Bool :=
  ⟨fun _ => ⟨0,false,true,none⟩,fun
    | .process _ => [.fresh,.inherited,.trap true]
    | .scheduler _ => []⟩

/-- A process returns to user code, is interrupted, yields, and goes on on the other
CPU after that one has run the other process. -/
local instance movesOn_size : NeZero 2 := ⟨by decide⟩

def movesOn : List (Move (Fin 2) Bool) :=
  [.readFlags false,.disable false,.dispatch false 0,.pop false,.iret false,.trap false false,
    .readFlags false,.disable false,.sched false,.pop false,
    .readFlags true,.disable true,.dispatch true 1,.pop true,.iret true,.trap true true,
    .readFlags true,.disable true,.sched true,.dispatch true 0]

theorem movesOn_runs : (execute step booting movesOn).isSome = true := by decide +kernel

def movedOn : System (Fin 2) Bool := (execute step booting movesOn).get movesOn_runs

theorem interrupt_flag_restored_movesOn : Runs (graph step) booting movesOn movedOn ∧
    (movedOn.cpu true).current = some 0 ∧
    ∃ c, popCli (movedOn.cpu true) = .ok c ∧ c.CliDepth = 0 ∧ c.IF = true := by
  have h : Runs (graph step) booting movesOn movedOn := Runs.of_execute (Option.some_get movesOn_runs).symm
  have hc : (movedOn.cpu true).current = some 0 := by decide +kernel
  have hf : movedOn.frames (.process 0) = [.pushed true,.trap true] := by decide +kernel
  have hr := interrupt_flag_restored h ⟨fun _ => ⟨rfl,rfl,rfl⟩,fun _ => ⟨true,rfl⟩⟩
  exact ⟨h,hc,hr.2 true 0 true _ hc hf rfl⟩

end UoDOS.Interrupts
