import UoDOS.Process.Family

/-! # Zombies and what wait reports

The pids that wait reports for a slot are those of the processes that exited in it,
in the same order and each of them once.
-/
namespace UoDOS.Processes
open ProcState Transition

variable {s s' : Config} {p : Fin NPROC} {t : ProcessTable}
  {ls : List (Move × Option Event)}

def Still (t t' : ProcessTable) : Prop :=
  ∀ i, ((t' i).State = ZOMBIE ↔ (t i).State = ZOMBIE) ∧
    ((t i).State = ZOMBIE → (t' i).ProcessId = (t i).ProcessId)

theorem still_update {x : Slot} (hi : (t p).State ≠ ZOMBIE) (hx : x.State ≠ ZOMBIE) :
    Still t (Function.update t p x) := by
  intro i
  rcases eq_or_ne i p with rfl | hip
  · simp [hi,hx]
  · simp [hip]

theorem Woken.still {t t' : ProcessTable} (h : Woken t t') : Still t t' := by
  intro i
  exact ⟨h.same (by decide) (by decide),fun _ => h.pid i⟩

inductive Fate (s s' : Config) (i : Fin NPROC) : Option Event → Prop
  | exits (h : (s.table i).State ≠ ZOMBIE) (h' : (s'.table i).State = ZOMBIE)
      (hpid : (s'.table i).ProcessId = (s.table i).ProcessId) :
      Fate s s' i (some (.exited i (s.table i).ProcessId))
  | reported (p : Fin NPROC) (hp : (s.table i).Parent = some p) (h : (s.table i).State = ZOMBIE)
      (h' : (s'.table i).State = UNUSED) : Fate s s' i (some (.reported p i (s.table i).ProcessId))
  | other (e : Option Event) (he : ∀ q pid, e = some (.exited q pid) → q ≠ i)
      (hr : ∀ p q pid, e = some (.reported p q pid) → q ≠ i)
      (hs : (s'.table i).State = ZOMBIE ↔ (s.table i).State = ZOMBIE)
      (hpid : (s.table i).State = ZOMBIE → (s'.table i).ProcessId = (s.table i).ProcessId) :
      Fate s s' i e

theorem Still.fate (h : Still s.table s'.table) (i : Fin NPROC) : Fate s s' i none :=
  .other none (by simp) (by simp) (h i).1 (h i).2

theorem fate_wait (hr : (s.table p).State = RUNNING) (i : Fin NPROC) :
    Fate s (waitRound s s.table p).1 i (waitRound s s.table p).2 := by
  unfold waitRound
  rcases waitSlot_cases p s.table with ⟨j,hp,hz,hw⟩ | hw | ⟨hn,hw⟩
  · rw [hw]
    rcases eq_or_ne i j with rfl | hij
    · exact .reported p hp hz (by simp)
    · apply Fate.other
      · simp
      · rintro _ q _ ⟨⟩
        exact Ne.symm hij
      · simp [hij]
      · simp [hij]
  · rw [hw]
    exact Still.fate (show Still s.table (s.next s.table p .user).table from fun i => by simp) i
  · rw [hw]
    exact Still.fate (still_update (by simp [hr]) (by simp)) i

theorem fate_exit (hr : (s.table p).State = RUNNING) (i : Fin NPROC) :
    Fate s (s.next (exitSlot p s.table) p .exited) i (some (.exited p (s.table p).ProcessId)) := by
  have hx := exited_exitSlot s.table p
  rcases eq_or_ne i p with rfl | hip
  · exact .exits (by simp [hr]) hx.zombie (hx.pid i)
  · apply Fate.other
    · rintro q _ ⟨⟩
      exact Ne.symm hip
    · simp
    · rw [next_table]
      rcases hx.state i hip with h1 | ⟨h1,h2⟩
      · rw [h1]
      · simp [h1,h2]
    · intro _
      exact hx.pid i

theorem Fate.of_before {s1 : Config} {i : Fin NPROC} {e : Option Event} (h : Fate s1 s' i e)
    (hs : (s1.table i).State = ZOMBIE ↔ (s.table i).State = ZOMBIE)
    (hpid : (s1.table i).ProcessId = (s.table i).ProcessId)
    (hp : (s1.table i).Parent = (s.table i).Parent) : Fate s s' i e := by
  cases h with
  | exits h h' hpid' =>
    rw [hpid] at hpid' ⊢
    exact .exits (fun hz => h (hs.mpr hz)) h' hpid'
  | reported p hpar h h' =>
    rw [hpid]
    exact .reported p (hp ▸ hpar) (hs.mp h) h'
  | other _ he hr hs' hpid' =>
    apply Fate.other _ he hr (hs'.trans hs)
    intro hz
    rw [hpid' (hs.mpr hz),hpid]

theorem Family.fate {l : Move × Option Event} (h : Family s) (he : steps s l s') (i : Fin NPROC) :
    Fate s s' i l.2 := by
  obtain ⟨m,e⟩ := l
  cases effect_of_steps he with
  | @forked p np t hr ha =>
    obtain ⟨hu,rfl⟩ := allocateSlot_eq ha
    exact Still.fate (still_update (by simp [hu]) (by simp)) i
  | full => exact Still.fate (fun i => by simp) i
  | @abandoned p np hc =>
    have hn := (h.forking p np (.inl hc)).2
    exact Still.fate (still_update (by simp [hn]) (by simp)) i
  | adopted hc hr => exact Still.fate (woken_setParent _ _ _).still i
  | @published p np hc =>
    have hn := (h.forking p np (.inr hc)).2
    exact Still.fate (still_update (by simp [hn]) (by simp)) i
  | exits hr hp => exact fate_exit hr.1 i
  | waits hr => exact fate_wait hr.1 i
  | kills => exact Still.fate (woken_kill _ _).still i
  | faults hr => exact Still.fate (still_update (by simp [hr.1]) (by simp [hr.1])) i
  | sleeps hr => exact Still.fate (still_update (by simp [hr.1]) (by simp)) i
  | wakes => exact Still.fate (woken_wakeup1 _ _).still i
  | @rewaits p hr =>
    rw [waitRound_next]
    apply (fate_wait (s := s.next (wakeSlot s.table p) p .user) (by simp [wakeSlot]) i).of_before
    · exact (still_update (by simp [hr]) (by simp) i).1
    · rcases eq_or_ne i p with rfl | hip <;> simp_all [wakeSlot]
    · rcases eq_or_ne i p with rfl | hip <;> simp_all [wakeSlot]
  | returns hr => exact Still.fate (still_update (by simp [hr]) (by simp)) i
  | dispatched hr => exact Still.fate (still_update (by simp [hr]) (by simp)) i
  | yields hr => exact Still.fate (still_update (by simp [hr]) (by simp)) i

/-- The pids of the processes that exited in the slot `i`, in order. -/
def exitedPids (i : Fin NPROC) (ls : List (Move × Option Event)) : List UInt32 :=
  ls.filterMap (fun l => match l.2 with
    | some (.exited q pid) => if q = i then some pid else none
    | _ => none)

/-- The pids that wait has returned for processes in the slot `i`, in order. -/
def reportedPids (i : Fin NPROC) (ls : List (Move × Option Event)) : List UInt32 :=
  ls.filterMap (fun l => match l.2 with
    | some (.reported _ q pid) => if q = i then some pid else none
    | _ => none)

/-- The pid of an exited process that has not been reported yet. -/
def unreported (s : Config) (i : Fin NPROC) : List UInt32 :=
  if (s.table i).State = ZOMBIE then [(s.table i).ProcessId] else []

theorem Fate.tally {i : Fin NPROC} {l : Move × Option Event}
    (h : Fate s s' i l.2) (ht : exitedPids i ls = reportedPids i ls ++ unreported s i) :
    exitedPids i (ls ++ [l]) = reportedPids i (ls ++ [l]) ++ unreported s' i := by
  obtain ⟨m,e⟩ := l
  simp only [exitedPids,reportedPids,unreported,List.filterMap_append] at ht ⊢
  rw [ht]
  cases h with
  | exits h h' hpid => simp [h,h',hpid]
  | reported p hp h h' => simp [h,h']
  | other _ he hr hs hpid =>
    have h1 : ∀ q pid, e = some (.exited q pid) → ¬ q = i := he
    have h2 : ∀ p q pid, e = some (.reported p q pid) → ¬ q = i := hr
    cases e with
    | none => by_cases hz : (s.table i).State = ZOMBIE <;> simp_all
    | some ev => cases ev <;> by_cases hz : (s.table i).State = ZOMBIE <;> simp_all

theorem Family.of_runs (h : Runs steps start ls s) : Family s :=
  h.invariant start_family (fun _ _ _ ha he => ha.step he)

theorem start_unreported (i : Fin NPROC) : unreported start i = [] := by
  unfold unreported start firstTable
  by_cases hi : i = initproc <;> simp [hi]

theorem tally_of_runs (h : Runs steps start ls s)
    (i : Fin NPROC) : exitedPids i ls = reportedPids i ls ++ unreported s i := by
  have hi := h.invariant_trace
    (I := fun ms a => Family a ∧ exitedPids i ms = reportedPids i ms ++ unreported a i)
    ⟨start_family,by rw [start_unreported]; rfl⟩
    (fun ms a l b ha he => ⟨ha.1.step he,(ha.1.fate he i).tally ha.2⟩)
  exact hi.2

/-- In every run from the first process on, each process that has been published or has
exited has a living parent, nobody sleeps in wait beside a zombie child, a zombie
leaves only through a wait of its parent that returns its pid, orphans go to init,
and for each slot the reported pids are the exited ones but for a zombie still there. -/
theorem children_are_reaped {ls : List (Move × Option Event)} (h : Runs steps start ls s) :
    (∀ i ≠ initproc, (s.table i).State = RUNNABLE ∨ (s.table i).State = RUNNING ∨
        (s.table i).State = SLEEPING ∨ (s.table i).State = ZOMBIE →
      ∃ q, (s.table i).Parent = some q ∧ (s.table q).State ≠ UNUSED ∧ (s.table q).State ≠ ZOMBIE) ∧
    (∀ p i, (s.table p).State = SLEEPING → (s.table p).Chan = some (.process p) →
      (s.table i).Parent = some p → (s.table i).State ≠ ZOMBIE) ∧
    (∀ l s', steps s l s' → ∀ i, (s.table i).State = ZOMBIE → (s'.table i).State ≠ ZOMBIE →
      (s'.table i).State = UNUSED ∧ ∃ p, (s.table i).Parent = some p ∧
        l.2 = some (.reported p i (s.table i).ProcessId)) ∧
    (∀ p e s', steps s (.exit p,e) s' → ∀ i, (s.table i).Parent = some p →
      (s'.table i).Parent = some initproc) ∧
    ∀ i, exitedPids i ls = reportedPids i ls ++ unreported s i := by
  have hf := Family.of_runs h
  refine ⟨?_,hf.attended,?_,?_,tally_of_runs h⟩
  · intro i hi hs
    have hn : (s.table i).Parent ≠ none := by
      apply hf.has_parent i hi
      · intro hu
        simp [hu] at hs
      · intro he
        simp [he] at hs
    obtain ⟨q,hq⟩ := Option.ne_none_iff_exists'.mp hn
    have ha := hf.parent_alive i q hq
    refine ⟨q,hq,?_,?_⟩
    · intro hu
      simp [Alive,hu] at ha
    · intro hz
      simp [Alive,hz] at ha
  · intro l s' he i hz hn
    have hfate := hf.fate he i
    revert hfate
    generalize l.2 = e
    intro hfate
    cases hfate with
    | exits h' _ _ => exact absurd hz h'
    | reported p hp _ hu => exact ⟨hu,p,hp,rfl⟩
    | other _ _ _ hs _ => exact absurd (hs.mpr hz) hn
  · intro p e s' he i hi
    cases effect_of_steps he with
    | exits hr hp =>
      rw [next_table,(exited_exitSlot s.table p).parent,if_pos hi]

theorem reapedRun_lt : 1 < NPROC := by decide

def reapedRun : List (Move × Option Event) :=
  [(.dispatch initproc,none),(.fork initproc,none),(.adopt initproc,none),(.publish initproc,none),
    (.dispatch ⟨1,reapedRun_lt⟩,none),(.exit ⟨1,reapedRun_lt⟩,some (.exited ⟨1,reapedRun_lt⟩ 2)),
    (.wait initproc,some (.reported initproc ⟨1,reapedRun_lt⟩ 2))]

theorem children_are_reaped_oneChild : ∃ s, Runs steps start reapedRun s ∧
    exitedPids ⟨1,by decide⟩ reapedRun =
      reportedPids ⟨1,by decide⟩ reapedRun ++ unreported s ⟨1,by decide⟩ := by
  have h : Runs (graph fun s l => (step s l.1).bind fun r => if r.2 = l.2 then some r.1 else none)
      start reapedRun _ := Runs.of_execute (Option.some_get (by decide +kernel)).symm
  have hr : Runs steps start reapedRun _ := h.mono (fun s l t he => by
    obtain ⟨r,hr,ht⟩ := Option.bind_eq_some_iff.mp he
    split_ifs at ht with hl
    cases ht
    rw [steps,hr,← hl])
  exact ⟨_,hr,(children_are_reaped hr).2.2.2.2 _⟩

end UoDOS.Processes
