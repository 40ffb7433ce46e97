import UoDOS.Process.SchedulingSteps

/-! # A process runs on one CPU at most

Between the store to State and the store to the field of the CPU that belong together, the lock
is held by the CPU that makes them.
-/
namespace UoDOS.Scheduling
open ProcState Transition Function
open Processes (ProcessTable Slot setState initproc firstTable)

variable {U : Type}

/-- The changes of State that the life of a process consists of. -/
inductive Change : ProcState → ProcState → Prop
  | allocate : Change UNUSED EMBRYO
  | publish : Change EMBRYO RUNNABLE
  | dispatch : Change RUNNABLE RUNNING
  | yield : Change RUNNING RUNNABLE
  | sleep : Change RUNNING SLEEPING
  | exit : Change RUNNING ZOMBIE
  | wakeup : Change SLEEPING RUNNABLE
  | reap : Change ZOMBIE UNUSED
  | abandon : Change EMBRYO UNUSED

def Standing (c : Control) (x : ProcState) : Prop := if c.isSwitching then Offered x else x = RUNNING

structure Placed (s : System U) : Prop where
  scheduler_locked : ∀ u, (s.scheduler u).locked = true → s.Lock = some u
  process_locked : ∀ u p, s.scheduler u = .running p → (s.control p).locked = true → s.Lock = some u
  once : ∀ u v p, s.scheduler u = .running p → s.scheduler v = .running p → u = v
  current : ∀ u p, s.Process u = some p →
    s.scheduler u = .chosen p ∨ s.scheduler u = .running p ∨ s.scheduler u = .back p
  field : ∀ u p, s.scheduler u = .running p → s.Process u = some p
  chosen : ∀ u p, s.scheduler u = .chosen p → s.Process u = some p ∧ (s.table p).State = RUNNABLE
  standing : ∀ u p, s.scheduler u = .running p → Standing (s.control p) (s.table p).State
  running : ∀ p, (s.table p).State = RUNNING → ∃ u, s.scheduler u = .running p

section Lemmas
variable {s s' : System U} {u v : U} {p q np : Fin NPROC} {t t' : ProcessTable}

theorem Passes.own {l l' : Option U} {b b' : Bool} (h : Passes u l b l' b') (hb : b = true → l = some u)
    (hb' : b' = true) : l' = some u := by
  cases h with
  | keep => exact hb hb'
  | take => rfl
  | release => cases hb'

theorem Passes.other {l l' : Option U} {b b' : Bool} (h : Passes u l b l' b') (hb : b = true → l = some u)
    (hv : v ≠ u) (hl : l = some v) : l' = some v := by
  cases h with
  | keep => exact hl
  | take => cases hl
  | release =>
    rw [hb rfl] at hl
    cases hl
    exact absurd rfl hv

theorem Steady.same {x : ProcState} (h : Steady t t' q) (h1 : x ≠ SLEEPING) (h2 : x ≠ RUNNABLE) :
    (t' q).State = x ↔ (t q).State = x := by
  rcases h.2 with h3 | ⟨h3,h4⟩
  · rw [h3]
  · rw [h3,h4]
    exact ⟨fun h => absurd h.symm h2,fun h => absurd h.symm h1⟩

theorem Steady.runnable (h : Steady t t' q) (hq : (t q).State = RUNNABLE) : (t' q).State = RUNNABLE := by
  rcases h.2 with h3 | ⟨-,h4⟩
  · rw [h3,hq]
  · exact h4

theorem Steady.standing {c : Control} (h : Steady t t' q) (hs : Standing c (t q).State) :
    Standing c (t' q).State := by
  unfold Standing at hs ⊢
  by_cases hc : c.isSwitching = true
  · rw [if_pos hc] at hs ⊢
    rcases h.2 with h3 | ⟨-,h4⟩
    · rwa [h3]
    · exact .inl h4
  · rw [if_neg hc] at hs ⊢
    exact (h.same (by decide) (by decide)).mpr hs

theorem Steady.change (h : Steady t t' q) : (t' q).State = (t q).State ∨ Change (t q).State (t' q).State := by
  rcases h.2 with h3 | ⟨h3,h4⟩
  · exact .inl h3
  · rw [h3,h4]
    exact .inr .wakeup

theorem Placed.state (h : Placed s) (hs : s.scheduler u = .running p) (hc : (s.control p).isSwitching = false) :
    (s.table p).State = RUNNING := by
  have hp := h.standing u p hs
  rwa [Standing,if_neg (by simp [hc])] at hp

theorem Placed.other_running (h : Placed s) (hs : s.scheduler u = .running p) (hc : (s.control p).locked = true)
    (hv : s.scheduler v = .running q) (hq : q ≠ p) : (s.table q).State = RUNNING := by
  refine h.state hv ?_
  by_contra hn
  have hq' : (s.control q).locked = true := by
    cases hx : s.control q <;> simp_all [Control.isSwitching,Control.locked]
  have hu := h.process_locked u p hs hc
  rw [h.process_locked v q hv hq'] at hu
  cases hu
  rw [hs] at hv
  cases hv
  exact hq rfl

theorem Placed.process (h : Placed s) (hs : s.scheduler u = .running p) (hsc : s'.scheduler = s.scheduler)
    (hf : s'.Process = s.Process)
    (hp : Passes u s.Lock (s.control p).locked s'.Lock (s'.control p).locked)
    (hc : ∀ v q, q ≠ p → s.scheduler v = .running q → s'.control q = s.control q)
    (hr : ∀ q, (s.table q).State = RUNNABLE → (s'.table q).State = RUNNABLE)
    (ho : ∀ v q, q ≠ p → s.scheduler v = .running q → Standing (s.control q) (s'.table q).State)
    (hn : Standing (s'.control p) (s'.table p).State)
    (hb : ∀ q, (s'.table q).State = RUNNING → (s.table q).State = RUNNING) : Placed s' := by
  have hpu := h.process_locked u p hs
  refine ⟨fun v hv => ?_,fun v q hv hl => ?_,?_,?_,?_,fun v q hv => ?_,fun v q hv => ?_,fun q hq => ?_⟩
  · rw [hsc] at hv
    refine hp.other hpu ?_ (h.scheduler_locked v hv)
    rintro rfl
    rw [hs] at hv
    cases hv
  · rw [hsc] at hv
    rcases eq_or_ne q p with rfl | hq
    · rw [h.once v u q hv hs]
      exact hp.own hpu hl
    · rw [hc v q hq hv] at hl
      refine hp.other hpu ?_ (h.process_locked v q hv hl)
      rintro rfl
      rw [hs] at hv
      cases hv
      exact hq rfl
  · rw [hsc]
    exact h.once
  · rw [hsc,hf]
    exact h.current
  · rw [hsc,hf]
    exact h.field
  · rw [hsc] at hv
    rw [hf]
    exact ⟨(h.chosen v q hv).1,hr q (h.chosen v q hv).2⟩
  · rw [hsc] at hv
    rcases eq_or_ne q p with rfl | hq
    · exact hn
    · rw [hc v q hq hv]
      exact ho v q hq hv
  · rw [hsc]
    exact h.running q (hb q hq)

theorem setState_state (t : ProcessTable) (p q : Fin NPROC) (x : ProcState) :
    (setState t p x q).State = if q = p then x else (t q).State := by
  unfold setState
  split_ifs with h
  · rw [h,update_self]
  · rw [update_of_ne h]

theorem goto_control (s : System U) (p q : Fin NPROC) (c : Control) :
    (s.goto p c).control q = if q = p then c else s.control q := by
  unfold System.goto
  split_ifs with h
  · rw [h]
    exact update_self ..
  · exact update_of_ne h ..

theorem Placed.elsewhere (h : Placed s) (hu : s.Lock = some u) (hv : v ≠ u) :
    (s.scheduler v).locked = false ∧ ∀ p, s.scheduler v = .running p → (s.table p).State = RUNNING := by
  have free : ∀ {b : Bool}, (b = true → s.Lock = some v) → b = false := by
    intro b hb
    cases b with
    | false => rfl
    | true =>
      rw [hb rfl] at hu
      cases hu
      exact absurd rfl hv
  refine ⟨free (h.scheduler_locked v),fun p hp => h.state hp ?_⟩
  have hc := free (h.process_locked v p hp)
  cases hx : s.control p <;> rw [hx] at hc <;> first | rfl | cases hc

theorem Placed.offer {k : Code} {r : Caller} (h : Placed s) (hs : s.scheduler u = .running p)
    (ht : ∀ q ≠ p, Steady s.table t q) (hx : Offered (t p).State) (hl : (s.control p).locked = true)
    (hb : (s.control p).isSwitching = false) : Placed ({ s with table := t }.goto p (.switching k r)) := by
  have hp := h.state hs hb
  have steady : ∀ {q x}, (s.table q).State = x → x ≠ RUNNING → Steady s.table t q := by
    rintro q x hq hn
    refine ht q ?_
    rintro rfl
    exact hn (hq.symm.trans hp)
  refine h.process hs rfl rfl ?_ (fun v q hq _ => (goto_control _ p q _).trans (if_neg hq))
    (fun q hq => (steady hq (by decide)).runnable hq) (fun v q hq hv => (ht q hq).standing (h.standing v q hv)) ?_
    (fun q hq => ?_)
  · rw [goto_control,if_pos rfl,hl]
    exact .keep _ _
  · rw [goto_control,if_pos rfl]
    exact hx
  · rcases eq_or_ne q p with rfl | hqp
    · exact hp
    · exact ((ht q hqp).same (by decide) (by decide)).mp hq

theorem Placed.quiet {c : Control} {l : Option U} (h : Placed s) (hs : s.scheduler u = .running p)
    (ht : ∀ q, Steady s.table t q) (hp : Passes u s.Lock (s.control p).locked l c.locked)
    (hb : (s.control p).isSwitching = false) (hc : c.isSwitching = false) :
    Placed ({ s with table := t, Lock := l }.goto p c) := by
  refine h.process hs rfl rfl ?_ (fun v q hq _ => (goto_control _ p q _).trans (if_neg hq))
    (fun q => (ht q).runnable) (fun v q _ hv => (ht q).standing (h.standing v q hv)) ?_
    (fun q hq => ((ht q).same (by decide) (by decide)).mp hq)
  · rw [goto_control,if_pos rfl]
    exact hp
  · rw [goto_control,if_pos rfl,Standing,if_neg (by simp [hc])]
    exact ((ht p).same (by decide) (by decide)).mpr (h.state hs hb)

theorem Placed.slot {c : Control} {x : Slot} (h : Placed s) (hs : s.scheduler u = .running p)
    (hi : (s.table np).State ≠ RUNNABLE) (hr : ∀ v, s.scheduler v ≠ .running np)
    (hx : x.State ≠ RUNNING) (hl : (s.control p).locked = c.locked)
    (hb : (s.control p).isSwitching = false) (hc : c.isSwitching = false) :
    Placed ({ s with table := update s.table np x }.goto p c) := by
  have away : ∀ {v q}, s.scheduler v = .running q → q ≠ np := fun hv hq => hr _ (hq ▸ hv)
  have keep : ∀ {q}, q ≠ np → update s.table np x q = s.table q := fun hq => update_of_ne hq ..
  refine h.process hs rfl rfl ?_ (fun v q hq _ => (goto_control _ p q _).trans (if_neg hq))
    (fun q hq => ?_) (fun v q _ hv => ?_) ?_ (fun q hq => ?_)
  · rw [goto_control,if_pos rfl,hl]
    exact .keep _ _
  · have hqn : q ≠ np := fun he => hi (he ▸ hq)
    simpa [System.goto,keep hqn] using hq
  · simpa [System.goto,keep (away hv)] using h.standing v q hv
  · rw [goto_control,if_pos rfl,Standing,if_neg (by simp [hc])]
    simpa [System.goto,keep (away hs)] using h.state hs hb
  · rcases eq_or_ne q np with rfl | hqn
    · exact absurd (by simpa [System.goto] using hq) hx
    · simpa [System.goto,keep hqn] using hq

theorem Placed.off_cpu (h : Placed s) (hx : (s.table np).State = UNUSED ∨ (s.table np).State = EMBRYO) (v : U) :
    s.scheduler v ≠ .running np := by
  intro hv
  have hst := h.standing v np hv
  unfold Standing Offered at hst
  rcases hx with hx | hx <;> rw [hx] at hst <;> simp at hst

theorem Placed.allocate {np : Fin NPROC} {i : ℕ} (h : Placed s) (hs : s.scheduler u = .running p)
    (hc : s.control p = .allocating i) (hu : (s.table np).State = UNUSED) : Placed (s.allocate p np) := by
  have hp : (s.table p).State = RUNNING := h.state hs (by rw [hc]; rfl)
  have away : ∀ {v q}, s.scheduler v = .running q → q ≠ np := fun hv hq => h.off_cpu (.inl hu) _ (hq ▸ hv)
  have control : ∀ q, (s.allocate p np).control q =
      if q = p then .leaving (.embryo np) else if q = np then .switching .normal .forkret else s.control q := by
    intro q
    simp only [System.allocate,update_apply]
  have table : ∀ q, q ≠ np → (s.allocate p np).table q = s.table q := fun q hq => update_of_ne hq ..
  refine h.process hs rfl rfl ?_ (fun v q hq hv => ?_) (fun q hq => ?_) (fun v q _ hv => ?_) ?_ (fun q hq => ?_)
  · rw [control,if_pos rfl,hc]
    exact .keep _ _
  · rw [control,if_neg hq,if_neg (away hv)]
  · rw [table q (by rintro rfl; rw [hu] at hq; cases hq)]
    exact hq
  · rw [table q (away hv)]
    exact h.standing v q hv
  · rw [control,if_pos rfl,table p (away hs)]
    exact hp
  · rcases eq_or_ne q np with rfl | hqn
    · simp [System.allocate] at hq
    · rwa [table q hqn] at hq

end Lemmas

section Schedulers
variable [DecidableEq U] {s s' : System U} {u v : U} {p : Fin NPROC} {t : ProcessTable}

theorem Placed.schedule {c : Scheduler} {x : Option (Fin NPROC)} (h : Placed s)
    (hsc : s'.scheduler = update s.scheduler u c) (hf : s'.Process = update s.Process u x)
    (hl : ∀ v ≠ u, s.Lock = some v → s'.Lock = some v)
    (ho : ∀ v ≠ u, ∀ q, s.scheduler v = .running q →
      s'.control q = s.control q ∧ Standing (s.control q) (s'.table q).State)
    (hr : ∀ q, (∀ p, c = .running p → q ≠ p) → (s.table q).State = RUNNABLE → (s'.table q).State = RUNNABLE)
    (hrc : ∀ p, c = .running p → ∀ v ≠ u, s.scheduler v ≠ .chosen p)
    (hlu : c.locked = true → s'.Lock = some u)
    (hx : ∀ q, x = some q → c = .chosen q ∨ c = .running q ∨ c = .back q)
    (hcu : ∀ q, c = .chosen q → x = some q ∧ (s'.table q).State = RUNNABLE)
    (hru : ∀ q, c = .running q → x = some q ∧ s'.Lock = some u ∧ Standing (s'.control q) (s'.table q).State ∧
      ∀ v ≠ u, s.scheduler v ≠ .running q)
    (hb : ∀ q, (s'.table q).State = RUNNING → c = .running q ∨ ∃ v ≠ u, s.scheduler v = .running q) :
    Placed s' := by
  have at_u : s'.scheduler u = c := by rw [hsc,update_self]
  have at_v : ∀ v ≠ u, s'.scheduler v = s.scheduler v := fun v hv => by rw [hsc,update_of_ne hv]
  have field_u : s'.Process u = x := by rw [hf,update_self]
  have field_v : ∀ v ≠ u, s'.Process v = s.Process v := fun v hv => by rw [hf,update_of_ne hv]
  refine ⟨fun v hv => ?_,fun v q hv hc => ?_,fun v w q hv hw => ?_,fun v q hv => ?_,fun v q hv => ?_,
    fun v q hv => ?_,fun v q hv => ?_,fun q hq => ?_⟩
  · rcases eq_or_ne v u with rfl | hvu
    · exact hlu (at_u ▸ hv)
    · exact hl v hvu (h.scheduler_locked v (at_v v hvu ▸ hv))
  · rcases eq_or_ne v u with rfl | hvu
    · exact (hru q (at_u.symm.trans hv)).2.1
    · rw [at_v v hvu] at hv
      rw [(ho v hvu q hv).1] at hc
      exact hl v hvu (h.process_locked v q hv hc)
  · rcases eq_or_ne v u with rfl | hvu
    · rcases eq_or_ne w v with rfl | hwv
      · rfl
      · exact absurd ((at_v w hwv).symm.trans hw) ((hru q (at_u.symm.trans hv)).2.2.2 w hwv)
    · rcases eq_or_ne w u with rfl | hwu
      · exact absurd ((at_v v hvu).symm.trans hv) ((hru q (at_u.symm.trans hw)).2.2.2 v hvu)
      · exact h.once v w q ((at_v v hvu).symm.trans hv) ((at_v w hwu).symm.trans hw)
  · rcases eq_or_ne v u with rfl | hvu
    · rw [at_u]
      exact hx q (field_u.symm.trans hv)
    · rw [at_v v hvu]
      exact h.current v q ((field_v v hvu).symm.trans hv)
  · rcases eq_or_ne v u with rfl | hvu
    · exact field_u.trans (hru q (at_u.symm.trans hv)).1
    · exact (field_v v hvu).trans (h.field v q ((at_v v hvu).symm.trans hv))
  · rcases eq_or_ne v u with rfl | hvu
    · rw [field_u]
      exact hcu q (at_u.symm.trans hv)
    · rw [at_v v hvu] at hv
      obtain ⟨h1,h2⟩ := h.chosen v q hv
      exact ⟨(field_v v hvu).trans h1,hr q (fun p hp hqp => hrc p hp v hvu (hqp ▸ hv)) h2⟩
  · rcases eq_or_ne v u with rfl | hvu
    · exact (hru q (at_u.symm.trans hv)).2.2.1
    · obtain ⟨h1,h2⟩ := ho v hvu q ((at_v v hvu).symm.trans hv)
      rwa [h1]
  · rcases hb q hq with rfl | ⟨v,hvu,hv⟩
    · exact ⟨u,at_u⟩
    · exact ⟨v,(at_v v hvu).trans hv⟩

theorem Placed.scheduler {c : Scheduler} {l : Option U} {x : Option (Fin NPROC)} (h : Placed s)
    (ht : ∀ q, Steady s.table t q) (hp : Passes u s.Lock (s.scheduler u).locked l c.locked)
    (hc : c.quiet = true) (hx : x = none ∨ (s.scheduler u).quiet = true ∧ x = s.Process u)
    (hr : ∀ p, s.scheduler u ≠ .running p) :
    Placed { s with
      table := t, Lock := l, Process := update s.Process u x
      scheduler := update s.scheduler u c } := by
  have hu := h.scheduler_locked u
  have no_run : ∀ p, c ≠ .running p := by
    rintro p rfl
    cases hc
  refine h.schedule rfl rfl (fun v hv => hp.other hu hv) (fun v _ q hv => ⟨rfl,(ht q).standing (h.standing v q hv)⟩)
    (fun q _ => (ht q).runnable) (fun p hp => absurd hp (no_run p)) (hp.own hu) (fun q hq => ?_) (fun q hq => ?_)
    (fun q hq => absurd hq (no_run q)) (fun q hq => ?_)
  · rcases hx with rfl | ⟨hs,rfl⟩
    · cases hq
    · rcases h.current u q hq with h1 | h1 | h1 <;> rw [h1] at hs <;> cases hs
  · rw [hq] at hc
    cases hc
  · obtain ⟨v,hv⟩ := h.running q (((ht q).same (by decide) (by decide)).mp hq)
    exact .inr ⟨v,fun he => hr q (he ▸ hv),hv⟩

theorem Placed.choose {i : ℕ} (h : Placed s) (hs : s.scheduler u = .scanning i) (hp : (s.table p).State = RUNNABLE) :
    Placed ({ s with Process := update s.Process u (some p) }.schedule u (.chosen p)) := by
  refine h.schedule rfl rfl (fun _ _ => id) (fun v _ q hv => ⟨rfl,h.standing v q hv⟩) (fun _ _ => id)
    (fun _ hp => nomatch hp) (fun _ => h.scheduler_locked u (by rw [hs]; rfl)) (fun q hq => ?_) (fun q hq => ?_)
    (fun _ hq => nomatch hq) (fun q hq => ?_)
  · cases hq
    exact .inl rfl
  · cases hq
    exact ⟨rfl,hp⟩
  · obtain ⟨v,hv⟩ := h.running q hq
    refine .inr ⟨v,?_,hv⟩
    rintro rfl
    rw [hs] at hv
    cases hv

theorem Placed.swtch (h : Placed s) (hs : s.scheduler u = .running p) (hc : (s.control p).isSwitching = true) :
    Placed (s.schedule u (.back p)) := by
  have hl : s.Lock = some u := by
    refine h.process_locked u p hs ?_
    cases hx : s.control p <;> rw [hx] at hc <;> first | rfl | cases hc
  refine h.schedule (x := some p) rfl ?_ (fun _ _ => id) (fun v _ q hv => ⟨rfl,h.standing v q hv⟩) (fun _ _ => id)
    (fun _ hp => nomatch hp) (fun _ => hl) (fun q hq => ?_) (fun _ hq => nomatch hq) (fun _ hq => nomatch hq)
    (fun q hq => ?_)
  · exact (update_eq_self_iff.mpr (h.field u p hs).symm).symm
  · cases hq
    exact .inr (.inr rfl)
  · change (s.table q).State = RUNNING at hq
    obtain ⟨v,hv⟩ := h.running q hq
    refine .inr ⟨v,?_,hv⟩
    rintro rfl
    rw [hs] at hv
    cases hv
    have hst := h.standing v p hs
    rw [Standing,if_pos hc,hq] at hst
    rcases hst with h1 | h1 | h1 <;> cases h1

theorem Placed.dispatch {k : Code} {r : Caller} (h : Placed s) (hs : s.scheduler u = .chosen p) :
    Placed (({ s with table := setState s.table p RUNNING }.schedule u (.running p)).goto p (.resumed k r)) := by
  have hl := h.scheduler_locked u (by rw [hs]; rfl)
  obtain ⟨hf,hp⟩ := h.chosen u p hs
  have away : ∀ v ≠ u, ∀ q, s.scheduler v = .running q → q ≠ p := by
    rintro v hv q hq rfl
    rw [(h.elsewhere hl hv).2 q hq] at hp
    cases hp
  refine h.schedule (x := some p) rfl ?_ (fun _ _ => id) (fun v hv q hq => ?_) (fun q hn hq => ?_)
    (fun q _ v hv hq => ?_) (fun _ => hl) (fun q hq => ?_) (fun _ hq => nomatch hq) (fun q hq => ?_) (fun q hq => ?_)
  · exact (update_eq_self_iff.mpr hf.symm).symm
  · have hqp := away v hv q hq
    refine ⟨(goto_control _ p q _).trans (if_neg hqp),?_⟩
    have := h.standing v q hq
    simpa [System.goto,System.schedule,setState_state,hqp] using this
  · have hqp : q ≠ p := hn p rfl
    simpa [System.goto,System.schedule,setState_state,hqp] using hq
  · have := (h.elsewhere hl hv).1
    rw [hq] at this
    cases this
  · cases hq
    exact .inr (.inl rfl)
  · cases hq
    refine ⟨rfl,hl,?_,fun v hv hq => away v hv p hq rfl⟩
    simp [System.goto,System.schedule,setState_state,Standing,Control.isSwitching]
  · rcases eq_or_ne q p with rfl | hqp
    · exact .inl rfl
    · obtain ⟨v,hv⟩ := h.running q (by simpa [System.goto,System.schedule,setState_state,hqp] using hq)
      refine .inr ⟨v,?_,hv⟩
      rintro rfl
      rw [hs] at hv
      cases hv

end Schedulers

end UoDOS.Scheduling
