import UoDOS.Process.Lifecycle

/-! # Parents and children

The invariant of the process table: every process that has been published has a
living parent, and no parent sleeps in wait beside a zombie child.
-/
namespace UoDOS.Processes
open ProcState Transition Function

def Alive (x : ProcState) : Prop := x = RUNNABLE ∨ x = RUNNING ∨ x = SLEEPING

def Config.Forks (s : Config) (p np : Fin NPROC) : Prop :=
  s.control p = .allocated np ∨ s.control p = .copied np

structure Family (s : Config) : Prop where
  parent_alive : ∀ i q, (s.table i).Parent = some q → Alive (s.table q).State
  has_parent : ∀ i ≠ initproc, (s.table i).State ≠ UNUSED → (s.table i).State ≠ EMBRYO →
    (s.table i).Parent ≠ none
  init_alive : Alive (s.table initproc).State
  attended : ∀ p i, (s.table p).State = SLEEPING → (s.table p).Chan = some (.process p) →
    (s.table i).Parent = some p → (s.table i).State ≠ ZOMBIE
  forking : ∀ p np, s.Forks p np → Alive (s.table p).State ∧ (s.table np).State = EMBRYO
  forking_unique : ∀ p q np, s.Forks p np → s.Forks q np → p = q
  copied : ∀ p np, s.control p = .copied np → (s.table np).Parent = some p
  init_parent : (s.table initproc).Parent = none
  not_self : ∀ i, (s.table i).Parent ≠ some i

variable {s s' : Config} {p np : Fin NPROC} {t : ProcessTable}

theorem start_family : Family start := by
  constructor
  all_goals simp only [start,firstTable,Config.Forks]
  all_goals grind [Alive]

def Agree (t t' : ProcessTable) : Prop :=
  ∀ q, (t' q).State = (t q).State ∨ Alive (t q).State ∧ Alive (t' q).State

theorem Agree.alive {t t' : ProcessTable} {q : Fin NPROC} (h : Agree t t')
    (hq : Alive (t q).State) : Alive (t' q).State := by
  rcases h q with h1 | ⟨_,h2⟩
  · rwa [h1]
  · exact h2

theorem Agree.same {t t' : ProcessTable} {q : Fin NPROC} {x : ProcState} (h : Agree t t')
    (hx : ¬ Alive x) : (t' q).State = x ↔ (t q).State = x := by
  rcases h q with h1 | ⟨h1,h2⟩
  · rw [h1]
  · constructor
    · rintro rfl
      exact absurd h2 hx
    · rintro rfl
      exact absurd h1 hx

theorem Woken.agree {t t' : ProcessTable} (h : Woken t t') : Agree t t' := by
  intro q
  rcases h.state q with h1 | ⟨h1,h2⟩
  · exact .inl h1
  · rw [h1,h2]
    exact .inr ⟨.inr (.inr rfl),.inl rfl⟩

theorem agree_update {t : ProcessTable} {p : Fin NPROC} {x : Slot} (h : Alive (t p).State)
    (hx : Alive x.State) : Agree t (update t p x) := by
  intro q
  rcases eq_or_ne q p with rfl | hq
  · rw [update_self]
    exact .inr ⟨h,hx⟩
  · rw [update_of_ne hq]
    exact .inl rfl

theorem Family.quiet (h : Family s) (hparent : ∀ i, (s'.table i).Parent = (s.table i).Parent)
    (hstate : Agree s.table s'.table)
    (hsleep : ∀ q, (s'.table q).State = SLEEPING → (s'.table q).Chan = some (.process q) →
      (s.table q).State = SLEEPING ∧ (s.table q).Chan = some (.process q) ∨
        ∀ i, (s.table i).Parent = some q → (s.table i).State ≠ ZOMBIE)
    (hcontrol : ∀ q, s'.control q = s.control q ∨ ∀ k, ¬ s'.Forks q k) : Family s' := by
  have hunused : ¬ Alive UNUSED := by simp [Alive]
  have hembryo : ¬ Alive EMBRYO := by simp [Alive]
  have hzombie : ¬ Alive ZOMBIE := by simp [Alive]
  have hforks : ∀ q k, s'.Forks q k → s'.control q = s.control q := by
    intro q k hk
    exact (hcontrol q).resolve_right (fun hn => hn k hk)
  constructor
  · intro i q hq
    rw [hparent] at hq
    exact hstate.alive (h.parent_alive i q hq)
  · intro i hi hu he
    rw [hparent]
    apply h.has_parent i hi
    · exact fun hs => hu ((hstate.same hunused).mpr hs)
    · exact fun hs => he ((hstate.same hembryo).mpr hs)
  · exact hstate.alive h.init_alive
  · intro q i hs hc hi hz
    rw [hparent] at hi
    rw [hstate.same hzombie] at hz
    rcases hsleep q hs hc with ⟨hs',hc'⟩ | hn
    · exact h.attended q i hs' hc' hi hz
    · exact hn i hi hz
  · intro q k hk
    have hc := hforks q k hk
    rw [Config.Forks,hc] at hk
    obtain ⟨h1,h2⟩ := h.forking q k hk
    exact ⟨hstate.alive h1,(hstate.same hembryo).mpr h2⟩
  · intro q r k hq hr
    have hcq := hforks q k hq
    have hcr := hforks r k hr
    rw [Config.Forks,hcq] at hq
    rw [Config.Forks,hcr] at hr
    exact h.forking_unique q r k hq hr
  · intro q k hk
    have hc := hforks q k (.inr hk)
    rw [hc] at hk
    rw [hparent]
    exact h.copied q k hk
  · rw [hparent]
    exact h.init_parent
  · intro i
    rw [hparent]
    exact h.not_self i

theorem Family.slot {x : Slot} (h : Family s) (np : Fin NPROC) (hn : ¬ Alive (s.table np).State)
    (htable : s'.table = update s.table np x)
    (hparent : ∀ q, x.Parent = some q → Alive (s.table q).State)
    (hhas : x.State ≠ UNUSED → x.State ≠ EMBRYO → x.Parent ≠ none)
    (hx : x.State ≠ ZOMBIE) (hs : x.State ≠ SLEEPING)
    (hother : ∀ q k, q ≠ p → s'.Forks q k → s'.control q = s.control q ∧ k ≠ np)
    (hp : ∀ k, s'.Forks p k → k = np ∧ x.State = EMBRYO ∧ Alive (s.table p).State ∧
      (s'.control p = .copied np → x.Parent = some p)) : Family s' := by
  have hself : s'.table np = x := by rw [htable,update_self]
  have hne : ∀ {q}, q ≠ np → s'.table q = s.table q := by
    intro q hq
    rw [htable,update_of_ne hq]
  have halive : ∀ {q}, Alive (s.table q).State → Alive (s'.table q).State := by
    intro q hq
    rw [hne (fun he => hn (he ▸ hq))]
    exact hq
  have hforks : ∀ {q k}, q ≠ p → s'.Forks q k → s.Forks q k ∧ k ≠ np := by
    intro q k hq hk
    obtain ⟨hc,hk'⟩ := hother q k hq hk
    rw [Config.Forks,hc] at hk
    exact ⟨hk,hk'⟩
  constructor
  · intro i q hq
    apply halive
    rcases eq_or_ne i np with rfl | hi
    · rw [hself] at hq
      exact hparent q hq
    · rw [hne hi] at hq
      exact h.parent_alive i q hq
  · intro i hi hu he
    rcases eq_or_ne i np with rfl | hin
    · rw [hself] at hu he ⊢
      exact hhas hu he
    · rw [hne hin] at hu he ⊢
      exact h.has_parent i hi hu he
  · exact halive h.init_alive
  · intro q i hq hc hi hz
    have hqn : q ≠ np := by
      rintro rfl
      exact hs (hself ▸ hq)
    have hin : i ≠ np := by
      rintro rfl
      exact hx (hself ▸ hz)
    rw [hne hqn] at hq hc
    rw [hne hin] at hi hz
    exact h.attended q i hq hc hi hz
  · intro q k hk
    rcases eq_or_ne q p with rfl | hq
    · obtain ⟨rfl,he,ha,_⟩ := hp k hk
      rw [hself]
      exact ⟨halive ha,he⟩
    · obtain ⟨hk',hkn⟩ := hforks hq hk
      obtain ⟨h1,h2⟩ := h.forking q k hk'
      rw [hne hkn]
      exact ⟨halive h1,h2⟩
  · intro q r k hq hr
    rcases eq_or_ne q p with rfl | hqp
    · by_contra hqr
      exact (hforks (Ne.symm hqr) hr).2 (hp k hq).1
    · obtain ⟨hq',hk⟩ := hforks hqp hq
      rcases eq_or_ne r p with rfl | hrp
      · exact absurd (hp k hr).1 hk
      · exact h.forking_unique q r k hq' (hforks hrp hr).1
  · intro q k hk
    rcases eq_or_ne q p with rfl | hq
    · obtain ⟨rfl,_,_,hc⟩ := hp k (.inr hk)
      rw [hself]
      exact hc hk
    · obtain ⟨hc,hkn⟩ := hother q k hq (.inr hk)
      rw [hc] at hk
      rw [hne hkn]
      exact h.copied q k hk
  · rw [hne (fun he => hn (he ▸ h.init_alive))]
    exact h.init_parent
  · intro i
    rcases eq_or_ne i np with rfl | hi
    · rw [hself]
      exact fun he => hn (hparent i he)
    · rw [hne hi]
      exact h.not_self i

theorem alive_of_running (h : (s.table p).State = RUNNING) : Alive (s.table p).State :=
  .inr (.inl h)

@[simp] theorem next_table (s : Config) (t : ProcessTable) (p : Fin NPROC) (k : Control) :
    (s.next t p k).table = t := rfl

@[simp] theorem next_control (s : Config) (t : ProcessTable) (p : Fin NPROC) (k : Control) :
    (s.next t p k).control = update s.control p k := rfl

theorem Family.fork {n : UInt32} (h : Family s) (hr : s.runs p .user)
    (ha : allocateSlot s.table s.nextpid = some (np,t)) :
    Family ⟨t,n,update s.control p (.allocated np)⟩ := by
  obtain ⟨hu,rfl⟩ := allocateSlot_eq ha
  have hn : ¬ Alive (s.table np).State := by simp [Alive,hu]
  apply h.slot np (p := p) hn rfl
  · exact h.parent_alive np
  · intro _ he
    exact absurd rfl he
  · simp
  · simp
  · intro q k hq hk
    simp only [Config.Forks,update_of_ne hq] at hk ⊢
    refine ⟨trivial,?_⟩
    rintro rfl
    have he := (h.forking q k hk).2
    rw [hu] at he
    cases he
  · intro k hk
    simp only [Config.Forks,update_self,Control.allocated.injEq,reduceCtorEq,or_false] at hk
    exact ⟨hk.symm,rfl,alive_of_running hr.1,fun hc => by simp at hc⟩

theorem Family.other_forks (h : Family s) (hf : s.Forks p np) {k : Control} {q r : Fin NPROC}
    (hq : q ≠ p) (hr : (s.next t p k).Forks q r) :
    (s.next t p k).control q = s.control q ∧ r ≠ np := by
  simp only [Config.Forks,next_control,update_of_ne hq] at hr ⊢
  refine ⟨trivial,?_⟩
  rintro rfl
  exact hq (h.forking_unique q p r hr hf)

theorem Family.not_alive (h : Family s) (hf : s.Forks p np) : ¬ Alive (s.table np).State := by
  simp [Alive,(h.forking p np hf).2]

theorem Family.abandon (h : Family s) (hf : s.Forks p np) :
    Family (s.next (setState s.table np UNUSED) p .user) := by
  apply h.slot np (p := p) (h.not_alive hf) rfl
  · exact h.parent_alive np
  · intro hu
    exact absurd rfl hu
  · simp
  · simp
  · intro q k hq hk
    exact h.other_forks hf hq hk
  · intro k hk
    simp [Config.Forks] at hk

theorem Family.adopt (h : Family s) (hf : s.Forks p np) (hr : (s.table p).State = RUNNING) :
    Family (s.next (setParent s.table np (some p)) p (.copied np)) := by
  have he := (h.forking p np hf).2
  apply h.slot np (p := p) (h.not_alive hf) rfl
  · intro q hq
    cases hq
    exact alive_of_running hr
  · intro _ hne
    exact absurd he hne
  · simp [he]
  · simp [he]
  · intro q k hq hk
    exact h.other_forks hf hq hk
  · intro k hk
    simp only [Config.Forks,next_control,update_self,Control.copied.injEq,reduceCtorEq,
      false_or] at hk
    exact ⟨hk.symm,he,alive_of_running hr,fun _ => rfl⟩

theorem Family.publish (h : Family s) (hc : s.control p = .copied np) :
    Family ((s.next (setState s.table np RUNNABLE) p .user).next
      (setState s.table np RUNNABLE) np .user) := by
  have hf : s.Forks p np := .inr hc
  apply h.slot np (p := p) (h.not_alive hf) rfl
  · exact h.parent_alive np
  · intro _ _
    simp [h.copied p np hc]
  · simp
  · simp
  · intro q k hq hk
    rcases eq_or_ne q np with rfl | hqn
    · simp [Config.Forks] at hk
    · simp only [Config.Forks,next_control,update_of_ne hqn] at hk ⊢
      exact h.other_forks (t := s.table) hf hq hk
  · intro k hk
    rcases eq_or_ne p np with rfl | hpn
    · simp [Config.Forks] at hk
    · simp [Config.Forks,hpn] at hk

theorem Family.reap {i : Fin NPROC} (h : Family s) (hz : (s.table i).State = ZOMBIE) :
    Family (s.next (update s.table i
      { s.table i with ProcessId := 0, Parent := none, IsKilled := false, State := UNUSED }) p .user) := by
  apply h.slot i (p := p) (by simp [Alive,hz]) rfl
  · simp
  · simp
  · simp
  · simp
  · intro q k hq hk
    simp only [Config.Forks,next_control,update_of_ne hq] at hk ⊢
    refine ⟨trivial,?_⟩
    rintro rfl
    have he := (h.forking q k hk).2
    rw [hz] at he
    cases he
  · intro k hk
    simp [Config.Forks] at hk

theorem not_forks_next {k : Control} (hk : ∀ r, k ≠ .allocated r ∧ k ≠ .copied r) (s : Config)
    (t : ProcessTable) (p q : Fin NPROC) :
    (s.next t p k).control q = s.control q ∨ ∀ r, ¬ (s.next t p k).Forks q r := by
  rcases eq_or_ne q p with rfl | hq
  · right
    intro r hr
    simp only [Config.Forks,next_control,update_self] at hr
    rcases hr with hr | hr
    · exact (hk r).1 hr
    · exact (hk r).2 hr
  · left
    simp [hq]

theorem Family.write {x : Slot} {k : Control} (h : Family s) (ha : Alive (s.table p).State)
    (hx : Alive x.State) (hparent : x.Parent = (s.table p).Parent)
    (hsleep : x.State = SLEEPING → x.Chan = some (.process p) →
      (s.table p).State = SLEEPING ∧ (s.table p).Chan = some (.process p) ∨
        ∀ i, (s.table i).Parent = some p → (s.table i).State ≠ ZOMBIE)
    (hk : k = s.control p ∨ ∀ r, k ≠ .allocated r ∧ k ≠ .copied r) :
    Family (s.next (update s.table p x) p k) := by
  apply h.quiet
  · intro i
    rcases eq_or_ne i p with rfl | hi
    · simp [hparent]
    · simp [hi]
  · exact agree_update ha hx
  · intro q hq hc
    rcases eq_or_ne q p with rfl | hqp
    · simp only [next_table,update_self] at hq hc
      exact hsleep hq hc
    · simp only [next_table,update_of_ne hqp] at hq hc
      exact .inl ⟨hq,hc⟩
  · intro q
    rcases hk with rfl | hk
    · left
      simp
    · exact not_forks_next hk s _ p q

theorem Family.wait (h : Family s) (hr : s.runs p .user) :
    Family (waitRound s s.table p).1 := by
  unfold waitRound
  rcases waitSlot_cases p s.table with ⟨i,_,hz,hw⟩ | hw | ⟨hn,hw⟩
  · rw [hw]
    exact h.reap hz
  · rw [hw]
    have hf := h.write (x := s.table p) (k := .user) (alive_of_running hr.1) (alive_of_running hr.1)
      rfl (fun hs hc => .inl ⟨hs,hc⟩) (.inl hr.2.symm)
    rwa [update_eq_self] at hf
  · rw [hw]
    apply h.write (alive_of_running hr.1)
    · simp [Alive]
    · rfl
    · intro _ _
      exact .inr hn
    · exact .inr (by simp)

theorem Family.exit (h : Family s) (hr : s.runs p .user) (hp : p ≠ initproc) :
    Family (s.next (exitSlot p s.table) p .exited) := by
  have hx := exited_exitSlot s.table p
  have hrun : (s.table p).State = RUNNING := hr.1
  have halive : ∀ {q}, q ≠ p → Alive (s.table q).State → Alive (exitSlot p s.table q).State := by
    intro q hq ha
    rcases hx.state q hq with h1 | ⟨_,h2⟩
    · rwa [h1]
    · rw [h2]
      exact .inl rfl
  have hforks : ∀ {q k}, (s.next (exitSlot p s.table) p .exited).Forks q k → q ≠ p ∧ s.Forks q k := by
    intro q k hk
    rcases eq_or_ne q p with rfl | hq
    · simp [Config.Forks] at hk
    · simp only [Config.Forks,next_control,update_of_ne hq] at hk
      exact ⟨hq,hk⟩
  constructor
  · intro i q hq
    rw [next_table,hx.parent] at hq
    split_ifs at hq with hi
    · cases hq
      exact halive (Ne.symm hp) h.init_alive
    · have hqp : q ≠ p := by
        rintro rfl
        exact hi hq
      exact halive hqp (h.parent_alive i q hq)
  · intro i hi hu he
    rw [next_table,hx.parent]
    split_ifs with hpar
    · simp
    · rcases eq_or_ne i p with rfl | hip
      · apply h.has_parent i hi <;> simp [hrun]
      · rcases hx.state i hip with h1 | ⟨h1,_⟩
        · rw [next_table,h1] at hu he
          exact h.has_parent i hi hu he
        · apply h.has_parent i hi <;> simp [h1]
  · exact halive (Ne.symm hp) h.init_alive
  · intro q i hq hc hi hz
    rw [next_table] at hq hz
    rw [next_table,hx.chan] at hc
    rw [next_table,hx.parent] at hi
    have hqp : q ≠ p := by
      rintro rfl
      rw [hx.zombie] at hq
      cases hq
    rcases eq_or_ne i p with rfl | hip
    · rw [if_neg (h.not_self i)] at hi
      exact hx.parent_awake q hi hc hq
    · have hzi : (s.table i).State = ZOMBIE := by
        rcases hx.state i hip with h1 | ⟨_,h2⟩
        · rwa [h1] at hz
        · rw [h2] at hz
          cases hz
      have hsq : (s.table q).State = SLEEPING := by
        rcases hx.state q hqp with h1 | ⟨h1,_⟩
        · rwa [h1] at hq
        · exact h1
      split_ifs at hi with hpar
      · cases hi
        exact hx.init_awake i hpar hzi hc hq
      · exact h.attended q i hsq hc hi hzi
  · intro q k hk
    obtain ⟨hq,hk'⟩ := hforks hk
    obtain ⟨h1,h2⟩ := h.forking q k hk'
    have hkp : k ≠ p := by
      rintro rfl
      rw [hrun] at h2
      cases h2
    refine ⟨halive hq h1,?_⟩
    rcases hx.state k hkp with h3 | ⟨h3,_⟩
    · rw [next_table,h3,h2]
    · rw [h2] at h3
      cases h3
  · intro q r k hq hr'
    exact h.forking_unique q r k (hforks hq).2 (hforks hr').2
  · intro q k hk
    have hq := (hforks (.inr hk)).1
    simp only [next_control,update_of_ne hq] at hk
    have hpar := h.copied q k hk
    rw [next_table,hx.parent,hpar,if_neg (by simpa using hq)]
  · rw [next_table,hx.parent,h.init_parent]
    simp
  · intro i
    rw [next_table,hx.parent]
    split_ifs with hpar
    · rintro hi
      cases hi
      rw [h.init_parent] at hpar
      cases hpar
    · exact h.not_self i

theorem waitRound_next (s : Config) (t : ProcessTable) (p : Fin NPROC) :
    waitRound s t p = waitRound (s.next t p .user) t p := by
  unfold waitRound
  rcases waitSlot p t with ⟨r,t'⟩
  cases r <;> simp [Config.next]

theorem Family.wake (h : Family s) (ha : Alive (s.table p).State) :
    Family (s.next (wakeSlot s.table p) p .user) := by
  apply h.write ha
  · simp [Alive]
  · rfl
  · simp
  · exact .inr (by simp)

theorem Family.woken {t : ProcessTable} (h : Family s) (hw : Woken s.table t)
    (hparent : ∀ i, (t i).Parent = (s.table i).Parent) : Family { s with table := t } := by
  apply h.quiet
  · exact hparent
  · exact hw.agree
  · intro q hq hc
    rw [hw.chan] at hc
    exact .inl ⟨hw.sleeping hq,hc⟩
  · intro q
    exact .inl rfl

theorem Family.step {l : Move × Option Event} (h : Family s) (he : steps s l s') : Family s' := by
  obtain ⟨m,e⟩ := l
  cases effect_of_steps he with
  | forked hr ha => exact h.fork hr ha
  | full => exact h
  | abandoned hc => exact h.abandon (.inl hc)
  | adopted hc hr => exact h.adopt (.inl hc) hr
  | published hc => exact h.publish hc
  | exits hr hp => exact h.exit hr hp
  | waits hr => exact h.wait hr
  | kills => exact h.woken (woken_kill _ _) (kill_parent _ _)
  | @faults p hr =>
    have ha := alive_of_running hr.1
    apply h.write ha
    · exact ha
    · rfl
    · intro hs hc
      exact .inl ⟨hs,hc⟩
    · exact .inr (by simp)
  | sleeps hr =>
    apply h.write (alive_of_running hr.1)
    · simp [Alive]
    · rfl
    · simp
    · exact .inr (by simp)
  | wakes => exact h.woken (woken_wakeup1 _ _) (wakeup1_parent _ _)
  | @rewaits p hr =>
    rw [waitRound_next]
    exact (h.wake (.inl hr)).wait ⟨by simp [wakeSlot],by simp⟩
  | returns hr => exact h.wake (.inl hr)
  | dispatched hr =>
    apply h.write (.inl hr)
    · simp [Alive]
    · rfl
    · simp
    · exact .inl rfl
  | yields hr =>
    apply h.write (alive_of_running hr)
    · simp [Alive]
    · rfl
    · simp
    · exact .inl rfl

end UoDOS.Processes
