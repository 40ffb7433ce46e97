import UoDOS.Process.SchedulingRules

/-! # Process states and pids over the runs of all CPUs -/
namespace UoDOS.Scheduling
open ProcState Transition
open Processes (ProcessTable Slot setState initproc firstTable)

variable {U : Type}

structure Owned (s : System U) : Prop where
  embryo : ∀ p np, (s.control p).owns = some np → (s.table np).State = EMBRYO
  owner : ∀ p q np, (s.control p).owns = some np → (s.control q).owns = some np → p = q

structure Numbered (s : System U) : Prop where
  next : s.nextpid.toNat = s.created + 1
  pid : ∀ p, (s.table p).State ≠ UNUSED →
    0 < (s.table p).ProcessId.toNat ∧ (s.table p).ProcessId.toNat ≤ s.created
  distinct : ∀ p q, (s.table p).State ≠ UNUSED → (s.table q).State ≠ UNUSED →
    (s.table p).ProcessId = (s.table q).ProcessId → p = q

section Steps
variable {s s' : System U} {u v : U} {p q np : Fin NPROC}

theorem Owned.keep (h : Owned s) (hs : ∀ q, (s.table q).State = EMBRYO → (s'.table q).State = EMBRYO)
    (ho : ∀ q np, (s'.control q).owns = some np → (s.control q).owns = some np) : Owned s' :=
  ⟨fun p np hp => hs np (h.embryo p np (ho p np hp)),fun p q np hp hq => h.owner p q np (ho p np hp) (ho q np hq)⟩

theorem owns_goto {c : Control} (h : ∀ np, c.owns = some np → (s.control p).owns = some np)
    (hq : ((s.goto p c).control q).owns = some np) : (s.control q).owns = some np := by
  rw [goto_control] at hq
  split_ifs at hq with hqp
  · rw [hqp]
    exact h np hq
  · exact hq

theorem Owned.drop {c : Control} (h : Owned s) (x : ProcState) (hp : (s.control p).owns = some np)
    (hc : c.owns = none) : Owned ({ s with table := setState s.table np x }.goto p c) := by
  have owns : ∀ {q i}, (({ s with table := setState s.table np x }.goto p c).control q).owns = some i →
      q ≠ p ∧ (s.control q).owns = some i := by
    intro q i hq
    rw [goto_control] at hq
    split_ifs at hq with hqp
    · rw [hc] at hq
      cases hq
    · exact ⟨hqp,hq⟩
  refine ⟨fun q i hq => ?_,fun q r i hq hr => h.owner q r i (owns hq).2 (owns hr).2⟩
  obtain ⟨hqp,hq⟩ := owns hq
  have hi : i ≠ np := fun he => hqp (h.owner q p np (he ▸ hq) hp)
  have hs := h.embryo q i hq
  simpa [System.goto,setState_state,hi] using hs

theorem Owned.allocate (h : Owned s) (hu : (s.table np).State = UNUSED) : Owned (s.allocate p np) := by
  have free : ∀ q, (s.control q).owns ≠ some np := by
    intro q hq
    rw [h.embryo q np hq] at hu
    cases hu
  have owns : ∀ {q i}, ((s.allocate p np).control q).owns = some i →
      q = p ∧ i = np ∨ q ≠ p ∧ (s.control q).owns = some i := by
    intro q i hq
    simp only [System.allocate,Function.update_apply] at hq
    split_ifs at hq with hqp hqn
    · cases hq
      exact .inl ⟨hqp,rfl⟩
    · cases hq
    · exact .inr ⟨hqp,hq⟩
  refine ⟨fun q i hq => ?_,fun q r i hq hr => ?_⟩
  · rcases owns hq with ⟨-,rfl⟩ | ⟨-,hq⟩
    · simp [System.allocate]
    · have hi : i ≠ np := fun he => free q (he ▸ hq)
      simpa [System.allocate,hi] using h.embryo q i hq
  · rcases owns hq with ⟨hqp,hi⟩ | ⟨-,hq'⟩
    · rcases owns hr with ⟨hrp,-⟩ | ⟨-,hr'⟩
      · exact hqp.trans hrp.symm
      · exact absurd (hi ▸ hr') (free r)
    · rcases owns hr with ⟨-,hi⟩ | ⟨-,hr'⟩
      · exact absurd (hi ▸ hq') (free q)
      · exact h.owner q r i hq' hr'

theorem Numbered.keep (h : Numbered s) (hn : s'.nextpid = s.nextpid) (hc : s'.created = s.created)
    (hs : ∀ q, (s'.table q).State ≠ UNUSED →
      (s.table q).State ≠ UNUSED ∧ (s'.table q).ProcessId = (s.table q).ProcessId) : Numbered s' := by
  refine ⟨by rw [hn,hc,h.next],fun p hp => ?_,fun p q hp hq hpq => ?_⟩
  · obtain ⟨h1,h2⟩ := hs p hp
    rw [h2,hc]
    exact h.pid p h1
  · obtain ⟨h1,h2⟩ := hs p hp
    obtain ⟨h3,h4⟩ := hs q hq
    rw [h2,h4] at hpq
    exact h.distinct p q h1 h3 hpq

theorem Numbered.allocate (h : Numbered s) (hb : s.created + 1 < 2 ^ 31 - 1) : Numbered (s.allocate p np) := by
  have hn := h.next
  have table : ∀ q, q ≠ np → (s.allocate p np).table q = s.table q := fun q hq => Function.update_of_ne hq ..
  have pid : ((s.allocate p np).table np).ProcessId = s.nextpid := by simp [System.allocate]
  have other : ∀ q, q ≠ np → ((s.allocate p np).table q).State ≠ UNUSED →
      ((s.allocate p np).table q).ProcessId ≠ s.nextpid := by
    intro q hq hs he
    rw [table q hq] at hs he
    have := (h.pid q hs).2
    rw [he,hn] at this
    omega
  refine ⟨?_,fun q hq => ?_,fun q r hq hr hqr => ?_⟩
  · have hadd : (s.nextpid + 1).toNat = s.nextpid.toNat + 1 := by
      rw [UInt32.toNat_add,UInt32.toNat_one]
      omega
    exact hadd.trans (by rw [hn]; rfl)
  · change _ ∧ _ ≤ s.created + 1
    rcases eq_or_ne q np with rfl | hqn
    · rw [pid,hn]
      omega
    · rw [table q hqn] at hq ⊢
      have := h.pid q hq
      omega
  · rcases eq_or_ne q np with rfl | hqn
    · by_contra hrq
      rw [pid] at hqr
      exact other r (Ne.symm hrq) hr hqr.symm
    · rcases eq_or_ne r np with rfl | hrn
      · rw [pid] at hqr
        exact absurd hqr (other q hqn hq)
      · rw [table q hqn] at hq hqr
        rw [table r hrn] at hr hqr
        exact h.distinct q r hq hr hqr

theorem Placed.other_zombie (h : Placed s) (hs : s.scheduler u = .running p) (hc : s.control p = .waiting)
    (hz : (s.table np).State = ZOMBIE) (v : U) : s.scheduler v ≠ .running np := by
  intro hv
  rcases eq_or_ne np p with rfl | hn
  · rw [h.state hs (by rw [hc]; rfl)] at hz
    cases hz
  · rw [h.other_running hs (by rw [hc]; rfl) hv hn] at hz
    cases hz

end Steps

section Runs
variable [DecidableEq U] {s s' : System U}

theorem Placed.step (h : Placed s) (ho : Owned s) (he : Effect s s') : Placed s' := by
  cases he with
  | scheduler u c t l x ht hp hc hx hr => exact h.scheduler ht hp hc hx hr
  | choose u i p hs hp => exact h.choose hs hp
  | dispatch u p k r hs hc => exact h.dispatch hs
  | swtch u p hs hc => exact h.swtch hs hc
  | process u p c t l hs ht hp _ hb hc => exact h.quiet hs ht hp hb hc
  | offer u p k r t hs ht _ hx hl _ hb => exact h.offer hs ht hx hl hb
  | allocate u p np i hs hc hu => exact h.allocate hs hc hu
  | publish u p np hs hc =>
    have hn := ho.embryo p np (by rw [hc]; rfl)
    exact h.slot hs (by simp [hn]) (h.off_cpu (.inr hn)) (by simp) (by rw [hc]; rfl) (by rw [hc]; rfl) rfl
  | fail u p np hs hc =>
    have hn := ho.embryo p np (by rw [hc]; rfl)
    exact h.slot hs (by simp [hn]) (h.off_cpu (.inr hn)) (by simp) (by rw [hc]; rfl) (by rw [hc]; rfl) rfl
  | reap u p i x hs hc hz hx =>
    exact h.slot hs (by simp [hz]) (h.other_zombie hs hc hz) (by simp [hx]) (by rw [hc]; rfl) (by rw [hc]; rfl) rfl

theorem Placed.change (h : Placed s) (ho : Owned s) (he : Effect s s') (q : Fin NPROC) :
    (s'.table q).State = (s.table q).State ∨ Change (s.table q).State (s'.table q).State := by
  have slot : ∀ {t : ProcessTable} {i : Fin NPROC} {x : Slot}, t = Function.update s.table i x →
      Change (s.table i).State x.State →
        (t q).State = (s.table q).State ∨ Change (s.table q).State (t q).State := by
    rintro t i x rfl hx
    rcases eq_or_ne q i with rfl | hq
    · rw [Function.update_self]
      exact .inr hx
    · rw [Function.update_of_ne hq]
      exact .inl rfl
  cases he with
  | scheduler u c t l x ht hp hc hx hr => exact (ht q).change
  | choose u i p hs hp => exact .inl rfl
  | dispatch u p k r hs hc => exact slot rfl (by rw [(h.chosen u p hs).2]; exact .dispatch)
  | swtch u p hs hc => exact .inl rfl
  | process u p c t l hs ht hp _ hb hc => exact (ht q).change
  | offer u p k r t hs ht _ hx hl _ hb =>
    rcases eq_or_ne q p with rfl | hq
    · rw [h.state hs hb]
      right
      change Change RUNNING (t q).State
      rcases hx with hx | hx | hx <;> rw [hx]
      · exact .yield
      · exact .sleep
      · exact .exit
    · exact (ht q hq).change
  | allocate u p np i hs hc hu => exact slot rfl (by rw [hu]; exact .allocate)
  | publish u p np hs hc => exact slot rfl (by rw [ho.embryo p np (by rw [hc]; rfl)]; exact .publish)
  | fail u p np hs hc => exact slot rfl (by rw [ho.embryo p np (by rw [hc]; rfl)]; exact .abandon)
  | reap u p i x hs hc hz hx => exact slot rfl (by rw [hz,hx]; exact .reap)

theorem Owned.step (h : Owned s) (hp : Placed s) (he : Effect s s') : Owned s' := by
  have slot : ∀ {i : Fin NPROC} {x : Slot}, (s.table i).State ≠ EMBRYO →
      ∀ q, (s.table q).State = EMBRYO → (Function.update s.table i x q).State = EMBRYO := by
    intro i x hi q hq
    have hqi : q ≠ i := fun he => hi (he ▸ hq)
    rwa [Function.update_of_ne hqi]
  have steady : ∀ {t : ProcessTable} {q}, Steady s.table t q → (s.table q).State = EMBRYO → (t q).State = EMBRYO :=
    fun ht => (ht.same (by decide) (by decide)).mpr
  cases he with
  | scheduler u c t l x ht _ hc hx hr => exact h.keep (fun q => steady (ht q)) (fun _ _ => id)
  | choose u i p hs _ => exact h.keep (fun _ => id) (fun _ _ => id)
  | dispatch u p k r hs hc =>
    refine h.keep (slot (by simp [(hp.chosen u p hs).2])) (fun q np => owns_goto (s := s) (p := p) ?_)
    rw [hc]
    exact fun _ => id
  | swtch u p hs hc => exact h.keep (fun _ => id) (fun _ _ => id)
  | process u p c t l hs ht _ ho hb hc =>
    exact h.keep (fun q => steady (ht q)) (fun q np => owns_goto (s := s) (p := p) ho)
  | offer u p k r t hs ht _ hx hl ho hb =>
    refine h.keep (fun q hq => ?_) (fun q np => owns_goto (s := s) (p := p) (c := .switching k r) ho)
    refine steady (ht q ?_) hq
    rintro rfl
    rw [hp.state hs hb] at hq
    cases hq
  | allocate u p np i hs hc hu => exact h.allocate hu
  | publish u p np hs hc => exact h.drop RUNNABLE (by rw [hc]; rfl) rfl
  | fail u p np hs hc => exact h.drop UNUSED (by rw [hc]; rfl) rfl
  | reap u p i x hs hc hz hx =>
    exact h.keep (slot (by simp [hz]))
      (fun q np => owns_goto (s := s) (p := p) (c := .leaving .normal) (fun _ hn => (nomatch hn)))

theorem Numbered.step (h : Numbered s) (hp : Placed s) (ho : Owned s) (hb : s'.created < 2 ^ 31 - 1)
    (he : Effect s s') : Numbered s' := by
  have steady : ∀ {t : ProcessTable} {q}, Steady s.table t q → (t q).State ≠ UNUSED →
      (s.table q).State ≠ UNUSED ∧ (t q).ProcessId = (s.table q).ProcessId :=
    fun ht hq => ⟨fun hn => hq ((ht.same (by decide) (by decide)).mpr hn),ht.1⟩
  have state : ∀ {i x}, (s.table i).State ≠ UNUSED ∨ x = UNUSED → ∀ q, (setState s.table i x q).State ≠ UNUSED →
      (s.table q).State ≠ UNUSED ∧ (setState s.table i x q).ProcessId = (s.table q).ProcessId := by
    intro i x hx q hq
    rw [setState_state] at hq
    rcases eq_or_ne q i with rfl | hqi
    · rw [if_pos rfl] at hq
      exact ⟨hx.resolve_right hq,by simp [setState]⟩
    · rw [if_neg hqi] at hq
      exact ⟨hq,by simp [setState,hqi]⟩
  cases he with
  | scheduler u c t l x ht _ hc hx hr => exact h.keep rfl rfl (fun q => steady (ht q))
  | choose u i p hs _ => exact h.keep rfl rfl (fun _ hq => ⟨hq,rfl⟩)
  | dispatch u p k r hs hc => exact h.keep rfl rfl (state (.inl (by simp [(hp.chosen u p hs).2])))
  | swtch u p hs hc => exact h.keep rfl rfl (fun _ hq => ⟨hq,rfl⟩)
  | process u p c t l hs ht _ ho hb hc => exact h.keep rfl rfl (fun q => steady (ht q))
  | offer u p k r t hs ht hid hx hl _ hn =>
    refine h.keep rfl rfl (fun q hq => ?_)
    rcases eq_or_ne q p with rfl | hqp
    · exact ⟨by simp [hp.state hs hn],hid⟩
    · exact steady (ht q hqp) hq
  | allocate u p np i hs hc hu => exact h.allocate hb
  | publish u p np hs hc => exact h.keep rfl rfl (state (.inl (by simp [ho.embryo p np (by rw [hc]; rfl)])))
  | fail u p np hs hc => exact h.keep rfl rfl (state (.inr rfl))
  | reap u p i x hs hc hz hx =>
    refine h.keep rfl rfl (fun q hq => ?_)
    rcases eq_or_ne q i with rfl | hqi
    · exact absurd (by simpa [System.goto] using hx) hq
    · have ht : Function.update s.table i x q = s.table q := Function.update_of_ne hqi ..
      exact ⟨by simpa [System.goto,ht] using hq,congrArg Slot.ProcessId ht⟩

theorem created_le (he : Effect s s') : s.created ≤ s'.created := by
  cases he with
  | allocate => exact Nat.le_succ _
  | _ => exact le_rfl

structure Inv (s : System U) : Prop where
  placed : Placed s
  owned : Owned s
  numbered : s.created < 2 ^ 31 - 1 → Numbered s

theorem Inv.step (h : Inv s) (he : Effect s s') : Inv s' :=
  ⟨h.placed.step h.owned he,h.owned.step h.placed he,
    fun hb => (h.numbered ((created_le he).trans_lt hb)).step h.placed h.owned hb he⟩

omit [DecidableEq U] in
theorem booted_inv : Inv (booted : System U) := by
  have state : ∀ p, (firstTable p).State = RUNNABLE ∧ p = initproc ∧ (firstTable p).ProcessId = 1 ∨
      (firstTable p).State = UNUSED := by
    intro p
    unfold firstTable
    split_ifs with hp
    · exact .inl ⟨rfl,hp,rfl⟩
    · exact .inr rfl
  have used : ∀ {p}, (firstTable p).State ≠ UNUSED → p = initproc ∧ (firstTable p).ProcessId = 1 :=
    fun hp => ((state _).resolve_right hp).2
  refine ⟨⟨fun u hu => (nomatch hu),fun u p hu => (nomatch hu),fun u v p hu => (nomatch hu),fun u p hu => (nomatch hu),
    fun u p hu => (nomatch hu),fun u p hu => (nomatch hu),fun u p hu => (nomatch hu),fun p hp => ?_⟩,
    ⟨fun p np hp => (nomatch hp),fun p q np hp => (nomatch hp)⟩,
    fun _ => ⟨rfl,fun p hp => ?_,fun p q hp hq _ => (used hp).1.trans (used hq).1.symm⟩⟩
  · change (firstTable p).State = RUNNING at hp
    rcases state p with ⟨h1,-⟩ | h1 <;> rw [hp] at h1 <;> cases h1
  · change 0 < (firstTable p).ProcessId.toNat ∧ (firstTable p).ProcessId.toNat ≤ 1
    rw [(used hp).2]
    decide

/-- Where processTable.Lock is free, a process is RUNNING exactly when it is the
Process of exactly one CPU and the pids in use are positive and distinct; and every
step changes the State of a process along the changes only. -/
theorem running_on_exactly_one_cpu {ms : List (Move U)} (h : Runs (graph step) booted ms s) :
    (s.Lock = none → (∀ p, (s.table p).State = RUNNING ↔ ∃! u, s.Process u = some p) ∧
      (s.created < 2 ^ 31 - 1 → ∀ p, (s.table p).State ≠ UNUSED → 0 < (s.table p).ProcessId.toBitVec.toInt ∧
        ∀ q ≠ p, (s.table q).State ≠ UNUSED → (s.table q).ProcessId ≠ (s.table p).ProcessId)) ∧
    ∀ m s', step s m = some s' →
      ∀ p, (s'.table p).State = (s.table p).State ∨ Change (s.table p).State (s'.table p).State := by
  have hi : Inv s := h.invariant booted_inv (fun _ _ _ ha he => ha.step (effect_of_step he))
  refine ⟨fun hl => ⟨fun p => ?_,fun hb p hp => ?_⟩,
    fun m s' he p => hi.placed.change hi.owned (effect_of_step he) p⟩
  · have on_cpu : ∀ {u}, s.Process u = some p → s.scheduler u = .running p := by
      intro u hu
      have free : (s.scheduler u).locked ≠ true := fun hn => by
        have := hi.placed.scheduler_locked u hn
        rw [hl] at this
        cases this
      rcases hi.placed.current u p hu with h1 | h1 | h1
      · exact absurd (by rw [h1]; rfl) free
      · exact h1
      · exact absurd (by rw [h1]; rfl) free
    constructor
    · intro hp
      obtain ⟨u,hu⟩ := hi.placed.running p hp
      exact ⟨u,hi.placed.field u p hu,fun v hv => hi.placed.once v u p (on_cpu hv) hu⟩
    · rintro ⟨u,hu,-⟩
      refine hi.placed.state (on_cpu hu) ?_
      by_contra hn
      have hlk : (s.control p).locked = true := by
        cases hx : s.control p <;> rw [hx] at hn <;> first | rfl | exact absurd rfl hn
      have := hi.placed.process_locked u p (on_cpu hu) hlk
      rw [hl] at this
      cases this
  · have hn := hi.numbered hb
    have hp' := hn.pid p hp
    refine ⟨?_,fun q hq hs he => hq (hn.distinct q p hs hp he)⟩
    have hlt : 2 * (s.table p).ProcessId.toBitVec.toNat < 2 ^ 32 := by
      have : (s.table p).ProcessId.toBitVec.toNat = (s.table p).ProcessId.toNat := rfl
      omega
    rw [BitVec.toInt_eq_toNat_of_lt hlt]
    exact_mod_cast hp'.1

end Runs

def twoCpus : List (Move Bool) :=
  [.start false,.acquire false,.scheduler false,.scheduler false,.run false,.run false,
    .request false .allocate,.run false,.run false,.run false,.build false,.request false .publish,.run false,
    .run false,.start true,.acquire true,.scheduler true,.scheduler true,.scheduler true,.run true,.run true]

theorem twoCpus_runs : (execute step booted twoCpus).isSome = true := by decide +kernel

def bothRunning : System Bool := (execute step booted twoCpus).get twoCpus_runs

theorem running_on_exactly_one_cpu_twoCpus : bothRunning.Lock = none ∧
    (∀ p, (bothRunning.table p).State = RUNNING ↔ ∃! u, bothRunning.Process u = some p) ∧
    bothRunning.Process true = some ⟨1,by decide⟩ := by
  have h : Runs (graph step) booted twoCpus bothRunning := Runs.of_execute (Option.some_get twoCpus_runs).symm
  have hl : bothRunning.Lock = none := by decide +kernel
  exact ⟨hl,((running_on_exactly_one_cpu h).1 hl).1,by decide +kernel⟩

end UoDOS.Scheduling
