import UoDOS.Process.MonitorRules

/-! # Assertions at control points and the no-lost-wakeup rule

An outline attaches an assertion to each control point of the holder and an invariant to the
data while the lock is free.
-/
namespace UoDOS.Monitor
open ProcState Transition

variable {P K C D : Type} [DecidableEq P] [DecidableEq C]
variable {next : K → Bool → D → Action K C D} {entry : K → Bool}

/-- The assertion holds at the control point for all data the invariant allows,
as it must where the code arrives with a freshly acquired lock. -/
def Stable (I : D → Prop) (A : K → D → Prop) (k : K) : Prop := ∀ d, I d → A k d

structure Outline (next : K → Bool → D → Action K C D) (entry : K → Bool) (I : D → Prop)
    (A : K → D → Prop) : Prop where
  entry : ∀ k, entry k = true → Stable I A k
  work : ∀ k b d k' d', I d → A k d → next k b d = .work k' d' → I d' ∧ A k' d'
  wakeup : ∀ k b d c k', I d → A k d → next k b d = .wakeup c k' → A k' d
  sleep : ∀ k b d c k', A k d → next k b d = .sleep c k' → Stable I A k'

/-- The control point at which a process will next hold the lock, if it is not
holding it with the data untouched since its last step. -/
def Control.resumesAt : Control K C → Option K
  | .acquiring k | .sleepEnter _ k | .sleepHandOver _ k | .sleepCommit _ k | .parked k => some k
  | _ => none

structure Asserted (I : D → Prop) (A : K → D → Prop) (s : Config P K C D) : Prop where
  disciplined : Disciplined s
  data : I s.data
  inside : ∀ p k, (s.thread p).control = .inside k → A k s.data
  resumes : ∀ p k, (s.thread p).control.resumesAt = some k → Stable I A k

omit [DecidableEq P] [DecidableEq C] in
theorem Initial.asserted {I : D → Prop} {A : K → D → Prop} {s : Config P K C D} (h : Initial s)
    (hI : I s.data) : Asserted I A s := by
  refine ⟨h.disciplined,hI,?_,?_⟩
  · intro p k hc; simp [(h.2.2 p).1] at hc
  · intro p k hc; simp [(h.2.2 p).1,Control.resumesAt] at hc

omit [DecidableEq P] [DecidableEq C] in
theorem Disciplined.unique {s : Config P K C D} (h : Disciplined s) {p q : P}
    (hp : (s.thread p).control.holdsLock = true) (hq : (s.thread q).control.holdsLock = true) : q = p := by
  have hl := (h.holder p).mpr hp
  rw [(h.holder q).mpr hq] at hl
  exact Option.some.inj hl

omit [DecidableEq P] [DecidableEq C] in
theorem Asserted.move {I : D → Prop} {A : K → D → Prop} {s t : Config P K C D} (h : Asserted I A s)
    (ht : Disciplined t) (hd : t.data = s.data) {p : P}
    (hne : ∀ q, q ≠ p → (t.thread q).control = (s.thread q).control)
    (hin : ∀ k, (t.thread p).control = .inside k → A k s.data)
    (hre : ∀ k, (t.thread p).control.resumesAt = some k → Stable I A k) : Asserted I A t := by
  refine ⟨ht,by rw [hd]; exact h.data,fun q k hc => ?_,fun q k hc => ?_⟩
  · rw [hd]
    by_cases hq : q = p
    · subst q; exact hin k hc
    · rw [hne q hq] at hc; exact h.inside q k hc
  · by_cases hq : q = p
    · subst q; exact hre k hc
    · rw [hne q hq] at hc; exact h.resumes q k hc

theorem Asserted.step {I : D → Prop} {A : K → D → Prop} (ho : Outline next entry I A)
    {s t : Config P K C D} {m : Move P K} (h : Asserted I A s) (he : Effect next entry s m t) :
    Asserted I A t := by
  have ht := h.disciplined.step he
  have hre : ∀ {p k}, (s.thread p).control.resumesAt = some k → Stable I A k := fun hc => h.resumes _ _ hc
  cases he with
  | @call p k hc hk =>
    refine h.move ht rfl (p := p) (fun q hq => by simp [hq]) (by simp) ?_
    intro k' hk'
    simp only [goto_thread,↓reduceIte,Control.resumesAt,Option.some.injEq] at hk'
    exact hk' ▸ ho.entry k hk
  | @acquire p k hr hc hl =>
    refine h.move ht rfl (p := p) (fun q hq => by simp [hq]) ?_ (by simp [Control.resumesAt])
    intro k' hk'
    simp only [goto_thread,↓reduceIte,Control.inside.injEq] at hk'
    exact hk' ▸ hre (p := p) (by simp [hc,Control.resumesAt]) _ h.data
  | @work p k k' d hr hc hn =>
    obtain ⟨hI,hA⟩ := ho.work k _ _ k' d h.data (h.inside p k hc) hn
    refine ⟨ht,hI,fun q j hj => ?_,fun q j hj => ?_⟩
    · by_cases hq : q = p
      · subst q
        simp only [goto_thread,↓reduceIte,Control.inside.injEq] at hj
        exact hj ▸ hA
      · simp only [goto_thread,hq,↓reduceIte] at hj
        exact absurd (h.disciplined.unique (p := p) (q := q) (by simp [hc,Control.holdsLock])
          (by simp [hj,Control.holdsLock])) hq
    · by_cases hq : q = p
      · subst q; simp [Control.resumesAt] at hj
      · exact hre (by simpa [hq] using hj)
  | @wakeup p k k' c hr hc hn hl =>
    refine h.move ht rfl (p := p) (fun q hq => by simp [hq]) ?_ (by simp [Control.resumesAt])
    intro j hj
    simp only [wakeup1_control,goto_thread,↓reduceIte,Control.inside.injEq] at hj
    exact hj ▸ ho.wakeup k _ _ c k' h.data (h.inside p k hc) hn
  | @sleep p k k' c hr hc hn =>
    refine h.move ht rfl (p := p) (fun q hq => by simp [hq]) (by simp) ?_
    intro j hj
    simp only [goto_thread,↓reduceIte,Control.resumesAt,Option.some.injEq] at hj
    exact hj ▸ ho.sleep k _ _ c k' (h.inside p k hc) hn
  | @release p k r hr hc hn =>
    exact h.move ht rfl (p := p) (fun q hq => by simp [hq]) (by simp) (by simp [Control.resumesAt])
  | @sleepEnter p k c hr hc hl =>
    refine h.move ht rfl (p := p) (fun q hq => by simp [hq]) (by simp) ?_
    intro j hj
    exact hre (p := p) (by simpa [hc,Control.resumesAt] using hj)
  | @sleepHandOver p k c hr hc =>
    refine h.move ht rfl (p := p) (fun q hq => by simp [hq]) (by simp) ?_
    intro j hj
    exact hre (p := p) (by simpa [hc,Control.resumesAt] using hj)
  | @sleepCommit p k c hr hc =>
    refine h.move ht rfl (p := p) (fun q hq => by simp [hq]) (by simp) ?_
    intro j hj
    exact hre (p := p) (by simpa [hc,Control.resumesAt] using hj)
  | @resume p k hr hc =>
    refine h.move ht rfl (p := p) (fun q hq => by simp [hq]) (by simp) ?_
    intro j hj
    exact hre (p := p) (by simpa [hc,Control.resumesAt] using hj)
  | @kill p hl =>
    refine h.move ht rfl (p := p) (fun q hq => by simp [hq]) (fun j hj => ?_) (fun j hj => ?_)
    · exact h.inside p j (by simpa [kill] using hj)
    · exact hre (p := p) (by simpa [kill] using hj)
  | @dispatch p hl hr =>
    refine h.move ht rfl (p := p) (fun q hq => by simp [hq]) (fun j hj => ?_) (fun j hj => ?_)
    · exact h.inside p j (by simpa using hj)
    · exact hre (p := p) (by simpa using hj)
  | @yield p hl =>
    refine h.move ht rfl (p := p) (fun q hq => by simp [hq]) (fun j hj => ?_) (fun j hj => ?_)
    · exact h.inside p j (by simpa using hj)
    · exact hre (p := p) (by simpa using hj)

theorem Asserted.of_runs {I : D → Prop} {A : K → D → Prop} (ho : Outline next entry I A)
    {s t : Config P K C D} {ms : List (Move P K)} (h : Runs (graph (Monitor.step next entry)) s ms t)
    (hs : Initial s) (hI : I s.data) : Asserted I A t :=
  h.invariant (hs.asserted hI) (fun _ _ _ ha he => ha.step ho (effect_of_step he))

/-- A process that a later wakeup of the channel has to reach: it is SLEEPING, or
it has given the lock up and is about to be. -/
def Waits (t : Thread K C) (c : C) : Prop :=
  (t.State = SLEEPING ∧ t.Chan = some c) ∨ ∃ k, t.control = .sleepCommit c k

def Prepares (t : Thread K C) (c : C) : Prop :=
  ∃ k, t.control = .sleepEnter c k ∨ t.control = .sleepHandOver c k

/-- `may c` is what the sleepers on `c` wait for; at a control point with `owes k c`
the holder may have made it true and has yet to call wakeup. -/
structure Notifies (next : K → Bool → D → Action K C D) (I : D → Prop) (A : K → D → Prop)
    (may : C → D → Prop) (owes : K → C → Prop) : Prop where
  work : ∀ k b d k' d', I d → A k d → next k b d = .work k' d' →
    ∀ c, (owes k c → owes k' c) ∧ (may c d' → may c d ∨ owes k' c)
  wakeup : ∀ k b d c k', A k d → next k b d = .wakeup c k' → ∀ c', owes k c' → c' = c ∨ owes k' c'
  sleep : ∀ k b d c k', A k d → next k b d = .sleep c k' → ¬ may c d ∧ ∀ c', ¬ owes k c'

/-- The condition on a step under which no wakeup is lost: a holder that releases
the lock owes no wakeup to anybody who waits. -/
def Prompt (next : K → Bool → D → Action K C D) (owes : K → C → Prop) (s : Config P K C D) (m : Move P K) :
    Prop :=
  ∀ p k r, m = .run p → (s.thread p).control = .inside k →
    next k (s.thread p).IsKilled s.data = .release r → ∀ c, owes k c → ∀ q, ¬ Waits (s.thread q) c

structure Attended (may : C → D → Prop) (owes : K → C → Prop) (s : Config P K C D) : Prop where
  owed : ∀ q c, Waits (s.thread q) c → may c s.data → ∃ p k, (s.thread p).control = .inside k ∧ owes k c
  prepared : ∀ q c, Prepares (s.thread q) c → ¬ may c s.data

omit [DecidableEq P] [DecidableEq C] in
theorem Initial.attended {may : C → D → Prop} {owes : K → C → Prop} {s : Config P K C D} (h : Initial s) :
    Attended may owes s := by
  refine ⟨?_,?_⟩
  · rintro q c (⟨hs,-⟩ | ⟨k,hk⟩)
    · simp [(h.2.2 q).2] at hs
    · simp [(h.2.2 q).1] at hk
  · rintro q c ⟨k,hk | hk⟩ <;> simp [(h.2.2 q).1] at hk

omit [DecidableEq P] [DecidableEq C] in
theorem Attended.quiet {may : C → D → Prop} {owes : K → C → Prop} {s t : Config P K C D}
    (h : Attended may owes s) (hd : t.data = s.data)
    (hw : ∀ q c, Waits (t.thread q) c → Waits (s.thread q) c)
    (hp : ∀ q c, Prepares (t.thread q) c → Prepares (s.thread q) c)
    (hi : ∀ p k, (s.thread p).control = .inside k → (t.thread p).control = .inside k) :
    Attended may owes t := by
  refine ⟨fun q c hq hm => ?_,fun q c hq => ?_⟩
  · rw [hd] at hm
    obtain ⟨p,k,hk,ho⟩ := h.owed q c (hw q c hq) hm
    exact ⟨p,k,hi p k hk,ho⟩
  · rw [hd]; exact h.prepared q c (hp q c hq)

omit [DecidableEq P] [DecidableEq C] in
theorem Attended.states {may : C → D → Prop} {owes : K → C → Prop} {s t : Config P K C D}
    (h : Attended may owes s) (hd : t.data = s.data)
    (hc : ∀ q, (t.thread q).control = (s.thread q).control)
    (hs : ∀ q, (t.thread q).State = SLEEPING →
      (s.thread q).State = SLEEPING ∧ (t.thread q).Chan = (s.thread q).Chan) : Attended may owes t := by
  refine h.quiet hd (fun q c hq => ?_) (fun q c hq => ?_) (fun p k hk => by rw [hc]; exact hk)
  · rcases hq with ⟨hq,hch⟩ | ⟨k,hk⟩
    · exact .inl ⟨(hs q hq).1,(hs q hq).2 ▸ hch⟩
    · exact .inr ⟨k,by rw [← hc]; exact hk⟩
  · obtain ⟨k,hk⟩ := hq
    exact ⟨k,by rw [← hc]; exact hk⟩

omit [DecidableEq C] in
theorem waits_of_goto {s : Config P K C D} {p q : P} {x : Control K C} {c : C}
    (hr : (s.thread p).State ≠ SLEEPING) (hx : ∀ k, x ≠ .sleepCommit c k)
    (h : Waits ((s.goto p x).thread q) c) : Waits (s.thread q) c ∧ q ≠ p := by
  by_cases hq : q = p
  · subst q
    rcases h with ⟨hs,-⟩ | ⟨k,hk⟩
    · simp [hr] at hs
    · exact absurd (by simpa using hk) (hx k)
  · exact ⟨by simpa [hq] using h,hq⟩

omit [DecidableEq C] in
theorem prepares_of_goto {s : Config P K C D} {p q : P} {x : Control K C} {c : C}
    (hx : ∀ k, x ≠ .sleepEnter c k ∧ x ≠ .sleepHandOver c k)
    (h : Prepares ((s.goto p x).thread q) c) : Prepares (s.thread q) c ∧ q ≠ p := by
  by_cases hq : q = p
  · subst q
    obtain ⟨k,hk | hk⟩ := h
    · exact absurd (by simpa using hk) (hx k).1
    · exact absurd (by simpa using hk) (hx k).2
  · exact ⟨by simpa [hq] using h,hq⟩

section Holder
variable {I : D → Prop} {A : K → D → Prop} {may : C → D → Prop} {owes : K → C → Prop}
variable {s : Config P K C D} {p : P} {k : K}

omit [DecidableEq P] [DecidableEq C] in
theorem Attended.owed_by (h : Attended may owes s) (ha : Asserted I A s)
    (hc : (s.thread p).control = .inside k) {q : P} {c : C} (hq : Waits (s.thread q) c)
    (hm : may c s.data) : owes k c := by
  obtain ⟨p',k',hk',ho⟩ := h.owed q c hq hm
  have hp : p' = p := ha.disciplined.unique (by simp [hc,Control.holdsLock]) (by simp [hk',Control.holdsLock])
  subst hp
  rw [hc] at hk'
  cases hk'
  exact ho

omit [DecidableEq P] [DecidableEq C] in
theorem Asserted.not_prepares (ha : Asserted I A s) (hc : (s.thread p).control = .inside k)
    {q : P} {c : C} : ¬ Prepares (s.thread q) c := by
  rintro ⟨k',hk'⟩
  have hq : q = p := ha.disciplined.unique (by simp [hc,Control.holdsLock])
    (by rcases hk' with h | h <;> simp [h,Control.holdsLock])
  subst hq
  simp [hc] at hk'

omit [DecidableEq C] in
theorem Attended.work (hn : Notifies next I A may owes) (h : Attended may owes s) (ha : Asserted I A s)
    {k' : K} {d : D} (hr : (s.thread p).State = RUNNING) (hc : (s.thread p).control = .inside k)
    (he : next k (s.thread p).IsKilled s.data = .work k' d) :
    Attended may owes { s.goto p (.inside k') with data := d } := by
  have hw := hn.work k _ _ k' d ha.data (ha.inside p k hc) he
  refine ⟨fun q c hq hm => ⟨p,k',by simp,?_⟩,fun q c hq => ?_⟩
  · obtain ⟨hq,-⟩ := waits_of_goto (by simp [hr]) (by simp) hq
    rcases (hw c).2 hm with hm | ho
    · exact (hw c).1 (h.owed_by ha hc hq hm)
    · exact ho
  · exact absurd (prepares_of_goto (by simp) hq).1 (ha.not_prepares hc)

theorem Attended.wakeup (hn : Notifies next I A may owes) (h : Attended may owes s) (ha : Asserted I A s)
    {k' : K} {c : C} (hr : (s.thread p).State = RUNNING) (hc : (s.thread p).control = .inside k)
    (he : next k (s.thread p).IsKilled s.data = .wakeup c k') (hl : s.tableLock = none) :
    Attended may owes
      { s.goto p (.inside k') with thread := wakeup1 c (s.goto p (.inside k')).thread } := by
  refine ⟨fun q c' hq hm => ⟨p,k',by simp,?_⟩,fun q c' hq => ?_⟩
  · rcases hq with ⟨hs,hch⟩ | ⟨j,hj⟩
    · obtain ⟨hs',hne,hsame⟩ := wakeup1_sleeping hs
      have hq : Waits ((s.goto p (.inside k')).thread q) c' := .inl ⟨hs',hsame ▸ hch⟩
      have ho := h.owed_by ha hc (waits_of_goto (by simp [hr]) (by simp) hq).1 hm
      rcases hn.wakeup k _ _ c k' (ha.inside p k hc) he c' ho with rfl | ho
      · exact absurd (hsame ▸ hch) hne
      · exact ho
    · have hq : Waits ((s.goto p (.inside k')).thread q) c' := .inr ⟨j,by simpa using hj⟩
      obtain ⟨-,hqp⟩ := waits_of_goto (by simp [hr]) (by simp) hq
      have ht := (ha.disciplined.table q).mpr (by
        have : (s.thread q).control = .sleepCommit c' j := by simpa [hqp] using hj
        simp [this,Control.holdsTable])
      rw [hl] at ht
      cases ht
  · obtain ⟨j,hj⟩ := hq
    have hq : Prepares ((s.goto p (.inside k')).thread q) c' := ⟨j,by simpa using hj⟩
    exact absurd (prepares_of_goto (by simp) hq).1 (ha.not_prepares hc)

omit [DecidableEq C] in
theorem Attended.sleep (hn : Notifies next I A may owes) (h : Attended may owes s) (ha : Asserted I A s)
    {k' : K} {c : C} (hr : (s.thread p).State = RUNNING) (hc : (s.thread p).control = .inside k)
    (he : next k (s.thread p).IsKilled s.data = .sleep c k') :
    Attended may owes (s.goto p (.sleepEnter c k')) := by
  obtain ⟨hm,ho⟩ := hn.sleep k _ _ c k' (ha.inside p k hc) he
  refine ⟨fun q c' hq hm' => ?_,fun q c' hq => ?_⟩
  · exact absurd (h.owed_by ha hc (waits_of_goto (by simp [hr]) (by simp) hq).1 hm') (ho c')
  · by_cases hqp : q = p
    · subst q
      obtain ⟨j,hj | hj⟩ := hq
      · simp only [goto_thread,↓reduceIte,Control.sleepEnter.injEq] at hj
        exact hj.1 ▸ hm
      · simp at hj
    · exact h.prepared q c' (by simpa [hqp] using hq)

omit [DecidableEq C] in
theorem Attended.release (h : Attended may owes s) (ha : Asserted I A s)
    (hr : (s.thread p).State = RUNNING) (hc : (s.thread p).control = .inside k) {r : ℤ}
    (he : next k (s.thread p).IsKilled s.data = .release r) (hp : Prompt next owes s (.run p)) :
    Attended may owes { s.goto p .outside with lock := none } := by
  refine ⟨fun q c hq hm => ?_,fun q c hq => ?_⟩
  · obtain ⟨hq,-⟩ := waits_of_goto (by simp [hr]) (by simp) hq
    exact absurd hq (hp p k r rfl hc he c (h.owed_by ha hc hq hm) q)
  · exact absurd (prepares_of_goto (by simp) hq).1 (ha.not_prepares hc)

omit [DecidableEq C] in
theorem Attended.handOver (h : Attended may owes s) (ha : Asserted I A s)
    (hr : (s.thread p).State = RUNNING) {c : C} (hc : (s.thread p).control = .sleepHandOver c k) :
    Attended may owes { s.goto p (.sleepCommit c k) with lock := none } := by
  have hpc : ¬ may c s.data := h.prepared p c ⟨k,.inr hc⟩
  refine ⟨fun q c' hq hm => ?_,fun q c' hq => ?_⟩
  · have hq' : Waits (s.thread q) c' := by
      by_cases hqp : q = p
      · subst q
        rcases hq with ⟨hs,-⟩ | ⟨j,hj⟩
        · simp [hr] at hs
        · simp only [goto_thread,↓reduceIte,Control.sleepCommit.injEq] at hj
          exact absurd (hj.1 ▸ hm) hpc
      · simpa [hqp] using hq
    obtain ⟨p',k',hk',-⟩ := h.owed q c' hq' hm
    have hp : p' = p := ha.disciplined.unique (by simp [hc,Control.holdsLock]) (by simp [hk',Control.holdsLock])
    subst hp
    simp [hc] at hk'
  · exact h.prepared q c' (prepares_of_goto (by simp) hq).1

end Holder

theorem Attended.step {I : D → Prop} {A : K → D → Prop} {may : C → D → Prop} {owes : K → C → Prop}
    (hn : Notifies next I A may owes) {s t : Config P K C D} {m : Move P K} (h : Attended may owes s)
    (ha : Asserted I A s) (hp : Prompt next owes s m) (he : Effect next entry s m t) :
    Attended may owes t := by
  have hne : ∀ {p q k}, (s.thread p).control = .inside k → (s.thread q).control ≠ .inside k →
      p ≠ q := by
    rintro p q k hk hk' rfl
    exact hk' hk
  cases he with
  | @call p k hc hk =>
    have hr : (s.thread p).State ≠ SLEEPING := fun hs => by
      obtain ⟨j,hj⟩ := ha.disciplined.asleep p hs
      simp [hc] at hj
    exact h.quiet rfl (fun q c hq => (waits_of_goto hr (by simp) hq).1)
      (fun q c hq => (prepares_of_goto (by simp) hq).1)
      (fun p' j hj => by simp [hne hj (q := p) (by simp [hc]),hj])
  | @acquire p k hr hc hl =>
    exact h.quiet rfl (fun q c hq => (waits_of_goto (by simp [hr]) (by simp) hq).1)
      (fun q c hq => (prepares_of_goto (by simp) hq).1)
      (fun p' j hj => by simp [hne hj (q := p) (by simp [hc]),hj])
  | @work p k k' d hr hc hw => exact h.work hn ha hr hc hw
  | @wakeup p k k' c hr hc hw hl => exact h.wakeup hn ha hr hc hw hl
  | @sleep p k k' c hr hc hw => exact h.sleep hn ha hr hc hw
  | @release p k r hr hc hw => exact h.release ha hr hc hw hp
  | @sleepEnter p k c hr hc hl =>
    refine h.quiet rfl (fun q c' hq => (waits_of_goto (by simp [hr]) (by simp) hq).1) (fun q c' hq => ?_)
      (fun p' j hj => by simp [hne hj (q := p) (by simp [hc]),hj])
    by_cases hqp : q = p
    · subst q
      obtain ⟨j,hj | hj⟩ := hq
      · simp at hj
      · simp only [goto_thread,↓reduceIte,Control.sleepHandOver.injEq] at hj
        exact ⟨k,.inl (hj.1 ▸ hc)⟩
    · simpa [hqp] using hq
  | @sleepHandOver p k c hr hc => exact h.handOver ha hr hc
  | @sleepCommit p k c hr hc =>
    refine h.quiet rfl (fun q c' hq => ?_) (fun q c' hq => ?_)
      (fun p' j hj => by simp [hne hj (q := p) (by simp [hc]),hj])
    · by_cases hqp : q = p
      · subst q
        rcases hq with ⟨-,hch⟩ | ⟨j,hj⟩
        · simp only [set_thread,↓reduceIte,Option.some.injEq] at hch
          exact .inr ⟨k,hch ▸ hc⟩
        · simp at hj
      · simpa [hqp] using hq
    · by_cases hqp : q = p
      · subst q
        obtain ⟨j,hj | hj⟩ := hq <;> simp at hj
      · simpa [hqp] using hq
  | @resume p k hr hc =>
    refine h.quiet rfl (fun q c' hq => ?_) (fun q c' hq => ?_)
      (fun p' j hj => by simp [hne hj (q := p) (by simp [hc]),hj])
    · by_cases hqp : q = p
      · subst q
        rcases hq with ⟨hs,-⟩ | ⟨j,hj⟩
        · simp [hr] at hs
        · simp at hj
      · simpa [hqp] using hq
    · by_cases hqp : q = p
      · subst q
        obtain ⟨j,hj | hj⟩ := hq <;> simp at hj
      · simpa [hqp] using hq
  | @kill p hl =>
    refine h.states rfl (fun q => ?_) (fun q hs => ?_)
    · by_cases hq : q = p <;> simp [hq,kill]
    · by_cases hq : q = p
      · subst q; simp only [set_thread,↓reduceIte,kill] at hs; split at hs <;> simp_all
      · exact ⟨by simpa [hq] using hs,by simp [hq]⟩
  | @dispatch p hl hr =>
    refine h.states rfl (fun q => ?_) (fun q hs => ?_)
    · by_cases hq : q = p <;> simp [hq]
    · by_cases hq : q = p
      · subst q; simp at hs
      · exact ⟨by simpa [hq] using hs,by simp [hq]⟩
  | @yield p hl =>
    refine h.states rfl (fun q => ?_) (fun q hs => ?_)
    · by_cases hq : q = p <;> simp [hq]
    · by_cases hq : q = p
      · subst q; simp at hs
      · exact ⟨by simpa [hq] using hs,by simp [hq]⟩

theorem no_lost_wakeup {I : D → Prop} {A : K → D → Prop} {may : C → D → Prop} {owes : K → C → Prop}
    (ho : Outline next entry I A) (hn : Notifies next I A may owes) {s t : Config P K C D}
    {ms : List (Move P K)}
    (h : Runs (guarded (graph (step next entry)) (Prompt next owes)) s ms t) (hs : Initial s)
    (hI : I s.data) (hl : t.lock = none) {p : P} {c : C} (hp : (t.thread p).State = SLEEPING)
    (hc : (t.thread p).Chan = some c) : ¬ may c t.data := by
  have hall : Asserted I A t ∧ Attended may owes t :=
    h.invariant (I := fun u => Asserted I A u ∧ Attended may owes u) ⟨hs.asserted hI,hs.attended⟩
      (fun _ _ _ ha he =>
      ⟨ha.1.step ho (effect_of_step he.2),ha.2.step hn ha.1 he.1 (effect_of_step he.2)⟩)
  intro hm
  obtain ⟨q,k,hk,-⟩ := hall.2.owed p c (.inl ⟨hp,hc⟩) hm
  have hq := (hall.1.disciplined.holder q).mpr (by simp [hk,Control.holdsLock])
  rw [hl] at hq
  cases hq

end UoDOS.Monitor
