import UoDOS.Process.Monitor

/-! # Proof rules for critical sections that sleep

Every step is inverted once into the effects below.
-/
namespace UoDOS.Monitor
open ProcState Transition

variable {P K C D : Type} [DecidableEq P] [DecidableEq C]
variable {next : K → Bool → D → Action K C D} {entry : K → Bool}

inductive Effect (next : K → Bool → D → Action K C D) (entry : K → Bool) (s : Config P K C D) :
    Move P K → Config P K C D → Prop
  | call {p : P} {k : K} (hc : (s.thread p).control = .outside) (hk : entry k = true) :
      Effect next entry s (.call p k) (s.goto p (.acquiring k))
  | acquire {p : P} {k : K} (hr : (s.thread p).State = RUNNING) (hc : (s.thread p).control = .acquiring k)
      (hl : s.lock = none) : Effect next entry s (.run p) { s.goto p (.inside k) with lock := some p }
  | work {p : P} {k k' : K} {d : D} (hr : (s.thread p).State = RUNNING)
      (hc : (s.thread p).control = .inside k) (hn : next k (s.thread p).IsKilled s.data = .work k' d) :
      Effect next entry s (.run p) { s.goto p (.inside k') with data := d }
  | wakeup {p : P} {k k' : K} {c : C} (hr : (s.thread p).State = RUNNING)
      (hc : (s.thread p).control = .inside k) (hn : next k (s.thread p).IsKilled s.data = .wakeup c k')
      (ht : s.tableLock = none) : Effect next entry s (.run p)
        { s.goto p (.inside k') with thread := wakeup1 c (s.goto p (.inside k')).thread }
  | sleep {p : P} {k k' : K} {c : C} (hr : (s.thread p).State = RUNNING)
      (hc : (s.thread p).control = .inside k) (hn : next k (s.thread p).IsKilled s.data = .sleep c k') :
      Effect next entry s (.run p) (s.goto p (.sleepEnter c k'))
  | release {p : P} {k : K} {r : ℤ} (hr : (s.thread p).State = RUNNING)
      (hc : (s.thread p).control = .inside k) (hn : next k (s.thread p).IsKilled s.data = .release r) :
      Effect next entry s (.run p) { s.goto p .outside with lock := none }
  | sleepEnter {p : P} {k : K} {c : C} (hr : (s.thread p).State = RUNNING)
      (hc : (s.thread p).control = .sleepEnter c k) (ht : s.tableLock = none) :
      Effect next entry s (.run p) { s.goto p (.sleepHandOver c k) with tableLock := some p }
  | sleepHandOver {p : P} {k : K} {c : C} (hr : (s.thread p).State = RUNNING)
      (hc : (s.thread p).control = .sleepHandOver c k) :
      Effect next entry s (.run p) { s.goto p (.sleepCommit c k) with lock := none }
  | sleepCommit {p : P} {k : K} {c : C} (hr : (s.thread p).State = RUNNING)
      (hc : (s.thread p).control = .sleepCommit c k) : Effect next entry s (.run p)
        { s.set p { s.thread p with State := SLEEPING, Chan := some c, control := .parked k } with
          tableLock := none }
  | resume {p : P} {k : K} (hr : (s.thread p).State = RUNNING) (hc : (s.thread p).control = .parked k) :
      Effect next entry s (.run p) (s.set p { s.thread p with Chan := none, control := .acquiring k })
  | kill {p : P} (ht : s.tableLock = none) : Effect next entry s (.kill p) (s.set p (kill (s.thread p)))
  | dispatch {p : P} (ht : s.tableLock = none) (hr : (s.thread p).State = RUNNABLE) :
      Effect next entry s (.dispatch p) (s.set p { s.thread p with State := RUNNING })
  | yield {p : P} (ht : s.tableLock = none) :
      Effect next entry s (.yield p) (s.set p { s.thread p with State := RUNNABLE })

theorem effect_of_runThread {s t : Config P K C D} {p : P} (h : runThread next s p = some t) :
    Effect next entry s (.run p) t := by
  by_cases hr : (s.thread p).State = RUNNING
  swap
  · simp [runThread,hr] at h
  rw [runThread,if_neg (not_not.mpr hr)] at h
  cases hc : (s.thread p).control with
  | outside => simp [hc] at h
  | acquiring k =>
    simp only [hc] at h
    split_ifs at h with hl
    cases h
    exact .acquire hr hc hl
  | inside k =>
    simp only [hc] at h
    cases hn : next k (s.thread p).IsKilled s.data with
    | work k' d => simp only [hn] at h; cases h; exact .work hr hc hn
    | wakeup c k' =>
      simp only [hn] at h
      split_ifs at h with ht
      cases h
      exact .wakeup hr hc hn ht
    | sleep c k' => simp only [hn] at h; cases h; exact .sleep hr hc hn
    | release r => simp only [hn] at h; cases h; exact .release hr hc hn
  | sleepEnter c k =>
    simp only [hc] at h
    split_ifs at h with ht
    cases h
    exact .sleepEnter hr hc ht
  | sleepHandOver c k => simp only [hc] at h; cases h; exact .sleepHandOver hr hc
  | sleepCommit c k => simp only [hc] at h; cases h; exact .sleepCommit hr hc
  | parked k =>
    simp only [hc] at h
    split_ifs at h with ht
    cases h
    exact .resume hr hc

theorem effect_of_step {s t : Config P K C D} {m : Move P K} (h : step next entry s m = some t) :
    Effect next entry s m t := by
  cases m with
  | call p k =>
    simp only [step] at h
    split at h
    · rename_i hc
      split_ifs at h with hk
      cases h
      exact .call hc hk.1
    · cases h
  | run p => exact effect_of_runThread h
  | kill p =>
    simp only [step] at h
    split_ifs at h with ht
    cases h
    exact .kill ht
  | dispatch p =>
    simp only [step] at h
    split_ifs at h with ht
    cases h
    exact .dispatch ht.1 ht.2
  | yield p =>
    simp only [step] at h
    split at h
    · split_ifs at h with ht
      cases h
      exact .yield ht.1
    · split_ifs at h with ht
      cases h
      exact .yield ht.1
    · cases h

section Fields
omit [DecidableEq C]
variable (s : Config P K C D) (p : P) (t : Thread K C) (x : Control K C)

@[simp] theorem set_data : (s.set p t).data = s.data := rfl
@[simp] theorem set_lock : (s.set p t).lock = s.lock := rfl
@[simp] theorem set_tableLock : (s.set p t).tableLock = s.tableLock := rfl
@[simp] theorem set_thread (q : P) : (s.set p t).thread q = if q = p then t else s.thread q := by
  simp [Config.set,Function.update_apply]
@[simp] theorem goto_data : (s.goto p x).data = s.data := rfl
@[simp] theorem goto_lock : (s.goto p x).lock = s.lock := rfl
@[simp] theorem goto_tableLock : (s.goto p x).tableLock = s.tableLock := rfl
@[simp] theorem goto_thread (q : P) :
    (s.goto p x).thread q = if q = p then { s.thread p with control := x } else s.thread q := by
  simp [Config.goto]
end Fields

omit [DecidableEq P] in
@[simp] theorem wakeup1_control (c : C) (f : P → Thread K C) (q : P) :
    (wakeup1 c f q).control = (f q).control := by
  unfold wakeup1
  split <;> rfl

omit [DecidableEq P] in
theorem wakeup1_sleeping {c : C} {f : P → Thread K C} {q : P} (h : (wakeup1 c f q).State = SLEEPING) :
    (f q).State = SLEEPING ∧ (f q).Chan ≠ some c ∧ (wakeup1 c f q).Chan = (f q).Chan := by
  unfold wakeup1 at h ⊢
  split at h
  · simp at h
  · rename_i hn
    rw [if_neg hn]
    exact ⟨h,fun hc => hn ⟨h,hc⟩,rfl⟩

def Control.holdsLock : Control K C → Bool
  | .inside _ | .sleepEnter .. | .sleepHandOver .. => true
  | _ => false

def Control.holdsTable : Control K C → Bool
  | .sleepHandOver .. | .sleepCommit .. => true
  | _ => false

/-- Each lock has exactly the holder that the control points say, and only a
process inside sched is SLEEPING. -/
structure Disciplined (s : Config P K C D) : Prop where
  holder : ∀ p, s.lock = some p ↔ (s.thread p).control.holdsLock = true
  table : ∀ p, s.tableLock = some p ↔ (s.thread p).control.holdsTable = true
  asleep : ∀ p, (s.thread p).State = SLEEPING → ∃ k, (s.thread p).control = .parked k

omit [DecidableEq P] [DecidableEq C] in
theorem Initial.disciplined {s : Config P K C D} (h : Initial s) : Disciplined s := by
  obtain ⟨hl,ht,hp⟩ := h
  refine ⟨?_,?_,?_⟩
  · intro p; simp [hl,(hp p).1,Control.holdsLock]
  · intro p; simp [ht,(hp p).1,Control.holdsTable]
  · intro p h; simp [(hp p).2] at h

theorem holder_update {f g : P → Bool} {a b : Option P} {p : P} (h : ∀ q, a = some q ↔ f q = true)
    (hne : ∀ q, q ≠ p → g q = f q)
    (hb : b = if g p = true then some p else if f p = true then none else a)
    (hfree : g p = true → f p = true ∨ a = none) (q : P) : b = some q ↔ g q = true := by
  by_cases hq : q = p
  · subst q
    cases hg : g p with
    | true => simp [hb,hg]
    | false =>
      cases hf : f p with
      | true => simp [hb,hg,hf]
      | false => simpa [hb,hg,hf] using h p
  · rw [hne q hq,← h q]
    have hpq : p ≠ q := fun hh => hq hh.symm
    cases hg : g p with
    | true =>
      rcases hfree hg with hf | ha
      · simp [hb,hg,(h p).mpr hf]
      · simp [hb,hg,ha,hpq]
    | false =>
      cases hf : f p with
      | true => simp [hb,hg,hf,(h p).mpr hf,hpq]
      | false => simp [hb,hg,hf]

omit [DecidableEq C] in
theorem Disciplined.move {s t : Config P K C D} (h : Disciplined s) {p : P} {x : Control K C}
    (hx : ∀ q, (t.thread q).control = if q = p then x else (s.thread q).control)
    (hs : ∀ q, (t.thread q).State = SLEEPING → (s.thread q).State = SLEEPING ∧ q ≠ p ∨
      q = p ∧ ∃ k, x = .parked k)
    (hl : t.lock = if x.holdsLock = true then some p else
      if (s.thread p).control.holdsLock = true then none else s.lock)
    (hlf : x.holdsLock = true → (s.thread p).control.holdsLock = true ∨ s.lock = none)
    (ht : t.tableLock = if x.holdsTable = true then some p else
      if (s.thread p).control.holdsTable = true then none else s.tableLock)
    (htf : x.holdsTable = true → (s.thread p).control.holdsTable = true ∨ s.tableLock = none) :
    Disciplined t := by
  have hp : (t.thread p).control = x := by simpa using hx p
  have hne : ∀ q, q ≠ p → (t.thread q).control = (s.thread q).control := fun q hq => by simp [hx,hq]
  refine ⟨holder_update (p := p) h.holder ?_ ?_ ?_,holder_update (p := p) h.table ?_ ?_ ?_,?_⟩
  · intro q hq; rw [hne q hq]
  · rw [hp]; exact hl
  · rw [hp]; exact hlf
  · intro q hq; rw [hne q hq]
  · rw [hp]; exact ht
  · rw [hp]; exact htf
  · intro q hq
    rcases hs q hq with ⟨hs,hqp⟩ | ⟨rfl,hk⟩
    · rw [hne q hqp]; exact h.asleep q hs
    · rw [hp]; exact hk

omit [DecidableEq P] [DecidableEq C] in
theorem Disciplined.still {s t : Config P K C D} (h : Disciplined s)
    (hc : ∀ q, (t.thread q).control = (s.thread q).control)
    (hs : ∀ q, (t.thread q).State = SLEEPING → (s.thread q).State = SLEEPING)
    (hl : t.lock = s.lock) (ht : t.tableLock = s.tableLock) : Disciplined t := by
  refine ⟨fun q => ?_,fun q => ?_,fun q hq => ?_⟩
  · rw [hl,hc]; exact h.holder q
  · rw [ht,hc]; exact h.table q
  · rw [hc]; exact h.asleep q (hs q hq)

omit [DecidableEq C] in
theorem sleeping_of_goto {s : Config P K C D} {p q : P} {x : Control K C}
    (hr : (s.thread p).State ≠ SLEEPING) (h : ((s.goto p x).thread q).State = SLEEPING) :
    (s.thread q).State = SLEEPING ∧ q ≠ p := by
  by_cases hq : q = p
  · subst q; simp [hr] at h
  · exact ⟨by simpa [hq] using h,hq⟩

theorem Disciplined.step {s t : Config P K C D} {m : Move P K} (h : Disciplined s)
    (he : Effect next entry s m t) : Disciplined t := by
  have hin : ∀ {p k}, (s.thread p).control = .inside k → s.lock = some p :=
    fun hc => (h.holder _).mpr (by simp [hc,Control.holdsLock])
  cases he with
  | @call p k hc hk =>
    have hr : (s.thread p).State ≠ SLEEPING := by
      intro hs
      obtain ⟨k,hk⟩ := h.asleep p hs
      simp [hc] at hk
    refine h.move (p := p) (x := .acquiring k) (fun q => by simp; split <;> rfl)
      (fun q hs => .inl (sleeping_of_goto hr hs)) ?_ ?_ ?_ ?_
    all_goals simp [hc,Control.holdsLock,Control.holdsTable]
  | @acquire p k hr hc hl =>
    refine h.move (p := p) (x := .inside k) (fun q => by simp; split <;> rfl)
      (fun q hs => .inl (sleeping_of_goto (by simp [hr]) hs)) ?_ ?_ ?_ ?_
    all_goals simp [hc,hl,Control.holdsLock,Control.holdsTable]
  | @work p k k' d hr hc hn =>
    refine h.move (p := p) (x := .inside k') (fun q => by simp; split <;> rfl)
      (fun q hs => .inl (sleeping_of_goto (by simp [hr]) hs)) ?_ ?_ ?_ ?_
    all_goals simp [hc,hin hc,Control.holdsLock,Control.holdsTable]
  | @wakeup p k k' c hr hc hn ht =>
    refine h.move (p := p) (x := .inside k') (fun q => by simp; split <;> rfl)
      (fun q hs => .inl (sleeping_of_goto (by simp [hr]) (wakeup1_sleeping hs).1)) ?_ ?_ ?_ ?_
    all_goals simp [hc,hin hc,Control.holdsLock,Control.holdsTable]
  | @sleep p k k' c hr hc hn =>
    refine h.move (p := p) (x := .sleepEnter c k') (fun q => by simp; split <;> rfl)
      (fun q hs => .inl (sleeping_of_goto (by simp [hr]) hs)) ?_ ?_ ?_ ?_
    all_goals simp [hc,hin hc,Control.holdsLock,Control.holdsTable]
  | @release p k r hr hc hn =>
    refine h.move (p := p) (x := .outside) (fun q => by simp; split <;> rfl)
      (fun q hs => .inl (sleeping_of_goto (by simp [hr]) hs)) ?_ ?_ ?_ ?_
    all_goals simp [hc,Control.holdsLock,Control.holdsTable]
  | @sleepEnter p k c hr hc ht =>
    have hl : s.lock = some p := (h.holder p).mpr (by simp [hc,Control.holdsLock])
    refine h.move (p := p) (x := .sleepHandOver c k) (fun q => by simp; split <;> rfl)
      (fun q hs => .inl (sleeping_of_goto (by simp [hr]) hs)) ?_ ?_ ?_ ?_
    all_goals simp [hc,hl,ht,Control.holdsLock,Control.holdsTable]
  | @sleepHandOver p k c hr hc =>
    have ht : s.tableLock = some p := (h.table p).mpr (by simp [hc,Control.holdsTable])
    refine h.move (p := p) (x := .sleepCommit c k) (fun q => by simp; split <;> rfl)
      (fun q hs => .inl (sleeping_of_goto (by simp [hr]) hs)) ?_ ?_ ?_ ?_
    all_goals simp [hc,ht,Control.holdsLock,Control.holdsTable]
  | @sleepCommit p k c hr hc =>
    refine h.move (p := p) (x := .parked k) (fun q => by simp; split <;> rfl) (fun q hs => ?_) ?_ ?_ ?_ ?_
    · by_cases hq : q = p
      · exact .inr ⟨hq,k,rfl⟩
      · exact .inl ⟨by simpa [hq] using hs,hq⟩
    all_goals simp [hc,Control.holdsLock,Control.holdsTable]
  | @resume p k hr hc =>
    refine h.move (p := p) (x := .acquiring k) (fun q => by simp; split <;> rfl) (fun q hs => ?_) ?_ ?_ ?_ ?_
    · by_cases hq : q = p
      · subst q; simp [hr] at hs
      · exact .inl ⟨by simpa [hq] using hs,hq⟩
    all_goals simp [hc,Control.holdsLock,Control.holdsTable]
  | @kill p ht =>
    refine h.still (fun q => ?_) (fun q hs => ?_) rfl rfl
    · by_cases hq : q = p <;> simp [hq,kill]
    · by_cases hq : q = p
      · subst q; simp only [set_thread,↓reduceIte,kill] at hs; split at hs <;> simp_all
      · simpa [hq] using hs
  | @dispatch p ht hr =>
    refine h.still (fun q => ?_) (fun q hs => ?_) rfl rfl
    · by_cases hq : q = p <;> simp [hq]
    · by_cases hq : q = p
      · subst q; simp at hs
      · simpa [hq] using hs
  | @yield p ht =>
    refine h.still (fun q => ?_) (fun q hs => ?_) rfl rfl
    · by_cases hq : q = p <;> simp [hq]
    · by_cases hq : q = p
      · subst q; simp at hs
      · simpa [hq] using hs

def Control.point : Control K C → Option K
  | .outside => none
  | .acquiring k | .inside k | .sleepEnter _ k | .sleepHandOver _ k | .sleepCommit _ k | .parked k => some k

/-- What a step does to the data and to the places of the processes, with locks,
sleep and scheduling left out. -/
inductive Progress (next : K → Bool → D → Action K C D) (entry : K → Bool) (s : Config P K C D)
    (m : Move P K) (t : Config P K C D) : Prop
  | still (hd : t.data = s.data) (hq : ∀ q, (t.thread q).control.point = (s.thread q).control.point)
  | call (p : P) (k : K) (hm : m = .call p k) (hk : entry k = true) (hs : (s.thread p).control.point = none)
      (ht : (t.thread p).control.point = some k) (hd : t.data = s.data)
      (hq : ∀ q, q ≠ p → (t.thread q).control.point = (s.thread q).control.point)
  | work (p : P) (k k' : K) (d : D) (hs : (s.thread p).control = .inside k)
      (hn : next k (s.thread p).IsKilled s.data = .work k' d) (ht : (t.thread p).control.point = some k')
      (hd : t.data = d) (hq : ∀ q, q ≠ p → (t.thread q).control.point = (s.thread q).control.point)
  | wakeup (p : P) (k k' : K) (c : C) (hs : (s.thread p).control = .inside k)
      (hn : next k (s.thread p).IsKilled s.data = .wakeup c k') (ht : (t.thread p).control.point = some k')
      (hd : t.data = s.data) (hq : ∀ q, q ≠ p → (t.thread q).control.point = (s.thread q).control.point)
  | sleep (p : P) (k k' : K) (c : C) (hs : (s.thread p).control = .inside k)
      (hn : next k (s.thread p).IsKilled s.data = .sleep c k') (ht : (t.thread p).control.point = some k')
      (hd : t.data = s.data) (hq : ∀ q, q ≠ p → (t.thread q).control.point = (s.thread q).control.point)
  | leave (p : P) (k : K) (r : ℤ) (hs : (s.thread p).control = .inside k)
      (hn : next k (s.thread p).IsKilled s.data = .release r) (ht : (t.thread p).control.point = none)
      (hd : t.data = s.data) (hq : ∀ q, q ≠ p → (t.thread q).control.point = (s.thread q).control.point)

omit [DecidableEq C] in
theorem point_goto {s : Config P K C D} {p : P} {x : Control K C} (hx : x.point = (s.thread p).control.point)
    (q : P) : ((s.goto p x).thread q).control.point = (s.thread q).control.point := by
  by_cases hq : q = p
  · subst q; simp [hx]
  · simp [hq]

theorem Effect.progress {s t : Config P K C D} {m : Move P K} (he : Effect next entry s m t) :
    Progress next entry s m t := by
  have hset : ∀ {p : P} {x : Thread K C}, x.control.point = (s.thread p).control.point → ∀ q,
      ((s.set p x).thread q).control.point = (s.thread q).control.point := by
    intro p x hx q
    by_cases hq : q = p
    · subst q; simp [hx]
    · simp [hq]
  cases he with
  | @call p k hc hk =>
    exact .call p k rfl hk (by simp [hc,Control.point]) (by simp [Control.point]) rfl (fun q hq => by simp [hq])
  | @acquire p k hr hc hl => exact .still rfl (point_goto (by simp [hc,Control.point]))
  | @work p k k' d hr hc hn =>
    exact .work p k k' d hc hn (by simp [Control.point]) rfl (fun q hq => by simp [hq])
  | @wakeup p k k' c hr hc hn ht =>
    exact .wakeup p k k' c hc hn (by simp [Control.point]) rfl (fun q hq => by simp [hq])
  | @sleep p k k' c hr hc hn =>
    exact .sleep p k k' c hc hn (by simp [Control.point]) rfl (fun q hq => by simp [hq])
  | @release p k r hr hc hn =>
    exact .leave p k r hc hn (by simp [Control.point]) rfl (fun q hq => by simp [hq])
  | @sleepEnter p k c hr hc ht => exact .still rfl (point_goto (by simp [hc,Control.point]))
  | @sleepHandOver p k c hr hc => exact .still rfl (point_goto (by simp [hc,Control.point]))
  | @sleepCommit p k c hr hc => exact .still rfl (hset (by simp [hc,Control.point]))
  | @resume p k hr hc => exact .still rfl (hset (by simp [hc,Control.point]))
  | @kill p ht => exact .still rfl (hset rfl)
  | @dispatch p ht hr => exact .still rfl (hset rfl)
  | @yield p ht => exact .still rfl (hset rfl)

end UoDOS.Monitor
