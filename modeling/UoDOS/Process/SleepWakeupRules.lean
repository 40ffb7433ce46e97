import UoDOS.Process.SleepWakeup

/-! # No wakeup is missed

A process on its way to sleep holds the lock of its channel until it holds processTable.Lock,
and keeps that until it is SLEEPING.
-/
namespace UoDOS.SleepWakeup
open ProcState Transition

variable {P C L : Type} [DecidableEq P] [DecidableEq C] [DecidableEq L]

def Fine (lk : C → LockName L) (s : Config P C L) (p : P) : Control C → Prop
  | .code none | .reacquire _ | .yielded => (s.process p).State ≠ SLEEPING
  | .code (some c) => (s.process p).State ≠ SLEEPING ∧ s.lock (lk c) = some (.process p)
  | .sleepEnter c => (s.process p).State ≠ SLEEPING ∧ s.lock (lk c) = some (.process p) ∧
      lk c ≠ .processTable ∧ s.missed p c = false
  | .sleepHandOver c => (s.process p).State ≠ SLEEPING ∧ s.lock (lk c) = some (.process p) ∧
      lk c ≠ .processTable ∧ s.lock .processTable = some (.process p) ∧ s.missed p c = false
  | .sleepCommit c => (s.process p).State ≠ SLEEPING ∧ s.lock .processTable = some (.process p) ∧
      s.missed p c = false
  | .parked c => (s.process p).State = SLEEPING → (s.process p).Chan = some c ∧ s.missed p c = false
  | .woken _ | .yieldBack => (s.process p).State ≠ SLEEPING ∧ s.lock .processTable = some (.process p)

/-- Every process is fine where it is, and who has tested a condition holds its lock
and has missed nothing. -/
structure Inv (lk : C → LockName L) (s : Config P C L) : Prop where
  fine : ∀ p, Fine lk s p (s.process p).control
  tested : ∀ p c, s.tested p c = true → s.lock (lk c) = some (.process p) ∧ s.missed p c = false

omit [DecidableEq P] [DecidableEq C] [DecidableEq L] in
theorem Fine.frame {lk : C → LockName L} {s t : Config P C L} {q : P} {x : Control C} (h : Fine lk s q x)
    (hs : (t.process q).State = SLEEPING → (s.process q).State = SLEEPING)
    (hc : (t.process q).Chan = (s.process q).Chan)
    (hl : ∀ l, s.lock l = some (.process q) → t.lock l = some (.process q))
    (hm : ∀ c, (t.process q).State = SLEEPING ∧ x = .parked c ∨ x = .sleepEnter c ∨ x = .sleepHandOver c ∨
      x = .sleepCommit c → t.missed q c = s.missed q c) : Fine lk t q x := by
  cases x with
  | code r =>
    cases r with
    | none => exact fun hx => h (hs hx)
    | some c => exact ⟨fun hx => h.1 (hs hx),hl _ h.2⟩
  | sleepEnter c => exact ⟨fun hx => h.1 (hs hx),hl _ h.2.1,h.2.2.1,(hm c (by simp)).trans h.2.2.2⟩
  | sleepHandOver c =>
    exact ⟨fun hx => h.1 (hs hx),hl _ h.2.1,h.2.2.1,hl _ h.2.2.2.1,(hm c (by simp)).trans h.2.2.2.2⟩
  | sleepCommit c => exact ⟨fun hx => h.1 (hs hx),hl _ h.2.1,(hm c (by simp)).trans h.2.2⟩
  | parked c =>
    intro hx
    obtain ⟨hch,hmiss⟩ := h (hs hx)
    exact ⟨hc.trans hch,(hm c (by simp [hx])).trans hmiss⟩
  | woken c => exact ⟨fun hx => h.1 (hs hx),hl _ h.2⟩
  | reacquire c => exact fun hx => h (hs hx)
  | yielded => exact fun hx => h (hs hx)
  | yieldBack => exact ⟨fun hx => h.1 (hs hx),hl _ h.2⟩

section Steps
variable {lk : C → LockName L} {s : Config P C L} {p : P}

omit [DecidableEq C] in
theorem Inv.moves (h : Inv lk s) {x : Process C} {l : LockName L} {g : Option (Holder P)}
    (hl : ∀ q, q ≠ p → s.lock l ≠ some (.process q))
    (hx : Fine lk ((s.pass lk l g).set p x) p x.control) : Inv lk ((s.pass lk l g).set p x) := by
  refine ⟨fun q => ?_,fun q c ht => ?_⟩
  · by_cases hq : q = p
    · subst hq
      simpa using hx
    · have hproc : ((s.pass lk l g).set p x).process q = s.process q := by simp [hq]
      rw [hproc]
      refine (h.fine q).frame (by rw [hproc]; exact id) (by rw [hproc]) (fun m hm => ?_) (fun c _ => rfl)
      have hne : m ≠ l := fun hml => hl q hq (hml ▸ hm)
      simpa [hne] using hm
  · simp only [set_tested,Config.pass] at ht
    split_ifs at ht with hc
    obtain ⟨hlock,hmiss⟩ := h.tested q c ht
    exact ⟨by simpa [hc] using hlock,hmiss⟩

omit [DecidableEq C] [DecidableEq L] in
theorem Inv.stays (h : Inv lk s) {x : Process C} (hx : Fine lk (s.set p x) p x.control) : Inv lk (s.set p x) := by
  refine ⟨fun q => ?_,fun q c ht => h.tested q c ht⟩
  by_cases hq : q = p
  · subst hq
    simpa using hx
  · have hproc : (s.set p x).process q = s.process q := by simp [hq]
    rw [hproc]
    exact (h.fine q).frame (by rw [hproc]; exact id) (by rw [hproc]) (fun m hm => hm) (fun c _ => rfl)

omit [DecidableEq P] [DecidableEq C] in
theorem Inv.passes (h : Inv lk s) {l : LockName L} {g : Option (Holder P)}
    (hl : ∀ q, s.lock l ≠ some (.process q)) : Inv lk (s.pass lk l g) := by
  refine ⟨fun q => ?_,fun q c ht => ?_⟩
  · refine (h.fine q).frame id rfl (fun m hm => ?_) (fun c _ => rfl)
    have hne : m ≠ l := fun hml => hl q (hml ▸ hm)
    simpa [hne] using hm
  · simp only [Config.pass] at ht
    split_ifs at ht with hc
    obtain ⟨hlock,hmiss⟩ := h.tested q c ht
    exact ⟨by simpa [hc] using hlock,hmiss⟩

omit [DecidableEq C] in
theorem Inv.run (h : Inv lk s) {t : Config P C L} (he : runProcess lk s p = some t) : Inv lk t := by
  have hfine := h.fine p
  unfold runProcess at he
  cases hc : (s.process p).control with
  | sleepEnter c =>
    simp only [hc] at he hfine
    split_ifs at he with hl
    cases he
    obtain ⟨hs,hlock,hne,hmiss⟩ := hfine
    exact h.moves (by simp [hl]) (by simpa [Fine,hne,hlock,hmiss] using hs)
  | sleepHandOver c =>
    simp only [hc] at he hfine
    cases he
    obtain ⟨hs,hlock,hne,htable,hmiss⟩ := hfine
    exact h.moves (fun q hq => by simp [hlock,Ne.symm hq])
      (by simpa [Fine,Ne.symm hne,htable,hmiss] using hs)
  | sleepCommit c =>
    simp only [hc] at he hfine
    cases he
    obtain ⟨hs,htable,hmiss⟩ := hfine
    exact h.moves (fun q hq => by simp [htable,Ne.symm hq]) (by simpa [Fine] using hmiss)
  | woken c =>
    simp only [hc] at he hfine
    obtain ⟨hs,htable⟩ := hfine
    split_ifs at he with hl
    · cases he
      exact h.stays (by simpa [Fine,hl,htable] using hs)
    · cases he
      exact h.moves (fun q hq => by simp [htable,Ne.symm hq]) (by simpa [Fine] using hs)
  | reacquire c =>
    simp only [hc] at he hfine
    split_ifs at he with hl
    cases he
    exact h.moves (by simp [hl]) (by simpa [Fine] using hfine)
  | yieldBack =>
    simp only [hc] at he hfine
    cases he
    exact h.moves (fun q hq => by simp [hfine.2,Ne.symm hq]) (by simpa [Fine] using hfine.1)
  | code r => simp [hc] at he
  | parked c => simp [hc] at he
  | yielded => simp [hc] at he

omit [DecidableEq L] in
theorem Inv.wakeup (h : Inv lk s) {c : C} (hr : (s.process p).State = RUNNING)
    (htable : s.lock .processTable = none ∨ s.lock .processTable = some (.process p))
    (hlock : s.lock (lk c) = some (.process p)) : Inv lk { s with
      process := wakeup1 c (s.goto p (.code none)).process
      tested := fun q d => if q = p ∧ d = c then false else s.tested q d
      missed := fun q d => if d = c then true else s.missed q d } := by
  have hother : ∀ q l, q ≠ p → s.lock l = some (.process p) → s.lock l ≠ some (.process q) := by
    intro q l hq hl hl'
    rw [hl] at hl'
    cases hl'
    exact hq rfl
  refine ⟨fun q => ?_,fun q d ht => ?_⟩
  · dsimp only
    rw [wakeup1_control]
    by_cases hq : q = p
    · subst hq
      simp only [Config.goto,set_process,↓reduceIte,Fine]
      intro hs
      have := (wakeup1_sleeping hs).1
      simp [hr] at this
    · have hsame : (s.goto p (.code none)).process q = s.process q := by simp [Config.goto,hq]
      rw [hsame]
      have hf := h.fine q
      refine hf.frame (fun hs => ?_) ?_ (fun l hl => hl) (fun d hd => ?_)
      · rw [← hsame]
        exact (wakeup1_sleeping hs).1
      · rw [← hsame]
        exact wakeup1_chan
      · have hdc : d ≠ c := by
          rintro rfl
          rcases hd with ⟨hs,hx⟩ | hx | hx | hx
          · rw [hx] at hf
            obtain ⟨hs,hch⟩ := wakeup1_sleeping hs
            rw [hsame] at hs hch
            exact hch (hf hs).1
          · rw [hx] at hf
            exact hother q _ hq hlock hf.2.1
          · rw [hx] at hf
            exact hother q _ hq hlock hf.2.1
          · rw [hx] at hf
            rcases htable with htable | htable
            · have hx := hf.2.1
              rw [htable] at hx
              cases hx
            · exact hother q _ hq htable hf.2.1
        simp [hdc]
  · dsimp only at ht
    split_ifs at ht with hqd
    obtain ⟨hl,hmiss⟩ := h.tested q d ht
    have hdc : d ≠ c := by
      rintro rfl
      rw [hlock] at hl
      cases hl
      exact hqd ⟨rfl,rfl⟩
    exact ⟨hl,by simpa [hdc] using hmiss⟩

omit [DecidableEq L] in
theorem Inv.test (h : Inv lk s) {c : C} (hr : (s.process p).State = RUNNING)
    (hlock : s.lock (lk c) = some (.process p)) : Inv lk { s.goto p (.code none) with
      tested := fun q d => if q = p ∧ d = c then true else s.tested q d
      missed := fun q d => if q = p ∧ d = c then false else s.missed q d } := by
  refine ⟨fun q => ?_,fun q d ht => ?_⟩
  · by_cases hq : q = p
    · subst hq
      simp [Config.goto,Fine,hr]
    · have hsame : (s.goto p (.code none)).process q = s.process q := by simp [Config.goto,hq]
      dsimp only
      rw [hsame]
      exact (h.fine q).frame (fun hs => hsame ▸ hs) (by rw [← hsame]) (fun l hl => hl) (fun d _ => by simp [hq])
  · dsimp only at ht ⊢
    split_ifs at ht ⊢ with hqd
    · obtain ⟨rfl,rfl⟩ := hqd
      exact ⟨hlock,rfl⟩
    · exact h.tested q d ht

theorem Inv.step (h : Inv lk s) {t : Config P C L} {m : Move P C L} (hd : Disciplined lk s m)
    (he : SleepWakeup.step lk s m = some t) : Inv lk t := by
  cases m with
  | acquire p l =>
    simp only [SleepWakeup.step] at he
    split_ifs at he with hg
    cases he
    exact h.moves (by simp [hg.2.2]) (by simp [Fine,hg.1])
  | release p l =>
    simp only [SleepWakeup.step] at he
    split_ifs at he with hg
    cases he
    exact h.moves (fun q hq => by simp [hg.2.2,Ne.symm hq]) (by simp [Fine,hg.1])
  | test p c =>
    simp only [SleepWakeup.step] at he
    split_ifs at he with hg
    cases he
    exact h.test hg.1 hd
  | wakeup p c =>
    simp only [SleepWakeup.step] at he
    split_ifs at he with hg
    cases he
    exact h.wakeup hg.1 hg.2.2 hd
  | sleep p c =>
    simp only [SleepWakeup.step] at he
    split_ifs at he with hg hl
    · cases he
      have hlock : s.lock .processTable = some (.process p) := hl ▸ hd.1
      exact h.stays (by simpa [Fine,hg.1] using ⟨hlock,(h.tested p c hd.2).2⟩)
    · cases he
      exact h.stays (by simpa [Fine,hg.1,hl] using ⟨hd.1,(h.tested p c hd.2).2⟩)
  | yield p =>
    simp only [SleepWakeup.step] at he
    split_ifs at he with hg
    cases he
    exact h.moves (by simp [hg.2.2]) (by simp [Fine])
  | run p =>
    simp only [SleepWakeup.step] at he
    split_ifs at he with hr
    exact h.run he
  | kill p =>
    simp only [SleepWakeup.step] at he
    rw [Option.ite_none_right_eq_some] at he
    obtain ⟨-,he⟩ := he
    cases he
    refine h.stays ((h.fine p).frame (fun hs => ?_) (by simp) (fun l hl => hl) (fun c _ => rfl))
    by_contra hz
    simp [hz] at hs
  | schedulerAcquires =>
    simp only [SleepWakeup.step] at he
    split_ifs at he with hl
    cases he
    exact h.passes (by simp [hl])
  | schedulerReleases =>
    simp only [SleepWakeup.step] at he
    split_ifs at he with hl
    cases he
    exact h.passes (by simp [hl])
  | dispatch p =>
    simp only [SleepWakeup.step] at he
    split_ifs at he with hg
    split at he
    · cases he
      exact h.moves (by simp [hg.1]) (by simp [Fine])
    · cases he
      exact h.moves (by simp [hg.1]) (by simp [Fine])
    · cases he

omit [DecidableEq P] [DecidableEq C] [DecidableEq L] in
theorem Initial.inv (h : Initial s) : Inv lk s := by
  refine ⟨fun p => ?_,fun p c ht => ?_⟩
  · rw [(h.2.1 p).2]
    simp [Fine,(h.2.1 p).1]
  · simp [h.2.2 p c] at ht

end Steps

/-- Under the discipline nobody sleeps on a channel although a wakeup of it has
completed since the sleeper last tested its condition, and a process that has
returned from sleep holds the lock again; the lock of a channel may be any lock,
processTable.Lock included. -/
theorem no_wakeup_missed {lk : C → LockName L} {s t : Config P C L} {ms : List (Move P C L)}
    (h : Runs (guarded (graph (step lk)) (Disciplined lk)) s ms t) (hs : Initial s) :
    (∀ p c, (t.process p).State = SLEEPING → (t.process p).Chan = some c → t.missed p c = false) ∧
    ∀ p c, (t.process p).control = .code (some c) → t.lock (lk c) = some (.process p) := by
  have hi : Inv lk t := h.invariant hs.inv (fun _ _ _ ha he => ha.step he.1 he.2)
  refine ⟨fun p c hp hch => ?_,fun p c hc => ?_⟩
  · have hf := hi.fine p
    cases hx : (t.process p).control with
    | parked d =>
      rw [hx] at hf
      obtain ⟨hd,hm⟩ := hf hp
      rw [hch] at hd
      cases hd
      exact hm
    | code r =>
      rw [hx] at hf
      cases r with
      | none => exact absurd hp hf
      | some d => exact absurd hp hf.1
    | reacquire d => rw [hx] at hf; exact absurd hp hf
    | yielded => rw [hx] at hf; exact absurd hp hf
    | _ => rw [hx] at hf; exact absurd hp hf.1
  · have hf := hi.fine p
    rw [hc] at hf
    exact hf.2

def twoLocks : Bool → LockName Unit
  | false => .other ()
  | true => .processTable

def idleConfig : Config (Fin 2) Bool Unit :=
  ⟨fun _ => ⟨RUNNABLE,none,.yielded⟩,fun _ => none,fun _ _ => false,fun _ _ => true⟩

local instance goesToSleep_size : NeZero 2 := ⟨by decide⟩

def goesToSleep : List (Move (Fin 2) Bool Unit) :=
  [.schedulerAcquires,.dispatch 0,.run 0,.acquire 0 (.other ()),.test 0 false,.sleep 0 false,.run 0,.run 0,.run 0]

theorem no_wakeup_missed_goesToSleep : ∃ t : Config (Fin 2) Bool Unit,
    Runs (guarded (graph (step twoLocks)) (Disciplined twoLocks)) idleConfig goesToSleep t ∧
    (t.process 0).State = SLEEPING ∧ t.lock (.other ()) = none ∧ t.missed 0 false = false := by
  have h : Runs (guarded (graph (step twoLocks)) (Disciplined twoLocks)) idleConfig goesToSleep _ :=
    Runs.of_execute_guarded (Option.some_get (by rfl)).symm
  have hm := (no_wakeup_missed h ⟨fun _ => rfl,fun _ => ⟨rfl,rfl⟩,fun _ _ => rfl⟩).1
  exact ⟨_,h,by rfl,by rfl,hm 0 false (by rfl) (by rfl)⟩

end UoDOS.SleepWakeup
