import UoDOS.Process.MonitorWakeup

/-! # Sleeping locks

sleeplockAcquire and sleeplockRelease as code of the inner spinlock. A control point names the
process that runs it, since sleeplockAcquire stores the id of its caller.
-/
namespace UoDOS.Sleeplocks
open Monitor Transition ProcState

variable {P : Type} [DecidableEq P]

structure Sleeplock (P : Type) where
  Locked : Bool
  Pid : UInt32
  held : P → Bool

inductive Point (P : Type)
  | acquireTest (p : P)
  | take (p : P)
  | acquired (p : P)
  | clear (p : P)
  | wake (p : P)
  | released (p : P)
  | isHolding (p : P)

def Point.who : Point P → P
  | .acquireTest p | .take p | .acquired p | .clear p | .wake p | .released p | .isHolding p => p

/-- What the holder of the spinlock does next; the only channel is the lock itself. -/
def next (ProcessId : P → UInt32) (k : Point P) (_ : Bool) (d : Sleeplock P) : Action (Point P) Unit (Sleeplock P) :=
  match k with
  | .acquireTest p => if d.Locked then .sleep () (.acquireTest p) else .work (.take p) d
  | .take p => .work (.acquired p) ⟨true,ProcessId p,Function.update d.held p true⟩
  | .acquired _ => .release 0
  | .clear p => .work (.wake p) ⟨false,0,Function.update d.held p false⟩
  | .wake p => .wakeup () (.released p)
  | .released _ => .release 0
  | .isHolding _ => .release (if d.Locked then 1 else 0)

/-- sleeplockAcquire, sleeplockRelease and isHoldingSleeplock. -/
def entry : Point P → Bool
  | .acquireTest _ | .clear _ | .isHolding _ => true
  | _ => false

def Sleeplock.Fresh (d : Sleeplock P) : Prop := d.Locked = false ∧ d.Pid = 0 ∧ ∀ p, d.held p = false

abbrev System (P : Type) := Config P (Point P) Unit (Sleeplock P)

/-- A process calls on its own behalf, and sleeplockRelease only while it holds the
lock. -/
def ReleasesOwn (s : System P) (m : Move P (Point P)) : Prop :=
  ∀ p k, m = .call p k → k.who = p ∧ (k = .clear p → s.data.held p = true)

variable {ProcessId : P → UInt32}

theorem outline : Outline (next ProcessId) entry (fun _ => True)
    (fun k d => ∀ p, k = .take p → d.Locked = false) where
  entry k hk d _ p hp := by
    subst hp
    cases hk
  work k b d k' d' _ _ hn := by
    refine ⟨trivial,fun p hp => ?_⟩
    subst hp
    cases k with
    | acquireTest q =>
      simp only [next] at hn
      split_ifs at hn with hl
      cases hn
      simpa using hl
    | _ => cases hn
  wakeup k b d c k' _ _ hn p hp := by
    subst hp
    cases k with
    | acquireTest q =>
      simp only [next] at hn
      split_ifs at hn
    | _ => cases hn
  sleep k b d c k' _ hn e _ p hp := by
    subst hp
    cases k with
    | acquireTest q =>
      simp only [next] at hn
      split_ifs at hn
      cases hn
    | _ => cases hn

def owesWakeup : Point P → Unit → Prop
  | .wake _, _ => True
  | _, _ => False

theorem notifies : Notifies (next ProcessId) (fun _ => True) (fun k d => ∀ p, k = .take p → d.Locked = false)
    (fun _ d => d.Locked = false) owesWakeup where
  work k b d k' d' _ _ hn c := by
    cases k with
    | acquireTest q =>
      simp only [next] at hn
      split_ifs at hn
      cases hn
      exact ⟨False.elim,.inl⟩
    | take q =>
      cases hn
      exact ⟨False.elim,fun hf => nomatch hf⟩
    | clear q =>
      cases hn
      exact ⟨False.elim,fun _ => .inr trivial⟩
    | _ => cases hn
  wakeup k b d c k' _ hn c' _ := .inl rfl
  sleep k b d c k' _ hn := by
    cases k with
    | acquireTest q =>
      simp only [next] at hn
      split_ifs at hn with hl
      exact ⟨by simp [hl],fun _ => id⟩
    | _ => cases hn

theorem prompt (s : System P) (m : Move P (Point P)) : Prompt (next ProcessId) owesWakeup s m := by
  intro p k r _ _ hn c ho
  cases k with
  | wake q => cases hn
  | _ => exact ho.elim

/-- The lock is held by at most one process, whose id it carries, and a process that
is about to give it back holds it. -/
structure Owned (ProcessId : P → UInt32) (s : System P) : Prop where
  single : ∀ p q, s.data.held p = true → s.data.held q = true → p = q
  locked : s.data.Locked = true ↔ ∃ p, s.data.held p = true
  signed : ∀ p, s.data.held p = true → s.data.Pid = ProcessId p
  own : ∀ p k, (s.thread p).control.point = some k → k.who = p
  releases : ∀ p, (s.thread p).control.point = some (.clear p) → s.data.held p = true

omit [DecidableEq P] in
theorem Owned.moves {s t : System P} {p : P} {k : Option (Point P)} (h : Owned ProcessId s)
    (hd : t.data = s.data) (ht : (t.thread p).control.point = k)
    (hq : ∀ q, q ≠ p → (t.thread q).control.point = (s.thread q).control.point)
    (hw : ∀ j, k = some j → j.who = p) (hc : k = some (.clear p) → s.data.held p = true) : Owned ProcessId t := by
  refine ⟨?_,?_,?_,fun q j hj => ?_,fun q hj => ?_⟩
  · rw [hd]; exact h.single
  · rw [hd]; exact h.locked
  · rw [hd]; exact h.signed
  · by_cases hqp : q = p
    · subst hqp
      exact hw j (ht ▸ hj)
    · exact h.own q j (hq q hqp ▸ hj)
  · rw [hd]
    by_cases hqp : q = p
    · subst hqp
      exact hc (ht ▸ hj)
    · exact h.releases q (hq q hqp ▸ hj)

theorem Owned.works {s t : System P} {p : P} {k : Point P} {v : Bool} (h : Owned ProcessId s)
    (hv : t.data.held = Function.update s.data.held p v) (hl : t.data.Locked = v)
    (hp : v = true → t.data.Pid = ProcessId p) (hnone : ∀ q, q ≠ p → s.data.held q = false)
    (ht : (t.thread p).control.point = some k) (hk : k.who = p) (hc : k ≠ .clear p)
    (hq : ∀ q, q ≠ p → (t.thread q).control.point = (s.thread q).control.point) : Owned ProcessId t := by
  have hheld : ∀ q, t.data.held q = true → q = p ∧ v = true := by
    intro q hh
    by_cases hqp : q = p
    · subst hqp
      exact ⟨rfl,by simpa [hv] using hh⟩
    · simp [hv,hqp,hnone q hqp] at hh
  refine ⟨fun q r hq hr => (hheld q hq).1.trans (hheld r hr).1.symm,⟨fun hx => ⟨p,?_⟩,fun ⟨q,hx⟩ => ?_⟩,
    fun q hx => ?_,fun q j hj => ?_,fun q hj => ?_⟩
  · rw [hv,Function.update_self,← hl]
    exact hx
  · rw [hl]
    exact (hheld q hx).2
  · obtain ⟨rfl,hvt⟩ := hheld q hx
    exact hp hvt
  · by_cases hqp : q = p
    · subst hqp
      rw [ht] at hj
      cases hj
      exact hk
    · exact h.own q j (hq q hqp ▸ hj)
  · by_cases hqp : q = p
    · subst hqp
      rw [ht] at hj
      exact absurd (Option.some.inj hj) hc
    · have := h.releases q (hq q hqp ▸ hj)
      simp [hnone q hqp] at this

theorem Owned.step {s t : System P} {m : Move P (Point P)} (h : Owned ProcessId s)
    (ha : ∀ p q, (s.thread p).control = .inside (.take q) → s.data.Locked = false)
    (hm : ReleasesOwn s m) (he : Progress (next ProcessId) entry s m t) : Owned ProcessId t := by
  have hin : ∀ {p k}, (s.thread p).control = .inside k → k.who = p :=
    fun {p k} hk => h.own p k (by rw [hk]; rfl)
  cases he with
  | still hd hq =>
    refine ⟨?_,?_,?_,fun q j hj => h.own q j (hq q ▸ hj),fun q hj => ?_⟩
    · rw [hd]; exact h.single
    · rw [hd]; exact h.locked
    · rw [hd]; exact h.signed
    · rw [hd]; exact h.releases q (hq q ▸ hj)
  | call p k hc hk hs ht hd hq =>
    obtain ⟨hw,hr⟩ := hm p k hc
    refine h.moves hd ht hq (fun j hj => ?_) (fun hj => hr (Option.some.inj hj))
    cases hj
    exact hw
  | work p k k' d hs hn ht hd hq =>
    have hw := hin hs
    cases k with
    | acquireTest r =>
      simp only [next] at hn
      split_ifs at hn
      cases hn
      exact h.moves hd ht hq (fun j hj => by cases hj; exact hw) (fun hj => nomatch hj)
    | take r =>
      cases hn
      obtain rfl : r = p := hw
      have hfree : ∀ q, s.data.held q = false := by
        intro q
        by_contra hq
        have hl := h.locked.mpr ⟨q,by simpa using hq⟩
        simp [ha r r hs] at hl
      refine h.works (v := true) ?_ ?_ (fun _ => ?_) (fun q _ => hfree q) ht rfl (by simp) hq
      all_goals rw [hd]
    | clear r =>
      cases hn
      obtain rfl : r = p := hw
      have hown := h.releases r (by rw [hs]; rfl)
      refine h.works (v := false) ?_ ?_ (fun hf => nomatch hf) (fun q hqr => ?_) ht rfl (by simp) hq
      · rw [hd]
      · rw [hd]
      · by_contra hh
        exact hqr (h.single q r (by simpa using hh) hown)
    | _ => cases hn
  | wakeup p k k' c hs hn ht hd hq =>
    have hw := hin hs
    cases k with
    | wake r =>
      cases hn
      exact h.moves hd ht hq (fun j hj => by cases hj; exact hw) (fun hj => nomatch hj)
    | acquireTest r =>
      simp only [next] at hn
      split_ifs at hn
    | _ => cases hn
  | sleep p k k' c hs hn ht hd hq =>
    have hw := hin hs
    cases k with
    | acquireTest r =>
      simp only [next] at hn
      split_ifs at hn
      cases hn
      exact h.moves hd ht hq (fun j hj => by cases hj; exact hw) (fun hj => nomatch hj)
    | _ => cases hn
  | leave p k r hs hn ht hd hq =>
    exact h.moves hd ht hq (fun j hj => nomatch hj) (fun hj => nomatch hj)

/-- In every run in which processes release the lock only while they hold it: at most
one process is between taking the lock and giving it back, Pid is its id, and
whenever the spinlock is free nobody sleeps on a lock that is not held. -/
theorem sleeplock_excludes {s t : System P} {ms : List (Move P (Point P))}
    (h : Runs (guarded (graph (Monitor.step (next ProcessId) entry)) ReleasesOwn) s ms t) (hs : Initial s)
    (hf : s.data.Fresh) :
    (∀ p q, t.data.held p = true → t.data.held q = true → p = q) ∧
    (∀ p, t.data.held p = true → t.data.Locked = true ∧ t.data.Pid = ProcessId p) ∧
    (t.lock = none → ∀ p, (t.thread p).State = SLEEPING → (t.thread p).Chan = some () →
      t.data.Locked = true) := by
  have hstart : Owned ProcessId s := by
    refine ⟨fun p _ hp => ?_,⟨fun hl => ?_,fun ⟨p,hp⟩ => ?_⟩,fun p hp => ?_,fun p k hk => ?_,fun p hk => ?_⟩
    · simp [hf.2.2 p] at hp
    · simp [hf.1] at hl
    · simp [hf.2.2 p] at hp
    · simp [hf.2.2 p] at hp
    · simp [(hs.2.2 p).1,Control.point] at hk
    · simp [(hs.2.2 p).1,Control.point] at hk
  have hall := h.invariant (I := fun u => Asserted (fun _ => True)
      (fun (k : Point P) (d : Sleeplock P) => ∀ p, k = .take p → d.Locked = false) u ∧ Owned ProcessId u)
    ⟨hs.asserted trivial,hstart⟩ (fun a m b ha he => by
      have heff := effect_of_step he.2
      exact ⟨ha.1.step outline heff,
        ha.2.step (fun p q hk => ha.1.inside p _ hk q rfl) he.1 heff.progress⟩)
  refine ⟨hall.2.single,fun p hp => ⟨hall.2.locked.mpr ⟨p,hp⟩,hall.2.signed p hp⟩,fun hl p hp hc => ?_⟩
  have hprompt := h.mono (fun a m b he => (⟨prompt a m,he.2⟩ :
    guarded (graph (Monitor.step (next ProcessId) entry)) (Prompt (next ProcessId) owesWakeup) a m b))
  have hn := no_lost_wakeup outline notifies hprompt hs trivial hl hp hc
  simpa using hn

def freshSystem : System Bool := ⟨⟨false,0,fun _ => false⟩,none,none,fun _ => ⟨RUNNABLE,none,false,.outside⟩⟩

def contended : List (Move Bool (Point Bool)) :=
  [.dispatch false,.call false (.acquireTest false)] ++ List.replicate 4 (.run false) ++
  [.dispatch true,.call true (.acquireTest true)] ++ List.replicate 5 (.run true)

theorem sleeplock_excludes_contended : ∃ t : System Bool,
    Runs (guarded (graph (Monitor.step (next fun p => if p then 2 else 1) entry)) ReleasesOwn) freshSystem contended t ∧
    t.data.held false = true ∧ t.data.Pid = 1 ∧ t.lock = none ∧
    (t.thread true).State = SLEEPING ∧ t.data.Locked = true := by
  have h : Runs (graph (Monitor.step (next fun p => if p then 2 else 1) entry)) freshSystem contended _ :=
    Runs.of_execute (Option.some_get (by rfl)).symm
  have hg : ∀ m ∈ contended, ∀ s, ReleasesOwn s m := by
    simp [contended,ReleasesOwn,Point.who]
  have hx := sleeplock_excludes (h.guarded hg) ⟨rfl,rfl,fun _ => ⟨rfl,rfl⟩⟩ ⟨rfl,rfl,fun _ => rfl⟩
  exact ⟨_,h.guarded hg,by rfl,(hx.2.1 false (by rfl)).2,by rfl,by rfl,hx.2.2 (by rfl) true (by rfl) (by rfl)⟩

end UoDOS.Sleeplocks
