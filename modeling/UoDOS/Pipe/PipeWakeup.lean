import UoDOS.Pipe.PipeOrder

/-! # Lost wakeups of the pipe

Readers sleep on `&ReadCount` until there is a byte or the write end is closed, writers on
`&WriteCount` until there is room or the read end is closed.
-/
namespace UoDOS.Pipes
open Monitor Transition FreeRunningRing ProcState

variable {P : Type} [DecidableEq P]

def mayProceed : Channel → Pipe → Prop
  | .ReadCount, d => d.ReadCount ≠ d.WriteCount ∨ d.WriteOpen = false
  | .WriteCount, d => count d.ReadCount d.WriteCount < PIPESIZE ∨ d.ReadOpen = false

def owesWakeup : Point → Channel → Prop
  | .write (.forTest ..), c | .write (.whileTest ..), c | .write (.full ..), c | .write (.wrote ..), c =>
    c = .ReadCount
  | .read (.forTest ..), c | .read (.took ..), c => c = .WriteCount
  | .close (.marked writable), c => c = if writable then .ReadCount else .WriteCount
  | _, _ => False

theorem mayProceed_store {d : Pipe} (h : d.Ordered) (hf : ¬ d.WriteCount = d.ReadCount + BitVec.ofNat 32 PIPESIZE)
    {b : UInt8} (hm : mayProceed .WriteCount (d.store b)) : mayProceed .WriteCount d := by
  have hne : count d.ReadCount d.WriteCount ≠ PIPESIZE := fun hc => hf ((full_iff_count d).mpr hc)
  have hb := h.bounded
  refine hm.imp (fun _ => ?_) id
  exact lt_of_le_of_ne hb hne

theorem notifies : Notifies next Pipe.Ordered knows mayProceed owesWakeup where
  work k b d k' d' hd hk he c := by
    cases works_of_next he with
    | store hf =>
      refine ⟨id,fun hm => ?_⟩
      cases c with
      | ReadCount => exact .inr rfl
      | WriteCount => exact .inl (mayProceed_store hd hf hm)
    | deliver hi hc =>
      refine ⟨id,fun hm => ?_⟩
      cases c with
      | ReadCount => exact .inl (.inl hc)
      | WriteCount => exact .inr rfl
    | closeWrite =>
      refine ⟨False.elim,fun hm => ?_⟩
      cases c with
      | ReadCount => exact .inr rfl
      | WriteCount => exact .inl hm
    | closeRead =>
      refine ⟨False.elim,fun hm => ?_⟩
      cases c with
      | ReadCount => exact .inl hm
      | WriteCount => exact .inr rfl
    | readStart hw => exact ⟨False.elim,.inl⟩
    | _ => exact ⟨id,.inl⟩
  wakeup k b d c k' hk he c' ho := by
    cases wakes_of_next he <;> exact .inl ho
  sleep k b d c k' hk he := by
    cases sleeps_of_next he with
    | full =>
      refine ⟨?_,fun _ => id⟩
      rintro (hc | ho)
      · exact absurd hk.1 hc.ne
      · exact absurd (hk.2.symm.trans ho) (by decide)
    | empty hc ho =>
      refine ⟨?_,fun _ => id⟩
      rintro (hn | hw)
      · exact hn hc
      · exact absurd (ho.symm.trans hw) (by decide)

/-- The process holds the lock at the test of a full ring and is about to return
-1, since the read end is closed or the process has been killed. -/
def ReturnsEarly (s : System P) (p : P) : Prop :=
  (∃ addr n i, (s.thread p).control = .inside (.write (.whileTest addr n i))) ∧
  s.data.WriteCount = s.data.ReadCount + BitVec.ofNat 32 PIPESIZE ∧
  (s.data.ReadOpen = false ∨ (s.thread p).IsKilled = true)

def UnwaitedReturn (s : System P) (m : Move P Point) : Prop :=
  ∀ p, m = .run p → ReturnsEarly s p → ∀ q, ¬ Waits (s.thread q) .ReadCount

omit [DecidableEq P] in
theorem UnwaitedReturn.prompt {s : System P} {m : Move P Point} (h : UnwaitedReturn s m) :
    Prompt next owesWakeup s m := by
  rintro p k r hm hk hr c ho
  rcases k with k | k | k
  · cases k with
    | whileTest addr n i =>
      simp only [next,pipewrite] at hr
      split at hr
      · rename_i hf
        split at hr
        · rename_i he
          obtain rfl : c = .ReadCount := ho
          exact h p hm ⟨⟨addr,n,i,hk⟩,hf,he⟩
        · cases hr
      · cases hr
    | forTest => simp only [next,pipewrite] at hr; split at hr <;> cases hr
    | full => cases hr
    | wrote => cases hr
    | _ => exact ho.elim
  · cases k with
    | forTest =>
      simp only [next,piperead] at hr
      repeat' split at hr
      all_goals cases hr
    | took => cases hr
    | _ => exact ho.elim
  · cases k with
    | marked => cases hr
    | _ => exact ho.elim

/-- In every run in which pipewrite returns early only while nobody waits for
bytes: whenever the lock is free, the sleepers on `&ReadCount` find the pipe empty
and its write end open, the sleepers on `&WriteCount` find it full and its read
end open. -/
theorem pipe_no_lost_wakeup {s t : System P} {ms : List (Move P Point)}
    (h : Runs (guarded (graph (step next entry)) UnwaitedReturn) s ms t) (hs : Initial s)
    (hf : s.data.Fresh) (hl : t.lock = none) (p : P) (hp : (t.thread p).State = SLEEPING) :
    ((t.thread p).Chan = some .ReadCount → t.data.ReadCount = t.data.WriteCount ∧ t.data.WriteOpen = true) ∧
    ((t.thread p).Chan = some .WriteCount →
      (t.data.WriteCount - t.data.ReadCount).toNat = PIPESIZE ∧ t.data.ReadOpen = true) := by
  have hr : Runs (guarded (graph (step next entry)) (Prompt next owesWakeup)) s ms t :=
    h.mono (fun _ _ _ he => ⟨he.1.prompt,he.2⟩)
  have ha := Asserted.of_runs outline (h.mono (fun _ _ _ he => he.2)) hs hf.ordered
  refine ⟨fun hc => ?_,fun hc => ?_⟩
  · have hm := no_lost_wakeup outline notifies hr hs hf.ordered hl hp hc
    simpa [mayProceed] using hm
  · have hm := no_lost_wakeup outline notifies hr hs hf.ordered hl hp hc
    obtain ⟨hfull,ho⟩ := not_or.mp hm
    exact ⟨le_antisymm ha.data.bounded (not_lt.mp hfull),by simpa using ho⟩

def readerSleeps : List (Move Bool Point) :=
  [.dispatch false,.call false (.read (.whileTest 1))] ++ List.replicate 5 (.run false)

def awayFromTest (s : System P) : Move P Point → Bool
  | .run p => match (s.thread p).control with
    | .inside (.write (.whileTest ..)) => false
    | _ => true
  | _ => true

omit [DecidableEq P] in
theorem unwaitedReturn_of_away {s : System P} {m : Move P Point} (h : awayFromTest s m = true) :
    UnwaitedReturn s m := by
  rintro p rfl ⟨⟨addr,n,i,hc⟩,-⟩
  simp [awayFromTest,hc] at h

theorem pipe_no_lost_wakeup_readerSleeps :
    ∃ t : System Bool, Runs (guarded (graph (step next entry)) UnwaitedReturn) wrappingSystem readerSleeps t ∧
      (t.thread false).State = SLEEPING ∧ (t.thread false).Chan = some .ReadCount ∧
      t.data.ReadCount = t.data.WriteCount ∧ t.data.WriteOpen = true := by
  have h : Runs (graph fun s m => if awayFromTest s m = true then step next entry s m else none)
      wrappingSystem readerSleeps _ := Runs.of_execute (Option.some_get (by rfl)).symm
  have hg : Runs (guarded (graph (step next entry)) UnwaitedReturn) wrappingSystem readerSleeps _ :=
    h.mono (fun u m v he => by
      simp only [graph] at he
      split_ifs at he with hm
      exact ⟨unwaitedReturn_of_away hm,he⟩)
  exact ⟨_,hg,by rfl,by rfl,
    (pipe_no_lost_wakeup hg ⟨rfl,rfl,fun _ => ⟨rfl,rfl⟩⟩ ⟨rfl,rfl,rfl⟩ (by rfl) false (by rfl)).1 (by rfl)⟩

theorem returnsEarly_loses {s : System P} {p q : P} (hr : (s.thread p).State = RUNNING)
    (he : ReturnsEarly s p) (hq : (s.thread q).State = SLEEPING) :
    ∃ t, step next entry s (.run p) = some t ∧ t.lock = none ∧ (t.thread q).State = SLEEPING ∧
      (t.thread q).Chan = (s.thread q).Chan ∧ t.data = s.data := by
  obtain ⟨⟨addr,n,i,hc⟩,hf,ho⟩ := he
  have hqp : q ≠ p := by
    rintro rfl
    simp [hr] at hq
  refine ⟨{ s.goto p .outside with lock := none },?_,rfl,?_,?_,rfl⟩
  · simp [step,runThread,hr,hc,next,pipewrite,hf,ho]
  · simpa [hqp] using hq
  · simp [hqp]

def Pipe.storeAll (addr : ℕ → UInt8) (d : Pipe) : ℕ → Pipe
  | 0 => d
  | k + 1 => (d.storeAll addr k).store (addr k)

theorem storeAll_writeCount (addr : ℕ → UInt8) (d : Pipe) (k : ℕ) :
    (d.storeAll addr k).WriteCount = d.WriteCount + BitVec.ofNat 32 k := by
  induction k with
  | zero => simp [Pipe.storeAll]
  | succ k ih => simp [Pipe.storeAll,Pipe.store,ih,BitVec.ofNat_add,BitVec.add_assoc]

theorem storeAll_readCount (addr : ℕ → UInt8) (d : Pipe) (k : ℕ) :
    (d.storeAll addr k).ReadCount = d.ReadCount := by
  induction k with
  | zero => rfl
  | succ k ih => exact ih

def atTest (s : System P) (p : P) (addr : ℕ → UInt8) (n : ℤ) (k : ℕ) : System P :=
  { s.goto p (.inside (.write (.whileTest addr n k))) with data := s.data.storeAll addr k }

theorem writer_fills {s : System P} {p : P} (addr : ℕ → UInt8) {n : ℤ} (hr : (s.thread p).State = RUNNING)
    (hc : (s.thread p).control = .inside (.write (.forTest addr n 0)))
    (he : s.data.ReadCount = s.data.WriteCount) (k : ℕ) (hk : k ≤ PIPESIZE) (hn : (k : ℤ) < n) :
    ∃ ms, Runs (graph (step next entry)) s ms (atTest s p addr n k) := by
  induction k with
  | zero =>
    refine ⟨_,Runs.one (l := .run p) ?_⟩
    have h0 : 0 < n := by simpa using hn
    simp [atTest,graph,step,runThread,next,pipewrite,hr,hc,h0,Pipe.storeAll]
  | succ k ih =>
    obtain ⟨ms,h⟩ := ih (by omega) (by omega)
    have hroom : ¬ (s.data.storeAll addr k).WriteCount =
        (s.data.storeAll addr k).ReadCount + BitVec.ofNat 32 PIPESIZE := by
      rw [storeAll_writeCount,storeAll_readCount,he,BitVec.add_right_inj]
      simp only [PIPESIZE] at hk ⊢
      bv_omega
    have hstore : graph (step next entry) (atTest s p addr n k) (.run p)
        { s.goto p (.inside (.write (.forTest addr n (k + 1)))) with data := s.data.storeAll addr (k + 1) } := by
      simp [atTest,graph,step,runThread,next,pipewrite,hr,hroom,Config.goto,Config.set,Pipe.storeAll]
    have htest : graph (step next entry)
        { s.goto p (.inside (.write (.forTest addr n (k + 1)))) with data := s.data.storeAll addr (k + 1) } (.run p)
        (atTest s p addr n (k + 1)) := by
      have hn' : (k : ℤ) + 1 < n := by simpa using hn
      simp [atTest,graph,step,runThread,next,pipewrite,hr,hn',Config.goto,Config.set]
    exact ⟨_,(h.snoc hstore).snoc htest⟩

def writerEnters : List (Move Bool Point) :=
  readerSleeps ++ [.dispatch true,.call true (.write (.forTest (fun _ => 0) 513 0)),.run true,.kill true]

def writerInside : System Bool := (execute (step next entry) wrappingSystem writerEnters).get (by rfl)

/-- A reader sleeps; a writer of 513 bytes is killed, stores 512 of them and
returns -1. The lock is free, the ring is full, and the reader still sleeps. -/
theorem killed_writer_loses_wakeup : ∃ (ms : List (Move Bool Point)) (t : System Bool),
    Runs (graph (step next entry)) wrappingSystem ms t ∧ t.lock = none ∧
    (t.thread false).State = SLEEPING ∧ (t.thread false).Chan = some .ReadCount ∧
    (t.data.WriteCount - t.data.ReadCount).toNat = PIPESIZE := by
  have h : Runs (graph (step next entry)) wrappingSystem writerEnters writerInside :=
    Runs.of_execute (Option.some_get (by rfl)).symm
  have hd : writerInside.data = wrappingSystem.data := by rfl
  obtain ⟨ms,hfill⟩ := writer_fills (s := writerInside) (p := true) (fun _ => 0) (n := 513) (by rfl)
    (by rfl) (by rfl) PIPESIZE le_rfl (by decide)
  have hfull : (atTest writerInside true (fun _ => 0) 513 PIPESIZE).data.WriteCount =
      (atTest writerInside true (fun _ => 0) 513 PIPESIZE).data.ReadCount + BitVec.ofNat 32 PIPESIZE := by
    simp only [atTest,storeAll_writeCount,storeAll_readCount,hd,wrappingSystem]
  obtain ⟨t,ht,hl,hs,hc,hdata⟩ := returnsEarly_loses (p := true) (q := false) (by rfl)
    ⟨⟨_,_,_,by rfl⟩,hfull,.inr (by rfl)⟩ (by rfl)
  refine ⟨_,t,(h.trans hfill).snoc ht,hl,hs,hc,?_⟩
  rw [hdata,hfull,BitVec.add_comm,BitVec.add_sub_cancel]
  rfl

end UoDOS.Pipes
