import UoDOS.Pipe.Pipe
import UoDOS.Process.MonitorWakeup

/-! # The pipe delivers what was stored, in order

The ring always holds exactly the stored bytes that have not been delivered.
-/
namespace UoDOS.Pipes
open Monitor Transition FreeRunningRing

variable {P : Type} [DecidableEq P]

def Pipe.ring (d : Pipe) : List UInt8 :=
  contents d.Data PIPESIZE d.ReadCount (count d.ReadCount d.WriteCount)

structure Pipe.Ordered (d : Pipe) : Prop where
  bounded : count d.ReadCount d.WriteCount ≤ PIPESIZE
  stored : d.stored = d.delivered ++ d.ring

theorem Pipe.Fresh.ordered {d : Pipe} (h : d.Fresh) : d.Ordered := by
  obtain ⟨hc,hs,hd⟩ := h
  have h0 : count d.ReadCount d.WriteCount = 0 := count_eq_zero.mpr hc
  exact ⟨by omega,by simp [hs,hd,Pipe.ring,h0,contents]⟩

theorem full_iff_count (d : Pipe) :
    d.WriteCount = d.ReadCount + BitVec.ofNat 32 PIPESIZE ↔ count d.ReadCount d.WriteCount = PIPESIZE :=
  full_iff (by decide)

theorem Pipe.Ordered.store {d : Pipe} (h : d.Ordered)
    (hf : ¬ d.WriteCount = d.ReadCount + BitVec.ofNat 32 PIPESIZE) (b : UInt8) : (d.store b).Ordered := by
  have hlt : count d.ReadCount d.WriteCount < PIPESIZE :=
    lt_of_le_of_ne h.bounded (fun he => hf ((full_iff_count d).mpr he))
  have hp : count d.ReadCount (d.WriteCount + 1) = count d.ReadCount d.WriteCount + 1 := by
    apply count_push
    unfold PIPESIZE at hlt
    omega
  refine ⟨?_,?_⟩
  · change count d.ReadCount (d.WriteCount + 1) ≤ PIPESIZE
    omega
  · have hring : (d.store b).ring = d.ring ++ [b] := by
      unfold Pipe.ring
      change contents _ PIPESIZE d.ReadCount (count d.ReadCount (d.WriteCount + 1)) = _
      rw [hp]
      exact contents_push (by decide) d.Data hlt b
    rw [hring,← List.append_assoc]
    exact congrArg (· ++ [b]) h.stored

theorem Pipe.Ordered.deliver {d : Pipe} (h : d.Ordered) (hne : d.ReadCount ≠ d.WriteCount) :
    d.deliver.Ordered := by
  have hp := count_pop hne
  have hring : d.ring = d.front :: d.deliver.ring := by
    unfold Pipe.ring
    rw [hp]
    exact contents_pop (by decide) d.Data d.ReadCount _
  have hb := h.bounded
  refine ⟨?_,?_⟩
  · change count (d.ReadCount + 1) d.WriteCount ≤ PIPESIZE
    omega
  · change d.stored = (d.delivered ++ [d.front]) ++ d.deliver.ring
    rw [h.stored,hring,List.append_assoc]
    rfl

def Ended (d : Pipe) : Prop := d.ReadCount = d.WriteCount ∧ d.WriteOpen = false

def knows : Point → Pipe → Prop
  | .write (.full ..), d => count d.ReadCount d.WriteCount = PIPESIZE ∧ d.ReadOpen = true
  | .write (.fullSleep ..), d => count d.ReadCount d.WriteCount = PIPESIZE ∧ d.ReadOpen = true
  | .read (.forTest _ i), d => i = 0 → d.ReadCount ≠ d.WriteCount ∨ d.WriteOpen = false
  | .read (.took n i), d => 0 < n → i = 0 → Ended d
  | .read (.leave n i), d => 0 < n → i = 0 → Ended d
  | _, _ => True

theorem outline : Outline next entry Pipe.Ordered knows where
  entry k hk := by
    intro d _
    rcases k with k | k | k
    · cases k with
      | forTest => trivial
      | _ => simp [entry] at hk
    · cases k with
      | whileTest => trivial
      | _ => simp [entry] at hk
    · trivial
  work k b d k' d' hd hk he := by
    cases works_of_next he with
    | writeMore hi => exact ⟨hd,trivial⟩
    | writeEnd hi => exact ⟨hd,trivial⟩
    | full hf ho => exact ⟨hd,(full_iff_count d).mp hf,ho⟩
    | store hf => exact ⟨hd.store hf _,trivial⟩
    | readStart hw =>
      refine ⟨hd,fun _ => ?_⟩
      by_cases hc : d.ReadCount = d.WriteCount
      · exact .inr (by simpa [hc] using hw)
      · exact .inl hc
    | deliver hi hc => exact ⟨hd.deliver hc,fun h0 => absurd h0 (by omega)⟩
    | dry hi hc => exact ⟨hd,fun _ h0 => ⟨hc,(hk h0).resolve_left (not_not.mpr hc)⟩⟩
    | readEnd hi => exact ⟨hd,fun hn h0 => absurd hn (by omega)⟩
    | closeWrite => exact ⟨⟨hd.bounded,hd.stored⟩,trivial⟩
    | closeRead => exact ⟨⟨hd.bounded,hd.stored⟩,trivial⟩
  wakeup k b d c k' hd hk he := by
    cases wakes_of_next he with
    | full => exact hk
    | wrote => trivial
    | took => exact hk
    | closed => trivial
  sleep k b d c k' hk he := by
    cases sleeps_of_next he with
    | full => exact fun _ _ => trivial
    | empty hc ho => exact fun _ _ => trivial

def ReadPoint.request : ReadPoint → ℤ
  | .whileTest n | .forTest n _ | .took n _ | .leave n _ => n

/-- In every interleaving of any number of calls, from any value of the counters:
the occupancy is between 0 and `PIPESIZE` modulo 2^32, the delivered bytes are a
prefix of the stored bytes, and a piperead of at least one byte returns 0 only at
the closed end of a pipe whose every stored byte has been delivered. -/
theorem pipe_fifo {s t : System P} {ms : List (Move P Point)} (h : Runs (graph (step next entry)) s ms t)
    (hs : Initial s) (hf : s.data.Fresh) :
    (t.data.WriteCount - t.data.ReadCount).toNat ≤ PIPESIZE ∧
    t.data.delivered <+: t.data.stored ∧
    ∀ p k, (t.thread p).control = .inside (.read k) → 0 < k.request →
      next (.read k) (t.thread p).IsKilled t.data = .release 0 →
      t.data.WriteOpen = false ∧ t.data.delivered = t.data.stored := by
  have ha := Asserted.of_runs outline h hs hf.ordered
  refine ⟨ha.data.bounded,⟨t.data.ring,ha.data.stored.symm⟩,?_⟩
  intro p k hp hn hr
  have hk := ha.inside p _ hp
  cases k with
  | whileTest n =>
    simp only [next,piperead] at hr
    repeat' split at hr
    all_goals cases hr
  | forTest n i =>
    simp only [next,piperead] at hr
    repeat' split at hr
    all_goals cases hr
  | took n i => simp [next,piperead] at hr
  | leave n i =>
    simp only [next,piperead,Action.release.injEq,Nat.cast_eq_zero] at hr
    obtain ⟨hc,ho⟩ : Ended t.data := hk hn hr
    have h0 : count t.data.ReadCount t.data.WriteCount = 0 := count_eq_zero.mpr hc
    refine ⟨ho,?_⟩
    simpa [Pipe.ring,h0,contents] using ha.data.stored.symm

def wrappingSystem : System Bool where
  data := ⟨fun _ => 0,BitVec.ofNat 32 (2^32 - 1),BitVec.ofNat 32 (2^32 - 1),true,true,[],[]⟩
  lock := none
  tableLock := none
  thread _ := ⟨.RUNNABLE,none,false,.outside⟩

def wrappingMoves : List (Move Bool Point) :=
  [.dispatch true,.call true (.write (.forTest (fun i => UInt8.ofNat (i + 7)) 2 0)),.dispatch false,
    .call false (.read (.whileTest 1))] ++ List.replicate 8 (.run true) ++ List.replicate 6 (.run false)

theorem pipe_fifo_wrapping : ∃ t : System Bool, Runs (graph (step next entry)) wrappingSystem wrappingMoves t ∧
    t.data.stored = [7,8] ∧ t.data.delivered = [7] ∧ t.data.WriteCount = 1 ∧
    (t.data.WriteCount - t.data.ReadCount).toNat ≤ PIPESIZE := by
  have h : Runs (graph (step next entry)) wrappingSystem wrappingMoves _ :=
    Runs.of_execute (Option.some_get (by rfl)).symm
  exact ⟨_,h,by rfl,by rfl,by rfl,
    (pipe_fifo h ⟨rfl,rfl,fun _ => ⟨rfl,rfl⟩⟩ ⟨rfl,rfl,rfl⟩).1⟩

end UoDOS.Pipes
