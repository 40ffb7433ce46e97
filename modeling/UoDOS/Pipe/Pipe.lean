import UoDOS.Library.FreeRunningRing
import UoDOS.Process.Monitor

/-! # pipewrite, piperead and pipeclose

Each control point is one place of pipe.c at which the pipe's lock is held.
-/
namespace UoDOS.Pipes
open Monitor

def PIPESIZE : ℕ := 512

structure Pipe where
  Data : ℕ → UInt8
  ReadCount : BitVec 32
  WriteCount : BitVec 32
  ReadOpen : Bool
  WriteOpen : Bool
  stored : List UInt8
  delivered : List UInt8

/-- The two sleep channels, `&p->ReadCount` and `&p->WriteCount`. -/
inductive Channel
  | ReadCount
  | WriteCount
  deriving DecidableEq

/-- Places of pipewrite. `addr` and `n` are the arguments of the call, `i` is its
loop variable; `forTest` and `whileTest` are the tests of its two loops. -/
inductive WritePoint
  | forTest (addr : ℕ → UInt8) (n : ℤ) (i : ℕ)
  | whileTest (addr : ℕ → UInt8) (n : ℤ) (i : ℕ)
  | full (addr : ℕ → UInt8) (n : ℤ) (i : ℕ)
  | fullSleep (addr : ℕ → UInt8) (n : ℤ) (i : ℕ)
  | wrote (n : ℤ)
  | leave (n : ℤ)

inductive ReadPoint
  | whileTest (n : ℤ)
  | forTest (n : ℤ) (i : ℕ)
  | took (n : ℤ) (i : ℕ)
  | leave (n : ℤ) (i : ℕ)

inductive ClosePoint
  | mark (writable : Bool)
  | marked (writable : Bool)
  | leave

inductive Point
  | write (k : WritePoint)
  | read (k : ReadPoint)
  | close (k : ClosePoint)

def Pipe.store (d : Pipe) (b : UInt8) : Pipe :=
  { d with
    Data := Function.update d.Data (d.WriteCount.toNat % PIPESIZE) b
    WriteCount := d.WriteCount + 1
    stored := d.stored ++ [b] }

/-- The byte that `p->Data[p->ReadCount++ % PIPESIZE]` yields. -/
def Pipe.front (d : Pipe) : UInt8 := d.Data (d.ReadCount.toNat % PIPESIZE)

def Pipe.deliver (d : Pipe) : Pipe :=
  { d with ReadCount := d.ReadCount + 1, delivered := d.delivered ++ [d.front] }

/-- The body of pipewrite between spinlockAcquire and its two returns. -/
def pipewrite (isKilled : Bool) (d : Pipe) : WritePoint → Action Point Channel Pipe
  | .forTest addr n i =>
    if (i : ℤ) < n then .work (.write (.whileTest addr n i)) d else .work (.write (.wrote n)) d
  | .whileTest addr n i =>
    if d.WriteCount = d.ReadCount + BitVec.ofNat 32 PIPESIZE then
      if d.ReadOpen = false ∨ isKilled = true then .release (-1) else .work (.write (.full addr n i)) d
    else .work (.write (.forTest addr n (i + 1))) (d.store (addr i))
  | .full addr n i => .wakeup .ReadCount (.write (.fullSleep addr n i))
  | .fullSleep addr n i => .sleep .WriteCount (.write (.whileTest addr n i))
  | .wrote n => .wakeup .ReadCount (.write (.leave n))
  | .leave n => .release n

/-- The body of piperead between spinlockAcquire and its two returns. -/
def piperead (isKilled : Bool) (d : Pipe) : ReadPoint → Action Point Channel Pipe
  | .whileTest n =>
    if d.ReadCount = d.WriteCount ∧ d.WriteOpen = true then
      if isKilled = true then .release (-1) else .sleep .ReadCount (.read (.whileTest n))
    else .work (.read (.forTest n 0)) d
  | .forTest n i =>
    if (i : ℤ) < n then
      if d.ReadCount = d.WriteCount then .work (.read (.took n i)) d
      else .work (.read (.forTest n (i + 1))) d.deliver
    else .work (.read (.took n i)) d
  | .took n i => .wakeup .WriteCount (.read (.leave n i))
  | .leave _ i => .release i

/-- The body of pipeclose between spinlockAcquire and spinlockRelease. -/
def pipeclose (d : Pipe) : ClosePoint → Action Point Channel Pipe
  | .mark writable =>
    .work (.close (.marked writable))
      (if writable then { d with WriteOpen := false } else { d with ReadOpen := false })
  | .marked writable => .wakeup (if writable then .ReadCount else .WriteCount) (.close .leave)
  | .leave => .release 0

def next (k : Point) (isKilled : Bool) (d : Pipe) : Action Point Channel Pipe :=
  match k with
  | .write k => pipewrite isKilled d k
  | .read k => piperead isKilled d k
  | .close k => pipeclose d k

/-- The three functions are entered at their first protected statement. -/
def entry : Point → Bool
  | .write (.forTest _ _ i) => i == 0
  | .read (.whileTest _) => true
  | .close (.mark _) => true
  | _ => false

/-- Pipes with nothing in the ring, at an arbitrary value of both counters. -/
def Pipe.Fresh (d : Pipe) : Prop := d.ReadCount = d.WriteCount ∧ d.stored = [] ∧ d.delivered = []

abbrev System (P : Type) := Config P Point Channel Pipe

/-- Everything one protected step of pipe.c can do to the pipe, with the tests
that led there. -/
inductive Works (d : Pipe) : Point → Point → Pipe → Prop
  | writeMore {addr : ℕ → UInt8} {n : ℤ} {i : ℕ} (hi : (i : ℤ) < n) :
      Works d (.write (.forTest addr n i)) (.write (.whileTest addr n i)) d
  | writeEnd {addr : ℕ → UInt8} {n : ℤ} {i : ℕ} (hi : ¬ (i : ℤ) < n) : Works d (.write (.forTest addr n i)) (.write (.wrote n)) d
  | full {addr : ℕ → UInt8} {n : ℤ} {i : ℕ} (hf : d.WriteCount = d.ReadCount + BitVec.ofNat 32 PIPESIZE) (ho : d.ReadOpen = true) :
      Works d (.write (.whileTest addr n i)) (.write (.full addr n i)) d
  | store {addr : ℕ → UInt8} {n : ℤ} {i : ℕ} (hf : ¬ d.WriteCount = d.ReadCount + BitVec.ofNat 32 PIPESIZE) :
      Works d (.write (.whileTest addr n i)) (.write (.forTest addr n (i + 1))) (d.store (addr i))
  | readStart {n : ℤ} (hw : ¬ (d.ReadCount = d.WriteCount ∧ d.WriteOpen = true)) :
      Works d (.read (.whileTest n)) (.read (.forTest n 0)) d
  | deliver {n : ℤ} {i : ℕ} (hi : (i : ℤ) < n) (hc : d.ReadCount ≠ d.WriteCount) :
      Works d (.read (.forTest n i)) (.read (.forTest n (i + 1))) d.deliver
  | dry {n : ℤ} {i : ℕ} (hi : (i : ℤ) < n) (hc : d.ReadCount = d.WriteCount) :
      Works d (.read (.forTest n i)) (.read (.took n i)) d
  | readEnd {n : ℤ} {i : ℕ} (hi : ¬ (i : ℤ) < n) : Works d (.read (.forTest n i)) (.read (.took n i)) d
  | closeWrite : Works d (.close (.mark true)) (.close (.marked true)) { d with WriteOpen := false }
  | closeRead : Works d (.close (.mark false)) (.close (.marked false)) { d with ReadOpen := false }

theorem works_of_next {k k' : Point} {b : Bool} {d d' : Pipe} (he : next k b d = .work k' d') :
    Works d k k' d' := by
  rcases k with k | k | k
  · cases k with
    | forTest addr n i =>
      simp only [next,pipewrite] at he
      split at he <;> cases he
      · exact .writeMore ‹_›
      · exact .writeEnd ‹_›
    | whileTest addr n i =>
      simp only [next,pipewrite] at he
      split at he
      · split at he
        · cases he
        · rename_i hf ho
          cases he
          exact .full hf (by simpa using fun h => ho (.inl h))
      · cases he
        exact .store ‹_›
    | _ => simp [next,pipewrite] at he
  · cases k with
    | whileTest n =>
      simp only [next,piperead] at he
      split at he
      · split at he <;> cases he
      · cases he
        exact .readStart ‹_›
    | forTest n i =>
      simp only [next,piperead] at he
      split at he
      · split at he <;> cases he
        · exact .dry ‹_› ‹_›
        · exact .deliver ‹_› ‹_›
      · cases he
        exact .readEnd ‹_›
    | _ => simp [next,piperead] at he
  · cases k with
    | mark w =>
      simp only [next,pipeclose] at he
      cases w <;> cases he
      · exact .closeRead
      · exact .closeWrite
    | _ => simp [next,pipeclose] at he

inductive Wakes : Point → Channel → Point → Prop
  | full {addr : ℕ → UInt8} {n : ℤ} {i : ℕ} : Wakes (.write (.full addr n i)) .ReadCount (.write (.fullSleep addr n i))
  | wrote {n : ℤ} : Wakes (.write (.wrote n)) .ReadCount (.write (.leave n))
  | took {n : ℤ} {i : ℕ} : Wakes (.read (.took n i)) .WriteCount (.read (.leave n i))
  | closed {w : Bool} : Wakes (.close (.marked w)) (if w = true then .ReadCount else .WriteCount) (.close .leave)

theorem wakes_of_next {k k' : Point} {b : Bool} {d : Pipe} {c : Channel} (he : next k b d = .wakeup c k') :
    Wakes k c k' := by
  rcases k with k | k | k
  · cases k with
    | full => simp only [next,pipewrite] at he; cases he; exact .full
    | wrote => simp only [next,pipewrite] at he; cases he; exact .wrote
    | _ => simp only [next,pipewrite] at he; repeat' split at he
           all_goals cases he
  · cases k with
    | took => simp only [next,piperead] at he; cases he; exact .took
    | _ => simp only [next,piperead] at he; repeat' split at he
           all_goals cases he
  · cases k with
    | marked w => simp only [next,pipeclose] at he; cases he; exact .closed
    | _ => simp only [next,pipeclose] at he; cases he

inductive Sleeps (d : Pipe) : Point → Channel → Point → Prop
  | full {addr : ℕ → UInt8} {n : ℤ} {i : ℕ} : Sleeps d (.write (.fullSleep addr n i)) .WriteCount (.write (.whileTest addr n i))
  | empty {n : ℤ} (hc : d.ReadCount = d.WriteCount) (ho : d.WriteOpen = true) :
      Sleeps d (.read (.whileTest n)) .ReadCount (.read (.whileTest n))

theorem sleeps_of_next {k k' : Point} {b : Bool} {d : Pipe} {c : Channel} (he : next k b d = .sleep c k') :
    Sleeps d k c k' := by
  rcases k with k | k | k
  · cases k with
    | fullSleep => simp only [next,pipewrite] at he; cases he; exact .full
    | _ => simp only [next,pipewrite] at he; repeat' split at he
           all_goals cases he
  · cases k with
    | whileTest n =>
      simp only [next,piperead] at he
      split at he
      · rename_i hw
        split at he <;> cases he
        exact .empty hw.1 hw.2
      · cases he
    | _ => simp only [next,piperead] at he; repeat' split at he
           all_goals cases he
  · cases k <;> simp only [next,pipeclose] at he <;> cases he

end UoDOS.Pipes
