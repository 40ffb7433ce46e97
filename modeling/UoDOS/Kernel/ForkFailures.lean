import UoDOS.Kernel.ForkDescriptors

/-! # Forks that fail

allocateProcess undoes its own work if there is no page for the kernel stack. Whatever
runs out later, fork has opened the console for the child by then and does not close it.
-/
namespace UoDOS.Kernel
open ByteMemory Paging Processes FileSystem Strings ProcState References Results

def freePages (m : Memory) : Set ℕ :=
  {v | v ≠ 0 ∧ ∃ n, m.load^[n] m.FreeList = v ∧ ∀ k < n, m.load^[k] m.FreeList ≠ 0}

structure Undone (s s' : System) : Prop where
  pages : freePages s'.memory = freePages s.memory
  counts : counts s'.files = counts s.files
  slots : ∀ q, (s'.table q).State = UNUSED ↔ (s.table q).State = UNUSED

variable {M : Mounted} {s s' : System} {p np : Fin NPROC}

theorem allocateSlot_none {n : UInt32} :
    allocateSlot s.table n = none ↔ ∀ q, (s.table q).State ≠ UNUSED := by
  simp [allocateSlot,List.find?_eq_none]

theorem allocateProcess_noStack (h : NoStack s) : ∃ s', allocateProcess s = .ok (none,s') ∧ Undone s s' := by
  unfold allocateProcess
  cases ha : allocateSlot s.table s.nextpid with
  | none => exact ⟨s,rfl,rfl,rfl,fun _ => Iff.rfl⟩
  | some x =>
    obtain ⟨np,table⟩ := x
    obtain ⟨hu,rfl⟩ := allocateSlot_eq ha
    have hfree : s.memory.FreeList = 0 := by
      rcases h with h | h
      · exact absurd hu (h np)
      · exact h
    simp only [allocatePhysicalMemoryPage,hfree,↓reduceIte]
    refine ⟨_,rfl,rfl,rfl,fun q => ?_⟩
    rcases eq_or_ne q np with rfl | hq
    · simp [hu]
    · simp [System.setImage,hq]

/-- A fork returns -1 and leaves everything as it was just if it finds no slot or no
kernel stack; where anything else runs out it does not. -/
theorem failed_fork_undone_iff (M : Mounted) (s : System) (p : Fin NPROC) :
    (∃ s', fork M s p = .ok (none,s') ∧ Undone s s') ↔ NoStack s := by
  constructor
  · rintro ⟨s',hd,hu⟩
    cases fork_ends hd with
    | noStack ha => exact ha.noStack
    | noMemory ha hc hf =>
      rename_i np c s₁ m m'
      -- the console of the child stays open
      have h3 := congrFun ha.counts c
      rw [Function.update_self] at h3
      have h0 := congrFun hu.counts c
      rw [ha.free] at h0
      exact absurd (h3.symm.trans h0) (by norm_num)
  · intro h
    obtain ⟨s',ha,hu⟩ := allocateProcess_noStack h
    refine ⟨s',?_,hu⟩
    unfold fork
    rw [ha]
    rfl

def lastPage : System :=
  { coldSystem ⟨fun _ => 0,0x81000000⟩ with
    table := Function.update (fun _ => ⟨UNUSED,0,none,none,false⟩) initproc ⟨RUNNABLE,1,none,none,false⟩ }

def lastFile : System :=
  { lastPage with files := fun _ => ⟨.FD_DEVICE,1,true,true,0,⟨fun _ => 0⟩,false,0,0,0⟩ }

theorem consoleAfter_lt : 0 < NFILE := by decide

def consoleAfter (r : Except Stop (Option UInt32 × System)) : Option ℕ :=
  match r with
  | .ok (none,s') => some (counts s'.files ⟨0,consoleAfter_lt⟩)
  | _ => none

theorem consoleAfter_eq {r : Except Stop (Option UInt32 × System)} {n : ℕ} (h : consoleAfter r = some n) :
    ∃ s', r = .ok (none,s') ∧ counts s'.files ⟨0,by decide⟩ = n := by
  unfold consoleAfter at h
  split at h
  · rename_i s'
    exact ⟨s',rfl,Option.some.inj h⟩
  · cases h

/-- With one page left fork returns -1 and loses a File; with no File left it stops. -/
theorem failed_fork_loses_console : (∃ s', fork smallMounted lastPage initproc = .ok (none,s') ∧
      ¬ Undone lastPage s' ∧ counts lastPage.files ⟨0,by decide⟩ = 0 ∧ counts s'.files ⟨0,by decide⟩ = 3) ∧
    fork smallMounted lastFile initproc = .error .nullPointer := by
  constructor
  · obtain ⟨s',hs',h3⟩ : ∃ s', fork smallMounted lastPage initproc = .ok (none,s') ∧
        counts s'.files ⟨0,by decide⟩ = 3 := consoleAfter_eq (by decide +kernel)
    refine ⟨s',hs',fun hu => ?_,rfl,h3⟩
    rw [hu.counts] at h3
    cases h3
  · rfl

end UoDOS.Kernel
