import UoDOS.Kernel.FileAccounts

/-! # What the calls on processes do

One result for each function that makes, copies or removes a process: what it has done once it
returns. The invariants of runs of the kernel rest on these.
-/
namespace UoDOS.Kernel
open ByteMemory Paging Processes FileSystem Strings ProcState References Results Function

variable {M : Mounted} {s s' s'' : System} {p np : Fin NPROC} {f c : Fin NFILE}

structure Image.SameSpace (x y : Image) : Prop where
  MemorySize : y.MemorySize = x.MemorySize
  PageTable : y.PageTable = x.PageTable
  KernelStack : y.KernelStack = x.KernelStack

def SameSpaces (s s' : System) : Prop := ∀ q, (s.image q).SameSpace (s'.image q)

theorem SameSpaces.of_image (h : s'.image = s.image) : SameSpaces s s' := by
  intro q
  rw [h]
  exact ⟨rfl,rfl,rfl⟩

theorem SameSpaces.trans (h : SameSpaces s s') (h' : SameSpaces s' s'') : SameSpaces s s'' := by
  intro q
  exact ⟨(h' q).MemorySize.trans (h q).MemorySize,(h' q).PageTable.trans (h q).PageTable,
    (h' q).KernelStack.trans (h q).KernelStack⟩

theorem SameSpaces.setImage {x : Image} (hx : (s.image p).SameSpace x) : SameSpaces s (s.setImage p x) := by
  intro q
  rcases eq_or_ne q p with rfl | hq
  · simpa [System.setImage] using hx
  · simp only [System.setImage,update_of_ne hq]
    exact ⟨rfl,rfl,rfl⟩

/-- What opening the console does: a free File gets three references, for the first
three descriptors of the process. -/
structure ConsoleOpened (p : Fin NPROC) (s s' : System) (c : Fin NFILE) : Prop where
  free : counts s.files c = 0
  counts : counts s'.files = update (counts s.files) c 3
  device : (s'.files c).type = .FD_DEVICE
  others : ∀ f ≠ c, s'.files f = s.files f
  table : s'.table = s.table
  memory : s'.memory = s.memory
  image : ∀ q ≠ p, s'.image q = s.image q
  space : (s.image p).SameSpace (s'.image p)
  names : ∀ fd : Fin NOFILE, fd.val < 3 → (s'.image p).OpenFile fd = some c
  rest : ∀ fd : Fin NOFILE, 3 ≤ fd.val → (s'.image p).OpenFile fd = (s.image p).OpenFile fd

theorem openConsole_ok (hd : openConsole s p = .ok s') : ∃ c, ConsoleOpened p s s' c := by
  unfold openConsole at hd
  split at hd
  · cases hd
  · rename_i c files ha
    obtain ⟨hz,rfl⟩ := allocateFileStructure_some ha
    rw [bind_eq_ok] at hd
    obtain ⟨s1,hs1,hd⟩ := hd
    rw [bind_eq_ok] at hd
    obtain ⟨s2,hs2,hd⟩ := hd
    cases hd
    have hdup : ∀ {u u' : System}, dupFile u c = .ok u' → u' = { u with
        files := update u.files c { u.files c with
          ReferenceCount := (u.files c).ReferenceCount + 1 } } := by
      intro u u' hu
      unfold dupFile at hu
      rw [bind_eq_ok] at hu
      obtain ⟨files,hf,hu⟩ := hu
      cases hu
      rw [fileDup_ok hf]
    obtain rfl := hdup hs1
    obtain rfl := hdup hs2
    refine ⟨c,hz,?_,?_,?_,rfl,rfl,?_,?_,?_,?_⟩
    · funext g
      rcases eq_or_ne g c with rfl | hg
      · simp [FileSystem.counts,System.setOpenFile,System.setImage]
      · simp [FileSystem.counts,System.setOpenFile,System.setImage,hg]
    · simp [System.setOpenFile,System.setImage]
    · intro f hf
      simp [System.setOpenFile,System.setImage,hf]
    · intro q hq
      simp [System.setOpenFile,System.setImage,hq]
    · constructor <;> simp [System.setOpenFile,System.setImage]
    · intro fd hfd
      obtain ⟨k,hk⟩ := fd
      have hcases : k = 0 ∨ k = 1 ∨ k = 2 := by
        change k < 3 at hfd
        omega
      rcases hcases with rfl | rfl | rfl <;> simp [System.setOpenFile,System.setImage]
    · intro fd hfd
      have hne : ∀ (k : ℕ) (hk : k < NOFILE), k < 3 → fd ≠ ⟨k,hk⟩ := by
        rintro k hk hlt rfl
        exact absurd hfd (by simpa using hlt)
      simp [System.setOpenFile,System.setImage,hne]

/-- There is no slot for another process, or no page for its kernel stack. -/
def NoStack (s : System) : Prop := (∀ q, (s.table q).State ≠ UNUSED) ∨ s.memory.FreeList = 0

/-- allocateProcess has returned 0; only a slot that is still unused may have changed. -/
structure NotSpawned (s s' : System) : Prop where
  noStack : NoStack s
  files : s'.files = s.files
  memory : s'.memory = s.memory
  table : ∀ q, s'.table q = s.table q ∨ (s.table q).State = UNUSED ∧ (s'.table q).State = UNUSED
  image : ∀ q, ∃ k, s'.image q = { s.image q with KernelStack := k }
  used : ∀ q, (s.table q).State ≠ UNUSED → s'.image q = s.image q

theorem NotSpawned.unused (h : NotSpawned s s') (q : Fin NPROC) :
    (s'.table q).State = UNUSED ↔ (s.table q).State = UNUSED := by
  rcases h.table q with he | ⟨h0,h1⟩
  · rw [he]
  · simp [h0,h1]

theorem NotSpawned.openFile (h : NotSpawned s s') (q : Fin NPROC) :
    (s'.image q).OpenFile = (s.image q).OpenFile := by
  obtain ⟨k,hk⟩ := h.image q
  rw [hk]

structure Spawned (np : Fin NPROC) (c : Fin NFILE) (s s' : System) : Prop where
  unused : (s.table np).State = UNUSED
  freePage : s.memory.FreeList ≠ 0
  embryo : (s'.table np).State = EMBRYO
  table : ∀ q ≠ np, s'.table q = s.table q
  image : ∀ q ≠ np, s'.image q = s.image q
  memory : s'.memory = (allocatePhysicalMemoryPage s.memory).2
  memorySize : (s'.image np).MemorySize = (s.image np).MemorySize
  kernelStack : (s'.image np).KernelStack = (allocatePhysicalMemoryPage s.memory).1
  free : counts s.files c = 0
  counts : counts s'.files = update (counts s.files) c 3
  device : (s'.files c).type = .FD_DEVICE
  others : ∀ f ≠ c, s'.files f = s.files f
  names : ∀ fd : Fin NOFILE, fd.val < 3 → (s'.image np).OpenFile fd = some c
  rest : ∀ fd : Fin NOFILE, 3 ≤ fd.val → (s'.image np).OpenFile fd = (s.image np).OpenFile fd

theorem Spawned.closed {k : ℕ} (h : Spawned np c s s') (hclean : Clean k s) (hk : k ≤ 3) {fd : Fin NOFILE}
    (hfd : 3 ≤ fd.val) : (s'.image np).OpenFile fd = none := by
  rw [h.rest fd hfd]
  exact hclean np fd (.inr ⟨h.unused,by omega⟩)

theorem allocateProcess_ok {r : Option (Fin NPROC)} (hd : allocateProcess s = .ok (r,s')) :
    (r = none ∧ NotSpawned s s') ∨ ∃ np c, r = some np ∧ Spawned np c s s' := by
  have hzero : (allocatePhysicalMemoryPage s.memory).1 = 0 ↔ s.memory.FreeList = 0 := by
    unfold allocatePhysicalMemoryPage
    split_ifs with hz <;> simp [hz]
  unfold allocateProcess at hd
  split at hd
  · rename_i ha
    cases hd
    refine .inl ⟨rfl,.inl ?_,rfl,rfl,fun _ => .inl rfl,fun _ => ⟨_,rfl⟩,fun _ _ => rfl⟩
    simpa [allocateSlot,List.find?_eq_none] using ha
  · rename_i np table ha
    obtain ⟨hu,rfl⟩ := allocateSlot_eq ha
    dsimp only at hd
    split at hd
    · rename_i hpage
      cases hd
      have hfree := hzero.mp hpage
      refine .inl ⟨rfl,.inr hfree,rfl,?_,fun q => ?_,fun q => ?_,fun q hq => ?_⟩
      · change (allocatePhysicalMemoryPage s.memory).2 = _
        simp [allocatePhysicalMemoryPage,hfree]
      · rcases eq_or_ne q np with rfl | hq
        · exact .inr ⟨hu,by simp⟩
        · exact .inl (by simp [System.setImage,hq])
      · rcases eq_or_ne q np with rfl | hq
        · exact ⟨_,update_self q _ _⟩
        · exact ⟨(s.image q).KernelStack,by simp [System.setImage,hq]⟩
      · have hne : q ≠ np := fun he => hq (he ▸ hu)
        simp [System.setImage,hne]
    · rename_i hpage
      rw [bind_eq_ok] at hd
      obtain ⟨s1,hs1,hd⟩ := hd
      cases hd
      obtain ⟨c,hc⟩ := openConsole_ok hs1
      refine .inr ⟨np,c,rfl,hu,fun hz => hpage (hzero.mpr hz),?_,fun q hq => ?_,fun q hq => ?_,hc.memory,?_,?_,
        hc.free,hc.counts,hc.device,hc.others,hc.names,fun fd hfd => ?_⟩
      · simp [hc.table,System.setImage]
      · simp [hc.table,System.setImage,hq]
      · rw [hc.image q hq]
        simp [System.setImage,hq]
      · rw [hc.space.MemorySize]
        simp [System.setImage]
      · rw [hc.space.KernelStack]
        simp [System.setImage]
      · rw [hc.rest fd hfd]
        simp [System.setImage]

theorem allocateProcess_some (hd : allocateProcess s = .ok (some np,s')) : ∃ c, Spawned np c s s' := by
  obtain ⟨⟨⟩,-⟩ | ⟨np',c,⟨⟩,h⟩ := allocateProcess_ok hd
  exact ⟨c,h⟩

def slotsNaming (x : Image) (f : Fin NFILE) : ℕ :=
  (List.finRange NOFILE).countP (fun i => x.OpenFile i = some f)

theorem dup_all_ok (hne : p ≠ np) (hd : (List.finRange NOFILE).foldlM (dupDescriptor p np) s = .ok s') :
    s'.memory = s.memory ∧ s'.table = s.table ∧ (∀ q ≠ np, s'.image q = s.image q) ∧
      s'.image np = { s.image np with
        OpenFile := fun i => ((s.image p).OpenFile i).or ((s.image np).OpenFile i) } ∧
      ∀ f, counts s'.files f = counts s.files f + slotsNaming (s.image p) f := by
  have hi := foldlM_invariant hd (I := fun done u => u.memory = s.memory ∧ u.table = s.table ∧
    (∀ q ≠ np, u.image q = s.image q) ∧ u.image np = { s.image np with
      OpenFile := fun i => if i ∈ done then ((s.image p).OpenFile i).or ((s.image np).OpenFile i)
        else (s.image np).OpenFile i } ∧
    ∀ f, counts u.files f = counts s.files f + done.countP (fun i => (s.image p).OpenFile i = some f))
    ⟨rfl,rfl,fun _ _ => rfl,by simp,by simp⟩ ?_
  · obtain ⟨hm,ht,hq,ho,hc⟩ := hi
    exact ⟨hm,ht,hq,by rw [ho]; simp [List.mem_finRange],hc⟩
  · rintro done i rest u v hl ⟨hm,ht,hq,ho,hc⟩ hs
    unfold dupDescriptor at hs
    rw [hq p hne] at hs
    cases hi : (s.image p).OpenFile i with
    | none =>
      rw [hi] at hs
      cases hs
      refine ⟨hm,ht,hq,?_,fun f => ?_⟩
      · rw [ho]
        dsimp only
        congr 1
        funext k
        rcases eq_or_ne k i with rfl | hk
        · simp [hi]
        · simp [hk]
      · simp [hc,hi]
    | some g =>
      rw [hi] at hs
      dsimp only at hs
      rw [bind_eq_ok] at hs
      obtain ⟨u1,hu1,hs⟩ := hs
      cases hs
      obtain ⟨files,rfl,hcf⟩ := dupFile_ok hu1
      refine ⟨hm,ht,fun q hqn => ?_,?_,fun f => ?_⟩
      · simp [System.setOpenFile,System.setImage,hqn,hq q hqn]
      · simp only [System.setOpenFile,System.setImage,update_self,ho]
        congr 1
        funext k
        rcases eq_or_ne k i with rfl | hk
        · simp [hi]
        · simp [hk]
      · change counts files f = _
        rw [hcf,List.countP_append]
        rcases eq_or_ne f g with rfl | hf
        · simp [hc,hi,Nat.add_assoc]
        · simp [hc,hi,hf,hf.symm]

structure Copied (p np : Fin NPROC) (pt : ℕ) (s s' : System) : Prop where
  table : ∀ q ≠ np, s'.table q = s.table q
  image : ∀ q ≠ np, s'.image q = s.image q
  runnable : (s'.table np).State = RUNNABLE
  pageTable : (s'.image np).PageTable = pt
  memorySize : (s'.image np).MemorySize = (s.image p).MemorySize
  kernelStack : (s'.image np).KernelStack = (s.image np).KernelStack
  openFile : ∀ i, (s'.image np).OpenFile i = ((s.image p).OpenFile i).or ((s.image np).OpenFile i)
  cwd : ∃ b, (s'.image np).Cwd.bytes = safestrcpy b (s.image p).Cwd.bytes MAXCWDSIZE
  name : ∃ b, (s'.image np).Name = safestrcpy b (s.image p).Name 16
  counts : ∀ f, counts s'.files f = counts s.files f + slotsNaming (s.image p) f

theorem forkInto_ok {pt : ℕ} {m : Memory} (hne : p ≠ np) (hd : forkInto { s with memory := m } p np pt = .ok s') :
    s'.memory = m ∧ Copied p np pt s s' := by
  unfold forkInto at hd
  rw [bind_eq_ok] at hd
  obtain ⟨s1,hs1,hd⟩ := hd
  cases hd
  obtain ⟨hm,ht,hq,ho,hc⟩ := dup_all_ok hne hs1
  have hp : s1.image p = s.image p := by
    rw [hq p hne]
    simp [System.setImage,hne]
  refine ⟨hm,?_⟩
  constructor
  · intro q hqn
    simp [System.setImage,ht,setParent,hqn]
  · intro q hqn
    simp [System.setImage,hqn,hq q hqn]
  · simp
  · simp [System.setImage,ho]
  · simp [System.setImage,ho]
  · simp [System.setImage,ho]
  · simp [System.setImage,ho,hne]
  · refine ⟨(s1.image np).Cwd.bytes,?_⟩
    simp only [System.setImage,update_self,hp]
    rfl
  · refine ⟨(s1.image np).Name,?_⟩
    simp only [System.setImage,update_self,hp]
  · intro f
    change FileSystem.counts s1.files f = _
    rw [hc]
    simp [System.setImage,hne]

/-- The three ways in which fork returns: without a slot or a kernel stack, without memory for
the child, with the child. -/
inductive ForkEnds (M : Mounted) (s : System) (p : Fin NPROC) : Option UInt32 → System → Prop
  | noStack {s' : System} (ha : NotSpawned s s') : ForkEnds M s p none s'
  | noMemory {np : Fin NPROC} {c : Fin NFILE} {s₁ : System} {m m' : Memory} (ha : Spawned np c s s₁)
      (hc : copyProcessPageTable M.image.toLayout s₁.memory (s₁.image p).PageTable (s₁.image p).MemorySize =
        .ok (0,m))
      (hf : freePhysicalMemoryPage M.image.toLayout m (s₁.image np).KernelStack = .ok m') :
      ForkEnds M s p none { System.setImage { s₁ with memory := m' } np
        { s₁.image np with PageTable := 0, KernelStack := 0 } with
        table := update s₁.table np { s₁.table np with State := UNUSED } }
  | forked {np : Fin NPROC} {c : Fin NFILE} {s₁ s' : System} {pt : ℕ} {m : Memory} (ha : Spawned np c s s₁)
      (hc : copyProcessPageTable M.image.toLayout s₁.memory (s₁.image p).PageTable (s₁.image p).MemorySize =
        .ok (pt,m)) (hpt : pt ≠ 0) (hi : forkInto { s₁ with memory := m } p np pt = .ok s') :
      ForkEnds M s p (some (s'.table np).ProcessId) s'

theorem fork_ends {r : Option UInt32} (hd : fork M s p = .ok (r,s')) : ForkEnds M s p r s' := by
  unfold fork at hd
  rw [bind_eq_ok] at hd
  obtain ⟨⟨x,s1⟩,hs1,hd⟩ := hd
  rcases allocateProcess_ok hs1 with ⟨rfl,ha⟩ | ⟨np,c,rfl,ha⟩
  · cases hd
    exact .noStack ha
  · dsimp only at hd
    rw [bind_eq_ok] at hd
    obtain ⟨⟨pt,m⟩,hc,hd⟩ := hd
    dsimp only at hd
    split at hd
    · rename_i hz
      rw [bind_eq_ok] at hd
      obtain ⟨m',hf,hd⟩ := hd
      cases hd
      cases hz
      exact .noMemory ha hc hf
    · rename_i hpt
      rw [bind_eq_ok] at hd
      obtain ⟨s2,hs2,hd⟩ := hd
      cases hd
      exact .forked ha hc hpt hs2

theorem Spawned.ne (h : Spawned np c s s') (hp : (s.table p).State ≠ UNUSED) : p ≠ np :=
  fun he => hp (he ▸ h.unused)

theorem wait_ok {r : Option UInt32} (hd : wait M s p = .ok (some (r,s'))) : s' = s ∨
    ∃ i m, (s.table i).State = ZOMBIE ∧ s' = System.setImage { s with
      memory := m
      table := update s.table i
        { s.table i with ProcessId := 0, Parent := none, IsKilled := false, State := UNUSED } } i
      { s.image i with KernelStack := 0, Name := update (s.image i).Name 0 0 } := by
  unfold wait at hd
  rcases waitSlot_cases p s.table with ⟨i,-,hz,hw⟩ | hw | ⟨-,hw⟩
  · rw [hw] at hd
    dsimp only at hd
    rw [bind_eq_ok] at hd
    obtain ⟨m,-,hd⟩ := hd
    rw [bind_eq_ok] at hd
    obtain ⟨m',-,hd⟩ := hd
    cases hd
    exact .inr ⟨i,m',hz,rfl⟩
  · rw [hw] at hd
    cases hd
    exact .inl rfl
  · rw [hw] at hd
    cases hd

theorem first_ok {a b : ℕ} (hd : initialiseFirstUserProcess M s a b = .ok s') :
    ∃ p c s1 pt m m', Spawned p c s s1 ∧ initialiseUserVirtualMemory m pt a ((b + (2^32 - a)) % 2^32) = .ok m' ∧
      s' = { System.setImage { s1 with memory := m' } p { s1.image p with
          PageTable := pt
          MemorySize := PGSIZE
          Trapframe := firstTrapframe
          Name := safestrcpy (s1.image p).Name initcodeName.bytes 16
          Cwd := rootDirectory } with
        table := update s1.table p { s1.table p with State := RUNNABLE } } := by
  unfold initialiseFirstUserProcess at hd
  rw [bind_eq_ok] at hd
  obtain ⟨⟨r,s1⟩,hs1,hd⟩ := hd
  rcases allocateProcess_ok hs1 with ⟨rfl,-⟩ | ⟨p,c,rfl,ha⟩
  · cases hd
  dsimp only at hd
  rw [bind_eq_ok] at hd
  obtain ⟨⟨pt,m⟩,-,hd⟩ := hd
  dsimp only at hd
  split at hd
  · cases hd
  · rw [bind_eq_ok] at hd
    obtain ⟨m',hm,hd⟩ := hd
    cases hd
    exact ⟨p,c,s1,pt,m,m',ha,hm,rfl⟩

end UoDOS.Kernel
