import UoDOS.Memory.PageRuns
import UoDOS.Kernel.FileReferences

/-! # The first process

Booting ends with initialiseFirstUserProcess, on the zeroed tables of the kernel. With
enough free pages it returns, and so does the first fork.
-/
namespace UoDOS.Kernel
open ByteMemory Paging Processes FileSystem Strings ProcState References Results Function

variable {M : Mounted} {s s' : System} {p np : Fin NPROC} {f : Fin NFILE} {R : ℕ → Prop} {o : Owner}

structure Cold (s : System) : Prop where
  unused : ∀ p, (s.table p).State = UNUSED
  closed : ∀ p fd, (s.image p).OpenFile fd = none
  free : ∀ f, (s.files f).ReferenceCount = 0

def Booted (M : Mounted) (s : System) : Prop :=
  ∃ s₀ initcode_start initcode_end, Cold s₀ ∧
    initialiseFirstUserProcess M s₀ initcode_start initcode_end = .ok s

theorem Cold.clean (h : Cold s) (k : ℕ) : Clean k s := fun p fd _ => h.closed p fd

theorem Cold.accounts (h : Cold s) : Accounts s 0 := by
  intro f
  have hn : holders s.descriptors f = 0 := by
    apply holders_eq_zero
    rintro ⟨p,fd⟩
    simp [System.descriptors,h.unused]
  rw [hn]
  exact h.free f

theorem Booted.accounts (h : Booted M s) : Accounts s 0 ∧ Clean 0 s := by
  obtain ⟨s0,a,b,hcold,hd⟩ := h
  obtain ⟨p,c,s1,pt,m,m',hsp,-,rfl⟩ := first_ok hd
  have h1 := hcold.accounts.spawned (hcold.clean 0) (by omega) hsp
  constructor
  · refine h1.congr rfl (descriptors_congr (fun q => ?_) (setImage_openFile rfl))
    rcases eq_or_ne q p with rfl | hq
    · simp [hsp.embryo]
    · simp [hq]
  · intro q fd hz
    have hqp : q ≠ p := by
      rintro rfl
      simp at hz
    simp only [System.setImage,update_of_ne hqp]
    rw [hsp.image q hqp]
    exact hcold.closed q fd

theorem openConsole_returns (p : Fin NPROC) (hz : counts s.files f = 0) :
    ∃ s', openConsole s p = .ok s' := by
  obtain ⟨c,files,ha⟩ := allocateFileStructure_of_free hz
  obtain ⟨-,rfl⟩ := allocateFileStructure_some ha
  unfold openConsole
  rw [ha]
  simp [dupFile,fileDup,System.setOpenFile,System.setImage,bind,Except.bind]

structure Room (s : System) (o : Owner) : Prop where
  slot : ∃ q, (s.table q).State = UNUSED
  file : ∃ f, counts s.files f = 0
  frame : ∃ g, o g = .free

theorem Room.allocateProcess (hroom : Room s o) (h : Owns R s.memory o) (hR : Manageable M.image.toLayout R) :
    ∃ np s', allocateProcess s = .ok (some np,s') := by
  obtain ⟨q,hq⟩ := hroom.slot
  obtain ⟨f,hf⟩ := hroom.file
  obtain ⟨g,hg⟩ := hroom.frame
  have hslot : ∃ np t, allocateSlot s.table s.nextpid = some (np,t) := by
    cases ha : allocateSlot s.table s.nextpid with
    | some x => exact ⟨x.1,x.2,rfl⟩
    | none =>
      rw [allocateSlot,Option.map_eq_none_iff,List.find?_eq_none] at ha
      exact absurd hq (by simpa using ha q (List.mem_finRange q))
  obtain ⟨np,t,ht⟩ := hslot
  rcases h.allocate hR with ⟨-,hnone⟩ | ⟨k,m,hal,-⟩
  · exact absurd hg (hnone g)
  · unfold Kernel.allocateProcess
    rw [ht]
    simp only [hal,page_ne_zero,↓reduceIte]
    obtain ⟨s',hs'⟩ := openConsole_returns (f := f) (s := System.setImage
      { s with table := t, nextpid := s.nextpid + 1, memory := m } np
      { s.image np with KernelStack := page k }) np hf
    exact ⟨np,s',by rw [hs']; rfl⟩

theorem dupFile_returns (h : 0 < counts s.files f) : ∃ s', dupFile s f = .ok s' := by
  have hn : ¬ (s.files f).ReferenceCount < 1 := Nat.not_lt.mpr h
  simp [dupFile,fileDup,hn,bind,Except.bind]

theorem dup_all_returns (l : List (Fin NOFILE)) (hne : p ≠ np)
    (h : ∀ i g, (s.image p).OpenFile i = some g → 0 < counts s.files g) :
    ∃ s', l.foldlM (dupDescriptor p np) s = .ok s' := by
  induction l generalizing s with
  | nil => exact ⟨s,rfl⟩
  | cons i l ih =>
    rw [List.foldlM_cons]
    cases hi : (s.image p).OpenFile i with
    | none =>
      have hs : dupDescriptor p np s i = .ok s := by simp [dupDescriptor,hi]
      rw [hs]
      exact ih h
    | some g =>
      obtain ⟨u,hu⟩ := dupFile_returns (h i g hi)
      obtain ⟨files,rfl,hc⟩ := dupFile_ok hu
      have hs : dupDescriptor p np s i = .ok (System.setOpenFile { s with files := files } np i (some g)) := by
        simp [dupDescriptor,hi,hu,bind,Except.bind]
      rw [hs]
      apply ih
      intro j k hj
      simp only [System.setOpenFile,System.setImage,update_of_ne hne] at hj ⊢
      rw [hc]
      rcases eq_or_ne k g with rfl | hk
      · simp
      · rw [update_of_ne hk]
        exact h j k hj

theorem forkInto_returns (pt : ℕ) (hne : p ≠ np)
    (h : ∀ i g, (s.image p).OpenFile i = some g → 0 < counts s.files g) :
    ∃ s', forkInto s p np pt = .ok s' := by
  unfold forkInto
  refine bind_returns (dup_all_returns _ hne (fun i g hi => h i g ?_)) (fun _ => ⟨_,rfl⟩)
  simpa [System.setImage,hne] using hi

structure HasPages (s : System) (o : Owner) (p : Fin NPROC) (d : ℕ) : Prop where
  directory : o d = .directory
  pageTable : (s.image p).PageTable = page d
  below : (s.image p).MemorySize < KERNBASE
  maps : ∀ k, Maps o d k ↔ 4096 * k < (s.image p).MemorySize

theorem boot_returns {a b : ℕ} (hcold : Cold s) (h : Owns R s.memory o) (hR : Manageable M.image.toLayout R)
    (hplenty : ¬ Scarce 1028 o) (hab : (b + (2^32 - a)) % 2^32 < PGSIZE) :
    ∃ s' p o' d, initialiseFirstUserProcess M s a b = .ok s' ∧ s'.Ready p ∧ Owns R s'.memory o' ∧
      HasPages s' o' p d ∧ (s'.image p).MemorySize = PGSIZE ∧ (∃ q, (s'.table q).State = UNUSED) ∧
      (∃ f, counts s'.files f = 0) ∧ (∀ fd : Fin NOFILE, (s'.image p).OpenFile fd ≠ none ↔ fd.val < 3) ∧
      ∀ k, Scarce k o' → Scarce (k + 1027) o := by
  have hfree : ∃ g, o g = .free := by
    by_contra hn
    exact hplenty (scarce_of_none _ (fun g hg => hn ⟨g,hg⟩))
  obtain ⟨p,s1,hs1⟩ := Room.allocateProcess ⟨⟨initproc,hcold.unused _⟩,⟨⟨0,by decide⟩,hcold.free _⟩,hfree⟩ h hR
  obtain ⟨c,hsp⟩ := allocateProcess_some hs1
  rcases h.allocate hR with ⟨-,hnone⟩ | ⟨g,m1,hal,hg,h1,-⟩
  · exact absurd hfree (fun ⟨g,hg⟩ => hnone g hg)
  have hm1 : s1.memory = m1 := by rw [hsp.memory,hal]
  rcases h1.setup hR with ⟨m2,-,-,hsc⟩ | ⟨d,m2,o2,hset,hdf,h2,hgr⟩
  · exact absurd (hsc.take.mono (by norm_num)) hplenty
  have hd2 : o2 d = .directory := (hgr.iff (by simp) (by simp)).mpr (by simp)
  have hempty := h1.new_empty hdf hgr
  have hsc2 : ∀ k, Scarce k o2 → Scarce (k + 1026) o := by
    intro k hk
    have hsc := h2.scarce hgr.within hk (h2.users_below (n := 0) (fun k hk => absurd hk (hempty k)))
    exact hsc.take.mono (by omega)
  rcases h2.initialise_user a hR hd2 (hempty 0) hab with ⟨-,hnone⟩ | ⟨m3,o3,hinit,h3,hres⟩
  · exact absurd ((hsc2 0 (scarce_of_none 0 hnone)).mono (by norm_num)) hplenty
  rcases hres with ⟨hw,hmaps⟩ | ⟨f,-,rfl,hnone⟩
  swap
  · exact absurd ((hsc2 1 (scarce_of_none 0 hnone).take).mono (by norm_num)) hplenty
  have hmaps3 : ∀ k, Maps o3 d k ↔ k = 0 := fun k => by simp [hmaps,hempty k]
  have hfirst : initialiseFirstUserProcess M s a b = .ok { System.setImage { s1 with memory := m3 } p
      { s1.image p with
        PageTable := page d
        MemorySize := PGSIZE
        Trapframe := firstTrapframe
        Name := safestrcpy (s1.image p).Name initcodeName.bytes 16
        Cwd := rootDirectory } with
      table := update s1.table p { s1.table p with State := RUNNABLE } } := by
    unfold initialiseFirstUserProcess
    rw [hs1]
    simp only [bind,Except.bind,hm1,hset,page_ne_zero,↓reduceIte,hinit]
    rfl
  refine ⟨_,p,o3,d,hfirst,?_,h3,⟨(hw.iff (by simp [Movable])).mpr hd2,?_,?_,?_⟩,?_,?_,?_,?_,?_⟩
  · left
    simp
  · simp [System.setImage]
  · simp [System.setImage,PGSIZE,KERNBASE]
  · intro k
    rw [hmaps3]
    simp only [System.setImage,update_self,PGSIZE]
    omega
  · simp [System.setImage]
  · obtain ⟨q,hq⟩ : ∃ q : Fin NPROC, q ≠ p := by
      rcases eq_or_ne p initproc with rfl | hp0
      · exact ⟨⟨1,by decide⟩,by decide⟩
      · exact ⟨initproc,hp0.symm⟩
    refine ⟨q,?_⟩
    simp only [update_of_ne hq]
    rw [hsp.table q hq]
    exact hcold.unused q
  · obtain ⟨f,hf⟩ : ∃ f : Fin NFILE, f ≠ c := by
      rcases eq_or_ne c ⟨0,by decide⟩ with rfl | hc0
      · exact ⟨⟨1,by decide⟩,by decide⟩
      · exact ⟨⟨0,by decide⟩,hc0.symm⟩
    refine ⟨f,?_⟩
    change counts s1.files f = 0
    rw [hsp.counts,update_of_ne hf]
    exact hcold.free f
  · intro fd
    simp only [System.setImage,update_self]
    constructor
    · intro hopen
      by_contra hge
      exact hopen (hsp.closed (hcold.clean 0) (by omega) (by omega))
    · intro hfd
      simp [hsp.names fd hfd]
  · intro k hk
    have hsc := h3.scarce (hgr.within.trans hw) hk (h3.users_below (n := 1) (fun k hk => by
      rw [hmaps3] at hk
      omega))
    exact hsc.take.mono (by omega)

theorem fork_returns {d : ℕ} (h : Accounts s 0) (hclean : Clean 0 s) (hr : s.Ready p) (ho : Owns R s.memory o)
    (hR : Manageable M.image.toLayout R) (hp : HasPages s o p d)
    (hslot : ∃ q, (s.table q).State = UNUSED) (hfile : ∃ f, counts s.files f = 0)
    (hplenty : ¬ Scarce (1027 + ((s.image p).MemorySize + 4095) / 4096) o) :
    ∃ pid s', fork M s p = .ok (some pid,s') := by
  have hfree : ∃ g, o g = .free := by
    by_contra hn
    exact hplenty (scarce_of_none _ (fun g hg => hn ⟨g,hg⟩))
  obtain ⟨np,s1,hs1⟩ := Room.allocateProcess ⟨hslot,hfile,hfree⟩ ho hR
  obtain ⟨c,hsp⟩ := allocateProcess_some hs1
  have h1 := h.spawned hclean (by omega) hsp
  have hne := hsp.ne hr.used
  rcases ho.allocate hR with ⟨-,hnone⟩ | ⟨g,m1,hal,hg,ho1,-⟩
  · exact absurd hfree (fun ⟨g,hg⟩ => hnone g hg)
  have hm1 : s1.memory = m1 := by rw [hsp.memory,hal]
  have hdg : d ≠ g := by
    rintro rfl
    simp [hp.directory] at hg
  have hd1 : update o g .held d = .directory := by simp [hdg,hp.directory]
  have hmaps : ∀ k, 4096 * k < (s.image p).MemorySize → Maps (update o g .held) d k := by
    intro k hk
    obtain ⟨f,hf⟩ := (hp.maps k).mpr hk
    refine ⟨f,?_⟩
    have hfg : f ≠ g := by
      rintro rfl
      rw [hg] at hf
      cases hf
    rw [update_of_ne hfg,hf]
  obtain ⟨r,m2,hcp⟩ := ho1.copy_returns hR hd1 hp.below.le hmaps
  rcases ho1.copy hR hd1 hp.below.le hcp with ⟨c,o2,rfl,-⟩ | ⟨-,-,hsc⟩
  swap
  · exact absurd (hsc.take.mono (by omega)) hplenty
  have hpos : ∀ i f, (s.image p).OpenFile i = some f → 0 < counts s1.files f := by
    intro i f hf
    refine Balanced.named h1 (h := (p,i)) ?_
    simp [System.descriptors,hsp.table p hne,hr.used,hsp.image p hne,hf]
  obtain ⟨s3,hs3⟩ := forkInto_returns (page c) (s := { s1 with memory := m2 }) hne
    (fun i f hf => hpos i f (by simpa [hsp.image p hne] using hf))
  unfold fork
  rw [hs1]
  simp only [bind,Except.bind,hsp.image p hne,hm1,hp.pageTable,hcp,page_ne_zero,↓reduceIte,hs3]
  exact ⟨_,_,rfl⟩

theorem fork_orphans_console {pid : UInt32} (h : Accounts s 0) (hclean : Clean 0 s) (hr : s.Ready p)
    (hopen : ∀ fd : Fin NOFILE, fd.val < 3 → (s.image p).OpenFile fd ≠ none)
    (hd : fork M s p = .ok (some pid,s')) :
    ∃ c, (s'.files c).ReferenceCount = 3 ∧ ∀ k, s'.descriptors k ≠ some c := by
  cases fork_ends hd with | forked hsp hcp hpt hi =>
  rename_i np c s1 pt m
  have hne := hsp.ne hr.used
  obtain ⟨-,hcop⟩ := forkInto_ok hne hi
  -- no descriptor of the old state names the new console File
  have hold : ∀ q fd, (s.table q).State ≠ UNUSED → (s.image q).OpenFile fd ≠ some c := by
    intro q fd hq hn
    have hpos := Balanced.named h (h := (q,fd)) (f := c) (by simp [System.descriptors,hq,hn])
    rw [hsp.free] at hpos
    omega
  refine ⟨c,?_,?_⟩
  · change counts s'.files c = 3
    have hzero : slotsNaming (s1.image p) c = 0 := by
      rw [hsp.image p hne]
      exact List.countP_eq_zero.mpr (fun i _ => by simpa using hold p i hr.used)
    rw [hcop.counts,hzero,hsp.counts,update_self]
  · rintro ⟨q,fd⟩
    rcases eq_or_ne q np with rfl | hqn
    · rw [System.descriptors,if_neg (by simp [hcop.runnable]),hcop.openFile,hsp.image p hne]
      cases hfd : (s.image p).OpenFile fd with
      | some g =>
        rw [Option.some_or,← hfd]
        exact hold p fd hr.used
      | none =>
        have h3 : 3 ≤ fd.val := by
          by_contra hlt
          exact hopen fd (by omega) hfd
        rw [hsp.closed hclean (by omega) h3]
        simp
    · rw [System.descriptors,hcop.table q hqn,hcop.image q hqn,hsp.table q hqn,hsp.image q hqn]
      split_ifs with hu
      · simp
      · exact hold q fd hu

end UoDOS.Kernel
