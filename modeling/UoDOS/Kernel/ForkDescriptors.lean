import UoDOS.Kernel.FilePanics

/-! # What a child inherits

The slot of a new process is recycled, allocateProcess opens the console as its first three
descriptors, and fork then overwrites the descriptors that the parent has open.
-/
namespace UoDOS.Kernel
open ByteMemory Paging Processes FileSystem Strings ProcState References Results Transition Function

/-- What the calls that concern neither processes nor descriptors may change: exec, sbrk,
chdir and kill, and the scheduler. A File that exec opens is closed again. -/
structure Aside (s s' : System) : Prop where
  unused : ∀ q, (s'.table q).State = UNUSED ↔ (s.table q).State = UNUSED
  zombie : ∀ q, (s'.table q).State = ZOMBIE ↔ (s.table q).State = ZOMBIE
  openFile : ∀ q, (s'.image q).OpenFile = (s.image q).OpenFile
  counts : counts s'.files = counts s.files
  types : ∀ f, FileSystem.counts s.files f ≠ 0 → (s'.files f).type = (s.files f).type

inductive Activity
  | request (l : Fin NPROC × Request)
  | other (s' : System)

def act (M : Mounted) (s : System) (a : Activity) (s' : System) : Prop :=
  match a with
  | .request l => request M s l = some s'
  | .other u => s' = u ∧ Aside s u

def SameString (n : ℕ) (a b : Bytes) : Prop :=
  ∃ k < n, a k = 0 ∧ b k = 0 ∧ ∀ i < k, b i ≠ 0 ∧ a i = b i

structure Inherits (s s' : System) (p np : Fin NPROC) : Prop where
  openFile : ∀ i, (s'.image np).OpenFile i = (s.image p).OpenFile i
  cwd : SameString MAXCWDSIZE (s'.image np).Cwd.bytes (s.image p).Cwd.bytes
  name : SameString 16 (s'.image np).Name (s.image p).Name
  memorySize : (s'.image np).MemorySize = (s.image p).MemorySize
  counts : ∀ f, counts s.files f ≠ 0 → counts s'.files f = counts s.files f + slotsNaming (s.image p) f

/-- The process has its standard descriptors open, and its two strings end within their
arrays. -/
def Standard (s : System) (p : Fin NPROC) : Prop :=
  (∀ fd : Fin NOFILE, fd.val < 3 → (s.image p).OpenFile fd ≠ none) ∧
    (∃ k < MAXCWDSIZE, (s.image p).Cwd.bytes k = 0) ∧ ∃ k < 16, (s.image p).Name k = 0

variable {M : Mounted} {s s' s₀ : System} {p np : Fin NPROC} {c : Fin NFILE} {as : List Activity}

theorem Sound.aside (h : Sound s) (ha : Aside s s') : Sound s' := by
  obtain ⟨⟨lost,hacc⟩,hclean,htyped⟩ := h
  refine ⟨⟨lost,hacc.congr ha.counts (descriptors_congr ha.unused ha.openFile)⟩,?_,?_⟩
  · intro q fd hq
    rw [ha.zombie,ha.unused] at hq
    rw [ha.openFile]
    exact hclean q fd hq
  · intro f hf hc
    rw [ha.counts] at hc
    rw [ha.types f hc]
    exact htyped f hf hc

theorem Sound.act {a : Activity} (h : Sound s) (ha : act M s a s') : Sound s' := by
  cases a with
  | request l => exact h.request ha
  | other u =>
    obtain ⟨rfl,hu⟩ := ha
    exact h.aside hu

theorem Booted.sound_run (hb : Booted M s₀) (hr : Runs (act M) s₀ as s) : Sound s :=
  hr.invariant (I := Sound) hb.sound (fun _ _ _ h ha => h.act ha)

theorem sameString_safestrcpy (a : Bytes) {b : Bytes} {n : ℕ} (h : ∃ k < n, b k = 0) :
    SameString n (safestrcpy a b n) b := by
  have hex : ∃ k, b k = 0 := by
    obtain ⟨k,-,hk⟩ := h
    exact ⟨k,hk⟩
  have hlt : Nat.find hex < n := by
    obtain ⟨k,hkn,hk⟩ := h
    exact lt_of_le_of_lt (Nat.find_min' hex hk) hkn
  have hne : ∀ j < Nat.find hex, b j ≠ 0 := fun j hj => Nat.find_min hex hj
  refine ⟨Nat.find hex,hlt,?_,Nat.find_spec hex,fun i hi => ⟨hne i hi,?_⟩⟩
  · exact safestrcpy_end hne (by omega) (.inl (Nat.find_spec hex))
  · exact safestrcpy_text hne (by omega) hi

structure Forked (p np : Fin NPROC) (c : Fin NFILE) (s s' : System) : Prop where
  unused : (s.table np).State = UNUSED
  runnable : (s'.table np).State = RUNNABLE
  free : counts s.files c = 0
  openFile : ∀ fd, (s'.image np).OpenFile fd = ((s.image p).OpenFile fd).or
    (if fd.val < 3 then some c else (s.image np).OpenFile fd)
  cwd : ∃ b, (s'.image np).Cwd.bytes = safestrcpy b (s.image p).Cwd.bytes MAXCWDSIZE
  name : ∃ b, (s'.image np).Name = safestrcpy b (s.image p).Name 16
  memorySize : (s'.image np).MemorySize = (s.image p).MemorySize
  counts : ∀ f, counts s'.files f =
    update (counts s.files) c 3 f + slotsNaming (s.image p) f

theorem fork_some {pid : UInt32} (hp : s.Ready p) (hd : fork M s p = .ok (some pid,s')) :
    ∃ np c, Forked p np c s s' ∧ (s'.table np).ProcessId = pid := by
  cases fork_ends hd with | forked hsp hcp hpt hi =>
  rename_i np c s1 pt m
  have hne := hsp.ne hp.used
  obtain ⟨-,hcop⟩ := forkInto_ok hne hi
  have him := hsp.image p hne
  refine ⟨np,c,⟨hsp.unused,hcop.runnable,hsp.free,fun fd => ?_,him ▸ hcop.cwd,him ▸ hcop.name,
    him ▸ hcop.memorySize,fun f => ?_⟩,rfl⟩
  · rw [hcop.openFile,him]
    split_ifs with hfd
    · rw [hsp.names fd hfd]
    · rw [hsp.rest fd (by omega)]
  · rw [hcop.counts,hsp.counts,him]

theorem Forked.inherits_iff (h : Forked p np c s s') (hclean : Clean 3 s) :
    Inherits s s' p np ↔ Standard s p := by
  constructor
  · intro hi
    refine ⟨fun fd hfd hn => ?_,?_,?_⟩
    · have ho := h.openFile fd
      rw [hi.openFile,hn,if_pos hfd] at ho
      cases ho
    · obtain ⟨k,hk,-,hz,-⟩ := hi.cwd
      exact ⟨k,hk,hz⟩
    · obtain ⟨k,hk,-,hz,-⟩ := hi.name
      exact ⟨k,hk,hz⟩
  · rintro ⟨hopen,hcwd,hname⟩
    constructor
    · intro fd
      rw [h.openFile]
      cases ho : (s.image p).OpenFile fd with
      | some f => rfl
      | none =>
        have hfd : ¬ fd.val < 3 := fun hlt => hopen fd hlt ho
        rw [if_neg hfd,hclean np fd (.inr ⟨h.unused,by omega⟩)]
        rfl
    · obtain ⟨b,hb⟩ := h.cwd
      rw [hb]
      exact sameString_safestrcpy b hcwd
    · obtain ⟨b,hb⟩ := h.name
      rw [hb]
      exact sameString_safestrcpy b hname
    · exact h.memorySize
    · intro f hf
      have hfc : f ≠ c := by
        rintro rfl
        exact hf h.free
      rw [h.counts,update_of_ne hfc]

/-- In every reachable state a successful fork copies the parent just if the parent has
its standard descriptors open. -/
theorem fork_inherits_iff {pid : UInt32} (hb : Booted M s₀) (hr : Runs (act M) s₀ as s) (hp : s.Ready p)
    (hd : fork M s p = .ok (some pid,s')) :
    ∃ np, (s.table np).State = UNUSED ∧ (s'.table np).State = RUNNABLE ∧
      (s'.table np).ProcessId = pid ∧ (Inherits s s' p np ↔ Standard s p) := by
  obtain ⟨np,c,hf,hpid⟩ := fork_some hp hd
  exact ⟨np,hf.unused,hf.runnable,hpid,hf.inherits_iff (hb.sound_run hr).clean⟩

theorem fork_inherits_iff_first : ∃ s s' p pid, Booted smallMounted s ∧ s.Ready p ∧
    fork smallMounted s p = .ok (some pid,s') ∧ ∃ np, (s.table np).State = UNUSED ∧
      (s'.table np).ProcessId = pid ∧ (Inherits s s' p np ↔ Standard s p) := by
  obtain ⟨s,p,R,o,d,hb,hr,hR,ho,hp,hsize,hslot,hfile,hopen,hplenty⟩ := booted_system smallMounted.disk
  obtain ⟨h,hclean⟩ := hb.accounts
  obtain ⟨pid,t,ht⟩ := fork_returns h hclean hr ho hR hp hslot hfile
    (fun hsc => hplenty (hsc.mono (by rw [hsize]; norm_num [PGSIZE])))
  obtain ⟨np,hu,-,hpid,hiff⟩ := fork_inherits_iff hb (Runs.refl s) hr ht
  exact ⟨s,t,p,pid,hb,hr,ht,np,hu,hpid,hiff⟩

theorem Booted.console (h : Booted M s) (hp : s.Ready p) :
    ∃ c, (s.files c).type = .FD_DEVICE ∧ ∀ fd : Fin NOFILE, fd.val < 3 → (s.image p).OpenFile fd = some c := by
  obtain ⟨s₀,a,b,hcold,hd⟩ := h
  obtain ⟨q,c,s1,pt,m,m',hsp,-,rfl⟩ := first_ok hd
  have hpq : p = q := by
    by_contra hne
    apply hp.used
    simp only [update_of_ne hne]
    rw [hsp.table p hne]
    exact hcold.unused p
  subst hpq
  refine ⟨c,hsp.device,fun fd hfd => ?_⟩
  simp only [System.setImage,update_self]
  exact hsp.names fd hfd

theorem closeFile_device {f : Fin NFILE} (ht : (s.files f).type = .FD_DEVICE)
    (hc : counts s.files f ≠ 0) : ∃ files, closeFile M s f = .ok { s with files := files } := by
  have hn : ¬ (s.files f).ReferenceCount < 1 := by
    simp only [FileSystem.counts] at hc
    omega
  unfold closeFile fileClose
  rw [if_neg hn]
  split_ifs
  · exact ⟨_,rfl⟩
  · refine ⟨update s.files f { s.files f with ReferenceCount := 0, type := .FD_NONE },?_⟩
    simp [bind,Except.bind,ht]

/-- The first process closes its descriptor 0 and forks: the child has the console there. -/
theorem closed_descriptor_reopened : ∃ s₀ s s' p np pid c, Booted smallMounted s₀ ∧
    Runs (act smallMounted) s₀ [.request (p,.file (.sys_close 0))] s ∧ s.Ready p ∧
    fork smallMounted s p = .ok (some pid,s') ∧ (s.table np).State = UNUSED ∧
    (s'.table np).State = RUNNABLE ∧ (s'.table np).ProcessId = pid ∧
    (s.image p).OpenFile ⟨0,by decide⟩ = none ∧ (s'.image np).OpenFile ⟨0,by decide⟩ = some c ∧
    ¬ Inherits s s' p np := by
  obtain ⟨s₀,p,R,o,d,hb,hr,hR,ho,hp,hsize,⟨q,hslot⟩,⟨f,hfile⟩,hopen,hplenty⟩ :=
    booted_system smallMounted.disk
  obtain ⟨h,hclean⟩ := hb.accounts
  obtain ⟨c,hdev,hcon⟩ := hb.console hr
  have hzero : (s₀.image p).OpenFile ⟨0,by decide⟩ = some c := hcon _ (by decide)
  have hc : counts s₀.files c ≠ 0 := by
    have hpos := Balanced.named h (h := (p,⟨0,by decide⟩)) (f := c)
      (by simp [System.descriptors,hr.used,hzero])
    omega
  obtain ⟨files,hclose⟩ := closeFile_device (M := smallMounted)
    (s := s₀.setOpenFile p ⟨0,by decide⟩ none) hdev hc
  have hsys : sys_close smallMounted s₀ p 0 = .ok
      { s₀.setOpenFile p ⟨0,by decide⟩ none with files := files } := by
    have harg : argfd s₀ p 0 = some (⟨0,by decide⟩,c) := by
      rw [argfd,dif_pos (by decide)]
      change ((s₀.image p).OpenFile ⟨0,by decide⟩).map _ = _
      rw [hzero]
      rfl
    rw [sys_close,harg]
    exact hclose
  obtain ⟨h₁,hf₁⟩ := h.sys_close hr hsys
  have hclean₁ := hf₁.clean hr hclean
  generalize hs : ({ s₀.setOpenFile p ⟨0,by decide⟩ none with files := files } : System) = s at *
  have htable : s.table = s₀.table := by rw [← hs]; rfl
  have hr₁ : s.Ready p := by rwa [System.Ready,htable]
  have hp₁ : HasPages s o p d := by
    subst hs
    refine ⟨hp.directory,?_,?_,?_⟩
    · simpa [System.setOpenFile,System.setImage] using hp.pageTable
    · simpa [System.setOpenFile,System.setImage] using hp.below
    · simpa [System.setOpenFile,System.setImage] using hp.maps
  have ho₁ : Owns R s.memory o := by rw [← hs]; exact ho
  have hsize₁ : (s.image p).MemorySize = PGSIZE := by
    rw [← hs]
    simpa [System.setOpenFile,System.setImage] using hsize
  have hnone : (s.image p).OpenFile ⟨0,by decide⟩ = none := by
    rw [← hs]
    simp [System.setOpenFile,System.setImage]
  have hfree : ∃ f, counts s.files f = 0 := by
    have hfc : f ≠ c := by
      rintro rfl
      exact hc hfile
    refine ⟨f,?_⟩
    rw [(closeFile_ok hclose).1,update_of_ne hfc]
    exact hfile
  obtain ⟨pid,t,ht⟩ := fork_returns h₁ hclean₁ hr₁ ho₁ hR hp₁ ⟨q,by rw [htable]; exact hslot⟩ hfree
    (fun hsc => hplenty (hsc.mono (by rw [hsize₁]; norm_num [PGSIZE])))
  obtain ⟨np,c',hf,hpid⟩ := fork_some hr₁ ht
  have hchild : (t.image np).OpenFile ⟨0,by decide⟩ = some c' := by
    rw [hf.openFile,hnone]
    rfl
  refine ⟨s₀,s,t,p,np,pid,c',hb,Runs.one ?_,hr₁,ht,hf.unused,hf.runnable,hpid,hnone,hchild,?_⟩
  · change request smallMounted s₀ (p,.file (.sys_close 0)) = some s
    simp [request,hr,fileCall,hsys,Except.toOption]
  · intro hi
    have he := hi.openFile ⟨0,by decide⟩
    rw [hchild,hnone] at he
    cases he

end UoDOS.Kernel
