import UoDOS.Kernel.FileTypes

/-! # Free files have no type

A File gets its type after it has been allocated, and loses it with its last reference. So in
every run a File that is free has no type, and nothing that its last user left there matters.
-/
namespace UoDOS.Kernel
open ByteMemory Paging Processes FileSystem Strings ProcState References Results Transition

def Idle (t : FileTable) : Prop := ∀ f, (t f).ReferenceCount = 0 → (t f).type = .FD_NONE

variable {M : Mounted} {s s' : System} {p np : Fin NPROC} {f : Fin NFILE} {t t' : FileTable}

section Tables

theorem Idle.update {x : File} (h : Idle t) (hx : x.ReferenceCount = 0 → x.type = .FD_NONE) :
    Idle (Function.update t f x) := by
  intro g hg
  rcases eq_or_ne g f with rfl | hne
  · rw [Function.update_self] at hg ⊢
    exact hx hg
  · rw [Function.update_of_ne hne] at hg ⊢
    exact h g hg

theorem Idle.update_used {x : File} (h : Idle t) (hx : x.ReferenceCount ≠ 0) : Idle (Function.update t f x) :=
  h.update (fun hz => absurd hz hx)

theorem Idle.allocate (h : Idle t) (ha : allocateFileStructure t = (some f,t')) : Idle t' := by
  obtain ⟨-,rfl⟩ := allocateFileStructure_some ha
  exact h.update_used one_ne_zero

theorem Idle.fileClose {ff : Option File} (h : Idle t) (hc : fileClose t f = .ok (t',ff)) : Idle t' := by
  unfold FileSystem.fileClose at hc
  split_ifs at hc with h1 h2
  · cases hc
    exact h.update_used (by dsimp only; omega)
  · cases hc
    exact h.update (fun _ => rfl)

theorem Idle.opened {directory : Bool} {r : Option (Fin NFILE)} (h : Idle t) (ho : Opened directory t r t') :
    Idle t' := by
  intro g hg
  by_cases hr : r = some g
  · subst hr
    have hone : counts t' g = 1 := by rw [ho.counts.2,Function.update_self]
    exact absurd (hone.symm.trans hg) one_ne_zero
  · rcases ho.swept g hr with he | ⟨-,-,ht⟩
    · rw [he] at hg ⊢
      exact h g hg
    · exact ht

end Tables

section Calls

theorem Idle.close (h : Idle s.files) (hd : closeFile M s f = .ok s') : Idle s'.files := by
  obtain ⟨⟨ff,hc⟩,-⟩ := closeFile_rest hd
  exact h.fileClose hc

theorem Idle.dup (h : Idle s.files) (hd : dupFile s f = .ok s') : Idle s'.files := by
  unfold dupFile at hd
  rw [bind_eq_ok] at hd
  obtain ⟨files,hfiles,hd⟩ := hd
  cases hd
  rw [fileDup_ok hfiles]
  exact h.update_used (Nat.succ_ne_zero _)

theorem Idle.fdalloc {r : Option (Fin NOFILE)} (h : Idle s.files) (hd : fdalloc s p f = (r,s')) :
    Idle s'.files := by
  cases r with
  | none =>
    rw [fdalloc_none hd]
    exact h
  | some fd =>
    obtain ⟨-,rfl⟩ := fdalloc_some hd
    exact h

theorem Idle.sys_dup {i : ℤ} (h : Idle s.files) (hd : sys_dup s p i = .ok s') : Idle s'.files := by
  unfold Kernel.sys_dup at hd
  split at hd
  · cases hd
    exact h
  · split at hd
    · rename_i hf
      cases hd
      exact h.fdalloc hf
    · rename_i hf
      exact (h.fdalloc hf).dup hd

theorem Idle.sys_close {i : ℤ} (h : Idle s.files) (hd : sys_close M s p i = .ok s') : Idle s'.files := by
  unfold Kernel.sys_close at hd
  split at hd
  · cases hd
    exact h
  · rename_i fd f hf
    exact Idle.close (s := s.setOpenFile p fd none) h hd

theorem Idle.sys_open {path : Option CString} {omode : ℕ} {junk : Bytes} (h : Idle s.files)
    (hd : sys_open M s p path omode junk = .ok s') : Idle s'.files := by
  unfold Kernel.sys_open at hd
  split at hd
  · cases hd
    exact h
  · rw [bind_eq_ok] at hd
    obtain ⟨⟨r,files⟩,ho,hd⟩ := hd
    have hfiles : Idle files := h.opened (opened_open ho)
    have hc := counts_open ho
    dsimp only at hd
    split at hd
    · cases hd
      exact hfiles
    · rename_i f
      split at hd
      · rename_i s1 hf
        exact (Idle.fdalloc (s := { s with files := files }) hfiles hf).close hd
      · rename_i fd s1 hf
        obtain ⟨-,rfl⟩ := fdalloc_some hf
        cases hd
        refine hfiles.update_used ?_
        have hone : counts files f = 1 := by rw [hc.2,Function.update_self]
        exact fun hz => absurd (hone.symm.trans hz) one_ne_zero

theorem Idle.pipealloc {r : Option (Fin NFILE × Fin NFILE)} (h : Idle s.files)
    (hd : pipealloc M s = .ok (r,s')) : Idle s'.files := by
  unfold Kernel.pipealloc at hd
  split at hd
  · cases hd
    exact h
  · rename_i f0 files hf0
    have h0 := h.allocate hf0
    split at hd
    · rename_i files1 hf1
      rw [(allocateFileStructure_none hf1).1,bind_eq_ok] at hd
      obtain ⟨s1,hs1,hd⟩ := hd
      cases hd
      exact Idle.close (s := { s with files := files }) h0 hs1
    · rename_i f1 files1 hf1
      have h1 := h0.allocate hf1
      dsimp only at hd
      split at hd
      · rw [bind_eq_ok] at hd
        obtain ⟨s1,hs1,hd⟩ := hd
        rw [bind_eq_ok] at hd
        obtain ⟨s2,hs2,hd⟩ := hd
        cases hd
        exact (Idle.close (s := { s with files := files1, memory := _ }) h1 hs1).close hs2
      · cases hd
        obtain ⟨-,rfl⟩ := allocateFileStructure_some hf1
        obtain ⟨-,rfl⟩ := allocateFileStructure_some hf0
        refine (h1.update_used ?_).update_used ?_
        · rcases eq_or_ne f0 f1 with rfl | hne <;> simp [*]
        · rcases eq_or_ne f1 f0 with rfl | hne <;> simp [*]

theorem Idle.sys_pipe {fetched : Bool} (h : Idle s.files) (hd : sys_pipe M s p fetched = .ok s') :
    Idle s'.files := by
  unfold Kernel.sys_pipe at hd
  split at hd
  · cases hd
    exact h
  · rw [bind_eq_ok] at hd
    obtain ⟨⟨r,s1⟩,hp,hd⟩ := hd
    have h1 := h.pipealloc hp
    dsimp only at hd
    split at hd
    · cases hd
      exact h1
    · split at hd
      · rename_i s2 hs2
        rw [bind_eq_ok] at hd
        obtain ⟨s3,hs3,hd⟩ := hd
        exact ((h1.fdalloc hs2).close hs3).close hd
      · rename_i fd0 s2 hs2
        split at hd
        · rename_i s3 hs3
          rw [bind_eq_ok] at hd
          obtain ⟨s4,hs4,hd⟩ := hd
          have h3 := (h1.fdalloc hs2).fdalloc hs3
          exact (Idle.close (s := s3.setOpenFile p fd0 none) h3 hs4).close hd
        · rename_i fd1 s3 hs3
          cases hd
          exact (h1.fdalloc hs2).fdalloc hs3

theorem Idle.spawned {c : Fin NFILE} (h : Idle s.files) (hsp : Spawned np c s s') : Idle s'.files := by
  intro g hg
  rcases eq_or_ne g c with rfl | hne
  · have hthree : counts s'.files g = 3 := by rw [hsp.counts,Function.update_self]
    exact absurd (hthree.symm.trans hg) (by norm_num)
  · rw [hsp.others g hne] at hg ⊢
    exact h g hg

theorem Idle.fork {r : Option UInt32} (h : Idle s.files) (hd : fork M s p = .ok (r,s')) : Idle s'.files := by
  cases fork_ends hd with
  | noStack ha =>
    rw [ha.files]
    exact h
  | noMemory ha hc hf =>
    have h1 := h.spawned ha
    exact h1
  | forked ha hc hpt hi =>
    unfold forkInto at hi
    rw [bind_eq_ok] at hi
    obtain ⟨s3,hs3,hi⟩ := hi
    cases hi
    change Idle s3.files
    have h1 := h.spawned ha
    refine foldlM_invariant hs3 (I := fun _ u => Idle u.files) h1 ?_
    intro done fd rest u v _ hu hs
    unfold dupDescriptor at hs
    split at hs
    · rw [bind_eq_ok] at hs
      obtain ⟨u1,hu1,hs⟩ := hs
      cases hs
      have h2 := hu.dup hu1
      exact h2
    · cases hs
      exact hu

theorem Idle.exit (h : Idle s.files) (hd : exit M s p = .ok s') : Idle s'.files := by
  unfold Kernel.exit at hd
  split at hd
  · cases hd
  · rw [bind_eq_ok] at hd
    obtain ⟨s1,hs1,hd⟩ := hd
    cases hd
    change Idle s1.files
    refine foldlM_invariant hs1 (I := fun _ u => Idle u.files) h ?_
    intro done fd rest u v _ hu hs
    unfold closeDescriptor at hs
    split at hs
    · rw [bind_eq_ok] at hs
      obtain ⟨u1,hu1,hs⟩ := hs
      cases hs
      have h2 := hu.close hu1
      exact h2
    · cases hs
      exact hu

end Calls

theorem Idle.step {l : Fin NPROC × Call} (h : Idle s.files) (hs : Kernel.step M s l = some s') :
    Idle s'.files := by
  obtain ⟨p,c⟩ := l
  unfold Kernel.step at hs
  split_ifs at hs
  cases c with
  | fork =>
    obtain ⟨⟨r,u⟩,hu,rfl⟩ := Option.map_eq_some_iff.mp hs
    exact h.fork (toOption_eq_some hu)
  | exit => exact h.exit (toOption_eq_some hs)
  | wait =>
    obtain ⟨⟨r,u⟩,hu,rfl⟩ := Option.map_eq_some_iff.mp hs
    rw [wait_files (toOption_eq_some (Option.join_eq_some_iff.mp hu))]
    exact h
  | sys_open path omode junk => exact h.sys_open (toOption_eq_some hs)
  | sys_dup fd => exact h.sys_dup (toOption_eq_some hs)
  | sys_close fd => exact h.sys_close (toOption_eq_some hs)
  | sys_pipe fetched => exact h.sys_pipe (toOption_eq_some hs)

theorem Idle.runs {ls : List (Fin NPROC × Call)} (h : Idle s.files) (hr : Runs (graph (Kernel.step M)) s ls s') :
    Idle s'.files :=
  hr.invariant (I := fun u => Idle u.files) h (fun _ _ _ ha hs => ha.step hs)

end UoDOS.Kernel
