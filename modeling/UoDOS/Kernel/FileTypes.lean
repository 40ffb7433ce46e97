import UoDOS.Kernel.FileRuns

/-! # Types of open files

Between two calls every File in use has a type. Inside a call a File that has just been
allocated, or is about to be given back, may have none.
-/
namespace UoDOS.Kernel
open ByteMemory Paging Processes FileSystem Strings ProcState References Results Transition

def Typed (fresh : Set (Fin NFILE)) (t : FileTable) : Prop :=
  ∀ f ∉ fresh, counts t f ≠ 0 → (t f).type ≠ .FD_NONE

variable {M : Mounted} {s s' : System} {p np : Fin NPROC} {f : Fin NFILE} {t t' : FileTable}
  {fresh : Set (Fin NFILE)}

theorem Typed.mono (h : Typed fresh t) (f : Fin NFILE) : Typed (insert f fresh) t := by
  intro g hg hc
  exact h g (fun hm => hg (Set.mem_insert_of_mem f hm)) hc

theorem Typed.update {x : File} (h : Typed (insert f fresh) t)
    (hx : x.ReferenceCount ≠ 0 → x.type ≠ .FD_NONE) : Typed fresh (Function.update t f x) := by
  intro g hg hc
  rcases eq_or_ne g f with rfl | hne
  · rw [counts_update,Function.update_self] at hc
    rw [Function.update_self]
    exact hx hc
  · rw [counts_update,Function.update_of_ne hne] at hc
    rw [Function.update_of_ne hne]
    apply h g _ hc
    intro hm
    rcases Set.mem_insert_iff.mp hm with rfl | hm
    · exact hne rfl
    · exact hg hm

theorem Typed.dup (h : Typed fresh s.files) (hf : f ∉ fresh) (hd : dupFile s f = .ok s') :
    Typed fresh s'.files := by
  unfold dupFile at hd
  rw [bind_eq_ok] at hd
  obtain ⟨files,hfiles,hd⟩ := hd
  cases hd
  rw [fileDup_ok hfiles]
  apply (h.mono f).update
  intro _
  apply h f hf
  intro hz
  change (s.files f).ReferenceCount = 0 at hz
  rw [fileDup,if_pos (by omega)] at hfiles
  cases hfiles

theorem Typed.close (h : Typed (insert f fresh) s.files)
    (hf : counts s.files f ≠ 1 → (s.files f).type ≠ .FD_NONE) (hd : closeFile M s f = .ok s') :
    Typed fresh s'.files := by
  obtain ⟨⟨ff,hfiles⟩,-⟩ := closeFile_rest hd
  generalize s'.files = files at *
  unfold fileClose at hfiles
  split_ifs at hfiles with h1 h2
  · cases hfiles
    apply h.update
    intro _
    apply hf
    change (s.files f).ReferenceCount ≠ 1
    omega
  · cases hfiles
    apply h.update
    intro hx
    exact absurd rfl hx

theorem Typed.close_used (h : Typed ∅ s.files) (hd : closeFile M s f = .ok s') : Typed ∅ s'.files := by
  refine Typed.close (h.mono f) (fun _ => h f (by simp) (fun hz => ?_)) hd
  change (s.files f).ReferenceCount = 0 at hz
  unfold closeFile fileClose at hd
  rw [if_pos (by omega)] at hd
  cases hd

theorem Typed.allocate (h : Typed fresh t) (ha : allocateFileStructure t = (some f,t')) :
    Typed (insert f fresh) t' := by
  obtain ⟨-,rfl⟩ := allocateFileStructure_some ha
  intro g hg hc
  have hne : g ≠ f := fun he => hg (he ▸ Set.mem_insert f fresh)
  rw [counts_update,Function.update_of_ne hne] at hc
  rw [Function.update_of_ne hne]
  exact h g (fun hm => hg (Set.mem_insert_of_mem f hm)) hc

theorem Typed.open {cwd filename : CString} {junk : Bytes} {r : Option (Fin NFILE)} (h : Typed fresh t)
    (ho : fsFat12Open M t cwd filename false junk = .ok (r,t')) : Typed fresh t' := by
  have hopened := opened_open ho
  have hc := hopened.counts
  intro g hg hcg
  by_cases hz : counts t g = 0
  · cases r with
    | none =>
      rw [show counts t' = counts t from hc] at hcg
      exact absurd hz hcg
    | some f =>
      rcases eq_or_ne g f with rfl | hne
      · rw [hopened.type g rfl]
        decide
      · rw [hc.2,Function.update_of_ne hne] at hcg
        exact absurd hz hcg
  · rw [hopened.undisturbed g hz]
    exact h g hg hz

theorem Typed.sys_dup {i : ℤ} (h : Typed ∅ s.files) (hd : sys_dup s p i = .ok s') : Typed ∅ s'.files := by
  unfold Kernel.sys_dup at hd
  split at hd
  · cases hd
    exact h
  · split at hd
    · rename_i s1 hf
      cases hd
      rw [fdalloc_none hf]
      exact h
    · rename_i fd s1 hf
      obtain ⟨-,rfl⟩ := fdalloc_some hf
      exact Typed.dup (s := s.setOpenFile p fd _) h (by simp) hd

theorem Typed.sys_close {i : ℤ} (h : Typed ∅ s.files)
    (hd : sys_close M s p i = .ok s') : Typed ∅ s'.files := by
  unfold Kernel.sys_close at hd
  split at hd
  · cases hd
    exact h
  · rename_i fd f hf
    exact Typed.close_used (s := s.setOpenFile p fd none) h hd

theorem Typed.sys_open {path : Option CString} {omode : ℕ} {junk : Bytes} (h : Typed ∅ s.files)
    (hd : sys_open M s p path omode junk = .ok s') : Typed ∅ s'.files := by
  unfold Kernel.sys_open at hd
  split at hd
  · cases hd
    exact h
  · rw [bind_eq_ok] at hd
    obtain ⟨⟨r,files⟩,ho,hd⟩ := hd
    have hfiles := h.open ho
    have hc := counts_open ho
    dsimp only at hd
    split at hd
    · cases hd
      exact hfiles
    · rename_i f
      have htype : (files f).type ≠ .FD_NONE := by
        apply hfiles f (by simp)
        rw [hc.2,Function.update_self]
        exact one_ne_zero
      split at hd
      · rename_i s1 hf
        rw [fdalloc_none hf] at hd
        exact Typed.close_used (s := { s with files := files }) hfiles hd
      · rename_i fd s1 hf
        obtain ⟨-,rfl⟩ := fdalloc_some hf
        cases hd
        exact (hfiles.mono f).update (fun _ => htype)

theorem Typed.pipealloc {r : Option (Fin NFILE × Fin NFILE)} (h : Typed ∅ s.files)
    (hd : pipealloc M s = .ok (r,s')) : Typed ∅ s'.files := by
  unfold Kernel.pipealloc at hd
  split at hd
  · cases hd
    exact h
  · rename_i f0 files hf0
    have h0 := h.allocate hf0
    obtain ⟨-,hc0⟩ := counts_allocate hf0
    split at hd
    · rename_i files1 hf1
      rw [(allocateFileStructure_none hf1).1,bind_eq_ok] at hd
      obtain ⟨s1,hs1,hd⟩ := hd
      cases hd
      exact Typed.close (s := { s with files := files }) h0 (fun hn => absurd (by simp [hc0]) hn) hs1
    · rename_i f1 files1 hf1
      have h1 := h0.allocate hf1
      obtain ⟨hz1,hc1⟩ := counts_allocate hf1
      have hne : f1 ≠ f0 := by
        rintro rfl
        simp [hc0] at hz1
      dsimp only at hd
      split at hd
      · rw [bind_eq_ok] at hd
        obtain ⟨s1,hs1,hd⟩ := hd
        rw [bind_eq_ok] at hd
        obtain ⟨s2,hs2,hd⟩ := hd
        cases hd
        rw [Set.insert_comm] at h1
        have h₁ := Typed.close (s := { s with files := files1, memory := _ }) h1
          (fun hn => absurd (by simp [hc1,hc0,hne.symm]) hn) hs1
        refine Typed.close h₁ (fun hn => absurd ?_ hn) hs2
        rw [(closeFile_ok hs1).1]
        simp [hc1,hne]
      · cases hd
        refine Typed.update (Typed.update ?_ (fun _ => by simp)) (fun _ => by simp)
        rw [Set.insert_comm]
        exact h1

theorem Typed.sys_pipe {fetched : Bool} (h : Typed ∅ s.files) (hd : sys_pipe M s p fetched = .ok s') :
    Typed ∅ s'.files := by
  unfold Kernel.sys_pipe at hd
  split at hd
  · cases hd
    exact h
  · rw [bind_eq_ok] at hd
    obtain ⟨⟨r,s1⟩,hp,hd⟩ := hd
    have h1 := h.pipealloc hp
    dsimp only at hd
    split at hd
    · cases hd
      exact h1
    · split at hd
      · rename_i s2 hs2
        rw [fdalloc_none hs2,bind_eq_ok] at hd
        obtain ⟨s3,hs3,hd⟩ := hd
        exact (h1.close_used hs3).close_used hd
      · rename_i fd0 s2 hs2
        obtain ⟨-,rfl⟩ := fdalloc_some hs2
        split at hd
        · rename_i s3 hs3
          rw [fdalloc_none hs3,bind_eq_ok] at hd
          obtain ⟨s4,hs4,hd⟩ := hd
          have h4 := Typed.close_used (s := ((s1.setOpenFile p fd0 _).setOpenFile p fd0 none)) h1 hs4
          exact h4.close_used hd
        · rename_i fd1 s3 hs3
          obtain ⟨-,rfl⟩ := fdalloc_some hs3
          cases hd
          exact h1

theorem Typed.file {file : File} {n k : ℕ} {bytes : List UInt8} (h : Typed ∅ t)
    (hr : fsFat12Read M (t f) n = .ok (k,bytes,file)) :
    Typed ∅ (Function.update t f file) ∧ counts (Function.update t f file) = counts t := by
  obtain ⟨position,eof,rfl⟩ := read_file hr
  constructor
  · apply (h.mono f).update
    intro hc
    exact h f (by simp) hc
  · exact counts_write rfl

theorem Typed.sys_read {i : ℤ} {n : Option ℕ} {answer : ℤ × List UInt8} {r : ℤ} (h : Typed ∅ s.files)
    (hd : sys_read M s p i n answer = .ok (r,s')) :
    Typed ∅ s'.files ∧ counts s'.files = counts s.files ∧ s'.table = s.table ∧ s'.image = s.image := by
  unfold Kernel.sys_read at hd
  split at hd
  · rename_i fd f n ha
    rw [bind_eq_ok] at hd
    obtain ⟨⟨r,bytes,files⟩,hf,hd⟩ := hd
    cases hd
    unfold fileRead at hf
    split at hf
    · cases hf
      exact ⟨h,rfl,rfl,rfl⟩
    · split at hf
      · cases hf
        exact ⟨h,rfl,rfl,rfl⟩
      · cases hf
        exact ⟨h,rfl,rfl,rfl⟩
      · rw [bind_eq_ok] at hf
        obtain ⟨⟨k,bytes',file⟩,hr,hf⟩ := hf
        cases hf
        obtain ⟨h1,hc⟩ := h.file hr
        exact ⟨h1,hc,rfl,rfl⟩
      · rw [bind_eq_ok] at hf
        obtain ⟨⟨k,bytes',file⟩,hr,hf⟩ := hf
        cases hf
        obtain ⟨h1,hc⟩ := h.file hr
        exact ⟨h1,hc,rfl,rfl⟩
      · cases hf
  · cases hd
    exact ⟨h,rfl,rfl,rfl⟩

theorem Typed.close_all {l : List (Fin NOFILE)} (h : Typed ∅ s.files)
    (hd : l.foldlM (closeDescriptor M p) s = .ok s') : Typed ∅ s'.files := by
  refine foldlM_invariant hd (I := fun _ u => Typed ∅ u.files) h ?_
  intro done fd rest u v _ hu hs
  unfold closeDescriptor at hs
  split at hs
  · rw [bind_eq_ok] at hs
    obtain ⟨u1,hu1,hs⟩ := hs
    cases hs
    have h1 := hu.close_used hu1
    exact h1
  · cases hs
    exact hu

theorem Typed.dup_all {l : List (Fin NOFILE)} (h : Typed ∅ s.files)
    (hd : l.foldlM (dupDescriptor p np) s = .ok s') : Typed ∅ s'.files := by
  refine foldlM_invariant hd (I := fun _ u => Typed ∅ u.files) h ?_
  intro done fd rest u v _ hu hs
  unfold dupDescriptor at hs
  split at hs
  · rw [bind_eq_ok] at hs
    obtain ⟨u1,hu1,hs⟩ := hs
    cases hs
    have h1 := hu.dup (by simp) hu1
    exact h1
  · cases hs
    exact hu

theorem Typed.spawned {c : Fin NFILE} (h : Typed ∅ s.files) (hsp : Spawned np c s s') : Typed ∅ s'.files := by
  intro f _ hf
  rcases eq_or_ne f c with rfl | hne
  · rw [hsp.device]
    decide
  · rw [hsp.counts,Function.update_of_ne hne] at hf
    rw [hsp.others f hne]
    exact h f (by simp) hf

theorem Typed.fork {r : Option UInt32} (h : Typed ∅ s.files) (hd : fork M s p = .ok (r,s')) :
    Typed ∅ s'.files := by
  cases fork_ends hd with
  | noStack ha =>
    rw [ha.files]
    exact h
  | noMemory ha hc hf =>
    have h1 := h.spawned ha
    exact h1
  | forked ha hc hpt hi =>
    unfold forkInto at hi
    rw [bind_eq_ok] at hi
    obtain ⟨s3,hs3,hi⟩ := hi
    cases hi
    have h1 := h.spawned ha
    have h3 := Typed.dup_all ?_ hs3
    · exact h3
    · exact h1

theorem Typed.exit (h : Typed ∅ s.files) (hd : exit M s p = .ok s') : Typed ∅ s'.files := by
  unfold Kernel.exit at hd
  split at hd
  · cases hd
  · rw [bind_eq_ok] at hd
    obtain ⟨s1,hs1,hd⟩ := hd
    cases hd
    have h1 := h.close_all hs1
    exact h1

theorem wait_files {r : Option UInt32} (hd : wait M s p = .ok (some (r,s'))) : s'.files = s.files := by
  rcases wait_ok hd with rfl | ⟨i,m,-,rfl⟩ <;> rfl

theorem Booted.typed (h : Booted M s) : Typed ∅ s.files := by
  obtain ⟨s0,a,b,hcold,hd⟩ := h
  have h0 : Typed ∅ s0.files := fun f _ hf => absurd (hcold.free f) hf
  obtain ⟨p,c,s1,pt,m,m',hsp,-,rfl⟩ := first_ok hd
  have h1 := h0.spawned hsp
  exact h1

end UoDOS.Kernel
