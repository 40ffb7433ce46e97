import UoDOS.Kernel.Exec
import UoDOS.Kernel.FilePanics

/-! # Calls that leave the address spaces alone

The size, the page table and the kernel stack of a process are written by fork, exec, sbrk and
wait only.
-/
namespace UoDOS.Kernel
open ByteMemory Paging Processes FileSystem Strings ProcState References Results Transition

variable {M : Mounted} {s s' s'' : System} {p np q : Fin NPROC} {f : Fin NFILE}

namespace SameSpaces

theorem refl (s : System) : SameSpaces s s := of_image rfl

theorem setOpenFile (s : System) (p : Fin NPROC) (fd : Fin NOFILE) (x : Option (Fin NFILE)) :
    SameSpaces s (s.setOpenFile p fd x) := setImage ⟨rfl,rfl,rfl⟩

theorem closeFile (h : closeFile M s f = .ok s') : SameSpaces s s' := of_image (closeFile_ok h).2.1

theorem dupFile (h : dupFile s f = .ok s') : SameSpaces s s' := by
  obtain ⟨files,rfl,-⟩ := dupFile_ok h
  exact of_image rfl

theorem fdalloc {r : Option (Fin NOFILE)} (h : fdalloc s p f = (r,s')) : SameSpaces s s' := by
  unfold Kernel.fdalloc at h
  split at h
  · cases h
    exact setOpenFile s p _ _
  · cases h
    exact refl s

theorem close_all {l : List (Fin NOFILE)} (h : l.foldlM (closeDescriptor M p) s = .ok s') : SameSpaces s s' := by
  refine foldlM_invariant h (I := fun _ u => SameSpaces s u) (refl s) ?_
  intro done fd rest u v _ hu hs
  unfold closeDescriptor at hs
  split at hs
  · rw [bind_eq_ok] at hs
    obtain ⟨u1,hu1,hs⟩ := hs
    cases hs
    exact (hu.trans (closeFile hu1)).trans (setOpenFile u1 p fd _)
  · cases hs
    exact hu

theorem exit (h : exit M s p = .ok s') : SameSpaces s s' := by
  unfold Kernel.exit at h
  split at h
  · cases h
  · rw [bind_eq_ok] at h
    obtain ⟨s1,hs1,h⟩ := h
    cases h
    exact (close_all hs1).trans (setImage ⟨rfl,rfl,rfl⟩)

theorem pipealloc {r : Option (Fin NFILE × Fin NFILE)} (h : pipealloc M s = .ok (r,s')) : SameSpaces s s' := by
  unfold Kernel.pipealloc at h
  split at h
  · cases h
    exact refl s
  · split at h
    · rw [bind_eq_ok] at h
      obtain ⟨s1,hs1,h⟩ := h
      cases h
      have h1 := closeFile hs1
      exact h1
    · dsimp only at h
      split at h
      · rw [bind_eq_ok] at h
        obtain ⟨s1,hs1,h⟩ := h
        rw [bind_eq_ok] at h
        obtain ⟨s2,hs2,h⟩ := h
        cases h
        have h2 := (closeFile hs1).trans (closeFile hs2)
        exact h2
      · cases h
        exact of_image rfl

theorem sys_pipe {fetched : Bool} (h : sys_pipe M s p fetched = .ok s') : SameSpaces s s' := by
  unfold Kernel.sys_pipe at h
  split at h
  · cases h
    exact refl s
  · rw [bind_eq_ok] at h
    obtain ⟨⟨r,s1⟩,hs1,h⟩ := h
    have h1 := pipealloc hs1
    dsimp only at h
    split at h
    · cases h
      exact h1
    · split at h
      · rename_i hf
        rw [bind_eq_ok] at h
        obtain ⟨s2,hs2,h⟩ := h
        exact ((h1.trans (fdalloc hf)).trans (closeFile hs2)).trans (closeFile h)
      · rename_i fd0 s2 hf
        have h2 := h1.trans (fdalloc hf)
        split at h
        · rename_i hf'
          rw [bind_eq_ok] at h
          obtain ⟨s3,hs3,h⟩ := h
          have h3 := (setOpenFile _ p fd0 none).trans (closeFile hs3)
          exact ((h2.trans (fdalloc hf')).trans h3).trans (closeFile h)
        · rename_i hf'
          cases h
          exact h2.trans (fdalloc hf')

theorem sys_open {path : Option CString} {omode : ℕ} {junk : Bytes}
    (h : sys_open M s p path omode junk = .ok s') : SameSpaces s s' := by
  unfold Kernel.sys_open at h
  split at h
  · cases h
    exact refl s
  · rw [bind_eq_ok] at h
    obtain ⟨⟨r,files⟩,-,h⟩ := h
    dsimp only at h
    split at h
    · cases h
      exact of_image rfl
    · split at h
      · rename_i hf
        have h1 := (fdalloc hf).trans (closeFile h)
        exact h1
      · rename_i hf
        cases h
        have h1 := fdalloc hf
        exact h1

theorem fileCall {c : FileCall} (h : fileCall M s p c = .ok s') : SameSpaces s s' := by
  cases c with
  | sys_open path omode junk => exact sys_open h
  | sys_dup fd =>
    change sys_dup s p fd = .ok s' at h
    unfold sys_dup at h
    split at h
    · cases h
      exact refl s
    · split at h
      · rename_i hf
        cases h
        exact fdalloc hf
      · rename_i hf
        exact (fdalloc hf).trans (dupFile h)
  | sys_close fd =>
    change sys_close M s p fd = .ok s' at h
    unfold sys_close at h
    split at h
    · cases h
      exact refl s
    · exact (setOpenFile s p _ none).trans (closeFile h)
  | sys_read fd n answer =>
    obtain ⟨⟨r,u⟩,hu,rfl⟩ := map_eq_ok.mp h
    unfold sys_read at hu
    split at hu
    · rw [bind_eq_ok] at hu
      obtain ⟨⟨r,bytes,files⟩,-,hu⟩ := hu
      cases hu
      exact of_image rfl
    · cases hu
      exact refl s
  | sys_write fd n answer =>
    obtain ⟨⟨r,u⟩,hu,rfl⟩ := map_eq_ok.mp h
    unfold sys_write at hu
    split at hu
    · rw [bind_eq_ok] at hu
      obtain ⟨r,-,hu⟩ := hu
      cases hu
      exact refl s
    · cases hu
      exact refl s
  | sys_fstat fd fetched =>
    cases h
    unfold sys_fstat
    split <;> exact refl s
  | sys_pipe fetched => exact sys_pipe h

end SameSpaces

end UoDOS.Kernel
