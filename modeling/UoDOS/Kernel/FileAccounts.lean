import UoDOS.Library.References
import UoDOS.FileSystem.OpenCounts
import UoDOS.Kernel.Descriptors

/-! # Reference counts of open files

The holders of a File are the descriptors of all processes that are not UNUSED. Each
call is followed with the references it has in hand, and at its end it has none.
-/
namespace UoDOS.Kernel
open ByteMemory Paging Processes FileSystem Strings ProcState References Results Function

def System.descriptors (s : System) (h : Fin NPROC × Fin NOFILE) : Option (Fin NFILE) :=
  if (s.table h.1).State = UNUSED then none else (s.image h.1).OpenFile h.2

def Accounts (s : System) (inHand : Multiset (Fin NFILE)) : Prop :=
  Balanced (counts s.files) s.descriptors inHand

/-- Processes that have exited have no descriptors, and unused slots have none from
number `k` on. -/
def Clean (k : ℕ) (s : System) : Prop :=
  ∀ p (fd : Fin NOFILE), (s.table p).State = ZOMBIE ∨ (s.table p).State = UNUSED ∧ k ≤ fd.val →
    (s.image p).OpenFile fd = none

def System.Ready (s : System) (p : Fin NPROC) : Prop :=
  (s.table p).State = RUNNABLE ∨ (s.table p).State = RUNNING

instance (s : System) (p : Fin NPROC) : Decidable (s.Ready p) := inferInstanceAs (Decidable (_ ∨ _))

structure Frame (p : Fin NPROC) (s s' : System) : Prop where
  table : Woken s.table s'.table
  image : ∀ q ≠ p, (s'.image q).OpenFile = (s.image q).OpenFile

variable {M : Mounted} {s s' : System} {p : Fin NPROC} {fd : Fin NOFILE} {f : Fin NFILE}
  {inHand : Multiset (Fin NFILE)}

theorem Frame.refl (p : Fin NPROC) (s : System) : Frame p s s := ⟨Woken.refl _,fun _ _ => rfl⟩

theorem Frame.trans {u : System} (h : Frame p s s') (h' : Frame p s' u) : Frame p s u := by
  constructor
  · exact h.table.trans h'.table
  · intro q hq
    rw [h'.image q hq,h.image q hq]

theorem System.Ready.used (h : s.Ready p) : (s.table p).State ≠ UNUSED := by
  rcases h with h | h <;> simp [h]

theorem System.Ready.not_zombie (h : s.Ready p) : (s.table p).State ≠ ZOMBIE := by
  rcases h with h | h <;> simp [h]

theorem Frame.used (h : Frame p s s') {q : Fin NPROC} :
    (s'.table q).State = UNUSED ↔ (s.table q).State = UNUSED :=
  h.table.same (by decide) (by decide)

theorem Frame.clean {k : ℕ} (h : Frame p s s') (hr : s.Ready p) (hc : Clean k s) : Clean k s' := by
  intro q fd hq
  have hq' : (s.table q).State = ZOMBIE ∨ (s.table q).State = UNUSED ∧ k ≤ fd.val := by
    rcases hq with hz | ⟨hu,hk⟩
    · exact .inl ((h.table.same (by decide) (by decide)).mp hz)
    · exact .inr ⟨h.used.mp hu,hk⟩
  have hne : q ≠ p := by
    rintro rfl
    rcases hq' with hz | ⟨hu,-⟩
    · exact hr.not_zombie hz
    · exact hr.used hu
  rw [h.image q hne]
  exact hc q fd hq'

theorem descriptors_congr (ht : ∀ q, (s'.table q).State = UNUSED ↔ (s.table q).State = UNUSED)
    (hi : ∀ q, (s'.image q).OpenFile = (s.image q).OpenFile) : s'.descriptors = s.descriptors := by
  funext h
  simp only [System.descriptors,ht,hi]

theorem Accounts.congr (h : Accounts s inHand) (hf : counts s'.files = counts s.files)
    (hd : s'.descriptors = s.descriptors) : Accounts s' inHand := by
  rw [Accounts,hf,hd]
  exact h

theorem setImage_openFile {x : Image} (hx : x.OpenFile = (s.image p).OpenFile) (q : Fin NPROC) :
    ((s.setImage p x).image q).OpenFile = (s.image q).OpenFile := by
  rcases eq_or_ne q p with rfl | hq
  · simp [System.setImage,hx]
  · simp [System.setImage,hq]

theorem descriptors_setOpenFile (hp : (s.table p).State ≠ UNUSED) (x : Option (Fin NFILE)) :
    (s.setOpenFile p fd x).descriptors = update s.descriptors (p,fd) x := by
  funext h
  obtain ⟨q,k⟩ := h
  simp only [System.descriptors,System.setOpenFile,System.setImage]
  rcases eq_or_ne q p with rfl | hq
  · rcases eq_or_ne k fd with rfl | hk
    · simp [hp]
    · simp [hk,System.descriptors]
  · simp [hq,System.descriptors]

theorem frame_setOpenFile (s : System) (p : Fin NPROC) (fd : Fin NOFILE) (x : Option (Fin NFILE)) :
    Frame p s (s.setOpenFile p fd x) := by
  constructor
  · exact Woken.refl _
  · intro q hq
    simp [System.setOpenFile,System.setImage,hq]

theorem frame_files (s : System) (p : Fin NPROC) (files : FileTable) :
    Frame p s { s with files := files } := ⟨Woken.refl _,fun _ _ => rfl⟩

theorem pipeclose_ok {a : ℕ} {w : Bool} (h : pipeclose M s a w = .ok s') :
    s'.files = s.files ∧ s'.image = s.image ∧ Woken s.table s'.table := by
  unfold pipeclose at h
  dsimp only at h
  split at h
  · rw [bind_eq_ok] at h
    obtain ⟨m,-,h⟩ := h
    cases h
    exact ⟨rfl,rfl,woken_wakeup1 _ _⟩
  · cases h
    exact ⟨rfl,rfl,woken_wakeup1 _ _⟩

theorem closeFile_rest (h : closeFile M s f = .ok s') : (∃ ff, fileClose s.files f = .ok (s'.files,ff)) ∧
    s'.image = s.image ∧ Woken s.table s'.table := by
  unfold closeFile at h
  rw [bind_eq_ok] at h
  obtain ⟨⟨files,ff⟩,hc,h⟩ := h
  dsimp only at h
  split at h
  · split at h
    · obtain ⟨h1,h2,h3⟩ := pipeclose_ok h
      rw [h1]
      exact ⟨⟨_,hc⟩,h2,h3⟩
    · cases h
      exact ⟨⟨_,hc⟩,rfl,Woken.refl _⟩
  · cases h
    exact ⟨⟨_,hc⟩,rfl,Woken.refl _⟩

theorem closeFile_ok (h : closeFile M s f = .ok s') :
    counts s'.files = update (counts s.files) f (counts s.files f - 1) ∧
      s'.image = s.image ∧ Woken s.table s'.table := by
  obtain ⟨⟨ff,hc⟩,hrest⟩ := closeFile_rest h
  exact ⟨counts_close hc,hrest⟩

theorem frame_closeFile (p : Fin NPROC) (h : closeFile M s f = .ok s') : Frame p s s' := by
  obtain ⟨-,hi,ht⟩ := closeFile_ok h
  exact ⟨ht,fun q _ => by rw [hi]⟩

theorem Accounts.close (h : Accounts s (f ::ₘ inHand)) (hc : closeFile M s f = .ok s') :
    Accounts s' inHand := by
  obtain ⟨hn,hi,ht⟩ := closeFile_ok hc
  have hd : s'.descriptors = s.descriptors :=
    descriptors_congr (fun q => ht.same (by decide) (by decide)) (fun q => by rw [hi])
  rw [Accounts,hn,hd]
  exact Balanced.drop h

theorem dupFile_ok (h : dupFile s f = .ok s') : ∃ files, s' = { s with files := files } ∧
    counts files = update (counts s.files) f (counts s.files f + 1) := by
  unfold dupFile at h
  rw [bind_eq_ok] at h
  obtain ⟨files,hd,h⟩ := h
  cases h
  exact ⟨files,rfl,counts_dup hd⟩

theorem Accounts.dup (h : Accounts s inHand) (hd : dupFile s f = .ok s') :
    Accounts s' (f ::ₘ inHand) := by
  obtain ⟨files,rfl,hc⟩ := dupFile_ok hd
  rw [Accounts,hc]
  exact Balanced.take h f

theorem openFile_setOpenFile (s : System) (p : Fin NPROC) (fd : Fin NOFILE) (x : Option (Fin NFILE)) :
    ((s.setOpenFile p fd x).image p).OpenFile fd = x := by
  simp [System.setOpenFile,System.setImage]

theorem Accounts.give (h : Accounts s (f ::ₘ inHand)) (hp : (s.table p).State ≠ UNUSED)
    (hn : (s.image p).OpenFile fd = none) : Accounts (s.setOpenFile p fd (some f)) inHand := by
  rw [Accounts,descriptors_setOpenFile hp]
  apply Balanced.give h
  simp [System.descriptors,hn]

theorem Accounts.clear (h : Accounts s inHand) (hp : (s.table p).State ≠ UNUSED)
    (hn : (s.image p).OpenFile fd = some f) :
    Accounts (s.setOpenFile p fd none) (f ::ₘ inHand) := by
  rw [Accounts,descriptors_setOpenFile hp]
  apply Balanced.clear h
  simp [System.descriptors,hp,hn]

theorem Accounts.allocate {files : FileTable} (h : Accounts s inHand) (hz : counts s.files f = 0)
    (hc : counts files = update (counts s.files) f 1) :
    Accounts { s with files := files } (f ::ₘ inHand) := by
  have ht := Balanced.take h f
  rw [hz,zero_add,← hc] at ht
  exact ht

theorem fdalloc_some {s1 : System} (h : fdalloc s p f = (some fd,s1)) :
    (s.image p).OpenFile fd = none ∧ s1 = s.setOpenFile p fd (some f) := by
  unfold fdalloc at h
  split at h
  · rename_i k hk
    cases h
    have hn := List.find?_some hk
    exact ⟨by simpa using hn,rfl⟩
  · cases h

theorem fdalloc_none {s1 : System} (h : fdalloc s p f = (none,s1)) : s1 = s := by
  unfold fdalloc at h
  split at h
  · cases h
  · cases h
    rfl

theorem argfd_some {i : ℤ} (h : argfd s p i = some (fd,f)) : (s.image p).OpenFile fd = some f := by
  unfold argfd at h
  split_ifs at h
  obtain ⟨g,hg,he⟩ := Option.map_eq_some_iff.mp h
  cases he
  exact hg

theorem Accounts.sys_dup {i : ℤ} (h : Accounts s inHand) (hr : s.Ready p)
    (hd : sys_dup s p i = .ok s') : Accounts s' inHand ∧ Frame p s s' := by
  unfold Kernel.sys_dup at hd
  split at hd
  · cases hd
    exact ⟨h,Frame.refl p s⟩
  · rename_i f ha
    split at hd
    · rename_i s1 hf
      cases hd
      rw [fdalloc_none hf]
      exact ⟨h,Frame.refl p s⟩
    · rename_i fd s1 hf
      obtain ⟨hn,rfl⟩ := fdalloc_some hf
      obtain ⟨files,rfl,hc⟩ := dupFile_ok hd
      constructor
      · have ht : Accounts { s with files := files } (f ::ₘ inHand) := by
          rw [Accounts,hc]
          exact Balanced.take h f
        exact ht.give (s := { s with files := files }) hr.used hn
      · exact (frame_setOpenFile s p fd (some f)).trans (frame_files _ p files)

theorem Accounts.sys_close {i : ℤ} (h : Accounts s inHand) (hr : s.Ready p)
    (hd : sys_close M s p i = .ok s') : Accounts s' inHand ∧ Frame p s s' := by
  unfold Kernel.sys_close at hd
  split at hd
  · cases hd
    exact ⟨h,Frame.refl p s⟩
  · rename_i fd f ha
    have hk := h.clear hr.used (argfd_some ha)
    exact ⟨hk.close hd,(frame_setOpenFile s p fd none).trans (frame_closeFile p hd)⟩

theorem Accounts.sys_open {path : Option CString} {omode : ℕ} {junk : Bytes} (h : Accounts s inHand)
    (hr : s.Ready p) (hd : sys_open M s p path omode junk = .ok s') :
    Accounts s' inHand ∧ Frame p s s' := by
  unfold Kernel.sys_open at hd
  split at hd
  · cases hd
    exact ⟨h,Frame.refl p s⟩
  · rename_i path
    rw [bind_eq_ok] at hd
    obtain ⟨⟨r,files⟩,ho,hd⟩ := hd
    have hc := counts_open ho
    dsimp only at hd
    split at hd
    · cases hd
      constructor
      · rw [Accounts,show counts files = counts s.files from hc]
        exact h
      · exact frame_files s p files
    · rename_i f
      have ha := Accounts.allocate h hc.1 hc.2
      split at hd
      · rename_i s1 hf
        rw [fdalloc_none hf] at hd
        exact ⟨ha.close hd,(frame_files s p files).trans (frame_closeFile p hd)⟩
      · rename_i fd s1 hf
        obtain ⟨hn,rfl⟩ := fdalloc_some hf
        cases hd
        have hg := ha.give (s := { s with files := files }) (p := p) hr.used hn
        constructor
        · rw [Accounts,counts_write]
          · exact hg
          · rfl
        · exact (frame_files s p files).trans ((frame_setOpenFile _ p fd (some f)).trans
            (frame_files _ p _))

end UoDOS.Kernel
