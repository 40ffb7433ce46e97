import UoDOS.Kernel.PagePresence
import UoDOS.Kernel.ProgramReturns

/-! # exec returns

What can stop exec once the executable is open. Headers that ask for whole pages and end
behind their start are loaded; with memory for them and for the stack and with arguments
that fit, exec returns 0 or -1.
-/
namespace UoDOS.Kernel
open ByteMemory Paging Processes FileSystem Strings Results Function

variable {M : Mounted} {R : ℕ → Prop} {o o' : Owner} {d e B : ℕ} {f : Fin NFILE}
  {l l' : Loader} {s s' : System} {p : Fin NPROC} {path : CString} {argv : List CString} {junk : Bytes}

theorem cleanupExec_returns (h : Owns R s.memory o) (hR : Manageable M.image.toLayout R) (hd : o d = .directory)
    (hone : 1 ≤ (s.files f).ReferenceCount) (ht : (s.files f).type ≠ .FD_PIPE) :
    ∃ s', cleanupExec M f s (page d) = .ok s' := by
  obtain ⟨m1,hfree,-⟩ := h.free_directory hR hd
  obtain ⟨s1,hclose⟩ := closeFile_returns (M := M) (s := { s with memory := m1 }) hone ht
  rw [cleanupExec,if_neg (page_ne_zero d),hfree]
  exact ⟨s1,hclose⟩

/-- There is memory for an image that ends at `B`, with its stack and its tables, and the
arguments fit into the stack. -/
structure Affordable (o : Owner) (B : ℕ) (argv : List CString) : Prop where
  low : 4096 * ((B + 4095) / 4096) + 8192 < KERNBASE
  plenty : ¬ Scarce (2052 + (B + 4095) / 4096) o
  fits : Fits argv

theorem Attempt.room {size : ℕ} (ha : Attempt R s o f d l o' size) (hA : Affordable o B argv) (hB : size ≤ B) :
    PGROUNDUP size + 2 * PGSIZE < KERNBASE ∧ ¬ Scarce 1027 o' := by
  have hlow := hA.low
  have hlimit : size ≤ 2^31 := ha.sized.limit
  have hround : PGROUNDUP size = 4096 * ((size + 4095) / 4096) := pgroundup_eq (by omega)
  refine ⟨by rw [hround]; simp only [PGSIZE]; omega,fun hsc => ?_⟩
  have hfew := ha.sized.owns.scarce ha.built.within hsc (n := (B + 4095) / 4096)
    (ha.sized.owns.users_below (fun k hk => by
      rw [ha.sized.maps] at hk
      omega))
  exact hA.plenty (hfew.mono (by omega))

theorem finish_returns {size : ℕ} {r : Loading} (imageFileHeader : Bytes) (ha : Attempt R s o f d l o' size)
    (hR : Manageable M.image.toLayout R) (hr : ∀ n, r = .loaded n → n = size ∧ n ≤ B) (hA : Affordable o B argv) :
    ∃ y, finishLoading M f s imageFileHeader (page d) (r,l) = .ok y := by
  cases r with
  | short =>
    obtain ⟨s2,hs2⟩ := closeFile_returns (M := M) (s := { s with memory := l.memory, files := l.files }) ha.count.ge ha.type
    exact ⟨_,bind_eq_ok.mpr ⟨s2,hs2,rfl⟩⟩
  | failed =>
    obtain ⟨s2,hs2⟩ := cleanupExec_returns (M := M) (s := { s with memory := l.memory, files := l.files })
      ha.sized.owns hR ha.sized.directory ha.count.ge ha.type
    exact ⟨_,bind_eq_ok.mpr ⟨s2,hs2,rfl⟩⟩
  | loaded n =>
    obtain ⟨rfl,hB⟩ := hr n rfl
    obtain ⟨hlow,hmany⟩ := ha.room hA hB
    obtain ⟨y,s2,hs2⟩ := addStack_returns (M := M) (x := ⟨imageFileHeader,page d,n⟩)
      (s := { s with memory := l.memory, files := l.files }) ha.sized hR rfl ha.type ha.count hlow hmany
    exact ⟨_,hs2⟩

def Loading.result : Loading → ℤ
  | .loaded _ => 0
  | _ => -1

variable (argv) in
theorem exec_ends {files : FileTable} {imageFileHeader : Bytes} {l1 l2 : Loader} {m1 : Memory} {r : Loading}
    (h : Owns R s.memory o) (hR : Manageable M.image.toLayout R) (hp : o e = .directory)
    (hpt : (s.image p).PageTable = page e) (hk : (s.image p).KernelStack ≠ 0)
    (hopen : fsFat12Open M s.files (s.image p).Cwd path false junk = .ok (some f,files))
    (hhead : readHeaders M f ⟨s.memory,update files f (System.executable { s with files := files } f)⟩ =
      .ok (some imageFileHeader,l1))
    (hsetup : setupKernelVirtualMemory M.image.toLayout s.memory = .ok (page d,m1))
    (hload : loadSections M f (page d) (NumberOfSections imageFileHeader) ⟨m1,l1.files⟩
      (0x80 + 24 + SizeOfOptionalHeader imageFileHeader) 0 = .ok (r,l2))
    (hr : ∀ n, r = .loaded n → n ≤ B) (hA : Affordable o B argv) :
    ∃ s', exec M s p path argv junk = .ok (r.result,s') ∧ (r = .short → s'.memory = l2.memory) := by
  have hf : Fresh { s with files := files } f := open_fresh hopen
  obtain ⟨-,hmoved⟩ := readHeaders_ok hhead
  obtain ⟨o3,size,ht,hloaded⟩ := Attempt.of_sections (s := { s with files := files }) h hR hf hmoved hsetup hload
  obtain ⟨⟨x,s1⟩,hfin⟩ := finish_returns imageFileHeader ht hR (fun n hn => ⟨hloaded n hn,hr n hn⟩) hA
  have hexec : exec M s p path argv junk = (Except.ok (x,s1) >>= fun y =>
      y.1.elim (.ok (-1,y.2)) (runImage M f y.2 p path argv)) := by
    rw [exec,hopen]
    change (loadImage M f { s with files := files } >>= _) = _
    rw [loadImage_eq (s := { s with files := files }) hhead hsetup (page_ne_zero d),hload]
    change (finishLoading M f _ imageFileHeader (page d) (r,l2) >>= _) = _
    rw [hfin]
    cases x <;> rfl
  obtain ⟨m',files',o',rfl,-,-,⟨rfl,⟨rfl,-⟩ | ⟨rfl,-,rfl⟩⟩ | ⟨n,S,rfl,rfl,-,hother,hready⟩⟩ :=
    finish_ok ht h hR hloaded hfin
  · exact ⟨_,hexec,fun hbad => by cases hbad⟩
  · exact ⟨_,hexec,fun _ => rfl⟩
  · have hde : e ≠ d := by
      rintro rfl
      rw [ht.built.fresh] at hp
      cases hp
    obtain ⟨s',hs'⟩ := runImage_returns (f := f) (p := p) (s := { s with memory := m', files := files' })
      (x := ⟨imageFileHeader,page d,S⟩) path hready hR rfl (hother.directories e hp hde) hpt hk hA.fits
    exact ⟨s',hexec.trans hs',fun hbad => by cases hbad⟩

end UoDOS.Kernel
