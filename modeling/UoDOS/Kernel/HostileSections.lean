import UoDOS.Kernel.ExecReturns
import UoDOS.Kernel.ProgramFiles

/-! # Hostile section headers

What a section header says decides whether exec returns. Sections of whole pages that end behind
their start are loaded into pages that were free before, all of them below `KERNBASE`.
-/
namespace UoDOS.Kernel
open ByteMemory Paging Processes FileSystem Strings Results Function

variable {M : Mounted} {R : ℕ → Prop} {o o' : Owner} {d e B : ℕ} {f : Fin NFILE}
  {l l' : Loader} {s s' : System} {p : Fin NPROC} {path : CString} {argv : List CString} {junk : Bytes}
  {m : Memory}

theorem Sized.allocate_plenty {S : ℕ} {L : Layout} (newsz : ℕ) (h : Sized R m o d S)
    (hR : Manageable L R) (hle : S ≤ newsz) (hlow : newsz < KERNBASE) (hpos : 0 < newsz)
    (hplenty : ¬ Scarce (1025 + ((newsz + 4095) / 4096 - (S + 4095) / 4096)) o) :
    ∃ m' o', allocateMemoryAndPageTables L m (page d) S newsz = .ok (newsz,m') ∧ Extends d m o m' o' ∧
      Sized R m' o' d newsz := by
  obtain ⟨r,m1,hal⟩ := h.allocate_returns hR newsz
  have hr0 : r ≠ 0 := by
    rintro rfl
    obtain ⟨o',-,-,⟨hbad,-⟩ | ⟨-,-,-,hout⟩⟩ := h.owns.allocate_pages_spares hR h.directory hle hlow hal
    · omega
    · exact hplenty (hout.scarce (fun k hk => by rw [h.maps]; omega))
  obtain ⟨o1,hext,hs1,hres⟩ := h.allocate hR hal
  obtain ⟨hmax,-⟩ := hres.resolve_left hr0
  obtain rfl : r = newsz := by omega
  rw [if_neg hr0] at hs1
  exact ⟨m1,o1,hal,hext,hs1⟩

theorem loadSections_next {pgdir k position size n : ℕ} {bytes : List UInt8}
    (hr : l.read M f position 40 = .ok (40,bytes,l'))
    (hal : allocateMemoryAndPageTables M.image.toLayout l'.memory pgdir size
      ((VirtualAddress (write (fun _ => 0) 0 bytes) + ActualSize (write (fun _ => 0) 0 bytes)) % 2^32) =
        .ok (n,m)) (hne : n ≠ 0) :
    loadSections M f pgdir (k + 1) l position size =
      loadProgramSegmentIntoPageTable M f { l' with memory := m } pgdir
        (VirtualAddress (write (fun _ => 0) 0 bytes)) (OffsetInExeFile (write (fun _ => 0) 0 bytes))
        (ActualSize (write (fun _ => 0) 0 bytes)) >>= fun x =>
      if x.1 < 0 then .ok (.failed,x.2) else loadSections M f pgdir k x.2 (l'.files f).Position n := by
  rw [loadSections,hr]
  simp only [bind,Except.bind,ne_eq,not_true_eq_false,↓reduceIte,hal,if_neg hne]

theorem loadLoop_blank {pgdir addr size fuel i : ℕ} {z : ℤ}
    (he : loadLoop M f pgdir addr 0 size fuel l i = .ok (z,l')) : z = 0 ∧ l'.files = l.files := by
  induction fuel generalizing l i with
  | zero => cases he
  | succ fuel ih =>
    rw [loadLoop] at he
    split at he
    swap
    · cases he
      exact ⟨rfl,rfl⟩
    dsimp only at he
    generalize (if size - i < PGSIZE then size - i else PGSIZE) = n at he
    split at he
    · cases he
    rw [if_pos rfl] at he
    split at he
    · obtain ⟨rfl,hfiles⟩ := ih he
      exact ⟨rfl,hfiles⟩
    · cases he

section Hostile

def wrapping : Mounted := programVolume 512 [(0,1,0),(0x80000000,0x80000000,0)]

def sampleSection (M : Mounted) (k : ℕ) : List UInt8 :=
  (List.range 40).map (delivered M [2] (0x80 + 24 + 96 + 40 * k) 40)

theorem Sample.section_read (h : Sample M) {k : ℕ} (hw : Waiting firstFile (programFile M) l.files)
    (hk : 0x80 + 24 + 96 + 40 * k + 40 < (programFile M).Size) :
    ∃ l', l.read M firstFile (0x80 + 24 + 96 + 40 * k) 40 = .ok (40,sampleSection M k,l') ∧ l'.memory = l.memory ∧
      Waiting firstFile (programFile M) l'.files ∧ (l'.files firstFile).Position = 0x80 + 24 + 96 + 40 * (k + 1) := by
  have hr := hw.read h.file h.readable (P := 0x80 + 24 + 96 + 40 * k) (n := 40) (by omega) hk.le
  refine ⟨_,hr,rfl,(hw.read_on h.file h.readable hk hr).2,?_⟩
  dsimp only
  rw [update_self]
  exact Nat.add_assoc _ _ _

theorem Sample.starts (hM : Sample M) (h : Owns R m o) (hR : Manageable M.image.toLayout R)
    (hplenty : ¬ Scarce 3000 o) :
    ∃ g m1 o1 files, o g = .free ∧ setupKernelVirtualMemory M.image.toLayout m = .ok (page g,m1) ∧
      Sized R m1 o1 g 0 ∧ ¬ Scarce 1026 o1 ∧ Prescribed M.image.toLayout m1 g ∧
      readHeaders M firstFile ⟨m,update (openedTable (openProgram M)) firstFile (programFile M)⟩ =
        .ok (some (fileHeader M [2]),⟨m,files⟩) ∧
      (0x80 + 24 + 96 < (programFile M).Size → Waiting firstFile (programFile M) files) ∧
      ((programFile M).Size = 0x80 + 24 + 96 → (files firstFile).Eof = true) := by
  rcases h.setup_words hR with ⟨-,-,-,hsc,-⟩ | ⟨g,m1,o1,hsetup,hdf,h1,hg,-,hent,-⟩
  · exact absurd (hsc.mono (by norm_num)) hplenty
  obtain ⟨files,hhead,hw,heof⟩ := hM.headers m
  refine ⟨g,m1,o1,files,hdf,hsetup,sized_new h h1 hdf hg,fun hsc => ?_,fun n _ hn => hent n hn,hhead,hw,heof⟩
  exact hplenty ((h1.scarce hg.within hsc (h1.users_below (n := 0)
    (fun k hk => absurd hk (h.new_empty hdf hg k)))).mono (by norm_num))

structure FirstByte (M : Mounted) : Prop where
  sample : Sample M
  inside : 0x80 + 24 + 96 + 40 < (programFile M).Size
  address : VirtualAddress (write (fun _ => 0) 0 (sampleSection M 0)) = 0
  size : ActualSize (write (fun _ => 0) 0 (sampleSection M 0)) = 1
  offset : OffsetInExeFile (write (fun _ => 0) 0 (sampleSection M 0)) = 0

theorem FirstByte.loads {files : FileTable} (h : FirstByte M) (k : ℕ) (hs : Sized R m o d 0)
    (hR : Manageable M.image.toLayout R) (hplenty : ¬ Scarce 1026 o)
    (hw : Waiting firstFile (programFile M) files) :
    ∃ l' o', loadSections M firstFile (page d) (k + 1) ⟨m,files⟩ (0x80 + 24 + 96) 0 =
        loadSections M firstFile (page d) k l' (0x80 + 24 + 96 + 40) 1 ∧
      Extends d m o l'.memory o' ∧ Sized R l'.memory o' d 1 ∧ Waiting firstFile (programFile M) l'.files := by
  obtain ⟨l1,hr1,hmem1,hw1,hpos1⟩ := h.sample.section_read (k := 0) (l := ⟨m,files⟩) hw h.inside
  obtain ⟨m2,o2,hal,hext2,hs2⟩ := hs.allocate_plenty 1 hR (by norm_num) (by decide) (by norm_num) hplenty
  obtain ⟨z,l2,hload⟩ := loadLoop_returns (M := M) (f := firstFile) (l := { l1 with memory := m2 })
    0 0 1 (2^20 + 1) 0 hs2 hR h.sample.file.clusterSize_pos (hw1.holding.readable h.sample.readable) rfl
    (by norm_num) rfl (by norm_num) (by norm_num)
  have hseg : loadProgramSegmentIntoPageTable M firstFile { l1 with memory := m2 } (page d) 0 0 1 = .ok (z,l2) := by
    rw [loadProgramSegmentIntoPageTable,if_neg (by decide)]
    exact hload
  obtain ⟨hs3,hext3,-⟩ := loadProgramSegment_ok (l := { l1 with memory := m2 }) hs2 hR hseg
  obtain ⟨rfl,hfiles⟩ := loadLoop_blank hload
  refine ⟨l2,o2,?_,hext2.trans hext3,hs3,by rw [hfiles]; exact hw1⟩
  rw [loadSections_next hr1 (n := 1) (m := m2) (by rw [hmem1,h.address,h.size]; exact hal) (by norm_num),
    h.address,h.size,h.offset,hseg]
  simp only [bind,Except.bind,lt_irrefl,if_false,hpos1]

def oneByte : Mounted := programVolume 512 [(0,1,0)]

theorem oneByte_sample : Sample oneByte := sample_of (by decide +kernel) (by decide +kernel)

end Hostile

end UoDOS.Kernel
