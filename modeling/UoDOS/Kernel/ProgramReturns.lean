import UoDOS.FileSystem.Termination
import UoDOS.Kernel.ProgramStart

/-! # When exec returns

exec stops the kernel for what a section header says, or where it closes the executable for the
second time.
-/
namespace UoDOS.Kernel
open ByteMemory Paging Processes FileSystem Strings Results Function

variable {M : Mounted} {R : ℕ → Prop} {m m' : Memory} {o o' : Owner} {d S : ℕ} {f : Fin NFILE}
  {l l' : Loader} {s s' : System} {p : Fin NPROC} {x : File}
  {bytes : List UInt8} {file file' : File} {k n : ℕ}

section Reads

theorem fileRead_file {t : FileTable} {answer : ℤ × List UInt8} (hx : Readable (t f)) (n : ℕ) :
    fileRead M t f n answer =
      (fsFat12Read M (t f) n).map (fun r => ((r.1 : ℤ),r.2.1,update t f r.2.2)) := by
  rw [fileRead,if_neg (by simp [hx.readable]),hx.type]
  cases fsFat12Read M (t f) n with
  | error e => rfl
  | ok r => rfl

theorem read_eq (hx : Readable (l.files f)) (position n : ℕ) :
    l.read M f position n = (fsFat12Read M { l.files f with Position := position } n).map
      (fun r => ((r.1 : ℤ),r.2.1,{ l with files := update l.files f r.2.2 })) := by
  have hset : Readable (update l.files f { l.files f with Position := position } f) := by
    rw [update_self]
    exact ⟨hx.type,hx.readable⟩
  rw [Loader.read,fileRead_file hset,update_self]
  cases fsFat12Read M { l.files f with Position := position } n with
  | error e => rfl
  | ok r => simp only [Except.map,bind,Except.bind,update_idem]

theorem read_answers (hC : 0 < M.volume.mount.ClusterSize) (hx : Readable (l.files f)) (position n : ℕ) :
    ∃ count bytes l', l.read M f position n = .ok (count,bytes,l') := by
  obtain ⟨r,hr⟩ := FileSystem.read_returns hC { l.files f with Position := position } n
  rw [read_eq hx,hr]
  exact ⟨_,_,_,rfl⟩

theorem readClusters_position {length c i : ℕ}
    (hp : file.Position < 2^32) (h : readClusters M n file c i length = .ok (k,bytes,file')) :
    file'.Position = (file.Position + k) % 2^32 := by
  induction n generalizing file c i k bytes length with
  | zero =>
    cases length with
    | zero =>
      cases h
      exact (Nat.mod_eq_of_lt hp).symm
    | succ length => cases h
  | succ n ih =>
    cases length with
    | zero =>
      cases h
      exact (Nat.mod_eq_of_lt hp).symm
    | succ length =>
      rw [readClusters,bind_eq_ok] at h
      obtain ⟨r,-,h⟩ := h
      dsimp only at h
      split at h
      · cases h
        rfl
      · generalize (if i + r.1 = M.volume.mount.ClusterSize then fsFat12GetNextCluster M c else c) = next at h
        split at h
        · cases h
          rfl
        · rw [bind_eq_ok] at h
          obtain ⟨⟨k',bytes',file1⟩,hq,h⟩ := h
          cases h
          rw [ih (Nat.mod_lt _ (by norm_num)) hq]
          dsimp only
          rw [Nat.mod_add_mod,Nat.add_assoc]

theorem read_position (hp : file.Position < 2^32)
    (h : fsFat12Read M file n = .ok (k,bytes,file')) : file'.Position = (file.Position + k) % 2^32 := by
  unfold fsFat12Read at h
  split_ifs at h
  · exact readClusters_position hp h
  · cases h
    exact (Nat.mod_eq_of_lt hp).symm

theorem read_before_end (hk : k ≠ 0)
    (h : fsFat12Read M file n = .ok (k,bytes,file')) : file.Eof = false := by
  unfold fsFat12Read at h
  split_ifs at h with hc
  · exact hc.2
  · cases h
    exact absurd rfl hk

end Reads

section Segments

theorem loadLoop_returns (addr offset size fuel i : ℕ) (h : Sized R l.memory o d S)
    (hR : Manageable M.image.toLayout R) (hC : 0 < M.volume.mount.ClusterSize) (hx : Readable (l.files f))
    (ha : addr % 4096 = 0) (hend : addr + size ≤ S) (hi : i % 4096 = 0) (hlast : i < size + 4096)
    (hfuel : size + 4096 ≤ i + 4096 * fuel) :
    ∃ z l', loadLoop M f (page d) addr offset size fuel l i = .ok (z,l') := by
  have hlimit : S ≤ 2^31 := h.limit
  induction fuel generalizing l i with
  | zero => exact absurd hfuel (by omega)
  | succ fuel ih =>
    rw [loadLoop]
    split
    swap
    · exact ⟨_,_,rfl⟩
    rename_i hlt
    have hva : (addr + i) % 2^32 = 4096 * ((addr + i) / 4096) := by omega
    have hmod : (addr + i) % 2^32 / 4096 = (addr + i) / 4096 := by omega
    have hnext : (i + PGSIZE) % 2^32 = i + 4096 := by
      simp only [PGSIZE]
      omega
    obtain ⟨g,hg⟩ := (h.maps ((addr + i) / 4096)).mpr (by omega)
    obtain ⟨t,-,hlook,hp,-⟩ := h.owns.lookup_user hR (by omega) hg
    have hpte : (getPageTableEntry l.memory (page d) ((addr + i) % 2^32) false).1 ≠ 0 := by
      rw [hva,hlook]
      have := page_ne_zero t
      dsimp only
      omega
    have hentry := entry_of_lookup h.owns hR h.directory (Nat.mod_lt _ (by norm_num)) hpte
    have hown : OwnPage ((addr + i) % 2^32) (l.memory.entry d ((addr + i) % 2^32 / 4096)) := by
      constructor
      · simp only [KERNBASE]
        omega
      · rw [present_iff,hmod]
        exact (h.owns.entry_of_user hg).1
    dsimp only
    rw [if_neg hpte,hentry]
    have hn : (if size - i < PGSIZE then size - i else PGSIZE) ≤ PGSIZE := by
      split_ifs <;> omega
    generalize (if size - i < PGSIZE then size - i else PGSIZE) = n at hn ⊢
    by_cases hoff : offset = 0
    · rw [if_pos hoff,if_pos hown,hnext]
      have hw := h.write_own (A := List.replicate n 0) hR (by rw [List.length_replicate]; exact hn) (.inr hown)
      exact ih (l := { l with memory := _ }) _ hw.1 hx (by omega) (by omega) (by omega)
    · obtain ⟨count,bytes,l1,hr⟩ := read_answers hC hx ((offset + i) % 2^32) n
      obtain ⟨hmem,hmoved,hlen⟩ := read_ok hr
      have hx1 : Readable (l1.files f) := (Holding.moved ⟨_,_,rfl⟩ hmoved).readable hx
      rw [if_neg hoff,hr]
      simp only [bind,Except.bind]
      rw [if_neg (fun hc => hc.2 hown),hnext,hmem]
      split
      · exact ⟨_,_,rfl⟩
      · have hw := h.write_own hR (hlen.trans hn) (.inr hown)
        exact ih (l := { l1 with memory := _ }) _ hw.1 hx1 (by omega) (by omega) (by omega)

end Segments

section Sections

theorem Sized.allocate_returns {L : Layout} (h : Sized R m o d S) (hR : Manageable L R) (newsz : ℕ) :
    ∃ r m', allocateMemoryAndPageTables L m (page d) S newsz = .ok (r,m') := by
  by_cases hk : KERNBASE ≤ newsz
  · rw [allocateMemoryAndPageTables,if_pos hk]
    exact ⟨_,_,rfl⟩
  by_cases hlt : newsz < S
  · rw [allocateMemoryAndPageTables,if_neg hk,if_pos hlt]
    exact ⟨_,_,rfl⟩
  · refine h.owns.allocate_pages_returns hR h.directory (not_lt.mp hlt) (not_le.mp hk) (fun k hk => ?_)
    rw [h.maps]
    omega

theorem sectionPosition_lt (imageFileHeader : Bytes) (hk : k < NumberOfSections imageFileHeader) :
    0x80 + 24 + SizeOfOptionalHeader imageFileHeader + 40 * k + 40 < 2^32 := by
  have h1 : NumberOfSections imageFileHeader < 2^16 := UInt16.toNat_lt _
  have h2 : SizeOfOptionalHeader imageFileHeader < 2^16 := UInt16.toNat_lt _
  omega

end Sections

section Stack

theorem closeFile_returns (hone : 1 ≤ (s.files f).ReferenceCount) (ht : (s.files f).type ≠ .FD_PIPE) :
    ∃ s', closeFile M s f = .ok s' := by
  unfold closeFile fileClose
  rw [if_neg (by omega)]
  split
  · exact ⟨_,rfl⟩
  · simp only [bind,Except.bind]
    rw [if_neg ht]
    exact ⟨_,rfl⟩

theorem addStack_returns {x : Loaded} (h : Sized R s.memory o d x.memorySize) (hR : Manageable M.image.toLayout R)
    (hx : x.pgdir = page d) (ht : (s.files f).type ≠ .FD_PIPE) (hone : (s.files f).ReferenceCount = 1)
    (hlow : PGROUNDUP x.memorySize + 2 * PGSIZE < KERNBASE) (hplenty : ¬ Scarce 1027 o) :
    ∃ y s', addStack M f s x = .ok (some y,s') := by
  obtain ⟨s1,hclose⟩ := closeFile_returns (M := M) hone.ge ht
  obtain ⟨files,rfl,-⟩ := closeFile_file ht hclose
  have hlimit : x.memorySize ≤ 2^31 := h.limit
  have hround : PGROUNDUP x.memorySize = 4096 * ((x.memorySize + 4095) / 4096) := pgroundup_eq (by omega)
  have hr : Sized R s.memory o d (PGROUNDUP x.memorySize) := h.rounded
  have hmod : (PGROUNDUP x.memorySize + 2 * PGSIZE) % 2^32 = PGROUNDUP x.memorySize + 2 * PGSIZE :=
    Nat.mod_eq_of_lt (by simp only [KERNBASE] at hlow; omega)
  obtain ⟨r,m1,hal⟩ := hr.allocate_returns hR (PGROUNDUP x.memorySize + 2 * PGSIZE)
  have hr0 : r ≠ 0 := by
    rintro rfl
    obtain ⟨o',-,-,⟨hbad,-⟩ | ⟨-,-,-,hout⟩⟩ :=
      hr.owns.allocate_pages_spares hR hr.directory (Nat.le_add_right _ _) hlow hal
    · simp only [PGSIZE] at hbad
      omega
    · have hsc := hout.scarce (fun k hk => by rw [hr.maps]; omega)
      refine hplenty (hsc.mono ?_)
      simp only [PGSIZE]
      omega
  obtain ⟨o1,-,hs1,hres⟩ := hr.allocate hR hal
  rw [if_neg hr0] at hs1
  obtain ⟨hmax,-⟩ := hres.resolve_left hr0
  have hclear : ∃ m2, clearPTEU m1 (page d) (below r (2 * PGSIZE)) = .ok m2 := by
    have hva : below r (2 * PGSIZE) = 4096 * ((x.memorySize + 4095) / 4096) := by
      simp only [below,PGSIZE] at hmax ⊢
      omega
    obtain ⟨g,hg⟩ := (hs1.maps ((x.memorySize + 4095) / 4096)).mpr (by simp only [PGSIZE] at hmax; omega)
    obtain ⟨t,-,hlook,-⟩ := hs1.owns.lookup_user hR (by simp only [KERNBASE,PGSIZE] at hlow; omega) hg
    have := page_ne_zero t
    rw [clearPTEU,hva,hlook]
    dsimp only
    rw [if_neg (by omega)]
    exact ⟨_,rfl⟩
  obtain ⟨m2,hm2⟩ := hclear
  rw [addStack,hclose]
  simp only [bind,Except.bind,hmod,hx,hal,if_neg hr0,hm2]
  exact ⟨_,_,rfl⟩

theorem runImage_returns {x : Loaded} (path : CString) {argv : List CString} {e : ℕ}
    (h : Ready R s.memory o d x.memorySize) (hR : Manageable M.image.toLayout R) (hx : x.pgdir = page d)
    (hp : o e = .directory) (hpt : (s.image p).PageTable = page e) (hk : (s.image p).KernelStack ≠ 0)
    (hfit : Fits argv) : ∃ s', runImage M f s p path argv x = .ok (0,s') := by
  obtain ⟨esp,m1,hstack⟩ := buildStack_returns h.sized.owns hR h.sized.directory h.closed h.guarded h.top hfit
  obtain ⟨h1,-,-⟩ := buildStack_spec h.sized.owns hR h.sized.directory h.closed h.guarded hstack
  obtain ⟨m2,hfree,-⟩ := h1.free_directory hR hp
  rw [runImage,hx,hstack]
  simp [bind,Except.bind,switchToUserVirtualMemory,System.setImage,hk,page_ne_zero,hpt,hfree]

end Stack

end UoDOS.Kernel
