import UoDOS.Memory.PhysicalMemory

/-! # Mounting a FAT12 volume

fsFat12Initialise of fs.c reads the boot sector, derives the mount information from it and
copies the first file allocation table into the array `fat`.
-/
namespace UoDOS.FileSystem
open ByteMemory Paging

def BSIZE : ℕ := 512

/-- The bytes from `Data` on in the buffer that `diskBufferRead(0,n)` returns: the
sector, and from index `BSIZE` on whatever memory lies behind the buffer. -/
abbrev Disk := ℕ → Bytes

/-- The fields of the BIOS parameter block that the kernel uses. -/
structure BIOSParameterBlock where
  BytesPerSector : UInt16
  SectorsPerCluster : UInt8
  ReservedSectors : UInt16
  NumberOfFats : UInt8
  NumDirEntries : UInt16
  NumSectors : UInt16
  SectorsPerFat : UInt16
  deriving DecidableEq

/-- The parameter block in a boot sector, behind the jump and the OEM name. -/
def bpb (b : Bytes) : BIOSParameterBlock where
  BytesPerSector := readHalf b 11
  SectorsPerCluster := b 13
  ReservedSectors := readHalf b 14
  NumberOfFats := b 16
  NumDirEntries := readHalf b 17
  NumSectors := readHalf b 19
  SectorsPerFat := readHalf b 22

structure MountInfo where
  NumSectors : ℕ
  FatOffset : ℕ
  NumRootEntries : ℕ
  RootOffset : ℕ
  RootSize : ℕ
  FatSize : ℕ
  ClusterSize : ℕ

def mountInfo (b : BIOSParameterBlock) : MountInfo where
  NumSectors := b.NumSectors.toNat
  FatOffset := b.ReservedSectors.toNat
  FatSize := b.SectorsPerFat.toNat
  NumRootEntries := b.NumDirEntries.toNat
  RootOffset := b.NumberOfFats.toNat * b.SectorsPerFat.toNat + b.ReservedSectors.toNat
  RootSize := b.NumDirEntries.toNat * 32 / b.BytesPerSector.toNat
  ClusterSize := b.SectorsPerCluster.toNat * b.BytesPerSector.toNat

/-- The globals `bootSector` and `mountInfo` once fsFat12Initialise has accepted a
boot sector. -/
structure Volume where
  Bpb : BIOSParameterBlock
  mount : MountInfo
  mounted : mount = mountInfo Bpb
  sector_size : Bpb.BytesPerSector = 512
  fat_size : mount.FatSize ≤ MAXFATSIZE

/-- The kernel's image with the address of the array `fat` in it. -/
structure KernelImage extends Layout where
  fat : ℕ
  fat_above : KERNLINK ≤ fat
  fat_below : fat + BSIZE * MAXFATSIZE ≤ kernelEnd

/-- The kernel's memory by address, with the places and lengths of the blocks that
the copy loop has stored. -/
structure KernelMemory where
  bytes : Bytes
  stores : List (ℕ × ℕ)

def KernelMemory.memmove (k : KernelMemory) (dst : ℕ) (data : Bytes) (n : ℕ) : KernelMemory where
  bytes x := if dst ≤ x ∧ x < dst + n then data (x - dst) else k.bytes x
  stores := k.stores ++ [(dst,n)]

/-- The copy loop with `n` sectors to go: `&fat + fatOffset` has the stride of the
whole array. -/
def copyFat (K : KernelImage) (D : Disk) (mount : MountInfo) :
    ℕ → ℕ → ℕ → KernelMemory → KernelMemory
  | 0, _, _, k => k
  | n + 1, fatSector, fatOffset, k =>
    let fatContents := D ((fatSector + mount.FatOffset) % 2^32)
    copyFat K D mount n (fatSector + 1) ((fatOffset + 512) % 2^32)
      (k.memmove ((K.fat + fatOffset * (BSIZE * MAXFATSIZE)) % 2^32) fatContents 512)

def fsFat12Initialise (K : KernelImage) (D : Disk) (b : Bytes) :
    Except Stop (Volume × KernelMemory) :=
  if h : (bpb (D 0)).BytesPerSector = 512 then
    if hf : (mountInfo (bpb (D 0))).FatSize ≤ MAXFATSIZE then
      let v : Volume := ⟨bpb (D 0),mountInfo (bpb (D 0)),rfl,h,hf⟩
      .ok (v,copyFat K D v.mount v.mount.FatSize 0 0 ⟨b,[]⟩)
    else .error (.panic "FAT too large")
  else .error (.panic "Sector size != 512")

theorem KernelImage.fat_lt (K : KernelImage) : K.fat < 0x8E000000 := by
  have h1 := K.fat_below
  have h2 := K.kernelEnd_below
  simp only [P2V,PHYSTOP,KERNBASE] at h2
  omega

variable {K : KernelImage} {D : Disk} {b : Bytes} {v : Volume} {k : KernelMemory}

theorem initialise_eq_ok (h : fsFat12Initialise K D b = .ok (v,k)) :
    v.Bpb = bpb (D 0) ∧ k = copyFat K D v.mount v.mount.FatSize 0 0 ⟨b,[]⟩ := by
  unfold fsFat12Initialise at h
  split_ifs at h
  cases h
  exact ⟨rfl,rfl⟩

theorem initialise_accepts (K : KernelImage) (b : Bytes) (hb : (bpb (D 0)).BytesPerSector = 512)
    (hf : (bpb (D 0)).SectorsPerFat.toNat ≤ MAXFATSIZE) :
    ∃ v k, fsFat12Initialise K D b = .ok (v,k) := by
  unfold fsFat12Initialise
  rw [dif_pos hb,dif_pos (show (mountInfo (bpb (D 0))).FatSize ≤ MAXFATSIZE from hf)]
  exact ⟨_,_,rfl⟩

theorem copyFat_stores (mount : MountInfo) {n fatSector fatOffset : ℕ} {k : KernelMemory}
    (h : fatOffset + 512 * n < 2^32) :
    (copyFat K D mount n fatSector fatOffset k).stores = k.stores ++ (List.range n).map
      (fun i => ((K.fat + (fatOffset + 512 * i) * (BSIZE * MAXFATSIZE)) % 2^32,512)) := by
  induction n generalizing fatSector fatOffset k with
  | zero => simp [copyFat]
  | succ n ih =>
    have hm : (fatOffset + 512) % 2^32 = fatOffset + 512 := by omega
    have ho : ∀ i, fatOffset + 512 * (i + 1) = fatOffset + 512 + 512 * i := by omega
    rw [copyFat,hm,ih (by omega),List.range_succ_eq_map]
    simp [KernelMemory.memmove,Function.comp_def,ho]

def FatInMemory (K : KernelImage) (D : Disk) (v : Volume) (b : Bytes) : Prop :=
  ∀ i < 512 * v.mount.FatSize, b (K.fat + i) = D (v.mount.FatOffset + i / 512) (i % 512)

structure FatLoaded (K : KernelImage) (D : Disk) (v : Volume) (k : KernelMemory) : Prop where
  table : FatInMemory K D v k.bytes
  inside : ∀ s ∈ k.stores, K.fat ≤ s.1 ∧ s.1 + s.2 ≤ K.fat + BSIZE * MAXFATSIZE

theorem copyFat_one (v : Volume) (hv : v.mount.FatSize ≤ 1) :
    FatLoaded K D v (copyFat K D v.mount v.mount.FatSize 0 0 ⟨b,[]⟩) := by
  have hF := K.fat_lt
  have hR : v.mount.FatOffset < 2^16 := by
    rw [v.mounted]
    exact v.Bpb.ReservedSectors.toNat_lt
  constructor
  · intro i hi
    have h1 : v.mount.FatSize = 1 := by omega
    have ha : (K.fat + 0 * (BSIZE * MAXFATSIZE)) % 2^32 = K.fat := by omega
    have hs : (0 + v.mount.FatOffset) % 2^32 = v.mount.FatOffset := by omega
    rw [h1] at hi ⊢
    simp only [copyFat,KernelMemory.memmove,ha,hs]
    rw [if_pos (by omega),Nat.add_sub_cancel_left,Nat.div_eq_of_lt (by omega),
      Nat.mod_eq_of_lt (by omega),Nat.add_zero]
  · intro s hs
    rw [copyFat_stores v.mount (by omega)] at hs
    obtain ⟨i,hi,rfl⟩ := List.mem_map.mp hs
    have hi' := List.mem_range.mp hi
    have ha : (K.fat + (0 + 512 * i) * (BSIZE * MAXFATSIZE)) % 2^32 = K.fat := by
      rw [show i = 0 by omega]
      omega
    rw [ha]
    simp only [BSIZE,MAXFATSIZE]
    omega

theorem copyFat_outside (v : Volume) (hv : 2 ≤ v.mount.FatSize) :
    ¬ FatLoaded K D v (copyFat K D v.mount v.mount.FatSize 0 0 ⟨b,[]⟩) := by
  intro h
  have hF := K.fat_lt
  have hS := v.fat_size
  have hm : ((K.fat + (0 + 512 * 1) * (BSIZE * MAXFATSIZE)) % 2^32,512) ∈
      (copyFat K D v.mount v.mount.FatSize 0 0 ⟨b,[]⟩).stores := by
    rw [copyFat_stores v.mount (by simp only [MAXFATSIZE] at hS; omega)]
    exact List.mem_append_right _ (List.mem_map.mpr ⟨1,List.mem_range.mpr (by omega),rfl⟩)
  have hi := (h.inside _ hm).2
  simp only [BSIZE,MAXFATSIZE] at hi
  omega

/-- Mounting brings the table into memory exactly for volumes whose table is at most
one sector. -/
theorem fat_loaded_iff (h : fsFat12Initialise K D b = .ok (v,k)) :
    FatLoaded K D v k ↔ (bpb (D 0)).SectorsPerFat ≤ 1 := by
  obtain ⟨hb,rfl⟩ := initialise_eq_ok h
  have hs : v.mount.FatSize = (bpb (D 0)).SectorsPerFat.toNat := by
    rw [v.mounted,hb]
    rfl
  rw [UInt16.le_iff_toNat_le,← hs]
  constructor
  · intro hl
    by_contra hn
    exact copyFat_outside v (Nat.lt_of_not_le hn) hl
  · intro hl
    exact copyFat_one v hl

def smallKernel : KernelImage where
  data := 0x80101000
  kernelEnd := 0x80105000
  data_aligned := by decide
  data_above := by decide
  kernelEnd_above := by decide
  kernelEnd_below := by decide
  fat := 0x80101000
  fat_above := by decide
  fat_below := by decide

def bootDisk (sectorsPerFat : UInt8) : Disk := fun n i =>
  if n = 0 then match i with
    | 12 => 2
    | 13 => 8
    | 14 => 8
    | 16 => 2
    | 18 => 2
    | 19 => 0xC0
    | 20 => 0x4E
    | 22 => sectorsPerFat
    | _ => 0
  else 0

theorem fat_loaded_iff_oneSector : ∃ v k,
    fsFat12Initialise smallKernel (bootDisk 1) (fun _ => 0) = .ok (v,k) ∧
      FatLoaded smallKernel (bootDisk 1) v k := by
  obtain ⟨v,k,h⟩ := initialise_accepts smallKernel (fun _ => 0) (D := bootDisk 1) (by decide)
    (by decide)
  exact ⟨v,k,h,(fat_loaded_iff h).mpr (by decide)⟩

/-- The kernel's own disk image has tables of eight sectors. -/
theorem own_image_not_loaded : ∃ v k,
    fsFat12Initialise smallKernel (bootDisk 8) (fun _ => 0) = .ok (v,k) ∧
      ¬ FatLoaded smallKernel (bootDisk 8) v k := by
  obtain ⟨v,k,h⟩ := initialise_accepts smallKernel (fun _ => 0) (D := bootDisk 8) (by decide)
    (by decide)
  obtain ⟨hb,rfl⟩ := initialise_eq_ok h
  refine ⟨v,_,h,copyFat_outside v ?_⟩
  rw [v.mounted,hb]
  decide

end UoDOS.FileSystem
