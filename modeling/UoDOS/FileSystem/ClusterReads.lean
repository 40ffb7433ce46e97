import UoDOS.FileSystem.SubDirectory

/-! # Reads inside a cluster

fsFat12ReadCluster shortens its last chunk to the size that is left, but not its first chunk to
the end of the sector it starts in.
-/
namespace UoDOS.FileSystem
open ByteMemory

section Copies
variable {α : Type} (fetch : ℕ → ℕ → α)

/-- The loop of fsFat12ReadCluster with `fetch sector i` for the byte `Data[i]` of the
buffer of a sector. -/
def copySectors (BytesPerSector : ℕ) : ℕ → ℕ → ℕ → ℕ → Except Stop (List α)
  | _, _, _, 0 => .ok []
  | 0, _, _, _ + 1 => .error .hang
  | n + 1, sector, offset, size + 1 => do
    let sectorContentsSize := if size + 1 < BytesPerSector then size + 1 else BytesPerSector
    let rest ← copySectors BytesPerSector n ((sector + 1) % 2^32) 0 (size + 1 - sectorContentsSize)
    .ok ((List.range sectorContentsSize).map (fun i => fetch sector (offset + i)) ++ rest)

def copyCluster (v : Volume) (clusterNumber offset size : ℕ) : Except Stop (ℕ × List α) := do
  let ClusterSize := v.mount.ClusterSize
  let BytesPerSector := v.Bpb.BytesPerSector.toNat
  let size := if ClusterSize < size then ClusterSize else size
  let offset := if ClusterSize ≤ offset then 0 else offset
  let size := if ClusterSize < (offset + size) % 2^32 then ClusterSize - offset else size
  let sector := (v.mount.RootOffset + v.mount.RootSize +
    (2^32 - 2 + clusterNumber) % 2^32 * v.Bpb.SectorsPerCluster.toNat) % 2^32
  if 0 < offset then
    let sectorOffset := offset / BytesPerSector
    let offset := offset % BytesPerSector
    let left := ClusterSize - (sectorOffset * BytesPerSector + offset)
    let size := if left < size then left else size
    let bytes ← copySectors fetch BytesPerSector size ((sector + sectorOffset) % 2^32) offset size
    .ok (size,bytes)
  else
    let bytes ← copySectors fetch BytesPerSector size sector offset size
    .ok (size,bytes)

/-- Where byte `i` of a copy comes from that starts at `offset` in a sector: only the
first sector is read from `offset` on, and 512 bytes of it. -/
def place (sector offset i : ℕ) : ℕ × ℕ :=
  ((sector + i / 512) % 2^32,if i < 512 then offset + i else i % 512)

variable {fetch}

theorem place_later (sector offset j : ℕ) :
    place sector offset (512 + j) = place ((sector + 1) % 2^32) 0 j := by
  have h1 : (512 + j) / 512 = j / 512 + 1 := by omega
  have h2 : (512 + j) % 512 = if j < 512 then 0 + j else j % 512 := by
    split_ifs <;> omega
  rw [place,place,if_neg (by omega),h1,h2,Prod.mk.injEq]
  exact ⟨by omega,rfl⟩

theorem copySectors_eq {n sector offset size : ℕ} (hs : sector < 2^32) (hn : size ≤ n) :
    copySectors fetch 512 n sector offset size =
      .ok ((List.range size).map (fun i => (fun x => fetch x.1 x.2) (place sector offset i))) := by
  induction n generalizing sector offset size with
  | zero =>
    obtain rfl : size = 0 := by omega
    rfl
  | succ n ih =>
    cases size with
    | zero => rfl
    | succ size =>
      have hfirst : ∀ i < 512, place sector offset i = (sector,offset + i) := by
        intro i hi
        rw [place,if_pos hi,Nat.div_eq_of_lt hi,Nat.add_zero,Nat.mod_eq_of_lt hs]
      rw [copySectors]
      dsimp only
      rw [ih (Nat.mod_lt _ (by norm_num)) (by split_ifs <;> omega)]
      simp only [bind,Except.bind,Except.ok.injEq]
      split_ifs with hlt
      · rw [Nat.sub_self,List.range_zero,List.map_nil,List.append_nil]
        apply List.map_congr_left
        intro i hi
        rw [hfirst i (by have := List.mem_range.mp hi; omega)]
      · obtain ⟨m,hm⟩ : ∃ m, size + 1 = 512 + m := ⟨size + 1 - 512,by omega⟩
        rw [hm,List.range_add,List.map_append,Nat.add_sub_cancel_left,List.map_map]
        refine congrArg₂ (· ++ ·) (List.map_congr_left ?_) (List.map_congr_left ?_)
        · intro i hi
          rw [hfirst i (List.mem_range.mp hi)]
        · intro j _
          rw [Function.comp_apply,place_later]

end Copies

variable {M : Mounted} {c offset size : ℕ}

theorem readSectors_eq_copy (n sector offset size : ℕ) : readSectors M n sector offset size =
    copySectors M.disk M.volume.Bpb.BytesPerSector.toNat n sector offset size := by
  induction n generalizing sector offset size with
  | zero => cases size <;> rfl
  | succ n ih =>
    cases size with
    | zero => rfl
    | succ size =>
      rw [readSectors,copySectors,ih]

theorem readCluster_eq_copy (c offset size : ℕ) :
    fsFat12ReadCluster M c offset size = copyCluster M.disk M.volume c offset size := by
  simp only [fsFat12ReadCluster,copyCluster,readSectors_eq_copy]

theorem copyCluster_sector {α : Type} (fetch : ℕ → ℕ → α) {v : Volume} (ho : offset < v.mount.ClusterSize) :
    copyCluster fetch v c offset size = .ok (min size (v.mount.ClusterSize - offset),
      (List.range (min size (v.mount.ClusterSize - offset))).map (fun i => (fun x => fetch x.1 x.2)
        (place ((v.mount.RootOffset + v.mount.RootSize +
          (2^32 - 2 + c) % 2^32 * v.Bpb.SectorsPerCluster.toNat + offset / 512) % 2^32) (offset % 512) i))) := by
  have hC := v.clusterSize
  have hS := v.Bpb.SectorsPerCluster.toNat_lt
  have hb : v.Bpb.BytesPerSector.toNat = 512 := by
    rw [v.sector_size]
    rfl
  -- the three clampings of the size give the same minimum
  have hsize : (if v.mount.ClusterSize < (offset + if v.mount.ClusterSize < size then v.mount.ClusterSize
      else size) % 2^32 then v.mount.ClusterSize - offset else if v.mount.ClusterSize < size then
      v.mount.ClusterSize else size) = min size (v.mount.ClusterSize - offset) := by
    split_ifs <;> omega
  have hleft : v.mount.ClusterSize - (offset / 512 * 512 + offset % 512) = v.mount.ClusterSize - offset := by
    omega
  simp only [copyCluster,if_neg (Nat.not_le.mpr ho),hsize,hb,hleft]
  split_ifs with h0 hlt
  · omega
  · rw [copySectors_eq (Nat.mod_lt _ (by norm_num)) le_rfl,Nat.mod_add_mod]
    rfl
  · obtain rfl : offset = 0 := by omega
    rw [copySectors_eq (Nat.mod_lt _ (by norm_num)) le_rfl]
    rfl

theorem copyCluster_eq {α : Type} (fetch : ℕ → ℕ → α) {v : Volume} (h2 : 2 ≤ c) (hc : c < 2^32)
    (ho : offset < v.mount.ClusterSize) :
    copyCluster fetch v c offset size = .ok (min size (v.mount.ClusterSize - offset),
      (List.range (min size (v.mount.ClusterSize - offset))).map (fun i =>
        (fun x => fetch x.1 x.2) (place ((v.clusterSector c + offset / 512) % 2^32) (offset % 512) i))) := by
  have hq : (2^32 - 2 + c) % 2^32 = c - 2 := by omega
  rw [copyCluster_sector fetch ho,hq]
  rfl

def clusterByte (D : Disk) (v : Volume) (c i : ℕ) : UInt8 :=
  D ((v.clusterSector c + i / 512) % 2^32) (i % 512)

/-- The read returns the bytes of the cluster from `offset` on, as many as are wanted
and there are, and every byte that it copies is one of the 512 of a sector. -/
def ReadsCluster (M : Mounted) (c offset size : ℕ) : Prop :=
  let n := min size (M.volume.mount.ClusterSize - offset)
  fsFat12ReadCluster M c offset size =
      .ok (n,(List.range n).map (fun i => clusterByte M.disk M.volume c (offset + i))) ∧
    ∃ places, copyCluster Prod.mk M.volume c offset size = .ok (n,places) ∧ ∀ x ∈ places, x.2 < BSIZE

/-- The read ends in the sector it starts in, or starts at the beginning of one. -/
def InSector (ClusterSize offset size : ℕ) : Prop :=
  offset % 512 = 0 ∨ offset % 512 + min size (ClusterSize - offset) ≤ 512

instance (C o n : ℕ) : Decidable (InSector C o n) := inferInstanceAs (Decidable (_ ∨ _))

theorem place_of_inSector {ClusterSize sector i : ℕ} (h : InSector ClusterSize offset size)
    (hi : i < min size (ClusterSize - offset)) : place ((sector + offset / 512) % 2^32) (offset % 512) i =
      ((sector + (offset + i) / 512) % 2^32,(offset + i) % 512) := by
  have h1 : offset / 512 + i / 512 = (offset + i) / 512 := by
    rcases h with h | h <;> omega
  have h2 : (if i < 512 then offset % 512 + i else i % 512) = (offset + i) % 512 := by
    split_ifs <;> rcases h with h | h <;> omega
  rw [place,h2,Nat.mod_add_mod,Nat.add_assoc,h1]

theorem place_behind {ClusterSize : ℕ} (h : ¬ InSector ClusterSize offset size) (sector : ℕ) :
    512 - offset % 512 < min size (ClusterSize - offset) ∧
      place ((sector + offset / 512) % 2^32) (offset % 512) (512 - offset % 512) =
        ((sector + offset / 512) % 2^32,512) := by
  simp only [InSector,not_or,not_le] at h
  have hi : 512 - offset % 512 < 512 := by omega
  refine ⟨by omega,?_⟩
  rw [place,if_pos hi,Nat.div_eq_of_lt hi,Nat.add_zero,Nat.mod_mod,
    show offset % 512 + (512 - offset % 512) = 512 by omega]

theorem reads_cluster_iff (h2 : 2 ≤ c) (hc : c < 2^32) (ho : offset < M.volume.mount.ClusterSize) :
    ReadsCluster M c offset size ↔ InSector M.volume.mount.ClusterSize offset size := by
  constructor
  · rintro ⟨-,places,hp,hplaces⟩
    by_contra hno
    simp only [InSector,not_or,not_le] at hno
    rw [copyCluster_eq _ h2 hc ho] at hp
    cases hp
    -- the byte behind the end of the first sector
    have hx := hplaces _ (List.mem_map_of_mem (List.mem_range.mpr (show 512 - offset % 512 < _ by omega)))
    simp only [place,if_pos (show 512 - offset % 512 < 512 by omega),BSIZE] at hx
    omega
  · intro h
    constructor
    · rw [readCluster_eq_copy,copyCluster_eq _ h2 hc ho]
      congr 2
      apply List.map_congr_left
      intro i hi
      rw [place_of_inSector h (List.mem_range.mp hi)]
      rfl
    · refine ⟨_,copyCluster_eq _ h2 hc ho,?_⟩
      intro x hx
      obtain ⟨i,hi,rfl⟩ := List.mem_map.mp hx
      rw [place_of_inSector h (List.mem_range.mp hi)]
      exact Nat.mod_lt _ (by norm_num [BSIZE])

def pairVolume : Volume where
  Bpb := { bpb smallBoot with SectorsPerCluster := 2 }
  mount := mountInfo { bpb smallBoot with SectorsPerCluster := 2 }
  mounted := rfl
  sector_size := by decide
  fat_size := by decide

def pairMounted : Mounted where
  image := smallKernel
  memory := fun _ => 0
  volume := pairVolume
  disk := fun _ _ => 0

theorem reads_cluster_iff_header : ReadsCluster pairMounted 2 24 40 :=
  (reads_cluster_iff (by decide) (by decide) (by decide)).mpr (by decide)

/-- A sector's length from the second byte of a cluster on. -/
theorem unaligned_read_leaves_buffer : ¬ ReadsCluster pairMounted 2 1 512 := by
  rintro ⟨-,places,hp,hplaces⟩
  rw [copyCluster_eq _ (by decide) (by decide) (by decide)] at hp
  rw [← (Prod.mk.inj (Except.ok.inj hp)).2] at hplaces
  have hx := hplaces (3,512) (List.mem_map.mpr ⟨511,List.mem_range.mpr (by decide),by decide⟩)
  exact absurd hx (by decide)

end UoDOS.FileSystem
