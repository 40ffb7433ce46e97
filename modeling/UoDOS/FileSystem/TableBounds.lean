import UoDOS.FileSystem.ObservedResults
import UoDOS.FileSystem.Termination

/-! # Divisions and reads of the table

A mount looks at the sector size and the length of the table only.
-/
namespace UoDOS.FileSystem
open ByteMemory Strings Traces

variable {M : Mounted} {e : DirectoryEntry} {c k : ℕ}

/-- No division by zero, and both bytes that are read of `fat` lie in the array. -/
def Event.Sound : Event → Prop
  | .divide divisor => divisor ≠ 0
  | .fat fatOffset => fatOffset + 1 < BSIZE * MAXFATSIZE
  | _ => True

/-- All opens are sound, and so are all reads of Files with an entry that an open can find,
from any position. -/
structure Sound (M : Mounted) : Prop where
  opens : ∀ t cwd filename directory junk, ∀ x ∈ (Observed.fsFat12Open M t cwd filename directory junk).events,
    x.Sound
  reads : ∀ file length, Found M file.DirectoryEntry → file.Position < 2^32 →
    ∀ x ∈ (Observed.fsFat12Read M file length).events, x.Sound

def InTable (c : ℕ) : Prop := c + c / 2 + 1 < BSIZE * MAXFATSIZE

def SoundCluster (M : Mounted) (c : ℕ) : Prop :=
  M.volume.mount.ClusterSize ≠ 0 ∧ ∀ k, InTable ((fsFat12GetNextCluster M)^[k] c)

theorem InTable.offset (h : InTable c) : (c + c / 2) % 2^32 + 1 < BSIZE * MAXFATSIZE :=
  lt_of_le_of_lt (Nat.add_le_add_right (Nat.mod_le _ _) 1) h

theorem permits_sound (M : Mounted) : Permits M (fun es => ∀ x ∈ es, x.Sound) (SoundCluster M) where
  law := law_forall _
  buffer _ := List.forall_mem_cons.mpr ⟨trivial,List.forall_mem_singleton.mpr trivial⟩
  divide _ hc := List.forall_mem_singleton.mpr hc.1
  fat _ hc := List.forall_mem_singleton.mpr (hc.2 0).offset
  next _ hc := ⟨hc.1,fun k => hc.2 (k + 1)⟩
  nameless := List.forall_mem_singleton.mpr trivial

theorem permitsPath_sound (filename junk : Bytes) :
    PermitsPath (fun es => ∀ x ∈ es, x.Sound) (fun _ => True) filename junk where
  part _ _ := List.forall_mem_singleton.mpr trivial
  store _ _ := List.forall_mem_singleton.mpr trivial
  rest _ _ _ _ _ _ := trivial
  name := List.forall_mem_singleton.mpr trivial

theorem copyPath_sound (cwd filename : CString) : ∀ x ∈ (Observed.copyPath cwd filename).events, x.Sound := by
  unfold Observed.copyPath
  split
  · exact List.forall_mem_singleton.mpr trivial
  · exact List.forall_mem_cons.mpr ⟨trivial,List.forall_mem_singleton.mpr trivial⟩

theorem followChain_mem {n : ℕ} (hk : k < n) (c : ℕ) :
    .fat (((fsFat12GetNextCluster M)^[k] c + (fsFat12GetNextCluster M)^[k] c / 2) % 2^32) ∈
      (Observed.followChain M n c).events := by
  induction n generalizing k c with
  | zero => omega
  | succ n ih =>
    have hevents : (Observed.followChain M (n + 1) c).events = .fat ((c + c / 2) % 2^32) ::
        (Observed.followChain M n (fsFat12GetNextCluster M c)).events := rfl
    rw [hevents]
    cases k with
    | zero => exact List.mem_cons_self
    | succ k => exact List.mem_cons_of_mem _ (ih (by omega) _)

def fileAt (e : DirectoryEntry) (position : ℕ) : File := ⟨.FD_FILE,1,true,false,0,e,false,position,e.FileSize,0⟩

theorem Sound.divisor (h : Sound M) (he : Found M e) : M.volume.mount.ClusterSize ≠ 0 := by
  have hread := h.reads (fileAt e 0) 0 he (Nat.two_pow_pos 32) (.divide M.volume.mount.ClusterSize)
  apply hread
  rw [Observed.fsFat12Read,if_pos ⟨.inl rfl,rfl⟩]
  exact List.mem_cons_self

theorem chainCluster_lt (M : Mounted) (e : DirectoryEntry) (k : ℕ) : chainCluster M e k < 2^16 := by
  cases k with
  | zero => exact firstCluster_lt e
  | succ k =>
    rw [chainCluster,Function.iterate_succ_apply']
    exact (getNextCluster_lt M _).trans (by norm_num)

theorem Sound.inTable (h : Sound M) (he : Found M e) (k : ℕ) : InTable (chainCluster M e k) := by
  have hC := h.divisor he
  obtain ⟨j,hj,hkj⟩ := chainCluster_early M e k
  have hbound : (j + 1) * M.volume.mount.ClusterSize < 2^32 := by
    have hsize := M.volume.clusterSize
    have hbyte := M.volume.Bpb.SectorsPerCluster.toNat_lt
    calc (j + 1) * M.volume.mount.ClusterSize ≤ (2^12 + 2) * (2^8 * 512) := Nat.mul_le_mul (by omega) (by omega)
      _ < 2^32 := by norm_num
  have hmem : .fat ((chainCluster M e j + chainCluster M e j / 2) % 2^32) ∈
      (Observed.fsFat12Read M (fileAt e ((j + 1) * M.volume.mount.ClusterSize)) 0).events := by
    rw [Observed.fsFat12Read,if_pos ⟨.inl rfl,rfl⟩,if_neg hC]
    refine List.mem_cons_of_mem _ (events_bind_subset _ _ ?_)
    have hhops : (fileAt e ((j + 1) * M.volume.mount.ClusterSize)).Position / M.volume.mount.ClusterSize = j + 1 :=
      Nat.mul_div_cancel _ (Nat.pos_of_ne_zero hC)
    rw [hhops]
    exact followChain_mem (Nat.lt_succ_self j) _
  have hsound := h.reads (fileAt e ((j + 1) * M.volume.mount.ClusterSize)) 0 he hbound _ hmem
  have hlt := chainCluster_lt M e j
  change (chainCluster M e j + chainCluster M e j / 2) % 2^32 + 1 < BSIZE * MAXFATSIZE at hsound
  rw [Nat.mod_eq_of_lt (by omega)] at hsound
  rw [hkj]
  exact hsound

/-- Opens and reads are sound just if the cluster size is not 0 and the chains of all entries
that can be found stay in the table. -/
theorem sound_iff : Sound M ↔ ∀ e, Found M e →
    M.volume.mount.ClusterSize ≠ 0 ∧ ∀ k, InTable (chainCluster M e k) := by
  constructor
  · exact fun h e he => ⟨h.divisor he,h.inTable he⟩
  · intro h
    constructor
    · intro t cwd filename directory junk
      exact ((permits_sound M).open_performs (permitsPath_sound filename.bytes junk) (fun e he _ => h e he) t
        directory (copyPath_sound cwd filename) trivial).events
    · intro file length hfound _
      exact ((permits_sound M).read (h _ hfound) length).events

def farDisk : Disk
  | 0 => smallBoot
  | 2 => fun i => if i = 0 then 65 else if i < 11 then space else if i = 26 ∨ i = 27 then 0xFF else 0
  | _ => fun _ => 0

/-- The disk is mounted, and a read of the file reads far behind the table. -/
theorem far_cluster_outside_table : ∃ v k, fsFat12Initialise smallKernel farDisk (fun _ => 0) = .ok (v,k) ∧
    ¬ Sound ⟨smallKernel,k.bytes,v,farDisk⟩ := by
  refine ⟨smallVolume,copyFat smallKernel farDisk smallVolume.mount 1 0 0 ⟨fun _ => 0,[]⟩,?_,fun h => ?_⟩
  · rw [fsFat12Initialise,dif_pos (by decide),dif_pos (by decide)]
    rfl
  · have hfound : Found ⟨smallKernel,(copyFat smallKernel farDisk smallVolume.mount 1 0 0 ⟨fun _ => 0,[]⟩).bytes,
        smallVolume,farDisk⟩ (entryAt (farDisk 2) 0) :=
      @Found.root _ (nameA.string (fun _ => 0)) ⟨fun _ => 0⟩ _ (fun _ => 0) (by decide +kernel)
    exact absurd (h.inTable hfound 0) (by unfold InTable; decide +kernel)

end UoDOS.FileSystem
