import UoDOS.Boot.SectorReads
import UoDOS.FileSystem.PackedTables

/-! # What the second stage has in memory after a load

The offset register grows by 512 with each sector and the segment stays as it was.
-/
namespace UoDOS.Boot
open ByteMemory Results
open FileSystem (Disk)

variable {B : Bios} {disk : Disk} {es bx bp cx cluster : UInt16} {m m' : Machine}
  {L : Layout} {name : ℕ → UInt8} {cs : List ℕ} {n : ℕ}

section Chain

theorem DataCluster.bounds {c : ℕ} (h : DataCluster c) : 2 ≤ c ∧ 56 + 8 * (c - 1) ≤ 20160 := h

theorem ClusterToLBA_toNat (h : DataCluster cluster.toNat) :
    (ClusterToLBA 56 cluster).toNat = 56 + 8 * (cluster.toNat - 2) := by
  obtain ⟨hlow,hhigh⟩ := h.bounds
  have hlt := cluster.toNat_lt
  have hzero : (cluster - 2).toNat = cluster.toNat - 2 := by
    rw [UInt16.toNat_sub]
    change (2^16 - 2 + cluster.toNat) % 2^16 = _
    omega
  have height : bpbSectorsPerCluster.toUInt16.toNat = 8 := rfl
  have hsum : (56 : UInt16).toNat = 56 := rfl
  rw [ClusterToLBA,UInt16.toNat_add,UInt16.toNat_mul,hzero,height,hsum]
  omega

def TableHeld (disk : Disk) (m : Machine) : Prop := ∀ i < 4096, m.memory (0x2C00 + i) = tableByte disk i

theorem TableHeld.entry (h : TableHeld disk m) (hc : DataCluster cluster.toNat) :
    (FileSystem.LoadFile.entry (fun i => m.memory (linear FAT_SEG 0 + i)) cluster).toNat =
      tableEntry disk cluster.toNat := by
  obtain ⟨-,hhigh⟩ := hc.bounds
  have hlin : linear FAT_SEG 0 = 0x2C00 := rfl
  simp only [FileSystem.LoadFile.entry_toNat,tableEntry,hlin]
  have hlow : (cluster.toNat + cluster.toNat / 2) % 2^16 = cluster.toNat + cluster.toNat / 2 :=
    Nat.mod_eq_of_lt (by omega)
  have hnext : (cluster.toNat + cluster.toNat / 2 + 1) % 2^16 = cluster.toNat + cluster.toNat / 2 + 1 :=
    Nat.mod_eq_of_lt (by omega)
  rw [hlow,hnext,h _ (by omega),h _ (by omega)]

theorem TableHeld.stored {data : Bytes} {a n : ℕ} (h : TableHeld disk m) (hs : Stored data a n m m')
    (hfree : ∀ i < n, L.free (a + i)) : TableHeld disk m' := by
  intro i hi
  rw [← h i hi,hs,if_neg]
  rintro ⟨hlow,hhigh⟩
  have hx := hfree (0x2C00 + i - a) (by omega)
  rw [Nat.add_sub_cancel' hlow,L.buffers _ (by omega) (by omega)] at hx
  cases hx

def bytesFrom (b : Bytes) (a n : ℕ) : List UInt8 := (List.range n).map (fun i => b (a + i))

theorem bytesFrom_add (b : Bytes) (a k l : ℕ) : bytesFrom b a (k + l) = bytesFrom b a k ++ bytesFrom b (a + k) l := by
  rw [bytesFrom,List.range_add,List.map_append,List.map_map]
  congr 1
  apply List.map_congr_left
  intro i _
  rw [Function.comp_apply,Nat.add_assoc]

theorem clusterBytes_eq (disk : Disk) (c : ℕ) :
    clusterBytes disk c = (List.range 4096).map (fun i => disk (56 + 8 * (c - 2) + i / 512) (i % 512)) := rfl

theorem ProperChain.length_pos (h : ProperChain disk cs) : 0 < cs.length := by
  cases h with
  | last _ _ => exact Nat.one_pos
  | cons _ _ _ => exact Nat.succ_pos _

theorem ProperChain.head_data {c : ℕ} (h : ProperChain disk (c :: cs)) : DataCluster c := by
  cases h with
  | last hc _ => exact hc
  | cons hc _ _ => exact hc

theorem load_round {c : ℕ} (hc : DataCluster c) (hcluster : cluster.toNat = c) (htable : TableHeld disk m)
    (hroom : bx.toNat + 4096 ≤ 2^16) (hfree : ∀ i < 4096, L.free (linear es bx + i)) :
    Delivers (· = .reboot) (fun r => r.1.toNat = (bx.toNat + 4096) % 2^16 ∧ TableHeld disk r.2 ∧
        bytesFrom r.2.memory (linear es bx) 4096 = clusterBytes disk c ∧
        ∀ x < linear es bx, r.2.memory x = m.memory x)
      (ReadSectors B disk L.free es (rounds bpbSectorsPerCluster.toUInt16) (ClusterToLBA 56 cluster) bx m) := by
  subst hcluster
  obtain ⟨hlow,hhigh⟩ := hc.bounds
  have hlba := ClusterToLBA_toNat hc
  have hread : Delivers (· = .reboot) _ (ReadSectors B disk L.free es 8 (ClusterToLBA 56 cluster) bx m) :=
    ReadSectors_reads 8 hroom hfree (show _ ≤ 20160 by omega) m
  refine hread.imp (fun r hr => ⟨hr.1,htable.stored hr.2 hfree,?_,fun x hx => hr.2.outside (.inl hx)⟩)
  rw [clusterBytes_eq,bytesFrom]
  apply List.map_congr_left
  intro i hi
  rw [hr.2.inside (List.mem_range.mp hi),fromSector,hlba]

theorem counted (cx : UInt16) (h : cx.toNat + 8 < 2^16) :
    (cx + bpbSectorsPerCluster.toUInt16).toNat = cx.toNat + 8 := by
  rw [UInt16.toNat_add]
  exact Nat.mod_eq_of_lt h

theorem load_loads (hcs : ProperChain disk cs) (hc : cs.head? = some cluster.toNat) (htable : TableHeld disk m)
    (hroom : bx.toNat + 4096 * cs.length ≤ 2^16) (hfree : ∀ i < 4096 * cs.length, L.free (linear es bx + i))
    (hcx : cx.toNat + 8 * cs.length < 2^16) (hn : cs.length ≤ n) :
    Delivers (· = .reboot) (fun r => r.1.toNat = cx.toNat + 8 * cs.length ∧
        bytesFrom r.2.memory (linear es bx) (4096 * cs.length) = cs.flatMap (clusterBytes disk) ∧
        ∀ x < linear es bx, r.2.memory x = m.memory x)
      (LoadFile.load B disk L.free 56 es n cluster cx bx m) := by
  induction hcs generalizing n cluster cx bx m with
  | @last c hdata hend =>
    obtain ⟨n,rfl⟩ : ∃ k, n = k + 1 := ⟨n - 1,by simp only [List.length_singleton] at hn; omega⟩
    have hcluster : cluster.toNat = c := (Option.some.inj hc).symm
    rw [LoadFile.load]
    refine (load_round hdata hcluster htable hroom hfree).bind ?_
    rintro ⟨bx1,m1⟩ ⟨-,ht,hbytes,hframe⟩
    have hentry := TableHeld.entry ht (hcluster.symm ▸ hdata)
    dsimp only
    rw [if_neg]
    · exact .ok ⟨counted cx hcx,by simpa using hbytes,hframe⟩
    · rw [UInt16.lt_iff_toNat_lt,hentry,hcluster]
      change ¬ tableEntry disk c < 0xFF0
      omega
  | @cons c d cs hdata hnext hcs ih =>
    obtain ⟨n,rfl⟩ : ∃ k, n = k + 1 := ⟨n - 1,by simp only [List.length_cons] at hn; omega⟩
    have hcluster : cluster.toNat = c := (Option.some.inj hc).symm
    have hpos := hcs.length_pos
    have hlen : (c :: d :: cs).length = (d :: cs).length + 1 := rfl
    rw [hlen,Nat.mul_succ,← Nat.add_assoc] at hroom hcx
    rw [hlen,Nat.mul_succ] at hfree
    rw [hlen] at hn
    rw [hlen,Nat.mul_succ 8,Nat.mul_succ 4096]
    rw [LoadFile.load]
    have hshift : ∀ k i, i < k → 4096 + i < k + 4096 := fun k i hi => by omega
    have hfirst : ∀ i < 4096, L.free (linear es bx + i) := fun i hi =>
      hfree i (Nat.lt_add_left _ hi)
    refine (load_round hdata hcluster htable (by omega) hfirst).bind ?_
    rintro ⟨bx1,m1⟩ ⟨hbx,ht,hbytes,hframe⟩
    have hentry := TableHeld.entry ht (hcluster.symm ▸ hdata)
    rw [hcluster,hnext] at hentry
    have hd := hcs.head_data.bounds
    have hbx' : bx1.toNat = bx.toNat + 4096 := by
      rw [hbx]
      exact Nat.mod_eq_of_lt (by omega)
    have hlin : linear es bx1 = linear es bx + 4096 := by
      rw [linear,hbx',linear]
      omega
    have hcx' := counted cx (by omega)
    dsimp only
    rw [if_pos]
    · have hroom' : bx1.toNat + 4096 * (d :: cs).length ≤ 2^16 := by
        rw [hbx',Nat.add_right_comm]
        exact hroom
      refine (ih (congrArg some hentry.symm) ht hroom' (fun i hi => ?_) (by omega) ?_).imp ?_
      · rw [hlin,Nat.add_assoc]
        exact hfree _ (hshift _ i hi)
      · omega
      · rintro ⟨cx2,m2⟩ ⟨hcount,hrest,hframe2⟩
        rw [hlin] at hrest hframe2
        refine ⟨?_,?_,fun x hx => (hframe2 x (by omega)).trans (hframe x hx)⟩
        · rw [hcount,hcx']
          omega
        · have hkept : bytesFrom m2.memory (linear es bx) 4096 = bytesFrom m1.memory (linear es bx) 4096 :=
            List.map_congr_left (fun i hi => hframe2 _ (Nat.add_lt_add_left (List.mem_range.mp hi) _))
          rw [Nat.add_comm,bytesFrom_add,hrest,List.flatMap_cons (x := c),← hbytes,hkept]
    · rw [UInt16.lt_iff_toNat_lt,hentry]
      change d < 0xFF0
      omega

end Chain

section Directory

theorem LoadRootDirectory_loads (B : Bios) (disk : Disk) (m : Machine) :
    Delivers (· = .reboot) (fun r => r.1 = 56 ∧ Stored (rootByte disk) 0x2E00 0x4000 m r.2)
      (LoadRootDirectory B disk m) := by
  have hread : Delivers (· = .reboot) _ (ReadSectors B disk (fun _ => true) ROOT_DIRECTORY_SEG 32 24 0 m) :=
    ReadSectors_reads 32 (by decide) (fun _ _ => rfl) (by decide) m
  exact hread.bind (fun r hr => .ok ⟨rfl,hr.2⟩)

theorem LoadFAT_loads (B : Bios) (disk : Disk) (m : Machine) :
    Delivers (· = .reboot) (Stored (fromSector disk 8) 0x2C00 0x2000 m) (LoadFAT B disk m) := by
  have hread : Delivers (· = .reboot) _ (ReadSectors B disk (fun _ => true) FAT_SEG 16 8 0 m) :=
    ReadSectors_reads 16 (by decide) (fun _ _ => rfl) (by decide) m
  exact hread.bind (fun r hr => .ok hr.2)

variable {memory : Bytes} {k : ℕ}

theorem root_offset (h : k < 512) {i : ℕ} (hi : i < 32) :
    (UInt16.ofNat (0x2E00 + 32 * k) + UInt16.ofNat i).toNat = 0x2E00 + (32 * k + i) := by
  rw [UInt16.toNat_add,UInt16.toNat_ofNat',UInt16.toNat_ofNat']
  omega

theorem FindFile_test (hm : ∀ i < 0x4000, memory (0x2E00 + i) = rootByte disk i) (h : k < 512) :
    (∀ i < 11, memory (UInt16.ofNat (0x2E00 + 32 * k) + UInt16.ofNat i).toNat = name i) ↔ Named disk name k := by
  apply forall_congr'
  intro i
  apply forall_congr'
  intro hi
  rw [root_offset h (by omega),hm _ (by omega)]

theorem FindFile_finds (hm : ∀ i < 0x4000, memory (0x2E00 + i) = rootByte disk i) (h : k < 512)
    (hnamed : Named disk name k) (hfirst : ∀ j < k, ¬ Named disk name j) :
    FindFile memory name = some (UInt16.ofNat (0x2E00 + 32 * k)) := by
  suffices hloop : ∀ d j, j + d = k → FindFile.loop memory name (512 - j) (UInt16.ofNat (0x2E00 + 32 * j)) =
      some (UInt16.ofNat (0x2E00 + 32 * k)) from hloop k 0 (by omega)
  intro d
  induction d with
  | zero =>
    intro j hj
    obtain rfl : j = k := by omega
    obtain ⟨r,hr⟩ : ∃ r, 512 - j = r + 1 := ⟨511 - j,by omega⟩
    rw [hr,FindFile.loop,if_pos ((FindFile_test hm h).mpr hnamed)]
  | succ d ih =>
    intro j hj
    obtain ⟨r,hr⟩ : ∃ r, 512 - j = r + 1 := ⟨511 - j,by omega⟩
    have hnext : UInt16.ofNat (0x2E00 + 32 * j) + 32 = UInt16.ofNat (0x2E00 + 32 * (j + 1)) := by
      rw [Nat.mul_succ,← Nat.add_assoc,UInt16.ofNat_add (0x2E00 + 32 * j)]
      rfl
    have hrest := ih (j + 1) (by omega)
    rw [hr,FindFile.loop,if_neg (mt (FindFile_test hm (by omega)).mp (hfirst j (by omega))),hnext]
    rwa [show 512 - (j + 1) = r by omega] at hrest

theorem first_cluster (hm : ∀ i < 0x4000, memory (0x2E00 + i) = rootByte disk i) (h : k < 512) :
    readHalf memory (linear ROOT_DIRECTORY_SEG (UInt16.ofNat (0x2E00 + 32 * k) - ROOT_DIRECTORY_OFFSET + 0x1A)) =
      readHalf (rootByte disk) (32 * k + 0x1A) := by
  have hlin : linear ROOT_DIRECTORY_SEG (UInt16.ofNat (0x2E00 + 32 * k) - ROOT_DIRECTORY_OFFSET + 0x1A) =
      0x2E00 + (32 * k + 0x1A) := by
    have hoff : (UInt16.ofNat (0x2E00 + 32 * k) - ROOT_DIRECTORY_OFFSET + 0x1A).toNat = 32 * k + 0x1A := by
      rw [UInt16.toNat_add,UInt16.toNat_sub,UInt16.toNat_ofNat']
      change ((2^16 - 0x2E00 + (0x2E00 + 32 * k) % 2^16) % 2^16 + 0x1A) % 2^16 = _
      omega
    rw [linear,hoff]
    rfl
  rw [hlin,readHalf,readHalf,hm _ (by omega),Nat.add_assoc,hm _ (by omega)]

end Directory

theorem loads_in_segment {c : ℕ} (hl : Listed disk name c) (hcs : ProperChain disk (c :: cs))
    (hfree : ∀ i < 4096 * (c :: cs).length, L.free (linear bx bp + i))
    (hroom : bp.toNat + 4096 * (c :: cs).length ≤ 2^16) : LoadsFile L disk name bx bp (c :: cs) := by
  obtain ⟨k,hk,hnamed,hfirst,hcluster⟩ := hl
  intro B memory
  refine ⟨(c :: cs).length,fun n hn => ?_⟩
  refine (LoadRootDirectory_loads B disk ⟨memory,0⟩).bind ?_
  rintro ⟨datasector,m1⟩ ⟨rfl,hroot⟩
  have hm : ∀ i < 0x4000, m1.memory (0x2E00 + i) = rootByte disk i := fun i hi => hroot.inside hi
  dsimp only [LoadFile]
  rw [FindFile_finds hm hk hnamed hfirst]
  dsimp only
  rw [first_cluster hm hk]
  refine (LoadFAT_loads B disk m1).bind (fun m2 hfat => ?_)
  have htable : TableHeld disk m2 := fun i hi => hfat.inside (by omega)
  have hlen : (c :: cs).length ≤ 16 := by omega
  refine (load_loads hcs (congrArg some hcluster.symm) htable hroom hfree ?_ hn).bind ?_
  · change 0 + 8 * (c :: cs).length < 2^16
    omega
  · rintro ⟨cx,m⟩ ⟨hcx,hbytes,-⟩
    refine .ok ⟨rfl,?_⟩
    have hcount : 512 * cx.toNat = 4096 * (c :: cs).length := by
      rw [hcx]
      change 512 * (0 + 8 * (c :: cs).length) = _
      omega
    rw [← hbytes,bytesFrom,hcount]

section Wrap

theorem load_wraps (datasector : UInt16) (free : ℕ → Bool) (n : ℕ) (m : Machine) :
    Delivers (· ≠ .reboot) (fun r => Behind es m r.2) (LoadFile.load wrapping disk free datasector es n cluster cx bx m) := by
  induction n generalizing cluster cx bx m with
  | zero => exact .error (by decide)
  | succ n ih =>
    rw [LoadFile.load]
    refine (ReadSectors_wraps _ m).bind ?_
    rintro ⟨bx1,m1⟩ h1
    dsimp only
    split_ifs
    · exact (ih m1).imp (fun r hr => hr.trans h1)
    · exact .ok h1

theorem loadKernel_wraps (hfree : L.free (16 * bx.toNat + 2^16)) (n : ℕ) (m : Machine) :
    Delivers (· ≠ .reboot) (fun r => r.1.1 = 0 → Behind bx m r.2)
      (loadKernel wrapping disk L.free n name bx bp m) := by
  have hbuffers : ¬ (0x2C00 ≤ 16 * bx.toNat + 2^16 ∧ 16 * bx.toNat + 2^16 < 0x6E00) := by
    rintro ⟨h1,h2⟩
    rw [L.buffers _ h1 h2] at hfree
    cases hfree
  have hno : ∀ e : Stop, e = .reboot → ¬ e ≠ .reboot := fun e he hne => hne he
  have hroot : Delivers (· ≠ .reboot) (fun _ => True) (LoadRootDirectory wrapping disk m) :=
    (ReadSectors_wraps _ m).bind (fun _ _ => .ok trivial)
  obtain ⟨⟨datasector,m1⟩,hr1,⟨-,hs1⟩,-⟩ := (LoadRootDirectory_loads wrapping disk m).returns hroot hno
  have hfat : Delivers (· ≠ .reboot) (fun _ => True) (LoadFAT wrapping disk m1) :=
    (ReadSectors_wraps _ m1).bind (fun _ _ => .ok trivial)
  obtain ⟨m2,hr2,hs2,-⟩ := (LoadFAT_loads wrapping disk m1).returns hfat hno
  have hbefore : Behind bx m m2 := (hs2.outside (by omega)).trans (hs1.outside (by omega))
  rw [loadKernel,hr1]
  change Delivers _ _ (LoadFile wrapping disk L.free n name datasector bx bp m1)
  rw [LoadFile]
  cases FindFile m1.memory name with
  | none => exact .ok (fun h => absurd (show (-1 : UInt16) = 0 from h) (by decide))
  | some di =>
    dsimp only
    rw [hr2]
    exact (load_wraps datasector L.free n m2).bind (fun r hr => .ok (fun _ => hr.trans hbefore))

end Wrap

theorem clusters_length (disk : Disk) (cs : List ℕ) : (cs.flatMap (clusterBytes disk)).length = 4096 * cs.length := by
  induction cs with
  | nil => rfl
  | cons c cs ih =>
    rw [List.flatMap_cons,List.length_append,ih,clusterBytes_eq,List.length_map,List.length_range,List.length_cons,
      Nat.mul_succ,Nat.add_comm]

theorem not_loads_behind (hfree : ∀ i < 4096 * cs.length, L.free (linear bx bp + i))
    (hover : 2^16 < bp.toNat + 4096 * cs.length) : ¬ LoadsFile L disk name bx bp cs := by
  have hbp := bp.toNat_lt
  obtain ⟨j,hj⟩ : ∃ j, bp.toNat + j = 2^16 := ⟨2^16 - bp.toNat,by omega⟩
  have hplace : linear bx bp + j = 16 * bx.toNat + 2^16 := by
    rw [linear]
    omega
  have hjlt : j < (cs.flatMap (clusterBytes disk)).length := by
    rw [clusters_length]
    omega
  intro h
  obtain ⟨n,hn⟩ := h wrapping (fun _ => (cs.flatMap (clusterBytes disk))[j] + 1)
  obtain ⟨⟨⟨ax,cx⟩,m⟩,-,⟨hax,hbytes⟩,hbehind⟩ :=
    (hn n le_rfl).returns (loadKernel_wraps (hplace ▸ hfree j (by omega)) n _) (fun e he hne => hne he)
  have hbyte : m.memory (16 * bx.toNat + 2^16) = (cs.flatMap (clusterBytes disk))[j] + 1 := hbehind hax
  have hsame : (cs.flatMap (clusterBytes disk))[j] = m.memory (linear bx bp + j) := by
    simp only [← hbytes,List.getElem_map,List.getElem_range]
  rw [hplace,hbyte] at hsame
  have hvalue := congrArg UInt8.toNat hsame
  rw [UInt8.toNat_add] at hvalue
  change _ = (_ + 1) % 2^8 at hvalue
  omega

/-- A load brings the clusters into memory, in order, exactly if the last byte of the file is
still in the segment. -/
theorem loads_file_iff {c : ℕ} (hl : Listed disk name c) (hcs : ProperChain disk (c :: cs))
    (hfit : ∀ i < 4096 * (c :: cs).length, L.free (linear bx bp + i)) :
    LoadsFile L disk name bx bp (c :: cs) ↔ bp.toNat + 4096 * (c :: cs).length ≤ 2^16 := by
  constructor
  · intro h
    by_contra hover
    exact not_loads_behind hfit (Nat.lt_of_not_le hover) h
  · exact loads_in_segment hl hcs hfit

section Kernels

def kernelName (i : ℕ) : UInt8 := [0x4B,0x45,0x52,0x4E,0x45,0x4C,0x20,0x20,0x53,0x59,0x53].getD i 0

def kernelTable (n : ℕ) : List (BitVec 12) := (List.range (n + 1)).map (fun c => BitVec.ofNat 12 (c + 1))

def kernelDisk (n : ℕ) : Disk := fun s i =>
  if 8 ≤ s ∧ s < 16 then UInt8.ofNat (FileSystem.packedValue (kernelTable n) 0xFFF (512 * (s - 8) + i))
  else if s = 24 then if i < 11 then kernelName i else if i = 26 then 2 else 0
  else 0

theorem kernelDisk_listed (n : ℕ) : Listed (kernelDisk n) kernelName 2 := by
  refine ⟨0,by decide,fun i hi => ?_,fun j hj => absurd hj (Nat.not_lt_zero _),rfl⟩
  have hs : rootSector + (32 * 0 + i) / 512 = 24 := by
    rw [Nat.div_eq_of_lt (by omega)]
    rfl
  rw [rootByte,hs,kernelDisk,if_neg (by omega),if_pos rfl,Nat.mod_eq_of_lt (by omega),if_pos (by omega)]
  congr 1
  omega

theorem kernelDisk_entry (n : ℕ) {c : ℕ} (hc : DataCluster c) :
    tableEntry (kernelDisk n) c = ((kernelTable n).getD c 0xFFF).toNat := by
  obtain ⟨-,hhigh⟩ := hc.bounds
  have hbyte : ∀ i < 4096, (tableByte (kernelDisk n) i).toNat = FileSystem.packedValue (kernelTable n) 0xFFF i := by
    intro i hi
    have hlt := FileSystem.packedValue_lt (kernelTable n) 0xFFF i
    have hplace : 512 * (8 + i / 512 - 8) + i % 512 = i := by omega
    change (kernelDisk n (8 + i / 512) (i % 512)).toNat = _
    rw [kernelDisk,if_pos (by omega),hplace,UInt8.toNat_ofNat',Nat.mod_eq_of_lt hlt]
  rw [← FileSystem.packedValue_pair,tableEntry,hbyte _ (by omega),hbyte _ (by omega)]

theorem kernelTable_entry {n c : ℕ} (hn : n ≤ 2513) :
    ((kernelTable n).getD c 0xFFF).toNat = if c ≤ n then c + 1 else 0xFFF := by
  rw [List.getD_eq_getElem?_getD,kernelTable,List.getElem?_map]
  split_ifs with hc
  · rw [List.getElem?_range (by omega),Option.map_some,Option.getD_some,BitVec.toNat_ofNat]
    exact Nat.mod_eq_of_lt (by omega)
  · rw [List.getElem?_eq_none (by rw [List.length_range]; omega)]
    rfl

theorem kernelDisk_chain {n : ℕ} (hn : n ≤ 2513) (k : ℕ) (hk : k < n) :
    ProperChain (kernelDisk n) (List.range' (n + 1 - k) (k + 1)) := by
  have hdata : ∀ c, 2 ≤ c → c ≤ n + 1 → DataCluster c := fun c hlow hhigh =>
    show 2 ≤ c ∧ 56 + 8 * (c - 1) ≤ 20160 by omega
  induction k with
  | zero =>
    refine .last (hdata _ (by omega) (by omega)) ?_
    rw [kernelDisk_entry n (hdata _ (by omega) (by omega)),kernelTable_entry hn,if_neg (by omega)]
    decide
  | succ k ih =>
    have hrest := ih (by omega)
    obtain ⟨c,hc⟩ : ∃ c, n + 1 - (k + 1) = c := ⟨_,rfl⟩
    rw [show n + 1 - k = c + 1 by omega] at hrest
    rw [hc]
    refine .cons (hdata _ (by omega) (by omega)) ?_ hrest
    rw [kernelDisk_entry n (hdata _ (by omega) (by omega)),kernelTable_entry hn,if_pos (by omega)]

def aboveLoader : Layout where
  free x := decide (0x10000 ≤ x ∧ x < 0xA0000)
  buffers x h1 h2 := by
    rw [decide_eq_false_iff_not]
    omega

theorem aboveLoader_free {n : ℕ} (hn : n ≤ 2^16 + 4096) : ∀ i < n, aboveLoader.free (linear 0x1000 0 + i) := by
  intro i hi
  change decide (0x10000 ≤ 0x10000 + i ∧ 0x10000 + i < 0xA0000) = true
  rw [decide_eq_true_iff]
  omega

theorem loads_file_iff_one : Listed (kernelDisk 1) kernelName 2 ∧ ProperChain (kernelDisk 1) [2] ∧
    LoadsFile aboveLoader (kernelDisk 1) kernelName 0x1000 0 [2] := by
  have hchain : ProperChain (kernelDisk 1) [2] := kernelDisk_chain (by norm_num) 0 (by norm_num)
  have hfit := aboveLoader_free (n := 4096 * [2].length) (by norm_num)
  exact ⟨kernelDisk_listed 1,hchain,(loads_file_iff (kernelDisk_listed 1) hchain hfit).mpr (by decide)⟩

/-- A kernel of 17 clusters, loaded to 1000:0000. -/
theorem long_kernel_wraps : Listed (kernelDisk 17) kernelName 2 ∧ ProperChain (kernelDisk 17) (List.range' 2 17) ∧
    (∀ i < 4096 * (List.range' 2 17).length, aboveLoader.free (linear 0x1000 0 + i)) ∧
    ¬ LoadsFile aboveLoader (kernelDisk 17) kernelName 0x1000 0 (List.range' 2 17) := by
  have hfit := aboveLoader_free (n := 4096 * (List.range' 2 17).length) (by norm_num)
  exact ⟨kernelDisk_listed 17,kernelDisk_chain (by norm_num) 16 (by norm_num),hfit,
    not_loads_behind hfit (by decide)⟩

end Kernels

end UoDOS.Boot
