import UoDOS.FileSystem.TableChains

/-! # Reading a file

The bytes of a file lie along its chain of clusters, as the table in memory links them.
fsFat12Read asks for whole chunks of clusters and looks at the size of the file only
after each of them.
-/
namespace UoDOS.FileSystem
open ByteMemory

/-- A file of the table: as many clusters as its size needs, and none if it is empty. -/
structure FatFile (M : Mounted) (file : File) (clusters : List ℕ) : Prop where
  type : file.type = .FD_FILE
  size_lt : file.Size < 2^32
  clusterSize_pos : 0 < M.volume.mount.ClusterSize
  below : file.Size ≤ clusters.length * M.volume.mount.ClusterSize
  above : clusters.length * M.volume.mount.ClusterSize < file.Size + M.volume.mount.ClusterSize
  chain : file.DirectoryEntry.FirstCluster = 0 ∧ clusters = [] ∨
    TableChain M file.DirectoryEntry.FirstCluster clusters

def fileByte (M : Mounted) (clusters : List ℕ) (i : ℕ) : UInt8 :=
  clusterByte M.disk M.volume (clusters.getD (i / M.volume.mount.ClusterSize) 0) (i % M.volume.mount.ClusterSize)

/-- The read delivers the bytes from Position on, up to the end of the file. -/
def ReadsFile (M : Mounted) (clusters : List ℕ) (file : File) (length : ℕ) : Prop :=
  let n := min length (file.Size - file.Position)
  fsFat12Read M file length = .ok (n,(List.range n).map (fun i => fileByte M clusters (file.Position + i)),
    { file with Position := file.Position + n, Eof := decide (file.Size ≤ file.Position + n) })

variable {M : Mounted} {c : ℕ} {cs : List ℕ}

theorem block_add {C P i : ℕ} (h : P % C + i < C) : (P + i) / C = P / C ∧ (P + i) % C = P % C + i := by
  have hC : 0 < C := by omega
  have hP := Nat.div_add_mod P C
  have hsum : P + i = C * (P / C) + (P % C + i) := by omega
  constructor
  · rw [hsum,Nat.mul_add_div hC,Nat.div_eq_of_lt h,Nat.add_zero]
  · rw [hsum,Nat.mul_add_mod,Nat.mod_eq_of_lt h]

section Reads

variable {file : File} {n len : ℕ}

def startByte (M : Mounted) (c offset i : ℕ) : UInt8 :=
  (fun x => M.disk x.1 x.2) (place ((M.volume.clusterSector c + offset / 512) % 2^32) (offset % 512) i)

def firstBytes (M : Mounted) (cs : List ℕ) (P k : ℕ) : List UInt8 :=
  (List.range k).map (startByte M (cs.getD (P / M.volume.mount.ClusterSize) 0) (P % M.volume.mount.ClusterSize))

def delivered (M : Mounted) (cs : List ℕ) (P len i : ℕ) : UInt8 :=
  if i < min len (M.volume.mount.ClusterSize - P % M.volume.mount.ClusterSize) then
    startByte M (cs.getD (P / M.volume.mount.ClusterSize) 0) (P % M.volume.mount.ClusterSize) i
  else fileByte M cs (P + i)

theorem delivered_of_inSector {P i : ℕ} (hC : 0 < M.volume.mount.ClusterSize)
    (h : InSector M.volume.mount.ClusterSize (P % M.volume.mount.ClusterSize) len) :
    delivered M cs P len i = fileByte M cs (P + i) := by
  unfold delivered
  split_ifs with hi
  · have hlt := Nat.mod_lt P hC
    obtain ⟨hdiv,hmod⟩ := block_add (show P % M.volume.mount.ClusterSize + i < _ by omega)
    rw [startByte,place_of_inSector h hi,fileByte,hdiv,hmod]
    rfl
  · rfl

namespace FatFile

theorem chain_of_lt (hf : FatFile M file cs) {P : ℕ} (hP : P < file.Size) :
    TableChain M file.DirectoryEntry.FirstCluster cs ∧ P / M.volume.mount.ClusterSize < cs.length := by
  rcases hf.chain with ⟨-,rfl⟩ | hc
  · have := hf.below
    simp at this
    omega
  · exact ⟨hc,Nat.div_lt_of_lt_mul (by rw [Nat.mul_comm]; exact hP.trans_le hf.below)⟩

theorem end_lt (hf : FatFile M file cs) : cs.length * M.volume.mount.ClusterSize < 2^30 := by
  have hC := M.volume.clusterSize
  have hS := M.volume.Bpb.SectorsPerCluster.toNat_lt
  have hlen : cs.length ≤ 0xff0 := by
    rcases hf.chain with ⟨-,rfl⟩ | hc
    · simp
    · exact hc.length_le
  have := Nat.mul_le_mul hlen (show M.volume.mount.ClusterSize ≤ 255 * 512 by omega)
  omega

theorem cluster_end_le (hf : FatFile M file cs) {P : ℕ} (hP : P < file.Size) :
    P + (M.volume.mount.ClusterSize - P % M.volume.mount.ClusterSize) ≤
      cs.length * M.volume.mount.ClusterSize := by
  have hle := Nat.mul_le_mul_right M.volume.mount.ClusterSize
    (show P / M.volume.mount.ClusterSize + 1 ≤ cs.length from (hf.chain_of_lt hP).2)
  rw [Nat.add_mul,Nat.one_mul,Nat.mul_comm] at hle
  have hdm := Nat.div_add_mod P M.volume.mount.ClusterSize
  have hmod := Nat.mod_lt P hf.clusterSize_pos
  omega

theorem move (hf : FatFile M file cs) (P : ℕ) : FatFile M { file with Position := P } cs :=
  ⟨hf.type,hf.size_lt,hf.clusterSize_pos,hf.below,hf.above,hf.chain⟩

theorem mark (hf : FatFile M file cs) (e : Bool) : FatFile M { file with Eof := e } cs :=
  ⟨hf.type,hf.size_lt,hf.clusterSize_pos,hf.below,hf.above,hf.chain⟩

theorem cluster_data (hf : FatFile M file cs) {P : ℕ} (hP : P < file.Size) :
    DataCluster (cs.getD (P / M.volume.mount.ClusterSize) 0) := by
  obtain ⟨hchain,hlt⟩ := hf.chain_of_lt hP
  rw [List.getD_eq_getElem _ _ hlt]
  exact hchain.data _ (List.getElem_mem hlt)

theorem readCluster (hf : FatFile M file cs) {P k : ℕ} (hP : P < file.Size)
    (hk : k = min len (M.volume.mount.ClusterSize - P % M.volume.mount.ClusterSize)) :
    fsFat12ReadCluster M (cs.getD (P / M.volume.mount.ClusterSize) 0) (P % M.volume.mount.ClusterSize) len =
      .ok (k,firstBytes M cs P k) := by
  obtain ⟨h2,hlt⟩ := hf.cluster_data hP
  rw [readCluster_eq_copy,copyCluster_eq _ h2 (by omega) (Nat.mod_lt _ hf.clusterSize_pos),hk]
  rfl

theorem next_cluster (hf : FatFile M file cs) {P k : ℕ} (hP : P < file.Size)
    (hk : k ≤ M.volume.mount.ClusterSize - P % M.volume.mount.ClusterSize) :
    (if P % M.volume.mount.ClusterSize + k = M.volume.mount.ClusterSize then
        fsFat12GetNextCluster M (cs.getD (P / M.volume.mount.ClusterSize) 0)
      else cs.getD (P / M.volume.mount.ClusterSize) 0) =
    cs.getD ((P + k) / M.volume.mount.ClusterSize) 0 := by
  obtain ⟨hchain,hlt⟩ := hf.chain_of_lt hP
  have hC := hf.clusterSize_pos
  have hmod := Nat.mod_lt P hC
  split_ifs with hfull
  · have hdm := Nat.div_add_mod P M.volume.mount.ClusterSize
    have hdiv : (P + k) / M.volume.mount.ClusterSize = P / M.volume.mount.ClusterSize + 1 := by
      rw [show P + k = M.volume.mount.ClusterSize * (P / M.volume.mount.ClusterSize) +
        M.volume.mount.ClusterSize by omega,Nat.mul_add_div hC,Nat.div_self hC]
    rw [hdiv,hchain.next_getD hlt]
  · rw [(block_add (show P % M.volume.mount.ClusterSize + k < _ by omega)).1]

theorem readClusters_step (hf : FatFile M file cs) (hP : file.Position < file.Size) {k : ℕ}
    (hk : k = min (len + 1) (M.volume.mount.ClusterSize - file.Position % M.volume.mount.ClusterSize)) :
    FileSystem.readClusters M (n + 1) file (cs.getD (file.Position / M.volume.mount.ClusterSize) 0)
      (file.Position % M.volume.mount.ClusterSize) (len + 1) =
    if file.Size ≤ file.Position + k then
      .ok (k,firstBytes M cs file.Position k,{ file with Position := file.Position + k, Eof := true })
    else FileSystem.readClusters M n { file with Position := file.Position + k }
        (cs.getD ((file.Position + k) / M.volume.mount.ClusterSize) 0) 0 (len + 1 - k) >>= fun r =>
      .ok (k + r.1,firstBytes M cs file.Position k ++ r.2.1,r.2.2) := by
  have hend := hf.end_lt
  have hlast := hf.cluster_end_le hP
  have hPk : (file.Position + k) % 2^32 = file.Position + k := by omega
  rw [FileSystem.readClusters,hf.readCluster hP hk]
  simp only [bind,Except.bind,hf.type,and_true,hPk,hf.next_cluster hP (show k ≤ _ by omega)]
  split_ifs with hsize hz
  · rfl
  · have hdata := (hf.cluster_data (show file.Position + k < file.Size by omega)).1
    omega
  · rfl

theorem readClusters (hf : FatFile M file cs) (he : file.Eof = false) (hP : file.Position < file.Size)
    (hl : 0 < len) (hn : len ≤ n) {total : ℕ}
    (ht : total = min len (cs.length * M.volume.mount.ClusterSize - file.Position)) :
    FileSystem.readClusters M n file (cs.getD (file.Position / M.volume.mount.ClusterSize) 0)
      (file.Position % M.volume.mount.ClusterSize) len =
    .ok (total,(List.range total).map (delivered M cs file.Position len),
      { file with
        Position := file.Position + total
        Eof := decide (file.Size ≤ file.Position + total) }) := by
  induction n generalizing file len total with
  | zero => omega
  | succ n ih =>
    obtain ⟨len,rfl⟩ : ∃ k, len = k + 1 := ⟨len - 1,by omega⟩
    have hC := hf.clusterSize_pos
    have habove := hf.above
    obtain ⟨-,hlt⟩ := hf.chain_of_lt hP
    obtain ⟨k,hk⟩ : ∃ k, k = min (len + 1)
      (M.volume.mount.ClusterSize - file.Position % M.volume.mount.ClusterSize) := ⟨_,rfl⟩
    rw [hf.readClusters_step hP hk]
    set C := M.volume.mount.ClusterSize
    set P := file.Position
    have hmod := Nat.mod_lt P hC
    have hdm := Nat.div_add_mod P C
    have hlast : P + (C - P % C) ≤ cs.length * C := hf.cluster_end_le hP
    have hfirst : firstBytes M cs P k = (List.range k).map (delivered M cs P (len + 1)) := by
      apply List.map_congr_left
      intro i hi
      rw [delivered,if_pos (by rw [← hk]; exact List.mem_range.mp hi)]
    split_ifs with hsize
    · -- no cluster of the chain lies behind the one that holds the end of the file
      have hone : cs.length * C = C * (P / C) + C := by
        by_contra hne
        have hle := Nat.mul_le_mul_right C (show P / C + 2 ≤ cs.length by
          by_contra hlen
          have : cs.length = P / C + 1 := by omega
          rw [this,Nat.add_mul,Nat.one_mul,Nat.mul_comm] at hne
          exact hne rfl)
        rw [Nat.add_mul,Nat.mul_comm] at hle
        omega
      obtain rfl : total = k := by omega
      rw [hfirst,decide_eq_true hsize]
    · by_cases hrest : len + 1 - k = 0
      · have hdone : FileSystem.readClusters M n { file with Position := P + k } (cs.getD ((P + k) / C) 0) 0 0 =
            .ok (0,[],{ file with Position := P + k }) := by
          cases n <;> rfl
        obtain rfl : total = k := by omega
        rw [hrest,hdone,hfirst,decide_eq_false hsize,← he]
        simp only [bind,Except.bind,List.append_nil,Nat.add_zero]
      · -- the round ends at the end of a cluster
        have hzero : (P + k) % C = 0 := by
          rw [← hdm,Nat.add_assoc,Nat.mul_add_mod,show P % C + k = C by omega,Nat.mod_self]
        obtain ⟨m,rfl⟩ : ∃ m, total = k + m := ⟨total - k,by omega⟩
        have hnext := @ih { file with Position := P + k } (len + 1 - k) (hf.move _) he (by simp only; omega)
          (by omega) (by omega) m (by simp only; omega)
        simp only [hzero] at hnext
        have hbytes : (List.range m).map (delivered M cs (P + k) (len + 1 - k)) =
            (List.range m).map (delivered M cs P (len + 1) ∘ (k + ·)) := by
          apply List.map_congr_left
          intro i _
          rw [delivered_of_inSector hC (.inl (by rw [hzero,Nat.zero_mod])),Function.comp_apply,delivered,
            if_neg (by rw [← hk]; omega),Nat.add_assoc]
        rw [hnext,hfirst,hbytes,List.range_add,List.map_append,List.map_map,← Nat.add_assoc]
        rfl

theorem read (hf : FatFile M file cs) (he : file.Eof = false) (hP : file.Position < file.Size) {total : ℕ}
    (ht : total = min len (cs.length * M.volume.mount.ClusterSize - file.Position)) :
    fsFat12Read M file len = .ok (total,(List.range total).map (delivered M cs file.Position len),
      { file with
        Position := file.Position + total
        Eof := decide (file.Size ≤ file.Position + total) }) := by
  obtain ⟨hchain,hlt⟩ := hf.chain_of_lt hP
  rw [fsFat12Read,if_pos ⟨.inl hf.type,he⟩,if_neg hf.clusterSize_pos.ne']
  simp only [hchain.iterate hlt.le]
  rcases Nat.eq_zero_or_pos len with rfl | hl
  · obtain rfl : total = 0 := by omega
    rw [Nat.add_zero,decide_eq_false (by omega),← he]
    rfl
  · exact hf.readClusters he hP hl le_rfl ht

theorem total_iff (hf : FatFile M file cs) (hP : file.Position < file.Size) :
    min len (cs.length * M.volume.mount.ClusterSize - file.Position) = min len (file.Size - file.Position) ↔
      len ≤ file.Size - file.Position ∨ M.volume.mount.ClusterSize ∣ file.Size := by
  have hbelow := hf.below
  have habove := hf.above
  constructor
  · intro h
    by_cases hle : len ≤ file.Size - file.Position
    · exact .inl hle
    · have heq : file.Size = cs.length * M.volume.mount.ClusterSize := by omega
      exact .inr ⟨cs.length,by rw [heq,Nat.mul_comm]⟩
  · rintro (hle | ⟨m,hm⟩)
    · omega
    · have hmul : M.volume.mount.ClusterSize * m = M.volume.mount.ClusterSize * cs.length := by
        have h1 := Nat.le_of_mul_le_mul_left (show M.volume.mount.ClusterSize * m ≤
          M.volume.mount.ClusterSize * cs.length by rw [Nat.mul_comm _ cs.length]; omega) hf.clusterSize_pos
        have h2 : cs.length < m + 1 := by
          apply Nat.lt_of_mul_lt_mul_left (a := M.volume.mount.ClusterSize)
          rw [Nat.mul_add,Nat.mul_one,Nat.mul_comm _ cs.length]
          omega
        rw [show m = cs.length by omega]
      rw [Nat.mul_comm] at hmul
      rw [Nat.mul_comm cs.length,← hmul,Nat.mul_comm m,← hm]

theorem read_at_end (hf : FatFile M file cs) (he : file.Eof = false) (hP : file.Position = file.Size) :
    ¬ ReadsFile M cs file len := by
  intro hr
  simp only [ReadsFile,hP,Nat.sub_self,Nat.min_zero] at hr
  rw [fsFat12Read,if_pos ⟨.inl hf.type,he⟩,if_neg hf.clusterSize_pos.ne'] at hr
  cases len with
  | zero =>
    rw [FileSystem.readClusters] at hr
    have hfile := (Prod.mk.inj (Prod.mk.inj (Except.ok.inj hr)).2).2
    have heof := congrArg File.Eof hfile
    simp [he] at heof
  | succ len =>
    have hmod := Nat.mod_lt file.Position hf.clusterSize_pos
    rw [FileSystem.readClusters,readCluster_eq_copy,copyCluster_sector _ hmod] at hr
    have hbelow := hf.below
    have hend := hf.end_lt
    have hC := M.volume.clusterSize
    have hSPC := M.volume.Bpb.SectorsPerCluster.toNat_lt
    have hover : file.Size ≤ (file.Position + min (len + 1) (M.volume.mount.ClusterSize -
        file.Position % M.volume.mount.ClusterSize)) % 2^32 := by omega
    simp only [bind,Except.bind,hf.type,and_true,if_pos hover] at hr
    have hcount := (Prod.mk.inj (Except.ok.inj hr)).1
    omega

end FatFile

end Reads

/-- Disks with the same sectors; the memory behind the buffers may differ. -/
def SameSectors (D D' : Disk) : Prop := ∀ sector i, i < BSIZE → D' sector i = D sector i

def behind (D : Disk) : Disk := fun sector i =>
  if i < BSIZE then D sector i else D ((sector + 1) % 2^32) (i - BSIZE) + 1

theorem behind_same (D : Disk) : SameSectors D (behind D) := by
  intro sector i hi
  rw [behind,if_pos hi]

section Contents

variable {file : File} {len : ℕ} {D : Disk}

theorem TableChain.redisk (h : TableChain M c cs) (D : Disk) : TableChain { M with disk := D } c cs := by
  induction h with
  | last hc he => exact .last hc he
  | next hc _ ih => exact .next hc ih

theorem FatFile.redisk (hf : FatFile M file cs) (D : Disk) : FatFile { M with disk := D } file cs := by
  refine ⟨hf.type,hf.size_lt,hf.clusterSize_pos,hf.below,hf.above,?_⟩
  rcases hf.chain with hz | hc
  · exact .inl hz
  · exact .inr (hc.redisk D)

theorem delivered_behind (hf : FatFile M file cs)
    (h : ¬ InSector M.volume.mount.ClusterSize (file.Position % M.volume.mount.ClusterSize) len) :
    ∃ i < min len (M.volume.mount.ClusterSize - file.Position % M.volume.mount.ClusterSize),
      delivered { M with disk := behind M.disk } cs file.Position len i ≠
        fileByte { M with disk := behind M.disk } cs (file.Position + i) := by
  have hC := hf.clusterSize_pos
  set C := M.volume.mount.ClusterSize with hCdef
  set P := file.Position
  have hmod := Nat.mod_lt P hC
  obtain ⟨hin,hplace⟩ := place_behind h (M.volume.clusterSector (cs.getD (P / C) 0))
  obtain ⟨hdiv,hmod'⟩ := block_add (show P % C + (512 - P % C % 512) < C by omega)
  refine ⟨512 - P % C % 512,hin,?_⟩
  have h1 : (P % C + (512 - P % C % 512)) / 512 = P % C / 512 + 1 := by omega
  have h2 : (P % C + (512 - P % C % 512)) % 512 = 0 := by omega
  rw [delivered,if_pos hin,startByte,hplace,fileByte,hdiv,hmod',clusterByte,h1,h2]
  simp only [behind,BSIZE,lt_irrefl,if_false,Nat.sub_self,Nat.mod_add_mod,Nat.add_assoc]
  simp

theorem reads_file_iff (hf : FatFile M file cs) (he : file.Eof = false) (hp : file.Position ≤ file.Size) :
    (∀ D, SameSectors M.disk D → ReadsFile { M with disk := D } cs file len) ↔
      file.Position < file.Size ∧
      (len ≤ file.Size - file.Position ∨ M.volume.mount.ClusterSize ∣ file.Size) ∧
      InSector M.volume.mount.ClusterSize (file.Position % M.volume.mount.ClusterSize) len := by
  constructor
  · intro h
    have hlt : file.Position < file.Size := by
      by_contra hno
      exact hf.read_at_end he (by omega) (h M.disk (fun _ _ _ => rfl))
    have hread : fsFat12Read { M with disk := behind M.disk } file len = _ :=
      (hf.redisk (behind M.disk)).read he hlt rfl
    have hr := h (behind M.disk) (behind_same _)
    simp only [ReadsFile,hread,Except.ok.injEq,Prod.mk.injEq] at hr
    obtain ⟨hcount,hbytes,-⟩ := hr
    refine ⟨hlt,(hf.total_iff hlt).mp hcount,?_⟩
    by_contra hno
    obtain ⟨i,hi,hne⟩ := delivered_behind hf hno
    have hlast := hf.cluster_end_le hlt
    have hget := congrArg (fun l => l[i]?) hbytes
    rw [← hcount] at hget
    have hin : i < min len (cs.length * M.volume.mount.ClusterSize - file.Position) := by omega
    simp only [List.getElem?_map,List.getElem?_range hin,Option.map_some,Option.some.injEq] at hget
    exact hne hget
  · rintro ⟨hlt,htotal,hsector⟩ D -
    have hf' := hf.redisk D
    have hcount := (hf.total_iff hlt).mpr htotal
    have hbytes : delivered { M with disk := D } cs file.Position len =
        fun i => fileByte { M with disk := D } cs (file.Position + i) := by
      funext i
      exact delivered_of_inSector hf'.clusterSize_pos hsector
    rw [ReadsFile,hf'.read he hlt hcount.symm,hbytes]

end Contents

local instance shortFile_size : NeZero 32 := ⟨by decide⟩

def shortFile : File :=
  ⟨.FD_FILE,1,true,false,0,⟨fun j => if j = 26 then 3 else if j = 28 then 10 else 0⟩,false,0,10,0⟩

theorem shortFile_wellFormed : FatFile (twoClusters true) shortFile [3] where
  type := rfl
  size_lt := by decide
  clusterSize_pos := by decide
  below := by decide
  above := by decide
  chain := .inr (.last ⟨by decide,by decide⟩ (by decide +kernel))

theorem reads_file_iff_short : shortFile.Position < shortFile.Size ∧
    ∀ D, SameSectors (twoClusterDisk true) D → ReadsFile { twoClusters true with disk := D } [3] shortFile 10 :=
  ⟨by decide,(reads_file_iff shortFile_wellFormed rfl (by decide)).mpr ⟨by decide,by decide,by decide⟩⟩

/-- A read with a buffer of a sector also delivers the rest of the cluster. -/
theorem short_file_slack_delivered : FatFile (twoClusters true) shortFile [3] ∧ shortFile.Eof = false ∧
    shortFile.Position ≤ shortFile.Size ∧ ¬ ReadsFile (twoClusters true) [3] shortFile 512 := by
  refine ⟨shortFile_wellFormed,rfl,by decide,?_⟩
  intro hr
  rw [ReadsFile,shortFile_wellFormed.read rfl (by decide) rfl] at hr
  have hcount := (Prod.mk.inj (Except.ok.inj hr)).1
  exact absurd hcount (by decide)

end UoDOS.FileSystem
