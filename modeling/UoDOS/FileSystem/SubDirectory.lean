import UoDOS.FileSystem.Directories

/-! # What a search of a sub-directory finds

A sub-directory is a well-formed chain of clusters on the disk, and its entries are those of all
the sectors of the chain.
-/
namespace UoDOS.FileSystem
open ByteMemory Strings

def Volume.clusterSector (v : Volume) (c : ℕ) : ℕ :=
  v.mount.RootOffset + v.mount.RootSize + (c - 2) * v.Bpb.SectorsPerCluster.toNat

def fatEntry (D : Disk) (v : Volume) (c : ℕ) : ℕ :=
  let byte i := (D (v.mount.FatOffset + i / 512) (i % 512)).toNat
  let pair := byte (c + c / 2) + 2^8 * byte (c + c / 2 + 1)
  if c % 2 = 1 then pair / 2^4 else pair % 2^12

/-- The cluster has an entry in the table and its sectors on the volume. -/
structure Volume.InRange (v : Volume) (c : ℕ) : Prop where
  two_le : 2 ≤ c
  entry_lt : c + c / 2 + 1 < 512 * v.mount.FatSize
  sectors_le : v.clusterSector c + v.Bpb.SectorsPerCluster.toNat ≤ v.mount.NumSectors

/-- The clusters from `c` to one whose entry is an end marker. -/
inductive Chain (D : Disk) (v : Volume) : ℕ → List ℕ → Prop
  | last {c : ℕ} : v.InRange c → 0xff8 ≤ fatEntry D v c → Chain D v c [c]
  | next {c : ℕ} {cs : List ℕ} : v.InRange c → Chain D v (fatEntry D v c) cs → Chain D v c (c :: cs)

theorem Chain.head {D : Disk} {v : Volume} {c : ℕ} {cs : List ℕ} (h : Chain D v c cs) :
    v.InRange c ∧ ∃ rest, cs = c :: rest := by
  cases h with
  | last hc _ => exact ⟨hc,[],rfl⟩
  | next hc _ => exact ⟨hc,_,rfl⟩

def sectorEntries (buf : Bytes) : List DirectoryEntry := (List.range 16).map (entryAt buf)

def clusterEntries (D : Disk) (v : Volume) (c : ℕ) : List DirectoryEntry :=
  (List.range v.Bpb.SectorsPerCluster.toNat).flatMap
    (fun i => sectorEntries (D (v.clusterSector c + i)))

structure SubDirectory (M : Mounted) where
  entry : DirectoryEntry
  clusters : List ℕ
  size : entry.FileSize = 0
  chain : Chain M.disk M.volume entry.FirstCluster clusters
  sectors : 0 < M.volume.Bpb.SectorsPerCluster.toNat

namespace SubDirectory
variable {M : Mounted}

def entries (d : SubDirectory M) : List DirectoryEntry :=
  d.clusters.flatMap (clusterEntries M.disk M.volume)

def firstSector (d : SubDirectory M) : List DirectoryEntry :=
  sectorEntries (M.disk (M.volume.clusterSector d.entry.FirstCluster))

end SubDirectory

/-- An 8.3 name, or one of the two names that consist of points. -/
structure FileName where
  base : List UInt8
  extension : Option (List UInt8)
  base_pos : 0 < base.length
  base_le : base.length ≤ 8
  extension_le : (extension.getD []).length ≤ 3
  characters : (∀ c ∈ base ++ extension.getD [], c ≠ 0 ∧ c ≠ dot) ∨
    extension = none ∧ (base = [dot] ∨ base = [dot,dot])

namespace FileName

def text (n : FileName) : List UInt8 := n.base ++ n.extension.elim [] (dot :: ·)

def form (n : FileName) (j : Fin 11) : UInt8 :=
  if j.val < 8 then (n.base.map toupper).getD j space
  else ((n.extension.getD []).map toupper).getD (j - 8) space

theorem text_ne_zero (n : FileName) : ∀ c ∈ n.text, c ≠ 0 := by
  intro c hc
  have hd : dot ≠ 0 := by decide
  rcases n.characters with h | ⟨he,hb⟩
  · rcases List.mem_append.mp hc with hb | he
    · exact (h c (List.mem_append_left _ hb)).1
    · cases hx : n.extension with
      | none => simp [hx] at he
      | some e =>
        rw [hx,Option.elim_some] at he
        rcases List.mem_cons.mp he with rfl | he
        · exact hd
        · exact (h c (List.mem_append_right _ (by simpa [hx] using he))).1
  · rw [text,he,Option.elim_none,List.append_nil] at hc
    rcases hb with hb | hb
    · rw [hb] at hc
      rw [List.mem_singleton.mp hc]
      exact hd
    · rw [hb] at hc
      have : c = dot := by simpa using hc
      rw [this]
      exact hd

/-- The name as the caller has it in memory, with the bytes `tail` behind it. -/
def string (n : FileName) (tail : Bytes) : CString := .ofText n.text tail n.text_ne_zero

def converted (n : FileName) (tail junk : Bytes) (j : Fin 11) : UInt8 :=
  toDosFileName (n.string tail) junk 11 j

end FileName

variable {M : Mounted} {t : FileTable} {junk : Bytes}

theorem Volume.clusterSize (v : Volume) :
    v.mount.ClusterSize = v.Bpb.SectorsPerCluster.toNat * 512 := by
  rw [v.mounted,mountInfo,v.sector_size]
  rfl

theorem Volume.root_lt (v : Volume) : v.mount.RootOffset + v.mount.RootSize < 2^25 := by
  have h1 := v.Bpb.NumberOfFats.toNat_lt
  have h2 := v.Bpb.SectorsPerFat.toNat_lt
  have h3 := v.Bpb.ReservedSectors.toNat_lt
  have h4 := v.Bpb.NumDirEntries.toNat_lt
  have h5 : v.Bpb.NumberOfFats.toNat * v.Bpb.SectorsPerFat.toNat ≤ 255 * 65535 :=
    Nat.mul_le_mul (by omega) (by omega)
  rw [v.mounted,mountInfo,v.sector_size]
  change v.Bpb.NumberOfFats.toNat * v.Bpb.SectorsPerFat.toNat + v.Bpb.ReservedSectors.toNat +
    v.Bpb.NumDirEntries.toNat * 32 / 512 < 2^25
  omega

theorem firstCluster_lt (e : DirectoryEntry) : e.FirstCluster < 2^16 := by
  have h1 := (e.bytes 26).toNat_lt
  have h2 := (e.bytes 27).toNat_lt
  rw [DirectoryEntry.FirstCluster]
  omega

theorem readSectors_one (sector : ℕ) :
    readSectors M 512 sector 0 512 = .ok ((List.range 512).map (M.disk sector)) := by
  have hb : M.volume.Bpb.BytesPerSector.toNat = 512 := by
    rw [M.volume.sector_size]
    rfl
  change readSectors M (511 + 1) sector 0 (511 + 1) = _
  rw [readSectors,hb]
  simp [readSectors,bind,Except.bind]

theorem readCluster_start {c : ℕ} (h2 : 2 ≤ c) (hc : c < 2^16)
    (hs : 0 < M.volume.Bpb.SectorsPerCluster.toNat) :
    fsFat12ReadCluster M c 0 512 =
      .ok (512,(List.range 512).map (M.disk (M.volume.clusterSector c))) := by
  have hv := M.volume.root_lt
  have hS := M.volume.Bpb.SectorsPerCluster.toNat_lt
  have hC := M.volume.clusterSize
  have hm : (c - 2) * M.volume.Bpb.SectorsPerCluster.toNat ≤ 65535 * 255 :=
    Nat.mul_le_mul (by omega) (by omega)
  have hq : (2^32 - 2 + c) % 2^32 = c - 2 := by omega
  have h1 : ¬ M.volume.mount.ClusterSize < 512 := by omega
  have h3 : ¬ M.volume.mount.ClusterSize < (0 + 512) % 2^32 := by omega
  have h4 : (if M.volume.mount.ClusterSize ≤ 0 then 0 else 0) = 0 := ite_self 0
  have h5 : (M.volume.mount.RootOffset + M.volume.mount.RootSize +
      (c - 2) * M.volume.Bpb.SectorsPerCluster.toNat) % 2^32 = M.volume.clusterSector c := by
    rw [Volume.clusterSector]
    omega
  simp only [fsFat12ReadCluster,if_neg h1,h4,if_neg h3,hq,h5,lt_irrefl,if_false,readSectors_one]
  rfl

theorem read_first {file : File} (d : SubDirectory M) (hd : file.DirectoryEntry = d.entry)
    (ht : file.type = .FD_FILE) (he : file.Eof = false) (hp : file.Position = 0)
    (hs : file.Size = 0) :
    fsFat12Read M file 512 =
      .ok (512,(List.range 512).map (M.disk (M.volume.clusterSector d.entry.FirstCluster)),
        { file with Position := 512, Eof := true }) := by
  have hC := M.volume.clusterSize
  have hS := d.sectors
  have h2 := d.chain.head.1.two_le
  rw [fsFat12Read,if_pos ⟨.inl ht,he⟩,if_neg (by omega),hp,Nat.zero_div,Nat.zero_mod,hd]
  change readClusters M (511 + 1) file d.entry.FirstCluster 0 (511 + 1) = _
  rw [readClusters,readCluster_start h2 (firstCluster_lt d.entry) hS]
  simp [bind,Except.bind,hd,hp,hs,ht]

theorem sectorEntries_congr {b b' : Bytes} (h : ∀ i < 512, b i = b' i) :
    sectorEntries b = sectorEntries b' := by
  apply List.map_congr_left
  intro i hi
  have hi' := List.mem_range.mp hi
  rw [entryAt,entryAt,DirectoryEntry.mk.injEq]
  funext j
  exact h _ (by omega)

theorem strcmp_entryName (n : FileName) (tail buf : Bytes) (i : ℕ) :
    strcmp (entryName buf i) (dosFileName (n.string tail) junk) = 0 ↔
      (entryAt buf i).name = n.converted tail junk := by
  rw [entryName,strcmp_dosFileName]
  constructor
  · intro h
    funext j
    exact h j j.isLt
  · intro h j hj
    exact congrFun h ⟨j,hj⟩

theorem find_entry (junk : Bytes) (n : FileName) (tail : Bytes) {buf b : Bytes} (h : ∀ i < 512, buf i = b i) :
    ((List.range 16).find? (fun i =>
        strcmp (entryName buf i) (dosFileName (n.string tail) junk) = 0)).map (entryAt buf) =
      (sectorEntries b).find? (fun e => e.name = n.converted tail junk) := by
  rw [← sectorEntries_congr h,sectorEntries,List.find?_map]
  simp only [strcmp_entryName]
  rfl

/-- The answer of a search, with `found` what it found and `d` the entry it was
called with. -/
def answer (d : DirectoryEntry) (found : Option DirectoryEntry) : Bool × DirectoryEntry :=
  match found with
  | some e => (true,e)
  | none => (false,d)

theorem search_first (d : SubDirectory M) (n : FileName) (tail junk : Bytes) {g : Fin NFILE}
    {m : ℕ} (hm : 2 ≤ m) (hd : (t g).DirectoryEntry = d.entry) (ht : (t g).type = .FD_FILE)
    (he : (t g).Eof = false) (hp : (t g).Position = 0) (hs : (t g).Size = 0)
    (hr : (t g).ReferenceCount = 1) :
    ∃ t', searchSectors M (dosFileName (n.string tail) junk) g m t d.entry junk =
      .ok ((answer d.entry (d.firstSector.find? (fun e => e.name = n.converted tail junk))).1,
        (answer d.entry (d.firstSector.find? (fun e => e.name = n.converted tail junk))).2,t') := by
  have hb : ∀ i < 512, ((List.range 512).map
      (M.disk (M.volume.clusterSector d.entry.FirstCluster))).getD i (junk i) =
        M.disk (M.volume.clusterSector d.entry.FirstCluster) i := by
    intro i hi
    rw [List.getD_eq_getElem _ _ (by simpa using hi)]
    simp
  obtain ⟨m,rfl⟩ := Nat.exists_eq_add_of_le' hm
  have hfind := find_entry junk n tail hb
  rw [searchSectors,if_neg (by rw [he]; decide),read_first d hd ht he hp hs]
  simp only [bind,Except.bind]
  rw [SubDirectory.firstSector,← hfind]
  split
  · rename_i i hi
    rw [fileClose_one (by simpa using hr),hi]
    exact ⟨_,rfl⟩
  · rename_i hi
    rw [searchSectors,if_pos (by simp),fileClose_one (by simpa using hr),hi]
    exact ⟨_,rfl⟩

theorem find_first_sector (d : SubDirectory M) (n : FileName) (tail junk : Bytes)
    {f : Fin NFILE} (hf : (t f).ReferenceCount = 0) :
    ∃ t', fsFat12FindInSubDirectory M t (n.string tail) d.entry junk =
      .ok ((answer d.entry (d.firstSector.find? (fun e => e.name = n.converted tail junk))).1,
        (answer d.entry (d.firstSector.find? (fun e => e.name = n.converted tail junk))).2,t') := by
  obtain ⟨g,t1,hg,hr,ht,hd,hs,hp,he⟩ := create_of_free d.entry hf
  rw [d.size] at hs
  rw [fsFat12FindInSubDirectory,hg]
  exact search_first d n tail junk (by norm_num) hd ht he hp hs hr

theorem SubDirectory.entries_split (d : SubDirectory M) :
    ∃ rest, d.entries = d.firstSector ++ rest := by
  obtain ⟨_,cs,hcs⟩ := d.chain.head
  obtain ⟨k,hk⟩ := Nat.exists_eq_succ_of_ne_zero (Nat.ne_of_gt d.sectors)
  rw [SubDirectory.entries,hcs,List.flatMap_cons,clusterEntries,hk,List.range_succ_eq_map,
    List.flatMap_cons,Nat.add_zero,List.append_assoc]
  exact ⟨_,rfl⟩

/-- The search finds what the whole chain has: the first entry with the name's form is
copied out, and without one the entry that the caller passed is left as it is. -/
def FindsInChain (M : Mounted) (t : FileTable) (d : SubDirectory M) (n : FileName)
    (tail junk : Bytes) : Prop :=
  ∃ t', fsFat12FindInSubDirectory M t (n.string tail) d.entry junk =
    .ok ((answer d.entry (d.entries.find? (fun e => e.name = n.form))).1,
      (answer d.entry (d.entries.find? (fun e => e.name = n.form))).2,t')

theorem answer_inj {d : DirectoryEntry} {x y : Option DirectoryEntry} :
    answer d x = answer d y ↔ x = y := by
  cases x <;> cases y <;> simp [answer]

theorem find_parts_iff {first rest : List DirectoryEntry} {a b : Fin 11 → UInt8} :
    first.find? (fun e => e.name = a) = (first ++ rest).find? (fun e => e.name = b) ↔
      ((∀ e ∈ first ++ rest, e.name ≠ b) ∧ ∀ e ∈ first, e.name ≠ a) ∨
        a = b ∧ ∃ e ∈ first, e.name = b := by
  constructor
  · intro h
    cases ha : first.find? (fun e => e.name = a) with
    | none =>
      rw [ha] at h
      left
      constructor
      · simpa using List.find?_eq_none.mp h.symm
      · simpa using List.find?_eq_none.mp ha
    | some e =>
      rw [ha] at h
      have h1 := List.find?_some ha
      have h2 := List.find?_some h.symm
      simp only [decide_eq_true_eq] at h1 h2
      right
      exact ⟨h1.symm.trans h2,e,List.mem_of_find?_eq_some ha,h2⟩
  · rintro (⟨hb,ha⟩ | ⟨rfl,e,he,hn⟩)
    · rw [List.find?_eq_none.mpr (by simpa using ha),List.find?_eq_none.mpr (by simpa using hb)]
    · rw [List.find?_append]
      have hs : (first.find? (fun e => e.name = a)).isSome :=
        List.find?_isSome.mpr ⟨e,he,by simpa using hn⟩
      rw [Option.or_of_isSome hs]

theorem finds_iff_find (d : SubDirectory M) (n : FileName) (tail junk : Bytes) {f : Fin NFILE}
    (hf : (t f).ReferenceCount = 0) :
    FindsInChain M t d n tail junk ↔
      d.firstSector.find? (fun e => e.name = n.converted tail junk) =
        d.entries.find? (fun e => e.name = n.form) := by
  obtain ⟨t1,h1⟩ := find_first_sector d n tail junk hf
  rw [← answer_inj (d := d.entry),FindsInChain,h1]
  constructor
  · intro h
    obtain ⟨t',h⟩ := h
    rw [Except.ok.injEq,Prod.mk.injEq,Prod.mk.injEq] at h
    exact Prod.ext h.1 h.2.1
  · intro h
    rw [h]
    exact ⟨t1,rfl⟩

/-- The search is right about a name exactly if the name is nowhere in the chain, nor
what is made of it in the first sector, or it is converted correctly and found in
the first sector. -/
theorem find_in_sub_directory_iff (d : SubDirectory M) (n : FileName) (tail junk : Bytes)
    {f : Fin NFILE} (hf : (t f).ReferenceCount = 0) :
    FindsInChain M t d n tail junk ↔
      ((∀ e ∈ d.entries, e.name ≠ n.form) ∧ ∀ e ∈ d.firstSector, e.name ≠ n.converted tail junk) ∨
        n.converted tail junk = n.form ∧ ∃ e ∈ d.firstSector, e.name = n.form := by
  obtain ⟨rest,hrest⟩ := d.entries_split
  rw [finds_iff_find d n tail junk hf,hrest]
  exact find_parts_iff

def smallBoot : Bytes
  | 12 => 2
  | 13 => 1
  | 14 => 1
  | 16 => 1
  | 17 => 16
  | 19 => 64
  | 22 => 1
  | _ => 0

def smallVolume : Volume where
  Bpb := bpb smallBoot
  mount := mountInfo (bpb smallBoot)
  mounted := rfl
  sector_size := by decide
  fat_size := by decide

def twoClusterDisk (second : Bool) : Disk
  | 0 => smallBoot
  | 1 => fun i => match i with
    | 3 => 3
    | 4 => 0xF0
    | 5 => 0xFF
    | _ => 0
  | n + 2 => fun i =>
    if n = (if second then 2 else 1) then if i = 0 then 65 else if i < 11 then space else 0 else 0

def twoClusters (second : Bool) : Mounted where
  image := smallKernel
  memory x := twoClusterDisk second (1 + (x - smallKernel.fat) / 512) ((x - smallKernel.fat) % 512)
  volume := smallVolume
  disk := twoClusterDisk second

theorem twoClusters_chain (second : Bool) : Chain (twoClusterDisk second) smallVolume 2 [2,3] := by
  have h2 : smallVolume.InRange 2 := by constructor <;> decide
  have h3 : smallVolume.InRange 3 := by constructor <;> decide
  have he : fatEntry (twoClusterDisk second) smallVolume 2 = 3 := by cases second <;> decide +kernel
  have hm : 0xff8 ≤ fatEntry (twoClusterDisk second) smallVolume 3 := by
    cases second <;> decide +kernel
  apply Chain.next h2
  rw [he]
  exact Chain.last h3 hm

local instance twoClusterDirectory_size : NeZero 32 := ⟨by decide⟩

def twoClusterDirectory (second : Bool) : SubDirectory (twoClusters second) where
  entry := ⟨fun j => if j = 11 then 0x10 else if j = 26 then 2 else 0⟩
  clusters := [2,3]
  size := by decide
  chain := twoClusters_chain second
  sectors := show 0 < smallVolume.Bpb.SectorsPerCluster.toNat by decide

def nameA : FileName where
  base := [65]
  extension := none
  base_pos := by decide
  base_le := by decide
  extension_le := by decide
  characters := by decide +kernel

def unusedFiles : FileTable := fun _ =>
  ⟨.FD_NONE,0,false,false,0,⟨fun _ => 0⟩,false,0,0,0⟩

theorem find_in_sub_directory_iff_firstSector :
    FindsInChain (twoClusters false) unusedFiles (twoClusterDirectory false) nameA (fun _ => 0)
      (fun _ => 0) := by
  apply (find_in_sub_directory_iff (twoClusterDirectory false) nameA (fun _ => 0) (fun _ => 0)
    (f := ⟨0,by decide⟩) rfl).mpr
  right
  constructor
  · decide +kernel
  · decide +kernel

/-- An entry in the second cluster of a directory is not found. -/
theorem second_cluster_not_searched :
    FatInMemory smallKernel (twoClusterDisk true) smallVolume (twoClusters true).memory ∧
      ¬ FindsInChain (twoClusters true) unusedFiles (twoClusterDirectory true) nameA (fun _ => 0)
        (fun _ => 0) := by
  constructor
  · intro i _
    simp only [twoClusters,Nat.add_sub_cancel_left]
    rfl
  · rw [finds_iff_find _ _ _ _ (f := ⟨0,by decide⟩) rfl]
    decide +kernel

end UoDOS.FileSystem
