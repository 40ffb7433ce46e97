import UoDOS.Library.Chains
import UoDOS.FileSystem.TableChains

/-! # Which loops of a read come to an end

A read of a File ends because every cluster that is read makes it shorter.
-/
namespace UoDOS.FileSystem
open ByteMemory Strings Function

variable {M : Mounted} {t t' : FileTable} {e : DirectoryEntry} {f : Fin NFILE} {file : File}
  {name : CString} {c offset length n q r : ℕ}

section Reads

theorem readClusters_returns (file : File) (c : ℕ) (hn : length ≤ n)
    (ho : offset < M.volume.mount.ClusterSize) : ∃ r, readClusters M n file c offset length = .ok r := by
  induction n generalizing file c offset length with
  | zero =>
    obtain rfl : length = 0 := by omega
    exact ⟨_,rfl⟩
  | succ n ih =>
    cases length with
    | zero => exact ⟨_,rfl⟩
    | succ length =>
      rw [readClusters,readCluster_eq_copy,copyCluster_sector _ ho]
      simp only [bind,Except.bind]
      split
      · exact ⟨_,rfl⟩
      · generalize (if offset + min (length + 1) (M.volume.mount.ClusterSize - offset) =
          M.volume.mount.ClusterSize then fsFat12GetNextCluster M c else c) = c'
        split
        · exact ⟨_,rfl⟩
        · -- a cluster that is read leaves less to be read
          have hless : length + 1 - min (length + 1) (M.volume.mount.ClusterSize - offset) ≤ n := by omega
          obtain ⟨x,hx⟩ := ih { file with Position :=
            (file.Position + min (length + 1) (M.volume.mount.ClusterSize - offset)) % 2^32 } c' hless
            (Nat.zero_lt_of_lt ho)
          rw [hx]
          exact ⟨_,rfl⟩

theorem read_returns (hC : 0 < M.volume.mount.ClusterSize) (file : File) (length : ℕ) :
    ∃ r, fsFat12Read M file length = .ok r := by
  rw [fsFat12Read]
  split
  · rw [if_neg (by omega)]
    exact readClusters_returns _ _ le_rfl (Nat.mod_lt _ hC)
  · exact ⟨_,rfl⟩

end Reads

section Rounds

def chainCluster (M : Mounted) (e : DirectoryEntry) (k : ℕ) : ℕ := (fsFat12GetNextCluster M)^[k] e.FirstCluster

def chainSector (M : Mounted) (e : DirectoryEntry) (k i : ℕ) : ℕ :=
  (M.volume.mount.RootOffset + M.volume.mount.RootSize +
    (2^32 - 2 + chainCluster M e k) % 2^32 * M.volume.Bpb.SectorsPerCluster.toNat + i) % 2^32

def SectorHas (M : Mounted) (name : CString) (sector : ℕ) : Prop :=
  ∃ i < 16, strcmp (entryName (M.disk sector) i) name = 0

/-- What keeps the search going for ever. The first cluster alone may be 0, where the first
round of the search has gone on to the next before it looks. -/
structure Endless (M : Mounted) (name : CString) (e : DirectoryEntry) : Prop where
  size : 2^32 - 512 < e.FileSize
  first : e.FirstCluster ≠ 0 ∨ M.volume.Bpb.SectorsPerCluster.toNat = 1
  chain : ∀ k, chainCluster M e (k + 1) ≠ 0
  unfound : ∀ k i, i < M.volume.Bpb.SectorsPerCluster.toNat → ¬ SectorHas M name (chainSector M e k i)

structure Round (e : DirectoryEntry) (file : File) (q : ℕ) : Prop where
  type : file.type = .FD_FILE
  entry : file.DirectoryEntry = e
  count : file.ReferenceCount = 1
  size : file.Size = e.FileSize
  position : file.Position = 512 * q
  wrapped : q < 2^23

def Ends (M : Mounted) (e : DirectoryEntry) (q : ℕ) : Prop :=
  e.FileSize ≤ 512 * ((q + 1) % 2^23) ∨ chainCluster M e ((q + 1) / M.volume.Bpb.SectorsPerCluster.toNat) = 0

def roundSector (M : Mounted) (e : DirectoryEntry) (q : ℕ) : ℕ :=
  chainSector M e (q / M.volume.Bpb.SectorsPerCluster.toNat) (q % M.volume.Bpb.SectorsPerCluster.toNat)

theorem succ_div_eq {s : ℕ} (hs : 0 < s) (q : ℕ) : (q + 1) / s = if q % s + 1 = s then q / s + 1 else q / s := by
  rw [Nat.succ_div]
  have hiff : s ∣ q + 1 ↔ q % s + 1 = s := by
    constructor
    · intro h
      have hlt := Nat.mod_lt q hs
      have hd : s ∣ q % s + 1 := by
        have := Nat.dvd_sub h (Nat.dvd_mul_right s (q / s))
        rwa [show q + 1 - s * (q / s) = q % s + 1 by have := Nat.div_add_mod q s; omega] at this
      exact le_antisymm hlt (Nat.le_of_dvd (by omega) hd)
    · intro h
      exact ⟨q / s + 1,by rw [Nat.mul_add,Nat.mul_one]; have := Nat.div_add_mod q s; omega⟩
  simp only [hiff]
  split_ifs <;> rfl

theorem readCluster_round (hs : 0 < M.volume.Bpb.SectorsPerCluster.toNat) (e : DirectoryEntry) (q : ℕ) :
    fsFat12ReadCluster M (chainCluster M e (q / M.volume.Bpb.SectorsPerCluster.toNat))
      (512 * (q % M.volume.Bpb.SectorsPerCluster.toNat)) 512 =
      .ok (512,(List.range 512).map (M.disk (roundSector M e q))) := by
  have hsize := M.volume.clusterSize
  have hmod := Nat.mod_lt q hs
  have hlen : min 512 (M.volume.mount.ClusterSize - 512 * (q % M.volume.Bpb.SectorsPerCluster.toNat)) = 512 := by
    omega
  rw [readCluster_eq_copy,copyCluster_sector _ (by omega),hlen,Nat.mul_div_cancel_left _ (by norm_num),
    Nat.mul_mod_right]
  refine congrArg (fun l => Except.ok (512,l)) (List.map_congr_left fun i hi => ?_)
  have hi' := List.mem_range.mp hi
  rw [place,if_pos hi',Nat.div_eq_of_lt hi',Nat.add_zero,Nat.mod_mod,Nat.zero_add]
  rfl

open Classical in
theorem Round.read (h : Round e file q) (he : file.Eof = false) (hs : 0 < M.volume.Bpb.SectorsPerCluster.toNat) :
    fsFat12Read M file 512 = .ok (512,(List.range 512).map (M.disk (roundSector M e q)),
      { file with Position := 512 * ((q + 1) % 2^23), Eof := decide (Ends M e q) }) := by
  obtain ⟨ht,rfl,-,hsz,hp,hq⟩ := h
  have hsize := M.volume.clusterSize
  have hhops : file.Position / M.volume.mount.ClusterSize = q / M.volume.Bpb.SectorsPerCluster.toNat := by
    rw [hp,hsize,Nat.mul_comm _ 512,Nat.mul_div_mul_left _ _ (by norm_num)]
  have hoff : file.Position % M.volume.mount.ClusterSize = 512 * (q % M.volume.Bpb.SectorsPerCluster.toNat) := by
    rw [hp,hsize,Nat.mul_comm _ 512,Nat.mul_mod_mul_left]
  have hnext : (if 512 * (q % M.volume.Bpb.SectorsPerCluster.toNat) + 512 = M.volume.mount.ClusterSize then
      fsFat12GetNextCluster M (chainCluster M file.DirectoryEntry (q / M.volume.Bpb.SectorsPerCluster.toNat))
      else chainCluster M file.DirectoryEntry (q / M.volume.Bpb.SectorsPerCluster.toNat)) =
      chainCluster M file.DirectoryEntry ((q + 1) / M.volume.Bpb.SectorsPerCluster.toNat) := by
    rw [succ_div_eq hs]
    split_ifs with h1 h2
    · rw [chainCluster,chainCluster,Function.iterate_succ_apply']
    · omega
    · omega
    · rfl
  have hmove : (file.Position + 512) % 2^32 = 512 * ((q + 1) % 2^23) := by omega
  rw [fsFat12Read,if_pos ⟨.inl ht,he⟩,if_neg (by omega),hhops,hoff]
  change readClusters M (511 + 1) file (chainCluster M file.DirectoryEntry _) _ (511 + 1) = _
  rw [readClusters,readCluster_round hs]
  simp only [bind,Except.bind,hmove,hnext,ht,hsz,and_true]
  split_ifs with hend hzero
  · rw [decide_eq_true (show Ends M file.DirectoryEntry q from .inl hend)]
  · rw [decide_eq_true (show Ends M file.DirectoryEntry q from .inr hzero)]
  · rw [decide_eq_false (show ¬ Ends M file.DirectoryEntry q from not_or_intro hend hzero)]
    change Except.ok _ = _
    simp [he]

theorem Round.next (h : Round e file q) (b : Bool) :
    Round e { file with Position := 512 * ((q + 1) % 2^23), Eof := b } ((q + 1) % 2^23) :=
  ⟨h.type,h.entry,h.count,h.size,rfl,Nat.mod_lt _ (by norm_num)⟩

end Rounds

section Search

variable {nameToFind : CString} {junk : Bytes}

def Stops (M : Mounted) (name : CString) (e : DirectoryEntry) (q : ℕ) : Prop :=
  SectorHas M name (roundSector M e q) ∨ Ends M e q

theorem find_none_iff (nameToFind : CString) (junk : Bytes) {buf b : Bytes} (h : ∀ i < 512, buf i = b i) :
    (List.range 16).find? (fun i => strcmp (entryName buf i) (dosFileName nameToFind junk) = 0) = none ↔
      ¬ ∃ i < 16, strcmp (entryName b i) (dosFileName nameToFind junk) = 0 := by
  have hsame : ∀ i < 16, (strcmp (entryName buf i) (dosFileName nameToFind junk) = 0 ↔
      strcmp (entryName b i) (dosFileName nameToFind junk) = 0) := by
    intro i hi
    rw [entryName,entryName,strcmp_dosFileName,strcmp_dosFileName]
    refine forall₂_congr fun j hj => ?_
    rw [h _ (by omega)]
  rw [List.find?_eq_none]
  push Not
  refine forall_congr' fun i => ?_
  rw [List.mem_range]
  refine forall_congr' fun hi => ?_
  simp [hsame i hi]

theorem search_round (h : Round e (t f) q) (he : (t f).Eof = false)
    (hs : 0 < M.volume.Bpb.SectorsPerCluster.toNat) (entry : DirectoryEntry) (buf : Bytes) :
    SectorHas M (dosFileName nameToFind junk) (roundSector M e q) ∧
        (∀ n, ∃ r, searchSectors M (dosFileName nameToFind junk) f (n + 1) t entry buf = .ok r) ∨
      ¬ SectorHas M (dosFileName nameToFind junk) (roundSector M e q) ∧
        ∃ t' buf', Round e (t' f) ((q + 1) % 2^23) ∧ ((t' f).Eof = true ↔ Ends M e q) ∧
          ∀ n, searchSectors M (dosFileName nameToFind junk) f (n + 1) t entry buf =
            searchSectors M (dosFileName nameToFind junk) f n t' entry buf' := by
  classical
  have hbuf : ∀ i < 512, ((List.range 512).map (M.disk (roundSector M e q))).getD i (buf i) =
      M.disk (roundSector M e q) i := by
    intro i hi
    rw [List.getD_eq_getElem _ _ (by simpa using hi)]
    simp
  have hfind := find_none_iff nameToFind junk hbuf
  have hstep := h.read he hs
  rcases hf : (List.range 16).find? (fun i => strcmp (entryName (fun i =>
      ((List.range 512).map (M.disk (roundSector M e q))).getD i (buf i)) i) (dosFileName nameToFind junk) = 0) with
    _ | i
  · refine .inr ⟨hfind.mp hf,update t f
      { t f with Position := 512 * ((q + 1) % 2^23), Eof := decide (Ends M e q) },
      fun i => ((List.range 512).map (M.disk (roundSector M e q))).getD i (buf i),?_,?_,fun n => ?_⟩
    · rw [update_self]
      exact h.next _
    · rw [update_self]
      exact decide_eq_true_iff
    · rw [searchSectors,if_neg (by rw [he]; decide),hstep]
      simp only [bind,Except.bind]
      rw [hf]
  · refine .inl ⟨?_,fun n => ?_⟩
    · by_contra hno
      rw [hfind.mpr hno] at hf
      cases hf
    · rw [searchSectors,if_neg (by rw [he]; decide),hstep]
      simp only [bind,Except.bind]
      rw [hf]
      dsimp only
      rw [fileClose_one (by rw [update_self]; exact h.count)]
      exact ⟨_,rfl⟩

theorem search_goes_on (hs : 0 < M.volume.Bpb.SectorsPerCluster.toNat)
    (hno : ∀ q < 2^23, ¬ Stops M (dosFileName nameToFind junk) e q) (entry : DirectoryEntry) (n : ℕ)
    (h : Round e (t f) q) (he : (t f).Eof = false) (buf : Bytes) :
    searchSectors M (dosFileName nameToFind junk) f n t entry buf = .error .hang := by
  induction n generalizing t q buf with
  | zero => rfl
  | succ n ih =>
    have hq := hno q h.wrapped
    rcases search_round h he hs entry buf with ⟨hfound,-⟩ | ⟨-,t',buf',hnext,heof,hstep⟩
    · exact absurd (.inl hfound) hq
    · rw [hstep]
      refine ih hnext ?_ buf'
      rw [← Bool.not_eq_true,heof]
      exact fun hend => hq (.inr hend)

theorem search_closes (h : (t f).ReferenceCount = 1) (he : (t f).Eof = true) (entry : DirectoryEntry)
    (name : CString) (buf : Bytes) (n : ℕ) : ∃ r, searchSectors M name f (n + 1) t entry buf = .ok r := by
  rw [searchSectors,if_pos he,fileClose_one h]
  exact ⟨_,rfl⟩

theorem search_comes_to (hs : 0 < M.volume.Bpb.SectorsPerCluster.toNat) (entry : DirectoryEntry) {d : ℕ}
    (hd : Stops M (dosFileName nameToFind junk) e (q + d)) (hlt : q + d < 2^23) (h : Round e (t f) q)
    (he : (t f).Eof = false) (buf : Bytes) :
    ∃ n r, searchSectors M (dosFileName nameToFind junk) f n t entry buf = .ok r := by
  induction d generalizing t q buf with
  | zero =>
    rcases search_round h he hs entry buf with ⟨-,hret⟩ | ⟨hnot,t',buf',hnext,heof,hstep⟩
    · exact ⟨_,hret 0⟩
    · obtain ⟨r,hr⟩ := search_closes hnext.count (heof.mpr (hd.resolve_left hnot)) entry
        (dosFileName nameToFind junk) buf' 0
      exact ⟨2,r,(hstep 1).trans hr⟩
  | succ d ih =>
    rcases search_round h he hs entry buf with ⟨-,hret⟩ | ⟨-,t',buf',hnext,-,hstep⟩
    · exact ⟨_,hret 0⟩
    · by_cases hend : (t' f).Eof = true
      · obtain ⟨r,hr⟩ := search_closes hnext.count hend entry (dosFileName nameToFind junk) buf' 0
        exact ⟨2,r,(hstep 1).trans hr⟩
      · have hq : (q + 1) % 2^23 + d = q + (d + 1) := by omega
        obtain ⟨n,r,hr⟩ := ih (hq ▸ hd) (hq ▸ hlt) hnext (Bool.not_eq_true _ ▸ hend) buf'
        exact ⟨n + 1,r,(hstep n).trans hr⟩

end Search

section Circles

theorem chainCluster_early_succ (M : Mounted) (e : DirectoryEntry) (k : ℕ) :
    ∃ j ≤ 2^12, chainCluster M e (k + 1) = chainCluster M e (j + 1) := by
  have hmem : ∀ c, fsFat12GetNextCluster M c ∈ Finset.range (2^12) := fun c =>
    Finset.mem_range.mpr (getNextCluster_lt M c)
  obtain ⟨j,hj,he⟩ := Chains.iterate_early hmem (fsFat12GetNextCluster M e.FirstCluster) k
  rw [Finset.card_range] at hj
  exact ⟨j,hj,he⟩

theorem chainCluster_early (M : Mounted) (e : DirectoryEntry) (k : ℕ) :
    ∃ j ≤ 2^12 + 1, chainCluster M e k = chainCluster M e j := by
  cases k with
  | zero => exact ⟨0,by norm_num,rfl⟩
  | succ k =>
    obtain ⟨j,hj,he⟩ := chainCluster_early_succ M e k
    exact ⟨j + 1,by omega,he⟩

theorem endless_iff (hs : 0 < M.volume.Bpb.SectorsPerCluster.toNat) :
    Endless M name e ↔ ∀ q < 2^23, ¬ Stops M name e q := by
  have hbyte := M.volume.Bpb.SectorsPerCluster.toNat_lt
  generalize hS : M.volume.Bpb.SectorsPerCluster.toNat = s at hs hbyte
  constructor
  · intro h q hq hstop
    have hsize := h.size
    rcases hstop with hfound | hend | hzero
    · exact h.unfound _ _ (hS ▸ Nat.mod_lt _ (hS ▸ hs)) hfound
    · omega
    · rw [hS] at hzero
      rcases hk : (q + 1) / s with _ | k
      · rw [hk] at hzero
        have hle : ¬ s ≤ q + 1 := fun hle => by
          have := (Nat.le_div_iff_mul_le hs).mpr (by omega : 1 * s ≤ q + 1)
          omega
        exact h.first.elim (fun h0 => h0 hzero) (fun h1 => by omega)
      · rw [hk] at hzero
        exact h.chain k hzero
  · intro h
    refine ⟨?_,?_,?_,?_⟩
    · by_contra hsize
      exact h (2^23 - 2) (by norm_num) (.inr (.inl (by omega)))
    · by_contra hfirst
      rw [not_or,not_not,hS] at hfirst
      refine h 0 (by norm_num) (.inr (.inr ?_))
      rw [hS,Nat.div_eq_of_lt (by omega)]
      exact hfirst.1
    · intro k hzero
      obtain ⟨j,hj,he⟩ := chainCluster_early_succ M e k
      have hbound : (j + 1) * s ≤ (2^12 + 1) * 2^8 := Nat.mul_le_mul (by omega) (by omega)
      have hpos : 0 < (j + 1) * s := Nat.mul_pos (by omega) hs
      refine h ((j + 1) * s - 1) (by omega) (.inr (.inr ?_))
      rw [hS,Nat.sub_add_cancel hpos,Nat.mul_div_cancel _ hs,← he]
      exact hzero
    · intro k i hi hfound
      rw [hS] at hi
      obtain ⟨j,hj,he⟩ := chainCluster_early M e k
      have hbound : j * s ≤ (2^12 + 1) * 2^8 := Nat.mul_le_mul hj (by omega)
      refine h (s * j + i) (by rw [Nat.mul_comm]; omega) (.inl ?_)
      rw [roundSector,hS,Nat.mul_add_div hs,Nat.div_eq_of_lt hi,Nat.add_zero,Nat.mul_add_mod,Nat.mod_eq_of_lt hi,
        chainSector,← he]
      exact hfound

end Circles

/-- All reads of a File with this entry return, and so does the search of the directory,
where `t` holds the File that the search has got. -/
structure LoopsEnd (M : Mounted) (e : DirectoryEntry) (nameToFind : CString) (t : FileTable) (f : Fin NFILE)
    (junk : Bytes) : Prop where
  read : ∀ file length, file.DirectoryEntry = e → ∃ r, fsFat12Read M file length = .ok r
  search : ∃ n r, searchSectors M (dosFileName nameToFind junk) f n t e junk = .ok r

theorem created_round (h : fsFat12CreateFileStructure t e = (some f,t')) :
    Round e (t' f) 0 ∧ (t' f).Eof = false := by
  unfold fsFat12CreateFileStructure at h
  split at h
  · cases h
  · rename_i g t1 hg
    cases h
    obtain ⟨-,rfl⟩ := allocateFileStructure_some hg
    rw [update_self]
    refine ⟨⟨rfl,rfl,?_,rfl,rfl,by norm_num⟩,rfl⟩
    rw [update_self]

theorem endless_never_ends (hs : 0 < M.volume.Bpb.SectorsPerCluster.toNat) {nameToFind : CString} {junk : Bytes}
    (h : fsFat12CreateFileStructure t e = (some f,t')) (hendless : Endless M (dosFileName nameToFind junk) e) :
    ¬ LoopsEnd M e nameToFind t' f junk := by
  intro hends
  obtain ⟨hround,hopen⟩ := created_round h
  obtain ⟨n,r,hr⟩ := hends.search
  rw [search_goes_on hs ((endless_iff hs).mp hendless) e n hround hopen junk] at hr
  cases hr

/-- The loops end unless the chain turns in a circle without the name and the size of the
directory is within the last sector that 32 bits can count. -/
theorem loops_end_iff (hC : 0 < M.volume.mount.ClusterSize) {nameToFind : CString} {junk : Bytes}
    (h : fsFat12CreateFileStructure t e = (some f,t')) :
    LoopsEnd M e nameToFind t' f junk ↔ ¬ Endless M (dosFileName nameToFind junk) e := by
  have hs : 0 < M.volume.Bpb.SectorsPerCluster.toNat := by
    have := M.volume.clusterSize
    omega
  obtain ⟨hround,hopen⟩ := created_round h
  constructor
  · exact fun hends hendless => endless_never_ends hs h hendless hends
  · intro hnot
    refine ⟨fun file length _ => read_returns hC file length,?_⟩
    rw [endless_iff hs] at hnot
    push Not at hnot
    obtain ⟨q,hq,hstop⟩ := hnot
    exact search_comes_to hs e ((Nat.zero_add q).symm ▸ hstop) (by omega) hround hopen junk

theorem loops_end_iff_empty : ∃ f t', fsFat12CreateFileStructure unusedFiles ⟨fun _ => 0⟩ = (some f,t') ∧
    LoopsEnd (twoClusters true) ⟨fun _ => 0⟩ (nameA.string (fun _ => 0)) t' f (fun _ => 0) := by
  obtain ⟨f,t',h,-⟩ := create_of_free (t := unusedFiles) (f := ⟨0,by decide⟩) ⟨fun _ => 0⟩ rfl
  refine ⟨f,t',h,(loops_end_iff (by decide) h).mpr ?_⟩
  intro hendless
  exact absurd hendless.size (by decide)

def circle : Mounted where
  image := smallKernel
  memory x := if x = smallKernel.fat + 3 then 2 else 0
  volume := smallVolume
  disk _ _ := 0

local instance circleEntry_size : NeZero 32 := ⟨by decide⟩

def circleEntry : DirectoryEntry :=
  ⟨fun j => if j = 11 then 0x10 else if j = 26 then 2 else if 28 ≤ j then 0xFF else 0⟩

theorem circle_chain (k : ℕ) : chainCluster circle circleEntry k = 2 := by
  induction k with
  | zero => decide
  | succ k ih =>
    rw [chainCluster,Function.iterate_succ_apply']
    change fsFat12GetNextCluster circle (chainCluster circle circleEntry k) = 2
    rw [ih]
    decide +kernel

theorem circle_endless : Endless circle (dosFileName (nameA.string (fun _ => 0)) (fun _ => 0)) circleEntry where
  size := by decide
  first := .inl (by decide)
  chain k := by
    rw [circle_chain]
    decide
  unfound k i _ := by
    rintro ⟨j,-,hj⟩
    rw [entryName,strcmp_dosFileName] at hj
    have h0 : (0 : UInt8) = toDosFileName (nameA.string (fun _ => 0)) (fun _ => 0) 11 0 := hj 0 (by decide)
    exact absurd h0 (by decide +kernel)

theorem circle_searched_for_ever : 0 < circle.volume.mount.ClusterSize ∧
    ∃ f t', fsFat12CreateFileStructure unusedFiles circleEntry = (some f,t') ∧
      ¬ LoopsEnd circle circleEntry (nameA.string (fun _ => 0)) t' f (fun _ => 0) := by
  obtain ⟨f,t',h,-⟩ := create_of_free (t := unusedFiles) (f := ⟨0,by decide⟩) circleEntry rfl
  exact ⟨by decide,f,t',h,endless_never_ends (by decide) h circle_endless⟩

end UoDOS.FileSystem
