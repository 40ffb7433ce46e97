import UoDOS.Library.Transition
import UoDOS.FileSystem.FileReads

/-! # Two readers of one File

A File that is shared through fork can be read by two processes at once.
-/
namespace UoDOS.FileSystem
open Transition

inductive Reader
  | ready (length : ℕ)
  | reading (currentCluster clusterOffset length : ℕ) (buffer : List UInt8)
  | done (buffer : List UInt8)
  deriving DecidableEq

namespace Reader

def Starts : Reader → Prop
  | .ready _ => True
  | _ => False

def Busy : Reader → Prop
  | .reading _ _ _ _ => True
  | _ => False

def Done : Reader → Prop
  | .done _ => True
  | _ => False

instance : DecidablePred Starts
  | .ready _ => isTrue trivial
  | .reading _ _ _ _ => isFalse id
  | .done _ => isFalse id

instance : DecidablePred Busy
  | .ready _ => isFalse id
  | .reading _ _ _ _ => isTrue trivial
  | .done _ => isFalse id

end Reader

structure Shared where
  file : File
  reader : Bool → Reader

variable (M : Mounted)

def startRead (file : File) (length : ℕ) : Option Reader :=
  if (file.type = .FD_FILE ∨ file.type = .FD_DIR) ∧ file.Eof = false then
    if M.volume.mount.ClusterSize = 0 then none
    else if length = 0 then some (.done [])
    else
      let clusterHops := file.Position / M.volume.mount.ClusterSize
      let clusterOffset := file.Position % M.volume.mount.ClusterSize
      let currentCluster := (fsFat12GetNextCluster M)^[clusterHops] file.DirectoryEntry.FirstCluster
      some (.reading currentCluster clusterOffset length [])
  else some (.done [])

def readRound (file : File) (currentCluster clusterOffset length : ℕ) (buffer : List UInt8) :
    Option (File × Reader) :=
  match fsFat12ReadCluster M currentCluster clusterOffset length with
  | .error _ => none
  | .ok (readLength,bytes) =>
    let buffer := buffer ++ bytes
    let file := { file with Position := (file.Position + readLength) % 2^32 }
    if file.Size ≤ file.Position ∧ file.type = .FD_FILE then some ({ file with Eof := true },.done buffer)
    else
      let currentCluster := if clusterOffset + readLength = M.volume.mount.ClusterSize then
        fsFat12GetNextCluster M currentCluster else currentCluster
      if currentCluster = 0 then some ({ file with Eof := true },.done buffer)
      else if length - readLength = 0 then some (file,.done buffer)
      else some (file,.reading currentCluster 0 (length - readLength) buffer)

def readStep (s : Shared) (r : Bool) : Option Shared :=
  match s.reader r with
  | .ready length => (startRead M s.file length).map (fun x => { s with reader := Function.update s.reader r x })
  | .reading currentCluster clusterOffset length buffer =>
    (readRound M s.file currentCluster clusterOffset length buffer).map
      (fun x => ⟨x.1,Function.update s.reader r x.2⟩)
  | .done _ => none

def Alone (s : Shared) (r : Bool) : Prop := (s.reader r).Starts → ¬ (s.reader !r).Busy

instance (s : Shared) (r : Bool) : Decidable (Alone s r) := inferInstanceAs (Decidable (_ → _))

variable {M}

def fileBytes (M : Mounted) (cs : List ℕ) (S n : ℕ) : List UInt8 :=
  (List.range n).map (fun i => fileByte M cs (S + i))

/-- When both calls are done, they have delivered consecutive ranges in some order. -/
def Consecutive (M : Mounted) (cs : List ℕ) (P : ℕ) (length : Bool → ℕ) (s : Shared) : Prop :=
  ∀ b₀ b₁, s.reader false = .done b₀ → s.reader true = .done b₁ →
    b₀ = fileBytes M cs P (length false) ∧ b₁ = fileBytes M cs (P + length false) (length true) ∨
    b₁ = fileBytes M cs P (length true) ∧ b₀ = fileBytes M cs (P + length true) (length false)

inductive Progress (M : Mounted) (cs : List ℕ) (S l : ℕ) : ℕ → Reader → Prop
  | ready : Progress M cs S l 0 (.ready l)
  | reading {x : ℕ} : x < l → 512 ∣ x → Progress M cs S l x (.reading
      (cs.getD ((S + x) / M.volume.mount.ClusterSize) 0) ((S + x) % M.volume.mount.ClusterSize) (l - x)
      (fileBytes M cs S x))
  | done : Progress M cs S l l (.done (fileBytes M cs S l))

variable {cs : List ℕ} {file file' : File} {S l x y k : ℕ}

theorem fileBytes_append (S x k : ℕ) :
    fileBytes M cs S (x + k) = fileBytes M cs S x ++ fileBytes M cs (S + x) k := by
  rw [fileBytes,List.range_add,List.map_append,List.map_map,fileBytes,fileBytes]
  simp only [Function.comp_def,Nat.add_assoc]

theorem firstBytes_eq (hf : FatFile M file cs) (hS : 512 ∣ S)
    (hk : k ≤ M.volume.mount.ClusterSize - S % M.volume.mount.ClusterSize) :
    firstBytes M cs S k = fileBytes M cs S k := by
  have hC := M.volume.clusterSize
  have hin : InSector M.volume.mount.ClusterSize (S % M.volume.mount.ClusterSize) k := by
    left
    rw [Nat.mod_mod_of_dvd _ ⟨_,hC.trans (Nat.mul_comm _ _)⟩]
    exact Nat.mod_eq_zero_of_dvd hS
  apply List.map_congr_left
  intro i hi
  have hdel : delivered M cs S k i = _ := delivered_of_inSector hf.clusterSize_pos hin
  have hlt := List.mem_range.mp hi
  rw [← hdel,delivered,if_pos (by omega)]

theorem Progress.start (hf : FatFile M file cs) (hp : file.Position = S) (hl : S + l ≤ file.Size)
    (he : file.Eof = true → file.Size ≤ S) :
    ∃ x, startRead M file l = some x ∧ Progress M cs S l 0 x := by
  have hC := hf.clusterSize_pos
  unfold startRead
  rcases Nat.eq_zero_or_pos l with rfl | hpos
  · refine ⟨.done [],?_,.done⟩
    rw [if_neg hC.ne',if_pos rfl,ite_self]
  · have heof : file.Eof = false := by
      by_contra hno
      have := he (by simpa using hno)
      omega
    obtain ⟨hchain,hlt⟩ := hf.chain_of_lt (show S < file.Size by omega)
    rw [if_pos ⟨.inl hf.type,heof⟩,if_neg hC.ne',if_neg hpos.ne',hp]
    simp only [hchain.iterate hlt.le]
    exact ⟨_,rfl,.reading hpos (Nat.dvd_zero 512)⟩

structure FileAt (M : Mounted) (cs : List ℕ) (size : ℕ) (file : File) (Q : ℕ) : Prop where
  wellFormed : FatFile M file cs
  size_eq : file.Size = size
  position : file.Position = Q
  eof : file.Eof = true → size ≤ Q

theorem FileAt.advance {size : ℕ} {file : File} {Q Q' : ℕ} {e : Bool} (h : FileAt M cs size file Q)
    (he : e = true → size ≤ Q') : FileAt M cs size { file with Position := Q', Eof := e } Q' :=
  ⟨(h.wellFormed.move Q').mark e,h.size_eq,rfl,he⟩

theorem Progress.round {size : ℕ} (hf : FileAt M cs size file (S + x)) (hl : S + l ≤ size) (hS : 512 ∣ S)
    (hl' : 512 ∣ l) (hx : x < l) (hx' : 512 ∣ x) :
    ∃ k t y, readRound M file (cs.getD ((S + x) / M.volume.mount.ClusterSize) 0)
        ((S + x) % M.volume.mount.ClusterSize) (l - x) (fileBytes M cs S x) = some (t,y) ∧
      FileAt M cs size t (S + x + k) ∧ Progress M cs S l (x + k) y := by
  obtain ⟨hfile,hsize,hp,heof⟩ := id hf
  have hP : S + x < file.Size := by omega
  have hC := M.volume.clusterSize
  have hmod := Nat.mod_lt (S + x) hfile.clusterSize_pos
  have hend := hfile.end_lt
  have hlast := hfile.cluster_end_le hP
  obtain ⟨k,hk⟩ : ∃ k, k = min (l - x)
    (M.volume.mount.ClusterSize - (S + x) % M.volume.mount.ClusterSize) := ⟨_,rfl⟩
  have hPk : (S + x + k) % 2^32 = S + x + k := by omega
  have hbytes : fileBytes M cs S x ++ firstBytes M cs (S + x) k = fileBytes M cs S (x + k) := by
    rw [firstBytes_eq hfile (Nat.dvd_add hS hx') (by omega),fileBytes_append]
  refine ⟨k,?_⟩
  unfold readRound
  rw [hfile.readCluster hP hk]
  have hfileType : (file.Size ≤ S + x + k ∧ file.type = .FD_FILE) ↔ file.Size ≤ S + x + k :=
    and_iff_left hfile.type
  simp only [hp,hPk,hfileType,hfile.next_cluster hP (show k ≤ _ by omega),hbytes]
  split_ifs with hover hz hrest
  · obtain rfl : x + k = l := by omega
    exact ⟨_,_,rfl,hf.advance (fun _ => by omega),.done⟩
  · have := (hfile.cluster_data (show S + x + k < file.Size by omega)).1
    omega
  · obtain rfl : x + k = l := by omega
    exact ⟨_,_,rfl,hf.advance (fun h => by have := heof h; omega),.done⟩
  · refine ⟨_,_,rfl,hf.advance (fun h => by have := heof h; omega),?_⟩
    -- the round ends at the end of a cluster
    have hzero : (S + (x + k)) % M.volume.mount.ClusterSize = 0 := by
      rw [← Nat.add_assoc,← Nat.mod_add_mod,show (S + x) % M.volume.mount.ClusterSize + k =
        M.volume.mount.ClusterSize by omega,Nat.mod_self]
    have hdvd : 512 ∣ x + k := by
      have h1 : 512 ∣ (S + x) % M.volume.mount.ClusterSize :=
        (Nat.dvd_mod_iff ⟨_,hC.trans (Nat.mul_comm _ _)⟩).mpr (Nat.dvd_add hS hx')
      omega
    have hread : Progress M cs S l (x + k) _ := .reading (by omega) hdvd
    rwa [hzero,Nat.sub_add_eq,← Nat.add_assoc] at hread

def InTurn (M : Mounted) (cs : List ℕ) (size P : ℕ) (length : Bool → ℕ) (s : Shared) : Prop :=
  ∃ r x y, Progress M cs P (length r) x (s.reader r) ∧
    Progress M cs (P + length r) (length (!r)) y (s.reader !r) ∧ FileAt M cs size s.file (P + x + y) ∧
    ((s.reader !r).Starts ∨ (s.reader r).Done)

section Turns

variable {size P : ℕ} {length : Bool → ℕ} {s s' : Shared} {q : Bool}

theorem Progress.of_starts {z : Reader} (h : Progress M cs S l x z) (hz : z.Starts) :
    x = 0 ∧ z = .ready l := by
  cases h with
  | ready => exact ⟨rfl,rfl⟩
  | reading => exact hz.elim
  | done => exact hz.elim

theorem length_le (hP : P + length false + length true ≤ size) (r : Bool) :
    P + length r + length (!r) ≤ size := by
  cases r
  · exact hP
  · simp only [Bool.not_true]
    omega

theorem Progress.of_done {z : Reader} (h : Progress M cs S l x z) (hz : z.Done) :
    x = l ∧ z = .done (fileBytes M cs S l) := by
  cases h with
  | ready => exact hz.elim
  | reading => exact hz.elim
  | done => exact ⟨rfl,rfl⟩

theorem Progress.step (h : Progress M cs S l x (s.reader q)) (hf : FileAt M cs size s.file (S + x))
    (hl : S + l ≤ size) (hS : 512 ∣ S) (hl' : 512 ∣ l) (hd : ¬ (s.reader q).Done) :
    ∃ k t z, readStep M s q = some ⟨t,Function.update s.reader q z⟩ ∧ FileAt M cs size t (S + x + k) ∧
      Progress M cs S l (x + k) z := by
  unfold readStep
  generalize s.reader q = z at h hd
  cases h with
  | ready =>
    obtain ⟨hfile,hsize,hp,heof⟩ := id hf
    obtain ⟨z,hz,hprog⟩ := Progress.start hfile hp (by rw [hsize]; exact hl) (by rw [hsize]; exact heof)
    exact ⟨0,s.file,z,by simp only [hz,Option.map_some],hf,hprog⟩
  | reading hx hx' =>
    obtain ⟨k,t,z,hz,ht,hprog⟩ := Progress.round hf hl hS hl' hx hx'
    exact ⟨k,t,z,by simp only [hz,Option.map_some],ht,hprog⟩
  | done => exact absurd trivial hd

theorem InTurn.step (h : InTurn M cs size P length s) (hP : P + length false + length true ≤ size)
    (hp : 512 ∣ P) (hl : ∀ r, 512 ∣ length r) (ha : Alone s q) (hd : ¬ (s.reader q).Done) :
    ∃ s', readStep M s q = some s' ∧ InTurn M cs size P length s' := by
  obtain ⟨r,x,y,hr,ho,hf,hturn⟩ := h
  have hle := length_le hP r
  have hne : (!r) ≠ r := Bool.not_ne_self r
  rcases Bool.eq_or_eq_not q r with rfl | rfl
  · -- the first call goes on, so the other one has not started
    have hstart := hturn.resolve_right hd
    obtain ⟨rfl,-⟩ := ho.of_starts hstart
    obtain ⟨k,t,z,hz,ht,hprog⟩ := hr.step (by simpa using hf) (by omega) hp (hl q) hd
    refine ⟨_,hz,q,x + k,0,by simpa using hprog,by simpa [hne] using ho,?_,.inl (by simpa [hne] using hstart)⟩
    rwa [Nat.add_zero,← Nat.add_assoc]
  · by_cases hdone : (s.reader r).Done
    · -- the first call is done
      obtain ⟨rfl,-⟩ := hr.of_done hdone
      obtain ⟨k,t,z,hz,ht,hprog⟩ := ho.step hf (by omega) (Nat.dvd_add hp (hl r)) (hl _) hd
      refine ⟨_,hz,r,_,y + k,by simpa [hne.symm] using hr,by simpa using hprog,?_,.inr (by simpa [hne.symm] using hdone)⟩
      rwa [← Nat.add_assoc]
    · -- no call has started, and this one becomes the first
      have hstart := hturn.resolve_right hdone
      obtain ⟨rfl,hready⟩ := ho.of_starts hstart
      have hidle : (s.reader r).Starts := by
        have hb := ha hstart
        rw [Bool.not_not] at hb
        generalize s.reader r = z at hr hb hdone
        cases hr with
        | ready => trivial
        | reading => exact absurd trivial hb
        | done => exact absurd trivial hdone
      obtain ⟨rfl,hready'⟩ := hr.of_starts hidle
      have hfirst : Progress M cs P (length (!r)) 0 (s.reader !r) := by
        rw [hready]
        exact .ready
      obtain ⟨k,t,z,hz,ht,hprog⟩ := hfirst.step (by simpa using hf) (by omega) hp (hl _) hd
      refine ⟨_,hz,!r,0 + k,0,by simpa using hprog,?_,?_,.inl ?_⟩
      · simp only [Bool.not_not,Function.update_of_ne hne.symm,hready']
        exact .ready
      · simpa using ht
      · simpa [hne.symm] using hidle

theorem InTurn.consecutive (h : InTurn M cs size P length s) : Consecutive M cs P length s := by
  obtain ⟨r,x,y,hr,ho,-,-⟩ := h
  intro b0 b1 h0 h1
  cases r with
  | false =>
    rw [h0] at hr
    rw [Bool.not_false,h1] at ho
    left
    exact ⟨Reader.done.inj (hr.of_done trivial).2,Reader.done.inj (ho.of_done trivial).2⟩
  | true =>
    rw [h1] at hr
    rw [Bool.not_true,h0] at ho
    right
    exact ⟨Reader.done.inj (hr.of_done trivial).2,Reader.done.inj (ho.of_done trivial).2⟩

end Turns

def twoReads (file : File) (length : Bool → ℕ) : Shared := ⟨file,fun r => .ready (length r)⟩

/-- If no call starts while the other is under way, the calls never get stuck and
deliver consecutive ranges. -/
theorem shared_reads_consecutive {length : Bool → ℕ} {s : Shared} {rs : List Bool} (hf : FatFile M file cs)
    (he : file.Eof = false) (hp : 512 ∣ file.Position) (hl : ∀ r, 512 ∣ length r)
    (hin : file.Position + length false + length true ≤ file.Size)
    (hr : Runs (guarded (graph (readStep M)) Alone) (twoReads file length) rs s) :
    Consecutive M cs file.Position length s ∧
      ∀ r, ¬ (s.reader r).Done → Alone s r → (readStep M s r).isSome := by
  have hturn : InTurn M cs file.Size file.Position length s := by
    refine hr.invariant (I := InTurn M cs file.Size file.Position length) ?_ ?_
    · refine ⟨false,0,0,.ready,.ready,⟨hf,rfl,rfl,?_⟩,.inl trivial⟩
      simp [twoReads,he]
    · rintro a q b ha ⟨halone,hstep⟩
      have hd : ¬ (a.reader q).Done := by
        intro hd
        have hnone : readStep M a q = none := by
          unfold readStep
          generalize a.reader q = z at hd
          cases z with
          | done => rfl
          | ready => exact hd.elim
          | reading => exact hd.elim
        rw [graph,hnone] at hstep
        cases hstep
      obtain ⟨b',hb',hturn⟩ := ha.step hin hp hl halone hd
      rw [graph,hb'] at hstep
      cases hstep
      exact hturn
  refine ⟨hturn.consecutive,?_⟩
  intro r hd ha
  obtain ⟨b,hb,-⟩ := hturn.step hin hp hl ha hd
  rw [hb]
  rfl

local instance pairFile_size : NeZero 32 := ⟨by decide⟩

def pairFile : File :=
  ⟨.FD_FILE,2,true,false,0,⟨fun j => if j = 26 then 2 else if j = 29 then 4 else 0⟩,false,0,1024,0⟩

theorem pairFile_wellFormed : FatFile (twoClusters true) pairFile [2,3] where
  type := rfl
  size_lt := by decide
  clusterSize_pos := by decide
  below := by decide
  above := by decide
  chain := by
    have he : tableEntry (twoClusters true) pairFile.DirectoryEntry.FirstCluster = 3 := by decide +kernel
    refine .inr (.next ⟨by decide,by decide⟩ ?_)
    rw [he]
    exact .last ⟨by decide,by decide⟩ (by decide +kernel)

def pairReads : Shared := twoReads pairFile (fun _ => 512)

theorem inTurn_runs : (execute (fun a r => if Alone a r then readStep (twoClusters true) a r else none)
    pairReads [false,false,true,true]).isSome = true := by decide +kernel

theorem shared_reads_consecutive_inTurn :
    Consecutive (twoClusters true) [2,3] 0 (fun _ => 512) (Option.get _ inTurn_runs) :=
  (shared_reads_consecutive pairFile_wellFormed rfl (by decide) (by decide) (by decide)
    (Runs.of_execute_guarded (Option.some_get inTurn_runs).symm)).1

theorem overlapping_runs : (execute (readStep (twoClusters true)) pairReads
    [false,true,false,true]).isSome = true := by decide +kernel

/-- Both calls start before one has read a cluster: both deliver the first one. -/
theorem overlapping_reads_repeat : FatFile (twoClusters true) pairFile [2,3] ∧
    ∃ s, Runs (graph (readStep (twoClusters true))) pairReads [false,true,false,true] s ∧
      ¬ Consecutive (twoClusters true) [2,3] 0 (fun _ => 512) s := by
  refine ⟨pairFile_wellFormed,_,Runs.of_execute (Option.some_get overlapping_runs).symm,?_⟩
  intro h
  have h₀ : (Option.get _ overlapping_runs).reader false =
      .done (fileBytes (twoClusters true) [2,3] 0 512) := by decide +kernel
  have h₁ : (Option.get _ overlapping_runs).reader true =
      .done (fileBytes (twoClusters true) [2,3] 0 512) := by decide +kernel
  have hne : fileBytes (twoClusters true) [2,3] 0 512 ≠ fileBytes (twoClusters true) [2,3] (0 + 512) 512 := by
    decide +kernel
  rcases h _ _ h₀ h₁ with ⟨-,hb⟩ | ⟨-,hb⟩
  · exact hne hb
  · exact hne hb

end UoDOS.FileSystem
