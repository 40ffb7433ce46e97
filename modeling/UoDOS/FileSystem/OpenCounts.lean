import UoDOS.Library.Results
import UoDOS.FileSystem.Directories

/-! # What opening a path does to the reference counts

A search of a sub-directory takes a File and gives it back, so fsFat12Open ends with
the counts that it found, or with one free File more in use.
-/
namespace UoDOS.FileSystem
open ByteMemory Strings Results Function

def counts (t : FileTable) (f : Fin NFILE) : ℕ := (t f).ReferenceCount

variable {M : Mounted} {t t' : FileTable} {f g : Fin NFILE}
  {name : CString} {file file' : File} {directory found : Bool} {c k n : ℕ} {e e' : DirectoryEntry}
  {junk : Bytes} {r : Option (Fin NFILE)} {bytes : List UInt8}

theorem counts_update (t : FileTable) (f : Fin NFILE) (x : File) :
    counts (update t f x) = update (counts t) f x.ReferenceCount := by
  funext g
  rcases eq_or_ne g f with rfl | hg
  · simp [counts]
  · simp [counts,hg]

theorem counts_write {x : File} (h : x.ReferenceCount = (t f).ReferenceCount) :
    counts (update t f x) = counts t := by
  rw [counts_update,h]
  exact update_eq_self f (counts t)

theorem counts_allocate (h : allocateFileStructure t = (some f,t')) :
    counts t f = 0 ∧ counts t' = update (counts t) f 1 := by
  obtain ⟨hz,rfl⟩ := allocateFileStructure_some h
  exact ⟨hz,counts_update t f _⟩

theorem counts_dup (h : fileDup t f = .ok t') :
    counts t' = update (counts t) f (counts t f + 1) := by
  rw [fileDup_ok h]
  exact counts_update t f _

theorem counts_close {ff : Option File} (h : fileClose t f = .ok (t',ff)) :
    counts t' = update (counts t) f (counts t f - 1) := by
  unfold fileClose at h
  split_ifs at h with h1 h2
  · cases h
    exact counts_update t f _
  · cases h
    rw [counts_update]
    congr 1
    change 0 = (t f).ReferenceCount - 1
    omega

theorem counts_create (h : fsFat12CreateFileStructure t e = (some f,t')) :
    counts t f = 0 ∧ counts t' = update (counts t) f 1 := by
  unfold fsFat12CreateFileStructure at h
  split at h
  · cases h
  · rename_i g t1 ha
    obtain ⟨hz,hc⟩ := counts_allocate ha
    cases h
    refine ⟨hz,?_⟩
    rw [← hc]
    exact counts_write rfl

theorem create_none (h : fsFat12CreateFileStructure t e = (none,t')) :
    t' = t := by
  unfold fsFat12CreateFileStructure at h
  split at h
  · rename_i t1 ha
    cases h
    exact (allocateFileStructure_none ha).1
  · cases h

theorem readClusters_file {length : ℕ} {o : ℕ}
    (h : readClusters M n file c o length = .ok (k,bytes,file')) :
    ∃ position eof, file' = { file with Position := position, Eof := eof } := by
  induction n generalizing file c o k bytes length with
  | zero =>
    cases length with
    | zero =>
      cases h
      exact ⟨_,_,rfl⟩
    | succ length => cases h
  | succ n ih =>
    cases length with
    | zero =>
      cases h
      exact ⟨_,_,rfl⟩
    | succ length =>
      rw [readClusters,bind_eq_ok] at h
      obtain ⟨r,-,h⟩ := h
      dsimp only at h
      split at h
      · cases h
        exact ⟨_,_,rfl⟩
      · generalize (if o + r.1 = M.volume.mount.ClusterSize then fsFat12GetNextCluster M c else c) =
          next at h
        split at h
        · cases h
          exact ⟨_,_,rfl⟩
        · rw [bind_eq_ok] at h
          obtain ⟨q,hq,h⟩ := h
          obtain ⟨k',bytes',file1⟩ := q
          cases h
          obtain ⟨position,eof,rfl⟩ := ih hq
          exact ⟨position,eof,rfl⟩

theorem read_file
    (h : fsFat12Read M file n = .ok (k,bytes,file')) :
    ∃ position eof, file' = { file with Position := position, Eof := eof } := by
  unfold fsFat12Read at h
  split_ifs at h
  · exact readClusters_file h
  · cases h
    exact ⟨_,_,rfl⟩

theorem readSectors_length {sector offset size : ℕ}
    (h : readSectors M n sector offset size = .ok bytes) : bytes.length = size := by
  induction n generalizing sector offset size bytes with
  | zero =>
    cases size with
    | zero =>
      cases h
      rfl
    | succ size => cases h
  | succ n ih =>
    cases size with
    | zero =>
      cases h
      rfl
    | succ size =>
      rw [readSectors,bind_eq_ok] at h
      obtain ⟨rest,hr,h⟩ := h
      cases h
      rw [List.length_append,ih hr,List.length_map,List.length_range]
      split_ifs <;> omega

theorem readCluster_length {offset size : ℕ}
    (h : fsFat12ReadCluster M c offset size = .ok (k,bytes)) : bytes.length = k ∧ k ≤ size := by
  unfold fsFat12ReadCluster at h
  dsimp only at h
  generalize hs1 : (if M.volume.mount.ClusterSize < size then M.volume.mount.ClusterSize else size) = s1 at h
  generalize (if M.volume.mount.ClusterSize ≤ offset then 0 else offset) = a at h
  generalize hs2 : (if M.volume.mount.ClusterSize < (a + s1) % 2^32 then M.volume.mount.ClusterSize - a else s1) =
    s2 at h
  have hle1 : s1 ≤ size := by
    split_ifs at hs1 <;> omega
  have hle2 : s2 ≤ s1 := by
    have := Nat.mod_le (a + s1) (2^32)
    split_ifs at hs2 <;> omega
  split at h
  · rw [bind_eq_ok] at h
    obtain ⟨rest,hr,h⟩ := h
    cases h
    refine ⟨readSectors_length hr,?_⟩
    split_ifs <;> omega
  · rw [bind_eq_ok] at h
    obtain ⟨rest,hr,h⟩ := h
    cases h
    exact ⟨readSectors_length hr,by omega⟩

theorem readClusters_length {length : ℕ} {o : ℕ}
    (h : readClusters M n file c o length = .ok (k,bytes,file')) : bytes.length = k ∧ k ≤ length := by
  induction n generalizing file c o k bytes length with
  | zero =>
    cases length with
    | zero =>
      cases h
      exact ⟨rfl,le_rfl⟩
    | succ length => cases h
  | succ n ih =>
    cases length with
    | zero =>
      cases h
      exact ⟨rfl,le_rfl⟩
    | succ length =>
      rw [readClusters,bind_eq_ok] at h
      obtain ⟨⟨k1,bytes1⟩,hr,h⟩ := h
      obtain ⟨hlen,hle⟩ := readCluster_length hr
      dsimp only at h
      split at h
      · cases h
        exact ⟨hlen,hle⟩
      · generalize (if o + k1 = M.volume.mount.ClusterSize then fsFat12GetNextCluster M c else c) =
          next at h
        split at h
        · cases h
          exact ⟨hlen,hle⟩
        · rw [bind_eq_ok] at h
          obtain ⟨⟨k2,bytes2,file2⟩,hq,h⟩ := h
          cases h
          obtain ⟨hlen2,hle2⟩ := ih hq
          rw [List.length_append,hlen,hlen2]
          exact ⟨rfl,by dsimp only; omega⟩

theorem read_length
    (h : fsFat12Read M file n = .ok (k,bytes,file')) : bytes.length = k ∧ k ≤ n := by
  unfold fsFat12Read at h
  split_ifs at h
  · exact readClusters_length h
  · cases h
    exact ⟨rfl,Nat.zero_le n⟩

def Swept (t t' : FileTable) : Prop :=
  ∀ g, t' g = t g ∨ counts t g = 0 ∧ counts t' g = 0 ∧ (t' g).type = .FD_NONE

def Undisturbed (t t' : FileTable) : Prop := ∀ g, counts t g ≠ 0 → t' g = t g

theorem Swept.refl (t : FileTable) : Swept t t := fun _ => .inl rfl

theorem Swept.counts (h : Swept t t') : counts t' = counts t := by
  funext g
  rcases h g with hg | ⟨h0,h1,-⟩
  · exact congrArg File.ReferenceCount hg
  · rw [h0,h1]

theorem Swept.undisturbed (h : Swept t t') : Undisturbed t t' :=
  fun g hg => (h g).resolve_right (fun hz => hg hz.1)

theorem search_sweeps {buf : Bytes}
    (h : searchSectors M name g n t e buf = .ok (found,e',t')) (hg : counts t g = 1) :
    (∀ f ≠ g, t' f = t f) ∧ counts t' g = 0 ∧ (t' g).type = .FD_NONE := by
  have hclose : ∀ {u u' : FileTable} {ff : Option File}, counts u g = 1 → fileClose u g = .ok (u',ff) →
      (∀ f ≠ g, u' f = u f) ∧ counts u' g = 0 ∧ (u' g).type = .FD_NONE := by
    intro u u' ff hu hc
    change (u g).ReferenceCount = 1 at hu
    simp only [fileClose,hu,lt_irrefl,Nat.sub_self,if_false] at hc
    cases hc
    exact ⟨fun f hf => update_of_ne hf _ _,by simp [counts],by simp⟩
  induction n generalizing t buf with
  | zero => cases h
  | succ n ih =>
    rw [searchSectors] at h
    split_ifs at h with heof
    · rw [bind_eq_ok] at h
      obtain ⟨r,hr,h⟩ := h
      cases h
      exact hclose hg hr
    · rw [bind_eq_ok] at h
      obtain ⟨⟨k,bytes,file⟩,hr,h⟩ := h
      obtain ⟨position,eof,rfl⟩ := read_file hr
      have hw : counts (update t g { t g with Position := position, Eof := eof }) g = 1 := by
        rw [counts_update,update_self]
        exact hg
      have hsame : ∀ f ≠ g, update t g { t g with Position := position, Eof := eof } f = t f :=
        fun f hf => update_of_ne hf _ _
      have hend : (∀ f ≠ g, t' f = update t g { t g with Position := position, Eof := eof } f) ∧
          counts t' g = 0 ∧ (t' g).type = .FD_NONE := by
        dsimp only at h
        split at h
        · rw [bind_eq_ok] at h
          obtain ⟨q,hq,h⟩ := h
          cases h
          exact hclose hw hq
        · exact ih h hw
      exact ⟨fun f hf => (hend.1 f hf).trans (hsame f hf),hend.2⟩

theorem create_some (h : fsFat12CreateFileStructure t e = (some f,t')) :
    t' = update t f { t f with
      ReferenceCount := 1
      DirectoryEntry := e
      Size := e.FileSize
      Position := 0
      Eof := false
      type := .FD_FILE } := by
  unfold fsFat12CreateFileStructure at h
  split at h
  · cases h
  · rename_i g t1 ha
    obtain ⟨-,rfl⟩ := allocateFileStructure_some ha
    cases h
    simp

theorem find_sweeps
    (h : fsFat12FindInSubDirectory M t name e junk = .ok (found,e',t')) : Swept t t' := by
  unfold fsFat12FindInSubDirectory at h
  split at h
  · cases h
  · rename_i g t1 hg
    obtain ⟨hz,hc⟩ := counts_create hg
    obtain ⟨hothers,hend⟩ := search_sweeps h (by rw [hc,update_self])
    intro f
    rcases eq_or_ne f g with rfl | hne
    · exact .inr ⟨hz,hend⟩
    · rw [hothers f hne,create_some hg,update_of_ne hne]
      exact .inl rfl

theorem component_sweeps {root : Bool}
    (h : findComponent M t root name e junk = .ok (found,e',t')) : Swept t t' := by
  unfold findComponent at h
  split_ifs at h
  · cases h
    exact .refl t
  · exact find_sweeps h

/-- The File that a successful open returns was free and has one reference now. -/
def OpenCounts (t : FileTable) (r : Option (Fin NFILE)) (t' : FileTable) : Prop :=
  match r with
  | some f => counts t f = 0 ∧ counts t' = update (counts t) f 1
  | none => counts t' = counts t

/-- What an open leaves: the Files in use as they were, and the File that it returns at
its start. -/
structure Opened (directory : Bool) (t : FileTable) (r : Option (Fin NFILE)) (t' : FileTable) : Prop where
  counts : OpenCounts t r t'
  swept : ∀ g, r ≠ some g → t' g = t g ∨ FileSystem.counts t g = 0 ∧ FileSystem.counts t' g = 0 ∧
    (t' g).type = .FD_NONE
  type : ∀ f, r = some f → (t' f).type = if directory then .FD_DIR else .FD_FILE
  start : ∀ f, r = some f → (t' f).Position = 0 ∧ (t' f).Eof = false

theorem Opened.undisturbed (h : Opened directory t r t') :
    Undisturbed t t' := by
  intro g hg
  refine (h.swept g ?_).resolve_right (fun hz => hg hz.1)
  rintro rfl
  exact hg h.counts.1

theorem opened_none (h : Swept t t') : Opened directory t none t' where
  counts := h.counts
  swept g _ := h g
  type _ hf := by cases hf
  start _ hf := by cases hf

theorem Swept.opened {u : FileTable} (h : Swept t u)
    (ho : Opened directory u r t') : Opened directory t r t' where
  counts := by
    have hc := ho.counts
    unfold OpenCounts at hc ⊢
    rw [← h.counts]
    exact hc
  swept g hg := by
    rcases ho.swept g hg with he | ⟨h0,h1,h2⟩
    · have hc : FileSystem.counts t' g = FileSystem.counts u g := congrArg File.ReferenceCount he
      rw [he,hc]
      exact h g
    · exact .inr ⟨by rw [← h.counts,h0],h1,h2⟩
  type := ho.type
  start := ho.start

theorem opened_create
    (h : fsFat12CreateFileStructure t e = (some f,t')) : Opened directory t (some f)
      (if directory then update t' f { t' f with type := .FD_DIR } else t') := by
  obtain ⟨hz,hc⟩ := counts_create h
  have ht := create_some h
  refine ⟨⟨hz,?_⟩,fun g hg => .inl ?_,?_,?_⟩
  · rw [← hc]
    split_ifs
    · exact counts_write rfl
    · rfl
  · have hne : g ≠ f := fun he => hg (by rw [he])
    rw [ht]
    split_ifs <;> simp [hne]
  · rintro _ ⟨⟩
    rw [ht]
    split_ifs <;> simp
  · rintro _ ⟨⟩
    rw [ht]
    split_ifs <;> simp

theorem opened_openFrom {p : Bytes} {root : Bool}
    (h : openFrom M directory junk n t root e p = .ok (r,t')) : Opened directory t r t' := by
  induction n generalizing t root e p with
  | zero => cases h
  | succ n ih =>
    rw [openFrom,bind_eq_ok] at h
    obtain ⟨⟨pathPart,partLength⟩,-,h⟩ := h
    rw [bind_eq_ok] at h
    obtain ⟨⟨found,e1,t1⟩,hfind,h⟩ := h
    have hs := component_sweeps hfind
    dsimp only at h
    split at h
    · cases h
      exact opened_none hs
    · split at h
      · split at h
        · cases h
          exact opened_none hs
        · split at h
          · rename_i f t2 hcr
            cases h
            exact hs.opened (opened_create hcr)
          · rename_i t2 hcr
            split_ifs at h
            cases h
            rw [create_none hcr]
            exact opened_none hs
      · split at h
        · cases h
          exact opened_none hs
        · exact hs.opened (ih h)

theorem opened_open {cwd filename : CString}
    (h : fsFat12Open M t cwd filename directory junk = .ok (r,t')) : Opened directory t r t' :=
  opened_openFrom h

theorem counts_open {cwd filename : CString}
    (h : fsFat12Open M t cwd filename directory junk = .ok (r,t')) : OpenCounts t r t' :=
  (opened_open h).counts

end UoDOS.FileSystem
