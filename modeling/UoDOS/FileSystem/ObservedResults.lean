import UoDOS.FileSystem.Observed

/-! # The observed functions give the results of the plain ones

With a law for the events that every single step keeps, by recursion over the loops of the file
system.
-/
namespace UoDOS.FileSystem
open ByteMemory Strings Traces

structure Permits (M : Mounted) (G : List Event → Prop) (C : ℕ → Prop) : Prop where
  law : Law G
  buffer : ∀ s, G [.diskBufferRead s,.diskBufferRelease s]
  divide : ∀ c, C c → G [.divide M.volume.mount.ClusterSize]
  fat : ∀ c, C c → G [.fat ((c + c / 2) % 2^32)]
  next : ∀ c, C c → C (fsFat12GetNextCluster M c)
  nameless : G [.strcpy (fun _ => 0) NAMESIZE]

variable {M : Mounted} {G : List Event → Prop} {C : ℕ → Prop}
  {p : Bytes} {name : CString} {c : ℕ} {rootDirectory : Bool} {e : DirectoryEntry}

namespace Permits

theorem sector {α : Type} {f : Bytes → Traced Event Stop α} {y : Except Stop α} (h : Permits M G C) (s : ℕ)
    (hf : Performs G (f (M.disk s)) y) :
    Performs G (do let buf ← Observed.diskBufferRead M s; Observed.diskBufferRelease s; f buf) y :=
  ⟨hf.result,h.law.append [_,_] _ (h.buffer s) hf.events⟩

theorem getNextCluster (h : Permits M G C) (hc : C c) :
    Performs G (Observed.fsFat12GetNextCluster M c) (.ok (fsFat12GetNextCluster M c)) :=
  ⟨rfl,h.fat c hc⟩

theorem readSectors (h : Permits M G C) (n sector offset size : ℕ) :
    Performs G (Observed.readSectors M n sector offset size) (FileSystem.readSectors M n sector offset size) := by
  induction n generalizing sector offset size with
  | zero =>
    cases size with
    | zero => exact .pure h.law _
    | succ size => exact .stop h.law _
  | succ n ih =>
    cases size with
    | zero => exact .pure h.law _
    | succ size =>
      rw [Observed.readSectors,FileSystem.readSectors]
      exact h.sector sector (.bind h.law (ih _ _ _) (fun rest _ => .pure h.law _))

theorem readCluster (h : Permits M G C) (c offset size : ℕ) :
    Performs G (Observed.fsFat12ReadCluster M c offset size) (fsFat12ReadCluster M c offset size) := by
  unfold Observed.fsFat12ReadCluster fsFat12ReadCluster
  dsimp only
  generalize (if M.volume.mount.ClusterSize ≤ offset then 0 else offset) = offset'
  generalize (if M.volume.mount.ClusterSize < size then M.volume.mount.ClusterSize else size) = size'
  split
  · exact .bind h.law (h.readSectors _ _ _ _) (fun bytes _ => .pure h.law _)
  · exact .bind h.law (h.readSectors _ _ _ _) (fun bytes _ => .pure h.law _)

theorem iterate (h : Permits M G C) (hc : C c) (k : ℕ) : C ((fsFat12GetNextCluster M)^[k] c) := by
  induction k generalizing c with
  | zero => exact hc
  | succ k ih => exact ih (h.next c hc)

theorem followChain (h : Permits M G C) (hc : C c) (k : ℕ) :
    Performs G (Observed.followChain M k c) (.ok ((fsFat12GetNextCluster M)^[k] c)) := by
  induction k generalizing c with
  | zero => exact .pure h.law _
  | succ k ih => exact .seq h.law (h.getNextCluster hc) (ih (h.next c hc))

theorem advance (h : Permits M G C) (hc : C c) (offset readLength : ℕ) :
    Performs G (Observed.advance M offset readLength c)
      (.ok (if offset + readLength = M.volume.mount.ClusterSize then fsFat12GetNextCluster M c else c)) := by
  unfold Observed.advance
  split
  · exact h.getNextCluster hc
  · exact .pure h.law _

theorem readClusters (h : Permits M G C) (n : ℕ) (file : File) (hc : C c) (offset length : ℕ) :
    Performs G (Observed.readClusters M n file c offset length) (readClusters M n file c offset length) := by
  induction n generalizing file c offset length with
  | zero =>
    cases length with
    | zero => exact .pure h.law _
    | succ length => exact .stop h.law _
  | succ n ih =>
    cases length with
    | zero => exact .pure h.law _
    | succ length =>
      rw [Observed.readClusters,FileSystem.readClusters]
      refine .bind h.law (h.readCluster c offset (length + 1)) ?_
      rintro ⟨readLength,bytes⟩ -
      dsimp only
      split
      · exact .pure h.law _
      have hc' : C (if offset + readLength = M.volume.mount.ClusterSize then fsFat12GetNextCluster M c else c) := by
        split
        · exact h.next c hc
        · exact hc
      refine .seq h.law (h.advance hc offset readLength) ?_
      generalize (if offset + readLength = M.volume.mount.ClusterSize then fsFat12GetNextCluster M c else c) = c'
        at hc' ⊢
      split
      · exact .pure h.law _
      · refine .bind h.law (ih _ hc' _ _) ?_
        rintro ⟨totalRead,rest,file⟩ -
        exact .pure h.law _

theorem read (h : Permits M G C) {file : File} (hc : C file.DirectoryEntry.FirstCluster) (length : ℕ) :
    Performs G (Observed.fsFat12Read M file length) (fsFat12Read M file length) := by
  unfold Observed.fsFat12Read fsFat12Read
  split
  · refine .emit h.law (h.divide _ hc) ?_
    split
    · exact .stop h.law _
    · exact .seq h.law (h.followChain hc _) (h.readClusters _ _ (h.iterate hc _) _ _)
  · exact .pure h.law _

end Permits

inductive Found (M : Mounted) : DirectoryEntry → Prop
  | root {name : CString} {e e' : DirectoryEntry} {junk : Bytes} :
    fsFat12FindInRootDirectory M name e junk = (true,e') → Found M e'
  | sub {t t' : FileTable} {name : CString} {e e' : DirectoryEntry} {junk : Bytes} : Found M e → e.Attrib = 0x10 →
    fsFat12FindInSubDirectory M t name e junk = .ok (true,e',t') → Found M e'

theorem searchEntries_eq (name : CString) (buf : Bytes) (n i : ℕ) : Observed.searchEntries name buf n i =
    ((List.range' i n).find? (fun i => buf (32 * i) ≠ 0 ∧ strcmp name (entryName buf i) = 0)).map (entryAt buf) := by
  induction n generalizing i with
  | zero => rfl
  | succ n ih =>
    rw [Observed.searchEntries,List.range'_succ,List.find?_cons]
    split_ifs with hm
    · simp [hm]
    · rw [ih]
      simp [hm]

def rootMatch (M : Mounted) (name : CString) (sector : ℕ) : Option DirectoryEntry :=
  let buf := M.disk ((M.volume.mount.RootOffset + sector) % 2^32)
  ((List.range 16).find? (fun i => buf (32 * i) ≠ 0 ∧ strcmp name (entryName buf i) = 0)).map (entryAt buf)

theorem searchRoot_performs (hG : Law G) (name : CString) (e : DirectoryEntry) (n sector : ℕ)
    (hb : ∀ k, sector ≤ k → k < sector + n → G [.diskBufferRead ((M.volume.mount.RootOffset + k) % 2^32),
      .diskBufferRelease ((M.volume.mount.RootOffset + k) % 2^32)]) :
    Performs G (Observed.searchRoot M name e n sector)
      (.ok (match (List.range' sector n).findSome? (rootMatch M name) with
        | some directoryEntry => (true,directoryEntry)
        | none => (false,e))) := by
  induction n generalizing sector with
  | zero => exact .pure hG _
  | succ n ih =>
    have hs := hb sector le_rfl (by omega)
    have hrest := ih (sector + 1) (fun k h1 h2 => hb k (by omega) (by omega))
    have hm : Observed.searchEntries name (M.disk ((M.volume.mount.RootOffset + sector) % 2^32)) 16 0 =
        rootMatch M name sector := by
      rw [searchEntries_eq,← List.range_eq_range']
      rfl
    rw [Observed.searchRoot,List.range'_succ,List.findSome?_cons]
    cases hr : rootMatch M name sector with
    | some x =>
      simp only [Observed.read_bind,hm,hr]
      exact ⟨rfl,hs⟩
    | none =>
      simp only [Observed.read_bind,hm,hr]
      exact ⟨hrest.result,hG.append [_,_] _ hs hrest.events⟩

theorem findInRoot_performs (hG : Law G) (name : CString) (e : DirectoryEntry) (junk : Bytes)
    (hb : ∀ k < M.volume.mount.NumRootEntries / 16, G [.diskBufferRead ((M.volume.mount.RootOffset + k) % 2^32),
      .diskBufferRelease ((M.volume.mount.RootOffset + k) % 2^32)]) :
    Performs G (Observed.fsFat12FindInRootDirectory M name e junk)
      (.ok (fsFat12FindInRootDirectory M name e junk)) := by
  have h := searchRoot_performs (M := M) hG (dosFileName name junk) e (M.volume.mount.NumRootEntries / 16) 0
    (fun k _ hk => hb k (by omega))
  rw [← List.range_eq_range'] at h
  exact h

namespace Permits

theorem create (h : Permits M G C) (t : FileTable) (e : DirectoryEntry) {filename : Bytes}
    (hn : G [.strcpy filename NAMESIZE]) : Performs G (Observed.fsFat12CreateFileStructure t e filename)
      (.ok (fsFat12CreateFileStructure t e)) := by
  unfold Observed.fsFat12CreateFileStructure
  rcases fsFat12CreateFileStructure t e with ⟨_ | f,t'⟩
  · exact .pure h.law _
  · exact .emit h.law hn (.pure h.law _)

theorem searchSectors (h : Permits M G C) (name : CString) (f : Fin NFILE) (n : ℕ) (t : FileTable)
    (e : DirectoryEntry) (buf : Bytes) (hc : C (t f).DirectoryEntry.FirstCluster) :
    Performs G (Observed.searchSectors M name f n t e buf) (searchSectors M name f n t e buf) := by
  induction n generalizing t buf with
  | zero => exact .stop h.law _
  | succ n ih =>
    rw [Observed.searchSectors,FileSystem.searchSectors]
    split
    · cases fileClose t f with
      | error x => exact .stop h.law _
      | ok x => exact .pure h.law _
    · refine .bind h.law (h.read hc 512) ?_
      rintro ⟨k,bytes,file⟩ hread
      obtain ⟨position,eof,rfl⟩ := read_file hread
      dsimp only
      generalize List.find? (fun i => decide (strcmp (entryName (fun i => bytes.getD i (buf i)) i) name = 0))
        (List.range 16) = found
      cases found with
      | some i =>
        dsimp only
        cases fileClose (Function.update t f { t f with Position := position, Eof := eof }) f with
        | error x => exact .stop h.law _
        | ok x => exact .pure h.law _
      | none => exact ih _ _ (by simpa only [Function.update_self] using hc)

theorem findInSubDirectory (h : Permits M G C) (t : FileTable) (name : CString) (junk : Bytes)
    (hc : C e.FirstCluster) : Performs G (Observed.fsFat12FindInSubDirectory M t name e junk)
      (fsFat12FindInSubDirectory M t name e junk) := by
  refine .seq h.law (h.create t e h.nameless) ?_
  unfold FileSystem.fsFat12FindInSubDirectory
  cases hcr : fsFat12CreateFileStructure t e with
  | mk r t' =>
    cases r with
    | none => exact .stop h.law _
    | some f =>
      apply h.searchSectors
      rw [create_some hcr,Function.update_self]
      exact hc

end Permits

structure PermitsPath (G : List Event → Prop) (Q : Bytes → Prop) (filename junk : Bytes) : Prop where
  part : ∀ p, Q p → G [.strcpy p PARTSIZE]
  store : ∀ k < PARTSIZE, G [.store k PARTSIZE]
  rest : ∀ p name len, Q p → fsGetPathPart p junk = .ok (name,len) → len ≠ 0 → Q (fun i => p (len + 1 + i))
  name : G [.strcpy filename NAMESIZE]

theorem getPathPart_ok {junk : Bytes} {len : ℕ} (h : fsGetPathPart p junk = .ok (name,len)) :
    ∃ n < 20, p n = 0 ∧ (∀ i < n, p i ≠ 0) ∧ name.length ≤ n ∧ (len = 0 ∨ len < n) := by
  unfold fsGetPathPart at h
  dsimp only at h
  have hle := first_le (fun i => decide (p i = 0)) 20
  split at h
  · cases h
  rename_i hne
  have hlt : first (fun i => decide (p i = 0)) 20 < 20 := by omega
  have hz : p (first (fun i => decide (p i = 0)) 20) = 0 := by simpa using first_of_lt hlt
  have hpart := first_le (fun i => decide (p i = 0 ∨ separates (p i) = true)) (first (fun i => decide (p i = 0)) 20)
  cases h
  refine ⟨first (fun i => decide (p i = 0)) 20,hlt,hz,fun i hi => ?_,?_,?_⟩
  · simpa using not_of_lt_first hi
  · exact (first_le _ _).trans hpart
  · split_ifs with hp
    · exact .inl rfl
    · right
      refine lt_of_le_of_ne hpart (fun he => hp ?_)
      rw [he,hz]

variable {Q : Bytes → Prop} {filename junk : Bytes}

theorem PermitsPath.getPathPart (hG : Law G) (hq : PermitsPath G Q filename junk) (hp : Q p) :
    Performs G (Observed.fsGetPathPart p junk) (fsGetPathPart p junk) := by
  refine .emit hG (hq.part p hp) ?_
  cases h : fsGetPathPart p junk with
  | error x => exact .stop hG _
  | ok x =>
    obtain ⟨name,len⟩ := x
    obtain ⟨n,hn,-,-,hlen,-⟩ := getPathPart_ok h
    exact .emit hG (hq.store _ (lt_of_le_of_lt hlen hn)) (.pure hG _)

namespace Permits

theorem findComponent (h : Permits M G C) (hfound : ∀ e, Found M e → e.Attrib = 0x10 → C e.FirstCluster)
    (t : FileTable) (name : CString) (junk : Bytes)
    (he : rootDirectory = true ∨ Found M e ∧ e.Attrib = 0x10) :
    Performs G (Observed.findComponent M t rootDirectory name e junk)
      (findComponent M t rootDirectory name e junk) := by
  unfold Observed.findComponent FileSystem.findComponent
  split
  · exact .seq h.law (findInRoot_performs h.law name e junk (fun k _ => h.buffer _)) (.pure h.law _)
  · rename_i hroot
    obtain ⟨hf,ha⟩ := he.resolve_left hroot
    exact h.findInSubDirectory t name junk (hfound e hf ha)

end Permits

theorem Found.component {t t' : FileTable} {e' : DirectoryEntry}
    (he : rootDirectory = true ∨ Found M e ∧ e.Attrib = 0x10)
    (h : findComponent M t rootDirectory name e junk = .ok (true,e',t')) : Found M e' := by
  unfold findComponent at h
  split at h
  · cases hr : fsFat12FindInRootDirectory M name e junk with
    | mk found e1 =>
      rw [hr] at h
      cases h
      exact .root hr
  · rename_i hroot
    obtain ⟨hf,ha⟩ := he.resolve_left hroot
    exact .sub hf ha h

namespace Permits

theorem openFrom (h : Permits M G C) (hq : PermitsPath G Q filename junk)
    (hfound : ∀ e, Found M e → e.Attrib = 0x10 → C e.FirstCluster) (directory : Bool) (n : ℕ) (t : FileTable)
    (he : rootDirectory = true ∨ Found M e ∧ e.Attrib = 0x10)
    (hp : Q p) : Performs G (Observed.openFrom M directory filename junk n t rootDirectory e p)
      (openFrom M directory junk n t rootDirectory e p) := by
  induction n generalizing t rootDirectory e p with
  | zero => exact .stop h.law _
  | succ n ih =>
    rw [Observed.openFrom,FileSystem.openFrom]
    refine .bind h.law (hq.getPathPart h.law hp) ?_
    rintro ⟨name,len⟩ hpart
    refine .bind h.law (h.findComponent hfound t name junk he) ?_
    rintro ⟨found,e',t'⟩ hcomp
    dsimp only
    split
    · exact .pure h.law _
    rename_i hyes
    obtain rfl : found = true := by simpa using hyes
    have hf := Found.component he hcomp
    split
    · split
      · exact .pure h.law _
      · refine .seq h.law (h.create t' e' hq.name) ?_
        rcases fsFat12CreateFileStructure t' e' with ⟨_ | f,t''⟩
        · dsimp only
          split
          · exact .stop h.law _
          · exact .pure h.law _
        · exact .pure h.law _
    rename_i hlen
    split
    · exact .pure h.law _
    · rename_i ha
      exact ih t' (.inr ⟨hf,not_not.mp ha⟩) (hq.rest p name len hp hpart hlen)

theorem open_performs {cwd : CString} (h : Permits M G C) (hq : PermitsPath G Q name.bytes junk)
    (hfound : ∀ e, Found M e → e.Attrib = 0x10 → C e.FirstCluster) (t : FileTable) (directory : Bool)
    (hcopy : G (Observed.copyPath cwd name).events) (hp : Q (fun i => openPath cwd name junk (1 + i))) :
    Performs G (Observed.fsFat12Open M t cwd name directory junk) (fsFat12Open M t cwd name directory junk) := by
  have hc : Performs G (Observed.copyPath cwd name) (.ok ()) := by
    refine ⟨?_,hcopy⟩
    unfold Observed.copyPath
    split <;> rfl
  exact .seq h.law hc (h.openFrom hq hfound directory 256 t (.inl rfl) hp)

end Permits

end UoDOS.FileSystem
