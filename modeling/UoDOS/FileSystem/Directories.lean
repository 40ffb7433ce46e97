import UoDOS.FileSystem.Names
import UoDOS.FileSystem.Clusters

/-! # Directory searches and opening a path

The bytes `junk` are what the uninitialised local arrays of a call hold. A
component that does not fit its array ends the call with an overrun.
-/
namespace UoDOS.FileSystem
open ByteMemory Strings Function

def fsFat12CreateFileStructure (t : FileTable) (directoryEntry : DirectoryEntry) :
    Option (Fin NFILE) × FileTable :=
  match allocateFileStructure t with
  | (none,t) => (none,t)
  | (some f,t) => (some f,update t f { t f with
      DirectoryEntry := directoryEntry
      Size := directoryEntry.FileSize
      Position := 0
      Eof := false
      type := .FD_FILE })

theorem create_of_free {t : FileTable} {f : Fin NFILE} (e : DirectoryEntry)
    (h : (t f).ReferenceCount = 0) : ∃ g t', fsFat12CreateFileStructure t e = (some g,t') ∧
      (t' g).ReferenceCount = 1 ∧ (t' g).type = .FD_FILE ∧ (t' g).DirectoryEntry = e ∧
      (t' g).Size = e.FileSize ∧ (t' g).Position = 0 ∧ (t' g).Eof = false := by
  obtain ⟨g,t1,hg⟩ := allocateFileStructure_of_free h
  obtain ⟨-,rfl⟩ := allocateFileStructure_some hg
  rw [fsFat12CreateFileStructure,hg]
  exact ⟨g,_,rfl,by simp⟩

def entryAt (buf : Bytes) (i : ℕ) : DirectoryEntry := ⟨fun j => buf (32 * i + j)⟩

def entryName (buf : Bytes) (i : ℕ) : CString :=
  .ofBuffer (update (fun j => buf (32 * i + j)) 11 0) 11 (by simp)

variable (M : Mounted)

def fsFat12FindInRootDirectory (nameToFind : CString) (foundDirectoryEntry : DirectoryEntry)
    (junk : Bytes) : Bool × DirectoryEntry :=
  let name := dosFileName nameToFind junk
  let rootDirectorySectorCount := M.volume.mount.NumRootEntries / 16
  let found := (List.range rootDirectorySectorCount).findSome? (fun sector =>
    let buf := M.disk ((M.volume.mount.RootOffset + sector) % 2^32)
    ((List.range 16).find? (fun i => buf (32 * i) ≠ 0 ∧ strcmp name (entryName buf i) = 0)).map
      (entryAt buf))
  match found with
  | some directoryEntry => (true,directoryEntry)
  | none => (false,foundDirectoryEntry)

/-- The read loop of fsFat12FindInSubDirectory. The position moves by 512 bytes in
each round and has 32 bits, so after 2^23 rounds without an end it starts again. -/
def searchSectors (name : CString) (subDirectory : Fin NFILE) :
    ℕ → FileTable → DirectoryEntry → Bytes → Except Stop (Bool × DirectoryEntry × FileTable)
  | 0, _, _, _ => .error .hang
  | n + 1, t, foundDirectoryEntry, buf =>
    if (t subDirectory).Eof then do
      let (t,_) ← fileClose t subDirectory
      .ok (false,foundDirectoryEntry,t)
    else do
      let (_,bytes,file) ← fsFat12Read M (t subDirectory) 512
      let t := update t subDirectory file
      let buf : Bytes := fun i => bytes.getD i (buf i)
      match (List.range 16).find? (fun i => strcmp (entryName buf i) name = 0) with
      | some i => do
        let (t,_) ← fileClose t subDirectory
        .ok (true,entryAt buf i,t)
      | none => searchSectors name subDirectory n t foundDirectoryEntry buf

def fsFat12FindInSubDirectory (t : FileTable) (nameToFind : CString)
    (foundDirectoryEntry : DirectoryEntry) (junk : Bytes) :
    Except Stop (Bool × DirectoryEntry × FileTable) :=
  match fsFat12CreateFileStructure t foundDirectoryEntry with
  | (none,_) => .error .nullPointer
  | (some subDirectory,t) =>
    searchSectors M (dosFileName nameToFind junk) subDirectory (2^23 + 1) t foundDirectoryEntry junk

def separates (c : UInt8) : Bool := c = 92 ∨ c = 47

/-- Copies a whole path into the 20 bytes of `pathPart` and ends it behind the first
component. -/
def fsGetPathPart (path pathPart : Bytes) : Except Stop (CString × ℕ) :=
  let n := first (fun i => path i = 0) 20
  if n = 20 then .error .overrun
  else
    let partLength := first (fun i => path i = 0 ∨ separates (path i)) n
    let pathPart : Bytes := fun i => if i ≤ n then path i else pathPart i
    .ok (.ofBuffer (update pathPart partLength 0) partLength (by simp),
      if path partLength = 0 then 0 else partLength)

def findComponent (t : FileTable) (rootDirectory : Bool) (pathPart : CString)
    (currentDirectoryEntry : DirectoryEntry) (junk : Bytes) :
    Except Stop (Bool × DirectoryEntry × FileTable) :=
  if rootDirectory then
    let (found,entry) := fsFat12FindInRootDirectory M pathPart currentDirectoryEntry junk
    .ok (found,entry,t)
  else fsFat12FindInSubDirectory M t pathPart currentDirectoryEntry junk

def openFrom (directory : Bool) (junk : Bytes) :
    ℕ → FileTable → Bool → DirectoryEntry → Bytes → Except Stop (Option (Fin NFILE) × FileTable)
  | 0, _, _, _, _ => .error .hang
  | n + 1, t, rootDirectory, currentDirectoryEntry, p => do
    let (pathPart,partLength) ← fsGetPathPart p junk
    let (found,currentDirectoryEntry,t) ←
      findComponent M t rootDirectory pathPart currentDirectoryEntry junk
    if found = false then .ok (none,t)
    else if partLength = 0 then
      if directory = true ∧ currentDirectoryEntry.Attrib ≠ 0x10 then .ok (none,t)
      else match fsFat12CreateFileStructure t currentDirectoryEntry with
        | (some f,t) =>
          .ok (some f,if directory then update t f { t f with type := .FD_DIR } else t)
        | (none,t) => if directory then .error .nullPointer else .ok (none,t)
    else if currentDirectoryEntry.Attrib ≠ 0x10 then .ok (none,t)
    else openFrom directory junk n t false currentDirectoryEntry (fun i => p (partLength + 1 + i))

/-- The local array `path`: the file name, behind `cwd` if it is relative. -/
def openPath (cwd filename : CString) (junk : Bytes) : Bytes :=
  if separates (filename.bytes 0) then safestrcpy junk filename.bytes MAXCWDSIZE
  else
    let path := safestrcpy junk cwd.bytes MAXCWDSIZE
    fun i => if i < cwd.length then path i
      else safestrcpy (fun j => path (cwd.length + j)) filename.bytes (MAXCWDSIZE - cwd.length)
        (i - cwd.length)

def fsFat12Open (t : FileTable) (cwd filename : CString) (directory : Bool) (junk : Bytes) :
    Except Stop (Option (Fin NFILE) × FileTable) :=
  openFrom M directory junk 256 t true (entryAt junk 0) (fun i => openPath cwd filename junk (1 + i))

end UoDOS.FileSystem
