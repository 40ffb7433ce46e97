import UoDOS.Library.Traces
import UoDOS.FileSystem.OpenCounts

/-! # What the file system does on its way

The functions of fs.c once more, now with the disk buffers that they take and give back, the
divisions by the cluster size, the reads of the array `fat` and the copies of strings.
-/
namespace UoDOS.FileSystem
open ByteMemory Strings Traces

/-- Something that fs.c does besides computing. The event `fat` is a read of the two
bytes from an index of that array on. -/
inductive Event
  | diskBufferRead (sector : ℕ)
  | diskBufferRelease (sector : ℕ)
  | divide (divisor : ℕ)
  | fat (fatOffset : ℕ)
  | safestrcpy (start : ℕ) (n : ℤ) (capacity : ℕ)
  | strcpy (source : Bytes) (capacity : ℕ)
  | store (index capacity : ℕ)

def PATHSIZE : ℕ := 255
def PARTSIZE : ℕ := 20
def NAMESIZE : ℕ := 256

namespace Observed

variable (M : Mounted)

def diskBufferRead (sector : ℕ) : Traced Event Stop Bytes := do
  emit (.diskBufferRead sector)
  pure (M.disk sector)

def diskBufferRelease (sector : ℕ) : Traced Event Stop Unit := emit (.diskBufferRelease sector)

theorem read_bind {α : Type} (sector : ℕ) (f : Bytes → Traced Event Stop α) : diskBufferRead M sector >>= f =
    ⟨.diskBufferRead sector :: (f (M.disk sector)).events,(f (M.disk sector)).result⟩ := rfl

def fsFat12GetNextCluster (cluster : ℕ) : Traced Event Stop ℕ := do
  emit (.fat ((cluster + cluster / 2) % 2^32))
  pure (FileSystem.fsFat12GetNextCluster M cluster)

/-- The loop of fsFat12ReadCluster over the sectors of a cluster. -/
def readSectors : ℕ → ℕ → ℕ → ℕ → Traced Event Stop (List UInt8)
  | _, _, _, 0 => pure []
  | 0, _, _, _ + 1 => stop .hang
  | n + 1, sector, offset, size + 1 => do
    let sectorContents ← diskBufferRead M sector
    let sectorContentsSize := if size + 1 < M.volume.Bpb.BytesPerSector.toNat then size + 1
      else M.volume.Bpb.BytesPerSector.toNat
    let bytes := (List.range sectorContentsSize).map (fun i => sectorContents (offset + i))
    diskBufferRelease sector
    let rest ← readSectors n ((sector + 1) % 2^32) 0 (size + 1 - sectorContentsSize)
    pure (bytes ++ rest)

def fsFat12ReadCluster (clusterNumber offset size : ℕ) : Traced Event Stop (ℕ × List UInt8) := do
  let ClusterSize := M.volume.mount.ClusterSize
  let BytesPerSector := M.volume.Bpb.BytesPerSector.toNat
  let size := if ClusterSize < size then ClusterSize else size
  let offset := if ClusterSize ≤ offset then 0 else offset
  let size := if ClusterSize < (offset + size) % 2^32 then ClusterSize - offset else size
  let sector := (M.volume.mount.RootOffset + M.volume.mount.RootSize +
    (2^32 - 2 + clusterNumber) % 2^32 * M.volume.Bpb.SectorsPerCluster.toNat) % 2^32
  if 0 < offset then
    let sectorOffset := offset / BytesPerSector
    let offset := offset % BytesPerSector
    let left := ClusterSize - (sectorOffset * BytesPerSector + offset)
    let size := if left < size then left else size
    let bytes ← readSectors M size ((sector + sectorOffset) % 2^32) offset size
    pure (size,bytes)
  else
    let bytes ← readSectors M size sector offset size
    pure (size,bytes)

def followChain : ℕ → ℕ → Traced Event Stop ℕ
  | 0, currentCluster => pure currentCluster
  | clusterHops + 1, currentCluster => do
    let currentCluster ← fsFat12GetNextCluster M currentCluster
    followChain clusterHops currentCluster

/-- The next cluster if a read has come to the end of this one. -/
def advance (clusterOffset readLength currentCluster : ℕ) : Traced Event Stop ℕ :=
  if clusterOffset + readLength = M.volume.mount.ClusterSize then fsFat12GetNextCluster M currentCluster
  else pure currentCluster

def readClusters : ℕ → File → ℕ → ℕ → ℕ → Traced Event Stop (ℕ × List UInt8 × File)
  | _, file, _, _, 0 => pure (0,[],file)
  | 0, _, _, _, _ + 1 => stop .hang
  | n + 1, file, currentCluster, clusterOffset, length + 1 => do
    let (readLength,bytes) ← fsFat12ReadCluster M currentCluster clusterOffset (length + 1)
    let file := { file with Position := (file.Position + readLength) % 2^32 }
    if file.Size ≤ file.Position ∧ file.type = .FD_FILE then
      pure (readLength,bytes,{ file with Eof := true })
    else
      let currentCluster ← advance M clusterOffset readLength currentCluster
      if currentCluster = 0 then pure (readLength,bytes,{ file with Eof := true })
      else
        let (totalRead,rest,file) ← readClusters n file currentCluster 0 (length + 1 - readLength)
        pure (readLength + totalRead,bytes ++ rest,file)

def fsFat12Read (file : File) (length : ℕ) : Traced Event Stop (ℕ × List UInt8 × File) :=
  if (file.type = .FD_FILE ∨ file.type = .FD_DIR) ∧ file.Eof = false then do
    emit (.divide M.volume.mount.ClusterSize)
    if M.volume.mount.ClusterSize = 0 then stop .divideError
    else
      let clusterHops := file.Position / M.volume.mount.ClusterSize
      let clusterOffset := file.Position % M.volume.mount.ClusterSize
      let currentCluster ← followChain M clusterHops file.DirectoryEntry.FirstCluster
      readClusters M length file currentCluster clusterOffset length
  else pure (0,[],file)

/-- The loop over the entries of a sector of the root directory, with `n` of them to go. -/
def searchEntries (dosFileName : CString) (buf : Bytes) : ℕ → ℕ → Option DirectoryEntry
  | 0, _ => none
  | n + 1, i =>
    if buf (32 * i) ≠ 0 ∧ strcmp dosFileName (entryName buf i) = 0 then some (entryAt buf i)
    else searchEntries dosFileName buf n (i + 1)

/-- The loop of fsFat12FindInRootDirectory, with `n` sectors to go. -/
def searchRoot (dosFileName : CString) (foundDirectoryEntry : DirectoryEntry) :
    ℕ → ℕ → Traced Event Stop (Bool × DirectoryEntry)
  | 0, _ => pure (false,foundDirectoryEntry)
  | n + 1, sector => do
    let blockno := (M.volume.mount.RootOffset + sector) % 2^32
    let buf ← diskBufferRead M blockno
    match searchEntries dosFileName buf 16 0 with
    | some directoryEntry => do
      diskBufferRelease blockno
      pure (true,directoryEntry)
    | none => do
      diskBufferRelease blockno
      searchRoot dosFileName foundDirectoryEntry n (sector + 1)

def fsFat12FindInRootDirectory (nameToFind : CString) (foundDirectoryEntry : DirectoryEntry) (junk : Bytes) :
    Traced Event Stop (Bool × DirectoryEntry) :=
  searchRoot M (dosFileName nameToFind junk) foundDirectoryEntry (M.volume.mount.NumRootEntries / 16) 0

def fsFat12CreateFileStructure (t : FileTable) (directoryEntry : DirectoryEntry) (filename : Bytes) :
    Traced Event Stop (Option (Fin NFILE) × FileTable) :=
  match FileSystem.fsFat12CreateFileStructure t directoryEntry with
  | (none,t) => pure (none,t)
  | (some f,t) => do
    emit (.strcpy filename NAMESIZE)
    pure (some f,t)

def searchSectors (name : CString) (subDirectory : Fin NFILE) :
    ℕ → FileTable → DirectoryEntry → Bytes → Traced Event Stop (Bool × DirectoryEntry × FileTable)
  | 0, _, _, _ => stop .hang
  | n + 1, t, foundDirectoryEntry, buf =>
    if (t subDirectory).Eof then
      match fileClose t subDirectory with
      | .ok (t,_) => pure (false,foundDirectoryEntry,t)
      | .error e => stop e
    else do
      let (_,bytes,file) ← fsFat12Read M (t subDirectory) 512
      let t := Function.update t subDirectory file
      let buf : Bytes := fun i => bytes.getD i (buf i)
      match (List.range 16).find? (fun i => strcmp (entryName buf i) name = 0) with
      | some i =>
        match fileClose t subDirectory with
        | .ok (t,_) => pure (true,entryAt buf i,t)
        | .error e => stop e
      | none => searchSectors name subDirectory n t foundDirectoryEntry buf

def fsFat12FindInSubDirectory (t : FileTable) (nameToFind : CString) (foundDirectoryEntry : DirectoryEntry)
    (junk : Bytes) : Traced Event Stop (Bool × DirectoryEntry × FileTable) := do
  let (subDirectory,t) ← fsFat12CreateFileStructure t foundDirectoryEntry (fun _ => 0)
  match subDirectory with
  | none => stop .nullPointer
  | some subDirectory =>
    searchSectors M (dosFileName nameToFind junk) subDirectory (2^23 + 1) t foundDirectoryEntry junk

def fsGetPathPart (path pathPart : Bytes) : Traced Event Stop (CString × ℕ) := do
  emit (.strcpy path PARTSIZE)
  match FileSystem.fsGetPathPart path pathPart with
  | .error e => stop e
  | .ok (pathPart,partLength) => do
    emit (.store pathPart.length PARTSIZE)
    pure (pathPart,partLength)

def findComponent (t : FileTable) (rootDirectory : Bool) (pathPart : CString)
    (currentDirectoryEntry : DirectoryEntry) (junk : Bytes) :
    Traced Event Stop (Bool × DirectoryEntry × FileTable) :=
  if rootDirectory then do
    let (found,entry) ← fsFat12FindInRootDirectory M pathPart currentDirectoryEntry junk
    pure (found,entry,t)
  else fsFat12FindInSubDirectory M t pathPart currentDirectoryEntry junk

def openFrom (directory : Bool) (filename junk : Bytes) :
    ℕ → FileTable → Bool → DirectoryEntry → Bytes → Traced Event Stop (Option (Fin NFILE) × FileTable)
  | 0, _, _, _, _ => stop .hang
  | n + 1, t, rootDirectory, currentDirectoryEntry, p => do
    let (pathPart,partLength) ← fsGetPathPart p junk
    let (found,currentDirectoryEntry,t) ←
      findComponent M t rootDirectory pathPart currentDirectoryEntry junk
    if found = false then pure (none,t)
    else if partLength = 0 then
      if directory = true ∧ currentDirectoryEntry.Attrib ≠ 0x10 then pure (none,t)
      else do
        let (fileStructure,t) ← fsFat12CreateFileStructure t currentDirectoryEntry filename
        match fileStructure with
        | some f => pure (some f,if directory then Function.update t f { t f with type := .FD_DIR } else t)
        | none => if directory then stop .nullPointer else pure (none,t)
    else if currentDirectoryEntry.Attrib ≠ 0x10 then pure (none,t)
    else openFrom directory filename junk n t false currentDirectoryEntry (fun i => p (partLength + 1 + i))

def copyPath (cwd filename : CString) : Traced Event Stop Unit :=
  if separates (filename.bytes 0) then emit (.safestrcpy 0 MAXCWDSIZE PATHSIZE)
  else do
    emit (.safestrcpy 0 MAXCWDSIZE PATHSIZE)
    emit (.safestrcpy cwd.length (MAXCWDSIZE - cwd.length) PATHSIZE)

def fsFat12Open (t : FileTable) (cwd filename : CString) (directory : Bool) (junk : Bytes) :
    Traced Event Stop (Option (Fin NFILE) × FileTable) := do
  copyPath cwd filename
  openFrom M directory filename.bytes junk 256 t true (entryAt junk 0) (fun i => openPath cwd filename junk (1 + i))

end Observed

end UoDOS.FileSystem
