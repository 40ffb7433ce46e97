import UoDOS.FileSystem.Volume
import UoDOS.FileSystem.Files

/-! # Reading along cluster chains

fsFat12GetNextCluster, fsFat12ReadCluster and fsFat12Read of fs.c on a mounted volume.
-/
namespace UoDOS.FileSystem
open ByteMemory

/-- What reading needs: the kernel's image and memory, where the table lies, the
globals set by fsFat12Initialise, and the disk. -/
structure Mounted where
  image : KernelImage
  memory : Bytes
  volume : Volume
  disk : Disk

variable (M : Mounted)

def fsFat12GetNextCluster (cluster : ℕ) : ℕ :=
  let fatOffset := (cluster + cluster / 2) % 2^32
  let nextCluster := readHalf M.memory ((M.image.fat + fatOffset) % 2^32)
  let nextCluster := if cluster &&& 1 ≠ 0 then nextCluster >>> 4 else nextCluster &&& 0x0FFF
  if 0xff8 ≤ nextCluster then 0 else if nextCluster = 0 then 0 else nextCluster.toNat

/-- The loop of fsFat12ReadCluster over the sectors of a cluster. -/
def readSectors : ℕ → ℕ → ℕ → ℕ → Except Stop (List UInt8)
  | _, _, _, 0 => .ok []
  | 0, _, _, _ + 1 => .error .hang
  | n + 1, sector, offset, size + 1 => do
    let sectorContentsSize := if size + 1 < M.volume.Bpb.BytesPerSector.toNat then size + 1
      else M.volume.Bpb.BytesPerSector.toNat
    let rest ← readSectors n ((sector + 1) % 2^32) 0 (size + 1 - sectorContentsSize)
    .ok ((List.range sectorContentsSize).map (fun i => M.disk sector (offset + i)) ++ rest)

def fsFat12ReadCluster (clusterNumber offset size : ℕ) : Except Stop (ℕ × List UInt8) := do
  let ClusterSize := M.volume.mount.ClusterSize
  let BytesPerSector := M.volume.Bpb.BytesPerSector.toNat
  let size := if ClusterSize < size then ClusterSize else size
  let offset := if ClusterSize ≤ offset then 0 else offset
  let size := if ClusterSize < (offset + size) % 2^32 then ClusterSize - offset else size
  let sector := (M.volume.mount.RootOffset + M.volume.mount.RootSize +
    (2^32 - 2 + clusterNumber) % 2^32 * M.volume.Bpb.SectorsPerCluster.toNat) % 2^32
  if 0 < offset then
    let sectorOffset := offset / BytesPerSector
    let offset := offset % BytesPerSector
    let left := ClusterSize - (sectorOffset * BytesPerSector + offset)
    let size := if left < size then left else size
    let bytes ← readSectors M size ((sector + sectorOffset) % 2^32) offset size
    .ok (size,bytes)
  else
    let bytes ← readSectors M size sector offset size
    .ok (size,bytes)

def readClusters : ℕ → File → ℕ → ℕ → ℕ → Except Stop (ℕ × List UInt8 × File)
  | _, file, _, _, 0 => .ok (0,[],file)
  | 0, _, _, _, _ + 1 => .error .hang
  | n + 1, file, currentCluster, clusterOffset, length + 1 => do
    let (readLength,bytes) ← fsFat12ReadCluster M currentCluster clusterOffset (length + 1)
    let file := { file with Position := (file.Position + readLength) % 2^32 }
    if file.Size ≤ file.Position ∧ file.type = .FD_FILE then
      .ok (readLength,bytes,{ file with Eof := true })
    else
      let currentCluster := if clusterOffset + readLength = M.volume.mount.ClusterSize then
        fsFat12GetNextCluster M currentCluster else currentCluster
      if currentCluster = 0 then .ok (readLength,bytes,{ file with Eof := true })
      else
        let (totalRead,rest,file) ← readClusters n file currentCluster 0 (length + 1 - readLength)
        .ok (readLength + totalRead,bytes ++ rest,file)

def fsFat12Read (file : File) (length : ℕ) : Except Stop (ℕ × List UInt8 × File) :=
  if (file.type = .FD_FILE ∨ file.type = .FD_DIR) ∧ file.Eof = false then
    if M.volume.mount.ClusterSize = 0 then .error .divideError
    else
      let clusterHops := file.Position / M.volume.mount.ClusterSize
      let clusterOffset := file.Position % M.volume.mount.ClusterSize
      let currentCluster := (fsFat12GetNextCluster M)^[clusterHops] file.DirectoryEntry.FirstCluster
      readClusters M length file currentCluster clusterOffset length
  else .ok (0,[],file)

/-- fileRead of file.c. The count and the bytes that the console or a pipe delivers are
the argument `answer`. -/
def fileRead (t : FileTable) (f : Fin NFILE) (n : ℕ) (answer : ℤ × List UInt8) :
    Except Stop (ℤ × List UInt8 × FileTable) :=
  if (t f).Readable = false then .ok (-1,[],t)
  else match (t f).type with
    | .FD_DEVICE => .ok (answer.1,answer.2,t)
    | .FD_PIPE => .ok (answer.1,answer.2,t)
    | .FD_FILE | .FD_DIR => do
      let (r,bytes,file) ← fsFat12Read M (t f) n
      .ok (r,bytes,Function.update t f file)
    | .FD_NONE => .error (.panic "fileRead")

/-- fileWrite of file.c, with what the console or a pipe answers. -/
def fileWrite (t : FileTable) (f : Fin NFILE) (answer : ℤ) : Except Stop ℤ :=
  if (t f).Writable = false then .ok (-1)
  else match (t f).type with
    | .FD_DEVICE => .ok answer
    | .FD_PIPE => .ok answer
    | _ => .error (.panic "fileWrite")

def fileStat (t : FileTable) (f : Fin NFILE) : ℤ :=
  if (t f).type = .FD_FILE ∨ (t f).type = .FD_DIR then 0 else -1

end UoDOS.FileSystem
