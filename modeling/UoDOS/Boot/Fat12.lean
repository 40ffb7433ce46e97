import UoDOS.FileSystem.BootLoader
import UoDOS.Library.Results

/-! # The file routines of the second stage

ReadSectors of floppy16.asm and LoadRootDirectory, LoadFAT, FindFile and LoadFile of fat12.asm,
with the 16-bit registers that they compute in.
-/
namespace UoDOS.Boot
open ByteMemory Results
open FileSystem (Disk)

def bpbBytesPerSector : UInt16 := 512
def bpbSectorsPerCluster : UInt8 := 8
def bpbReservedSectors : UInt16 := 8
def bpbNumberOfFATs : UInt8 := 2
def bpbRootEntries : UInt16 := 512
def bpbTotalSectors : UInt16 := 20160
def bpbSectorsPerFAT : UInt16 := 8
def bpbSectorsPerTrack : UInt16 := 63
def bpbHeadsPerCylinder : UInt16 := 16

def ROOT_DIRECTORY_OFFSET : UInt16 := 0x2E00
def FAT_SEG : UInt16 := 0x2C0
def ROOT_DIRECTORY_SEG : UInt16 := 0x2E0

def linear (segment offset : UInt16) : ℕ := 16 * segment.toNat + offset.toNat

/-- What the loader relies on of int 13h. A byte of the buffer at ES:BX has its linear address as
long as the offset does not pass the end of the segment. Call `k` fails if `error k` has bytes,
which are then in the buffer. -/
structure Bios where
  place : UInt16 → UInt16 → ℕ → ℕ
  inside : ∀ es bx i, bx.toNat + i < 2^16 → place es bx i = linear es bx + i
  error : ℕ → Option Bytes

structure Machine where
  memory : Bytes
  calls : ℕ

inductive Stop
  | reboot
  /-- A sector was stored over memory that is not there for the file. -/
  | overwritten
  | hang
  deriving DecidableEq

def scatter (b : Bytes) (place : ℕ → ℕ) (data : Bytes) : ℕ → Bytes
  | 0 => b
  | n + 1 => Function.update (scatter b place data n) (place n) (data n)

section Disk

variable (B : Bios) (disk : Disk) (allowed : ℕ → Bool)

/-- Cylinder, head and sector to the sector number, as the drive counts. -/
def sectorNumber (cl dh ch : UInt8) : ℕ :=
  (ch.toNat * bpbHeadsPerCylinder.toNat + dh.toNat) * bpbSectorsPerTrack.toNat + cl.toNat - 1

/-- int 13h with AH = 2 and AL = 1; the result is whether the carry flag is clear. -/
def int13 (es bx : UInt16) (cl dh ch : UInt8) (m : Machine) : Except Stop (Bool × Machine) :=
  if (List.range 512).all (fun i => allowed (B.place es bx i)) then
    match B.error m.calls with
    | none => .ok (true,⟨scatter m.memory (B.place es bx) (disk (sectorNumber cl dh ch)) 512,m.calls + 1⟩)
    | some bytes => .ok (false,⟨scatter m.memory (B.place es bx) bytes 512,m.calls + 1⟩)
  else .error .overwritten

def LBAToCHS (ax : UInt16) : UInt8 × UInt8 × UInt8 :=
  let dx := ax % bpbSectorsPerTrack
  let ax := ax / bpbSectorsPerTrack
  let cl := dx.toUInt8 + 1
  let dx := ax % bpbHeadsPerCylinder
  let ax := ax / bpbHeadsPerCylinder
  (cl,dx.toUInt8,ax.toUInt8)

def AttemptRead (es ax bx : UInt16) : ℕ → Machine → Except Stop Machine
  | 0, _ => .error .reboot
  | di + 1, m => do
    let (cl,dh,ch) := LBAToCHS ax
    let (success,m) ← int13 B disk allowed es bx cl dh ch m
    if success then .ok m else AttemptRead es ax bx di m

def ReadSectors (es : UInt16) : ℕ → UInt16 → UInt16 → Machine → Except Stop (UInt16 × Machine)
  | 0, _, bx, m => .ok (bx,m)
  | cx + 1, ax, bx, m => do
    let m ← AttemptRead B disk allowed es ax bx 5 m
    ReadSectors es cx (ax + 1) (bx + bpbBytesPerSector) m

def rounds (cx : UInt16) : ℕ := if cx = 0 then 2^16 else cx.toNat

def ClusterToLBA (datasector ax : UInt16) : UInt16 :=
  let ax := ax - 2
  let cx := bpbSectorsPerCluster.toUInt16
  let ax := ax * cx
  ax + datasector

end Disk

section Files

variable (B : Bios) (disk : Disk)

def LoadRootDirectory (m : Machine) : Except Stop (UInt16 × Machine) := do
  let cx := ((32 : UInt32) * bpbRootEntries.toUInt32 / bpbBytesPerSector.toUInt32).toUInt16
  let ax := bpbNumberOfFATs.toUInt16 * bpbSectorsPerFAT
  let ax := ax + bpbReservedSectors
  let datasector := ax + cx
  let (_,m) ← ReadSectors B disk (fun _ => true) ROOT_DIRECTORY_SEG (rounds cx) ax 0 m
  .ok (datasector,m)

def LoadFAT (m : Machine) : Except Stop Machine := do
  let cx := bpbNumberOfFATs.toUInt16 * bpbSectorsPerFAT
  let ax := bpbReservedSectors
  let (_,m) ← ReadSectors B disk (fun _ => true) FAT_SEG (rounds cx) ax 0 m
  .ok m

def FindFile.loop (memory : Bytes) (name : ℕ → UInt8) : ℕ → UInt16 → Option UInt16
  | 0, _ => none
  | cx + 1, di =>
    if ∀ i < 11, memory (di + UInt16.ofNat i).toNat = name i then some di
    else FindFile.loop memory name cx (di + 32)

def FindFile (memory : Bytes) (name : ℕ → UInt8) : Option UInt16 :=
  FindFile.loop memory name (rounds bpbRootEntries) ROOT_DIRECTORY_OFFSET

variable (free : ℕ → Bool)

/-- LoadFile_Load, with the fuel of its loop; the result has CX. -/
def LoadFile.load (datasector es : UInt16) : ℕ → UInt16 → UInt16 → UInt16 → Machine →
    Except Stop (UInt16 × Machine)
  | 0, _, _, _, _ => .error .hang
  | n + 1, cluster, cx, bx, m => do
    let ax := ClusterToLBA datasector cluster
    let (bx,m) ← ReadSectors B disk free es (rounds bpbSectorsPerCluster.toUInt16) ax bx m
    let cx := cx + bpbSectorsPerCluster.toUInt16
    let dx := FileSystem.LoadFile.entry (fun i => m.memory (linear FAT_SEG 0 + i)) cluster
    if dx < 0xFF0 then LoadFile.load datasector es n dx cx bx m else .ok (cx,m)

/-- The file is loaded to `bx:bp`, into memory that has to be free; the result has AX and CX. -/
def LoadFile (n : ℕ) (name : ℕ → UInt8) (datasector bx bp : UInt16) (m : Machine) :
    Except Stop ((UInt16 × UInt16) × Machine) :=
  match FindFile m.memory name with
  | none => .ok ((-1,0),m)
  | some di => do
    let di := di - ROOT_DIRECTORY_OFFSET
    let cluster := readHalf m.memory (linear ROOT_DIRECTORY_SEG (di + 0x1A))
    let m ← LoadFAT B disk m
    let (cx,m) ← LoadFile.load B disk free datasector bx n cluster 0 bp m
    .ok ((0,cx),m)

/-- The kernel load of Second_Stage, for any name and address. -/
def loadKernel (n : ℕ) (name : ℕ → UInt8) (bx bp : UInt16) (m : Machine) :
    Except Stop ((UInt16 × UInt16) × Machine) := do
  let (datasector,m) ← LoadRootDirectory B disk m
  LoadFile B disk free n name datasector bx bp m

end Files

section Volume

variable (disk : Disk)

def tableByte (i : ℕ) : UInt8 := disk (bpbReservedSectors.toNat + i / 512) (i % 512)

def rootSector : ℕ := bpbReservedSectors.toNat + bpbNumberOfFATs.toNat * bpbSectorsPerFAT.toNat

def rootByte (i : ℕ) : UInt8 := disk (rootSector + i / 512) (i % 512)

def dataSector : ℕ := rootSector + bpbRootEntries.toNat * 32 / 512

def tableEntry (c : ℕ) : ℕ :=
  let pair := (tableByte disk (c + c / 2)).toNat + 2^8 * (tableByte disk (c + c / 2 + 1)).toNat
  if c % 2 = 1 then pair / 2^4 else pair % 2^12

def DataCluster (c : ℕ) : Prop := 2 ≤ c ∧ dataSector + bpbSectorsPerCluster.toNat * (c - 1) ≤ bpbTotalSectors.toNat

inductive ProperChain : List ℕ → Prop
  | last {c : ℕ} : DataCluster c → 0xFF8 ≤ tableEntry disk c → ProperChain [c]
  | cons {c d : ℕ} {cs : List ℕ} : DataCluster c → tableEntry disk c = d → ProperChain (d :: cs) →
      ProperChain (c :: d :: cs)

def clusterBytes (c : ℕ) : List UInt8 :=
  (List.range (512 * bpbSectorsPerCluster.toNat)).map (fun i =>
    disk (dataSector + bpbSectorsPerCluster.toNat * (c - 2) + i / 512) (i % 512))

def Named (name : ℕ → UInt8) (k : ℕ) : Prop := ∀ i < 11, rootByte disk (32 * k + i) = name i

/-- The first entry of the root directory with the name has the cluster `c`. -/
def Listed (name : ℕ → UInt8) (c : ℕ) : Prop :=
  ∃ k < bpbRootEntries.toNat, Named disk name k ∧ (∀ j < k, ¬ Named disk name j) ∧
    (readHalf (rootByte disk) (32 * k + 0x1A)).toNat = c

end Volume

/-- The memory that is there for the file: not the buffers of the loader, nor what else it uses. -/
structure Layout where
  free : ℕ → Bool
  buffers : ∀ x, 0x2C00 ≤ x → x < 0x6E00 → free x = false

/-- Whatever the BIOS does and memory has been, the load ends with the clusters in memory from
`bx:bp` on, unless a sector cannot be read. -/
def LoadsFile (L : Layout) (disk : Disk) (name : ℕ → UInt8) (bx bp : UInt16) (cs : List ℕ) : Prop :=
  ∀ B memory, ∃ n₀, ∀ n, n₀ ≤ n → Delivers (· = .reboot)
    (fun ((ax,cx),m) => ax = 0 ∧ (List.range (512 * cx.toNat)).map (fun i => m.memory (linear bx bp + i)) =
      cs.flatMap (clusterBytes disk))
    (loadKernel B disk L.free n name bx bp ⟨memory,0⟩)

end UoDOS.Boot
