import UoDOS.Process.State
import UoDOS.Library.ByteMemory

/-! # Open files

The table of File structures of file.c. The name that a structure remembers is
left out, since no part of the kernel reads it.
-/
namespace UoDOS.FileSystem

inductive FileType
  | FD_NONE
  | FD_PIPE
  | FD_FILE
  | FD_DIR
  | FD_DEVICE
  deriving DecidableEq, Repr

structure DirectoryEntry where
  bytes : Fin 32 → UInt8
  deriving DecidableEq

namespace DirectoryEntry

def name (e : DirectoryEntry) (j : Fin 11) : UInt8 := e.bytes (j.castLE (by decide))

def Attrib (e : DirectoryEntry) : UInt8 := e.bytes 11

def FirstCluster (e : DirectoryEntry) : ℕ := (e.bytes 26).toNat + 2^8 * (e.bytes 27).toNat

def FileSize (e : DirectoryEntry) : ℕ :=
  (e.bytes 28).toNat + 2^8 * (e.bytes 29).toNat + 2^16 * (e.bytes 30).toNat +
    2^24 * (e.bytes 31).toNat

end DirectoryEntry

structure File where
  type : FileType
  ReferenceCount : ℕ
  Readable : Bool
  Writable : Bool
  Pipe : ℕ
  DirectoryEntry : DirectoryEntry
  Eof : Bool
  Position : ℕ
  Size : ℕ
  DeviceID : ℕ

abbrev FileTable := Fin NFILE → File

def allocateFileStructure (t : FileTable) : Option (Fin NFILE) × FileTable :=
  match (List.finRange NFILE).find? (fun f => (t f).ReferenceCount = 0) with
  | some f => (some f,Function.update t f { t f with ReferenceCount := 1 })
  | none => (none,t)

def fileDup (t : FileTable) (f : Fin NFILE) : Except Stop FileTable :=
  if (t f).ReferenceCount < 1 then .error (.panic "fileDup")
  else .ok (Function.update t f { t f with ReferenceCount := (t f).ReferenceCount + 1 })

/-- fileClose up to the end of its critical section, with the copy `ff` that it then
closes if the last reference has gone. -/
def fileClose (t : FileTable) (f : Fin NFILE) : Except Stop (FileTable × Option File) :=
  if (t f).ReferenceCount < 1 then .error (.panic "fileClose")
  else if 0 < (t f).ReferenceCount - 1 then
    .ok (Function.update t f { t f with ReferenceCount := (t f).ReferenceCount - 1 },none)
  else .ok (Function.update t f { t f with ReferenceCount := 0, type := .FD_NONE },
    some { t f with ReferenceCount := 0 })

variable {t t' : FileTable} {f : Fin NFILE}

theorem allocateFileStructure_some (h : allocateFileStructure t = (some f,t')) :
    (t f).ReferenceCount = 0 ∧ t' = Function.update t f { t f with ReferenceCount := 1 } := by
  unfold allocateFileStructure at h
  split at h
  · rename_i g hg
    cases h
    have hz := List.find?_some hg
    exact ⟨by simpa using hz,rfl⟩
  · cases h

theorem allocateFileStructure_none (h : allocateFileStructure t = (none,t')) :
    t' = t ∧ ∀ f, (t f).ReferenceCount ≠ 0 := by
  unfold allocateFileStructure at h
  split at h
  · cases h
  · rename_i hg
    cases h
    constructor
    · rfl
    · intro f
      simpa using List.find?_eq_none.mp hg f (List.mem_finRange f)

theorem allocateFileStructure_of_free (h : (t f).ReferenceCount = 0) :
    ∃ g t', allocateFileStructure t = (some g,t') := by
  rcases ha : allocateFileStructure t with ⟨r,t'⟩
  cases r with
  | none => exact absurd h ((allocateFileStructure_none ha).2 f)
  | some g => exact ⟨g,t',rfl⟩

theorem fileDup_ok (h : fileDup t f = .ok t') :
    t' = Function.update t f { t f with ReferenceCount := (t f).ReferenceCount + 1 } := by
  unfold fileDup at h
  split_ifs at h
  cases h
  rfl

theorem fileClose_one (h : (t f).ReferenceCount = 1) :
    fileClose t f = .ok (Function.update t f { t f with ReferenceCount := 0, type := .FD_NONE },
      some { t f with ReferenceCount := 0 }) := by
  rw [fileClose,if_neg (by omega),if_neg (by omega)]

end UoDOS.FileSystem
