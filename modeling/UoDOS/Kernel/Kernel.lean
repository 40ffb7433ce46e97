import UoDOS.Memory.PageTable
import UoDOS.Process.ProcessTable
import UoDOS.FileSystem.Directories

/-! # Calls that create and end processes

The state of the kernel between two system calls, and the calls fork, exit and wait of proc.c as
whole steps.
-/
namespace UoDOS.Kernel
open ByteMemory Paging Processes FileSystem Strings ProcState Function

structure Trapframe where
  edi : ℕ
  esi : ℕ
  ebp : ℕ
  ebx : ℕ
  edx : ℕ
  ecx : ℕ
  eax : ℕ
  gs : ℕ
  fs : ℕ
  es : ℕ
  ds : ℕ
  trapno : ℕ
  err : ℕ
  eip : ℕ
  cs : ℕ
  eflags : ℕ
  esp : ℕ
  ss : ℕ

structure Image where
  MemorySize : ℕ
  PageTable : ℕ
  KernelStack : ℕ
  Trapframe : Trapframe
  OpenFile : Fin NOFILE → Option (Fin NFILE)
  Cwd : CString
  Name : Bytes

structure PipeEnds where
  ReadOpen : Bool
  WriteOpen : Bool

structure System where
  memory : Memory
  table : ProcessTable
  nextpid : UInt32
  image : Fin NPROC → Image
  files : FileTable
  pipes : ℕ → PipeEnds

variable (M : Mounted)

namespace System

def setImage (s : System) (p : Fin NPROC) (x : Image) : System :=
  { s with image := update s.image p x }

def setOpenFile (s : System) (p : Fin NPROC) (fd : Fin NOFILE) (f : Option (Fin NFILE)) : System :=
  s.setImage p { s.image p with OpenFile := update (s.image p).OpenFile fd f }

end System

def PipeEnds.close (e : PipeEnds) (writable : Bool) : PipeEnds :=
  if writable then { e with WriteOpen := false } else { e with ReadOpen := false }

/-- The address that pipeclose wakes: `ReadCount` behind the lock and the data of the
Pipe, or `WriteCount`. -/
def pipeChannel (p : ℕ) (writable : Bool) : ℕ := if writable then p + 52 + 512 else p + 52 + 512 + 4

def pipeclose (s : System) (p : ℕ) (writable : Bool) : Except Stop System :=
  let ends := (s.pipes p).close writable
  let s := { s with
    pipes := update s.pipes p ends
    table := wakeup1 (some (.other (pipeChannel p writable))) s.table }
  if ends.ReadOpen = false ∧ ends.WriteOpen = false then do
    let memory ← freePhysicalMemoryPage M.image.toLayout s.memory p
    .ok { s with memory := memory }
  else .ok s

/-- fileClose; fsFat12Close only changes the local copy of the File. -/
def closeFile (s : System) (f : Fin NFILE) : Except Stop System := do
  let (files,ff) ← fileClose s.files f
  let s := { s with files := files }
  match ff with
  | some ff => if ff.type = .FD_PIPE then pipeclose M s ff.Pipe ff.Writable else .ok s
  | none => .ok s

def dupFile (s : System) (f : Fin NFILE) : Except Stop System := do
  let files ← fileDup s.files f
  .ok { s with files := files }

def openConsole (s : System) (p : Fin NPROC) : Except Stop System :=
  match allocateFileStructure s.files with
  | (none,_) => .error .nullPointer
  | (some consoleDevice,files) => do
    let s := { s with files := update files consoleDevice { files consoleDevice with
      type := .FD_DEVICE
      DeviceID := 0
      Readable := true
      Writable := true } }
    let s := s.setOpenFile p ⟨0,by decide⟩ (some consoleDevice)
    let s ← dupFile s consoleDevice
    let s := s.setOpenFile p ⟨1,by decide⟩ (some consoleDevice)
    let s ← dupFile s consoleDevice
    .ok (s.setOpenFile p ⟨2,by decide⟩ (some consoleDevice))

def allocateProcess (s : System) : Except Stop (Option (Fin NPROC) × System) :=
  match allocateSlot s.table s.nextpid with
  | none => .ok (none,s)
  | some (p,table) =>
    let (KernelStack,memory) := allocatePhysicalMemoryPage s.memory
    let s := { s with table := table, nextpid := s.nextpid + 1, memory := memory }
    let s := s.setImage p { s.image p with KernelStack := KernelStack }
    if KernelStack = 0 then
      .ok (none,{ s with table := update s.table p { s.table p with State := UNUSED } })
    else do
      let s ← openConsole s p
      .ok (some p,s)

def firstTrapframe : Trapframe where
  edi := 0
  esi := 0
  ebp := 0
  ebx := 0
  edx := 0
  ecx := 0
  eax := 0
  gs := 0
  fs := 0
  es := 4 <<< 3 ||| 3
  ds := 4 <<< 3 ||| 3
  trapno := 0
  err := 0
  eip := 0
  cs := 3 <<< 3 ||| 3
  eflags := 0x200
  esp := PGSIZE
  ss := 4 <<< 3 ||| 3

def initcodeName : CString := .ofText [0x69,0x6E,0x69,0x74,0x63,0x6F,0x64,0x65] (fun _ => 0) (by simp)
def rootDirectory : CString := .ofText [0x2F] (fun _ => 0) (by simp)

/-- The process becomes `initproc`; on an empty table it gets slot 0. -/
def initialiseFirstUserProcess (s : System) (initcode_start initcode_end : ℕ) : Except Stop System := do
  let (p,s) ← allocateProcess s
  match p with
  | none => .error .nullPointer
  | some p =>
    let (PageTable,memory) ← setupKernelVirtualMemory M.image.toLayout s.memory
    if PageTable = 0 then .error (.panic "initialiseFirstUserProcess: out of memory?")
    else
      let memory ← initialiseUserVirtualMemory memory PageTable initcode_start
        ((initcode_end + (2^32 - initcode_start)) % 2^32)
      let s := { s with memory := memory }
      let s := s.setImage p { s.image p with
        PageTable := PageTable
        MemorySize := PGSIZE
        Trapframe := firstTrapframe
        Name := safestrcpy (s.image p).Name initcodeName.bytes 16
        Cwd := rootDirectory }
      .ok { s with table := update s.table p { s.table p with State := RUNNABLE } }

def dupDescriptor (curproc np : Fin NPROC) (s : System) (i : Fin NOFILE) : Except Stop System :=
  match (s.image curproc).OpenFile i with
  | some f => do
    let s ← dupFile s f
    .ok (s.setOpenFile np i (some f))
  | none => .ok s

def forkInto (s : System) (curproc np : Fin NPROC) (PageTable : ℕ) : Except Stop System := do
  let s := s.setImage np { s.image np with
    PageTable := PageTable
    MemorySize := (s.image curproc).MemorySize
    Trapframe := { (s.image curproc).Trapframe with eax := 0 } }
  let s := { s with table := setParent s.table np (some curproc) }
  let s ← (List.finRange NOFILE).foldlM (dupDescriptor curproc np) s
  let s := s.setImage np { s.image np with
    Cwd := copied (s.image curproc).Cwd (s.image np).Cwd.bytes MAXCWDSIZE (by decide)
    Name := safestrcpy (s.image np).Name (s.image curproc).Name 16 }
  .ok { s with table := update s.table np { s.table np with State := RUNNABLE } }

def fork (s : System) (curproc : Fin NPROC) : Except Stop (Option UInt32 × System) := do
  let (np,s) ← allocateProcess s
  match np with
  | none => .ok (none,s)
  | some np =>
    let (PageTable,memory) ← copyProcessPageTable M.image.toLayout s.memory
      (s.image curproc).PageTable (s.image curproc).MemorySize
    if PageTable = 0 then
      let memory ← freePhysicalMemoryPage M.image.toLayout memory (s.image np).KernelStack
      let s := { s with memory := memory }
      let s := s.setImage np { s.image np with PageTable := 0, KernelStack := 0 }
      .ok (none,{ s with table := update s.table np { s.table np with State := UNUSED } })
    else
      let s ← forkInto { s with memory := memory } curproc np PageTable
      .ok (some (s.table np).ProcessId,s)

def closeDescriptor (curproc : Fin NPROC) (s : System) (fd : Fin NOFILE) : Except Stop System :=
  match (s.image curproc).OpenFile fd with
  | some f => do
    let s ← closeFile M s f
    .ok (s.setOpenFile curproc fd none)
  | none => .ok s

def emptyString : CString := ⟨fun _ => 0,0,rfl,by simp⟩

def exit (s : System) (curproc : Fin NPROC) : Except Stop System :=
  if curproc = initproc then .error (.panic "init exiting")
  else do
    let s ← (List.finRange NOFILE).foldlM (closeDescriptor M curproc) s
    let s := s.setImage curproc { s.image curproc with Cwd := emptyString }
    .ok { s with table := exitSlot curproc s.table }

/-- wait once it does not sleep any more: the pid of a child that has exited, or none
for -1. -/
def wait (s : System) (curproc : Fin NPROC) : Except Stop (Option (Option UInt32 × System)) :=
  match waitSlot curproc s.table with
  | (.reaped p pid,table) => do
    let memory ← freePhysicalMemoryPage M.image.toLayout s.memory (s.image p).KernelStack
    let memory ← freeMemoryAndPageTable M.image.toLayout memory (s.image p).PageTable
    let s := { s with memory := memory, table := table }
    .ok (some (some pid,s.setImage p { s.image p with
      KernelStack := 0
      Name := update (s.image p).Name 0 0 }))
  | (.failed,_) => .ok (some (none,s))
  | (.asleep,_) => .ok none

end UoDOS.Kernel
