import UoDOS.Kernel.ExecPath
import UoDOS.Kernel.Kernel

/-! # Loading a program

exec of exec.c with the functions of vm.c that it alone uses, and growProcess.
-/
namespace UoDOS.Kernel
open ByteMemory Paging Processes FileSystem Strings

def NumberOfSections (imageFileHeader : Bytes) : ℕ := (readHalf imageFileHeader 6).toNat
def SizeOfOptionalHeader (imageFileHeader : Bytes) : ℕ := (readHalf imageFileHeader 20).toNat
def AddressOfEntryPoint (imageFileHeader : Bytes) : ℕ := readWord imageFileHeader 40

def ActualSize (sectionHeader : Bytes) : ℕ := readWord sectionHeader 8
def VirtualAddress (sectionHeader : Bytes) : ℕ := readWord sectionHeader 12
def OffsetInExeFile (sectionHeader : Bytes) : ℕ := readWord sectionHeader 20

structure Loader where
  memory : Memory
  files : FileTable

variable (M : Mounted) (exeFile : Fin NFILE)

def Loader.read (l : Loader) (Position n : ℕ) : Except Stop (ℤ × List UInt8 × Loader) := do
  let files := Function.update l.files exeFile { l.files exeFile with Position := Position }
  let (count,bytes,files) ← fileRead M files exeFile n (0,[])
  .ok (count,bytes,{ l with files := files })

/-- imageFileHeader, or none if the file does not have one. All of it is read before it is
used, so that what another exec left in it does not matter. -/
def readHeaders (l : Loader) : Except Stop (Option Bytes × Loader) := do
  let (count,bytes,l) ← l.read M exeFile 0x80 24
  if count ≠ 24 then .ok (none,l)
  else
    let imageFileHeader := write (fun _ => 0) 0 bytes
    if imageFileHeader 0 ≠ 'P'.toUInt8 ∨ imageFileHeader 1 ≠ 'E'.toUInt8 then .ok (none,l)
    else do
      let (count,bytes,l) ← l.read M exeFile (0x80 + 24) 96
      if count ≠ 96 then .ok (none,l) else .ok (some (write imageFileHeader 24 bytes),l)

def OwnPage (va entry : ℕ) : Prop := va < KERNBASE ∧ entry &&& PTE_P ≠ 0

instance (va entry : ℕ) : Decidable (OwnPage va entry) := inferInstanceAs (Decidable (_ ∧ _))

/-- The loop of loadProgramSegmentIntoPageTable. It does not look whether the entry of a
page is present. -/
def loadLoop (pgdir addr offset memorySize : ℕ) : ℕ → Loader → ℕ → Except Stop (ℤ × Loader)
  | 0, _, _ => .error .hang
  | k + 1, l, i =>
    if i < memorySize then
      let va := (addr + i) % 2^32
      let pte := (getPageTableEntry l.memory pgdir va false).1
      if pte = 0 then .error (.panic "loadProgramSegmentIntoPageTable: address should exist")
      else
        let entry := l.memory.load pte
        let n := if memorySize - i < PGSIZE then memorySize - i else PGSIZE
        if offset = 0 then
          if OwnPage va entry then
            loadLoop pgdir addr offset memorySize k
              { l with memory := l.memory.write (P2V (PTE_ADDR entry)) (List.replicate n 0) } ((i + PGSIZE) % 2^32)
          else .error .overrun
        else do
          let (count,bytes,l) ← l.read M exeFile ((offset + i) % 2^32) n
          if bytes ≠ [] ∧ ¬ OwnPage va entry then .error .overrun
          else
            let l := { l with memory := l.memory.write (P2V (PTE_ADDR entry)) bytes }
            if count ≠ n then .ok (-1,l)
            else loadLoop pgdir addr offset memorySize k l ((i + PGSIZE) % 2^32)
    else .ok (0,l)

def loadProgramSegmentIntoPageTable (l : Loader) (pgdir addr offset memorySize : ℕ) :
    Except Stop (ℤ × Loader) :=
  if addr % PGSIZE ≠ 0 then .error (.panic "loadProgramSegmentIntoPageTable: addr must be page aligned")
  else loadLoop M exeFile pgdir addr offset memorySize (2^20 + 1) l 0

inductive Loading
  | short
  | failed
  | loaded (memorySize : ℕ)

def loadSections (pgdir : ℕ) : ℕ → Loader → ℕ → ℕ → Except Stop (Loading × Loader)
  | 0, l, _, memorySize => .ok (.loaded memorySize,l)
  | k + 1, l, oldFilePosition, memorySize => do
    let (count,bytes,l) ← l.read M exeFile oldFilePosition 40
    if count ≠ 40 then .ok (.short,l)
    else
      let sectionHeader := write (fun _ => 0) 0 bytes
      let oldFilePosition := (l.files exeFile).Position
      let (memorySize,memory) ← allocateMemoryAndPageTables M.image.toLayout l.memory pgdir memorySize
        ((VirtualAddress sectionHeader + ActualSize sectionHeader) % 2^32)
      let l := { l with memory := memory }
      if memorySize = 0 then .ok (.failed,l)
      else
        let (r,l) ← loadProgramSegmentIntoPageTable M exeFile l pgdir (VirtualAddress sectionHeader)
          (OffsetInExeFile sectionHeader) (ActualSize sectionHeader)
        if r < 0 then .ok (.failed,l) else loadSections pgdir k l oldFilePosition memorySize

def mapVirtualAddressToKernelAddress (m : Memory) (pgdir uva : ℕ) : Except Stop ℕ :=
  let pte := (getPageTableEntry m pgdir uva false).1
  if pte = 0 then .error .nullPointer
  else if m.load pte &&& PTE_P = 0 then .ok 0
  else if m.load pte &&& PTE_U = 0 then .ok 0
  else .ok (P2V (PTE_ADDR (m.load pte)))

/-- The loop of copyToUserVirtualMemory, with the bytes that are left. -/
def copyOut (pgdir : ℕ) : ℕ → Memory → ℕ → List UInt8 → Except Stop (ℤ × Memory)
  | _, m, _, [] => .ok (0,m)
  | 0, _, _, _ :: _ => .error .hang
  | k + 1, m, va, data => do
    let va0 := PGROUNDDOWN va
    let pa0 ← mapVirtualAddressToKernelAddress m pgdir va0
    if pa0 = 0 then .ok (-1,m)
    else
      let n := if data.length < PGSIZE - (va - va0) then data.length else PGSIZE - (va - va0)
      copyOut pgdir k (m.write (pa0 + (va - va0)) (data.take n)) ((va0 + PGSIZE) % 2^32) (data.drop n)

def copyToUserVirtualMemory (m : Memory) (pgdir va : ℕ) (p : List UInt8) : Except Stop (ℤ × Memory) :=
  copyOut pgdir p.length m va p

def below (sp n : ℕ) : ℕ := (sp + (2^32 - n % 2^32)) % 2^32

/-- The loop over the argument strings: the stack pointer and the pointers to the strings,
or none for the two failures. -/
def pushArguments (pgdir : ℕ) : List CString → Memory → ℕ → List ℕ → Except Stop (Option (ℕ × List ℕ) × Memory)
  | [], m, sp, ptrs => .ok (some (sp,ptrs),m)
  | arg :: argv, m, sp, ptrs =>
    if MAXARG ≤ ptrs.length then .ok (none,m)
    else do
      let sp := below sp (arg.length + 1) &&& 0xFFFFFFFC
      let (r,m) ← copyToUserVirtualMemory m pgdir sp ((List.range (arg.length + 1)).map arg.bytes)
      if r < 0 then .ok (none,m) else pushArguments pgdir argv m sp (ptrs ++ [sp])

/-- The array `ustack`: a fake return address, argc, argv and the terminated vector. -/
def ustack (sp : ℕ) (ptrs : List ℕ) : List ℕ :=
  [0xffffffff,ptrs.length,below sp ((ptrs.length + 1) * 4)] ++ ptrs ++ [0]

/-- The stack of the new program in the page below `memorySize`, and its stack pointer. -/
def buildStack (m : Memory) (pgdir memorySize : ℕ) (argv : List CString) : Except Stop (Option ℕ × Memory) := do
  let (r,m) ← pushArguments pgdir argv m memorySize []
  match r with
  | none => .ok (none,m)
  | some (sp,ptrs) =>
    let top := below sp ((3 + ptrs.length + 1) * 4)
    let (r,m) ← copyToUserVirtualMemory m pgdir top ((ustack sp ptrs).flatMap wordBytes)
    if r < 0 then .ok (none,m) else .ok (some top,m)

def lastPart (path : CString) : ℕ :=
  (List.range path.length).foldl (fun last i =>
    if separates (path.bytes i) then i + 1 else last) 0

/-- The checks of switchToUserVirtualMemory; the rest of it sets up the processor. -/
def switchToUserVirtualMemory (x : Image) : Except Stop Unit :=
  if x.KernelStack = 0 then .error (.panic "switchToUserVirtualMemory: no kstack")
  else if x.PageTable = 0 then .error (.panic "switchToUserVirtualMemory: no pgdir")
  else .ok ()

def cleanupExec (s : System) (pageTable : ℕ) : Except Stop System :=
  if pageTable = 0 then closeFile M s exeFile
  else do
    let memory ← freeMemoryAndPageTable M.image.toLayout s.memory pageTable
    closeFile M { s with memory := memory } exeFile

structure Loaded where
  imageFileHeader : Bytes
  pgdir : ℕ
  memorySize : ℕ

/-- exec from the close of the executable up to the arguments: two more pages, of which the
first is made inaccessible. None stands for -1. -/
def addStack (s : System) (x : Loaded) : Except Stop (Option Loaded × System) := do
  let s ← closeFile M s exeFile
  let memorySize := PGROUNDUP x.memorySize
  let (memorySize,memory) ← allocateMemoryAndPageTables M.image.toLayout s.memory x.pgdir memorySize
    ((memorySize + 2 * PGSIZE) % 2^32)
  let s := { s with memory := memory }
  if memorySize = 0 then do
    let s ← cleanupExec M exeFile s x.pgdir
    .ok (none,s)
  else
    let memory ← clearPTEU s.memory x.pgdir (below memorySize (2 * PGSIZE))
    .ok (some { x with memorySize := memorySize },{ s with memory := memory })

/-- exec up to the arguments, once the executable is open. None stands for -1. -/
def loadImage (s : System) : Except Stop (Option Loaded × System) := do
  let exe := { s.files exeFile with Readable := true, Writable := false }
  let (header,l) ← readHeaders M exeFile ⟨s.memory,Function.update s.files exeFile exe⟩
  let s := { s with files := l.files }
  match header with
  | none => do
    let s ← closeFile M s exeFile
    .ok (none,s)
  | some imageFileHeader =>
    let (pgdir,memory) ← setupKernelVirtualMemory M.image.toLayout s.memory
    let s := { s with memory := memory }
    if pgdir = 0 then do
      let s ← closeFile M s exeFile
      .ok (none,s)
    else
      let (r,l) ← loadSections M exeFile pgdir (NumberOfSections imageFileHeader) ⟨s.memory,s.files⟩
        (0x80 + 24 + SizeOfOptionalHeader imageFileHeader) 0
      let s := { s with memory := l.memory, files := l.files }
      match r with
      | .short => do
        -- the new page table is not freed here
        let s ← closeFile M s exeFile
        .ok (none,s)
      | .failed => do
        let s ← cleanupExec M exeFile s pgdir
        .ok (none,s)
      | .loaded memorySize => addStack M exeFile s ⟨imageFileHeader,pgdir,memorySize⟩

def runImage (s : System) (p : Fin NPROC) (path : CString) (argv : List CString) (x : Loaded) :
    Except Stop (ℤ × System) := do
  let (sp,memory) ← buildStack s.memory x.pgdir x.memorySize argv
  let s := { s with memory := memory }
  match sp with
  | none => do
    let s ← cleanupExec M exeFile s x.pgdir
    .ok (-1,s)
  | some sp =>
    let y := s.image p
    let s := s.setImage p { y with
      Name := safestrcpy y.Name (fun i => path.bytes (lastPart path + i)) 16
      PageTable := x.pgdir
      MemorySize := x.memorySize
      Trapframe := { y.Trapframe with eip := AddressOfEntryPoint x.imageFileHeader, esp := sp } }
    switchToUserVirtualMemory (s.image p)
    let memory ← freeMemoryAndPageTable M.image.toLayout s.memory y.PageTable
    .ok (0,{ s with memory := memory })

/-- The result and the state, for the process `p` that calls exec. -/
def exec (s : System) (p : Fin NPROC) (path : CString) (argv : List CString) (junk : Bytes) :
    Except Stop (ℤ × System) := do
  let (f,files) ← fsFat12Open M s.files (s.image p).Cwd path false junk
  let s := { s with files := files }
  match f with
  | none => .ok (-1,s)
  | some f => do
    let (x,s) ← loadImage M f s
    match x with
    | none => .ok (-1,s)
    | some x => runImage M f s p path argv x

def sys_exec (s : System) (p : Fin NPROC) (u : UserView) (adjustedPath junk : Bytes) :
    Except Stop (ℤ × System) :=
  match sys_exec_call u adjustedPath with
  | none => .ok (-1,s)
  | some call => exec M s p call.path call.argv junk

def growProcess (s : System) (p : Fin NPROC) (n : UInt32) : Except Stop (ℤ × System) :=
  let x := s.image p
  let finish (s : System) (memorySize : ℕ) : Except Stop (ℤ × System) := do
    let s := s.setImage p { s.image p with MemorySize := memorySize }
    switchToUserVirtualMemory (s.image p)
    .ok (0,s)
  if 0 < signed n.toNat then do
    let (memorySize,memory) ← allocateMemoryAndPageTables M.image.toLayout s.memory x.PageTable x.MemorySize
      ((x.MemorySize + n.toNat) % 2^32)
    let s := { s with memory := memory }
    if memorySize = 0 then .ok (-1,s) else finish s memorySize
  else if signed n.toNat < 0 then do
    let (memorySize,memory) ← releaseUserPages M.image.toLayout s.memory x.PageTable x.MemorySize
      ((x.MemorySize + n.toNat) % 2^32)
    let s := { s with memory := memory }
    if memorySize = 0 then .ok (-1,s) else finish s memorySize
  else finish s x.MemorySize

def sys_sbrk (s : System) (p : Fin NPROC) (n : Option UInt32) : Except Stop (ℤ × System) :=
  match n with
  | none => .ok (-1,s)
  | some n => do
    let addr := (s.image p).MemorySize
    let (r,s) ← growProcess M s p n
    if r < 0 then .ok (-1,s) else .ok (addr,s)

end UoDOS.Kernel
