import UoDOS.Memory.PhysicalMemory

/-! # Page directories, as vm.c builds, grows, copies and frees them

A page directory is passed as the kernel virtual address of its page, and a page table entry as
the kernel virtual address of its word, with 0 for the null pointer.
-/
namespace UoDOS.Paging

def PTE_P : ℕ := 0x001
def PTE_W : ℕ := 0x002
def PTE_U : ℕ := 0x004
def NPDENTRIES : ℕ := 1024

def PDX (va : ℕ) : ℕ := va >>> 22 &&& 0x3FF
def PTX (va : ℕ) : ℕ := va >>> 12 &&& 0x3FF
def PGADDR (d t o : ℕ) : ℕ := (d <<< 22 ||| t <<< 12 ||| o) % 2^32
def PTE_ADDR (pte : ℕ) : ℕ := pte &&& 0xFFFFF000
def PTE_FLAGS (pte : ℕ) : ℕ := pte &&& 0xFFF

/-- The address of the entry for `va`, with a new page table if `alloc` asks for it. -/
def getPageTableEntry (m : Memory) (pgdir va : ℕ) (alloc : Bool) : ℕ × Memory :=
  let pde := pgdir + 4 * PDX va
  if m.load pde &&& PTE_P ≠ 0 then (P2V (PTE_ADDR (m.load pde)) + 4 * PTX va,m)
  else if alloc = false then (0,m)
  else
    let (pgtab,m) := allocatePhysicalMemoryPage m
    if pgtab = 0 then (0,m)
    else
      let m := m.memset pgtab 0 PGSIZE
      (pgtab + 4 * PTX va,m.store pde (V2P pgtab ||| PTE_P ||| PTE_W ||| PTE_U))

def createLoop (pgdir last perm : ℕ) : ℕ → Memory → ℕ → ℕ → Except Stop (ℤ × Memory)
  | 0, _, _, _ => .error .hang
  | n + 1, m, a, pa =>
    let (pte,m) := getPageTableEntry m pgdir a true
    if pte = 0 then .ok (-1,m)
    else if m.load pte &&& PTE_P ≠ 0 then .error (.panic "remap")
    else
      let m := m.store pte (pa ||| perm ||| PTE_P)
      if a = last then .ok (0,m)
      else createLoop pgdir last perm n m ((a + PGSIZE) % 2^32) ((pa + PGSIZE) % 2^32)

/-- Entries for the virtual addresses from `va` on that refer to physical addresses
from `pa` on. -/
def createPageTableEntries (m : Memory) (pgdir va size pa perm : ℕ) : Except Stop (ℤ × Memory) :=
  createLoop pgdir (PGROUNDDOWN ((va + size + (2^32 - 1)) % 2^32)) perm (2^20) m (PGROUNDDOWN va) pa

/-- The loop of releaseUserPages. Where there is no page table the address jumps to
the last page before the next one. -/
def releaseLoop (L : Layout) (pgdir oldsz : ℕ) : ℕ → Memory → ℕ → Except Stop Memory
  | 0, _, _ => .error .hang
  | n + 1, m, a =>
    if a < oldsz then
      let pte := (getPageTableEntry m pgdir a false).1
      if pte = 0 then
        releaseLoop L pgdir oldsz n m (((PGADDR (PDX a + 1) 0 0 + (2^32 - PGSIZE)) % 2^32 + PGSIZE) % 2^32)
      else if m.load pte &&& PTE_P ≠ 0 then
        if PTE_ADDR (m.load pte) = 0 then .error (.panic "freePhysicalMemoryPage")
        else do
          let m' ← freePhysicalMemoryPage L m (P2V (PTE_ADDR (m.load pte)))
          releaseLoop L pgdir oldsz n (m'.store pte 0) ((a + PGSIZE) % 2^32)
      else releaseLoop L pgdir oldsz n m ((a + PGSIZE) % 2^32)
    else .ok m

/-- Deallocates user pages to bring the size from `oldsz` to `newsz`. -/
def releaseUserPages (L : Layout) (m : Memory) (pgdir oldsz newsz : ℕ) : Except Stop (ℕ × Memory) :=
  if oldsz ≤ newsz then .ok (oldsz,m)
  else do
    let m ← releaseLoop L pgdir oldsz (2^20 + 1) m (PGROUNDUP newsz)
    .ok (newsz,m)

/-- The loop of freeMemoryAndPageTable over the directory's entries. -/
def freeTables (L : Layout) (pgdir : ℕ) : List ℕ → Memory → Except Stop Memory
  | [], m => .ok m
  | i :: is, m =>
    if m.load (pgdir + 4 * i) &&& PTE_P ≠ 0 then do
      let m ← freePhysicalMemoryPage L m (P2V (PTE_ADDR (m.load (pgdir + 4 * i))))
      freeTables L pgdir is m
    else freeTables L pgdir is m

/-- Frees a page table and all the physical memory pages in its user part. -/
def freeMemoryAndPageTable (L : Layout) (m : Memory) (pgdir : ℕ) : Except Stop Memory :=
  if pgdir = 0 then .error (.panic "freeMemoryAndPageTable: no pgdir")
  else do
    let (_,m) ← releaseUserPages L m pgdir KERNBASE 0
    let m ← freeTables L pgdir (List.range NPDENTRIES) m
    freePhysicalMemoryPage L m pgdir

structure KernelRange where
  virt : ℕ
  phys_start : ℕ
  phys_end : ℕ
  perm : ℕ

/-- I/O space, kernel text, kernel data with the free memory, and devices. -/
def kernelMemoryMap (L : Layout) : List KernelRange :=
  [⟨KERNBASE,0,EXTMEM,PTE_W⟩,⟨KERNLINK,V2P KERNLINK,V2P L.data,0⟩,⟨L.data,V2P L.data,PHYSTOP,PTE_W⟩,
    ⟨DEVSPACE,DEVSPACE,0,PTE_W⟩]

def mapRanges (pgdir : ℕ) : List KernelRange → Memory → Except Stop (ℤ × Memory)
  | [], m => .ok (0,m)
  | k :: ks, m => do
    let (r,m) ← createPageTableEntries m pgdir k.virt ((k.phys_end + (2^32 - k.phys_start)) % 2^32)
      k.phys_start k.perm
    if r < 0 then .ok (-1,m) else mapRanges pgdir ks m

/-- A new directory with the kernel part of the address space, or 0. -/
def setupKernelVirtualMemory (L : Layout) (m : Memory) : Except Stop (ℕ × Memory) :=
  let (pgdir,m) := allocatePhysicalMemoryPage m
  if pgdir = 0 then .ok (0,m)
  else
    let m := m.memset pgdir 0 PGSIZE
    if DEVSPACE < P2V PHYSTOP then .error (.panic "PHYSTOP too high")
    else do
      let (r,m) ← mapRanges pgdir (kernelMemoryMap L) m
      if r < 0 then do
        let m ← freeMemoryAndPageTable L m pgdir
        .ok (0,m)
      else .ok (pgdir,m)

/-- Loads the initcode into address 0. Nobody looks whether the page was mapped. -/
def initialiseUserVirtualMemory (m : Memory) (pgdir init memorySize : ℕ) : Except Stop Memory :=
  if PGSIZE ≤ memorySize then .error (.panic "initialiseUserVirtualMemory: more than a page")
  else
    let (mem,m) := allocatePhysicalMemoryPage m
    if mem = 0 then .error .nullPointer
    else do
      let (_,m) ← createPageTableEntries (m.memset mem 0 PGSIZE) pgdir 0 PGSIZE (V2P mem) (PTE_W ||| PTE_U)
      .ok (m.memmove mem init memorySize)

def allocateLoop (L : Layout) (pgdir oldsz newsz : ℕ) : ℕ → Memory → ℕ → Except Stop (ℕ × Memory)
  | 0, _, _ => .error .hang
  | n + 1, m, a =>
    if a < newsz then
      let (mem,m) := allocatePhysicalMemoryPage m
      if mem = 0 then do
        let (_,m) ← releaseUserPages L m pgdir newsz oldsz
        .ok (0,m)
      else do
        let (r,m) ← createPageTableEntries (m.memset mem 0 PGSIZE) pgdir a PGSIZE (V2P mem) (PTE_W ||| PTE_U)
        if r < 0 then do
          let (_,m) ← releaseUserPages L m pgdir newsz oldsz
          let m ← freePhysicalMemoryPage L m mem
          .ok (0,m)
        else allocateLoop L pgdir oldsz newsz n m ((a + PGSIZE) % 2^32)
    else .ok (newsz,m)

/-- Grows the user part from `oldsz` to `newsz`; returns the new size or 0. -/
def allocateMemoryAndPageTables (L : Layout) (m : Memory) (pgdir oldsz newsz : ℕ) :
    Except Stop (ℕ × Memory) :=
  if KERNBASE ≤ newsz then .ok (0,m)
  else if newsz < oldsz then .ok (oldsz,m)
  else allocateLoop L pgdir oldsz newsz (2^20) m (PGROUNDUP oldsz)

def clearPTEU (m : Memory) (pgdir uva : ℕ) : Except Stop Memory :=
  let pte := (getPageTableEntry m pgdir uva false).1
  if pte = 0 then .error (.panic "clearPTEU") else .ok (m.store pte (m.load pte &&& (2^32 - 1 - PTE_U)))

def copyLoop (L : Layout) (pgdir MemorySize d : ℕ) : ℕ → Memory → ℕ → Except Stop (ℕ × Memory)
  | 0, _, _ => .error .hang
  | n + 1, m, i =>
    if i < MemorySize then
      let pte := (getPageTableEntry m pgdir i false).1
      if pte = 0 then .error (.panic "copyProcessPageTable: pte should exist")
      else if m.load pte &&& PTE_P = 0 then .error (.panic "copyProcessPageTable: page not present")
      else
        let pa := PTE_ADDR (m.load pte)
        let flags := PTE_FLAGS (m.load pte)
        let (mem,m) := allocatePhysicalMemoryPage m
        if mem = 0 then do
          let m ← freeMemoryAndPageTable L m d
          .ok (0,m)
        else do
          let (r,m) ← createPageTableEntries (m.memmove mem (P2V pa) PGSIZE) d i PGSIZE (V2P mem) flags
          if r < 0 then do
            let m ← freeMemoryAndPageTable L m d
            .ok (0,m)
          else copyLoop L pgdir MemorySize d n m ((i + PGSIZE) % 2^32)
    else .ok (d,m)

def copyProcessPageTable (L : Layout) (m : Memory) (pgdir MemorySize : ℕ) : Except Stop (ℕ × Memory) := do
  let (d,m) ← setupKernelVirtualMemory L m
  if d = 0 then .ok (0,m) else copyLoop L pgdir MemorySize d (2^20 + 1) m 0

end UoDOS.Paging
