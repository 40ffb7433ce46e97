import UoDOS.Library.ByteMemory
import UoDOS.Process.State

/-! # Physical pages and the allocator of kalloc.c

Addresses are 32-bit numbers with their arithmetic reduced explicitly.
-/
namespace UoDOS.Paging
open ByteMemory

def PGSIZE : ℕ := 4096
def EXTMEM : ℕ := 0x100000
def PHYSTOP : ℕ := 0xE000000
def DEVSPACE : ℕ := 0xFE000000
def KERNBASE : ℕ := 0x80000000
def KERNLINK : ℕ := KERNBASE + EXTMEM

def V2P (a : ℕ) : ℕ := (2^32 - KERNBASE + a) % 2^32
def P2V (a : ℕ) : ℕ := (KERNBASE + a) % 2^32

def PGROUNDDOWN (a : ℕ) : ℕ := a &&& 0xFFFFF000
def PGROUNDUP (size : ℕ) : ℕ := (size + PGSIZE - 1) % 2^32 &&& 0xFFFFF000

/-- The two linker symbols of kernel.ld: the page-aligned start of the data segment
behind a non-empty text segment, and the first address after the kernel. -/
structure Layout where
  data : ℕ
  kernelEnd : ℕ
  data_aligned : data % PGSIZE = 0
  data_above : KERNLINK < data
  kernelEnd_above : data ≤ kernelEnd
  kernelEnd_below : kernelEnd < P2V PHYSTOP

structure Memory where
  ram : Bytes
  FreeList : ℕ

def Memory.load (m : Memory) (v : ℕ) : ℕ := readWord m.ram (V2P v)

def Memory.store (m : Memory) (v x : ℕ) : Memory := { m with ram := writeWord m.ram (V2P v) x }

def Memory.memset (m : Memory) (v : ℕ) (c : UInt8) (n : ℕ) : Memory :=
  { m with ram := fill m.ram (V2P v) n c }

def Memory.memmove (m : Memory) (dst src n : ℕ) : Memory :=
  { m with ram := move m.ram (V2P dst) (V2P src) n }

def Memory.write (m : Memory) (v : ℕ) (data : List UInt8) : Memory :=
  { m with ram := ByteMemory.write m.ram (V2P v) data }

@[simp] theorem store_freeList (m : Memory) (v x : ℕ) : (m.store v x).FreeList = m.FreeList := rfl

@[simp] theorem memset_freeList (m : Memory) (v : ℕ) (c : UInt8) (n : ℕ) :
    (m.memset v c n).FreeList = m.FreeList := rfl

@[simp] theorem memmove_freeList (m : Memory) (dst src n : ℕ) :
    (m.memmove dst src n).FreeList = m.FreeList := rfl

@[simp] theorem write_freeList (m : Memory) (v : ℕ) (data : List UInt8) :
    (m.write v data).FreeList = m.FreeList := rfl

def freePhysicalMemoryPage (L : Layout) (m : Memory) (v : ℕ) : Except Stop Memory :=
  if v % PGSIZE ≠ 0 ∨ v < L.kernelEnd ∨ PHYSTOP ≤ V2P v then .error (.panic "freePhysicalMemoryPage")
  else
    let m := m.memset v 1 PGSIZE
    .ok { m.store v m.FreeList with FreeList := v }

def allocatePhysicalMemoryPage (m : Memory) : ℕ × Memory :=
  if m.FreeList = 0 then (0,m) else (m.FreeList,{ m with FreeList := m.load m.FreeList })

/-- The loop of freeMemoryRange, with a bound on its iterations. -/
def freeLoop (L : Layout) (vend : ℕ) : ℕ → Memory → ℕ → Except Stop Memory
  | 0, _, _ => .error .hang
  | n + 1, m, p =>
    if (p + PGSIZE) % 2^32 ≤ vend then do
      let m ← freePhysicalMemoryPage L m p
      freeLoop L vend n m ((p + PGSIZE) % 2^32)
    else .ok m

def freeMemoryRange (L : Layout) (m : Memory) (vstart vend : ℕ) : Except Stop Memory :=
  freeLoop L vend (2^20) m (PGROUNDUP vstart)

end UoDOS.Paging
