import UoDOS.Library.Strings
import UoDOS.Memory.PhysicalMemory

/-! # Arguments of system calls

The functions of syscall.c that fetch the arguments of a call from the calling process. An int
is passed as its 32 bits, and a function that returns -1 gives none.
-/
namespace UoDOS.Kernel
open ByteMemory Strings Paging

/-- The current process as the calls see it: its size, the saved stack pointer, and the
bytes at its addresses. -/
structure UserView where
  MemorySize : ℕ
  esp : ℕ
  bytes : Bytes

def signed (w : ℕ) : ℤ := if w < 2^31 then w else w - 2^32

def fetchint (u : UserView) (addr : ℕ) : Option ℕ :=
  if u.MemorySize ≤ addr ∨ u.MemorySize < (addr + 4) % 2^32 then none
  else some (readWord u.bytes addr)

def fetchstr (u : UserView) (addr : ℕ) : Option ℕ :=
  if u.MemorySize ≤ addr then none
  else
    let s := first (fun i => u.bytes (addr + i) = 0) (u.MemorySize - addr)
    if s < u.MemorySize - addr then some s else none

def argint (u : UserView) (n : ℕ) : Option ℕ := fetchint u ((u.esp + 4 + 4 * n) % 2^32)

def argstr (u : UserView) (n : ℕ) : Option (ℕ × ℕ) :=
  match argint u n with
  | none => none
  | some addr => (fetchstr u addr).map (fun s => (addr,s))

variable {u : UserView} {addr n size i s : ℕ}

theorem fetchstr_eq_some : fetchstr u addr = some s ↔
    addr + s < u.MemorySize ∧ u.bytes (addr + s) = 0 ∧ ∀ i < s, u.bytes (addr + i) ≠ 0 := by
  have hle := first_le (fun i => u.bytes (addr + i) = 0) (u.MemorySize - addr)
  simp only [fetchstr]
  constructor
  · intro h
    split at h
    · cases h
    · split at h
      · rename_i h1 h2
        cases h
        have hf := (first_eq_iff h2).mp rfl
        simp only [decide_eq_true_eq,decide_eq_false_iff_not] at hf
        exact ⟨by omega,hf.1,hf.2⟩
      · cases h
  · rintro ⟨hl,hz,hn⟩
    have hf : first (fun i => decide (u.bytes (addr + i) = 0)) (u.MemorySize - addr) = s := by
      rw [first_eq_iff (by omega)]
      simpa using ⟨hz,hn⟩
    rw [if_neg (by omega),hf,if_pos (by omega)]

theorem argstr_eq_some {addr : ℕ} : argstr u n = some (addr,s) ↔
    argint u n = some addr ∧ fetchstr u addr = some s := by
  unfold argstr
  cases ha : argint u n with
  | none => simp
  | some a =>
    simp only [Option.map_eq_some_iff,Prod.mk.injEq,Option.some.injEq]
    constructor
    · rintro ⟨s,hs,rfl,rfl⟩
      exact ⟨rfl,hs⟩
    · rintro ⟨rfl,hs⟩
      exact ⟨s,hs,rfl,rfl⟩

end UoDOS.Kernel
