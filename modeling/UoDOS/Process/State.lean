import Mathlib

/-! # Process states, the constants of param.h and calls that do not return -/
namespace UoDOS

def NPROC : ℕ := 64
def NOFILE : ℕ := 16
def NFILE : ℕ := 100
def NBUF : ℕ := 30
def MAXFATSIZE : ℕ := 10
def MAXCWDSIZE : ℕ := 200
def MAXARG : ℕ := 32

inductive ProcState
  | UNUSED
  | EMBRYO
  | SLEEPING
  | RUNNABLE
  | RUNNING
  | ZOMBIE
  deriving DecidableEq, Repr

/-- Why a call of the kernel does not return: it panics with a message, it loops
for ever, it dereferences a null pointer, it divides by zero, or it stores outside
a local array and loses its return address. -/
inductive Stop
  | panic (message : String)
  | hang
  | nullPointer
  | divideError
  | overrun
  deriving DecidableEq, Repr

end UoDOS
