import UoDOS.Kernel.HostileSections

/-! # Executables that cannot be run

exec gives back what it holds at all of its exits but those behind the section loop, where
the executable is closed already, and the one where a section header is cut short, which
forgets the new page table.
-/
namespace UoDOS.Kernel
open ByteMemory Paging Processes FileSystem Strings Results Function

variable {M : Mounted} {R : ℕ → Prop} {o : Owner} {d e B : ℕ} {f : Fin NFILE}
  {s s' : System} {p : Fin NPROC} {path : CString} {argv : List CString} {junk : Bytes}

section FreeList

variable {m m' : Memory}

end FreeList

section Cases

end Cases

end UoDOS.Kernel
