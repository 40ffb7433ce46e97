import UoDOS.Kernel.Kernel

/-! # System calls on descriptors

The calls of sysfile.c that open, duplicate, use and close descriptors.
-/
namespace UoDOS.Kernel
open ByteMemory Paging Processes FileSystem Strings ProcState Function

variable (M : Mounted)

def argfd (s : System) (p : Fin NPROC) (fd : ℤ) : Option (Fin NOFILE × Fin NFILE) :=
  if h : 0 ≤ fd ∧ fd < NOFILE then
    let i : Fin NOFILE := ⟨fd.toNat,by omega⟩
    ((s.image p).OpenFile i).map (fun f => (i,f))
  else none

def fdalloc (s : System) (p : Fin NPROC) (f : Fin NFILE) : Option (Fin NOFILE) × System :=
  match (List.finRange NOFILE).find? (fun fd => (s.image p).OpenFile fd = none) with
  | some fd => (some fd,s.setOpenFile p fd (some f))
  | none => (none,s)

def sys_dup (s : System) (p : Fin NPROC) (fd : ℤ) : Except Stop System :=
  match argfd s p fd with
  | none => .ok s
  | some (_,f) =>
    match fdalloc s p f with
    | (none,s) => .ok s
    | (some _,s) => dupFile s f

def sys_close (s : System) (p : Fin NPROC) (fd : ℤ) : Except Stop System :=
  match argfd s p fd with
  | none => .ok s
  | some (i,f) => closeFile M (s.setOpenFile p i none) f

def O_WRONLY : ℕ := 1
def O_RDWR : ℕ := 2

def sys_open (s : System) (p : Fin NPROC) (path : Option CString) (omode : ℕ) (junk : Bytes) :
    Except Stop System :=
  match path with
  | none => .ok s
  | some path => do
    let (f,files) ← fsFat12Open M s.files (s.image p).Cwd path false junk
    let s := { s with files := files }
    match f with
    | none => .ok s
    | some f =>
      match fdalloc s p f with
      | (none,s) => closeFile M s f
      | (some _,s) => .ok { s with files := update s.files f { s.files f with
          Readable := omode &&& O_WRONLY = 0
          Writable := omode &&& O_WRONLY ≠ 0 ∨ omode &&& O_RDWR ≠ 0 } }

/-- The files of both ends, or none if a resource was missing. -/
def pipealloc (s : System) : Except Stop (Option (Fin NFILE × Fin NFILE) × System) :=
  match allocateFileStructure s.files with
  | (none,_) => .ok (none,s)
  | (some f0,files) =>
    match allocateFileStructure files with
    | (none,files) => do
      let s ← closeFile M { s with files := files } f0
      .ok (none,s)
    | (some f1,files) =>
      let (p,memory) := allocatePhysicalMemoryPage s.memory
      let s := { s with files := files, memory := memory }
      if p = 0 then do
        let s ← closeFile M s f0
        let s ← closeFile M s f1
        .ok (none,s)
      else
        let files := update s.files f0 { s.files f0 with
          type := .FD_PIPE, Readable := true, Writable := false, Pipe := p }
        let files := update files f1 { files f1 with
          type := .FD_PIPE, Readable := false, Writable := true, Pipe := p }
        .ok (some (f0,f1),{ s with files := files, pipes := update s.pipes p ⟨true,true⟩ })

/-- `fetched` says whether the address of the two results was good. -/
def sys_pipe (s : System) (p : Fin NPROC) (fetched : Bool) : Except Stop System :=
  if fetched = false then .ok s
  else do
    let (r,s) ← pipealloc M s
    match r with
    | none => .ok s
    | some (rf,wf) =>
      match fdalloc s p rf with
      | (none,s) => do
        let s ← closeFile M s rf
        closeFile M s wf
      | (some fd0,s) =>
        match fdalloc s p wf with
        | (none,s) => do
          let s ← closeFile M (s.setOpenFile p fd0 none) rf
          closeFile M s wf
        | (some _,s) => .ok s

/-- `n` is the number of bytes to read, if it and the buffer could be fetched. -/
def sys_read (s : System) (p : Fin NPROC) (fd : ℤ) (n : Option ℕ) (answer : ℤ × List UInt8) :
    Except Stop (ℤ × System) :=
  match argfd s p fd, n with
  | some (_,f), some n => do
    let (r,_,files) ← fileRead M s.files f n answer
    .ok (r,{ s with files := files })
  | _, _ => .ok (-1,s)

def sys_write (s : System) (p : Fin NPROC) (fd : ℤ) (n : Option ℕ) (answer : ℤ) :
    Except Stop (ℤ × System) :=
  match argfd s p fd, n with
  | some (_,f), some _ => do
    let r ← fileWrite s.files f answer
    .ok (r,s)
  | _, _ => .ok (-1,s)

def sys_fstat (s : System) (p : Fin NPROC) (fd : ℤ) (fetched : Bool) : ℤ × System :=
  match argfd s p fd, fetched with
  | some (_,f), true => (fileStat s.files f,s)
  | _, _ => (-1,s)

end UoDOS.Kernel
