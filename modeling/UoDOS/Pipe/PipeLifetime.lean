import UoDOS.Library.Transition
import UoDOS.Library.References
import UoDOS.Kernel.Kernel

/-! # The life of a pipe's page

The calls of several processes on descriptors, in steps that each hold one lock: that of the
file table, of a pipe, of the process table or of the free pages.
-/
namespace UoDOS.PipeLifetime
open FileSystem Transition Function
open Kernel (PipeEnds)
open Processes (initproc)
open References (holders)

inductive Status
  | unused
  | embryo
  | live
  | zombie
  deriving DecidableEq

/-- What is left to do of a fileClose: all of it, pipeclose, or freeing the page. -/
inductive Cleanup
  | close (f : Fin NFILE)
  | pipeclose (pipe : ℕ) (writable : Bool)
  | free (pipe : ℕ)
  deriving DecidableEq

inductive Control
  | user
  /-- pipealloc with its first File, -/
  | pipeSecond (f0 : Fin NFILE)
  /-- with both, -/
  | pipePage (f0 f1 : Fin NFILE)
  /-- and sys_pipe after it -/
  | pipeInstall (rf wf : Fin NFILE)
  /-- files to close, then the loop of exit at `next` if there is one -/
  | closing (todo : List Cleanup) (next : Option ℕ)
  /-- the loop of exit -/
  | exiting (i : ℕ)
  /-- piperead or pipewrite -/
  | transfer (fd : Fin NOFILE) (pipe : ℕ)
  /-- allocateProcess before it has a kernel stack, -/
  | opening (np : Fin NPROC)
  /-- and when it shares the console -/
  | sharing (np : Fin NPROC) (consoleDevice : Fin NFILE) (fd : Fin NOFILE)
  /-- fork before copyProcessPageTable, -/
  | copying (np : Fin NPROC)
  /-- and its loop -/
  | duplicating (np : Fin NPROC) (i : ℕ)
  deriving DecidableEq

/-- `freed` counts how often the page of each pipe has been freed. -/
structure System where
  files : FileTable
  OpenFile : Fin NPROC → Fin NOFILE → Option (Fin NFILE)
  status : Fin NPROC → Status
  control : Fin NPROC → Control
  pipes : ℕ → PipeEnds
  made : ℕ
  freed : ℕ → ℕ

inductive Move
  | pipe (p : Fin NPROC)
  | dup (p : Fin NPROC) (fd : Fin NOFILE)
  | close (p : Fin NPROC) (fd : Fin NOFILE)
  | read (p : Fin NPROC) (fd : Fin NOFILE)
  | write (p : Fin NPROC) (fd : Fin NOFILE)
  | fork (p np : Fin NPROC)
  | exit (p : Fin NPROC)
  | reap (p : Fin NPROC)
  | run (p : Fin NPROC) (choice : Bool)

def System.goto (s : System) (p : Fin NPROC) (c : Control) : System :=
  { s with control := update s.control p c }

def System.setOpenFile (s : System) (p : Fin NPROC) (fd : Fin NOFILE) (f : Option (Fin NFILE)) : System :=
  { s with OpenFile := update s.OpenFile p (update (s.OpenFile p) fd f) }

def System.setStatus (s : System) (p : Fin NPROC) (x : Status) : System :=
  { s with status := update s.status p x }

def System.Ready (s : System) (p : Fin NPROC) : Prop := s.status p = .live ∧ s.control p = .user

instance (s : System) (p : Fin NPROC) : Decidable (s.Ready p) := inferInstanceAs (Decidable (_ ∧ _))

def fdalloc (OpenFile : Fin NOFILE → Option (Fin NFILE)) : Option (Fin NOFILE) :=
  (List.finRange NOFILE).find? (fun fd => OpenFile fd = none)

/-- What fileClose does after its critical section; fsFat12Close only changes the
local copy of the File. -/
def afterClose : Option File → List Cleanup
  | some ff => if ff.type = .FD_PIPE then [.pipeclose ff.Pipe ff.Writable] else []
  | none => []

/-- fileClose up to the end of its critical section, with what then remains. -/
def closeFile (s : System) (p : Fin NPROC) (f : Fin NFILE) (todo : List Cleanup) (next : Option ℕ) :
    Option System :=
  match fileClose s.files f with
  | .ok (files,ff) => some ({ s with files := files }.goto p (.closing (afterClose ff ++ todo) next))
  | .error _ => none

def pipeFiles (t : FileTable) (f0 f1 : Fin NFILE) (pipe : ℕ) : FileTable :=
  let t0 := update t f0
    { t f0 with type := .FD_PIPE, Readable := true, Writable := false, Pipe := pipe }
  update t0 f1 { t0 f1 with type := .FD_PIPE, Readable := false, Writable := true, Pipe := pipe }

def consoleFile (x : File) : File :=
  { x with type := .FD_DEVICE, DeviceID := 0, Readable := true, Writable := true }

theorem stdin_lt : 0 < NOFILE := by decide

theorem stdout_lt : 1 < NOFILE := by decide

theorem stderr_lt : 2 < NOFILE := by decide

def stdin : Fin NOFILE := ⟨0,stdin_lt⟩

def stdout : Fin NOFILE := ⟨1,stdout_lt⟩

def stderr : Fin NOFILE := ⟨2,stderr_lt⟩

def install (s : System) (p : Fin NPROC) (rf wf : Fin NFILE) : System :=
  match fdalloc (s.OpenFile p) with
  | none => s.goto p (.closing [.close rf,.close wf] none)
  | some fd0 =>
    match fdalloc (update (s.OpenFile p) fd0 (some rf)) with
    | none => s.goto p (.closing [.close rf,.close wf] none)
    | some fd1 => ((s.setOpenFile p fd0 (some rf)).setOpenFile p fd1 (some wf)).goto p .user

/-- The process goes on. `choice` is whether there was memory, or whether a transfer
sleeps and goes through its loop again. With no File left for the console of a new
process the kernel follows a null pointer, and the run ends. -/
def run (s : System) (p : Fin NPROC) (choice : Bool) : Option System :=
  match s.control p with
  | .user => none
  | .pipeSecond f0 =>
    match allocateFileStructure s.files with
    | (none,_) => some (s.goto p (.closing [.close f0] none))
    | (some f1,files) => some ({ s with files := files }.goto p (.pipePage f0 f1))
  | .pipePage f0 f1 =>
    if choice then
      some ({ s with
        files := pipeFiles s.files f0 f1 s.made
        pipes := update s.pipes s.made ⟨true,true⟩
        made := s.made + 1 }.goto p (.pipeInstall f0 f1))
    else some (s.goto p (.closing [.close f0,.close f1] none))
  | .pipeInstall rf wf => some (install s p rf wf)
  | .closing [] none => some (s.goto p .user)
  | .closing [] (some i) => some (s.goto p (.exiting i))
  | .closing (.close f :: todo) next => closeFile s p f todo next
  | .closing (.pipeclose n w :: todo) next =>
    let ends := (s.pipes n).close w
    let free : List Cleanup := if ends.ReadOpen = false ∧ ends.WriteOpen = false then [.free n] else []
    some ({ s with pipes := update s.pipes n ends }.goto p (.closing (free ++ todo) next))
  | .closing (.free n :: todo) next =>
    some ({ s with freed := update s.freed n (s.freed n + 1) }.goto p (.closing todo next))
  | .exiting i =>
    if h : i < NOFILE then
      match s.OpenFile p ⟨i,h⟩ with
      | some f => closeFile (s.setOpenFile p ⟨i,h⟩ none) p f [] (some (i + 1))
      | none => some (s.goto p (.exiting (i + 1)))
    else some ((s.setStatus p .zombie).goto p .user)
  | .transfer _ _ => if choice then some s else some (s.goto p .user)
  | .opening np =>
    if choice then
      match allocateFileStructure s.files with
      | (some c,files) =>
        some (({ s with files := update files c (consoleFile (files c)) }.setOpenFile np stdin
          (some c)).goto p (.sharing np c stdout))
      | (none,_) => none
    else some ((s.setStatus np .unused).goto p .user)
  | .sharing np c fd =>
    match fileDup s.files c with
    | .ok files =>
      some (({ s with files := files }.setOpenFile np fd (some c)).goto p
        (if fd = stdout then .sharing np c stderr else .copying np))
    | .error _ => none
  | .copying np =>
    if choice then some (s.goto p (.duplicating np 0)) else some ((s.setStatus np .unused).goto p .user)
  | .duplicating np i =>
    if h : i < NOFILE then
      match s.OpenFile p ⟨i,h⟩ with
      | some f =>
        match fileDup s.files f with
        | .ok files =>
          some (({ s with files := files }.setOpenFile np ⟨i,h⟩ (some f)).goto p (.duplicating np (i + 1)))
        | .error _ => none
      | none => some (s.goto p (.duplicating np (i + 1)))
    else some ((s.setStatus np .live).goto p .user)

def step (s : System) : Move → Option System
  | .pipe p =>
    if s.Ready p then
      match allocateFileStructure s.files with
      | (none,_) => some s
      | (some f0,files) => some ({ s with files := files }.goto p (.pipeSecond f0))
    else none
  | .dup p fd =>
    if s.Ready p then
      match s.OpenFile p fd, fdalloc (s.OpenFile p) with
      | some f, some fd' =>
        match fileDup s.files f with
        | .ok files => some ({ s with files := files }.setOpenFile p fd' (some f))
        | .error _ => none
      | _, _ => some s
    else none
  | .close p fd =>
    if s.Ready p then
      match s.OpenFile p fd with
      | some f => closeFile (s.setOpenFile p fd none) p f [] none
      | none => some s
    else none
  | .read p fd =>
    if s.Ready p then
      match s.OpenFile p fd with
      | some f =>
        if (s.files f).Readable ∧ (s.files f).type = .FD_PIPE then
          some (s.goto p (.transfer fd (s.files f).Pipe))
        else some s
      | none => some s
    else none
  | .write p fd =>
    if s.Ready p then
      match s.OpenFile p fd with
      | some f =>
        if (s.files f).Writable ∧ (s.files f).type = .FD_PIPE then
          some (s.goto p (.transfer fd (s.files f).Pipe))
        else some s
      | none => some s
    else none
  | .fork p np =>
    if s.Ready p ∧ s.status np = .unused then some ((s.setStatus np .embryo).goto p (.opening np)) else none
  | .exit p => if s.Ready p ∧ p ≠ initproc then some (s.goto p (.exiting 0)) else none
  | .reap p => if s.status p = .zombie then some (s.setStatus p .unused) else none
  | .run p choice => run s p choice

def slots (OpenFile : Fin NPROC → Fin NOFILE → Option (Fin NFILE)) (k : Fin NPROC × Fin NOFILE) :
    Option (Fin NFILE) :=
  OpenFile k.1 k.2

/-- No call is under way and there is no pipe yet; files and devices may be open. -/
structure Initial (s : System) : Prop where
  control : ∀ p, s.control p = .user
  status : ∀ p, s.status p ≠ .embryo
  closed : ∀ p fd, s.status p ≠ .live → s.OpenFile p fd = none
  counts : ∀ f, (s.files f).ReferenceCount = holders (slots s.OpenFile) f
  free : ∀ f, (s.files f).type = .FD_NONE ↔ (s.files f).ReferenceCount = 0
  noPipe : ∀ f, (s.files f).type ≠ .FD_PIPE
  made : s.made = 0
  freed : ∀ n, s.freed n = 0

def IsPipe (x : File) (pipe : ℕ) : Prop := x.type = .FD_PIPE ∧ x.Pipe = pipe

def Names (s : System) (p : Fin NPROC) (fd : Fin NOFILE) (pipe : ℕ) : Prop :=
  ∃ f, s.OpenFile p fd = some f ∧ IsPipe (s.files f) pipe

/-- The call of a process has an end of the pipe to install or to close, or its page
to free. -/
def InCall (s : System) (p : Fin NPROC) (pipe : ℕ) : Prop :=
  match s.control p with
  | .pipeInstall rf wf => IsPipe (s.files rf) pipe ∨ IsPipe (s.files wf) pipe
  | .closing todo _ => (∃ f, .close f ∈ todo ∧ IsPipe (s.files f) pipe) ∨
      (∃ w, .pipeclose pipe w ∈ todo) ∨ .free pipe ∈ todo
  | _ => False

/-- The next step of the process is one of piperead, pipewrite or pipeclose. -/
def Control.Touches : Control → ℕ → Prop
  | .transfer _ n, pipe => n = pipe
  | .closing (.pipeclose n _ :: _) _, pipe => n = pipe
  | _, _ => False

def Control.Frees : Control → ℕ → Prop
  | .closing (.free n :: _) _, pipe => n = pipe
  | _, _ => False

end UoDOS.PipeLifetime
