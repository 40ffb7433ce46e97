import UoDOS.Process.State
import UoDOS.Shell.Tokens

/-! # The command parser of the shell

The routines of sh.c from parsecmd to nulterminate, with memory allocation that succeeds. The
pointer `*ps` is a position in the line and goes in and out of each routine.
-/
namespace UoDOS.Shell
open ByteMemory Strings Function

def MAXARGS : ℕ := 10

def O_RDONLY : ℕ := 0x000
def O_WRONLY : ℕ := 0x001
def O_CREATE : ℕ := 0x200

/-- The structures behind a `struct cmd *`. Pointers into the line are positions. -/
inductive Cmd
  | EXEC (argv eargv : Fin MAXARGS → Option ℕ)
  | REDIR (cmd : Cmd) (file efile mode fd : ℕ)
  | PIPE (left right : Cmd)
  | LIST (left right : Cmd)
  | BACK (cmd : Cmd)

def execcmd : Cmd := .EXEC (fun _ => none) (fun _ => none)

/-- The stores `cmd->argv[argc] = q` and `cmd->eargv[argc] = eq` of parseexec, where
`cmd` is the EXEC structure inside `ret`. -/
def Cmd.store (argc : ℕ) (q eq : Option ℕ) : Cmd → Except Stop Cmd
  | .EXEC argv eargv =>
    if h : argc < MAXARGS then
      .ok (.EXEC (update argv ⟨argc,h⟩ q) (update eargv ⟨argc,h⟩ eq))
    else .error .overrun
  | .REDIR cmd file efile mode fd => do
    let cmd ← cmd.store argc q eq
    .ok (.REDIR cmd file efile mode fd)
  | ret => .ok ret

variable (s : CString)

def redirect (tok : UInt8) (cmd : Cmd) (q eq : ℕ) : Cmd :=
  if tok = '<'.toUInt8 then .REDIR cmd q eq O_RDONLY 0
  else if tok = '>'.toUInt8 then .REDIR cmd q eq (O_WRONLY ||| O_CREATE) 1
  else if tok = '+'.toUInt8 then .REDIR cmd q eq (O_WRONLY ||| O_CREATE) 1
  else cmd

def parseredirs : ℕ → Cmd → ℕ → Except Stop (Cmd × ℕ)
  | 0, _, _ => .error .hang
  | n + 1, cmd, ps =>
    let (found,ps) := peek s ps ['<'.toUInt8,'>'.toUInt8]
    if found then
      let tok := gettoken s ps
      let file := gettoken s tok.ps
      if file.ret ≠ 'a'.toUInt8 then .error (.panic "missing File for redirection")
      else parseredirs n (redirect tok.ret cmd file.q file.eq) file.ps
    else .ok (cmd,ps)

/-- The loop of parseexec, with `ret`, `argc` and the position. -/
def parseargs : ℕ → Cmd → ℕ → ℕ → Except Stop (Cmd × ℕ × ℕ)
  | 0, _, _, _ => .error .hang
  | n + 1, ret, argc, ps =>
    let (found,ps) := peek s ps ['|'.toUInt8,')'.toUInt8,'&'.toUInt8,';'.toUInt8]
    if found then .ok (ret,argc,ps)
    else
      let tok := gettoken s ps
      if tok.ret = 0 then .ok (ret,argc,tok.ps)
      else if tok.ret ≠ 'a'.toUInt8 then .error (.panic "syntax")
      else do
        let ret ← ret.store argc (some tok.q) (some tok.eq)
        let argc := argc + 1
        if argc ≥ MAXARGS then .error (.panic "too many args")
        else
          let (ret,ps) ← parseredirs s n ret tok.ps
          parseargs n ret argc ps

def parsebacks : ℕ → Cmd → ℕ → Except Stop (Cmd × ℕ)
  | 0, _, _ => .error .hang
  | n + 1, cmd, ps =>
    let (found,ps) := peek s ps ['&'.toUInt8]
    if found then parsebacks n (.BACK cmd) (gettoken s ps).ps
    else .ok (cmd,ps)

mutual

def parseline : ℕ → ℕ → Except Stop (Cmd × ℕ)
  | 0, _ => .error .hang
  | n + 1, ps => do
    let (cmd,ps) ← parsepipe n ps
    let (cmd,ps) ← parsebacks s n cmd ps
    let (found,ps) := peek s ps [';'.toUInt8]
    if found then
      let (right,ps) ← parseline n (gettoken s ps).ps
      .ok (.LIST cmd right,ps)
    else .ok (cmd,ps)

def parsepipe : ℕ → ℕ → Except Stop (Cmd × ℕ)
  | 0, _ => .error .hang
  | n + 1, ps => do
    let (cmd,ps) ← parseexec n ps
    let (found,ps) := peek s ps ['|'.toUInt8]
    if found then
      let (right,ps) ← parsepipe n (gettoken s ps).ps
      .ok (.PIPE cmd right,ps)
    else .ok (cmd,ps)

def parseblock : ℕ → ℕ → Except Stop (Cmd × ℕ)
  | 0, _ => .error .hang
  | n + 1, ps =>
    let (found,ps) := peek s ps ['('.toUInt8]
    if found = false then .error (.panic "parseblock")
    else do
      let (cmd,ps) ← parseline n (gettoken s ps).ps
      let (found,ps) := peek s ps [')'.toUInt8]
      if found = false then .error (.panic "syntax - missing )")
      else parseredirs s n cmd (gettoken s ps).ps

def parseexec : ℕ → ℕ → Except Stop (Cmd × ℕ)
  | 0, _ => .error .hang
  | n + 1, ps =>
    let (found,ps) := peek s ps ['('.toUInt8]
    if found then parseblock n ps
    else do
      let (ret,ps) ← parseredirs s n execcmd ps
      let (ret,argc,ps) ← parseargs s n ret 0 ps
      let ret ← ret.store argc none none
      .ok (ret,ps)

end

def terminateArgs (argv eargv : Fin MAXARGS → Option ℕ) (i : ℕ) (line : Bytes) : Except Stop Bytes :=
  if h : i < MAXARGS then
    match argv ⟨i,h⟩ with
    | none => .ok line
    | some _ =>
      match eargv ⟨i,h⟩ with
      | none => .error .nullPointer
      | some e => terminateArgs argv eargv (i + 1) (update line e 0)
  else .error .overrun
termination_by MAXARGS - i

def nulterminate : Cmd → Bytes → Except Stop Bytes
  | .EXEC argv eargv, line => terminateArgs argv eargv 0 line
  | .REDIR cmd _ efile _ _, line => do
    let line ← nulterminate cmd line
    .ok (update line efile 0)
  | .PIPE left right, line => do
    let line ← nulterminate left line
    nulterminate right line
  | .LIST left right, line => do
    let line ← nulterminate left line
    nulterminate right line
  | .BACK cmd, line => nulterminate cmd line

def parsecmd (depth : ℕ) : Except Stop (Cmd × Bytes) := do
  let (cmd,ps) ← parseline s depth 0
  let (_,ps) := peek s ps []
  if ps ≠ s.length then .error (.panic "syntax")
  else
    let line ← nulterminate cmd s.bytes
    .ok (cmd,line)

end UoDOS.Shell
