import UoDOS.Library.FreeRunningRing
import UoDOS.Library.Transition
import UoDOS.Process.State

/-! # The console's input

The ring `input` of console.c with its indices r, w and e, which run freely over 32 bits.
-/
namespace UoDOS.Console
open FreeRunningRing Function

def INPUT_BUF : ℕ := 128

/-- `C('D')`, `C('H')`, `C('P')`, `C('U')`, and the other keys with a meaning. -/
def ctrlD : UInt8 := 0x04
def ctrlH : UInt8 := 0x08
def ctrlP : UInt8 := 0x10
def ctrlU : UInt8 := 0x15
def delete : UInt8 := 0x7F
def newline : UInt8 := 0x0A
def carriageReturn : UInt8 := 0x0D

structure Input where
  buf : ℕ → UInt8
  r : BitVec 32
  w : BitVec 32
  e : BitVec 32

def Input.at (x : Input) (i : BitVec 32) : UInt8 := x.buf (i.toNat % INPUT_BUF)

/-- The loop of `^U`, with a bound on the bytes between w and e. -/
def killLine : ℕ → Input → Input
  | 0, x => x
  | k + 1, x =>
    if x.e ≠ x.w ∧ x.at (x.e - 1) ≠ newline then killLine k { x with e := x.e - 1 } else x

def Input.key (x : Input) (c : UInt8) : Input :=
  if c = ctrlP then x
  else if c = ctrlU then killLine (count x.w x.e) x
  else if c = ctrlH ∨ c = delete then
    if x.e ≠ x.w then { x with e := x.e - 1 } else x
  else if c ≠ 0 ∧ (x.e - x.r).toNat < INPUT_BUF then
    let c := if c = carriageReturn then newline else c
    let x := { x with buf := update x.buf (x.e.toNat % INPUT_BUF) c, e := x.e + 1 }
    if c = newline ∨ c = ctrlD ∨ x.e = x.r + BitVec.ofNat 32 INPUT_BUF then { x with w := x.e } else x
  else x

inductive Ending
  | count
  | line
  | eof
  | killed
  deriving DecidableEq

/-- What a process has of consoleRead: a call for `target` bytes that sleeps with `n` of
them missing, or the value that its last call returned; `dst` are the bytes stored. -/
inductive Reader
  | idle
  | asleep (target : ℤ) (n : ℕ) (dst : List UInt8)
  | returned (target value : ℤ) (dst : List UInt8) (why : Ending)

def readLoop (killed : Bool) (target : ℤ) : ℕ → List UInt8 → Input → Input × Reader
  | 0, dst, x => (x,.returned target (target - 0) dst .count)
  | n + 1, dst, x =>
    if x.r = x.w then
      (x,if killed then .returned target (-1) dst .killed else .asleep target (n + 1) dst)
    else
      let c := x.at x.r
      let x := { x with r := x.r + 1 }
      if c = ctrlD then
        (if (n + 1 : ℤ) < target then { x with r := x.r - 1 } else x,
          .returned target (target - (n + 1)) dst .eof)
      else if c = newline then (x,.returned target (target - n) (dst ++ [c]) .line)
      else readLoop killed target n (dst ++ [c]) x

def Input.read (x : Input) (killed : Bool) (n : ℤ) : Input × Reader :=
  if 0 < n then readLoop killed n n.toNat [] x else (x,.returned n (n - n) [] .count)

/-- A device that takes keys and serves reads: a read starts with `read`, and one that
sleeps goes on with `goOn`. -/
structure Device (σ : Type) where
  key : σ → UInt8 → σ
  read : σ → Bool → ℤ → σ × Reader
  goOn : σ → Bool → ℤ → ℕ → List UInt8 → σ × Reader

inductive Event (P : Type)
  | interrupt (keys : List UInt8)
  | read (p : P) (killed : Bool) (n : ℤ)
  | goOn (p : P) (killed : Bool)

variable {P σ : Type} [DecidableEq P]

def serve (D : Device σ) (s : σ × (P → Reader)) : Event P → Option (σ × (P → Reader))
  | .interrupt keys => some (keys.foldl D.key s.1,s.2)
  | .read p killed n =>
    match s.2 p with
    | .asleep .. => none
    | _ =>
      let (x,a) := D.read s.1 killed n
      some (x,update s.2 p a)
  | .goOn p killed =>
    match s.2 p with
    | .asleep target n dst =>
      let (x,a) := D.goOn s.1 killed target n dst
      some (x,update s.2 p a)
    | _ => none

def ring : Device Input where
  key := Input.key
  read := Input.read
  goOn x killed target n dst := readLoop killed target n dst x

def Input.empty (buf : ℕ → UInt8) (i : BitVec 32) : Input := ⟨buf,i,i,i⟩

end UoDOS.Console
