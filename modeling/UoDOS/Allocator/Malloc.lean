import UoDOS.Process.State
import UoDOS.Library.Extents

/-! # The memory allocator of user programs

free, morecore and malloc of umalloc.c. Headers are kept by their addresses. A loop has a bound
on its rounds, and `hang` stands for going beyond it.
-/
namespace UoDOS.Allocator
open Extents Function

structure Header where
  ptr : ℕ
  size : ℕ

structure Arena where
  heap : ℕ → Header
  freep : ℕ
  regions : List Extent

def advance (p n : ℕ) : ℕ := (p + 8 * n) % 2^32

namespace Arena

def setPtr (a : Arena) (p q : ℕ) : Arena :=
  { a with heap := update a.heap p { a.heap p with ptr := q } }

def setSize (a : Arena) (p n : ℕ) : Arena :=
  { a with heap := update a.heap p { a.heap p with size := n } }

end Arena

def findBefore (a : Arena) (bp : ℕ) : ℕ → ℕ → Except Stop ℕ
  | 0, _ => .error .hang
  | n + 1, p =>
    if bp > p ∧ bp < (a.heap p).ptr then .ok p
    else if p ≥ (a.heap p).ptr ∧ (bp > p ∨ bp < (a.heap p).ptr) then .ok p
    else findBefore a bp n (a.heap p).ptr

/-- The first half of what free does behind its loop: `bp` gets its successor, or
takes it in. -/
def joinUpper (a : Arena) (bp p : ℕ) : Arena :=
  let next := (a.heap p).ptr
  if advance bp (a.heap bp).size = next then
    (a.setSize bp (((a.heap bp).size + (a.heap next).size) % 2^32)).setPtr bp (a.heap next).ptr
  else a.setPtr bp next

/-- The second half: `p` gets `bp` as its successor, or takes it in. -/
def joinLower (a : Arena) (bp p : ℕ) : Arena :=
  if advance p (a.heap p).size = bp then
    (a.setSize p (((a.heap p).size + (a.heap bp).size) % 2^32)).setPtr p (a.heap bp).ptr
  else a.setPtr p bp

def free (n : ℕ) (a : Arena) (ap : ℕ) : Except Stop Arena := do
  let bp := (ap + (2^32 - 8)) % 2^32
  let p ← findBefore a bp n a.freep
  .ok { joinLower (joinUpper a bp p) bp p with freep := p }

def moreUnits (nu : ℕ) : ℕ := if nu < 4096 then 4096 else nu

/-- `sbrk` is what the call of sbrk returns, with none for -1. The result is the
pointer, which is 0 if there is no memory. -/
def morecore (n : ℕ) (sbrk : Option ℕ) (a : Arena) (nu : ℕ) : Except Stop (ℕ × Arena) :=
  match sbrk with
  | none => .ok (0,a)
  | some hp => do
    let a := { a with regions := ⟨hp,hp + 8 * moreUnits nu⟩ :: a.regions }
    let a ← free n (a.setSize hp (moreUnits nu)) (advance hp 1)
    .ok (a.freep,a)

/-- malloc once `p` is large enough: the whole block, or its upper end. -/
def takeBlock (a : Arena) (nunits prevp p : ℕ) : ℕ × Arena :=
  if (a.heap p).size = nunits then
    (advance p 1,{ a.setPtr prevp (a.heap p).ptr with freep := prevp })
  else
    let a := a.setSize p ((a.heap p).size - nunits)
    let q := advance p (a.heap p).size
    (advance q 1,{ a.setSize q nunits with freep := prevp })

/-- The loop of malloc, with the number of calls of sbrk that it has made. -/
def search (nunits : ℕ) (sbrk : ℕ → Option ℕ) :
    ℕ → ℕ → Arena → ℕ → ℕ → Except Stop (Option ℕ × Arena)
  | 0, _, _, _, _ => .error .hang
  | n + 1, calls, a, prevp, p =>
    if (a.heap p).size ≥ nunits then
      let (ap,a) := takeBlock a nunits prevp p
      .ok (some ap,a)
    else if p = a.freep then do
      let (p,a) ← morecore n (sbrk calls) a nunits
      if p = 0 then .ok (none,a)
      else search nunits sbrk n (calls + 1) a p (a.heap p).ptr
    else search nunits sbrk n calls a p (a.heap p).ptr

def units (nbytes : ℕ) : ℕ := (nbytes + 8 - 1) % 2^32 / 8 + 1

/-- `base` is the address of the static Header, and `sbrk` what each call of sbrk
returns. -/
def malloc (base n : ℕ) (sbrk : ℕ → Option ℕ) (a : Arena) (nbytes : ℕ) :
    Except Stop (Option ℕ × Arena) :=
  let a := if a.freep = 0 then { a with heap := update a.heap base ⟨base,0⟩, freep := base } else a
  search (units nbytes) sbrk n 0 a a.freep (a.heap a.freep).ptr

end UoDOS.Allocator
