import UoDOS.Library.CircularList
import UoDOS.Library.Transition
import UoDOS.Process.State

/-! # The buffer cache of bio.c

A move is one lock-protected segment: the search of diskBufferGet under the cache's spinlock,
the sleeplockAcquire that follows it, the sleeplockRelease at the start of diskBufferRelease and
its rest under the spinlock.
-/
namespace UoDOS.Buffers
open CircularList Function

def B_VALID : BitVec 32 := 0x2
def B_DIRTY : BitVec 32 := 0x4

structure DiskBuffer where
  Flags : BitVec 32
  Device : BitVec 32
  SectorNumber : BitVec 32
  Locked : Bool
  ReferenceCount : ℕ

def DiskBuffer.key (x : DiskBuffer) : BitVec 32 × BitVec 32 := (x.Device,x.SectorNumber)

structure Cache where
  buffer : Fin NBUF → DiskBuffer
  links : Links (Fin NBUF)

def Cache.modify (c : Cache) (b : Fin NBUF) (f : DiskBuffer → DiskBuffer) : Cache :=
  { c with buffer := update c.buffer b (f (c.buffer b)) }

/-- The zero-initialised array, each buffer inserted behind `Head` in turn. -/
def diskBufferCacheInitialise : Cache where
  buffer _ := ⟨0,0,0,false,0⟩
  links := (List.finRange NBUF).foldl Links.insertFront ⟨fun _ => none,fun _ => none⟩

/-- The search of diskBufferGet: first for the sector from the most recently used
end, then for an unused buffer from the other end. -/
def diskBufferGet (c : Cache) (dev sectorNumber : BitVec 32) : Except Stop (Fin NBUF × Cache) :=
  match scan c.links.Next (fun b => (c.buffer b).Device == dev && (c.buffer b).SectorNumber == sectorNumber)
      (NBUF + 1) (c.links.Next none) with
  | none => .error .hang
  | some (some b) => .ok (b,c.modify b fun x => { x with ReferenceCount := x.ReferenceCount + 1 })
  | some none =>
    match scan c.links.Previous (fun b => (c.buffer b).ReferenceCount == 0 && (c.buffer b).Flags &&& B_DIRTY == 0)
        (NBUF + 1) (c.links.Previous none) with
    | none => .error .hang
    | some (some b) => .ok (b,c.modify b fun x =>
        { x with Device := dev, SectorNumber := sectorNumber, Flags := 0, ReferenceCount := 1 })
    | some none => .error (.panic "diskBufferGet: no buffers")

def diskBufferUnlock (c : Cache) (b : Fin NBUF) : Except Stop Cache :=
  if (c.buffer b).Locked = false then .error (.panic "diskBufferRelease")
  else .ok (c.modify b fun x => { x with Locked := false })

def diskBufferPut (c : Cache) (b : Fin NBUF) : Cache :=
  let c := c.modify b fun x => { x with ReferenceCount := x.ReferenceCount - 1 }
  if (c.buffer b).ReferenceCount = 0 then { c with links := (c.links.unlink b).insertFront b } else c

inductive Place
  | idle
  | wants (b : Fin NBUF)
  | drops (b : Fin NBUF)
  deriving DecidableEq

structure User where
  place : Place
  holds : Fin NBUF → Bool

def User.goTo (u : User) (x : Place) : User := { u with place := x }

structure System (P : Type) where
  cache : Cache
  user : P → User

inductive Move (P : Type)
  | get (p : P) (dev sectorNumber : BitVec 32)
  | lock (p : P)
  | write (p : P) (b : Fin NBUF)
  | complete (b : Fin NBUF)
  | release (p : P) (b : Fin NBUF)
  | put (p : P)

variable {P : Type} [DecidableEq P]

def System.set (s : System P) (c : Cache) (p : P) (u : User) : System P := ⟨c,update s.user p u⟩

/-- `write` is diskBufferWrite up to the disk driver, `complete` the interrupt that
ends a transfer of a buffer locked for it. A process releases what it holds. -/
def step (s : System P) : Move P → Option (System P)
  | .get p dev sectorNumber =>
    if (s.user p).place = .idle then
      match diskBufferGet s.cache dev sectorNumber with
      | .ok (b,c) => some (s.set c p ((s.user p).goTo (.wants b)))
      | .error _ => none
    else none
  | .lock p =>
    match (s.user p).place with
    | .wants b =>
      if (s.cache.buffer b).Locked = false then
        some (s.set (s.cache.modify b fun x => { x with Locked := true }) p
          ⟨.idle,update (s.user p).holds b true⟩)
      else none
    | _ => none
  | .write p b =>
    if (s.user p).holds b = true then
      some ⟨s.cache.modify b fun x => { x with Flags := x.Flags ||| B_DIRTY },s.user⟩
    else none
  | .complete b =>
    if (s.cache.buffer b).Locked = true then
      some ⟨s.cache.modify b fun x => { x with Flags := (x.Flags ||| B_VALID) &&& ~~~B_DIRTY },s.user⟩
    else none
  | .release p b =>
    if (s.user p).place = .idle ∧ (s.user p).holds b = true then
      match diskBufferUnlock s.cache b with
      | .ok c => some (s.set c p ⟨.drops b,update (s.user p).holds b false⟩)
      | .error _ => none
    else none
  | .put p =>
    match (s.user p).place with
    | .drops b => some (s.set (diskBufferPut s.cache b) p ((s.user p).goTo .idle))
    | _ => none

def initialSystem (P : Type) : System P := ⟨diskBufferCacheInitialise,fun _ => ⟨.idle,fun _ => false⟩⟩

section Fields
variable (c : Cache) (b : Fin NBUF) (f : DiskBuffer → DiskBuffer)

@[simp] theorem modify_links : (c.modify b f).links = c.links := rfl

@[simp] theorem modify_buffer (a : Fin NBUF) :
    (c.modify b f).buffer a = if a = b then f (c.buffer b) else c.buffer a := by
  by_cases h : a = b
  · subst h; simp [Cache.modify]
  · simp [Cache.modify,h]

@[simp] theorem goTo_place (u : User) (x : Place) : (u.goTo x).place = x := rfl

@[simp] theorem goTo_holds (u : User) (x : Place) : (u.goTo x).holds = u.holds := rfl

@[simp] theorem set_cache (s : System P) (p : P) (u : User) : (s.set c p u).cache = c := rfl

@[simp] theorem set_user (s : System P) (p : P) (u : User) :
    (s.set c p u).user = update s.user p u := rfl

end Fields

inductive Effect (s : System P) : Move P → System P → Prop
  | get {p : P} {dev sectorNumber : BitVec 32} {b : Fin NBUF} {c : Cache} (hp : (s.user p).place = .idle)
      (hg : diskBufferGet s.cache dev sectorNumber = .ok (b,c)) :
      Effect s (.get p dev sectorNumber) (s.set c p ((s.user p).goTo (.wants b)))
  | lock {p : P} {b : Fin NBUF} (hp : (s.user p).place = .wants b) (hl : (s.cache.buffer b).Locked = false) :
      Effect s (.lock p) (s.set (s.cache.modify b fun x => { x with Locked := true }) p
        ⟨.idle,update (s.user p).holds b true⟩)
  | write {p : P} {b : Fin NBUF} (hh : (s.user p).holds b = true) :
      Effect s (.write p b) ⟨s.cache.modify b fun x => { x with Flags := x.Flags ||| B_DIRTY },s.user⟩
  | complete {b : Fin NBUF} (hl : (s.cache.buffer b).Locked = true) : Effect s (.complete b)
      ⟨s.cache.modify b fun x => { x with Flags := (x.Flags ||| B_VALID) &&& ~~~B_DIRTY },s.user⟩
  | release {p : P} {b : Fin NBUF} (hp : (s.user p).place = .idle) (hh : (s.user p).holds b = true) :
      Effect s (.release p b) (s.set (s.cache.modify b fun x => { x with Locked := false }) p
        ⟨.drops b,update (s.user p).holds b false⟩)
  | put {p : P} {b : Fin NBUF} (hp : (s.user p).place = .drops b) :
      Effect s (.put p) (s.set (diskBufferPut s.cache b) p ((s.user p).goTo .idle))

theorem effect_of_step {s t : System P} {m : Move P} (h : step s m = some t) : Effect s m t := by
  cases m with
  | get p dev sectorNumber =>
    simp only [step] at h
    split_ifs at h with hp
    split at h
    · cases h
      exact .get hp ‹_›
    · cases h
  | lock p =>
    simp only [step] at h
    split at h
    · split_ifs at h with hl
      cases h
      exact .lock ‹_› hl
    · cases h
  | write p b =>
    simp only [step] at h
    split_ifs at h with hh
    cases h
    exact .write hh
  | complete b =>
    simp only [step] at h
    split_ifs at h with hl
    cases h
    exact .complete hl
  | release p b =>
    simp only [step,diskBufferUnlock] at h
    split_ifs at h with hp hl
    cases h
    exact .release hp.1 hp.2
  | put p =>
    simp only [step] at h
    split at h
    · cases h
      exact .put ‹_›
    · cases h

end UoDOS.Buffers
