import UoDOS.Buffer.BufferRecency

/-! # What diskBufferRead returns when the drive reports errors

The cache with the bytes of its buffers, the bytes of the drive and the driver of ide.c.
-/
namespace UoDOS.Buffers
open CircularList Transition Function

def BSIZE : ℕ := 512

abbrev Sector := Fin BSIZE → UInt8

/-- What the drive reports for a command; `left` is what a failed write leaves. -/
inductive Report
  | done
  | failed (left : Sector)

inductive Stage
  | free
  | searching (dev sectorNumber : BitVec 32)
  | locked (b : Fin NBUF) (dev sectorNumber : BitVec 32)
  | reading (b : Fin NBUF) (dev sectorNumber : BitVec 32)
  | returned (b : Fin NBUF) (dev sectorNumber : BitVec 32)
  | writing (b : Fin NBUF)

def Stage.idle : Stage → Bool
  | .free | .returned .. => true
  | _ => false

def Stage.transfers : Stage → Fin NBUF → Prop
  | .reading b _ _, a | .writing b, a => a = b
  | _, _ => False

structure Disk (P : Type) where
  system : System P
  Data : Fin NBUF → Sector
  content : BitVec 32 × BitVec 32 → Sector
  queued : Fin NBUF → Bool
  stage : P → Stage

inductive DiskMove (P : Type)
  | get (p : P) (dev sectorNumber : BitVec 32)
  | lock (p : P)
  | test (p : P)
  | write (p : P) (b : Fin NBUF) (d : Sector)
  | interrupt (b : Fin NBUF) (r : Report)
  | finish (p : P)
  | release (p : P) (b : Fin NBUF)
  | put (p : P)

variable {P : Type} [DecidableEq P]

def Disk.goto (s : Disk P) (p : P) (x : Stage) : Disk P := { s with stage := update s.stage p x }

def ideReadWrite (havedisk1 : Bool) (s : Disk P) (b : Fin NBUF) : Except Stop (Disk P) :=
  if (s.system.cache.buffer b).Locked = false then .error (.panic "ideReadWrite: DiskBuffer not locked")
  else if (s.system.cache.buffer b).Flags &&& (B_VALID ||| B_DIRTY) = B_VALID then
    .error (.panic "ideReadWrite: nothing to do")
  else if (s.system.cache.buffer b).Device ≠ 0 ∧ havedisk1 = false then
    .error (.panic "ideReadWrite: ide disk 1 not present")
  else .ok { s with queued := update s.queued b true }

/-- The bytes that a command moves. ideInterruptHandler looks at the drive's report
only to decide whether to read the bytes of a sector. -/
def Disk.transfer (s : Disk P) (b : Fin NBUF) (r : Report) : Disk P :=
  let key := (s.system.cache.buffer b).key
  if (s.system.cache.buffer b).Flags &&& B_DIRTY = 0 then
    match r with
    | .done => { s with Data := update s.Data b (s.content key) }
    | .failed _ => s
  else
    match r with
    | .done => { s with content := update s.content key (s.Data b) }
    | .failed left => { s with content := update s.content key left }

/-- `write` is a change of the bytes of a held buffer followed by diskBufferWrite;
`finish` is the end of the wait loop of ideReadWrite. -/
def diskStep (havedisk1 : Bool) (s : Disk P) : DiskMove P → Option (Disk P)
  | .get p dev sectorNumber =>
    if (s.stage p).idle then
      (step s.system (.get p dev sectorNumber)).map fun t =>
        { s.goto p (.searching dev sectorNumber) with system := t }
    else none
  | .lock p =>
    match s.stage p, (s.system.user p).place with
    | .searching dev sectorNumber, .wants b =>
      (step s.system (.lock p)).map fun t => { s.goto p (.locked b dev sectorNumber) with system := t }
    | _, _ => none
  | .test p =>
    match s.stage p with
    | .locked b dev sectorNumber =>
      if (s.system.cache.buffer b).Flags &&& B_VALID = 0 then
        (ideReadWrite havedisk1 (s.goto p (.reading b dev sectorNumber)) b).toOption
      else some (s.goto p (.returned b dev sectorNumber))
    | _ => none
  | .write p b d =>
    if (s.stage p).idle then
      (step s.system (.write p b)).bind fun t => (ideReadWrite havedisk1
        { s.goto p (.writing b) with system := t, Data := update s.Data b d } b).toOption
    else none
  | .interrupt b r =>
    if s.queued b then
      (step s.system (.complete b)).map fun t =>
        { s.transfer b r with system := t, queued := update s.queued b false }
    else none
  | .finish p =>
    match s.stage p with
    | .reading b dev sectorNumber =>
      if (s.system.cache.buffer b).Flags &&& (B_VALID ||| B_DIRTY) = B_VALID then
        some (s.goto p (.returned b dev sectorNumber)) else none
    | .writing b =>
      if (s.system.cache.buffer b).Flags &&& (B_VALID ||| B_DIRTY) = B_VALID then some (s.goto p .free)
      else none
    | _ => none
  | .release p b =>
    if (s.stage p).idle then
      (step s.system (.release p b)).map fun t => { s.goto p .free with system := t }
    else none
  | .put p =>
    if (s.stage p).idle then (step s.system (.put p)).map fun t => { s with system := t } else none

/-- After diskBufferCacheInitialise, with any bytes on the drive; the array of
buffers is zero-initialised. -/
def initialDisk (P : Type) (content : BitVec 32 × BitVec 32 → Sector) : Disk P :=
  ⟨initialSystem P,fun _ _ => 0,content,fun _ => false,fun _ => .free⟩

def NoError : Disk P → DiskMove P → Prop
  | _, .interrupt _ r => r = .done
  | _, _ => True

section Flags
variable {x : BitVec 32}

theorem valid_of_done (h : x &&& (B_VALID ||| B_DIRTY) = B_VALID) : x &&& B_VALID ≠ 0 := by
  have hv : x &&& B_VALID = B_VALID := by
    calc x &&& B_VALID = x &&& ((B_VALID ||| B_DIRTY) &&& B_VALID) := rfl
      _ = x &&& (B_VALID ||| B_DIRTY) &&& B_VALID := (BitVec.and_assoc ..).symm
      _ = B_VALID := by rw [h]; rfl
  rw [hv]
  decide

theorem dirty_not_done : (x ||| B_DIRTY) &&& (B_VALID ||| B_DIRTY) ≠ B_VALID := by
  intro h
  have hd : (x ||| B_DIRTY) &&& B_DIRTY = B_DIRTY := by
    ext i hi
    simp only [BitVec.getElem_and,BitVec.getElem_or]
    cases x[i] <;> cases B_DIRTY[i] <;> rfl
  have hz : (x ||| B_DIRTY) &&& B_DIRTY = 0 := by
    calc (x ||| B_DIRTY) &&& B_DIRTY = (x ||| B_DIRTY) &&& ((B_VALID ||| B_DIRTY) &&& B_DIRTY) := rfl
      _ = (x ||| B_DIRTY) &&& (B_VALID ||| B_DIRTY) &&& B_DIRTY := (BitVec.and_assoc ..).symm
      _ = 0 := by rw [h]; rfl
  rw [hd] at hz
  revert hz
  decide

end Flags

inductive DiskEffect (s : Disk P) : DiskMove P → Disk P → Prop
  | get {p : P} {dev sectorNumber : BitVec 32} {t : System P} (hi : (s.stage p).idle = true)
      (he : Effect s.system (.get p dev sectorNumber) t) :
      DiskEffect s (.get p dev sectorNumber) { s.goto p (.searching dev sectorNumber) with system := t }
  | lock {p : P} {b : Fin NBUF} {dev sectorNumber : BitVec 32} {t : System P}
      (hs : s.stage p = .searching dev sectorNumber) (hp : (s.system.user p).place = .wants b)
      (he : Effect s.system (.lock p) t) :
      DiskEffect s (.lock p) { s.goto p (.locked b dev sectorNumber) with system := t }
  | miss {p : P} {b : Fin NBUF} {dev sectorNumber : BitVec 32} (hs : s.stage p = .locked b dev sectorNumber)
      (hv : (s.system.cache.buffer b).Flags &&& B_VALID = 0) : DiskEffect s (.test p)
        { s.goto p (.reading b dev sectorNumber) with queued := update s.queued b true }
  | hit {p : P} {b : Fin NBUF} {dev sectorNumber : BitVec 32} (hs : s.stage p = .locked b dev sectorNumber)
      (hv : (s.system.cache.buffer b).Flags &&& B_VALID ≠ 0) :
      DiskEffect s (.test p) (s.goto p (.returned b dev sectorNumber))
  | write {p : P} {b : Fin NBUF} {d : Sector} {t : System P} (hi : (s.stage p).idle = true)
      (he : Effect s.system (.write p b) t) : DiskEffect s (.write p b d) { s.goto p (.writing b) with
        system := t, Data := update s.Data b d, queued := update s.queued b true }
  | interrupt {b : Fin NBUF} {r : Report} {t : System P} (hq : s.queued b = true)
      (he : Effect s.system (.complete b) t) : DiskEffect s (.interrupt b r)
        { s.transfer b r with system := t, queued := update s.queued b false }
  | read {p : P} {b : Fin NBUF} {dev sectorNumber : BitVec 32} (hs : s.stage p = .reading b dev sectorNumber)
      (hd : (s.system.cache.buffer b).Flags &&& (B_VALID ||| B_DIRTY) = B_VALID) :
      DiskEffect s (.finish p) (s.goto p (.returned b dev sectorNumber))
  | wrote {p : P} {b : Fin NBUF} (hs : s.stage p = .writing b)
      (hd : (s.system.cache.buffer b).Flags &&& (B_VALID ||| B_DIRTY) = B_VALID) :
      DiskEffect s (.finish p) (s.goto p .free)
  | release {p : P} {b : Fin NBUF} {t : System P} (hi : (s.stage p).idle = true)
      (he : Effect s.system (.release p b) t) :
      DiskEffect s (.release p b) { s.goto p .free with system := t }
  | put {p : P} {t : System P} (hi : (s.stage p).idle = true) (he : Effect s.system (.put p) t) :
      DiskEffect s (.put p) { s with system := t }

omit [DecidableEq P] in
theorem ideReadWrite_ok {havedisk1 : Bool} {s t : Disk P} {b : Fin NBUF}
    (h : (ideReadWrite havedisk1 s b).toOption = some t) :
    t = { s with queued := update s.queued b true } := by
  unfold ideReadWrite at h
  split_ifs at h <;> cases h
  rfl

theorem diskEffect_of_step {havedisk1 : Bool} {s t : Disk P} {m : DiskMove P}
    (h : diskStep havedisk1 s m = some t) : DiskEffect s m t := by
  cases m with
  | get p dev sectorNumber =>
    simp only [diskStep] at h
    split_ifs at h with hi
    obtain ⟨u,hu,rfl⟩ := Option.map_eq_some_iff.mp h
    exact .get hi (effect_of_step hu)
  | lock p =>
    simp only [diskStep] at h
    split at h
    · obtain ⟨u,hu,rfl⟩ := Option.map_eq_some_iff.mp h
      exact .lock ‹_› ‹_› (effect_of_step hu)
    · cases h
  | test p =>
    simp only [diskStep] at h
    split at h
    · split_ifs at h with hv
      · rw [ideReadWrite_ok h]
        exact .miss ‹_› hv
      · cases h
        exact .hit ‹_› hv
    · cases h
  | write p b d =>
    simp only [diskStep] at h
    split_ifs at h with hi
    obtain ⟨u,hu,h⟩ := Option.bind_eq_some_iff.mp h
    rw [ideReadWrite_ok h]
    exact .write hi (effect_of_step hu)
  | interrupt b r =>
    simp only [diskStep] at h
    split_ifs at h with hq
    obtain ⟨u,hu,rfl⟩ := Option.map_eq_some_iff.mp h
    exact .interrupt hq (effect_of_step hu)
  | finish p =>
    simp only [diskStep] at h
    split at h
    · split_ifs at h with hd
      cases h
      exact .read ‹_› hd
    · split_ifs at h with hd
      cases h
      exact .wrote ‹_› hd
    · cases h
  | release p b =>
    simp only [diskStep] at h
    split_ifs at h with hi
    obtain ⟨u,hu,rfl⟩ := Option.map_eq_some_iff.mp h
    exact .release hi (effect_of_step hu)
  | put p =>
    simp only [diskStep] at h
    split_ifs at h with hi
    obtain ⟨u,hu,rfl⟩ := Option.map_eq_some_iff.mp h
    exact .put hi (effect_of_step hu)

theorem DiskEffect.system {s t : Disk P} {m : DiskMove P} (h : DiskEffect s m t) :
    t.system = s.system ∨ ∃ m', Effect s.system m' t.system := by
  cases h with
  | get hi he => exact .inr ⟨_,he⟩
  | lock hs hp he => exact .inr ⟨_,he⟩
  | miss hs hv => exact .inl rfl
  | hit hs hv => exact .inl rfl
  | write hi he => exact .inr ⟨_,he⟩
  | interrupt hq he => exact .inr ⟨_,he⟩
  | read hs hd => exact .inl rfl
  | wrote hs hd => exact .inl rfl
  | release hi he => exact .inr ⟨_,he⟩
  | put hi he => exact .inr ⟨_,he⟩

/-- A buffer that counts as valid has the drive's bytes, and a queued one is held by
the process that waits for it. -/
structure BufferMirrors (s : Disk P) (b : Fin NBUF) : Prop where
  current : (s.system.cache.buffer b).Flags &&& B_VALID ≠ 0 → s.queued b = false →
    s.Data b = s.content (s.system.cache.buffer b).key
  waiting : s.queued b = true → (s.system.cache.buffer b).Flags &&& (B_VALID ||| B_DIRTY) ≠ B_VALID
  awaited : s.queued b = true → ∃ p, (s.stage p).transfers b

def Knows (s : Disk P) (p : P) : Stage → Prop
  | .free => True
  | .searching dev sectorNumber => ∀ b, (s.system.user p).place = .wants b →
      (s.system.cache.buffer b).key = (dev,sectorNumber)
  | .locked b dev sectorNumber | .reading b dev sectorNumber =>
      (s.system.user p).holds b = true ∧ (s.system.cache.buffer b).key = (dev,sectorNumber)
  | .returned b dev sectorNumber =>
      (s.system.user p).holds b = true ∧ (s.system.cache.buffer b).key = (dev,sectorNumber) ∧
      (s.system.cache.buffer b).Flags &&& B_VALID ≠ 0 ∧ s.queued b = false
  | .writing b => (s.system.user p).holds b = true

structure Mirrors [Fintype P] (s : Disk P) : Prop where
  consistent : Consistent s.system
  buffers : ∀ b, BufferMirrors s b
  stages : ∀ p, Knows s p (s.stage p)

end UoDOS.Buffers
