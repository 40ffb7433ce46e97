import UoDOS.Kernel.ProgramFiles

/-! # Calls of exec that overlap

imageFileHeader is one variable for all processes.
-/
namespace UoDOS.Kernel.SharedHeader
open ByteMemory Paging Processes FileSystem Strings Results Transition

/-- Where a process is in exec, with the section headers that it has loaded so far. -/
inductive Stage
  | out
  | first (bytes : List UInt8) (stored : ℕ)
  | second (bytes : List UInt8) (stored : ℕ)
  | sections (oldFilePosition : ℕ) (headers : List Bytes)
  | stack (headers : List Bytes)
  | running (eip : ℕ) (headers : List Bytes)

structure Party where
  exeFile : File
  stage : Stage

structure State where
  imageFileHeader : Bytes
  party : Fin NPROC → Party

/-- The next step of a process. Loading a section leaves the executable at some position,
and any part of exec may fail. -/
inductive Action
  | start (exeFile : File)
  | store
  | next (position : ℕ) (eof : Bool)
  | fail

def State.set (s : State) (p : Fin NPROC) (x : Party) : State := { s with party := Function.update s.party p x }

variable (M : Mounted)

def start (s : State) (p : Fin NPROC) (exeFile : File) : Option State :=
  match (s.party p).stage with
  | .out | .running _ _ =>
    match fsFat12Read M { exeFile with Position := 0x80 } 24 with
    | .ok (_,bytes,file) => some (s.set p ⟨file,.first bytes 0⟩)
    | .error _ => none
  | _ => none

def store (s : State) (p : Fin NPROC) : Option State :=
  let x := s.party p
  match x.stage with
  | .first bytes k =>
    if k < bytes.length then some ({ s with imageFileHeader := Function.update s.imageFileHeader k (bytes.getD k 0) }.set p
      { x with stage := .first bytes (k + 1) })
    else none
  | .second bytes k =>
    if k < bytes.length then
      some ({ s with imageFileHeader := Function.update s.imageFileHeader (24 + k) (bytes.getD k 0) }.set p
        { x with stage := .second bytes (k + 1) })
    else none
  | _ => none

/-- The code behind a read that is complete, up to the next one. -/
def next (s : State) (p : Fin NPROC) (position : ℕ) (eof : Bool) : Option State :=
  let x := s.party p
  match x.stage with
  | .first bytes k =>
    if k < bytes.length then none
    else if bytes.length ≠ 24 then some (s.set p { x with stage := .out })
    else if s.imageFileHeader 0 ≠ 'P'.toUInt8 ∨ s.imageFileHeader 1 ≠ 'E'.toUInt8 then
      some (s.set p { x with stage := .out })
    else match fsFat12Read M { x.exeFile with Position := 0x80 + 24 } 96 with
      | .ok (_,bytes,file) => some (s.set p ⟨file,.second bytes 0⟩)
      | .error _ => none
  | .second bytes k =>
    if k < bytes.length then none
    else if bytes.length ≠ 96 then some (s.set p { x with stage := .out })
    else some (s.set p
      { x with stage := .sections (0x80 + 24 + SizeOfOptionalHeader s.imageFileHeader) [] })
  | .sections oldFilePosition headers =>
    if headers.length < NumberOfSections s.imageFileHeader then
      match fsFat12Read M { x.exeFile with Position := oldFilePosition } 40 with
      | .ok (count,bytes,file) =>
        if count ≠ 40 then some (s.set p { x with stage := .out })
        else some (s.set p ⟨{ file with Position := position, Eof := eof },
          .sections file.Position (headers ++ [write (fun _ => 0) 0 bytes])⟩)
      | .error _ => none
    else some (s.set p { x with stage := .stack headers })
  | .stack headers =>
    some (s.set p { x with stage := .running (AddressOfEntryPoint s.imageFileHeader) headers })
  | _ => none

def step (s : State) : Fin NPROC × Action → Option State
  | (p,.start exeFile) => start M s p exeFile
  | (p,.store) => store s p
  | (p,.next position eof) => next M s p position eof
  | (p,.fail) => some (s.set p { s.party p with stage := .out })

def readAt (x : File) (position n : ℕ) : Option (List UInt8) :=
  match fsFat12Read M { x with Position := position, Eof := false } n with
  | .ok (count,bytes,_) => if count = n then some bytes else none
  | .error _ => none

def ownHeader (x : File) : Option Bytes := do
  let first ← readAt M x 0x80 24
  let second ← readAt M x (0x80 + 24) 96
  some (write (write (fun _ => 0) 0 first) 24 second)

def ownSection (x : File) (imageFileHeader : Bytes) (k : ℕ) : Option Bytes :=
  (readAt M x (0x80 + 24 + SizeOfOptionalHeader imageFileHeader + 40 * k) 40).map (write (fun _ => 0) 0)

/-- The sections and the entry point are those of the file's own headers. -/
def LoadsOwn (x : File) (eip : ℕ) (headers : List Bytes) : Prop :=
  ∃ h, ownHeader M x = some h ∧ eip = AddressOfEntryPoint h ∧ headers.length = NumberOfSections h ∧
    ∀ k < headers.length, ownSection M x h k = headers[k]?

/-- A process whose bytes in imageFileHeader are still needed. -/
def HasStored : Stage → Prop
  | .first _ k => 0 < k
  | .second _ _ | .sections _ _ | .stack _ => True
  | .out | .running _ _ => False

instance (x : Stage) : Decidable (HasStored x) := by
  cases x <;> unfold HasStored <;> infer_instance

def Alone (s : State) : Fin NPROC × Action → Prop
  | (p,.store) => ∀ q, q ≠ p → ¬ HasStored (s.party q).stage
  | _ => True

instance (s : State) (l : Fin NPROC × Action) : Decidable (Alone s l) := by
  obtain ⟨p,a⟩ := l
  cases a <;> unfold Alone <;> infer_instance

variable {M} {s t : State} {p q : Fin NPROC} {x y : File} {header header' h : Bytes} {P n k : ℕ}
  {bytes : List UInt8} {headers : List Bytes}

section Reads

theorem readAt_of_read {file : File} {count : ℕ} (hn : n ≠ 0)
    (hr : fsFat12Read M { x with Position := P } n = .ok (count,bytes,file)) (hc : count = n) :
    readAt M x P n = some bytes := by
  have hend := read_before_end (by rw [hc]; exact hn) hr
  have he : x.Eof = false := hend
  have hx : ({ x with Position := P, Eof := false } : File) = { x with Position := P } := by rw [← he]
  rw [readAt,hx,hr]
  simp only [hc,if_true]

theorem readAt_after {file : File} {count : ℕ} (hr : fsFat12Read M { x with Position := P } n = .ok (count,bytes,file)) :
    readAt M file = readAt M x := by
  obtain ⟨position,eof,rfl⟩ := read_file hr
  rfl

theorem ownHeader_congr (hxy : readAt M y = readAt M x) : ownHeader M y = ownHeader M x := by
  unfold ownHeader
  rw [hxy]

theorem ownSection_congr (hxy : readAt M y = readAt M x) : ownSection M y h k = ownSection M x h k := by
  unfold ownSection
  rw [hxy]

end Reads

def Filled (header : Bytes) (base : ℕ) (bytes : List UInt8) (k : ℕ) : Prop :=
  k ≤ bytes.length ∧ ∀ i < k, header (base + i) = bytes.getD i 0

def Agrees (header h : Bytes) : Prop := ∀ i < 120, header i = h i

theorem Agrees.numberOfSections (ha : Agrees header h) : NumberOfSections header = NumberOfSections h := by
  unfold NumberOfSections readHalf
  rw [ha 6 (by norm_num),ha 7 (by norm_num)]

theorem Agrees.sizeOfOptionalHeader (ha : Agrees header h) :
    SizeOfOptionalHeader header = SizeOfOptionalHeader h := by
  unfold SizeOfOptionalHeader readHalf
  rw [ha 20 (by norm_num),ha 21 (by norm_num)]

theorem Agrees.addressOfEntryPoint (ha : Agrees header h) :
    AddressOfEntryPoint header = AddressOfEntryPoint h := by
  unfold AddressOfEntryPoint readWord
  rw [ha 40 (by norm_num),ha 41 (by norm_num),ha 42 (by norm_num),ha 43 (by norm_num)]

theorem Filled.agrees {first second : List UInt8} (h1 : Filled header 0 first 24) (h2 : Filled header 24 second 96)
    (hf : first.length = 24) (hs : second.length = 96) :
    Agrees header (write (write (fun _ => 0) 0 first) 24 second) := by
  intro i hi
  unfold write
  by_cases hlt : i < 24
  · rw [if_neg (by omega),if_pos (by omega),Nat.sub_zero,← h1.2 i hlt,Nat.zero_add]
  · rw [if_pos (by omega),← h2.2 (i - 24) (by omega),Nat.add_sub_cancel' (by omega)]

def Owned (M : Mounted) (header : Bytes) (x : Party) : Prop :=
  match x.stage with
  | .out => True
  | .first bytes k => Filled header 0 bytes k ∧ (bytes.length = 24 → readAt M x.exeFile 0x80 24 = some bytes)
  | .second bytes k => Filled header 24 bytes k ∧
      (bytes.length = 96 → readAt M x.exeFile (0x80 + 24) 96 = some bytes) ∧
      ∃ b, b.length = 24 ∧ readAt M x.exeFile 0x80 24 = some b ∧ Filled header 0 b 24
  | .sections oldFilePosition headers => ∃ h, ownHeader M x.exeFile = some h ∧ Agrees header h ∧
      oldFilePosition = 0x80 + 24 + SizeOfOptionalHeader h + 40 * headers.length ∧
      headers.length ≤ NumberOfSections h ∧ ∀ k < headers.length, ownSection M x.exeFile h k = headers[k]?
  | .stack headers => ∃ h, ownHeader M x.exeFile = some h ∧ Agrees header h ∧
      headers.length = NumberOfSections h ∧ ∀ k < headers.length, ownSection M x.exeFile h k = headers[k]?
  | .running eip headers => LoadsOwn M x.exeFile eip headers

theorem Owned.elsewhere {x : Party} (header' : Bytes) (h : Owned M header x) (hx : ¬ HasStored x.stage) : Owned M header' x := by
  unfold Owned HasStored at *
  cases hs : x.stage with
  | out => trivial
  | first bytes k =>
    rw [hs] at h hx
    obtain rfl : k = 0 := by
      dsimp only at hx
      omega
    exact ⟨⟨Nat.zero_le _,fun i hi => absurd hi (by omega)⟩,h.2⟩
  | second bytes k => rw [hs] at hx; exact absurd trivial hx
  | sections position headers => rw [hs] at hx; exact absurd trivial hx
  | stack headers => rw [hs] at hx; exact absurd trivial hx
  | running eip headers =>
    rw [hs] at h
    exact h

def AllOwned (M : Mounted) (s : State) : Prop := ∀ p, Owned M s.imageFileHeader (s.party p)

theorem AllOwned.set {x : Party} (h : AllOwned M s) (hx : Owned M s.imageFileHeader x) : AllOwned M (s.set p x) := by
  intro q
  rcases eq_or_ne q p with rfl | hq
  · simpa [State.set] using hx
  · simpa [State.set,hq] using h q

theorem AllOwned.start (h : AllOwned M s) (he : start M s p x = some t) : AllOwned M t := by
  unfold SharedHeader.start at he
  have hread : ∀ {u}, (match fsFat12Read M { x with Position := 0x80 } 24 with
      | .ok (_,bytes,file) => some (s.set p ⟨file,.first bytes 0⟩)
      | .error _ => none) = some u → AllOwned M u := by
    intro u hu
    split at hu
    · rename_i count bytes file hr
      cases hu
      refine h.set ⟨⟨Nat.zero_le _,fun i hi => absurd hi (by omega)⟩,fun hlen => ?_⟩
      rw [readAt_after hr]
      exact readAt_of_read (by norm_num) hr ((read_length hr).1.symm.trans hlen)
    · cases hu
  split at he
  · exact hread he
  · exact hread he
  · cases he

theorem Filled.store {base : ℕ} (h : Filled header base bytes k) (hk : k < bytes.length) :
    Filled (Function.update header (base + k) (bytes.getD k 0)) base bytes (k + 1) := by
  refine ⟨hk,fun i hi => ?_⟩
  rcases Nat.lt_succ_iff_lt_or_eq.mp hi with hi | rfl
  · rw [Function.update_of_ne (by omega),h.2 i hi]
  · rw [Function.update_self]

theorem AllOwned.store (h : AllOwned M s) (ha : Alone s (p,.store)) (he : store s p = some t) : AllOwned M t := by
  have hp := h p
  unfold Owned at hp
  -- the processes that do not store
  have hother : ∀ {header x}, Owned M header x → AllOwned M ({ s with imageFileHeader := header }.set p x) := by
    intro header x hx q
    rcases eq_or_ne q p with rfl | hq
    · simpa [State.set] using hx
    · have := (h q).elsewhere header (ha q hq)
      simpa [State.set,hq] using this
  unfold SharedHeader.store at he
  dsimp only at he
  split at he
  · rename_i bytes k hstage
    rw [hstage] at hp
    split at he
    · rename_i hk
      cases he
      have hfill := hp.1.store hk
      rw [Nat.zero_add] at hfill
      exact hother ⟨hfill,hp.2⟩
    · cases he
  · rename_i bytes k hstage
    rw [hstage] at hp
    obtain ⟨hf,hr,b,hb,hr1,hf1⟩ := hp
    split at he
    · rename_i hk
      cases he
      refine hother ⟨hf.store hk,hr,b,hb,hr1,hf1.1,fun i hi => ?_⟩
      rw [Function.update_of_ne (by omega),hf1.2 i hi]
    · cases he
  · cases he

theorem section_read {file : File} (hlt : headers.length < NumberOfSections h)
    (hall : ∀ k < headers.length, ownSection M x h k = headers[k]?)
    (hr : fsFat12Read M { x with
      Position := 0x80 + 24 + SizeOfOptionalHeader h + 40 * headers.length } 40 = .ok (40,bytes,file)) :
    file.Position = 0x80 + 24 + SizeOfOptionalHeader h + 40 * (headers.length + 1) ∧
      ∀ k < headers.length + 1, ownSection M x h k = (headers ++ [write (fun _ => 0) 0 bytes])[k]? := by
  have hpos := sectionPosition_lt h hlt
  constructor
  · rw [read_position (by dsimp only; omega) hr]
    dsimp only
    omega
  · intro k hk
    rcases Nat.lt_succ_iff_lt_or_eq.mp hk with hk | rfl
    · rw [List.getElem?_append_left hk]
      exact hall k hk
    · rw [List.getElem?_concat_length,ownSection,readAt_of_read (by norm_num) hr rfl]
      rfl

theorem AllOwned.next {position : ℕ} {eof : Bool} (h : AllOwned M s) (he : next M s p position eof = some t) :
    AllOwned M t := by
  have hp := h p
  unfold Owned at hp
  unfold SharedHeader.next at he
  dsimp only at he
  split at he
  · rename_i bytes k hstage
    rw [hstage] at hp
    obtain ⟨hf,hr⟩ := hp
    split at he
    · cases he
    rename_i hk
    split at he
    · cases he
      exact h.set trivial
    rename_i hlen
    split at he
    · cases he
      exact h.set trivial
    split at he
    · rename_i count bytes2 file hr2
      cases he
      rw [not_ne_iff] at hlen
      obtain rfl : k = 24 := by
        have := hf.1
        omega
      refine h.set ⟨⟨Nat.zero_le _,fun i hi => absurd hi (by omega)⟩,fun hlen2 => ?_,bytes,hlen,?_,hf⟩
      · rw [readAt_after hr2]
        exact readAt_of_read (by norm_num) hr2 ((read_length hr2).1.symm.trans hlen2)
      · rw [readAt_after hr2]
        exact hr hlen
    · cases he
  · rename_i bytes k hstage
    rw [hstage] at hp
    obtain ⟨hf,hr,b,hb,hr1,hf1⟩ := hp
    split at he
    · cases he
    rename_i hk
    split at he
    · cases he
      exact h.set trivial
    rename_i hlen
    cases he
    rw [not_ne_iff] at hlen
    obtain rfl : k = 96 := by
      have := hf.1
      omega
    have hagree := hf1.agrees hf hb hlen
    refine h.set ⟨_,?_,hagree,?_,Nat.zero_le _,fun k hk => absurd hk (by simp)⟩
    · simp only [ownHeader,hr1,hr hlen]
      rfl
    · rw [hagree.sizeOfOptionalHeader]
      rfl
  · rename_i oldFilePosition headers hstage
    rw [hstage] at hp
    obtain ⟨own,ho,hagree,rfl,hle,hall⟩ := hp
    rw [hagree.numberOfSections] at he
    split at he
    · rename_i hlt
      split at he
      · rename_i count bytes file hr
        split at he
        · cases he
          exact h.set trivial
        rename_i hcount
        rw [not_ne_iff] at hcount
        subst hcount
        cases he
        have hsame : readAt M { file with Position := position, Eof := eof } = readAt M (s.party p).exeFile := by
          have hsame := readAt_after hr
          exact hsame
        obtain ⟨hnext,hall'⟩ := section_read hlt hall hr
        refine h.set ⟨own,?_,hagree,?_,?_,fun k hk => ?_⟩
        · exact (ownHeader_congr hsame).trans ho
        · rw [hnext]
          simp
        · simpa using hlt
        · rw [List.length_append,List.length_singleton] at hk
          exact (ownSection_congr hsame).trans (hall' k hk)
      · cases he
    · rename_i hlt
      cases he
      exact h.set ⟨own,ho,hagree,by omega,hall⟩
  · rename_i headers hstage
    rw [hstage] at hp
    obtain ⟨own,ho,hagree,hlen,hall⟩ := hp
    cases he
    exact h.set ⟨own,ho,hagree.addressOfEntryPoint,hlen,hall⟩
  · cases he

theorem AllOwned.step {l : Fin NPROC × Action} (h : AllOwned M s) (ha : Alone s l) (he : step M s l = some t) :
    AllOwned M t := by
  obtain ⟨p,a⟩ := l
  cases a with
  | start x => exact h.start he
  | store => exact h.store ha he
  | next position eof => exact h.next he
  | fail =>
    cases he
    exact h.set trivial

/-- However calls of exec are interleaved, as long as nobody stores into a header that
another call still needs, each process that runs has been loaded from its own file. -/
theorem exec_loads_own {s : State} {ls : List (Fin NPROC × Action)} (hs : ∀ p, (s.party p).stage = .out)
    (hr : Runs (guarded (graph (SharedHeader.step M)) Alone) s ls t) {eip : ℕ}
    (hrun : (t.party p).stage = .running eip headers) : LoadsOwn M (t.party p).exeFile eip headers := by
  have hstart : AllOwned M s := by
    intro q
    unfold Owned
    rw [hs q]
    trivial
  have hend := hr.invariant (I := AllOwned M) hstart (fun _ _ _ ha hl => ha.step hl.1 hl.2) p
  unfold Owned at hend
  rw [hrun] at hend
  exact hend

theorem set_other (x : Party) (hq : q ≠ p) : (s.set p x).party q = s.party q := Function.update_of_ne hq _ _

theorem step_other {a : Action} (he : SharedHeader.step M s (p,a) = some t) (hq : q ≠ p) : t.party q = s.party q := by
  cases a with
  | start x =>
    simp only [SharedHeader.step,SharedHeader.start] at he
    repeat' split at he
    all_goals first | (cases he; exact set_other _ hq) | cases he
  | store =>
    simp only [SharedHeader.step,SharedHeader.store] at he
    repeat' split at he
    all_goals first | (cases he; exact set_other _ hq) | cases he
  | next position eof =>
    simp only [SharedHeader.step,SharedHeader.next] at he
    repeat' split at he
    all_goals first | (cases he; exact set_other _ hq) | cases he
  | fail =>
    cases he
    exact set_other _ hq

theorem single_alone {ls : List (Fin NPROC × Action)} (hr : Runs (graph (SharedHeader.step M)) s ls t)
    (hl : ∀ l ∈ ls, l.1 = p) (hs : ∀ q, q ≠ p → ¬ HasStored (s.party q).stage) :
    Runs (guarded (graph (SharedHeader.step M)) Alone) s ls t := by
  suffices h : Runs (guarded (graph (SharedHeader.step M)) Alone) s ls t ∧
      ∀ q, q ≠ p → ¬ HasStored (t.party q).stage from h.1
  induction hr with
  | refl => exact ⟨.refl _,hs⟩
  | snoc _ he ih =>
    rename_i u v ls l _
    obtain ⟨hrun,hother⟩ := ih (fun l hl' => hl l (by simp [hl']))
    obtain ⟨p',a⟩ := l
    obtain rfl : p' = p := hl (p',a) (by simp)
    refine ⟨hrun.snoc ⟨?_,he⟩,fun q hq => ?_⟩
    · cases a with
      | store => exact hother
      | _ => trivial
    · rw [step_other he hq]
      exact hother q hq

def twoPrograms : Mounted where
  image := smallKernel
  memory _ := 0
  volume := smallVolume
  disk n i :=
    if n = 3 ∨ n = 4 then if i = 0x80 + 41 then (if n = 3 then 0x10 else 0x20) else (programBytes []).getD i 0 else 0

local instance programAt_size : NeZero 32 := ⟨by decide⟩

def programAt (cluster : UInt8) : File :=
  ⟨.FD_FILE,1,true,false,0,⟨fun j => if j = 26 then cluster else 0⟩,false,0,512,0⟩

def nobody : State := ⟨fun _ => 0,fun _ => ⟨programAt 2,.out⟩⟩

def readsHeaders (p : Fin NPROC) (x : File) : List (Fin NPROC × Action) :=
  [(p,.start x)] ++ List.replicate 24 (p,.store) ++ [(p,.next 0 false)] ++ List.replicate 96 (p,.store)

def second : Fin NPROC := ⟨1,by decide⟩

def overlap : List (Fin NPROC × Action) :=
  readsHeaders initproc (programAt 2) ++ readsHeaders second (programAt 3) ++ List.replicate 3 (initproc,.next 0 false)

def startsAt (s : State) (p : Fin NPROC) : Option (ℕ × ℕ) :=
  match (s.party p).stage with
  | .running eip headers => some (eip,headers.length)
  | _ => none

/-- The first process starts where the second program does. -/
theorem overlapping_exec_mixes : ∃ t, Runs (graph (SharedHeader.step twoPrograms)) nobody overlap t ∧
    startsAt t initproc = some (0x2000,0) ∧
    ∀ eip headers, (t.party initproc).stage = .running eip headers →
      ¬ LoadsOwn twoPrograms (t.party initproc).exeFile eip headers := by
  have hend : (execute (SharedHeader.step twoPrograms) nobody overlap).map (fun t => (startsAt t initproc,
      (ownHeader twoPrograms (t.party initproc).exeFile).map AddressOfEntryPoint)) =
        some (some (0x2000,0),some 0x1000) := by decide +kernel
  obtain ⟨t,ht,hres⟩ := Option.map_eq_some_iff.mp hend
  obtain ⟨hstart,hown⟩ := Prod.mk.inj hres
  refine ⟨t,Runs.of_execute ht,hstart,?_⟩
  rintro eip headers hrun ⟨h,hh,heip,-⟩
  rw [startsAt,hrun,Option.some.injEq,Prod.mk.injEq] at hstart
  rw [hh,Option.map_some,Option.some.injEq] at hown
  omega

/-- The first process on its own. -/
theorem exec_loads_own_single : ∃ t, Runs (guarded (graph (SharedHeader.step twoPrograms)) Alone) nobody
      (readsHeaders initproc (programAt 2) ++ List.replicate 3 (initproc,.next 0 false)) t ∧
    ∃ headers, (t.party initproc).stage = .running 0x1000 headers ∧
      LoadsOwn twoPrograms (t.party initproc).exeFile 0x1000 headers := by
  have hend : (execute (SharedHeader.step twoPrograms) nobody (readsHeaders initproc (programAt 2) ++
      List.replicate 3 (initproc,.next 0 false))).map (startsAt · initproc) = some (some (0x1000,0)) := by
    decide +kernel
  obtain ⟨t,ht,hstart⟩ := Option.map_eq_some_iff.mp hend
  have hrun := single_alone (Runs.of_execute ht) (p := initproc)
    (by simp [readsHeaders]) (fun q _ => not_false)
  obtain ⟨headers,hstage⟩ : ∃ headers, (t.party initproc).stage = .running 0x1000 headers := by
    unfold startsAt at hstart
    split at hstart
    · rename_i eip headers hstage
      obtain rfl : eip = 0x1000 := (Prod.mk.inj (Option.some.inj hstart)).1
      exact ⟨headers,hstage⟩
    · cases hstart
  exact ⟨t,hrun,headers,hstage,exec_loads_own (fun _ => rfl) hrun hstage⟩

end UoDOS.Kernel.SharedHeader
