import UoDOS.Memory.PhysicalMemory

/-! # The configuration table of mp.c

mpinit walks over the entries of a table that the firmware left in memory.
-/
namespace UoDOS.Multiprocessor
open ByteMemory Paging

def NCPU : ℕ := 8

def MPPROC : UInt8 := 0x00
def MPBUS : UInt8 := 0x01
def MPIOAPIC : UInt8 := 0x02
def MPIOINTR : UInt8 := 0x03
def MPLINTR : UInt8 := 0x04

/-- What mpinit stores: the Apicids of `cpus`, also behind its NCPU elements, and the
interrupt mode register behind the ports 0x22 and 0x23. -/
structure Machine where
  localApic : ℕ
  Apicid : ℕ → UInt8
  ncpu : ℕ
  ioapicid : UInt8
  selected : UInt8
  imcr : UInt8

section Search

def memcmp (b : Bytes) : ℕ → List UInt8 → ℤ
  | _, [] => 0
  | s, c :: cs => if b s ≠ c then (b s).toNat - c.toNat else memcmp b ((s + 1) % 2^32) cs

def sum (b : Bytes) (addr len : ℕ) : UInt8 := ((List.range len).map fun i => b ((addr + i) % 2^32)).sum

def mpsearchLoop (b : Bytes) (e : ℕ) : ℕ → ℕ → Option ℕ
  | 0, _ => none
  | n + 1, p =>
    if p < e then
      if memcmp b p [0x5F,0x4D,0x50,0x5F] = 0 ∧ sum b p 16 = 0 then some p
      else mpsearchLoop b e n ((p + 16) % 2^32)
    else none

def mpsearch1 (b : Bytes) (a len : ℕ) : Option ℕ := mpsearchLoop b ((P2V a + len) % 2^32) (len / 16) (P2V a)

def mpsearch (b : Bytes) : Option ℕ :=
  let bda := P2V 0x400
  let p := ((b (bda + 0x0F)).toNat <<< 8 ||| (b (bda + 0x0E)).toNat) <<< 4
  let first :=
    if p ≠ 0 then mpsearch1 b p 1024
    else
      let p := ((b (bda + 0x14)).toNat <<< 8 ||| (b (bda + 0x13)).toNat) * 1024
      mpsearch1 b ((p + (2^32 - 1024)) % 2^32) 1024
  match first with
  | some mp => some mp
  | none => mpsearch1 b 0xF0000 0x10000

/-- The MP structure and the configuration table, if it is valid. -/
def mpconfig (b : Bytes) : Option (ℕ × ℕ) :=
  match mpsearch b with
  | none => none
  | some mp =>
    let physaddr := readWord b (mp + 4)
    if physaddr = 0 then none
    else
      let conf := P2V physaddr
      if memcmp b conf [0x50,0x43,0x4D,0x50] ≠ 0 then none
      else if b (conf + 6) ≠ 1 ∧ b (conf + 6) ≠ 4 then none
      else if sum b conf (readHalf b (conf + 4)).toNat ≠ 0 then none
      else some (mp,conf)

end Search

section Entries

/-- An entry of a known type: what is stored, and the bytes to the next entry. -/
def entry (b : Bytes) (p : ℕ) (m : Machine) : Option (Machine × ℕ) :=
  if b p = MPPROC then
    if m.ncpu < NCPU then
      some ({ m with Apicid := Function.update m.Apicid m.ncpu (b (p + 1)), ncpu := m.ncpu + 1 },20)
    else some (m,20)
  else if b p = MPIOAPIC then some ({ m with ioapicid := b (p + 1) },8)
  else if b p = MPBUS ∨ b p = MPIOINTR ∨ b p = MPLINTR then some (m,8)
  else none

/-- The loop over the entries, with what it leaves in ismp; no result if the rounds do not do. -/
def entryLoop (b : Bytes) (e : ℕ) : ℕ → ℕ → Bool → Machine → Option (Machine × Bool)
  | 0, _, _, _ => none
  | n + 1, p, ismp, m =>
    if p < e then
      match entry b p m with
      | some (m,size) => entryLoop b e n ((p + size) % 2^32) ismp m
      -- the break of the default case ends the switch
      | none => entryLoop b e n p false m
    else some (m,ismp)

def tableStart (conf : ℕ) : ℕ := (conf + 44) % 2^32
def tableEnd (b : Bytes) (conf : ℕ) : ℕ := (conf + (readHalf b (conf + 4)).toNat) % 2^32

def mpinit (b : Bytes) (rounds : ℕ) (m : Machine) : Option (Except Stop Unit × Machine) :=
  match mpconfig b with
  | none => some (.error (.panic "Expect to run on an SMP"),m)
  | some (mp,conf) =>
    let m := { m with localApic := readWord b (conf + 36) }
    match entryLoop b (tableEnd b conf) rounds (tableStart conf) true m with
    | none => none
    | some (m,ismp) =>
      if ismp = false then some (.error (.panic "Didn't find a suitable machine"),m)
      else if b (mp + 12) ≠ 0 then some (.ok (),{ m with selected := 0x70, imcr := m.imcr ||| 1 })
      else some (.ok (),m)

end Entries

def entrySize (type : UInt8) : Option ℕ :=
  if type = MPPROC then some 20
  else if type = MPIOAPIC ∨ type = MPBUS ∨ type = MPIOINTR ∨ type = MPLINTR then some 8
  else none

/-- Entries of known types, one behind the other, lead to the end of the table or past it. -/
inductive KnownEntries (b : Bytes) (e : ℕ) : ℕ → Prop
  | done {p} (h : e ≤ p) : KnownEntries b e p
  | next {p size} (h : p < e) (hs : entrySize (b p) = some size)
      (rest : KnownEntries b e ((p + size) % 2^32)) : KnownEntries b e p

inductive MeetsUnknown (b : Bytes) (e : ℕ) : ℕ → Prop
  | here {p} (h : p < e) (hs : entrySize (b p) = none) : MeetsUnknown b e p
  | next {p size} (h : p < e) (hs : entrySize (b p) = some size)
      (rest : MeetsUnknown b e ((p + size) % 2^32)) : MeetsUnknown b e p

/-- No processor is recorded behind the NCPU elements of the array. -/
structure Recorded (m m' : Machine) : Prop where
  ncpu : m'.ncpu ≤ NCPU
  behind : ∀ i, NCPU ≤ i → m'.Apicid i = m.Apicid i

variable {b : Bytes} {e p : ℕ} {m m' : Machine}

theorem entry_size (b : Bytes) (p : ℕ) (m : Machine) : (entry b p m).map Prod.snd = entrySize (b p) := by
  unfold entry entrySize
  split_ifs <;> first | rfl | simp_all

theorem entry_recorded {size : ℕ} (h : m.ncpu ≤ NCPU) (he : entry b p m = some (m',size)) : Recorded m m' := by
  unfold entry at he
  split_ifs at he with h1 h2 h3 h4
  · obtain ⟨rfl,-⟩ := Prod.mk.inj (Option.some.inj he)
    refine ⟨h2,fun i hi => Function.update_of_ne ?_ _ _⟩
    omega
  all_goals
    obtain ⟨rfl,-⟩ := Prod.mk.inj (Option.some.inj he)
    exact ⟨h,fun i _ => rfl⟩

theorem entry_known {size : ℕ} (hs : entrySize (b p) = some size) (m : Machine) :
    ∃ m', entry b p m = some (m',size) := by
  rw [← entry_size b p m,Option.map_eq_some_iff] at hs
  obtain ⟨⟨m',size'⟩,he,rfl⟩ := hs
  exact ⟨m',he⟩

theorem entrySize_bounds {type : UInt8} {size : ℕ} (h : entrySize type = some size) : 0 < size ∧ size ≤ 20 := by
  unfold entrySize at h
  split_ifs at h <;> obtain rfl := Option.some.inj h <;> decide

theorem Recorded.trans {m'' : Machine} (h : Recorded m m') (h' : Recorded m' m'') : Recorded m m'' :=
  ⟨h'.ncpu,fun i hi => (h'.behind i hi).trans (h.behind i hi)⟩

theorem KnownEntries.not_meets (h : KnownEntries b e p) : ¬MeetsUnknown b e p := by
  induction h with
  | done h =>
    intro hm
    cases hm <;> omega
  | next h hs rest ih =>
    intro hm
    cases hm with
    | here _ hs' => rw [hs] at hs'; cases hs'
    | next _ hs' rest' =>
      obtain rfl := Option.some.inj (hs.symm.trans hs')
      exact ih rest'

theorem knownEntries_iff (he : e + 20 ≤ 2^32) : KnownEntries b e p ↔ ¬MeetsUnknown b e p := by
  refine ⟨fun h => h.not_meets,fun h => ?_⟩
  induction hn : e - p using Nat.strong_induction_on generalizing p with
  | _ n ih =>
    by_cases hp : p < e
    · cases hs : entrySize (b p) with
      | none => exact absurd (.here hp hs) h
      | some size =>
        obtain ⟨hpos,hle⟩ := entrySize_bounds hs
        have hnext : (p + size) % 2^32 = p + size := Nat.mod_eq_of_lt (by omega)
        refine .next hp hs (ih (e - (p + size)) (by omega) (fun hm => h (.next hp hs hm)) (by rw [hnext]))
    · exact .done (Nat.not_lt.mp hp)

section Loop

theorem entryLoop_of_known (h : KnownEntries b e p) (hn : m.ncpu ≤ NCPU) :
    ∃ n m', entryLoop b e n p true m = some (m',true) ∧ Recorded m m' := by
  induction h generalizing m with
  | @done p h =>
    refine ⟨1,m,?_,hn,fun i _ => rfl⟩
    rw [entryLoop,if_neg (Nat.not_lt.mpr h)]
  | @next p size h hs rest ih =>
    obtain ⟨m1,he⟩ := entry_known hs m
    have hr := entry_recorded hn he
    obtain ⟨n,m2,hloop,hr'⟩ := ih hr.ncpu
    refine ⟨n + 1,m2,?_,hr.trans hr'⟩
    rw [entryLoop,if_pos h,he]
    exact hloop

theorem known_of_entryLoop {n : ℕ} {ismp : Bool} {r : Machine × Bool} (h : entryLoop b e n p ismp m = some r) :
    KnownEntries b e p := by
  induction n generalizing p ismp m with
  | zero => cases h
  | succ n ih =>
    rw [entryLoop] at h
    by_cases hp : p < e
    · rw [if_pos hp] at h
      have hsize := entry_size b p m
      cases he : entry b p m with
      | none =>
        rw [he] at h
        exact ih h
      | some x =>
        rw [he] at h hsize
        exact .next hp hsize.symm (ih h)
    · exact .done (Nat.not_lt.mp hp)

end Loop

theorem mpinit_ends {mp conf n : ℕ} (hconf : mpconfig b = some (mp,conf)) (h : mpinit b n m ≠ none) :
    KnownEntries b (tableEnd b conf) (tableStart conf) := by
  rw [mpinit,hconf] at h
  dsimp only at h
  cases hl : entryLoop b (tableEnd b conf) n (tableStart conf) true
      { m with localApic := readWord b (conf + 36) } with
  | none =>
    rw [hl] at h
    exact absurd rfl h
  | some x => exact known_of_entryLoop hl

/-- For a valid table, mpinit ends, records at most NCPU processors and panics exactly at an
entry of unknown type, exactly if known entries lead to the end. -/
theorem table_walk_iff {mp conf : ℕ} (hconf : mpconfig b = some (mp,conf)) (hn : m.ncpu ≤ NCPU) :
    (∃ n r m', mpinit b n m = some (r,m') ∧ Recorded m m' ∧
      ((∃ stop, r = .error stop) ↔ MeetsUnknown b (tableEnd b conf) (tableStart conf))) ↔
    KnownEntries b (tableEnd b conf) (tableStart conf) := by
  constructor
  · rintro ⟨n,r,m',hm,-⟩
    exact mpinit_ends (n := n) (m := m) hconf (by rw [hm]; exact Option.some_ne_none _)
  · intro h
    obtain ⟨n,m',hl,hr⟩ := entryLoop_of_known (m := { m with localApic := readWord b (conf + 36) }) h hn
    have hpanic : (∃ stop, (.ok () : Except Stop Unit) = .error stop) ↔
        MeetsUnknown b (tableEnd b conf) (tableStart conf) :=
      ⟨fun hs => absurd hs (by simp),fun hm => absurd hm h.not_meets⟩
    by_cases himcr : b (mp + 12) ≠ 0
    · refine ⟨n,.ok (),{ m' with selected := 0x70, imcr := m'.imcr ||| 1 },?_,⟨hr.ncpu,hr.behind⟩,hpanic⟩
      rw [mpinit,hconf]
      dsimp only
      rw [hl]
      dsimp only
      rw [if_neg (by decide),if_pos himcr]
    · refine ⟨n,.ok (),m',?_,⟨hr.ncpu,hr.behind⟩,hpanic⟩
      rw [mpinit,hconf]
      dsimp only
      rw [hl]
      dsimp only
      rw [if_neg (by decide),if_neg himcr]

section Firmware

def firmware (length check : UInt8) (entries : List UInt8) : Bytes := fun a =>
  if a = P2V 0x40E then 0x80
  else if a < P2V 0x800 then 0
  else if a < P2V 0x900 then
    [0x5F,0x4D,0x50,0x5F,0x00,0x09,0x00,0x00,0x01,0x04,0x97].getD (a - P2V 0x800) 0
  else if a < P2V 0x92C then [0x50,0x43,0x4D,0x50,length,0x00,0x04,check].getD (a - P2V 0x900) 0
  else entries.getD (a - P2V 0x92C) 0

/-- A table with one processor. -/
theorem table_walk_iff_processor :
    (∃ n r m', mpinit (firmware 64 0x8B [0x00,0x01]) n ⟨0,fun _ => 0,0,0,0,0⟩ = some (r,m') ∧
      Recorded ⟨0,fun _ => 0,0,0,0,0⟩ m' ∧ ((∃ stop, r = .error stop) ↔
        MeetsUnknown (firmware 64 0x8B [0x00,0x01]) (tableEnd (firmware 64 0x8B [0x00,0x01]) 0x80000900)
          (tableStart 0x80000900))) ↔
    KnownEntries (firmware 64 0x8B [0x00,0x01]) (tableEnd (firmware 64 0x8B [0x00,0x01]) 0x80000900)
      (tableStart 0x80000900) := by
  have hconf : mpconfig (firmware 64 0x8B [0x00,0x01]) = some (0x80000800,0x80000900) := by decide +kernel
  exact table_walk_iff hconf (by decide)

/-- At an entry of type 5 in a valid table, mpinit neither ends nor panics. -/
theorem unknown_entry_hangs : mpconfig (firmware 45 0x9A [0x05]) = some (0x80000800,0x80000900) ∧
    MeetsUnknown (firmware 45 0x9A [0x05]) (tableEnd (firmware 45 0x9A [0x05]) 0x80000900)
      (tableStart 0x80000900) ∧
    ∀ n, mpinit (firmware 45 0x9A [0x05]) n ⟨0,fun _ => 0,0,0,0,0⟩ = none := by
  have hconf : mpconfig (firmware 45 0x9A [0x05]) = some (0x80000800,0x80000900) := by decide +kernel
  have hmeets : MeetsUnknown (firmware 45 0x9A [0x05]) (tableEnd (firmware 45 0x9A [0x05]) 0x80000900)
      (tableStart 0x80000900) := .here (by decide +kernel) (by decide +kernel)
  refine ⟨hconf,hmeets,fun n => ?_⟩
  by_contra hends
  exact (mpinit_ends hconf hends).not_meets hmeets

end Firmware

end UoDOS.Multiprocessor
