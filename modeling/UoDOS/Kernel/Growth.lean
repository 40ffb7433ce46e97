import UoDOS.Kernel.Exec
import UoDOS.Kernel.FileRuns
import UoDOS.Memory.PageGrowth

/-! # growProcess

A signed number of bytes is added to an unsigned size, and 0 is both a size and the result for a
failure.
-/
namespace UoDOS.Kernel
open ByteMemory Paging Processes FileSystem Strings

variable {M : Mounted} {s : System} {p : Fin NPROC} {d : ℕ} {R : ℕ → Prop} {o : Owner} {n : UInt32}
  {size w : ℕ} {r : ℤ}

/-- A process with the directory `d` that has no user page from its size on. -/
structure Growable (s : System) (o : Owner) (p : Fin NPROC) (d : ℕ) : Prop where
  directory : o d = .directory
  pageTable : (s.image p).PageTable = page d
  kernelStack : (s.image p).KernelStack ≠ 0
  below : (s.image p).MemorySize < KERNBASE
  above : ∀ k, ((s.image p).MemorySize + 4095) / 4096 ≤ k → ¬ Maps o d k

def System.resized (s : System) (p : Fin NPROC) (m : Memory) (size : ℕ) : System :=
  { s with memory := m }.setImage p { s.image p with MemorySize := size }

theorem signed_pos (hw : w < 2^32) : 0 < signed w ↔ 0 < w ∧ w < 2^31 := by
  unfold signed
  split <;> omega

theorem signed_neg (hw : w < 2^32) : signed w < 0 ↔ 2^31 ≤ w := by
  unfold signed
  split <;> omega

theorem signed_of_neg (hw : 2^31 ≤ w) : signed w = w - 2^32 := if_neg (by omega)

theorem signed_of_pos (hw : w < 2^31) : signed w = w := if_pos hw

theorem Growable.switch (hg : Growable s o p d) :
    switchToUserVirtualMemory { s.image p with MemorySize := size } = .ok () := by
  simp [switchToUserVirtualMemory,hg.kernelStack,hg.pageTable,page_ne_zero]

theorem growProcess_zero (hg : Growable s o p d) (hn : n = 0) :
    growProcess M s p n = .ok (0,s.resized p s.memory (s.image p).MemorySize) := by
  subst hn
  simp [growProcess,signed,bind,Except.bind,System.setImage,System.resized,hg.switch]

theorem growProcess_over (hn : n.toNat < 2^31) (hpos : 0 < n.toNat) (hs : (s.image p).MemorySize < KERNBASE)
    (hk : KERNBASE ≤ (s.image p).MemorySize + n.toNat) : growProcess M s p n = .ok (-1,s) := by
  have hmod : ((s.image p).MemorySize + n.toNat) % 2^32 = (s.image p).MemorySize + n.toNat :=
    Nat.mod_eq_of_lt (by simp only [KERNBASE] at hs; omega)
  rw [growProcess,if_pos ((signed_pos n.toNat_lt).mpr ⟨hpos,hn⟩),hmod,allocateMemoryAndPageTables,if_pos hk]
  rfl

theorem growProcess_up (h : Owns R s.memory o) (hR : Manageable M.image.toLayout R) (hg : Growable s o p d)
    (hpos : 0 < n.toNat) (hn : n.toNat < 2^31) (hk : (s.image p).MemorySize + n.toNat < KERNBASE) :
    ∃ m' o', Owns R m' o' ∧ Within d o o' ∧
      ((growProcess M s p n = .ok (0,s.resized p m' ((s.image p).MemorySize + n.toNat)) ∧
        ∀ k, Maps o' d k ↔ Maps o d k ∨ (((s.image p).MemorySize + 4095) / 4096 ≤ k ∧
          4096 * k < (s.image p).MemorySize + n.toNat)) ∨
      (growProcess M s p n = .ok (-1,{ s with memory := m' }) ∧ (∀ k, Maps o' d k ↔ Maps o d k) ∧
        Scarce (1025 + (((s.image p).MemorySize + n.toNat + 4095) / 4096 -
          ((s.image p).MemorySize + 4095) / 4096)) o)) := by
  have hmod : ((s.image p).MemorySize + n.toNat) % 2^32 = (s.image p).MemorySize + n.toNat :=
    Nat.mod_eq_of_lt (by simp only [KERNBASE] at hk; omega)
  obtain ⟨r,m',hal⟩ := h.allocate_pages_returns hR hg.directory (Nat.le_add_right _ n.toNat) hk hg.above
  have heq : growProcess M s p n = if r = 0 then .ok (-1,{ s with memory := m' })
      else .ok (0,s.resized p m' r) := by
    rw [growProcess,if_pos ((signed_pos n.toNat_lt).mpr ⟨hpos,hn⟩),hmod,hg.pageTable,hal]
    by_cases hr : r = 0
    · simp [hr,bind,Except.bind]
    · simp [hr,bind,Except.bind,System.setImage,System.resized,hg.switch]
  obtain ⟨o',h',hw,⟨rfl,-,-,hm⟩ | ⟨rfl,-,hm,hout⟩⟩ :=
    h.allocate_pages_spares hR hg.directory (Nat.le_add_right _ n.toNat) hk hal
  · exact ⟨m',o',h',hw,.inl ⟨by rw [heq,if_neg (by omega)],hm⟩⟩
  · refine ⟨m',o',h',hw,.inr ⟨by rw [heq,if_pos rfl],fun k => ?_,hout.scarce hg.above⟩⟩
    rw [hm]
    exact ⟨And.left,fun hk => ⟨hk,fun hlo => hg.above k hlo.1 hk⟩⟩

theorem growProcess_down (h : Owns R s.memory o) (hR : Manageable M.image.toLayout R) (hg : Growable s o p d)
    (hsize : (s.image p).MemorySize + n.toNat = size + 2^32) :
    ∃ m', Owns R m' (released d ((size + 4095) / 4096) (s.image p).MemorySize o) ∧
      growProcess M s p n = if size = 0 then .ok (-1,{ s with memory := m' }) else .ok (0,s.resized p m' size) := by
  have hb := hg.below
  have hw := n.toNat_lt
  simp only [KERNBASE] at hb
  obtain ⟨m',hr,h'⟩ := h.release_pages (s.image p).MemorySize size hR hg.directory hg.below.le
  refine ⟨m',h',?_⟩
  have hneg : signed n.toNat < 0 := (signed_neg n.toNat_lt).mpr (by omega)
  rw [growProcess,if_neg (by omega),if_pos hneg,hsize,Nat.add_mod_right,Nat.mod_eq_of_lt (by omega),
    hg.pageTable,hr,min_eq_right (by omega)]
  by_cases hz : size = 0
  · simp [hz,bind,Except.bind]
  · simp [hz,bind,Except.bind,System.setImage,System.resized,hg.switch]

theorem growProcess_under (hg : Growable s o p d) (hn : 2^31 ≤ n.toNat)
    (hlt : (s.image p).MemorySize + n.toNat < 2^32) :
    growProcess M s p n = if (s.image p).MemorySize = 0 then .ok (-1,s)
      else .ok (0,s.resized p s.memory (s.image p).MemorySize) := by
  have hneg : signed n.toNat < 0 := (signed_neg n.toNat_lt).mpr hn
  have hb := hg.below
  simp only [KERNBASE] at hb
  rw [growProcess,if_neg (by omega),if_pos hneg,Nat.mod_eq_of_lt hlt,releaseUserPages,if_pos (by omega)]
  by_cases hz : (s.image p).MemorySize = 0
  · simp [hz,bind,Except.bind]
  · simp [hz,bind,Except.bind,System.setImage,System.resized,hg.switch]

theorem resized_size (s : System) (p : Fin NPROC) (m : Memory) (size : ℕ) :
    ((s.resized p m size).image p).MemorySize = size := by
  simp [System.resized,System.setImage]

section Sizes

/-- The size that allocateMemoryAndPageTables returns; `room` says whether there were pages
for all of it. -/
def allocatedSize (room : Bool) (oldsz newsz : ℕ) : ℕ :=
  if KERNBASE ≤ newsz then 0 else if newsz < oldsz then oldsz else if room then newsz else 0

def releasedSize (oldsz newsz : ℕ) : ℕ := if oldsz ≤ newsz then oldsz else newsz

/-- The size that growProcess gives to a process of this size, or none if it fails. -/
def grown (room : Bool) (size : ℕ) (n : UInt32) : Option ℕ :=
  let memorySize (r : ℕ) := if r = 0 then none else some r
  if 0 < signed n.toNat then memorySize (allocatedSize room size ((size + n.toNat) % 2^32))
  else if signed n.toNat < 0 then memorySize (releasedSize size ((size + n.toNat) % 2^32))
  else some size

theorem grown_zero (room : Bool) (size : ℕ) (hn : n = 0) : grown room size n = some size := by
  subst hn
  rfl

theorem grown_pos (room : Bool) (hpos : 0 < n.toNat) (hn : n.toNat < 2^31) (hs : size < KERNBASE) :
    grown room size n = if size + n.toNat < KERNBASE ∧ room then some (size + n.toNat) else none := by
  simp only [KERNBASE] at hs
  have hm : (size + n.toNat) % 2^32 = size + n.toNat := Nat.mod_eq_of_lt (by omega)
  simp only [grown,if_pos ((signed_pos n.toNat_lt).mpr ⟨hpos,hn⟩),allocatedSize,hm,
    if_neg (show ¬ size + n.toNat < size by omega)]
  rcases Nat.lt_or_ge (size + n.toNat) KERNBASE with hk | hk
  · cases room with
    | false => simp [hk]
    | true =>
      rw [if_neg (Nat.not_le.mpr hk),if_pos rfl,if_neg (by omega),if_pos ⟨hk,rfl⟩]
  · simp [hk]

theorem grown_neg (room : Bool) (hn : 2^31 ≤ n.toNat) (hs : size < KERNBASE) :
    grown room size n = if size + n.toNat = 2^32 ∨ size = 0 then none
      else if 2^32 ≤ size + n.toNat then some (size + n.toNat - 2^32) else some size := by
  have hw := n.toNat_lt
  simp only [KERNBASE] at hs
  have hneg : signed n.toNat < 0 := (signed_neg n.toNat_lt).mpr hn
  simp only [grown,if_neg (show ¬ 0 < signed n.toNat by omega),if_pos hneg]
  rcases Nat.lt_or_ge (size + n.toNat) (2^32) with h | h
  · have hrel : releasedSize size ((size + n.toNat) % 2^32) = size := by
      rw [releasedSize,Nat.mod_eq_of_lt h,if_pos (Nat.le_add_right _ _)]
    rw [hrel,if_neg (Nat.not_le.mpr h)]
    simp only [show (size + n.toNat = 2^32 ∨ size = 0) ↔ size = 0 by omega]
  · have hm : (size + n.toNat) % 2^32 = size + n.toNat - 2^32 := by
      rw [Nat.mod_eq_sub_mod h,Nat.mod_eq_of_lt (by omega)]
    have hrel : releasedSize size ((size + n.toNat) % 2^32) = size + n.toNat - 2^32 := by
      rw [releasedSize,hm,if_neg (by omega)]
    rw [hrel,if_pos h]
    simp only [show (size + n.toNat = 2^32 ∨ size = 0) ↔ size + n.toNat - 2^32 = 0 by omega]

/-- What sys_sbrk returns and the size that the process has then: the old size and the one
that is computed, or -1. -/
def SbrkGives (M : Mounted) (s : System) (p : Fin NPROC) (n : UInt32) : Option ℕ → Prop
  | none => ∃ s', sys_sbrk M s p (some n) = .ok (-1,s') ∧ (s'.image p).MemorySize = (s.image p).MemorySize
  | some size => ∃ s', sys_sbrk M s p (some n) = .ok ((s.image p).MemorySize,s') ∧ (s'.image p).MemorySize = size

theorem sbrkGives_none {s' : System} {g : Option ℕ} (hg : g = none) (h : growProcess M s p n = .ok (-1,s'))
    (hs : (s'.image p).MemorySize = (s.image p).MemorySize) : SbrkGives M s p n g := by
  subst hg
  exact ⟨s',by simp [sys_sbrk,h,bind,Except.bind],hs⟩

theorem sbrkGives_some {m : Memory} {g : Option ℕ} (hg : g = some size)
    (h : growProcess M s p n = .ok (0,s.resized p m size)) : SbrkGives M s p n g := by
  subst hg
  exact ⟨_,by simp [sys_sbrk,h,bind,Except.bind],resized_size s p m size⟩

theorem sys_sbrk_grown (h : Owns R s.memory o) (hR : Manageable M.image.toLayout R) (hg : Growable s o p d) :
    ∃ room, SbrkGives M s p n (grown room (s.image p).MemorySize n) := by
  have hw := n.toNat_lt
  have hbelow := hg.below
  rcases Nat.lt_or_ge n.toNat (2^31) with hn | hn
  · rcases Nat.eq_zero_or_pos n.toNat with hz | hpos
    · have hzero : n = 0 := UInt32.toNat_inj.mp hz
      exact ⟨true,sbrkGives_some (grown_zero _ _ hzero) (growProcess_zero hg hzero)⟩
    · rcases Nat.lt_or_ge ((s.image p).MemorySize + n.toNat) KERNBASE with hk | hk
      · obtain ⟨m',o',-,-,⟨hr,-⟩ | ⟨hr,-⟩⟩ := growProcess_up (M := M) h hR hg hpos hn hk
        · exact ⟨true,sbrkGives_some (by rw [grown_pos true hpos hn hbelow,if_pos ⟨hk,rfl⟩]) hr⟩
        · exact ⟨false,sbrkGives_none (by rw [grown_pos false hpos hn hbelow,if_neg (by simp)]) hr rfl⟩
      · exact ⟨true,sbrkGives_none (by rw [grown_pos true hpos hn hbelow,if_neg (by omega)])
          (growProcess_over hn hpos hbelow hk) rfl⟩
  · refine ⟨true,?_⟩
    rw [grown_neg true hn hbelow]
    rcases Nat.lt_or_ge ((s.image p).MemorySize + n.toNat) (2^32) with hlt | hge
    · have hr := growProcess_under (M := M) hg hn hlt
      by_cases hz : (s.image p).MemorySize = 0
      · rw [if_pos hz] at hr
        exact sbrkGives_none (if_pos (.inr hz)) hr rfl
      · rw [if_neg hz] at hr
        exact sbrkGives_some (by rw [if_neg (by omega),if_neg (by omega)]) hr
    · have hsize : (s.image p).MemorySize + n.toNat = (s.image p).MemorySize + n.toNat - 2^32 + 2^32 := by omega
      obtain ⟨m',-,hr⟩ := growProcess_down (M := M) h hR hg hsize
      by_cases hz : (s.image p).MemorySize + n.toNat - 2^32 = 0
      · rw [if_pos hz] at hr
        exact sbrkGives_none (if_pos (.inl (by omega))) hr rfl
      · rw [if_neg hz] at hr
        exact sbrkGives_some (by
          have hpos : 0 < (s.image p).MemorySize := by omega
          rw [if_neg (by omega),if_pos hge]) hr

end Sizes

/-- What growProcess is to do with the size `S`: the integer sum if it is one of user memory,
and nothing otherwise. -/
structure Exact (S : ℕ) (n r : ℤ) (S' : ℕ) : Prop where
  inside : 0 ≤ S + n ∧ S + n < KERNBASE → r = 0 ∧ S' = S + n
  outside : ¬ (0 ≤ S + n ∧ S + n < KERNBASE) → r = -1 ∧ S' = S

theorem exact_inside {S S' : ℕ} {n : ℤ} (h : 0 ≤ S + n ∧ S + n < KERNBASE) :
    Exact S n r S' ↔ r = 0 ∧ S' = S + n :=
  ⟨fun he => he.inside h,fun he => ⟨fun _ => he,fun hn => absurd h hn⟩⟩

theorem exact_outside {S S' : ℕ} {n : ℤ} (h : ¬ (0 ≤ S + n ∧ S + n < KERNBASE)) :
    Exact S n r S' ↔ r = -1 ∧ S' = S :=
  ⟨fun he => he.outside h,fun he => ⟨fun hn => absurd hn h,fun _ => he⟩⟩

/-- There are pages for the growth, and for the tables that may be missing. -/
def Enough (o : Owner) (S : ℕ) (n : ℤ) : Prop :=
  0 < n → S + n < KERNBASE → ¬ Scarce (1025 + ((S + n.toNat + 4095) / 4096 - (S + 4095) / 4096)) o

theorem exists_result {α : Type} {x : Except Stop (ℤ × α)} {t : α} {P : ℤ → α → Prop}
    (hx : x = .ok (r,t)) : (∃ r s, x = .ok (r,s) ∧ P r s) ↔ P r t := by
  subst hx
  constructor
  · rintro ⟨r',t',he,hp⟩
    cases he
    exact hp
  · intro hp
    exact ⟨r,t,rfl,hp⟩

/-- With enough memory growProcess does what is asked unless the process gives back all that
it has, or more. -/
theorem growProcess_exact_iff (h : Owns R s.memory o) (hR : Manageable M.image.toLayout R)
    (hg : Growable s o p d) (hplenty : Enough o (s.image p).MemorySize (signed n.toNat)) :
    (∃ r s', growProcess M s p n = .ok (r,s') ∧
      Exact (s.image p).MemorySize (signed n.toNat) r (s'.image p).MemorySize) ↔
    (signed n.toNat < 0 → (s.image p).MemorySize = 0 ∨ 0 < (s.image p).MemorySize + signed n.toNat) := by
  have hb := hg.below
  have hw := n.toNat_lt
  have hkern : (KERNBASE : ℤ) = 2^31 := by norm_num [KERNBASE]
  simp only [KERNBASE] at hb
  rcases Nat.lt_or_ge n.toNat (2^31) with hn | hn
  · rw [signed_of_pos hn]
    refine iff_of_true ?_ (fun hneg => by omega)
    rcases Nat.eq_zero_or_pos n.toNat with hz | hpos
    · rw [exists_result (growProcess_zero hg (UInt32.toNat_inj.mp hz)),resized_size,exact_inside (by omega)]
      omega
    · by_cases hk : (s.image p).MemorySize + n.toNat < KERNBASE
      · obtain ⟨m',o',-,-,⟨he,-⟩ | ⟨-,-,hsc⟩⟩ := growProcess_up h hR hg hpos hn hk
        · rw [exists_result he,resized_size,exact_inside (by omega)]
          omega
        · rw [signed_of_pos hn] at hplenty
          exact absurd hsc (hplenty (by omega) (by omega))
      · rw [exists_result (growProcess_over hn hpos hg.below (by omega)),exact_outside (by omega)]
        exact ⟨rfl,rfl⟩
  · rw [signed_of_neg hn]
    rcases Nat.lt_or_ge ((s.image p).MemorySize + n.toNat) (2^32) with hlt | hge
    · have he := growProcess_under (M := M) hg hn hlt
      by_cases hz : (s.image p).MemorySize = 0
      · rw [if_pos hz] at he
        rw [exists_result he,exact_outside (by omega)]
        simp [hz]
      · rw [if_neg hz] at he
        rw [exists_result he,exact_outside (by omega)]
        omega
    · obtain ⟨size,hsize⟩ : ∃ size, (s.image p).MemorySize + n.toNat = size + 2^32 := ⟨_,(Nat.sub_add_cancel hge).symm⟩
      obtain ⟨m',-,he⟩ := growProcess_down h hR hg hsize
      by_cases hz : size = 0
      · rw [if_pos hz] at he
        rw [exists_result he,exact_inside (by omega)]
        omega
      · rw [if_neg hz] at he
        rw [exists_result he,resized_size,exact_inside (by omega)]
        omega

def onePageSystem (m : Memory) (d : ℕ) : System :=
  (coldSystem m).setImage initproc ⟨PGSIZE,page d,1,firstTrapframe,fun _ => none,emptyString,fun _ => 0⟩

theorem onePageSystem_size (m : Memory) (d : ℕ) : ((onePageSystem m d).image initproc).MemorySize = PGSIZE := by
  simp [onePageSystem,System.setImage]

theorem onePageSystem_growable : ∃ R m o d, Owns R (onePageSystem m d).memory o ∧
    Manageable smallMounted.image.toLayout R ∧ Growable (onePageSystem m d) o initproc d ∧ ¬ Scarce 2000 o := by
  obtain ⟨R,m,o,d,h,hR,hd,hm,-,-,hsc⟩ := directory_with_page (L := smallMounted.image.toLayout) (by decide)
  refine ⟨R,m,o,d,h,hR,⟨hd,?_,?_,?_,fun k hk => ?_⟩,hsc⟩
  · simp [onePageSystem,System.setImage]
  · simp [onePageSystem,System.setImage]
  · rw [onePageSystem_size]
    decide
  · rw [onePageSystem_size] at hk
    rw [hm]
    simp only [PGSIZE] at hk ⊢
    omega

theorem growProcess_exact_iff_oneByte : ∃ m d r s',
    growProcess smallMounted (onePageSystem m d) initproc 1 = .ok (r,s') ∧
    Exact ((onePageSystem m d).image initproc).MemorySize 1 r (s'.image initproc).MemorySize := by
  obtain ⟨R,m,o,d,h,hR,hg,hsc⟩ := onePageSystem_growable
  have hone : signed (1 : UInt32).toNat = 1 := by decide
  have hplenty : Enough o ((onePageSystem m d).image initproc).MemorySize (signed (1 : UInt32).toNat) := by
    intro _ _ hs
    rw [onePageSystem_size,hone] at hs
    exact hsc (hs.mono (by norm_num [PGSIZE]))
  obtain ⟨r,s',hr,he⟩ := (growProcess_exact_iff h hR hg hplenty).mpr (fun hneg => by omega)
  rw [hone] at he
  exact ⟨m,d,r,s',hr,he⟩

/-- A process of one page that gives back 4096 bytes is told -1, and the page is gone; one
that gives back 8192 bytes is told 0, and nothing has changed. -/
theorem gives_back_all : ∃ m d s₁ s₂,
    growProcess smallMounted (onePageSystem m d) initproc 0xFFFFF000 = .ok (-1,s₁) ∧
    s₁.memory.entry d 0 % 2 = 0 ∧
    ¬ Exact ((onePageSystem m d).image initproc).MemorySize (-4096) (-1) (s₁.image initproc).MemorySize ∧
    growProcess smallMounted (onePageSystem m d) initproc 0xFFFFE000 = .ok (0,s₂) ∧
    ¬ Exact ((onePageSystem m d).image initproc).MemorySize (-8192) 0 (s₂.image initproc).MemorySize := by
  obtain ⟨R,m,o,d,h,hR,hg,-⟩ := onePageSystem_growable
  have hsum : ((onePageSystem m d).image initproc).MemorySize + (0xFFFFF000 : UInt32).toNat = 0 + 2^32 := by
    rw [onePageSystem_size]
    decide
  obtain ⟨m',h',he⟩ := growProcess_down h hR hg hsum
  have hu := growProcess_under (M := smallMounted) (n := 0xFFFFE000) hg (by decide)
    (by rw [onePageSystem_size]; decide)
  rw [if_pos rfl] at he
  rw [onePageSystem_size,if_neg (by decide)] at hu
  refine ⟨m,d,_,_,he,?_,?_,hu,?_⟩
  · have hno : ¬ Maps (released d ((0 + 4095) / 4096) ((onePageSystem m d).image initproc).MemorySize o) d 0 := by
      rw [maps_released,onePageSystem_size]
      exact fun hk => hk.2 (by decide)
    rw [h'.maps_iff (by simp [released,hg.directory]) (by norm_num)] at hno
    change m'.entry d 0 % 2 = 0
    omega
  · rw [onePageSystem_size,exact_inside (by decide)]
    exact fun hc => absurd hc.1 (by decide)
  · rw [onePageSystem_size,exact_outside (by decide)]
    exact fun hc => absurd hc.1 (by decide)

end UoDOS.Kernel
