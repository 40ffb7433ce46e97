import UoDOS.FileSystem.TableChains

/-! # The chain that the boot loader follows

LoadFile of fat12.asm decodes the table with 16-bit registers and stops at the first entry from
0xFF0 on; the kernel stops at 0 and from 0xFF8 on.
-/
namespace UoDOS.FileSystem
open ByteMemory

def visits {α : Type} (next : α → Option α) (a : α) : ℕ → Option α
  | 0 => some a
  | n + 1 => (visits next a n).bind next

/-- LoadFile from the read of the table to LoadFile_Done: the value of DX. The table
lies at offset 0 of its segment, and offsets wrap at the end of the segment. -/
def LoadFile.entry (fat : ℕ → UInt8) (cluster : UInt16) : UInt16 :=
  let ax := cluster
  let cx := ax
  let dx := ax >>> 1
  let cx := cx + dx
  let bx : UInt16 := 0
  let bx := bx + cx
  let dx := UInt16.ofNat ((fat bx.toNat).toNat + 2^8 * (fat (bx + 1).toNat).toNat)
  if ax &&& 1 ≠ 0 then dx >>> 4 else dx &&& 0b0000111111111111

def LoadFile.next (fat : ℕ → UInt8) (cluster : UInt16) : Option UInt16 :=
  let dx := LoadFile.entry fat cluster
  if dx < 0xFF0 then some dx else none

def LoadFile (fat : ℕ → UInt8) (first : UInt16) : ℕ → Option UInt16 := visits (LoadFile.next fat) first

def kernelNext (M : Mounted) (cluster : ℕ) : Option ℕ :=
  let nextCluster := fsFat12GetNextCluster M cluster
  if nextCluster = 0 then none else some nextCluster

def kernelVisits (M : Mounted) (first : ℕ) : ℕ → Option ℕ := visits (kernelNext M) first

def Mounted.fatByte (M : Mounted) (i : ℕ) : UInt8 := M.memory (M.image.fat + i)

/-- Both visit the same clusters, in the same order, for ever or to the same end. -/
def SameVisits (M : Mounted) (first : UInt16) : Prop :=
  ∀ n, (LoadFile M.fatByte first n).map UInt16.toNat = kernelVisits M first.toNat n

/-- An entry on which the two tests for the end of a chain differ. -/
def Disputed (e : ℕ) : Prop := e = 0 ∨ 0xFF0 ≤ e ∧ e ≤ 0xFF7

def Met (M : Mounted) (first : UInt16) (e : ℕ) : Prop :=
  ∃ n c, ((LoadFile M.fatByte first n).map UInt16.toNat = some c ∨ kernelVisits M first.toNat n = some c) ∧
    tableEntry M c = e

/-- The offset of the cluster's entry does not pass the end of a segment. -/
def InSegment (c : ℕ) : Prop := c + c / 2 + 1 < 2^16

variable {M : Mounted} {first c : UInt16} {n : ℕ}

theorem LoadFile.offset (c : UInt16) : (c + c >>> 1).toNat = (c.toNat + c.toNat / 2) % 2^16 := by
  rw [UInt16.toNat_add,UInt16.toNat_shiftRight]
  rfl

theorem LoadFile.odd_iff (c : UInt16) : c &&& 1 ≠ 0 ↔ c.toNat % 2 = 1 := by
  have hand : (c &&& 1).toNat = c.toNat % 2 := by
    rw [UInt16.toNat_and]
    exact Nat.and_one_is_mod _
  rw [Ne,← UInt16.toNat_inj,hand]
  have : (0 : UInt16).toNat = 0 := rfl
  omega

theorem LoadFile.entry_toNat (fat : ℕ → UInt8) (c : UInt16) : (LoadFile.entry fat c).toNat =
    let pair := (fat ((c.toNat + c.toNat / 2) % 2^16)).toNat +
      2^8 * (fat ((c.toNat + c.toNat / 2 + 1) % 2^16)).toNat
    if c.toNat % 2 = 1 then pair / 2^4 else pair % 2^12 := by
  have hnext : (c + c >>> 1 + 1).toNat = (c.toNat + c.toNat / 2 + 1) % 2^16 := by
    rw [UInt16.toNat_add,LoadFile.offset]
    exact Nat.mod_add_mod _ _ _
  have h1 := (fat ((c.toNat + c.toNat / 2) % 2^16)).toNat_lt
  have h2 := (fat ((c.toNat + c.toNat / 2 + 1) % 2^16)).toNat_lt
  simp only [LoadFile.entry,UInt16.zero_add,LoadFile.offset,hnext,LoadFile.odd_iff]
  have hword : (UInt16.ofNat ((fat ((c.toNat + c.toNat / 2) % 2^16)).toNat +
      2^8 * (fat ((c.toNat + c.toNat / 2 + 1) % 2^16)).toNat)).toNat =
      (fat ((c.toNat + c.toNat / 2) % 2^16)).toNat +
        2^8 * (fat ((c.toNat + c.toNat / 2 + 1) % 2^16)).toNat := by
    rw [UInt16.toNat_ofNat']
    omega
  split_ifs with hodd
  · rw [UInt16.toNat_shiftRight,hword]
    exact Nat.shiftRight_eq_div_pow _ 4
  · rw [UInt16.toNat_and,hword]
    exact Nat.and_two_pow_sub_one_eq_mod _ 12

theorem LoadFile.entry_eq (hc : InSegment c.toNat) : (LoadFile.entry M.fatByte c).toNat = tableEntry M c.toNat := by
  unfold InSegment at hc
  rw [LoadFile.entry_toNat,Nat.mod_eq_of_lt (show c.toNat + c.toNat / 2 < 2^16 by omega),Nat.mod_eq_of_lt hc]
  rfl

theorem LoadFile.next_eq (hc : InSegment c.toNat) : (LoadFile.next M.fatByte c).map UInt16.toNat =
    if tableEntry M c.toNat < 0xFF0 then some (tableEntry M c.toNat) else none := by
  have he := LoadFile.entry_eq (M := M) hc
  have hlt : LoadFile.entry M.fatByte c < 0xFF0 ↔ tableEntry M c.toNat < 0xFF0 := by
    rw [UInt16.lt_iff_toNat_lt,he]
    rfl
  simp only [LoadFile.next,hlt]
  split_ifs
  · rw [Option.map_some,he]
  · rfl

theorem kernelNext_eq {c : ℕ} (hc : c < 2^16) : kernelNext M c =
    if 0xFF8 ≤ tableEntry M c ∨ tableEntry M c = 0 then none else some (tableEntry M c) := by
  simp only [kernelNext,getNextCluster_eq M hc]
  by_cases h1 : 0xFF8 ≤ tableEntry M c
  · simp [h1]
  · simp [h1]

theorem next_agree_iff (hc : InSegment c.toNat) :
    (LoadFile.next M.fatByte c).map UInt16.toNat = kernelNext M c.toNat ↔ ¬ Disputed (tableEntry M c.toNat) := by
  rw [LoadFile.next_eq hc,kernelNext_eq c.toNat_lt,Disputed]
  split_ifs with h1 h2 h2
  · simp
    omega
  · simp
    omega
  · simp
    omega
  · simp
    omega

theorem LoadFile.lt_of_succ (h : LoadFile M.fatByte first (n + 1) = some c) : c.toNat < 2^12 := by
  obtain ⟨d,-,hd⟩ := Option.bind_eq_some_iff.mp h
  simp only [LoadFile.next] at hd
  split_ifs at hd with hlt
  cases hd
  have hle : (LoadFile.entry M.fatByte d).toNat < 0xFF0 := UInt16.lt_iff_toNat_lt.mp hlt
  omega

theorem LoadFile.inSegment (hf : InSegment first.toNat) (h : LoadFile M.fatByte first n = some c) :
    InSegment c.toNat := by
  cases n with
  | zero =>
    cases h
    exact hf
  | succ n =>
    have hlt := LoadFile.lt_of_succ h
    unfold InSegment
    omega

theorem kernelVisits_lt_of_succ {first c : ℕ} (hf : first < 2^16) (h : kernelVisits M first (n + 1) = some c) :
    c < 2^12 := by
  induction n generalizing c with
  | zero =>
    have hn : kernelNext M first = some c := h
    rw [kernelNext_eq hf] at hn
    split_ifs at hn
    cases hn
    exact tableEntry_lt M first
  | succ n ih =>
    obtain ⟨d,hd,hn⟩ := Option.bind_eq_some_iff.mp h
    have hlt := ih hd
    rw [kernelNext_eq (by omega)] at hn
    split_ifs at hn
    cases hn
    exact tableEntry_lt M d

theorem same_visits_iff (hf : InSegment first.toNat) :
    SameVisits M first ↔ ∀ e, Met M first e → ¬ Disputed e := by
  constructor
  · rintro h e ⟨n,c,hc,rfl⟩
    -- both are at the cluster, and both go on in the same way
    have hload : (LoadFile M.fatByte first n).map UInt16.toNat = some c := by
      rcases hc with hc | hc
      · exact hc
      · rw [h n,hc]
    obtain ⟨d,hd,rfl⟩ := Option.map_eq_some_iff.mp hload
    have hk : kernelVisits M first.toNat n = some d.toNat := by rw [← h n,hload]
    have hnext := h (n + 1)
    rw [LoadFile,visits,← LoadFile,hd,kernelVisits,visits,← kernelVisits,hk] at hnext
    exact (next_agree_iff (LoadFile.inSegment hf hd)).mp hnext
  · intro h n
    induction n with
    | zero => rfl
    | succ n ih =>
      rw [LoadFile,visits,← LoadFile,kernelVisits,visits,← kernelVisits,← ih]
      cases hl : LoadFile M.fatByte first n with
      | none => rfl
      | some c =>
        have hmet : Met M first (tableEntry M c.toNat) := ⟨n,c.toNat,.inl (by rw [hl]; rfl),rfl⟩
        exact (next_agree_iff (LoadFile.inSegment hf hl)).mpr (h _ hmet)

/-- A table of end markers but for the two bytes at the entry of `first`. -/
def longOffset (first : ℕ) : Mounted where
  image := smallKernel
  memory x := if x = smallKernel.fat + (first + first / 2) ∨ x = smallKernel.fat + (first + first / 2 + 1)
    then 0x11 else 0xFF
  volume := smallVolume
  disk := fun _ _ => 0

theorem longOffset_byte (first i : ℕ) : (longOffset first).fatByte i =
    if i = first + first / 2 ∨ i = first + first / 2 + 1 then 0x11 else 0xFF := by
  have h1 : ∀ j, smallKernel.fat + i = smallKernel.fat + j ↔ i = j := fun j => Nat.add_left_cancel_iff
  simp only [Mounted.fatByte,longOffset,h1]

theorem longOffset_first (first : ℕ) : tableEntry (longOffset first) first = 0x111 := by
  have h1 := longOffset_byte first (first + first / 2)
  have h2 := longOffset_byte first (first + first / 2 + 1)
  rw [if_pos (.inl rfl)] at h1
  rw [if_pos (.inr rfl)] at h2
  unfold Mounted.fatByte at h1 h2
  simp only [tableEntry,h1,h2]
  split_ifs <;> rfl

theorem longOffset_later {first c : ℕ} (hf : ¬ InSegment first) (hc : c < 2^12) :
    tableEntry (longOffset first) c = 0xFFF := by
  unfold InSegment at hf
  have h1 := longOffset_byte first (c + c / 2)
  have h2 := longOffset_byte first (c + c / 2 + 1)
  rw [if_neg (by omega)] at h1 h2
  unfold Mounted.fatByte at h1 h2
  simp only [tableEntry,h1,h2]
  split_ifs <;> rfl

theorem longOffset_loader (hf : ¬ InSegment first.toNat) :
    0xF00 ≤ (LoadFile.entry (longOffset first.toNat).fatByte first).toNat := by
  unfold InSegment at hf
  have hlt := first.toNat_lt
  have hff := longOffset_byte first.toNat ((first.toNat + first.toNat / 2 + 1) % 2^16)
  rw [if_neg (by omega)] at hff
  have hbyte : (0xFF : UInt8).toNat = 255 := rfl
  have h1 := ((longOffset first.toNat).fatByte ((first.toNat + first.toNat / 2) % 2^16)).toNat_lt
  rw [LoadFile.entry_toNat,hff]
  simp only [hbyte]
  split_ifs <;> omega

theorem longOffset_clean (hf : ¬ InSegment first.toNat) (e : ℕ)
    (h : Met (longOffset first.toNat) first e) : ¬ Disputed e := by
  obtain ⟨n,c,hc,rfl⟩ := h
  cases n with
  | zero =>
    have hcf : c = first.toNat := by
      rcases hc with hc | hc
      · exact (Option.some.inj hc).symm
      · exact (Option.some.inj hc).symm
    rw [hcf,longOffset_first]
    unfold Disputed
    omega
  | succ n =>
    have hlt : c < 2^12 := by
      rcases hc with hc | hc
      · obtain ⟨d,hd,rfl⟩ := Option.map_eq_some_iff.mp hc
        exact LoadFile.lt_of_succ hd
      · exact kernelVisits_lt_of_succ first.toNat_lt hc
    rw [longOffset_later hf hlt]
    unfold Disputed
    omega

theorem longOffset_differs (hf : ¬ InSegment first.toNat) : ¬ SameVisits (longOffset first.toNat) first := by
  intro h
  have hk : kernelNext (longOffset first.toNat) first.toNat = some 0x111 := by
    rw [kernelNext_eq first.toNat_lt,longOffset_first]
    rfl
  have hone : (LoadFile.next (longOffset first.toNat).fatByte first).map UInt16.toNat =
      kernelNext (longOffset first.toNat) first.toNat := h 1
  rw [hk] at hone
  obtain ⟨d,hd,hd'⟩ := Option.map_eq_some_iff.mp hone
  simp only [LoadFile.next] at hd
  split_ifs at hd
  cases hd
  have hle := longOffset_loader hf
  omega

/-- The two agree exactly on the chains without a disputed entry, if and only if the
entry of the first cluster lies inside a segment. -/
theorem same_visits_of_segment (first : UInt16) :
    (∀ M, SameVisits M first ↔ ∀ e, Met M first e → ¬ Disputed e) ↔ InSegment first.toNat := by
  constructor
  · intro h
    by_contra hno
    exact longOffset_differs hno ((h (longOffset first.toNat)).mpr (longOffset_clean hno))
  · intro hf M
    exact same_visits_iff hf

/-- For the first cluster 0xFFFF the loader reads the table at 0x7FFE and the kernel at
0x17FFE. -/
theorem first_cluster_wraps : ¬ (SameVisits (longOffset (0xFFFF : UInt16).toNat) 0xFFFF ↔
    ∀ e, Met (longOffset (0xFFFF : UInt16).toNat) 0xFFFF e → ¬ Disputed e) := by
  have hf : ¬ InSegment (0xFFFF : UInt16).toNat := by
    unfold InSegment
    decide
  intro h
  exact longOffset_differs hf (h.mpr (longOffset_clean hf))

end UoDOS.FileSystem
