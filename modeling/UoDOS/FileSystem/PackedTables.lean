import UoDOS.FileSystem.TableChains

/-! # Tables in FAT12 form

Two entries of 12 bits are packed into three bytes, the low bits first.
-/
namespace UoDOS.FileSystem
open ByteMemory

/-- The value of byte `i` of a packed table; behind the end of the list the entries are `pad`. -/
def packedValue (es : List (BitVec 12)) (pad : BitVec 12) (i : ℕ) : ℕ :=
  let low := (es.getD (2 * (i / 3)) pad).toNat
  let high := (es.getD (2 * (i / 3) + 1) pad).toNat
  if i % 3 = 0 then low % 2^8
  else if i % 3 = 1 then low / 2^8 + 2^4 * (high % 2^4)
  else high / 2^4

/-- The array `fat` holds the packed entries, as far as it goes. -/
def Packed (M : Mounted) (es : List (BitVec 12)) (pad : BitVec 12) : Prop :=
  ∀ i, i < (3 * es.length + 1) / 2 → i < BSIZE * MAXFATSIZE →
    (M.memory (M.image.fat + i)).toNat = packedValue es pad i

variable {M : Mounted} {es : List (BitVec 12)} {pad : BitVec 12} {c : ℕ}

theorem packedValue_lt (es : List (BitVec 12)) (pad : BitVec 12) (i : ℕ) : packedValue es pad i < 2^8 := by
  have hlow := (es.getD (2 * (i / 3)) pad).isLt
  have hhigh := (es.getD (2 * (i / 3) + 1) pad).isLt
  simp only [packedValue]
  split_ifs <;> omega

def packedMemory (K : KernelImage) (es : List (BitVec 12)) (pad : BitVec 12) : Bytes :=
  fun a => UInt8.ofNat (packedValue es pad (a - K.fat))

theorem packedMemory_packed (M : Mounted) (es : List (BitVec 12)) (pad : BitVec 12) :
    Packed { M with memory := packedMemory M.image es pad } es pad := by
  intro i _ _
  have hlt := packedValue_lt es pad i
  change (UInt8.ofNat (packedValue es pad (M.image.fat + i - M.image.fat))).toNat = _
  rw [Nat.add_sub_cancel_left,UInt8.toNat_ofNat',Nat.mod_eq_of_lt hlt]

theorem packedValue_pair (es : List (BitVec 12)) (pad : BitVec 12) (c : ℕ) :
    (let pair := packedValue es pad (c + c / 2) + 2^8 * packedValue es pad (c + c / 2 + 1)
    if c % 2 = 1 then pair / 2^4 else pair % 2^12) = (es.getD c pad).toNat := by
  have he := (es.getD c pad).isLt
  rcases Nat.even_or_odd' c with ⟨k,rfl | rfl⟩
  · have h0 : 2 * k + 2 * k / 2 = 3 * k := by omega
    have hhigh := (es.getD (2 * k + 1) pad).isLt
    simp only [packedValue,h0,Nat.mul_mod_right,show (3 * k + 1) % 3 = 1 by omega,
      show 3 * k / 3 = k by omega,show (3 * k + 1) / 3 = k by omega,↓reduceIte,one_ne_zero,zero_ne_one]
    omega
  · have h0 : 2 * k + 1 + (2 * k + 1) / 2 = 3 * k + 1 := by omega
    have hlow := (es.getD (2 * k) pad).isLt
    simp only [packedValue,h0,show (3 * k + 1) % 3 = 1 by omega,show (3 * k + 1 + 1) % 3 = 2 by omega,
      show (3 * k + 1) / 3 = k by omega,show (3 * k + 1 + 1) / 3 = k by omega,
      show (2 * k + 1) % 2 = 1 by omega,↓reduceIte,one_ne_zero,OfNat.ofNat_ne_zero,OfNat.ofNat_ne_one]
    omega

theorem Packed.tableEntry (h : Packed M es pad) (hc : c < es.length) (hf : c + c / 2 + 1 < BSIZE * MAXFATSIZE) :
    tableEntry M c = (es.getD c pad).toNat := by
  rw [← packedValue_pair es pad c,FileSystem.tableEntry]
  simp only [h (c + c / 2) (by omega) (by omega),h (c + c / 2 + 1) (by omega) hf]

theorem Packed.getNextCluster (h : Packed M es pad) (hc : c < es.length)
    (hf : c + c / 2 + 1 < BSIZE * MAXFATSIZE) : fsFat12GetNextCluster M c =
      if es[c].toNat = 0 ∨ 0xFF8 ≤ es[c].toNat then 0 else es[c].toNat := by
  have hlt : c < 2^16 := by
    simp only [BSIZE,MAXFATSIZE] at hf
    omega
  rw [getNextCluster_eq M hlt,h.tableEntry hc hf,List.getD_eq_getElem es pad hc]
  split_ifs <;> omega

/-- The successor of a cluster is its entry, and the other entries do not matter for it. -/
theorem getNextCluster_packed (h : Packed M es pad) (hc : c < es.length)
    (hf : c + c / 2 + 1 < BSIZE * MAXFATSIZE) :
    fsFat12GetNextCluster M c = (if es[c].toNat = 0 ∨ 0xFF8 ≤ es[c].toNat then 0 else es[c].toNat) ∧
      ∀ k x pad' (M' : Mounted), k ≠ c → Packed M' (es.set k x) pad' →
        fsFat12GetNextCluster M' c = fsFat12GetNextCluster M c := by
  refine ⟨h.getNextCluster hc hf,fun k x pad' M' hk h' => ?_⟩
  have hc' : c < (es.set k x).length := by rwa [List.length_set]
  rw [h'.getNextCluster hc' hf,h.getNextCluster hc hf,List.getElem_set_ne hk]

theorem getNextCluster_packed_three : ∃ M : Mounted, Packed M [0x123#12,0xABC#12,0xFFF#12] 0 ∧
    fsFat12GetNextCluster M 1 = 0xABC ∧ ∀ k x pad' (M' : Mounted), k ≠ 1 →
      Packed M' ([0x123#12,0xABC#12,0xFFF#12].set k x) pad' → fsFat12GetNextCluster M' 1 = fsFat12GetNextCluster M 1 := by
  have h := packedMemory_packed (twoClusters true) [0x123#12,0xABC#12,0xFFF#12] 0
  obtain ⟨hnext,hother⟩ := getNextCluster_packed h (c := 1) (by decide) (by decide)
  exact ⟨_,h,hnext,hother⟩

end UoDOS.FileSystem
