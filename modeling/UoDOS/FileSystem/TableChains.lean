import UoDOS.FileSystem.ClusterReads

/-! # Chains in the table

The table in memory holds 12 bits for each cluster. A chain of clusters of data that
ends with an end marker has no cluster twice.
-/
namespace UoDOS.FileSystem
open ByteMemory

def tableEntry (M : Mounted) (c : ℕ) : ℕ :=
  let byte i := (M.memory (M.image.fat + i)).toNat
  let pair := byte (c + c / 2) + 2^8 * byte (c + c / 2 + 1)
  if c % 2 = 1 then pair / 2^4 else pair % 2^12

def DataCluster (c : ℕ) : Prop := 2 ≤ c ∧ c < 0xff0

inductive TableChain (M : Mounted) : ℕ → List ℕ → Prop
  | last {c : ℕ} : DataCluster c → 0xff8 ≤ tableEntry M c → TableChain M c [c]
  | next {c : ℕ} {cs : List ℕ} : DataCluster c → TableChain M (tableEntry M c) cs → TableChain M c (c :: cs)

variable {M : Mounted} {c : ℕ} {cs cs' : List ℕ}

theorem tableEntry_lt (M : Mounted) (c : ℕ) : tableEntry M c < 2^12 := by
  have h1 := (M.memory (M.image.fat + (c + c / 2))).toNat_lt
  have h2 := (M.memory (M.image.fat + (c + c / 2 + 1))).toNat_lt
  simp only [tableEntry]
  split_ifs <;> omega

theorem getNextCluster_lt (M : Mounted) (c : ℕ) : fsFat12GetNextCluster M c < 2^12 := by
  simp only [fsFat12GetNextCluster]
  split_ifs with hodd
  · norm_num
  · norm_num
  · rw [UInt16.toNat_shiftRight]
    have h := (readHalf M.memory ((M.image.fat + (c + c / 2) % 2^32) % 2^32)).toNat_lt
    change _ >>> 4 < _
    rw [Nat.shiftRight_eq_div_pow]
    omega
  · norm_num
  · norm_num
  · rw [UInt16.toNat_and]
    exact Nat.and_lt_two_pow _ (by decide)

theorem getNextCluster_eq (M : Mounted) (hc : c < 2^16) : fsFat12GetNextCluster M c =
    if 0xff8 ≤ tableEntry M c then 0 else tableEntry M c := by
  have hfat := M.image.fat_lt
  have ho : (M.image.fat + (c + c / 2) % 2^32) % 2^32 = M.image.fat + (c + c / 2) := by omega
  have h1 := (M.memory (M.image.fat + (c + c / 2))).toNat_lt
  have h2 := (M.memory (M.image.fat + (c + c / 2 + 1))).toNat_lt
  have hodd : (c &&& 1 ≠ 0) ↔ c % 2 = 1 := by
    rw [Nat.and_one_is_mod]
    omega
  have hhalf : (readHalf M.memory (M.image.fat + (c + c / 2))).toNat =
      (M.memory (M.image.fat + (c + c / 2))).toNat + 2^8 * (M.memory (M.image.fat + (c + c / 2 + 1))).toNat := by
    rw [readHalf,UInt16.toNat_ofNat',Nat.add_assoc]
    omega
  have hentry : (if c &&& 1 ≠ 0 then readHalf M.memory (M.image.fat + (c + c / 2)) >>> 4
      else readHalf M.memory (M.image.fat + (c + c / 2)) &&& 0x0FFF).toNat = tableEntry M c := by
    simp only [hodd,tableEntry]
    split_ifs with hc1
    · rw [UInt16.toNat_shiftRight,hhalf]
      exact Nat.shiftRight_eq_div_pow _ 4
    · rw [UInt16.toNat_and,hhalf]
      exact Nat.and_two_pow_sub_one_eq_mod _ 12
  simp only [fsFat12GetNextCluster,ho]
  generalize (if c &&& 1 ≠ 0 then readHalf M.memory (M.image.fat + (c + c / 2)) >>> 4
    else readHalf M.memory (M.image.fat + (c + c / 2)) &&& 0x0FFF) = x at hentry ⊢
  rw [← hentry]
  have hle : 0xff8 ≤ x ↔ 0xff8 ≤ x.toNat := UInt16.le_iff_toNat_le
  simp only [hle]
  split_ifs with h3 h4
  · rfl
  · rw [h4]
    rfl
  · rfl

theorem DataCluster.next_eq (hc : DataCluster c) (hn : DataCluster (tableEntry M c)) :
    fsFat12GetNextCluster M c = tableEntry M c := by
  obtain ⟨-,hlt⟩ := hc
  obtain ⟨-,hlt'⟩ := hn
  rw [getNextCluster_eq M (by omega),if_neg (by omega)]

namespace TableChain

theorem head (h : TableChain M c cs) : DataCluster c ∧ cs.head? = some c := by
  cases h with
  | last hc _ => exact ⟨hc,rfl⟩
  | next hc _ => exact ⟨hc,rfl⟩

theorem data (h : TableChain M c cs) : ∀ x ∈ cs, DataCluster x := by
  induction h with
  | last hc _ => simpa using hc
  | next hc _ ih => exact List.forall_mem_cons.mpr ⟨hc,ih⟩

theorem iterate (h : TableChain M c cs) {k : ℕ} (hk : k ≤ cs.length) :
    (fsFat12GetNextCluster M)^[k] c = cs.getD k 0 := by
  induction h generalizing k with
  | last hc he =>
    have hlt := hc.2
    cases k with
    | zero => rfl
    | succ k =>
      obtain rfl : k = 0 := by simpa using hk
      rw [Function.iterate_one,getNextCluster_eq M (by omega),if_pos he]
      rfl
  | next hc h ih =>
    cases k with
    | zero => rfl
    | succ k =>
      rw [Function.iterate_succ_apply,hc.next_eq h.head.1,ih (by simpa using hk)]
      rfl

theorem next_getD (h : TableChain M c cs) {k : ℕ} (hk : k < cs.length) :
    fsFat12GetNextCluster M (cs.getD k 0) = cs.getD (k + 1) 0 := by
  rw [← h.iterate hk.le,← h.iterate hk,Function.iterate_succ_apply']

theorem unique (h : TableChain M c cs) (h' : TableChain M c cs') : cs = cs' := by
  induction h generalizing cs' with
  | last hc he =>
    cases h' with
    | last => rfl
    | next _ hn =>
      have hlt := hn.head.1.2
      omega
  | next hc hn ih =>
    cases h' with
    | last _ he =>
      have hlt := hn.head.1.2
      omega
    | next _ hn' => rw [ih hn']

theorem drop (h : TableChain M c cs) {i : ℕ} (hi : i < cs.length) :
    TableChain M (cs.getD i 0) (cs.drop i) := by
  induction h generalizing i with
  | last hc he =>
    obtain rfl : i = 0 := by simpa using hi
    exact .last hc he
  | next hc hn ih =>
    cases i with
    | zero => exact .next hc hn
    | succ i => exact ih (by simpa using hi)

theorem length_le (h : TableChain M c cs) : cs.length ≤ 0xff0 := by
  have hnodup : cs.Nodup := by
    rw [List.nodup_iff_pairwise_ne,List.pairwise_iff_getElem]
    intro i j hi hj hij he
    have hi' := h.drop hi
    have hj' := h.drop hj
    rw [List.getD_eq_getElem _ _ hi] at hi'
    rw [List.getD_eq_getElem _ _ hj,← he] at hj'
    have hlen := congrArg List.length (hi'.unique hj')
    rw [List.length_drop,List.length_drop] at hlen
    omega
  have hsub : cs ⊆ List.range 0xff0 := fun x hx => List.mem_range.mpr (h.data x hx).2
  simpa using (List.subperm_of_subset hnodup hsub).length_le

end TableChain

end UoDOS.FileSystem
