import UoDOS.Library.Strings

/-! # File names in the form of a directory entry

toDosFileName of fs.c turns a name of a path into the eleven bytes of a directory entry, and
strcmp of string.c compares them.
-/
namespace UoDOS.FileSystem
open ByteMemory Strings Function

def dot : UInt8 := 46
def space : UInt8 := 32

def toupper (c : UInt8) : UInt8 := if 97 ≤ c ∧ c ≤ 122 then c + 65 - 97 else c

/-- The loop over the first part of the name, with `n` places left in the result. -/
def copyBase (filename : CString) : ℕ → ℕ → Bytes → ℕ × Bytes
  | 0, i, converted => (i,converted)
  | n + 1, i, converted =>
    if i < filename.length then
      if filename.bytes i = dot ∨ i = 8 then (i,converted)
      else copyBase filename n (i + 1) (update converted i (toupper (filename.bytes i)))
    else (i,converted)

/-- The loop over the extension, which starts behind the place `i` of the point. -/
def copyExtension (filename : CString) (i : ℕ) (converted : Bytes) : Bytes :=
  (List.range 3).foldl (fun converted k =>
    if filename.bytes (i + k + 1) ≠ 0 then
      update converted (k + 8) (toupper (filename.bytes (i + k + 1)))
    else converted) converted

def toDosFileName (filename : CString) (converted : Bytes) (filenameLength : ℕ) : Bytes :=
  if 11 < filenameLength then converted
  else
    let converted := fill converted 0 filenameLength space
    if filename.length = 1 ∧ filename.bytes 0 = dot then update converted 0 dot
    else if filename.length = 2 ∧ filename.bytes 0 = dot ∧ filename.bytes 1 = dot then
      update (update converted 0 dot) 1 dot
    else
      let (i,converted) := copyBase filename filenameLength 0 converted
      if filename.bytes i = dot then copyExtension filename i converted else converted

/-- The loop of strcmp, with `n` bytes of the second string to come. -/
def compareFrom (str1 str2 : Bytes) : ℕ → ℕ → ℤ
  | 0, i => Int.sign ((str1 i).toNat - (str2 i).toNat)
  | n + 1, i =>
    if str1 i = str2 i ∧ str2 i ≠ 0 then compareFrom str1 str2 n (i + 1)
    else Int.sign ((str1 i).toNat - (str2 i).toNat)

def strcmp (str1 str2 : CString) : ℤ := compareFrom str1.bytes str2.bytes str2.length 0

/-- The loop of safestrcpy, with `n` bytes of the destination left before the last. -/
def safestrcpyFrom (s t : Bytes) : ℕ → ℕ → Bytes
  | 0, i => update s i 0
  | n + 1, i =>
    let s := update s i (t i)
    if t i ≠ 0 then safestrcpyFrom s t n (i + 1) else update s (i + 1) 0

def safestrcpy (s t : Bytes) (n : ℤ) : Bytes :=
  if n ≤ 0 then s else safestrcpyFrom s t (n - 1).toNat 0

/-- The local `dosFileName` of the two searches, an array with its last byte cleared. -/
def dosFileName (nameToFind : CString) (junk : Bytes) : CString :=
  .ofBuffer (update (toDosFileName nameToFind junk 11) 11 0) 11 (by simp)

theorem safestrcpyFrom_outside {s t : Bytes} {n i x : ℕ} (h : x < i ∨ i + n < x) :
    safestrcpyFrom s t n i x = s x := by
  induction n generalizing s i with
  | zero => exact update_of_ne (by omega) _ _
  | succ n ih =>
    rw [safestrcpyFrom]
    split_ifs
    · rw [ih (by omega),update_of_ne (by omega)]
    · rw [update_of_ne (by omega),update_of_ne (by omega)]

theorem safestrcpyFrom_text {s t : Bytes} {n i k : ℕ} (ht : ∀ j, i ≤ j → j < k → t j ≠ 0)
    (hk : k ≤ i + n) {x : ℕ} (h1 : i ≤ x) (h2 : x < k) : safestrcpyFrom s t n i x = t x := by
  induction n generalizing s i with
  | zero => omega
  | succ n ih =>
    rw [safestrcpyFrom]
    rw [if_pos (ht i le_rfl (by omega))]
    rcases Nat.eq_or_lt_of_le h1 with rfl | hl
    · rw [safestrcpyFrom_outside (by omega),update_self]
    · exact ih (fun j hj => ht j (by omega)) (by omega) hl

theorem safestrcpyFrom_end {s t : Bytes} {n i k : ℕ} (ht : ∀ j, i ≤ j → j < k → t j ≠ 0)
    (hi : i ≤ k) (hk : k < i + n ∧ t k = 0 ∨ k = i + n) : safestrcpyFrom s t n i k = 0 := by
  induction n generalizing s i with
  | zero =>
    rw [show k = i by omega]
    exact update_self ..
  | succ n ih =>
    rw [safestrcpyFrom]
    rcases Nat.eq_or_lt_of_le hi with rfl | hl
    · have hz : t i = 0 := by
        rcases hk with ⟨-,hz⟩ | he
        · exact hz
        · omega
      rw [if_neg (by simp [hz]),update_of_ne (by omega),update_self,hz]
    · rw [if_pos (ht i le_rfl hl)]
      apply ih (fun j hj => ht j (by omega)) hl
      rcases hk with ⟨hk,hz⟩ | hk
      · exact .inl ⟨by omega,hz⟩
      · exact .inr (by omega)

theorem safestrcpy_outside {s t : Bytes} {n : ℤ} {x : ℕ} (h : n ≤ x) : safestrcpy s t n x = s x := by
  unfold safestrcpy
  split_ifs
  · rfl
  · exact safestrcpyFrom_outside (by omega)

theorem safestrcpy_text {s t : Bytes} {n : ℤ} {k x : ℕ} (ht : ∀ j < k, t j ≠ 0) (hk : k < n)
    (hx : x < k) : safestrcpy s t n x = t x := by
  rw [safestrcpy,if_neg (by omega)]
  exact safestrcpyFrom_text (fun j _ => ht j) (by omega) (Nat.zero_le x) hx

theorem safestrcpy_end {s t : Bytes} {n : ℤ} {k : ℕ} (ht : ∀ j < k, t j ≠ 0) (hk : k < n)
    (he : t k = 0 ∨ k + 1 = n) : safestrcpy s t n k = 0 := by
  rw [safestrcpy,if_neg (by omega)]
  apply safestrcpyFrom_end (fun j _ => ht j) (Nat.zero_le k)
  rcases he with he | he
  · by_cases hl : (k : ℤ) + 1 = n
    · right
      omega
    · left
      exact ⟨by omega,he⟩
  · right
    omega

def copied (t : CString) (s : Bytes) (n : ℕ) (hn : 0 < n) : CString where
  bytes := safestrcpy s t.bytes n
  length := min t.length (n - 1)
  terminated := by
    apply safestrcpy_end (fun j hj => t.nonzero j (by omega)) (by omega)
    rcases Nat.le_total t.length (n - 1) with h | h
    · left
      rw [Nat.min_eq_left h,t.terminated]
    · right
      rw [Nat.min_eq_right h]
      omega
  nonzero := by
    intro i hi
    rw [safestrcpy_text (k := i + 1) (fun j hj => t.nonzero j (by omega)) (by omega) (by omega)]
    exact t.nonzero i (by omega)

theorem copied_text (t : CString) (s : Bytes) (n : ℕ) (hn : 0 < n) :
    (copied t s n hn).text = t.text.take (n - 1) := by
  have hlen : (t.text.take (n - 1)).length = min t.length (n - 1) := by
    rw [List.length_take,text_length,Nat.min_comm]
  apply text_eq
  · intro i hi
    rw [List.getElem_take,text_getElem]
    exact safestrcpy_text (k := i + 1) (fun j hj => t.nonzero j (by omega)) (by omega) (by omega)
  · intro c hc
    exact text_ne_zero t c (List.mem_of_mem_take hc)
  · rw [hlen]
    exact (copied t s n hn).terminated

theorem toupper_ne_zero {c : UInt8} (h : c ≠ 0) : toupper c ≠ 0 := by
  revert c
  decide +kernel

theorem sign_sub_eq_zero {a b : UInt8} : Int.sign ((a.toNat : ℤ) - b.toNat) = 0 ↔ a = b := by
  rw [Int.sign_eq_zero_iff_zero,sub_eq_zero,Nat.cast_inj,UInt8.toNat_inj]

theorem compareFrom_eq_zero {s t : Bytes} {n i : ℕ} (ht : ∀ j, i ≤ j → j < i + n → t j ≠ 0) :
    compareFrom s t n i = 0 ↔ ∀ j, i ≤ j → j ≤ i + n → s j = t j := by
  induction n generalizing i with
  | zero =>
    rw [compareFrom,sign_sub_eq_zero]
    constructor
    · intro h j h1 h2
      rw [show j = i by omega]
      exact h
    · intro h
      exact h i (by omega) (by omega)
  | succ n ih =>
    have h0 : t i ≠ 0 := ht i (by omega) (by omega)
    rw [compareFrom]
    by_cases he : s i = t i
    · rw [if_pos ⟨he,h0⟩,ih (fun j h1 h2 => ht j (by omega) (by omega))]
      constructor
      · intro h j h1 h2
        rcases Nat.eq_or_lt_of_le h1 with rfl | hl
        · exact he
        · exact h j hl (by omega)
      · intro h j h1 h2
        exact h j (by omega) (by omega)
    · rw [if_neg (fun h => he h.1),sign_sub_eq_zero]
      constructor
      · intro h
        exact absurd h he
      · intro h
        exact h i (by omega) (by omega)

theorem strcmp_eq_zero {s t : CString} :
    strcmp s t = 0 ↔ ∀ j ≤ t.length, s.bytes j = t.bytes j := by
  rw [strcmp,compareFrom_eq_zero (fun j _ hj => t.nonzero j (by omega))]
  simp

theorem strcmp_comm {s t : CString} : strcmp s t = 0 ↔ strcmp t s = 0 := by
  suffices h : ∀ s t : CString, strcmp s t = 0 → strcmp t s = 0 from ⟨h s t,h t s⟩
  intro s t h
  rw [strcmp_eq_zero] at h ⊢
  have hz : s.bytes t.length = 0 := by rw [h t.length le_rfl,t.terminated]
  have hle : s.length ≤ t.length := by
    by_contra hlt
    exact s.nonzero t.length (not_le.mp hlt) hz
  intro j hj
  exact (h j (hj.trans hle)).symm

theorem copyBase_ne_zero {f : CString} {n i : ℕ} {b : Bytes} {j : ℕ} (h : b j ≠ 0) :
    (copyBase f n i b).2 j ≠ 0 := by
  induction n generalizing i b with
  | zero => exact h
  | succ n ih =>
    rw [copyBase]
    split_ifs with hl hd
    · exact h
    · apply ih
      rcases eq_or_ne j i with rfl | hj
      · rw [update_self]
        exact toupper_ne_zero (f.nonzero j hl)
      · rw [update_of_ne hj]
        exact h
    · exact h

theorem copyExtension_ne_zero {f : CString} {i : ℕ} {b : Bytes} {j : ℕ} (h : b j ≠ 0) :
    copyExtension f i b j ≠ 0 := by
  unfold copyExtension
  generalize List.range 3 = ks
  induction ks generalizing b with
  | nil => exact h
  | cons k ks ih =>
    rw [List.foldl_cons]
    apply ih
    split_ifs with hz
    · rcases eq_or_ne j (k + 8) with rfl | hj
      · rw [update_self]
        exact toupper_ne_zero hz
      · rw [update_of_ne hj]
        exact h
    · exact h

theorem toDosFileName_ne_zero (f : CString) (junk : Bytes) {j : ℕ} (hj : j < 11) :
    toDosFileName f junk 11 j ≠ 0 := by
  have hs : fill junk 0 11 space j ≠ 0 := by
    rw [fill,if_pos (by omega)]
    decide
  have hd : ∀ (b : Bytes) (i : ℕ), b j ≠ 0 → update b i dot j ≠ 0 := by
    intro b i hb
    rcases eq_or_ne j i with rfl | hji
    · rw [update_self]
      decide
    · rwa [update_of_ne hji]
  unfold toDosFileName
  rw [if_neg (by decide)]
  dsimp only
  split_ifs
  · exact hd _ _ hs
  · exact hd _ _ (hd _ _ hs)
  · exact copyExtension_ne_zero (copyBase_ne_zero hs)
  · exact copyBase_ne_zero hs

theorem dosFileName_length (f : CString) (junk : Bytes) : (dosFileName f junk).length = 11 := by
  apply ofBuffer_length
  intro i hi
  rw [update_of_ne (Nat.ne_of_lt hi)]
  exact toDosFileName_ne_zero f junk hi

theorem strcmp_dosFileName {f : CString} {junk name : Bytes} :
    strcmp (.ofBuffer (update name 11 0) 11 (by simp)) (dosFileName f junk) = 0 ↔
      ∀ j < 11, name j = toDosFileName f junk 11 j := by
  rw [strcmp_eq_zero,dosFileName_length]
  simp only [dosFileName,ofBuffer_bytes]
  constructor
  · intro h j hj
    have he := h j (Nat.le_of_lt hj)
    rwa [update_of_ne (Nat.ne_of_lt hj),update_of_ne (Nat.ne_of_lt hj)] at he
  · intro h j hj
    rcases Nat.eq_or_lt_of_le hj with rfl | hl
    · simp
    · rw [update_of_ne (Nat.ne_of_lt hl),update_of_ne (Nat.ne_of_lt hl),h j hl]

end UoDOS.FileSystem
