import UoDOS.Library.ByteMemory

/-! # Terminated strings

What a `char *` points to: bytes up to the first zero, and whatever lies behind it.
-/
namespace UoDOS.Strings
open ByteMemory

structure CString where
  bytes : Bytes
  length : ℕ
  terminated : bytes length = 0
  nonzero : ∀ i < length, bytes i ≠ 0

theorem length_unique {s : CString} {n : ℕ} (hz : s.bytes n = 0) (hn : ∀ i < n, s.bytes i ≠ 0) :
    s.length = n := by
  rcases Nat.lt_trichotomy s.length n with h | h | h
  · exact absurd s.terminated (hn _ h)
  · exact h
  · exact absurd hz (s.nonzero n h)

theorem eq_of_bytes {s t : CString} (h : s.bytes = t.bytes) : s = t := by
  have hl : s.length = t.length := by
    apply length_unique
    · rw [h]
      exact t.terminated
    · rw [h]
      exact t.nonzero
  cases s
  cases t
  subst h hl
  rfl

def CString.text (s : CString) : List UInt8 := (List.range s.length).map s.bytes

@[simp] theorem text_length (s : CString) : s.text.length = s.length := by simp [CString.text]

theorem text_getElem (s : CString) {i : ℕ} (h : i < s.text.length) : s.text[i] = s.bytes i := by
  simp [CString.text]

theorem text_ne_zero (s : CString) : ∀ c ∈ s.text, c ≠ 0 := by
  intro c hc
  obtain ⟨i,hi,rfl⟩ := List.mem_map.mp hc
  exact s.nonzero i (List.mem_range.mp hi)

theorem text_eq {s : CString} {l : List UInt8} (hl : ∀ i (h : i < l.length), s.bytes i = l[i])
    (hn : ∀ c ∈ l, c ≠ 0) (hz : s.bytes l.length = 0) : s.text = l := by
  have hlen : s.length = l.length := by
    apply length_unique hz
    intro i hi
    rw [hl i hi]
    exact hn _ (List.getElem_mem hi)
  apply List.ext_getElem
  · rw [text_length,hlen]
  · intro i h1 h2
    rw [text_getElem,hl i h2]

def first (p : ℕ → Bool) (n : ℕ) : ℕ := (List.range n).findIdx p

theorem first_le (p : ℕ → Bool) (n : ℕ) : first p n ≤ n := by
  simpa [first] using (List.findIdx_le_length : (List.range n).findIdx p ≤ _)

theorem first_of_lt {p : ℕ → Bool} {n : ℕ} (h : first p n < n) : p (first p n) = true := by
  have hx : (List.range n).findIdx p < (List.range n).length := by simpa [first] using h
  simpa [first] using List.findIdx_getElem (w := hx)

theorem first_spec {p : ℕ → Bool} {n : ℕ} (h : p n = true) : p (first p n) = true := by
  by_cases hl : first p n < n
  · exact first_of_lt hl
  · have he : first p n = n := Nat.le_antisymm (first_le p n) (Nat.le_of_not_lt hl)
    rw [he]
    exact h

theorem not_of_lt_first {p : ℕ → Bool} {n i : ℕ} (h : i < first p n) : p i = false := by
  simpa using List.not_of_lt_findIdx h

theorem first_le_of {p : ℕ → Bool} {n i : ℕ} (h : p i = true) : first p n ≤ i := by
  by_contra hl
  rw [not_of_lt_first (Nat.lt_of_not_le hl)] at h
  cases h

theorem first_eq_iff {p : ℕ → Bool} {n s : ℕ} (hs : s < n) :
    first p n = s ↔ p s = true ∧ ∀ i < s, p i = false := by
  constructor
  · rintro rfl
    exact ⟨first_of_lt hs,fun i hi => not_of_lt_first hi⟩
  · rintro ⟨hp,hf⟩
    have hle : first p n ≤ s := first_le_of hp
    rcases Nat.eq_or_lt_of_le hle with he | hl
    · exact he
    · have ht := first_of_lt (Nat.lt_trans hl hs)
      rw [hf _ hl] at ht
      cases ht

theorem first_congr {p q : ℕ → Bool} {n k : ℕ} (h : ∀ i ≤ k, p i = q i) (hk : p k = true) :
    first p n = first q n := by
  have hle : first p n ≤ k := first_le_of hk
  rcases Nat.eq_or_lt_of_le (first_le p n) with he | hl
  · rw [he]
    apply Nat.le_antisymm _ (first_le q n)
    by_contra hn
    have hl := Nat.lt_of_not_le hn
    have ht := first_of_lt hl
    rw [← h _ (by omega)] at ht
    exact absurd (first_le_of (n := n) ht) (by omega)
  · symm
    rw [first_eq_iff hl,← h _ hle]
    refine ⟨first_of_lt hl,fun i hi => ?_⟩
    rw [← h i (by omega)]
    exact not_of_lt_first hi

def CString.ofBuffer (b : Bytes) (n : ℕ) (h : b n = 0) : CString where
  bytes := b
  length := first (fun i => b i = 0) n
  terminated := by simpa using first_spec (p := fun i => b i = 0) (n := n) (by simpa using h)
  nonzero := by
    intro i hi
    simpa using not_of_lt_first hi

@[simp] theorem ofBuffer_bytes (b : Bytes) (n : ℕ) (h : b n = 0) :
    (CString.ofBuffer b n h).bytes = b := rfl

theorem ofBuffer_congr {b b' : Bytes} {n n' : ℕ} (h : b n = 0) (h' : b' n' = 0) (hb : b = b')
    (hn : n = n') : CString.ofBuffer b n h = CString.ofBuffer b' n' h' := by
  subst hb hn
  rfl

theorem ofBuffer_length {b : Bytes} {n : ℕ} {h : b n = 0} (hb : ∀ i < n, b i ≠ 0) :
    (CString.ofBuffer b n h).length = n := by
  apply Nat.le_antisymm (first_le _ n)
  by_contra hl
  exact hb _ (Nat.lt_of_not_le hl) (CString.ofBuffer b n h).terminated

def CString.ofText (t : List UInt8) (tail : Bytes) (h : ∀ c ∈ t, c ≠ 0) : CString where
  bytes i := if i < t.length then t.getD i 0 else if i = t.length then 0 else tail (i - t.length - 1)
  length := t.length
  terminated := by simp
  nonzero := by
    intro i hi
    rw [if_pos hi,List.getD_eq_getElem t 0 hi]
    exact h _ (List.getElem_mem hi)

def CString.append (s t : CString) : CString where
  bytes i := if i < s.length then s.bytes i else t.bytes (i - s.length)
  length := s.length + t.length
  terminated := by
    rw [if_neg (by omega),Nat.add_sub_cancel_left]
    exact t.terminated
  nonzero := by
    intro i hi
    split_ifs with h
    · exact s.nonzero i h
    · exact t.nonzero (i - s.length) (by omega)

@[simp] theorem append_length (s t : CString) : (s.append t).length = s.length + t.length := rfl

theorem append_left {s t : CString} {i : ℕ} (h : i < s.length) : (s.append t).bytes i = s.bytes i :=
  if_pos h

theorem append_right (s t : CString) (i : ℕ) : (s.append t).bytes (s.length + i) = t.bytes i := by
  simp [CString.append]

end UoDOS.Strings
