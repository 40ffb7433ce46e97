import UoDOS.FileSystem.Names

/-! # safestrcpy in memory

The loop with its two pointers, over one memory that holds the source and the destination, and
with the places that it stores to.
-/
namespace UoDOS.StringFunctions
open ByteMemory Strings FileSystem Function

/-- A memory and the places that were stored to, the last one first. -/
structure Traced where
  bytes : Bytes
  places : List ℕ

def Traced.put (m : Traced) (a : ℕ) (v : UInt8) : Traced := ⟨update m.bytes a v,a :: m.places⟩

/-- `while (--n > 0 && (*s++ = *t++) != 0);` with the value of `n - 1` before it; the result has `s`. -/
def safestrcpyLoop : ℕ → Traced → ℕ → ℕ → Traced × ℕ
  | 0, m, s, _ => (m,s)
  | n + 1, m, s, t =>
    let c := m.bytes t
    let m := m.put s c
    let s := (s + 1) % 2^32
    let t := (t + 1) % 2^32
    if c ≠ 0 then safestrcpyLoop n m s t else (m,s)

def safestrcpy (m : Traced) (s t : ℕ) (n : ℤ) : Traced :=
  if n ≤ 0 then m
  else
    let (m,s) := safestrcpyLoop (n - 1).toNat m s t
    m.put s 0

def Holds (b : Bytes) (a : ℕ) (l : List UInt8) : Prop :=
  ∃ r : CString, (∀ i ≤ r.length, b (a + i) = r.bytes i) ∧ r.text = l

structure Within (s n : ℕ) (m m' : Traced) : Prop where
  places : ∀ p ∈ m'.places, p ∈ m.places ∨ s ≤ p ∧ p ≤ s + n
  frame : ∀ x, x < s ∨ s + n < x → m'.bytes x = m.bytes x

variable {m m' m'' : Traced} {s t n i k : ℕ} {c : CString}

theorem Within.put {a : ℕ} (h1 : s ≤ a) (h2 : a ≤ s + n) (v : UInt8) : Within s n m (m.put a v) where
  places p hp := by
    rcases List.mem_cons.mp hp with rfl | hp
    · exact .inr ⟨h1,h2⟩
    · exact .inl hp
  frame x hx := update_of_ne (by omega) _ _

theorem Within.trans (h : Within s n m m') (h' : Within s n m' m'') : Within s n m m'' where
  places p hp := by
    rcases h'.places p hp with hp | hp
    · exact h.places p hp
    · exact .inr hp
  frame x hx := (h'.frame x hx).trans (h.frame x hx)

structure Source (c : CString) (s t n : ℕ) (b : Bytes) : Prop where
  held : ∀ j ≤ c.length, b (t + j) = c.bytes j
  fits : t + c.length < 2^32
  apart : t + c.length < s ∨ s + n < t

theorem Source.keep (h : Source c s t n m.bytes) (hw : Within s n m m') : Source c s t n m'.bytes where
  held j hj := by
    have := h.apart
    rw [hw.frame _ (by omega)]
    exact h.held j hj
  fits := h.fits
  apart := h.apart

theorem safestrcpyLoop_copies (hsrc : Source c s t n m.bytes) (hs : s + n < 2^32) (hi : i ≤ c.length) (hk : i + k = n) :
    let r := safestrcpyLoop k m (s + i) (t + i)
    Within s n m (r.1.put r.2 0) ∧
      ∀ x, (r.1.put r.2 0).bytes (s + x) = safestrcpyFrom (fun j => m.bytes (s + j)) c.bytes k i x := by
  have hput : ∀ (b : Bytes) (j : ℕ) (v : UInt8) (x : ℕ),
      update b (s + j) v (s + x) = update (fun j => b (s + j)) j v x := by
    intro b j v x
    by_cases hx : x = j
    · rw [hx,update_self,update_self]
    · rw [update_of_ne (by omega),update_of_ne hx]
  induction k generalizing m i with
  | zero =>
    simp only [safestrcpyLoop,safestrcpyFrom]
    exact ⟨.put (by omega) (by omega) 0,fun x => hput ..⟩
  | succ k ih =>
    have hc := hsrc.held i hi
    have hfits := hsrc.fits
    have hfirst : Within s n m (m.put (s + i) (c.bytes i)) := .put (by omega) (by omega) _
    have hrow : (fun j => (m.put (s + i) (c.bytes i)).bytes (s + j)) =
        update (fun j => m.bytes (s + j)) i (c.bytes i) := funext fun x => hput ..
    rw [safestrcpyLoop,safestrcpyFrom]
    simp only [hc,Nat.mod_eq_of_lt (show s + i + 1 < 2^32 by omega)]
    split_ifs with hz
    · -- inside the string both pointers go on
      have hlt : i < c.length := by
        rcases Nat.lt_or_eq_of_le hi with hlt | rfl
        · exact hlt
        · exact absurd c.terminated hz
      rw [Nat.mod_eq_of_lt (by omega),← hrow]
      obtain ⟨hw,hbytes⟩ := ih (hsrc.keep hfirst) hlt (by omega)
      exact ⟨hfirst.trans hw,hbytes⟩
    · rw [← hrow]
      exact ⟨hfirst.trans (.put (by omega) (by omega) 0),fun x => hput (m.put (s + i) (c.bytes i)).bytes (i + 1) 0 x⟩

/-- The stores stay in the `n` bytes of the destination, the one behind a copied zero too, and
they leave as many characters of the source as fit. -/
theorem safestrcpy_holds {l : List UInt8} (b : Bytes) (s t : ℕ) (n : ℤ) (hsrc : Holds b t l) (ht : t + l.length < 2^32) :
    (n ≤ 0 → safestrcpy ⟨b,[]⟩ s t n = ⟨b,[]⟩) ∧
    (0 < n → s + n ≤ 2^32 → t + l.length < s ∨ s + n ≤ t →
      (∀ p ∈ (safestrcpy ⟨b,[]⟩ s t n).places, s ≤ p ∧ p < s + n) ∧
      (∀ x : ℕ, x < s ∨ s + n ≤ x → (safestrcpy ⟨b,[]⟩ s t n).bytes x = b x) ∧
      Holds (safestrcpy ⟨b,[]⟩ s t n).bytes s (l.take (n - 1).toNat)) := by
  refine ⟨fun h => by rw [safestrcpy,if_pos h],fun h hs hapart => ?_⟩
  obtain ⟨k,rfl⟩ : ∃ k : ℕ, n = k + 1 := ⟨(n - 1).toNat,by omega⟩
  obtain ⟨c,hc,rfl⟩ := hsrc
  rw [text_length] at ht hapart
  have hsource : Source c s t k b := ⟨hc,ht,by omega⟩
  have hloop := safestrcpyLoop_copies (m := ⟨b,[]⟩) (i := 0) (k := k) hsource (by omega) (Nat.zero_le _) (by omega)
  have hcount : ((k : ℤ) + 1 - 1).toNat = k := by omega
  rw [safestrcpy,if_neg (by omega),hcount]
  obtain ⟨hw,hbytes⟩ := hloop
  refine ⟨fun p hp => ?_,fun x hx => hw.frame x (by omega),?_⟩
  · rcases hw.places p hp with hp | hp
    · cases hp
    · omega
  · refine ⟨copied c (fun j => b (s + j)) (k + 1) (Nat.succ_pos k),fun i _ => ?_,?_⟩
    · refine (hbytes i).trans ?_
      change _ = FileSystem.safestrcpy (fun j => b (s + j)) c.bytes ((k + 1 : ℕ) : ℤ) i
      rw [FileSystem.safestrcpy,if_neg (by omega),show (((k + 1 : ℕ) : ℤ) - 1).toNat = k by omega]
    · rw [copied_text,Nat.add_sub_cancel]

/-- Five bytes for "abcdef": four characters and the zero. -/
theorem safestrcpy_holds_cut : ∃ b, Holds b 100 [0x61,0x62,0x63,0x64,0x65,0x66] ∧
    Holds (safestrcpy ⟨b,[]⟩ 200 100 5).bytes 200 [0x61,0x62,0x63,0x64] := by
  let c := CString.ofText [0x61,0x62,0x63,0x64,0x65,0x66] (fun _ => 0) (by simp)
  have hsrc : Holds (fun x => c.bytes (x - 100)) 100 [0x61,0x62,0x63,0x64,0x65,0x66] :=
    ⟨c,fun i _ => congrArg c.bytes (Nat.add_sub_cancel_left 100 i),rfl⟩
  exact ⟨_,hsrc,((safestrcpy_holds _ 200 100 5 hsrc (by norm_num)).2 (by norm_num) (by norm_num) (by norm_num)).2.2⟩

end UoDOS.StringFunctions
