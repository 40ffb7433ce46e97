import UoDOS.FileSystem.Names
import UoDOS.Kernel.Arguments

/-! # The working directory of a process

sys_chdir and sys_getcwd of sysfile.c. The Process structures are kept as the bytes of their
array, because sys_chdir bounds its copy by the string and not by the size of `Cwd`.
-/
namespace UoDOS.Kernel
open ByteMemory Strings FileSystem Function

/-- The addresses of `Cwd` and `Name` in the array of Process structures: a structure
has 320 bytes, with 104 bytes of other fields first. -/
def cwdAddress (p : Fin NPROC) : ℕ := 320 * p + 104
def nameAddress (p : Fin NPROC) : ℕ := cwdAddress p + MAXCWDSIZE

def slash : UInt8 := 47
def backslash : UInt8 := 92

def copyString (b : Bytes) (s : ℕ) (t : Bytes) (n : ℤ) : Bytes := fun x =>
  if s ≤ x then safestrcpy (fun i => b (s + i)) t n (x - s) else b x

/-- strchr on a string of `len` bytes, with 0 for the null pointer. -/
def strchr (b : Bytes) (str len : ℕ) (character : UInt8) : ℕ :=
  let i := first (fun i => b (str + i) = character) len
  if b (str + i) = character then str + i else 0

/-- The test of sys_chdir, which reads through the pointers that strchr returns. -/
def lacksSeparator (u : UserView) (directory len : ℕ) : Bool :=
  u.bytes (strchr u.bytes directory len slash) ≠ slash ∨
    u.bytes (strchr u.bytes directory len backslash) ≠ backslash

/-- The two stores of sys_chdir behind a string of `len` bytes. -/
def appendSlash (b : Bytes) (directory len : ℕ) : Bytes :=
  update (update b (directory + len) slash) (directory + len + 1) 0

/-- The result, the memory of the process and the Process structures. -/
def sys_chdir (u : UserView) (table : Bytes) (curproc : Fin NPROC) : ℤ × Bytes × Bytes :=
  match argstr u 0 with
  | none => (-1,u.bytes,table)
  | some (directory,len) =>
    if lacksSeparator u directory len then
      let user := appendSlash u.bytes directory len
      let len := first (fun i => user (directory + i) = 0) (len + 1)
      (0,user,copyString table (cwdAddress curproc) (fun i => user (directory + i)) (len + 1))
    else
      (0,u.bytes,copyString table (cwdAddress curproc) (fun i => u.bytes (directory + i)) (len + 1))

def sys_getcwd (u : UserView) (table : Bytes) (curproc : Fin NPROC) : ℤ × Bytes :=
  match argstr u 0, argint u 1 with
  | some (currentDirectory,_), some sizeOfBuffer =>
    (0,copyString u.bytes currentDirectory (fun i => table (cwdAddress curproc + i)) (signed sizeOfBuffer))
  | _, _ => (-1,u.bytes)

theorem copyString_outside {b t : Bytes} {s x : ℕ} {n : ℤ} (h : x < s ∨ s + n ≤ x) :
    copyString b s t n x = b x := by
  unfold copyString
  split_ifs with hs
  · rw [safestrcpy_outside (by omega),Nat.add_sub_cancel' hs]
  · rfl

theorem copyString_at {b t : Bytes} {s i : ℕ} {n : ℤ} :
    copyString b s t n (s + i) = safestrcpy (fun j => b (s + j)) t n i := by
  rw [copyString,if_pos (by omega),Nat.add_sub_cancel_left]

/-- What sys_chdir looks for: the character in the string, or at address 0 when the
string does not have it. -/
def HasSeparator (u : UserView) (directory len : ℕ) (c : UInt8) : Prop :=
  (∃ i < len, u.bytes (directory + i) = c) ∨ u.bytes 0 = c

instance (u : UserView) (directory len : ℕ) (c : UInt8) : Decidable (HasSeparator u directory len c) :=
  inferInstanceAs (Decidable (_ ∨ _))

theorem strchr_reads {u : UserView} {directory len : ℕ} {c : UInt8}
    (hz : u.bytes (directory + len) ≠ c) :
    u.bytes (strchr u.bytes directory len c) = c ↔ HasSeparator u directory len c := by
  have hle := first_le (fun i => decide (u.bytes (directory + i) = c)) len
  simp only [strchr]
  split_ifs with h
  · simp only [h,true_iff]
    left
    refine ⟨_,?_,h⟩
    rcases Nat.eq_or_lt_of_le hle with he | hl
    · rw [he] at h
      exact absurd h hz
    · exact hl
  · constructor
    · intro h0
      exact .inr h0
    · rintro (⟨i,hi,hc⟩ | h0)
      · have hf := first_le_of (p := fun i => decide (u.bytes (directory + i) = c)) (n := len) (i := i)
          (by simpa using hc)
        have ht := first_of_lt (Nat.lt_of_le_of_lt hf hi)
        exact absurd (by simpa using ht) h
      · exact h0

theorem lacksSeparator_iff {u : UserView} {directory len : ℕ} (hz : u.bytes (directory + len) = 0) :
    lacksSeparator u directory len ↔
      ¬ (HasSeparator u directory len slash ∧ HasSeparator u directory len backslash) := by
  have h1 : u.bytes (directory + len) ≠ slash := by simp [hz,slash]
  have h2 : u.bytes (directory + len) ≠ backslash := by simp [hz,backslash]
  rw [← strchr_reads h1,← strchr_reads h2]
  simp only [lacksSeparator,decide_eq_true_eq]
  tauto

section Chdir

variable {u : UserView} {directory len : ℕ}

@[simp] theorem appendSlash_slash (b : Bytes) : appendSlash b directory len (directory + len) = slash := by
  rw [appendSlash,update_of_ne (by omega),update_self]

@[simp] theorem appendSlash_end (b : Bytes) : appendSlash b directory len (directory + (len + 1)) = 0 := by
  rw [appendSlash,← Nat.add_assoc,update_self]

theorem appendSlash_text (b : Bytes) {i : ℕ} (hi : i < len) :
    appendSlash b directory len (directory + i) = b (directory + i) := by
  rw [appendSlash,update_of_ne (by omega),update_of_ne (by omega)]

theorem appendSlash_nonzero (hs : fetchstr u directory = some len) :
    ∀ i < len + 1, appendSlash u.bytes directory len (directory + i) ≠ 0 := by
  intro i hi
  obtain ⟨-,-,hn⟩ := fetchstr_eq_some.mp hs
  rcases Nat.eq_or_lt_of_le (Nat.le_of_lt_succ hi) with rfl | hl
  · simp [slash]
  · rw [appendSlash_text _ hl]
    exact hn i hl

theorem chdir_appends (table : Bytes) (p : Fin NPROC) (ha : argstr u 0 = some (directory,len))
    (hl : lacksSeparator u directory len) :
    sys_chdir u table p = (0,appendSlash u.bytes directory len,copyString table (cwdAddress p)
      (fun i => appendSlash u.bytes directory len (directory + i)) (len + 2)) := by
  have hf : first (fun i => decide (appendSlash u.bytes directory len (directory + i) = 0)) (len + 1) =
      len + 1 := by
    apply Nat.le_antisymm (first_le _ _)
    by_contra hlt
    have ht := first_of_lt (Nat.lt_of_not_le hlt)
    exact appendSlash_nonzero (argstr_eq_some.mp ha).2 _ (Nat.lt_of_not_le hlt) (by simpa using ht)
  unfold sys_chdir
  rw [ha]
  dsimp only
  rw [if_pos hl,hf]
  norm_num [add_assoc]

theorem chdir_copies (table : Bytes) (p : Fin NPROC) (ha : argstr u 0 = some (directory,len))
    (hl : ¬ lacksSeparator u directory len) :
    sys_chdir u table p = (0,u.bytes,copyString table (cwdAddress p)
      (fun i => u.bytes (directory + i)) (len + 1)) := by
  unfold sys_chdir
  rw [ha]
  dsimp only
  rw [if_neg hl]

theorem chdir_text {b : Bytes} {p : Fin NPROC} {i : ℕ} (ha : argstr u 0 = some (directory,len)) (hi : i < len) :
    (sys_chdir u b p).2.2 (cwdAddress p + i) = u.bytes (directory + i) := by
  obtain ⟨-,hs⟩ := argstr_eq_some.mp ha
  obtain ⟨-,-,hne⟩ := fetchstr_eq_some.mp hs
  by_cases hl : lacksSeparator u directory len
  · rw [chdir_appends b p ha hl]
    dsimp only
    rw [copyString_at]
    rw [safestrcpy_text (k := len + 1) (appendSlash_nonzero hs) (by push_cast; omega) (by omega)]
    exact appendSlash_text _ hi
  · rw [chdir_copies b p ha hl]
    dsimp only
    rw [copyString_at]
    exact safestrcpy_text (k := len) hne (by omega) hi

theorem chdir_end {b : Bytes} {p : Fin NPROC} (ha : argstr u 0 = some (directory,len)) :
    (sys_chdir u b p).2.2 (cwdAddress p + (if lacksSeparator u directory len then len + 1 else len)) = 0 := by
  obtain ⟨-,hs⟩ := argstr_eq_some.mp ha
  obtain ⟨-,hz,hne⟩ := fetchstr_eq_some.mp hs
  split_ifs with hl
  · rw [chdir_appends b p ha hl]
    dsimp only
    rw [copyString_at]
    exact safestrcpy_end (appendSlash_nonzero hs) (by push_cast; omega) (.inl (appendSlash_end _))
  · rw [chdir_copies b p ha hl]
    dsimp only
    rw [copyString_at]
    exact safestrcpy_end hne (by omega) (.inl hz)

theorem chdir_slash {b : Bytes} {p : Fin NPROC} (ha : argstr u 0 = some (directory,len))
    (hl : lacksSeparator u directory len) : (sys_chdir u b p).2.2 (cwdAddress p + len) = slash := by
  rw [chdir_appends b p ha hl]
  dsimp only
  rw [copyString_at,safestrcpy_text (k := len + 1) (appendSlash_nonzero (argstr_eq_some.mp ha).2)
    (by push_cast; omega) (by omega)]
  exact appendSlash_slash _

end Chdir

theorem chdir_keeps_user_iff (u : UserView) (table : Bytes) (p : Fin NPROC) :
    (sys_chdir u table p).2.1 = u.bytes ↔ ∀ directory len, argstr u 0 = some (directory,len) →
      HasSeparator u directory len slash ∧ HasSeparator u directory len backslash := by
  cases ha : argstr u 0 with
  | none => simp [sys_chdir,ha]
  | some r =>
    obtain ⟨directory,len⟩ := r
    obtain ⟨-,hs⟩ := argstr_eq_some.mp ha
    obtain ⟨-,hz,-⟩ := fetchstr_eq_some.mp hs
    have hl := lacksSeparator_iff hz
    by_cases hb : HasSeparator u directory len slash ∧ HasSeparator u directory len backslash
    · rw [chdir_copies table p ha (fun h => hl.mp h hb)]
      simpa using hb
    · rw [chdir_appends table p ha (hl.mpr hb)]
      constructor
      · intro he
        -- the byte that ended the string is now a separator
        have hc : appendSlash u.bytes directory len (directory + len) = u.bytes (directory + len) :=
          congrFun he (directory + len)
        rw [appendSlash_slash,hz] at hc
        exact absurd hc (by decide)
      · intro h
        exact absurd (h directory len rfl) hb

def BufferInRange (u : UserView) (buffer size : ℕ) : Prop :=
  buffer < u.MemorySize ∧ buffer + signed size ≤ u.MemorySize

/-- sys_getcwd fills a buffer in range and stores nowhere else; any other buffer it
refuses. -/
def GetcwdInRange (u : UserView) (table : Bytes) (p : Fin NPROC) : Prop :=
  match argint u 0, argint u 1 with
  | some buffer, some size =>
    BufferInRange u buffer size ∧ (sys_getcwd u table p).1 = 0 ∧
        (∀ x : ℕ, x < buffer ∨ buffer + signed size ≤ x → (sys_getcwd u table p).2 x = u.bytes x) ∨
      ¬ BufferInRange u buffer size ∧ sys_getcwd u table p = (-1,u.bytes)
  | _, _ => sys_getcwd u table p = (-1,u.bytes)

theorem getcwd_fills {u : UserView} (table : Bytes) (p : Fin NPROC) {buffer size len : ℕ}
    (h0 : argint u 0 = some buffer) (h1 : argint u 1 = some size) (hs : fetchstr u buffer = some len) :
    sys_getcwd u table p =
      (0,copyString u.bytes buffer (fun i => table (cwdAddress p + i)) (signed size)) := by
  unfold sys_getcwd
  rw [argstr_eq_some.mpr ⟨h0,hs⟩,h1]

theorem getcwd_refuses {u : UserView} (table : Bytes) (p : Fin NPROC)
    (h : ∀ buffer, argint u 0 = some buffer → argint u 1 = none ∨ fetchstr u buffer = none) :
    sys_getcwd u table p = (-1,u.bytes) := by
  unfold sys_getcwd
  split
  · rename_i buffer len size ha h1
    obtain ⟨h0,hs⟩ := argstr_eq_some.mp ha
    rcases h buffer h0 with h | h
    · rw [h] at h1
      cases h1
    · rw [h] at hs
      cases hs
  · rfl

theorem getcwd_in_range_iff (u : UserView) (table : Bytes) (p : Fin NPROC) :
    GetcwdInRange u table p ↔ ∀ buffer size, argint u 0 = some buffer → argint u 1 = some size →
      ((∃ len, fetchstr u buffer = some len) ↔ BufferInRange u buffer size) := by
  unfold GetcwdInRange
  cases h0 : argint u 0 with
  | none =>
    have hr := getcwd_refuses table p (u := u) (fun b hb => by
      rw [h0] at hb
      cases hb)
    simp [hr]
  | some buffer =>
    cases h1 : argint u 1 with
    | none => simp [getcwd_refuses table p (fun b _ => .inl h1)]
    | some size =>
      have hcond : (∀ b z, some buffer = some b → some size = some z →
          ((∃ len, fetchstr u b = some len) ↔ BufferInRange u b z)) ↔
          ((∃ len, fetchstr u buffer = some len) ↔ BufferInRange u buffer size) := by
        constructor
        · intro h
          exact h buffer size rfl rfl
        · rintro h b z ⟨⟩ ⟨⟩
          exact h
      rw [hcond]
      cases hs : fetchstr u buffer with
      | none =>
        have hr := getcwd_refuses table p (u := u) (fun b hb => by
          rw [h0] at hb
          cases hb
          exact .inr hs)
        simp [hr]
      | some len =>
        have hout : ∀ x : ℕ, x < buffer ∨ buffer + signed size ≤ x →
            copyString u.bytes buffer (fun i => table (cwdAddress p + i)) (signed size) x = u.bytes x :=
          fun x hx => copyString_outside hx
        simpa [getcwd_fills table p h0 h1 hs] using fun _ => hout

/-- The two calls change validated memory only exactly when sys_chdir finds both
separators and sys_getcwd finds an end of its buffer's old contents just in the buffers
that are in range. -/
theorem working_directory_memory_iff (u : UserView) (table : Bytes) (p : Fin NPROC) :
    ((sys_chdir u table p).2.1 = u.bytes ↔ ∀ directory len, argstr u 0 = some (directory,len) →
      HasSeparator u directory len slash ∧ HasSeparator u directory len backslash) ∧
    (GetcwdInRange u table p ↔ ∀ buffer size, argint u 0 = some buffer → argint u 1 = some size →
      ((∃ len, fetchstr u buffer = some len) ↔ BufferInRange u buffer size)) :=
  ⟨chdir_keeps_user_iff u table p,getcwd_in_range_iff u table p⟩

def lastBytesView : UserView where
  MemorySize := 4096
  esp := 0
  bytes x := match x with
    | 4 => 0xFE
    | 5 => 0x0F
    | 8 => 200
    | 4094 => 65
    | _ => 0

/-- Both calls store outside what they have validated: sys_chdir behind the string,
sys_getcwd from a buffer of 200 bytes of which two lie in the process. -/
theorem last_bytes_overwritten :
    (sys_chdir lastBytesView (fun _ => 0) ⟨0,by decide⟩).2.1 ≠ lastBytesView.bytes ∧
      ¬ GetcwdInRange lastBytesView (fun _ => 0) ⟨0,by decide⟩ := by
  have hs : fetchstr lastBytesView 4094 = some 1 := by
    rw [fetchstr_eq_some]
    decide
  constructor
  · rw [Ne,chdir_keeps_user_iff]
    intro h
    obtain ⟨h1,-⟩ := h 4094 1 (argstr_eq_some.mpr ⟨by decide,hs⟩)
    rcases h1 with ⟨i,hi,hc⟩ | h0
    · rw [show i = 0 by omega] at hc
      exact absurd hc (by decide)
    · exact absurd h0 (by decide)
  · rw [getcwd_in_range_iff]
    intro h
    have hr := (h 4094 200 (by decide) (by decide)).mp ⟨1,hs⟩
    exact absurd hr.2 (by decide)

end UoDOS.Kernel
