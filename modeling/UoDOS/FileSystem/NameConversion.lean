import UoDOS.FileSystem.SubDirectory

/-! # The conversion of an 8.3 name

The loop over the base of a name stops at the end of the name.
-/
namespace UoDOS.FileSystem
open ByteMemory Strings Function

theorem copyBase_stop {f : CString} {k n i : ℕ} {b : Bytes} (hi : i ≤ k) (hk : k ≤ f.length)
    (h8 : k ≤ 8) (hd : ∀ j < k, f.bytes j ≠ dot) (hn : k ≤ i + n)
    (he : k = f.length ∨ f.bytes k = dot) :
    copyBase f n i b = (k,fun j => if i ≤ j ∧ j < k then toupper (f.bytes j) else b j) := by
  induction n generalizing i b with
  | zero =>
    have hki : k = i := by omega
    rw [copyBase,hki]
    congr 1
    funext j
    rw [if_neg (by omega)]
  | succ n ih =>
    rw [copyBase]
    rcases Nat.eq_or_lt_of_le hi with rfl | hlt
    · have hb : (fun j => if i ≤ j ∧ j < i then toupper (f.bytes j) else b j) = b := by
        funext j
        rw [if_neg (by omega)]
      rw [hb]
      split_ifs with hl hs
      · rfl
      · rcases he with he | he
        · omega
        · exact absurd (.inl he) hs
      · rfl
    · have hs : ¬ (f.bytes i = dot ∨ i = 8) := by
        rintro (h | h)
        · exact hd i hlt h
        · omega
      rw [if_pos (by omega),if_neg hs,ih hlt (by omega)]
      congr 1
      funext j
      rcases eq_or_ne j i with rfl | hj
      · rw [if_neg (by omega),if_pos (by omega),update_self]
      · rw [update_of_ne hj]
        exact if_congr (by omega) rfl rfl

theorem copyExtension_apply (f : CString) (i : ℕ) (b : Bytes) (j : ℕ) :
    copyExtension f i b j =
      if 8 ≤ j ∧ j < 11 ∧ f.bytes (i + (j - 8) + 1) ≠ 0 then toupper (f.bytes (i + (j - 8) + 1))
      else b j := by
  have hloop : ∀ n, (List.range n).foldl (fun b k => if f.bytes (i + k + 1) ≠ 0 then
      update b (k + 8) (toupper (f.bytes (i + k + 1))) else b) b j =
        if 8 ≤ j ∧ j < 8 + n ∧ f.bytes (i + (j - 8) + 1) ≠ 0 then
          toupper (f.bytes (i + (j - 8) + 1)) else b j := by
    intro n
    induction n with
    | zero =>
      rw [if_neg (by omega)]
      rfl
    | succ n ih =>
      rw [List.range_succ,List.foldl_append,List.foldl_cons,List.foldl_nil]
      rcases eq_or_ne j (n + 8) with rfl | hj
      · rw [Nat.add_sub_cancel]
        by_cases hz : f.bytes (i + n + 1) ≠ 0
        · rw [if_pos hz,if_pos ⟨by omega,by omega,hz⟩,update_self]
        · rw [if_neg hz,if_neg (fun h => hz h.2.2),ih,if_neg (by omega)]
      · have hu : ∀ (c : Bytes) x, update c (n + 8) x j = c j :=
          fun c x => update_of_ne hj x c
        rw [ite_apply,hu,ite_self,ih]
        apply if_congr _ rfl rfl
        constructor
        · rintro ⟨h1,h2,h3⟩
          exact ⟨h1,by omega,h3⟩
        · rintro ⟨h1,h2,h3⟩
          exact ⟨h1,by omega,h3⟩
  exact hloop 3

theorem toupper_eq_space {c : UInt8} : toupper c = space ↔ c = space := by
  revert c
  decide +kernel

namespace FileName

/-- The three bytes from the extension on are the extension and what cannot be told from
padding. -/
def Padded (n : FileName) (tail : Bytes) : Prop :=
  ∀ e ∈ n.extension, ∀ m < 3, e.length < m →
    tail (m - e.length - 1) = 0 ∨ tail (m - e.length - 1) = space

variable (n : FileName) (tail junk : Bytes)

theorem string_base {i : ℕ} (hi : i < n.base.length) :
    (n.string tail).bytes i = n.base.getD i 0 := by
  have hl : i < n.text.length := by
    rw [text,List.length_append]
    omega
  change (if i < n.text.length then n.text.getD i 0 else _) = _
  rw [if_pos hl,text,List.getD_append _ _ _ _ hi]

theorem string_extension {e : List UInt8} (he : n.extension = some e) (m : ℕ) :
    (n.string tail).bytes (n.base.length + m + 1) =
      if m < e.length then e.getD m 0 else if m = e.length then 0 else tail (m - e.length - 1) := by
  have hl : n.text.length = n.base.length + e.length + 1 := by
    simp [text,he,Nat.add_assoc]
  change (if _ < n.text.length then n.text.getD _ 0 else if _ = n.text.length then 0 else tail _) = _
  rw [hl]
  by_cases hm : m < e.length
  · rw [if_pos (by omega),if_pos hm,text,he,Option.elim_some,
      List.getD_append_right _ _ _ _ (by omega),
      show n.base.length + m + 1 - n.base.length = m + 1 by omega,List.getD_cons_succ]
  · rw [if_neg (by omega),if_neg hm]
    apply if_congr (by omega) rfl
    congr 1
    omega

theorem string_point {e : List UInt8} (he : n.extension = some e) :
    (n.string tail).bytes n.base.length = dot := by
  have hl : n.base.length < n.text.length := by simp [text,he]
  change (if n.base.length < n.text.length then n.text.getD n.base.length 0 else _) = _
  rw [if_pos hl,text,he,Option.elim_some,List.getD_append_right _ _ _ _ le_rfl,Nat.sub_self,
    List.getD_cons_zero]

theorem toDosFileName_plain {f : CString} {k : ℕ} (h0 : 0 < k) (hk : k ≤ f.length) (h8 : k ≤ 8)
    (hd : ∀ j < k, f.bytes j ≠ dot) (he : k = f.length ∨ f.bytes k = dot) {j : ℕ} (hj : j < 11) :
    toDosFileName f junk 11 j =
      if f.bytes k = dot ∧ 8 ≤ j ∧ f.bytes (k + (j - 8) + 1) ≠ 0 then
        toupper (f.bytes (k + (j - 8) + 1))
      else if j < k then toupper (f.bytes j) else space := by
  have hs : fill junk 0 11 space j = space := if_pos (by omega)
  have h1 : ¬ (f.length = 1 ∧ f.bytes 0 = dot) := fun h => hd 0 h0 h.2
  have h2 : ¬ (f.length = 2 ∧ f.bytes 0 = dot ∧ f.bytes 1 = dot) := fun h => hd 0 h0 h.2.1
  rw [toDosFileName,if_neg (by decide)]
  dsimp only
  rw [if_neg h1,if_neg h2,copyBase_stop (Nat.zero_le k) hk h8 hd (by omega) he]
  dsimp only
  have hb : (if 0 ≤ j ∧ j < k then toupper (f.bytes j) else fill junk 0 11 space j) =
      if j < k then toupper (f.bytes j) else space := by
    rw [hs]
    exact if_congr (by omega) rfl rfl
  by_cases hp : f.bytes k = dot
  · rw [if_pos hp,copyExtension_apply,hb]
    exact if_congr (by simp [hp,hj]) rfl rfl
  · rw [if_neg hp]
    symm
    rw [if_neg (fun h => hp h.1)]
    exact hb.symm

variable {n tail junk}

theorem form_base {j : Fin 11} (hj : j.val < n.base.length) : n.form j = toupper (n.base.getD j 0) := by
  have h8 : j.val < 8 := Nat.lt_of_lt_of_le hj n.base_le
  rw [form,if_pos h8,List.getD_eq_getElem _ _ (by simpa using hj),List.getElem_map,
    List.getD_eq_getElem _ _ hj]

theorem form_base_padding {j : Fin 11} (h8 : j.val < 8) (hj : n.base.length ≤ j) :
    n.form j = space := by
  rw [form,if_pos h8,List.getD_eq_default _ _ (by simpa using hj)]

theorem form_extension {e : List UInt8} (he : n.extension = some e) {m : ℕ} (hm : m + 8 < 11) :
    n.form ⟨m + 8,hm⟩ = if m < e.length then toupper (e.getD m 0) else space := by
  rw [form,if_neg (by simp),he,Option.getD_some,Nat.add_sub_cancel]
  split_ifs with hl
  · rw [List.getD_eq_getElem _ _ (by simpa using hl),List.getElem_map,List.getD_eq_getElem _ _ hl]
  · rw [List.getD_eq_default _ _ (by simpa using hl)]

theorem converted_plain (h : ∀ c ∈ n.base ++ n.extension.getD [], c ≠ 0 ∧ c ≠ dot) (j : Fin 11) :
    n.converted tail junk j =
      if (n.string tail).bytes n.base.length = dot ∧ 8 ≤ j.val ∧
          (n.string tail).bytes (n.base.length + (j - 8) + 1) ≠ 0 then
        toupper ((n.string tail).bytes (n.base.length + (j - 8) + 1))
      else if j.val < n.base.length then toupper ((n.string tail).bytes j) else space := by
  have hle : n.base.length ≤ n.text.length := by
    rw [text,List.length_append]
    exact Nat.le_add_right _ _
  apply toDosFileName_plain junk n.base_pos hle n.base_le _ _ j.isLt
  · intro i hi
    rw [n.string_base tail hi,List.getD_eq_getElem _ _ hi]
    exact (h _ (List.mem_append_left _ (List.getElem_mem hi))).2
  · cases he : n.extension with
    | none =>
      left
      change _ = n.text.length
      simp [text,he]
    | some e =>
      right
      exact n.string_point tail he

theorem converted_base (h : ∀ c ∈ n.base ++ n.extension.getD [], c ≠ 0 ∧ c ≠ dot) {j : Fin 11}
    (h8 : j.val < 8) : n.converted tail junk j = n.form j := by
  rw [converted_plain h,if_neg (by omega)]
  split_ifs with hj
  · rw [n.string_base tail hj,form_base hj]
  · rw [form_base_padding h8 (Nat.le_of_not_lt hj)]

theorem converted_none (h : ∀ c ∈ n.base ++ n.extension.getD [], c ≠ 0 ∧ c ≠ dot)
    (he : n.extension = none) {j : Fin 11} (h8 : 8 ≤ j.val) : n.converted tail junk j = n.form j := by
  have hb := n.base_le
  have hz : (n.string tail).bytes n.base.length = 0 := by
    have hl : (n.string tail).length = n.base.length := by
      change n.text.length = _
      simp [text,he]
    rw [← hl]
    exact (n.string tail).terminated
  rw [converted_plain h,hz,if_neg (fun h => absurd h.1 (by decide)),if_neg (by omega),form,
    if_neg (by omega),he]
  rfl

theorem converted_some (h : ∀ c ∈ n.base ++ n.extension.getD [], c ≠ 0 ∧ c ≠ dot)
    {e : List UInt8} (he : n.extension = some e) {m : ℕ} (hm : m + 8 < 11) :
    n.converted tail junk ⟨m + 8,hm⟩ = n.form ⟨m + 8,hm⟩ ↔
      (e.length < m → tail (m - e.length - 1) = 0 ∨ tail (m - e.length - 1) = space) := by
  have hb := n.base_le
  rw [converted_plain h,n.string_point tail he,form_extension he,if_neg (c := m + 8 < _) (by omega)]
  simp only [Nat.add_sub_cancel,n.string_extension tail he,Nat.le_add_left,true_and]
  rcases Nat.lt_trichotomy m e.length with hl | rfl | hl
  · have hne : e.getD m 0 ≠ 0 := by
      rw [List.getD_eq_getElem _ _ hl]
      apply (h _ (List.mem_append_right _ _)).1
      rw [he]
      exact List.getElem_mem hl
    simp only [if_pos hl,if_pos hne,true_iff]
    intro hlt
    omega
  · simp
  · simp only [if_neg (show ¬ m < e.length by omega),if_neg (show ¬ m = e.length by omega)]
    by_cases hz : tail (m - e.length - 1) = 0
    · simp [hz]
    · simp [hz,hl,toupper_eq_space]

theorem converted_points (he : n.extension = none) (hb : n.base = [dot] ∨ n.base = [dot,dot]) :
    n.converted tail junk = n.form := by
  have hform : ∀ j : Fin 11, n.form j = ((n.base.map toupper).getD j space) := by
    intro j
    rw [form,he]
    split_ifs with h8
    · rfl
    · rw [List.getD_eq_default (n.base.map toupper) _ (by simpa using by have := n.base_le; omega)]
      rfl
  funext j
  have hs : fill junk 0 11 space j = space := if_pos (by omega)
  rw [hform,converted,toDosFileName,if_neg (by decide)]
  dsimp only
  rcases hb with hb | hb
  · have ht : n.text = [dot] := by simp [text,he,hb]
    have h1 : (n.string tail).length = 1 ∧ (n.string tail).bytes 0 = dot := by
      simp [string,CString.ofText,ht]
    rw [if_pos h1,hb]
    rcases eq_or_ne j.val 0 with h0 | h0
    · rw [h0]
      rfl
    · rw [update_of_ne h0,hs,List.getD_eq_default _ _ (by simp; omega)]
  · have ht : n.text = [dot,dot] := by simp [text,he,hb]
    have h1 : ¬ ((n.string tail).length = 1 ∧ (n.string tail).bytes 0 = dot) := by
      simp [string,CString.ofText,ht]
    have h2 : (n.string tail).length = 2 ∧ (n.string tail).bytes 0 = dot ∧
        (n.string tail).bytes 1 = dot := by
      simp [string,CString.ofText,ht]
    rw [if_neg h1,if_pos h2,hb]
    rcases eq_or_ne j.val 0 with h0 | h0
    · rw [h0]
      rfl
    rcases eq_or_ne j.val 1 with h1 | h1
    · rw [h1]
      rfl
    · rw [update_of_ne h1,update_of_ne h0,hs,
        List.getD_eq_default _ _ (by simp; omega)]

theorem converted_iff : n.converted tail junk = n.form ↔ n.Padded tail := by
  rcases n.characters with h | ⟨he,hb⟩
  · cases he : n.extension with
    | none =>
      simp only [Padded,he,Option.mem_def,reduceCtorEq,false_implies,implies_true,iff_true]
      funext j
      rcases Nat.lt_or_ge j.val 8 with h8 | h8
      · exact converted_base h h8
      · exact converted_none h he h8
    | some e =>
      constructor
      · rintro hc e' he' m hm hl
        obtain rfl : e = e' := Option.some.inj (he.symm.trans he')
        exact (converted_some h he (show m + 8 < 11 by omega)).mp (congrFun hc _) hl
      · intro hp
        funext j
        rcases Nat.lt_or_ge j.val 8 with h8 | h8
        · exact converted_base h h8
        · obtain ⟨j,hj⟩ := j
          obtain ⟨m,rfl⟩ := Nat.exists_eq_add_of_le' h8
          exact (converted_some h he hj).mpr (hp e he m (by omega))
  · constructor
    · rintro - e' he'
      rw [he] at he'
      cases he'
    · intro
      exact converted_points he hb

/-- The path starts with the name as its first component and ends below `N`. -/
structure Begins (n : FileName) (path : Bytes) (N : ℕ) : Prop where
  component : ∀ i < n.text.length, path i = n.text.getD i 0
  plain : ∀ c ∈ n.text, separates c = false
  stop : path n.text.length = 0 ∨ separates (path n.text.length) = true
  ends : ∃ k < N, path k = 0

/-- What the array `pathPart` has behind the component: the rest of the path, and what it
held before. -/
def behind (n : FileName) (path pathPart : Bytes) : Bytes := fun i =>
  if n.text.length + 1 + i ≤ first (fun i => path i = 0) 20 then path (n.text.length + 1 + i)
  else pathPart (n.text.length + 1 + i)

theorem Begins.part {path : Bytes} (h : n.Begins path 20) (pathPart : Bytes) :
    fsGetPathPart path pathPart = .ok (n.string (n.behind path pathPart),
      if path n.text.length = 0 then 0 else n.text.length) := by
  have hz : first (fun i => path i = 0) 20 < 20 := by
    obtain ⟨k,hk,hz⟩ := h.ends
    exact Nat.lt_of_le_of_lt (first_le_of (by simpa using hz)) hk
  have hne : ∀ i < n.text.length, path i ≠ 0 := by
    intro i hi
    rw [h.component i hi,List.getD_eq_getElem _ _ hi]
    exact n.text_ne_zero _ (List.getElem_mem hi)
  have hle : n.text.length ≤ first (fun i => path i = 0) 20 := by
    by_contra hl
    have ht := first_of_lt hz
    exact hne _ (Nat.lt_of_not_le hl) (by simpa using ht)
  have hlen : first (fun i => path i = 0 ∨ separates (path i)) (first (fun i => path i = 0) 20) =
      n.text.length := by
    have hnot : ∀ i < n.text.length, ¬ (path i = 0 ∨ separates (path i) = true) := by
      rintro i hi (h0 | hs)
      · exact hne i hi h0
      · rw [h.component i hi,List.getD_eq_getElem _ _ hi,h.plain _ (List.getElem_mem hi)] at hs
        cases hs
    apply Nat.le_antisymm (first_le_of (by simpa using h.stop))
    by_contra hl
    have hl' := Nat.lt_of_not_le hl
    exact hnot _ hl' (by simpa using first_of_lt (Nat.lt_of_lt_of_le hl' hle))
  rw [fsGetPathPart,if_neg (Nat.ne_of_lt hz)]
  simp only [hlen]
  congr 2
  apply eq_of_bytes
  funext i
  change update (fun i => if i ≤ first (fun i => path i = 0) 20 then path i else pathPart i)
    n.text.length 0 i = if i < n.text.length then n.text.getD i 0
    else if i = n.text.length then 0 else n.behind path pathPart (i - n.text.length - 1)
  rcases Nat.lt_trichotomy i n.text.length with hi | rfl | hi
  · rw [if_pos hi,update_of_ne (Nat.ne_of_lt hi),if_pos (by omega),h.component i hi]
  · rw [update_self,if_neg (by omega),if_pos rfl]
  · rw [update_of_ne (Nat.ne_of_gt hi),if_neg (c := i < _) (by omega),
      if_neg (c := i = _) (by omega),behind,
      show n.text.length + 1 + (i - n.text.length - 1) = i by omega]

end FileName

/-- A name is converted to its form exactly if the bytes behind it are padding for a short
extension. For a component of a path these bytes are the rest of the path. -/
theorem toDosFileName_form_iff (n : FileName) (tail junk : Bytes) :
    (n.converted tail junk = n.form ↔ n.Padded tail) ∧
      ∀ path pathPart, n.Begins path 20 → ∃ part l, fsGetPathPart path pathPart = .ok (part,l) ∧
        ((fun j : Fin 11 => toDosFileName part junk 11 j) = n.form ↔
          n.Padded (n.behind path pathPart)) := by
  constructor
  · exact FileName.converted_iff
  · intro path pathPart h
    exact ⟨_,_,h.part pathPart,FileName.converted_iff⟩

theorem shortExtension_pos : 0 < ([65] : List UInt8).length := by decide

theorem shortExtension_le : ([65] : List UInt8).length ≤ 8 := by decide

theorem shortExtension_extension : ((some [67] : Option (List UInt8)).getD []).length ≤ 3 := by decide

def shortExtension : FileName where
  base := [65]
  extension := some [67]
  base_pos := shortExtension_pos
  base_le := shortExtension_le
  extension_le := shortExtension_extension
  characters := by decide +kernel

def shortExtensionPath : Bytes := fun i => [65,46,67,47,66,73,78].getD i 0

theorem shortExtension_begins : shortExtension.Begins shortExtensionPath 20 where
  component := by decide +kernel
  plain := by decide +kernel
  stop := by decide +kernel
  ends := ⟨7,by decide,by decide⟩

theorem toDosFileName_form_iff_component : ∃ part l,
    fsGetPathPart shortExtensionPath (fun _ => 0) = .ok (part,l) ∧
      ((fun j : Fin 11 => toDosFileName part (fun _ => 0) 11 j) = shortExtension.form ↔
        shortExtension.Padded (shortExtension.behind shortExtensionPath (fun _ => 0))) :=
  (toDosFileName_form_iff shortExtension (fun _ => 0) (fun _ => 0)).2 shortExtensionPath (fun _ => 0)
    shortExtension_begins

/-- The component `A.C` of `A.C/BIN` is converted as if its extension had a `B`. -/
theorem next_component_converted : shortExtension.Begins shortExtensionPath 20 ∧ ∃ part l,
    fsGetPathPart shortExtensionPath (fun _ => 0) = .ok (part,l) ∧
      (fun j : Fin 11 => toDosFileName part (fun _ => 0) 11 j) ≠ shortExtension.form := by
  refine ⟨shortExtension_begins,_,_,shortExtension_begins.part (fun _ => 0),?_⟩
  decide +kernel

end UoDOS.FileSystem
