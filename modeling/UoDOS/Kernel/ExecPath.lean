import UoDOS.FileSystem.Directories
import UoDOS.Kernel.Arguments

/-! # What sys_exec hands to exec

sys_exec copies the path into an array of 200 bytes and appends `.exe` if the fourth character
from its end is not a point.
-/
namespace UoDOS.Kernel
open ByteMemory Strings Paging FileSystem Function

def exeText : List UInt8 := [dot,101,120,101]

/-- The array adjustedPath and the stack behind it, for the byte `path i` at `path + i` and
a path of the length `pathLen`. -/
def adjustPath (path : ℤ → UInt8) (pathLen : ℕ) (adjustedPath : Bytes) : Bytes :=
  let adjustedPath := safestrcpy adjustedPath (fun i => path i) 200
  if path (pathLen - 4) ≠ dot then
    let adjustedPath : Bytes := fun i => if i < pathLen then adjustedPath i
      else safestrcpy (fun j => adjustedPath (pathLen + j)) (fun j => exeText.getD j 0)
        (200 - pathLen) (i - pathLen)
    update adjustedPath (pathLen + 4) 0
  else adjustedPath

theorem safestrcpy_zero (s t : Bytes) {n : ℕ} (hn : 0 < n) : ∃ i < n, safestrcpy s t n i = 0 := by
  have hle := first_le (fun i => t i = 0) (n - 1)
  refine ⟨first (fun i => t i = 0) (n - 1),by omega,?_⟩
  apply safestrcpy_end _ (by omega)
  · rcases Nat.eq_or_lt_of_le hle with he | hl
    · right
      omega
    · left
      simpa using first_of_lt hl
  · intro j hj
    simpa using not_of_lt_first hj

theorem adjustPath_zero (path : ℤ → UInt8) (pathLen : ℕ) (junk : Bytes) :
    ∃ i < 200, adjustPath path pathLen junk i = 0 := by
  obtain ⟨i,hi,hz⟩ := safestrcpy_zero junk (fun i => path i) (n := 200) (by decide)
  have hu : ∀ (b : Bytes) (k : ℕ), b k = 0 → update b (pathLen + 4) 0 k = 0 := by
    intro b k hb
    rw [update_apply,hb,ite_self]
  rw [adjustPath]
  dsimp only
  split_ifs
  · rcases Nat.lt_or_ge pathLen 200 with hl | hl
    · obtain ⟨j,hj,hz'⟩ := safestrcpy_zero
        (fun j => safestrcpy junk (fun i => path i) 200 (pathLen + j))
        (fun j => exeText.getD j 0) (n := 200 - pathLen) (by omega)
      refine ⟨pathLen + j,by omega,hu _ _ ?_⟩
      rw [if_neg (by omega),Nat.add_sub_cancel_left]
      rwa [Nat.cast_sub (by omega)] at hz'
    · refine ⟨i,hi,hu _ _ ?_⟩
      rw [if_pos (by omega)]
      exact hz
  · exact ⟨i,hi,hz⟩

def stringIn (b : Bytes) (n : ℕ) (h : ∃ i < n, b i = 0) : CString :=
  .ofBuffer b (first (fun i => b i = 0) n) (by
    obtain ⟨i,hi,hz⟩ := h
    have hl : first (fun i => b i = 0) n < n :=
      Nat.lt_of_le_of_lt (first_le_of (by simpa using hz)) hi
    simpa using first_of_lt hl)

def userString (u : UserView) (addr s : ℕ) (h : fetchstr u addr = some s) : CString where
  bytes i := u.bytes (addr + i)
  length := s
  terminated := (fetchstr_eq_some.mp h).2.1
  nonzero := (fetchstr_eq_some.mp h).2.2

def fetchArguments (u : UserView) (uargv : ℕ) : ℕ → ℕ → Option (List CString)
  | 0, _ => none
  | k + 1, i =>
    match fetchint u ((uargv + 4 * i) % 2^32) with
    | none => none
    | some uarg =>
      if uarg = 0 then some []
      else match h : fetchstr u uarg with
        | none => none
        | some s => (fetchArguments u uargv k (i + 1)).map (userString u uarg s h :: ·)

structure ExecCall where
  path : CString
  argv : List CString

/-- sys_exec up to the call of exec, with what the array adjustedPath and the stack behind
it hold before. -/
def sys_exec_call (u : UserView) (adjustedPath : Bytes) : Option ExecCall :=
  match argstr u 0, argint u 1 with
  | some (path,pathLen), some uargv =>
    (fetchArguments u uargv MAXARG 0).map (fun argv =>
      ⟨stringIn (adjustPath (fun i => u.bytes ((path + i) % 2^32).toNat) pathLen adjustedPath) 200
        (adjustPath_zero _ _ _),argv⟩)
  | _, _ => none

theorem safestrcpyFrom_congr {s t t' : Bytes} {n i k : ℕ} (h : ∀ j ≤ k, t j = t' j) (hz : t k = 0)
    (hi : i ≤ k) : safestrcpyFrom s t n i = safestrcpyFrom s t' n i := by
  induction n generalizing s i with
  | zero => rfl
  | succ n ih =>
    rw [safestrcpyFrom,safestrcpyFrom,← h i hi]
    by_cases ht : t i ≠ 0
    · rw [if_pos ht,if_pos ht]
      apply ih
      have hne : i ≠ k := by
        rintro rfl
        exact ht hz
      omega
    · rw [if_neg ht,if_neg ht]

theorem safestrcpy_congr {s t t' : Bytes} {n : ℤ} {k : ℕ} (h : ∀ j ≤ k, t j = t' j) (hz : t k = 0) :
    safestrcpy s t n = safestrcpy s t' n := by
  rw [safestrcpy,safestrcpy,safestrcpyFrom_congr h hz (Nat.zero_le k)]

theorem stringIn_bytes {b : Bytes} {n : ℕ} (h : ∃ i < n, b i = 0) : (stringIn b n h).bytes = b := rfl

/-- A path has an extension if its last component has a point. -/
def HasExtension (path : CString) : Prop :=
  ∃ i < path.length, path.bytes i = dot ∧
    ∀ j < path.length, i < j → separates (path.bytes j) = false

instance (path : CString) : Decidable (HasExtension path) :=
  inferInstanceAs (Decidable (∃ i < path.length, path.bytes i = dot ∧ ∀ j < path.length, i < j → _))

/-- The path is copied from its characters only, nothing behind the array is written, and the
array gets the path itself or the path with `.exe`. -/
structure Adjusted (path : ℤ → UInt8) (P : CString) (junk : Bytes) (adjusted : CString) : Prop where
  reads : ∀ path' : ℤ → UInt8, (∀ i : ℕ, i ≤ P.length → path' i = path i) →
    adjustPath path' P.length junk = adjusted.bytes
  writes : ∀ i ≥ 200, adjusted.bytes i = junk i
  text : adjusted.text = if HasExtension P then P.text else P.text ++ exeText

/-- The point of an extension is where sys_exec looks for it, or there is none; and the text
fits the array. -/
def Recognised (path : CString) : Prop :=
  4 ≤ path.length ∧ if path.bytes (path.length - 4) = dot then path.length < 200 ∧ HasExtension path
    else path.length < 196 ∧ ¬ HasExtension path

instance (path : CString) : Decidable (Recognised path) := inferInstanceAs (Decidable (_ ∧ _))

section Paths
variable {path : ℤ → UInt8} {P : CString} {junk : Bytes}

theorem adjustPath_dotted (hd : path (P.length - 4) = dot) :
    adjustPath path P.length junk = safestrcpy junk (fun i => path i) 200 := by
  rw [adjustPath]
  exact if_neg (fun h => h hd)

theorem adjustPath_dotted_text (junk : Bytes) (hP : ∀ i : ℕ, i ≤ P.length → path i = P.bytes i)
    (hd : path (P.length - 4) = dot) :
    (stringIn (adjustPath path P.length junk) 200 (adjustPath_zero _ _ _)).text =
      P.text.take 199 := by
  have he : stringIn (adjustPath path P.length junk) 200 (adjustPath_zero _ _ _) =
      copied P junk 200 (by decide) := by
    apply eq_of_bytes
    rw [stringIn_bytes,adjustPath_dotted hd]
    exact safestrcpy_congr hP ((hP _ le_rfl).trans P.terminated)
  rw [he]
  exact copied_text P junk 200 (by decide)

theorem adjustPath_undotted (hd : path (P.length - 4) ≠ dot) : adjustPath path P.length junk =
    update (fun i => if i < P.length then safestrcpy junk (fun i => path i) 200 i
      else safestrcpy (fun j => safestrcpy junk (fun i => path i) 200 (P.length + j))
        (fun j => exeText.getD j 0) (200 - P.length) (i - P.length)) (P.length + 4) 0 := by
  rw [adjustPath]
  exact if_pos hd

theorem exeText_ne : ∀ c ∈ exeText, c ≠ 0 := by decide +kernel

theorem exeText_getD_ne {j : ℕ} (hj : j < 4) : exeText.getD j 0 ≠ 0 := by
  have hj' : j < exeText.length := by simpa [exeText] using hj
  rw [List.getD_eq_getElem exeText 0 hj']
  exact exeText_ne _ (List.getElem_mem hj')

theorem adjustPath_undotted_end (hd : path (P.length - 4) ≠ dot) :
    adjustPath path P.length junk (P.length + 4) = 0 := by
  rw [adjustPath_undotted hd,update_self]

theorem adjustPath_undotted_inside (hP : ∀ i : ℕ, i ≤ P.length → path i = P.bytes i)
    (hd : path (P.length - 4) ≠ dot) (hl : P.length < 200) {i : ℕ} (hi : i < P.length) :
    adjustPath path P.length junk i = P.bytes i := by
  have hnz : ∀ j < P.length, path j ≠ 0 := by
    intro j hj
    rw [hP j (by omega)]
    exact P.nonzero j hj
  rw [adjustPath_undotted hd,update_of_ne (by omega),if_pos hi,
    safestrcpy_text hnz (by omega) hi,hP i (by omega)]

theorem adjustPath_undotted_exe (hd : path (P.length - 4) ≠ dot) {j : ℕ} (hj : j < 4)
    (hl : P.length + 4 < 200) :
    adjustPath path P.length junk (P.length + j) = exeText.getD j 0 := by
  rw [adjustPath_undotted hd,update_of_ne (by omega),if_neg (by omega),Nat.add_sub_cancel_left,
    safestrcpy_text (k := 4) (fun j hj => exeText_getD_ne hj) (by omega) hj]

theorem adjustPath_undotted_text (junk : Bytes) (hP : ∀ i : ℕ, i ≤ P.length → path i = P.bytes i)
    (hd : path (P.length - 4) ≠ dot) (hl : P.length + 4 < 200) :
    (stringIn (adjustPath path P.length junk) 200 (adjustPath_zero _ _ _)).text =
      P.text ++ exeText := by
  have hlen : (P.text ++ exeText).length = P.length + 4 := by
    rw [List.length_append,text_length]
    rfl
  apply text_eq
  · intro i hi
    rw [stringIn_bytes]
    rcases Nat.lt_or_ge i P.length with hlt | hge
    · rw [adjustPath_undotted_inside hP hd (by omega) hlt,List.getElem_append_left (by simpa using hlt),
        text_getElem]
    · obtain ⟨j,rfl⟩ := Nat.exists_eq_add_of_le hge
      rw [adjustPath_undotted_exe hd (by omega) hl,List.getElem_append_right (by simp)]
      simp only [text_length,Nat.add_sub_cancel_left]
      exact List.getD_eq_getElem _ _ _
  · intro c hc
    rcases List.mem_append.mp hc with hc | hc
    · exact text_ne_zero P c hc
    · exact exeText_ne c hc
  · rw [hlen,stringIn_bytes]
    exact adjustPath_undotted_end hd

theorem adjustPath_outside (hl : path (P.length - 4) = dot ∨ P.length + 4 < 200) {i : ℕ} (hi : 200 ≤ i) :
    adjustPath path P.length junk i = junk i := by
  have hs : safestrcpy junk (fun i => path i) 200 i = junk i := safestrcpy_outside (by omega)
  by_cases hd : path (P.length - 4) = dot
  · rw [adjustPath_dotted hd,hs]
  · have hl' : P.length + 4 < 200 := hl.resolve_left hd
    rw [adjustPath_undotted hd,update_of_ne (by omega),if_neg (by omega),
      safestrcpy_outside (by omega),Nat.add_sub_of_le (by omega),hs]

theorem adjustPath_congr (path' : ℤ → UInt8) (junk : Bytes) (hP : ∀ i : ℕ, i ≤ P.length → path i = P.bytes i)
    (h : ∀ i : ℕ, i ≤ P.length → path' i = path i) (h4 : 4 ≤ P.length) :
    adjustPath path' P.length junk = adjustPath path P.length junk := by
  have hp : path' (P.length - 4) = path (P.length - 4) := by
    have hc : ((P.length : ℤ) - 4) = ((P.length - 4 : ℕ) : ℤ) := by omega
    rw [hc]
    exact h _ (by omega)
  have hs : ∀ s n, safestrcpy s (fun i => path' i) n = safestrcpy s (fun i => path i) n := by
    intro s n
    apply safestrcpy_congr h
    rw [h _ le_rfl,hP _ le_rfl,P.terminated]
  rw [adjustPath,adjustPath,hp,hs]

theorem adjusted_iff (hP : ∀ i : ℕ, i ≤ P.length → path i = P.bytes i) :
    (∀ junk, Adjusted path P junk
        (stringIn (adjustPath path P.length junk) 200 (adjustPath_zero _ _ _))) ↔ Recognised P := by
  have hlen : (P.text ++ exeText).length = P.length + 4 := by
    rw [List.length_append,text_length]
    rfl
  have hplace : 4 ≤ P.length → path (P.length - 4) = P.bytes (P.length - 4) := by
    intro h4
    have hc : ((P.length : ℤ) - 4) = ((P.length - 4 : ℕ) : ℤ) := by omega
    rw [hc,hP _ (by omega)]
  constructor
  · intro h
    have junk : Bytes := fun _ => 0
    have h4 : 4 ≤ P.length := by
      by_contra hlt
      -- the byte before the path decides
      have hpath (c : UInt8) (i : ℕ) : update path (P.length - 4) c i = path i :=
        update_of_ne (by omega) c path
      have h1 := (h junk).reads _ (fun i _ => hpath dot i)
      have h2 := (h junk).reads _ (fun i _ => hpath 0 i)
      have hd : update path (P.length - 4) dot (P.length - 4) = dot := update_self ..
      have hu : update path (P.length - 4) 0 (P.length - 4) ≠ dot := by
        rw [update_self]
        decide
      have ht1 := adjustPath_dotted_text junk (fun i hi => (hpath dot i).trans (hP i hi)) hd
      have ht2 := adjustPath_undotted_text junk (fun i hi => (hpath 0 i).trans (hP i hi)) hu
        (by omega)
      have he := congrArg List.length (ht1.symm.trans ((congrArg CString.text (eq_of_bytes
        (by rw [stringIn_bytes,stringIn_bytes,h1,h2]))).trans ht2))
      rw [hlen,List.length_take,text_length] at he
      omega
    refine ⟨h4,?_⟩
    have htext := fun junk => congrArg List.length (h junk).text
    split_ifs with hd
    · have ht := htext junk
      rw [adjustPath_dotted_text junk hP ((hplace h4).trans hd),List.length_take,text_length] at ht
      split_ifs at ht with hx
      · rw [text_length] at ht
        exact ⟨by omega,hx⟩
      · rw [hlen] at ht
        omega
    · have hd' : path (P.length - 4) ≠ dot := by rwa [hplace h4]
      have hl : P.length < 196 := by
        by_contra hge
        have hw := (h (fun _ => 1)).writes (P.length + 4) (by omega)
        rw [stringIn_bytes,adjustPath_undotted_end hd'] at hw
        exact absurd hw (by decide)
      have ht := htext junk
      rw [adjustPath_undotted_text junk hP hd' (by omega),hlen] at ht
      refine ⟨hl,?_⟩
      intro hx
      rw [if_pos hx,text_length] at ht
      omega
  · rintro ⟨h4,hr⟩ junk
    have hcongr := fun path' h => adjustPath_congr path' junk hP h h4
    split_ifs at hr with hd
    · refine ⟨hcongr,fun i hi => adjustPath_outside (.inl ((hplace h4).trans hd)) hi,?_⟩
      rw [adjustPath_dotted_text junk hP ((hplace h4).trans hd),if_pos hr.2,List.take_of_length_le]
      rw [text_length]
      omega
    · have hd' : path (P.length - 4) ≠ dot := by rwa [hplace h4]
      refine ⟨hcongr,fun i hi => adjustPath_outside (.inr (by omega)) hi,?_⟩
      rw [adjustPath_undotted_text junk hP hd' (by omega),if_neg hr.2]

end Paths

/-- The second argument is a vector of strings that can be fetched. -/
def VectorFetched (u : UserView) : Prop :=
  ∃ uargv argv, argint u 1 = some uargv ∧ fetchArguments u uargv MAXARG 0 = some argv

/-- sys_exec fails or calls exec with the path as it should be. -/
def HandlesPath (u : UserView) : Prop :=
  ∀ junk call, sys_exec_call u junk = some call → ∃ addr s, ∃ h : fetchstr u addr = some s,
    argstr u 0 = some (addr,s) ∧
      Adjusted (fun i => u.bytes ((addr + i) % 2^32).toNat) (userString u addr s h) junk call.path

theorem sys_exec_call_eq_some {u : UserView} {junk : Bytes} {call : ExecCall} :
    sys_exec_call u junk = some call ↔ ∃ addr s uargv argv, argstr u 0 = some (addr,s) ∧
      argint u 1 = some uargv ∧ fetchArguments u uargv MAXARG 0 = some argv ∧
      call = ⟨stringIn (adjustPath (fun i => u.bytes ((addr + i) % 2^32).toNat) s junk) 200
        (adjustPath_zero _ _ _),argv⟩ := by
  unfold sys_exec_call
  cases h0 : argstr u 0 with
  | none => simp
  | some x =>
    obtain ⟨addr,s⟩ := x
    cases h1 : argint u 1 with
    | none => simp
    | some uargv =>
      simp only [Option.map_eq_some_iff,Option.some.injEq,Prod.mk.injEq]
      constructor
      · rintro ⟨argv,ha,rfl⟩
        exact ⟨addr,s,uargv,argv,⟨rfl,rfl⟩,rfl,ha,rfl⟩
      · rintro ⟨_,_,_,argv,⟨rfl,rfl⟩,rfl,ha,rfl⟩
        exact ⟨argv,ha,rfl⟩

theorem adjusted_user_iff {u : UserView} {addr s : ℕ} (hs : u.MemorySize < 2^32)
    (h : fetchstr u addr = some s) :
    (∀ junk, Adjusted (fun i => u.bytes ((addr + i) % 2^32).toNat) (userString u addr s h) junk
        (stringIn (adjustPath (fun i => u.bytes ((addr + i) % 2^32).toNat) s junk) 200
          (adjustPath_zero _ _ _))) ↔ Recognised (userString u addr s h) := by
  have hbytes : ∀ i : ℕ, i ≤ (userString u addr s h).length →
      (fun i : ℤ => u.bytes ((addr + i) % 2^32).toNat) i = (userString u addr s h).bytes i := by
    intro i hi
    have hi' : i ≤ s := hi
    have hlt := (fetchstr_eq_some.mp h).1
    change u.bytes (((addr : ℤ) + i) % 2^32).toNat = u.bytes (addr + i)
    congr 1
    omega
  exact adjusted_iff hbytes

theorem recognised_of_handles {u : UserView} {addr s : ℕ} (hs : u.MemorySize < 2^32)
    (h : HandlesPath u) (hv : VectorFetched u) (hf : fetchstr u addr = some s)
    (h0 : argstr u 0 = some (addr,s)) : Recognised (userString u addr s hf) := by
  obtain ⟨uargv,argv,h1,hv⟩ := hv
  apply (adjusted_user_iff hs hf).mp
  intro junk
  obtain ⟨addr',s',_,h0',ha⟩ := h junk _ (sys_exec_call_eq_some.mpr ⟨addr,s,uargv,argv,h0,h1,hv,rfl⟩)
  cases h0.symm.trans h0'
  exact ha

/-- sys_exec treats a path as it should exactly if it fails for other reasons or its test
for an extension is right about the path and the array is large enough. -/
theorem sys_exec_path_iff {u : UserView} (hs : u.MemorySize < 2^32) :
    HandlesPath u ↔ (VectorFetched u → ∀ addr s, ∀ h : fetchstr u addr = some s,
      argstr u 0 = some (addr,s) → Recognised (userString u addr s h)) := by
  constructor
  · intro h hv addr s hf h0
    exact recognised_of_handles hs h hv hf h0
  · intro h junk call hc
    obtain ⟨addr,s,uargv,argv,h0,h1,hv,rfl⟩ := sys_exec_call_eq_some.mp hc
    have hf := (argstr_eq_some.mp h0).2
    refine ⟨addr,s,hf,h0,?_⟩
    exact (adjusted_user_iff hs hf).mpr (h ⟨uargv,argv,h1,hv⟩ addr s hf h0) junk

def callerOf (path : List UInt8) : UserView where
  MemorySize := PGSIZE
  esp := 0
  bytes i := if i = 4 then 16 else if i = 8 then 12 else if i < 16 then 0 else path.getD (i - 16) 0

section Callers
variable {path : List UInt8}

theorem callerOf_fetched : VectorFetched (callerOf path) := by
  refine ⟨12,[],rfl,?_⟩
  rw [MAXARG,fetchArguments]
  rfl

theorem callerOf_bytes (i : ℕ) : (callerOf path).bytes (16 + i) = path.getD i 0 := by
  simp only [callerOf]
  rw [if_neg (by omega),if_neg (by omega),if_neg (by omega),Nat.add_sub_cancel_left]

theorem callerOf_string (hn : ∀ c ∈ path, c ≠ 0) (hl : 16 + path.length < PGSIZE) :
    fetchstr (callerOf path) 16 = some path.length := by
  rw [fetchstr_eq_some]
  refine ⟨hl,?_,?_⟩
  · rw [callerOf_bytes,List.getD_eq_default _ _ le_rfl]
  · intro i hi
    rw [callerOf_bytes,List.getD_eq_getElem _ _ hi]
    exact hn _ (List.getElem_mem hi)

theorem callerOf_path (hn : ∀ c ∈ path, c ≠ 0) (hl : 16 + path.length < PGSIZE) :
    argstr (callerOf path) 0 = some (16,path.length) :=
  argstr_eq_some.mpr ⟨rfl,callerOf_string hn hl⟩

end Callers

/-- The path `sh.exe`. -/
theorem sys_exec_path_iff_sh : (callerOf [115,104,46,101,120,101]).MemorySize < 2^32 ∧
    HandlesPath (callerOf [115,104,46,101,120,101]) := by
  have hr : Recognised (userString (callerOf [115,104,46,101,120,101]) 16 6
      (callerOf_string (by decide +kernel) (by decide))) := by decide +kernel
  refine ⟨by decide,(sys_exec_path_iff (by decide)).mpr ?_⟩
  intro _ addr s h h0
  cases h0.symm.trans (callerOf_path (by decide +kernel) (by decide))
  exact hr

/-- The paths `ls`, which is too short, `prog.c`, whose point is not at the place, and 196
characters without a point. -/
theorem paths_not_handled : ¬ HandlesPath (callerOf [108,115]) ∧
    ¬ HandlesPath (callerOf [112,114,111,103,46,99]) ∧ ¬ HandlesPath (callerOf (List.replicate 196 97)) := by
  have hno : ∀ path : List UInt8, ∀ hn : ∀ c ∈ path, c ≠ 0, ∀ hl : 16 + path.length < PGSIZE,
      ¬ Recognised (userString (callerOf path) 16 path.length (callerOf_string hn hl)) →
        ¬ HandlesPath (callerOf path) := by
    intro path hn hl hr h
    exact hr (recognised_of_handles (show PGSIZE < 2^32 by decide) h callerOf_fetched _ (callerOf_path hn hl))
  refine ⟨hno _ (by decide +kernel) (by decide +kernel) (by decide +kernel),
    hno _ (by decide +kernel) (by decide +kernel) (by decide +kernel),
    hno _ (by decide +kernel) (by decide +kernel) (by decide +kernel)⟩

end UoDOS.Kernel
