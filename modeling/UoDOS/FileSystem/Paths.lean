import UoDOS.FileSystem.OpenCounts

/-! # What opening a path depends on

fsFat12Open looks at its path up to the first zero, and leaves its arrays exactly when
twenty bytes or more follow the first separator.
-/
namespace UoDOS.FileSystem
open ByteMemory Strings Results

variable (M : Mounted)

def fullPath (cwd filename : CString) : CString :=
  if separates (filename.bytes 0) then filename else cwd.append filename

variable {M} {cwd filename : CString} {junk : Bytes}

theorem openPath_text {i : ℕ} (hi : i < (fullPath cwd filename).length) (hm : i + 1 < MAXCWDSIZE) :
    openPath cwd filename junk i = (fullPath cwd filename).bytes i := by
  unfold fullPath at hi ⊢
  unfold openPath
  split_ifs at hi ⊢ with hs
  · exact safestrcpy_text (k := min filename.length (i + 1))
      (fun j hj => filename.nonzero j (by omega)) (by omega) (by omega)
  · dsimp only
    split_ifs with hc
    · rw [append_left hc]
      exact safestrcpy_text (k := i + 1) (fun j hj => cwd.nonzero j (by omega)) (by omega) (by omega)
    · rw [append_length] at hi
      have he : i = cwd.length + (i - cwd.length) := by omega
      conv_rhs => rw [he,append_right]
      exact safestrcpy_text (k := i - cwd.length + 1) (fun j hj => filename.nonzero j (by omega))
        (by omega) (by omega)

theorem openPath_end (hm : (fullPath cwd filename).length < MAXCWDSIZE) :
    openPath cwd filename junk (fullPath cwd filename).length = 0 := by
  unfold fullPath at hm ⊢
  unfold openPath
  split_ifs at hm ⊢ with hs
  · exact safestrcpy_end filename.nonzero (by omega) (.inl filename.terminated)
  · rw [append_length] at hm ⊢
    dsimp only
    rw [if_neg (by omega),Nat.add_sub_cancel_left]
    exact safestrcpy_end filename.nonzero (by omega) (.inl filename.terminated)

variable {directory rootDirectory : Bool} {n k : ℕ} {t : FileTable} {e : DirectoryEntry} {p q : Bytes}

theorem openFrom_overrun (hp : ∀ i < 20, p i ≠ 0) :
    openFrom M directory junk (n + 1) t rootDirectory e p = .error .overrun := by
  have hf : first (fun i => decide (p i = 0)) 20 = 20 := by
    apply Nat.le_antisymm (first_le _ _)
    by_contra hl
    have ht := first_of_lt (Nat.lt_of_not_le hl)
    exact hp _ (Nat.lt_of_not_le hl) (by simpa using ht)
  rw [openFrom,fsGetPathPart,if_pos hf]
  rfl

section Stops

variable {bad : Stop → Prop}

theorem avoids_readSectors (hh : ¬ bad .hang) {sector offset size : ℕ} :
    Avoids bad (readSectors M n sector offset size) := by
  induction n generalizing sector offset size with
  | zero =>
    cases size with
    | zero => exact avoids_ok _
    | succ size => exact avoids_error hh
  | succ n ih =>
    cases size with
    | zero => exact avoids_ok _
    | succ size =>
      rw [readSectors]
      exact avoids_bind ih (fun _ _ => avoids_ok _)

theorem avoids_readCluster (hh : ¬ bad .hang) {cluster offset size : ℕ} :
    Avoids bad (fsFat12ReadCluster M cluster offset size) := by
  unfold fsFat12ReadCluster
  dsimp only
  split_ifs <;> exact avoids_bind (avoids_readSectors hh) (fun _ _ => avoids_ok _)

theorem avoids_readClusters (hh : ¬ bad .hang) {file : File} {cluster offset length : ℕ} :
    Avoids bad (readClusters M n file cluster offset length) := by
  induction n generalizing file cluster offset length with
  | zero =>
    cases length with
    | zero => exact avoids_ok _
    | succ length => exact avoids_error hh
  | succ n ih =>
    cases length with
    | zero => exact avoids_ok _
    | succ length =>
      rw [readClusters]
      apply avoids_bind (avoids_readCluster hh)
      intro r hr
      dsimp only
      split_ifs
      · exact avoids_ok _
      · exact avoids_ok _
      · exact avoids_bind ih (fun _ _ => avoids_ok _)
      · exact avoids_ok _
      · exact avoids_bind ih (fun _ _ => avoids_ok _)

theorem avoids_read (hh : ¬ bad .hang) (hd : ¬ bad .divideError) {file : File} {length : ℕ} :
    Avoids bad (fsFat12Read M file length) := by
  unfold fsFat12Read
  split_ifs
  · exact avoids_error hd
  · exact avoids_readClusters hh
  · exact avoids_ok _

theorem avoids_fileClose {f : Fin NFILE} (h : counts t f ≠ 0) : Avoids bad (fileClose t f) := by
  have hn : ¬ (t f).ReferenceCount < 1 := fun hl => h (Nat.lt_one_iff.mp hl)
  unfold fileClose
  rw [if_neg hn]
  split_ifs
  · exact avoids_ok _
  · exact avoids_ok _

theorem avoids_search (hh : ¬ bad .hang) (hd : ¬ bad .divideError) {name : CString} {f : Fin NFILE}
    {buf : Bytes} (h : counts t f ≠ 0) : Avoids bad (searchSectors M name f n t e buf) := by
  induction n generalizing t buf with
  | zero => exact avoids_error hh
  | succ n ih =>
    rw [searchSectors]
    split_ifs
    · exact avoids_bind (avoids_fileClose h) (fun _ _ => avoids_ok _)
    · apply avoids_bind (avoids_read hh hd)
      rintro ⟨k,bytes,file⟩ hr
      obtain ⟨position,eof,rfl⟩ := read_file hr
      have hw : counts (Function.update t f { t f with Position := position, Eof := eof }) = counts t :=
        counts_write rfl
      dsimp only
      split
      · exact avoids_bind (avoids_fileClose (by rw [hw]; exact h)) (fun _ _ => avoids_ok _)
      · exact ih (by rw [hw]; exact h)

theorem avoids_findComponent (hh : ¬ bad .hang) (hd : ¬ bad .divideError) (hz : ¬ bad .nullPointer)
    {name : CString} : Avoids bad (findComponent M t rootDirectory name e junk) := by
  unfold findComponent
  split_ifs
  · exact avoids_ok _
  · unfold fsFat12FindInSubDirectory
    split
    · exact avoids_error hz
    · rename_i g t1 hg
      apply avoids_search hh hd
      rw [(counts_create hg).2,Function.update_self]
      exact one_ne_zero

end Stops

theorem fsGetPathPart_ok {part : Bytes} {name : CString} {l : ℕ} (hz : p k = 0)
    (h : fsGetPathPart p part = .ok (name,l)) : l ≠ 0 → l + 1 ≤ k := by
  unfold fsGetPathPart at h
  dsimp only at h
  split_ifs at h with hn hl
  · cases h
    intro h0
    exact absurd rfl h0
  · cases h
    intro _
    -- the component ends before the path does, at a byte that is not its zero
    have hle : first (fun i => decide (p i = 0 ∨ separates (p i) = true))
        (first (fun i => decide (p i = 0)) 20) ≤ k := first_le_of (by simp [hz])
    rcases Nat.eq_or_lt_of_le hle with he | hlt
    · rw [he] at hl
      exact absurd hz hl
    · exact hlt

theorem fsGetPathPart_congr {part : Bytes} (h : ∀ i ≤ k, p i = q i) (hz : p k = 0) :
    fsGetPathPart p part = fsGetPathPart q part := by
  have hn : first (fun i => decide (p i = 0)) 20 = first (fun i => decide (q i = 0)) 20 :=
    first_congr (fun i hi => by rw [h i hi]) (by simpa using hz)
  have hnk : first (fun i => decide (p i = 0)) 20 ≤ k := first_le_of (by simpa using hz)
  have hl : first (fun i => decide (p i = 0 ∨ separates (p i) = true)) (first (fun i => decide (p i = 0)) 20) =
      first (fun i => decide (q i = 0 ∨ separates (q i) = true)) (first (fun i => decide (q i = 0)) 20) := by
    rw [hn]
    exact first_congr (fun i hi => by rw [h i hi]) (by simp [hz])
  have hlk : first (fun i => decide (p i = 0 ∨ separates (p i) = true))
      (first (fun i => decide (p i = 0)) 20) ≤ k := first_le_of (by simp [hz])
  unfold fsGetPathPart
  dsimp only
  by_cases h20 : first (fun i => decide (p i = 0)) 20 = 20
  · rw [if_pos h20,if_pos (hn.symm.trans h20)]
  · rw [if_neg h20,if_neg (fun hq => h20 (hn.trans hq))]
    have hb : (fun i => if i ≤ first (fun i => decide (p i = 0)) 20 then p i else part i) =
        fun i => if i ≤ first (fun i => decide (q i = 0)) 20 then q i else part i := by
      funext i
      rw [← hn]
      split_ifs with hi
      · exact h i (by omega)
      · rfl
    refine congrArg Except.ok (Prod.ext ?_ ?_)
    · exact ofBuffer_congr (by simp) (by simp) (by rw [hb,hl]) hl
    · dsimp only
      rw [h _ hlk,hl]

theorem openFrom_congr (h : ∀ i ≤ k, p i = q i) (hz : p k = 0) :
    openFrom M directory junk n t rootDirectory e p = openFrom M directory junk n t rootDirectory e q := by
  induction n generalizing t rootDirectory e p q k with
  | zero => rfl
  | succ n ih =>
    rw [openFrom,openFrom,fsGetPathPart_congr h hz]
    rcases hg : fsGetPathPart q junk with x | ⟨name,l⟩
    · rfl
    · have hl := fsGetPathPart_ok hz ((fsGetPathPart_congr h hz).trans hg)
      simp only [bind,Except.bind]
      rcases findComponent M t rootDirectory name e junk with x | ⟨found,e',t'⟩
      · rfl
      · dsimp only
        by_cases h0 : l = 0
        · rw [if_pos h0,if_pos h0]
        · have hk := hl h0
          rw [ih (k := k - (l + 1)) (fun i hi => h _ (by omega)) (by rw [Nat.add_sub_cancel' hk]; exact hz)]

theorem avoids_openFrom {bad : Stop → Prop} (hh : ¬ bad .hang) (hd : ¬ bad .divideError)
    (hn : ¬ bad .nullPointer) (ho : ¬ bad .overrun ∨ ∃ k < 20, p k = 0) :
    Avoids bad (openFrom M directory junk n t rootDirectory e p) := by
  induction n generalizing t rootDirectory e p with
  | zero => exact avoids_error hh
  | succ n ih =>
    rw [openFrom]
    apply avoids_bind
    · unfold fsGetPathPart
      dsimp only
      split_ifs with h20
      · rcases ho with ho | ⟨k,hk,hz⟩
        · exact avoids_error ho
        · have hf : first (fun i => decide (p i = 0)) 20 ≤ k := first_le_of (by simpa using hz)
          omega
      · exact avoids_ok _
      · exact avoids_ok _
    · rintro ⟨name,l⟩ hg
      apply avoids_bind (avoids_findComponent hh hd hn)
      rintro ⟨found,e',t'⟩ _
      dsimp only
      split_ifs with hf h0 ha hd
      · exact avoids_ok _
      · exact avoids_ok _
      · split
        · exact avoids_ok _
        · exact avoids_error hn
      · split
        · exact avoids_ok _
        · exact avoids_ok _
      · exact avoids_ok _
      · apply ih
        rcases ho with ho | ⟨k,hk,hz⟩
        · exact .inl ho
        · have hl := fsGetPathPart_ok hz hg h0
          exact .inr ⟨k - (l + 1),by omega,by rw [Nat.add_sub_cancel' hl]; exact hz⟩

section Open

variable {cwd' filename' : CString}

theorem open_overrun (h : 21 ≤ (fullPath cwd filename).length) :
    fsFat12Open M t cwd filename directory junk = .error .overrun := by
  apply openFrom_overrun
  intro i hi
  rw [openPath_text (by omega) (by simp only [MAXCWDSIZE]; omega)]
  exact (fullPath cwd filename).nonzero _ (by omega)

theorem open_avoids_overrun (h0 : 0 < (fullPath cwd filename).length)
    (h : (fullPath cwd filename).length < 21) :
    Avoids (· = .overrun) (fsFat12Open M t cwd filename directory junk) := by
  apply avoids_openFrom (by simp) (by simp) (by simp)
  right
  refine ⟨(fullPath cwd filename).length - 1,by omega,?_⟩
  rw [Nat.add_sub_cancel' h0]
  exact openPath_end (by simp only [MAXCWDSIZE]; omega)

theorem open_congr (h0 : 0 < (fullPath cwd filename).length)
    (hm : (fullPath cwd filename).length < MAXCWDSIZE)
    (hl : (fullPath cwd' filename').length = (fullPath cwd filename).length)
    (hb : ∀ i < (fullPath cwd filename).length, (fullPath cwd' filename').bytes i = (fullPath cwd filename).bytes i) :
    fsFat12Open M t cwd filename directory junk = fsFat12Open M t cwd' filename' directory junk := by
  apply openFrom_congr (k := (fullPath cwd filename).length - 1)
  · intro i hi
    rcases Nat.eq_or_lt_of_le hi with rfl | hlt
    · rw [Nat.add_sub_cancel' h0,openPath_end hm,← hl]
      exact (openPath_end (by omega)).symm
    · rw [openPath_text (by omega) (by omega),openPath_text (by omega) (by omega),hb _ (by omega)]
  · rw [Nat.add_sub_cancel' h0]
    exact openPath_end hm

end Open

end UoDOS.FileSystem
