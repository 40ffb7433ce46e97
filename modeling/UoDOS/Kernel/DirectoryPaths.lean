import UoDOS.FileSystem.Paths
import UoDOS.FileSystem.SubDirectory
import UoDOS.Kernel.DirectoryRuns

/-! # Working directories and the paths they stand for

sys_chdir against fsFat12Open: whether a relative name under the new working directory means
what it meant behind the directory's path.
-/
namespace UoDOS.Kernel
open ByteMemory Strings FileSystem Results Processes

variable (M : Mounted) (junk : Bytes)

def resolve (t : FileTable) (cwd filename : CString) : Except Stop (Option DirectoryEntry) := do
  let (f,t) ← fsFat12Open M t cwd filename false junk
  .ok (f.map (fun f => (t f).DirectoryEntry))

def NamesDirectory (cwd d : CString) : Prop :=
  ∃ f t, fsFat12Open M unusedFiles cwd d true junk = .ok (some f,t)

theorem slashString_ne : ∀ c ∈ [slash], c ≠ 0 := by simp [slash]

def slashString : CString := .ofText [slash] (fun _ => 0) slashString_ne

/-- The path `d/f`, behind the working directory if `d` is relative. -/
def pathTo (cwd d f : CString) : CString := (fullPath cwd d).append (slashString.append f)

def cwdString (table : Bytes) (p : Fin NPROC) (n : ℕ) (h : table (cwdAddress p + n) = 0) : CString :=
  .ofBuffer (fun i => table (cwdAddress p + i)) n h

/-- sys_chdir succeeds on existing directories only, and then a relative name is opened
as its path was before; a failure keeps the working directory. -/
structure ChdirFollows (u : UserView) (table : Bytes) (p : Fin NPROC) (cwd d : CString) : Prop where
  answer : (sys_chdir u table p).1 = 0 ↔ NamesDirectory M junk cwd d
  follows : (sys_chdir u table p).1 = 0 → ∀ n h (t : FileTable) (f : CString),
    separates (f.bytes 0) = false →
    (cwdString (sys_chdir u table p).2.2 p n h).length + f.length < MAXCWDSIZE →
    (pathTo cwd d f).length < MAXCWDSIZE →
      resolve M junk t (cwdString (sys_chdir u table p).2.2 p n h) f =
        resolve M junk t cwd (pathTo cwd d f)
  keeps : (sys_chdir u table p).1 = -1 → ∀ i < MAXCWDSIZE,
    (sys_chdir u table p).2.2 (cwdAddress p + i) = table (cwdAddress p + i)

variable {M junk} {t : FileTable} {cwd cwd' d f : CString} {u : UserView} {table : Bytes} {p : Fin NPROC}

theorem resolve_overrun (cwd : CString) (h : 21 ≤ (fullPath cwd f).length) : resolve M junk t cwd f = .error .overrun := by
  rw [resolve,open_overrun h]
  rfl

theorem resolve_returns (h0 : 0 < (fullPath cwd f).length) (h : (fullPath cwd f).length < 21) :
    resolve M junk t cwd f ≠ .error .overrun := by
  intro he
  have ha : Avoids (· = .overrun) (resolve M junk t cwd f) :=
    avoids_bind (open_avoids_overrun h0 h) (fun _ _ => avoids_ok _)
  exact ha _ he rfl

theorem resolve_congr (h0 : 0 < (fullPath cwd f).length) (hm : (fullPath cwd f).length < MAXCWDSIZE)
    (hl : (fullPath cwd' d).length = (fullPath cwd f).length)
    (hb : ∀ i < (fullPath cwd f).length, (fullPath cwd' d).bytes i = (fullPath cwd f).bytes i) :
    resolve M junk t cwd f = resolve M junk t cwd' d := by
  rw [resolve,resolve,open_congr h0 hm hl hb]

theorem names_short (h : NamesDirectory M junk cwd d) : (fullPath cwd d).length < 21 := by
  by_contra hl
  obtain ⟨g,t,ht⟩ := h
  rw [open_overrun (Nat.le_of_not_lt hl)] at ht
  cases ht

theorem fullPath_pathTo (h0 : 0 < cwd.length) (hs : separates (cwd.bytes 0)) (f : CString) :
    fullPath cwd (pathTo cwd d f) = pathTo cwd d f := by
  have hfirst : separates ((pathTo cwd d f).bytes 0) := by
    unfold pathTo fullPath
    split_ifs with hd
    · have hn : 0 < d.length := by
        rcases Nat.eq_zero_or_pos d.length with hz | hp
        · rw [← hz,d.terminated] at hd
          exact absurd hd (by decide)
        · exact hp
      rw [append_left hn]
      exact hd
    · rw [append_left (by rw [append_length]; omega),append_left h0]
      exact hs
  rw [fullPath,if_pos hfirst]

theorem pathTo_length (cwd d f : CString) :
    (pathTo cwd d f).length = (fullPath cwd d).length + (1 + f.length) := rfl

theorem fullPath_relative (cwd : CString) (hf : separates (f.bytes 0) = false) : fullPath cwd f = cwd.append f := by
  rw [fullPath,if_neg (by simp [hf])]

def letters (k : ℕ) : CString := .ofText (List.replicate k 65) (fun _ => 0) (by
  intro c hc
  rw [List.eq_of_mem_replicate hc]
  decide)

theorem letters_relative (k : ℕ) : separates ((letters k).bytes 0) = false := by
  cases k with
  | zero => decide
  | succ k => simp [letters,CString.ofText,separates]

theorem letters_length (k : ℕ) : (letters k).length = k := List.length_replicate

theorem prefixes_same_length (h0 : 0 < cwd.length) (hs : separates (cwd.bytes 0))
    (hd : (fullPath cwd d).length < 21) (h1 : 0 < cwd'.length) (hl : cwd'.length < 22)
    (h : ∀ f, separates (f.bytes 0) = false → cwd'.length + f.length < MAXCWDSIZE →
      (pathTo cwd d f).length < MAXCWDSIZE →
        resolve M junk t cwd' f = resolve M junk t cwd (pathTo cwd d f)) :
    cwd'.length = (fullPath cwd d).length + 1 := by
  have hr := fun k => h (letters k) (letters_relative k)
  simp only [pathTo_length,letters_length,MAXCWDSIZE] at hr
  have hnew : ∀ k, (fullPath cwd' (letters k)).length = cwd'.length + k := fun k => by
    rw [fullPath_relative _ (letters_relative k),append_length,letters_length]
  have hold : ∀ k, (fullPath cwd (pathTo cwd d (letters k))).length =
      (fullPath cwd d).length + (1 + k) := fun k => by
    rw [fullPath_pathTo h0 hs,pathTo_length,letters_length]
  rcases Nat.lt_trichotomy cwd'.length ((fullPath cwd d).length + 1) with hlt | he | hgt
  · have hk := hr (20 - cwd'.length) (by omega) (by omega)
    rw [resolve_overrun cwd (by rw [hold]; omega)] at hk
    exact absurd hk (resolve_returns (by rw [hnew]; omega) (by rw [hnew]; omega))
  · exact he
  · have hk := hr (19 - (fullPath cwd d).length) (by omega) (by omega)
    rw [resolve_overrun cwd' (by rw [hnew]; omega)] at hk
    exact absurd hk.symm (resolve_returns (by rw [hold]; omega) (by rw [hold]; omega))

theorem cwdString_pos {n : ℕ} {h : table (cwdAddress p + n) = 0} (hs : separates (table (cwdAddress p))) :
    0 < (cwdString table p n h).length := by
  rcases Nat.eq_zero_or_pos (cwdString table p n h).length with h0 | h0
  · have hz := (cwdString table p n h).terminated
    rw [h0] at hz
    change table (cwdAddress p) = 0 at hz
    rw [hz] at hs
    exact absurd hs (by decide)
  · exact h0

section Answer

variable {directory len : ℕ}

theorem chdir_succeeds (ha : argstr u 0 = some (directory,len)) : (sys_chdir u table p).1 = 0 := by
  by_cases hl : lacksSeparator u directory len
  · rw [chdir_appends table p ha hl]
  · rw [chdir_copies table p ha hl]

theorem given_length (ha : argstr u 0 = some (directory,len)) (hd : d.bytes = fun i => u.bytes (directory + i)) :
    d.length = len := by
  obtain ⟨-,hz,hne⟩ := fetchstr_eq_some.mp (argstr_eq_some.mp ha).2
  apply length_unique
  · rw [hd]
    exact hz
  · rw [hd]
    exact hne

theorem chdir_string_length (ha : argstr u 0 = some (directory,len)) {n : ℕ}
    {h : (sys_chdir u table p).2.2 (cwdAddress p + n) = 0} :
    (cwdString (sys_chdir u table p).2.2 p n h).length =
      if lacksSeparator u directory len then len + 1 else len := by
  obtain ⟨-,-,hne⟩ := fetchstr_eq_some.mp (argstr_eq_some.mp ha).2
  apply length_unique (chdir_end ha)
  intro i hi
  change (sys_chdir u table p).2.2 (cwdAddress p + i) ≠ 0
  by_cases hil : i < len
  · rw [chdir_text ha hil]
    exact hne i hil
  · split_ifs at hi with hl
    · rw [show i = len by omega,chdir_slash ha hl]
      decide
    · exact absurd hi hil

theorem new_path_bytes {n : ℕ} {h : (sys_chdir u table p).2.2 (cwdAddress p + n) = 0}
    (ha : argstr u 0 = some (directory,len)) (hd : d.bytes = fun i => u.bytes (directory + i))
    (hs : separates (d.bytes 0)) (hl : lacksSeparator u directory len)
    (hlen : (cwdString (sys_chdir u table p).2.2 p n h).length = len + 1) :
    ∀ i < len + 1 + f.length, (pathTo cwd d f).bytes i =
      ((cwdString (sys_chdir u table p).2.2 p n h).append f).bytes i := by
  intro i hi
  have hdl := given_length ha hd
  have hslash : slashString.length = 1 := rfl
  rw [pathTo,fullPath,if_pos hs]
  rcases Nat.lt_trichotomy i len with hil | rfl | hil
  · rw [append_left (by omega),append_left (by omega),hd]
    exact (chdir_text ha hil).symm
  · rw [append_left (s := cwdString _ p n h) (by omega),← hdl,← Nat.add_zero d.length,append_right,
      append_left (by omega),hdl]
    exact (chdir_slash ha hl).symm
  · obtain ⟨j,rfl⟩ : ∃ j, i = len + 1 + j := ⟨i - (len + 1),by omega⟩
    have hright := append_right (cwdString (sys_chdir u table p).2.2 p n h) f j
    have hmid := append_right slashString f j
    have hleft := append_right d (slashString.append f) (1 + j)
    rw [hlen] at hright
    rw [hslash] at hmid
    rw [hdl,← Nat.add_assoc] at hleft
    rw [hright,hleft,hmid]

/-- For a process whose working directory begins with a separator, sys_chdir does what
the paths say exactly when it gets the path of an existing directory from the root, and
does not find both separators. -/
theorem chdir_follows_iff {n : ℕ} (ha : argstr u 0 = some (directory,len))
    (hd : d.bytes = fun i => u.bytes (directory + i)) (hn : table (cwdAddress p + n) = 0)
    (hs : separates (table (cwdAddress p))) :
    ChdirFollows M junk u table p (cwdString table p n hn) d ↔
      NamesDirectory M junk (cwdString table p n hn) d ∧ separates (d.bytes 0) ∧
        ¬ (HasSeparator u directory len slash ∧ HasSeparator u directory len backslash) := by
  obtain ⟨-,hz,hne⟩ := fetchstr_eq_some.mp (argstr_eq_some.mp ha).2
  have h0 := cwdString_pos (h := hn) hs
  have hlen := given_length ha hd
  have hfull : (fullPath (cwdString table p n hn) d).length =
      if separates (d.bytes 0) then len else (cwdString table p n hn).length + len := by
    rw [fullPath]
    split_ifs
    · exact hlen
    · rw [append_length,hlen]
  rw [← lacksSeparator_iff hz]
  constructor
  · intro h
    have hnames := h.answer.mp (chdir_succeeds ha)
    have hshort := names_short hnames
    have hend := chdir_end (b := table) (p := p) ha
    have hl := chdir_string_length ha (h := hend)
    refine ⟨hnames,?_⟩
    have hpos : 0 < len ∨ lacksSeparator u directory len := by
      rcases Nat.eq_zero_or_pos len with rfl | h0
      · right
        rw [lacksSeparator_iff hz]
        rintro ⟨h1,h2⟩
        simp only [HasSeparator,Nat.not_lt_zero,false_and,exists_false,false_or] at h1 h2
        rw [h1] at h2
        exact absurd h2 (by decide)
      · exact .inl h0
    have hle : len ≤ (fullPath (cwdString table p n hn) d).length := by
      rw [hfull]
      split_ifs
      · exact le_rfl
      · omega
    have hnew : 0 < (cwdString _ p _ hend).length ∧ (cwdString _ p _ hend).length < 22 := by
      rw [hl]
      split_ifs with hls
      · omega
      · rcases hpos with hp | hp
        · omega
        · exact absurd hp hls
    have hsame := prefixes_same_length (M := M) h0 hs hshort hnew.1 hnew.2
      (h.follows (chdir_succeeds ha) _ hend unusedFiles)
    rw [hl,hfull] at hsame
    split_ifs at hsame with h1 h2
    · exact ⟨h2,h1⟩
    · omega
    · omega
    · omega
  · rintro ⟨hnames,hsep,hl⟩
    refine ⟨iff_of_true (chdir_succeeds ha) hnames,?_,?_⟩
    · intro _ k hk t f hf hm hp
      have hlen' := chdir_string_length ha (h := hk)
      rw [if_pos hl] at hlen'
      have hpath := fullPath_pathTo (d := d) h0 hs f
      have hrel := fullPath_relative (cwdString (sys_chdir u table p).2.2 p k hk) hf
      apply resolve_congr
      · rw [hrel,append_length,hlen']
        omega
      · rw [hrel,append_length]
        exact hm
      · rw [hpath,hrel,append_length,hlen',pathTo_length,hfull,if_pos hsep]
        omega
      · rw [hpath,hrel,append_length,hlen']
        exact new_path_bytes ha hd hsep hl hlen'
    · intro h1
      rw [chdir_succeeds ha] at h1
      cases h1

end Answer

def rootVolume (present : Bool) : Mounted where
  image := smallKernel
  memory _ := 0
  volume := smallVolume
  disk n i := if present = true ∧ n = 2 then
    if i = 0 then 65 else if i < 11 then space else if i = 11 then 0x10 else 0 else 0

def givenDirectory : CString := .ofBuffer (fun i => (directoryView slash 1).bytes (100 + i)) 2 (by decide)

def firstBytes : Bytes := (firstDirectories (fun _ => 0)).bytes

def firstCwd : CString := cwdString firstBytes initproc 1 (by decide)

def opens (x : Except Stop (Option (Fin NFILE) × FileTable)) : Bool :=
  match x with
  | .ok (some _,_) => true
  | _ => false

theorem opens_iff {x : Except Stop (Option (Fin NFILE) × FileTable)} :
    opens x ↔ ∃ f t, x = .ok (some f,t) := by
  rcases x with e | ⟨_ | f,t⟩ <;> simp [opens]

theorem chdir_follows_iff_existing : ChdirFollows (rootVolume true) (fun _ => 0) (directoryView slash 1)
    firstBytes initproc firstCwd givenDirectory := by
  refine (chdir_follows_iff (directoryView_argstr slash (by decide) (by decide)) rfl (by decide)
    (by decide)).mpr ⟨?_,by decide,by decide⟩
  apply opens_iff.mp
  decide +kernel

/-- A directory that does not exist is accepted. -/
theorem missing_directory_accepted : ¬ ChdirFollows (rootVolume false) (fun _ => 0) (directoryView slash 1)
    firstBytes initproc firstCwd givenDirectory := by
  intro h
  have hn := h.answer.mp (chdir_succeeds (directoryView_argstr slash (by decide) (by decide)))
  exact absurd (opens_iff.mpr hn) (by decide +kernel)

end UoDOS.Kernel
