import UoDOS.FileSystem.Directories
import UoDOS.Kernel.WorkingDirectory
import UoDOS.Library.Transition
import UoDOS.Process.ProcessTable

/-! # Working directories in every run

The calls of proc.c, exec.c and sysfile.c that write `Cwd` or `Name`, on the Process structures
as bytes beside the table of slots.
-/
namespace UoDOS.Kernel
open ByteMemory Strings FileSystem Processes ProcState Transition Function

structure DirectoryTable where
  slots : ProcessTable
  bytes : Bytes

namespace DirectoryTable

def cwd (t : DirectoryTable) (p : Fin NPROC) : Bytes := fun i => t.bytes (cwdAddress p + i)

def name (t : DirectoryTable) (p : Fin NPROC) : Bytes := fun i => t.bytes (nameAddress p + i)

def Live (t : DirectoryTable) (p : Fin NPROC) : Prop :=
  (t.slots p).State = SLEEPING ∨ (t.slots p).State = RUNNABLE ∨ (t.slots p).State = RUNNING

end DirectoryTable

/-- A call of a process. `made` says whether fork got the memory for the child, `last`
is the name that a successful exec stores. -/
inductive DirectoryCall
  | fork (nextpid : UInt32) (made : Bool)
  | exit
  | wait
  | exec (last : Bytes)
  | sys_chdir (u : UserView)
  | other (t : DirectoryTable)

def forkDirectory (t : DirectoryTable) (curproc : Fin NPROC) (nextpid : UInt32) (made : Bool) :
    DirectoryTable :=
  match allocateSlot t.slots nextpid with
  | none => t
  | some (np,slots) =>
    if made then
      let bytes := copyString t.bytes (cwdAddress np) (t.cwd curproc) MAXCWDSIZE
      { slots := update (setParent slots np (some curproc)) np
          { setParent slots np (some curproc) np with State := RUNNABLE }
        bytes := copyString bytes (nameAddress np) (t.name curproc) 16 }
    else { t with slots := update slots np { slots np with State := UNUSED } }

def waitDirectory (t : DirectoryTable) (curproc : Fin NPROC) : DirectoryTable :=
  match waitSlot curproc t.slots with
  | (.reaped p _,slots) => { slots := slots, bytes := update t.bytes (nameAddress p) 0 }
  | (_,slots) => { t with slots := slots }

structure Elsewhere (t t' : DirectoryTable) : Prop where
  cwd : ∀ p, ∀ i < MAXCWDSIZE, t'.cwd p i = t.cwd p i
  live : ∀ p, t'.Live p → t.Live p

def directoryStep (t : DirectoryTable) (l : Fin NPROC × DirectoryCall) (t' : DirectoryTable) : Prop :=
  t.Live l.1 ∧ match l.2 with
    | .fork nextpid made => t' = forkDirectory t l.1 nextpid made
    | .exit => l.1 ≠ initproc ∧
        t' = ⟨exitSlot l.1 t.slots,update t.bytes (cwdAddress l.1) 0⟩
    | .wait => t' = waitDirectory t l.1
    | .exec last => t' = { t with bytes := copyString t.bytes (nameAddress l.1) last 16 }
    | .sys_chdir u => t' = { t with bytes := (sys_chdir u t.bytes l.1).2.2 }
    | .other u => t' = u ∧ Elsewhere t u

/-- The Process structures once initialiseFirstUserProcess has filled the first. -/
def firstDirectories (b : Bytes) : DirectoryTable where
  slots := firstTable
  bytes := copyString (copyString b (nameAddress initproc)
    (fun i => [0x69,0x6E,0x69,0x74,0x63,0x6F,0x64,0x65].getD i 0) 16) (cwdAddress initproc)
    (fun i => [slash].getD i 0) MAXCWDSIZE

/-- A terminated string in the array `Cwd` that begins and ends with a separator. -/
def Proper (b : Bytes) : Prop :=
  ∃ n, 0 < n ∧ n < MAXCWDSIZE ∧ b n = 0 ∧ (∀ i < n, b i ≠ 0) ∧ separates (b 0) ∧ separates (b (n - 1))

/-- The string given to sys_chdir fits `Cwd` with the separator that is appended unless
both are found, and has the separators that are not appended. -/
def ChdirFits (u : UserView) : Prop :=
  ∀ directory len, argstr u 0 = some (directory,len) →
    if HasSeparator u directory len slash ∧ HasSeparator u directory len backslash then
      0 < len ∧ len < MAXCWDSIZE ∧ separates (u.bytes directory) ∧
        separates (u.bytes (directory + (len - 1)))
    else len + 1 < MAXCWDSIZE ∧ (len = 0 ∨ separates (u.bytes directory))

theorem Proper.congr {b b' : Bytes} (h : Proper b) (hb : ∀ i < MAXCWDSIZE, b' i = b i) : Proper b' := by
  obtain ⟨n,h0,hn,hz,hne,hf,hl⟩ := h
  refine ⟨n,h0,hn,?_,?_,?_,?_⟩
  · rw [hb n hn,hz]
  · intro i hi
    rw [hb i (by omega)]
    exact hne i hi
  · rwa [hb 0 (by omega)]
  · rwa [hb (n - 1) (by omega)]

theorem proper_iff {b : Bytes} {n : ℕ} (hz : b n = 0) (hne : ∀ i < n, b i ≠ 0) :
    Proper b ↔ 0 < n ∧ n < MAXCWDSIZE ∧ separates (b 0) ∧ separates (b (n - 1)) := by
  constructor
  · rintro ⟨k,h0,hk,hkz,hkn,hf,hl⟩
    have he : k = n := by
      rcases Nat.lt_trichotomy k n with h | h | h
      · exact absurd hkz (hne k h)
      · exact h
      · exact absurd hz (hkn n h)
    rw [he] at h0 hk hl
    exact ⟨h0,hk,hf,hl⟩
  · rintro ⟨h0,hn,hf,hl⟩
    exact ⟨n,h0,hn,hz,hne,hf,hl⟩

theorem cwd_apart {p q : Fin NPROC} (h : q ≠ p) {i j : ℕ} (hi : i < MAXCWDSIZE) (hj : j < 216) :
    cwdAddress q + i ≠ cwdAddress p + j := by
  have hv : q.val ≠ p.val := fun hv => h (Fin.ext hv)
  simp only [cwdAddress,MAXCWDSIZE] at *
  omega

theorem safestrcpy_proper_iff {b t : Bytes} {n : ℕ} (hz : t n = 0) (hne : ∀ i < n, t i ≠ 0) {k : ℤ}
    (hk : n < k) : Proper (safestrcpy b t k) ↔
      0 < n ∧ n < MAXCWDSIZE ∧ separates (t 0) ∧ separates (t (n - 1)) := by
  have hc : ∀ i < n, safestrcpy b t k i = t i := fun i hi => safestrcpy_text hne hk hi
  rw [proper_iff (safestrcpy_end hne hk (.inl hz)) (fun i hi => by rw [hc i hi]; exact hne i hi)]
  constructor
  · rintro ⟨h0,hn,hf,hl⟩
    rw [hc 0 h0] at hf
    rw [hc (n - 1) (by omega)] at hl
    exact ⟨h0,hn,hf,hl⟩
  · rintro ⟨h0,hn,hf,hl⟩
    rw [hc 0 h0,hc (n - 1) (by omega)]
    exact ⟨h0,hn,hf,hl⟩

variable {t t' : DirectoryTable} {p q : Fin NPROC} {u : UserView}

/-- The bytes of the structures that are not the array `Cwd` of `p`. -/
def KeepsOthers (p : Fin NPROC) (b b' : Bytes) : Prop :=
  ∀ x, x < cwdAddress p ∨ cwdAddress p + MAXCWDSIZE ≤ x → b' x = b x

theorem chdir_proper_iff (h : Proper (t.cwd p)) :
    (Proper (fun i => (sys_chdir u t.bytes p).2.2 (cwdAddress p + i)) ∧
      KeepsOthers p t.bytes (sys_chdir u t.bytes p).2.2) ↔ ChdirFits u := by
  cases ha : argstr u 0 with
  | none =>
    have hs : sys_chdir u t.bytes p = (-1,u.bytes,t.bytes) := by
      simp [sys_chdir,ha]
    rw [hs]
    exact ⟨fun _ d n hd => by simp [ha] at hd,fun _ => ⟨h,fun x _ => rfl⟩⟩
  | some r =>
    obtain ⟨directory,len⟩ := r
    obtain ⟨-,hs⟩ := argstr_eq_some.mp ha
    obtain ⟨-,hz,hne⟩ := fetchstr_eq_some.mp hs
    have hl := lacksSeparator_iff hz
    have hfits : ChdirFits u ↔ if HasSeparator u directory len slash ∧
        HasSeparator u directory len backslash then
          0 < len ∧ len < MAXCWDSIZE ∧ separates (u.bytes directory) ∧
            separates (u.bytes (directory + (len - 1)))
        else len + 1 < MAXCWDSIZE ∧ (len = 0 ∨ separates (u.bytes directory)) := by
      constructor
      · intro hf
        exact hf directory len ha
      · intro hf d n hd
        rw [ha] at hd
        cases hd
        exact hf
    rw [hfits]
    by_cases hb : HasSeparator u directory len slash ∧ HasSeparator u directory len backslash
    · rw [if_pos hb,chdir_copies t.bytes p ha (fun h => hl.mp h hb)]
      simp only [copyString_at]
      rw [safestrcpy_proper_iff (t := fun i => u.bytes (directory + i)) hz hne (by omega)]
      constructor
      · intro hf
        exact hf.1
      · intro hf
        refine ⟨hf,fun x hx => copyString_outside ?_⟩
        have := hf.2.1
        omega
    · rw [if_neg hb,chdir_appends t.bytes p ha (hl.mpr hb)]
      simp only [copyString_at]
      rw [safestrcpy_proper_iff (t := fun i => appendSlash u.bytes directory len (directory + i))
        (n := len + 1) (appendSlash_end _) (appendSlash_nonzero hs) (by push_cast; omega)]
      simp only [Nat.add_sub_cancel,appendSlash_slash]
      have hfirst : separates (appendSlash u.bytes directory len (directory + 0)) ↔
          len = 0 ∨ separates (u.bytes directory) := by
        rcases Nat.eq_zero_or_pos len with rfl | h0
        · rw [appendSlash_slash]
          simp [separates,slash]
        · rw [appendSlash_text _ h0]
          simp [Nat.ne_of_gt h0]
      rw [hfirst]
      constructor
      · intro hf
        exact ⟨hf.1.2.1,hf.1.2.2.1⟩
      · intro hf
        refine ⟨⟨by omega,hf.1,hf.2,by decide⟩,fun x hx => copyString_outside ?_⟩
        have := hf.1
        omega

theorem copyString_other_cwd {b x : Bytes} {n : ℤ} {s : ℕ} {i : ℕ}
    (h : ∀ j : ℕ, j < n → cwdAddress q + i ≠ s + j) : copyString b s x n (cwdAddress q + i) =
      b (cwdAddress q + i) := by
  apply copyString_outside
  by_contra hc
  refine h (cwdAddress q + i - s) ?_ ?_
  · omega
  · omega

def DirectoriesProper (t : DirectoryTable) : Prop := ∀ p, t.Live p → Proper (t.cwd p)

theorem first_live (b : Bytes) : (firstDirectories b).Live initproc := .inr (.inl rfl)

theorem first_proper (b : Bytes) : DirectoriesProper (firstDirectories b) := by
  intro p hp
  have he : p = initproc := by
    by_contra hn
    simp [DirectoryTable.Live,firstDirectories,firstTable,hn] at hp
  subst he
  have hc : (firstDirectories b).cwd initproc = safestrcpy _ (fun i => [slash].getD i 0) MAXCWDSIZE :=
    funext (fun _ => copyString_at)
  rw [hc,safestrcpy_proper_iff (n := 1) (by decide) (by decide) (by decide)]
  decide

theorem fork_proper (h : DirectoriesProper t) (hp : t.Live p) (nextpid : UInt32) (made : Bool) :
    DirectoriesProper (forkDirectory t p nextpid made) := by
  unfold forkDirectory
  split
  · exact h
  · rename_i np slots ha
    obtain ⟨hu,rfl⟩ := allocateSlot_eq ha
    split_ifs with hm
    · intro q hq
      rcases eq_or_ne q np with rfl | hqn
      · obtain ⟨n,h0,hn,hz,hne,hf,hl⟩ := h p hp
        have hc : Proper (safestrcpy (fun j => t.bytes (cwdAddress q + j)) (t.cwd p) MAXCWDSIZE) := by
          rw [safestrcpy_proper_iff hz hne (by exact_mod_cast hn)]
          exact ⟨h0,hn,hf,hl⟩
        refine hc.congr (fun i hi => ?_)
        simp only [DirectoryTable.cwd]
        rw [copyString_other_cwd (fun j _ => ?_),copyString_at]
        simp only [nameAddress]
        omega
      · have hlive : t.Live q := by
          simpa [DirectoryTable.Live,setParent,hqn] using hq
        refine (h q hlive).congr (fun i hi => ?_)
        simp only [DirectoryTable.cwd]
        rw [copyString_other_cwd (fun j hj => ?_),copyString_other_cwd (fun j hj => ?_)]
        · exact cwd_apart hqn hi (by simp only [MAXCWDSIZE] at hj; omega)
        · rw [nameAddress,Nat.add_assoc]
          exact cwd_apart hqn hi (by simp only [MAXCWDSIZE] at hj ⊢; omega)
    · intro q hq
      have hqn : q ≠ np := by
        rintro rfl
        simp [DirectoryTable.Live] at hq
      exact h q (by simpa [DirectoryTable.Live,hqn] using hq)

theorem wait_proper (h : DirectoriesProper t) (hp : t.Live p) : DirectoriesProper (waitDirectory t p) := by
  unfold waitDirectory
  rcases waitSlot_cases p t.slots with ⟨i,-,hz,hw⟩ | hw | ⟨-,hw⟩
  · rw [hw]
    intro q hq
    have hqi : q ≠ i := by
      rintro rfl
      simp [DirectoryTable.Live] at hq
    refine (h q (by simpa [DirectoryTable.Live,hqi] using hq)).congr (fun j hj => ?_)
    simp only [DirectoryTable.cwd,nameAddress]
    rw [update_of_ne (cwd_apart hqi hj (by decide))]
  · rw [hw]
    exact h
  · rw [hw]
    intro q hq
    have hlive : t.Live q := by
      rcases eq_or_ne q p with rfl | hqp
      · exact hp
      · simpa [DirectoryTable.Live,hqp] using hq
    exact h q hlive

theorem exit_proper (h : DirectoriesProper t) :
    DirectoriesProper ⟨exitSlot p t.slots,update t.bytes (cwdAddress p) 0⟩ := by
  have he := exited_exitSlot t.slots p
  intro q hq
  have hqp : q ≠ p := by
    rintro rfl
    simp [DirectoryTable.Live,he.zombie] at hq
  have hlive : t.Live q := by
    rcases he.state q hqp with hs | ⟨hs,-⟩
    · simpa [DirectoryTable.Live,hs] using hq
    · exact .inl hs
  refine (h q hlive).congr (fun i hi => ?_)
  simp only [DirectoryTable.cwd]
  rw [update_of_ne]
  simpa using cwd_apart hqp hi (j := 0) (by decide)

theorem exec_proper (h : DirectoriesProper t) (last : Bytes) :
    DirectoriesProper { t with bytes := copyString t.bytes (nameAddress p) last 16 } := by
  intro q hq
  refine (h q hq).congr (fun i hi => ?_)
  simp only [DirectoryTable.cwd]
  apply copyString_other_cwd
  intro j hj
  rw [nameAddress,Nat.add_assoc]
  rcases eq_or_ne q p with rfl | hqp
  · omega
  · exact cwd_apart hqp hi (by simp only [MAXCWDSIZE]; omega)

theorem chdir_proper (h : DirectoriesProper t) (hp : t.Live p) (hu : ChdirFits u) :
    DirectoriesProper { t with bytes := (sys_chdir u t.bytes p).2.2 } := by
  obtain ⟨hc,ho⟩ := (chdir_proper_iff (h p hp)).mpr hu
  intro q hq
  rcases eq_or_ne q p with rfl | hqp
  · exact hc
  · refine (h q hq).congr (fun i hi => ho _ ?_)
    have hv : q.val ≠ p.val := fun hv => hqp (Fin.ext hv)
    simp only [cwdAddress,MAXCWDSIZE] at *
    omega

theorem step_proper {l : Fin NPROC × DirectoryCall} (h : DirectoriesProper t)
    (hg : ∀ u, l.2 = .sys_chdir u → ChdirFits u) (hs : directoryStep t l t') : DirectoriesProper t' := by
  obtain ⟨p,c⟩ := l
  obtain ⟨hp,hs⟩ := hs
  cases c with
  | fork nextpid made =>
    subst hs
    exact fork_proper h hp nextpid made
  | exit =>
    obtain ⟨-,rfl⟩ := hs
    exact exit_proper h
  | wait =>
    subst hs
    exact wait_proper h hp
  | exec last =>
    subst hs
    exact exec_proper h last
  | sys_chdir u =>
    subst hs
    exact chdir_proper h hp (hg u rfl)
  | other u =>
    obtain ⟨rfl,he⟩ := hs
    intro q hq
    exact (h q (he.live q hq)).congr (he.cwd q)

theorem chdir_step (hp : t.Live p) (u : UserView) :
    directoryStep t (p,.sys_chdir u) { t with bytes := (sys_chdir u t.bytes p).2.2 } := ⟨hp,rfl⟩

/-- The steps that set no working directory which does not fit. -/
def fittingStep : DirectoryTable → Fin NPROC × DirectoryCall → DirectoryTable → Prop :=
  guarded directoryStep (fun _ l => ∀ u, l.2 = .sys_chdir u → ChdirFits u)

/-- In every run whose sys_chdir calls get strings that fit, the working directory of
every live process is proper, and such a call changes nothing but `Cwd`. -/
theorem working_directories_proper {b : Bytes} {ls : List (Fin NPROC × DirectoryCall)}
    (hr : Runs fittingStep (firstDirectories b) ls t) : DirectoriesProper t ∧
      ∀ p u t', fittingStep t (p,.sys_chdir u) t' → KeepsOthers p t.bytes t'.bytes := by
  have hi : DirectoriesProper t :=
    hr.invariant (I := DirectoriesProper) (first_proper b) (fun a l c ha hs => step_proper ha hs.1 hs.2)
  constructor
  · exact hi
  · rintro p u t' ⟨hg,hp,hs⟩
    subst hs
    exact ((chdir_proper_iff (h := hi p hp)).mpr (hg u rfl)).2

def directoryView (c : UInt8) (length : ℕ) : UserView where
  MemorySize := 4096
  esp := 0
  bytes x := if x = 4 then 100 else if x = 100 then c else if 100 < x ∧ x ≤ 100 + length then 65 else 0

theorem directoryView_argstr (c : UInt8) (hc : c ≠ 0) {length : ℕ} (hl : length < 3000) :
    argstr (directoryView c length) 0 = some (100,length + 1) := by
  rw [argstr_eq_some,fetchstr_eq_some]
  refine ⟨?_,?_,?_,?_⟩
  · simp [argint,fetchint,directoryView,readWord]
  · simp only [directoryView]
    omega
  · simp only [directoryView]
    rw [if_neg (by omega),if_neg (by omega),if_neg (by omega)]
  · intro i hi
    simp only [directoryView]
    rw [if_neg (by omega)]
    split_ifs
    · exact hc
    · decide
    · omega

theorem directoryView_fits : ChdirFits (directoryView slash 1) := by
  intro directory len ha
  rw [directoryView_argstr slash (by decide) (by omega)] at ha
  cases ha
  decide

theorem working_directories_proper_chdir : ∃ t,
    Runs fittingStep (firstDirectories (fun _ => 0)) [(initproc,.sys_chdir (directoryView slash 1))] t ∧
      DirectoriesProper t := by
  have hstep : fittingStep (firstDirectories (fun _ => 0)) (initproc,.sys_chdir (directoryView slash 1))
      { firstDirectories (fun _ => 0) with
        bytes := (sys_chdir (directoryView slash 1) (firstDirectories (fun _ => 0)).bytes initproc).2.2 } := by
    constructor
    · intro u hu
      cases hu
      exact directoryView_fits
    · exact chdir_step (first_live _) _
  exact ⟨_,Runs.one hstep,(working_directories_proper (Runs.one hstep)).1⟩

/-- A string of 201 bytes fills `Cwd` without an end and runs into `Name`. -/
theorem long_directory_overruns : ∃ t,
    Runs directoryStep (firstDirectories (fun _ => 0)) [(initproc,.sys_chdir (directoryView 65 200))] t ∧
      t.Live initproc ∧ ¬ Proper (t.cwd initproc) ∧
      ¬ KeepsOthers initproc (firstDirectories (fun _ => 0)).bytes t.bytes := by
  have ha := directoryView_argstr 65 (by decide) (show 200 < 3000 by decide)
  have ht : ∀ i < 201, (sys_chdir (directoryView 65 200) (firstDirectories (fun _ => 0)).bytes
      initproc).2.2 (cwdAddress initproc + i) = 65 := by
    intro i hi
    rw [chdir_text ha hi]
    simp only [directoryView]
    rw [if_neg (by omega)]
    split_ifs
    · rfl
    · rfl
    · omega
  have hstep := chdir_step (first_live (fun _ => 0)) (directoryView 65 200)
  generalize (sys_chdir (directoryView 65 200) (firstDirectories (fun _ => 0)).bytes initproc).2.2 = b
    at ht hstep
  refine ⟨_,Runs.one hstep,.inr (.inl rfl),?_,?_⟩
  · rintro ⟨n,-,hn,hz,-⟩
    change b (cwdAddress initproc + n) = 0 at hz
    rw [ht n (Nat.lt_succ_of_lt hn)] at hz
    exact absurd hz (by decide)
  · intro hk
    have hn : b (cwdAddress initproc + 200) = (firstDirectories (fun _ => 0)).bytes _ :=
      hk (cwdAddress initproc + 200) (.inr le_rfl)
    rw [ht 200 (by decide)] at hn
    exact absurd hn (by decide)

end UoDOS.Kernel
