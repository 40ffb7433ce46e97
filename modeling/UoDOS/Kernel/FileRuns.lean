import UoDOS.FileSystem.SubDirectory
import UoDOS.Kernel.FirstProcess

/-! # Reference counts in every run

Each call of a process is one step. A run whose forks all keep the counts right keeps
them right throughout; the first fork of the first process does not.
-/
namespace UoDOS.Kernel
open ByteMemory Paging Processes FileSystem Strings ProcState References Results Transition

inductive Call
  | fork
  | exit
  | wait
  | sys_open (path : Option CString) (omode : ℕ) (junk : Bytes)
  | sys_dup (fd : ℤ)
  | sys_close (fd : ℤ)
  | sys_pipe (fetched : Bool)

def call (M : Mounted) (s : System) (p : Fin NPROC) : Call → Option System
  | .fork => (fork M s p).toOption.map Prod.snd
  | .exit => (exit M s p).toOption
  | .wait => (wait M s p).toOption.join.map Prod.snd
  | .sys_open path omode junk => (sys_open M s p path omode junk).toOption
  | .sys_dup fd => (sys_dup s p fd).toOption
  | .sys_close fd => (sys_close M s p fd).toOption
  | .sys_pipe fetched => (sys_pipe M s p fetched).toOption

def step (M : Mounted) (s : System) (l : Fin NPROC × Call) : Option System :=
  if s.Ready l.1 then call M s l.1 l.2 else none

variable {M : Mounted} {s t : System} {ls : List (Fin NPROC × Call)}

theorem toOption_eq_some {α : Type} {x : Except Stop α} {a : α} (h : x.toOption = some a) : x = .ok a := by
  cases x with
  | error e => cases h
  | ok b => cases h; rfl

theorem Accounts.step {l : Fin NPROC × Call} (h : Accounts s 0) (hclean : Clean 0 s)
    (hg : l.2 = .fork → ForkKeepsCounts M s l.1) (hs : step M s l = some t) : Accounts t 0 ∧ Clean 0 t := by
  obtain ⟨p,c⟩ := l
  unfold Kernel.step at hs
  split_ifs at hs with hr
  cases c with
  | fork =>
    obtain ⟨⟨r,u⟩,hu,rfl⟩ := Option.map_eq_some_iff.mp hs
    exact h.fork hclean hr (hg rfl) (toOption_eq_some hu)
  | exit => exact h.exit hclean hr (toOption_eq_some hs)
  | wait =>
    obtain ⟨⟨r,u⟩,hu,rfl⟩ := Option.map_eq_some_iff.mp hs
    exact h.wait hclean (toOption_eq_some (Option.join_eq_some_iff.mp hu))
  | sys_open path omode junk =>
    obtain ⟨ha,hf⟩ := h.sys_open hr (toOption_eq_some hs)
    exact ⟨ha,hf.clean hr hclean⟩
  | sys_dup fd =>
    obtain ⟨ha,hf⟩ := h.sys_dup hr (toOption_eq_some hs)
    exact ⟨ha,hf.clean hr hclean⟩
  | sys_close fd =>
    obtain ⟨ha,hf⟩ := h.sys_close hr (toOption_eq_some hs)
    exact ⟨ha,hf.clean hr hclean⟩
  | sys_pipe fetched =>
    obtain ⟨ha,hf⟩ := h.sys_pipe hr (toOption_eq_some hs)
    exact ⟨ha,hf.clean hr hclean⟩

def namedBy (s : System) (f : Fin NFILE) : ℕ :=
  (Finset.univ.filter (fun h : Fin NPROC × Fin NOFILE =>
    (s.table h.1).State ≠ UNUSED ∧ (s.image h.1).OpenFile h.2 = some f)).card

theorem holders_descriptors (s : System) (f : Fin NFILE) : holders s.descriptors f = namedBy s f := by
  rw [holders,namedBy,Finset.card_filter]
  apply Finset.sum_congr rfl
  intro h _
  simp only [System.descriptors]
  split_ifs <;> simp_all

/-- If every fork of a run keeps the counts, each File has as many references as
descriptors, and one that no descriptor names is free. -/
theorem reference_counts_are_descriptors (hb : Booted M s)
    (hr : Runs (guarded (graph (Kernel.step M)) (fun s l => l.2 = .fork → ForkKeepsCounts M s l.1)) s ls t)
    (f : Fin NFILE) : (t.files f).ReferenceCount = namedBy t f ∧
      ((∀ p fd, (t.table p).State ≠ UNUSED → (t.image p).OpenFile fd ≠ some f) →
        (t.files f).ReferenceCount = 0) := by
  obtain ⟨h,-⟩ : Accounts t 0 ∧ Clean 0 t :=
    hr.invariant (I := fun u => Accounts u 0 ∧ Clean 0 u) hb.accounts
      (fun a l b ha hs => ha.1.step ha.2 hs.1 hs.2)
  constructor
  · have hf := h f
    rw [holders_descriptors,Multiset.count_zero,Nat.add_zero] at hf
    exact hf
  · intro hn
    change counts t.files f = 0
    refine Balanced.unreferenced h ?_
    rintro ⟨p,fd⟩
    simp only [System.descriptors]
    split_ifs with hu
    · simp
    · exact hn p fd hu

def coldSystem (m : Memory) : System where
  memory := m
  table _ := ⟨UNUSED,0,none,none,false⟩
  nextpid := 1
  image _ := ⟨0,0,0,firstTrapframe,fun _ => none,emptyString,fun _ => 0⟩
  files _ := ⟨.FD_NONE,0,false,false,0,⟨fun _ => 0⟩,false,0,0,0⟩
  pipes _ := ⟨false,false⟩

def smallMounted : Mounted where
  image := smallKernel
  memory _ := 0
  volume := smallVolume
  disk _ _ := 0

theorem plenty_of_memory : ∃ m o, Owns (InRange 0x80105000 (P2V PHYSTOP)) m o ∧
    Manageable smallMounted.image.toLayout (InRange 0x80105000 (P2V PHYSTOP)) ∧ ¬ Scarce 4096 o := by
  obtain ⟨m,o,-,ho,hR,hplenty⟩ := free_memory (L := smallMounted.image.toLayout) (fun _ => 0)
    (v := 0x80105000) (by decide) (by decide)
  exact ⟨m,o,ho,hR,hplenty⟩

theorem booted_system (D : Disk) : ∃ s p R o d, Booted { smallMounted with disk := D } s ∧ s.Ready p ∧
    Manageable smallMounted.image.toLayout R ∧ Owns R s.memory o ∧ HasPages s o p d ∧
    (s.image p).MemorySize = PGSIZE ∧ (∃ q, (s.table q).State = UNUSED) ∧ (∃ f, counts s.files f = 0) ∧
    (∀ fd : Fin NOFILE, (s.image p).OpenFile fd ≠ none ↔ fd.val < 3) ∧ ¬ Scarce 3000 o := by
  obtain ⟨m,o,ho,hR,hplenty⟩ := plenty_of_memory
  have hcold : Cold (coldSystem m) := ⟨fun _ => rfl,fun _ _ => rfl,fun _ => rfl⟩
  obtain ⟨s,p,o',d,hs,hr,ho',hp,hsize,hslot,hfile,hopen,hsc⟩ := boot_returns
    (M := { smallMounted with disk := D }) (a := 0) (b := 0) hcold ho hR (fun h => hplenty (h.mono (by norm_num))) (by decide)
  exact ⟨s,p,_,o',d,⟨_,0,0,hcold,hs⟩,hr,hR,ho',hp,hsize,hslot,hfile,hopen,
    fun h => hplenty ((hsc 3000 h).mono (by norm_num))⟩

theorem sys_dup_returns {p : Fin NPROC} (fd : ℤ) (h : Accounts s 0) (hr : s.Ready p) :
    ∃ t, sys_dup s p fd = .ok t := by
  unfold sys_dup
  split
  · exact ⟨s,rfl⟩
  · rename_i i f ha
    split
    · exact ⟨_,rfl⟩
    · rename_i k s1 hf
      obtain ⟨-,rfl⟩ := fdalloc_some hf
      apply dupFile_returns
      refine Balanced.named h (h := (p,i)) ?_
      simp [System.descriptors,hr.used,argfd_some ha]

theorem reference_counts_are_descriptors_dup : ∃ s t p,
    Booted smallMounted s ∧
    Runs (guarded (graph (Kernel.step smallMounted))
      (fun s l => l.2 = .fork → ForkKeepsCounts smallMounted s l.1)) s [(p,.sys_dup 0)] t ∧
    ∀ f, (t.files f).ReferenceCount = namedBy t f := by
  obtain ⟨s,p,R,o,d,hb,hr,-⟩ := booted_system smallMounted.disk
  obtain ⟨t,ht⟩ := sys_dup_returns 0 hb.accounts.1 hr
  have hstep : Kernel.step smallMounted s (p,.sys_dup 0) = some t := by
    simp [Kernel.step,hr,call,ht,Except.toOption]
  have hrun : Runs (guarded (graph (Kernel.step smallMounted))
      (fun s l => l.2 = .fork → ForkKeepsCounts smallMounted s l.1)) s [(p,.sys_dup 0)] t :=
    Runs.one ⟨by simp,hstep⟩
  exact ⟨s,t,p,hb,hrun,fun f => (reference_counts_are_descriptors hb hrun f).1⟩

/-- The first fork leaves a File with three references that no descriptor names. -/
theorem first_fork_loses_console : ∃ s t p f, Booted smallMounted s ∧
    Runs (graph (Kernel.step smallMounted)) s [(p,.fork)] t ∧
    (t.files f).ReferenceCount = 3 ∧ namedBy t f = 0 := by
  obtain ⟨s,p,R,o,d,hb,hr,hR,ho,hp,hsize,hslot,hfile,hopen,hplenty⟩ := booted_system smallMounted.disk
  obtain ⟨h,hclean⟩ := hb.accounts
  obtain ⟨pid,t,ht⟩ := fork_returns h hclean hr ho hR hp hslot hfile
    (fun hsc => hplenty (hsc.mono (by rw [hsize]; norm_num [PGSIZE])))
  obtain ⟨f,hf,hn⟩ := fork_orphans_console h hclean hr (fun fd => (hopen fd).mpr) ht
  refine ⟨s,t,p,f,hb,Runs.one ?_,hf,?_⟩
  · simp [graph,Kernel.step,hr,call,ht,Except.toOption]
  · rw [← holders_descriptors]
    exact holders_eq_zero hn

end UoDOS.Kernel
