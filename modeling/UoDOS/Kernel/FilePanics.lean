import UoDOS.FileSystem.Paths
import UoDOS.Kernel.FileTypes

/-! # The panics of file.c

Whatever calls user processes make, a File that a descriptor names has a reference and a type.
-/
namespace UoDOS.Kernel
open ByteMemory Paging Processes FileSystem Strings ProcState References Results Transition

/-- A call on open files, with the arguments that it could fetch and what a device or a
pipe answers. -/
inductive FileCall
  | sys_open (path : Option CString) (omode : ℕ) (junk : Bytes)
  | sys_dup (fd : ℤ)
  | sys_close (fd : ℤ)
  | sys_read (fd : ℤ) (n : Option ℕ) (answer : ℤ × List UInt8)
  | sys_write (fd : ℤ) (n : Option ℕ) (answer : ℤ)
  | sys_fstat (fd : ℤ) (fetched : Bool)
  | sys_pipe (fetched : Bool)

def fileCall (M : Mounted) (s : System) (p : Fin NPROC) : FileCall → Except Stop System
  | .sys_open path omode junk => sys_open M s p path omode junk
  | .sys_dup fd => sys_dup s p fd
  | .sys_close fd => sys_close M s p fd
  | .sys_read fd n answer => (sys_read M s p fd n answer).map Prod.snd
  | .sys_write fd n answer => (sys_write s p fd n answer).map Prod.snd
  | .sys_fstat fd fetched => .ok (sys_fstat s p fd fetched).2
  | .sys_pipe fetched => sys_pipe M s p fetched

/-- The calls on files, beside those that make and end processes. -/
inductive Request
  | fork
  | exit
  | wait
  | file (c : FileCall)

def request (M : Mounted) (s : System) (l : Fin NPROC × Request) : Option System :=
  if s.Ready l.1 then
    match l.2 with
    | .fork => (fork M s l.1).toOption.map Prod.snd
    | .exit => (exit M s l.1).toOption
    | .wait => (wait M s l.1).toOption.join.map Prod.snd
    | .file c => (fileCall M s l.1 c).toOption
  else none

/-- What every call keeps: no File has fewer references than descriptors, and every File
in use has a type. -/
structure Sound (s : System) : Prop where
  accounts : ∃ lost, Accounts s lost
  clean : Clean 3 s
  typed : Typed ∅ s.files

variable {M : Mounted} {s s' : System} {p : Fin NPROC} {f : Fin NFILE} {inHand : Multiset (Fin NFILE)}

theorem Booted.sound (h : Booted M s) : Sound s := by
  obtain ⟨ha,hc⟩ := h.accounts
  constructor
  · exact ⟨0,ha⟩
  · intro q fd hq
    exact hc q fd (hq.imp_right (fun h => ⟨h.1,Nat.zero_le _⟩))
  · exact h.typed

theorem Sound.fileCall {c : FileCall} (h : Sound s) (hr : s.Ready p) (hd : fileCall M s p c = .ok s') :
    Sound s' := by
  obtain ⟨⟨lost,ha⟩,hclean,htyped⟩ := h
  cases c with
  | sys_open path omode junk =>
    obtain ⟨ha',hf⟩ := ha.sys_open hr hd
    exact ⟨⟨lost,ha'⟩,hf.clean hr hclean,htyped.sys_open hd⟩
  | sys_dup fd =>
    obtain ⟨ha',hf⟩ := ha.sys_dup hr hd
    exact ⟨⟨lost,ha'⟩,hf.clean hr hclean,htyped.sys_dup hd⟩
  | sys_close fd =>
    obtain ⟨ha',hf⟩ := ha.sys_close hr hd
    exact ⟨⟨lost,ha'⟩,hf.clean hr hclean,htyped.sys_close hd⟩
  | sys_read fd n answer =>
    obtain ⟨⟨r,u⟩,hu,rfl⟩ := map_eq_ok.mp hd
    obtain ⟨ht,hc,htab,him⟩ := htyped.sys_read hu
    refine ⟨⟨lost,?_⟩,?_,ht⟩
    · exact ha.congr hc (descriptors_congr (fun q => by rw [htab]) (fun q => by rw [him]))
    · intro q fd hq
      rw [htab] at hq
      rw [him]
      exact hclean q fd hq
  | sys_write fd n answer =>
    obtain ⟨⟨r,u⟩,hu,rfl⟩ := map_eq_ok.mp hd
    have hs : u = s := by
      unfold Kernel.sys_write at hu
      split at hu
      · rw [bind_eq_ok] at hu
        obtain ⟨r,-,hu⟩ := hu
        cases hu
        rfl
      · cases hu
        rfl
    rw [hs]
    exact ⟨⟨lost,ha⟩,hclean,htyped⟩
  | sys_fstat fd fetched =>
    have hs : s' = s := by
      cases hd
      unfold Kernel.sys_fstat
      split <;> rfl
    rw [hs]
    exact ⟨⟨lost,ha⟩,hclean,htyped⟩
  | sys_pipe fetched =>
    obtain ⟨ha',hf⟩ := ha.sys_pipe hr hd
    exact ⟨⟨lost,ha'⟩,hf.clean hr hclean,htyped.sys_pipe hd⟩

theorem Sound.request {l : Fin NPROC × Request} (h : Sound s) (hd : request M s l = some s') : Sound s' := by
  obtain ⟨p,c⟩ := l
  unfold Kernel.request at hd
  split_ifs at hd with hr
  obtain ⟨⟨lost,ha⟩,hclean,htyped⟩ := h
  cases c with
  | fork =>
    obtain ⟨⟨r,u⟩,hu,rfl⟩ := Option.map_eq_some_iff.mp hd
    have hf := toOption_eq_some hu
    obtain ⟨ha',hc'⟩ := ha.fork_any hclean hr hf
    exact ⟨ha',hc',htyped.fork hf⟩
  | exit =>
    have hx := toOption_eq_some hd
    obtain ⟨ha',hc'⟩ := ha.exit hclean hr hx
    exact ⟨⟨lost,ha'⟩,hc',htyped.exit hx⟩
  | wait =>
    obtain ⟨⟨r,u⟩,hu,rfl⟩ := Option.map_eq_some_iff.mp hd
    have hw := toOption_eq_some (Option.join_eq_some_iff.mp hu)
    obtain ⟨ha',hc'⟩ := ha.wait hclean hw
    refine ⟨⟨lost,ha'⟩,hc',?_⟩
    rw [wait_files hw]
    exact htyped
  | file c => exact Sound.fileCall ⟨⟨lost,ha⟩,hclean,htyped⟩ hr (toOption_eq_some hd)

end UoDOS.Kernel
