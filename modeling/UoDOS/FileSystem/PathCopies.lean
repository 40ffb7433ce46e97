import UoDOS.FileSystem.ObservedResults
import UoDOS.FileSystem.Paths
import UoDOS.FileSystem.SubDirectory

/-! # The copies of a path

fsFat12Open copies a path three times: into `path`, what is left of it into `pathPart` for
each component, and the name as it was given into the File. Only the first of these copies
is bounded.
-/
namespace UoDOS.FileSystem
open ByteMemory Strings Traces

variable {M : Mounted} {t : FileTable} {cwd filename : CString} {directory : Bool} {junk : Bytes}

def Event.Fits : Event → Prop
  | .safestrcpy start n capacity => n ≤ 0 ∨ start + n ≤ capacity
  | .strcpy source capacity => ∃ k < capacity, source k = 0
  | .store index capacity => index < capacity
  | _ => True

def CopiesFit (M : Mounted) (t : FileTable) (cwd filename : CString) (directory : Bool) (junk : Bytes) : Prop :=
  ∀ e ∈ (Observed.fsFat12Open M t cwd filename directory junk).events, e.Fits

theorem permits_fits (M : Mounted) : Permits M (fun es => ∀ e ∈ es, e.Fits) (fun _ => True) where
  law := law_forall _
  buffer _ := List.forall_mem_cons.mpr ⟨trivial,List.forall_mem_singleton.mpr trivial⟩
  divide _ _ := List.forall_mem_singleton.mpr trivial
  fat _ _ := List.forall_mem_singleton.mpr trivial
  next _ _ := trivial
  nameless := List.forall_mem_singleton.mpr ⟨0,by decide,rfl⟩

theorem permitsPath_fits (h : filename.length < NAMESIZE) (junk : Bytes) :
    PermitsPath (fun es => ∀ e ∈ es, e.Fits) (fun p => ∃ k < PARTSIZE, p k = 0) filename.bytes junk where
  part _ hp := List.forall_mem_singleton.mpr hp
  store _ hk := List.forall_mem_singleton.mpr hk
  rest p name len _ hpart hlen := by
    obtain ⟨n,hn,hz,-,-,hl⟩ := getPathPart_ok hpart
    have hlt := hl.resolve_left hlen
    refine ⟨n - (len + 1),by simp only [PARTSIZE]; omega,?_⟩
    change p (len + 1 + (n - (len + 1))) = 0
    rwa [Nat.add_sub_cancel' hlt]
  name := List.forall_mem_singleton.mpr ⟨filename.length,h,filename.terminated⟩

theorem copyPath_fits (cwd filename : CString) : ∀ e ∈ (Observed.copyPath cwd filename).events, e.Fits := by
  unfold Observed.copyPath
  split
  · exact List.forall_mem_singleton.mpr (.inr (by decide))
  · refine List.forall_mem_cons.mpr ⟨.inr (by decide),List.forall_mem_singleton.mpr (.inr ?_)⟩
    simp only [MAXCWDSIZE,PATHSIZE]
    omega

theorem filename_le (cwd filename : CString) : filename.length ≤ (fullPath cwd filename).length := by
  unfold fullPath
  split
  · exact le_rfl
  · rw [append_length]
    omega

theorem openPath_empty (h : (fullPath cwd filename).length = 0) : openPath cwd filename junk 1 = 0 := by
  have hname : filename.length = 0 := by
    have := filename_le cwd filename
    omega
  have hz : filename.bytes 0 = 0 := hname ▸ filename.terminated
  have hs : ¬ separates (filename.bytes 0) = true := by
    rw [hz]
    decide
  unfold fullPath at h
  rw [if_neg hs,append_length] at h
  have hc : cwd.length = 0 := by omega
  unfold openPath
  rw [if_neg hs,hc,if_neg (by decide),safestrcpy,if_neg (by decide)]
  change safestrcpyFrom _ _ (198 + 1) 0 1 = 0
  rw [safestrcpyFrom,if_neg (not_not_intro hz)]
  exact Function.update_self ..

theorem openPath_short (h : (fullPath cwd filename).length ≤ 20) :
    ∃ k < PARTSIZE, openPath cwd filename junk (1 + k) = 0 := by
  rcases Nat.eq_zero_or_pos (fullPath cwd filename).length with h0 | h0
  · exact ⟨0,by decide,openPath_empty h0⟩
  · refine ⟨(fullPath cwd filename).length - 1,by simp only [PARTSIZE]; omega,?_⟩
    rw [Nat.add_sub_cancel' h0]
    exact openPath_end (by simp only [MAXCWDSIZE]; omega)

theorem first_copy_mem : .strcpy (fun i => openPath cwd filename junk (1 + i)) PARTSIZE ∈
    (Observed.fsFat12Open M t cwd filename directory junk).events := by
  have hc : (Observed.copyPath cwd filename).result = .ok () := by
    unfold Observed.copyPath
    split <;> rfl
  rw [Observed.fsFat12Open,bind_of_ok hc,Observed.openFrom]
  refine List.mem_append_right _ (events_bind_subset _ _ ?_)
  exact List.mem_cons_self

theorem long_path_overruns (hlong : 20 < (fullPath cwd filename).length) :
    ¬ CopiesFit M t cwd filename directory junk := by
  intro h
  obtain ⟨k,hk,hz⟩ := h _ first_copy_mem
  change k < 20 at hk
  change openPath cwd filename junk (1 + k) = 0 at hz
  rw [openPath_text (by omega) (by simp only [MAXCWDSIZE]; omega)] at hz
  exact (fullPath cwd filename).nonzero _ (by omega) hz

/-- All copies fit just for paths of at most twenty characters, the current directory and the
first separator included. -/
theorem copies_fit_iff : CopiesFit M t cwd filename directory junk ↔ (fullPath cwd filename).length ≤ 20 := by
  constructor
  · intro h
    by_contra hlong
    exact long_path_overruns (by omega) h
  · intro h
    have hname : filename.length < NAMESIZE := by
      have := filename_le cwd filename
      simp only [NAMESIZE]
      omega
    exact ((permits_fits M).open_performs (permitsPath_fits hname junk) (fun _ _ _ => trivial) t directory
      (copyPath_fits cwd filename) (openPath_short h)).events

def longName : CString := .ofText (List.replicate 20 65) (fun _ => 0) (by simp)

theorem rootCwd_ne : ∀ c ∈ [(0x2F : UInt8)], c ≠ 0 := by simp

def rootCwd : CString := .ofText [0x2F] (fun _ => 0) rootCwd_ne

theorem long_name_overruns : rootCwd.length ≤ MAXCWDSIZE - 1 ∧
    ¬ CopiesFit (twoClusters true) (fun _ => ⟨.FD_NONE,0,false,false,0,⟨fun _ => 0⟩,false,0,0,0⟩) rootCwd longName
      false (fun _ => 0) := by
  refine ⟨by decide,long_path_overruns ?_⟩
  decide

end UoDOS.FileSystem
