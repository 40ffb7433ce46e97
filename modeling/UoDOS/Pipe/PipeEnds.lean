import UoDOS.Pipe.PipeReferences

/-! # Ends of pipes

The open flags of a pipe are those of its Files, up to the pipeclose calls that are on
their way, and a pipe with both flags down has been freed or is going to be freed, once.
-/
namespace UoDOS.PipeLifetime
open FileSystem References Function
open Kernel (PipeEnds)

variable {t t' : FileTable} {f g : Fin NFILE} {T : Multiset Cleanup} {ff : Option File} {x : File}

def isEnd (x : File) (n : ℕ) (w : Bool) : ℕ :=
  if x.type = .FD_PIPE ∧ x.Pipe = n ∧ x.Writable = w then 1 else 0

def openEnds (t : FileTable) (n : ℕ) (w : Bool) : ℕ := ∑ f, isEnd (t f) n w

def isOpen (e : PipeEnds) (w : Bool) : Bool := if w then e.WriteOpen else e.ReadOpen

/-- An end is open as long as there is a File for it or a call that is going to
close it, and the page is freed by the call that has closed the other end as well. -/
structure Ended (t : FileTable) (pipes : ℕ → PipeEnds) (made : ℕ) (freed : ℕ → ℕ) (T : Multiset Cleanup) :
    Prop where
  ends : ∀ n w, openEnds t n w + T.count (.pipeclose n w) = if n < made ∧ isOpen (pipes n) w then 1 else 0
  frees : ∀ n, freed n + T.count (.free n) =
    if n < made ∧ isOpen (pipes n) false = false ∧ isOpen (pipes n) true = false then 1 else 0

theorem openEnds_update (t : FileTable) (f : Fin NFILE) (x : File) (n : ℕ) (w : Bool) :
    openEnds (update t f x) n w + isEnd (t f) n w = openEnds t n w + isEnd x n w :=
  sum_update_add (fun y => isEnd y n w) t f x

theorem openEnds_same (h : ∀ g, Same (t g) (t' g)) (n : ℕ) (w : Bool) : openEnds t' n w = openEnds t n w := by
  apply Finset.sum_congr rfl
  intro g _
  obtain ⟨ht,hp,hw⟩ := h g
  rw [isEnd,isEnd,ht,hp,hw]

theorem isEnd_of_type (h : x.type ≠ .FD_PIPE) (n : ℕ) (w : Bool) : isEnd x n w = 0 := by
  rw [isEnd,if_neg (fun hx => h hx.1)]

theorem one_le_openEnds (f : Fin NFILE) (n : ℕ) (w : Bool) (h : isEnd (t f) n w = 1) : 1 ≤ openEnds t n w := by
  rw [← h]
  exact Finset.single_le_sum (f := fun g => isEnd (t g) n w) (fun _ _ => Nat.zero_le _) (Finset.mem_univ f)

namespace Ended

variable {pipes : ℕ → PipeEnds} {made : ℕ} {freed : ℕ → ℕ} {n : ℕ} {w : Bool}

theorem congr {T' : Multiset Cleanup} (h : Ended t pipes made freed T)
    (ht : ∀ n w, openEnds t' n w = openEnds t n w)
    (he : ∀ n w, T'.count (.pipeclose n w) = T.count (.pipeclose n w))
    (hf : ∀ n, T'.count (.free n) = T.count (.free n)) : Ended t' pipes made freed T' := by
  constructor
  · intro n w
    rw [ht,he]
    exact h.ends n w
  · intro n
    rw [hf]
    exact h.frees n

theorem cons_close (h : Ended t pipes made freed T) (hs : ∀ g, Same (t g) (t' g)) (f : Fin NFILE) :
    Ended t' pipes made freed (.close f ::ₘ T) :=
  h.congr (openEnds_same hs) (fun _ _ => Multiset.count_cons_of_ne (by simp) _)
    (fun _ => Multiset.count_cons_of_ne (by simp) _)

theorem of_cons_close (h : Ended t pipes made freed (.close f ::ₘ T)) : Ended t pipes made freed T :=
  h.congr (fun _ _ => rfl) (fun _ _ => (Multiset.count_cons_of_ne (by simp) _).symm)
    (fun _ => (Multiset.count_cons_of_ne (by simp) _).symm)

theorem retype (h : Ended t pipes made freed T) (hf : (t f).type ≠ .FD_PIPE) (hx : x.type ≠ .FD_PIPE) :
    Ended (update t f x) pipes made freed T := by
  refine h.congr (fun n w => ?_) (fun _ _ => rfl) (fun _ => rfl)
  have hu := openEnds_update t f x n w
  rw [isEnd_of_type hf,isEnd_of_type hx] at hu
  omega

theorem close (h : Ended t pipes made freed (.close f ::ₘ T)) (hc : fileClose t f = .ok (t',ff)) :
    Ended t' pipes made freed ((afterClose ff : Multiset Cleanup) + T) := by
  have h' := h.of_cons_close
  unfold fileClose at hc
  split_ifs at hc with h1 h2
  · cases hc
    have hs := openEnds_same (same_recount t f ((t f).ReferenceCount - 1))
    simpa [afterClose] using h'.congr hs (fun _ _ => rfl) (fun _ => rfl)
  · cases hc
    by_cases hp : (t f).type = .FD_PIPE
    · have ha : afterClose (some { t f with ReferenceCount := 0 }) =
          [.pipeclose (t f).Pipe (t f).Writable] := if_pos hp
      rw [ha]
      constructor
      · intro n w
        have hu := openEnds_update t f { t f with ReferenceCount := 0, type := .FD_NONE } n w
        rw [isEnd_of_type (x := { t f with ReferenceCount := 0, type := .FD_NONE }) (by simp)] at hu
        rw [← h'.ends n w,Multiset.coe_singleton,Multiset.singleton_add,Multiset.count_cons]
        have he : isEnd (t f) n w = if Cleanup.pipeclose n w = .pipeclose (t f).Pipe (t f).Writable
            then 1 else 0 := by
          simp only [isEnd,hp,true_and,Cleanup.pipeclose.injEq,eq_comm]
        omega
      · intro n
        rw [← h'.frees n,Multiset.coe_singleton,Multiset.singleton_add,
          Multiset.count_cons_of_ne (by simp)]
    · have ha : afterClose (some { t f with ReferenceCount := 0 }) = [] := if_neg hp
      rw [ha]
      simpa using h'.retype hp (by simp)

theorem make {f0 f1 : Fin NFILE} (h : Ended t pipes made freed T) (hne : f0 ≠ f1)
    (h0 : (t f0).type = .FD_NONE) (h1 : (t f1).type = .FD_NONE) :
    Ended (pipeFiles t f0 f1 made) (update pipes made ⟨true,true⟩) (made + 1) freed T := by
  have hends : ∀ n w, openEnds (pipeFiles t f0 f1 made) n w =
      openEnds t n w + if n = made then 1 else 0 := by
    intro n w
    have hu0 := openEnds_update t f0
      { t f0 with type := .FD_PIPE, Readable := true, Writable := false, Pipe := made } n w
    have hu1 := openEnds_update (update t f0
      { t f0 with type := .FD_PIPE, Readable := true, Writable := false, Pipe := made }) f1
      { t f1 with type := .FD_PIPE, Readable := false, Writable := true, Pipe := made } n w
    rw [isEnd_of_type (by simp [h0])] at hu0
    rw [update_of_ne hne.symm,isEnd_of_type (by simp [h1])] at hu1
    rw [pipeFiles,update_of_ne hne.symm]
    simp only [isEnd,true_and,eq_comm (a := made)] at hu0 hu1
    cases w <;> simp_all
  constructor
  · intro n w
    have he := h.ends n w
    rw [hends]
    rcases eq_or_ne n made with rfl | hn
    · rw [if_neg (by omega)] at he
      rw [if_pos rfl,update_self]
      cases w <;> simp [isOpen] <;> omega
    · have hlt : n < made + 1 ↔ n < made := by omega
      rw [update_of_ne hn,if_neg hn,add_zero]
      rw [if_congr (and_congr_left' hlt) rfl rfl]
      exact he
  · intro n
    have hf := h.frees n
    rcases eq_or_ne n made with rfl | hn
    · rw [if_neg (by omega)] at hf
      simpa [isOpen] using hf
    · have hlt : n < made + 1 ↔ n < made := by omega
      rw [update_of_ne hn]
      rw [if_congr (and_congr_left' hlt) rfl rfl]
      exact hf

theorem isOpen_close (e : PipeEnds) (w v : Bool) :
    isOpen (e.close w) v = if v = w then false else isOpen e v := by
  cases w <;> cases v <;> rfl

theorem pipeclose (h : Ended t pipes made freed (.pipeclose n w ::ₘ T)) :
    Ended t (update pipes n ((pipes n).close w)) made freed
      ((if ((pipes n).close w).ReadOpen = false ∧ ((pipes n).close w).WriteOpen = false then {.free n} else 0)
        + T) := by
  have hw := h.ends n w
  have hn := h.frees n
  rw [Multiset.count_cons_self] at hw
  rw [Multiset.count_cons_of_ne (by simp)] at hn
  -- the end is open before, so there is no other close of it and the page is not freed
  have hopen : n < made ∧ isOpen (pipes n) w = true := by
    by_contra hno
    rw [if_neg hno] at hw
    omega
  rw [if_pos hopen] at hw
  rw [if_neg (by cases w <;> simp [hopen.2])] at hn
  constructor
  · intro m v
    have hm := h.ends m v
    have hz : (if ((pipes n).close w).ReadOpen = false ∧ ((pipes n).close w).WriteOpen = false
        then {Cleanup.free n} else 0 : Multiset Cleanup).count (.pipeclose m v) = 0 := by
      split_ifs <;> simp
    rw [Multiset.count_add,hz,zero_add]
    by_cases hmv : m = n ∧ v = w
    · obtain ⟨rfl,rfl⟩ := hmv
      rw [update_self,isOpen_close,if_pos rfl,if_neg (by simp)]
      omega
    · rw [Multiset.count_cons_of_ne (by simpa using hmv)] at hm
      rw [hm]
      rcases eq_or_ne m n with rfl | hmn
      · rw [update_self,isOpen_close,if_neg (fun hv => hmv ⟨rfl,hv⟩)]
      · rw [update_of_ne hmn]
  · intro m
    have hm := h.frees m
    rw [Multiset.count_cons_of_ne (by simp)] at hm
    rw [Multiset.count_add]
    rcases eq_or_ne m n with rfl | hmn
    · rw [update_self]
      have hiff : (m < made ∧ isOpen ((pipes m).close w) false = false ∧
          isOpen ((pipes m).close w) true = false) ↔
          ((pipes m).close w).ReadOpen = false ∧ ((pipes m).close w).WriteOpen = false :=
        ⟨fun hx => hx.2,fun hx => ⟨hopen.1,hx⟩⟩
      simp only [hiff]
      split_ifs
      · rw [Multiset.count_singleton_self]
        omega
      · rw [Multiset.count_zero]
        omega
    · rw [update_of_ne hmn,← hm]
      have hz : (if ((pipes n).close w).ReadOpen = false ∧ ((pipes n).close w).WriteOpen = false
          then {Cleanup.free n} else 0 : Multiset Cleanup).count (.free m) = 0 := by
        split_ifs <;> simp [hmn]
      omega

theorem free (h : Ended t pipes made freed (.free n ::ₘ T)) :
    Ended t pipes made (update freed n (freed n + 1)) T := by
  constructor
  · intro m v
    rw [← h.ends m v,Multiset.count_cons_of_ne (by simp)]
  · intro m
    rw [← h.frees m,Multiset.count_cons]
    rcases eq_or_ne m n with rfl | hm
    · simp
      omega
    · simp [hm]

end Ended

end UoDOS.PipeLifetime
