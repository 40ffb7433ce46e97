import UoDOS.FileSystem.OpenCounts
import UoDOS.Pipe.PipeLifetime

/-! # References to pipes

What the calls under way still have to close, to tell a pipe or to free, is one
multiset. With it the reference counts are those of the descriptors.
-/
namespace UoDOS.PipeLifetime
open FileSystem References Function

def Control.due : Control → Multiset Cleanup
  | .pipeSecond f0 => {.close f0}
  | .pipePage f0 f1 => {.close f0,.close f1}
  | .pipeInstall rf wf => {.close rf,.close wf}
  | .closing todo _ => todo
  | _ => 0

def owed (control : Fin NPROC → Control) : Multiset Cleanup := ∑ p, (control p).due

def others (control : Fin NPROC → Control) (p : Fin NPROC) : Multiset Cleanup :=
  ∑ q ∈ Finset.univ.erase p, (control q).due

theorem owed_eq (control : Fin NPROC → Control) (p : Fin NPROC) :
    owed control = (control p).due + others control p :=
  (Finset.add_sum_erase _ _ (Finset.mem_univ p)).symm

theorem owed_update (control : Fin NPROC → Control) (p : Fin NPROC) (x : Control) :
    owed (update control p x) = x.due + others control p := by
  rw [owed_eq _ p,update_self]
  congr 1
  apply Finset.sum_congr rfl
  intro q hq
  rw [update_of_ne (Finset.ne_of_mem_erase hq)]

theorem mem_owed {control : Fin NPROC → Control} {x : Cleanup} :
    x ∈ owed control ↔ ∃ p, x ∈ (control p).due := by
  simp [owed,Multiset.mem_sum]

theorem mem_others {control : Fin NPROC → Control} {p q : Fin NPROC} {x : Cleanup} (hq : q ≠ p)
    (hx : x ∈ (control q).due) : x ∈ others control p :=
  Multiset.mem_sum.mpr ⟨q,by simp [hq],hx⟩

def Cleanup.file? : Cleanup → Option (Fin NFILE)
  | .close f => some f
  | _ => none

def closes (T : Multiset Cleanup) : Multiset (Fin NFILE) := T.filterMap Cleanup.file?

@[simp]
theorem closes_close (f : Fin NFILE) (T : Multiset Cleanup) : closes (.close f ::ₘ T) = f ::ₘ closes T :=
  Multiset.filterMap_cons_some _ _ _ rfl

@[simp]
theorem closes_pipeclose (n : ℕ) (w : Bool) (T : Multiset Cleanup) :
    closes (.pipeclose n w ::ₘ T) = closes T :=
  Multiset.filterMap_cons_none _ _ rfl

@[simp]
theorem closes_free (n : ℕ) (T : Multiset Cleanup) : closes (.free n ::ₘ T) = closes T :=
  Multiset.filterMap_cons_none _ _ rfl

theorem closes_afterClose (ff : Option File) (T : Multiset Cleanup) :
    closes ((afterClose ff : Multiset Cleanup) + T) = closes T := by
  cases ff with
  | none => simp [afterClose]
  | some x =>
    simp only [afterClose]
    split_ifs
    · simp
    · simp

theorem mem_closes {T : Multiset Cleanup} {f : Fin NFILE} : f ∈ closes T ↔ .close f ∈ T := by
  constructor
  · intro h
    obtain ⟨x,hx,hf⟩ := (Multiset.mem_filterMap _ _).mp h
    cases x with
    | close g =>
      cases hf
      exact hx
    | pipeclose n w => cases hf
    | free n => cases hf
  · intro h
    exact (Multiset.mem_filterMap _ _).mpr ⟨_,h,rfl⟩

/-- The descriptors and what is to be closed account for every reference, but for
those to consoles that fork has overwritten. A File that is being made has one. -/
structure Counted (t : FileTable) (slot : Fin NPROC × Fin NOFILE → Option (Fin NFILE))
    (T : Multiset Cleanup) : Prop where
  balanced : ∃ lost, Balanced (counts t) slot (closes T + lost) ∧ ∀ f ∈ lost, (t f).type = .FD_DEVICE
  unused : ∀ f, counts t f = 0 → (t f).type = .FD_NONE
  fresh : ∀ f, (t f).type = .FD_NONE → counts t f ≤ 1
  named : ∀ k f, slot k = some f → (t f).type ≠ .FD_NONE

def Same (x y : File) : Prop := y.type = x.type ∧ y.Pipe = x.Pipe ∧ y.Writable = x.Writable

variable {t t' : FileTable} {f g : Fin NFILE} {slot : Fin NPROC × Fin NOFILE → Option (Fin NFILE)}
  {k : Fin NPROC × Fin NOFILE} {T : Multiset Cleanup} {ff : Option File} {x : File}

theorem Same.refl (x : File) : Same x x := ⟨rfl,rfl,rfl⟩

theorem same_update (hx : Same (t f) x) (g : Fin NFILE) : Same (t g) (update t f x g) := by
  rcases eq_or_ne g f with rfl | hg
  · rwa [update_self]
  · rw [update_of_ne hg]
    exact .refl _

theorem same_recount (t : FileTable) (f : Fin NFILE) (c : ℕ) (g : Fin NFILE) :
    Same (t g) (update t f { t f with ReferenceCount := c } g) :=
  same_update (x := { t f with ReferenceCount := c }) ⟨rfl,rfl,rfl⟩ g

theorem allocateFileStructure_same (h : allocateFileStructure t = (some f,t')) (g : Fin NFILE) :
    Same (t g) (t' g) := by
  obtain ⟨-,rfl⟩ := allocateFileStructure_some h
  exact same_recount t f _ g

theorem fileDup_same (h : fileDup t f = .ok t') (g : Fin NFILE) : Same (t g) (t' g) := by
  rw [fileDup_ok h]
  exact same_recount t f _ g

theorem fileClose_same (h : fileClose t f = .ok (t',ff)) (hg : 0 < counts t' g) : Same (t g) (t' g) := by
  unfold fileClose at h
  split_ifs at h with h1 h2
  · cases h
    exact same_recount t f _ g
  · cases h
    have hne : g ≠ f := by
      rintro rfl
      simp [counts] at hg
    rw [update_of_ne hne]
    exact .refl _

theorem fileClose_last (h : fileClose t f = .ok (t',ff)) (hz : counts t' f = 0) :
    (t' f).type = .FD_NONE := by
  unfold fileClose at h
  split_ifs at h with h1 h2
  · cases h
    simp only [counts,update_self] at hz
    omega
  · cases h
    simp

theorem fileClose_other (h : fileClose t f = .ok (t',ff)) (hg : g ≠ f) : t' g = t g := by
  unfold fileClose at h
  split_ifs at h with h1 h2
  · cases h
    exact update_of_ne hg _ _
  · cases h
    exact update_of_ne hg _ _

theorem fileClose_ok (h : 0 < counts t f) : ∃ r, fileClose t f = .ok r := by
  have hz : ¬(t f).ReferenceCount < 1 := by
    unfold counts at h
    omega
  unfold fileClose
  rw [if_neg hz]
  split_ifs <;> exact ⟨_,rfl⟩

theorem fileDup_of_pos (h : 0 < counts t f) : ∃ t', fileDup t f = .ok t' := by
  unfold counts at h
  exact ⟨_,if_neg (by omega)⟩

namespace Counted

theorem pos_of_close (h : Counted t slot T) (hf : .close f ∈ T) : 0 < counts t f := by
  obtain ⟨lost,hb,-⟩ := h.balanced
  exact hb.in_hand (Multiset.mem_add.mpr (.inl (mem_closes.mpr hf)))

theorem pos_of_slot (h : Counted t slot T) (hk : slot k = some f) : 0 < counts t f := by
  obtain ⟨lost,hb,-⟩ := h.balanced
  exact hb.named hk

theorem referenced (h : Counted t slot T) (hf : 0 < counts t f) (ht : (t f).type ≠ .FD_DEVICE) :
    (∃ k, slot k = some f) ∨ .close f ∈ T := by
  obtain ⟨lost,hb,hl⟩ := h.balanced
  by_contra hno
  push Not at hno
  have hlost : f ∉ lost := fun hm => ht (hl f hm)
  have hcloses : f ∉ closes T := fun hm => hno.2 (mem_closes.mp hm)
  rw [hb f,holders_eq_zero hno.1,Multiset.count_add,Multiset.count_eq_zero.mpr hcloses,
    Multiset.count_eq_zero.mpr hlost] at hf
  omega

theorem congr {U : Multiset Cleanup} (h : Counted t slot T) (hU : closes U = closes T) : Counted t slot U := by
  refine ⟨?_,h.unused,h.fresh,h.named⟩
  rw [hU]
  exact h.balanced

theorem two_le {U : Multiset Cleanup} (h : Counted t slot (T + U)) (hT : .close f ∈ T) (hU : .close f ∈ U) :
    2 ≤ counts t f := by
  obtain ⟨lost,hb,-⟩ := h.balanced
  have hadd : closes (T + U) = closes T + closes U := Multiset.filterMap_add _ _ _
  have h1 := Multiset.count_pos.mpr (mem_closes.mpr hT)
  have h2 := Multiset.count_pos.mpr (mem_closes.mpr hU)
  rw [hb f,hadd,Multiset.count_add,Multiset.count_add]
  omega

theorem take (h : Counted t slot T) (hs : ∀ g, Same (t g) (t' g))
    (hc : counts t' = update (counts t) f (counts t f + 1))
    (hf : (t f).type = .FD_NONE → counts t f = 0) : Counted t' slot (.close f ::ₘ T) := by
  obtain ⟨lost,hb,hl⟩ := h.balanced
  constructor
  · refine ⟨lost,?_,fun g hg => by rw [(hs g).1,hl g hg]⟩
    rw [hc,closes_close,Multiset.cons_add]
    exact hb.take f
  · intro g hg
    rw [(hs g).1]
    apply h.unused
    rcases eq_or_ne g f with rfl | hne
    · simp [hc] at hg
    · rwa [hc,update_of_ne hne] at hg
  · intro g hg
    rw [(hs g).1] at hg
    rcases eq_or_ne g f with rfl | hne
    · rw [hc,update_self,hf hg]
    · rw [hc,update_of_ne hne]
      exact h.fresh g hg
  · intro k g hk
    rw [(hs g).1]
    exact h.named k g hk

theorem allocate (h : Counted t slot T) (ha : allocateFileStructure t = (some f,t')) :
    Counted t' slot (.close f ::ₘ T) := by
  obtain ⟨hz,hc⟩ := counts_allocate ha
  exact h.take (allocateFileStructure_same ha) (by rw [hc,hz]) (fun _ => hz)

theorem dup (h : Counted t slot T) (hk : slot k = some f) (hd : fileDup t f = .ok t') :
    Counted t' slot (.close f ::ₘ T) :=
  h.take (fileDup_same hd) (counts_dup hd) (fun hn => absurd hn (h.named k f hk))

theorem clear (h : Counted t slot T) (hk : slot k = some f) :
    Counted t (update slot k none) (.close f ::ₘ T) := by
  obtain ⟨lost,hb,hl⟩ := h.balanced
  refine ⟨⟨lost,?_,hl⟩,h.unused,h.fresh,?_⟩
  · rw [closes_close,Multiset.cons_add]
    exact hb.clear hk
  · intro j g hj
    rcases eq_or_ne j k with rfl | hne
    · simp at hj
    · rw [update_of_ne hne] at hj
      exact h.named j g hj

theorem give (h : Counted t slot (.close f ::ₘ T)) (hf : (t f).type ≠ .FD_NONE)
    (hk : ∀ g, slot k = some g → (t g).type = .FD_DEVICE) :
    Counted t (update slot k (some f)) T := by
  obtain ⟨lost,hb,hl⟩ := h.balanced
  rw [closes_close,Multiset.cons_add] at hb
  refine ⟨?_,h.unused,h.fresh,?_⟩
  · cases hs : slot k with
    | none => exact ⟨lost,hb.give hs,hl⟩
    | some g =>
      refine ⟨g ::ₘ lost,?_,Multiset.forall_mem_cons.mpr ⟨hk g hs,hl⟩⟩
      have hc := hb.clear hs
      rw [Multiset.cons_swap,← Multiset.add_cons] at hc
      have hg := hc.give (update_self ..)
      rwa [update_idem] at hg
  · intro j g hj
    rcases eq_or_ne j k with rfl | hne
    · rw [update_self] at hj
      cases hj
      exact hf
    · rw [update_of_ne hne] at hj
      exact h.named j g hj

theorem retype (h : Counted t slot T) (hf : .close f ∈ T) (hn : (t f).type = .FD_NONE)
    (hc : x.ReferenceCount = (t f).ReferenceCount) (hx : x.type ≠ .FD_NONE) :
    Counted (update t f x) slot T := by
  obtain ⟨lost,hb,hl⟩ := h.balanced
  have hpos := h.pos_of_close hf
  refine ⟨⟨lost,?_,?_⟩,?_,?_,?_⟩
  · rwa [counts_write hc]
  · intro g hg
    have hne : g ≠ f := by
      rintro rfl
      rw [hl g hg] at hn
      cases hn
    rw [update_of_ne hne]
    exact hl g hg
  · intro g hg
    rw [counts_write hc] at hg
    have hne : g ≠ f := by
      rintro rfl
      omega
    rw [update_of_ne hne]
    exact h.unused g hg
  · intro g hg
    rw [counts_write hc]
    rcases eq_or_ne g f with rfl | hne
    · rw [update_self] at hg
      exact absurd hg hx
    · rw [update_of_ne hne] at hg
      exact h.fresh g hg
  · intro j g hj
    rcases eq_or_ne g f with rfl | hne
    · rwa [update_self]
    · rw [update_of_ne hne]
      exact h.named j g hj

theorem make {f0 f1 : Fin NFILE} {n : ℕ} (h : Counted t slot T) (hne : f0 ≠ f1) (hf0 : .close f0 ∈ T)
    (hf1 : .close f1 ∈ T) (h0 : (t f0).type = .FD_NONE) (h1 : (t f1).type = .FD_NONE) :
    Counted (pipeFiles t f0 f1 n) slot T := by
  have hx0 : FileType.FD_PIPE ≠ .FD_NONE := by decide
  have hr := h.retype
    (x := { t f0 with type := .FD_PIPE, Readable := true, Writable := false, Pipe := n }) hf0 h0 rfl hx0
  refine hr.retype hf1 ?_ rfl hx0
  rw [update_of_ne hne.symm,h1]

theorem close (h : Counted t slot (.close f ::ₘ T)) (hc : fileClose t f = .ok (t',ff)) :
    Counted t' slot T := by
  obtain ⟨lost,hb,hl⟩ := h.balanced
  have hcount := counts_close hc
  rw [closes_close,Multiset.cons_add] at hb
  have hb' := hb.drop
  rw [← hcount] at hb'
  refine ⟨⟨lost,hb',?_⟩,?_,?_,?_⟩
  · intro g hg
    rw [(fileClose_same hc (hb'.in_hand (Multiset.mem_add.mpr (.inr hg)))).1]
    exact hl g hg
  · intro g hg
    rcases eq_or_ne g f with rfl | hne
    · exact fileClose_last hc hg
    · rw [fileClose_other hc hne]
      rw [hcount,update_of_ne hne] at hg
      exact h.unused g hg
  · intro g hg
    by_contra hlt
    have hs := (fileClose_same hc (g := g) (by omega)).1
    have hle := h.fresh g (by rw [← hs,hg])
    have hdec : counts t' g ≤ counts t g := by
      rw [hcount]
      rcases eq_or_ne g f with rfl | hne
      · simp
      · rw [update_of_ne hne]
    omega
  · intro j g hj
    rw [(fileClose_same hc (hb'.named hj)).1]
    exact h.named j g hj

end Counted

end UoDOS.PipeLifetime
