import UoDOS.Pipe.PipeLifetimeRules

/-! # The steps of the calls keep the accounts of pipes -/
namespace UoDOS.PipeLifetime
open FileSystem References Transition Function
open Processes (initproc)

variable {s s' : System} {t t' : FileTable} {O : Fin NPROC → Fin NOFILE → Option (Fin NFILE)}
  {p q np : Fin NPROC} {fd fd' : Fin NOFILE} {f f0 f1 c : Fin NFILE} {todo : List Cleanup} {next : Option ℕ}
  {n i : ℕ} {w choice : Bool}

theorem slots_update (O : Fin NPROC → Fin NOFILE → Option (Fin NFILE)) (p : Fin NPROC) (fd : Fin NOFILE)
    (x : Option (Fin NFILE)) :
    slots (update O p (update (O p) fd x)) = update (slots O) (p,fd) x := by
  funext ⟨q,j⟩
  rcases eq_or_ne q p with rfl | hq
  · rcases eq_or_ne j fd with rfl | hj
    · simp [slots]
    · simp [slots,hj]
  · simp [slots,hq]

theorem fdalloc_some {o : Fin NOFILE → Option (Fin NFILE)} (h : fdalloc o = some fd) : o fd = none := by
  simpa using List.find?_some h

namespace Inv

theorem stay (h : Inv s) (hr : s.Ready p) (hO : ∀ q, q ≠ p → O q = s.OpenFile q)
    (hs : ∀ f, 0 < counts s.files f → 0 < counts t f → Same (s.files f) (t f))
    (hc : Counted t (slots O) (owed s.control)) (he : Ended t s.pipes s.made s.freed (owed s.control)) :
    Inv { s with files := t, OpenFile := O } := by
  rw [owed_eq _ p,hr.2] at hc he
  have ha := h.advance (x := .user) hr.1 (by rw [hr.2]) (fun q hq _ => hO q hq)
    (fun f h1 h2 => .inl (hs f h1 h2)) hc he trivial
  have hu : update s.control p .user = s.control := by
    rw [← hr.2,update_eq_self]
  rwa [hu] at ha

theorem closeFile (h : Inv s) (hp : s.status p = .live) (hb : (s.control p).builds = none)
    (hO : ∀ q, q ≠ p → O q = s.OpenFile q)
    (hc : Counted s.files (slots O) (.close f ::ₘ ((todo : Multiset Cleanup) + others s.control p)))
    (he : Ended s.files s.pipes s.made s.freed (.close f ::ₘ ((todo : Multiset Cleanup) + others s.control p)))
    (hx : Closed (O p) (next.getD 0))
    (hr : PipeLifetime.closeFile { s with OpenFile := O } p f todo next = some s') : Inv s' := by
  unfold PipeLifetime.closeFile at hr
  split at hr
  · rename_i files ff hfc
    cases hr
    have hdue : (Control.closing (afterClose ff ++ todo) next).due + others s.control p =
        (afterClose ff : Multiset Cleanup) + ((todo : Multiset Cleanup) + others s.control p) := by
      rw [Control.due,← Multiset.coe_add,add_assoc]
    refine h.advance (x := .closing (afterClose ff ++ todo) next) hp (by rw [hb]; rfl)
      (fun q hq _ => hO q hq) (fun g _ hg => .inl (fileClose_same hfc hg)) ?_ ?_ hx
    · rw [hdue]
      exact (hc.close hfc).congr (closes_afterClose ff _)
    · rw [hdue]
      exact he.close hfc
  · cases hr

theorem close_descriptor (h : Inv s) (hp : s.status p = .live) (hb : (s.control p).builds = none)
    (hd : (s.control p).due = 0) (hf : s.OpenFile p fd = some f)
    (hx : Closed (update (s.OpenFile p) fd none) (next.getD 0))
    (hr : PipeLifetime.closeFile (s.setOpenFile p fd none) p f [] next = some s') : Inv s' := by
  have hc := h.counted_at p
  have he := h.ended_at p
  rw [hd] at hc he
  refine h.closeFile (O := update s.OpenFile p (update (s.OpenFile p) fd none)) hp hb ?_ ?_
    ?_ ?_ hr
  · intro q hq
    rw [update_of_ne hq]
  · rw [slots_update]
    exact hc.clear (k := (p,fd)) hf
  · exact he.cons_close (fun _ => .refl _) f
  · rwa [update_self]

theorem allocated {x : Control} (h : Inv s) (hp : s.status p = .live) (hb : (s.control p).builds = none)
    (ha : allocateFileStructure s.files = (some f,t)) (hxb : x.builds = none)
    (hx : x.due = .close f ::ₘ (s.control p).due) (hfit : Fits t s.OpenFile p x) :
    Inv ({ s with files := t }.goto p x) := by
  refine h.advance hp (by rw [hxb,hb]) (fun _ _ _ => rfl)
    (fun g _ _ => .inl (allocateFileStructure_same ha g)) ?_ ?_ hfit
  · rw [hx,Multiset.cons_add]
    exact (h.counted_at p).allocate ha
  · rw [hx,Multiset.cons_add]
    exact (h.ended_at p).cons_close (allocateFileStructure_same ha) f

theorem allocated_type (h : Inv s) (ha : allocateFileStructure s.files = (some f,t)) :
    (t f).type = .FD_NONE := by
  rw [(allocateFileStructure_same ha f).1]
  exact h.counted.unused f (counts_allocate ha).1

theorem pipeSecond (h : Inv s) (hc : s.control p = .pipeSecond f0)
    (hr : run s p choice = some s') : Inv s' := by
  have hp := h.busy p (by simp [hc])
  have hfit := h.fits p
  rw [hc] at hfit
  simp only [run,hc] at hr
  split at hr
  · cases hr
    refine h.move hp (by rw [hc]; rfl) (by rw [hc]; rfl) ?_
    intro fd hfd
    simp at hfd
  · rename_i f1 files ha
    cases hr
    have hone : 0 < counts s.files f0 :=
      h.counted.pos_of_close (mem_owed.mpr ⟨p,by simp [hc,Control.due]⟩)
    have hne : f0 ≠ f1 := by
      rintro rfl
      have hz := (counts_allocate ha).1
      omega
    refine h.allocated hp (by rw [hc]; rfl) ha rfl ?_ ?_
    · rw [hc]
      exact Multiset.cons_swap (Cleanup.close f0) (Cleanup.close f1) 0
    · exact ⟨hne,(allocateFileStructure_same ha f0).1.trans hfit,h.allocated_type ha⟩

theorem pipePage (h : Inv s) (hc : s.control p = .pipePage f0 f1)
    (hr : run s p choice = some s') : Inv s' := by
  have hp := h.busy p (by simp [hc])
  obtain ⟨hne,h0,h1⟩ : f0 ≠ f1 ∧ (s.files f0).type = .FD_NONE ∧ (s.files f1).type = .FD_NONE := by
    have hfit := h.fits p
    rwa [hc] at hfit
  simp only [run,hc] at hr
  split_ifs at hr
  · cases hr
    have hcounted := h.counted_at p
    have hended := h.ended_at p
    rw [hc] at hcounted hended
    refine h.advance hp (by rw [hc]; rfl) (fun _ _ _ => rfl) ?_ ?_ (hended.make hne h0 h1) ?_
    · intro g _ _
      rw [hc]
      by_cases hg0 : g = f0
      · subst hg0
        exact .inr ⟨h0,by simp [Control.due]⟩
      by_cases hg1 : g = f1
      · subst hg1
        exact .inr ⟨h1,by simp [Control.due]⟩
      left
      simp only [pipeFiles,update_of_ne hg1,update_of_ne hg0]
      exact .refl _
    · exact hcounted.make hne (by simp [Control.due]) (by simp [Control.due]) h0 h1
    · simp [Fits,pipeFiles,hne]
  · cases hr
    refine h.move hp (by rw [hc]; rfl) (by rw [hc]; rfl) ?_
    intro fd hfd
    simp at hfd

theorem pipeInstall {rf wf : Fin NFILE} (h : Inv s) (hc : s.control p = .pipeInstall rf wf) :
    Inv (install s p rf wf) := by
  have hp := h.busy p (by simp [hc])
  obtain ⟨hrf,hwf⟩ : (s.files rf).type = .FD_PIPE ∧ (s.files wf).type = .FD_PIPE := by
    have hfit := h.fits p
    rwa [hc] at hfit
  have hfail : Inv (s.goto p (.closing [.close rf,.close wf] none)) := by
    refine h.move hp (by rw [hc]; rfl) (by rw [hc]; rfl) ?_
    intro fd hfd
    simp at hfd
  unfold install
  split
  · exact hfail
  rename_i fd0 h0
  split
  · exact hfail
  rename_i fd1 h1
  have hdue : (s.control p).due + others s.control p =
      .close rf ::ₘ .close wf ::ₘ (Control.user.due + others s.control p) := by
    simp [hc,Control.due]
  have hcounted := h.counted_at p
  have hended := h.ended_at p
  rw [hdue] at hcounted hended
  refine h.advance hp (by rw [hc]; rfl) ?_ (fun _ _ _ => .inl (.refl _)) ?_
    hended.of_cons_close.of_cons_close trivial
  · intro q hq _
    simp only [System.setOpenFile,update_of_ne hq]
  · have hg0 := hcounted.give (k := (p,fd0)) (by simp [hrf]) (fun g hg => by simp [slots,fdalloc_some h0] at hg)
    rw [← slots_update] at hg0
    have hg1 := hg0.give (k := (p,fd1)) (by simp [hwf]) (fun g hg => by
      simp only [slots,update_self,fdalloc_some h1] at hg
      cases hg)
    rw [← slots_update] at hg1
    exact hg1

theorem closing (h : Inv s) (hc : s.control p = .closing todo next)
    (hr : run s p choice = some s') : Inv s' := by
  have hp := h.busy p (by simp [hc])
  have hcounted := h.counted_at p
  have hended := h.ended_at p
  have hfit := h.fits p
  rw [hc] at hcounted hended hfit
  cases todo with
  | nil =>
    cases next with
    | none =>
      simp only [run,hc] at hr
      cases hr
      exact h.move hp (by rw [hc]; rfl) (by rw [hc]; rfl) trivial
    | some i =>
      simp only [run,hc] at hr
      cases hr
      exact h.move hp (by rw [hc]; rfl) (by rw [hc]; rfl) hfit
  | cons x todo =>
    have hdue : (Control.closing (x :: todo) next).due + others s.control p =
        x ::ₘ ((todo : Multiset Cleanup) + others s.control p) := by
      rw [Control.due,← Multiset.cons_coe,Multiset.cons_add]
    rw [hdue] at hcounted hended
    cases x with
    | close f =>
      simp only [run,hc] at hr
      exact h.closeFile (O := s.OpenFile) hp (by rw [hc]; rfl) (fun _ _ => rfl) hcounted hended hfit hr
    | pipeclose n w =>
      simp only [run,hc] at hr
      cases hr
      refine h.advance hp (by rw [hc]; rfl) (fun _ _ _ => rfl) (fun _ _ _ => .inl (.refl _)) ?_ ?_ hfit
      · refine hcounted.congr ?_
        simp only [Control.due]
        split_ifs
        · simp [← Multiset.cons_coe]
        · simp
      · have hclosed := hended.pipeclose
        simp only [Control.due,← Multiset.coe_add,add_assoc]
        split_ifs at hclosed ⊢
        · exact hclosed
        · exact hclosed
    | free n =>
      simp only [run,hc] at hr
      cases hr
      refine h.advance hp (by rw [hc]; rfl) (fun _ _ _ => rfl) (fun _ _ _ => .inl (.refl _)) ?_ hended.free
        hfit
      exact hcounted.congr (closes_free n _).symm

theorem settle {x : Status} (h : Inv s) (hp : s.status p = .live) (hc : (s.control p).due = 0)
    (hnp : s.status np = .embryo ∧ (s.control p).builds = some np ∨ np = p ∧ (s.control p).builds = none)
    (hu : x = .unused → Blank s.files (s.OpenFile np) 0) (hz : x = .zombie → ∀ fd, s.OpenFile np fd = none) :
    Inv ((s.setStatus np x).goto p .user) := by
  have hcounted := h.counted_at p
  have hended := h.ended_at p
  rw [hc] at hcounted hended
  have hbuilds : ∀ q m, (update s.control p .user q).builds = some m →
      q ≠ p ∧ (s.control q).builds = some m := by
    intro q m hq
    rcases eq_or_ne q p with rfl | hne
    · simp [Control.builds] at hq
    · rw [update_of_ne hne] at hq
      exact ⟨hne,hq⟩
  constructor
  · simp only [System.goto,System.setStatus,owed_update]
    exact hcounted
  · simp only [System.goto,System.setStatus,owed_update]
    exact hended
  · intro q
    simp only [System.goto,System.setStatus]
    rcases eq_or_ne q p with rfl | hne
    · rw [update_self]
      trivial
    · rw [update_of_ne hne]
      exact h.fits q
  · intro q hq
    simp only [System.goto,System.setStatus] at hq ⊢
    have hne : q ≠ p := by
      rintro rfl
      simp at hq
    rw [update_of_ne hne] at hq
    have hlive := h.busy q hq
    have hqn : q ≠ np := by
      rintro rfl
      rcases hnp with ⟨he,-⟩ | ⟨rfl,-⟩
      · rw [hlive] at he
        cases he
      · exact hne rfl
    rw [update_of_ne hqn]
    exact hlive
  · intro q m hq
    obtain ⟨hne,hb'⟩ := hbuilds q m hq
    have hm := h.embryo q m hb'
    have hmn : m ≠ np := by
      rintro rfl
      rcases hnp with ⟨-,hb⟩ | ⟨rfl,-⟩
      · exact hne (h.unique q p m hb' hb)
      · rw [hp] at hm
        cases hm
    simp only [System.goto,System.setStatus,update_of_ne hmn]
    exact hm
  · intro q r m hq hr
    exact h.unique q r m (hbuilds q m hq).2 (hbuilds r m hr).2
  · intro q hq
    simp only [System.goto,System.setStatus] at hq
    rcases eq_or_ne q np with rfl | hne
    · rw [update_self] at hq
      exact hu hq
    · rw [update_of_ne hne] at hq
      exact h.unused q hq
  · intro q hq
    simp only [System.goto,System.setStatus] at hq
    rcases eq_or_ne q np with rfl | hne
    · rw [update_self] at hq
      exact hz hq
    · rw [update_of_ne hne] at hq
      exact h.zombie q hq

theorem exiting (h : Inv s) (hc : s.control p = .exiting i) (hr : run s p choice = some s') : Inv s' := by
  have hp := h.busy p (by simp [hc])
  have hfit : Closed (s.OpenFile p) i := by
    have hfit := h.fits p
    rwa [hc] at hfit
  simp only [run,hc] at hr
  split_ifs at hr with hi
  · split at hr
    · rename_i f hf
      refine h.close_descriptor hp (by rw [hc]; rfl) (by rw [hc]; rfl) hf ?_ hr
      intro fd hfd
      rcases eq_or_ne fd ⟨i,hi⟩ with rfl | hne
      · simp
      · rw [update_of_ne hne]
        have hval : fd.val ≠ i := fun he => hne (Fin.ext he)
        simp only [Option.getD_some] at hfd
        exact hfit fd (by omega)
    · rename_i hf
      cases hr
      refine h.move hp (by rw [hc]; rfl) (by rw [hc]; rfl) ?_
      intro fd hfd
      rcases eq_or_ne fd ⟨i,hi⟩ with rfl | hne
      · exact hf
      · have hval : fd.val ≠ i := fun he => hne (Fin.ext he)
        exact hfit fd (by omega)
  · cases hr
    refine h.settle hp (by rw [hc]; rfl) (.inr ⟨rfl,by rw [hc]; rfl⟩) (fun hx => nomatch hx) ?_
    intro _ fd
    exact hfit fd (by omega)

theorem transfer (h : Inv s) (hc : s.control p = .transfer fd n) (hr : run s p choice = some s') : Inv s' := by
  simp only [run,hc] at hr
  split_ifs at hr
  · cases hr
    exact h
  · cases hr
    exact h.move (h.busy p (by simp [hc])) (by rw [hc]; rfl) (by rw [hc]; rfl) trivial

end Inv

end UoDOS.PipeLifetime
