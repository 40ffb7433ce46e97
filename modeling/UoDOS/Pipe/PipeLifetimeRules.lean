import UoDOS.Pipe.PipeEnds

/-! # No pipe outlives or precedes its page

Beside the accounts, a call that is under way says something about the Files and the descriptors
it works on.
-/
namespace UoDOS.PipeLifetime
open FileSystem References Transition Function
open Kernel (PipeEnds)
open Processes (initproc)

def Blank (t : FileTable) (o : Fin NOFILE → Option (Fin NFILE)) (i : ℕ) : Prop :=
  ∀ fd f, i ≤ fd.val → o fd = some f → (t f).type = .FD_DEVICE

def Closed (o : Fin NOFILE → Option (Fin NFILE)) (i : ℕ) : Prop := ∀ fd, fd.val < i → o fd = none

def Control.builds : Control → Option (Fin NPROC)
  | .opening np => some np
  | .sharing np _ _ => some np
  | .copying np => some np
  | .duplicating np _ => some np
  | _ => none

def Fits (t : FileTable) (O : Fin NPROC → Fin NOFILE → Option (Fin NFILE)) (p : Fin NPROC) : Control → Prop
  | .user => True
  | .pipeSecond f0 => (t f0).type = .FD_NONE
  | .pipePage f0 f1 => f0 ≠ f1 ∧ (t f0).type = .FD_NONE ∧ (t f1).type = .FD_NONE
  | .pipeInstall rf wf => (t rf).type = .FD_PIPE ∧ (t wf).type = .FD_PIPE
  | .closing _ next => Closed (O p) (next.getD 0)
  | .exiting i => Closed (O p) i
  | .transfer fd n => ∃ f, O p fd = some f ∧ (t f).type = .FD_PIPE ∧ (t f).Pipe = n
  | .opening np => Blank t (O np) 0
  | .sharing np c _ => O np stdin = some c ∧ Blank t (O np) 0
  | .copying np => Blank t (O np) 0
  | .duplicating np i => Blank t (O np) i

structure Inv (s : System) : Prop where
  counted : Counted s.files (slots s.OpenFile) (owed s.control)
  ended : Ended s.files s.pipes s.made s.freed (owed s.control)
  fits : ∀ p, Fits s.files s.OpenFile p (s.control p)
  busy : ∀ p, s.control p ≠ .user → s.status p = .live
  embryo : ∀ p np, (s.control p).builds = some np → s.status np = .embryo
  unique : ∀ p q np, (s.control p).builds = some np → (s.control q).builds = some np → p = q
  unused : ∀ p, s.status p = .unused → Blank s.files (s.OpenFile p) 0
  zombie : ∀ p, s.status p = .zombie → ∀ fd, s.OpenFile p fd = none

variable {s s' : System} {t t' : FileTable} {O O' : Fin NPROC → Fin NOFILE → Option (Fin NFILE)}
  {p q np : Fin NPROC} {fd : Fin NOFILE} {f f0 f1 : Fin NFILE} {x : Control} {choice : Bool}

theorem Blank.keep {o : Fin NOFILE → Option (Fin NFILE)} {i : ℕ} (h : Blank t o i)
    (hs : ∀ fd f, o fd = some f → Same (t f) (t' f)) : Blank t' o i := by
  intro fd f hi hf
  rw [(hs fd f hf).1]
  exact h fd f hi hf

theorem Fits.keep (h : Fits t O q x) (hO : O' q = O q) (hB : ∀ np, x.builds = some np → O' np = O np)
    (hq : ∀ fd f, O q fd = some f → Same (t f) (t' f))
    (hnp : ∀ np fd f, x.builds = some np → O np fd = some f → Same (t f) (t' f))
    (hd : ∀ f, .close f ∈ x.due → Same (t f) (t' f)) : Fits t' O' q x := by
  cases x with
  | user => trivial
  | pipeSecond f0 => exact (hd f0 (by simp [Control.due])).1.trans h
  | pipePage f0 f1 =>
    exact ⟨h.1,(hd f0 (by simp [Control.due])).1.trans h.2.1,(hd f1 (by simp [Control.due])).1.trans h.2.2⟩
  | pipeInstall rf wf =>
    exact ⟨(hd rf (by simp [Control.due])).1.trans h.1,(hd wf (by simp [Control.due])).1.trans h.2⟩
  | closing todo next =>
    simp only [Fits,hO]
    exact h
  | exiting i =>
    simp only [Fits,hO]
    exact h
  | transfer fd n =>
    obtain ⟨f,hf,ht,hn⟩ := h
    obtain ⟨h1,h2,-⟩ := hq fd f hf
    exact ⟨f,by rw [hO,hf],by rw [h1,ht],by rw [h2,hn]⟩
  | opening np =>
    simp only [Fits,hB np rfl]
    exact Blank.keep h (hnp np · · rfl)
  | sharing np c fd =>
    simp only [Fits,hB np rfl]
    exact ⟨h.1,Blank.keep h.2 (hnp np · · rfl)⟩
  | copying np =>
    simp only [Fits,hB np rfl]
    exact Blank.keep h (hnp np · · rfl)
  | duplicating np i =>
    simp only [Fits,hB np rfl]
    exact Blank.keep h (hnp np · · rfl)

namespace Inv

theorem counted_at (h : Inv s) (p : Fin NPROC) :
    Counted s.files (slots s.OpenFile) ((s.control p).due + others s.control p) := by
  rw [← owed_eq]
  exact h.counted

theorem ended_at (h : Inv s) (p : Fin NPROC) :
    Ended s.files s.pipes s.made s.freed ((s.control p).due + others s.control p) := by
  rw [← owed_eq]
  exact h.ended

theorem advance {pipes : ℕ → PipeEnds} {made : ℕ} {freed : ℕ → ℕ} (h : Inv s) (hp : s.status p = .live)
    (hb : x.builds = (s.control p).builds)
    (hO : ∀ q, q ≠ p → (s.control p).builds ≠ some q → O q = s.OpenFile q)
    (hs : ∀ f, 0 < counts s.files f → 0 < counts t f →
      Same (s.files f) (t f) ∨ (s.files f).type = .FD_NONE ∧ .close f ∈ (s.control p).due)
    (hc : Counted t (slots O) (x.due + others s.control p))
    (he : Ended t pipes made freed (x.due + others s.control p)) (hx : Fits t O p x) :
    Inv ⟨t,O,s.status,update s.control p x,pipes,made,freed⟩ := by
  have hbuilds : ∀ q, (update s.control p x q).builds = (s.control q).builds := by
    intro q
    rcases eq_or_ne q p with rfl | hq
    · rw [update_self,hb]
    · rw [update_of_ne hq]
  have hslot : ∀ q fd f, O q = s.OpenFile q → s.OpenFile q fd = some f → Same (s.files f) (t f) := by
    intro q fd f hq hf
    have h1 : 0 < counts s.files f := h.counted.pos_of_slot (k := (q,fd)) hf
    have h2 : 0 < counts t f := hc.pos_of_slot (k := (q,fd)) (by rw [slots,hq,hf])
    rcases hs f h1 h2 with hsame | ⟨hn,-⟩
    · exact hsame
    · exact absurd hn (h.counted.named (q,fd) f hf)
  have hrest : ∀ q, s.status q ≠ .live → s.status q ≠ .embryo → O q = s.OpenFile q := by
    intro q hl hm
    apply hO
    · rintro rfl
      exact hl hp
    · intro hq
      exact hm (h.embryo p q hq)
  constructor
  · rw [owed_update]
    exact hc
  · rw [owed_update]
    exact he
  · intro q
    rcases eq_or_ne q p with rfl | hq
    · simpa using hx
    · simp only [update_of_ne hq]
      by_cases hu : s.control q = .user
      · rw [hu]
        trivial
      have hq' : O q = s.OpenFile q := by
        apply hO q hq
        intro hbq
        have := h.busy q hu
        rw [h.embryo p q hbq] at this
        cases this
      have hnp : ∀ np, (s.control q).builds = some np → O np = s.OpenFile np := by
        intro np hnp
        have hm := h.embryo q np hnp
        apply hO
        · rintro rfl
          rw [hp] at hm
          cases hm
        · intro hpn
          exact hq (h.unique q p np hnp hpn)
      refine (h.fits q).keep hq' hnp (hslot q · · hq') (fun np fd f hb => hslot np fd f (hnp np hb)) ?_
      intro f hf
      have h1 := h.counted.pos_of_close (mem_owed.mpr ⟨q,hf⟩)
      have h2 := hc.pos_of_close (Multiset.mem_add.mpr (.inr (mem_others hq hf)))
      rcases hs f h1 h2 with hsame | ⟨hn,hdue⟩
      · exact hsame
      · have htwo := (h.counted_at p).two_le hdue (mem_others hq hf)
        have hone := h.counted.fresh f hn
        omega
  · intro q hq
    rcases eq_or_ne q p with rfl | hne
    · exact hp
    · simp only [update_of_ne hne] at hq
      exact h.busy q hq
  · intro q np hq
    rw [hbuilds] at hq
    exact h.embryo q np hq
  · intro q r np hq hr
    rw [hbuilds] at hq hr
    exact h.unique q r np hq hr
  · intro q (hq : s.status q = .unused)
    have hsame := hrest q (by simp [hq]) (by simp [hq])
    simp only [hsame]
    exact (h.unused q hq).keep (hslot q · · hsame)
  · intro q (hq : s.status q = .zombie)
    have hsame := hrest q (by simp [hq]) (by simp [hq])
    simp only [hsame]
    exact h.zombie q hq

theorem move (h : Inv s) (hp : s.status p = .live) (hb : x.builds = (s.control p).builds)
    (hd : x.due = (s.control p).due) (hx : Fits s.files s.OpenFile p x) : Inv (s.goto p x) := by
  refine h.advance hp hb (fun _ _ _ => rfl) (fun _ _ _ => .inl (.refl _)) ?_ ?_ hx
  · rw [hd]
    exact h.counted_at p
  · rw [hd]
    exact h.ended_at p

end Inv

end UoDOS.PipeLifetime
