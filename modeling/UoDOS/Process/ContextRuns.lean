import UoDOS.Library.Transition
import UoDOS.Process.ContextStates

/-! # Context switches in every run

What each step keeps, and that swtch gives every context back what it had.
-/
namespace UoDOS.ContextSwitch
open ByteMemory StackMachine StackMachine.Machine Transition Function

variable {U C : Type} {L : Symbols} {W : Slots C} {s t : State U C} {u : U} {c d : C} {lo hi : ℕ}

variable [DecidableEq C]

theorem Inv.fork {k tf : UInt32} (h : Inv L W s) (hf : Fresh W s u d k tf) : Inv L W { s with
      mem := forked L W s d k tf
      stack := update s.stack d (some (k.toNat,k.toNat + 4096))
      out := update s.out d (some ⟨⟨0,0,0,0,L.forkret⟩,k + 4016⟩)
      child := update s.child d (some (trapframeAt s.mem tf)) } := by
  have hk := hf.below
  have hn := hf.newStack h
  have e1 : (k + 3996).toNat = k.toNat + 3996 := toNat_add_of_lt (by simp; omega)
  have hold : ∀ {e lo hi}, e ≠ d → update s.stack d (some (k.toNat,k.toNat + 4096)) e = some (lo,hi) →
      s.stack e = some (lo,hi) := fun hed he => by simpa [hed] using he
  have hself : ∀ {lo hi}, update s.stack d (some (k.toNat,k.toNat + 4096)) d = some (lo,hi) →
      lo = k.toNat ∧ hi = k.toNat + 4096 := by
    intro lo hi he
    simp only [update_self,Option.some.injEq,Prod.mk.injEq] at he
    exact ⟨he.1.symm,he.2.symm⟩
  -- the bytes of the other contexts are as before
  have hslots : ∀ e, e ≠ d → ∀ x, (W.slot e).toNat ≤ x → x < (W.slot e).toNat + 4 →
      forked L W s d k tf x = s.mem x := by
    intro e hed x h1 h2
    have hse := hf.slots e
    have hap := W.apart e d hed
    exact hn.rest x (by omega) (by omega)
  have hstacks : ∀ e lo hi x, s.stack e = some (lo,hi) → lo ≤ x → x < hi →
      forked L W s d k tf x = s.mem x := by
    intro e lo hi x hs h1 h2
    have hre := hf.regions e lo hi hs
    have hsl := h.slots e d lo hi hs
    exact hn.rest x (by omega) (by omega)
  refine ⟨fun v e hv => ?_,h.alone,fun e lo hi he => ?_,fun e f lo hi lo' hi' hef he hf' => ?_,
    fun e f lo hi he => ?_,fun e v he => ?_,fun e f he => ?_⟩
  · have hed : e ≠ d := by
      rintro rfl
      exact hf.idle v hv
    obtain ⟨h1,h2⟩ := h.live v e hv
    exact ⟨by simpa [hed] using h1,by simpa [hed] using h2⟩
  · rcases eq_or_ne e d with rfl | hed
    · rw [(hself he).2]
      exact hk
    · exact h.below e lo hi (hold hed he)
  · rcases eq_or_ne e d with rfl | hed
    · obtain ⟨rfl,rfl⟩ := hself he
      exact (hf.regions f lo' hi' (hold hef.symm hf')).symm
    · rcases eq_or_ne f d with rfl | hfd
      · obtain ⟨rfl,rfl⟩ := hself hf'
        exact hf.regions e lo hi (hold hed he)
      · exact h.regions e f lo hi lo' hi' hef (hold hed he) (hold hfd hf')
  · rcases eq_or_ne e d with rfl | hed
    · obtain ⟨rfl,rfl⟩ := hself he
      exact hf.slots f
    · exact h.slots e f lo hi (hold hed he)
  · rcases eq_or_ne e d with rfl | hed
    · simp only [update_self,Option.some.injEq] at he
      subst he
      refine ⟨k.toNat,k.toNat + 4096,by simp,?_,?_,?_,?_⟩
      · rw [hn.pointer]
        omega
      · rw [hn.pointer]
        simp only [State.limit,update_self,Option.isSome_some,↓reduceIte]
        omega
      · rw [hn.pointer]
        exact hn.context
      · rw [hn.pointer]
        grind
    · obtain ⟨lo,hi,hs,h1⟩ := h.saved_congr (by simpa [hed] using he) (hslots e hed) (hstacks e)
      exact ⟨lo,hi,by simpa [hed] using hs,by simpa [State.limit,hed] using h1⟩
  · rcases eq_or_ne e d with rfl | hed
    · simp only [update_self,Option.some.injEq] at he
      subst he
      exact ⟨k.toNat,k.toNat + 4096,by simp,by omega,hn.ret,hn.frame,hf.user⟩
    · have hfe : s.child e = some f := by simpa [hed] using he
      obtain ⟨lo,hi,hs,hle,-⟩ := h.frames e f hfe
      obtain ⟨lo',hi',hs',h1⟩ := h.frames_congr (b := forked L W s d k tf) hfe (fun lo' hi' x hs' h1 h2 => by
        obtain ⟨rfl,rfl⟩ : lo = lo' ∧ hi = hi' := by simpa [hs] using hs'
        exact hstacks e lo hi x hs (by omega) h2)
      exact ⟨lo',hi',by simpa [hed] using hs',h1⟩

theorem Inv.free (h : Inv L W s) (hd : (s.out d).isSome) : Inv L W { s with
      stack := update s.stack d none
      out := update s.out d none
      child := update s.child d none } := by
  have hne : ∀ {e lo hi}, update s.stack d none e = some (lo,hi) → e ≠ d := by
    rintro e lo hi he rfl
    simp at he
  have hold : ∀ {e lo hi}, update s.stack d none e = some (lo,hi) → s.stack e = some (lo,hi) :=
    fun he => by simpa [hne he] using he
  refine ⟨fun v e hv => ?_,h.alone,fun e lo hi he => h.below e lo hi (hold he),
    fun e f lo hi lo' hi' hef he hf => h.regions e f lo hi lo' hi' hef (hold he) (hold hf),
    fun e f lo hi he => h.slots e f lo hi (hold he),fun e v he => ?_,fun e f he => ?_⟩
  · obtain ⟨h1,h2⟩ := h.live v e hv
    have hed : e ≠ d := by
      rintro rfl
      rw [h2] at hd
      cases hd
    exact ⟨by simpa [hed] using h1,by simpa [hed] using h2⟩
  · have hed : e ≠ d := by
      rintro rfl
      simp at he
    obtain ⟨lo,hi,hs,h1⟩ := h.saved e v (by simpa [hed] using he)
    exact ⟨lo,hi,by simpa [hed] using hs,by simpa [State.limit,hed] using h1⟩
  · have hed : e ≠ d := by
      rintro rfl
      simp at he
    obtain ⟨lo,hi,hs,h1⟩ := h.frames e f (by simpa [hed] using he)
    exact ⟨lo,hi,by simpa [hed] using hs,h1⟩

variable [DecidableEq U]

theorem Inv.swtch {b : Bytes} {r : Registers} (h : Inv L W s) (hc : Calls W s u c d lo hi)
    (hb : Leaves W s u c b) : Inv L W { s with
      mem := b
      regs := update s.regs u r
      running := update s.running u (some d)
      out := update (update s.out c (some
        ⟨⟨(s.regs u).reg .edi,(s.regs u).reg .esi,(s.regs u).reg .ebx,(s.regs u).reg .ebp,
          word s.mem ((s.regs u).reg .esp)⟩,(s.regs u).reg .esp + 4⟩)) d none } := by
  have hdc := hc.ne h
  have hready : ∀ v, s.running v ≠ some d := by
    intro v hv
    have hr := hc.ready
    rw [(h.live v d hv).2] at hr
    cases hr
  refine ⟨fun v e hv => ?_,fun v w e hv hw => ?_,h.below,h.regions,h.slots,fun e x he => ?_,fun e f he => ?_⟩
  · rcases eq_or_ne v u with rfl | hvu
    · simp only [update_self,Option.some.injEq] at hv
      subst hv
      obtain ⟨x,hx⟩ := Option.isSome_iff_exists.mp hc.ready
      obtain ⟨lo',hi',hs,-⟩ := h.saved d x hx
      exact ⟨by rw [hs]; rfl,by simp⟩
    · simp only [update_of_ne hvu] at hv
      have hec : e ≠ c := by
        rintro rfl
        exact hvu (h.alone v u e hv hc.running)
      have hed : e ≠ d := by
        rintro rfl
        exact hready v hv
      obtain ⟨h1,h2⟩ := h.live v e hv
      exact ⟨h1,by simpa [hec,hed] using h2⟩
  · rcases eq_or_ne v u with rfl | hvu
    · rcases eq_or_ne w v with rfl | hwv
      · rfl
      · simp only [update_self,Option.some.injEq] at hv
        simp only [update_of_ne hwv] at hw
        subst hv
        exact absurd hw (hready w)
    · rcases eq_or_ne w u with rfl | hwu
      · simp only [update_self,Option.some.injEq] at hw
        simp only [update_of_ne hvu] at hv
        subst hw
        exact absurd hv (hready v)
      · simp only [update_of_ne hvu] at hv
        simp only [update_of_ne hwu] at hw
        exact h.alone v w e hv hw
  · have hed : e ≠ d := by
      rintro rfl
      simp at he
    rcases eq_or_ne e c with rfl | hec
    · simp only [update_of_ne hed,update_self,Option.some.injEq] at he
      subst he
      have h2 := hb.pointer
      have hroom := hc.room
      have hin := hc.inside
      have e16 : ((s.regs u).reg .esp - 16).toNat = ((s.regs u).reg .esp).toNat - 16 :=
        UInt32.toNat_sub_of_le _ 16 (UInt32.le_iff_toNat_le.mpr (by simp; omega))
      refine ⟨lo,hi,hc.stack,?_,?_,?_,?_⟩
      · rw [h2,e16]
        omega
      · rw [h2,e16]
        change _ ≤ s.limit e hi
        omega
      · rw [h2]
        exact hb.context
      · rw [h2]
        grind
    · simp only [update_of_ne hed,update_of_ne hec] at he
      obtain ⟨h1,h2⟩ := hc.spares h hb hec
      exact h.saved_congr he h1 h2
  · have hf : s.child e = some f := he
    refine h.frames_congr hf (fun lo' hi' x hs h1 h2 => ?_)
    obtain ⟨lo'',hi'',hs',hle,-⟩ := h.frames e f hf
    rw [hs] at hs'
    cases hs'
    rcases eq_or_ne e c with rfl | hec
    · obtain ⟨rfl,rfl⟩ : lo' = lo ∧ hi' = hi := by simpa [hs] using hc.stack
      have hin := hc.inside
      have hlim : s.limit e hi' = hi' - 80 := by simp [State.limit,hf]
      have hslot := h.slots e e lo' hi' hs
      exact hb.rest x (by omega) (by omega)
    · exact (hc.spares h hb hec).2 lo' hi' x hs (by omega) h2

theorem Inv.leave {r : Registers} (h : Inv L W s) (c : C) : Inv L W { s with
      regs := update s.regs u r
      child := update s.child c none } := by
  refine ⟨h.live,h.alone,h.below,h.regions,h.slots,fun d v hd => ?_,fun d f hd => ?_⟩
  · obtain ⟨lo,hi,hs,h1,h2,h3⟩ := h.saved d v hd
    refine ⟨lo,hi,hs,h1,h2.trans ?_,h3⟩
    simp only [State.limit]
    rcases eq_or_ne d c with rfl | hdc
    · simp only [update_self,Option.isSome_none,Bool.false_eq_true,↓reduceIte]
      split_ifs
      · omega
      · exact le_rfl
    · simp [hdc]
  · have hdc : d ≠ c := by
      rintro rfl
      simp at hd
    exact h.frames d f (by simpa [hdc] using hd)

theorem Inv.step {e : Event U C} (h : Inv L W s) (he : step L W s e t) : Inv L W t := by
  cases e with
  | work u b r =>
    obtain ⟨c,hc,hs,rfl⟩ := he
    exact h.work hc hs
  | fork u d k tf =>
    obtain ⟨hf,rfl⟩ := he
    exact h.fork hf
  | swtch u d =>
    obtain ⟨c,lo,hi,hc,rfl⟩ := he
    exact h.swtch hc (hc.leaves h)
  | forkret u =>
    obtain ⟨c,lo,hi,-,-,-,-,-,rfl⟩ := he
    exact h.leave c
  | free d =>
    obtain ⟨hd,rfl⟩ := he
    exact h.free hd

/-- In every run a context that is switched to has the registers, stack pointer and return
address with which it switched out. For the child of a fork these make it enter forkret;
and when forkret returns, trapret starts it with the frame of its parent but eax. -/
theorem contexts_resume {s₀ : State U C} {es : List (Event U C)} (h₀ : Start W s₀)
    (hr : Runs (step L W) s₀ es s) :
    (∀ u d t v, step L W s (.swtch u d) t → s.out d = some v → GivesBack (t.regs u) v) ∧
    (∀ u d k tf t, step L W s (.fork u d k tf) t → ∃ v, t.out d = some v ∧ v.eip = L.forkret ∧
      t.child d = some (trapframeAt s.mem tf)) ∧
    ∀ u c f t, s.running u = some c → s.child c = some f → step L W s (.forkret u) t →
      ((s.machine u).exec [.ret]).eip = L.trapret ∧ Resumes (t.regs u) { f with eax := 0 } := by
  have h : Inv L W s := hr.invariant (I := Inv L W) h₀.inv (fun _ _ _ ha he => ha.step he)
  refine ⟨?_,?_,?_⟩
  · rintro u d t v ⟨c,lo,hi,hc,rfl⟩ hv
    simp only [update_self]
    exact hc.gives_back h hv
  · rintro u d k tf t ⟨hf,rfl⟩
    exact ⟨⟨⟨0,0,0,0,L.forkret⟩,k + 4016⟩,by simp,rfl,by simp⟩
  · rintro u c f t hu hf ⟨c',lo,hi,hu',hs,-,hesp,hcs,rfl⟩
    rw [hu] at hu'
    cases hu'
    simp only [update_self]
    exact h.resumes hs hf hesp hcs

def twoSlots : Slots Bool where
  slot c := if c then 0x1004 else 0x1000
  below := by decide
  apart := by decide

def oneScheduler : State Unit Bool where
  mem x := if x = 0x1083C then 3 else 0
  regs _ := ⟨fun _ => 0,fun _ => 0,0,0⟩
  running _ := some false
  stack c := if c then none else some (0x10000,0x11000)
  out _ := none
  child _ := none

theorem oneScheduler_start : Start twoSlots oneScheduler := by
  refine ⟨fun u => ⟨false,_,_,rfl,rfl,by decide⟩,fun _ _ _ _ _ => rfl,?_,?_,?_,fun _ => rfl,fun _ => rfl⟩
  · intro c d lo hi lo' hi' hcd hc hd
    cases c <;> cases d <;> simp [oneScheduler] at hcd hc hd
  · intro c d lo hi hc
    cases c
    · simp only [oneScheduler,Bool.false_eq_true,↓reduceIte,Option.some.injEq,Prod.mk.injEq] at hc
      obtain ⟨rfl,rfl⟩ := hc
      revert d
      decide
    · simp [oneScheduler] at hc
  · intro c hc
    cases c
    · exact ⟨(),rfl⟩
    · simp [oneScheduler] at hc

theorem oneScheduler_fresh : Fresh twoSlots oneScheduler () true 0x20000 0x10800 := by
  refine ⟨rfl,fun v hv => ?_,by decide,fun e lo hi he => ?_,by decide,
    ⟨false,_,_,rfl,rfl,by decide,by decide⟩,by decide⟩
  · cases hv
  · cases e
    · simp only [oneScheduler,Bool.false_eq_true,↓reduceIte,Option.some.injEq,Prod.mk.injEq] at he
      obtain ⟨rfl,rfl⟩ := he
      decide
    · simp [oneScheduler] at he

def linked : Symbols := ⟨0x80101000,0x80102000⟩

theorem contexts_resume_fork : ∃ s,
    Runs (step linked twoSlots) oneScheduler [.fork () true 0x20000 0x10800] s ∧
    ∀ u d t v, step linked twoSlots s (.swtch u d) t → s.out d = some v → GivesBack (t.regs u) v := by
  have hr : Runs (step linked twoSlots) oneScheduler [.fork () true 0x20000 0x10800] _ :=
    Runs.one ⟨oneScheduler_fresh,rfl⟩
  exact ⟨_,hr,(contexts_resume oneScheduler_start hr).1⟩

end UoDOS.ContextSwitch
