import UoDOS.Buffer.BufferRecency

/-! # When diskBufferGet runs out of buffers

A process that reads holds or waits for one buffer at a time, so there can be as many buffers in
use as there are processes inside a read.
-/
namespace UoDOS.Buffers
open Transition

variable {P : Type} [DecidableEq P]

/-- The moves of processes that only read, one buffer at a time. -/
def onlyReads (s : System P) : Move P → Bool
  | .get p _ _ => decide (∀ b, (s.user p).holds b = false)
  | .write _ _ => false
  | _ => true

def readStep (s : System P) (m : Move P) : Option (System P) := if onlyReads s m then step s m else none

theorem step_of_readStep {s t : System P} {m : Move P} (h : readStep s m = some t) :
    onlyReads s m = true ∧ step s m = some t := by
  unfold readStep at h
  split_ifs at h with hm
  exact ⟨hm,h⟩

def Clean (c : Cache) : Prop := ∀ b, (c.buffer b).Flags &&& B_DIRTY = 0

theorem Clean.modify {c : Cache} {b : Fin NBUF} {f : DiskBuffer → DiskBuffer} (h : Clean c)
    (hf : (f (c.buffer b)).Flags &&& B_DIRTY = 0) : Clean (c.modify b f) := by
  intro a
  rw [modify_buffer]
  split_ifs
  · exact hf
  · exact h a

theorem Clean.put {c : Cache} {b : Fin NBUF} (h : Clean c) : Clean (diskBufferPut c b) := by
  intro a
  rw [diskBufferPut_buffer]
  split_ifs
  · exact h b
  · exact h a

theorem Clean.step {s t : System P} {m : Move P} {L : List (Fin NBUF)} (h : Clean s.cache)
    (ho : s.cache.Ordered L) (hm : onlyReads s m = true) (he : Effect s m t) : Clean t.cache := by
  have hflags : ∀ b f, (f (s.cache.buffer b)).Flags = (s.cache.buffer b).Flags → Clean (s.cache.modify b f) :=
    fun b f hf => h.modify (hf ▸ h b)
  cases he with
  | @get p dev sectorNumber b c hp hg =>
    rcases diskBufferGet_cases ho.lists hg with ⟨-,rfl⟩ | ⟨-,-,rfl⟩
    · exact hflags b (fun x => { x with ReferenceCount := x.ReferenceCount + 1 }) rfl
    · exact h.modify (f := fun _ => ⟨0,dev,sectorNumber,_,1⟩) BitVec.zero_and
  | @lock p b hp hl => exact hflags b (fun x => { x with Locked := true }) rfl
  | write hh => cases hm
  | @complete b hl =>
    apply h.modify (f := fun x => { x with Flags := (x.Flags ||| B_VALID) &&& ~~~B_DIRTY })
    rw [BitVec.and_assoc,show ~~~B_DIRTY &&& B_DIRTY = 0 by decide]
    exact BitVec.and_zero
  | @release p b hp hh => exact hflags b (fun x => { x with Locked := false }) rfl
  | put hp => exact h.put

def Single (s : System P) : Prop := ∀ p a b, (s.user p).Uses a → (s.user p).Uses b → a = b

theorem Single.set {s : System P} {c : Cache} {p : P} {u : User} (h : Single s)
    (hu : ∀ a b, u.Uses a → u.Uses b → a = b) : Single (s.set c p u) := by
  intro q a b ha hb
  by_cases hq : q = p
  · subst hq
    simp only [set_user,Function.update_self] at ha hb
    exact hu a b ha hb
  · simp only [set_user,Function.update_of_ne hq] at ha hb
    exact h q a b ha hb

theorem Single.step {s t : System P} {m : Move P} (h : Single s) (hm : onlyReads s m = true)
    (he : Effect s m t) : Single t := by
  cases he with
  | @get p dev sectorNumber b c hp hg =>
    have hnone : ∀ a, (s.user p).holds a = false := of_decide_eq_true hm
    apply h.set
    intro x y hx hy
    simp only [User.Uses,goTo_holds,hnone,goTo_place,Place.wants.injEq] at hx hy
    simp_all
  | @lock p b hp hl =>
    have huse : ∀ a, (s.user p).Uses a → a = b := fun a ha => h p a b ha (.inr (.inl hp))
    have honly : ∀ a, (⟨.idle,Function.update (s.user p).holds b true⟩ : User).Uses a → a = b := by
      intro a ha
      by_contra hab
      exact hab (huse a (.inl (by simpa [User.Uses,hab] using ha)))
    exact h.set (fun x y hx hy => (honly x hx).trans (honly y hy).symm)
  | write hh => cases hm
  | complete hl => exact h
  | @release p b hp hh =>
    have huse : ∀ a, (s.user p).Uses a → a = b := fun a ha => h p a b ha (.inl hh)
    have honly : ∀ a, (⟨.drops b,Function.update (s.user p).holds b false⟩ : User).Uses a → a = b := by
      intro a ha
      by_contra hab
      exact hab (huse a (.inl (by simpa [User.Uses,hab,Ne.symm hab] using ha)))
    exact h.set (fun x y hx hy => (honly x hx).trans (honly y hy).symm)
  | @put p b hp =>
    apply h.set
    intro x y hx hy
    simp only [User.Uses,goTo_holds,goTo_place] at hx hy
    exact h p x y (.inl (by simpa using hx)) (.inl (by simpa using hy))

section Demand
variable [Fintype P]

omit [DecidableEq P] in
theorem Single.buffer_left {s : System P} (h : Single s)
    (hc : (Finset.univ.filter fun q => ∃ b, (s.user q).Uses b).card < NBUF) :
    ∃ b, ∀ q, ¬ (s.user q).Uses b := by
  by_contra hall
  push Not at hall
  choose f hf using hall
  have hinj : Function.Injective f := fun a b hab => h (f a) a b (hf a) (by rw [hab]; exact hf b)
  have hmaps : ∀ b ∈ (Finset.univ : Finset (Fin NBUF)),
      f b ∈ Finset.univ.filter fun q => ∃ b, (s.user q).Uses b := fun b _ => by
    simpa using ⟨b,hf b⟩
  have hle := Finset.card_le_card_of_injOn f hmaps hinj.injOn
  simp only [Finset.card_univ,Fintype.card_fin] at hle
  omega

theorem reads_consistent {s : System P} {ms : List (Move P)} (h : Runs (graph readStep) (initialSystem P) ms s) :
    Consistent s ∧ Clean s.cache ∧ Single s := by
  refine h.invariant (I := fun s => Consistent s ∧ Clean s.cache ∧ Single s)
    ⟨⟨⟨_,diskBufferCacheInitialise_ordered⟩,initialSystem_accounted⟩,fun _ => BitVec.zero_and,?_⟩ ?_
  · rintro p a b (ha | ha | ha) <;> cases ha
  · rintro a m b ⟨⟨⟨L,ho⟩,ha⟩,hd,hs⟩ he
    obtain ⟨hm,he⟩ := step_of_readStep he
    have heff := effect_of_step he
    exact ⟨Consistent.step ⟨⟨L,ho⟩,ha⟩ heff,hd.step ho hm heff,hs.step hm heff⟩

/-- In every state that reads reach, diskBufferGet returns a buffer exactly when one
carries the sector already or one is used by no process, and panics otherwise. It
returns whenever fewer than NBUF processes are inside a read. -/
theorem get_returns_iff_buffer_left {s : System P} {ms : List (Move P)}
    (h : Runs (graph readStep) (initialSystem P) ms s) (dev sectorNumber : BitVec 32) :
    ((∃ r, diskBufferGet s.cache dev sectorNumber = .ok r) ↔
      (∃ b, (s.cache.buffer b).key = (dev,sectorNumber)) ∨ ∃ b, ∀ q, ¬ (s.user q).Uses b) ∧
    ((Finset.univ.filter fun q => ∃ b, (s.user q).Uses b).card < NBUF →
      ∃ r, diskBufferGet s.cache dev sectorNumber = .ok r) ∧
    (¬ (∃ r, diskBufferGet s.cache dev sectorNumber = .ok r) →
      diskBufferGet s.cache dev sectorNumber = .error (.panic "diskBufferGet: no buffers")) := by
  obtain ⟨⟨⟨L,ho⟩,ha⟩,hclean,hsingle⟩ := reads_consistent h
  have hfree : ∀ b, s.cache.recyclable b = true ↔ ∀ q, ¬ (s.user q).Uses b := by
    intro b
    rw [recyclable_iff,ha.unreferenced_iff]
    exact and_iff_left (hclean b)
  have hcases : ((∃ r, diskBufferGet s.cache dev sectorNumber = .ok r) ∧
      ((∃ b, (s.cache.buffer b).key = (dev,sectorNumber)) ∨ ∃ b, ∀ q, ¬ (s.user q).Uses b)) ∨
      (diskBufferGet s.cache dev sectorNumber = .error (.panic "diskBufferGet: no buffers") ∧
        ¬ ((∃ b, (s.cache.buffer b).key = (dev,sectorNumber)) ∨ ∃ b, ∀ q, ¬ (s.user q).Uses b)) := by
    rw [diskBufferGet_eq ho.lists]
    cases hk : L.find? (s.cache.carries dev sectorNumber) with
    | some b => exact .inl ⟨⟨_,rfl⟩,.inl ⟨b,carries_iff.mp (List.find?_some hk)⟩⟩
    | none =>
      cases hr : L.reverse.find? s.cache.recyclable with
      | some b => exact .inl ⟨⟨_,rfl⟩,.inr ⟨b,(hfree b).mp (List.find?_some hr)⟩⟩
      | none =>
        refine .inr ⟨rfl,?_⟩
        rintro (⟨b,hb⟩ | ⟨b,hb⟩)
        · exact List.find?_eq_none.mp hk b (ho.complete b) (carries_iff.mpr hb)
        · exact List.find?_eq_none.mp hr b (by simp [ho.complete b]) ((hfree b).mpr hb)
  rcases hcases with ⟨hr,hc⟩ | ⟨hp,hc⟩
  · exact ⟨iff_of_true hr hc,fun _ => hr,fun hn => absurd hr hn⟩
  · have hn : ¬ ∃ r, diskBufferGet s.cache dev sectorNumber = .ok r := by
      rintro ⟨r,hr⟩
      rw [hp] at hr
      cases hr
    exact ⟨iff_of_false hn hc,fun hlt => absurd (.inr (hsingle.buffer_left hlt)) hc,fun _ => hp⟩

end Demand

theorem get_returns_iff_buffer_left_second : ∃ s : System (Fin 2),
    Runs (graph readStep) (initialSystem (Fin 2)) [.get 0 0 5] s ∧ (s.user 0).place = .wants ⟨0,by decide⟩ ∧
    ∃ r, diskBufferGet s.cache 0 6 = .ok r := by
  have h : Runs (graph readStep) (initialSystem (Fin 2)) [.get 0 0 5] _ :=
    Runs.of_execute (Option.some_get (by rfl)).symm
  refine ⟨_,h,by rfl,(get_returns_iff_buffer_left h 0 6).2.1 ?_⟩
  exact lt_of_le_of_lt (Finset.card_le_univ _) (by decide)

def crowd : List (Move (Fin NPROC)) :=
  (List.finRange NBUF).map fun (b : Fin NBUF) => .get (b.castLE (by decide)) 0 (BitVec.ofNat 32 (b + 1))

/-- The next process finds no buffer although no process holds more than one. -/
theorem crowd_takes_all_buffers : ∃ (s : System (Fin NPROC)) (p : Fin NPROC),
    Runs (graph readStep) (initialSystem (Fin NPROC)) crowd s ∧
    (s.user p).place = .idle ∧ (∀ b, (s.user p).holds b = false) ∧
    diskBufferGet s.cache 0 31 = .error (.panic "diskBufferGet: no buffers") := by
  obtain ⟨s,hs⟩ : ∃ s, execute readStep (initialSystem (Fin NPROC)) crowd = some s := by
    apply Option.isSome_iff_exists.mp
    decide +kernel
  have hp : (execute readStep (initialSystem (Fin NPROC)) crowd).all (fun s =>
      decide ((s.user ⟨30,by decide⟩).place = .idle ∧ ∀ b, (s.user ⟨30,by decide⟩).holds b = false)) = true := by
    decide +kernel
  have hget : (execute readStep (initialSystem (Fin NPROC)) crowd).all (fun s =>
      match diskBufferGet s.cache 0 31 with
      | .error (.panic text) => text == "diskBufferGet: no buffers"
      | _ => false) = true := by
    decide +kernel
  rw [hs,Option.all_some] at hp hget
  obtain ⟨hidle,hholds⟩ := of_decide_eq_true hp
  refine ⟨s,⟨30,by decide⟩,Runs.of_execute hs,hidle,hholds,?_⟩
  split at hget
  · rename_i text ht
    rw [ht,eq_of_beq hget]
  · cases hget

end UoDOS.Buffers
