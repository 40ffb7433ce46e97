import UoDOS.Buffer.BufferOrder

/-! # Which buffer a miss recycles

A history variable records when each ReferenceCount last fell to 0.
-/
namespace UoDOS.Buffers
open CircularList Transition

variable {P : Type}
  {L : List (Fin NBUF)} {b : Fin NBUF}

/-- The cache and its users with the times of the falls; `⊥` stands for never. -/
structure Timed (P : Type) where
  system : System P
  clock : ℕ
  fell : Fin NBUF → WithBot ℕ

def fallTimes (s : Timed P) (t : System P) (b : Fin NBUF) : WithBot ℕ :=
  if (s.system.cache.buffer b).ReferenceCount ≠ 0 ∧ (t.cache.buffer b).ReferenceCount = 0 then s.clock
  else s.fell b

def timedStep [DecidableEq P] (s : Timed P) (m : Move P) : Option (Timed P) :=
  (step s.system m).map fun t => ⟨t,s.clock + 1,fallTimes s t⟩

def initialTimed (P : Type) : Timed P := ⟨initialSystem P,0,fun _ => ⊥⟩

def Before (x y : WithBot ℕ) : Prop := x < y ∨ (x = ⊥ ∧ y = ⊥)

structure Timed.Sorted (s : Timed P) (L : List (Fin NBUF)) : Prop where
  ordered : s.system.cache.Ordered L
  times : L.Pairwise fun a b => Before (s.fell b) (s.fell a)
  past : ∀ b, s.fell b < s.clock

theorem Timed.Sorted.still {s : Timed P} {t : System P} (h : s.Sorted L)
    (ho : t.cache.Ordered L)
    (hr : ∀ b, (t.cache.buffer b).ReferenceCount = 0 → (s.system.cache.buffer b).ReferenceCount = 0) :
    Timed.Sorted ⟨t,s.clock + 1,fallTimes s t⟩ L := by
  have hf : fallTimes s t = s.fell := by
    funext b
    exact if_neg (fun hb => hb.1 (hr b hb.2))
  refine ⟨ho,?_,fun b => ?_⟩
  · rw [hf]
    exact h.times
  · rw [hf]
    exact (h.past b).trans (by exact_mod_cast Nat.lt_succ_self s.clock)

theorem diskBufferPut_buffer (c : Cache) (b a : Fin NBUF) : (diskBufferPut c b).buffer a =
    if a = b then { c.buffer b with ReferenceCount := (c.buffer b).ReferenceCount - 1 } else c.buffer a := by
  simp only [diskBufferPut]
  split_ifs with hz ha
  · simp [ha]
  · simp [ha]
  · simp_all
  · simp_all

theorem Timed.Sorted.fall {s : Timed P} {t : System P} (h : s.Sorted L)
    (ht : t.cache = diskBufferPut s.system.cache b)
    (hb : (s.system.cache.buffer b).ReferenceCount = 1) :
    Timed.Sorted ⟨t,s.clock + 1,fallTimes s t⟩ (b :: L.erase b) := by
  have hfell : fallTimes s t b = s.clock := if_pos ⟨by omega,by simp [ht,diskBufferPut_buffer,hb]⟩
  have hkeep : ∀ a, a ≠ b → fallTimes s t a = s.fell a := by
    intro a ha
    apply if_neg
    rintro ⟨hn,hz⟩
    simp [ht,diskBufferPut_buffer,ha] at hz
    exact hn hz
  have hlt : ∀ a, a ≠ b → fallTimes s t a < fallTimes s t b := by
    intro a ha
    rw [hfell,hkeep a ha]
    exact h.past a
  refine ⟨by rw [ht]; exact h.ordered.put_last hb,List.pairwise_cons.mpr ⟨fun a ha => .inl (hlt a ?_),?_⟩,fun a => ?_⟩
  · exact fun hab => (h.ordered.lists.1.mem_erase_iff.mp ha).1 hab
  · refine (h.times.sublist List.erase_sublist).imp_of_mem (fun {x y} hx hy hxy => ?_)
    have hxb := (h.ordered.lists.1.mem_erase_iff.mp hx).1
    have hyb := (h.ordered.lists.1.mem_erase_iff.mp hy).1
    simpa only [hkeep x hxb,hkeep y hyb] using hxy
  · have hc : ((s.clock : ℕ) : WithBot ℕ) < ((s.clock + 1 : ℕ) : WithBot ℕ) := by
      exact_mod_cast Nat.lt_succ_self s.clock
    by_cases hab : a = b
    · rw [hab]
      exact hfell.trans_lt hc
    · exact (hkeep a hab).trans_lt ((h.past a).trans hc)

theorem Timed.Sorted.touch {s : Timed P} {t : System P}
    {f : DiskBuffer → DiskBuffer} (h : s.Sorted L) (ht : t.cache = s.system.cache.modify b f)
    (hb : 0 < (s.system.cache.buffer b).ReferenceCount) (hk : ∀ x, (f x).key = x.key)
    (hr : ∀ x, (f x).ReferenceCount = x.ReferenceCount) : Timed.Sorted ⟨t,s.clock + 1,fallTimes s t⟩ L := by
  refine h.still (by rw [ht]; exact h.ordered.touch hb (hk _)) (fun a hz => ?_)
  rw [ht,modify_buffer] at hz
  split_ifs at hz with hab
  · rw [hab,← hr]
    exact hz
  · exact hz

theorem diskBufferGet_count {c c' : Cache} (hl : c.links.Lists L)
    {dev sectorNumber : BitVec 32} {a : Fin NBUF} (h : diskBufferGet c dev sectorNumber = .ok (b,c'))
    (hz : (c'.buffer a).ReferenceCount = 0) : (c.buffer a).ReferenceCount = 0 := by
  rcases diskBufferGet_cases hl h with ⟨-,rfl⟩ | ⟨-,-,rfl⟩
  · by_cases hab : a = b
    · simp [hab] at hz
    · simpa [hab] using hz
  · by_cases hab : a = b
    · simp [hab] at hz
    · simpa [hab] using hz

theorem Effect.key_kept [DecidableEq P] {s t : System P} {m : Move P} (he : Effect s m t)
    (ho : s.cache.Ordered L) (hb : (s.cache.buffer b).ReferenceCount ≠ 0) :
    (t.cache.buffer b).key = (s.cache.buffer b).key := by
  have hmod : ∀ {a : Fin NBUF} {f : DiskBuffer → DiskBuffer}, (f (s.cache.buffer a)).key = (s.cache.buffer a).key →
      ((s.cache.modify a f).buffer b).key = (s.cache.buffer b).key := by
    intro a f hf
    rw [modify_buffer]
    split_ifs with hab
    · rw [hf,hab]
    · rfl
  cases he with
  | @get p dev sectorNumber a c hp hg =>
    rcases diskBufferGet_cases ho.lists hg with ⟨-,rfl⟩ | ⟨-,hz,rfl⟩
    · exact hmod (f := fun x => { x with ReferenceCount := x.ReferenceCount + 1 }) rfl
    · have hab : b ≠ a := fun hab => hb (hab ▸ hz)
      simp [hab]
  | lock hp hl => exact hmod (f := fun x => { x with Locked := true }) rfl
  | write hh => exact hmod (f := fun x => { x with Flags := x.Flags ||| B_DIRTY }) rfl
  | complete hl => exact hmod (f := fun x => { x with Flags := (x.Flags ||| B_VALID) &&& ~~~B_DIRTY }) rfl
  | release hp hh => exact hmod (f := fun x => { x with Locked := false }) rfl
  | @put p a hp =>
    simp only [set_cache,diskBufferPut_buffer]
    split_ifs with hab
    · rw [hab]; rfl
    · rfl

theorem recycled_is_earliest {s : Timed P} (h : s.Sorted L)
    (hb : L.reverse.find? s.system.cache.recyclable = some b) {a : Fin NBUF} (hab : a ≠ b)
    (ha : s.system.cache.recyclable a = true) : Before (s.fell b) (s.fell a) := by
  obtain ⟨-,A,B,hL,hA⟩ := List.find?_eq_some_iff_append.mp hb
  have hL' : L = B.reverse ++ b :: A.reverse := by
    rw [← List.reverse_reverse L,hL]
    simp
  have haB : a ∈ B.reverse := by
    have hm : a ∈ B.reverse ++ b :: A.reverse := hL' ▸ h.ordered.complete a
    rcases List.mem_append.mp hm with hm | hm
    · exact hm
    · rcases List.mem_cons.mp hm with hm | hm
      · exact absurd hm hab
      · have := hA a (List.mem_reverse.mp hm)
        simp [ha] at this
  have ht := h.times
  rw [hL'] at ht
  exact (List.pairwise_append.mp ht).2.2 a haB b (by simp)

theorem diskBufferGet_key {c c' : Cache} (hl : c.links.Lists L)
    {dev sectorNumber : BitVec 32} (h : diskBufferGet c dev sectorNumber = .ok (b,c')) :
    (c'.buffer b).key = (dev,sectorNumber) := by
  rw [diskBufferGet_eq hl] at h
  cases hf : L.find? (c.carries dev sectorNumber) with
  | some a =>
    rw [hf] at h
    cases h
    simpa [DiskBuffer.key] using carries_iff.mp (List.find?_some hf)
  | none =>
    rw [hf] at h
    dsimp only at h
    cases hr : L.reverse.find? c.recyclable with
    | none => rw [hr] at h; cases h
    | some a =>
      rw [hr] at h
      cases h
      simp [DiskBuffer.key]

section Runs
variable [DecidableEq P] [Fintype P]

theorem Timed.Sorted.step {s : Timed P} {t : System P} {m : Move P} (h : s.Sorted L)
    (ha : Accounted s.system) (he : Effect s.system m t) :
    ∃ L', Timed.Sorted ⟨t,s.clock + 1,fallTimes s t⟩ L' := by
  have href : ∀ {p b}, 0 < (s.system.user p).references b → 0 < (s.system.cache.buffer b).ReferenceCount :=
    fun hr => ha.referenced hr
  cases he with
  | get hp hg => exact ⟨L,h.still (h.ordered.get hg) (fun a => diskBufferGet_count h.ordered.lists hg)⟩
  | @lock p b hp hl =>
    have hb := href (p := p) (b := b) (by simp [User.references,hp])
    exact ⟨L,h.touch (f := fun x => { x with Locked := true }) rfl hb
      (fun _ => rfl) (fun _ => rfl)⟩
  | @write p b hh =>
    have hb := href (p := p) (b := b) (by simp [User.references,hh])
    exact ⟨L,h.touch (f := fun x => { x with Flags := x.Flags ||| B_DIRTY }) rfl hb
      (fun _ => rfl) (fun _ => rfl)⟩
  | @complete b hl =>
    obtain ⟨p,hh⟩ := (ha.locked b).mp hl
    have hb := href (p := p) (b := b) (by simp [User.references,hh])
    exact ⟨L,h.touch (f := fun x => { x with Flags := (x.Flags ||| B_VALID) &&& ~~~B_DIRTY }) rfl hb
      (fun _ => rfl) (fun _ => rfl)⟩
  | @release p b hp hh =>
    have hb := href (p := p) (b := b) (by simp [User.references,hh])
    exact ⟨L,h.touch (f := fun x => { x with Locked := false }) rfl hb
      (fun _ => rfl) (fun _ => rfl)⟩
  | @put p b hp =>
    have hb := href (p := p) (b := b) (by simp [User.references,hp])
    rcases Nat.lt_or_eq_of_le (Nat.one_le_iff_ne_zero.mpr hb.ne') with hm | hone
    · refine ⟨L,h.still (h.ordered.put_shared hm) (fun a hz => ?_)⟩
      simp only [set_cache,diskBufferPut_buffer] at hz
      split_ifs at hz with hab
      · simp only at hz
        omega
      · exact hz
    · exact ⟨_,h.fall rfl hone.symm⟩

def Parted (s : System P) : Prop := ∀ p b, (s.user p).place = .drops b → (s.user p).holds b = false

omit [Fintype P] in
theorem Parted.step {s t : System P} {m : Move P} (h : Parted s) (he : Effect s m t) : Parted t := by
  have hone : ∀ (c : Cache) (p : P) (u : User), (∀ b, u.place = .drops b → u.holds b = false) →
      Parted (s.set c p u) := by
    intro c p u hu q b hq
    by_cases hqp : q = p
    · subst hqp
      simp only [set_user,Function.update_self] at hq ⊢
      exact hu b hq
    · simp only [set_user,Function.update_of_ne hqp] at hq ⊢
      exact h q b hq
  cases he with
  | get hp hg => exact hone _ _ _ (by simp)
  | lock hp hl => exact hone _ _ _ (by simp)
  | write hh => exact h
  | complete hl => exact h
  | @release p b hp hh =>
    apply hone
    rintro a ha
    cases ha
    simp
  | put hp => exact hone _ _ _ (by simp)

def Timed.Kept (s : Timed P) : Prop := (∃ L, s.Sorted L) ∧ Accounted s.system ∧ Parted s.system

theorem Timed.Kept.of_runs {s : Timed P} {ms : List (Move P)}
    (h : Runs (graph timedStep) (initialTimed P) ms s) : s.Kept := by
  refine h.invariant ⟨⟨_,diskBufferCacheInitialise_ordered,?_,fun _ => ?_⟩,initialSystem_accounted,?_⟩ ?_
  · exact List.pairwise_of_forall (fun _ _ => .inr ⟨rfl,rfl⟩)
  · exact WithBot.bot_lt_coe 0
  · intro p b hp
    cases hp
  · rintro a m b ⟨⟨L,hs⟩,ha,hp⟩ he
    obtain ⟨t,ht,rfl⟩ := Option.map_eq_some_iff.mp he
    have heff := effect_of_step ht
    have hc : Consistent t := Consistent.step ⟨⟨L,hs.ordered⟩,ha⟩ heff
    exact ⟨hs.step ha heff,hc.2,hp.step heff⟩

instance (u : User) (b : Fin NBUF) : Decidable (u.Uses b) := by
  unfold User.Uses
  infer_instance

omit [DecidableEq P] [Fintype P] in
theorem references_eq {s : System P} (h : Parted s) {p : P}
    (hw : ¬ ((s.user p).holds b = true ∧ (s.user p).place = .wants b)) :
    (s.user p).references b = if (s.user p).Uses b then 1 else 0 := by
  have hd := h p b
  cases hh : (s.user p).holds b with
  | false => simp [User.references,User.Uses,hh]
  | true =>
    have h1 : (s.user p).place ≠ .wants b := fun hp => hw ⟨hh,hp⟩
    have h2 : (s.user p).place ≠ .drops b := fun hp => by simp [hh] at hd; exact hd hp
    simp [User.references,User.Uses,hh,h1,h2]

omit [DecidableEq P] in
theorem Accounted.unreferenced_iff {s : System P} (h : Accounted s) :
    (s.cache.buffer b).ReferenceCount = 0 ↔ ∀ q, ¬ (s.user q).Uses b := by
  have hone : ∀ u : User, u.references b = 0 ↔ ¬ u.Uses b := by
    intro u
    cases hh : u.holds b <;> simp [User.references,User.Uses,hh]
  simp only [h.counted,Finset.sum_eq_zero_iff,Finset.mem_univ,true_implies,hone]

/-- In every state that gets and releases reach: the list holds each buffer once, in
both directions; ReferenceCount is the number of uses between a get and the end of
its release, which is the number of processes where none waits for a buffer it holds
itself; a miss recycles a clean unused buffer whose count fell to 0 before that of
all others, never-used ones first; no buffer in use gets another sector. -/
theorem buffers_are_recycled_in_order {s : Timed P} {ms : List (Move P)}
    (h : Runs (graph timedStep) (initialTimed P) ms s) :
    (∃ L : List (Fin NBUF), (∀ b, L.count b = 1) ∧
      visit s.system.cache.links.Next (NBUF + 1) (s.system.cache.links.Next none) = some L ∧
      visit s.system.cache.links.Previous (NBUF + 1) (s.system.cache.links.Previous none) = some L.reverse) ∧
    (∀ b, (s.system.cache.buffer b).ReferenceCount = ∑ p, (s.system.user p).references b) ∧
    (∀ b, (∀ p, ¬ ((s.system.user p).holds b = true ∧ (s.system.user p).place = .wants b)) →
      (s.system.cache.buffer b).ReferenceCount = (Finset.univ.filter fun p => (s.system.user p).Uses b).card) ∧
    (∀ dev sectorNumber b c, diskBufferGet s.system.cache dev sectorNumber = .ok (b,c) →
      (∀ a, (s.system.cache.buffer a).key ≠ (dev,sectorNumber)) →
      s.system.cache.recyclable b = true ∧
      ∀ a, a ≠ b → s.system.cache.recyclable a = true → Before (s.fell b) (s.fell a)) ∧
    ∀ m t, step s.system m = some t → ∀ b, (s.system.cache.buffer b).ReferenceCount ≠ 0 →
      (t.cache.buffer b).key = (s.system.cache.buffer b).key := by
  obtain ⟨⟨L,hs⟩,ha,hp⟩ := Timed.Kept.of_runs h
  have hlen : L.length < NBUF + 1 := by
    have := hs.ordered.lists.1.length_le_card
    simp only [Fintype.card_fin] at this
    omega
  refine ⟨⟨L,fun b => ?_,?_,?_⟩,ha.counted,fun b hb => ?_,fun dev sectorNumber b c hg hmiss => ?_,
    fun m t ht b hb => (effect_of_step ht).key_kept hs.ordered hb⟩
  · exact List.count_eq_one_of_mem hs.ordered.lists.1 (hs.ordered.complete b)
  · exact visit_next hs.ordered.lists.2 hlen
  · exact visit_previous hs.ordered.lists.2 hlen
  · rw [ha.counted,Finset.card_filter]
    exact Finset.sum_congr rfl (fun p _ => references_eq hp (hb p))
  · have hnone : L.find? (s.system.cache.carries dev sectorNumber) = none := by
      apply List.find?_eq_none.mpr
      exact fun a _ hk => hmiss a (carries_iff.mp hk)
    rw [diskBufferGet_eq hs.ordered.lists,hnone] at hg
    cases hf : L.reverse.find? s.system.cache.recyclable with
    | none => simp [hf] at hg
    | some x =>
      simp only [hf] at hg
      cases hg
      exact ⟨List.find?_some hf,fun a hab hra => recycled_is_earliest hs hf hab hra⟩

def onceUsed : List (Move (Fin 2)) :=
  [.get 0 0 5,.lock 0,.complete ⟨0,by decide⟩,.release 0 ⟨0,by decide⟩,.put 0]

theorem buffers_are_recycled_in_order_onceUsed : ∃ s : Timed (Fin 2),
    Runs (graph timedStep) (initialTimed (Fin 2)) onceUsed s ∧ s.fell ⟨0,by decide⟩ = (4 : ℕ) ∧
    ∃ r, diskBufferGet s.system.cache 0 7 = .ok r ∧ s.system.cache.recyclable r.1 = true ∧
      ∀ a, a ≠ r.1 → s.system.cache.recyclable a = true → Before (s.fell r.1) (s.fell a) := by
  obtain ⟨s,hs⟩ : ∃ s, execute timedStep (initialTimed (Fin 2)) onceUsed = some s := ⟨_,rfl⟩
  have hkeys : (execute timedStep (initialTimed (Fin 2)) onceUsed).all
      (fun s => (decide (∀ a, (s.system.cache.buffer a).key ≠ (0,7)))) = true := by rfl
  have hget : (execute timedStep (initialTimed (Fin 2)) onceUsed).all
      (fun s => (diskBufferGet s.system.cache 0 7).isOk) = true := by decide +kernel
  have hfell : (execute timedStep (initialTimed (Fin 2)) onceUsed).map (fun s => s.fell ⟨0,by decide⟩) =
      some ((4 : ℕ) : WithBot ℕ) := by rfl
  rw [hs] at hkeys hget hfell
  have h := Runs.of_execute hs
  cases hr : diskBufferGet s.system.cache 0 7 with
  | error e =>
    rw [Option.all_some,hr] at hget
    cases hget
  | ok r =>
    exact ⟨s,h,Option.some.inj hfell,r,hr,
      (buffers_are_recycled_in_order h).2.2.2.1 0 7 r.1 r.2 hr (of_decide_eq_true hkeys)⟩

end Runs

end UoDOS.Buffers
