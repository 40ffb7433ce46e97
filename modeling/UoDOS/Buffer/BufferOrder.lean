import UoDOS.Buffer.BufferCache

/-! # No sector is cached twice

The list invariant: of two buffers with the same sector, the one nearer to the least recently
used end has never been used since its fields were set.
-/
namespace UoDOS.Buffers
open CircularList Transition

variable {P : Type} [DecidableEq P]
  {A B : List (Fin NBUF)} {f : DiskBuffer → DiskBuffer}

def DiskBuffer.Fresh (x : DiskBuffer) : Prop := x.ReferenceCount = 0 ∧ x.Flags = 0

def Cache.Supersedes (c : Cache) (a b : Fin NBUF) : Prop :=
  (c.buffer a).key = (c.buffer b).key → (c.buffer b).Fresh

def User.references (u : User) (b : Fin NBUF) : ℕ :=
  (u.holds b).toNat + if u.place = .wants b ∨ u.place = .drops b then 1 else 0

structure Cache.Ordered (c : Cache) (L : List (Fin NBUF)) : Prop where
  lists : c.links.Lists L
  complete : ∀ b, b ∈ L
  superseded : L.Pairwise c.Supersedes

structure Accounted [Fintype P] (s : System P) : Prop where
  counted : ∀ b, (s.cache.buffer b).ReferenceCount = ∑ p, (s.user p).references b
  locked : ∀ b, (s.cache.buffer b).Locked = true ↔ ∃ p, (s.user p).holds b = true
  exclusive : ∀ p q b, (s.user p).holds b = true → (s.user q).holds b = true → p = q

theorem lists_foldl_insertFront {l : Links (Fin NBUF)} {L K : List (Fin NBUF)} (h : l.Lists L)
    (hd : (K ++ L).Nodup) : (K.foldl Links.insertFront l).Lists (K.reverse ++ L) := by
  induction K generalizing l L with
  | nil => exact h
  | cons b K ih =>
    obtain ⟨hb,hd'⟩ := List.nodup_cons.mp hd
    have hperm : (K ++ b :: L).Nodup := (List.perm_middle.nodup_iff).mpr hd
    simpa using ih (h.insertFront (fun hm => hb (by simp [hm]))) hperm

theorem diskBufferCacheInitialise_ordered :
    diskBufferCacheInitialise.Ordered (List.finRange NBUF).reverse where
  lists := by
    have h : (⟨fun _ => none,fun _ => none⟩ : Links (Fin NBUF)).Lists [] := ⟨List.nodup_nil,rfl,rfl⟩
    rw [← List.append_nil (List.finRange NBUF).reverse]
    exact lists_foldl_insertFront h (by simpa using List.nodup_finRange NBUF)
  complete b := by simp
  superseded := List.pairwise_of_forall (fun _ _ _ => ⟨rfl,rfl⟩)

omit [DecidableEq P] in
theorem initialSystem_accounted [Fintype P] : Accounted (initialSystem P) where
  counted b := by simp [initialSystem,diskBufferCacheInitialise,User.references]
  locked b := by simp [initialSystem,diskBufferCacheInitialise]
  exclusive p q b hp := by simp [initialSystem] at hp

def Cache.carries (c : Cache) (dev sectorNumber : BitVec 32) (b : Fin NBUF) : Bool :=
  (c.buffer b).Device == dev && (c.buffer b).SectorNumber == sectorNumber

def Cache.recyclable (c : Cache) (b : Fin NBUF) : Bool :=
  (c.buffer b).ReferenceCount == 0 && (c.buffer b).Flags &&& B_DIRTY == 0

theorem carries_iff {c : Cache} {dev sectorNumber : BitVec 32} {b : Fin NBUF} :
    c.carries dev sectorNumber b = true ↔ (c.buffer b).key = (dev,sectorNumber) := by
  simp [Cache.carries,DiskBuffer.key]

theorem recyclable_iff {c : Cache} {b : Fin NBUF} : c.recyclable b = true ↔
    (c.buffer b).ReferenceCount = 0 ∧ (c.buffer b).Flags &&& B_DIRTY = 0 := by
  simp [Cache.recyclable]

theorem diskBufferGet_eq {c : Cache} {L : List (Fin NBUF)} (hl : c.links.Lists L) (dev sectorNumber : BitVec 32) :
    diskBufferGet c dev sectorNumber =
      match L.find? (c.carries dev sectorNumber) with
      | some b => .ok (b,c.modify b fun x => { x with ReferenceCount := x.ReferenceCount + 1 })
      | none =>
        match L.reverse.find? c.recyclable with
        | some b => .ok (b,c.modify b fun x =>
            { x with Device := dev, SectorNumber := sectorNumber, Flags := 0, ReferenceCount := 1 })
        | none => .error (.panic "diskBufferGet: no buffers") := by
  have hlen : L.length < NBUF + 1 := by
    have := hl.1.length_le_card
    simp only [Fintype.card_fin] at this
    omega
  rw [diskBufferGet,scan_next hl.2 hlen,scan_previous hl.2 hlen]
  unfold Cache.carries Cache.recyclable
  cases L.find? fun b => (c.buffer b).Device == dev && (c.buffer b).SectorNumber == sectorNumber with
  | some b => rfl
  | none =>
    cases L.reverse.find? fun b => (c.buffer b).ReferenceCount == 0 && (c.buffer b).Flags &&& B_DIRTY == 0 with
    | some b => rfl
    | none => rfl

theorem diskBufferGet_cases {c c' : Cache} {L : List (Fin NBUF)} (hl : c.links.Lists L)
    {dev sectorNumber : BitVec 32} {b : Fin NBUF} (h : diskBufferGet c dev sectorNumber = .ok (b,c')) :
    ((∃ A B, L = A ++ b :: B ∧ ∀ a ∈ A, (c.buffer a).key ≠ (c.buffer b).key) ∧
      c' = c.modify b fun x => { x with ReferenceCount := x.ReferenceCount + 1 }) ∨
    ((∀ a ∈ L, (c.buffer a).key ≠ (dev,sectorNumber)) ∧ (c.buffer b).ReferenceCount = 0 ∧
      c' = c.modify b fun x =>
        { x with Device := dev, SectorNumber := sectorNumber, Flags := 0, ReferenceCount := 1 }) := by
  rw [diskBufferGet_eq hl] at h
  cases hf : L.find? (c.carries dev sectorNumber) with
  | some a =>
    rw [hf] at h
    cases h
    obtain ⟨hk,A,B,hL,hA⟩ := List.find?_eq_some_iff_append.mp hf
    refine .inl ⟨⟨A,B,hL,fun x hx he => ?_⟩,rfl⟩
    have hx' := hA x hx
    rw [carries_iff.mpr (he.trans (carries_iff.mp hk))] at hx'
    cases hx'
  | none =>
    rw [hf] at h
    dsimp only at h
    cases hr : L.reverse.find? c.recyclable with
    | none => rw [hr] at h; cases h
    | some a =>
      rw [hr] at h
      cases h
      refine .inr ⟨fun x hx he => ?_,(recyclable_iff.mp (List.find?_some hr)).1,rfl⟩
      exact List.find?_eq_none.mp hf x hx (carries_iff.mpr he)

theorem superseded_modify {c : Cache} {b : Fin NBUF}
    (h : (A ++ b :: B).Pairwise c.Supersedes) (hd : (A ++ b :: B).Nodup)
    (hA : ∀ a ∈ A, (c.buffer a).key = (f (c.buffer b)).key → (f (c.buffer b)).Fresh)
    (hB : ∀ a ∈ B, (f (c.buffer b)).key = (c.buffer a).key → (c.buffer a).Fresh) :
    (A ++ b :: B).Pairwise (c.modify b f).Supersedes := by
  have hbA : ∀ a ∈ A, a ≠ b := fun a ha => (List.nodup_append.mp hd).2.2 a ha b (by simp)
  have hbB : ∀ a ∈ B, a ≠ b := fun a ha hab =>
    (List.nodup_cons.mp (List.nodup_append.mp hd).2.1).1 (hab ▸ ha)
  have hsame : ∀ x y, x ≠ b → y ≠ b → c.Supersedes x y → (c.modify b f).Supersedes x y := by
    intro x y hx hy hxy
    simpa [Cache.Supersedes,hx,hy] using hxy
  obtain ⟨hpA,hpB,hpAB⟩ := List.pairwise_append.mp h
  obtain ⟨hpb,hpB⟩ := List.pairwise_cons.mp hpB
  refine List.pairwise_append.mpr ⟨?_,List.pairwise_cons.mpr ⟨?_,?_⟩,?_⟩
  · exact hpA.imp_of_mem (fun hx hy => hsame _ _ (hbA _ hx) (hbA _ hy))
  · intro a ha
    simpa [Cache.Supersedes,hbB a ha] using hB a ha
  · exact hpB.imp_of_mem (fun hx hy => hsame _ _ (hbB _ hx) (hbB _ hy))
  · intro x hx y hy
    rcases List.mem_cons.mp hy with rfl | hy
    · simpa [Cache.Supersedes,hbA x hx] using hA x hx
    · exact hsame _ _ (hbA x hx) (hbB y hy) (hpAB x hx y (by simp [hy]))

theorem superseded_touch {c : Cache} {b : Fin NBUF}
    (h : (A ++ b :: B).Pairwise c.Supersedes) (hd : (A ++ b :: B).Nodup)
    (hk : (f (c.buffer b)).key = (c.buffer b).key) (hA : ∀ a ∈ A, (c.buffer a).key ≠ (c.buffer b).key) :
    (A ++ b :: B).Pairwise (c.modify b f).Supersedes := by
  refine superseded_modify h hd (fun a ha he => absurd (he.trans hk) (hA a ha)) (fun a ha he => ?_)
  have hpb := (List.pairwise_cons.mp (List.pairwise_append.mp h).2.1).1
  exact hpb a ha (hk.symm.trans he)

theorem first_of_referenced {c : Cache} {b : Fin NBUF}
    (h : (A ++ b :: B).Pairwise c.Supersedes) (hr : (c.buffer b).ReferenceCount ≠ 0) :
    ∀ a ∈ A, (c.buffer a).key ≠ (c.buffer b).key :=
  fun a ha he => hr ((List.pairwise_append.mp h).2.2 a ha b (by simp) he).1

section Counting
variable [Fintype P]

theorem sum_references_update (u : P → User) (p : P) (x : User) (b : Fin NBUF) :
    ∑ q, (Function.update u p x q).references b + (u p).references b =
      ∑ q, (u q).references b + x.references b := by
  have hu : (fun q => (Function.update u p x q).references b) =
      Function.update (fun q => (u q).references b) p (x.references b) := by
    funext q
    by_cases hq : q = p
    · subst hq; simp
    · simp [hq]
  rw [hu,Finset.sum_update_of_mem (Finset.mem_univ p),← Finset.sum_erase_add _ _ (Finset.mem_univ p),
    Finset.sdiff_singleton_eq_erase]
  omega

omit [DecidableEq P] in
theorem Accounted.referenced {s : System P} (h : Accounted s) {p : P} {b : Fin NBUF}
    (hr : 0 < (s.user p).references b) : 0 < (s.cache.buffer b).ReferenceCount := by
  rw [h.counted]
  exact lt_of_lt_of_le hr (Finset.single_le_sum (f := fun q => (s.user q).references b)
    (fun _ _ => Nat.zero_le _) (Finset.mem_univ p))

end Counting

section Moves
variable [Fintype P] {s : System P} {p : P} {b : Fin NBUF}

theorem Accounted.goes (h : Accounted s) {c : Cache} {x : Place}
    (hl : ∀ a, (c.buffer a).Locked = (s.cache.buffer a).Locked)
    (hc : ∀ a, (c.buffer a).ReferenceCount + (s.user p).references a =
      (s.cache.buffer a).ReferenceCount + ((s.user p).goTo x).references a) :
    Accounted (s.set c p ((s.user p).goTo x)) := by
  have hh : ∀ q, (Function.update s.user p ((s.user p).goTo x) q).holds = (s.user q).holds := by
    intro q
    by_cases hq : q = p
    · subst hq; simp
    · simp [hq]
  refine ⟨fun a => ?_,fun a => ?_,fun q q' a hq hq' => ?_⟩
  · have := sum_references_update s.user p ((s.user p).goTo x) a
    have := h.counted a
    have := hc a
    simp only [set_cache,set_user]
    omega
  · simp only [set_cache,set_user,hh,hl,h.locked]
  · simp only [set_user,hh] at hq hq'
    exact h.exclusive q q' a hq hq'

theorem Accounted.get (h : Accounted s) {L : List (Fin NBUF)} (ho : s.cache.Ordered L) {c : Cache}
    {dev sectorNumber : BitVec 32} (hp : (s.user p).place = .idle)
    (hg : diskBufferGet s.cache dev sectorNumber = .ok (b,c)) :
    Accounted (s.set c p ((s.user p).goTo (.wants b))) := by
  rcases diskBufferGet_cases ho.lists hg with ⟨-,rfl⟩ | ⟨-,hz,rfl⟩
  · refine h.goes (fun a => by simp; split_ifs with ha <;> simp [ha]) (fun a => ?_)
    by_cases ha : a = b
    · subst ha; simp [User.references,hp]; omega
    · simp [User.references,hp,ha,Ne.symm ha]
  · refine h.goes (fun a => by simp; split_ifs with ha <;> simp [ha]) (fun a => ?_)
    by_cases ha : a = b
    · subst ha; simp [User.references,hp,hz]; omega
    · simp [User.references,hp,ha,Ne.symm ha]

theorem Accounted.put (h : Accounted s) (hp : (s.user p).place = .drops b) :
    Accounted (s.set (diskBufferPut s.cache b) p ((s.user p).goTo .idle)) := by
  have hr := h.referenced (p := p) (b := b) (by simp [User.references,hp])
  have hb : ∀ a, (diskBufferPut s.cache b).buffer a =
      (s.cache.modify b fun x => { x with ReferenceCount := x.ReferenceCount - 1 }).buffer a := by
    intro a
    simp only [diskBufferPut]
    split_ifs <;> rfl
  refine h.goes (fun a => by simp [hb]; split_ifs with ha <;> simp [ha]) (fun a => ?_)
  by_cases ha : a = b
  · subst ha; simp [User.references,hp,hb]; omega
  · simp [User.references,hp,hb,ha,Ne.symm ha]

theorem Accounted.relock (h : Accounted s) {v : Bool} {x : Place}
    (ho : ∀ q, q ≠ p → (s.user q).holds b = false)
    (hr : ∀ a, (⟨x,Function.update (s.user p).holds b v⟩ : User).references a = (s.user p).references a) :
    Accounted (s.set (s.cache.modify b fun y => { y with Locked := v }) p
      ⟨x,Function.update (s.user p).holds b v⟩) := by
  refine ⟨fun a => ?_,fun a => ?_,fun q q' a hq hq' => ?_⟩
  · have := sum_references_update s.user p ⟨x,Function.update (s.user p).holds b v⟩ a
    have := h.counted a
    have := hr a
    simp only [set_cache,set_user,modify_buffer]
    split_ifs with ha
    · subst ha; simp only; omega
    · omega
  · by_cases ha : a = b
    · subst ha
      simp only [set_cache,set_user,modify_buffer,↓reduceIte]
      refine ⟨fun hv => ⟨p,by simp [hv]⟩,fun ⟨q,hq⟩ => ?_⟩
      by_cases hqp : q = p
      · subst hqp; simpa using hq
      · simp [hqp,ho q hqp] at hq
    · simp only [set_cache,set_user,modify_buffer,ha,↓reduceIte,h.locked]
      refine exists_congr (fun q => ?_)
      by_cases hqp : q = p
      · subst hqp; simp [ha]
      · simp [hqp]
  · by_cases ha : a = b
    · subst ha
      have hp : ∀ r, (Function.update s.user p ⟨x,Function.update (s.user p).holds a v⟩ r).holds a = true →
          r = p := by
        intro r hr
        by_contra hrp
        simp [hrp,ho r hrp] at hr
      exact (hp q hq).trans (hp q' hq').symm
    · have hh : ∀ r, (Function.update s.user p ⟨x,Function.update (s.user p).holds b v⟩ r).holds a =
          (s.user r).holds a := by
        intro r
        by_cases hrp : r = p
        · subst hrp; simp [ha]
        · simp [hrp]
      simp only [set_user,hh] at hq hq'
      exact h.exclusive q q' a hq hq'

theorem Accounted.lock (h : Accounted s) (hp : (s.user p).place = .wants b)
    (hl : (s.cache.buffer b).Locked = false) :
    Accounted (s.set (s.cache.modify b fun x => { x with Locked := true }) p
      ⟨.idle,Function.update (s.user p).holds b true⟩) := by
  have hnone : ∀ q, (s.user q).holds b = false := by
    intro q
    by_contra hq
    have := (h.locked b).mpr ⟨q,by simpa using hq⟩
    simp [hl] at this
  refine h.relock (fun q _ => hnone q) (fun a => ?_)
  by_cases ha : a = b
  · subst ha; simp [User.references,hp,hnone p]
  · simp [User.references,hp,ha,Ne.symm ha]

theorem Accounted.release (h : Accounted s) (hp : (s.user p).place = .idle)
    (hh : (s.user p).holds b = true) :
    Accounted (s.set (s.cache.modify b fun x => { x with Locked := false }) p
      ⟨.drops b,Function.update (s.user p).holds b false⟩) := by
  refine h.relock (fun q hq => ?_) (fun a => ?_)
  · by_contra hne
    exact hq (h.exclusive q p b (by simpa using hne) hh)
  · by_cases ha : a = b
    · subst ha; simp [User.references,hp,hh]
    · simp [User.references,hp,ha,Ne.symm ha]

omit [DecidableEq P] in
theorem Accounted.flags (h : Accounted s) (f : BitVec 32 → BitVec 32) :
    Accounted (⟨s.cache.modify b fun x => { x with Flags := f x.Flags },s.user⟩ : System P) := by
  refine ⟨fun a => ?_,fun a => ?_,h.exclusive⟩
  · rw [← h.counted,modify_buffer]
    split_ifs with ha
    · rw [ha]
    · rfl
  · rw [← h.locked,modify_buffer]
    split_ifs with ha
    · rw [ha]
    · rfl

end Moves

section Order
variable {c c' : Cache} {L : List (Fin NBUF)} {b : Fin NBUF}

theorem Cache.Ordered.touch (h : c.Ordered L)
    (hb : 0 < (c.buffer b).ReferenceCount) (hk : (f (c.buffer b)).key = (c.buffer b).key) :
    (c.modify b f).Ordered L := by
  refine ⟨h.lists,h.complete,?_⟩
  obtain ⟨A,B,rfl⟩ := List.append_of_mem (h.complete b)
  exact superseded_touch h.superseded h.lists.1 hk (first_of_referenced h.superseded hb.ne')

theorem Cache.Ordered.get (h : c.Ordered L) {dev sectorNumber : BitVec 32}
    (hg : diskBufferGet c dev sectorNumber = .ok (b,c')) : c'.Ordered L := by
  rcases diskBufferGet_cases h.lists hg with ⟨⟨A,B,rfl,hA⟩,rfl⟩ | ⟨hno,-,rfl⟩
  · exact ⟨h.lists,h.complete,superseded_touch h.superseded h.lists.1 rfl hA⟩
  · refine ⟨h.lists,h.complete,?_⟩
    obtain ⟨A,B,rfl⟩ := List.append_of_mem (h.complete b)
    exact superseded_modify h.superseded h.lists.1 (fun a ha he => absurd he (hno a (by simp [ha])))
      (fun a ha he => absurd he.symm (hno a (by simp [ha])))

theorem Cache.Ordered.unique (h : c.Ordered L) {a b : Fin NBUF} (hk : (c.buffer a).key = (c.buffer b).key)
    (ha : ¬ (c.buffer a).Fresh) (hb : ¬ (c.buffer b).Fresh) : a = b := by
  by_contra hab
  have hsym : L.Pairwise (fun x y => c.Supersedes x y ∨ c.Supersedes y x) := h.superseded.imp .inl
  have : Std.Symm (fun x y => c.Supersedes x y ∨ c.Supersedes y x) := ⟨fun _ _ => Or.symm⟩
  rcases hsym.forall (h.complete a) (h.complete b) hab with hs | hs
  · exact hb (hs hk)
  · exact ha (hs hk.symm)

theorem Cache.Ordered.put_shared (h : c.Ordered L) (hb : 1 < (c.buffer b).ReferenceCount) :
    (diskBufferPut c b).Ordered L := by
  have hz : ¬ (c.buffer b).ReferenceCount - 1 = 0 := by omega
  simp only [diskBufferPut,modify_buffer,↓reduceIte,hz]
  exact h.touch (f := fun x => { x with ReferenceCount := x.ReferenceCount - 1 }) (by omega) rfl

theorem Cache.Ordered.put_last (h : c.Ordered L) (hb : (c.buffer b).ReferenceCount = 1) :
    (diskBufferPut c b).Ordered (b :: L.erase b) := by
  have ht := h.touch (b := b) (f := fun x => { x with ReferenceCount := x.ReferenceCount - 1 }) (by omega) rfl
  simp only [diskBufferPut,modify_buffer,↓reduceIte,hb,Nat.sub_self]
  have hfirst : ∀ a ∈ L, a ≠ b → (c.buffer b).key = (c.buffer a).key → (c.buffer a).Fresh := by
    intro a ha hab hk
    by_contra hf
    exact hab (h.unique hk.symm hf (fun hz => by have := hz.1; omega))
  obtain ⟨A,B,rfl⟩ := List.append_of_mem (h.complete b)
  have hbAB : b ∉ A ++ B := (List.nodup_middle.mp h.lists.1).notMem
  have hbA : b ∉ A := fun hm => hbAB (by simp [hm])
  rw [List.erase_append_right _ hbA,List.erase_cons_head]
  refine ⟨ht.lists.unlink.insertFront hbAB,fun a => ?_,?_⟩
  · have := h.complete a
    simp only [List.mem_append,List.mem_cons] at this ⊢
    tauto
  · refine List.pairwise_cons.mpr ⟨fun a ha => ?_,ht.superseded.sublist ?_⟩
    · have hab : a ≠ b := fun hab => hbAB (hab ▸ ha)
      have hmem : a ∈ A ++ b :: B := h.complete a
      intro he
      simpa [hab] using hfirst a hmem hab (by simpa [hab,DiskBuffer.key] using he)
    · exact List.Sublist.append_left (List.sublist_cons_self b B) A

theorem Cache.Ordered.put (h : c.Ordered L) (hb : 0 < (c.buffer b).ReferenceCount) :
    ∃ L', (diskBufferPut c b).Ordered L' := by
  rcases Nat.lt_or_eq_of_le (Nat.one_le_iff_ne_zero.mpr hb.ne') with hm | hone
  · exact ⟨L,h.put_shared hm⟩
  · exact ⟨_,h.put_last hone.symm⟩

end Order

section Runs
variable [Fintype P]

def Consistent (s : System P) : Prop := (∃ L, s.cache.Ordered L) ∧ Accounted s

theorem Consistent.step {s t : System P} {m : Move P} (h : Consistent s) (he : Effect s m t) : Consistent t := by
  obtain ⟨⟨L,ho⟩,ha⟩ := h
  cases he with
  | get hp hg => exact ⟨⟨L,ho.get hg⟩,ha.get ho hp hg⟩
  | @lock p b hp hl =>
    have hb := ha.referenced (p := p) (b := b) (by simp [User.references,hp])
    exact ⟨⟨L,ho.touch (f := fun x => { x with Locked := true }) hb rfl⟩,ha.lock hp hl⟩
  | @write p b hh =>
    have hb := ha.referenced (p := p) (b := b) (by simp [User.references,hh])
    exact ⟨⟨L,ho.touch (f := fun x => { x with Flags := x.Flags ||| B_DIRTY }) hb rfl⟩,
      ha.flags (fun x => x ||| B_DIRTY)⟩
  | @complete b hl =>
    obtain ⟨p,hh⟩ := (ha.locked b).mp hl
    have hb := ha.referenced (p := p) (b := b) (by simp [User.references,hh])
    exact ⟨⟨L,ho.touch (f := fun x => { x with Flags := (x.Flags ||| B_VALID) &&& ~~~B_DIRTY }) hb rfl⟩,
      ha.flags (fun x => (x ||| B_VALID) &&& ~~~B_DIRTY)⟩
  | @release p b hp hh =>
    have hb := ha.referenced (p := p) (b := b) (by simp [User.references,hh])
    exact ⟨⟨L,ho.touch (f := fun x => { x with Locked := false }) hb rfl⟩,ha.release hp hh⟩
  | @put p b hp =>
    have hb := ha.referenced (p := p) (b := b) (by simp [User.references,hp])
    exact ⟨ho.put hb,ha.put hp⟩

theorem Consistent.of_runs {t : System P} {ms : List (Move P)}
    (h : Runs (graph Buffers.step) (initialSystem P) ms t) : Consistent t :=
  h.invariant ⟨⟨_,diskBufferCacheInitialise_ordered⟩,initialSystem_accounted⟩
    (fun _ _ _ hc he => hc.step (effect_of_step he))

def DiskBuffer.InUse (x : DiskBuffer) : Prop := 0 < x.ReferenceCount ∨ x.Flags &&& B_VALID ≠ 0

theorem DiskBuffer.InUse.not_fresh {x : DiskBuffer} (h : x.InUse) : ¬ x.Fresh := by
  rintro ⟨hr,hf⟩
  rcases h with h | h
  · omega
  · simp [hf] at h

/-- A process is between its search for a buffer and the end of its release. -/
def User.Uses (u : User) (b : Fin NBUF) : Prop := u.holds b = true ∨ u.place = .wants b ∨ u.place = .drops b

/-- In every interleaving of gets and releases, at most one buffer in use carries a
given sector, sector (0,0) included, and the users of a sector share that buffer. -/
theorem sector_cached_once {t : System P} {ms : List (Move P)}
    (h : Runs (graph step) (initialSystem P) ms t) :
    (∀ a b, (t.cache.buffer a).key = (t.cache.buffer b).key → (t.cache.buffer a).InUse →
      (t.cache.buffer b).InUse → a = b) ∧
    ∀ p q a b, (t.user p).Uses a → (t.user q).Uses b →
      (t.cache.buffer a).key = (t.cache.buffer b).key → a = b := by
  obtain ⟨⟨L,ho⟩,ha⟩ := Consistent.of_runs h
  have hone : ∀ a b, (t.cache.buffer a).key = (t.cache.buffer b).key → (t.cache.buffer a).InUse →
      (t.cache.buffer b).InUse → a = b :=
    fun a b hk hua hub => ho.unique hk hua.not_fresh hub.not_fresh
  have hused : ∀ p a, (t.user p).Uses a → (t.cache.buffer a).InUse := by
    intro p a hu
    refine .inl (ha.referenced (p := p) ?_)
    rcases hu with hu | hu
    · simp [User.references,hu]
    · simp [User.references,hu]
  exact ⟨hone,fun p q a b hp hq hk => hone a b hk (hused p a hp) (hused q b hq)⟩

def frontBuffer : Fin NBUF := ⟨29,by decide⟩

def sharedMoves : List (Move (Fin 3)) :=
  [.get 0 0 0,.get 1 0 5,.get 2 0 0,.lock 0,.lock 1,.complete frontBuffer,.release 0 frontBuffer,.put 0,.lock 2]

theorem sector_cached_once_shared : ∃ t : System (Fin 3), Runs (graph step) (initialSystem (Fin 3)) sharedMoves t ∧
    (t.user 2).holds frontBuffer = true ∧ (t.cache.buffer frontBuffer).Flags = B_VALID ∧
    ∀ b, (t.cache.buffer b).key = (0,0) → (t.cache.buffer b).InUse → b = frontBuffer := by
  have h : Runs (graph step) (initialSystem (Fin 3)) sharedMoves _ :=
    Runs.of_execute (Option.some_get (by rfl)).symm
  exact ⟨_,h,by rfl,by rfl,fun b hk hb => (sector_cached_once h).1 b frontBuffer (by rw [hk]; rfl) hb (.inr (by decide))⟩

end Runs

end UoDOS.Buffers
