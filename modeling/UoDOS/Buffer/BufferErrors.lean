import UoDOS.Buffer.BufferContents

/-! # A drive that reports errors

Without errors every valid buffer that is not being transferred has the bytes of its sector:
only one buffer can be valid or in use for a sector, so a completed write is not hidden from
another buffer.
-/
namespace UoDOS.Buffers
open CircularList Transition

variable {P : Type} [DecidableEq P]

def Move.marks : Move P → Option (Fin NBUF)
  | .write _ b | .complete b => some b
  | _ => none

theorem Effect.flags {s t : System P} {m : Move P} {L : List (Fin NBUF)} (he : Effect s m t)
    (ho : s.cache.Ordered L) {a : Fin NBUF} (hm : m.marks ≠ some a) :
    ((t.cache.buffer a).Flags = (s.cache.buffer a).Flags ∧ (t.cache.buffer a).key = (s.cache.buffer a).key) ∨
    ((s.cache.buffer a).ReferenceCount = 0 ∧ (t.cache.buffer a).Flags = 0) := by
  have hmod : ∀ b f, (a = b → (f (s.cache.buffer b)).Flags = (s.cache.buffer b).Flags ∧
      (f (s.cache.buffer b)).key = (s.cache.buffer b).key) →
      ((s.cache.modify b f).buffer a).Flags = (s.cache.buffer a).Flags ∧
        ((s.cache.modify b f).buffer a).key = (s.cache.buffer a).key := by
    intro b f hf
    rw [modify_buffer]
    split_ifs with hab
    · rw [hab]
      exact hf hab
    · exact ⟨rfl,rfl⟩
  cases he with
  | @get p dev sectorNumber b c hp hg =>
    rcases diskBufferGet_cases ho.lists hg with ⟨-,rfl⟩ | ⟨-,hz,rfl⟩
    · exact .inl (hmod b (fun x => { x with ReferenceCount := x.ReferenceCount + 1 }) (fun _ => ⟨rfl,rfl⟩))
    · by_cases hab : a = b
      · exact .inr ⟨hab ▸ hz,by simp [hab]⟩
      · exact .inl (by simp [hab])
  | @lock p b hp hl => exact .inl (hmod b (fun x => { x with Locked := true }) (fun _ => ⟨rfl,rfl⟩))
  | @write p b hh =>
    have hab : a ≠ b := fun hab => hm (by rw [hab]; rfl)
    exact .inl (hmod b (fun x => { x with Flags := x.Flags ||| B_DIRTY }) (fun h => absurd h hab))
  | @complete b hl =>
    have hab : a ≠ b := fun hab => hm (by rw [hab]; rfl)
    exact .inl (hmod b (fun x => { x with Flags := (x.Flags ||| B_VALID) &&& ~~~B_DIRTY })
      (fun h => absurd h hab))
  | @release p b hp hh => exact .inl (hmod b (fun x => { x with Locked := false }) (fun _ => ⟨rfl,rfl⟩))
  | @put p b hp =>
    simp only [set_cache,diskBufferPut_buffer]
    split_ifs with hab
    · exact .inl (by rw [hab]; exact ⟨rfl,rfl⟩)
    · exact .inl ⟨rfl,rfl⟩

omit [DecidableEq P] in
theorem Knows.frame {s t : Disk P} {q : P} {x : Stage} (h : Knows s q x)
    (hh : ∀ b, (t.system.user q).holds b = (s.system.user q).holds b)
    (hp : ∀ dev sectorNumber, x = .searching dev sectorNumber →
      (t.system.user q).place = (s.system.user q).place)
    (hk : ∀ b, (s.system.user q).Uses b → (t.system.cache.buffer b).key = (s.system.cache.buffer b).key)
    (hr : ∀ b dev sectorNumber, x = .returned b dev sectorNumber →
      (t.system.cache.buffer b).Flags = (s.system.cache.buffer b).Flags ∧ t.queued b = s.queued b) :
    Knows t q x := by
  cases x with
  | free => trivial
  | searching dev sectorNumber =>
    intro b hb
    rw [hp dev sectorNumber rfl] at hb
    rw [hk b (.inr (.inl hb))]
    exact h b hb
  | locked b dev sectorNumber => exact ⟨(hh b).trans h.1,(hk b (.inl h.1)).trans h.2⟩
  | reading b dev sectorNumber => exact ⟨(hh b).trans h.1,(hk b (.inl h.1)).trans h.2⟩
  | returned b dev sectorNumber =>
    obtain ⟨hf,hq⟩ := hr b dev sectorNumber rfl
    exact ⟨(hh b).trans h.1,(hk b (.inl h.1)).trans h.2.1,hf ▸ h.2.2.1,hq.trans h.2.2.2⟩
  | writing b => exact (hh b).trans h

section Invariant
variable [Fintype P] {s t : Disk P} {p q : P} {b : Fin NBUF}

omit [DecidableEq P] in
theorem Accounted.uses_pos {s : System P} (h : Accounted s) (hu : (s.user q).Uses b) :
    (s.cache.buffer b).ReferenceCount ≠ 0 := fun hz => h.unreferenced_iff.mp hz q hu

theorem Mirrors.key_kept (h : Mirrors s) {m : Move P} (he : Effect s.system m t.system)
    (hu : (s.system.user q).Uses b) : (t.system.cache.buffer b).key = (s.system.cache.buffer b).key := by
  obtain ⟨⟨L,ho⟩,ha⟩ := h.consistent
  exact he.key_kept ho (ha.uses_pos hu)

omit [DecidableEq P] in
theorem Mirrors.transfers_holds (h : Mirrors s) (ht : (s.stage p).transfers b) :
    (s.system.user p).holds b = true := by
  have hk := h.stages p
  cases hs : s.stage p with
  | reading c dev sectorNumber => rw [hs] at ht hk; cases ht; exact hk.1
  | writing c => rw [hs] at ht hk; cases ht; exact hk
  | _ => rw [hs] at ht; cases ht

omit [DecidableEq P] in
theorem Mirrors.not_queued (h : Mirrors s) (hh : (s.system.user p).holds b = true)
    (ht : ¬ (s.stage p).transfers b) : s.queued b = false := by
  by_contra hq
  obtain ⟨r,hr⟩ := (h.buffers b).awaited (by simpa using hq)
  have hrp : r = p := h.consistent.2.exclusive r p b (h.transfers_holds hr) hh
  exact ht (hrp ▸ hr)

theorem Mirrors.unmarked (h : Mirrors s) {m : Move P} (he : Effect s.system m t.system)
    (hm : m.marks ≠ some b) (hd : t.Data b = s.Data b) (hc : t.content = s.content)
    (hq : t.queued b = s.queued b) (hs : ∀ p, (s.stage p).transfers b → (t.stage p).transfers b) :
    BufferMirrors t b := by
  obtain ⟨⟨L,ho⟩,ha⟩ := h.consistent
  have hb := h.buffers b
  rcases he.flags ho hm with ⟨hf,hk⟩ | ⟨hz,hf⟩
  · refine ⟨fun hv hn => ?_,fun hn => ?_,fun hn => ?_⟩
    · rw [hd,hc,hk]
      exact hb.current (hf ▸ hv) (hq ▸ hn)
    · rw [hf]
      exact hb.waiting (hq ▸ hn)
    · obtain ⟨p,hp⟩ := hb.awaited (hq ▸ hn)
      exact ⟨p,hs p hp⟩
  · have hnq : t.queued b = false := by
      rw [hq]
      by_contra hn
      obtain ⟨p,hp⟩ := hb.awaited (by simpa using hn)
      exact ha.uses_pos (.inl (h.transfers_holds hp)) hz
    refine ⟨fun hv => ?_,fun hn => ?_,fun hn => ?_⟩
    · rw [hf] at hv
      exact absurd BitVec.zero_and hv
    · simp [hnq] at hn
    · simp [hnq] at hn

theorem Mirrors.bystander (h : Mirrors s) {m : Move P} (he : Effect s.system m t.system)
    (hu : t.system.user q = s.system.user q) (hs : t.stage q = s.stage q)
    (hr : ∀ b dev sectorNumber, s.stage q = .returned b dev sectorNumber →
      m.marks ≠ some b ∧ t.queued b = s.queued b) : Knows t q (t.stage q) := by
  obtain ⟨⟨L,ho⟩,ha⟩ := h.consistent
  rw [hs]
  refine (h.stages q).frame (fun b => by rw [hu]) (fun _ _ _ => by rw [hu]) (fun b hb => h.key_kept he hb) ?_
  intro b dev sectorNumber hq
  obtain ⟨hm,hqb⟩ := hr b dev sectorNumber hq
  have hk := h.stages q
  rw [hq] at hk
  rcases he.flags ho hm with ⟨hf,-⟩ | ⟨hz,-⟩
  · exact ⟨hf,hqb⟩
  · exact absurd hz (ha.uses_pos (.inl hk.1))

omit [Fintype P] [DecidableEq P] in
theorem not_transfers_of_idle (h : (s.stage p).idle = true) : ¬ (s.stage p).transfers b := by
  cases hs : s.stage p with
  | free => exact id
  | returned c dev sectorNumber => exact id
  | _ => rw [hs] at h; cases h

omit [Fintype P] in
theorem transfers_goto {x : Stage} (hp : ¬ (s.stage p).transfers b) (h : (s.stage q).transfers b) :
    ((s.goto p x).stage q).transfers b := by
  have hqp : q ≠ p := fun hqp => hp (hqp ▸ h)
  simpa [Disk.goto,hqp] using h

theorem Mirrors.get (h : Mirrors s) {dev sectorNumber : BitVec 32} {u : System P}
    (hi : (s.stage p).idle = true) (he : Effect s.system (.get p dev sectorNumber) u) :
    Mirrors { s.goto p (.searching dev sectorNumber) with system := u } := by
  refine ⟨h.consistent.step he,fun b => ?_,fun q => ?_⟩
  · exact h.unmarked he (by simp [Move.marks]) rfl rfl rfl
      (fun r hr => transfers_goto (not_transfers_of_idle hi) hr)
  · by_cases hqp : q = p
    · subst hqp
      obtain ⟨⟨L,ho⟩,ha⟩ := h.consistent
      cases he with
      | @get _ _ _ b c hp hg =>
        simp only [Disk.goto,Function.update_self]
        rintro a ha
        simp only [set_user,Function.update_self,goTo_place,Place.wants.injEq] at ha
        subst ha
        exact diskBufferGet_key ho.lists hg
    · refine h.bystander he ?_ (by simp [Disk.goto,hqp]) (fun b _ _ _ => ⟨by simp [Move.marks],rfl⟩)
      cases he with
      | get hp hg => simp [hqp]

theorem Mirrors.lock (h : Mirrors s) {dev sectorNumber : BitVec 32} {u : System P}
    (hs : s.stage p = .searching dev sectorNumber) (hp : (s.system.user p).place = .wants b)
    (he : Effect s.system (.lock p) u) : Mirrors { s.goto p (.locked b dev sectorNumber) with system := u } := by
  have hidle : ∀ a, ¬ (s.stage p).transfers a := fun a => by rw [hs]; exact id
  refine ⟨h.consistent.step he,fun a => ?_,fun q => ?_⟩
  · exact h.unmarked he (by simp [Move.marks]) rfl rfl rfl (fun r hr => transfers_goto (hidle a) hr)
  · by_cases hqp : q = p
    · subst hqp
      have hkey := h.stages q
      rw [hs] at hkey
      have hkept := h.key_kept (t := { s.goto q (.locked b dev sectorNumber) with system := u }) he
        (.inr (.inl hp))
      cases he with
      | @lock _ c hc hl =>
        obtain rfl : c = b := by simpa [hp] using hc.symm
        simp only [Disk.goto,Function.update_self]
        exact ⟨by simp,hkept.trans (hkey c hp)⟩
    · refine h.bystander he ?_ (by simp [Disk.goto,hqp]) (fun b _ _ _ => ⟨by simp [Move.marks],rfl⟩)
      cases he with
      | lock hc hl => simp [hqp]

theorem Mirrors.release (h : Mirrors s) {u : System P} (hi : (s.stage p).idle = true)
    (he : Effect s.system (.release p b) u) : Mirrors { s.goto p .free with system := u } := by
  refine ⟨h.consistent.step he,fun a => ?_,fun q => ?_⟩
  · exact h.unmarked he (by simp [Move.marks]) rfl rfl rfl
      (fun r hr => transfers_goto (not_transfers_of_idle hi) hr)
  · by_cases hqp : q = p
    · subst hqp
      simp only [Disk.goto,Function.update_self]
      trivial
    · refine h.bystander he ?_ (by simp [Disk.goto,hqp]) (fun b _ _ _ => ⟨by simp [Move.marks],rfl⟩)
      cases he with
      | release hp hh => simp [hqp]

theorem Mirrors.put (h : Mirrors s) {u : System P} (hi : (s.stage p).idle = true)
    (he : Effect s.system (.put p) u) : Mirrors { s with system := u } := by
  refine ⟨h.consistent.step he,fun a => ?_,fun q => ?_⟩
  · exact h.unmarked he (by simp [Move.marks]) rfl rfl rfl (fun r hr => hr)
  · by_cases hqp : q = p
    · subst hqp
      obtain ⟨⟨L,ho⟩,ha⟩ := h.consistent
      have hk := h.stages q
      refine hk.frame (fun b => ?_) (fun dev sectorNumber hx => ?_)
        (fun b hb => h.key_kept (t := { s with system := u }) he hb) (fun b dev sectorNumber hx => ⟨?_,rfl⟩)
      · cases he with
        | put hp => simp
      · rw [hx] at hi
        cases hi
      · rw [hx] at hk
        rcases he.flags ho (a := b) (by simp [Move.marks]) with ⟨hf,-⟩ | ⟨hz,-⟩
        · exact hf
        · exact absurd hz (ha.uses_pos (.inl hk.1))
    · refine h.bystander he ?_ rfl (fun b _ _ _ => ⟨by simp [Move.marks],rfl⟩)
      cases he with
      | put hp => simp [hqp]

theorem Mirrors.goto (h : Mirrors s) {x : Stage} (hb : ∀ b, s.queued b = true → ¬ (s.stage p).transfers b)
    (hx : Knows s p x) : Mirrors (s.goto p x) := by
  refine ⟨h.consistent,fun b => ⟨(h.buffers b).current,(h.buffers b).waiting,fun hq => ?_⟩,fun q => ?_⟩
  · obtain ⟨r,hr⟩ := (h.buffers b).awaited hq
    exact ⟨r,transfers_goto (hb b hq) hr⟩
  · by_cases hqp : q = p
    · subst hqp
      simp only [Disk.goto,Function.update_self]
      cases x <;> exact hx
    · simp only [Disk.goto,Function.update_of_ne hqp]
      have hq := h.stages q
      cases hs : s.stage q <;> (rw [hs] at hq; exact hq)

omit [DecidableEq P] in
theorem Mirrors.enqueue (h : Mirrors s) (hh : (s.system.user p).holds b = true)
    (ht : (s.stage p).transfers b)
    (hf : (s.system.cache.buffer b).Flags &&& (B_VALID ||| B_DIRTY) ≠ B_VALID) :
    Mirrors { s with queued := Function.update s.queued b true } := by
  refine ⟨h.consistent,fun a => ?_,fun q => ?_⟩
  · by_cases hab : a = b
    · subst hab
      exact ⟨fun _ hn => by simp at hn,fun _ => hf,fun _ => ⟨p,ht⟩⟩
    · have ha := h.buffers a
      refine ⟨fun hv hn => ha.current hv ?_,fun hn => ha.waiting ?_,fun hn => ha.awaited ?_⟩
      all_goals simpa [hab] using hn
  · refine (h.stages q).frame (fun _ => rfl) (fun _ _ _ => rfl) (fun _ _ => rfl) ?_
    intro a dev sectorNumber hq
    have hk := h.stages q
    rw [hq] at hk
    have hab : a ≠ b := by
      rintro rfl
      obtain rfl := h.consistent.2.exclusive q p a hk.1 hh
      rw [hq] at ht
      exact ht
    exact ⟨rfl,by simp [hab]⟩

theorem Mirrors.write (h : Mirrors s) {d : Sector} {u : System P} (hi : (s.stage p).idle = true)
    (he : Effect s.system (.write p b) u) : Mirrors { s.goto p (.writing b) with
      system := u, Data := Function.update s.Data b d, queued := Function.update s.queued b true } := by
  have hh : (s.system.user p).holds b = true := by
    cases he with
    | write hh => exact hh
  have huser : u.user = s.system.user := by
    cases he with
    | write hh => rfl
  refine ⟨h.consistent.step he,fun a => ?_,fun q => ?_⟩
  · by_cases hab : a = b
    · subst hab
      refine ⟨fun _ hn => by simp at hn,fun _ => ?_,fun _ => ⟨p,?_⟩⟩
      · cases he with
        | write hh => simpa using dirty_not_done
      · simp [Disk.goto,Stage.transfers]
    · refine h.unmarked he ?_ (by simp [hab]) rfl (by simp [hab])
        (fun r hr => transfers_goto (not_transfers_of_idle hi) hr)
      simpa [Move.marks] using Ne.symm hab
  · by_cases hqp : q = p
    · subst hqp
      simp only [Disk.goto,Function.update_self,Knows,huser]
      exact hh
    · refine h.bystander he (by rw [huser]) (by simp [Disk.goto,hqp]) ?_
      intro a dev sectorNumber hq
      have hk := h.stages q
      rw [hq] at hk
      have hab : a ≠ b := fun hab => hqp (h.consistent.2.exclusive q p b (hab ▸ hk.1) hh)
      exact ⟨by simpa [Move.marks] using Ne.symm hab,by simp [hab]⟩

theorem Mirrors.interrupt (h : Mirrors s) {u : System P} (hq : s.queued b = true)
    (he : Effect s.system (.complete b) u) : Mirrors { s.transfer b .done with
      system := u, queued := Function.update s.queued b false } := by
  obtain ⟨r,hr⟩ := (h.buffers b).awaited hq
  have hh := h.transfers_holds hr
  have hstage : (s.transfer b .done).stage = s.stage := by
    unfold Disk.transfer
    split_ifs <;> rfl
  have hkey : (u.cache.buffer b).key = (s.system.cache.buffer b).key :=
    h.key_kept (t := { s with system := u }) he (.inl hh)
  have huser : u.user = s.system.user := by
    cases he with
    | complete hl => rfl
  refine ⟨h.consistent.step he,fun a => ?_,fun q => ?_⟩
  · by_cases hab : a = b
    · subst hab
      refine ⟨fun _ _ => ?_,fun hn => by simp at hn,fun hn => by simp at hn⟩
      dsimp only
      rw [hkey]
      unfold Disk.transfer
      split_ifs <;> simp
    · have ha := h.buffers a
      obtain ⟨⟨L,ho⟩,hacc⟩ := h.consistent
      have hm : (Move.complete b : Move P).marks ≠ some a := by simpa [Move.marks] using Ne.symm hab
      have hother : (u.cache.buffer a).Flags &&& B_VALID ≠ 0 →
          (s.transfer b .done).Data a = s.Data a ∧
          (s.transfer b .done).content (s.system.cache.buffer a).key = s.content (s.system.cache.buffer a).key := by
        intro hv
        unfold Disk.transfer
        split_ifs with hd
        · exact ⟨by simp [hab],rfl⟩
        · refine ⟨rfl,Function.update_of_ne ?_ _ _⟩
          intro hk
          rcases he.flags ho hm with ⟨hf,-⟩ | ⟨-,hf⟩
          · refine hab (ho.unique hk (fun hz => ?_) (fun hz => hacc.uses_pos (.inl hh) hz.1))
            rw [hf,hz.2] at hv
            exact hv BitVec.zero_and
          · rw [hf] at hv
            exact hv BitVec.zero_and
      have hu := h.unmarked (t := { s with system := u }) he hm rfl rfl rfl (fun _ hr => hr)
      refine ⟨fun hv hn => ?_,fun hn => hu.waiting ?_,fun hn => ?_⟩
      · have hkeya : (u.cache.buffer a).key = (s.system.cache.buffer a).key := by
          rcases he.flags ho hm with ⟨-,hk⟩ | ⟨-,hf⟩
          · exact hk
          · rw [hf] at hv
            exact absurd BitVec.zero_and hv
        have hcur := hu.current hv (by simpa [hab] using hn)
        dsimp only at hcur ⊢
        rw [(hother hv).1,hkeya,(hother hv).2,hcur,hkeya]
      · simpa [hab] using hn
      · obtain ⟨x,hx⟩ := ha.awaited (by simpa [hab] using hn)
        exact ⟨x,by simpa [hstage] using hx⟩
  · refine h.bystander he (by rw [huser]) (by simp [hstage]) ?_
    intro a dev sectorNumber hs
    have hk := h.stages q
    rw [hs] at hk
    have hab : a ≠ b := by
      rintro rfl
      obtain rfl := h.consistent.2.exclusive q r a hk.1 hh
      rw [hs] at hr
      exact hr
    exact ⟨by simpa [Move.marks] using Ne.symm hab,by simp [hab]⟩

theorem Mirrors.step {m : DiskMove P} (h : Mirrors s) (hn : NoError s m) (he : DiskEffect s m t) : Mirrors t := by
  cases he with
  | get hi he => exact h.get hi he
  | lock hs hp he => exact h.lock hs hp he
  | @miss p b dev sectorNumber hs hv =>
    have hk := h.stages p
    rw [hs] at hk
    have hg : Mirrors (s.goto p (.reading b dev sectorNumber)) :=
      h.goto (fun _ _ => by rw [hs]; exact id) hk
    refine hg.enqueue (p := p) hk.1 (by simp [Disk.goto,Stage.transfers]) (fun hd => ?_)
    exact valid_of_done hd hv
  | @hit p b dev sectorNumber hs hv =>
    have hk := h.stages p
    rw [hs] at hk
    have ht : ∀ a, ¬ (s.stage p).transfers a := fun a => by rw [hs]; exact id
    exact h.goto (fun a _ => ht a) ⟨hk.1,hk.2,hv,h.not_queued hk.1 (ht b)⟩
  | write hi he => exact h.write hi he
  | @interrupt b r u hq he =>
    obtain rfl : r = .done := hn
    exact h.interrupt hq he
  | @read p b dev sectorNumber hs hd =>
    have hk := h.stages p
    rw [hs] at hk
    have hnq : s.queued b = false := by
      by_contra hq
      exact (h.buffers b).waiting (by simpa using hq) hd
    refine h.goto (fun a ha ht => ?_) ⟨hk.1,hk.2,valid_of_done hd,hnq⟩
    rw [hs] at ht
    obtain rfl : a = b := ht
    simp [hnq] at ha
  | @wrote p b hs hd =>
    refine h.goto (fun a ha ht => ?_) trivial
    rw [hs] at ht
    obtain rfl : a = b := ht
    exact (h.buffers a).waiting ha hd
  | release hi he => exact h.release hi he
  | put hi he => exact h.put hi he

omit [DecidableEq P] in
theorem initialDisk_mirrors (content : BitVec 32 × BitVec 32 → Sector) : Mirrors (initialDisk P content) := by
  refine ⟨⟨⟨_,diskBufferCacheInitialise_ordered⟩,initialSystem_accounted⟩,fun b => ⟨fun hv => ?_,?_,?_⟩,fun p => ?_⟩
  · exact absurd BitVec.zero_and hv
  · intro hq
    cases hq
  · intro hq
    cases hq
  · trivial

end Invariant

/-- In every run in which the drive reports no error, each return of diskBufferRead
hands out the requested sector's bytes, and a buffer marked valid has its sector's
bytes unless it is being transferred. -/
theorem read_returns_sector [Fintype P] {havedisk1 : Bool} {content : BitVec 32 × BitVec 32 → Sector}
    {s : Disk P} {ms : List (DiskMove P)}
    (h : Runs (guarded (graph (diskStep havedisk1)) NoError) (initialDisk P content) ms s) :
    (∀ p b dev sectorNumber, s.stage p = .returned b dev sectorNumber →
      s.Data b = s.content (dev,sectorNumber)) ∧
    ∀ b, (s.system.cache.buffer b).Flags &&& B_VALID ≠ 0 → s.queued b = false →
      s.Data b = s.content (s.system.cache.buffer b).key := by
  have hm : Mirrors s := h.invariant (initialDisk_mirrors content)
    (fun _ _ _ ha he => ha.step he.1 (diskEffect_of_step he.2))
  refine ⟨fun p b dev sectorNumber hs => ?_,fun b => (hm.buffers b).current⟩
  have hk := hm.stages p
  rw [hs] at hk
  rw [← hk.2.1]
  exact (hm.buffers b).current hk.2.2.1 hk.2.2.2

theorem firstBuffer_lt : 0 < NBUF := by decide

def oneRead (r : Report) : List (DiskMove (Fin 1)) :=
  [.get 0 0 5,.lock 0,.test 0,.interrupt ⟨0,firstBuffer_lt⟩ r,.finish 0]

theorem read_returns_sector_oneRead : ∃ s : Disk (Fin 1),
    Runs (guarded (graph (diskStep false)) NoError) (initialDisk (Fin 1) (fun _ _ => 7)) (oneRead .done) s ∧
    s.stage 0 = .returned ⟨0,by decide⟩ 0 5 ∧ s.Data ⟨0,by decide⟩ = s.content (0,5) := by
  have h : Runs (graph (diskStep false)) (initialDisk (Fin 1) (fun _ _ => 7)) (oneRead .done) _ :=
    Runs.of_execute (Option.some_get (by rfl)).symm
  have hg : ∀ m ∈ oneRead .done, ∀ s, NoError s m := by simp [oneRead,NoError]
  exact ⟨_,h.guarded hg,by rfl,(read_returns_sector (h.guarded hg)).1 0 _ 0 5 (by rfl)⟩

/-- The drive reports an error for the command: the buffer is handed out as valid
with the bytes it had before. -/
theorem failed_read_returns_old_bytes : ∃ s : Disk (Fin 1),
    Runs (graph (diskStep false)) (initialDisk (Fin 1) (fun _ _ => 7)) (oneRead (.failed fun _ => 7)) s ∧
    s.stage 0 = .returned ⟨0,by decide⟩ 0 5 ∧
    (s.system.cache.buffer ⟨0,by decide⟩).Flags &&& B_VALID ≠ 0 ∧ s.queued ⟨0,by decide⟩ = false ∧
    s.Data ⟨0,by decide⟩ ≠ s.content (0,5) := by
  have h : Runs (graph (diskStep false)) (initialDisk (Fin 1) (fun _ _ => 7)) (oneRead (.failed fun _ => 7)) _ :=
    Runs.of_execute (Option.some_get (by rfl)).symm
  refine ⟨_,h,by rfl,by decide,by rfl,?_⟩
  intro hd
  have := congrFun hd ⟨0,by decide⟩
  revert this
  decide

end UoDOS.Buffers
