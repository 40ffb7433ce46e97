import UoDOS.Buffer.BufferCache
import UoDOS.Library.LinkedQueue

/-! # The request queue of ide.c

A move is one segment under idelock: the first part of ideReadWrite, which appends the buffer,
starts the drive if the queue was empty and then sleeps; a test of the wait loop after sleep has
returned; an interrupt handler.
-/
namespace UoDOS.Ide
open Buffers (B_VALID B_DIRTY)
open LinkedQueue Transition

variable {P B : Type} [DecidableEq P] [DecidableEq B] [Fintype B]

structure Driver (B : Type) where
  queue : Links B
  Flags : B → BitVec 32
  arrived : List B
  started : List B
  completed : List B

def ideStartRequest (d : Driver B) (b : B) : Driver B := { d with started := d.started ++ [b] }

/-- ideReadWrite up to its wait loop, for a locked buffer of a present disk that has
these flags. -/
def ideReadWrite (d : Driver B) (b : B) (flags : BitVec 32) : Except Stop (Driver B) :=
  if flags &&& (B_VALID ||| B_DIRTY) = B_VALID then .error (.panic "ideReadWrite: nothing to do")
  else
    match d.queue.append (Fintype.card B + 1) b with
    | none => .error .hang
    | some l =>
      let d := { d with queue := l, Flags := Function.update d.Flags b flags, arrived := d.arrived ++ [b] }
      .ok (if d.queue.head = some b then ideStartRequest d b else d)

def ideInterruptHandler (d : Driver B) : Driver B :=
  match d.queue.head with
  | none => d
  | some b =>
    let d := { d with
      queue := { d.queue with head := d.queue.next b }
      Flags := Function.update d.Flags b ((d.Flags b ||| B_VALID) &&& ~~~B_DIRTY)
      completed := d.completed ++ [b] }
    match d.queue.head with
    | none => d
    | some c => ideStartRequest d c

/-- A process is outside of ideReadWrite or in its wait loop; `n` is the number of
its request. -/
inductive Place (B : Type)
  | outside
  | waits (b : B) (n : ℕ)

def Place.buffer : Place B → Option B
  | .outside => none
  | .waits b _ => some b

structure System (P B : Type) where
  driver : Driver B
  place : P → Place B

inductive Move (P B : Type)
  | request (p : P) (b : B) (flags : BitVec 32)
  | interrupt
  | test (p : P)

def step (s : System P B) : Move P B → Option (System P B)
  | .request p b flags =>
    match s.place p with
    | .outside =>
      (ideReadWrite s.driver b flags).toOption.map fun d =>
        ⟨d,Function.update s.place p (.waits b s.driver.arrived.length)⟩
    | .waits .. => none
  | .interrupt =>
    if s.driver.queue.head = none ∨ s.driver.completed.length < s.driver.started.length then
      some { s with driver := ideInterruptHandler s.driver }
    else none
  | .test p =>
    match s.place p with
    | .outside => none
    | .waits b _ =>
      if s.driver.Flags b &&& (B_VALID ||| B_DIRTY) = B_VALID then
        some { s with place := Function.update s.place p .outside }
      else some s

def initialSystem (P : Type) (flags : B → BitVec 32) : System P B :=
  ⟨⟨⟨none,fun _ => none⟩,flags,[],[],[]⟩,fun _ => .outside⟩

/-- A process calls with a buffer whose lock it holds, so no other process is inside
ideReadWrite with it. -/
def HoldsLock (s : System P B) : Move P B → Prop
  | .request _ b _ => ∀ q, (s.place q).buffer ≠ some b
  | _ => True

instance [Fintype P] (s : System P B) (m : Move P B) : Decidable (HoldsLock s m) := by
  cases m <;> unfold HoldsLock <;> infer_instance

inductive Effect (s : System P B) : Move P B → System P B → Prop
  | request {p : P} {b : B} {flags : BitVec 32} {l : Links B} (hp : s.place p = .outside)
      (hf : flags &&& (B_VALID ||| B_DIRTY) ≠ B_VALID)
      (hl : s.driver.queue.append (Fintype.card B + 1) b = some l) :
      Effect s (.request p b flags) ⟨{ s.driver with
        queue := l, Flags := Function.update s.driver.Flags b flags, arrived := s.driver.arrived ++ [b],
        started := if l.head = some b then s.driver.started ++ [b] else s.driver.started },
        Function.update s.place p (.waits b s.driver.arrived.length)⟩
  | idle (hq : s.driver.queue.head = none) : Effect s .interrupt s
  | complete {b : B} (hq : s.driver.queue.head = some b) : Effect s .interrupt { s with driver := { s.driver with
        queue := { s.driver.queue with head := s.driver.queue.next b }
        Flags := Function.update s.driver.Flags b ((s.driver.Flags b ||| B_VALID) &&& ~~~B_DIRTY)
        completed := s.driver.completed ++ [b]
        started := s.driver.started ++ (s.driver.queue.next b).toList } }
  | again {p : P} {b : B} {n : ℕ} (hp : s.place p = .waits b n) : Effect s (.test p) s
  | done {p : P} {b : B} {n : ℕ} (hp : s.place p = .waits b n)
      (hf : s.driver.Flags b &&& (B_VALID ||| B_DIRTY) = B_VALID) :
      Effect s (.test p) { s with place := Function.update s.place p .outside }

theorem effect_of_step {s t : System P B} {m : Move P B} (h : step s m = some t) : Effect s m t := by
  cases m with
  | request p b flags =>
    simp only [step] at h
    split at h
    · rename_i hp
      obtain ⟨d,hd,rfl⟩ := Option.map_eq_some_iff.mp h
      unfold ideReadWrite at hd
      split_ifs at hd with hf
      · cases hd
      · split at hd
        · cases hd
        · rename_i l hl
          cases hd
          have he := Effect.request hp hf hl
          dsimp only
          split_ifs at he ⊢ <;> exact he
    · cases h
  | interrupt =>
    simp only [step] at h
    split_ifs at h
    cases h
    unfold ideInterruptHandler
    cases hq : s.driver.queue.head with
    | none => exact .idle hq
    | some b =>
      have he := Effect.complete hq
      dsimp only
      cases hn : s.driver.queue.next b with
      | none => simpa [hn] using he
      | some c => simpa [hn,ideStartRequest] using he
  | test p =>
    simp only [step] at h
    split at h
    · cases h
    · rename_i hp
      split_ifs at h with hf
      · cases h
        exact .done hp hf
      · cases h
        exact .again hp

/-- The queue and the commands: what is queued is what has arrived and is not
completed, and only its head has been started. A buffer's flags show whether its
latest request is completed. -/
structure InOrder (s : System P B) (Q : List B) : Prop where
  queues : s.driver.queue.Queues Q
  arrived : s.driver.arrived = s.driver.completed ++ Q
  started : s.driver.started = s.driver.completed ++ Q.take 1
  pending : ∀ b ∈ Q, s.driver.Flags b &&& (B_VALID ||| B_DIRTY) ≠ B_VALID
  awaited : ∀ b ∈ Q, ∃ p n, s.place p = .waits b n
  numbered : ∀ p b n, s.place p = .waits b n → s.driver.arrived[n]? = some b

omit [DecidableEq P] [DecidableEq B] [Fintype B] in
theorem initialSystem_inOrder (flags : B → BitVec 32) : InOrder (initialSystem P flags) [] where
  queues := ⟨List.nodup_nil,rfl⟩
  arrived := rfl
  started := rfl
  pending b hb := by simp at hb
  awaited b hb := by simp at hb
  numbered p b n hp := by cases hp

theorem InOrder.request {s : System P B} {Q : List B} {p : P} {b : B} {flags : BitVec 32} {l : Links B}
    (h : InOrder s Q) (hp : s.place p = .outside) (hf : flags &&& (B_VALID ||| B_DIRTY) ≠ B_VALID)
    (hl : s.driver.queue.append (Fintype.card B + 1) b = some l) (hb : ∀ q, (s.place q).buffer ≠ some b) :
    InOrder ⟨{ s.driver with
        queue := l, Flags := Function.update s.driver.Flags b flags, arrived := s.driver.arrived ++ [b],
        started := if l.head = some b then s.driver.started ++ [b] else s.driver.started },
        Function.update s.place p (.waits b s.driver.arrived.length)⟩ (Q ++ [b]) := by
  have hbQ : b ∉ Q := by
    intro hm
    obtain ⟨q,n,hq⟩ := h.awaited b hm
    exact hb q (by rw [hq]; rfl)
  have hlen : Q.length < Fintype.card B + 1 := Nat.lt_succ_of_le h.queues.1.length_le_card
  obtain ⟨l',hl',hQ⟩ := h.queues.append hbQ hlen
  rw [hl] at hl'
  cases hl'
  have hwaits : ∀ q c n, Function.update s.place p (.waits b s.driver.arrived.length) q = .waits c n →
      (c = b ∧ n = s.driver.arrived.length) ∨ (c ≠ b ∧ s.place q = .waits c n) := by
    intro q c n hq
    by_cases hqp : q = p
    · subst hqp
      simp only [Function.update_self,Place.waits.injEq] at hq
      exact .inl ⟨hq.1.symm,hq.2.symm⟩
    · rw [Function.update_of_ne hqp] at hq
      exact .inr ⟨fun hcb => hb q (by rw [hq,hcb]; rfl),hq⟩
  refine ⟨hQ,by simp [h.arrived],?_,fun c hc => ?_,fun c hc => ?_,fun q c n hq => ?_⟩
  · dsimp only
    rw [hQ.head_eq,h.started]
    cases Q with
    | nil => simp
    | cons a Q =>
      have hab : a ≠ b := fun hab => hbQ (by simp [hab])
      simp [hab]
  · by_cases hcb : c = b
    · subst hcb
      simpa using hf
    · simpa [hcb] using h.pending c (by simpa [hcb] using hc)
  · by_cases hcb : c = b
    · exact ⟨p,_,by rw [hcb]; exact Function.update_self ..⟩
    · obtain ⟨q,n,hq⟩ := h.awaited c (by simpa [hcb] using hc)
      have hqp : q ≠ p := by
        rintro rfl
        rw [hp] at hq
        cases hq
      exact ⟨q,n,by simpa [hqp] using hq⟩
  · rcases hwaits q c n hq with ⟨rfl,rfl⟩ | ⟨-,hq⟩
    · simp
    · have hc := h.numbered q c n hq
      have hlt := (List.getElem?_eq_some_iff.mp hc).1
      rw [List.getElem?_append_left hlt]
      exact hc

omit [DecidableEq P] [Fintype B] in
theorem InOrder.complete {s : System P B} {Q : List B} {b : B} (h : InOrder s Q)
    (hq : s.driver.queue.head = some b) : ∃ Q', InOrder { s with driver := { s.driver with
        queue := { s.driver.queue with head := s.driver.queue.next b }
        Flags := Function.update s.driver.Flags b ((s.driver.Flags b ||| B_VALID) &&& ~~~B_DIRTY)
        completed := s.driver.completed ++ [b]
        started := s.driver.started ++ (s.driver.queue.next b).toList } } Q' := by
  cases Q with
  | nil =>
    rw [h.queues.head_eq] at hq
    cases hq
  | cons a Q =>
    obtain rfl : a = b := by
      rw [h.queues.head_eq] at hq
      exact Option.some.inj hq
    obtain ⟨haQ,hnd⟩ := List.nodup_cons.mp h.queues.1
    have hne : ∀ c ∈ Q, c ≠ a := fun c hc hca => haQ (hca ▸ hc)
    have hpop := h.queues.pop
    refine ⟨Q,hpop,by simp [h.arrived],?_,fun c hc => ?_,fun c hc => h.awaited c (by simp [hc]),h.numbered⟩
    · have hnext : s.driver.queue.next a = Q.head? := hpop.head_eq
      dsimp only
      rw [h.started,hnext]
      cases Q <;> simp
    · simpa [hne c hc] using h.pending c (by simp [hc])

omit [DecidableEq B] [Fintype B] in
theorem InOrder.done {s : System P B} {Q : List B} {p : P} {b : B} {n : ℕ} (h : InOrder s Q)
    (hp : s.place p = .waits b n) (hf : s.driver.Flags b &&& (B_VALID ||| B_DIRTY) = B_VALID) :
    InOrder { s with place := Function.update s.place p .outside } Q := by
  have hback : ∀ q c k, Function.update s.place p .outside q = .waits c k → s.place q = .waits c k := by
    intro q c k hq
    by_cases hqp : q = p
    · subst hqp
      rw [Function.update_self] at hq
      cases hq
    · rwa [Function.update_of_ne hqp] at hq
  refine ⟨h.queues,h.arrived,h.started,h.pending,fun c hc => ?_,fun q c k hq =>
    h.numbered q c k (hback q c k hq)⟩
  obtain ⟨q,k,hq⟩ := h.awaited c hc
  have hqp : q ≠ p := by
    rintro rfl
    rw [hp] at hq
    cases hq
    exact h.pending b hc hf
  exact ⟨q,k,by simpa [hqp] using hq⟩

theorem InOrder.step {s t : System P B} {Q : List B} {m : Move P B} (h : InOrder s Q) (hm : HoldsLock s m)
    (he : Effect s m t) : ∃ Q', InOrder t Q' := by
  cases he with
  | request hp hf hl => exact ⟨_,h.request hp hf hl hm⟩
  | idle hq => exact ⟨Q,h⟩
  | complete hq => exact h.complete hq
  | again hp => exact ⟨Q,h⟩
  | done hp hf => exact ⟨Q,h.done hp hf⟩

/-- Whenever idelock is free: the queue is a list without duplicates; it is what has
arrived and is not completed, in order of arrival; exactly its head has a started
and uncompleted command, and the commands were started in order of arrival, one
for each arrival. A process whose wait loop ends has its own request completed and
its buffer out of the queue, valid and clean. -/
theorem requests_served_in_order {flags : B → BitVec 32} {s : System P B} {ms : List (Move P B)}
    (h : Runs (guarded (graph step) HoldsLock) (initialSystem P flags) ms s) :
    ∃ Q : List B, s.driver.queue.Queues Q ∧
      s.driver.arrived = s.driver.completed ++ Q ∧ s.driver.started = s.driver.completed ++ Q.take 1 ∧
      ∀ p b n, s.place p = .waits b n →
        s.driver.arrived[n]? = some b ∧
        (s.driver.Flags b &&& (B_VALID ||| B_DIRTY) = B_VALID → s.driver.completed[n]? = some b ∧ b ∉ Q) := by
  obtain ⟨Q,hQ⟩ := h.invariant (I := fun s => ∃ Q, InOrder s Q) ⟨[],initialSystem_inOrder flags⟩
    (fun a m b ⟨Q,ha⟩ he => ha.step he.1 (effect_of_step he.2))
  refine ⟨Q,hQ.queues,hQ.arrived,hQ.started,fun p b n hp => ⟨hQ.numbered p b n hp,fun hf => ?_⟩⟩
  have hbQ : b ∉ Q := fun hm => hQ.pending b hm hf
  refine ⟨?_,hbQ⟩
  have hn := hQ.numbered p b n hp
  rw [hQ.arrived] at hn
  by_cases hlt : n < s.driver.completed.length
  · rwa [List.getElem?_append_left hlt] at hn
  · rw [List.getElem?_append_right (by omega)] at hn
    exact absurd (List.mem_of_getElem? hn) hbQ

local instance twoRequests_size : NeZero 2 := ⟨by decide⟩

def twoRequests : List (Move (Fin 2) (Fin 2)) := [.request 0 0 0,.request 1 1 B_DIRTY,.interrupt]

theorem requests_served_in_order_twoRequests : ∃ s : System (Fin 2) (Fin 2),
    Runs (guarded (graph step) HoldsLock) (initialSystem (Fin 2) fun _ => 0) twoRequests s ∧
    s.driver.started = [0,1] ∧ s.place 0 = .waits 0 0 ∧ s.driver.completed[0]? = some 0 := by
  have h : Runs (guarded (graph step) HoldsLock) (initialSystem (Fin 2) fun _ => 0) twoRequests _ :=
    Runs.of_execute_guarded (Option.some_get (by rfl)).symm
  obtain ⟨Q,-,-,-,hp⟩ := requests_served_in_order h
  exact ⟨_,h,by rfl,by rfl,((hp 0 0 0 (by rfl)).2 (by rfl)).1⟩

end UoDOS.Ide
