import Mathlib

/-! # Circular doubly linked lists with a sentinel

The nodes are the elements of `ι` and the sentinel `none`.
-/
namespace UoDOS.CircularList

structure Links (ι : Type) where
  Next : Option ι → Option ι
  Previous : Option ι → Option ι

variable {ι : Type}

def Links.Segment (l : Links ι) : Option ι → List ι → Option ι → Prop
  | u, [], v => l.Next u = v ∧ l.Previous v = u
  | u, b :: L, v => l.Next u = some b ∧ l.Previous (some b) = u ∧ l.Segment (some b) L v

def Links.Lists (l : Links ι) (L : List ι) : Prop := L.Nodup ∧ l.Segment none L none

theorem segment_append {l : Links ι} {u v : Option ι} {b : ι} {A B : List ι} :
    l.Segment u (A ++ b :: B) v ↔ l.Segment u A (some b) ∧ l.Segment (some b) B v := by
  induction A generalizing u with
  | nil => simp [Links.Segment,and_assoc]
  | cons a A ih => simp [Links.Segment,ih,and_assoc]

theorem segment_frame {l l' : Links ι} {u v : Option ι} {L : List ι} (h : l.Segment u L v)
    (hn : ∀ z, z = u ∨ (∃ b ∈ L, z = some b) → l'.Next z = l.Next z)
    (hp : ∀ z, z = v ∨ (∃ b ∈ L, z = some b) → l'.Previous z = l.Previous z) : l'.Segment u L v := by
  induction L generalizing u with
  | nil => exact ⟨(hn u (.inl rfl)).trans h.1,(hp v (.inl rfl)).trans h.2⟩
  | cons b L ih =>
    obtain ⟨h1,h2,h3⟩ := h
    refine ⟨(hn u (.inl rfl)).trans h1,(hp _ (.inr ⟨b,by simp,rfl⟩)).trans h2,ih h3 ?_ ?_⟩
    · rintro z (rfl | ⟨a,ha,rfl⟩)
      · exact hn _ (.inr ⟨b,by simp,rfl⟩)
      · exact hn _ (.inr ⟨a,by simp [ha],rfl⟩)
    · rintro z (rfl | ⟨a,ha,rfl⟩)
      · exact hp _ (.inl rfl)
      · exact hp _ (.inr ⟨a,by simp [ha],rfl⟩)

theorem segment_restart {l l' : Links ι} {u v w : Option ι} {L : List ι} (h : l.Segment u L v)
    (hd : L.Nodup) (hv : ∀ b ∈ L, v ≠ some b) (hw : l'.Next w = l.Next u)
    (hp : l'.Previous (l.Next u) = w) (hn : ∀ b ∈ L, l'.Next (some b) = l.Next (some b))
    (hq : ∀ z, z ≠ l.Next u → z = v ∨ (∃ b ∈ L, z = some b) → l'.Previous z = l.Previous z) :
    l'.Segment w L v := by
  cases L with
  | nil => exact ⟨hw.trans h.1,by rw [← h.1]; exact hp⟩
  | cons b L =>
    obtain ⟨h1,h2,h3⟩ := h
    rw [h1] at hw hp hq
    refine ⟨hw,hp,segment_frame h3 ?_ ?_⟩
    · rintro z (rfl | ⟨a,ha,rfl⟩)
      · exact hn b (by simp)
      · exact hn a (by simp [ha])
    · rintro z (rfl | ⟨a,ha,rfl⟩)
      · exact hq _ (hv b (by simp)) (.inl rfl)
      · refine hq _ ?_ (.inr ⟨a,by simp [ha],rfl⟩)
        rintro hab
        cases hab
        exact (List.nodup_cons.mp hd).1 ha

theorem segment_next {l : Links ι} {u : Option ι} {L : List ι} (h : l.Segment u L none) :
    l.Next u = L.head? := by
  cases L with
  | nil => exact h.1
  | cons b L => exact h.1

theorem segment_previous {l : Links ι} {v : Option ι} {L : List ι} (h : l.Segment none L v) :
    l.Previous v = L.getLast? := by
  rcases List.eq_nil_or_concat L with rfl | ⟨L',b,rfl⟩
  · exact h.2
  · rw [List.concat_eq_append] at h ⊢
    rw [List.getLast?_concat]
    exact (segment_append.mp h).2.2

section Operations
variable [DecidableEq ι]

/-- `b->Next->Previous = b->Previous; b->Previous->Next = b->Next`. -/
def Links.unlink (l : Links ι) (b : ι) : Links ι :=
  let l₁ := { l with Previous := Function.update l.Previous (l.Next (some b)) (l.Previous (some b)) }
  { l₁ with Next := Function.update l₁.Next (l₁.Previous (some b)) (l₁.Next (some b)) }

/-- `b->Next = Head.Next; b->Previous = &Head; Head.Next->Previous = b; Head.Next = b`. -/
def Links.insertFront (l : Links ι) (b : ι) : Links ι :=
  let l₁ := { l with Next := Function.update l.Next (some b) (l.Next none) }
  let l₂ := { l₁ with Previous := Function.update l₁.Previous (some b) none }
  let l₃ := { l₂ with Previous := Function.update l₂.Previous (l₂.Next none) (some b) }
  { l₃ with Next := Function.update l₃.Next none (some b) }

theorem Links.Lists.insertFront {l : Links ι} {L : List ι} {b : ι} (h : l.Lists L) (hb : b ∉ L) :
    (l.insertFront b).Lists (b :: L) := by
  have hfirst : l.Next none ≠ some b := by
    rw [segment_next h.2]
    exact fun he => hb (List.mem_of_mem_head? he)
  have hne : ∀ a ∈ L, a ≠ b := fun a ha hab => hb (hab ▸ ha)
  refine ⟨List.nodup_cons.mpr ⟨hb,h.1⟩,?_,?_,?_⟩
  · simp [Links.insertFront]
  · simp [Links.insertFront,Ne.symm hfirst]
  · refine segment_restart h.2 h.1 (by simp) ?_ ?_ ?_ ?_
    · simp [Links.insertFront]
    · simp [Links.insertFront]
    · intro a ha
      simp [Links.insertFront,hne a ha]
    · rintro z hz hmem
      have hzb : z ≠ some b := by
        rcases hmem with rfl | ⟨a,ha,rfl⟩
        · simp
        · simpa using hne a ha
      simp [Links.insertFront,hz,hzb]

theorem Links.Lists.unlink_next {l : Links ι} {A B : List ι} {b : ι} (h : l.Lists (A ++ b :: B)) :
    (l.unlink b).Next = Function.update l.Next A.getLast? B.head? := by
  obtain ⟨hA,hB⟩ := segment_append.mp h.2
  have hbB : b ∉ B := (List.nodup_cons.mp (List.nodup_append.mp h.1).2.1).1
  have hnext : some b ≠ B.head? := fun he => hbB (List.mem_of_mem_head? he.symm)
  simp [Links.unlink,segment_next hB,segment_previous hA,hnext]

theorem Links.Lists.unlink_previous {l : Links ι} {A B : List ι} {b : ι} (h : l.Lists (A ++ b :: B)) :
    (l.unlink b).Previous = Function.update l.Previous B.head? A.getLast? := by
  obtain ⟨hA,hB⟩ := segment_append.mp h.2
  simp [Links.unlink,segment_next hB,segment_previous hA]

theorem Links.Lists.unlink {l : Links ι} {A B : List ι} {b : ι} (h : l.Lists (A ++ b :: B)) :
    (l.unlink b).Lists (A ++ B) := by
  have hN := h.unlink_next
  have hP := h.unlink_previous
  obtain ⟨hd,hs⟩ := h
  obtain ⟨hA,hB⟩ := segment_append.mp hs
  obtain ⟨hdA,hdbB,hAbB⟩ := List.nodup_append.mp hd
  have hAB : ∀ a ∈ A, a ∉ B := fun a ha hb => hAbB a ha a (by simp [hb]) rfl
  refine ⟨hd.sublist (List.Sublist.append_left (List.sublist_cons_self b B) A),?_⟩
  have hrest : (l.unlink b).Segment A.getLast? B none := by
    refine segment_restart hB (List.nodup_cons.mp hdbB).2 (by simp) (by simp [hN,segment_next hB])
      (by simp [hP,segment_next hB]) ?_ ?_
    · intro c hc
      have hne : some c ≠ A.getLast? := fun he => hAB c (List.mem_of_getLast? he.symm) hc
      simp [hN,hne]
    · intro z hz _
      rw [segment_next hB] at hz
      simp [hP,hz]
  rcases List.eq_nil_or_concat A with rfl | ⟨A',a,rfl⟩
  · exact hrest
  · rw [List.concat_eq_append] at *
    rw [List.getLast?_concat] at hrest hN
    have haA : ∀ c ∈ A', c ≠ a := fun c hc => (List.nodup_append.mp hdA).2.2 c hc a (by simp)
    have hfront : (l.unlink b).Segment none A' (some a) := by
      refine segment_frame (segment_append.mp hA).1 ?_ ?_
      · rintro z (rfl | ⟨c,hc,rfl⟩)
        · simp [hN]
        · simp [hN,haA c hc]
      · rintro z hz
        have hzB : z ≠ B.head? := by
          rintro rfl
          rcases hz with hz | ⟨c,hc,hz⟩
          · exact hAB a (by simp) (List.mem_of_mem_head? hz)
          · exact hAB c (by simp [hc]) (List.mem_of_mem_head? hz)
        simp [hP,hzB]
    simpa using segment_append.mpr ⟨hfront,hrest⟩

end Operations

section Scan
variable (follow : Option ι → Option ι) (test : ι → Bool)

/-- The loop `for (b = start; b != &Head; b = follow b) if (test b) return b`, with
`none` if the given number of iterations does not end it. -/
def scan : ℕ → Option ι → Option (Option ι)
  | 0, _ => none
  | _ + 1, none => some none
  | n + 1, some b => if test b then some (some b) else scan n (follow (some b))

theorem scan_next {l : Links ι} {test : ι → Bool} {u : Option ι} {L : List ι} {n : ℕ}
    (h : l.Segment u L none) (hn : L.length < n) : scan l.Next test n (l.Next u) = some (L.find? test) := by
  induction L generalizing u n with
  | nil =>
    obtain ⟨n,rfl⟩ := Nat.exists_eq_add_of_lt hn
    simp [h.1,scan]
  | cons b L ih =>
    obtain ⟨n,rfl⟩ : ∃ m, n = m + 1 := ⟨n - 1,by omega⟩
    obtain ⟨h1,-,h3⟩ := h
    rw [h1,scan,ih h3 (by simpa using hn),List.find?_cons]
    cases test b <;> rfl

theorem scan_previous {l : Links ι} {test : ι → Bool} {v : Option ι} {L : List ι} {n : ℕ}
    (h : l.Segment none L v) (hn : L.length < n) :
    scan l.Previous test n (l.Previous v) = some (L.reverse.find? test) := by
  induction L using List.reverseRecOn generalizing v n with
  | nil =>
    obtain ⟨n,rfl⟩ := Nat.exists_eq_add_of_lt hn
    simp [h.2,scan]
  | append_singleton L b ih =>
    obtain ⟨n,rfl⟩ : ∃ m, n = m + 1 := ⟨n - 1,by omega⟩
    obtain ⟨h1,-,h3⟩ := segment_append.mp h
    rw [h3,scan,ih h1 (by simpa using hn),List.reverse_append]
    simp only [List.reverse_cons,List.reverse_nil,List.nil_append,List.singleton_append,List.find?_cons]
    cases test b <;> rfl

end Scan

section Visit
variable (follow : Option ι → Option ι)

/-- The nodes that `for (b = start; b != &Head; b = follow b)` visits, with `none`
if the given number of iterations does not end it. -/
def visit : ℕ → Option ι → Option (List ι)
  | 0, _ => none
  | _ + 1, none => some []
  | n + 1, some b => (visit n (follow (some b))).map (b :: ·)

theorem visit_next {l : Links ι} {u : Option ι} {L : List ι} {n : ℕ} (h : l.Segment u L none)
    (hn : L.length < n) : visit l.Next n (l.Next u) = some L := by
  induction L generalizing u n with
  | nil =>
    obtain ⟨n,rfl⟩ := Nat.exists_eq_add_of_lt hn
    simp [h.1,visit]
  | cons b L ih =>
    obtain ⟨n,rfl⟩ : ∃ m, n = m + 1 := ⟨n - 1,by omega⟩
    obtain ⟨h1,-,h3⟩ := h
    simp [h1,visit,ih h3 (by simpa using hn)]

theorem visit_previous {l : Links ι} {v : Option ι} {L : List ι} {n : ℕ} (h : l.Segment none L v)
    (hn : L.length < n) : visit l.Previous n (l.Previous v) = some L.reverse := by
  induction L using List.reverseRecOn generalizing v n with
  | nil =>
    obtain ⟨n,rfl⟩ := Nat.exists_eq_add_of_lt hn
    simp [h.2,visit]
  | append_singleton L b ih =>
    obtain ⟨n,rfl⟩ : ∃ m, n = m + 1 := ⟨n - 1,by omega⟩
    obtain ⟨h1,-,h3⟩ := segment_append.mp h
    simp [h3,visit,ih h1 (by simpa using hn)]

end Visit

end UoDOS.CircularList
