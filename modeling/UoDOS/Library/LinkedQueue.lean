import Mathlib

/-! # Singly linked queues

A queue is a head pointer and a next pointer in each element.
-/
namespace UoDOS.LinkedQueue

structure Links (ι : Type) where
  head : Option ι
  next : ι → Option ι

variable {ι : Type}

/-- A place that holds a pointer: the head, or the next field of an element. -/
abbrev Cell (ι : Type) := Option ι

def Links.get (l : Links ι) : Cell ι → Option ι
  | none => l.head
  | some b => l.next b

def Links.put [DecidableEq ι] (l : Links ι) (pp : Cell ι) (x : Option ι) : Links ι :=
  match pp with
  | none => { l with head := x }
  | some b => { l with next := Function.update l.next b x }

/-- `for (; *pp; pp = &(*pp)->next)`, with `none` if the given number of tests does
not end it. -/
def Links.findEnd (l : Links ι) : ℕ → Cell ι → Option (Cell ι)
  | 0, _ => none
  | n + 1, pp =>
    match l.get pp with
    | none => some pp
    | some b => l.findEnd n (some b)

/-- Following the pointers from `x` gives the listed elements and then null. -/
def Chained (next : ι → Option ι) : Option ι → List ι → Prop
  | x, [] => x = none
  | x, b :: Q => x = some b ∧ Chained next (next b) Q

/-- The queue holds the listed elements in their order, each once. -/
def Links.Queues (l : Links ι) (Q : List ι) : Prop := Q.Nodup ∧ Chained l.next l.head Q

theorem Chained.congr {f g : ι → Option ι} {x : Option ι} {Q : List ι} (h : Chained f x Q)
    (hg : ∀ b ∈ Q, g b = f b) : Chained g x Q := by
  induction Q generalizing x with
  | nil => exact h
  | cons b Q ih =>
    refine ⟨h.1,?_⟩
    rw [hg b (by simp)]
    exact ih h.2 (fun a ha => hg a (by simp [ha]))

theorem Chained.head {f : ι → Option ι} {x : Option ι} {Q : List ι} (h : Chained f x Q) : x = Q.head? := by
  cases Q with
  | nil => exact h
  | cons b Q => exact h.1

theorem Chained.extend [DecidableEq ι] {f : ι → Option ι} {x : Option ι} {Q : List ι} {a b : ι}
    (h : Chained f x (Q ++ [a])) (hd : (Q ++ [a]).Nodup) (hb : b ∉ Q ++ [a]) (hf : f b = none) :
    Chained (Function.update f a (some b)) x (Q ++ [a] ++ [b]) := by
  have hba : b ≠ a := fun hba => hb (by simp [hba])
  induction Q generalizing x with
  | nil =>
    refine ⟨h.1,by simp,?_⟩
    rw [Function.update_of_ne hba]
    exact hf
  | cons c Q ih =>
    obtain ⟨hc,hd⟩ := List.nodup_cons.mp hd
    have hca : c ≠ a := fun hca => hc (by simp [hca])
    refine ⟨h.1,?_⟩
    rw [Function.update_of_ne hca]
    exact ih h.2 hd (fun hm => hb (by simp [hm]))

theorem findEnd_queue {l : Links ι} {p : Cell ι} {Q : List ι} {n : ℕ} (h : Chained l.next (l.get p) Q)
    (hn : Q.length < n) : l.findEnd n p = some (Q.getLast?.or p) := by
  induction Q generalizing p n with
  | nil =>
    obtain ⟨n,rfl⟩ := Nat.exists_eq_add_of_lt hn
    have hnone : l.get p = none := h
    simp [Links.findEnd,hnone]
  | cons b Q ih =>
    obtain ⟨n,rfl⟩ : ∃ k, n = k + 1 := ⟨n - 1,by omega⟩
    obtain ⟨hb,h⟩ := h
    rw [Links.findEnd,hb]
    dsimp only
    rw [ih (p := some b) h (by simpa using hn),List.getLast?_cons]
    cases Q.getLast? <;> rfl

section Operations
variable [DecidableEq ι]

def Links.append (l : Links ι) (n : ℕ) (b : ι) : Option (Links ι) :=
  let l := { l with next := Function.update l.next b none }
  (l.findEnd n none).map fun pp => l.put pp (some b)

theorem Links.Queues.append {l : Links ι} {Q : List ι} {b : ι} {n : ℕ} (h : l.Queues Q) (hb : b ∉ Q)
    (hn : Q.length < n) : ∃ l', l.append n b = some l' ∧ l'.Queues (Q ++ [b]) := by
  have hc : Chained (Function.update l.next b none) l.head Q :=
    h.2.congr (fun a ha => Function.update_of_ne (fun hab : a = b => hb (hab ▸ ha)) _ _)
  have hend := findEnd_queue (l := { l with next := Function.update l.next b none }) (p := none) hc hn
  have hnodup : (Q ++ [b]).Nodup := List.nodup_append.mpr
    ⟨h.1,List.nodup_singleton b,fun a ha c hc hac => hb (by simp_all)⟩
  simp only [Links.append,hend,Option.map_some,Option.some.injEq,exists_eq_left']
  refine ⟨hnodup,?_⟩
  rcases List.eq_nil_or_concat Q with rfl | ⟨Q',a,rfl⟩
  · exact ⟨rfl,Function.update_self ..⟩
  · rw [List.concat_eq_append] at *
    rw [List.getLast?_concat]
    exact hc.extend h.1 hb (Function.update_self ..)

omit [DecidableEq ι] in
theorem Links.Queues.pop {l : Links ι} {Q : List ι} {b : ι} (h : l.Queues (b :: Q)) :
    ({ l with head := l.next b } : Links ι).Queues Q :=
  ⟨(List.nodup_cons.mp h.1).2,h.2.2⟩

omit [DecidableEq ι] in
theorem Links.Queues.head_eq {l : Links ι} {Q : List ι} (h : l.Queues Q) : l.head = Q.head? := h.2.head

end Operations

end UoDOS.LinkedQueue
