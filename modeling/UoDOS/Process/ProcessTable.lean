import UoDOS.Process.State

/-! # The process table

The fields of a Process that fork, exit, wait, kill and sleep of proc.c keep under
`processTable.Lock`, and what each of these calls does to the table between an
acquisition of the lock and its release.
-/
namespace UoDOS.Processes
open ProcState Function

/-- What a process can sleep on: a Process structure, or another address. -/
inductive Channel
  | process (p : Fin NPROC)
  | other (address : ℕ)
  deriving DecidableEq

structure Slot where
  State : ProcState
  ProcessId : UInt32
  Parent : Option (Fin NPROC)
  Chan : Option Channel
  IsKilled : Bool

abbrev ProcessTable := Fin NPROC → Slot

/-- The slot that initialiseFirstUserProcess gets from an empty table. -/
def initproc : Fin NPROC := ⟨0,by decide⟩

def firstTable : ProcessTable := fun p =>
  if p = initproc then ⟨RUNNABLE,1,none,none,false⟩ else ⟨UNUSED,0,none,none,false⟩

def wakeup1 (chan : Option Channel) (t : ProcessTable) : ProcessTable := fun p =>
  if (t p).State = SLEEPING ∧ (t p).Chan = chan then { t p with State := RUNNABLE } else t p

def allocateSlot (t : ProcessTable) (nextpid : UInt32) : Option (Fin NPROC × ProcessTable) :=
  ((List.finRange NPROC).find? (fun p => (t p).State = UNUSED)).map (fun p =>
    (p,update t p { t p with State := EMBRYO, ProcessId := nextpid }))

def setParent (t : ProcessTable) (p : Fin NPROC) (parent : Option (Fin NPROC)) : ProcessTable :=
  update t p { t p with Parent := parent }

def passToInit (curproc : Fin NPROC) (t : ProcessTable) (p : Fin NPROC) : ProcessTable :=
  if (t p).Parent = some curproc then
    if (t p).State = ZOMBIE then wakeup1 (some (.process initproc)) (setParent t p (some initproc))
    else setParent t p (some initproc)
  else t

def exitSlot (curproc : Fin NPROC) (t : ProcessTable) : ProcessTable :=
  let t := wakeup1 ((t curproc).Parent.map .process) t
  let t := (List.finRange NPROC).foldl (passToInit curproc) t
  update t curproc { t curproc with State := ZOMBIE }

inductive WaitResult
  | reaped (p : Fin NPROC) (pid : UInt32)
  | failed
  | asleep
  deriving DecidableEq

def waitSlot (curproc : Fin NPROC) (t : ProcessTable) : WaitResult × ProcessTable :=
  match (List.finRange NPROC).find? (fun p =>
      (t p).Parent = some curproc ∧ (t p).State = ZOMBIE) with
  | some p => (.reaped p (t p).ProcessId,update t p
      { t p with ProcessId := 0, Parent := none, IsKilled := false, State := UNUSED })
  | none =>
    if (∀ p, (t p).Parent ≠ some curproc) ∨ (t curproc).IsKilled = true then (.failed,t)
    else (.asleep,update t curproc
      { t curproc with Chan := some (.process curproc), State := SLEEPING })

def kill (pid : UInt32) (t : ProcessTable) : Option (Fin NPROC) × ProcessTable :=
  match (List.finRange NPROC).find? (fun p => (t p).ProcessId = pid) with
  | some p => (some p,update t p { t p with
      IsKilled := true
      State := if (t p).State = SLEEPING then RUNNABLE else (t p).State })
  | none => (none,t)

variable {t t' : ProcessTable} {p q i : Fin NPROC}

structure Woken (t t' : ProcessTable) : Prop where
  chan : ∀ q, (t' q).Chan = (t q).Chan
  pid : ∀ q, (t' q).ProcessId = (t q).ProcessId
  state : ∀ q, (t' q).State = (t q).State ∨ (t q).State = SLEEPING ∧ (t' q).State = RUNNABLE

theorem Woken.refl (t : ProcessTable) : Woken t t :=
  ⟨fun _ => rfl,fun _ => rfl,fun _ => .inl rfl⟩

theorem Woken.trans {u : ProcessTable} (h : Woken t t') (h' : Woken t' u) : Woken t u := by
  constructor
  · intro q
    rw [h'.chan,h.chan]
  · intro q
    rw [h'.pid,h.pid]
  · intro q
    rcases h.state q with h1 | ⟨h1,h2⟩
    · rcases h'.state q with h3 | ⟨h3,h4⟩
      · exact .inl (h3.trans h1)
      · exact .inr ⟨h1.symm.trans h3,h4⟩
    · rcases h'.state q with h3 | ⟨h3,_⟩
      · exact .inr ⟨h1,h3.trans h2⟩
      · rw [h2] at h3
        cases h3

theorem Woken.sleeping (h : Woken t t') (hq : (t' q).State = SLEEPING) : (t q).State = SLEEPING := by
  rcases h.state q with h1 | ⟨h1,_⟩
  · rw [← h1,hq]
  · exact h1

theorem Woken.same {x : ProcState} (h : Woken t t') (h1 : x ≠ SLEEPING) (h2 : x ≠ RUNNABLE) :
    (t' q).State = x ↔ (t q).State = x := by
  rcases h.state q with h3 | ⟨h3,h4⟩
  · rw [h3]
  · rw [h3,h4]
    exact ⟨fun h => absurd h.symm h2,fun h => absurd h.symm h1⟩

@[simp] theorem wakeup1_parent (c : Option Channel) (t : ProcessTable) (p : Fin NPROC) :
    (wakeup1 c t p).Parent = (t p).Parent := by
  unfold wakeup1
  split_ifs <;> rfl

theorem woken_wakeup1 (c : Option Channel) (t : ProcessTable) : Woken t (wakeup1 c t) := by
  constructor
  · intro q
    unfold wakeup1
    split_ifs <;> rfl
  · intro q
    unfold wakeup1
    split_ifs <;> rfl
  · intro q
    unfold wakeup1
    split_ifs with h
    · exact .inr ⟨h.1,rfl⟩
    · exact .inl rfl

theorem wakeup1_awake {c : Option Channel} (h : (t p).Chan = c) :
    (wakeup1 c t p).State ≠ SLEEPING := by
  unfold wakeup1
  split_ifs with hs
  · simp
  · intro hp
    exact hs ⟨hp,h⟩

theorem woken_setParent (t : ProcessTable) (p : Fin NPROC) (parent : Option (Fin NPROC)) :
    Woken t (setParent t p parent) := by
  constructor <;> intro q <;> rcases eq_or_ne q p with rfl | hq <;> simp_all [setParent]

theorem setParent_parent (t : ProcessTable) (p : Fin NPROC) (parent : Option (Fin NPROC))
    (q : Fin NPROC) : (setParent t p parent q).Parent = if q = p then parent else (t q).Parent := by
  rcases eq_or_ne q p with rfl | hq <;> simp_all [setParent]

theorem woken_passToInit (t : ProcessTable) (p i : Fin NPROC) : Woken t (passToInit p t i) := by
  unfold passToInit
  split_ifs
  · exact (woken_setParent t i _).trans (woken_wakeup1 _ _)
  · exact woken_setParent t i _
  · exact Woken.refl t

theorem passToInit_parent (t : ProcessTable) (p i q : Fin NPROC) : (passToInit p t i q).Parent =
    if q = i ∧ (t q).Parent = some p then some initproc else (t q).Parent := by
  unfold passToInit
  rcases eq_or_ne q i with rfl | hq
  · split_ifs <;> simp_all [setParent_parent]
  · split_ifs <;> simp_all [setParent_parent]

theorem passToInit_awake (hp : (t i).Parent = some p) (hz : (t i).State = ZOMBIE)
    (hc : (t initproc).Chan = some (.process initproc)) :
    (passToInit p t i initproc).State ≠ SLEEPING := by
  unfold passToInit
  rw [if_pos hp,if_pos hz]
  apply wakeup1_awake
  rw [(woken_setParent t i _).chan,hc]

theorem foldl_passToInit {l : List (Fin NPROC)} (hl : l.Nodup) (t : ProcessTable) (p : Fin NPROC) :
    Woken t (l.foldl (passToInit p) t) ∧
      (∀ q, (l.foldl (passToInit p) t q).Parent =
        if q ∈ l ∧ (t q).Parent = some p then some initproc else (t q).Parent) ∧
      ∀ i ∈ l, (t i).Parent = some p → (t i).State = ZOMBIE →
        (t initproc).Chan = some (.process initproc) →
          (l.foldl (passToInit p) t initproc).State ≠ SLEEPING := by
  induction l generalizing t with
  | nil => exact ⟨Woken.refl t,by simp,by simp⟩
  | cons j l ih =>
    obtain ⟨hj,hl⟩ := List.nodup_cons.mp hl
    obtain ⟨hw,hpar,hz⟩ := ih hl (passToInit p t j)
    have h1 := woken_passToInit t p j
    refine ⟨h1.trans hw,?_,?_⟩
    · intro q
      rw [List.foldl_cons,hpar,passToInit_parent]
      rcases eq_or_ne q j with rfl | hq
      · simp [hj]
      · simp [hq]
    · intro i hi hp hs hc
      rcases List.mem_cons.mp hi with rfl | hil
      · intro hsl
        exact passToInit_awake hp hs hc (hw.sleeping hsl)
      · have hij : i ≠ j := fun h => hj (h ▸ hil)
        apply hz i hil
        · simpa [passToInit_parent,hij] using hp
        · exact (h1.same (by decide) (by decide)).mpr hs
        · rw [h1.chan,hc]

structure Exited (p : Fin NPROC) (t t' : ProcessTable) : Prop where
  zombie : (t' p).State = ZOMBIE
  parent : ∀ q, (t' q).Parent = if (t q).Parent = some p then some initproc else (t q).Parent
  chan : ∀ q, (t' q).Chan = (t q).Chan
  pid : ∀ q, (t' q).ProcessId = (t q).ProcessId
  state : ∀ q ≠ p, (t' q).State = (t q).State ∨ (t q).State = SLEEPING ∧ (t' q).State = RUNNABLE
  parent_awake : ∀ q, (t p).Parent = some q → (t q).Chan = some (.process q) →
    (t' q).State ≠ SLEEPING
  init_awake : ∀ i, (t i).Parent = some p → (t i).State = ZOMBIE →
    (t initproc).Chan = some (.process initproc) → (t' initproc).State ≠ SLEEPING

theorem exited_exitSlot (t : ProcessTable) (p : Fin NPROC) : Exited p t (exitSlot p t) := by
  have h1 := woken_wakeup1 ((t p).Parent.map .process) t
  obtain ⟨h2,hpar,hz⟩ := foldl_passToInit (List.nodup_finRange NPROC)
    (wakeup1 ((t p).Parent.map .process) t) p
  have hw := h1.trans h2
  have hsl : ∀ q, (exitSlot p t q).State = SLEEPING →
      ((List.finRange NPROC).foldl (passToInit p) (wakeup1 ((t p).Parent.map .process) t) q).State
        = SLEEPING := by
    intro q hq
    rcases eq_or_ne q p with rfl | hqp
    · simp [exitSlot] at hq
    · simpa [exitSlot,hqp] using hq
  constructor
  · simp [exitSlot]
  · intro q
    have hq := hpar q
    simp only [List.mem_finRange,true_and,wakeup1_parent] at hq
    rcases eq_or_ne q p with rfl | hqp
    · simpa [exitSlot] using hq
    · simpa [exitSlot,hqp] using hq
  · intro q
    rcases eq_or_ne q p with rfl | hqp
    · simpa [exitSlot] using hw.chan q
    · simpa [exitSlot,hqp] using hw.chan q
  · intro q
    rcases eq_or_ne q p with rfl | hqp
    · simpa [exitSlot] using hw.pid q
    · simpa [exitSlot,hqp] using hw.pid q
  · intro q hqp
    simpa [exitSlot,hqp] using hw.state q
  · intro q hp hc hq
    have hs := h2.sleeping (hsl q hq)
    apply wakeup1_awake (t := t) (p := q) (c := (t p).Parent.map .process) _ hs
    rw [hp,hc]
    rfl
  · intro i hp hs hc hq
    apply hz i (List.mem_finRange i) _ _ _ (hsl initproc hq)
    · rw [wakeup1_parent,hp]
    · exact (h1.same (by decide) (by decide)).mpr hs
    · rw [h1.chan,hc]

theorem allocateSlot_eq {n : UInt32} (h : allocateSlot t n = some (p,t')) :
    (t p).State = UNUSED ∧
      t' = update t p { t p with State := EMBRYO, ProcessId := n } := by
  obtain ⟨q,hq,hp⟩ := Option.map_eq_some_iff.mp h
  cases hp
  have hs := List.find?_some hq
  exact ⟨by simpa using hs,rfl⟩

theorem waitSlot_cases (p : Fin NPROC) (t : ProcessTable) :
    (∃ i, (t i).Parent = some p ∧ (t i).State = ZOMBIE ∧
      waitSlot p t = (.reaped i (t i).ProcessId,update t i
        { t i with ProcessId := 0, Parent := none, IsKilled := false, State := UNUSED })) ∨
    waitSlot p t = (.failed,t) ∨
    (∀ i, (t i).Parent = some p → (t i).State ≠ ZOMBIE) ∧
      waitSlot p t = (.asleep,update t p
        { t p with Chan := some (.process p), State := SLEEPING }) := by
  unfold waitSlot
  split
  · rename_i i hi
    have hs := List.find?_some hi
    simp only [decide_eq_true_eq] at hs
    exact .inl ⟨i,hs.1,hs.2,rfl⟩
  · rename_i hn
    split_ifs
    · exact .inr (.inl rfl)
    · right
      right
      refine ⟨?_,rfl⟩
      intro i hp hz
      have hi := List.find?_eq_none.mp hn i (List.mem_finRange i)
      simp only [decide_eq_true_eq] at hi
      exact hi ⟨hp,hz⟩

theorem woken_kill (pid : UInt32) (t : ProcessTable) : Woken t (kill pid t).2 := by
  unfold kill
  split
  · rename_i p hp
    constructor
    · intro q
      rcases eq_or_ne q p with rfl | hq <;> simp_all
    · intro q
      rcases eq_or_ne q p with rfl | hq <;> simp_all
    · intro q
      rcases eq_or_ne q p with rfl | hq
      · by_cases hs : (t q).State = SLEEPING <;> simp [hs]
      · simp [hq]
  · exact Woken.refl t

theorem kill_parent (pid : UInt32) (t : ProcessTable) (q : Fin NPROC) :
    ((kill pid t).2 q).Parent = (t q).Parent := by
  unfold kill
  split
  · rename_i p hp
    rcases eq_or_ne q p with rfl | hq <;> simp_all
  · rfl

end UoDOS.Processes
