import UoDOS.Library.ForkingPrograms
import UoDOS.Library.Transition

/-! # Runs of programs that fork

No run is longer than the programs it starts with, and a run without a failing call stops
only when every process is dead and every call of the programs has been made once.
-/
namespace UoDOS.ForkingPrograms
open Transition

variable {ν : Type*} {N : ℕ}

section Totals
variable {q : Proc ν N} {s s' : State ν N} {l : Label} (f : Proc ν N → ℕ)

def State.total (s : State ν N) : ℕ := (s.procs.map f).sum

theorem sum_map_set {procs : List (Proc ν N)} {i : ℕ} {a b : Proc ν N} (h : procs[i]? = some a) :
    ((procs.set i b).map f).sum + f a = (procs.map f).sum + f b := by
  induction procs generalizing i with
  | nil => simp at h
  | cons c procs ih =>
    cases i with
    | zero =>
      obtain rfl : c = a := by simpa using h
      simp only [List.set_cons_zero,List.map_cons,List.sum_cons]
      omega
    | succ i =>
      have hi := ih (i := i) (by simpa using h)
      simp only [List.set_cons_succ,List.map_cons,List.sum_cons]
      omega

theorem total_put {pid : ℕ} (h : s.procs[pid]? = some q) (o : Outcome ν N) :
    (s.put pid o).total f + f q = s.total f + (f o.proc + (o.child.map f).sum) := by
  have hset := sum_map_set f (b := o.proc) h
  simp only [State.total,State.put,List.map_append,List.sum_append]
  omega

theorem total_step (hf : ∀ c : Proc ν N, c.life = .zombie → f { c with life := .reaped } = f c)
    (hs : step s l = some s') :
    ∃ q ∈ s.procs, q.life = .running ∧ s'.made = s.made ++ (q.act l.pid l.ok).made ∧
      s'.total f + f q =
        s.total f + (f (q.act l.pid l.ok).proc + ((q.act l.pid l.ok).child.map f).sum) := by
  obtain ⟨q,hq,hl,rfl | ⟨c,hc,hz,hne,rfl⟩⟩ := step_cases hs
  · exact ⟨q,List.mem_of_getElem? hq,hl,rfl,total_put f hq _⟩
  · refine ⟨q,List.mem_of_getElem? hq,hl,rfl,?_⟩
    have hq' : (s.procs.set l.child { c with life := .reaped })[l.pid]? = some q := by
      rw [List.getElem?_set_ne hne,hq]
    rw [total_put f (s := ⟨_,s.made⟩) hq']
    have hset := sum_map_set f (b := { c with life := .reaped }) hc
    rw [hf c hz] at hset
    simp only [State.total]
    omega

def Proc.left (q : Proc ν N) : ℕ := if q.life = .running then q.prog.size else 0

theorem act_left (hl : q.life = .running) (pid : ℕ) (ok : Bool) :
    (q.act pid ok).proc.left + ((q.act pid ok).child.map Proc.left).sum < q.left := by
  obtain ⟨prog,p,T,parent,life⟩ := q
  dsimp only at hl
  subst hl
  cases prog with
  | exec n => cases ok <;> simp [Proc.act,Proc.left,Prog.size]
  | close n fd k | dup n fd k | wait n k => simp [Proc.act,Proc.left,Prog.size]
  | openFile n k =>
    have hk := k.size_pos
    cases ok <;> cases hT : T.openFile n <;> simp [Proc.act,Proc.left,Prog.size,Proc.exits,hT] <;> omega
  | pipe n k =>
    have hk := k.size_pos
    cases ok <;> cases hT : T.pipe n <;> simp [Proc.act,Proc.left,Prog.size,Proc.exits,hT] <;> omega
  | fork n child k =>
    have hk := k.size_pos
    cases ok with
    | true =>
      simp only [Proc.act,Proc.left,Prog.size,if_true,List.map_cons,List.map_nil,List.sum_cons,List.sum_nil]
      omega
    | false =>
      simp [Proc.act,Proc.left,Prog.size,Proc.exits]
      omega
  | exit n | image n => simp [Proc.act,Proc.left,Prog.size]

theorem left_step (hs : step s l = some s') : s'.total Proc.left < s.total Proc.left := by
  obtain ⟨q,-,hl,-,ht⟩ := total_step Proc.left (fun c hc => by simp [Proc.left,hc]) hs
  have hq := act_left hl l.pid l.ok
  omega

theorem run_length {ls : List Label} (h : Runs (graph step) s ls s') :
    ls.length + s'.total Proc.left ≤ s.total Proc.left := by
  induction h with
  | refl => simp
  | snoc _ he ih =>
    have hs := left_step he
    simp only [List.length_append,List.length_singleton]
    omega

variable [BEq ν]

def State.calls (s : State ν N) (n : ν) : ℕ :=
  s.made.count n + s.total (fun q => q.prog.nodes.count n)

theorem act_nodes_le (q : Proc ν N) (pid : ℕ) (ok : Bool) (n : ν) :
    (q.act pid ok).made.count n + ((q.act pid ok).proc.prog.nodes.count n +
      ((q.act pid ok).child.map (fun c => c.prog.nodes.count n)).sum) ≤ q.prog.nodes.count n := by
  obtain ⟨prog,p,T,parent,life⟩ := q
  cases prog with
  | exec m => cases ok <;> simp [Proc.act,Prog.nodes]
  | close m fd k | dup m fd k | wait m k => simp [Proc.act,Prog.nodes]
  | openFile m k =>
    cases ok <;> cases hT : T.openFile m <;>
      simp [Proc.act,Prog.nodes,Proc.exits,hT,List.count_cons,add_comm]
  | pipe m k =>
    cases ok <;> cases hT : T.pipe m <;>
      simp [Proc.act,Prog.nodes,Proc.exits,hT,List.count_cons,add_comm]
  | fork m child k => cases ok <;> simp [Proc.act,Prog.nodes,Proc.exits,List.count_append,add_comm]
  | exit m | image m => simp [Proc.act,Prog.nodes]

theorem Safe.act_nodes {H : Prog ν → Table ν N → Prop} (h : Safe H q.prog q.p q.table) (pid : ℕ) (n : ν) :
    (q.act pid true).made.count n + ((q.act pid true).proc.prog.nodes.count n +
      ((q.act pid true).child.map (fun c => c.prog.nodes.count n)).sum) = q.prog.nodes.count n := by
  obtain ⟨prog,p,T,parent,life⟩ := q
  cases prog with
  | exec m => simp [Proc.act,Prog.nodes]
  | close m fd k | dup m fd k | wait m k => simp [Proc.act,Prog.nodes]
  | openFile m k =>
    obtain ⟨-,-,T',hT,-⟩ := h
    simp [Proc.act,Prog.nodes,show T.openFile m = some T' from hT,List.count_cons,add_comm]
  | pipe m k =>
    obtain ⟨-,-,fd0,fd1,T',hT,-⟩ := h
    simp [Proc.act,Prog.nodes,show T.pipe m = some (fd0,fd1,T') from hT,List.count_cons,add_comm]
  | fork m child k => simp [Proc.act,Prog.nodes,List.count_append,add_comm]
  | exit m | image m => simp [Proc.act,Prog.nodes]

theorem calls_step_le (hs : step s l = some s') (n : ν) : s'.calls n ≤ s.calls n := by
  obtain ⟨q,-,-,hm,ht⟩ := total_step (fun q => q.prog.nodes.count n) (fun _ _ => rfl) hs
  have hq := act_nodes_le q l.pid l.ok n
  simp only [State.calls,hm,List.count_append]
  omega

theorem calls_step {H : Prog ν → Table ν N → Prop} (h : ∀ q ∈ s.procs, Good H q) (hok : l.ok = true)
    (hs : step s l = some s') (n : ν) : s'.calls n = s.calls n := by
  obtain ⟨q,hq,hl,hm,ht⟩ := total_step (fun q => q.prog.nodes.count n) (fun _ _ => rfl) hs
  have hn := ((h q hq).safe hl).act_nodes l.pid n
  rw [← hok] at hn
  simp only [State.calls,hm,List.count_append]
  omega

end Totals

section Progress
variable {q : Proc ν N} {s s' : State ν N} {l : Label}

def Ordered (procs : List (Proc ν N)) : Prop :=
  ∀ i (q : Proc ν N) j, procs[i]? = some q → q.parent = some j → j < i

theorem Ordered.set {procs : List (Proc ν N)} (h : Ordered procs) {i : ℕ} {a b : Proc ν N}
    (ha : procs[i]? = some a) (hb : b.parent = a.parent) : Ordered (procs.set i b) := by
  intro k q j hk hj
  rw [List.getElem?_set] at hk
  split_ifs at hk with he hlt
  · cases hk
    subst he
    exact h i a j ha (by rw [← hb,hj])
  · exact h k q j hk hj

theorem act_parent (q : Proc ν N) (pid : ℕ) (ok : Bool) : (q.act pid ok).proc.parent = q.parent := by
  unfold Proc.act
  split <;> (try split) <;> rfl

theorem act_child_parent {pid : ℕ} {ok : Bool} {c : Proc ν N} (h : c ∈ (q.act pid ok).child) :
    c.parent = some pid := by
  unfold Proc.act at h
  split at h <;> (try split at h) <;> simp at h
  subst h
  rfl

theorem Ordered.put {pid : ℕ} {ok : Bool} (h : Ordered s.procs) (hq : s.procs[pid]? = some q) :
    Ordered (s.put pid (q.act pid ok)).procs := by
  intro i c j hi hj
  simp only [State.put] at hi
  rw [List.getElem?_append] at hi
  split_ifs at hi with hlt
  · exact (h.set hq (act_parent q pid ok)) i c j hi hj
  · have hp := act_child_parent (List.mem_of_getElem? hi)
    obtain rfl : pid = j := Option.some.inj (hp.symm.trans hj)
    have hpid := (List.getElem?_eq_some_iff.mp hq).1
    rw [List.length_set] at hlt
    omega

theorem ordered_step (h : Ordered s.procs) (hs : step s l = some s') : Ordered s'.procs := by
  obtain ⟨q,hq,-,rfl | ⟨c,hc,-,hne,rfl⟩⟩ := step_cases hs
  · exact h.put hq
  · refine Ordered.put (s := ⟨_,s.made⟩) (h.set hc rfl) ?_
    rw [List.getElem?_set_ne hne,hq]

theorem Ordered.progress (h : Ordered s.procs) (hs : ∀ l : Label, step s l = none) :
    ∀ q ∈ s.procs, q.life ≠ .running := by
  by_contra hc
  push Not at hc
  obtain ⟨q0,hq0,hl0⟩ := hc
  obtain ⟨i0,hi0⟩ := List.getElem?_of_mem hq0
  classical
  let P : ℕ → Prop := fun i => ∃ q, s.procs[i]? = some q ∧ q.life = .running
  have hP : P (Nat.findGreatest P s.procs.length) :=
    Nat.findGreatest_spec (List.getElem?_eq_some_iff.mp hi0).1.le ⟨q0,hi0,hl0⟩
  obtain ⟨q,hq,hl⟩ := hP
  have hyoung : ∀ j, Nat.findGreatest P s.procs.length < j → ¬ P j := by
    intro j hj hPj
    obtain ⟨c,hcj,-⟩ := id hPj
    exact Nat.findGreatest_is_greatest hj (List.getElem?_eq_some_iff.mp hcj).1.le hPj
  generalize Nat.findGreatest P s.procs.length = i at hq hyoung
  by_cases hw : q.prog.isWait = false ∨ ∀ c ∈ s.procs, c.parent = some i → c.life = .reaped
  · have hstep := hs ⟨i,true,0⟩
    simp [step,hq,hl,hw] at hstep
  · obtain ⟨-,hw'⟩ := not_or.mp hw
    push Not at hw'
    obtain ⟨c,hcm,hcp,hcl⟩ := hw'
    obtain ⟨j,hj⟩ := List.getElem?_of_mem hcm
    have hz : c.life = .zombie := by
      cases hlife : c.life with
      | running => exact absurd ⟨c,hj,hlife⟩ (hyoung j (h j c i hj hcp))
      | zombie => rfl
      | reaped => exact absurd hlife hcl
    have hstep := hs ⟨i,true,j⟩
    simp [step,hq,hl,hw,hj,hcp,hz] at hstep

end Progress

section Runs
variable {H : Prog ν → Table ν N → Prop} {s s' : State ν N} {ls : List Label}

theorem good_run (hr : Runs (graph step) s ls s') (h : ∀ q ∈ s.procs, Good H q) : ∀ q ∈ s'.procs, Good H q :=
  hr.invariant (I := fun t => ∀ q ∈ t.procs, Good H q) h (fun _ _ _ ha he => good_step ha he)

variable [BEq ν]

theorem calls_run_le (hr : Runs (graph step) s ls s') (n : ν) : s'.calls n ≤ s.calls n :=
  hr.invariant (I := fun t => t.calls n ≤ s.calls n) le_rfl (fun _ _ _ ha he => (calls_step_le he n).trans ha)

theorem calls_run (hr : Runs (graph step) s ls s') (h : ∀ q ∈ s.procs, Good H q) (hok : ∀ l ∈ ls, l.ok = true)
    (n : ν) : s'.calls n = s.calls n := by
  induction hr with
  | refl => rfl
  | snoc hr he ih =>
    rw [calls_step (good_run hr h) (hok _ (by simp)) he,ih (fun l hl => hok l (by simp [hl]))]

theorem run_complete (hr : Runs (graph step) s ls s') (h : ∀ q ∈ s.procs, Good H q) (ho : Ordered s.procs)
    (hok : ∀ l ∈ ls, l.ok = true) (hend : ∀ l, step s' l = none) (n : ν) : s'.made.count n = s.calls n := by
  have ho' := hr.invariant (I := fun t => Ordered t.procs) ho (fun _ _ _ ha he => ordered_step ha he)
  have hdead := ho'.progress hend
  have hzero : s'.total (fun q => q.prog.nodes.count n) = 0 := by
    refine List.sum_eq_zero (fun x hx => ?_)
    obtain ⟨q,hq,rfl⟩ := List.mem_map.mp hx
    cases good_run hr h q hq with
    | running hl => exact absurd hl (hdead q hq)
    | dead _ _ hn => simp [hn]
  have hc := calls_run hr h hok n
  rw [State.calls,hzero] at hc
  exact hc

end Runs

end UoDOS.ForkingPrograms
