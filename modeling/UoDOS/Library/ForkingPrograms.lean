import Mathlib

/-! # Programs that fork and pass descriptors

A program is the tree of the system calls that it makes, each call marked with the node of the
text it stands at. Processes run interleaved.
-/
namespace UoDOS.ForkingPrograms

/-- What a descriptor names: a file from before, or one that the call at a node made. -/
inductive File (ν : Type*)
  | given (fd : ℕ)
  | opened (node : ν)
  | readEnd (node : ν)
  | writeEnd (node : ν)
deriving DecidableEq

abbrev Table (ν : Type*) (N : ℕ) := Fin N → Option (File ν)

variable {ν : Type*} {N : ℕ}

namespace Table

def lowest (T : Table ν N) : Option (Fin N) := (List.finRange N).find? (fun fd => (T fd).isNone)

def close (T : Table ν N) (n : ℕ) : Table ν N := fun fd => if fd.val = n then none else T fd

def dup (T : Table ν N) (n : ℕ) : Table ν N :=
  if h : n < N then
    match T ⟨n,h⟩, T.lowest with
    | some f, some fd => Function.update T fd (some f)
    | _, _ => T
  else T

/-- The table with a descriptor for the file that `node` opens. -/
def openFile (T : Table ν N) (node : ν) : Option (Table ν N) :=
  T.lowest.map (fun fd => Function.update T fd (some (.opened node)))

def pipe (T : Table ν N) (node : ν) : Option (ℕ × ℕ × Table ν N) :=
  T.lowest.bind (fun fd0 =>
    let T : Table ν N := Function.update T fd0 (some (.readEnd node))
    T.lowest.map (fun fd1 => (fd0.val,fd1.val,Function.update T fd1 (some (.writeEnd node)))))

end Table

/-- A descriptor in a program: a number or a result of the last pipe. -/
inductive Operand
  | number (n : ℕ)
  | p0
  | p1

def Operand.value (p : ℕ × ℕ) : Operand → ℕ
  | .number n => n
  | .p0 => p.1
  | .p1 => p.2

inductive Prog (ν : Type*)
  | exec (node : ν)
  | close (node : ν) (fd : Operand) (k : Prog ν)
  | dup (node : ν) (fd : Operand) (k : Prog ν)
  | openFile (node : ν) (k : Prog ν)
  | pipe (node : ν) (k : Prog ν)
  | fork (node : ν) (child k : Prog ν)
  | wait (node : ν) (k : Prog ν)
  | exit (node : ν)
  /-- Another program, after exec. -/
  | image (node : ν)

namespace Prog

def node : Prog ν → ν
  | exec n => n
  | close n _ _ => n
  | dup n _ _ => n
  | openFile n _ => n
  | pipe n _ => n
  | fork n _ _ => n
  | wait n _ => n
  | exit n => n
  | image n => n

def isWait : Prog ν → Bool
  | wait _ _ => true
  | _ => false

def nodes : Prog ν → List ν
  | exec n => [n]
  | close _ _ k => k.nodes
  | dup _ _ k => k.nodes
  | openFile n k => n :: k.nodes
  | pipe n k => n :: k.nodes
  | fork _ child k => child.nodes ++ k.nodes
  | wait _ k => k.nodes
  | exit _ => []
  | image _ => []

/-- The number of steps that the program and its children have left. -/
def size : Prog ν → ℕ
  | exec _ => 2
  | close _ _ k => k.size + 1
  | dup _ _ k => k.size + 1
  | openFile _ k => k.size + 1
  | pipe _ k => k.size + 1
  | fork _ child k => child.size + k.size + 1
  | wait _ k => k.size + 1
  | exit _ => 1
  | image _ => 1

theorem size_pos (g : Prog ν) : 0 < g.size := by
  cases g <;> simp [size]

end Prog

inductive Life
  | running
  | zombie
  | reaped
deriving DecidableEq

structure Proc (ν : Type*) (N : ℕ) where
  prog : Prog ν
  p : ℕ × ℕ
  table : Table ν N
  parent : Option ℕ
  life : Life

structure Outcome (ν : Type*) (N : ℕ) where
  proc : Proc ν N
  child : List (Proc ν N)
  made : List ν

namespace Proc

def exits (q : Proc ν N) (node : ν) : Proc ν N := { q with prog := .exit node }

/-- The next call of process `pid`, apart from the choice of a child to wait for. -/
def act (q : Proc ν N) (pid : ℕ) (ok : Bool) : Outcome ν N :=
  match q.prog with
  | .exec n => ⟨{ q with prog := if ok then .image n else .exit n },[],[n]⟩
  | .close _ fd k => ⟨{ q with prog := k, table := q.table.close (fd.value q.p) },[],[]⟩
  | .dup _ fd k => ⟨{ q with prog := k, table := q.table.dup (fd.value q.p) },[],[]⟩
  | .openFile n k =>
    match ok, q.table.openFile n with
    | true, some T => ⟨{ q with prog := k, table := T },[],[n]⟩
    | _, _ => ⟨q.exits n,[],[]⟩
  | .pipe n k =>
    match ok, q.table.pipe n with
    | true, some (fd0,fd1,T) => ⟨{ q with prog := k, p := (fd0,fd1), table := T },[],[n]⟩
    | _, _ => ⟨q.exits n,[],[]⟩
  | .fork n child k =>
    if ok then ⟨{ q with prog := k },[{ q with prog := child, parent := some pid }],[]⟩
    else ⟨q.exits n,[],[]⟩
  | .wait _ k => ⟨{ q with prog := k },[],[]⟩
  | .exit _ => ⟨{ q with table := fun _ => none, life := .zombie },[],[]⟩
  | .image _ => ⟨{ q with table := fun _ => none, life := .zombie },[],[]⟩

end Proc

/-- The processes in the order of their making, and the nodes whose call was made. -/
structure State (ν : Type*) (N : ℕ) where
  procs : List (Proc ν N)
  made : List ν

/-- The next call of `pid`, whether it succeeds, and which child a wait finds. -/
structure Label where
  pid : ℕ
  ok : Bool
  child : ℕ

def State.put (s : State ν N) (pid : ℕ) (o : Outcome ν N) : State ν N :=
  ⟨s.procs.set pid o.proc ++ o.child,s.made ++ o.made⟩

def step (s : State ν N) (l : Label) : Option (State ν N) :=
  match s.procs[l.pid]? with
  | none => none
  | some q =>
    if q.life ≠ .running then none
    else if q.prog.isWait = false ∨ ∀ c ∈ s.procs, c.parent = some l.pid → c.life = .reaped then
      some (s.put l.pid (q.act l.pid l.ok))
    else
      match s.procs[l.child]? with
      | none => none
      | some c =>
        if c.parent = some l.pid ∧ c.life = .zombie then
          some (State.put ⟨s.procs.set l.child { c with life := .reaped },s.made⟩ l.pid (q.act l.pid l.ok))
        else none

theorem step_cases {s s' : State ν N} {l : Label} (h : step s l = some s') :
    ∃ q, s.procs[l.pid]? = some q ∧ q.life = .running ∧
      (s' = s.put l.pid (q.act l.pid l.ok) ∨
        ∃ c, s.procs[l.child]? = some c ∧ c.life = .zombie ∧ l.child ≠ l.pid ∧
          s' = State.put ⟨s.procs.set l.child { c with life := .reaped },s.made⟩ l.pid (q.act l.pid l.ok)) := by
  unfold step at h
  cases hq : s.procs[l.pid]? with
  | none => simp [hq] at h
  | some q =>
    simp only [hq] at h
    split_ifs at h with hl hw
    · exact ⟨q,rfl,not_not.mp hl,.inl (Option.some.inj h).symm⟩
    · cases hc : s.procs[l.child]? with
      | none => simp [hc] at h
      | some c =>
        simp only [hc] at h
        split_ifs at h with hz
        have hne : l.child ≠ l.pid := by
          intro he
          rw [he,hq] at hc
          cases hc
          exact hl (by simp [hz.2])
        exact ⟨q,rfl,not_not.mp hl,.inr ⟨c,rfl,hz.2,hne,(Option.some.inj h).symm⟩⟩

section Assertions
variable (H : Prog ν → Table ν N → Prop)

/-- The assertion holds wherever the program and its children get to, and no call for a
descriptor finds the table full. -/
def Safe : Prog ν → ℕ × ℕ → Table ν N → Prop
  | .exec n, _, T => H (.exec n) T ∧ H (.image n) T ∧ H (.exit n) T
  | .close n fd k, p, T => H (.close n fd k) T ∧ Safe k p (T.close (fd.value p))
  | .dup n fd k, p, T => H (.dup n fd k) T ∧ Safe k p (T.dup (fd.value p))
  | .openFile n k, p, T =>
    H (.openFile n k) T ∧ H (.exit n) T ∧ ∃ T', T.openFile n = some T' ∧ Safe k p T'
  | .pipe n k, _, T =>
    H (.pipe n k) T ∧ H (.exit n) T ∧ ∃ fd0 fd1 T', T.pipe n = some (fd0,fd1,T') ∧ Safe k (fd0,fd1) T'
  | .fork n child k, p, T => H (.fork n child k) T ∧ H (.exit n) T ∧ Safe child p T ∧ Safe k p T
  | .wait n k, p, T => H (.wait n k) T ∧ Safe k p T
  | .exit n, _, T => H (.exit n) T
  | .image n, _, T => H (.image n) T

variable {H}

theorem Safe.here {g : Prog ν} {p : ℕ × ℕ} {T : Table ν N} (h : Safe H g p T) : H g T := by
  cases g with
  | exit | image => exact h
  | _ => exact h.1

variable (H)

inductive Good (q : Proc ν N) : Prop
  | running (hl : q.life = .running) (hs : Safe H q.prog q.p q.table)
  | dead (hl : q.life ≠ .running) (ht : ∀ fd, q.table fd = none) (hn : q.prog.nodes = [])

variable {H} {q : Proc ν N} {s s' : State ν N} {l : Label}

theorem Good.safe (h : Good H q) (hl : q.life = .running) : Safe H q.prog q.p q.table := by
  cases h with
  | running _ hs => exact hs
  | dead hd => exact absurd hl hd

theorem Good.reap (h : Good H q) (hl : q.life = .zombie) : Good H { q with life := .reaped } := by
  cases h with
  | running hr _ => rw [hl] at hr; cases hr
  | dead _ ht hn => exact .dead (by simp) ht hn

theorem Safe.act (h : Safe H q.prog q.p q.table) (hl : q.life = .running) (pid : ℕ) (ok : Bool) :
    Good H (q.act pid ok).proc ∧ ∀ c ∈ (q.act pid ok).child, Good H c := by
  obtain ⟨prog,p,T,parent,life⟩ := q
  dsimp only at h hl
  subst hl
  cases prog with
  | exec n =>
    refine ⟨.running rfl ?_,by simp [Proc.act]⟩
    cases ok with
    | true => exact h.2.1
    | false => exact h.2.2
  | close n fd k => exact ⟨.running rfl h.2,by simp [Proc.act]⟩
  | dup n fd k => exact ⟨.running rfl h.2,by simp [Proc.act]⟩
  | openFile n k =>
    obtain ⟨-,hexit,T',hT,hk⟩ := h
    cases ok with
    | true => exact ⟨.running (by simp [Proc.act,hT]) (by simpa [Proc.act,hT] using hk),by simp [Proc.act,hT]⟩
    | false => exact ⟨.running rfl hexit,by simp [Proc.act]⟩
  | pipe n k =>
    obtain ⟨-,hexit,fd0,fd1,T',hT,hk⟩ := h
    cases ok with
    | true => exact ⟨.running (by simp [Proc.act,hT]) (by simpa [Proc.act,hT] using hk),by simp [Proc.act,hT]⟩
    | false => exact ⟨.running rfl hexit,by simp [Proc.act]⟩
  | fork n child k =>
    obtain ⟨-,hexit,hc,hk⟩ := h
    cases ok with
    | true =>
      refine ⟨.running rfl hk,?_⟩
      intro c hm
      obtain rfl := List.mem_singleton.mp hm
      exact .running rfl hc
    | false => exact ⟨.running rfl hexit,by simp [Proc.act]⟩
  | wait n k => exact ⟨.running rfl h.2,by simp [Proc.act]⟩
  | exit n => exact ⟨.dead (by simp [Proc.act]) (fun _ => rfl) rfl,by simp [Proc.act]⟩
  | image n => exact ⟨.dead (by simp [Proc.act]) (fun _ => rfl) rfl,by simp [Proc.act]⟩

theorem good_set {procs : List (Proc ν N)} (h : ∀ q ∈ procs, Good H q) {c : Proc ν N} (hc : Good H c) (i : ℕ) :
    ∀ q ∈ procs.set i c, Good H q := by
  intro q hq
  rcases List.mem_or_eq_of_mem_set hq with hq | rfl
  · exact h q hq
  · exact hc

theorem good_put (h : ∀ q ∈ s.procs, Good H q) (hq : q ∈ s.procs) (hl : q.life = .running) (pid : ℕ) (ok : Bool) :
    ∀ c ∈ (s.put pid (q.act pid ok)).procs, Good H c := by
  obtain ⟨hp,hc⟩ := ((h q hq).safe hl).act hl pid ok
  intro c hm
  rcases List.mem_append.mp hm with hm | hm
  · exact good_set h hp pid c hm
  · exact hc c hm

theorem good_step (h : ∀ q ∈ s.procs, Good H q) (hs : step s l = some s') : ∀ q ∈ s'.procs, Good H q := by
  obtain ⟨q,hq,hl,rfl | ⟨c,hc,hz,hne,rfl⟩⟩ := step_cases hs
  · exact good_put h (List.mem_of_getElem? hq) hl _ _
  · refine good_put (good_set h ((h c (List.mem_of_getElem? hc)).reap hz) l.child) ?_ hl _ _
    exact List.mem_of_getElem? (i := l.pid) (by rw [List.getElem?_set_ne hne,hq])

end Assertions

end UoDOS.ForkingPrograms
