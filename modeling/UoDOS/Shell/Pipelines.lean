import UoDOS.Shell.Runcmd

/-! # The descriptors of the commands of a pipeline

A command that starts with the descriptors 0, 1 and 2 runs every simple command with
these three, set by the pipes and redirections around it.
-/
namespace UoDOS.Shell
open ForkingPrograms (File Table Prog State Label Safe step)
open ByteMemory Strings Results Transition

def Cmd.Standard : Cmd → Prop
  | .EXEC _ _ => True
  | .REDIR cmd _ _ _ fd => fd < 3 ∧ cmd.Standard
  | .PIPE left right => left.Standard ∧ right.Standard
  | .LIST left right => left.Standard ∧ right.Standard
  | .BACK cmd => cmd.Standard

structure CommandTree where
  cmd : Cmd
  standard : cmd.Standard

def Tree.Standard : Tree → Prop
  | .exec _ => True
  | .redir t _ _ fd => fd < 3 ∧ t.Standard
  | .pipe left right => left.Standard ∧ right.Standard
  | .list left right => left.Standard ∧ right.Standard
  | .back t => t.Standard

theorem Redirs.standard {ts r : List Token} {rs : List Redirection} (h : Redirs ts rs r) :
    ∀ x ∈ rs, x.fd < 3 := by
  induction h with
  | nil => simp
  | cons hx _ ih =>
    intro x hm
    rcases List.mem_cons.mp hm with rfl | hm
    · cases hx <;> simp
    · exact ih x hm

theorem Args.standard {ts r : List Token} {ws : List (List UInt8)} {rs : List Redirection} (h : Args ts ws rs r) :
    ∀ x ∈ rs, x.fd < 3 := by
  induction h with
  | nil => simp
  | cons hr _ ih =>
    intro x hm
    rcases List.mem_append.mp hm with hm | hm
    · exact hr.standard x hm
    · exact ih x hm

def standard (f : ℕ → File Path) : Table Path NOFILE := fun fd => if fd.val < 3 then some (f fd) else none

def piped (f : ℕ → File Path) (node : Path) : Table Path NOFILE := fun fd =>
  if fd.val = 3 then some (.readEnd node) else if fd.val = 4 then some (.writeEnd node) else standard f fd

variable {root cmd : Cmd} {node : Path} {f : ℕ → File Path} {T : Table Path NOFILE}

theorem standard_pipe (f : ℕ → File Path) (node : Path) :
    (standard f).pipe node = some (3,4,piped f node) := by
  have ht : Function.update (Function.update (standard f) (3 : Fin 16) (some (.readEnd node))) (4 : Fin 16)
      (some (.writeEnd node)) = piped f node := by
    funext fd
    fin_cases fd <;> rfl
  rw [← ht]
  rfl

theorem piped_left (f : ℕ → File Path) (node : Path) (l r : Cmd) :
    ((((piped f node).close 1).dup 4).close 3).close 4 =
      standard (fun fd => ((Cmd.PIPE l r).sets node fd .left).getD (f fd)) := by
  funext fd
  fin_cases fd <;> rfl

theorem piped_right (f : ℕ → File Path) (node : Path) (l r : Cmd) :
    ((((piped f node).close 0).dup 3).close 3).close 4 =
      standard (fun fd => ((Cmd.PIPE l r).sets node fd .right).getD (f fd)) := by
  funext fd
  fin_cases fd <;> rfl

theorem piped_parent (f : ℕ → File Path) (node : Path) :
    ((piped f node).close 3).close 4 = standard f := by
  funext fd
  fin_cases fd <;> rfl

theorem standard_open (f : ℕ → File Path) (node : Path) (c : Cmd) (file efile mode : ℕ) {fd : ℕ}
    (hfd : fd < 3) :
    ((standard f).close fd).openFile node =
      some (standard (fun n => ((Cmd.REDIR c file efile mode fd).sets node n .body).getD (f n))) := by
  interval_cases fd
  all_goals
    refine congrArg some ?_
    funext fd
    fin_cases fd <;> rfl

/-- At the calls that arrange the descriptors, or at exit after one of them failed. -/
def settingUp : Prog Path → Bool
  | .close _ _ _ => true
  | .dup _ _ _ => true
  | .fork _ _ _ => true
  | .exit _ => true
  | _ => false

structure LeafWired (root : Cmd) (leaf : Path) (T : Table Path NOFILE) : Prop where
  command : ∃ argv eargv, root.sub leaf = some (.EXEC argv eargv)
  opens : ∀ fd, (T fd).isSome ↔ fd.val < 3
  innermost : ∀ (fd : Fin NOFILE) n t file, fd.val < 3 → Innermost root fd leaf n t file → T fd = some file
  given : ∀ (fd : Fin NOFILE), fd.val < 3 →
    (∀ n t cmd, root.sub n = some cmd → n ++ [t] <+: leaf → cmd.sets n fd t = none) → T fd = some (.given fd)

/-- What holds at every call: exec finds the right descriptors, and only the left part of a
pipe and the processes that set it up have its write end. -/
structure Checks (root : Cmd) (g : Prog Path) (T : Table Path NOFILE) : Prop where
  leaf : ∀ n, g = .exec n → LeafWired root n T
  writer : ∀ fd n, T fd = some (.writeEnd n) → n ++ [.left] <+: g.node ∨ n = g.node ∧ settingUp g = true

theorem Wired.leaf {argv eargv : Fin MAXARGS → Option ℕ} (h : Wired root node f)
    (hs : root.sub node = some (.EXEC argv eargv)) : LeafWired root node (standard f) where
  command := ⟨argv,eargv,hs⟩
  opens := by
    intro fd
    unfold standard
    split_ifs with hfd <;> simp [hfd]
  innermost := by
    intro fd n t file hfd hi
    rw [standard,if_pos hfd,h.innermost _ n t file hi]
  given := by
    intro fd hfd hnone
    rw [standard,if_pos hfd,h.given _ hnone]

def From (f : ℕ → File Path) (T : Table Path NOFILE) : Prop := ∀ fd file, T fd = some file → ∃ i, file = f i

theorem from_standard (f : ℕ → File Path) : From f (standard f) := by
  intro fd file h
  unfold standard at h
  split_ifs at h
  exact ⟨_,(Option.some.inj h).symm⟩

theorem From.close (h : From f T) (n : ℕ) : From f (T.close n) := by
  intro fd file hf
  unfold Table.close at hf
  split_ifs at hf
  exact h fd file hf

theorem From.checks {g : Prog Path} (hT : From f T) (h : Wired root node f) (hn : g.node = node)
    (hg : ∀ n, g ≠ .exec n) : Checks root g T where
  leaf := fun n he => absurd he (hg n)
  writer := by
    intro fd n ht
    obtain ⟨i,hi⟩ := hT fd _ ht
    rw [hn]
    exact .inl (h.writer i n hi.symm)

theorem Wired.checks {g : Prog Path} (h : Wired root node f) (hn : g.node = node) (hg : ∀ n, g ≠ .exec n) :
    Checks root g (standard f) := (from_standard f).checks h hn hg

def Among (f : ℕ → File Path) (node : Path) (T : Table Path NOFILE) : Prop :=
  ∀ fd file, T fd = some file → (∃ i, file = f i) ∨ file = .readEnd node ∨ file = .writeEnd node

theorem among_piped (f : ℕ → File Path) (node : Path) : Among f node (piped f node) := by
  intro fd file h
  unfold piped standard at h
  split_ifs at h
  · exact .inr (.inl (Option.some.inj h).symm)
  · exact .inr (.inr (Option.some.inj h).symm)
  · exact .inl ⟨_,(Option.some.inj h).symm⟩

theorem Among.close (h : Among f node T) (n : ℕ) : Among f node (T.close n) := by
  intro fd file hf
  unfold Table.close at hf
  split_ifs at hf
  exact h fd file hf

theorem Among.dup (h : Among f node T) (n : ℕ) : Among f node (T.dup n) := by
  unfold Table.dup
  split_ifs with hn
  · split
    · rename_i file' fd' hfile _
      intro fd file hf
      by_cases he : fd = fd'
      · rw [he,Function.update_self] at hf
        rw [← Option.some.inj hf]
        exact h _ _ hfile
      · rw [Function.update_of_ne he] at hf
        exact h fd file hf
    · exact h
  · exact h

theorem Among.checks {g : Prog Path} (ha : Among f node T) (h : Wired root node f) (hn : g.node = node)
    (hg : settingUp g = true) : Checks root g T where
  leaf := by
    rintro n rfl
    cases hg
  writer := by
    intro fd n ht
    rw [hn]
    rcases ha fd _ ht with ⟨i,hi⟩ | hi | hi
    · exact .inl (h.writer i n hi.symm)
    · cases hi
    · cases hi
      exact .inr ⟨rfl,hg⟩

theorem runcmd_safe (hs : root.sub node = some cmd) (hst : cmd.Standard) (h : Wired root node f) (p : ℕ × ℕ) :
    Safe (Checks root) (runcmd node cmd) p (standard f) := by
  induction cmd generalizing node f p with
  | EXEC argv eargv =>
    unfold runcmd
    split_ifs
    · exact h.checks rfl (by simp)
    · refine ⟨⟨?_,?_⟩,h.checks rfl (by simp),h.checks rfl (by simp)⟩
      · rintro n ⟨⟩
        exact h.leaf hs
      · exact (h.checks (g := .image node) rfl (by simp)).writer
  | REDIR c file efile mode fd ih =>
    have hsub : root.sub (node ++ [.body]) = some c := by simp [Cmd.sub_concat,hs,Cmd.child]
    have hT := standard_open f node c file efile mode hst.1
    have hclose := (from_standard f).close fd
    exact ⟨h.checks rfl (by simp),hclose.checks h rfl (by simp),hclose.checks h rfl (by simp),_,hT,
      ih hsub hst.2 (h.down hs .body) p⟩
  | PIPE left right ihl ihr =>
    have hl : root.sub (node ++ [.left]) = some left := by simp [Cmd.sub_concat,hs,Cmd.child]
    have hr : root.sub (node ++ [.right]) = some right := by simp [Cmd.sub_concat,hs,Cmd.child]
    have ha := among_piped f node
    refine ⟨h.checks rfl (by simp),h.checks rfl (by simp),3,4,piped f node,standard_pipe f node,?_⟩
    refine ⟨ha.checks h rfl rfl,ha.checks h rfl rfl,?_,ha.checks h rfl rfl,ha.checks h rfl rfl,?_,?_⟩
    · refine ⟨ha.checks h rfl rfl,(ha.close 1).checks h rfl rfl,((ha.close 1).dup 4).checks h rfl rfl,
        (((ha.close 1).dup 4).close 3).checks h rfl rfl,?_⟩
      have hk := ihl hl hst.1 (h.down hs .left) (3,4)
      rw [← piped_left f node left right] at hk
      exact hk
    · refine ⟨ha.checks h rfl rfl,(ha.close 0).checks h rfl rfl,((ha.close 0).dup 3).checks h rfl rfl,
        (((ha.close 0).dup 3).close 3).checks h rfl rfl,?_⟩
      have hk := ihr hr hst.2 (h.down hs .right) (3,4)
      rw [← piped_right f node left right] at hk
      exact hk
    · refine ⟨ha.checks h rfl rfl,(ha.close 3).checks h rfl rfl,?_⟩
      have hend : Safe (Checks root) (.wait node <| .wait node <| .exit node) (3,4) (standard f) :=
        ⟨h.checks rfl (by simp),h.checks rfl (by simp),h.checks rfl (by simp)⟩
      rw [← piped_parent f node] at hend
      exact hend
  | LIST left right ihl ihr =>
    have hl : root.sub (node ++ [.left]) = some left := by simp [Cmd.sub_concat,hs,Cmd.child]
    have hr : root.sub (node ++ [.right]) = some right := by simp [Cmd.sub_concat,hs,Cmd.child]
    exact ⟨h.checks rfl (by simp),h.checks rfl (by simp),ihl hl hst.1 (h.down hs .left) p,
      h.checks rfl (by simp),ihr hr hst.2 (h.down hs .right) p⟩
  | BACK c ih =>
    have hsub : root.sub (node ++ [.body]) = some c := by simp [Cmd.sub_concat,hs,Cmd.child]
    exact ⟨h.checks rfl (by simp),h.checks rfl (by simp),ih hsub hst (h.down hs .body) p,h.checks rfl (by simp)⟩

/-- A process with descriptors 0, 1 and 2 calls runcmd; its `p` is not set. -/
def start (t : CommandTree) (p : ℕ × ℕ) : State Path NOFILE :=
  ⟨[⟨runcmd [] t.cmd,p,standard .given,none,.running⟩],[]⟩

theorem start_good (t : CommandTree) (p : ℕ × ℕ) :
    ∀ q ∈ (start t p).procs, ForkingPrograms.Good (Checks t.cmd) q := by
  intro q hq
  obtain rfl := List.mem_singleton.mp hq
  exact .running rfl (runcmd_safe rfl t.standard (wired_root t.cmd) p)

theorem start_ordered (t : CommandTree) (p : ℕ × ℕ) : ForkingPrograms.Ordered (start t p).procs := by
  intro i q j hi hj
  obtain rfl := List.mem_singleton.mp (List.mem_of_getElem? hi)
  cases hj

theorem start_calls (t : CommandTree) (p : ℕ × ℕ) (n : Path) :
    (start t p).calls n = (runcmd [] t.cmd).nodes.count n := by
  simp [start,State.calls,State.total]

/-- In every run of a command tree each command is run with descriptors 0, 1 and 2, set by
the innermost pipe or redirection around it, and a write end is kept by the left part of
its pipe alone. If no call fails, the run ends with every command called. -/
theorem runcmd_wires (t : CommandTree) (p : ℕ × ℕ) (ls : List Label) (s : State Path NOFILE)
    (hr : Runs (graph step) (start t p) ls s) :
    (∀ q ∈ s.procs, q.life = .running → ∀ leaf, q.prog = .exec leaf → LeafWired t.cmd leaf q.table) ∧
    (∀ q ∈ s.procs, ∀ fd node, q.table fd = some (.writeEnd node) →
      node ++ [.left] <+: q.prog.node ∨ node = q.prog.node ∧ settingUp q.prog = true) ∧
    s.made.Nodup ∧ ls.length ≤ (runcmd [] t.cmd).size ∧
    ((∀ l ∈ ls, l.ok = true) → (∀ l, step s l = none) → ∀ leaf argv eargv,
      t.cmd.sub leaf = some (.EXEC argv eargv) → argv ⟨0,by decide⟩ ≠ none → leaf ∈ s.made) := by
  have hgood := ForkingPrograms.good_run hr (start_good t p)
  refine ⟨?_,?_,?_,?_,?_⟩
  · intro q hq hl leaf he
    exact ((hgood q hq).safe hl).here.leaf leaf he
  · intro q hq fd node hf
    cases hgood q hq with
    | running _ hs => exact hs.here.writer fd node hf
    | dead _ ht => rw [ht fd] at hf; cases hf
  · refine List.nodup_iff_count_le_one.mpr (fun n => ?_)
    have hc := ForkingPrograms.calls_run_le hr n
    rw [start_calls] at hc
    have hn := List.nodup_iff_count_le_one.mp (runcmd_nodes_nodup t.cmd []) n
    unfold State.calls at hc
    omega
  · have hl := ForkingPrograms.run_length hr
    simp only [start,State.total,List.map_cons,List.map_nil,List.sum_cons,List.sum_nil,
      ForkingPrograms.Proc.left,if_true] at hl
    omega
  · intro hok hend leaf argv eargv hsub hw
    have hc := ForkingPrograms.run_complete hr (start_good t p) (start_ordered t p) hok hend leaf
    rw [start_calls] at hc
    have hm := List.count_pos_iff.mpr (runcmd_leaf hw t.cmd [] leaf hsub)
    exact List.count_pos_iff.mp (by rw [hc]; exact hm)

def word : Fin MAXARGS → Option ℕ := fun i => if i.val = 0 then some 0 else none

def twoCommands : CommandTree := ⟨.PIPE (.EXEC word word) (.EXEC word word),⟨trivial,trivial⟩⟩

def twoCommandsRun : List Label :=
  [⟨0,true,0⟩,⟨0,true,0⟩,⟨0,true,0⟩,⟨1,true,0⟩,⟨1,true,0⟩,⟨2,true,0⟩,⟨2,true,0⟩,⟨0,true,0⟩,⟨0,true,0⟩,
    ⟨1,true,0⟩,⟨1,true,0⟩,⟨2,true,0⟩,⟨2,true,0⟩]

theorem twoCommands_runs : (execute step (start twoCommands (0,0)) twoCommandsRun).isSome = true := by
  decide +kernel

theorem runcmd_wires_twoCommands :
    ((execute step (start twoCommands (0,0)) twoCommandsRun).get twoCommands_runs).procs.map
      (fun q => q.prog.node) = [[],[.left],[.right]] ∧
    ∀ q ∈ ((execute step (start twoCommands (0,0)) twoCommandsRun).get twoCommands_runs).procs,
      q.life = .running → ∀ leaf, q.prog = .exec leaf → LeafWired twoCommands.cmd leaf q.table :=
  ⟨by decide +kernel,
    (runcmd_wires twoCommands (0,0) twoCommandsRun _ (Runs.of_execute (Option.some_get twoCommands_runs).symm)).1⟩

end UoDOS.Shell
