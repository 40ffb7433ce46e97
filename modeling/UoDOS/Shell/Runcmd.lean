import UoDOS.Library.ForkingRuns
import UoDOS.Shell.CommandLines

/-! # Running a command

runcmd of sh.c as the tree of its system calls, and what the descriptors of a simple
command should be by its place in the command tree.
-/
namespace UoDOS.Shell
open ForkingPrograms (File Table Prog)

inductive Turn
  | left
  | right
  | body
deriving DecidableEq

abbrev Path := List Turn

def Cmd.child : Cmd → Turn → Option Cmd
  | .REDIR cmd _ _ _ _, .body => some cmd
  | .PIPE left _, .left => some left
  | .PIPE _ right, .right => some right
  | .LIST left _, .left => some left
  | .LIST _ right, .right => some right
  | .BACK cmd, .body => some cmd
  | _, _ => none

def Cmd.sub (c : Cmd) : Path → Option Cmd
  | [] => some c
  | t :: path => (c.child t).bind (fun d => d.sub path)

theorem Cmd.sub_concat (c : Cmd) (path : Path) (t : Turn) :
    c.sub (path ++ [t]) = (c.sub path).bind (fun d => d.child t) := by
  induction path generalizing c with
  | nil => simp [Cmd.sub]
  | cons u path ih =>
    simp only [List.cons_append,Cmd.sub,Option.bind_assoc]
    congr 1
    funext d
    exact ih d

/-- The calls of runcmd for the command at `node`. It never returns: what stands after a
call of itself is not reached, and after a call that fails it prints a message and exits. -/
def runcmd (node : Path) : Cmd → Prog Path
  | .EXEC argv _ => if argv ⟨0,by decide⟩ = none then .exit node else .exec node
  | .REDIR cmd _ _ _ fd => .close node (.number fd) <| .openFile node <| runcmd (node ++ [.body]) cmd
  | .LIST left right =>
    .fork node (runcmd (node ++ [.left]) left) <|
    .wait node <|
    runcmd (node ++ [.right]) right
  | .PIPE left right =>
    .pipe node <|
    .fork node
      (.close node (.number 1) <| .dup node .p1 <| .close node .p0 <| .close node .p1 <|
        runcmd (node ++ [.left]) left) <|
    .fork node
      (.close node (.number 0) <| .dup node .p0 <| .close node .p0 <| .close node .p1 <|
        runcmd (node ++ [.right]) right) <|
    .close node .p0 <| .close node .p1 <| .wait node <| .wait node <| .exit node
  | .BACK cmd => .fork node (runcmd (node ++ [.body]) cmd) (.exit node)

theorem runcmd_node (node : Path) (c : Cmd) : (runcmd node c).node = node := by
  cases c with
  | EXEC argv eargv =>
    unfold runcmd
    split <;> rfl
  | _ => rfl

theorem runcmd_nodes_below (c : Cmd) (node n : Path) (h : n ∈ (runcmd node c).nodes) : node <+: n := by
  induction c generalizing node with
  | EXEC argv eargv =>
    unfold runcmd at h
    split at h
    · simp [Prog.nodes] at h
    · simp only [Prog.nodes,List.mem_singleton] at h
      rw [h]
  | REDIR cmd file efile mode fd ih =>
    rcases List.mem_cons.mp h with rfl | h
    · exact List.prefix_rfl
    · exact (List.prefix_append _ _).trans (ih _ h)
  | PIPE left right ihl ihr =>
    simp only [runcmd,Prog.nodes,List.append_nil,List.mem_cons,List.mem_append] at h
    rcases h with rfl | h | h
    · exact List.prefix_rfl
    · exact (List.prefix_append _ _).trans (ihl _ h)
    · exact (List.prefix_append _ _).trans (ihr _ h)
  | LIST left right ihl ihr =>
    rcases List.mem_append.mp h with h | h
    · exact (List.prefix_append _ _).trans (ihl _ h)
    · exact (List.prefix_append _ _).trans (ihr _ h)
  | BACK cmd ih =>
    rcases List.mem_append.mp h with h | h
    · exact (List.prefix_append _ _).trans (ih _ h)
    · cases h

theorem not_below_self (node : Path) (t : Turn) : ¬ node ++ [t] <+: node := by
  intro h
  have hl := h.length_le
  simp at hl

theorem below_turn {node n : Path} {t u : Turn} (h : node ++ [t] <+: n) (h' : node ++ [u] <+: n) : t = u := by
  have he := (List.prefix_of_prefix_length_le h h' (by simp)).eq_of_length (by simp)
  simpa using he

theorem runcmd_nodes_nodup (c : Cmd) (node : Path) : (runcmd node c).nodes.Nodup := by
  induction c generalizing node with
  | EXEC argv eargv =>
    unfold runcmd
    split <;> simp [Prog.nodes]
  | REDIR cmd file efile mode fd ih =>
    refine List.nodup_cons.mpr ⟨?_,ih _⟩
    exact fun h => not_below_self _ _ (runcmd_nodes_below _ _ _ h)
  | PIPE left right ihl ihr =>
    simp only [runcmd,Prog.nodes,List.append_nil,List.nodup_cons,List.mem_append,not_or]
    refine ⟨⟨?_,?_⟩,List.Nodup.append (ihl _) (ihr _) ?_⟩
    · exact fun h => not_below_self _ _ (runcmd_nodes_below _ _ _ h)
    · exact fun h => not_below_self _ _ (runcmd_nodes_below _ _ _ h)
    · intro n hl hr
      have ht := below_turn (runcmd_nodes_below _ _ _ hl) (runcmd_nodes_below _ _ _ hr)
      cases ht
  | LIST left right ihl ihr =>
    refine List.Nodup.append (ihl _) (ihr _) ?_
    intro n hl hr
    have ht := below_turn (runcmd_nodes_below _ _ _ hl) (runcmd_nodes_below _ _ _ hr)
    cases ht
  | BACK cmd ih =>
    simp only [runcmd,Prog.nodes,List.append_nil]
    exact ih _

theorem runcmd_leaf {argv eargv : Fin MAXARGS → Option ℕ} (hw : argv ⟨0,by decide⟩ ≠ none) (c : Cmd)
    (node path : Path) (h : c.sub path = some (.EXEC argv eargv)) : node ++ path ∈ (runcmd node c).nodes := by
  induction path generalizing c node with
  | nil =>
    cases h
    simp [runcmd,hw,Prog.nodes]
  | cons t path ih =>
    obtain ⟨d,hd,hsub⟩ := Option.bind_eq_some_iff.mp h
    have hm := ih d (node ++ [t]) hsub
    rw [List.append_assoc,List.singleton_append] at hm
    cases c with
    | EXEC => simp [Cmd.child] at hd
    | REDIR | PIPE | LIST | BACK =>
      cases t <;> simp only [Cmd.child,reduceCtorEq,Option.some.injEq] at hd
      all_goals
        subst hd
        simp [runcmd,Prog.nodes,hm]

/-- What a command makes of descriptor `fd` for the part of it at the turn. -/
def Cmd.sets (node : Path) (fd : ℕ) : Cmd → Turn → Option (File Path)
  | .PIPE _ _, .left => if fd = 1 then some (.writeEnd node) else none
  | .PIPE _ _, .right => if fd = 0 then some (.readEnd node) else none
  | .REDIR _ _ _ _ fd', .body => if fd = fd' then some (.opened node) else none
  | _, _ => none

/-- The command at `node` sets descriptor `fd` for its part at the turn, where `leaf` lies,
and no command between them sets it. -/
structure Innermost (root : Cmd) (fd : ℕ) (leaf node : Path) (turn : Turn) (file : File Path) : Prop where
  lies : node ++ [turn] <+: leaf
  sets : ∃ cmd, root.sub node = some cmd ∧ cmd.sets node fd turn = some file
  inner : ∀ node' turn' cmd', root.sub node' = some cmd' → node' ++ [turn'] <+: leaf →
    node.length < node'.length → cmd'.sets node' fd turn' = none

/-- The descriptors `f` of the command at a place are as the commands around it set them. -/
structure Wired (root : Cmd) (node : Path) (f : ℕ → File Path) : Prop where
  innermost : ∀ fd n t file, Innermost root fd node n t file → f fd = file
  given : ∀ fd, (∀ n t cmd, root.sub n = some cmd → n ++ [t] <+: node → cmd.sets n fd t = none) →
    f fd = .given fd
  writer : ∀ fd n, f fd = .writeEnd n → n ++ [.left] <+: node

variable {root cmd : Cmd} {node : Path} {f : ℕ → File Path}

theorem wired_root (root : Cmd) : Wired root [] .given where
  innermost := by
    intro fd n t file h
    have hl := h.lies.length_le
    simp at hl
  given := fun _ _ => rfl
  writer := by
    intro fd n h
    cases h

theorem Cmd.sets_writer {fd : ℕ} {n : Path} {t : Turn} (h : cmd.sets node fd t = some (.writeEnd n)) :
    n = node ∧ t = .left := by
  cases cmd <;> cases t <;> simp only [Cmd.sets,reduceCtorEq] at h
  all_goals split_ifs at h
  all_goals simp_all

theorem Wired.down (h : Wired root node f) (hs : root.sub node = some cmd) (t : Turn) :
    Wired root (node ++ [t]) (fun fd => (cmd.sets node fd t).getD (f fd)) where
  innermost := by
    intro fd n u file hi
    obtain ⟨hlies,⟨d,hd,hset⟩,hinner⟩ := hi
    rcases List.prefix_concat_iff.mp hlies with he | hlies
    · obtain ⟨rfl,hu⟩ := List.append_inj' he rfl
      obtain rfl : u = t := by simpa using hu
      obtain rfl : d = cmd := Option.some.inj (hd.symm.trans hs)
      simp [hset]
    · have hn : n.length < node.length := by
        have hl := hlies.length_le
        simp at hl
        omega
      rw [hinner node t cmd hs List.prefix_rfl hn]
      refine h.innermost fd n u file ⟨hlies,⟨d,hd,hset⟩,?_⟩
      exact fun n' t' c' hc hl => hinner n' t' c' hc (hl.trans (List.prefix_append _ _))
  given := by
    intro fd hnone
    rw [hnone node t cmd hs List.prefix_rfl]
    exact h.given fd (fun n u c hc hl => hnone n u c hc (hl.trans (List.prefix_append _ _)))
  writer := by
    intro fd n hn
    cases hset : cmd.sets node fd t with
    | none =>
      rw [hset] at hn
      exact (h.writer fd n hn).trans (List.prefix_append _ _)
    | some file =>
      rw [hset] at hn
      obtain rfl : file = .writeEnd n := hn
      obtain ⟨rfl,rfl⟩ := Cmd.sets_writer hset
      exact List.prefix_rfl

end UoDOS.Shell
