import UoDOS.Shell.TerminatedWords
import UoDOS.Shell.Pipelines

/-! # The order of redirections

parseredirs puts each redirection around the command with those before it, and runcmd works from
the outside to the inside.
-/
namespace UoDOS.Shell
open ForkingPrograms (File Table Prog Proc)
open ByteMemory Strings Function

/-- The tokens up to the last list are a simple command or a block, with its redirections in
the order of the text. -/
inductive Redirected : List Token → Tree → List Redirection → List Token → Prop
  | block {ts r r' : List Token} {t : Tree} {rs : List Redirection} (h : Derives .line ts t (.symbol .rparen :: r))
      (hr : Redirs r rs r') : Redirected (.symbol .lparen :: ts) t rs r'
  | words {ts r r' : List Token} {ws : List (List UInt8)} {rs rs' : List Redirection} (hr : Redirs ts rs r)
      (h : Args r ws rs' r') (hw : ws.length ≤ MAXARGS - 1) : Redirected ts (.exec ws) (rs ++ rs') r'

inductive Entry
  | given (fd : ℕ)
  | file (name : List UInt8) (mode : ℕ)
  | readEnd (node : Path)
  | writeEnd (node : Path)

/-- The call at a node of the command opens the file of the REDIR structure there. -/
def Cmd.entry (root : Cmd) (s : CString) : File Path → Entry
  | .given fd => .given fd
  | .opened node =>
    match root.sub node with
    | some (.REDIR _ file _ mode _) => .file ((gettoken s file).text s) mode
    | _ => .file [] 0
  | .readEnd node => .readEnd node
  | .writeEnd node => .writeEnd node

abbrev Entries := Fin NOFILE → Option Entry

def Cmd.entries (root : Cmd) (s : CString) (T : Table Path NOFILE) : Entries := fun fd => (T fd).map (root.entry s)

def Redirection.apply (E : Entries) (r : Redirection) : Entries := fun fd =>
  if fd.val = r.fd then some (.file r.file r.mode) else E fd

/-- What the calls of a process make of it while they all succeed. -/
def calls (pid n : ℕ) (q : Proc Path NOFILE) : Proc Path NOFILE := (fun q => (q.act pid true).proc)^[n] q

/-- Whatever process runs the command, with descriptors 0 to 2 open, comes to the command inside
the redirections with its descriptors redirected from left to right. -/
def AppliesInOrder (s : CString) (cmd : Cmd) (base : Tree) (rs : List Redirection) : Prop :=
  ∀ (root : Cmd) (node : Path) (pid : ℕ) (q : Proc Path NOFILE), root.sub node = some cmd →
    q.prog = runcmd node cmd → (∀ fd : Fin NOFILE, fd.val < 3 → q.table fd ≠ none) →
    ∃ inner, Shows s inner base ∧
      (calls pid (2 * rs.length) q).prog = runcmd (node ++ List.replicate rs.length .body) inner ∧
      root.entries s (calls pid (2 * rs.length) q).table = rs.foldl Redirection.apply (root.entries s q.table)

variable {s : CString} {ts r : List Token} {base : Tree} {rs : List Redirection} {cmd : Cmd}

theorem Redirected.derives (h : Redirected ts base rs r) : Derives .exec ts (base.redirs rs) r := by
  cases h with
  | block h hr => exact .block h hr
  | words hr h hw => exact .words hr h hw

theorem Redirected.standard (h : Redirected ts base rs r) : ∀ x ∈ rs, x.fd < 3 := by
  cases h with
  | block _ hr => exact hr.standard
  | words hr h =>
    intro x hx
    rcases List.mem_append.mp hx with hx | hx
    · exact hr.standard x hx
    · exact h.standard x hx

section Calls

theorem lowest_closed {T : Table Path NOFILE} {fd : Fin NOFILE} (hfd : fd.val < 3)
    (h : ∀ fd : Fin NOFILE, fd.val < 3 → T fd ≠ none) : (T.close fd).lowest = some fd := by
  unfold Table.lowest
  rw [List.find?_eq_some_iff_getElem]
  refine ⟨by simp [Table.close],fd.val,by simp,by simp,fun j hj => ?_⟩
  have hopen := h ⟨j,by omega⟩ (by dsimp only; omega)
  rw [List.getElem_finRange]
  simp only [Table.close,Fin.val_cast,if_neg (Nat.ne_of_lt hj)]
  simpa [Option.isSome_iff_ne_none] using hopen

theorem calls_redir {q : Proc Path NOFILE} {node : Path} {cmd : Cmd} {file efile mode : ℕ} {fd : Fin NOFILE}
    (hq : q.prog = runcmd node (.REDIR cmd file efile mode fd)) (hfd : fd.val < 3)
    (h : ∀ fd : Fin NOFILE, fd.val < 3 → q.table fd ≠ none) (pid : ℕ) :
    calls pid 2 q = { q with
      prog := runcmd (node ++ [.body]) cmd, table := update q.table fd (some (.opened node)) } := by
  have hopen : (q.table.close fd).openFile node = some (update q.table fd (some (.opened node))) := by
    rw [Table.openFile,lowest_closed hfd h,Option.map_some]
    refine congrArg some (funext fun x => ?_)
    by_cases hx : x = fd
    · rw [hx,update_self,update_self]
    · rw [update_of_ne hx,update_of_ne hx,Table.close,if_neg (fun he => hx (Fin.ext he))]
  have hclose : (q.act pid true).proc = { q with
      prog := .openFile node (runcmd (node ++ [.body]) cmd), table := q.table.close fd } := by
    simp only [Proc.act,hq,runcmd,ForkingPrograms.Operand.value]
  rw [calls,Function.iterate_succ_apply,Function.iterate_one,hclose]
  simp only [Proc.act,hopen]

theorem calls_redirs (hrs : ∀ x ∈ rs, x.fd < 3) (hs : Shows s cmd (base.redirs rs)) {root : Cmd} {node : Path}
    (hroot : root.sub node = some cmd) (pid : ℕ) {q : Proc Path NOFILE} (hq : q.prog = runcmd node cmd)
    (h : ∀ fd : Fin NOFILE, fd.val < 3 → q.table fd ≠ none) :
    ∃ inner, Shows s inner base ∧
      (calls pid (2 * rs.length) q).prog = runcmd (node ++ List.replicate rs.length .body) inner ∧
      root.entries s (calls pid (2 * rs.length) q).table =
        rs.reverse.foldl Redirection.apply (root.entries s q.table) := by
  induction rs using List.reverseRecOn generalizing cmd node q with
  | nil => exact ⟨cmd,hs,by simpa [calls] using hq,rfl⟩
  | append_singleton rs r ih =>
    rw [redirs_concat] at hs
    cases hs with
    | @redir c _ file efile _ _ _ hs hw =>
      have hfd : r.fd < 3 := hrs r (by simp)
      set fd : Fin NOFILE := ⟨r.fd,hfd.trans (by decide)⟩ with hfdef
      have htwo := calls_redir hq (show fd.val < 3 from hfd) h pid
      have hbody : root.sub (node ++ [.body]) = some c := by
        rw [Cmd.sub_concat,hroot]
        rfl
      obtain ⟨inner,hi,hprog,htable⟩ := ih (q := calls pid 2 q) (fun x hx => hrs x (by simp [hx])) hs hbody
        (by rw [htwo]) (fun x hx => by
          rw [htwo]
          dsimp only
          by_cases he : x = fd
          · rw [he,update_self]
            exact Option.some_ne_none _
          · rw [update_of_ne he]
            exact h x hx)
      have hcalls : calls pid (2 * (rs ++ [r]).length) q = calls pid (2 * rs.length) (calls pid 2 q) := by
        rw [calls,calls,calls,← Function.iterate_add_apply]
        congr 1
        simp only [List.length_append,List.length_singleton]
        omega
      have hentry : root.entries s (calls pid 2 q).table = Redirection.apply (root.entries s q.table) r := by
        rw [htwo]
        funext x
        dsimp only [Cmd.entries,Redirection.apply]
        by_cases hx : x = fd
        · rw [hx,update_self,if_pos rfl]
          simp only [Option.map_some,Cmd.entry,hroot,hw.gettoken.2.2]
        · rw [update_of_ne hx,if_neg (fun he => hx (Fin.ext he))]
      refine ⟨inner,hi,?_,?_⟩
      · rw [hcalls,hprog,List.append_assoc,List.length_append,List.length_singleton,List.replicate_succ]
        rfl
      · rw [hcalls,htable,hentry,List.reverse_append,List.reverse_singleton,List.singleton_append,List.foldl_cons]

end Calls

theorem foldl_apply (rs : List Redirection) (E : Entries) (fd : Fin NOFILE) : rs.foldl Redirection.apply E fd =
    match rs.reverse.find? (fun r => r.fd = fd.val) with
    | some r => some (.file r.file r.mode)
    | none => E fd := by
  induction rs using List.reverseRecOn with
  | nil => rfl
  | append_singleton rs r ih =>
    rw [List.foldl_append,List.reverse_append,List.reverse_singleton,List.singleton_append,List.find?_cons]
    simp only [List.foldl_cons,List.foldl_nil,Redirection.apply]
    by_cases hr : fd.val = r.fd
    · simp [hr]
    · rw [if_neg hr,ih]
      simp [Ne.symm hr]

theorem foldl_reverse_iff (hrs : ∀ x ∈ rs, x.fd < 3) (E : Entries) :
    rs.reverse.foldl Redirection.apply E = rs.foldl Redirection.apply E ↔
      ∀ fd, rs.find? (fun r => r.fd = fd) = rs.reverse.find? (fun r => r.fd = fd) := by
  constructor
  · intro h fd
    cases hf : rs.find? (fun r => r.fd = fd) with
    | none =>
      symm
      rw [List.find?_eq_none] at hf ⊢
      exact fun x hx => hf x (List.mem_reverse.mp hx)
    | some x =>
      have hx : x.fd = fd := by simpa using List.find?_some hf
      have hlt := hrs x (List.mem_of_find?_eq_some hf)
      have he := congrFun h ⟨fd,by simp only [NOFILE]; omega⟩
      rw [foldl_apply,foldl_apply,List.reverse_reverse] at he
      dsimp only at he
      rw [hf] at he
      cases hl : rs.reverse.find? (fun r => r.fd = fd) with
      | none =>
        rw [List.find?_eq_none] at hl
        exact absurd hx (by simpa using hl x (List.mem_reverse.mpr (List.mem_of_find?_eq_some hf)))
      | some y =>
        have hy : y.fd = fd := by simpa using List.find?_some hl
        rw [hl] at he
        obtain ⟨file,mode,fd'⟩ := x
        obtain ⟨file',mode',fd''⟩ := y
        cases he
        cases hx.trans hy.symm
        rfl
  · intro h
    funext fd
    rw [foldl_apply,foldl_apply,List.reverse_reverse,h fd.val]

theorem applies_in_order_iff (hrs : ∀ x ∈ rs, x.fd < 3) (hs : Shows s cmd (base.redirs rs)) :
    AppliesInOrder s cmd base rs ↔ ∀ fd, rs.find? (fun r => r.fd = fd) = rs.reverse.find? (fun r => r.fd = fd) := by
  constructor
  · intro h
    have hopen : ∀ fd : Fin NOFILE, fd.val < 3 → standard .given fd ≠ none := fun fd hfd => by
      rw [standard,if_pos hfd]
      exact Option.some_ne_none _
    let q : Proc Path NOFILE := ⟨runcmd [] cmd,(0,0),standard .given,none,.running⟩
    obtain ⟨-,-,-,htable⟩ := h cmd [] 0 q rfl rfl hopen
    obtain ⟨-,-,-,hback⟩ := @calls_redirs _ _ _ _ hrs hs cmd [] rfl 0 q rfl hopen
    exact (foldl_reverse_iff hrs _).mp (hback.symm.trans htable)
  · intro h root node pid q hroot hq hopen
    obtain ⟨inner,hi,hprog,hback⟩ := calls_redirs hrs hs hroot pid hq hopen
    exact ⟨inner,hi,hprog,hback.trans ((foldl_reverse_iff hrs _).mpr h)⟩

theorem parseexec_shows {n ps ps' : ℕ} (hat : At s ps ts) (hr : Redirected ts base rs r) (hstop : Stops ends r)
    (h : parseexec s n ps = .ok (cmd,ps')) : Shows s cmd (base.redirs rs) := by
  obtain ⟨cmd',ps1,hp,-,hs⟩ := parse_complete (n := 4 * ts.length + 2 + n) hr.derives hstop hat
    (by simp only [Nonterminal.depth]; omega)
  change parseexec s _ ps = _ at hp
  rw [parseexec_mono h (by omega)] at hp
  cases hp
  exact hs

/-- The redirections of a simple command or a block take effect from left to right just if the
first redirection of each descriptor is also its last. -/
theorem redirections_in_order_iff {n ps ps' : ℕ} (hat : At s ps ts) (hr : Redirected ts base rs r)
    (hstop : Stops ends r) (h : parseexec s n ps = .ok (cmd,ps')) : AppliesInOrder s cmd base rs ↔
      ∀ fd, rs.find? (fun r => r.fd = fd) = rs.reverse.find? (fun r => r.fd = fd) :=
  applies_in_order_iff hr.standard (parseexec_shows hat hr hstop h)

theorem lexed_letter {c : UInt8} {cs : List UInt8} {ts : List Token} (hc : wordChar c)
    (hend : cs.head?.all (fun x => !wordChar x)) (h : Lexed cs ts) : Lexed (c :: cs) (.word [c] :: ts) := by
  refine .word (w := [c]) (List.cons_ne_nil _ _) (List.forall_mem_singleton.mpr hc) (fun x hx => ?_) h
  rw [Option.mem_def.mp hx] at hend
  simpa using hend

theorem touching_at : At touching 0 [.word [97],.symbol .greater,.word [98]] where
  le := Nat.zero_le _
  lexed := lexed_letter (by decide) (by decide)
    (.symbol (x := .greater) (by decide) (lexed_letter (by decide) (by decide) .nil))

theorem touching_redirected : Redirected [.word [97],.symbol .greater,.word [98]] (.exec [[97]])
    [⟨[98],O_WRONLY ||| O_CREATE,1⟩] [] :=
  .words (.nil _) (.cons (.cons .greater (.nil _)) (.nil _)) (by decide)

theorem redirections_in_order_iff_one : ∃ cmd, parseexec touching 14 0 = .ok (cmd,3) ∧
    AppliesInOrder touching cmd (.exec [[97]]) [⟨[98],O_WRONLY ||| O_CREATE,1⟩] := by
  obtain ⟨cmd,h⟩ : ∃ cmd, parseexec touching 14 0 = .ok (cmd,3) := by
    refine ⟨?_,?_⟩
    rotate_left
    · simp only [parseexec]
      rfl
  exact ⟨cmd,h,(redirections_in_order_iff touching_at touching_redirected (stops_nil _) h).mpr (fun _ => rfl)⟩

def twoInputs : CString := .ofText [97,60,98,60,99] (fun _ => 0) (by simp)

def twoInputsTokens : List Token := [.word [97],.symbol .less,.word [98],.symbol .less,.word [99]]

theorem twoInputs_at : At twoInputs 0 twoInputsTokens where
  le := Nat.zero_le _
  lexed := lexed_letter (by decide) (by decide) (.symbol (x := .less) (by decide)
    (lexed_letter (by decide) (by decide) (.symbol (x := .less) (by decide)
      (lexed_letter (by decide) (by decide) .nil))))

theorem twoInputs_redirected :
    Redirected twoInputsTokens (.exec [[97]]) [⟨[98],O_RDONLY,0⟩,⟨[99],O_RDONLY,0⟩] [] :=
  .words (.nil _) (.cons (.cons .less (.cons .less (.nil _))) (.nil _)) (by decide)

/-- The command reads the file `b`, not `c`. -/
theorem first_input_in_effect : ∃ cmd, parseexec twoInputs 14 0 = .ok (cmd,5) ∧
    Redirected twoInputsTokens (.exec [[97]]) [⟨[98],O_RDONLY,0⟩,⟨[99],O_RDONLY,0⟩] [] ∧
    ¬ AppliesInOrder twoInputs cmd (.exec [[97]]) [⟨[98],O_RDONLY,0⟩,⟨[99],O_RDONLY,0⟩] := by
  obtain ⟨cmd,h⟩ : ∃ cmd, parseexec twoInputs 14 0 = .ok (cmd,5) := by
    refine ⟨?_,?_⟩
    rotate_left
    · simp only [parseexec]
      rfl
  refine ⟨cmd,h,twoInputs_redirected,fun happlies => ?_⟩
  have hs := parseexec_shows twoInputs_at twoInputs_redirected (stops_nil _) h
  have hsame := (applies_in_order_iff twoInputs_redirected.standard hs).mp happlies 0
  simp at hsame

end UoDOS.Shell
