import UoDOS.Shell.Parsing

/-! # Parsing a command line

nulterminate ends the words of a command in the line itself. It touches no character
of a word, so the strings of the command are the words that the grammar derives.
-/
namespace UoDOS.Shell
open ByteMemory Strings Results Function

def readString (line : Bytes) (n q : ℕ) : List UInt8 :=
  (List.range (first (fun i => line (q + i) = 0) n)).map (fun i => line (q + i))

/-- The strings of the arguments from `i` on, up to a null pointer. -/
def readArgs (line : Bytes) (n : ℕ) (argv : Fin MAXARGS → Option ℕ) (i : ℕ) : List (List UInt8) :=
  if h : i < MAXARGS then
    match argv ⟨i,h⟩ with
    | none => []
    | some q => readString line n q :: readArgs line n argv (i + 1)
  else []
termination_by MAXARGS - i

def Cmd.tree (line : Bytes) (n : ℕ) : Cmd → Tree
  | .EXEC argv _ => .exec (readArgs line n argv 0)
  | .REDIR cmd file _ mode fd => .redir (cmd.tree line n) (readString line n file) mode fd
  | .PIPE left right => .pipe (left.tree line n) (right.tree line n)
  | .LIST left right => .list (left.tree line n) (right.tree line n)
  | .BACK cmd => .back (cmd.tree line n)

variable {s : CString} {line line' : Bytes}
  {t : Tree} {eq q : ℕ} {w : List UInt8} {cmd : Cmd}

def Marked (s : CString) (line : Bytes) : Prop :=
  ∀ i, line i = s.bytes i ∨ (line i = 0 ∧ (i < s.length → wordChar (s.bytes i) = false))

theorem Marked.mark (h : Marked s line) (hw : WordAt s q eq w) :
    Marked s (update line eq 0) := by
  intro i
  rcases eq_or_ne i eq with rfl | hi
  · right
    exact ⟨by simp,hw.ends⟩
  · rw [update_of_ne hi]
    exact h i

theorem Marked.word (h : Marked s line) (hw : WordAt s q eq w) :
    ∀ i < w.length, line (q + i) = w.getD i 0 ∧ line (q + i) ≠ 0 := by
  intro i hi
  have hlen := hw.length
  have hin := hw.inside
  have hc : wordChar (s.bytes (q + i)) := by
    rw [hw.text i hi,List.getD_eq_getElem _ _ hi]
    exact hw.chars _ (List.getElem_mem hi)
  rcases h (q + i) with he | ⟨-,hn⟩
  · rw [he]
    exact ⟨hw.text i hi,s.nonzero _ (by omega)⟩
  · rw [hn (by omega)] at hc
    cases hc

theorem readString_word (h : Marked s line) (hw : WordAt s q eq w)
    (hz : line eq = 0) : readString line s.length q = w := by
  have hlen := hw.length
  have hin := hw.inside
  have hchars := h.word hw
  have hfirst : first (fun i => line (q + i) = 0) s.length = w.length := by
    apply Nat.le_antisymm
    · apply first_le_of
      rw [← hlen]
      simpa using hz
    · by_contra hlt
      have hl := Nat.lt_of_not_le hlt
      have ht := first_of_lt (p := fun i => line (q + i) = 0) (n := s.length) (by omega)
      exact (hchars _ hl).2 (by simpa using ht)
  unfold readString
  rw [hfirst]
  apply List.ext_getElem
  · simp
  · intro i hi hi'
    simp only [List.getElem_map,List.getElem_range]
    rw [(hchars i hi').1,List.getD_eq_getElem _ _ hi']

def Kept (line line' : Bytes) : Prop := ∀ i, line i = 0 → line' i = 0

theorem kept_mark (line : Bytes) (e : ℕ) : Kept line (update line e 0) := by
  intro i hi
  rcases eq_or_ne i e with rfl | hne
  · simp
  · rwa [update_of_ne hne]

def Cmd.Ended (line : Bytes) : Cmd → Prop
  | .EXEC argv eargv => ∀ i q, argv i = some q → ∃ e, eargv i = some e ∧ line e = 0
  | .REDIR cmd _ efile _ _ => cmd.Ended line ∧ line efile = 0
  | .PIPE left right => left.Ended line ∧ right.Ended line
  | .LIST left right => left.Ended line ∧ right.Ended line
  | .BACK cmd => cmd.Ended line

theorem Cmd.Ended.keep (h : cmd.Ended line) (hk : Kept line line') : cmd.Ended line' := by
  induction cmd with
  | EXEC argv eargv =>
    intro i q hq
    obtain ⟨e,he,hz⟩ := h i q hq
    exact ⟨e,he,hk e hz⟩
  | REDIR cmd file efile mode fd ih => exact ⟨ih h.1,hk efile h.2⟩
  | PIPE left right ihl ihr => exact ⟨ihl h.1,ihr h.2⟩
  | LIST left right ihl ihr => exact ⟨ihl h.1,ihr h.2⟩
  | BACK cmd ih => exact ih h

theorem terminateArgs_ends {argv eargv : Fin MAXARGS → Option ℕ} {ws : List (List UInt8)}
    (hh : Holds s argv eargv ws) (hlen : ws.length < MAXARGS) (i : ℕ) (hi : i ≤ ws.length) (hm : Marked s line) :
    ∃ line', terminateArgs argv eargv i line = .ok line' ∧ Marked s line' ∧ Kept line line' ∧
      ∀ j q, i ≤ j.val → argv j = some q → ∃ e, eargv j = some e ∧ line' e = 0 := by
  induction hk : ws.length - i generalizing i line with
  | zero =>
    have hend : ∀ j : Fin MAXARGS, i ≤ j.val → argv j = none := by
      intro j hj
      rcases hh j with ⟨hn,-⟩ | ⟨q,eq,w,-,-,hws,-⟩
      · exact hn
      · have hl := (List.getElem?_eq_some_iff.mp hws).1
        omega
    have hlt : i < MAXARGS := by omega
    refine ⟨line,?_,hm,fun _ h => h,fun j q hj hq => ?_⟩
    · rw [terminateArgs]
      simp [hlt,hend ⟨i,hlt⟩ le_rfl]
    · rw [hend j hj] at hq
      cases hq
  | succ k ih =>
    have hlt : i < MAXARGS := by omega
    rcases hh ⟨i,hlt⟩ with ⟨-,hl⟩ | ⟨q,eq,w,hq,he,-,hw⟩
    · dsimp only at hl
      omega
    · obtain ⟨line',ht,hm',hk',hz⟩ := ih (i + 1) (by omega) (hm.mark hw) (by omega)
      refine ⟨line',?_,hm',fun j hj => hk' j (kept_mark line eq j hj),fun j q' hj hq' => ?_⟩
      · rw [terminateArgs]
        simp [hlt,hq,he,ht]
      · rcases Nat.eq_or_lt_of_le hj with rfl | hj
        · exact ⟨eq,he,hk' eq (by simp)⟩
        · exact hz j q' hj hq'

theorem readArgs_ended {argv eargv : Fin MAXARGS → Option ℕ} {ws : List (List UInt8)}
    (hh : Holds s argv eargv ws) (hm : Marked s line) (hz : (Cmd.EXEC argv eargv).Ended line)
    (hlen : ws.length < MAXARGS) (i : ℕ) : readArgs line s.length argv i = ws.drop i := by
  induction hk : ws.length - i generalizing i with
  | zero =>
    rw [List.drop_of_length_le (by omega),readArgs]
    split
    · rename_i hlt
      rcases hh ⟨i,hlt⟩ with ⟨hn,-⟩ | ⟨q,eq,w,-,-,hws,-⟩
      · rw [hn]
      · have hl := (List.getElem?_eq_some_iff.mp hws).1
        dsimp only at hl
        omega
    · rfl
  | succ k ih =>
    have hlt : i < MAXARGS := by omega
    rcases hh ⟨i,hlt⟩ with ⟨-,hl⟩ | ⟨q,eq,w,hq,he,hws,hw⟩
    · dsimp only at hl
      omega
    · obtain ⟨e,he',hze⟩ := hz ⟨i,hlt⟩ q hq
      rw [he] at he'
      cases he'
      obtain ⟨hl,hg⟩ := List.getElem?_eq_some_iff.mp hws
      dsimp only at hl hg
      rw [readArgs]
      simp only [hlt,hq,↓reduceDIte,readString_word hm hw hze,ih (i + 1) (by omega)]
      rw [List.drop_eq_getElem_cons hl,hg]

def Tree.Short : Tree → Prop
  | .exec ws => ws.length < MAXARGS
  | .redir t _ _ _ => t.Short
  | .pipe t u => t.Short ∧ u.Short
  | .list t u => t.Short ∧ u.Short
  | .back t => t.Short

theorem short_redirs {rs : List Redirection} (h : t.Short) : (t.redirs rs).Short := by
  induction rs generalizing t with
  | nil => exact h
  | cons r rs ih => exact ih (t := .redir t r.file r.mode r.fd) h

theorem short_backs (k : ℕ) (h : t.Short) : (t.backs k).Short := by
  induction k generalizing t with
  | zero => exact h
  | succ k ih => exact ih (t := .back t) h

theorem Derives.short {nt : Nonterminal} {ts r : List Token} (h : Derives nt ts t r) : t.Short := by
  induction h with
  | line h ih => exact short_backs _ ih
  | list h hl ih ihl => exact ⟨short_backs _ ih,ihl⟩
  | exec h ih => exact ih
  | pipe h hp ih ihp => exact ⟨ih,ihp⟩
  | block h hr ih => exact short_redirs ih
  | @words ts r r' ws rs rs' hr h hw =>
    apply short_redirs
    simp only [Tree.Short,MAXARGS] at hw ⊢
    omega

theorem nulterminate_ends (h : Shows s cmd t) (ht : t.Short) (hm : Marked s line) :
    ∃ line', nulterminate cmd line = .ok line' ∧ Marked s line' ∧ Kept line line' ∧ cmd.Ended line' := by
  induction h generalizing line with
  | exec h =>
    obtain ⟨line',hn,hm',hk,hz⟩ := terminateArgs_ends h ht 0 (Nat.zero_le _) hm
    exact ⟨line',hn,hm',hk,fun i q hq => hz i q (Nat.zero_le _) hq⟩
  | @redir cmd t file efile mode fd w h hw ih =>
    obtain ⟨line',hn,hm',hk,hz⟩ := ih ht hm
    refine ⟨update line' efile 0,?_,hm'.mark hw,fun i hi => kept_mark line' efile i (hk i hi),?_⟩
    · simp [nulterminate,hn,bind,Except.bind]
    · exact ⟨hz.keep (kept_mark line' efile),by simp⟩
  | pipe h h' ih ih' =>
    obtain ⟨line1,hn1,hm1,hk1,hz1⟩ := ih ht.1 hm
    obtain ⟨line2,hn2,hm2,hk2,hz2⟩ := ih' ht.2 hm1
    refine ⟨line2,?_,hm2,fun i hi => hk2 i (hk1 i hi),hz1.keep hk2,hz2⟩
    simp [nulterminate,hn1,hn2,bind,Except.bind]
  | list h h' ih ih' =>
    obtain ⟨line1,hn1,hm1,hk1,hz1⟩ := ih ht.1 hm
    obtain ⟨line2,hn2,hm2,hk2,hz2⟩ := ih' ht.2 hm1
    refine ⟨line2,?_,hm2,fun i hi => hk2 i (hk1 i hi),hz1.keep hk2,hz2⟩
    simp [nulterminate,hn1,hn2,bind,Except.bind]
  | back h ih => exact ih ht hm

theorem Cmd.Ended.tree (hz : cmd.Ended line) (h : Shows s cmd t) (ht : t.Short)
    (hm : Marked s line) : cmd.tree line s.length = t := by
  induction h with
  | exec h => rw [Cmd.tree,readArgs_ended h hm hz ht 0,List.drop_zero]
  | redir h hw ih => rw [Cmd.tree,ih hz.1 ht,readString_word hm hw hz.2]
  | pipe h h' ih ih' => rw [Cmd.tree,ih hz.1 ht.1,ih' hz.2 ht.2]
  | list h h' ih ih' => rw [Cmd.tree,ih hz.1 ht.1,ih' hz.2 ht.2]
  | back h ih => rw [Cmd.tree,ih hz ht]

theorem Lexed.length {cs : List UInt8} {ts : List Token} (h : Lexed cs ts) : ts.length ≤ cs.length := by
  induction h with
  | nil => rfl
  | blank hc h ih =>
    rw [List.length_cons]
    omega
  | @symbol x cs ts hx h ih =>
    have hpos : 1 ≤ x.text.length := by cases x <;> decide
    simp only [List.length_append,List.length_cons]
    omega
  | word hne hw hend h ih =>
    have hpos := List.length_pos_iff.mpr hne
    simp only [List.length_append,List.length_cons]
    omega

theorem nulterminate_tree (h : Shows s cmd t) (ht : t.Short) :
    ∃ line, nulterminate cmd s.bytes = .ok line ∧ cmd.tree line s.length = t := by
  obtain ⟨line,hn,hm,-,hz⟩ := nulterminate_ends h ht (fun i => .inl rfl : Marked s s.bytes)
  exact ⟨line,hn,hz.tree h ht hm⟩

/-- parsecmd returns a command exactly when the line derives its tree, and panics on
every other line. -/
theorem parsecmd_derives_iff (s : CString) (more : ℕ) :
    (∀ t, (∃ cmd line, parsecmd s (4 * s.length + 4 + more) = .ok (cmd,line) ∧
      cmd.tree line s.length = t) ↔ LineDerives s t) ∧
    ((¬ ∃ t, LineDerives s t) → ∃ m, parsecmd s (4 * s.length + 4 + more) = .error (.panic m)) := by
  have hrest : rest s 0 = (List.range s.length).map s.bytes := List.drop_zero
  have hlen : ∀ ts, Lexed ((List.range s.length).map s.bytes) ts →
      4 * ts.length + 4 ≤ 4 * s.length + 4 + more := by
    intro ts h
    have hl := h.length
    rw [List.length_map,List.length_range] at hl
    omega
  have houtcome : (∃ m, parsecmd s (4 * s.length + 4 + more) = .error (.panic m)) ∨
      ∃ cmd line t, parsecmd s (4 * s.length + 4 + more) = .ok (cmd,line) ∧ cmd.tree line s.length = t ∧
        LineDerives s t := by
    obtain ⟨ts,hts⟩ := exists_lexed ((List.range s.length).map s.bytes)
    have hat : At s 0 ts := ⟨Nat.zero_le _,by rwa [hrest]⟩
    rcases (parse_outcome s _).1 0 ts hat (hlen ts hts) with ⟨m,hp⟩ | ⟨⟨cmd,ps⟩,hp,t,r,hd,hat',hs⟩
    · left
      exact ⟨m,by simp [parsecmd,hp,bind,Except.bind]⟩
    · by_cases hr : r = []
      · right
        subst hr
        obtain ⟨line,hn,ht⟩ := nulterminate_tree hs hd.short
        have he := (hat'.peek_end []).mpr rfl
        exact ⟨cmd,line,t,by simp [parsecmd,hp,he,hn,bind,Except.bind],ht,ts,hts,hd⟩
      · left
        have he : (peek s ps []).2 ≠ s.length := fun h => hr ((hat'.peek_end []).mp h)
        exact ⟨"syntax",by simp only [parsecmd,hp,bind,Except.bind,if_pos he]⟩
  constructor
  · intro t
    constructor
    · rintro ⟨cmd,line,hp,ht⟩
      rcases houtcome with ⟨m,hm⟩ | ⟨cmd',line',t',hp',ht',hd⟩
      · rw [hm] at hp
        cases hp
      · rw [hp] at hp'
        cases hp'
        rw [← ht,ht']
        exact hd
    · rintro ⟨ts,hts,hd⟩
      have hat : At s 0 ts := ⟨Nat.zero_le _,by rwa [hrest]⟩
      obtain ⟨cmd,ps,hp,hat',hs⟩ := parse_complete hd (stops_nil _) hat (hlen ts hts)
      obtain ⟨line,hn,ht⟩ := nulterminate_tree hs hd.short
      have he := (hat'.peek_end []).mpr rfl
      simp only [routine] at hp
      exact ⟨cmd,line,by simp [parsecmd,hp,he,hn,bind,Except.bind],ht⟩
  · intro hno
    rcases houtcome with hm | ⟨cmd,line,t,-,-,hd⟩
    · exact hm
    · exact absurd ⟨t,hd⟩ hno

end UoDOS.Shell
