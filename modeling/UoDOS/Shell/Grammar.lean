import UoDOS.Shell.Parser
import UoDOS.Library.Results

/-! # The grammar of command lines

What a command line means: a tree that the grammar derives from its tokens. A routine
of the parser that returns has found such a derivation.
-/
namespace UoDOS.Shell
open ByteMemory Strings Results Function

inductive Tree
  | exec (words : List (List UInt8))
  | redir (t : Tree) (file : List UInt8) (mode fd : ℕ)
  | pipe (left right : Tree)
  | list (left right : Tree)
  | back (t : Tree)

structure Redirection where
  file : List UInt8
  mode : ℕ
  fd : ℕ

def Tree.redirs (t : Tree) (rs : List Redirection) : Tree :=
  rs.foldl (fun t r => .redir t r.file r.mode r.fd) t

def Tree.backs (t : Tree) (k : ℕ) : Tree := Tree.back^[k] t

inductive Redirects : Symbol → ℕ → ℕ → Prop
  | less : Redirects .less O_RDONLY 0
  | greater : Redirects .greater (O_WRONLY ||| O_CREATE) 1
  | append : Redirects .append (O_WRONLY ||| O_CREATE) 1

inductive Redirs : List Token → List Redirection → List Token → Prop
  | nil (ts : List Token) : Redirs ts [] ts
  | cons {x : Symbol} {w : List UInt8} {mode fd : ℕ} {ts r : List Token} {rs : List Redirection}
      (hx : Redirects x mode fd) (h : Redirs ts rs r) :
      Redirs (.symbol x :: .word w :: ts) (⟨w,mode,fd⟩ :: rs) r

inductive Args : List Token → List (List UInt8) → List Redirection → List Token → Prop
  | nil (ts : List Token) : Args ts [] [] ts
  | cons {w : List UInt8} {ts r r' : List Token} {ws : List (List UInt8)} {rs rs' : List Redirection}
      (hr : Redirs ts rs r) (h : Args r ws rs' r') : Args (.word w :: ts) (w :: ws) (rs ++ rs') r'

inductive Nonterminal
  | line
  | pipe
  | exec

/-- The tokens up to the last list derive the tree:
`line ::= pipe '&'* [';' line]`, `pipe ::= exec ['|' pipe]` and
`exec ::= '(' line ')' redir* | redir* (word redir*)*`. -/
inductive Derives : Nonterminal → List Token → Tree → List Token → Prop
  | line {ts r : List Token} {t : Tree} {k : ℕ}
      (h : Derives .pipe ts t (List.replicate k (.symbol .amp) ++ r)) : Derives .line ts (t.backs k) r
  | list {ts r r' : List Token} {t u : Tree} {k : ℕ}
      (h : Derives .pipe ts t (List.replicate k (.symbol .amp) ++ .symbol .semi :: r))
      (hl : Derives .line r u r') : Derives .line ts (.list (t.backs k) u) r'
  | exec {ts r : List Token} {t : Tree} (h : Derives .exec ts t r) : Derives .pipe ts t r
  | pipe {ts r r' : List Token} {t u : Tree} (h : Derives .exec ts t (.symbol .bar :: r))
      (hp : Derives .pipe r u r') : Derives .pipe ts (.pipe t u) r'
  | block {ts r r' : List Token} {t : Tree} {rs : List Redirection}
      (h : Derives .line ts t (.symbol .rparen :: r)) (hr : Redirs r rs r') :
      Derives .exec (.symbol .lparen :: ts) (t.redirs rs) r'
  | words {ts r r' : List Token} {ws : List (List UInt8)} {rs rs' : List Redirection}
      (hr : Redirs ts rs r) (h : Args r ws rs' r') (hw : ws.length ≤ MAXARGS - 1) :
      Derives .exec ts ((Tree.exec ws).redirs (rs ++ rs')) r'

def LineDerives (s : CString) (t : Tree) : Prop :=
  ∃ ts, Lexed ((List.range s.length).map s.bytes) ts ∧ Derives .line ts t []

/-- The first words of the arguments are `ws`, and there are no others. -/
def Holds (s : CString) (argv eargv : Fin MAXARGS → Option ℕ) (ws : List (List UInt8)) : Prop :=
  ∀ i : Fin MAXARGS, (argv i = none ∧ ws.length ≤ i) ∨
    ∃ q eq w, argv i = some q ∧ eargv i = some eq ∧ ws[i.val]? = some w ∧ WordAt s q eq w

inductive Shows (s : CString) : Cmd → Tree → Prop
  | exec {argv eargv : Fin MAXARGS → Option ℕ} {ws : List (List UInt8)} (h : Holds s argv eargv ws) :
      Shows s (.EXEC argv eargv) (.exec ws)
  | redir {cmd : Cmd} {t : Tree} {file efile mode fd : ℕ} {w : List UInt8} (h : Shows s cmd t)
      (hw : WordAt s file efile w) : Shows s (.REDIR cmd file efile mode fd) (.redir t w mode fd)
  | pipe {c d : Cmd} {t u : Tree} (h : Shows s c t) (h' : Shows s d u) : Shows s (.PIPE c d) (.pipe t u)
  | list {c d : Cmd} {t u : Tree} (h : Shows s c t) (h' : Shows s d u) : Shows s (.LIST c d) (.list t u)
  | back {c : Cmd} {t : Tree} (h : Shows s c t) : Shows s (.BACK c) (.back t)

variable {s : CString} {ps n : ℕ} {ts : List Token} {cmd : Cmd} {t : Tree}
  {ws : List (List UInt8)} {r : List Token} {rs : List Redirection}

theorem Redirs.length (h : Redirs ts rs r) : r.length ≤ ts.length := by
  induction h with
  | nil => rfl
  | cons hx h ih =>
    simp only [List.length_cons]
    omega

theorem Args.length (h : Args ts ws rs r) :
    r.length ≤ ts.length := by
  induction h with
  | nil => rfl
  | cons hr h ih =>
    have hl := hr.length
    simp only [List.length_cons]
    omega

theorem Derives.length {nt : Nonterminal} (h : Derives nt ts t r) : r.length ≤ ts.length := by
  induction h with
  | line h ih =>
    simp only [List.length_append,List.length_replicate] at ih
    omega
  | list h hl ih ihl =>
    simp only [List.length_append,List.length_replicate,List.length_cons] at ih
    omega
  | exec h ih => exact ih
  | pipe h hp ih ihp =>
    simp only [List.length_cons] at ih
    omega
  | block h hr ih =>
    have hl := hr.length
    simp only [List.length_cons] at ih ⊢
    omega
  | words hr h hw =>
    have hl := hr.length
    have hl' := h.length
    omega

/-- A routine ends in a panic, or it returns what `P` says and the position behind it. -/
def Outcome {α : Type} (P : α → Prop) (x : Except Stop α) : Prop :=
  (∃ m, x = .error (.panic m)) ∨ ∃ a, x = .ok a ∧ P a

theorem Outcome.bind {α β : Type} {P : α → Prop} {Q : β → Prop} {x : Except Stop α} {f : α → Except Stop β}
    (h : Outcome P x) (hf : ∀ a, P a → Outcome Q (f a)) : Outcome Q (x >>= f) := by
  rcases h with ⟨m,rfl⟩ | ⟨a,rfl,ha⟩
  · exact .inl ⟨m,rfl⟩
  · exact hf a ha

theorem redirect_shows {x : Symbol} {mode fd q eq : ℕ} {w : List UInt8} (hx : Redirects x mode fd)
    (h : Shows s cmd t) (hw : WordAt s q eq w) :
    Shows s (redirect x.ret cmd q eq) (.redir t w mode fd) := by
  cases hx <;> exact .redir h hw

theorem redirects_of_char {x : Symbol} (h : x.char ∈ ['<'.toUInt8,'>'.toUInt8]) :
    ∃ mode fd, Redirects x mode fd := by
  cases x with
  | less => exact ⟨_,_,.less⟩
  | greater => exact ⟨_,_,.greater⟩
  | append => exact ⟨_,_,.append⟩
  | _ => exact absurd h (by decide)

theorem parseredirs_outcome (hat : At s ps ts) (hn : ts.length < n) (h : Shows s cmd t) :
    Outcome (fun a => ∃ rs r, Redirs ts rs r ∧ At s a.2 r ∧ Shows s a.1 (t.redirs rs))
      (parseredirs s n cmd ps) := by
  induction n generalizing cmd ps ts t with
  | zero => omega
  | succ n ih =>
    obtain ⟨hat',hfound⟩ := hat.peek ['<'.toUInt8,'>'.toUInt8] (by decide)
    unfold parseredirs
    dsimp only
    split_ifs with hf hw
    · exact .inl ⟨_,rfl⟩
    · obtain ⟨x,ts,rfl,hx⟩ := hfound.mp hf
      obtain ⟨mode,fd,hx⟩ := redirects_of_char hx
      obtain ⟨hret,hat1⟩ := hat'.gettoken_symbol
      cases ts with
      | nil =>
        have hz := hat1.gettoken_nil.1
        rw [hz] at hw
        exact absurd hw (by decide)
      | cons tok ts =>
        cases tok with
        | symbol y =>
          have hz := hat1.gettoken_symbol.1
          rw [hz] at hw
          exact absurd hw (by cases y <;> decide)
        | word w =>
          obtain ⟨-,hat2,hword⟩ := hat1.gettoken_word
          rw [hret]
          simp only [List.length_cons] at hn
          rcases ih hat2 (by omega) (redirect_shows hx h hword) with hp | ⟨a,ha,rs,r,hrs,hr,hs⟩
          · exact .inl hp
          · exact .inr ⟨a,ha,_,r,.cons hx hrs,hr,hs⟩
    · exact .inr ⟨_,rfl,[],ts,.nil ts,hat',h⟩

theorem holds_append {argv eargv : Fin MAXARGS → Option ℕ} {q eq : ℕ}
    {w : List UInt8} (h : Holds s argv eargv ws) (hlen : ws.length < MAXARGS) (hw : WordAt s q eq w) :
    Holds s (update argv ⟨ws.length,hlen⟩ (some q)) (update eargv ⟨ws.length,hlen⟩ (some eq))
      (ws ++ [w]) := by
  intro i
  by_cases hi : i = ⟨ws.length,hlen⟩
  · subst hi
    right
    exact ⟨q,eq,w,by simp,by simp,by simp,hw⟩
  · rw [update_of_ne hi,update_of_ne hi]
    have hne : i.val ≠ ws.length := fun hv => hi (Fin.ext hv)
    rcases h i with ⟨hn,hl⟩ | ⟨q',eq',w',hq,he,hws,hw'⟩
    · left
      rw [List.length_append,List.length_singleton]
      exact ⟨hn,by omega⟩
    · right
      have hlt := (List.getElem?_eq_some_iff.mp hws).1
      exact ⟨q',eq',w',hq,he,by rw [List.getElem?_append_left hlt,hws],hw'⟩

theorem holds_end {argv eargv : Fin MAXARGS → Option ℕ} (h : Holds s argv eargv ws)
    (hlen : ws.length < MAXARGS) :
    Holds s (update argv ⟨ws.length,hlen⟩ none) (update eargv ⟨ws.length,hlen⟩ none) ws := by
  intro i
  by_cases hi : i = ⟨ws.length,hlen⟩
  · subst hi
    left
    simp
  · rw [update_of_ne hi,update_of_ne hi]
    exact h i

theorem redirs_concat (t : Tree) (rs : List Redirection) (r : Redirection) :
    t.redirs (rs ++ [r]) = .redir (t.redirs rs) r.file r.mode r.fd := by
  simp [Tree.redirs]

theorem store_shows {ret : Cmd} {argc : ℕ}
    {q eq : Option ℕ} (ws' : List (List UInt8)) (hargc : argc < MAXARGS)
    (hws : ∀ argv eargv, Holds s argv eargv ws →
      Holds s (update argv ⟨argc,hargc⟩ q) (update eargv ⟨argc,hargc⟩ eq) ws')
    (h : Shows s ret ((Tree.exec ws).redirs rs)) :
    ∃ ret', ret.store argc q eq = .ok ret' ∧ Shows s ret' ((Tree.exec ws').redirs rs) := by
  induction rs using List.reverseRecOn generalizing ret with
  | nil =>
    cases h with
    | exec h =>
      refine ⟨_,?_,.exec (hws _ _ h)⟩
      simp [Cmd.store,hargc]
  | append_singleton rs r ih =>
    rw [redirs_concat] at h ⊢
    cases h with
    | redir h hw =>
      obtain ⟨ret',hs,h'⟩ := ih h
      refine ⟨_,?_,.redir h' hw⟩
      simp [Cmd.store,hs,bind,Except.bind]

theorem parseargs_outcome {ret : Cmd} (ws : List (List UInt8)) (hat : At s ps ts)
    (hn : ts.length < n) (hlen : ws.length < MAXARGS) (h : Shows s ret ((Tree.exec ws).redirs rs)) :
    Outcome (fun a => ∃ ws' rs' r, Args ts ws' rs' r ∧ At s a.2.2 r ∧ a.2.1 = (ws ++ ws').length ∧
      a.2.1 < MAXARGS ∧ Shows s a.1 ((Tree.exec (ws ++ ws')).redirs (rs ++ rs')))
      (parseargs s n ret ws.length ps) := by
  induction n generalizing ret ps ts ws rs with
  | zero => omega
  | succ n ih =>
    obtain ⟨hat',-⟩ := hat.peek ['|'.toUInt8,')'.toUInt8,'&'.toUInt8,';'.toUInt8] (by decide)
    unfold parseargs
    dsimp only
    split
    · exact .inr ⟨_,rfl,[],[],ts,.nil ts,hat',by simp,hlen,by simpa using h⟩
    split
    · rename_i hz
      cases ts with
      | nil => exact .inr ⟨_,rfl,[],[],[],.nil [],hat'.gettoken_nil.2,by simp,hlen,by simpa using h⟩
      | cons tok ts =>
        cases tok with
        | symbol x =>
          rw [hat'.gettoken_symbol.1] at hz
          exact absurd hz (by cases x <;> decide)
        | word w =>
          rw [hat'.gettoken_word.1] at hz
          exact absurd hz (by decide)
    split
    · exact .inl ⟨_,rfl⟩
    · rename_i hz hw
      cases ts with
      | nil => exact absurd hat'.gettoken_nil.1 hz
      | cons tok ts =>
        cases tok with
        | symbol x =>
          rw [hat'.gettoken_symbol.1] at hw
          exact absurd hw (by cases x <;> decide)
        | word w =>
          obtain ⟨-,hat1,hword⟩ := hat'.gettoken_word
          obtain ⟨ret1,hs1,h1⟩ := store_shows (ws ++ [w]) hlen
            (fun argv eargv ha => holds_append ha hlen hword) h
          simp only [List.length_cons] at hn
          rw [hs1]
          apply Outcome.bind (P := fun ret => Shows s ret ((Tree.exec (ws ++ [w])).redirs rs)) (.inr ⟨_,rfl,h1⟩)
          intro ret2 h2
          split
          · exact .inl ⟨_,rfl⟩
          · rename_i hmax
            apply Outcome.bind (parseredirs_outcome hat1 (by omega) h2)
            rintro ⟨ret3,ps3⟩ ⟨rs',r,hrs,hat3,h3⟩
            have hl := hrs.length
            rw [Tree.redirs,Tree.redirs,← List.foldl_append] at h3
            have hnext := ih (ws ++ [w]) hat3 (by omega) (by simp; omega) h3
            simp only [List.length_append,List.length_singleton] at hnext
            rcases hnext with hp | ⟨a,ha,ws',rs'',r',hargs,hat',hargc,hlt,hshow⟩
            · exact .inl hp
            · refine .inr ⟨a,ha,w :: ws',rs' ++ rs'',r',.cons hrs hargs,hat',?_,hlt,by simpa using hshow⟩
              simp only [List.length_append,List.length_cons] at hargc ⊢
              omega

theorem parsebacks_outcome (hat : At s ps ts) (hn : ts.length < n) (h : Shows s cmd t) :
    Outcome (fun a => ∃ k r, ts = List.replicate k (.symbol .amp) ++ r ∧ At s a.2 r ∧ Shows s a.1 (t.backs k))
      (parsebacks s n cmd ps) := by
  induction n generalizing cmd ps ts t with
  | zero => omega
  | succ n ih =>
    obtain ⟨hat',hfound⟩ := hat.peek ['&'.toUInt8] (by decide)
    unfold parsebacks
    dsimp only
    split_ifs with hf
    · obtain ⟨x,ts,rfl,hx⟩ := hfound.mp hf
      obtain rfl := eq_of_char (y := .amp) (by decide) hx
      simp only [List.length_cons] at hn
      rcases ih hat'.gettoken_symbol.2 (by omega) (.back h) with hp | ⟨a,ha,k,r,hts,hr,hs⟩
      · exact .inl hp
      · exact .inr ⟨a,ha,k + 1,r,by rw [hts,List.replicate_succ,List.cons_append],hr,hs⟩
    · exact .inr ⟨_,rfl,0,ts,by simp,hat',h⟩

def Parsed (s : CString) (nt : Nonterminal) (ts : List Token) (a : Cmd × ℕ) : Prop :=
  ∃ t r, Derives nt ts t r ∧ At s a.2 r ∧ Shows s a.1 t

theorem parse_outcome (s : CString) (n : ℕ) :
    (∀ ps ts, At s ps ts → 4 * ts.length + 4 ≤ n → Outcome (Parsed s .line ts) (parseline s n ps)) ∧
    (∀ ps ts, At s ps ts → 4 * ts.length + 3 ≤ n → Outcome (Parsed s .pipe ts) (parsepipe s n ps)) ∧
    (∀ ps ts, At s ps ts → 4 * ts.length + 1 ≤ n → Outcome (Parsed s .exec ts) (parseblock s n ps)) ∧
    (∀ ps ts, At s ps ts → 4 * ts.length + 2 ≤ n → Outcome (Parsed s .exec ts) (parseexec s n ps)) := by
  induction n with
  | zero => exact ⟨by omega,by omega,by omega,by omega⟩
  | succ n ih =>
    obtain ⟨ihline,ihpipe,ihblock,ihexec⟩ := ih
    refine ⟨?_,?_,?_,?_⟩
    · intro ps ts hat hn
      unfold parseline
      apply Outcome.bind (ihpipe ps ts hat (by omega))
      rintro ⟨cmd,ps1⟩ ⟨t,r,hd,hat1,hs⟩
      have hl := hd.length
      apply Outcome.bind (parsebacks_outcome hat1 (by omega) hs)
      rintro ⟨cmd2,ps2⟩ ⟨k,r,rfl,hat2,hs2⟩
      obtain ⟨hat3,hfound⟩ := hat2.peek [';'.toUInt8] (by decide)
      dsimp only
      split_ifs with hf
      · obtain ⟨x,r,rfl,hx⟩ := hfound.mp hf
        obtain rfl := eq_of_char (y := .semi) (by decide) hx
        simp only [List.length_append,List.length_replicate,List.length_cons] at hl
        apply Outcome.bind (ihline _ _ hat3.gettoken_symbol.2 (by omega))
        rintro ⟨cmd4,ps4⟩ ⟨u,r',hu,hat4,hs4⟩
        exact .inr ⟨_,rfl,_,r',.list hd hu,hat4,.list hs2 hs4⟩
      · exact .inr ⟨_,rfl,_,r,.line hd,hat3,hs2⟩
    · intro ps ts hat hn
      unfold parsepipe
      apply Outcome.bind (ihexec ps ts hat (by omega))
      rintro ⟨cmd,ps1⟩ ⟨t,r,hd,hat1,hs⟩
      have hl := hd.length
      obtain ⟨hat2,hfound⟩ := hat1.peek ['|'.toUInt8] (by decide)
      dsimp only
      split_ifs with hf
      · obtain ⟨x,r,rfl,hx⟩ := hfound.mp hf
        obtain rfl := eq_of_char (y := .bar) (by decide) hx
        simp only [List.length_cons] at hl
        apply Outcome.bind (ihpipe _ _ hat2.gettoken_symbol.2 (by omega))
        rintro ⟨cmd4,ps4⟩ ⟨u,r',hu,hat4,hs4⟩
        exact .inr ⟨_,rfl,_,r',.pipe hd hu,hat4,.pipe hs hs4⟩
      · exact .inr ⟨_,rfl,_,r,.exec hd,hat2,hs⟩
    · intro ps ts hat hn
      unfold parseblock
      obtain ⟨hat1,hfound⟩ := hat.peek ['('.toUInt8] (by decide)
      dsimp only
      split_ifs with hf
      · exact .inl ⟨_,rfl⟩
      · obtain ⟨x,ts,rfl,hx⟩ := hfound.mp (by simpa using hf)
        obtain rfl := eq_of_char (y := .lparen) (by decide) hx
        simp only [List.length_cons] at hn
        apply Outcome.bind (ihline _ _ hat1.gettoken_symbol.2 (by omega))
        rintro ⟨cmd,ps2⟩ ⟨t,r,hd,hat2,hs⟩
        have hl := hd.length
        obtain ⟨hat3,hfound⟩ := hat2.peek [')'.toUInt8] (by decide)
        dsimp only
        split_ifs with hf
        · exact .inl ⟨_,rfl⟩
        · obtain ⟨x,r,rfl,hx⟩ := hfound.mp (by simpa using hf)
          obtain rfl := eq_of_char (y := .rparen) (by decide) hx
          simp only [List.length_cons] at hl
          rcases parseredirs_outcome hat3.gettoken_symbol.2 (n := n) (by omega) hs with
            hp | ⟨a,ha,rs,r',hrs,hat4,hs4⟩
          · exact .inl hp
          · exact .inr ⟨a,ha,_,r',.block hd hrs,hat4,hs4⟩
    · intro ps ts hat hn
      unfold parseexec
      obtain ⟨hat1,-⟩ := hat.peek ['('.toUInt8] (by decide)
      dsimp only
      split_ifs with hf
      · exact ihblock _ _ hat1 (by omega)
      · have hempty : Shows s execcmd ((Tree.exec []).redirs []) := .exec (fun i => .inl ⟨rfl,by simp⟩)
        apply Outcome.bind (parseredirs_outcome hat1 (by omega) hempty)
        rintro ⟨ret,ps2⟩ ⟨rs,r,hrs,hat2,hs2⟩
        have hl := hrs.length
        apply Outcome.bind (parseargs_outcome [] hat2 (by omega) (by decide) hs2)
        rintro ⟨ret3,argc,ps3⟩ ⟨ws,rs',r',hargs,hat3,hargc,hlt,hs3⟩
        rw [List.nil_append] at hargc hs3
        dsimp only at hargc hlt hs3
        subst hargc
        obtain ⟨ret4,hr4,hs4⟩ := store_shows ws hlt (fun argv eargv ha => holds_end ha hlt) hs3
        rw [hr4]
        exact .inr ⟨_,rfl,_,r',.words hrs hargs (by omega),hat3,hs4⟩

end UoDOS.Shell
