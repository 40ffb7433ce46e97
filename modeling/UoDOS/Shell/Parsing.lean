import UoDOS.Shell.Grammar

/-! # The parser finds every derivation

The routines of sh.c look one token ahead. What may follow a line, a pipe or a simple
command tells them when to stop, so that they find the tree of each derivation.
-/
namespace UoDOS.Shell
open ByteMemory Strings Results

variable {s : CString} {ps n : ℕ} {ts r : List Token} {cmd : Cmd} {t : Tree}
  {rs : List Redirection} {xs : List Symbol}

/-- The tokens are at an end or begin with one of the symbols. -/
def Stops (xs : List Symbol) (r : List Token) : Prop := ∀ tok r', r = tok :: r' → ∃ x ∈ xs, tok = .symbol x

theorem stops_nil (xs : List Symbol) : Stops xs [] := by
  intro tok r' h
  cases h

theorem stops_symbol {x : Symbol} (h : x ∈ xs) (r : List Token) :
    Stops xs (.symbol x :: r) := by
  intro tok r' he
  cases he
  exact ⟨x,h,rfl⟩

theorem Stops.mono {ys : List Symbol} (h : Stops xs r) (hs : xs ⊆ ys) : Stops ys r := by
  intro tok r' he
  obtain ⟨x,hx,ht⟩ := h tok r' he
  exact ⟨x,hs hx,ht⟩

def Misses (toks : List UInt8) (r : List Token) : Prop := ∀ x r', r = .symbol x :: r' → x.char ∉ toks

theorem Stops.misses {toks : List UInt8} (h : Stops xs r)
    (hx : ∀ x ∈ xs, x.char ∉ toks) : Misses toks r := by
  intro x r' he
  obtain ⟨y,hy,he⟩ := h _ r' he
  cases he
  exact hx x hy

theorem misses_word (toks : List UInt8) (w : List UInt8) (r : List Token) : Misses toks (.word w :: r) := by
  intro x r' h
  cases h

theorem At.peek_true {x : Symbol} (h : At s ps (.symbol x :: ts)) (toks : List UInt8) (ht : toks ⊆ symbols)
    (hx : x.char ∈ toks) : (Shell.peek s ps toks).1 = true := (h.peek toks ht).2.mpr ⟨x,ts,rfl,hx⟩

theorem At.peek_false (h : At s ps ts) (toks : List UInt8) (ht : toks ⊆ symbols) (hm : Misses toks ts) :
    (Shell.peek s ps toks).1 = false := by
  rw [← Bool.not_eq_true,(h.peek toks ht).2]
  rintro ⟨x,r',he,hx⟩
  exact hm x r' he hx

theorem parseredirs_complete (hr : Redirs ts rs r)
    (hm : Misses ['<'.toUInt8,'>'.toUInt8] r) (hat : At s ps ts) (hn : ts.length < n) (h : Shows s cmd t) :
    ∃ cmd' ps', parseredirs s n cmd ps = .ok (cmd',ps') ∧ At s ps' r ∧ Shows s cmd' (t.redirs rs) := by
  induction hr generalizing ps n cmd t with
  | nil ts =>
    obtain ⟨m,rfl⟩ : ∃ m, n = m + 1 := ⟨n - 1,by omega⟩
    refine ⟨cmd,_,?_,(hat.peek ['<'.toUInt8,'>'.toUInt8] (by decide)).1,h⟩
    simp only [parseredirs,hat.peek_false _ (by decide) hm]
    rfl
  | @cons x w mode fd ts r rs hx hr ih =>
    obtain ⟨m,rfl⟩ : ∃ m, n = m + 1 := ⟨n - 1,by omega⟩
    simp only [List.length_cons] at hn
    have hfound := hat.peek_true ['<'.toUInt8,'>'.toUInt8] (by decide) (by cases hx <;> decide)
    have hat' := (hat.peek ['<'.toUInt8,'>'.toUInt8] (by decide)).1
    obtain ⟨hret,hat1⟩ := hat'.gettoken_symbol
    obtain ⟨hword,hat2,hw⟩ := hat1.gettoken_word
    obtain ⟨cmd',ps',hp,hat3,hs⟩ := ih hm hat2 (n := m) (by omega) (redirect_shows hx h hw)
    refine ⟨cmd',ps',?_,hat3,hs⟩
    simp only [parseredirs,hfound,hword,hret,hp,ne_eq,not_true_eq_false,↓reduceIte]

theorem parsebacks_complete {k : ℕ} (hm : Misses ['&'.toUInt8] r)
    (hat : At s ps (List.replicate k (.symbol .amp) ++ r)) (hn : k + r.length < n) (h : Shows s cmd t) :
    ∃ cmd' ps', parsebacks s n cmd ps = .ok (cmd',ps') ∧ At s ps' r ∧ Shows s cmd' (t.backs k) := by
  induction k generalizing ps n cmd t with
  | zero =>
    obtain ⟨m,rfl⟩ : ∃ m, n = m + 1 := ⟨n - 1,by omega⟩
    rw [List.replicate_zero,List.nil_append] at hat
    refine ⟨cmd,_,?_,(hat.peek ['&'.toUInt8] (by decide)).1,h⟩
    simp only [parsebacks,hat.peek_false _ (by decide) hm]
    rfl
  | succ k ih =>
    obtain ⟨m,rfl⟩ : ∃ m, n = m + 1 := ⟨n - 1,by omega⟩
    rw [List.replicate_succ,List.cons_append] at hat
    have hfound := hat.peek_true ['&'.toUInt8] (by decide) (by decide)
    have hat' := (hat.peek ['&'.toUInt8] (by decide)).1
    obtain ⟨cmd',ps',hp,hat3,hs⟩ := ih hat'.gettoken_symbol.2 (n := m) (by omega) (.back h)
    refine ⟨cmd',ps',?_,hat3,hs⟩
    simp only [parsebacks,hfound,hp,↓reduceIte]

def ends : List Symbol := [.bar,.rparen,.amp,.semi]

theorem ends_char : ∀ x ∈ ends, x.char ∈ ['|'.toUInt8,')'.toUInt8,'&'.toUInt8,';'.toUInt8] := by
  decide

theorem Args.misses {ws : List (List UInt8)} {toks : List UInt8} (h : Args ts ws rs r)
    (hr : Misses toks r) : Misses toks ts := by
  cases h with
  | nil => exact hr
  | cons => exact misses_word _ _ _

theorem parseargs_complete {ret : Cmd} {ws' : List (List UInt8)} {rs' : List Redirection}
    (ws : List (List UInt8)) (ha : Args ts ws' rs' r) (hstop : Stops ends r) (hat : At s ps ts) (hn : ts.length < n)
    (hlen : (ws ++ ws').length < MAXARGS) (h : Shows s ret ((Tree.exec ws).redirs rs)) :
    ∃ ret' ps', parseargs s n ret ws.length ps = .ok (ret',(ws ++ ws').length,ps') ∧ At s ps' r ∧
      Shows s ret' ((Tree.exec (ws ++ ws')).redirs (rs ++ rs')) := by
  induction ha generalizing ps n ret ws rs with
  | nil ts =>
    obtain ⟨m,rfl⟩ : ∃ m, n = m + 1 := ⟨n - 1,by omega⟩
    have hat' := (hat.peek ['|'.toUInt8,')'.toUInt8,'&'.toUInt8,';'.toUInt8] (by decide)).1
    simp only [List.append_nil]
    cases ts with
    | nil =>
      have hfound := hat.peek_false ['|'.toUInt8,')'.toUInt8,'&'.toUInt8,';'.toUInt8] (by decide)
        (fun x r' he => by cases he)
      obtain ⟨hz,hat1⟩ := hat'.gettoken_nil
      refine ⟨ret,_,?_,hat1,h⟩
      simp only [parseargs,hfound,hz,Bool.false_eq_true,↓reduceIte]
    | cons tok ts =>
      obtain ⟨x,hx,rfl⟩ := hstop tok ts rfl
      have hfound := hat.peek_true ['|'.toUInt8,')'.toUInt8,'&'.toUInt8,';'.toUInt8] (by decide)
        (ends_char x hx)
      refine ⟨ret,_,?_,hat',h⟩
      simp only [parseargs,hfound,↓reduceIte]
  | @cons w ts r1 r ws' rs1 rs' hr ha ih =>
    obtain ⟨m,rfl⟩ : ∃ m, n = m + 1 := ⟨n - 1,by omega⟩
    simp only [List.length_cons,List.length_append] at hn hlen
    have hfound := hat.peek_false ['|'.toUInt8,')'.toUInt8,'&'.toUInt8,';'.toUInt8] (by decide)
      (misses_word _ w ts)
    have hat' := (hat.peek ['|'.toUInt8,')'.toUInt8,'&'.toUInt8,';'.toUInt8] (by decide)).1
    obtain ⟨hword,hat1,hw⟩ := hat'.gettoken_word
    obtain ⟨ret1,hs1,h1⟩ := store_shows (ws ++ [w]) (by omega)
      (fun argv eargv ha => holds_append ha (by omega) hw) h
    obtain ⟨ret2,ps2,hp2,hat2,h2⟩ := parseredirs_complete hr
      (ha.misses (hstop.misses (by decide))) hat1 (n := m) (by omega) h1
    rw [Tree.redirs,Tree.redirs,← List.foldl_append] at h2
    have hl := hr.length
    obtain ⟨ret3,ps3,hp3,hat3,h3⟩ := ih (ws ++ [w]) (n := m) hstop hat2 (by omega)
      (by simp only [List.length_append,List.length_singleton]; omega) h2
    simp only [List.append_assoc,List.singleton_append,List.length_append,List.length_singleton] at hp3 h3
    refine ⟨ret3,ps3,?_,hat3,h3⟩
    have hz : 'a'.toUInt8 ≠ 0 := by decide
    simp only [parseargs,hfound,hword,hs1,hp2,bind,Except.bind,Bool.false_eq_true,↓reduceIte,hz,ne_eq,
      not_true_eq_false,ge_iff_le]
    rw [if_neg (by omega),hp3]
    simp

def routine (s : CString) : Nonterminal → ℕ → ℕ → Except Stop (Cmd × ℕ)
  | .line => parseline s
  | .pipe => parsepipe s
  | .exec => parseexec s

def Nonterminal.depth : Nonterminal → ℕ
  | line => 4
  | pipe => 3
  | exec => 2

def Nonterminal.follow : Nonterminal → List Symbol
  | line => [.rparen]
  | pipe => [.rparen,.amp,.semi]
  | exec => ends

theorem stops_amps {k : ℕ} (hx : .amp ∈ xs) (h : Stops xs r) :
    Stops xs (List.replicate k (.symbol .amp) ++ r) := by
  cases k with
  | zero => exact h
  | succ k => exact stops_symbol hx _

theorem misses_semi (r : List Token) : Misses ['&'.toUInt8] (.symbol .semi :: r) := by
  intro x r' h
  cases h
  decide

theorem words_misses {r' : List Token} {ws : List (List UInt8)} {rs' : List Redirection}
    (hr : Redirs ts rs r) (ha : Args r ws rs' r') (hstop : Stops ends r') : Misses ['('.toUInt8] ts := by
  cases hr with
  | nil => exact ha.misses (hstop.misses (by decide))
  | cons hx =>
    intro y r'' he
    cases he
    cases hx <;> decide

theorem parse_complete {nt : Nonterminal} (h : Derives nt ts t r) (hstop : Stops nt.follow r)
    (hat : At s ps ts) (hn : 4 * ts.length + nt.depth ≤ n) :
    ∃ cmd ps', routine s nt n ps = .ok (cmd,ps') ∧ At s ps' r ∧ Shows s cmd t := by
  induction h generalizing ps n with
  | @line ts r t k h ih =>
    obtain ⟨m,rfl⟩ : ∃ m, n = m + 1 := ⟨n - 1,by simp only [Nonterminal.depth] at hn; omega⟩
    have hl := h.length
    simp only [Nonterminal.depth,List.length_append,List.length_replicate] at hn hl
    obtain ⟨cmd,ps1,hp,hat1,hs⟩ := ih (n := m) (stops_amps (by decide) (hstop.mono (by decide))) hat
      (by simp only [Nonterminal.depth]; omega)
    obtain ⟨cmd2,ps2,hb,hat2,hs2⟩ := parsebacks_complete (n := m) (hstop.misses (by decide)) hat1 (by omega) hs
    refine ⟨cmd2,_,?_,(hat2.peek [';'.toUInt8] (by decide)).1,hs2⟩
    simp only [routine] at hp ⊢
    simp only [parseline,hp,hb,bind,Except.bind,hat2.peek_false [';'.toUInt8] (by decide) (hstop.misses (by decide))]
    rfl
  | @list ts r r' t u k h hl ih ihl =>
    obtain ⟨m,rfl⟩ : ∃ m, n = m + 1 := ⟨n - 1,by simp only [Nonterminal.depth] at hn; omega⟩
    have hlen := h.length
    simp only [Nonterminal.depth,List.length_append,List.length_replicate,List.length_cons] at hn hlen
    obtain ⟨cmd,ps1,hp,hat1,hs⟩ := ih (n := m) (stops_amps (by decide) (stops_symbol (by decide) r)) hat
      (by simp only [Nonterminal.depth]; omega)
    obtain ⟨cmd2,ps2,hb,hat2,hs2⟩ := parsebacks_complete (n := m)
      (misses_semi r) hat1
      (by simp only [List.length_cons]; omega) hs
    have hat3 := (hat2.peek [';'.toUInt8] (by decide)).1
    obtain ⟨cmd4,ps4,hp4,hat4,hs4⟩ := ihl (n := m) hstop hat3.gettoken_symbol.2
      (by simp only [Nonterminal.depth]; omega)
    refine ⟨_,ps4,?_,hat4,.list hs2 hs4⟩
    simp only [routine] at hp hp4 ⊢
    simp only [parseline,hp,hb,bind,Except.bind,hat2.peek_true [';'.toUInt8] (by decide) (by decide),hp4,
      ↓reduceIte]
  | @exec ts r t h ih =>
    obtain ⟨m,rfl⟩ : ∃ m, n = m + 1 := ⟨n - 1,by simp only [Nonterminal.depth] at hn; omega⟩
    simp only [Nonterminal.depth] at hn
    obtain ⟨cmd,ps1,hp,hat1,hs⟩ := ih (n := m) (hstop.mono (by decide)) hat
      (by simp only [Nonterminal.depth]; omega)
    refine ⟨cmd,_,?_,(hat1.peek ['|'.toUInt8] (by decide)).1,hs⟩
    simp only [routine] at hp ⊢
    simp only [parsepipe,hp,bind,Except.bind,hat1.peek_false ['|'.toUInt8] (by decide) (hstop.misses (by decide))]
    rfl
  | @pipe ts r r' t u h hl ih ihl =>
    obtain ⟨m,rfl⟩ : ∃ m, n = m + 1 := ⟨n - 1,by simp only [Nonterminal.depth] at hn; omega⟩
    have hlen := h.length
    simp only [Nonterminal.depth,List.length_cons] at hn hlen
    obtain ⟨cmd,ps1,hp,hat1,hs⟩ := ih (n := m) (stops_symbol (by decide) r) hat
      (by simp only [Nonterminal.depth]; omega)
    have hat2 := (hat1.peek ['|'.toUInt8] (by decide)).1
    obtain ⟨cmd3,ps3,hp3,hat3,hs3⟩ := ihl (n := m) hstop hat2.gettoken_symbol.2
      (by simp only [Nonterminal.depth]; omega)
    refine ⟨_,ps3,?_,hat3,.pipe hs hs3⟩
    simp only [routine] at hp hp3 ⊢
    simp only [parsepipe,hp,bind,Except.bind,hat1.peek_true ['|'.toUInt8] (by decide) (by decide),hp3,
      ↓reduceIte]
  | @block ts r r' t rs h hr ih =>
    obtain ⟨m,rfl⟩ : ∃ m, n = m + 2 := ⟨n - 2,by simp only [Nonterminal.depth] at hn; omega⟩
    have hlen := h.length
    simp only [Nonterminal.depth,List.length_cons] at hn hlen
    have hat1 := (hat.peek ['('.toUInt8] (by decide)).1
    have hat2 := (hat1.peek ['('.toUInt8] (by decide)).1
    obtain ⟨cmd,ps3,hp,hat3,hs⟩ := ih (n := m) (stops_symbol (by decide) r) hat2.gettoken_symbol.2
      (by simp only [Nonterminal.depth]; omega)
    have hat4 := (hat3.peek [')'.toUInt8] (by decide)).1
    obtain ⟨cmd5,ps5,hp5,hat5,hs5⟩ := parseredirs_complete hr (hstop.misses (by decide))
      hat4.gettoken_symbol.2 (n := m) (by omega) hs
    refine ⟨cmd5,ps5,?_,hat5,hs5⟩
    simp only [routine] at hp ⊢
    simp only [parseexec,parseblock,hat.peek_true ['('.toUInt8] (by decide) (by decide),
      hat1.peek_true ['('.toUInt8] (by decide) (by decide),hp,bind,Except.bind,
      hat3.peek_true [')'.toUInt8] (by decide) (by decide),hp5,↓reduceIte,Bool.true_eq_false]
  | @words ts r r' ws rs rs' hr ha hw =>
    obtain ⟨m,rfl⟩ : ∃ m, n = m + 1 := ⟨n - 1,by simp only [Nonterminal.depth] at hn; omega⟩
    have hlen := hr.length
    have hlt : ws.length < MAXARGS := by
      simp only [MAXARGS] at hw ⊢
      omega
    simp only [Nonterminal.depth] at hn
    have hat1 := (hat.peek ['('.toUInt8] (by decide)).1
    have hempty : Shows s execcmd ((Tree.exec []).redirs []) := .exec (fun i => .inl ⟨rfl,by simp⟩)
    obtain ⟨ret,ps2,hp2,hat2,hs2⟩ := parseredirs_complete hr (ha.misses (hstop.misses (by decide))) hat1
      (n := m) (by omega) hempty
    obtain ⟨ret3,ps3,hp3,hat3,hs3⟩ := parseargs_complete [] ha hstop hat2 (n := m) (by omega) hlt hs2
    obtain ⟨ret4,hr4,hs4⟩ := store_shows ws hlt (fun argv eargv ha => holds_end ha hlt) hs3
    refine ⟨ret4,ps3,?_,hat3,hs4⟩
    simp only [List.length_nil,List.nil_append] at hp3
    simp only [routine,parseexec,hat.peek_false _ (by decide) (words_misses hr ha hstop),hp2,hp3,bind,
      Except.bind,hr4]
    rfl

end UoDOS.Shell
