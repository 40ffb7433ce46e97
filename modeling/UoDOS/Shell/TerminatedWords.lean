import UoDOS.Shell.CommandLines

/-! # The words of a parsed line

Every pointer of a command points at a word of the line. When nulterminate is done the word
reads as it stood in the line, whatever was ended around it.
-/
namespace UoDOS.Shell
open ByteMemory Strings Results

variable {s : CString} {n ps : ℕ}
  {q : ℕ} {r : Cmd × ℕ} {cmd : Cmd}

section Depth

theorem parseredirs_succ (h : parseredirs s n cmd ps = .ok r) :
    parseredirs s (n + 1) cmd ps = .ok r := by
  induction n generalizing cmd ps with
  | zero => cases h
  | succ n ih =>
    rw [parseredirs] at h ⊢
    dsimp only at h ⊢
    split at h
    · rename_i hf
      rw [if_pos hf]
      split at h
      · cases h
      · rename_i hr
        rw [if_neg hr]
        exact ih h
    · rename_i hf
      rw [if_neg hf]
      exact h

theorem parseargs_succ {ret : Cmd} {argc : ℕ} {r : Cmd × ℕ × ℕ} (h : parseargs s n ret argc ps = .ok r) :
    parseargs s (n + 1) ret argc ps = .ok r := by
  induction n generalizing ret argc ps with
  | zero => cases h
  | succ n ih =>
    rw [parseargs] at h ⊢
    dsimp only at h ⊢
    split at h
    · rename_i hf
      rw [if_pos hf]
      exact h
    rename_i hf
    rw [if_neg hf]
    split at h
    · rename_i h0
      rw [if_pos h0]
      exact h
    rename_i h0
    rw [if_neg h0]
    split at h
    · cases h
    rename_i ha
    rw [if_neg ha]
    obtain ⟨ret',hs,h⟩ := bind_eq_ok.mp h
    refine bind_eq_ok.mpr ⟨ret',hs,?_⟩
    split at h
    · cases h
    rename_i hm
    rw [if_neg hm]
    obtain ⟨x,hx,h⟩ := bind_eq_ok.mp h
    exact bind_eq_ok.mpr ⟨x,parseredirs_succ hx,ih h⟩

theorem parsebacks_succ (h : parsebacks s n cmd ps = .ok r) :
    parsebacks s (n + 1) cmd ps = .ok r := by
  induction n generalizing cmd ps with
  | zero => cases h
  | succ n ih =>
    rw [parsebacks] at h ⊢
    dsimp only at h ⊢
    split at h
    · rename_i hf
      rw [if_pos hf]
      exact ih h
    · rename_i hf
      rw [if_neg hf]
      exact h

theorem parse_succ (s : CString) (n : ℕ) :
    (∀ ps r, parseline s n ps = .ok r → parseline s (n + 1) ps = .ok r) ∧
    (∀ ps r, parsepipe s n ps = .ok r → parsepipe s (n + 1) ps = .ok r) ∧
    (∀ ps r, parseblock s n ps = .ok r → parseblock s (n + 1) ps = .ok r) ∧
    (∀ ps r, parseexec s n ps = .ok r → parseexec s (n + 1) ps = .ok r) := by
  induction n with
  | zero =>
    refine ⟨?_,?_,?_,?_⟩
    · intro ps r h
      rw [parseline] at h
      cases h
    · intro ps r h
      rw [parsepipe] at h
      cases h
    · intro ps r h
      rw [parseblock] at h
      cases h
    · intro ps r h
      rw [parseexec] at h
      cases h
  | succ n ih =>
    obtain ⟨ihline,ihpipe,ihblock,ihexec⟩ := ih
    refine ⟨?_,?_,?_,?_⟩
    · intro ps r h
      rw [parseline] at h ⊢
      obtain ⟨x,hx,h⟩ := bind_eq_ok.mp h
      obtain ⟨y,hy,h⟩ := bind_eq_ok.mp h
      refine bind_eq_ok.mpr ⟨x,ihpipe _ _ hx,bind_eq_ok.mpr ⟨y,parsebacks_succ hy,?_⟩⟩
      dsimp only at h ⊢
      split at h
      · rename_i hf
        rw [if_pos hf]
        obtain ⟨z,hz,h⟩ := bind_eq_ok.mp h
        exact bind_eq_ok.mpr ⟨z,ihline _ _ hz,h⟩
      · rename_i hf
        rw [if_neg hf]
        exact h
    · intro ps r h
      rw [parsepipe] at h ⊢
      obtain ⟨x,hx,h⟩ := bind_eq_ok.mp h
      refine bind_eq_ok.mpr ⟨x,ihexec _ _ hx,?_⟩
      dsimp only at h ⊢
      split at h
      · rename_i hf
        rw [if_pos hf]
        obtain ⟨z,hz,h⟩ := bind_eq_ok.mp h
        exact bind_eq_ok.mpr ⟨z,ihpipe _ _ hz,h⟩
      · rename_i hf
        rw [if_neg hf]
        exact h
    · intro ps r h
      rw [parseblock] at h ⊢
      dsimp only at h ⊢
      split at h
      · cases h
      rename_i hf
      rw [if_neg hf]
      obtain ⟨x,hx,h⟩ := bind_eq_ok.mp h
      refine bind_eq_ok.mpr ⟨x,ihline _ _ hx,?_⟩
      split at h
      · cases h
      rename_i hg
      rw [if_neg hg]
      exact parseredirs_succ h
    · intro ps r h
      rw [parseexec] at h ⊢
      dsimp only at h ⊢
      split at h
      · rename_i hf
        rw [if_pos hf]
        exact ihblock _ _ h
      rename_i hf
      rw [if_neg hf]
      obtain ⟨x,hx,h⟩ := bind_eq_ok.mp h
      obtain ⟨y,hy,h⟩ := bind_eq_ok.mp h
      exact bind_eq_ok.mpr ⟨x,parseredirs_succ hx,bind_eq_ok.mpr ⟨y,parseargs_succ hy,h⟩⟩

theorem parseline_mono {m : ℕ} (h : parseline s n ps = .ok r) (hm : n ≤ m) :
    parseline s m ps = .ok r := by
  induction hm with
  | refl => exact h
  | step _ ih => exact (parse_succ s _).1 _ _ ih

theorem parseexec_mono {m : ℕ} (h : parseexec s n ps = .ok r) (hm : n ≤ m) :
    parseexec s m ps = .ok r := by
  induction hm with
  | refl => exact h
  | step _ ih => exact (parse_succ s _).2.2.2 _ _ ih

end Depth

/-- The pointers of a command: `argv[i]` of its EXEC nodes and `file` of its REDIR nodes. -/
inductive Cmd.Points : Cmd → ℕ → Prop
  | arg {argv eargv : Fin MAXARGS → Option ℕ} {i : Fin MAXARGS} {q : ℕ} : argv i = some q →
      (Cmd.EXEC argv eargv).Points q
  | file {cmd : Cmd} {q efile mode fd : ℕ} : (Cmd.REDIR cmd q efile mode fd).Points q
  | redir {cmd : Cmd} {q file efile mode fd : ℕ} : cmd.Points q → (Cmd.REDIR cmd file efile mode fd).Points q
  | pipeLeft {left right : Cmd} {q : ℕ} : left.Points q → (Cmd.PIPE left right).Points q
  | pipeRight {left right : Cmd} {q : ℕ} : right.Points q → (Cmd.PIPE left right).Points q
  | listLeft {left right : Cmd} {q : ℕ} : left.Points q → (Cmd.LIST left right).Points q
  | listRight {left right : Cmd} {q : ℕ} : right.Points q → (Cmd.LIST left right).Points q
  | back {cmd : Cmd} {q : ℕ} : cmd.Points q → (Cmd.BACK cmd).Points q

structure StringAt (line : Bytes) (q : ℕ) (w : List UInt8) : Prop where
  text : ∀ i < w.length, line (q + i) = w.getD i 0
  nonzero : ∀ i < w.length, line (q + i) ≠ 0
  terminated : line (q + w.length) = 0

def Scanned.text (s : CString) (tok : Scanned) : List UInt8 :=
  (List.range (tok.eq - tok.q)).map (fun i => s.bytes (tok.q + i))

theorem WordAt.gettoken {eq : ℕ} {w : List UInt8} (h : WordAt s q eq w) :
    (gettoken s q).ret = 'a'.toUInt8 ∧ (gettoken s q).q = q ∧ (gettoken s q).text s = w := by
  have hlen := h.length
  have hin := h.inside
  have hpos := List.length_pos_iff.mpr h.nonempty
  have hchars : ∀ i < w.length, wordChar (s.bytes (q + i)) := by
    intro i hi
    rw [h.text i hi,List.getD_eq_getElem _ _ hi]
    exact h.chars _ (List.getElem_mem hi)
  have hc : wordChar (s.bytes q) := hchars 0 hpos
  have hblank : Shell.skip s (strchr whitespace) q = q := by
    refine skip_eq (k := 0) (by omega) (fun i hi => absurd hi (Nat.not_lt_zero i)) (fun _ => ?_)
    rw [wordChar,Bool.and_eq_true,Bool.not_eq_true'] at hc
    exact hc.1
  have hend : Shell.skip s wordChar q = eq := by
    rw [hlen]
    exact skip_eq (by omega) hchars (fun hlt => hlen ▸ h.ends (by omega))
  have h0 : s.bytes q ≠ 0 := s.nonzero q (by omega)
  obtain ⟨hgt,hsym⟩ := wordChar_ne hc h0
  simp only [Shell.gettoken,hblank,if_neg h0,if_neg hsym,if_neg hgt,hend,Scanned.text]
  refine ⟨trivial,trivial,?_⟩
  apply List.ext_getElem
  · simp [hlen]
  · intro i hi hi'
    simp only [List.getElem_map,List.getElem_range]
    rw [h.text i hi',List.getD_eq_getElem _ _ hi']

variable {line : Bytes}

theorem WordAt.stringAt {eq : ℕ} {w : List UInt8} (h : WordAt s q eq w) (hm : Marked s line) (hz : line eq = 0) :
    StringAt line q w where
  text i hi := (hm.word h i hi).1
  nonzero i hi := (hm.word h i hi).2
  terminated := h.length ▸ hz

theorem Cmd.Points.reads {t : Tree} (hq : cmd.Points q) (h : Shows s cmd t)
    (hz : cmd.Ended line) (hm : Marked s line) :
    ∃ ps, (gettoken s ps).ret = 'a'.toUInt8 ∧ (gettoken s ps).q = q ∧ StringAt line q ((gettoken s ps).text s) := by
  have hword : ∀ {eq w}, WordAt s q eq w → line eq = 0 → ∃ ps, (Shell.gettoken s ps).ret = 'a'.toUInt8 ∧
      (Shell.gettoken s ps).q = q ∧ StringAt line q ((Shell.gettoken s ps).text s) := by
    intro eq w hw hzero
    obtain ⟨hret,hstart,htext⟩ := hw.gettoken
    exact ⟨q,hret,hstart,htext ▸ hw.stringAt hm hzero⟩
  induction hq generalizing t with
  | arg hi =>
    cases h with
    | exec hh =>
      obtain ⟨e,he,hzero⟩ := hz _ _ hi
      rcases hh _ with ⟨hn,-⟩ | ⟨q',eq,w,hq',heq,-,hw⟩
      · rw [hi] at hn
        cases hn
      · rw [hi] at hq'
        rw [he] at heq
        cases hq'
        cases heq
        exact hword hw hzero
  | file =>
    cases h with
    | redir h hw => exact hword hw hz.2
  | redir hq ih =>
    cases h with
    | redir h hw => exact ih h hz.1 hword
  | pipeLeft hq ih =>
    cases h with
    | pipe h h' => exact ih h hz.1 hword
  | pipeRight hq ih =>
    cases h with
    | pipe h h' => exact ih h' hz.2 hword
  | listLeft hq ih =>
    cases h with
    | list h h' => exact ih h hz.1 hword
  | listRight hq ih =>
    cases h with
    | list h h' => exact ih h' hz.2 hword
  | back hq ih =>
    cases h with
    | back h => exact ih h hz hword

theorem parseline_shows (h : parseline s n 0 = .ok (cmd,ps)) : ∃ t, Shows s cmd t ∧ t.Short := by
  obtain ⟨ts,hts⟩ := exists_lexed (rest s 0)
  have hat : At s 0 ts := ⟨Nat.zero_le _,hts⟩
  rcases (parse_outcome s _).1 0 ts hat (Nat.le_add_right _ n) with ⟨m,hp⟩ | ⟨⟨cmd',ps'⟩,hp,t,r,hd,-,hs⟩
  · rw [parseline_mono h (by omega)] at hp
    cases hp
  · rw [parseline_mono h (by omega)] at hp
    cases hp
    exact ⟨t,hs,hd.short⟩

/-- When a line is accepted, all its words are ended and read as the tokens they were parsed from. -/
theorem words_read_as_parsed {cmd : Cmd} {depth : ℕ} (h : parseline s depth 0 = .ok (cmd,ps))
    (hend : (peek s ps []).2 = s.length) : ∃ line, parsecmd s depth = .ok (cmd,line) ∧
      ∀ q, cmd.Points q → ∃ k, (gettoken s k).ret = 'a'.toUInt8 ∧ (gettoken s k).q = q ∧
        StringAt line q ((gettoken s k).text s) := by
  obtain ⟨t,hs,ht⟩ := parseline_shows h
  obtain ⟨line,hn,hm,-,hz⟩ := nulterminate_ends hs ht (fun i => .inl rfl : Marked s s.bytes)
  refine ⟨line,?_,fun q hq => hq.reads hs hz hm⟩
  simp [parsecmd,h,hend,hn,bind,Except.bind]

def touching : CString := .ofText [97,62,98] (fun _ => 0) (by simp)

theorem touching_parsed : ∃ cmd, parseline touching 16 0 = .ok (cmd,3) := by
  refine ⟨?_,?_⟩
  rotate_left
  · simp only [parseline,parsepipe,parseexec]
    rfl

theorem words_read_as_parsed_touching : ∃ cmd line, parsecmd touching 16 = .ok (cmd,line) ∧
    ∀ q, cmd.Points q → ∃ k, (gettoken touching k).ret = 'a'.toUInt8 ∧ (gettoken touching k).q = q ∧
      StringAt line q ((gettoken touching k).text touching) := by
  obtain ⟨cmd,h⟩ := touching_parsed
  exact ⟨cmd,words_read_as_parsed h (by decide)⟩

end UoDOS.Shell
