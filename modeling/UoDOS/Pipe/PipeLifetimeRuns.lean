import UoDOS.Pipe.PipeForks

/-! # A pipe's page is freed once, when both ends are closed -/
namespace UoDOS.PipeLifetime
open FileSystem References Transition
open Processes (initproc)

variable {s s' : System} {p np : Fin NPROC} {fd : Fin NOFILE} {f : Fin NFILE} {n : ℕ} {w choice : Bool}

namespace Inv

theorem run (h : Inv s) (hr : PipeLifetime.run s p choice = some s') : Inv s' := by
  cases hc : s.control p with
  | user => simp [PipeLifetime.run,hc] at hr
  | pipeSecond f0 => exact h.pipeSecond hc hr
  | pipePage f0 f1 => exact h.pipePage hc hr
  | pipeInstall rf wf =>
    simp only [PipeLifetime.run,hc] at hr
    cases hr
    exact h.pipeInstall hc
  | closing todo next => exact h.closing hc hr
  | exiting i => exact h.exiting hc hr
  | transfer fd n => exact h.transfer hc hr
  | opening np => exact h.opening hc hr
  | sharing np c fd => exact h.sharing hc hr
  | copying np => exact h.copying hc hr
  | duplicating np i => exact h.duplicating hc hr

theorem fork (h : Inv s) (hr : s.Ready p) (hu : s.status np = .unused) :
    Inv ((s.setStatus np .embryo).goto p (.opening np)) := by
  have hcounted := h.counted_at p
  have hended := h.ended_at p
  rw [hr.2] at hcounted hended
  have hpn : p ≠ np := by
    rintro rfl
    rw [hr.1] at hu
    cases hu
  have hold : ∀ q m, (s.control q).builds = some m → m ≠ np := by
    rintro q m hq rfl
    rw [h.embryo q m hq] at hu
    cases hu
  have hbuilds : ∀ q m, (Function.update s.control p (.opening np) q).builds = some m →
      q = p ∧ m = np ∨ (s.control q).builds = some m := by
    intro q m hq
    rcases eq_or_ne q p with rfl | hne
    · rw [Function.update_self] at hq
      cases hq
      exact .inl ⟨rfl,rfl⟩
    · rw [Function.update_of_ne hne] at hq
      exact .inr hq
  constructor
  · simp only [System.goto,System.setStatus,owed_update]
    exact hcounted
  · simp only [System.goto,System.setStatus,owed_update]
    exact hended
  · intro q
    simp only [System.goto,System.setStatus]
    rcases eq_or_ne q p with rfl | hne
    · rw [Function.update_self]
      exact h.unused np hu
    · rw [Function.update_of_ne hne]
      exact h.fits q
  · intro q hq
    simp only [System.goto,System.setStatus] at hq ⊢
    have hlive : s.status q = .live := by
      rcases eq_or_ne q p with rfl | hne
      · exact hr.1
      · rw [Function.update_of_ne hne] at hq
        exact h.busy q hq
    have hqn : q ≠ np := by
      rintro rfl
      rw [hlive] at hu
      cases hu
    rw [Function.update_of_ne hqn]
    exact hlive
  · intro q m hq
    simp only [System.goto,System.setStatus]
    rcases hbuilds q m hq with ⟨-,rfl⟩ | hq'
    · simp
    · rw [Function.update_of_ne (hold q m hq')]
      exact h.embryo q m hq'
  · intro q r m hq hr'
    rcases hbuilds q m hq with ⟨rfl,rfl⟩ | hq'
    · rcases hbuilds r m hr' with ⟨rfl,-⟩ | hr''
      · rfl
      · exact absurd rfl (hold r m hr'')
    · rcases hbuilds r m hr' with ⟨rfl,rfl⟩ | hr''
      · exact absurd rfl (hold q m hq')
      · exact h.unique q r m hq' hr''
  · intro q hq
    simp only [System.goto,System.setStatus] at hq
    rcases eq_or_ne q np with rfl | hne
    · simp at hq
    · rw [Function.update_of_ne hne] at hq
      exact h.unused q hq
  · intro q hq
    simp only [System.goto,System.setStatus] at hq
    rcases eq_or_ne q np with rfl | hne
    · simp at hq
    · rw [Function.update_of_ne hne] at hq
      exact h.zombie q hq

theorem reap (h : Inv s) (hz : s.status p = .zombie) : Inv (s.setStatus p .unused) := by
  have hother : ∀ q x, s.status q = x → x ≠ .zombie → (s.setStatus p .unused).status q = x := by
    intro q x hq hx
    have hne : q ≠ p := by
      rintro rfl
      rw [hz] at hq
      exact hx hq.symm
    simp only [System.setStatus,Function.update_of_ne hne,hq]
  refine ⟨h.counted,h.ended,h.fits,?_,?_,h.unique,?_,?_⟩
  · intro q hq
    exact hother q _ (h.busy q hq) (by decide)
  · intro q m hq
    exact hother m _ (h.embryo q m hq) (by decide)
  · intro q hq
    rcases eq_or_ne q p with rfl | hne
    · intro fd f _ hf
      simp only [System.setStatus,h.zombie q hz fd] at hf
      cases hf
    · simp only [System.setStatus,Function.update_of_ne hne] at hq
      exact h.unused q hq
  · intro q hq
    rcases eq_or_ne q p with rfl | hne
    · simp [System.setStatus] at hq
    · simp only [System.setStatus,Function.update_of_ne hne] at hq
      exact h.zombie q hq

theorem dup {files : FileTable} {fd' : Fin NOFILE} (h : Inv s) (hr : s.Ready p)
    (hf : s.OpenFile p fd = some f) (ha : fdalloc (s.OpenFile p) = some fd')
    (hd : fileDup s.files f = .ok files) : Inv ({ s with files := files }.setOpenFile p fd' (some f)) := by
  refine h.stay hr ?_ (fun g _ _ => fileDup_same hd g) ?_
    ((h.ended.cons_close (fileDup_same hd) f).of_cons_close)
  · intro q hq
    rw [Function.update_of_ne hq]
  · rw [slots_update]
    have htype := h.counted.named (p,fd) f hf
    rw [← (fileDup_same hd f).1] at htype
    refine (h.counted.dup (k := (p,fd)) hf hd).give htype ?_
    intro g hg
    simp [slots,fdalloc_some ha] at hg

theorem start (h : Inv s) (hr : s.Ready p) (hf : s.OpenFile p fd = some f)
    (ht : (s.files f).type = .FD_PIPE) : Inv (s.goto p (.transfer fd (s.files f).Pipe)) :=
  h.move hr.1 (by rw [hr.2]; rfl) (by rw [hr.2]; rfl) ⟨f,hf,ht,rfl⟩

theorem step {m : Move} (h : Inv s) (he : PipeLifetime.step s m = some s') : Inv s' := by
  cases m with
  | pipe p =>
    simp only [PipeLifetime.step] at he
    split_ifs at he with hr
    split at he
    · cases he
      exact h
    · rename_i f0 files ha
      cases he
      exact h.allocated hr.1 (by rw [hr.2]; rfl) ha rfl (by rw [hr.2]; rfl) (h.allocated_type ha)
  | dup p fd =>
    simp only [PipeLifetime.step] at he
    split_ifs at he with hr
    split at he
    · rename_i f fd' hf ha
      split at he
      · rename_i files hd
        cases he
        exact h.dup hr hf ha hd
      · cases he
    · cases he
      exact h
  | close p fd =>
    simp only [PipeLifetime.step] at he
    split_ifs at he with hr
    split at he
    · rename_i f hf
      refine h.close_descriptor hr.1 (by rw [hr.2]; rfl) (by rw [hr.2]; rfl) hf ?_ he
      intro j hj
      simp at hj
    · cases he
      exact h
  | read p fd =>
    simp only [PipeLifetime.step] at he
    split_ifs at he with hr
    split at he
    · rename_i f hf
      split_ifs at he with ht
      · cases he
        exact h.start hr hf ht.2
      · cases he
        exact h
    · cases he
      exact h
  | write p fd =>
    simp only [PipeLifetime.step] at he
    split_ifs at he with hr
    split at he
    · rename_i f hf
      split_ifs at he with ht
      · cases he
        exact h.start hr hf ht.2
      · cases he
        exact h
    · cases he
      exact h
  | fork p np =>
    simp only [PipeLifetime.step] at he
    split_ifs at he with hr
    cases he
    exact h.fork hr.1 hr.2
  | exit p =>
    simp only [PipeLifetime.step] at he
    split_ifs at he with hr
    cases he
    refine h.move hr.1.1 (by rw [hr.1.2]; rfl) (by rw [hr.1.2]; rfl) ?_
    intro fd hfd
    simp at hfd
  | reap p =>
    simp only [PipeLifetime.step] at he
    split_ifs at he with hz
    cases he
    exact h.reap hz
  | run p choice => exact h.run he

theorem of_initial (h : Initial s) : Inv s := by
  have howed : owed s.control = 0 := by
    simp [owed,h.control,Control.due]
  refine ⟨?_,?_,?_,?_,?_,?_,?_,?_⟩
  · rw [howed]
    refine ⟨⟨0,?_,by simp⟩,fun f hf => (h.free f).mpr hf,?_,?_⟩
    · intro f
      simp only [counts,closes,h.counts f,Multiset.filterMap_zero,add_zero,Multiset.count_zero]
    · intro f hf
      have hz := (h.free f).mp hf
      rw [counts,hz]
      omega
    · intro k f hk hf
      have hz := (h.free f).mp hf
      have hb : Balanced (counts s.files) (slots s.OpenFile) 0 := by
        intro g
        simp [counts,h.counts g]
      have hpos := hb.named hk
      rw [counts,hz] at hpos
      omega
  · rw [howed]
    constructor
    · intro n w
      rw [if_neg (by simp [h.made])]
      simp [openEnds,isEnd,h.noPipe]
    · intro n
      rw [if_neg (by simp [h.made])]
      simp [h.freed]
  · intro p
    rw [h.control]
    trivial
  · intro p hp
    exact absurd (h.control p) hp
  · intro p np hp
    rw [h.control] at hp
    cases hp
  · intro p q np hp
    rw [h.control] at hp
    cases hp
  · intro p hp fd f _ hf
    rw [h.closed p fd (by simp [hp])] at hf
    cases hf
  · intro p hp fd
    exact h.closed p fd (by simp [hp])

theorem open_of_pos (h : Inv s) (hpos : 0 < openEnds s.files n w + (owed s.control).count (.pipeclose n w)) :
    isOpen (s.pipes n) w = true ∧ s.freed n = 0 ∧ .free n ∉ owed s.control := by
  have hw := h.ended.ends n w
  have hn := h.ended.frees n
  split_ifs at hw with hopen
  · rw [if_neg (by cases w <;> simp [hopen.2])] at hn
    exact ⟨hopen.2,by omega,Multiset.count_eq_zero.mp (by omega)⟩
  · omega

theorem freed_of_file (h : Inv s) (hf : IsPipe (s.files f) n) : s.freed n = 0 ∧ .free n ∉ owed s.control := by
  have hend : isEnd (s.files f) n (s.files f).Writable = 1 := if_pos ⟨hf.1,hf.2,rfl⟩
  have hone := one_le_openEnds f n _ hend
  exact (h.open_of_pos (w := (s.files f).Writable) (by omega)).2

theorem freed_of_pipeclose (h : Inv s) (hd : .pipeclose n w ∈ owed s.control) : s.freed n = 0 :=
  (h.open_of_pos (w := w) (Nat.add_pos_right _ (Multiset.count_pos.mpr hd))).2.1

theorem freed_of_free (h : Inv s) (hd : .free n ∈ owed s.control) : s.freed n = 0 := by
  have hn := h.ended.frees n
  have hpos := Multiset.count_pos.mpr hd
  split_ifs at hn
  · omega
  · omega

theorem freed_le_one (h : Inv s) (n : ℕ) : s.freed n ≤ 1 := by
  have hn := h.ended.frees n
  split_ifs at hn
  · omega
  · omega

theorem inCall_iff (h : Inv s) (p : Fin NPROC) (n : ℕ) : InCall s p n ↔
    (∃ f, .close f ∈ (s.control p).due ∧ IsPipe (s.files f) n) ∨ (∃ w, .pipeclose n w ∈ (s.control p).due) ∨
      .free n ∈ (s.control p).due := by
  have hfit := h.fits p
  unfold InCall
  cases hc : s.control p with
  | pipeSecond f0 =>
    rw [hc] at hfit
    have hn : (s.files f0).type = .FD_NONE := hfit
    simp [Control.due,IsPipe,hn]
  | pipePage f0 f1 =>
    rw [hc] at hfit
    obtain ⟨-,h0,h1⟩ := hfit
    simp [Control.due,IsPipe,h0,h1]
  | pipeInstall rf wf => simp [Control.due]
  | closing todo next => simp [Control.due]
  | _ => simp [Control.due]

theorem owner (h : Inv s) (hn : n < s.made) (hf : s.freed n = 0) :
    (∃ p fd, Names s p fd n) ∨ ∃ p, InCall s p n := by
  by_cases hopen : ∃ w, isOpen (s.pipes n) w = true
  · obtain ⟨w,hw⟩ := hopen
    have he := h.ended.ends n w
    rw [if_pos ⟨hn,hw⟩] at he
    by_cases hpc : .pipeclose n w ∈ owed s.control
    · obtain ⟨p,hp⟩ := mem_owed.mp hpc
      exact .inr ⟨p,(h.inCall_iff p n).mpr (.inr (.inl ⟨w,hp⟩))⟩
    · rw [Multiset.count_eq_zero.mpr hpc,add_zero] at he
      obtain ⟨f,-,hend⟩ := Finset.exists_ne_zero_of_sum_ne_zero (by rw [← openEnds,he]; decide)
      have hpipe : IsPipe (s.files f) n := by
        unfold isEnd at hend
        split_ifs at hend with hx
        · exact ⟨hx.1,hx.2.1⟩
        · exact absurd rfl hend
      have hpos : 0 < counts s.files f := by
        by_contra hz
        have hnone := h.counted.unused f (by omega)
        rw [hpipe.1] at hnone
        cases hnone
      rcases h.counted.referenced hpos (by simp [hpipe.1]) with ⟨k,hk⟩ | hd
      · exact .inl ⟨k.1,k.2,f,hk,hpipe⟩
      · obtain ⟨p,hp⟩ := mem_owed.mp hd
        exact .inr ⟨p,(h.inCall_iff p n).mpr (.inl ⟨f,hp,hpipe⟩)⟩
  · simp only [not_exists,Bool.not_eq_true] at hopen
    have he := h.ended.frees n
    rw [if_pos ⟨hn,hopen false,hopen true⟩] at he
    obtain ⟨p,hp⟩ := mem_owed.mp (Multiset.count_pos.mp (by omega : 0 < (owed s.control).count (.free n)))
    exact .inr ⟨p,(h.inCall_iff p n).mpr (.inr (.inr hp))⟩

theorem freed_of_call (h : Inv s) (hp : InCall s p n) : s.freed n = 0 := by
  rcases (h.inCall_iff p n).mp hp with ⟨f,-,hpipe⟩ | ⟨w,hw⟩ | hfree
  · exact (h.freed_of_file hpipe).1
  · exact h.freed_of_pipeclose (mem_owed.mpr ⟨p,hw⟩)
  · exact h.freed_of_free (mem_owed.mpr ⟨p,hfree⟩)

theorem freed_of_touches (h : Inv s) (hp : (s.control p).Touches n) : s.freed n = 0 := by
  have hfit := h.fits p
  unfold Control.Touches at hp
  split at hp
  · rename_i fd m hc
    subst hp
    rw [hc] at hfit
    obtain ⟨f,-,hpipe⟩ := hfit
    exact (h.freed_of_file hpipe).1
  · rename_i m w todo next hc
    subst hp
    exact h.freed_of_pipeclose (w := w) (mem_owed.mpr ⟨p,by simp [hc,Control.due]⟩)
  · exact hp.elim

theorem not_named_of_frees (h : Inv s) (hp : (s.control p).Frees n) (q : Fin NPROC) (fd : Fin NOFILE) :
    ¬Names s q fd n := by
  rintro ⟨f,-,hpipe⟩
  apply (h.freed_of_file hpipe).2
  unfold Control.Frees at hp
  split at hp
  · rename_i m todo next hc
    subst hp
    exact mem_owed.mpr ⟨p,by simp [hc,Control.due]⟩
  · exact hp.elim

theorem closing_goes_on {todo : List Cleanup} {next : Option ℕ} (h : Inv s)
    (hc : s.control p = .closing todo next) : (PipeLifetime.run s p choice).isSome = true := by
  cases todo with
  | nil => cases next <;> simp only [PipeLifetime.run,hc,Option.isSome_some]
  | cons x todo =>
    cases x with
    | close f =>
      have hpos : 0 < counts s.files f :=
        h.counted.pos_of_close (mem_owed.mpr ⟨p,by simp [hc,Control.due]⟩)
      obtain ⟨⟨files,ff⟩,hr⟩ := fileClose_ok hpos
      simp only [PipeLifetime.run,hc,PipeLifetime.closeFile,hr,Option.isSome_some]
    | pipeclose n w => simp only [PipeLifetime.run,hc,Option.isSome_some]
    | free n => simp only [PipeLifetime.run,hc,Option.isSome_some]

end Inv

/-- In every run, the page of a pipe is freed at most once, and it is freed exactly if
no descriptor names an end of it and no call still has an end to close or the page to
free. No step of piperead, pipewrite or pipeclose works on a pipe that is freed, the
step that frees it finds all descriptors closed, and calls that close are never stuck. -/
theorem pipe_page_freed_once {s₀ : System} {moves : List Move} (hi : Initial s₀)
    (hr : Runs (graph step) s₀ moves s) (hn : n < s.made) :
    s.freed n ≤ 1 ∧
    (s.freed n = 1 ↔ (∀ p fd, ¬Names s p fd n) ∧ ∀ p, ¬InCall s p n) ∧
    (∀ p, (s.control p).Touches n → s.freed n = 0) ∧
    (∀ p, (s.control p).Frees n → s.freed n = 0 ∧ ∀ q fd, ¬Names s q fd n) ∧
    ∀ p todo next choice, s.control p = .closing todo next → (step s (.run p choice)).isSome := by
  have h : Inv s := hr.invariant (I := Inv) (.of_initial hi) (fun _ _ _ ha he => ha.step he)
  refine ⟨h.freed_le_one n,⟨?_,?_⟩,fun p hp => h.freed_of_touches hp,?_,?_⟩
  · intro hone
    constructor
    · rintro p fd ⟨f,-,hpipe⟩
      have hz := (h.freed_of_file hpipe).1
      omega
    · intro p hp
      have hz := h.freed_of_call hp
      omega
  · rintro ⟨hnames,hcalls⟩
    have hle := h.freed_le_one n
    by_contra hne
    rcases h.owner hn (by omega) with ⟨p,fd,hname⟩ | ⟨p,hp⟩
    · exact hnames p fd hname
    · exact hcalls p hp
  · intro p hp
    refine ⟨?_,h.not_named_of_frees hp⟩
    unfold Control.Frees at hp
    split at hp
    · rename_i m todo next hc
      subst hp
      exact h.freed_of_free (mem_owed.mpr ⟨p,by simp [hc,Control.due]⟩)
    · exact hp.elim
  · intro p todo next choice hc
    exact h.closing_goes_on hc

def idle : System where
  files := fun _ => ⟨.FD_NONE,0,false,false,0,⟨fun _ => 0⟩,false,0,0,0⟩
  OpenFile := fun _ _ => none
  status := fun p => if p = initproc then .live else .unused
  control := fun _ => .user
  pipes := fun _ => ⟨false,false⟩
  made := 0
  freed := fun _ => 0

theorem idle_initial : Initial idle where
  control := fun _ => rfl
  status := fun p => by
    simp only [idle]
    split_ifs <;> decide
  closed := fun _ _ _ => rfl
  counts := fun f => (holders_eq_zero (fun _ => by simp [slots,idle])).symm
  free := fun _ => ⟨fun _ => rfl,fun _ => rfl⟩
  noPipe := fun _ => by simp [idle]
  made := rfl
  freed := fun _ => rfl

theorem child_lt : 1 < NPROC := by decide

def child : Fin NPROC := ⟨1,child_lt⟩

/-- A pipe that is shared with a child, which reads from it and is the last to close
both of its ends, by exit. -/
def sharedPipe : List Move :=
  [.pipe initproc] ++ List.replicate 3 (.run initproc true) ++ [.fork initproc child] ++
    List.replicate 21 (.run initproc true) ++
    [.read child stdin,.close initproc stdin,.run initproc true,.run child false,.close initproc stdout,
      .run initproc true,.exit child] ++ List.replicate 23 (.run child true)

theorem sharedPipe_runs : (execute step idle sharedPipe).isSome = true := by decide +kernel

def sharedPipeEnd : System := (execute step idle sharedPipe).get sharedPipe_runs

theorem pipe_page_freed_once_shared : sharedPipeEnd.freed 0 = 1 ∧ sharedPipeEnd.status child = .zombie ∧
    (∀ p fd, ¬Names sharedPipeEnd p fd 0) ∧ ∀ p, ¬InCall sharedPipeEnd p 0 :=
  ⟨by decide +kernel,by decide +kernel,(pipe_page_freed_once idle_initial
    (Runs.of_execute (Option.some_get sharedPipe_runs).symm) (by decide +kernel)).2.1.mp (by decide +kernel)⟩

end UoDOS.PipeLifetime
