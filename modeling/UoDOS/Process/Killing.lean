import UoDOS.Process.Family

/-! # The killed flag of a slot

kill looks at all slots, those without a process included, and only wait clears the flag.
-/
namespace UoDOS.Processes
open ProcState Transition

variable {s s' : Config} {p np i : Fin NPROC} {t : ProcessTable} {m : Move} {e : Option Event}

theorem wakeup1_killed (c : Option Channel) (t : ProcessTable) (q : Fin NPROC) :
    (wakeup1 c t q).IsKilled = (t q).IsKilled := by
  unfold wakeup1
  split_ifs <;> rfl

theorem setParent_killed (t : ProcessTable) (p : Fin NPROC) (parent : Option (Fin NPROC)) (q : Fin NPROC) :
    (setParent t p parent q).IsKilled = (t q).IsKilled := by
  rcases eq_or_ne q p with rfl | hq
  · simp [setParent]
  · simp [setParent,hq]

theorem foldl_passToInit_killed (l : List (Fin NPROC)) (t : ProcessTable) (p q : Fin NPROC) :
    (l.foldl (passToInit p) t q).IsKilled = (t q).IsKilled := by
  induction l generalizing t with
  | nil => rfl
  | cons j l ih =>
    rw [List.foldl_cons,ih]
    unfold passToInit
    split_ifs
    · rw [wakeup1_killed,setParent_killed]
    · exact setParent_killed ..
    · rfl

theorem exitSlot_killed (p : Fin NPROC) (t : ProcessTable) (q : Fin NPROC) :
    (exitSlot p t q).IsKilled = (t q).IsKilled := by
  have hq := foldl_passToInit_killed (List.finRange NPROC) (wakeup1 ((t p).Parent.map .process) t) p q
  rw [wakeup1_killed] at hq
  rcases eq_or_ne q p with rfl | hqp
  · simpa [exitSlot] using hq
  · simpa [exitSlot,hqp] using hq

def Marks (s : Config) (m : Move) (i : Fin NPROC) : Prop :=
  (∃ q, m = .kill q (s.table i).ProcessId) ∨ (m = .fault i ∧ (s.table i).State = RUNNING)

/-- What a move can do to the flag of slot `i`, how the slot can become free, and that a
slot that is being filled keeps its pid. -/
structure SlotMove (s : Config) (m : Move) (s' : Config) (i : Fin NPROC) : Prop where
  killed : (s'.table i).IsKilled = true → (s.table i).IsKilled = true ∨ Marks s m i
  unused : (s'.table i).State = UNUSED → (s.table i).State = UNUSED ∨
    (∃ p, m = .abandon p ∧ s.control p = .allocated i) ∨ (s'.table i).IsKilled = false
  pid : (s.table i).State = EMBRYO → (s'.table i).ProcessId = (s.table i).ProcessId

theorem SlotMove.quiet (hk : (s'.table i).IsKilled = (s.table i).IsKilled)
    (hp : (s'.table i).ProcessId = (s.table i).ProcessId)
    (hu : (s'.table i).State = UNUSED → (s.table i).State = UNUSED) : SlotMove s m s' i :=
  ⟨fun h => .inl (hk ▸ h),fun h => .inl (hu h),fun _ => hp⟩

theorem SlotMove.update {x : Slot} (ht : s'.table = Function.update s.table p x)
    (hk : x.IsKilled = (s.table p).IsKilled) (hp : x.ProcessId = (s.table p).ProcessId)
    (hu : x.State ≠ UNUSED) : SlotMove s m s' i := by
  rcases eq_or_ne i p with rfl | hi
  · apply SlotMove.quiet <;> simp [ht,hk,hp,hu]
  · apply SlotMove.quiet <;> simp [ht,hi]

theorem SlotMove.wait (ht : (t i).IsKilled = (s.table i).IsKilled)
    (hpid : (t i).ProcessId = (s.table i).ProcessId)
    (hu : (t i).State = UNUSED → (s.table i).State = UNUSED)
    (he : (s.table i).State = EMBRYO → (t i).State = EMBRYO) :
    SlotMove s m (waitRound s t p).1 i := by
  unfold waitRound
  rcases waitSlot_cases p t with ⟨j,-,hz,hw⟩ | hw | ⟨-,hw⟩
  · rw [hw]
    rcases eq_or_ne i j with rfl | hij
    · refine ⟨by simp [Config.next],fun _ => .inr (.inr (by simp [Config.next])),fun h => ?_⟩
      rw [he h] at hz
      cases hz
    · apply SlotMove.quiet <;> simpa [Config.next,hij]
  · rw [hw]
    exact .quiet ht hpid hu
  · rw [hw]
    rcases eq_or_ne i p with rfl | hip
    · apply SlotMove.quiet <;> simp [Config.next,ht,hpid]
    · apply SlotMove.quiet <;> simpa [Config.next,hip]

theorem slotMove_of_effect (h : Family s) (he : Effect s m e s') (i : Fin NPROC) : SlotMove s m s' i := by
  cases he with
  | @forked p np t hr ha =>
    obtain ⟨hu,rfl⟩ := allocateSlot_eq ha
    rcases eq_or_ne i np with rfl | hi
    · refine ⟨fun hk => .inl (by simpa using hk),fun hx => by simp at hx,fun hx => ?_⟩
      rw [hu] at hx
      cases hx
    · apply SlotMove.quiet <;> simp [hi]
  | full => exact .quiet rfl rfl id
  | @abandoned p np hc =>
    rcases eq_or_ne i np with rfl | hi
    · exact ⟨fun hk => .inl (by simpa [Config.next,setState] using hk),fun _ => .inr (.inl ⟨p,rfl,hc⟩),
        fun _ => by simp [Config.next,setState]⟩
    · apply SlotMove.quiet <;> simp [Config.next,setState,hi]
  | @adopted p np hc hr =>
    refine SlotMove.update (p := np) (x := { s.table np with Parent := some p }) rfl rfl rfl ?_
    simp [(h.forking p np (.inl hc)).2]
  | @published p np hc =>
    exact SlotMove.update (p := np) (x := { s.table np with State := RUNNABLE }) rfl rfl rfl (by simp)
  | @exits p hr hp =>
    have hx := exited_exitSlot s.table p
    refine .quiet (exitSlot_killed p s.table i) (hx.pid i) (fun hu => ?_)
    change (exitSlot p s.table i).State = UNUSED at hu
    rcases eq_or_ne i p with rfl | hi
    · rw [hx.zombie] at hu
      cases hu
    · rcases hx.state i hi with h1 | ⟨-,h2⟩
      · rwa [← h1]
      · rw [h2] at hu
        cases hu
  | waits hr => exact .wait rfl rfl id id
  | @kills p pid =>
    have hw := woken_kill pid s.table
    refine ⟨fun hk => ?_,fun hu => .inl ((hw.same (by decide) (by decide)).mp hu),fun _ => hw.pid i⟩
    change ((kill pid s.table).2 i).IsKilled = true at hk
    unfold kill at hk
    split at hk
    · rename_i q hq
      have hpid := List.find?_some hq
      rcases eq_or_ne i q with rfl | hi
      · exact .inr (.inl ⟨p,by rw [of_decide_eq_true hpid]⟩)
      · simp only [Function.update_of_ne hi] at hk
        exact .inl hk
    · exact .inl hk
  | @faults p hr =>
    rcases eq_or_ne i p with rfl | hi
    · exact ⟨fun _ => .inr (.inr ⟨rfl,hr.1⟩),fun hu => .inl (by simpa [Config.next] using hu),
        fun _ => by simp [Config.next]⟩
    · apply SlotMove.quiet <;> simp [Config.next,hi]
  | @sleeps p address hr =>
    exact SlotMove.update (p := p) (x := { s.table p with Chan := some (.other address), State := SLEEPING })
      rfl rfl rfl (by simp)
  | @wakes address =>
    have hw := woken_wakeup1 (some (.other address)) s.table
    exact .quiet (wakeup1_killed ..) (hw.pid i) (hw.same (by decide) (by decide)).mp
  | @rewaits p hr =>
    apply SlotMove.wait
    all_goals rcases eq_or_ne i p with rfl | hi
    all_goals simp_all [wakeSlot]
  | @returns p hr =>
    exact SlotMove.update (p := p) (x := { s.table p with State := RUNNING, Chan := none }) rfl rfl rfl (by simp)
  | @dispatched p hr =>
    exact SlotMove.update (p := p) (x := { s.table p with State := RUNNING }) rfl rfl rfl (by simp)
  | @yields p hr =>
    exact SlotMove.update (p := p) (x := { s.table p with State := RUNNABLE }) rfl rfl rfl (by simp)

/-- A kill does not name the pid of a free slot, and a fork that gives up has not been
marked. -/
def KillsInUse (s : Config) (l : Move × Option Event) : Prop :=
  match l.1 with
  | .kill _ pid => ∀ q, (s.table q).State = UNUSED → (s.table q).ProcessId ≠ pid
  | .abandon p => ∀ np, s.control p = .allocated np → (s.table np).IsKilled = false
  | _ => True

def FreeClean (s : Config) : Prop := ∀ q, (s.table q).State = UNUSED → (s.table q).IsKilled = false

theorem FreeClean.step {l : Move × Option Event} (h : FreeClean s) (hf : Family s) (hk : KillsInUse s l)
    (he : steps s l s') : FreeClean s' := by
  intro q hq
  have hm := slotMove_of_effect hf (effect_of_steps he) q
  rw [← Bool.not_eq_true]
  intro hkill
  rcases hm.unused hq with hu | ⟨p,hl,hc⟩ | hn
  · rcases hm.killed hkill with hx | ⟨r,hl⟩ | ⟨-,hr⟩
    · rw [h q hu] at hx
      cases hx
    · simp only [KillsInUse,hl] at hk
      exact hk q hu rfl
    · rw [hu] at hr
      cases hr
  · simp only [KillsInUse,hl] at hk
    rcases hm.killed hkill with hx | ⟨r,hx⟩ | ⟨hx,-⟩
    · rw [hk q hc] at hx
      cases hx
    · rw [hl] at hx
      cases hx
    · rw [hl] at hx
      cases hx
  · rw [hn] at hkill
    cases hkill

theorem forks_back {k : Fin NPROC} (he : Effect s m e s') (hm : m ≠ .fork p) (hf : s'.Forks p k) :
    s.Forks p k := by
  have hnext : ∀ (t : ProcessTable) (q : Fin NPROC) (c : Control),
      (q = p → c = .allocated k ∨ c = .copied k → s.Forks p k) → (s.next t q c).Forks p k → s.Forks p k := by
    intro t q c hc hx
    rcases eq_or_ne p q with rfl | hq
    · exact hc rfl (by simpa [Config.Forks,Config.next] using hx)
    · simpa [Config.Forks,Config.next,hq] using hx
  have hwait : ∀ (t : ProcessTable) (q : Fin NPROC), (waitRound s t q).1.Forks p k → s.Forks p k := by
    intro t q hx
    unfold waitRound at hx
    generalize waitSlot q t = w at hx
    obtain ⟨r,u⟩ := w
    cases r with
    | reaped => exact hnext u q .user (by simp) hx
    | failed => exact hnext u q .user (by simp) hx
    | asleep => exact hnext u q .waiting (by simp) hx
  cases he with
  | @forked q np t hr ha =>
    have hq : p ≠ q := by
      rintro rfl
      exact hm rfl
    simpa [Config.Forks,hq] using hf
  | full => exact hf
  | abandoned hc => exact hnext _ _ _ (by simp) hf
  | @adopted q np hc hr =>
    refine hnext _ _ _ ?_ hf
    rintro rfl hx
    have hk : np = k := by simpa using hx
    exact .inl (hk ▸ hc)
  | @published q np hc =>
    rcases eq_or_ne p np with rfl | hp
    · simp [Config.Forks,Config.next] at hf
    · refine hnext (setState s.table np RUNNABLE) q .user (by simp) ?_
      simpa [Config.Forks,Config.next,hp] using hf
  | exits => exact hnext _ _ _ (by simp) hf
  | waits => exact hwait _ _ hf
  | kills => exact hf
  | faults => exact hnext _ _ _ (by simp) hf
  | sleeps => exact hnext _ _ _ (by simp) hf
  | wakes => exact hf
  | rewaits => exact hwait _ _ hf
  | returns => exact hnext _ _ _ (by simp) hf
  | @dispatched q hr => exact hnext _ _ _ (by rintro rfl hx; exact hx) hf
  | @yields q hr => exact hnext _ _ _ (by rintro rfl hx; exact hx) hf

/-- While the fork of `p` fills slot `np`, the flag of the slot tells of a kill with the
pid `n` that the fork has assigned. -/
def Filling (p np : Fin NPROC) (n : UInt32) (ms : List (Move × Option Event)) (s : Config) : Prop :=
  s.Forks p np → (s.table np).ProcessId = n ∧
    ((s.table np).IsKilled = true → ∃ q e, (.kill q n,e) ∈ ms)

theorem Filling.step {l : Move × Option Event} {ms : List (Move × Option Event)} {n : UInt32}
    (h : Filling p np n ms s) (hf : Family s) (hl : l.1 ≠ .fork p) (he : steps s l s') :
    Filling p np n (ms ++ [l]) s' := by
  intro hforks
  have hx := effect_of_steps he
  have hold := forks_back hx hl hforks
  obtain ⟨hpid,hkill⟩ := h hold
  have hembryo := (hf.forking p np hold).2
  have hm := slotMove_of_effect hf hx np
  refine ⟨(hm.pid hembryo).trans hpid,fun hk => ?_⟩
  rcases hm.killed hk with hk | ⟨q,hq⟩ | ⟨-,hr⟩
  · obtain ⟨q,e,hq⟩ := hkill hk
    exact ⟨q,e,List.mem_append_left _ hq⟩
  · rw [hpid] at hq
    exact ⟨q,l.2,by simp [← hq]⟩
  · rw [hembryo] at hr
    cases hr

theorem FreeClean.of_runs {ls : List (Move × Option Event)}
    (h : Runs (guarded steps KillsInUse) start ls s) : Family s ∧ FreeClean s := by
  refine h.invariant (I := fun u => Family u ∧ FreeClean u) ⟨start_family,?_⟩ ?_
  · intro q _
    by_cases hq : q = initproc <;> simp [start,firstTable,hq]
  · intro a l b ha hs
    exact ⟨ha.1.step hs.2,ha.2.step ha.1 hs.1 hs.2⟩

/-- In a run whose kills name no free slot and whose failing forks give up no marked
slot, kill succeeds only for a process in use, and a process that fork makes RUNNABLE is
marked only if there was a kill with its pid after the fork had assigned it. -/
theorem killed_by_own_pid_only {pre : List (Move × Option Event)} {s₀ : Config}
    (hpre : Runs (guarded steps KillsInUse) start pre s₀) :
    (∀ q pid s₁, guarded steps KillsInUse s₀ (.kill q pid,none) s₁ → (kill pid s₀.table).1 ≠ none →
      ∃ r, (s₀.table r).State ≠ UNUSED ∧ (s₀.table r).ProcessId = pid) ∧
    ∀ p np mid s₁ s₂ s₃, steps s₀ (.fork p,none) s₁ → s₁.control p = .allocated np →
      Runs (guarded steps KillsInUse) s₁ mid s₂ → (∀ e, (.fork p,e) ∉ mid) → steps s₂ (.publish p,none) s₃ →
      (s₃.table np).State = RUNNABLE ∧ (s₃.table np).ProcessId = s₀.nextpid ∧
        ((s₃.table np).IsKilled = true → ∃ q e, (.kill q s₀.nextpid,e) ∈ mid) := by
  obtain ⟨hf₀,hc₀⟩ := FreeClean.of_runs hpre
  constructor
  · intro q pid s₁ hs hk
    obtain ⟨r,hr⟩ := Option.ne_none_iff_exists'.mp hk
    unfold kill at hr
    split at hr
    · rename_i i hi
      have hpid : (s₀.table i).ProcessId = pid := by
        have hd := List.find?_some hi
        exact of_decide_eq_true hd
      exact ⟨i,fun hu => hs.1 i hu hpid,hpid⟩
    · cases hr
  · intro p np mid s₁ s₂ s₃ hfork hnp hmid hone hpub
    have hf₁ := hf₀.step hfork
    have hfill₁ : Filling p np s₀.nextpid [] s₁ := by
      intro _
      cases effect_of_steps hfork with
      | @forked _ k t hr ha =>
        obtain ⟨hu,rfl⟩ := allocateSlot_eq ha
        have hk : k = np := by simpa using hnp
        subst hk
        refine ⟨by simp,fun hkill => ?_⟩
        have hclean := hc₀ k hu
        simp only [Function.update_self] at hkill
        rw [hclean] at hkill
        cases hkill
      | full =>
        simp only [steps,step] at hfork
        split_ifs at hfork with hr
        rw [hr.2] at hnp
        cases hnp
    have hinv := hmid.invariant_trace (I := fun ms u => (∀ e, (.fork p,e) ∉ ms) →
      Family u ∧ (∀ k, u.Forks p k → k = np) ∧ Filling p np s₀.nextpid ms u)
      (fun _ => ⟨hf₁,fun k hk => ?_,hfill₁⟩) ?_
    · obtain ⟨hf₂,huniq,hfill⟩ := hinv hone
      cases effect_of_steps hpub with
      | @published _ k hc =>
        obtain rfl := huniq k (.inr hc)
        obtain ⟨hpid,hkill⟩ := hfill (.inr hc)
        refine ⟨by simp [Config.next,setState],by simpa [Config.next,setState] using hpid,fun hk => ?_⟩
        exact hkill (by simpa [Config.next,setState] using hk)
    · rcases hk with hk | hk
      · rw [hnp] at hk
        cases hk
        rfl
      · rw [hnp] at hk
        cases hk
    · intro ms a l b ha hs hno
      have hl : l.1 ≠ .fork p := by
        intro hl
        exact hno l.2 (by simp [← hl])
      obtain ⟨hfa,hua,hfilla⟩ := ha (fun e he => hno e (by simp [he]))
      exact ⟨hfa.step hs.2,fun k hk => hua k (forks_back (effect_of_steps hs.2) hl hk),
        hfilla.step hfa hl hs.2⟩

def advance (s : Config) (m : Move) : Config := ((step s m).map Prod.fst).getD s

theorem steps_advance (h : (step s m).map Prod.snd = some none) : steps s (m,none) (advance s m) := by
  unfold advance steps
  cases hs : step s m with
  | none => simp [hs] at h
  | some r =>
    obtain ⟨u,e⟩ := r
    simp only [hs,Option.map_some,Option.some.injEq] at h
    simp [h]

theorem killed_by_own_pid_only_child : ∃ s₀ s₁ s₂ s₃,
    Runs (guarded steps KillsInUse) start [(.dispatch initproc,none)] s₀ ∧
    steps s₀ (.fork initproc,none) s₁ ∧ Runs (guarded steps KillsInUse) s₁ [(.adopt initproc,none)] s₂ ∧
    steps s₂ (.publish initproc,none) s₃ ∧ (s₃.table ⟨1,by decide⟩).IsKilled = false := by
  have h₀ := steps_advance (s := start) (m := .dispatch initproc) (by decide +kernel)
  have h₁ := steps_advance (s := advance start (.dispatch initproc)) (m := .fork initproc) (by decide +kernel)
  have h₂ := steps_advance (s := advance (advance start (.dispatch initproc)) (.fork initproc))
    (m := .adopt initproc) (by decide +kernel)
  have h₃ := steps_advance (s := advance (advance (advance start (.dispatch initproc)) (.fork initproc))
    (.adopt initproc)) (m := .publish initproc) (by decide +kernel)
  have hpre : Runs (guarded steps KillsInUse) _ _ _ := .one (l := (Move.dispatch initproc,none)) ⟨trivial,h₀⟩
  have hmid : Runs (guarded steps KillsInUse) _ _ _ := .one (l := (Move.adopt initproc,none)) ⟨trivial,h₂⟩
  refine ⟨_,_,_,_,hpre,h₁,hmid,h₃,?_⟩
  obtain ⟨-,-,hkill⟩ := (killed_by_own_pid_only hpre).2 initproc ⟨1,by decide⟩ _ _ _ _ h₁ (by decide +kernel)
    hmid (by simp) h₃
  rw [← Bool.not_eq_true]
  intro hk
  obtain ⟨q,e,hq⟩ := hkill hk
  simp at hq

/-- kill(0) finds the free slot 1 and returns 0, and the next process made there is
marked although nobody has killed its pid. -/
theorem kill_zero_marks_free_slot : ∃ s₀ s, Runs steps start [(.dispatch initproc,none)] s₀ ∧
    (kill 0 s₀.table).1 = some ⟨1,by decide⟩ ∧ (∀ q, (s₀.table q).State ≠ UNUSED → (s₀.table q).ProcessId ≠ 0) ∧
    Runs steps s₀ [(.kill initproc 0,none),(.fork initproc,none),(.adopt initproc,none),
      (.publish initproc,none)] s ∧
    (s.table ⟨1,by decide⟩).State = RUNNABLE ∧ (s.table ⟨1,by decide⟩).ProcessId = 2 ∧
    (s.table ⟨1,by decide⟩).IsKilled = true := by
  have h₀ := steps_advance (s := start) (m := .dispatch initproc) (by decide +kernel)
  have h₁ := steps_advance (s := advance start (.dispatch initproc)) (m := .kill initproc 0)
    (by decide +kernel)
  have h₂ := steps_advance (s := advance (advance start (.dispatch initproc)) (.kill initproc 0))
    (m := .fork initproc) (by decide +kernel)
  have h₃ := steps_advance (s := advance (advance (advance start (.dispatch initproc)) (.kill initproc 0))
    (.fork initproc)) (m := .adopt initproc) (by decide +kernel)
  have h₄ := steps_advance (s := advance (advance (advance (advance start (.dispatch initproc))
    (.kill initproc 0)) (.fork initproc)) (.adopt initproc)) (m := .publish initproc) (by decide +kernel)
  refine ⟨_,_,.one h₀,by decide +kernel,by decide +kernel,.cons h₁ (.cons h₂ (.cons h₃ (.one h₄))),?_,?_,?_⟩
  · decide +kernel
  · decide +kernel
  · decide +kernel

end UoDOS.Processes
