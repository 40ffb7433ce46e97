import UoDOS.Library.Transition
import UoDOS.Kernel.ProcessCalls

/-! # Descriptors and reference counts over whole runs

fork leaves the counts right only if the console files that allocateProcess opens for
the child are neither overwritten by descriptors of the parent nor forgotten on the
way out.
-/
namespace UoDOS.Kernel
open ByteMemory Paging Processes FileSystem Strings ProcState References Results Transition

variable {M : Mounted} {s s' : System} {p np : Fin NPROC} {f c : Fin NFILE} {inHand : Multiset (Fin NFILE)}
  {k : ℕ}

def ends (inHand : Multiset (Fin NFILE)) : Option (Fin NFILE × Fin NFILE) → Multiset (Fin NFILE)
  | some (f0,f1) => f0 ::ₘ f1 ::ₘ inHand
  | none => inHand

theorem Accounts.pipealloc {r : Option (Fin NFILE × Fin NFILE)} (p : Fin NPROC) (h : Accounts s inHand)
    (hd : pipealloc M s = .ok (r,s')) : Accounts s' (ends inHand r) ∧ Frame p s s' := by
  unfold Kernel.pipealloc at hd
  split at hd
  · cases hd
    exact ⟨h,Frame.refl p s⟩
  · rename_i f0 files hf0
    obtain ⟨hz0,hc0⟩ := counts_allocate hf0
    have h0 := Accounts.allocate h hz0 hc0
    split at hd
    · rename_i files1 hf1
      rw [(allocateFileStructure_none hf1).1,bind_eq_ok] at hd
      obtain ⟨s1,hs1,hd⟩ := hd
      cases hd
      exact ⟨h0.close hs1,(frame_files s p files).trans (frame_closeFile p hs1)⟩
    · rename_i f1 files1 hf1
      obtain ⟨hz1,hc1⟩ := counts_allocate hf1
      have h1 := Accounts.allocate (s := { s with files := files }) h0 hz1 hc1
      dsimp only at hd
      split at hd
      · rw [bind_eq_ok] at hd
        obtain ⟨s1,hs1,hd⟩ := hd
        rw [bind_eq_ok] at hd
        obtain ⟨s2,hs2,hd⟩ := hd
        cases hd
        have ha : Accounts s1 (f1 ::ₘ inHand) := by
          apply Accounts.close _ hs1
          rw [Multiset.cons_swap]
          exact h1
        constructor
        · exact ha.close hs2
        · apply Frame.trans _ ((frame_closeFile p hs1).trans (frame_closeFile p hs2))
          exact ⟨Woken.refl _,fun _ _ => rfl⟩
      · cases hd
        constructor
        · rw [Accounts,counts_write (by rfl),counts_write (by rfl),ends,Multiset.cons_swap]
          exact h1
        · exact ⟨Woken.refl _,fun _ _ => rfl⟩

theorem Accounts.sys_pipe {fetched : Bool} (h : Accounts s inHand) (hr : s.Ready p)
    (hd : sys_pipe M s p fetched = .ok s') : Accounts s' inHand ∧ Frame p s s' := by
  unfold Kernel.sys_pipe at hd
  split at hd
  · cases hd
    exact ⟨h,Frame.refl p s⟩
  · rw [bind_eq_ok] at hd
    obtain ⟨⟨r,s1⟩,hp,hd⟩ := hd
    obtain ⟨h1,hf1⟩ := h.pipealloc p hp
    have hu1 : (s1.table p).State ≠ UNUSED := fun hu => hr.used (hf1.used.mp hu)
    dsimp only at hd
    split at hd
    · cases hd
      exact ⟨h1,hf1⟩
    · rename_i rf wf
      replace h1 : Accounts s1 (rf ::ₘ wf ::ₘ inHand) := h1
      split at hd
      · rename_i s2 hs2
        rw [fdalloc_none hs2,bind_eq_ok] at hd
        obtain ⟨s3,hs3,hd⟩ := hd
        have h3 := Accounts.close h1 hs3
        exact ⟨h3.close hd,hf1.trans ((frame_closeFile p hs3).trans (frame_closeFile p hd))⟩
      · rename_i fd0 s2 hs2
        obtain ⟨hn,rfl⟩ := fdalloc_some hs2
        have h2 := Accounts.give h1 hu1 hn
        have hf2 := hf1.trans (frame_setOpenFile s1 p fd0 (some rf))
        split at hd
        · rename_i s3 hs3
          rw [fdalloc_none hs3,bind_eq_ok] at hd
          obtain ⟨s4,hs4,hd⟩ := hd
          have hc := h2.clear hu1 (openFile_setOpenFile s1 p fd0 (some rf))
          have h4 := hc.close hs4
          refine ⟨h4.close hd,hf2.trans ?_⟩
          exact (frame_setOpenFile _ p fd0 none).trans ((frame_closeFile p hs4).trans
            (frame_closeFile p hd))
        · rename_i fd1 s3 hs3
          obtain ⟨hn3,rfl⟩ := fdalloc_some hs3
          cases hd
          exact ⟨Accounts.give h2 hu1 hn3,hf2.trans (frame_setOpenFile _ p fd1 (some wf))⟩

theorem Accounts.close_all (h : Accounts s inHand) (hr : s.Ready p)
    (hd : (List.finRange NOFILE).foldlM (closeDescriptor M p) s = .ok s') :
    Accounts s' inHand ∧ Frame p s s' ∧ ∀ fd, (s'.image p).OpenFile fd = none := by
  have hi := foldlM_invariant hd (I := fun done u => Accounts u inHand ∧ Frame p s u ∧
    ∀ fd ∈ done, (u.image p).OpenFile fd = none) ⟨h,Frame.refl p s,by simp⟩ ?_
  · exact ⟨hi.1,hi.2.1,fun fd => hi.2.2 fd (List.mem_finRange fd)⟩
  · intro done fd rest u v _ hu hs
    obtain ⟨ha,hf,hn⟩ := hu
    have hused : (u.table p).State ≠ UNUSED := fun hu => hr.used (hf.used.mp hu)
    unfold closeDescriptor at hs
    split at hs
    · rename_i g hg
      rw [bind_eq_ok] at hs
      obtain ⟨u1,hu1,hs⟩ := hs
      cases hs
      obtain ⟨hc,him,ht⟩ := closeFile_ok hu1
      have hdesc : u1.descriptors = u.descriptors :=
        descriptors_congr (fun q => ht.same (by decide) (by decide)) (fun q => by rw [him])
      have hused1 : (u1.table p).State ≠ UNUSED :=
        fun hx => hused ((ht.same (by decide) (by decide)).mp hx)
      refine ⟨?_,hf.trans ((frame_closeFile p hu1).trans (frame_setOpenFile u1 p fd none)),?_⟩
      · have hb : Balanced (counts u.files) (Function.update u.descriptors (p,fd) none) (g ::ₘ inHand) :=
          Balanced.clear ha (by simp [System.descriptors,hused,hg])
        rw [Accounts,descriptors_setOpenFile hused1,hdesc]
        change Balanced (counts u1.files) _ _
        rw [hc]
        exact hb.drop
      · intro k hk
        rcases eq_or_ne k fd with rfl | hne
        · simp [System.setOpenFile,System.setImage]
        · have hk' : k ∈ done := by
            rcases List.mem_append.mp hk with hk | hk
            · exact hk
            · exact absurd (List.mem_singleton.mp hk) hne
          simp only [System.setOpenFile,System.setImage,Function.update_self,
            Function.update_of_ne hne,him]
          exact hn k hk'
    · rename_i hg
      cases hs
      refine ⟨ha,hf,?_⟩
      intro k hk
      rcases List.mem_append.mp hk with hk | hk
      · exact hn k hk
      · rw [List.mem_singleton.mp hk]
        exact hg

theorem Accounts.exit (h : Accounts s inHand) (hclean : Clean k s) (hr : s.Ready p)
    (hd : exit M s p = .ok s') : Accounts s' inHand ∧ Clean k s' := by
  unfold Kernel.exit at hd
  split at hd
  · cases hd
  · rw [bind_eq_ok] at hd
    obtain ⟨s1,hs1,hd⟩ := hd
    obtain ⟨h₁,hf,hn⟩ := h.close_all hr hs1
    cases hd
    have hx := exited_exitSlot s1.table p
    have hused : ∀ q, (exitSlot p s1.table q).State = UNUSED ↔ (s1.table q).State = UNUSED := by
      intro q
      rcases eq_or_ne q p with rfl | hq
      · rw [hx.zombie]
        have hu : (s1.table q).State ≠ UNUSED := fun hu => hr.used (hf.used.mp hu)
        simp [hu]
      · rcases hx.state q hq with h1 | ⟨h1,h2⟩
        · rw [h1]
        · simp [h1,h2]
    have hfiles := setImage_openFile (s := s1) (p := p)
      (x := { s1.image p with Cwd := emptyString }) rfl
    constructor
    · exact h₁.congr rfl (descriptors_congr hused hfiles)
    · intro q fd hq
      change (exitSlot p s1.table q).State = ZOMBIE ∨ (exitSlot p s1.table q).State = UNUSED ∧ _ at hq
      change ((s1.setImage p _).image q).OpenFile fd = none
      rw [hfiles q]
      rcases eq_or_ne q p with rfl | hqp
      · exact hn fd
      · apply hf.clean hr hclean q
        rcases hx.state q hqp with h1 | ⟨h1,h2⟩
        · rwa [← h1]
        · rw [h2] at hq
          simp at hq

theorem Accounts.wait {r : Option UInt32} (h : Accounts s inHand) (hclean : Clean k s)
    (hd : wait M s p = .ok (some (r,s'))) : Accounts s' inHand ∧ Clean k s' := by
  rcases wait_ok hd with rfl | ⟨i,m,hz,rfl⟩
  · exact ⟨h,hclean⟩
  · have hni := fun fd => hclean i fd (.inl hz)
    constructor
    · refine h.congr rfl ?_
      funext k
      obtain ⟨q,fd⟩ := k
      rcases eq_or_ne q i with rfl | hq
      · simp [System.descriptors,System.setImage,hni]
      · simp [System.descriptors,System.setImage,hq]
    · intro q fd hq
      rcases eq_or_ne q i with rfl | hqi
      · simpa [System.setImage] using hni fd
      · simp only [System.setImage,Function.update_of_ne hqi] at hq ⊢
        exact hclean q fd hq

theorem Accounts.notSpawned (h : Accounts s inHand) (ha : NotSpawned s s') : Accounts s' inHand :=
  h.congr (by rw [ha.files]) (descriptors_congr ha.unused ha.openFile)

theorem NotSpawned.clean (h : NotSpawned s s') (hclean : Clean k s) : Clean k s' := by
  intro q fd hq
  rw [h.openFile]
  rcases h.table q with he | ⟨h0,h1⟩
  · exact hclean q fd (he ▸ hq)
  · simp only [h1,reduceCtorEq,true_and,false_or] at hq
    exact hclean q fd (.inr ⟨h0,hq⟩)

theorem Accounts.spawned (h : Accounts s inHand) (hclean : Clean k s) (hk : k ≤ 3) (hsp : Spawned np c s s') :
    Accounts s' inHand := by
  refine @Balanced.extend _ _ _ _ _ _ _ _ _ (fun k => if k.1 = np then
    (fun fd : Fin NOFILE => if fd.val < 3 then some c else none) k.2 else none) h ?_ (fun g => ?_)
  · rintro ⟨q,fd⟩
    rcases eq_or_ne q np with rfl | hq
    · left
      simp only [System.descriptors,hsp.unused,hsp.embryo,if_true,reduceCtorEq,if_false,true_and]
      split_ifs with hfd
      · exact hsp.names fd hfd
      · exact hsp.closed hclean hk (by omega)
    · exact .inr ⟨if_neg hq,by simp [System.descriptors,hsp.table q hq,hsp.image q hq]⟩
  · rw [holders_row np (fun fd : Fin NOFILE => if fd.val < 3 then some c else none),hsp.counts]
    rcases eq_or_ne g c with rfl | hg
    · rw [Function.update_self,hsp.free]
      simp only [ite_eq_left_iff,reduceCtorEq,imp_false,not_not]
      decide
    · rw [Function.update_of_ne hg,List.countP_eq_zero.mpr (fun i _ => by split_ifs <;> simp [hg.symm]),Nat.add_zero]

theorem Accounts.copied {pt : ℕ} {slot : Fin NPROC × Fin NOFILE → Option (Fin NFILE)}
    (h : Balanced (counts s.files) slot inHand) (hslot : ∀ q fd, slot (q,fd) =
      if q = np ∧ (s.image p).OpenFile fd ≠ none then none else s.descriptors (q,fd))
    (hu : (s.table np).State = EMBRYO) (hc : Copied p np pt s s') : Accounts s' inHand := by
  refine @Balanced.extend _ _ _ _ _ _ _ _ _ (fun k => if k.1 = np then (s.image p).OpenFile k.2 else none) h ?_
    (fun g => by rw [holders_row]; exact hc.counts g)
  rintro ⟨q,fd⟩
  rw [hslot]
  rcases eq_or_ne q np with rfl | hq
  · cases ho : (s.image p).OpenFile fd <;>
      simp [System.descriptors,hu,hc.runnable,hc.openFile,ho]
  · simp [System.descriptors,hq,hc.table q hq,hc.image q hq]

/-- What a fork of `p` needs in order to keep the counts right: it does not get as far
as opening the console for the child, or the child keeps the console as descriptors 0,
1 and 2 and there is memory for it. -/
def ForkKeepsCounts (M : Mounted) (s : System) (p : Fin NPROC) : Prop :=
  (∀ q, (s.table q).State ≠ UNUSED) ∨ s.memory.FreeList = 0 ∨
  ((∀ fd : Fin NOFILE, fd.val < 3 → (s.image p).OpenFile fd = none) ∧
    ∃ d m, copyProcessPageTable M.image.toLayout (allocatePhysicalMemoryPage s.memory).2
      (s.image p).PageTable (s.image p).MemorySize = .ok (d,m) ∧ d ≠ 0)

theorem Copied.clean {s1 : System} {pt : ℕ} (hc : Copied p np pt s1 s') (hsp : Spawned np c s s1)
    (hclean : Clean k s) : Clean k s' := by
  intro q fd hz
  have hq : q ≠ np := by
    rintro rfl
    simp [hc.runnable] at hz
  rw [hc.table q hq,hsp.table q hq] at hz
  rw [hc.image q hq,hsp.image q hq]
  exact hclean q fd hz

theorem Accounts.fork {r : Option UInt32} (h : Accounts s 0) (hclean : Clean 0 s) (hr : s.Ready p)
    (hg : ForkKeepsCounts M s p) (hd : fork M s p = .ok (r,s')) : Accounts s' 0 ∧ Clean 0 s' := by
  cases fork_ends hd with
  | noStack ha => exact ⟨h.notSpawned ha,ha.clean hclean⟩
  | noMemory ha hc hf =>
    rcases hg with hg | hg | ⟨-,d,m,hcopy,hd0⟩
    · exact absurd ha.unused (hg _)
    · exact absurd hg ha.freePage
    · rw [ha.memory,ha.image p (ha.ne hr.used),hcopy] at hc
      cases hc
      exact absurd rfl hd0
  | forked ha hc hpt hi =>
    have hne := ha.ne hr.used
    rcases hg with hg | hg | ⟨hclosed,-⟩
    · exact absurd ha.unused (hg _)
    · exact absurd hg ha.freePage
    · obtain ⟨-,hcop⟩ := forkInto_ok hne hi
      have h1 := h.spawned hclean (by omega) ha
      refine ⟨Accounts.copied h1 (fun q fd => ?_) ha.embryo hcop,hcop.clean ha hclean⟩
      split_ifs with hx
      · obtain ⟨rfl,hx⟩ := hx
        rw [ha.image p hne] at hx
        have hfd : 3 ≤ fd.val := by
          by_contra hlt
          exact hx (hclosed fd (by omega))
        simp [System.descriptors,ha.closed hclean (by omega) hfd]
      · rfl

theorem Accounts.fork_any {r : Option UInt32} (h : Accounts s inHand) (hclean : Clean 3 s) (hr : s.Ready p)
    (hd : Kernel.fork M s p = .ok (r,s')) : (∃ lost, Accounts s' lost) ∧ Clean 3 s' := by
  cases fork_ends hd with
  | noStack ha => exact ⟨⟨_,h.notSpawned ha⟩,ha.clean hclean⟩
  | noMemory ha hc hf =>
    rename_i np c s1 m m'
    constructor
    · have h1 := h.spawned hclean le_rfl ha
      refine Balanced.forget h1 (fun k => ?_)
      obtain ⟨q,fd⟩ := k
      rcases eq_or_ne q np with rfl | hq
      · exact .inr (by simp [System.descriptors])
      · exact .inl (by simp [System.descriptors,System.setImage,hq])
    · intro q fd hz
      rcases eq_or_ne q np with rfl | hq
      · rcases hz with hz | ⟨-,hz⟩
        · simp at hz
        · simpa [System.setImage] using ha.closed hclean le_rfl hz
      · simp only [System.setImage,Function.update_of_ne hq,ha.table q hq,ha.image q hq] at hz ⊢
        exact hclean q fd hz
  | forked ha hc hpt hi =>
    rename_i np c s1 pt m
    obtain ⟨-,hcop⟩ := forkInto_ok (ha.ne hr.used) hi
    have h1 := h.spawned hclean le_rfl ha
    obtain ⟨left,hl⟩ := @Balanced.forget _ _ _ _ _ _ _ _ (fun k =>
      if k.1 = np ∧ (s1.image p).OpenFile k.2 ≠ none then none else s1.descriptors k)
      h1 (fun k => by split_ifs <;> simp)
    exact ⟨⟨left,Accounts.copied hl (fun _ _ => rfl) ha.embryo hcop⟩,hcop.clean ha hclean⟩

end UoDOS.Kernel
