import UoDOS.Kernel.PagePresence

/-! # Address spaces in every run

From the first process on, any processes may fork, load programs and change their sizes.
-/
namespace UoDOS.Kernel
open ByteMemory Paging Processes FileSystem Strings ProcState References Results Transition

variable {M : Mounted} {s s' s₀ t : System} {p np q : Fin NPROC} {R : ℕ → Prop} {o o' : Owner} {d : ℕ}

inductive SpaceCall
  | fork
  | exec (path : CString) (argv : List CString) (junk : Bytes)
  | sys_sbrk (n : Option UInt32)

def spaceCall (M : Mounted) (s : System) (l : Fin NPROC × SpaceCall) : Option System :=
  if s.Ready l.1 then
    match l.2 with
    | .fork => (fork M s l.1).toOption.map Prod.snd
    | .exec path argv junk => (exec M s l.1 path argv junk).toOption.map Prod.snd
    | .sys_sbrk n => (sys_sbrk M s l.1 n).toOption.map Prod.snd
  else none

/-- The call is not one that gives back all of the memory of its process. -/
def KeepsMemory (s : System) (l : Fin NPROC × SpaceCall) : Prop :=
  ∀ n, l.2 = .sys_sbrk (some n) → signed n.toNat < 0 →
    ((s.image l.1).MemorySize : ℤ) + signed n.toNat ≠ 0

theorem Present.sys_sbrk {n : Option UInt32} {r : ℤ} (h : Present R s o) (hR : Manageable M.image.toLayout R)
    (hp : (s.table p).State ≠ UNUSED)
    (hn : ∀ k, n = some k → signed k.toNat < 0 → ((s.image p).MemorySize : ℤ) + signed k.toNat ≠ 0)
    (hd : sys_sbrk M s p n = .ok (r,s')) : ∃ o', Present R s' o' := by
  unfold Kernel.sys_sbrk at hd
  split at hd
  · cases hd
    exact ⟨o,h⟩
  · rename_i k
    dsimp only at hd
    rw [bind_eq_ok] at hd
    obtain ⟨⟨r1,s1⟩,hs1,hd⟩ := hd
    obtain ⟨o',h'⟩ := h.growProcess hR hp (hn k rfl) hs1
    dsimp only at hd
    split_ifs at hd
    · cases hd
      exact ⟨o',h'⟩
    · cases hd
      exact ⟨o',h'⟩

theorem Present.spaceCall {l : Fin NPROC × SpaceCall} (h : ∃ o, Present R s o) (hR : Manageable M.image.toLayout R)
    (hk : KeepsMemory s l) (hd : spaceCall M s l = some s') : ∃ o', Present R s' o' := by
  obtain ⟨p,c⟩ := l
  obtain ⟨o,h⟩ := h
  unfold Kernel.spaceCall at hd
  split_ifs at hd with hr
  cases c with
  | fork =>
    obtain ⟨⟨r,u⟩,hu,rfl⟩ := Option.map_eq_some_iff.mp hd
    exact h.fork hR hr.used (toOption_eq_some hu)
  | exec path argv junk =>
    obtain ⟨⟨r,u⟩,hu,rfl⟩ := Option.map_eq_some_iff.mp hd
    exact h.exec hR hr.used (toOption_eq_some hu)
  | sys_sbrk n =>
    obtain ⟨⟨r,u⟩,hu,rfl⟩ := Option.map_eq_some_iff.mp hd
    exact h.sys_sbrk hR hr.used (fun k hn => hk k (by rw [hn])) (toOption_eq_some hu)

section Boot

theorem boot_first {a b : ℕ} (h : Owns R s₀.memory o) (hR : Manageable M.image.toLayout R)
    (hboot : initialiseFirstUserProcess M s₀ a b = .ok s) :
    (b + (2^32 - a)) % 2^32 < PGSIZE ∧
      ∃ p, (∀ q ≠ p, s.table q = s₀.table q) ∧ (s.image p).KernelStack ≠ 0 := by
  obtain ⟨p,c,s1,pt,m,m',hsp,hinit,rfl⟩ := first_ok hboot
  constructor
  · by_contra hlarge
    rw [initialiseUserVirtualMemory,if_pos (by omega)] at hinit
    cases hinit
  · refine ⟨p,fun q hq => ?_,?_⟩
    · simpa [System.setImage,hq] using hsp.table q hq
    · rcases h.allocate hR with ⟨hal,-⟩ | ⟨g,m,hal,-⟩
      · have hz : s₀.memory.FreeList = 0 := by
          by_contra hne
          have hx := congrArg Prod.fst hal
          rw [allocatePhysicalMemoryPage,if_neg hne] at hx
          exact hne hx
        exact absurd hz hsp.freePage
      · simp [System.setImage,hsp.kernelStack,hal,page_ne_zero]

theorem boot_present {a b : ℕ} (hcold : Cold s₀) (h : Owns R s₀.memory o) (hR : Manageable M.image.toLayout R)
    (hboot : initialiseFirstUserProcess M s₀ a b = .ok s) (hready : s.Ready p) (ho : Owns R s.memory o')
    (hp : HasPages s o' p d) : Present R s o' := by
  obtain ⟨-,p',htable,hstack⟩ := boot_first h hR hboot
  have honly : ∀ q, (s.table q).State ≠ UNUSED → q = p' := by
    intro q hq
    by_contra hne
    rw [htable q hne,hcold.unused] at hq
    exact hq rfl
  obtain rfl := honly p hready.used
  refine ⟨ho,fun q hq => ?_,fun q hq => ?_,fun q r hq hr _ => (honly q hq).trans (honly r hr).symm⟩
  · rw [honly q hq]
    exact ⟨d,hp⟩
  · rw [honly q hq]
    exact hstack

theorem Present.boot {a b : ℕ} (hcold : Cold s₀) (h : Owns R s₀.memory o) (hR : Manageable M.image.toLayout R)
    (hplenty : ¬ Scarce 1028 o) (hboot : initialiseFirstUserProcess M s₀ a b = .ok s) : ∃ o', Present R s o' := by
  obtain ⟨s',p,o',d,hs',hready,ho',hpages,-⟩ := boot_returns hcold h hR hplenty (boot_first h hR hboot).1
  rw [hboot] at hs'
  cases hs'
  exact ⟨o',boot_present hcold h hR hboot hready ho' hpages⟩

end Boot

section Panics

/-- The panics of copyProcessPageTable for a page that is not there. -/
def MissingPage (e : Stop) : Prop :=
  e = .panic "copyProcessPageTable: pte should exist" ∨ e = .panic "copyProcessPageTable: page not present"

theorem avoids_dupFile (s : System) (f : Fin NFILE) : Avoids MissingPage (dupFile s f) := by
  unfold dupFile fileDup
  split
  · exact avoids_error (by simp [MissingPage])
  · exact avoids_ok _

theorem avoids_allocateProcess (s : System) : Avoids MissingPage (allocateProcess s) := by
  unfold allocateProcess
  split
  · exact avoids_ok _
  · dsimp only
    split
    · exact avoids_ok _
    · refine avoids_bind ?_ (fun _ _ => avoids_ok _)
      unfold openConsole
      split
      · exact avoids_error (by simp [MissingPage])
      · refine avoids_bind (avoids_dupFile _ _) (fun _ _ => ?_)
        exact avoids_bind (avoids_dupFile _ _) (fun _ _ => avoids_ok _)

theorem avoids_dup_all (l : List (Fin NOFILE)) (s : System) :
    Avoids MissingPage (l.foldlM (dupDescriptor p np) s) := by
  induction l generalizing s with
  | nil => exact avoids_ok _
  | cons fd l ih =>
    rw [List.foldlM_cons]
    refine avoids_bind ?_ (fun u _ => ih u)
    unfold dupDescriptor
    split
    · exact avoids_bind (avoids_dupFile _ _) (fun _ _ => avoids_ok _)
    · exact avoids_ok _

theorem Present.fork_avoids (h : Present R s o) (hR : Manageable M.image.toLayout R)
    (hp : (s.table p).State ≠ UNUSED) : Avoids MissingPage (Kernel.fork M s p) := by
  obtain ⟨d,hd⟩ := h.pages p hp
  unfold Kernel.fork
  refine avoids_bind (avoids_allocateProcess s) (fun x hs1 => ?_)
  obtain ⟨x,s1⟩ := x
  rcases allocateProcess_cases h.owns hR hs1 with ⟨rfl,-,-⟩ | ⟨np,g,rfl,hunused,hg,ho1,hstack,hother⟩
  · exact avoids_ok _
  have hne : p ≠ np := by
    rintro rfl
    exact hp hunused
  have hheld : Untouched d o (Function.update o g .held) := untouched_update (.inl hg) (.inr (.inl rfl))
  obtain ⟨r,m1,hcopy⟩ := ho1.copy_returns hR (hheld.1 hd.directory) hd.below.le
    (fun k hk => (hheld.maps k).mpr ((hd.maps k).mpr hk))
  dsimp only
  rw [(hother p hne).2,hd.pageTable,hcopy]
  change Avoids MissingPage (if r = 0 then _ else _)
  split
  · rename_i hr
    rcases ho1.copy hR (hheld.1 hd.directory) hd.below.le hcopy with ⟨c,o2,hc,-⟩ | ⟨-,⟨o2,ho2,hleak⟩,-⟩
    · exact absurd (hc.symm.trans hr) (page_ne_zero c)
    · have hgheld : o2 g = .held := by
        have hx := hleak g
        simpa using hx
      obtain ⟨m2,hfree,-⟩ := ho2.free_held hR hgheld
      rw [hstack,hfree]
      exact avoids_ok _
  · refine avoids_bind ?_ (fun _ _ => avoids_ok _)
    unfold forkInto
    exact avoids_bind (avoids_dup_all _ _) (fun _ _ => avoids_ok _)

end Panics

theorem HasPages.present_iff {va : ℕ} (h : Owns R s.memory o) (hR : Manageable M.image.toLayout R)
    (hp : HasPages s o p d) (hva : va < KERNBASE) (ha : va % PGSIZE = 0) :
    Paging.entryAt s.memory (s.image p).PageTable va &&& PTE_P ≠ 0 ↔ va < PGROUNDUP (s.image p).MemorySize := by
  have hb := hp.below
  simp only [KERNBASE,PGSIZE] at hva ha hb
  rw [hp.pageTable,h.entryAt_eq hR hp.directory (by omega),Paging.present_iff,
    ← h.maps_iff hp.directory (by omega),hp.maps,pgroundup_eq (by omega)]
  omega

/-- In every run from the first process on in which no process gives back all of its memory,
the user pages of each process are those below its size, and fork does not stop for a page
that is missing. -/
theorem pages_below_size {initcode_start initcode_end : ℕ} {ls : List (Fin NPROC × SpaceCall)}
    (hcold : Cold s₀) (h₀ : Owns R s₀.memory o) (hR : Manageable M.image.toLayout R) (hplenty : ¬ Scarce 1028 o)
    (hboot : initialiseFirstUserProcess M s₀ initcode_start initcode_end = .ok s)
    (hr : Runs (guarded (graph (spaceCall M)) KeepsMemory) s ls t) (hq : (t.table q).State ≠ UNUSED) :
    (∀ va < KERNBASE, va % PGSIZE = 0 →
      (Paging.entryAt t.memory (t.image q).PageTable va &&& PTE_P ≠ 0 ↔ va < PGROUNDUP (t.image q).MemorySize)) ∧
    fork M t q ≠ .error (.panic "copyProcessPageTable: pte should exist") ∧
    fork M t q ≠ .error (.panic "copyProcessPageTable: page not present") := by
  obtain ⟨o',ht⟩ := hr.invariant (I := fun u => ∃ o, Present R u o) (Present.boot hcold h₀ hR hplenty hboot)
    (fun _ _ _ hu hs => Present.spaceCall hu hR hs.1 hs.2)
  obtain ⟨d,hd⟩ := ht.pages q hq
  have havoid := ht.fork_avoids hR hq
  refine ⟨fun va hva ha => hd.present_iff ht.owns hR hva ha,fun he => ?_,fun he => ?_⟩
  · exact havoid _ he (.inl rfl)
  · exact havoid _ he (.inr rfl)

theorem booted_space : ∃ m o s p o', Owns (InRange 0x80105000 (P2V PHYSTOP)) m o ∧
    Manageable smallMounted.image.toLayout (InRange 0x80105000 (P2V PHYSTOP)) ∧ ¬ Scarce 1028 o ∧
    Cold (coldSystem m) ∧ initialiseFirstUserProcess smallMounted (coldSystem m) 0 0 = .ok s ∧ s.Ready p ∧
    Present (InRange 0x80105000 (P2V PHYSTOP)) s o' ∧ (s.image p).MemorySize = PGSIZE ∧ Room s o' ∧
    ¬ Scarce 2000 o' := by
  obtain ⟨m,o,ho,hR,hplenty⟩ := plenty_of_memory
  have hcold : Cold (coldSystem m) := ⟨fun _ => rfl,fun _ _ => rfl,fun _ => rfl⟩
  have hfew : ¬ Scarce 1028 o := fun h => hplenty (h.mono (by norm_num))
  obtain ⟨s,p,o',d,hs,hr,ho',hpages,hsize,hslot,hfile,-,hsc⟩ := boot_returns (M := smallMounted) (a := 0) (b := 0)
    hcold ho hR hfew (by decide)
  have hmany : ¬ Scarce 2000 o' := fun h => hplenty ((hsc _ h).mono (by norm_num))
  refine ⟨m,o,s,p,o',ho,hR,hfew,hcold,hs,hr,boot_present hcold ho hR hs hr ho' hpages,hsize,⟨hslot,hfile,?_⟩,hmany⟩
  by_contra hn
  exact hmany (scarce_of_none _ (fun g hg => hn ⟨g,hg⟩))

/-- The first process asks for a byte more. -/
theorem pages_below_size_oneByte : ∃ m s t p, initialiseFirstUserProcess smallMounted (coldSystem m) 0 0 = .ok s ∧
    Runs (guarded (graph (spaceCall smallMounted)) KeepsMemory) s [(p,.sys_sbrk (some 1))] t ∧
    (t.table p).State ≠ UNUSED ∧
    (∀ va < KERNBASE, va % PGSIZE = 0 →
      (Paging.entryAt t.memory (t.image p).PageTable va &&& PTE_P ≠ 0 ↔ va < PGROUNDUP (t.image p).MemorySize)) ∧
    fork smallMounted t p ≠ .error (.panic "copyProcessPageTable: pte should exist") ∧
    fork smallMounted t p ≠ .error (.panic "copyProcessPageTable: page not present") := by
  obtain ⟨m,o,s,p,o',ho,hR,hfew,hcold,hs,hr,hpresent,hsize,-,hmany⟩ := booted_space
  obtain ⟨d,hd⟩ := hpresent.pages p hr.used
  obtain ⟨m₁,o₁,-,-,⟨hup,-⟩ | ⟨-,-,hsc⟩⟩ := growProcess_up (n := 1) hpresent.owns hR
    (hd.growable (hpresent.kernelStacks p hr.used)) (by decide) (by decide) (by rw [hsize]; decide)
  swap
  · exact absurd (hsc.mono (by rw [hsize]; decide)) hmany
  have hstep : spaceCall smallMounted s (p,.sys_sbrk (some 1)) =
      some (s.resized p m₁ ((s.image p).MemorySize + (1 : UInt32).toNat)) := by
    simp [spaceCall,hr,Kernel.sys_sbrk,hup,bind,Except.bind,Except.toOption]
  have hkeeps : KeepsMemory s (p,.sys_sbrk (some 1)) := by
    intro n hn hneg
    cases hn
    exact absurd hneg (by decide)
  have hrun : Runs (guarded (graph (spaceCall smallMounted)) KeepsMemory) s [(p,.sys_sbrk (some 1))] _ :=
    Runs.one ⟨hkeeps,hstep⟩
  have hused : ((s.resized p m₁ ((s.image p).MemorySize + (1 : UInt32).toNat)).table p).State ≠ UNUSED := hr.used
  exact ⟨m,s,_,p,hs,hrun,hused,pages_below_size hcold ho hR hfew hs hrun hused⟩

section Defect

theorem scarce_of_free {k : ℕ} (h : Scarce k o') (hf : ∀ g, o g = .free → o' g = .free) : Scarce k o :=
  fun F hF => h F (fun g hg => hf g (hF g hg))

theorem copy_missing {L : Layout} {m : Memory} (size : ℕ) (h : Owns R m o) (hR : Manageable L R)
    (hd : o d = .directory) (hs : 0 < size) (hm : ¬ Maps o d 0) (hplenty : ¬ Scarce 1026 o) :
    ∃ e, copyProcessPageTable L m (page d) size = .error e ∧ MissingPage e := by
  rcases h.setup hR with ⟨m1,-,-,hsc⟩ | ⟨c,m1,o1,hset,hc,h1,hg⟩
  · exact absurd hsc hplenty
  have hu : Untouched d o o1 := untouched_built ⟨hc,hg.within⟩ hd
  have hentry : ¬ m1.entry d 0 % 2 = 1 := by
    rw [← h1.maps_iff (hu.1 hd) (by norm_num),hu.maps]
    exact hm
  rw [← Nat.zero_div 4096,← h1.entryAt_eq hR (hu.1 hd) (by norm_num),← Paging.present_iff,not_not,Paging.entryAt] at hentry
  obtain ⟨fuel,hfuel⟩ : ∃ n, 2^20 = n + 1 := ⟨2^20 - 1,by norm_num⟩
  rw [copyProcessPageTable,hset]
  simp only [bind,Except.bind,page_ne_zero,↓reduceIte]
  rw [hfuel,copyLoop,if_pos hs]
  dsimp only
  by_cases hpte : (getPageTableEntry m1 (page d) 0 false).1 = 0
  · rw [if_pos hpte]
    exact ⟨_,rfl,.inl rfl⟩
  · rw [if_neg hpte] at hentry
    rw [if_neg hpte,if_pos hentry]
    exact ⟨_,rfl,.inr rfl⟩

/-- The first process gives back its page. The size stays, the page is gone, and a fork
stops the kernel. -/
theorem page_gone_size_kept : ∃ m s t p e, initialiseFirstUserProcess smallMounted (coldSystem m) 0 0 = .ok s ∧
    Runs (graph (spaceCall smallMounted)) s [(p,.sys_sbrk (some 0xFFFFF000))] t ∧ t.Ready p ∧
    (t.image p).MemorySize = PGSIZE ∧ Paging.entryAt t.memory (t.image p).PageTable 0 &&& PTE_P = 0 ∧
    fork smallMounted t p = .error e ∧ MissingPage e := by
  obtain ⟨m,o,s,p,o',ho,hR,hfew,hcold,hs,hr,hpresent,hsize,hroom,hmany⟩ := booted_space
  obtain ⟨d,hd⟩ := hpresent.pages p hr.used
  have hsum : (s.image p).MemorySize + (0xFFFFF000 : UInt32).toNat = 0 + 2^32 := by
    rw [hsize]
    decide
  obtain ⟨m₁,h₁,hdown⟩ := growProcess_down hpresent.owns hR (hd.growable (hpresent.kernelStacks p hr.used)) hsum
  rw [if_pos rfl] at hdown
  have hstep : spaceCall smallMounted s (p,.sys_sbrk (some 0xFFFFF000)) = some { s with memory := m₁ } := by
    simp [spaceCall,hr,Kernel.sys_sbrk,hdown,bind,Except.bind,Except.toOption]
  have hdir : released d ((0 + 4095) / 4096) (s.image p).MemorySize o' d = .directory := by
    simp [released,hd.directory]
  have hno : ¬ Maps (released d ((0 + 4095) / 4096) (s.image p).MemorySize o') d 0 := by
    rw [maps_released,hsize]
    exact fun hk => hk.2 (by decide)
  have hfree : ∀ g, o' g = .free → released d ((0 + 4095) / 4096) (s.image p).MemorySize o' g = .free := by
    intro g hg
    simp [released,hg]
  have hroom' : Room { s with memory := m₁ } (released d ((0 + 4095) / 4096) (s.image p).MemorySize o') := by
    obtain ⟨hslot,hfile,g,hg⟩ := hroom
    exact ⟨hslot,hfile,g,hfree g hg⟩
  obtain ⟨np,s₁,hs₁⟩ := hroom'.allocateProcess h₁ hR
  rcases allocateProcess_cases h₁ hR hs₁ with ⟨hx,-⟩ | ⟨np',g,hnp,hunused,hg,ho₁,-,hother⟩
  · cases hx
  cases hnp
  have hne : p ≠ np := by
    rintro rfl
    exact hr.used hunused
  have hheld : Untouched d (released d ((0 + 4095) / 4096) (s.image p).MemorySize o')
      (Function.update (released d ((0 + 4095) / 4096) (s.image p).MemorySize o') g .held) :=
    untouched_update (.inl hg) (.inr (.inl rfl))
  obtain ⟨e,he,hmissing⟩ := copy_missing (s.image p).MemorySize ho₁ hR (hheld.1 hdir)
    (by rw [hsize]; decide) (fun hk => hno ((hheld.maps 0).mp hk))
    (fun hsc => hmany (scarce_of_free (hsc.take.mono (by norm_num)) hfree))
  refine ⟨m,s,_,p,e,hs,Runs.one hstep,hr,hsize,?_,?_,hmissing⟩
  · change Paging.entryAt m₁ (s.image p).PageTable 0 &&& PTE_P = 0
    rw [hd.pageTable,h₁.entryAt_eq hR hdir (by norm_num),← not_ne_iff,Paging.present_iff,
      ← h₁.maps_iff hdir (by norm_num)]
    exact hno
  · unfold fork
    rw [hs₁]
    change (copyProcessPageTable _ s₁.memory (s₁.image p).PageTable (s₁.image p).MemorySize >>= _) = _
    rw [(hother p hne).2]
    change (copyProcessPageTable _ s₁.memory (s.image p).PageTable (s.image p).MemorySize >>= _) = _
    rw [hd.pageTable,he]
    rfl

end Defect

end UoDOS.Kernel
