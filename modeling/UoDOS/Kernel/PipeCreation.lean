import UoDOS.Kernel.IdleFiles
import UoDOS.Memory.PageRelease

/-! # sys_pipe with its results

A call takes two Files, a page and two descriptors, and gives back what it has if one of them is
missing.
-/
namespace UoDOS.Kernel.PipeCall
open ByteMemory Paging Processes FileSystem Strings ProcState References Results Transition

/-- The stores of pipealloc into the page of the new Pipe, where `ReadCount`, `WriteCount`,
`ReadOpen` and `WriteOpen` lie behind the lock and the data. The name of the lock is left out. -/
def initialisePipe (m : Memory) (p : ℕ) : Memory :=
  let m := m.store (p + 4 * 143) 1
  let m := m.store (p + 4 * 144) 1
  let m := m.store (p + 4 * 142) 0
  let m := m.store (p + 4 * 141) 0
  -- spinlockInitialise
  let m := m.store (p + 4 * 0) 0
  m.store (p + 4 * 2) 0

def pipealloc (M : Mounted) (s : System) : Except Stop (Option (Fin NFILE × Fin NFILE) × System) := do
  let (r,s) ← Kernel.pipealloc M s
  match r with
  | none => .ok (none,s)
  | some (f0,f1) => .ok (some (f0,f1),{ s with memory := initialisePipe s.memory (s.files f0).Pipe })

/-- The two descriptors that the caller gets, or none for -1; `fetched` says whether the address
of the two results was good. -/
def sys_pipe (M : Mounted) (s : System) (p : Fin NPROC) (fetched : Bool) :
    Except Stop (Option (Fin NOFILE × Fin NOFILE) × System) :=
  if fetched = false then .ok (none,s)
  else do
    let (r,s) ← pipealloc M s
    match r with
    | none => .ok (none,s)
    | some (rf,wf) =>
      match fdalloc s p rf with
      | (none,s) => do
        let s ← closeFile M s rf
        let s ← closeFile M s wf
        .ok (none,s)
      | (some fd0,s) =>
        match fdalloc s p wf with
        | (none,s) => do
          let s ← closeFile M (s.setOpenFile p fd0 none) rf
          let s ← closeFile M s wf
          .ok (none,s)
        | (some fd1,s) => .ok (some (fd0,fd1),s)

structure FreePages (L : Layout) (m : Memory) (F : List ℕ) : Prop where
  chain : FreeChain m m.FreeList F
  nodup : F.Nodup
  managed : ∀ f ∈ F, L.kernelEnd ≤ page f ∧ 4096 * f < PHYSTOP

variable {M : Mounted} {s s' : System} {p : Fin NPROC} {f : Fin NFILE} {t t' : FileTable} {L : Layout}
  {m m' : Memory} {F : List ℕ}

section Pages

theorem FreePages.lt {f : ℕ} (h : FreePages L m F) (hf : f ∈ F) : f < 2^19 := by
  have := (h.managed f hf).2
  simp only [PHYSTOP] at this
  omega

theorem FreePages.freeList_lt (h : FreePages L m F) : m.FreeList < 2^32 := by
  have hc := h.chain
  cases F with
  | nil =>
    have hz : m.FreeList = 0 := hc
    omega
  | cons f F =>
    have := h.lt List.mem_cons_self
    rw [hc.1]
    simp only [page,KERNBASE]
    omega

theorem FreePages.take {f : ℕ} (h : FreePages L m (f :: F)) :
    allocatePhysicalMemoryPage m = (page f,{ m with FreeList := m.word f 0 }) ∧
      FreePages L { m with FreeList := m.word f 0 } F := by
  have hF : m.FreeList = page f := h.chain.1
  have hload : m.load (page f) = m.word f 0 := load_page m (i := 0) (h.lt List.mem_cons_self) (by norm_num)
  refine ⟨?_,h.chain.2.congr (fun _ _ => rfl),(List.nodup_cons.mp h.nodup).2,
    fun g hg => h.managed g (List.mem_cons_of_mem _ hg)⟩
  rw [allocatePhysicalMemoryPage,hF,if_neg (page_ne_zero f),hload]

theorem FreePages.give {f : ℕ} (h : FreePages L m F) (hf : f ∉ F)
    (hman : L.kernelEnd ≤ page f ∧ 4096 * f < PHYSTOP) :
    ∃ m', freePhysicalMemoryPage L m (page f) = .ok m' ∧ FreePages L m' (f :: F) := by
  have hR : Manageable L fun g => L.kernelEnd ≤ page g ∧ 4096 * g < PHYSTOP := fun _ hg => hg
  obtain ⟨m',hfree,hF,hl,hkeep⟩ := free_page hR hman h.freeList_lt
  refine ⟨m',hfree,⟨hF,?_⟩,List.nodup_cons.mpr ⟨hf,h.nodup⟩,fun g hg => ?_⟩
  · rw [hl]
    refine h.chain.congr (fun g hg => hkeep g 0 ?_ (by norm_num))
    rintro rfl
    exact hf hg
  · rcases List.mem_cons.mp hg with rfl | hg
    · exact hman
    · exact h.managed g hg

theorem initialisePipe_word {f g j : ℕ} (hf : f < 2^19) (hj : j < 1024) :
    (initialisePipe m (page f)).word g j = if g = f ∧ j = 2 then 0 else if g = f ∧ j = 0 then 0
      else if g = f ∧ j = 141 then 0 else if g = f ∧ j = 142 then 0 else if g = f ∧ j = 144 then 1
      else if g = f ∧ j = 143 then 1 else m.word g j := by
  unfold initialisePipe
  dsimp only
  rw [word_store _ hf (by norm_num) hj (by norm_num),word_store _ hf (by norm_num) hj (by norm_num),
    word_store _ hf (by norm_num) hj (by norm_num),word_store _ hf (by norm_num) hj (by norm_num),
    word_store _ hf (by norm_num) hj (by norm_num),word_store _ hf (by norm_num) hj (by norm_num)]

theorem initialisePipe_word_of_ne {f g j : ℕ} (hf : f < 2^19) (hj : j < 1024) (hg : g ≠ f) :
    (initialisePipe m (page f)).word g j = m.word g j := by
  rw [initialisePipe_word hf hj]
  simp only [hg,false_and,if_false]

theorem initialisePipe_freeList (m : Memory) (a : ℕ) : (initialisePipe m a).FreeList = m.FreeList := by
  simp only [initialisePipe,store_freeList]

theorem FreePages.initialised {f : ℕ} (h : FreePages L m F) (hf : f < 2^19) (hn : f ∉ F) :
    FreePages L (initialisePipe m (page f)) F := by
  refine ⟨?_,h.nodup,h.managed⟩
  rw [initialisePipe_freeList]
  refine h.chain.congr (fun g hg => initialisePipe_word_of_ne hf (by norm_num) ?_)
  rintro rfl
  exact hn hg

end Pages

section Files

theorem close_fresh (hc : (s.files f).ReferenceCount = 1) (ht : (s.files f).type = .FD_NONE) :
    closeFile M s f =
      .ok { s with files := Function.update s.files f { s.files f with ReferenceCount := 0 } } := by
  have hfile : ({ s.files f with ReferenceCount := 0, type := .FD_NONE } : File) =
      { s.files f with ReferenceCount := 0 } := by rw [← ht]
  rw [closeFile,fileClose_one hc,hfile]
  simp only [bind,Except.bind,ht]
  rfl

def dropped (x : File) : File := { x with ReferenceCount := 0, type := .FD_NONE }

theorem close_pipe (hc : (s.files f).ReferenceCount = 1) (ht : (s.files f).type = .FD_PIPE) :
    closeFile M s f = pipeclose M { s with files := Function.update s.files f (dropped (s.files f)) }
      (s.files f).Pipe (s.files f).Writable := by
  rw [closeFile,fileClose_one hc]
  simp only [bind,Except.bind,ht]
  rfl

theorem reset_file (hf : (t f).ReferenceCount = 0) :
    Function.update (Function.update t f { t f with ReferenceCount := 1 }) f
      { Function.update t f { t f with ReferenceCount := 1 } f with ReferenceCount := 0 } = t := by
  rw [Function.update_idem,Function.update_self,← hf]
  exact Function.update_eq_self f t

theorem reset_two {g : Fin NFILE} (hne : f ≠ g) (hf : (t f).ReferenceCount = 0) (hg : (t g).ReferenceCount = 0) :
    let t2 := Function.update (Function.update t f { t f with ReferenceCount := 1 }) g
      { t g with ReferenceCount := 1 }
    let t3 := Function.update t2 f { t2 f with ReferenceCount := 0 }
    Function.update t3 g { t3 g with ReferenceCount := 0 } = t := by
  have hf' : ({ t f with ReferenceCount := 0 } : File) = t f := by rw [← hf]
  have hg' : ({ t g with ReferenceCount := 0 } : File) = t g := by rw [← hg]
  dsimp only
  funext x
  rcases eq_or_ne x g with rfl | hxg
  · simp [hne.symm,hg']
  · rcases eq_or_ne x f with rfl | hxf
    · simp [hne,hf']
    · simp [hxg,hxf]

def readEnd (x : File) (a : ℕ) : File :=
  { x with type := .FD_PIPE, ReferenceCount := 1, Readable := true, Writable := false, Pipe := a }

def writeEnd (x : File) (a : ℕ) : File :=
  { x with type := .FD_PIPE, ReferenceCount := 1, Readable := false, Writable := true, Pipe := a }

def ends (t : FileTable) (rf wf : Fin NFILE) (a : ℕ) : FileTable :=
  Function.update (Function.update t rf (readEnd (t rf) a)) wf (writeEnd (t wf) a)

theorem set_ends {rf wf : Fin NFILE} {a : ℕ} (hne : rf ≠ wf) :
    let t2 := Function.update (Function.update t rf { t rf with ReferenceCount := 1 }) wf
      { t wf with ReferenceCount := 1 }
    let t3 := Function.update t2 rf { t2 rf with
      type := .FD_PIPE, Readable := true, Writable := false, Pipe := a }
    Function.update t3 wf { t3 wf with type := .FD_PIPE, Readable := false, Writable := true, Pipe := a } =
      ends t rf wf a := by
  dsimp only
  funext x
  rcases eq_or_ne x wf with rfl | hxw
  · simp [ends,writeEnd,hne.symm]
  · rcases eq_or_ne x rf with rfl | hxr
    · simp [ends,readEnd,hne]
    · simp [ends,hxw,hxr]

def made (s : System) (rf wf : Fin NFILE) (f : ℕ) : System :=
  { s with
    memory := initialisePipe { s.memory with FreeList := s.memory.word f 0 } (page f)
    files := ends s.files rf wf (page f)
    pipes := Function.update s.pipes (page f) ⟨true,true⟩ }

theorem pipealloc_cases (hi : Idle s.files) (hF : FreePages M.image.toLayout s.memory F) :
    pipealloc M s = .ok (none,s) ∨ ∃ rf wf f F', F = f :: F' ∧ rf ≠ wf ∧
      (s.files rf).ReferenceCount = 0 ∧ (s.files wf).ReferenceCount = 0 ∧ pipealloc M s = .ok (some (rf,wf),made s rf wf f) := by
  unfold pipealloc Kernel.pipealloc
  rcases ha : allocateFileStructure s.files with ⟨r,files⟩
  cases r with
  | none => exact .inl rfl
  | some f0 =>
    obtain ⟨h0,rfl⟩ := allocateFileStructure_some ha
    have ht0 := hi f0 h0
    dsimp only
    rcases hb : allocateFileStructure (Function.update s.files f0 { s.files f0 with ReferenceCount := 1 }) with
      ⟨r,files⟩
    cases r with
    | none =>
      obtain ⟨rfl,-⟩ := allocateFileStructure_none hb
      left
      dsimp only
      rw [close_fresh (by simp) (by simpa using ht0)]
      simp only [bind,Except.bind]
      rw [reset_file h0]
    | some f1 =>
      obtain ⟨h1,rfl⟩ := allocateFileStructure_some hb
      have hne : f0 ≠ f1 := by
        rintro rfl
        rw [Function.update_self] at h1
        cases h1
      rw [Function.update_of_ne hne.symm] at h1
      have ht1 := hi f1 h1
      rw [Function.update_of_ne hne.symm]
      cases F with
      | nil =>
        have hz : s.memory.FreeList = 0 := hF.chain
        have hal : allocatePhysicalMemoryPage s.memory = (0,s.memory) := by
          rw [allocatePhysicalMemoryPage,if_pos hz]
        left
        dsimp only
        rw [hal]
        dsimp only
        rw [if_pos rfl,close_fresh (by simp [hne]) (by simpa [hne] using ht0)]
        simp only [bind,Except.bind]
        rw [close_fresh (by simp [hne.symm]) (by simpa [hne.symm] using ht1)]
        dsimp only
        rw [reset_two hne h0 h1]
      | cons f F' =>
        obtain ⟨hal,-⟩ := hF.take
        right
        refine ⟨f0,f1,f,F',rfl,hne,h0,h1,?_⟩
        dsimp only
        rw [hal]
        dsimp only
        rw [if_neg (page_ne_zero f)]
        simp only [bind,Except.bind]
        rw [made,← set_ends (a := page f) hne]
        simp [hne]

theorem setOpenFile_back {fd : Fin NOFILE} {x : Option (Fin NFILE)} (h : (s.image p).OpenFile fd = none) :
    ((s.setOpenFile p fd x).setOpenFile p fd none).image = s.image := by
  simp only [System.setOpenFile,System.setImage,Function.update_self,Function.update_idem]
  rw [← h,Function.update_eq_self]
  exact Function.update_eq_self p s.image

theorem pipeclose_reader {a : ℕ} (hp : s.pipes a = ⟨true,true⟩) : pipeclose M s a false = .ok { s with
    pipes := Function.update s.pipes a ⟨false,true⟩
    table := wakeup1 (some (.other (pipeChannel a false))) s.table } := by
  simp [pipeclose,hp,PipeEnds.close]

theorem pipeclose_writer {a : ℕ} (hp : s.pipes a = ⟨false,true⟩)
    (hm : freePhysicalMemoryPage M.image.toLayout s.memory a = .ok m) : pipeclose M s a true = .ok { s with
    pipes := Function.update s.pipes a ⟨false,false⟩
    table := wakeup1 (some (.other (pipeChannel a true))) s.table
    memory := m } := by
  simp [pipeclose,hp,PipeEnds.close,hm,bind,Except.bind]

theorem close_ends {rf wf : Fin NFILE} {x y : File} {f : ℕ} (hne : rf ≠ wf)
    (hr : s.files rf = readEnd x (page f)) (hw : s.files wf = writeEnd y (page f)) (hp : s.pipes (page f) = ⟨true,true⟩)
    (hF : FreePages M.image.toLayout s.memory F) (hf : f ∉ F)
    (hman : M.image.toLayout.kernelEnd ≤ page f ∧ 4096 * f < PHYSTOP) :
    ∃ s1 s2, closeFile M s rf = .ok s1 ∧ closeFile M s1 wf = .ok s2 ∧ s2.image = s.image ∧
      s2.files = Function.update (Function.update s.files rf (dropped (s.files rf))) wf (dropped (s.files wf)) ∧
      FreePages M.image.toLayout s2.memory (f :: F) := by
  obtain ⟨m',hfree,hF'⟩ := hF.give hf hman
  have h1 : closeFile M s rf = pipeclose M
      { s with files := Function.update s.files rf (dropped (s.files rf)) } (page f) false := by
    rw [close_pipe (by rw [hr]; rfl) (by rw [hr]; rfl),hr]
    rfl
  obtain ⟨s1,hs1,hfiles,himage,hmem,hends⟩ : ∃ s1, closeFile M s rf = .ok s1 ∧
      s1.files = Function.update s.files rf (dropped (s.files rf)) ∧ s1.image = s.image ∧
      s1.memory = s.memory ∧ s1.pipes (page f) = ⟨false,true⟩ :=
    ⟨_,h1.trans (pipeclose_reader hp),rfl,rfl,rfl,Function.update_self ..⟩
  have hw1 : s1.files wf = writeEnd y (page f) := by rw [hfiles,Function.update_of_ne hne.symm,hw]
  have h2 : closeFile M s1 wf = pipeclose M
      { s1 with files := Function.update s1.files wf (dropped (s1.files wf)) } (page f) true := by
    rw [close_pipe (by rw [hw1]; rfl) (by rw [hw1]; rfl),hw1]
    rfl
  refine ⟨s1,_,hs1,h2.trans (pipeclose_writer hends (hmem ▸ hfree)),himage,?_,hF'⟩
  rw [hw1,hw,hfiles]

end Files

/-- Nothing that a failed call must restore differs: the descriptors, the reference counts and
types of the Files, and the free pages. -/
structure Undone (L : Layout) (s : System) (F : List ℕ) (s' : System) : Prop where
  image : s'.image = s.image
  counts : ∀ f, (s'.files f).ReferenceCount = (s.files f).ReferenceCount
  types : ∀ f, (s'.files f).type = (s.files f).type
  free : FreePages L s'.memory F

/-- Two descriptors that were closed name the ends of a new pipe, which has no bytes. -/
structure Created (L : Layout) (s : System) (F : List ℕ) (p : Fin NPROC) (fd0 fd1 : Fin NOFILE) (s' : System) :
    Prop where
  distinct : fd0 ≠ fd1
  closed0 : (s.image p).OpenFile fd0 = none
  closed1 : (s.image p).OpenFile fd1 = none
  pipe : ∃ rf wf f F', rf ≠ wf ∧ (s.files rf).ReferenceCount = 0 ∧ (s.files wf).ReferenceCount = 0 ∧
    F = f :: F' ∧ s' = ((made s rf wf f).setOpenFile p fd0 (some rf)).setOpenFile p fd1 (some wf) ∧
    FreePages L s'.memory F' ∧ (∀ g j, j < 1024 → g ≠ f → s'.memory.word g j = s.memory.word g j) ∧
    s'.memory.word f 141 = 0 ∧ s'.memory.word f 142 = 0

theorem sys_pipe_cases (hi : Idle s.files) (hF : FreePages M.image.toLayout s.memory F) (p : Fin NPROC)
    (fetched : Bool) : ∃ r s', sys_pipe M s p fetched = .ok (r,s') ∧
      ((r = none ∧ Undone M.image.toLayout s F s') ∨
        ∃ fd0 fd1, r = some (fd0,fd1) ∧ Created M.image.toLayout s F p fd0 fd1 s') := by
  have hsame : Undone M.image.toLayout s F s := ⟨rfl,fun _ => rfl,fun _ => rfl,hF⟩
  unfold sys_pipe
  by_cases hfetch : fetched = false
  · exact ⟨none,s,if_pos hfetch,.inl ⟨rfl,hsame⟩⟩
  rw [if_neg hfetch]
  rcases pipealloc_cases hi hF with hp | ⟨rf,wf,f,F',rfl,hne,hr,hw,hp⟩
  · refine ⟨none,s,?_,.inl ⟨rfl,hsame⟩⟩
    rw [hp]
    rfl
  rw [hp]
  simp only [bind,Except.bind]
  have hf : f < 2^19 := hF.lt List.mem_cons_self
  have hfF : f ∉ F' := (List.nodup_cons.mp hF.nodup).1
  have hman := hF.managed f List.mem_cons_self
  have hmade : FreePages M.image.toLayout (made s rf wf f).memory F' := hF.take.2.initialised hf hfF
  have hrf : (made s rf wf f).files rf = readEnd (s.files rf) (page f) := by
    simp [made,ends,hne]
  have hwf : (made s rf wf f).files wf = writeEnd (s.files wf) (page f) := by
    simp [made,ends]
  -- what is left of the files when both ends have been closed again
  have hrestored : ∀ u : System, u.image = s.image →
      u.files = Function.update (Function.update (made s rf wf f).files rf (dropped ((made s rf wf f).files rf)))
        wf (dropped ((made s rf wf f).files wf)) → FreePages M.image.toLayout u.memory (f :: F') →
      Undone M.image.toLayout s (f :: F') u := by
    intro u himage hfiles hmem
    have hfile : ∀ g, u.files g = s.files g ∨ (g = rf ∨ g = wf) ∧ (u.files g).ReferenceCount = 0 ∧
        (u.files g).type = .FD_NONE := by
      intro g
      rw [hfiles]
      rcases eq_or_ne g wf with rfl | hgw
      · exact .inr ⟨.inr rfl,by simp [dropped],by simp [dropped]⟩
      · rcases eq_or_ne g rf with rfl | hgr
        · exact .inr ⟨.inl rfl,by simp [hgw,dropped],by simp [hgw,dropped]⟩
        · exact .inl (by simp [hgw,hgr,made,ends])
    have hfree : ∀ g, (g = rf ∨ g = wf) → (s.files g).ReferenceCount = 0 := by
      rintro g (rfl | rfl)
      · exact hr
      · exact hw
    refine ⟨himage,fun g => ?_,fun g => ?_,hmem⟩
    · rcases hfile g with he | ⟨hg,hc,-⟩
      · rw [he]
      · rw [hc,hfree g hg]
    · rcases hfile g with he | ⟨hg,-,ht⟩
      · rw [he]
      · rw [ht,hi g (hfree g hg)]
  cases hfd0 : fdalloc (made s rf wf f) p rf with
  | mk r s1 =>
    cases r with
    | none =>
      obtain ⟨u1,u2,hu1,hu2,himage,hfiles,hmem⟩ :=
        close_ends hne hrf hwf (Function.update_self ..) hmade hfF hman
      refine ⟨none,u2,?_,.inl ⟨rfl,hrestored u2 himage hfiles hmem⟩⟩
      rw [fdalloc_none hfd0]
      dsimp only
      rw [hu1]
      dsimp only
      rw [hu2]
    | some fd0 =>
      obtain ⟨hclosed,rfl⟩ := fdalloc_some hfd0
      dsimp only
      cases hfd1 : fdalloc ((made s rf wf f).setOpenFile p fd0 (some rf)) p wf with
      | mk r s1 =>
        cases r with
        | none =>
          have hback : (((made s rf wf f).setOpenFile p fd0 (some rf)).setOpenFile p fd0 none).image = s.image :=
            setOpenFile_back hclosed
          obtain ⟨u1,u2,hu1,hu2,himage,hfiles,hmem⟩ := close_ends
            (s := ((made s rf wf f).setOpenFile p fd0 (some rf)).setOpenFile p fd0 none) hne hrf hwf
            (Function.update_self ..) hmade hfF hman
          refine ⟨none,u2,?_,.inl ⟨rfl,hrestored u2 (himage.trans hback) hfiles hmem⟩⟩
          rw [fdalloc_none hfd1]
          dsimp only
          rw [hu1]
          dsimp only
          rw [hu2]
        | some fd1 =>
          obtain ⟨hclosed1,rfl⟩ := fdalloc_some hfd1
          have hne' : fd0 ≠ fd1 := by
            rintro rfl
            simp [System.setOpenFile,System.setImage] at hclosed1
          refine ⟨_,_,rfl,.inr ⟨fd0,fd1,rfl,hne',hclosed,?_,rf,wf,f,F',hne,hr,hw,rfl,rfl,hmade,?_,?_,?_⟩⟩
          · simpa [System.setOpenFile,System.setImage,hne'.symm,made] using hclosed1
          · intro g j hj hg
            exact initialisePipe_word_of_ne hf hj hg
          · exact (initialisePipe_word hf (by norm_num)).trans (by simp)
          · exact (initialisePipe_word hf (by norm_num)).trans (by simp)

/-- In every state of a run, sys_pipe returns. If it returns -1 the descriptors, the counts and
types of all Files and the free pages are as before; otherwise two closed descriptors name the
ends of a new pipe without bytes, and nothing else has changed. -/
theorem sys_pipe_all_or_nothing {s₀ : System} {ls : List (Fin NPROC × Call)} (hi : Idle s₀.files)
    (hr : Runs (graph (Kernel.step M)) s₀ ls s) (hF : FreePages M.image.toLayout s.memory F) (p : Fin NPROC)
    (fetched : Bool) : ∃ r s', sys_pipe M s p fetched = .ok (r,s') ∧
      ((r = none ∧ Undone M.image.toLayout s F s') ∨
        ∃ fd0 fd1, r = some (fd0,fd1) ∧ Created M.image.toLayout s F p fd0 fd1 s') :=
  sys_pipe_cases (hi.runs hr) hF p fetched

/-- The first call in a system with one free page. -/
theorem sys_pipe_all_or_nothing_first :
    ∃ r s', sys_pipe smallMounted (coldSystem ⟨fun _ => 0,page 512⟩) initproc true = .ok (r,s') ∧
      ((r = none ∧ Undone smallMounted.image.toLayout (coldSystem ⟨fun _ => 0,page 512⟩) [512] s') ∨
        ∃ fd0 fd1, r = some (fd0,fd1) ∧
          Created smallMounted.image.toLayout (coldSystem ⟨fun _ => 0,page 512⟩) [512] initproc fd0 fd1 s') := by
  have hF : FreePages smallMounted.image.toLayout (coldSystem ⟨fun _ => 0,page 512⟩).memory [512] := by
    refine ⟨⟨rfl,rfl⟩,List.nodup_singleton _,fun f hf => ?_⟩
    rw [List.mem_singleton.mp hf]
    decide
  have hi : Idle (coldSystem ⟨fun _ => 0,page 512⟩).files := fun _ _ => rfl
  exact sys_pipe_all_or_nothing hi (Runs.refl _) hF initproc true

end UoDOS.Kernel.PipeCall
