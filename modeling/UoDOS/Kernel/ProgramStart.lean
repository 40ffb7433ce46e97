import UoDOS.Kernel.FileAccounts
import UoDOS.Kernel.ProgramLoading

/-! # Starting a program

exec step by step: the directory that loading leaves, with its guard page, and the new
program with its arguments. The executable is closed once before the arguments are copied.
-/
namespace UoDOS.Kernel
open ByteMemory Paging Processes FileSystem Strings Results

variable {M : Mounted} {L : Layout} {R : ℕ → Prop} {m m' : Memory} {o o' : Owner} {d S : ℕ} {f : Fin NFILE}
  {s s' : System} {p : Fin NPROC}

theorem Sized.guard (h : Sized R m o d S) (hR : Manageable L R) (ha : S % 4096 = 0) (hroom : 8192 ≤ S)
    (hS : S < KERNBASE) (he : clearPTEU m (page d) (below S (2 * PGSIZE)) = .ok m') :
    Extends d m o m' o ∧ Sized R m' o d S ∧ Guarded m' d S ∧
      ∀ k < 2^20, k ≠ S / 4096 - 2 → m'.entry d k = m.entry d k := by
  have hk : S < 2^31 := hS
  have hb : below S (2 * PGSIZE) = S - 8192 := by
    simp only [below,PGSIZE]
    omega
  rw [hb] at he
  have hn : (S - 8192) / 4096 = S / 4096 - 2 := by omega
  obtain ⟨h',hu,hent,hw⟩ := h.owns.clear_entry hR h.directory (by omega) he
  rw [hn] at hu hent
  refine ⟨⟨Within.refl d o,fun g hg j hj => ?_,fun n h1 h2 => ?_⟩,⟨h',h.directory,h.limit,h.maps⟩,
    ⟨ha,hroom,hS,fun ho => ho.2 hu⟩,fun k hlt hk => hent d k h.directory hlt (fun _ => hk)⟩
  · exact hw g j hj (fun i hi => hg.2 (.inr (.inl ⟨i,hi⟩)))
  · exact hent d n h.directory h2 (fun _ => by omega)

theorem closeFile_counted (he : closeFile M s f = .ok s') : 1 ≤ (s.files f).ReferenceCount := by
  rw [closeFile,bind_eq_ok] at he
  obtain ⟨x,hc,-⟩ := he
  unfold fileClose at hc
  split_ifs at hc <;> omega

theorem cleanupExec_counted {pgdir : ℕ} (he : cleanupExec M f s pgdir = .ok s') :
    1 ≤ (s.files f).ReferenceCount := by
  rw [cleanupExec] at he
  split at he
  · exact closeFile_counted he
  · rw [bind_eq_ok] at he
    obtain ⟨m1,-,he⟩ := he
    exact closeFile_counted (s := { s with memory := m1 }) he

theorem closeFile_file (ht : (s.files f).type ≠ .FD_PIPE) (he : closeFile M s f = .ok s') :
    ∃ files, s' = { s with files := files } ∧
      counts files = Function.update (counts s.files) f (counts s.files f - 1) := by
  rw [closeFile,bind_eq_ok] at he
  obtain ⟨⟨files,ff⟩,hc,he⟩ := he
  have hcount := counts_close hc
  unfold fileClose at hc
  split_ifs at hc with h1 h2
  · cases hc
    cases he
    exact ⟨_,rfl,hcount⟩
  · cases hc
    dsimp only at he
    rw [if_neg ht] at he
    cases he
    exact ⟨_,rfl,hcount⟩

theorem cleanupExec_ok (h : Owns R s.memory o) (hR : Manageable M.image.toLayout R) (hd : o d = .directory)
    (ht : (s.files f).type ≠ .FD_PIPE) (he : cleanupExec M f s (page d) = .ok s') :
    ∃ m' files, s' = { s with memory := m', files := files } ∧
      Owns R m' (freed d o) ∧ counts files = Function.update (counts s.files) f (counts s.files f - 1) := by
  rw [cleanupExec,if_neg (page_ne_zero d),bind_eq_ok] at he
  obtain ⟨m1,hm,he⟩ := he
  obtain ⟨m2,hm2,h2⟩ := h.free_directory hR hd
  rw [hm] at hm2
  cases hm2
  obtain ⟨files,rfl,hcount⟩ := closeFile_file (s := { s with memory := m1 }) ht he
  exact ⟨m1,files,rfl,h2,hcount⟩

structure Ready (R : ℕ → Prop) (m : Memory) (o : Owner) (d S : ℕ) : Prop where
  sized : Sized R m o d S
  closed : Closed m d
  guarded : Guarded m d S
  top : Open m d (S / 4096 - 1)

theorem Sized.rounded (h : Sized R m o d S) : Sized R m o d (PGROUNDUP S) := by
  have hlimit : S ≤ 2^31 := h.limit
  have hround : PGROUNDUP S = 4096 * ((S + 4095) / 4096) := pgroundup_eq (by omega)
  refine ⟨h.owns,h.directory,?_,fun k => ?_⟩
  · rw [hround]
    simp only [KERNBASE]
    omega
  · rw [h.maps,hround]
    omega

theorem addStack_ok {x : Loaded} {r : Option Loaded} (h : Sized R s.memory o d x.memorySize)
    (hc : Closed s.memory d) (hR : Manageable M.image.toLayout R) (hx : x.pgdir = page d)
    (ht : (s.files f).type ≠ .FD_PIPE) (hone : (s.files f).ReferenceCount = 1)
    (he : addStack M f s x = .ok (r,s')) :
    ∃ S m' files o', r = some { x with memorySize := S } ∧ s' = { s with memory := m', files := files } ∧
      counts files = Function.update (counts s.files) f 0 ∧ Extends d s.memory o m' o' ∧ Ready R m' o' d S := by
  rw [addStack,bind_eq_ok] at he
  obtain ⟨s1,hclose,he⟩ := he
  obtain ⟨files,rfl,hcount⟩ := closeFile_file ht hclose
  have hzero : (files f).ReferenceCount = 0 := by
    have := congrFun hcount f
    rw [Function.update_self] at this
    simp only [counts,hone] at this
    exact this
  have hlimit : x.memorySize ≤ 2^31 := h.limit
  have hround : PGROUNDUP x.memorySize = 4096 * ((x.memorySize + 4095) / 4096) := pgroundup_eq (by omega)
  have hr : Sized R s.memory o d (PGROUNDUP x.memorySize) := h.rounded
  dsimp only at he
  rw [bind_eq_ok,hx] at he
  obtain ⟨⟨S,m1⟩,hal,he⟩ := he
  obtain ⟨o1,hext,hs1,hS⟩ := hr.allocate hR hal
  dsimp only at he
  split at he
  · -- the executable is closed a second time
    rw [bind_eq_ok] at he
    obtain ⟨s2,hclean,-⟩ := he
    have := cleanupExec_counted hclean
    dsimp only at this
    omega
  · rename_i hne
    rw [if_neg hne] at hs1
    rw [bind_eq_ok] at he
    obtain ⟨m2,hclear,he⟩ := he
    cases he
    obtain ⟨hmax,hlt,hnew⟩ := hS.resolve_left hne
    simp only [PGSIZE] at hmax hlt
    have hk : (PGROUNDUP x.memorySize + 2 * 4096) % 2^32 < 2^31 := hlt
    obtain ⟨hext2,hs2,hg,hsame⟩ := hs1.guard hR (by omega) (by omega) (by simp only [KERNBASE]; omega) hclear
    refine ⟨S,m2,files,o1,by rw [hx],rfl,?_,hext.trans hext2,hs2,(hext.trans hext2).closed hc,hg,?_⟩
    · rw [hcount]
      simp only [counts,hone]
    · rw [Open,hsame _ (by omega) (by omega)]
      exact hnew _ (by omega) (by omega)

structure Built (d : ℕ) (o o' : Owner) : Prop where
  fresh : o d = .free
  within : Within d (Function.update o d .directory) o'

theorem Built.extend {o'' : Owner} (hb : Built d o o') (hw : Within d o' o'') : Built d o o'' :=
  ⟨hb.fresh,hb.within.trans hw⟩

theorem sized_new {o2 : Owner} (h : Owns R m o) (h2 : Owns R m' o2) (hd : o d = .free)
    (hg : Grows d (Function.update o d .directory) o2) : Sized R m' o2 d 0 := by
  refine ⟨h2,(hg.iff (by simp) (by simp)).mpr (by simp),Nat.zero_le _,fun k => ⟨fun hk => ?_,fun hk => ?_⟩⟩
  · exact absurd hk (h.new_empty hd hg k)
  · exact absurd hk (by omega)

def System.executable (s : System) (f : Fin NFILE) : File := { s.files f with Readable := true, Writable := false }

structure Fresh (s : System) (f : Fin NFILE) : Prop where
  type : (s.files f).type = .FD_FILE
  count : (s.files f).ReferenceCount = 1

theorem Fresh.executable (hf : Fresh s f) : Readable (s.executable f) := ⟨hf.type,rfl⟩

theorem open_fresh {cwd path : CString} {junk : Bytes} {files : FileTable}
    (he : fsFat12Open M s.files cwd path false junk = .ok (some f,files)) : Fresh { s with files := files } f := by
  have hcount := congrFun (counts_open he).2 f
  rw [Function.update_self] at hcount
  exact ⟨by simpa using (opened_open he).type f rfl,hcount⟩

theorem Fresh.moved {t : FileTable} (hf : Fresh s f) (hm : Moved f (Function.update s.files f (s.executable f)) t) :
    Holding f (s.executable f) t ∧ counts t = counts s.files ∧ (t f).ReferenceCount = 1 ∧ (t f).type ≠ .FD_PIPE := by
  have hup : Function.update s.files f (s.executable f) f = s.executable f := Function.update_self ..
  have hh : Holding f (s.executable f) t := Holding.moved ⟨_,_,hup⟩ hm
  have hc : counts t = counts s.files := hm.counts.trans (counts_write rfl)
  refine ⟨hh,hc,(congrFun hc f).trans hf.count,?_⟩
  rw [(hh.readable hf.executable).type]
  decide

/-- What there is when the loop over the sections has ended: a new directory with the pages
below `size`, and the executable, which has only been read. -/
structure Attempt (R : ℕ → Prop) (s : System) (o : Owner) (f : Fin NFILE) (d : ℕ) (l : Loader) (o' : Owner)
    (size : ℕ) : Prop where
  sized : Sized R l.memory o' d size
  closed : Closed l.memory d
  built : Built d o o'
  others : Others d s.memory o l.memory o'
  counts : counts l.files = counts s.files
  count : (l.files f).ReferenceCount = 1
  type : (l.files f).type ≠ .FD_PIPE

theorem Attempt.of_sections {k position : ℕ} {r : Loading} {l1 l2 : Loader} (h : Owns R s.memory o)
    (hR : Manageable M.image.toLayout R) (hf : Fresh s f)
    (hmoved : Moved f (Function.update s.files f (s.executable f)) l1.files)
    (hsetup : setupKernelVirtualMemory M.image.toLayout s.memory = .ok (page d,m))
    (hload : loadSections M f (page d) k ⟨m,l1.files⟩ position 0 = .ok (r,l2)) :
    ∃ o' size, Attempt R s o f d l2 o' size ∧ ∀ n, r = .loaded n → n = size := by
  rcases h.setup_words hR with ⟨m2,hs,-⟩ | ⟨d',m2,o2,hs,hd,h2,hg,hw,hent,-⟩
  · rw [hs] at hsetup
    exact absurd (Prod.mk.inj (Except.ok.inj hsetup)).1.symm (page_ne_zero d)
  rw [hs] at hsetup
  obtain ⟨hpage,rfl⟩ := Prod.mk.inj (Except.ok.inj hsetup)
  obtain rfl := page_injective hpage
  have hsized := sized_new h h2 hd hg
  obtain ⟨hmoved2,o3,size,hext,hs3,hloaded⟩ := loadSections_ok (l := ⟨m2,l1.files⟩) hsized hR hload
  obtain ⟨-,hcounts,hone,hpipe⟩ := hf.moved (hmoved.trans hmoved2)
  have hprescribed : Prescribed M.image.toLayout m2 d' := fun n _ hn => hent n hn
  exact ⟨o3,size,⟨hs3,hext.closed hprescribed.closed,⟨hd,hg.within.trans hext.within⟩,(h.others_new hd hg hw).trans
    (hext.leaves.others hext.within h2 hsized.directory),hcounts,hone,hpipe⟩,hloaded⟩

def finishLoading (M : Mounted) (f : Fin NFILE) (s : System) (imageFileHeader : Bytes) (pgdir : ℕ)
    (x : Loading × Loader) : Except Stop (Option Loaded × System) :=
  let s := { s with memory := x.2.memory, files := x.2.files }
  match x.1 with
  | .short => do
    let s ← closeFile M s f
    .ok (none,s)
  | .failed => do
    let s ← cleanupExec M f s pgdir
    .ok (none,s)
  | .loaded memorySize => addStack M f s ⟨imageFileHeader,pgdir,memorySize⟩

theorem loadImage_eq {imageFileHeader : Bytes} {l1 : Loader} {pgdir : ℕ}
    (hhead : readHeaders M f ⟨s.memory,Function.update s.files f (s.executable f)⟩ = .ok (some imageFileHeader,l1))
    (hsetup : setupKernelVirtualMemory M.image.toLayout s.memory = .ok (pgdir,m)) (hne : pgdir ≠ 0) :
    loadImage M f s = loadSections M f pgdir (NumberOfSections imageFileHeader) ⟨m,l1.files⟩
      (0x80 + 24 + SizeOfOptionalHeader imageFileHeader) 0 >>= finishLoading M f s imageFileHeader pgdir := by
  rw [loadImage]
  change (readHeaders M f ⟨s.memory,Function.update s.files f (s.executable f)⟩ >>= _) = _
  rw [hhead]
  change (setupKernelVirtualMemory M.image.toLayout s.memory >>= _) = _
  rw [hsetup]
  change (if pgdir = 0 then _ else _) = _
  rw [if_neg hne]
  rfl

theorem finish_ok {imageFileHeader : Bytes} {r : Loading} {l : Loader} {size : ℕ} {x : Option Loaded}
    (ha : Attempt R s o f d l o' size) (h : Owns R s.memory o) (hR : Manageable M.image.toLayout R)
    (hsize : ∀ n, r = .loaded n → n = size)
    (he : finishLoading M f s imageFileHeader (page d) (r,l) = .ok (x,s')) :
    ∃ m' files o'', s' = { s with memory := m', files := files } ∧ Owns R m' o'' ∧
      counts files = Function.update (counts s.files) f 0 ∧
      ((x = none ∧ (r = .failed ∧ o'' = o ∨ r = .short ∧ o'' = o' ∧ m' = l.memory)) ∨
        ∃ n S, r = .loaded n ∧ x = some ⟨imageFileHeader,page d,S⟩ ∧ Built d o o'' ∧ Others d s.memory o m' o'' ∧
          Ready R m' o'' d S) := by
  have hcounts : Function.update (counts l.files) f (counts l.files f - 1) = Function.update (counts s.files) f 0 := by
    rw [ha.counts,← ha.counts]
    simp only [counts,ha.count]
  cases r with
  | short =>
    change (closeFile M { s with memory := l.memory, files := l.files } f >>= _) = _ at he
    rw [bind_eq_ok] at he
    obtain ⟨s2,hc,he⟩ := he
    cases he
    obtain ⟨files,rfl,hcount⟩ := closeFile_file ha.type hc
    exact ⟨_,files,o',rfl,ha.sized.owns,hcount.trans hcounts,.inl ⟨rfl,.inr ⟨rfl,rfl,rfl⟩⟩⟩
  | failed =>
    change (cleanupExec M f { s with memory := l.memory, files := l.files } (page d) >>= _) = _ at he
    rw [bind_eq_ok] at he
    obtain ⟨s2,hc,he⟩ := he
    cases he
    obtain ⟨m3,files,rfl,h3,hcount⟩ := cleanupExec_ok ha.sized.owns hR ha.sized.directory ha.type hc
    rw [h.freed_new ha.built.fresh ha.built.within] at h3
    exact ⟨m3,files,o,rfl,h3,hcount.trans hcounts,.inl ⟨rfl,.inl ⟨rfl,rfl⟩⟩⟩
  | loaded n =>
    obtain rfl := hsize n rfl
    obtain ⟨S,m3,files,o4,rfl,rfl,hcount,hext,hready⟩ := addStack_ok (x := ⟨imageFileHeader,page d,n⟩)
      (s := { s with memory := l.memory, files := l.files }) ha.sized ha.closed hR rfl ha.type ha.count he
    refine ⟨m3,files,o4,rfl,hready.sized.owns,hcount.trans (by rw [ha.counts]),
      .inr ⟨n,S,rfl,rfl,ha.built.extend hext.within,?_,hready⟩⟩
    exact ha.others.trans (hext.leaves.others hext.within ha.sized.owns ha.sized.directory)

def CutShort (M : Mounted) (s : System) (f : Fin NFILE) : Prop :=
  ∃ imageFileHeader l₁ pgdir m₁ l₂,
    readHeaders M f ⟨s.memory,Function.update s.files f (s.executable f)⟩ = .ok (some imageFileHeader,l₁) ∧
    setupKernelVirtualMemory M.image.toLayout s.memory = .ok (pgdir,m₁) ∧ pgdir ≠ 0 ∧
    loadSections M f pgdir (NumberOfSections imageFileHeader) ⟨m₁,l₁.files⟩
      (0x80 + 24 + SizeOfOptionalHeader imageFileHeader) 0 = .ok (.short,l₂)

theorem loadImage_ok {r : Option Loaded} (h : Owns R s.memory o) (hR : Manageable M.image.toLayout R)
    (hf : Fresh s f) (he : loadImage M f s = .ok (r,s')) :
    ∃ m' files o', s' = { s with memory := m', files := files } ∧ Owns R m' o' ∧
      counts files = Function.update (counts s.files) f 0 ∧
      ((r = none ∧ (o' = o ∨ CutShort M s f ∧ ∃ d, Built d o o')) ∨
        ∃ x d, r = some x ∧ x.pgdir = page d ∧ Built d o o' ∧ Others d s.memory o m' o' ∧
          Ready R m' o' d x.memorySize) := by
  have hfirst := he
  rw [loadImage] at hfirst
  change (readHeaders M f ⟨s.memory,Function.update s.files f (s.executable f)⟩ >>= _) = _ at hfirst
  rw [bind_eq_ok] at hfirst
  obtain ⟨⟨header,l1⟩,hhead,hfirst⟩ := hfirst
  obtain ⟨-,hmoved⟩ := readHeaders_ok hhead
  obtain ⟨-,hcounts,hone,hpipe⟩ := hf.moved hmoved
  -- closing the executable at the end of an attempt
  have hclose : ∀ {m1 : Memory}, Owns R m1 o →
      (closeFile M { s with memory := m1, files := l1.files } f >>= fun s => .ok ((none : Option Loaded),s)) = .ok (r,s') →
      r = none ∧ ∃ files, s' = { s with memory := m1, files := files } ∧ Owns R m1 o ∧
        counts files = Function.update (counts s.files) f 0 := by
    intro m1 h1 hc
    rw [bind_eq_ok] at hc
    obtain ⟨s2,hc,hs2⟩ := hc
    cases hs2
    obtain ⟨files,rfl,hcount⟩ := closeFile_file hpipe hc
    refine ⟨rfl,files,rfl,h1,?_⟩
    rw [hcount,hcounts]
    simp only [counts,hf.count]
  cases header with
  | none =>
    obtain ⟨rfl,files,hs',h',hcount⟩ := hclose h hfirst
    exact ⟨_,files,o,hs',h',hcount,.inl ⟨rfl,.inl rfl⟩⟩
  | some imageFileHeader =>
    change (setupKernelVirtualMemory M.image.toLayout s.memory >>= _) = _ at hfirst
    rcases h.setup_words hR with ⟨m2,hs,h2,-⟩ | ⟨d,m2,o2,hs,-⟩
    · rw [hs] at hfirst
      obtain ⟨rfl,files,hs',h',hcount⟩ := hclose h2 hfirst
      exact ⟨_,files,o,hs',h',hcount,.inl ⟨rfl,.inl rfl⟩⟩
    rw [loadImage_eq hhead hs (page_ne_zero d),bind_eq_ok] at he
    obtain ⟨⟨loading,l2⟩,hload,he⟩ := he
    obtain ⟨o3,size,ha,hloaded⟩ := Attempt.of_sections h hR hf hmoved hs hload
    obtain ⟨m',files,o',rfl,h',hcount,⟨rfl,⟨-,rfl⟩ | ⟨rfl,rfl,-⟩⟩ | ⟨-,S,-,rfl,hb,hother,hready⟩⟩ :=
      finish_ok ha h hR hloaded he
    · exact ⟨m',files,_,rfl,h',hcount,.inl ⟨rfl,.inl rfl⟩⟩
    · exact ⟨m',files,_,rfl,h',hcount,.inl ⟨rfl,.inr ⟨⟨_,_,_,_,_,hhead,hs,page_ne_zero d,hload⟩,d,ha.built⟩⟩⟩
    · exact ⟨m',files,o',rfl,h',hcount,.inr ⟨_,d,rfl,rfl,hb,hother,hready⟩⟩

def System.started (s : System) (p : Fin NPROC) (path : CString) (x : Loaded) (sp : ℕ) : System :=
  s.setImage p { s.image p with
    Name := safestrcpy (s.image p).Name (fun i => path.bytes (lastPart path + i)) 16
    PageTable := x.pgdir
    MemorySize := x.memorySize
    Trapframe := { (s.image p).Trapframe with eip := AddressOfEntryPoint x.imageFileHeader, esp := sp } }

theorem runImage_ok {x : Loaded} {path : CString} {argv : List CString} {e : ℕ} {z : ℤ}
    (h : Ready R s.memory o d x.memorySize) (hR : Manageable M.image.toLayout R) (hx : x.pgdir = page d)
    (hp : o e = .directory) (hpt : (s.image p).PageTable = page e) (hde : d ≠ e)
    (hzero : (s.files f).ReferenceCount = 0) (he : runImage M f s p path argv x = .ok (z,s')) :
    z = 0 ∧ ∃ m' esp ptrs, s' = { s.started p path x esp with memory := m' } ∧
      Sized R m' (freed e o) d x.memorySize ∧ StackHolds m' d x.memorySize esp argv ptrs ∧
      ∀ va, va + 4096 < x.memorySize → m'.peek d va = s.memory.peek d va := by
  rw [runImage,bind_eq_ok,hx] at he
  obtain ⟨⟨r,m1⟩,hstack,he⟩ := he
  obtain ⟨h1,hs1,hres⟩ := buildStack_spec h.sized.owns hR h.sized.directory h.closed h.guarded hstack
  dsimp only at he
  split at he
  · rw [bind_eq_ok] at he
    obtain ⟨s2,hclean,-⟩ := he
    have := cleanupExec_counted hclean
    dsimp only at this
    omega
  rename_i esp
  obtain ⟨hpeek,ptrs,hst⟩ := hres esp rfl
  rw [bind_eq_ok] at he
  obtain ⟨-,-,he⟩ := he
  rw [bind_eq_ok] at he
  obtain ⟨m2,hfree,he⟩ := he
  cases he
  obtain ⟨m3,hfree3,h3,hx3⟩ := h1.free_directory_others hR hp
  have hsame := fun va => hx3.peek va h1 h.sized.directory hde
  change freeMemoryAndPageTable M.image.toLayout m1 (s.image p).PageTable = .ok m2 at hfree
  rw [hpt,hfree3] at hfree
  cases hfree
  refine ⟨rfl,m2,esp,ptrs,?_,?_,hst.congr hsame,fun va hva => ?_⟩
  · rw [System.started,hx]
    rfl
  · refine ⟨h3,hx3.directories d h.sized.directory hde,h.sized.limit,fun k => ?_⟩
    rw [← h.sized.maps,maps_freed hde]
  · rw [hsame,hpeek va hva]

theorem exec_ok {path : CString} {argv : List CString} {junk : Bytes} {e : ℕ} {z : ℤ} (h : Owns R s.memory o)
    (hR : Manageable M.image.toLayout R) (hp : o e = .directory) (hpt : (s.image p).PageTable = page e)
    (he : exec M s p path argv junk = .ok (z,s')) :
    ∃ r files, fsFat12Open M s.files (s.image p).Cwd path false junk = .ok (r,files) ∧
      ((r = none ∧ z = -1 ∧ s' = { s with files := files }) ∨
      (∃ f m' files' o', r = some f ∧ z = -1 ∧ s' = { s with memory := m', files := files' } ∧ Owns R m' o' ∧
        counts files' = Function.update (counts files) f 0 ∧
        (o' = o ∨ CutShort M { s with files := files } f ∧ ∃ d, Built d o o')) ∨
      ∃ f x d m1 files1 o1 m' esp ptrs, r = some f ∧ z = 0 ∧
        loadImage M f { s with files := files } = .ok (some x,{ s with memory := m1, files := files1 }) ∧
        x.pgdir = page d ∧ x.memorySize < KERNBASE ∧ Built d o o1 ∧
        s' = { System.started { s with files := files1 } p path x esp with memory := m' } ∧
        Sized R m' (freed e o1) d x.memorySize ∧ StackHolds m' d x.memorySize esp argv ptrs ∧
        ∀ va, va + 4096 < x.memorySize → m'.peek d va = m1.peek d va) := by
  rw [exec,bind_eq_ok] at he
  obtain ⟨⟨r,files⟩,hopen,he⟩ := he
  refine ⟨r,files,hopen,?_⟩
  cases r with
  | none =>
    cases he
    exact .inl ⟨rfl,rfl,rfl⟩
  | some f =>
    change (loadImage M f { s with files := files } >>= _) = _ at he
    rw [bind_eq_ok] at he
    obtain ⟨⟨x,s1⟩,hload,he⟩ := he
    obtain ⟨m1,files1,o1,rfl,h1,hcount,⟨rfl,hleft⟩ | ⟨x,d,rfl,hx,hb,hother,hready⟩⟩ :=
      loadImage_ok (s := { s with files := files }) h hR (open_fresh hopen) hload
    · cases he
      exact .inr (.inl ⟨f,m1,files1,o1,rfl,rfl,rfl,h1,hcount,hleft⟩)
    have hde : d ≠ e := by
      rintro rfl
      rw [hb.fresh] at hp
      cases hp
    have hzero : (files1 f).ReferenceCount = 0 := by
      have := congrFun hcount f
      rwa [Function.update_self] at this
    obtain ⟨rfl,m2,esp,ptrs,rfl,hsized,hst,hpeek⟩ := runImage_ok (s := { s with memory := m1, files := files1 }) hready
      hR hx (hother.directories e hp hde.symm) hpt hde hzero he
    exact .inr (.inr ⟨f,x,d,m1,files1,o1,m2,esp,ptrs,rfl,rfl,hload,hx,hready.guarded.below,hb,rfl,hsized,hst,hpeek⟩)

end UoDOS.Kernel
