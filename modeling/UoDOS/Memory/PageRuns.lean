import UoDOS.Library.Transition
import UoDOS.Memory.DirectoryCopy

/-! # Every page has exactly one place

The state holds physical memory and the directories in use. Each move is one
completed call; a copy counts as a move when it succeeds.
-/
namespace UoDOS.Paging
open ByteMemory Transition

structure Space where
  memory : Memory
  directories : List ℕ

inductive Move
  | setup
  | allocate (pgdir oldsz newsz : ℕ)
  | release (pgdir oldsz newsz : ℕ)
  | free (pgdir : ℕ)
  | copy (pgdir MemorySize : ℕ)

/-- One call, on a directory in use and with sizes below `KERNBASE`. -/
def step (L : Layout) (s : Space) : Move → Option Space
  | .setup =>
    match setupKernelVirtualMemory L s.memory with
    | .ok (pgdir,m) => some ⟨m,if pgdir = 0 then s.directories else pgdir :: s.directories⟩
    | .error _ => none
  | .allocate pgdir oldsz newsz =>
    if pgdir ∈ s.directories ∧ oldsz < KERNBASE ∧ newsz < KERNBASE then
      match allocateMemoryAndPageTables L s.memory pgdir oldsz newsz with
      | .ok (_,m) => some ⟨m,s.directories⟩
      | .error _ => none
    else none
  | .release pgdir oldsz newsz =>
    if pgdir ∈ s.directories ∧ oldsz < KERNBASE ∧ newsz < KERNBASE then
      match releaseUserPages L s.memory pgdir oldsz newsz with
      | .ok (_,m) => some ⟨m,s.directories⟩
      | .error _ => none
    else none
  | .free pgdir =>
    if pgdir ∈ s.directories then
      match freeMemoryAndPageTable L s.memory pgdir with
      | .ok m => some ⟨m,s.directories.erase pgdir⟩
      | .error _ => none
    else none
  | .copy pgdir MemorySize =>
    if pgdir ∈ s.directories ∧ MemorySize < KERNBASE then
      match copyProcessPageTable L s.memory pgdir MemorySize with
      | .ok (d,m) => if d = 0 then none else some ⟨m,d :: s.directories⟩
      | .error _ => none
    else none

def Move.changes : Move → Option ℕ
  | .setup => none
  | .allocate pgdir _ _ => some pgdir
  | .release pgdir _ _ => some pgdir
  | .free pgdir => some pgdir
  | .copy _ _ => none

def InRange (vstart vend f : ℕ) : Prop := PGROUNDUP vstart ≤ page f ∧ page f + PGSIZE ≤ vend

def Started (L : Layout) (vstart vend : ℕ) (s : Space) : Prop :=
  L.kernelEnd ≤ vstart ∧ vstart < P2V PHYSTOP ∧ vend ≤ P2V PHYSTOP ∧ s.directories = [] ∧
  ∃ ram, freeMemoryRange L ⟨ram,0⟩ vstart vend = .ok s.memory

variable {L : Layout} {R : ℕ → Prop} {s t : Space} {o o' : Owner}

/-- The memory represents the owners, nothing is held between calls, and the
directories in use are the listed ones. -/
structure Sound (R : ℕ → Prop) (s : Space) (o : Owner) : Prop where
  owns : Owns R s.memory o
  settled : ∀ f, o f ≠ .held
  listed : ∀ v, v ∈ s.directories ↔ ∃ d, v = page d ∧ o d = .directory
  nodup : s.directories.Nodup

theorem Sound.directory_iff (h : Sound R s o) (d : ℕ) : page d ∈ s.directories ↔ o d = .directory := by
  rw [h.listed]
  exact ⟨fun ⟨x,hx,hxd⟩ => page_injective hx ▸ hxd,fun hd => ⟨d,rfl,hd⟩⟩

def Of (D : Set ℕ) (f : ℕ) (p : Place) : Prop :=
  (p = .directory ∧ f ∈ D) ∨ (∃ d ∈ D, ∃ i, p = .table d i) ∨ ∃ d ∈ D, ∃ i j, p = .user d i j

def Untouched (D : Set ℕ) (o o' : Owner) : Prop := ∀ f, Of D f (o f) ∨ Of D f (o' f) → o' f = o f

theorem Within.untouched {d : ℕ} {D : Set ℕ} (h : Within d o o') (hd : d ∉ D) : Untouched D o o' := by
  intro f hf
  have := h f
  simp only [Of,Movable] at *
  grind

theorem untouched_new {d : ℕ} {D : Set ℕ} (h : Within d (Function.update o d .directory) o') (hd : o d = .free)
    (hD : ∀ x ∈ D, o x = .directory) : Untouched D o o' := by
  have hdD : d ∉ D := fun hm => by simp [hD d hm] at hd
  intro f hf
  by_cases hfd : f = d
  · subst hfd
    have : o' f = .directory := (h.iff (by simp [Movable])).mpr (by simp)
    simp only [Of,this,hd] at hf
    simp [hdD] at hf
  · have := h.untouched hdD f
    rw [Function.update_of_ne hfd] at this
    exact this hf

theorem untouched_freed {d : ℕ} {D : Set ℕ} (hd : d ∉ D) : Untouched D o (freed d o) := by
  intro f hf
  simp only [Of,freed] at *
  cases hof : o f with
  | directory => simp only [hof] at hf ⊢; grind
  | table => simp only [hof] at hf ⊢; grind
  | user => simp only [hof] at hf ⊢; grind
  | _ => simp_all

section Moves
variable {m : Memory} {d : ℕ}

theorem Sound.within (h : Sound R s o) (ho : Owns R m o') (hw : Within d o o') :
    Sound R ⟨m,s.directories⟩ o' := by
  refine ⟨ho,fun f hf => h.settled f ((hw.iff (by simp [Movable])).mp hf),fun v => ?_,h.nodup⟩
  rw [h.listed]
  exact exists_congr (fun x => and_congr_right (fun _ => (hw.iff (by simp [Movable])).symm))

theorem Sound.new (h : Sound R s o) (hd : o d = .free) (ho : Owns R m o')
    (hw : Within d (Function.update o d .directory) o') : Sound R ⟨m,page d :: s.directories⟩ o' := by
  have hdir : ∀ x, o' x = .directory ↔ x = d ∨ o x = .directory := by
    intro x
    rw [hw.iff (by simp [Movable])]
    by_cases hx : x = d
    · subst hx; simp
    · simp [hx]
  refine ⟨ho,fun f hf => ?_,fun v => ?_,List.nodup_cons.mpr ⟨fun hm => ?_,h.nodup⟩⟩
  · rw [hw.iff (by simp [Movable])] at hf
    by_cases hfd : f = d
    · subst hfd; simp at hf
    · exact h.settled f (by simpa [hfd] using hf)
  · simp only [List.mem_cons,h.listed,hdir]
    constructor
    · rintro (rfl | ⟨x,rfl,hx⟩)
      · exact ⟨d,rfl,.inl rfl⟩
      · exact ⟨x,rfl,.inr hx⟩
    · rintro ⟨x,rfl,rfl | hx⟩
      · exact .inl rfl
      · exact .inr ⟨x,rfl,hx⟩
  · obtain ⟨x,hx,hxd⟩ := (h.listed _).mp hm
    rw [← page_injective hx,hd] at hxd
    cases hxd

theorem Sound.freed (h : Sound R s o) (ho : Owns R m (freed d o)) :
    Sound R ⟨m,s.directories.erase (page d)⟩ (freed d o) := by
  refine ⟨ho,fun f hf => ?_,fun v => ?_,h.nodup.erase _⟩
  · have := h.settled f
    simp only [Paging.freed] at hf
    split at hf <;> grind
  · have hdir : ∀ x, Paging.freed d o x = .directory ↔ o x = .directory ∧ x ≠ d := by
      intro x
      simp only [Paging.freed]
      split <;> grind
    rw [h.nodup.mem_erase_iff,h.listed]
    simp only [hdir]
    constructor
    · rintro ⟨hne,x,rfl,hx⟩
      exact ⟨x,rfl,hx,fun hxd => hne (hxd ▸ rfl)⟩
    · rintro ⟨x,rfl,hx,hne⟩
      exact ⟨fun hp => hne (page_injective hp),x,rfl,hx⟩

theorem Sound.step {mv : Move} (h : Sound R s o) (hR : Manageable L R) (he : step L s mv = some t) :
    ∃ o', Sound R t o' ∧ ∀ D : Set ℕ, (∀ d ∈ D, o d = .directory) →
      (∀ d ∈ D, mv.changes ≠ some (page d)) → Untouched D o o' := by
  cases mv with
  | setup =>
    simp only [Paging.step] at he
    rcases h.owns.setup hR with ⟨m,hs,ho,-⟩ | ⟨d,m,o',hs,hd,ho,hg⟩
    · rw [hs] at he
      cases he
      exact ⟨o,h.within ho (Within.refl 0 o),fun _ _ _ _ _ => rfl⟩
    · rw [hs] at he
      simp only [page_ne_zero,↓reduceIte] at he
      cases he
      exact ⟨o',h.new hd ho hg.within,fun D hD _ => untouched_new hg.within hd hD⟩
  | allocate v oldsz newsz =>
    simp only [Paging.step] at he
    split_ifs at he with hc
    split at he
    · rename_i r m ha
      cases he
      obtain ⟨d,rfl,hd⟩ := (h.listed v).mp hc.1
      by_cases hle : oldsz ≤ newsz
      · obtain ⟨o',ho,hw,-⟩ := h.owns.allocate_pages hR hd hle hc.2.2 ha
        exact ⟨o',h.within ho hw,fun D _ hn => hw.untouched (fun hm => hn d hm rfl)⟩
      · rw [allocateMemoryAndPageTables,if_neg (by omega),if_pos (by omega)] at ha
        cases ha
        exact ⟨o,h.within h.owns (Within.refl d o),fun _ _ _ _ _ => rfl⟩
    · cases he
  | release v oldsz newsz =>
    simp only [Paging.step] at he
    split_ifs at he with hc
    obtain ⟨d,rfl,hd⟩ := (h.listed v).mp hc.1
    obtain ⟨m,hr,ho⟩ := h.owns.release_pages oldsz newsz hR hd hc.2.1.le
    simp only [hr] at he
    cases he
    exact ⟨_,h.within ho within_released,fun D _ hn => within_released.untouched (fun hm => hn d hm rfl)⟩
  | free v =>
    simp only [Paging.step] at he
    split_ifs at he with hc
    obtain ⟨d,rfl,hd⟩ := (h.listed v).mp hc
    obtain ⟨m,hr,ho⟩ := h.owns.free_directory hR hd
    simp only [hr] at he
    cases he
    exact ⟨_,h.freed ho,fun D _ hn => untouched_freed (fun hm => hn d hm rfl)⟩
  | copy v size =>
    simp only [Paging.step] at he
    split_ifs at he with hc
    obtain ⟨d,rfl,hd⟩ := (h.listed v).mp hc.1
    split at he
    · rename_i r m hcp
      split_ifs at he with hz
      cases he
      rcases h.owns.copy hR hd hc.2.le hcp with ⟨c,o',rfl,hcf,ho,hw,-⟩ | ⟨rfl,-⟩
      · exact ⟨o',h.new hcf ho hw,fun D hD _ => untouched_new hw hcf hD⟩
      · exact absurd rfl hz
    · cases he

end Moves

section Start
variable {m m' : Memory} {vstart vend n fuel : ℕ}

theorem tree_of_loose {w : ℕ → ℕ → ℕ} (h : ∀ f, o f = .free ∨ o f = .foreign) : Tree w o := by
  refine ⟨fun t d i => ?_,fun f d i j => ?_⟩
  · rcases h t with ht | ht <;> rcases h d with hd | hd <;> simp [ht,hd]
  · have hnone : ∀ t, o t ≠ .table d i := fun t ht => by rcases h t with h' | h' <;> simp [h'] at ht
    rcases h f with hf | hf <;> simp [hf,hnone]

def rangeOwner (n₀ n : ℕ) : Owner := fun f => if n₀ ≤ f ∧ f < n then .free else .foreign

theorem free_loop (n0 fuel : ℕ) (hv : vend ≤ P2V PHYSTOP) (hk : L.kernelEnd ≤ page n0) (hn : n0 ≤ n)
    (hp : page n < P2V PHYSTOP + PGSIZE) (h : Owns (fun f => n0 ≤ f ∧ f < n) m (rangeOwner n0 n))
    (hb : ∀ f, n0 ≤ f → f < n → page f + PGSIZE ≤ vend) (hfuel : vend < page (n + fuel + 1)) :
    ∃ m' e, freeLoop L vend (fuel + 1) m (page n) = .ok m' ∧
      Owns (fun f => n0 ≤ f ∧ f < e) m' (rangeOwner n0 e) ∧ ∀ f, n0 ≤ f → (f < e ↔ page f + PGSIZE ≤ vend) := by
  have hstop : ∀ k, page (k + 1) > vend → (∀ f, n0 ≤ f → f < k → page f + PGSIZE ≤ vend) →
      ∀ f, n0 ≤ f → (f < k ↔ page f + PGSIZE ≤ vend) := by
    intro k hgt hb f hf
    refine ⟨hb f hf,fun hfv => ?_⟩
    by_contra hfk
    simp only [page,PGSIZE] at hgt hfv
    omega
  induction fuel generalizing m n with
  | zero =>
    have hnext : (page n + PGSIZE) % 2^32 = page (n + 1) := by
      simp only [page,KERNBASE,PGSIZE,P2V,PHYSTOP] at hp ⊢
      omega
    exact ⟨m,n,by rw [freeLoop,hnext,if_neg (not_le.mpr hfuel)],h,hstop n hfuel hb⟩
  | succ fuel ih =>
    rw [freeLoop]
    have hnext : (page n + PGSIZE) % 2^32 = page (n + 1) := by
      simp only [page,KERNBASE,PGSIZE,P2V,PHYSTOP] at hp ⊢
      omega
    rw [hnext]
    by_cases hle : page (n + 1) ≤ vend
    · rw [if_pos hle]
      have hlt : 4096 * n < PHYSTOP := by
        simp only [page,KERNBASE,P2V,PHYSTOP] at hle hv ⊢
        omega
      have hkn : L.kernelEnd ≤ page n := by simp only [page] at hk ⊢; omega
      have hF : m.FreeList < 2^32 := h.freeList_lt (L := L) (fun f hf => by
        simp only [page] at hkn hk ⊢
        omega)
      obtain ⟨m1,hok,hF1,hl1,hw1⟩ := free_page (L := L) (R := fun f => f = n) (m := m) (f := n)
        (by rintro f rfl; exact ⟨hkn,hlt⟩) rfl hF
      simp only [hok,bind,Except.bind]
      have hupd : Function.update (rangeOwner n0 n) n .free = rangeOwner n0 (n + 1) := by
        funext f
        simp only [rangeOwner,Function.update_apply]
        split_ifs <;> first | rfl | omega
      refine ih (by omega) ?_ ⟨fun f => ?_,?_,?_⟩ (fun f h1 h2 => ?_) ?_
      · simp only [page,KERNBASE,PGSIZE,P2V,PHYSTOP] at hle hv ⊢
        omega
      · simp [rangeOwner]
      · rw [← hupd]
        exact h.freeList_cons (by simp [rangeOwner]) hF1 hl1 (fun g hg _ => hw1 g 0 hg (by norm_num))
      · refine tree_of_loose (fun f => ?_)
        simp only [rangeOwner]
        split_ifs <;> simp
      · by_cases hfn : f = n
        · subst hfn; simpa [page,PGSIZE,Nat.mul_add,Nat.add_assoc] using hle
        · exact hb f h1 (by omega)
      · rw [show n + 1 + fuel + 1 = n + (fuel + 1) + 1 by omega]
        exact hfuel
    · rw [if_neg hle]
      exact ⟨m,n,rfl,h,hstop n (not_le.mp hle) hb⟩

theorem free_range (ram : Bytes) (vstart vend : ℕ) (hk : L.kernelEnd ≤ vstart) (hv : vstart < P2V PHYSTOP)
    (he : vend ≤ P2V PHYSTOP) : ∃ m o, freeMemoryRange L ⟨ram,0⟩ vstart vend = .ok m ∧
      Owns (InRange vstart vend) m o ∧ Manageable L (InRange vstart vend) ∧ ∀ f, o f = .free ∨ o f = .foreign := by
  have hka := L.kernelEnd_above
  have hda := L.data_above
  simp only [KERNLINK,KERNBASE,EXTMEM,P2V,PHYSTOP] at hda hv
  have hround : PGROUNDUP vstart = page ((vstart + 4095) / 4096 - 2^19) := by
    rw [pgroundup_eq (by omega)]
    simp only [page,KERNBASE]
    omega
  obtain ⟨m,e,hf,ho,hiff⟩ := free_loop (L := L) (m := ⟨ram,0⟩) ((vstart + 4095) / 4096 - 2^19) (2^20 - 1) he
    (n := (vstart + 4095) / 4096 - 2^19)
    (by simp only [page,KERNBASE]; omega) le_rfl (by simp only [page,KERNBASE,P2V,PHYSTOP,PGSIZE]; omega)
    ⟨fun f => by simp [rangeOwner],⟨[],rfl,List.nodup_nil,fun f => by simp [rangeOwner]⟩,
      tree_of_loose (fun f => by simp [rangeOwner])⟩ (fun f h1 h2 => by omega)
    (by simp only [page,KERNBASE,P2V,PHYSTOP] at he ⊢; omega)
  have hR : (fun f => (vstart + 4095) / 4096 - 2^19 ≤ f ∧ f < e) = InRange vstart vend := by
    funext f
    simp only [InRange,hround,eq_iff_iff]
    constructor
    · rintro ⟨h1,h2⟩
      exact ⟨by simp only [page]; omega,(hiff f h1).mp h2⟩
    · rintro ⟨h1,h2⟩
      have h3 : (vstart + 4095) / 4096 - 2^19 ≤ f := by simp only [page] at h1; omega
      exact ⟨h3,(hiff f h3).mpr h2⟩
  rw [hR] at ho
  refine ⟨m,_,by rw [freeMemoryRange,hround]; exact hf,ho,fun f hf => ?_,fun f => ?_⟩
  · obtain ⟨h1,h2⟩ := hf
    rw [hround] at h1
    simp only [page,KERNBASE,PGSIZE,P2V,PHYSTOP] at h1 h2 he ⊢
    omega
  · simp only [rangeOwner]
    split_ifs <;> simp

theorem free_memory (ram : Bytes) {v : ℕ} (hk : L.kernelEnd ≤ v) (hv : v ≤ page 1024) :
    ∃ m o, freeMemoryRange L ⟨ram,0⟩ v (P2V PHYSTOP) = .ok m ∧ Owns (InRange v (P2V PHYSTOP)) m o ∧
      Manageable L (InRange v (P2V PHYSTOP)) ∧ ¬ Scarce 4096 o := by
  simp only [page,KERNBASE] at hv
  obtain ⟨m,o,hf,ho,hR,hloose⟩ := free_range ram v (P2V PHYSTOP) hk
    (by simp only [P2V,PHYSTOP,KERNBASE]; omega) le_rfl
  refine ⟨m,o,hf,ho,hR,fun hsc => ?_⟩
  have hcard := hsc (Finset.Ico 1024 8192) (fun f hf => ?_)
  · rw [Nat.card_Ico] at hcard
    omega
  · rw [Finset.mem_Ico] at hf
    have hin : InRange v (P2V PHYSTOP) f := by
      constructor
      · rw [pgroundup_eq (by omega)]
        simp only [page,KERNBASE]
        omega
      · simp only [page,KERNBASE,PGSIZE,P2V,PHYSTOP]
        omega
    rcases hloose f with hfree | hforeign
    · exact hfree
    · exact absurd hin ((ho.foreign f).mp hforeign)

theorem Started.sound (h : Started L vstart vend s) :
    ∃ o, Sound (InRange vstart vend) s o ∧ Manageable L (InRange vstart vend) := by
  obtain ⟨hk,hv,he,hd,ram,hf⟩ := h
  obtain ⟨m,o,hm,ho,hR,hloose⟩ := free_range (L := L) ram _ _ hk hv he
  rw [hf] at hm
  cases hm
  refine ⟨o,⟨ho,fun f => ?_,fun v => ?_,by simp [hd]⟩,hR⟩
  · rcases hloose f with hf | hf <;> simp [hf]
  · simp only [hd,List.not_mem_nil,false_iff,not_exists,not_and]
    intro d _
    rcases hloose d with hd | hd <;> simp [hd]

end Start

section Runs
variable {vstart vend : ℕ} {u : Space} {o'' : Owner} {ms : List Move}

theorem Untouched.trans {D : Set ℕ} (h : Untouched D o o') (h' : Untouched D o' o'') : Untouched D o o'' := by
  intro f hf
  have h1 := h f
  have h2 := h' f
  grind

theorem Sound.of_runs (h : Sound R s o) (hR : Manageable L R) (hr : Runs (graph (Paging.step L)) s ms t)
    (D : Set ℕ) (hD : ∀ d ∈ D, o d = .directory) (hms : ∀ mv ∈ ms, ∀ d ∈ D, mv.changes ≠ some (page d)) :
    ∃ o', Sound R t o' ∧ Untouched D o o' := by
  induction hr with
  | refl => exact ⟨o,h,fun _ _ => rfl⟩
  | snoc hr he ih =>
    obtain ⟨o1,h1,hu1⟩ := ih (fun mv hm => hms mv (by simp [hm]))
    have hD1 : ∀ d ∈ D, o1 d = .directory := fun d hd =>
      (hu1 d (.inl (.inl ⟨hD d hd,hd⟩))).trans (hD d hd)
    obtain ⟨o2,h2,hu2⟩ := h1.step hR he
    exact ⟨o2,h2,hu1.trans (hu2 D hD1 (fun d hd => hms _ (by simp) d hd))⟩

theorem FreeChain.unique {m : Memory} {v : ℕ} {F F' : List ℕ} (h : FreeChain m v F) (h' : FreeChain m v F') :
    F = F' := by
  induction F generalizing v F' with
  | nil =>
    cases F' with
    | nil => rfl
    | cons g F' => exact absurd (h'.1.symm.trans h) (page_ne_zero g)
  | cons f F ih =>
    cases F' with
    | nil => exact absurd (h.1.symm.trans h') (page_ne_zero f)
    | cons g F' =>
      obtain rfl : f = g := page_injective (h.1.symm.trans h'.1)
      rw [ih h.2 h'.2]

/-- Page `f` is at the given place, read off memory, the free list and the
directories in use. -/
def Place.Holds (s : Space) (F : List ℕ) (f : ℕ) : Place → Prop
  | .foreign => False
  | .free => f ∈ F
  | .held => False
  | .directory => page f ∈ s.directories
  | .table d i => page d ∈ s.directories ∧ i < 1024 ∧
      s.memory.word d i % 2 = 1 ∧ s.memory.word d i / 4096 = f
  | .user d i j => page d ∈ s.directories ∧ i < 512 ∧ j < 1024 ∧ s.memory.word d i % 2 = 1 ∧
      s.memory.word (s.memory.word d i / 4096) j % 2 = 1 ∧ s.memory.word (s.memory.word d i / 4096) j / 4096 = f

theorem Sound.holds_iff (h : Sound R s o) {F : List ℕ} (hF : ∀ f, f ∈ F ↔ o f = .free) {f : ℕ} {p : Place} :
    p.Holds s F f ↔ o f = p ∧ p ≠ .foreign := by
  cases p with
  | foreign => simp [Place.Holds]
  | free => simp [Place.Holds,hF]
  | held => simp [Place.Holds,h.settled]
  | directory => simp [Place.Holds,h.directory_iff]
  | table d i => simp [Place.Holds,h.directory_iff,h.owns.tree.table]
  | user d i j =>
    simp only [Place.Holds,h.directory_iff,h.owns.tree.user,h.owns.tree.table,ne_eq,reduceCtorEq,not_false_eq_true,and_true]
    constructor
    · rintro ⟨hd,hi,hj,hp,hq,hf⟩
      exact ⟨_,⟨hd,by omega,hp,rfl⟩,hi,hj,hq,hf⟩
    · rintro ⟨t,⟨hd,-,hp,rfl⟩,hi,hj,hq,hf⟩
      exact ⟨hd,hi,hj,hp,hq,hf⟩

theorem Sound.free_restored (h : Sound R s o) (h' : Sound R t o')
    (hu : Untouched {d | o d = .directory} o o') (hd : ∀ v, v ∈ t.directories ↔ v ∈ s.directories) (f : ℕ) :
    o f = .free ↔ o' f = .free := by
  have hdir : ∀ d, o' d = .directory ↔ o d = .directory := fun d => by
    rw [← h.directory_iff,← h'.directory_iff,hd]
  have hof : ∀ {w : ℕ → ℕ → ℕ} {q : Owner}, Tree w q → (∀ d, q d = .directory → o d = .directory) →
      q f ≠ .free → q f ≠ .foreign → q f ≠ .held → Of {d | o d = .directory} f (q f) := by
    intro w q hq hqd h1 h2 h3
    cases hqf : q f with
    | foreign => exact absurd hqf h2
    | free => exact absurd hqf h1
    | held => exact absurd hqf h3
    | directory => exact .inl ⟨rfl,hqd f hqf⟩
    | table d i => exact .inr (.inl ⟨d,hqd d ((hq.table _ _ _).mp hqf).1,i,rfl⟩)
    | user d i j =>
      obtain ⟨t,ht,-⟩ := (hq.user _ _ _ _).mp hqf
      exact .inr (.inr ⟨d,hqd d ((hq.table _ _ _).mp ht).1,i,j,rfl⟩)
  have hfor : o f = .foreign ↔ o' f = .foreign := by rw [h.owns.foreign,h'.owns.foreign]
  constructor
  · intro hf
    by_contra hn
    have := hu f (.inr (hof h'.owns.tree (fun d => (hdir d).mp) hn
      (fun hx => by simp [hf] at hfor; exact hfor hx) (h'.settled f)))
    exact hn (this.trans hf)
  · intro hf
    by_contra hn
    have := hu f (.inl (hof h.owns.tree (fun d hd => hd) hn
      (fun hx => by rw [hx] at hfor; simp [hf] at hfor) (h.settled f)))
    exact hn (this.symm.trans hf)

/-- From the free list that freeMemoryRange builds, after any sequence of calls: the
free list has no page twice, every page of the range is at exactly one place, and
only those pages are. From there on, calls that change none of the directories in
use and leave no new one behind, such as those that build, resize and free an
address space, give back exactly the same free pages. -/
theorem page_has_one_place {s t : Space} (hs : Started L vstart vend s) (h : Runs (graph (step L)) s ms t) :
    (∃ F, FreeChain t.memory t.memory.FreeList F ∧ F.Nodup ∧
      ∀ f, (InRange vstart vend f → ∃! p : Place, p.Holds t F f) ∧
        ∀ p : Place, p.Holds t F f → InRange vstart vend f) ∧
    ∀ (ms' : List Move) (u : Space), Runs (graph (step L)) t ms' u →
      (∀ mv ∈ ms', ∀ v ∈ t.directories, mv.changes ≠ some v) →
      (∀ v, v ∈ u.directories ↔ v ∈ t.directories) →
      ∀ F F', FreeChain t.memory t.memory.FreeList F → FreeChain u.memory u.memory.FreeList F' →
        ∀ f, f ∈ F ↔ f ∈ F' := by
  obtain ⟨o₀,h₀,hR⟩ := hs.sound
  obtain ⟨o,ho,-⟩ := h₀.of_runs hR h ∅ (by simp) (by simp)
  obtain ⟨F,hF,hnd,hmem⟩ := ho.owns.free
  refine ⟨⟨F,hF,hnd,fun f => ⟨fun hf => ⟨o f,?_,fun p hp => ?_⟩,fun p hp => ?_⟩⟩,?_⟩
  · exact (ho.holds_iff hmem).mpr ⟨rfl,fun hn => (ho.owns.foreign f).mp hn hf⟩
  · exact ((ho.holds_iff hmem).mp hp).1.symm
  · obtain ⟨rfl,hne⟩ := (ho.holds_iff hmem).mp hp
    exact ho.owns.managed hne
  · intro ms' u hr hms hd F₁ F₂ hF₁ hF₂ f
    obtain ⟨o',ho',hu⟩ := ho.of_runs hR hr {d | o d = .directory} (fun _ hd => hd)
      (fun mv hm d hd => hms mv hm (page d) ((ho.listed _).mpr ⟨d,rfl,hd⟩))
    obtain ⟨F',hF',-,hmem'⟩ := ho'.owns.free
    rw [hF₁.unique hF,hF₂.unique hF',hmem,hmem',ho.free_restored ho' hu hd]

theorem smallLayout_aligned : 0x80101000 % PGSIZE = 0 := by decide

theorem smallLayout_above : KERNLINK < 0x80101000 := by decide

def smallLayout : Layout where
  data := 0x80101000
  kernelEnd := 0x80102000
  data_aligned := smallLayout_aligned
  data_above := smallLayout_above
  kernelEnd_above := by decide
  kernelEnd_below := by decide

def onePage : Option Space :=
  (freeMemoryRange smallLayout ⟨fun _ => 0,0⟩ 0x80102000 0x80103000).toOption.map fun m => ⟨m,[]⟩

theorem page_has_one_place_onePage : ∃ (s t : Space) (F : List ℕ),
    Started smallLayout 0x80102000 0x80103000 s ∧ Runs (graph (step smallLayout)) s [.setup] t ∧
    FreeChain t.memory t.memory.FreeList F ∧ ∃! p : Place, p.Holds t F 258 := by
  have hsome : ((onePage.bind fun s => step smallLayout s .setup).isSome) = true := by decide +kernel
  obtain ⟨t,ht⟩ := Option.isSome_iff_exists.mp hsome
  obtain ⟨s,hs,hst⟩ := Option.bind_eq_some_iff.mp ht
  have hstart : Started smallLayout 0x80102000 0x80103000 s := by
    refine ⟨by decide,by decide,by decide,?_⟩
    obtain ⟨m,hm,rfl⟩ := Option.map_eq_some_iff.mp hs
    refine ⟨rfl,fun _ => 0,?_⟩
    cases hf : freeMemoryRange smallLayout ⟨fun _ => 0,0⟩ 0x80102000 0x80103000 with
    | error e => rw [hf] at hm; cases hm
    | ok m' => rw [hf] at hm; cases hm; rfl
  have hrun : Runs (graph (step smallLayout)) s [.setup] t := Runs.one hst
  obtain ⟨F,hF,-,hone⟩ := (page_has_one_place hstart hrun).1
  exact ⟨s,t,F,hstart,hrun,hF,(hone 258).1 ⟨by decide,by decide⟩⟩

end Runs

end UoDOS.Paging
