import UoDOS.Memory.ReleasedPages

/-! # Building, growing, copying and freeing a directory

An operation on directory `d` moves pages between the free list, the tables of
`d` and its user entries, and touches nothing else.
-/
namespace UoDOS.Paging
open ByteMemory Function

variable {L : Layout} {R : ℕ → Prop} {m m' : Memory} {o o' o'' : Owner}
  {d k n : ℕ}

theorem Owns.detach (h : Owns R m o) (hu : ∀ f i j, o f ≠ .user d i j) : Owns R m (detached d o) := by
  refine ⟨fun f => by rw [detached_foreign,h.foreign],?_,h.tree.detach hu⟩
  obtain ⟨F,hc,hd,hm⟩ := h.free
  exact ⟨F,hc,hd,fun f => by rw [hm,detached_free]⟩

theorem Owns.free_tables_words (is : List ℕ) (h : Owns R m o) (hR : Manageable L R) (hd : o d = .held)
    (hnd : is.Nodup) (hlt : ∀ i ∈ is, i < 1024)
    (hheld : ∀ i ∈ is, m.word d i % 2 = 1 → o (m.word d i / 4096) = .held ∧ m.word d i / 4096 ≠ d)
    (hinj : ∀ i ∈ is, ∀ i' ∈ is, m.word d i % 2 = 1 → m.word d i' % 2 = 1 →
      m.word d i / 4096 = m.word d i' / 4096 → i = i') :
    ∃ m' o', freeTables L (page d) is m = .ok m' ∧ Owns R m' o' ∧
      (∀ f, (o' f = .free ∧ ∃ i ∈ is, m.word d i % 2 = 1 ∧ m.word d i / 4096 = f) ∨
        (o' f = o f ∧ ∀ i ∈ is, m.word d i % 2 = 1 → m.word d i / 4096 ≠ f)) ∧
      ∀ g j, j < 1024 → o g ≠ .held → m'.word g j = m.word g j := by
  induction is generalizing m o with
  | nil => exact ⟨m,o,rfl,h,fun f => .inr ⟨rfl,by simp⟩,fun _ _ _ _ => rfl⟩
  | cons i is ih =>
    obtain ⟨hi,hnd⟩ := List.nodup_cons.mp hnd
    have hload := load_page m (h.lt hR (f := d) (by simp [hd])) (hlt i (by simp))
    simp only [freeTables,hload,present_iff]
    by_cases hp : m.word d i % 2 = 1
    · obtain ⟨hh,hne⟩ := hheld i (by simp) hp
      obtain ⟨m1,hf,h1,hw⟩ := h.free_held hR hh
      have hword : ∀ k, k < 1024 → m1.word d k = m.word d k := fun k hk => hw d k (Ne.symm hne) hk
      obtain ⟨m',o',hr,ho,hc,hk⟩ := ih h1 (by simp [Ne.symm hne,hd]) hnd (fun k hk => hlt k (by simp [hk]))
        (fun k hk hkp => by
          rw [hword k (hlt k (by simp [hk]))] at hkp ⊢
          have hki : m.word d k / 4096 ≠ m.word d i / 4096 := fun he =>
            hi (hinj k (by simp [hk]) i (by simp) hkp hp he ▸ hk)
          simpa [hki] using hheld k (by simp [hk]) hkp)
        (fun k hk k' hk' => by
          rw [hword k (hlt k (by simp [hk])),hword k' (hlt k' (by simp [hk']))]
          exact hinj k (by simp [hk]) k' (by simp [hk']))
      refine ⟨m',o',?_,ho,fun f => ?_,fun g j hj hg => ?_⟩
      · rw [if_pos hp,pte_addr (word_lt _ _ _),p2v_frame (h.lt hR (by simp [hh])),hf]
        exact hr
      · rcases hc f with ⟨hfree,k,hk,hkp,hkf⟩ | ⟨heq,hnot⟩
        · rw [hword k (hlt k (by simp [hk]))] at hkp hkf
          exact .inl ⟨hfree,k,by simp [hk],hkp,hkf⟩
        · by_cases hfi : m.word d i / 4096 = f
          · exact .inl ⟨by rw [heq,← hfi]; simp,i,by simp,hp,hfi⟩
          · refine .inr ⟨by simp [heq,Ne.symm hfi],fun k hk hkp => ?_⟩
            rcases List.mem_cons.mp hk with rfl | hk
            · exact hfi
            · rw [← hword k (hlt k (by simp [hk]))] at hkp ⊢
              exact hnot k hk hkp
      · have hgi : g ≠ m.word d i / 4096 := by rintro rfl; exact hg hh
        rw [hk g j hj (by rwa [update_of_ne hgi]),hw g j hgi hj]
    · obtain ⟨m',o',hr,ho,hc,hk⟩ := ih h hd hnd (fun k hk => hlt k (by simp [hk]))
        (fun k hk => hheld k (by simp [hk])) (fun k hk k' hk' => hinj k (by simp [hk]) k' (by simp [hk']))
      refine ⟨m',o',by rw [if_neg hp]; exact hr,ho,fun f => ?_,hk⟩
      have := hc f
      grind

def freed (d : ℕ) (o : Owner) : Owner := fun f =>
  match o f with
  | .directory => if f = d then .free else .directory
  | .table d' i => if d' = d then .free else .table d' i
  | .user d' i j => if d' = d then .free else .user d' i j
  | p => p

theorem Owns.free_directory_others (h : Owns R m o) (hR : Manageable L R) (hd : o d = .directory) :
    ∃ m', freeMemoryAndPageTable L m (page d) = .ok m' ∧ Owns R m' (freed d o) ∧
      Others d m o m' (freed d o) := by
  obtain ⟨m1,hr,h₁,hs1⟩ := h.release_pages_spares KERNBASE 0 hR hd le_rfl
  have happ := fun f => released_apply d 0 KERNBASE f o
  have hu : ∀ f i j, released d 0 KERNBASE o f ≠ .user d i j := by
    intro f i j he
    have hb := h₁.user_bounds he
    rcases happ f with ⟨i',j',-,-,-,hfree⟩ | ⟨hn,heq⟩
    · rw [hfree] at he; cases he
    · refine hn i j (heq ▸ he) ⟨by omega,?_⟩
      simp only [KERNBASE]
      omega
  have h₂ := h₁.detach hu
  have hd1 : released d 0 KERNBASE o d = .directory := by have := happ d; grind
  have htab : ∀ i, i < 1024 → m1.word d i % 2 = 1 →
      released d 0 KERNBASE o (m1.word d i / 4096) = .table d i :=
    fun i hi hp => (h₁.tree.table _ _ _).mpr ⟨hd1,hi,hp,rfl⟩
  have hheld : ∀ i ∈ List.range NPDENTRIES, m1.word d i % 2 = 1 →
      detached d (released d 0 KERNBASE o) (m1.word d i / 4096) = .held ∧ m1.word d i / 4096 ≠ d := by
    intro i hi hp
    have ht := htab i (List.mem_range.mp hi) hp
    refine ⟨detached_held.mpr (.inr (.inr ⟨i,ht⟩)),fun he => ?_⟩
    rw [he,hd1] at ht
    cases ht
  have hinj : ∀ i ∈ List.range NPDENTRIES, ∀ i' ∈ List.range NPDENTRIES, m1.word d i % 2 = 1 →
      m1.word d i' % 2 = 1 → m1.word d i / 4096 = m1.word d i' / 4096 → i = i' := by
    intro i hi i' hi' hp hp' he
    have h1 := htab i (List.mem_range.mp hi) hp
    have h2 := htab i' (List.mem_range.mp hi') hp'
    rw [he,h2] at h1
    cases h1
    rfl
  obtain ⟨m2,o2,hf,h3,hc,hw2⟩ := h₂.free_tables_words (List.range NPDENTRIES) hR
    (detached_held.mpr (.inr (.inl ⟨hd1,rfl⟩))) List.nodup_range (fun i hi => List.mem_range.mp hi) hheld hinj
  have hd2 : o2 d = .held := by
    rcases hc d with ⟨-,i,hi,hp,he⟩ | ⟨he,-⟩
    · exact absurd he (hheld i hi hp).2
    · rw [he]
      exact detached_held.mpr (.inr (.inl ⟨hd1,rfl⟩))
  obtain ⟨m3,hf3,h4,hw3⟩ := h3.free_held hR hd2
  have hfinal : update o2 d .free = freed d o := by
    funext f
    by_cases hfd : f = d
    · subst hfd; simp [freed,hd]
    rw [update_of_ne hfd]
    rcases hc f with ⟨hfree,i,hi,hp,he⟩ | ⟨heq,hnot⟩
    · have ht := htab i (List.mem_range.mp hi) hp
      rw [he] at ht
      have hof : o f = .table d i := by have := happ f; grind
      simp [freed,hof,hfree]
    · rw [heq]
      rcases happ f with ⟨i,j,hof,-,-,hrel⟩ | ⟨hn,hrel⟩
      · simp [freed,detached,hof,hrel]
      · simp only [freed,detached,hrel]
        cases hof : o f with
        | directory => simp [hfd]
        | table d' i =>
          have hne : d' ≠ d := by
            rintro rfl
            obtain ⟨-,hi,hp,he⟩ := (h₁.tree.table _ _ _).mp (hrel.trans hof)
            exact hnot i (List.mem_range.mpr hi) hp he
          simp [hne]
        | user d' i j =>
          have hne : d' ≠ d := by
            rintro rfl
            exact hu f i j (hrel.trans hof)
          simp [hne]
        | _ => rfl
  refine ⟨m3,?_,by rwa [← hfinal],?_⟩
  · rw [freeMemoryAndPageTable,if_neg (page_ne_zero d),hr]
    simp only [bind,Except.bind,hf,hf3]
  · -- the user pages first, then the tables, then the directory itself
    have hdet : Others d m1 (released d 0 KERNBASE o) m1 (detached d (released d 0 KERNBASE o)) :=
      ⟨fun e he hn => detached_directory.mpr ⟨he,hn⟩,fun f e i j hf _ => detached_user.mpr hf,
        fun _ _ _ _ _ => rfl,fun _ _ _ _ _ _ _ _ => rfl⟩
    have htabs : Others d m1 (detached d (released d 0 KERNBASE o)) m2 o2 := by
      refine h₂.others_held (fun f hf => ?_) hw2
      rcases hc f with ⟨-,i,hi,hp,he⟩ | ⟨he,-⟩
      · exact absurd (he ▸ (hheld i hi hp).1) hf
      · exact he
    have hlast : Others d m2 o2 m3 (update o2 d .free) := by
      refine h3.others_held (fun f hn => ?_) (fun g j hj hg => hw3 g j ?_ hj)
      · exact update_of_ne (by rintro rfl; exact hn hd2) ..
      · rintro rfl
        exact hg hd2
    rw [← hfinal]
    exact (hs1.others.trans hdet).trans (htabs.trans hlast)

theorem Owns.free_directory_keeps (h : Owns R m o) (hR : Manageable L R) (hd : o d = .directory) :
    ∃ m', freeMemoryAndPageTable L m (page d) = .ok m' ∧ Owns R m' (freed d o) ∧
      ∀ D : Set ℕ, (∀ d ∈ D, o d = .directory) → d ∉ D → Keeps D m m' := by
  obtain ⟨m',hf,ho,hx⟩ := h.free_directory_others hR hd
  exact ⟨m',hf,ho,fun D hD hdD => hx.keeps hD hdD⟩

theorem Owns.free_directory (h : Owns R m o) (hR : Manageable L R) (hd : o d = .directory) :
    ∃ m', freeMemoryAndPageTable L m (page d) = .ok m' ∧ Owns R m' (freed d o) := by
  obtain ⟨m',hf,ho,-⟩ := h.free_directory_keeps hR hd
  exact ⟨m',hf,ho⟩

def KernelRange.last (k : KernelRange) : ℕ :=
  (k.virt + (k.phys_end + (2^32 - k.phys_start)) % 2^32 + (2^32 - 1)) % 2^32 / 4096

def Consecutive : ℕ → List KernelRange → Prop
  | _, [] => True
  | n, k :: ks => k.virt < 2^32 ∧ k.phys_start < 2^32 ∧ k.perm < 4096 ∧ n ≤ k.virt / 4096 ∧
      k.virt / 4096 ≤ k.last ∧ Consecutive (k.last + 1) ks

theorem kernelMemoryMap_consecutive (L : Layout) : Consecutive (2^19) (kernelMemoryMap L) := by
  have h1 := L.data_aligned
  have h2 := L.data_above
  have h3 := L.kernelEnd_above
  have h4 := L.kernelEnd_below
  simp only [KERNLINK,KERNBASE,EXTMEM,P2V,PHYSTOP,PGSIZE] at h1 h2 h4
  simp only [kernelMemoryMap,Consecutive,KernelRange.last,KERNLINK,KERNBASE,EXTMEM,V2P,PHYSTOP,DEVSPACE,PTE_W,
    and_true]
  omega

def rangeOf (ks : List KernelRange) (n : ℕ) : Option KernelRange :=
  ks.find? (fun k => k.virt / 4096 ≤ n ∧ n ≤ k.last)

def KernelRange.entry (k : KernelRange) (n : ℕ) : ℕ :=
  (k.phys_start + 4096 * (n - k.virt / 4096)) % 2^32 ||| k.perm ||| PTE_P

theorem rangeOf_below {ks : List KernelRange} (h : Consecutive n ks) (hk : k < n) :
    rangeOf ks k = none := by
  induction ks generalizing n with
  | nil => rfl
  | cons x ks ih =>
    obtain ⟨-,-,-,hlo,hle,hks⟩ := h
    have hn : ¬ (x.virt / 4096 ≤ k ∧ k ≤ x.last) := by omega
    rw [rangeOf,List.find?_cons_of_neg (by simpa using hn)]
    exact ih hks (by omega)

theorem Owns.map_ranges_words {ks : List KernelRange} (h : Owns R m o) (hR : Manageable L R)
    (hd : o d = .directory) (hn : 2^19 ≤ n) (hk : Consecutive n ks) (hb : Blank m o d n) :
    ∃ r m' o', mapRanges (page d) ks m = .ok (r,m') ∧ Owns R m' o' ∧ Grows d o o' ∧
      (0 ≤ r ∨ (r < 0 ∧ ∀ f, o' f ≠ .free)) ∧
      (∀ g j, j < 1024 → o g ≠ .free → g ≠ d → (∀ i, o g ≠ .table d i) → m'.word g j = m.word g j) ∧
      (0 ≤ r → ∀ k, k < 2^20 → m'.entry d k = ((rangeOf ks k).map (·.entry k)).getD (m.entry d k)) ∧
      ∀ f i, o' f = .table d i → o f = .table d i ∨ 512 ≤ i := by
  induction ks generalizing m o n with
  | nil => exact ⟨0,m,o,rfl,h,Grows.refl d o,.inl le_rfl,fun _ _ _ _ _ _ => rfl,fun _ _ _ => rfl,fun _ _ => .inl⟩
  | cons k ks ih =>
    obtain ⟨hv,hp,hperm,hlo,hle,hks⟩ := hk
    have hlast : k.last < 2^20 := by simp only [KernelRange.last]; omega
    obtain ⟨r,m1,o1,hc,h1,hg1,hr,hw1,he1,hnew1⟩ := h.map_kernel_words (2^20) hR hd (hn.trans hlo) hle hlast hp hperm
      (hb.mono hlo) (by omega)
    have hcr : createPageTableEntries m (page d) k.virt ((k.phys_end + (2^32 - k.phys_start)) % 2^32)
        k.phys_start k.perm = .ok (r,m1) := by
      rw [createPageTableEntries,pgrounddown_eq hv,pgrounddown_eq (Nat.mod_lt _ (by norm_num))]
      exact hc
    rw [mapRanges,hcr]
    simp only [bind,Except.bind]
    rcases hr with ⟨rfl,hb1⟩ | ⟨rfl,hnone⟩
    · obtain ⟨r2,m2,o2,hm,h2,hg2,hr2,hw2,he2,hnew2⟩ :=
        ih h1 ((hg1.iff (by simp) (by simp)).mpr hd) (by omega) hks hb1
      refine ⟨r2,m2,o2,by simpa using hm,h2,hg1.trans hg2,hr2,fun g j hj hgf hgd hgt => ?_,fun hr0 j hj => ?_,
        fun f i hf => ?_⟩
      · have he : o1 g = o g := by
          rcases hg1 g with he | ⟨he,-⟩
          · exact he
          · exact absurd he hgf
        rw [hw2 g j hj (by rwa [he]) hgd (by rwa [he]),hw1 g j hj hgf hgd hgt]
      · rw [he2 hr0 j hj,he1 rfl j hj]
        by_cases hin : k.virt / 4096 ≤ j ∧ j ≤ k.last
        · rw [if_pos hin,rangeOf_below hks (by omega),rangeOf,List.find?_cons_of_pos (by simpa using hin)]
          rfl
        · rw [if_neg hin,rangeOf,rangeOf,List.find?_cons_of_neg (by simpa using hin)]
      · rcases hnew2 f i hf with hf1 | hi
        · exact hnew1 f i hf1
        · exact .inr hi
    · exact ⟨-1,m1,o1,by simp,h1,hg1,.inr ⟨by norm_num,hnone⟩,hw1,fun hr => absurd hr (by norm_num),hnew1⟩

def Within (d : ℕ) (o o' : Owner) : Prop := ∀ f, o' f = o f ∨ (Movable d (o f) ∧ Movable d (o' f))

theorem Within.refl (d : ℕ) (o : Owner) : Within d o o := fun _ => .inl rfl

theorem Within.trans (h : Within d o o') (h' : Within d o' o'') : Within d o o'' := by
  intro f
  have h1 := h f
  have h2 := h' f
  grind

theorem Grows.within (h : Grows d o o') : Within d o o' := by
  intro f
  rcases h f with hf | ⟨hf,i,hi⟩
  · exact .inl hf
  · exact .inr ⟨.inl hf,.inr (.inl ⟨i,hi⟩)⟩

theorem Within.iff (h : Within d o o') {f : ℕ} {p : Place} (hp : ¬ Movable d p) : o' f = p ↔ o f = p := by
  have := h f
  grind

theorem Leaves.trans {m'' : Memory} (h : Leaves d o m m') (hw : Within d o o') (h' : Leaves d o' m' m'') :
    Leaves d o m m'' := by
  intro g hg j hj
  have he : o' g = o g := (hw.iff hg.2).mpr rfl
  rw [h' g (by rwa [Outside,he]) j hj,h g hg j hj]

theorem Leaves.others (hl : Leaves d o m m') (hw : Within d o o') (h : Owns R m o) (hd : o d = .directory) :
    Others d m o m' o' := by
  have hne : ∀ g, o g ≠ .directory → g ≠ d := by
    rintro g hg rfl
    exact hg hd
  refine ⟨fun e he _ => (hw.iff (by simp [Movable])).mpr he,fun f e i j hf hed => ?_,fun e k he hed hk => ?_,
    fun f e i j hf hed k hk => hl f ⟨hne f (by simp [hf]),by simp [Movable,hf,hed]⟩ k hk⟩
  · exact (hw.iff (by simp [Movable,hed])).mpr hf
  · apply h.entry_congr he hk
    · exact hl e ⟨hed,by simp [Movable,he]⟩ _ (by omega)
    · intro t ht
      exact hl t ⟨hne t (by simp [ht]),by simp [Movable,ht,hed]⟩ _ (Nat.mod_lt _ (by norm_num))

theorem Owns.freed_new (h : Owns R m o) (hd : o d = .free)
    (hw : Within d (update o d .directory) o') : freed d o' = o := by
  have htab : ∀ f i, o f ≠ .table d i := by
    intro f i hf
    rw [h.tree.table,hd] at hf
    exact absurd hf.1 (by simp)
  have huser : ∀ f i j, o f ≠ .user d i j := by
    intro f i j hf
    obtain ⟨t,ht,-⟩ := (h.tree.user _ _ _ _).mp hf
    exact htab t i ht
  funext f
  by_cases hfd : f = d
  · subst hfd
    have : o' f = .directory := (hw.iff (by simp [Movable])).mpr (by simp)
    simp [freed,this,hd]
  · have hf := hw f
    rw [update_of_ne hfd] at hf
    have h1 := htab f
    have h2 := huser f
    rcases hf with hf | ⟨hf | ⟨i,hi⟩ | ⟨i,j,hi⟩,hf'⟩
    · simp only [freed,hf]
      split <;> grind
    · rcases hf' with hf' | ⟨i,hf'⟩ | ⟨i,j,hf'⟩ <;> simp [freed,hf',hf]
    · exact absurd hi (h1 i)
    · exact absurd hi (h2 i j)

def Scarce (n : ℕ) (o : Owner) : Prop := ∀ F : Finset ℕ, (∀ f ∈ F, o f = .free) → F.card ≤ n

theorem scarce_of_none (n : ℕ) (h : ∀ f, o f ≠ .free) : Scarce n o := by
  intro F hF
  have he : F = ∅ := Finset.eq_empty_of_forall_notMem (fun f hf => h f (hF f hf))
  simp [he]

theorem scarce_of_one (h : ∀ f g, o f = .free → o g = .free → f = g) : Scarce 1 o := by
  intro F hF
  exact Finset.card_le_one.mpr (fun f hf g hg => h f g (hF f hf) (hF g hg))

theorem Scarce.mono (h : Scarce n o) (hk : n ≤ k) : Scarce k o := fun F hF => (h F hF).trans hk

theorem Scarce.take {f : ℕ} {p : Place} (h : Scarce n (update o f p)) : Scarce (n + 1) o := by
  intro F hF
  have hlt := h (F.erase f) (fun g hg => by
    obtain ⟨hgf,hg⟩ := Finset.mem_erase.mp hg
    rw [update_of_ne hgf]
    exact hF g hg)
  have hle := Finset.pred_card_le_card_erase (s := F) (a := f)
  omega

def Exhausted (R : ℕ → Prop) (o : Owner) : Prop :=
  (∃ m, Owns R m o) ∧ ∀ f g, o f = .free → o g = .free → f = g

def placeCode : Place → ℕ
  | .table _ i => 1 + i
  | .user _ i j => 1025 + (1024 * i + j)
  | _ => 0

theorem Owns.scarce_within (lo : ℕ) (h : Owns R m' o') (hw : Within d o o') (hk : Scarce k o')
    (hn : ∀ f i j, o f = .free → o' f = .user d i j → lo ≤ 1024 * i + j ∧ 1024 * i + j < n) :
    Scarce (k + 1024 + (n - lo)) o := by
  intro F hF
  have hplace : ∀ f ∈ F, o' f ≠ .free → (∃ i < 1024, o' f = .table d i) ∨
      ∃ i j, j < 1024 ∧ lo ≤ 1024 * i + j ∧ 1024 * i + j < n ∧ o' f = .user d i j := by
    intro f hf hnf
    have hff := hF f hf
    rcases hw f with he | ⟨-,hm | ⟨i,hm⟩ | ⟨i,j,hm⟩⟩
    · rw [hff] at he
      exact absurd he hnf
    · exact absurd hm hnf
    · exact .inl ⟨i,((h.tree.table _ _ _).mp hm).2.1,hm⟩
    · exact .inr ⟨i,j,(h.user_bounds hm).2,(hn f i j hff hm).1,(hn f i j hff hm).2,hm⟩
  have hfree := hk (F.filter (fun f => o' f = .free)) (fun f hf => (Finset.mem_filter.mp hf).2)
  have hcard := Finset.card_le_card_of_injOn (s := F.filter (fun f => ¬ o' f = .free))
    (t := Finset.Ico 1 1025 ∪ Finset.Ico (1025 + lo) (1025 + n)) (fun f => placeCode (o' f)) ?_ ?_
  · have hsplit := Finset.card_filter_add_card_filter_not (s := F) (fun f => o' f = .free)
    have hunion := Finset.card_union_le (Finset.Ico 1 1025) (Finset.Ico (1025 + lo) (1025 + n))
    rw [Nat.card_Ico,Nat.card_Ico] at hunion
    omega
  · intro f hf
    obtain ⟨hf,hnf⟩ := Finset.mem_filter.mp (Finset.mem_coe.mp hf)
    rw [Finset.mem_coe,Finset.mem_union,Finset.mem_Ico,Finset.mem_Ico]
    rcases hplace f hf hnf with ⟨i,hi,hp⟩ | ⟨i,j,-,hlo,hi,hp⟩ <;> simp only [hp,placeCode] <;> omega
  · intro f hf g hg he
    obtain ⟨hf,hnf⟩ := Finset.mem_filter.mp (Finset.mem_coe.mp hf)
    obtain ⟨hg,hng⟩ := Finset.mem_filter.mp (Finset.mem_coe.mp hg)
    rcases hplace f hf hnf with ⟨i,hi,hp⟩ | ⟨i,j,hj,-,-,hp⟩ <;>
      rcases hplace g hg hng with ⟨i',hi',hq⟩ | ⟨i',j',hj',-,-,hq⟩ <;>
      simp only [hp,hq,placeCode] at he <;> try omega
    · obtain rfl : i = i' := by omega
      exact h.tree.table_unique hp hq
    · obtain ⟨rfl,rfl⟩ : i = i' ∧ j = j' := by omega
      exact h.user_unique hp hq

theorem Owns.scarce (h : Owns R m' o') (hw : Within d (update o d .directory) o')
    (hk : Scarce k o') (hn : ∀ f i j, o' f = .user d i j → 1024 * i + j < n) : Scarce (k + 1025 + n) o :=
  (h.scarce_within 0 hw hk (fun f i j _ hf => ⟨Nat.zero_le _,hn f i j hf⟩)).take.mono (by omega)

theorem Owns.others_new (h : Owns R m o) (hd : o d = .free)
    (hg : Grows d (update o d .directory) o')
    (hw : ∀ g j, j < 1024 → o g ≠ .free → m'.word g j = m.word g j) : Others d m o m' o' := by
  have hne : ∀ f, o f ≠ .free → f ≠ d := by
    rintro f hf rfl
    exact hf hd
  refine ⟨fun e he hn => ?_,fun f e i j hf _ => ?_,fun e k he _ hk => ?_,fun f e i j hf _ k hk => ?_⟩
  · rw [hg.iff (by simp) (by simp),update_of_ne hn,he]
  · rw [hg.iff (by simp) (by simp),update_of_ne (hne f (by simp [hf])),hf]
  · apply h.entry_congr he hk
    · exact hw e _ (by omega) (by simp [he])
    · intro t ht
      exact hw t _ (Nat.mod_lt _ (by norm_num)) (by simp [ht])
  · exact hw f k hk (by simp [hf])

theorem Owns.setup_words (h : Owns R m o) (hR : Manageable L R) :
    (∃ m', setupKernelVirtualMemory L m = .ok (0,m') ∧ Owns R m' o ∧ Scarce 1026 o ∧
      ∀ D : Set ℕ, (∀ d ∈ D, o d = .directory) → Keeps D m m') ∨
    ∃ d m' o', setupKernelVirtualMemory L m = .ok (page d,m') ∧ o d = .free ∧ Owns R m' o' ∧
      Grows d (update o d .directory) o' ∧
      (∀ g j, j < 1024 → o g ≠ .free → m'.word g j = m.word g j) ∧
      (∀ n, n < 2^20 → m'.entry d n = ((rangeOf (kernelMemoryMap L) n).map (·.entry n)).getD 0) ∧
      ∀ f i, o' f = .table d i → 512 ≤ i := by
  rw [setupKernelVirtualMemory]
  rcases h.allocate hR with ⟨ha,hnone⟩ | ⟨d,m1,ha,hdf,h1,hw1⟩
  · simp only [ha,↓reduceIte]
    exact .inl ⟨m,rfl,h,scarce_of_none 1026 hnone,fun D _ => Keeps.refl D m⟩
  · have hdl : d < 2^19 := h.lt hR (by simp [hdf])
    have h2 := h1.memset_held (c := 0) hR (f := d) (by simp)
    have h3 := h2.new_directory (d := d) (by simp) (fun i hi => by simp [word_memset_zero m1 hdl hi])
    rw [update_idem] at h3
    have hdev : ¬ DEVSPACE < P2V PHYSTOP := by simp only [DEVSPACE,P2V,KERNBASE,PHYSTOP]; omega
    have hnone : ∀ t i, update o d .directory t ≠ .table d i := by
      intro t i ht
      have hp := ((h3.tree.table _ _ _).mp ht).2
      rw [word_memset_zero m1 hdl hp.1] at hp
      simp at hp
    have hb : Blank (m1.memset (page d) 0 PGSIZE) (update o d .directory) d (2^19) :=
      fun t i j ht _ _ => absurd ht (hnone t i)
    obtain ⟨r,m2,o2,hm,h4,hg,hr,hw2,he2,hnew⟩ :=
      h3.map_ranges_words hR (by simp) le_rfl (kernelMemoryMap_consecutive L) hb
    simp only [ha,page_ne_zero,↓reduceIte,hdev,hm,bind,Except.bind]
    have hw : ∀ g j, j < 1024 → o g ≠ .free → m2.word g j = m.word g j := by
      intro g j hj hgf
      have hgd : g ≠ d := by rintro rfl; exact hgf hdf
      rw [hw2 g j hj (by rwa [update_of_ne hgd]) hgd (hnone g),word_memset_of_ne m1 hdl hj hgd,hw1]
    rcases hr with hr | ⟨hr,hfree⟩
    · refine .inr ⟨d,m2,o2,by simp [not_lt.mpr hr],hdf,h4,hg,hw,fun n hn => ?_,
        fun f i hf => (hnew f i hf).resolve_left (hnone f i)⟩
      rw [he2 hr n hn]
      congr 1
      rw [Memory.entry,if_neg]
      rw [word_memset_zero m1 hdl (by omega)]
      simp
    · have hd2 : o2 d = .directory := (hg.iff (by simp) (by simp)).mpr (by simp)
      obtain ⟨m3,hf,h5,hk3⟩ := h4.free_directory_keeps hR hd2
      refine .inl ⟨m3,by simp [hr,hf],h.freed_new hdf hg.within ▸ h5,?_,fun D hD => ?_⟩
      · refine (h4.scarce hg.within (scarce_of_none 0 hfree) (n := 0) ?_).mono (by norm_num)
        intro f i j hf
        rw [hg.iff (by simp) (by simp)] at hf
        obtain ⟨t,ht,-⟩ := (h3.tree.user _ _ _ _).mp hf
        exact absurd ht (hnone t i)
      · have hnew : ∀ d' ∈ D, d' ≠ d := by
          rintro d' hd' rfl
          simp [hD d' hd'] at hdf
        have hk : Keeps D m m2 := (h.others_new hdf hg hw).keeps hD (fun hd => hnew d hd rfl)
        refine hk.trans (hk3 D (fun d' hd' => ?_) (fun hd => hnew d hd rfl))
        rw [hg.iff (by simp) (by simp),update_of_ne (hnew d' hd'),hD d' hd']

theorem Owns.setup_keeps (h : Owns R m o) (hR : Manageable L R) :
    (∃ m', setupKernelVirtualMemory L m = .ok (0,m') ∧ Owns R m' o ∧ Scarce 1026 o ∧
      ∀ D : Set ℕ, (∀ d ∈ D, o d = .directory) → Keeps D m m') ∨
    ∃ d m' o', setupKernelVirtualMemory L m = .ok (page d,m') ∧ o d = .free ∧ Owns R m' o' ∧
      Grows d (update o d .directory) o' ∧
      (∀ D : Set ℕ, (∀ d ∈ D, o d = .directory) → Keeps D m m') ∧
      ∀ n, n < 2^20 → m'.entry d n = ((rangeOf (kernelMemoryMap L) n).map (·.entry n)).getD 0 := by
  rcases h.setup_words hR with hno | ⟨d,m',o',hs,hd,ho,hg,hw,he,-⟩
  · exact .inl hno
  · refine .inr ⟨d,m',o',hs,hd,ho,hg,fun D hD => (h.others_new hd hg hw).keeps hD (fun hdD => ?_),he⟩
    rw [hD d hdD] at hd
    cases hd

theorem Owns.setup (h : Owns R m o) (hR : Manageable L R) :
    (∃ m', setupKernelVirtualMemory L m = .ok (0,m') ∧ Owns R m' o ∧ Scarce 1026 o) ∨
    ∃ d m' o', setupKernelVirtualMemory L m = .ok (page d,m') ∧ o d = .free ∧ Owns R m' o' ∧
      Grows d (update o d .directory) o' := by
  rcases h.setup_keeps hR with ⟨m',hs,ho,hsc,-⟩ | ⟨d,m',o',hs,hd,ho,hg,-⟩
  · exact .inl ⟨m',hs,ho,hsc⟩
  · exact .inr ⟨d,m',o',hs,hd,ho,hg⟩

end UoDOS.Paging
