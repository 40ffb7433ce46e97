import UoDOS.Memory.Ownership

/-! # Allocation, freeing and page table lookup on owned memory

One specification for each function that the loops of vm.c call.
-/
namespace UoDOS.Paging
open ByteMemory

variable {L : Layout} {R : ℕ → Prop} {m m' : Memory} {o : Owner}
  {d f i j t : ℕ} {p : Place}

theorem Owns.managed (h : Owns R m o) (hf : o f ≠ .foreign) : R f := by
  by_contra hn
  exact hf ((h.foreign f).mpr hn)

theorem Owns.lt (h : Owns R m o) (hR : Manageable L R) (hf : o f ≠ .foreign) : f < 2^19 := by
  have := (hR f (h.managed hf)).2
  simp only [PHYSTOP] at this
  omega

theorem Owns.pos (h : Owns R m o) (hR : Manageable L R) (hf : o f ≠ .foreign) : 0 < f := by
  have h1 := (hR f (h.managed hf)).1
  have h2 := L.data_above
  have h3 := L.kernelEnd_above
  simp only [page,KERNLINK,EXTMEM] at h1 h2
  omega

theorem update_foreign (h : Owns R m o) (hf : o f ≠ .foreign) (hp : p ≠ .foreign)
    (g : ℕ) : Function.update o f p g = .foreign ↔ ¬ R g := by
  by_cases hg : g = f
  · subst hg; simpa [hp] using h.managed hf
  · simpa [hg] using h.foreign g

def Place.Data (p : Place) : Prop := p = .held ∨ ∃ d i j, p = .user d i j

theorem Owns.write_data (h : Owns R m o) (hf : (o f).Data) (hF : m'.FreeList = m.FreeList)
    (hw : ∀ g j, g ≠ f → j < 1024 → m'.word g j = m.word g j) : Owns R m' o := by
  have hne : ∀ g, ¬ (o g).Data → g ≠ f := by rintro g hg rfl; exact hg hf
  refine ⟨h.foreign,?_,h.tree.congr (fun d i hd hi => hw d i (hne d (by simp [hd,Place.Data])) hi)
    (fun t d i j ht hj => hw t j (hne t (by simp [ht,Place.Data])) hj)⟩
  obtain ⟨F,hc,hd,hm⟩ := h.free
  exact ⟨F,hF ▸ hc.congr (fun g hg => hw g 0 (hne g (by simp [(hm g).mp hg,Place.Data])) (by norm_num)),hd,hm⟩

theorem Place.Data.not_foreign (h : p.Data) : p ≠ .foreign := by
  rintro rfl
  simp [Place.Data] at h

theorem Owns.memset_held {c : UInt8} (h : Owns R m o) (hR : Manageable L R) (hf : o f = .held) :
    Owns R (m.memset (page f) c PGSIZE) o :=
  h.write_data (.inl hf) (memset_freeList ..) (fun _ _ hg hj => word_memset_of_ne m (h.lt hR (by simp [hf])) hj hg)

theorem Owns.memmove_data {n : ℕ} (src : ℕ) (h : Owns R m o) (hR : Manageable L R) (hf : (o f).Data)
    (hn : n ≤ PGSIZE) : Owns R (m.memmove (page f) src n) o :=
  h.write_data hf (memmove_freeList ..) (fun _ _ hg hj => word_memmove_of_ne m (h.lt hR hf.not_foreign) hj hg hn)

theorem Owns.allocate (h : Owns R m o) (hR : Manageable L R) :
    (allocatePhysicalMemoryPage m = (0,m) ∧ ∀ f, o f ≠ .free) ∨
    ∃ f m', allocatePhysicalMemoryPage m = (page f,m') ∧ o f = .free ∧
      Owns R m' (Function.update o f .held) ∧ ∀ g j, m'.word g j = m.word g j := by
  obtain ⟨F,hc,hd,hm⟩ := h.free
  cases F with
  | nil =>
    have hz : m.FreeList = 0 := hc
    exact .inl ⟨by simp [allocatePhysicalMemoryPage,hz],fun f hf => by simpa using (hm f).mpr hf⟩
  | cons f F =>
    obtain ⟨hv,hc⟩ := hc
    have hf : o f = .free := (hm f).mp (by simp)
    have hne : m.FreeList ≠ 0 := hv ▸ page_ne_zero f
    have hl : m.load m.FreeList = m.word f 0 := by
      rw [hv]
      exact load_page m (i := 0) (h.lt hR (by simp [hf])) (by norm_num)
    refine .inr ⟨f,{ m with FreeList := m.word f 0 },?_,hf,?_,fun _ _ => rfl⟩
    · simp [allocatePhysicalMemoryPage,hne,hl,← hv]
    · refine ⟨update_foreign h (by simp [hf]) (by simp),⟨F,hc.congr (fun _ _ => rfl),
        (List.nodup_cons.mp hd).2,fun g => ?_⟩,h.tree.relabel (.inl hf) (.inr rfl)⟩
      by_cases hg : g = f
      · subst hg; simpa using (List.nodup_cons.mp hd).1
      · simpa [hg] using hm g

theorem free_page (hR : Manageable L R) (hf : R f) (hl : m.FreeList < 2^32) :
    ∃ m', freePhysicalMemoryPage L m (page f) = .ok m' ∧ m'.FreeList = page f ∧
      m'.word f 0 = m.FreeList ∧ ∀ g j, g ≠ f → j < 1024 → m'.word g j = m.word g j := by
  obtain ⟨h1,h2⟩ := hR f hf
  have hlt : f < 2^19 := by simp only [PHYSTOP] at h2; omega
  have hv : V2P (page f) = 4096 * f := by simpa using v2p_page (x := 0) hlt (by norm_num)
  have hok : ¬ (page f % PGSIZE ≠ 0 ∨ page f < L.kernelEnd ∨ PHYSTOP ≤ V2P (page f)) := by
    rw [hv]
    simp only [page,PGSIZE,KERNBASE] at h1 ⊢
    omega
  have hs : ∀ g j, j < 1024 → ((m.memset (page f) 1 PGSIZE).store (page f) m.FreeList).word g j =
      if g = f ∧ j = 0 then m.FreeList else (m.memset (page f) 1 PGSIZE).word g j :=
    fun g j hj => word_store _ (i := 0) hlt (by norm_num) hj hl
  refine ⟨{ (m.memset (page f) 1 PGSIZE).store (page f) m.FreeList with FreeList := page f },?_,rfl,?_,
    fun g j hg hj => ?_⟩
  · simp only [freePhysicalMemoryPage,if_neg hok,memset_freeList]
  · exact (hs f 0 (by norm_num)).trans (by simp)
  · refine (hs g j hj).trans ?_
    rw [if_neg (by tauto),word_memset_of_ne m hlt hj hg]

theorem Owns.freeList_lt (h : Owns R m o) (hR : Manageable L R) : m.FreeList < 2^32 := by
  obtain ⟨F,hc,-,hm⟩ := h.free
  cases F with
  | nil =>
    have hz : m.FreeList = 0 := hc
    omega
  | cons f F =>
    have := h.lt hR (f := f) (by simp [(hm f).mp (by simp)])
    rw [hc.1]
    simp only [page,KERNBASE]
    omega

theorem Owns.freeList_cons (h : Owns R m o) (hf : o f ≠ .free) (hF : m'.FreeList = page f)
    (hl : m'.word f 0 = m.FreeList) (hw : ∀ g, g ≠ f → o g = .free → m'.word g 0 = m.word g 0) :
    ∃ F, FreeChain m' m'.FreeList F ∧ F.Nodup ∧ ∀ g, g ∈ F ↔ Function.update o f .free g = .free := by
  obtain ⟨F,hc,hd,hm⟩ := h.free
  have hfF : f ∉ F := fun hmem => hf ((hm f).mp hmem)
  refine ⟨f :: F,⟨hF,?_⟩,List.nodup_cons.mpr ⟨hfF,hd⟩,fun g => ?_⟩
  · rw [hl]
    exact hc.congr (fun g hg => hw g (by rintro rfl; exact hfF hg) ((hm g).mp hg))
  · by_cases hg : g = f
    · subst hg; simp
    · simpa [hg] using hm g

theorem Owns.free_held (h : Owns R m o) (hR : Manageable L R) (hf : o f = .held) :
    ∃ m', freePhysicalMemoryPage L m (page f) = .ok m' ∧ Owns R m' (Function.update o f .free) ∧
      ∀ g j, g ≠ f → j < 1024 → m'.word g j = m.word g j := by
  obtain ⟨m',hok,hF,hl,hw⟩ := free_page hR (h.managed (f := f) (by simp [hf])) (h.freeList_lt hR)
  refine ⟨m',hok,⟨update_foreign h (by simp [hf]) (by simp),?_,?_⟩,hw⟩
  · exact h.freeList_cons (by simp [hf]) hF hl (fun g hg _ => hw g 0 hg (by norm_num))
  · have hne : ∀ g, o g ≠ .held → g ≠ f := by rintro g hg rfl; exact hg hf
    exact (h.tree.congr (fun d i hd hi => hw d i (hne d (by simp [hd])) hi)
      (fun t d i j ht hj => hw t j (hne t (by simp [ht])) hj)).relabel (.inr hf) (.inl rfl)

theorem Owns.free_user_words (h : Owns R m o) (hR : Manageable L R) (ht : o t = .table d i)
    (hj : j < 1024) (hf : o f = .user d i j) :
    ∃ m', freePhysicalMemoryPage L m (page f) = .ok m' ∧
      Owns R (m'.store (page t + 4 * j) 0) (Function.update o f .free) ∧
      ∀ g k, k < 1024 → g ≠ f → ¬ (g = t ∧ k = j) → (m'.store (page t + 4 * j) 0).word g k = m.word g k := by
  obtain ⟨m',hok,hF,hl,hw⟩ := free_page hR (h.managed (f := f) (by simp [hf])) (h.freeList_lt hR)
  have htl : t < 2^19 := h.lt hR (by simp [ht])
  have hft : f ≠ t := by rintro rfl; simp [ht] at hf
  have hs : ∀ g k, k < 1024 → (m'.store (page t + 4 * j) 0).word g k =
      if g = t ∧ k = j then 0 else m'.word g k := fun g k hk => word_store m' htl hj hk (by norm_num)
  have hkeep : ∀ g k, k < 1024 → g ≠ f → ¬ (g = t ∧ k = j) →
      (m'.store (page t + 4 * j) 0).word g k = m.word g k := by
    intro g k hk hg hn
    rw [hs g k hk,if_neg hn,hw g k hg hk]
  refine ⟨m',hok,⟨update_foreign h (by simp [hf]) (by simp),?_,?_⟩,hkeep⟩
  · refine h.freeList_cons (by simp [hf]) hF ?_ (fun g hg hfree => ?_)
    · rw [hs f 0 (by norm_num),if_neg (by tauto),hl]
    · have hgt : g ≠ t := by rintro rfl; simp [ht] at hfree
      exact hkeep g 0 (by norm_num) hg (by tauto)
  · refine h.tree.remove_user ht hf (.inl rfl) hkeep ?_
    rw [hs t j hj]
    simp

theorem Owns.free_retag (h : Owns R m o) (hF : m'.FreeList = m.FreeList)
    (hw : ∀ f, o f = .free → m'.word f 0 = m.word f 0) (ht : o t ≠ .free) (hp : p ≠ .free) :
    ∃ F, FreeChain m' m'.FreeList F ∧ F.Nodup ∧ ∀ f, f ∈ F ↔ Function.update o t p f = .free := by
  obtain ⟨F,hc,hd,hm⟩ := h.free
  refine ⟨F,hF ▸ hc.congr (fun f hf => hw f ((hm f).mp hf)),hd,fun f => ?_⟩
  by_cases hf : f = t
  · subst hf; simpa [hp,ht] using hm f
  · simpa [hf] using hm f

theorem Owns.store_free {g k v : ℕ} (h : Owns R m o) (hR : Manageable L R) (hg : o g ≠ .free)
    (hgf : o g ≠ .foreign) (hk : k < 1024) (hv : v < 2^32) (ht : o t ≠ .free) (hp : p ≠ .free) :
    ∃ F, FreeChain (m.store (page g + 4 * k) v) (m.store (page g + 4 * k) v).FreeList F ∧ F.Nodup ∧
      ∀ f, f ∈ F ↔ Function.update o t p f = .free := by
  refine h.free_retag (store_freeList ..) (fun f hf => ?_) ht hp
  have hfg : f ≠ g := by rintro rfl; exact hg hf
  rw [word_store m (h.lt hR hgf) hk (by norm_num) hv,if_neg (by tauto)]

theorem Owns.new_directory (h : Owns R m o) (hd : o d = .held) (hz : ∀ i, i < 1024 → m.word d i = 0) :
    Owns R m (Function.update o d .directory) :=
  ⟨update_foreign h (by simp [hd]) (by simp),h.free_retag rfl (fun _ _ => rfl) (by simp [hd]) (by simp),
    h.tree.new_directory hd hz⟩

theorem Owns.install_table {perm : ℕ} (h : Owns R m o) (hR : Manageable L R) (hd : o d = .directory)
    (hi : i < 1024) (he : m.word d i % 2 ≠ 1) (ht : o t = .held) (hz : ∀ j, j < 1024 → m.word t j = 0)
    (hp : perm < 4096) : Owns R (m.store (page d + 4 * i) (4096 * t ||| perm ||| PTE_P))
      (Function.update o t (.table d i)) := by
  have hdl : d < 2^19 := h.lt hR (by simp [hd])
  have htl : t < 2^19 := h.lt hR (by simp [ht])
  have hs : ∀ g k, k < 1024 → (m.store (page d + 4 * i) (4096 * t ||| perm ||| PTE_P)).word g k =
      if g = d ∧ k = i then 4096 * t ||| perm ||| PTE_P else m.word g k :=
    fun g k hk => word_store m hdl hi hk (entry_lt htl hp)
  refine ⟨update_foreign h (by simp [ht]) (by simp),?_,?_⟩
  · exact h.store_free hR (by simp [hd]) (by simp [hd]) hi (entry_lt htl hp) (by simp [ht]) (by simp)
  · refine h.tree.install_table hd hi he ht hz (fun g k hk hn => by rw [hs g k hk,if_neg hn]) ?_ ?_
    · rw [hs d i hi,if_pos ⟨rfl,rfl⟩,entry_present hp]
    · rw [hs d i hi,if_pos ⟨rfl,rfl⟩,entry_frame hp]

theorem Owns.install_user {perm : ℕ} (h : Owns R m o) (hR : Manageable L R)
    (ht : o t = .table d i) (hi : i < 512) (hj : j < 1024) (he : m.word t j % 2 ≠ 1) (hf : o f = .held)
    (hp : perm < 4096) : Owns R (m.store (page t + 4 * j) (4096 * f ||| perm ||| PTE_P))
      (Function.update o f (.user d i j)) := by
  have htl : t < 2^19 := h.lt hR (by simp [ht])
  have hfl : f < 2^19 := h.lt hR (by simp [hf])
  have hs : ∀ g k, k < 1024 → (m.store (page t + 4 * j) (4096 * f ||| perm ||| PTE_P)).word g k =
      if g = t ∧ k = j then 4096 * f ||| perm ||| PTE_P else m.word g k :=
    fun g k hk => word_store m htl hj hk (entry_lt hfl hp)
  refine ⟨update_foreign h (by simp [hf]) (by simp),?_,?_⟩
  · exact h.store_free hR (by simp [ht]) (by simp [ht]) hj (entry_lt hfl hp) (by simp [hf]) (by simp)
  · refine h.tree.install_user ht hi hj he hf (fun g k hk hn => by rw [hs g k hk,if_neg hn]) ?_ ?_
    · rw [hs t j hj,if_pos ⟨rfl,rfl⟩,entry_present hp]
    · rw [hs t j hj,if_pos ⟨rfl,rfl⟩,entry_frame hp]

theorem Owns.write_kernel {v : ℕ} (h : Owns R m o) (hR : Manageable L R) (ht : o t = .table d i)
    (hi : 512 ≤ i) (hj : j < 1024) (hv : v < 2^32) : Owns R (m.store (page t + 4 * j) v) o := by
  have htl : t < 2^19 := h.lt hR (by simp [ht])
  refine ⟨h.foreign,?_,?_⟩
  · have := h.store_free hR (g := t) (k := j) (v := v) (t := t) (p := .table d i) (by simp [ht]) (by simp [ht]) hj
      hv (by simp [ht]) (by simp)
    rwa [← ht,Function.update_eq_self] at this
  · refine h.tree.write_kernel (j := j) ht hi (fun g k hk hn => ?_)
    rw [word_store m htl hj hk hv,if_neg hn]

theorem Owns.lookup (va : ℕ) (h : Owns R m o) (hR : Manageable L R) (hd : o d = .directory) :
    ((∀ t, o t ≠ .table d (PDX va)) ∧ getPageTableEntry m (page d) va false = (0,m)) ∨
    ∃ t, o t = .table d (PDX va) ∧ getPageTableEntry m (page d) va false = (page t + 4 * PTX va,m) := by
  have hdl : d < 2^19 := h.lt hR (by simp [hd])
  have hi : PDX va < 1024 := by rw [pdx_eq]; omega
  have hload := load_page m hdl hi
  by_cases hp : m.word d (PDX va) % 2 = 1
  · have ht := (h.tree.table (m.word d (PDX va) / 4096) d (PDX va)).mpr ⟨hd,hi,hp,rfl⟩
    refine .inr ⟨_,ht,?_⟩
    simp only [getPageTableEntry,hload]
    rw [if_pos ((present_iff _).mpr hp),pte_addr (word_lt _ _ _),p2v_frame (h.lt hR (by simp [ht]))]
  · refine .inl ⟨fun t ht => hp ((h.tree.table t d _).mp ht).2.2.1,?_⟩
    simp only [getPageTableEntry,hload]
    rw [if_neg (fun hc => hp ((present_iff _).mp hc))]
    simp

end UoDOS.Paging
