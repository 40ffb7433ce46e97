import UoDOS.Memory.UserAccess

/-! # Growing an address space, or leaving it as it was

allocateMemoryAndPageTables takes a page for every page of the range and, now and then, one for
a table. If there is no page left it gives the user pages back.
-/
namespace UoDOS.Paging
open ByteMemory

variable {L : Layout} {R : ℕ → Prop} {m m' : Memory} {o o' : Owner} {d lo hi : ℕ}

/-- The user pages of `d` from `lo` up to the address `hi` are new: each has a zeroed page
from the free list `F` that it shares with no other, open to user code for reading and
writing. -/
structure Extended (m m' : Memory) (d lo hi : ℕ) (F : List ℕ) : Prop where
  flags : ∀ k, lo ≤ k → 4096 * k < hi → m'.entry d k % 4096 = PTE_W ||| PTE_U ||| PTE_P
  fresh : ∀ k, lo ≤ k → 4096 * k < hi → m'.entry d k / 4096 ∈ F
  zeroed : ∀ va, lo ≤ va / 4096 → 4096 * (va / 4096) < hi → m'.peek d va = some 0
  distinct : ∀ k k', k < 2^19 → k' < 2^19 → m'.entry d k % 2 = 1 → m'.entry d k' % 2 = 1 →
    m'.entry d k / 4096 = m'.entry d k' / 4096 → k = k'
  others : ∀ k, ¬ (lo ≤ k ∧ 4096 * k < hi) → k < 2^20 → m'.entry d k = m.entry d k

/-- Every user page that is present before or after has the entry that it had, and every page
of the free list `F` is in `F'` again or serves as a table of `d`. -/
structure RolledBack (m m' : Memory) (d : ℕ) (F F' : List ℕ) : Prop where
  mappings : ∀ k, k < 2^19 → m.entry d k % 2 = 1 ∨ m'.entry d k % 2 = 1 → m'.entry d k = m.entry d k
  tables : ∀ f ∈ F, f ∉ F' → ∃ i < 1024, m'.word d i % 2 = 1 ∧ m'.word d i / 4096 = f
  free : ∀ f ∈ F', f ∈ F

/-- The user pages below page `lo` have the entries and the bytes they had. -/
def KeepsBelow (m m' : Memory) (d lo : ℕ) : Prop :=
  ∀ va, va / 4096 < lo → m'.entry d (va / 4096) = m.entry d (va / 4096) ∧ m'.peek d va = m.peek d va

theorem Spares.keepsBelow (hs : Spares d lo hi m o m' o') (h : Owns R m o) (hd : o d = .directory)
    (hlo : lo ≤ 2^20) : KeepsBelow m m' d lo := by
  intro va hva
  have hna : ¬ Affected d lo hi d (va / 4096) := fun ha => absurd ha.2.1 (by omega)
  exact ⟨hs.entries d _ hd (by omega) hna,hs.peek h hd hna⟩

theorem Filled.extended {F : List ℕ} (hf : Filled d lo hi o m' o') (hs : Spares d lo hi m o m' o')
    (h' : Owns R m' o') (hd : o d = .directory) (hhi : hi ≤ KERNBASE) (hF : ∀ f, f ∈ F ↔ o f = .free) :
    Extended m m' d lo hi F := by
  have hd' := hs.directory hd
  refine ⟨fun k h1 h2 => ?_,fun k h1 h2 => ?_,fun va h1 h2 => ?_,fun k k' hk hk' hp hp' he => ?_,
    fun k hk hlt => hs.entries d k hd hlt (fun ha => hk ha.2)⟩
  · obtain ⟨f,-,-,he,-⟩ := hf k h1 h2
    rw [he,entry_eq (by decide),Nat.mul_add_mod]
    decide
  · obtain ⟨f,hfree,-,he,-⟩ := hf k h1 h2
    rw [he,entry_frame (by decide)]
    exact (hF f).mpr hfree
  · obtain ⟨f,-,-,he,hz⟩ := hf _ h1 h2
    have hva : va < KERNBASE := by simp only [KERNBASE] at hhi ⊢; omega
    rw [Memory.peek,physical_eq_some.mpr ⟨hva,by rw [he]; exact entry_present (by decide),rfl⟩,he,
      entry_frame (by decide),Option.map_some,ram_of_words (f := f) (g := 0) (m := ⟨fun _ => 0,0⟩) (fun j hj => ?_)
        (Nat.mod_lt _ (by norm_num))]
    exact hz j hj
  · have hu := h'.entry_user hd' hk hp
    rw [he,h'.entry_user hd' hk' hp',Place.user.injEq] at hu
    omega

theorem Owns.grows_of_spares (h : Owns R m o) (h' : Owns R m' o') (hw : Within d o o')
    (hs : Spares d lo hi m o m' o') (hm : ∀ k, Maps o' d k → Maps o d k)
    (hlo : ∀ k, lo ≤ k → ¬ Maps o d k) : Grows d o o' := by
  -- the user pages that there were lie below the range, so they are spared
  have hkeep : ∀ f k, o f = .user d (k / 1024) (k % 1024) → o' f = o f := by
    intro f k hf
    apply hs.owners
    rw [hf,spared_user,Nat.div_add_mod]
    exact fun ha => hlo k ha.2.1 ⟨f,hf⟩
  have hplace : ∀ o : Owner, ∀ f i j, (i < 512 ∧ j < 1024) → o f = .user d i j →
      o f = .user d ((1024 * i + j) / 1024) ((1024 * i + j) % 1024) := by
    intro o f i j hij hf
    rw [hf,show (1024 * i + j) / 1024 = i by omega,show (1024 * i + j) % 1024 = j by omega]
  intro f
  rcases hw f with he | ⟨hfree | ⟨i,ht⟩ | ⟨i,j,hu⟩,hmov⟩
  · exact .inl he
  · rcases hmov with hfree' | ⟨i,ht⟩ | ⟨i,j,hu⟩
    · exact .inl (hfree'.trans hfree.symm)
    · exact .inr ⟨hfree,i,ht⟩
    · have hu' := hplace o' f i j (h'.user_bounds hu) hu
      obtain ⟨g,hg⟩ := hm _ ⟨f,hu'⟩
      obtain rfl := h'.user_unique hu' ((hkeep g _ hg).trans hg)
      simp [hfree] at hg
  · exact .inl (hs.owners f (by rw [ht]; simp [Spared]))
  · exact .inl (hkeep f _ (hplace o f i j (h.user_bounds hu) hu))

theorem Grows.rolledBack {F F' : List ℕ} (hg : Grows d o o') (h : Owns R m o) (h' : Owns R m' o')
    (hs : Spares d lo hi m o m' o') (hd : o d = .directory) (hlo : ∀ k, lo ≤ k → ¬ Maps o d k)
    (hF : ∀ f, f ∈ F ↔ o f = .free) (hF' : ∀ f, f ∈ F' ↔ o' f = .free) : RolledBack m m' d F F' := by
  have hd' := hs.directory hd
  have hmaps : ∀ k, Maps o' d k ↔ Maps o d k := fun k => exists_congr fun f => hg.iff (by simp) (by simp)
  refine ⟨fun k hk hp => ?_,fun f hf hn => ?_,fun f hf => ?_⟩
  · have hmap : Maps o d k := by
      rcases hp with hp | hp
      · exact (h.maps_iff hd hk).mpr hp
      · exact (hmaps k).mp ((h'.maps_iff hd' hk).mpr hp)
    exact hs.entries d k hd (by omega) (fun ha => hlo k ha.2.1 hmap)
  · rw [hF] at hf
    rw [hF'] at hn
    rcases hg f with he | ⟨-,i,ht⟩
    · exact absurd (he.trans hf) hn
    · obtain ⟨-,hi,hp,hq⟩ := (h'.tree.table _ _ _).mp ht
      exact ⟨i,hi,hp,hq⟩
  · rw [hF'] at hf
    rw [hF]
    rcases hg f with he | ⟨hfree,-⟩
    · exact he ▸ hf
    · exact hfree

/-- Either the pages of the range are all new, or nothing has been added. -/
theorem allocate_all_or_nothing {oldsz newsz : ℕ} {F : List ℕ} (h : Owns R m o) (hR : Manageable L R)
    (hd : o d = .directory) (hle : oldsz ≤ newsz) (hs : newsz < KERNBASE)
    (hn : ∀ k, (oldsz + 4095) / 4096 ≤ k → k < 2^19 → m.entry d k % 2 = 0) (hF : FreeChain m m.FreeList F) :
    ∃ r m' F', allocateMemoryAndPageTables L m (page d) oldsz newsz = .ok (r,m') ∧
      FreeChain m' m'.FreeList F' ∧
      ((r = newsz ∧ Extended m m' d ((oldsz + 4095) / 4096) newsz F) ∨ (r = 0 ∧ RolledBack m m' d F F')) ∧
      KeepsBelow m m' d ((oldsz + 4095) / 4096) := by
  have hempty : ∀ k, (oldsz + 4095) / 4096 ≤ k → ¬ Maps o d k := by
    rintro k hk ⟨f,hf⟩
    have hb := (h.user_bounds hf).1
    have hz := hn k hk (by omega)
    rw [(h.entry_of_user hf).1] at hz
    cases hz
  have hlo : (oldsz + 4095) / 4096 ≤ 2^20 := by simp only [KERNBASE] at hs; omega
  obtain ⟨F₀,hF₀,-,hmem⟩ := h.free
  obtain rfl := hF.unique hF₀
  obtain ⟨r,m',hal⟩ := h.allocate_pages_returns hR hd hle hs hempty
  obtain ⟨o',h',hw,⟨rfl,hsp,hfill,-⟩ | ⟨rfl,hsp,hm,-⟩⟩ := h.allocate_pages_spares hR hd hle hs hal
  · obtain ⟨F',hF',-⟩ := h'.free
    exact ⟨r,m',F',hal,hF',.inl ⟨rfl,hfill.extended hsp h' hd hs.le hmem⟩,hsp.keepsBelow h hd hlo⟩
  · obtain ⟨F',hF',-,hmem'⟩ := h'.free
    have hg := h.grows_of_spares h' hw hsp (fun k hk => ((hm k).mp hk).1) hempty
    exact ⟨0,m',F',hal,hF',.inr ⟨rfl,hg.rolledBack h h' hsp hd hempty hmem hmem'⟩,hsp.keepsBelow h hd hlo⟩

theorem allocate_all_or_nothing_secondPage : ∃ m d F r m' F',
    FreeChain m m.FreeList F ∧ allocateMemoryAndPageTables smallLayout m (page d) PGSIZE 5000 = .ok (r,m') ∧
    ((r = 5000 ∧ Extended m m' d 1 5000 F) ∨ (r = 0 ∧ RolledBack m m' d F F')) ∧ KeepsBelow m m' d 1 := by
  obtain ⟨R,m,o,d,h,hR,hd,hmaps,-⟩ := directory_with_page (L := smallLayout) (by decide)
  obtain ⟨F,hF,-⟩ := h.free
  have hn : ∀ k, (PGSIZE + 4095) / 4096 ≤ k → k < 2^19 → m.entry d k % 2 = 0 := by
    intro k hk hlt
    have hno : ¬ Maps o d k := by
      rw [hmaps]
      simp only [PGSIZE] at hk ⊢
      omega
    rw [h.maps_iff hd hlt] at hno
    omega
  obtain ⟨r,m',F',hal,-,hres,hkeep⟩ := allocate_all_or_nothing h hR hd (by decide : PGSIZE ≤ 5000)
    (by decide) hn hF
  exact ⟨m,d,F,r,m',F',hF,hal,hres,hkeep⟩

end UoDOS.Paging
