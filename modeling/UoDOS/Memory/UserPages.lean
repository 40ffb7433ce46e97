import UoDOS.Memory.DirectoryLifetime

/-! # Growing the user half of a directory

All pages up to the new size are mapped, or none of the new ones.
-/
namespace UoDOS.Paging
open ByteMemory Function

variable {L : Layout} {R : ℕ → Prop} {m m' : Memory} {o o' o'' : Owner}
  {c d f hi lo n newsz oldsz r : ℕ}

def Maps (o : Owner) (d n : ℕ) : Prop := ∃ f, o f = .user d (n / 1024) (n % 1024)

theorem Owns.users_below (h : Owns R m o) (hn : ∀ k, Maps o d k → k < n) (f i j : ℕ)
    (hf : o f = .user d i j) : 1024 * i + j < n := by
  have hj := (h.user_bounds hf).2
  refine hn _ ⟨f,?_⟩
  rw [hf,show (1024 * i + j) / 1024 = i by omega,show (1024 * i + j) % 1024 = j by omega]

theorem Owns.new_empty (h : Owns R m o) (hcf : o c = .free)
    (hg : Grows c (update o c .directory) o') (k : ℕ) : ¬ Maps o' c k := by
  rintro ⟨f,hf⟩
  rw [hg.iff (by simp) (by simp)] at hf
  by_cases hfc : f = c
  · subst hfc; simp at hf
  · rw [update_of_ne hfc] at hf
    obtain ⟨t,ht,-⟩ := (h.tree.user _ _ _ _).mp hf
    rw [h.tree.table,hcf] at ht
    exact absurd ht.1 (by simp)

theorem maps_released :
    Maps (released d lo hi o) d n ↔ Maps o d n ∧ ¬ (lo ≤ n ∧ 4096 * n < hi) := by
  have hn : 1024 * (n / 1024) + n % 1024 = n := Nat.div_add_mod n 1024
  have happ := fun f => released_apply d lo hi f o
  constructor
  · rintro ⟨f,hf⟩
    rcases happ f with ⟨-,-,-,-,-,hfree⟩ | ⟨hno,heq⟩
    · rw [hfree] at hf; cases hf
    · rw [heq] at hf
      exact ⟨⟨f,hf⟩,hn ▸ hno _ _ hf⟩
  · rintro ⟨⟨f,hf⟩,hr⟩
    refine ⟨f,?_⟩
    rcases happ f with ⟨i,j,hij,hlo,hhi,-⟩ | ⟨-,heq⟩
    · rw [hf] at hij
      cases hij
      rw [hn] at hlo hhi
      exact absurd ⟨hlo,hhi⟩ hr
    · rw [heq,hf]

theorem maps_freed (h : d ≠ c) : Maps (freed c o) d n ↔ Maps o d n := by
  refine exists_congr (fun f => ?_)
  unfold freed
  cases o f with
  | user d' i j => by_cases hd : d' = c <;> simp [hd,h.symm]
  | table d' i => by_cases hd : d' = c <;> simp [hd]
  | directory => by_cases hd : f = c <;> simp [hd]
  | _ => simp

theorem within_released : Within d o (released d lo hi o) := by
  intro f
  rcases released_apply d lo hi f o with ⟨i,j,hf,-,-,hfree⟩ | ⟨-,heq⟩
  · exact .inr ⟨.inr (.inr ⟨i,j,hf⟩),.inl hfree⟩
  · exact .inl heq

theorem mapped_page (hf : o f = .free) (hg : Grows d (update o f .held) o') :
    Within d o (update o' f (.user d (n / 1024) (n % 1024))) ∧
    ∀ k, Maps (update o' f (.user d (n / 1024) (n % 1024))) d k ↔ Maps o d k ∨ k = n := by
  have hg' : ∀ g, g ≠ f → o' g = o g ∨ (o g = .free ∧ ∃ i, o' g = .table d i) := by
    intro g hgf
    simpa [hgf] using hg g
  refine ⟨fun g => ?_,fun k => ⟨?_,?_⟩⟩
  · by_cases hgf : g = f
    · subst hgf
      exact .inr ⟨.inl hf,.inr (.inr ⟨n / 1024,n % 1024,by simp⟩)⟩
    · rcases hg' g hgf with he | ⟨he,i,hi⟩
      · exact .inl (by simp [hgf,he])
      · exact .inr ⟨.inl he,.inr (.inl ⟨i,by simp [hgf,hi]⟩)⟩
  · rintro ⟨g,hgk⟩
    by_cases hgf : g = f
    · subst hgf
      simp only [update_self,Place.user.injEq] at hgk
      right
      omega
    · rw [update_of_ne hgf] at hgk
      have := hg' g hgf
      exact .inl ⟨g,by grind⟩
  · rintro (⟨g,hgk⟩ | rfl)
    · have hgf : g ≠ f := by rintro rfl; simp [hf] at hgk
      have := hg' g hgf
      exact ⟨g,by rw [update_of_ne hgf]; grind⟩
    · exact ⟨f,by simp⟩

theorem Within.maps {k : ℕ} (h : Within c o o') (hd : d ≠ c) : Maps o' d k ↔ Maps o d k :=
  exists_congr (fun _ => h.iff (by simp [Movable,hd]))

theorem Owns.lookup_user (h : Owns R m o) (hR : Manageable L R) (hn : n < 2^19)
    (hf : o f = .user d (n / 1024) (n % 1024)) : ∃ t, o t = .table d (n / 1024) ∧
      getPageTableEntry m (page d) (4096 * n) false = (page t + 4 * (n % 1024),m) ∧
      m.load (page t + 4 * (n % 1024)) % 2 = 1 ∧ m.load (page t + 4 * (n % 1024)) / 4096 = f := by
  obtain ⟨t,ht,-,hj,hp,hq⟩ := (h.tree.user _ _ _ _).mp hf
  have hd := ((h.tree.table _ _ _).mp ht).1
  have hload := load_page m (h.lt hR (f := t) (by simp [ht])) hj
  refine ⟨t,ht,?_,by rw [hload,hp],by rw [hload,hq]⟩
  rcases h.lookup (4096 * n) hR hd with ⟨hnone,-⟩ | ⟨t',ht',hg⟩
  · rw [pdx_page (by omega)] at hnone
    exact absurd ht (hnone t)
  · rw [pdx_page (by omega)] at ht'
    rw [hg,ptx_page,h.tree.table_unique ht' ht]

theorem Owns.map_page_returns (h : Owns R m o) (pa perm : ℕ) (hR : Manageable L R)
    (hd : o d = .directory) (hn : n < 2^19) (hm : ¬ Maps o d n) :
    ∃ r m', createPageTableEntries m (page d) (4096 * n) PGSIZE pa perm = .ok (r,m') := by
  rw [create_page_eq _ _ _ _ (by omega)]
  rcases h.obtain_entry_words (4096 * n) hR hd with ⟨hg,-⟩ | ⟨t,m1,o1,hg,ht,h1,hgr,-⟩
  · exact ⟨-1,m,by simp [hg]⟩
  · rw [pdx_page (by omega)] at ht
    rw [ptx_page] at hg
    have hj : n % 1024 < 1024 := Nat.mod_lt _ (by norm_num)
    have hne : page t + 4 * (n % 1024) ≠ 0 := by have := page_ne_zero t; omega
    have hload := load_page m1 (h1.lt hR (f := t) (by simp [ht])) hj
    have hp : ¬ m1.word t (n % 1024) % 2 = 1 := by
      intro hp
      have hu := (h1.tree.user _ _ _ _).mpr ⟨t,ht,by omega,hj,hp,rfl⟩
      rw [hgr.iff (by simp) (by simp)] at hu
      exact hm ⟨_,hu⟩
    simp only [hg,hne,↓reduceIte,hload,present_iff,hp]
    exact ⟨_,_,rfl⟩

theorem held_directory (hf : o f = .free) (hd : o d = .directory) :
    update o f .held d = .directory := by
  have hdf : d ≠ f := by rintro rfl; simp [hd] at hf
  rw [update_of_ne hdf,hd]

theorem Owns.map_new {perm : ℕ} {r : ℤ} {m2 : Memory} (h : Owns R m o) (hR : Manageable L R)
    (hd : o d = .directory) (hn : n < 2^19) (hf : o f = .free) (h2 : Owns R m2 (update o f .held))
    (hw2 : ∀ g j, j < 1024 → g ≠ f → m2.word g j = m.word g j) (hp : perm < 4096)
    (hc : createPageTableEntries m2 (page d) (4096 * n) PGSIZE (4096 * f) perm = .ok (r,m')) :
    (r = -1 ∧ m' = m2 ∧ ∀ g, o g = .free → g = f) ∨
    (r = 0 ∧ ∃ o', Owns R m' o' ∧ Within d o o' ∧ Spares d n (4096 * (n + 1)) m o m' o' ∧
      o' f = .user d (n / 1024) (n % 1024) ∧ (∀ k, Maps o' d k ↔ Maps o d k ∨ k = n) ∧
      (∀ g, o' g = .free → o g = .free) ∧ m'.entry d n = 4096 * f ||| perm ||| PTE_P ∧
      ∀ j < 1024, m'.word f j = m2.word f j) := by
  have hfd : f ≠ d := by rintro rfl; simp [hd] at hf
  have hsf : ¬ Spared d n (4096 * (n + 1)) (o f) := fun hs => hs.1 hf
  rcases h2.map_page_words hR (held_directory hf hd) hn (by simp) hp hc with
    ⟨rfl,rfl,hnone⟩ | ⟨rfl,-,o1,hgr,h1,hent,hw⟩
  · refine .inl ⟨rfl,rfl,fun g hg => ?_⟩
    by_contra hgf
    exact hnone g (by rwa [update_of_ne hgf])
  · obtain ⟨hwithin,hmaps⟩ := mapped_page (n := n) hf hgr
    refine .inr ⟨rfl,_,h1,hwithin,?_,by simp,hmaps,fun g hg => ?_,?_,fun j hj => ?_⟩
    · refine h.spares_entries hd (fun g hg => ?_) (fun k hk hna => ?_) (fun g j hj hg hgd hgt => ?_)
      · have hgf : g ≠ f := by rintro rfl; exact hsf hg
        have hg1 := hgr g
        rw [update_of_ne hgf] at hg1 ⊢
        rcases hg1 with he | ⟨he,-⟩
        · exact he
        · exact absurd he hg.1
      · have hkn : k ≠ n := by
          rintro rfl
          exact hna ⟨rfl,le_rfl,by omega⟩
        rw [hent k hk,if_neg hkn]
        apply h.entry_congr hd hk
        · exact hw2 d _ (by omega) (Ne.symm hfd)
        · intro t ht
          refine hw2 t _ (Nat.mod_lt _ (by norm_num)) ?_
          rintro rfl
          simp [hf] at ht
      · have hgf : g ≠ f := by rintro rfl; exact hsf hg
        rw [hw g j hj (by rw [update_of_ne hgf]; exact hg.1) (fun hc => hgd hc.1)
          (by rw [update_of_ne hgf]; exact hgt _),hw2 g j hj hgf]
    · have hgf : g ≠ f := by rintro rfl; simp at hg
      have hg1 := hgr g
      rw [update_of_ne hgf] at hg hg1
      rcases hg1 with he | ⟨he,-⟩
      · rw [← he,hg]
      · exact he
    · rw [hent n (by omega),if_pos rfl]
    · exact hw f j hj (by simp) (fun hc => hfd hc.1) (by simp)

def Grown (R : ℕ → Prop) (d lo n hi r : ℕ) (o : Owner) (m' : Memory) : Prop :=
  ∃ o', Owns R m' o' ∧ Within d o o' ∧
    ((r = hi ∧ ∀ k, Maps o' d k ↔ Maps o d k ∨ (n ≤ k ∧ 4096 * k < hi)) ∨
      (r = 0 ∧ ∀ k, Maps o' d k ↔ Maps o d k ∧ ¬ (lo ≤ k ∧ 4096 * k < hi)))

def Filled (d n hi : ℕ) (o : Owner) (m' : Memory) (o' : Owner) : Prop :=
  ∀ k, n ≤ k → 4096 * k < hi → ∃ f, o f = .free ∧ o' f = .user d (k / 1024) (k % 1024) ∧
    m'.entry d k = 4096 * f ||| (PTE_W ||| PTE_U) ||| PTE_P ∧ ∀ j < 1024, m'.word f j = 0

/-- A state between, with pages up to the address `hi` added, in which at most one page
is left. -/
def RunsOut (R : ℕ → Prop) (d n hi : ℕ) (m : Memory) (o : Owner) : Prop :=
  ∃ m₁ o₁, Owns R m₁ o₁ ∧ Within d o o₁ ∧ Spares d n hi m o m₁ o₁ ∧
    (∀ f g, o₁ f = .free → o₁ g = .free → f = g) ∧ ∀ k, Maps o₁ d k → Maps o d k ∨ (n ≤ k ∧ 4096 * k < hi)

theorem RunsOut.scarce (h : RunsOut R d n hi m o) (hn : ∀ k, n ≤ k → ¬ Maps o d k) :
    Scarce (1025 + ((hi + 4095) / 4096 - n)) o := by
  obtain ⟨m1,o1,h1,hw,hs,hone,hm⟩ := h
  have hnew : ∀ f i j, o f = .free → o1 f = .user d i j →
      n ≤ 1024 * i + j ∧ 1024 * i + j < (hi + 4095) / 4096 := by
    intro f i j hf hu
    have hj := (h1.user_bounds hu).2
    have hu' : o1 f = .user d ((1024 * i + j) / 1024) ((1024 * i + j) % 1024) := by
      rw [hu,show (1024 * i + j) / 1024 = i by omega,show (1024 * i + j) % 1024 = j by omega]
    rcases hm _ ⟨f,hu'⟩ with ⟨g,hg⟩ | hk
    · -- the page of an earlier entry is not one of the free ones
      have hna : ¬ Affected d n hi d (1024 * i + j) := fun ha => hn _ ha.2.1 ⟨g,hg⟩
      have hg1 := hs.owners g (by rw [hg,spared_user,Nat.div_add_mod]; exact hna)
      obtain rfl := h1.user_unique hu' (hg1.trans hg)
      simp [hf] at hg
    · omega
  exact (h1.scarce_within n hw (scarce_of_one hone) hnew).mono (by omega)

/-- The same with what is left alone, with the new pages, and with the state in which there
was no page left. -/
def Allocated (R : ℕ → Prop) (d lo n hi r : ℕ) (m : Memory) (o : Owner) (m' : Memory) : Prop :=
  ∃ o', Owns R m' o' ∧ Within d o o' ∧
    ((r = hi ∧ Spares d n hi m o m' o' ∧ Filled d n hi o m' o' ∧
        ∀ k, Maps o' d k ↔ Maps o d k ∨ (n ≤ k ∧ 4096 * k < hi)) ∨
      (r = 0 ∧ Spares d lo hi m o m' o' ∧ (∀ k, Maps o' d k ↔ Maps o d k ∧ ¬ (lo ≤ k ∧ 4096 * k < hi)) ∧
        RunsOut R d n hi m o))

theorem Spares.free_again {m1 m2 : Memory} {o1 : Owner} (h : Spares d lo hi m o m1 o1)
    (h1 : Owns R m1 o1) (hf : o f = .free) (hf1 : o1 f = .held)
    (hw : ∀ g j, g ≠ f → j < 1024 → m2.word g j = m1.word g j) :
    Spares d lo hi m o m2 (update o1 f .free) := by
  have hne : ∀ g, o g ≠ .free → g ≠ f := by rintro g hg rfl; exact hg hf
  refine ⟨fun g hg => ?_,fun d' k hd hk hna => ?_,fun g d' i j hg hna k hk => ?_,fun g hg j hj => ?_⟩
  · rw [update_of_ne (hne g hg.1),h.owners g hg]
  · rw [← h.entries d' k hd hk hna]
    apply h1.entry_congr (h.directory hd) hk
    · exact hw d' _ (hne d' (by simp [hd])) (by omega)
    · intro t ht
      refine hw t _ ?_ (Nat.mod_lt _ (by norm_num))
      rintro rfl
      simp [hf1] at ht
  · rw [hw g k (hne g (by simp [hg])) hk,h.words g d' i j hg hna k hk]
  · rw [hw g j (hne g hg.not_free) hj,h.outside g hg j hj]

theorem Owns.allocate_loop_spares {fuel : ℕ} (h : Owns R m o) (hR : Manageable L R)
    (hd : o d = .directory) (hs : newsz < KERNBASE) (hlo : (oldsz + 4095) / 4096 ≤ n)
    (hc : allocateLoop L (page d) oldsz newsz fuel m (4096 * n) = .ok (r,m')) :
    Allocated R d ((oldsz + 4095) / 4096) n newsz r m o m' := by
  induction fuel generalizing m o n with
  | zero => cases hc
  | succ fuel ih =>
    have hk : newsz < 0x80000000 := hs
    rw [allocateLoop] at hc
    by_cases ha : 4096 * n < newsz
    swap
    · simp only [ha,↓reduceIte] at hc
      cases hc
      exact ⟨o,h,Within.refl d o,.inl ⟨rfl,Spares.refl ..,fun k h1 h2 => by omega,
        fun k => ⟨.inl,fun hk => hk.resolve_right (by omega)⟩⟩⟩
    simp only [ha,↓reduceIte] at hc
    rcases h.allocate hR with ⟨hal,hnone⟩ | ⟨f,m1,hal,hf,h₁,hw1⟩
    · obtain ⟨m2,hr,h₂,hs2⟩ := h.release_pages_spares newsz oldsz hR hd hs.le
      simp only [hal,↓reduceIte,hr,bind,Except.bind] at hc
      cases hc
      exact ⟨_,h₂,within_released,.inr ⟨rfl,hs2,fun k => maps_released,m,o,h,Within.refl d o,
        Spares.refl ..,fun f _ hf => absurd hf (hnone f),fun _ => .inl⟩⟩
    · have hfl : f < 2^19 := h.lt hR (by simp [hf])
      have hne : ∀ g, o g ≠ .free → g ≠ f := by rintro g hg rfl; exact hg hf
      have h₂ := h₁.memset_held (c := 0) hR (f := f) (by simp)
      have hw2 : ∀ g j, j < 1024 → g ≠ f → (m1.memset (page f) 0 PGSIZE).word g j = m.word g j :=
        fun g j hj hg => (word_memset_of_ne m1 hfl hj hg).trans (hw1 g j)
      have hv : V2P (page f) = 4096 * f := by simpa using v2p_page (x := 0) hfl (by norm_num)
      simp only [hal,page_ne_zero,↓reduceIte,hv] at hc
      cases hcr : createPageTableEntries (m1.memset (page f) 0 PGSIZE) (page d) (4096 * n) PGSIZE (4096 * f)
          (PTE_W ||| PTE_U) with
      | error e => rw [hcr] at hc; cases hc
      | ok x =>
        obtain ⟨r1,m2⟩ := x
        rw [hcr] at hc
        rcases h.map_new hR hd (by omega) hf h₂ hw2 (by decide) hcr with
          ⟨rfl,rfl,hlast⟩ | ⟨rfl,o3,h3,hw3,hs3,hf3,hmaps,hfree,hent,hzero⟩
        · obtain ⟨m3,hr,h3,hs3⟩ := h₂.release_pages_spares (d := d) newsz oldsz hR
            (held_directory hf hd) hs.le
          have hh : released d ((oldsz + 4095) / 4096) newsz (update o f .held) f = .held := by
            simp [released]
          obtain ⟨m4,hfr,h4,hw4⟩ := h3.free_held hR hh
          simp only [hr,hfr,bind,Except.bind] at hc
          cases hc
          have hs2 : Spares d ((oldsz + 4095) / 4096) newsz m o (m1.memset (page f) 0 PGSIZE)
              (update o f .held) :=
            h.spares_loose (fun g hg => update_of_ne (hne g hg.1) ..)
              (fun g j hj hg => hw2 g j hj (hne g hg))
          have hback : update (released d ((oldsz + 4095) / 4096) newsz (update o f .held)) f
              .free = released d ((oldsz + 4095) / 4096) newsz o := by
            funext g
            by_cases hgf : g = f
            · subst hgf; simp [released,hf]
            · simp [released,hgf]
          have hs4 := (hs2.trans hs3).free_again h3 hf hh hw4
          rw [hback] at h4 hs4
          exact ⟨_,h4,within_released,.inr ⟨rfl,hs4,fun k => maps_released,m,o,h,Within.refl d o,
            Spares.refl ..,fun g g' hg hg' => (hlast g hg).trans (hlast g' hg').symm,fun _ => .inl⟩⟩
        · have hstep : (4096 * n + PGSIZE) % 2^32 = 4096 * (n + 1) := by simp only [PGSIZE]; omega
          have hnn : 1024 * (n / 1024) + n % 1024 = n := Nat.div_add_mod n 1024
          simp only [bind,Except.bind,hstep] at hc
          obtain ⟨o',h',hw',hres⟩ := ih h3 (hs3.directory hd) (by omega) hc
          refine ⟨o',h',hw3.trans hw',?_⟩
          rcases hres with ⟨hr,hs',hfill,hm'⟩ | ⟨hr,hs',hm',m4,o1,h4,hw1',hs1',hone,hm1⟩
          · refine .inl ⟨hr,?_,fun k h1 h2 => ?_,fun k => ?_⟩
            · exact (hs3.widen (fun k h1 h2 => ⟨h1,by omega⟩)).trans (hs'.mono (Nat.le_succ n))
            · rcases Nat.eq_or_lt_of_le h1 with rfl | hlt
              · have hna : ¬ Affected d (n + 1) newsz d n := fun hc => absurd hc.2.1 (by omega)
                have hna' : ¬ Affected d (n + 1) newsz d (1024 * (n / 1024) + n % 1024) := by rwa [hnn]
                refine ⟨f,hf,?_,?_,fun j hj => ?_⟩
                · rw [hs'.owners f (by rw [hf3]; exact spared_user.mpr hna'),hf3]
                · rw [hs'.entries d n (hs3.directory hd) (by omega) hna,hent]
                · rw [hs'.words f _ _ _ hf3 hna' j hj,hzero j hj,word_memset_zero m1 hfl hj,if_pos rfl]
              · obtain ⟨g,hg,hrest⟩ := hfill k hlt h2
                exact ⟨g,hfree g hg,hrest⟩
            · rw [hm',hmaps,or_assoc]
              refine or_congr_right ⟨?_,?_⟩
              · rintro (rfl | hk) <;> omega
              · intro hk; omega
          · refine .inr ⟨hr,?_,fun k => ?_,m4,o1,h4,hw3.trans hw1',?_,hone,fun k hk => ?_⟩
            · exact (hs3.widen (fun k h1 h2 => ⟨by omega,by omega⟩)).trans hs'
            · rw [hm',hmaps]
              constructor
              · rintro ⟨hk | rfl,hn⟩
                · exact ⟨hk,hn⟩
                · exact absurd ⟨hlo,ha⟩ hn
              · rintro ⟨hk,hn⟩
                exact ⟨.inl hk,hn⟩
            · exact (hs3.widen (fun k h1 h2 => ⟨h1,by omega⟩)).trans (hs1'.mono (Nat.le_succ n))
            · rcases hm1 k hk with hk | ⟨h1,h2⟩
              · rcases (hmaps k).mp hk with hk | rfl
                · exact .inl hk
                · exact .inr ⟨le_rfl,ha⟩
              · exact .inr ⟨by omega,h2⟩

theorem Owns.allocate_pages_spares (h : Owns R m o) (hR : Manageable L R)
    (hd : o d = .directory) (hle : oldsz ≤ newsz) (hs : newsz < KERNBASE)
    (hc : allocateMemoryAndPageTables L m (page d) oldsz newsz = .ok (r,m')) :
    Allocated R d ((oldsz + 4095) / 4096) ((oldsz + 4095) / 4096) newsz r m o m' := by
  rw [allocateMemoryAndPageTables,if_neg (by omega),if_neg (by omega),
    pgroundup_eq (by simp only [KERNBASE] at hs; omega)] at hc
  exact h.allocate_loop_spares hR hd hs le_rfl hc

theorem Owns.allocate_pages_keeps (h : Owns R m o) (hR : Manageable L R)
    (hd : o d = .directory) (hle : oldsz ≤ newsz) (hs : newsz < KERNBASE)
    (hc : allocateMemoryAndPageTables L m (page d) oldsz newsz = .ok (r,m')) :
    Grown R d ((oldsz + 4095) / 4096) ((oldsz + 4095) / 4096) newsz r o m' ∧
      ∀ D : Set ℕ, (∀ d ∈ D, o d = .directory) → Keeps D m m' := by
  obtain ⟨o',h',hw,⟨hr,hsp,-,hm⟩ | ⟨hr,hsp,hm,-⟩⟩ := h.allocate_pages_spares hR hd hle hs hc
  · exact ⟨⟨o',h',hw,.inl ⟨hr,hm⟩⟩,fun D hD => hsp.keeps hs.le hD⟩
  · exact ⟨⟨o',h',hw,.inr ⟨hr,hm⟩⟩,fun D hD => hsp.keeps hs.le hD⟩

theorem Owns.allocate_pages (h : Owns R m o) (hR : Manageable L R)
    (hd : o d = .directory) (hle : oldsz ≤ newsz) (hs : newsz < KERNBASE)
    (hc : allocateMemoryAndPageTables L m (page d) oldsz newsz = .ok (r,m')) :
    Grown R d ((oldsz + 4095) / 4096) ((oldsz + 4095) / 4096) newsz r o m' :=
  (h.allocate_pages_keeps hR hd hle hs hc).1

theorem Owns.allocate_loop_returns (fuel : ℕ) (h : Owns R m o) (hR : Manageable L R)
    (hd : o d = .directory) (hs : newsz < KERNBASE) (hn : ∀ k, n ≤ k → ¬ Maps o d k)
    (hfuel : newsz ≤ 4096 * (n + fuel)) :
    ∃ r m', allocateLoop L (page d) oldsz newsz (fuel + 1) m (4096 * n) = .ok (r,m') := by
  have hk : newsz < 0x80000000 := hs
  induction fuel generalizing m o n with
  | zero => exact ⟨newsz,m,by rw [allocateLoop,if_neg (by omega)]⟩
  | succ fuel ih =>
    rw [allocateLoop]
    by_cases ha : 4096 * n < newsz
    swap
    · exact ⟨newsz,m,by rw [if_neg ha]⟩
    simp only [ha,↓reduceIte]
    rcases h.allocate hR with ⟨hal,-⟩ | ⟨f,m1,hal,hf,h1,hw1⟩
    · obtain ⟨m2,hr,-⟩ := h.release_pages newsz oldsz hR hd hs.le
      exact ⟨0,m2,by simp [hal,hr,bind,Except.bind]⟩
    · have hfl : f < 2^19 := h.lt hR (by simp [hf])
      have h2 := h1.memset_held (c := 0) hR (f := f) (by simp)
      have hw2 : ∀ g j, j < 1024 → g ≠ f → (m1.memset (page f) 0 PGSIZE).word g j = m.word g j :=
        fun g j hj hg => (word_memset_of_ne m1 hfl hj hg).trans (hw1 g j)
      have hv : V2P (page f) = 4096 * f := by simpa using v2p_page (x := 0) hfl (by norm_num)
      have hnot : ¬ Maps (update o f .held) d n := by
        rintro ⟨g,hg⟩
        have hgf : g ≠ f := by rintro rfl; simp at hg
        exact hn n le_rfl ⟨g,by rwa [update_of_ne hgf] at hg⟩
      obtain ⟨r1,m2,hcr⟩ := h2.map_page_returns (d := d) (n := n) (4096 * f) (PTE_W ||| PTE_U) hR
        (held_directory hf hd) (by omega) hnot
      simp only [hal,page_ne_zero,↓reduceIte,hv,hcr,bind,Except.bind]
      rcases h.map_new hR hd (by omega) hf h2 hw2 (by decide) hcr with
        ⟨rfl,rfl,-⟩ | ⟨rfl,o3,h3,-,hs3,-,hmaps,-⟩
      · obtain ⟨m3,hr,h3⟩ := h2.release_pages (d := d) newsz oldsz hR (held_directory hf hd) hs.le
        obtain ⟨m4,hfr,-⟩ := h3.free_held (f := f) hR (by simp [released])
        exact ⟨0,m4,by simp [hr,hfr]⟩
      · rw [show (4096 * n + PGSIZE) % 2^32 = 4096 * (n + 1) by simp only [PGSIZE]; omega]
        simp only [lt_self_iff_false,↓reduceIte]
        refine ih h3 (hs3.directory hd) (fun k hk hmk => ?_) (by omega)
        rcases (hmaps k).mp hmk with hmk | rfl
        · exact hn k (by omega) hmk
        · omega

theorem Owns.allocate_pages_returns (h : Owns R m o) (hR : Manageable L R)
    (hd : o d = .directory) (hle : oldsz ≤ newsz) (hs : newsz < KERNBASE)
    (hn : ∀ k, (oldsz + 4095) / 4096 ≤ k → ¬ Maps o d k) :
    ∃ r m', allocateMemoryAndPageTables L m (page d) oldsz newsz = .ok (r,m') := by
  have hk : newsz < 0x80000000 := hs
  rw [allocateMemoryAndPageTables,if_neg (by omega),if_neg (by omega),pgroundup_eq (by omega)]
  exact h.allocate_loop_returns (2^20 - 1) hR hd hs hn (by omega)

theorem Owns.initialise_user {size : ℕ} (h : Owns R m o) (init : ℕ) (hR : Manageable L R)
    (hd : o d = .directory) (hz : ¬ Maps o d 0) (hs : size < PGSIZE) :
    (initialiseUserVirtualMemory m (page d) init size = .error .nullPointer ∧ ∀ f, o f ≠ .free) ∨
    ∃ m' o', initialiseUserVirtualMemory m (page d) init size = .ok m' ∧ Owns R m' o' ∧
      ((Within d o o' ∧ ∀ k, Maps o' d k ↔ Maps o d k ∨ k = 0) ∨
        ∃ f, o f = .free ∧ o' = update o f .held ∧ ∀ g, o' g ≠ .free) := by
  rw [initialiseUserVirtualMemory,if_neg (not_le.mpr hs)]
  rcases h.allocate hR with ⟨hal,hnone⟩ | ⟨f,m1,hal,hf,h1,-⟩
  · exact .inl ⟨by simp [hal],hnone⟩
  right
  have hfl : f < 2^19 := h.lt hR (by simp [hf])
  have hdf : d ≠ f := by rintro rfl; simp [hd] at hf
  have h2 := h1.memset_held (c := 0) hR (f := f) (by simp)
  have hv : V2P (page f) = 4096 * f := by simpa using v2p_page (x := 0) hfl (by norm_num)
  have hnot : ¬ Maps (update o f .held) d 0 := by
    rintro ⟨g,hg⟩
    have hgf : g ≠ f := by rintro rfl; simp at hg
    exact hz ⟨g,by rwa [update_of_ne hgf] at hg⟩
  obtain ⟨r,m2,hcr⟩ := h2.map_page_returns (d := d) (n := 0) (4096 * f) (PTE_W ||| PTE_U) hR
    (by simp [hdf,hd]) (by norm_num) hnot
  have hmap := h2.map_page (d := d) (n := 0) (f := f) hR (by simp [hdf,hd]) (by norm_num) (by simp)
    (by decide) hcr
  rw [Nat.mul_zero] at hcr
  simp only [hal,page_ne_zero,↓reduceIte,hv,hcr,bind,Except.bind]
  rcases hmap with ⟨-,rfl,hnone⟩ | ⟨-,-,o3,hg,h3⟩
  · exact ⟨_,_,rfl,h2.memmove_data init hR (.inl (by simp)) hs.le,.inr ⟨f,hf,rfl,hnone⟩⟩
  · obtain ⟨hw,hmaps⟩ := mapped_page (n := 0) hf hg
    exact ⟨_,_,rfl,h3.memmove_data init hR (.inr ⟨d,_,_,update_self ..⟩) hs.le,.inl ⟨hw,hmaps⟩⟩

end UoDOS.Paging
