import UoDOS.Memory.SparedPages

/-! # Releasing pages of a directory

releaseUserPages moves user pages of one directory to the free list.
-/
namespace UoDOS.Paging
open ByteMemory Function

variable {L : Layout} {R : ℕ → Prop} {m m' : Memory} {o o' o'' : Owner}
  {d f hi n : ℕ}

def released (d lo hi : ℕ) (o : Owner) : Owner := fun f =>
  match o f with
  | .user d' i j => if d' = d ∧ lo ≤ 1024 * i + j ∧ 4096 * (1024 * i + j) < hi then .free else .user d' i j
  | p => p

theorem released_apply (d lo hi f : ℕ) (o : Owner) :
    (∃ i j, o f = .user d i j ∧ lo ≤ 1024 * i + j ∧ 4096 * (1024 * i + j) < hi ∧ released d lo hi o f = .free) ∨
    ((∀ i j, o f = .user d i j → ¬ (lo ≤ 1024 * i + j ∧ 4096 * (1024 * i + j) < hi)) ∧
      released d lo hi o f = o f) := by
  unfold released
  split
  · rename_i d' i j he
    by_cases hc : d' = d ∧ lo ≤ 1024 * i + j ∧ 4096 * (1024 * i + j) < hi
    · exact .inl ⟨i,j,by rw [he,hc.1],hc.2.1,hc.2.2,if_pos hc⟩
    · refine .inr ⟨fun i' j' he' hr => hc ?_,by rw [if_neg hc,he]⟩
      rw [he] at he'
      cases he'
      exact ⟨rfl,hr⟩
  · rename_i hn
    exact .inr ⟨fun i j he => absurd he (hn d i j),rfl⟩

theorem released_skip {lo : ℕ} (lo' : ℕ) (hle : lo ≤ lo')
    (hn : ∀ f i j, o f = .user d i j → 1024 * i + j < lo ∨ lo' ≤ 1024 * i + j) :
    released d lo hi o = released d lo' hi o := by
  funext f
  have h1 := released_apply d lo hi f o
  have h2 := released_apply d lo' hi f o
  have h3 := hn f
  grind

theorem released_done {lo : ℕ} (h : hi ≤ 4096 * lo) : released d lo hi o = o := by
  funext f
  have h1 := released_apply d lo hi f o
  grind

theorem released_next (hf : o f = .user d (n / 1024) (n % 1024)) (hn : 4096 * n < hi)
    (hone : ∀ g i j, o g = .user d i j → j < 1024 ∧ (1024 * i + j = n → g = f)) :
    released d n hi o = released d (n + 1) hi (update o f .free) := by
  funext g
  have h1 := released_apply d n hi g o
  have h2 := released_apply d (n + 1) hi g (update o f .free)
  by_cases hg : g = f
  · subst hg
    have h3 : 1024 * (n / 1024) + n % 1024 = n := Nat.div_add_mod n 1024
    grind
  · have h3 := hone g
    simp only [update_of_ne hg] at h2
    grind

theorem Owns.user_unique (h : Owns R m o) {i j g : ℕ} (hf : o f = .user d i j) (hg : o g = .user d i j) :
    f = g := by
  obtain ⟨t,ht,-,-,-,hq⟩ := (h.tree.user _ _ _ _).mp hf
  obtain ⟨t',ht',-,-,-,hq'⟩ := (h.tree.user _ _ _ _).mp hg
  rw [← hq,← hq',h.tree.table_unique ht ht']

theorem Owns.user_bounds (h : Owns R m o) {i j : ℕ} (hf : o f = .user d i j) : i < 512 ∧ j < 1024 := by
  obtain ⟨t,-,hi,hj,-⟩ := (h.tree.user _ _ _ _).mp hf
  exact ⟨hi,hj⟩

theorem next_table (hn : n < 2^19) :
    ((PGADDR (PDX (4096 * n) + 1) 0 0 + (2^32 - PGSIZE)) % 2^32 + PGSIZE) % 2^32 =
      4096 * (1024 * (n / 1024 + 1)) := by
  rw [pdx_page (by omega)]
  simp only [PGADDR,Nat.shiftLeft_eq,zero_mul,Nat.or_zero,PGSIZE]
  omega

theorem Owns.free_user_spares {t : ℕ} (h : Owns R m o) (hR : Manageable L R) (hd : o d = .directory)
    (ht : o t = .table d (n / 1024)) (hf : o f = .user d (n / 1024) (n % 1024)) (hn : 4096 * n < hi) :
    ∃ m', freePhysicalMemoryPage L m (page f) = .ok m' ∧
      Owns R (m'.store (page t + 4 * (n % 1024)) 0) (update o f .free) ∧
      Spares d n hi m o (m'.store (page t + 4 * (n % 1024)) 0) (update o f .free) := by
  have hj : n % 1024 < 1024 := Nat.mod_lt _ (by norm_num)
  have hnn : 1024 * (n / 1024) + n % 1024 = n := Nat.div_add_mod n 1024
  have hsf : ¬ Spared d n hi (o f) := by
    rw [hf,spared_user,hnn]
    exact fun hna => hna ⟨rfl,le_rfl,hn⟩
  have htd : t ≠ d := by rintro rfl; simp [hd] at ht
  have hfd : f ≠ d := by rintro rfl; simp [hd] at hf
  obtain ⟨m',hfree,h',hw⟩ := h.free_user_words hR ht hj hf
  refine ⟨m',hfree,h',h.spares_entries hd (fun g hg => ?_) (fun k hk hna => ?_) (fun g j hj' hg hgd hgt => ?_)⟩
  · rw [update_of_ne]
    rintro rfl
    exact hsf hg
  · have hkn : k ≠ n := by
      rintro rfl
      exact hna ⟨rfl,le_rfl,hn⟩
    apply h.entry_congr hd hk
    · exact hw d _ (by omega) (Ne.symm hfd) (fun hc => htd hc.1.symm)
    · intro t' ht'
      refine hw t' _ (Nat.mod_lt _ (by norm_num)) ?_ ?_
      · rintro rfl
        simp [hf] at ht'
      · rintro ⟨rfl,he⟩
        rw [ht,Place.table.injEq] at ht'
        omega
  · refine hw g j hj' ?_ (fun hc => hgt _ (hc.1 ▸ ht))
    rintro rfl
    exact hsf hg

theorem Owns.release_loop_spares (hi fuel : ℕ) (h : Owns R m o) (hR : Manageable L R)
    (hd : o d = .directory) (hhi : hi ≤ KERNBASE) (hfuel : (hi + 4095) / 4096 < n + fuel) (hpos : 0 < fuel) :
    ∃ m', releaseLoop L (page d) hi fuel m (4096 * n) = .ok m' ∧ Owns R m' (released d n hi o) ∧
      Spares d n hi m o m' (released d n hi o) := by
  simp only [KERNBASE] at hhi
  induction fuel generalizing m o n with
  | zero => omega
  | succ fuel ih =>
    rw [releaseLoop]
    by_cases ha : 4096 * n < hi
    swap
    · refine ⟨m,by simp [ha],?_,?_⟩
      · rwa [released_done (by omega)]
      · rw [released_done (by omega)]
        exact Spares.refl ..
    have hn : n < 2^19 := by omega
    have hstep : (4096 * n + PGSIZE) % 2^32 = 4096 * (n + 1) := by simp only [PGSIZE]; omega
    simp only [ha,↓reduceIte]
    rcases h.lookup (4096 * n) hR hd with ⟨hnone,hg⟩ | ⟨t,ht,hg⟩
    · simp only [hg,↓reduceIte,next_table hn]
      rw [pdx_page (by omega)] at hnone
      obtain ⟨m',hr,ho,hs⟩ := ih (n := 1024 * (n / 1024 + 1)) h hd (by omega) (by omega)
      rw [released_skip (1024 * (n / 1024 + 1)) (by omega)]
      · exact ⟨m',hr,ho,hs.mono (by omega)⟩
      · intro f i j hf
        have hb := h.user_bounds hf
        obtain ⟨t,ht,-⟩ := (h.tree.user _ _ _ _).mp hf
        have hi : i ≠ n / 1024 := by rintro rfl; exact hnone t ht
        omega
    · rw [pdx_page (by omega)] at ht
      rw [ptx_page] at hg
      have hj : n % 1024 < 1024 := Nat.mod_lt _ (by norm_num)
      have hne : page t + 4 * (n % 1024) ≠ 0 := by have := page_ne_zero t; omega
      have hload := load_page m (h.lt hR (f := t) (by simp [ht])) hj
      simp only [hg,hne,↓reduceIte,hload,present_iff,hstep]
      by_cases hp : m.word t (n % 1024) % 2 = 1
      · have hf := (h.tree.user (m.word t (n % 1024) / 4096) d (n / 1024) (n % 1024)).mpr
          ⟨t,ht,by omega,hj,hp,rfl⟩
        have hpos := h.pos hR (f := m.word t (n % 1024) / 4096) (by simp [hf])
        have hlt := h.lt hR (f := m.word t (n % 1024) / 4096) (by simp [hf])
        have hz : PTE_ADDR (m.word t (n % 1024)) ≠ 0 := by rw [pte_addr (word_lt _ _ _)]; omega
        obtain ⟨m1,hfree,h₁,hs1⟩ := h.free_user_spares hR hd ht hf ha
        rw [if_pos hp,if_neg hz,pte_addr (word_lt _ _ _),p2v_frame hlt,hfree]
        rw [released_next hf ha (fun g i j hg' => ⟨(h.user_bounds hg').2,fun he => ?_⟩)]
        · obtain ⟨m',hr,ho,hs⟩ := ih (n := n + 1) h₁ (hs1.directory hd) (by omega) (by omega)
          exact ⟨m',hr,ho,hs1.trans (hs.mono (by omega))⟩
        · have hb := h.user_bounds hg'
          have h1 : i = n / 1024 := by omega
          have h2 : j = n % 1024 := by omega
          exact h.user_unique (h1 ▸ h2 ▸ hg') hf
      · obtain ⟨m',hr,ho,hs⟩ := ih (n := n + 1) h hd (by omega) (by omega)
        rw [if_neg hp,released_skip (n + 1) (by omega)]
        · exact ⟨m',hr,ho,hs.mono (by omega)⟩
        · intro f i j hf
          have hb := h.user_bounds hf
          obtain ⟨t',ht',-,-,hpr,-⟩ := (h.tree.user _ _ _ _).mp hf
          have hn' : ¬ (i = n / 1024 ∧ j = n % 1024) := by
            rintro ⟨rfl,rfl⟩
            exact hp (h.tree.table_unique ht' ht ▸ hpr)
          omega

theorem Owns.release_pages_spares (oldsz newsz : ℕ) (h : Owns R m o) (hR : Manageable L R)
    (hd : o d = .directory) (hs : oldsz ≤ KERNBASE) :
    ∃ m', releaseUserPages L m (page d) oldsz newsz = .ok (min oldsz newsz,m') ∧
      Owns R m' (released d ((newsz + 4095) / 4096) oldsz o) ∧
      Spares d ((newsz + 4095) / 4096) oldsz m o m' (released d ((newsz + 4095) / 4096) oldsz o) := by
  by_cases hle : oldsz ≤ newsz
  · refine ⟨m,by simp [releaseUserPages,hle],?_,?_⟩
    · rwa [released_done (by omega)]
    · rw [released_done (by omega)]
      exact Spares.refl ..
  · obtain ⟨m',hl,ho,hk⟩ := h.release_loop_spares oldsz (2^20 + 1) (n := (newsz + 4095) / 4096) hR hd hs
      (by simp only [KERNBASE] at hs; omega) (by norm_num)
    refine ⟨m',?_,ho,hk⟩
    rw [releaseUserPages,if_neg hle,pgroundup_eq (by simp only [KERNBASE] at hs; omega),hl,min_eq_right (by omega)]
    rfl

theorem Owns.release_pages_keeps (oldsz newsz : ℕ) (h : Owns R m o) (hR : Manageable L R)
    (hd : o d = .directory) (hs : oldsz ≤ KERNBASE) :
    ∃ m', releaseUserPages L m (page d) oldsz newsz = .ok (min oldsz newsz,m') ∧
      Owns R m' (released d ((newsz + 4095) / 4096) oldsz o) ∧
      ∀ D : Set ℕ, (∀ d ∈ D, o d = .directory) → Keeps D m m' := by
  obtain ⟨m',hr,ho,hk⟩ := h.release_pages_spares oldsz newsz hR hd hs
  exact ⟨m',hr,ho,fun D hD => hk.keeps hs hD⟩

theorem Owns.release_pages (oldsz newsz : ℕ) (h : Owns R m o) (hR : Manageable L R) (hd : o d = .directory)
    (hs : oldsz ≤ KERNBASE) : ∃ m', releaseUserPages L m (page d) oldsz newsz = .ok (min oldsz newsz,m') ∧
      Owns R m' (released d ((newsz + 4095) / 4096) oldsz o) := by
  obtain ⟨m',hr,ho,-⟩ := h.release_pages_keeps oldsz newsz hR hd hs
  exact ⟨m',hr,ho⟩

end UoDOS.Paging
