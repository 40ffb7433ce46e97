import UoDOS.Memory.UserPages

/-! # Copying a directory for a child process

A copy that fails frees the new directory. If it fails for want of a page table, the page just
taken for the copy is neither mapped nor freed: it stays held for ever.
-/
namespace UoDOS.Paging
open ByteMemory Function

variable {L : Layout} {R : ℕ → Prop} {m m' : Memory} {o o' : Owner}
  {c d n r size : ℕ}

def Leaks (o o' : Owner) : Prop := ∀ f, o' f = o f ∨ (o f = .free ∧ o' f = .held)

/-- The pages of `d` from `n` up to the address `size` have copies in `c` with the same
flags and contents, on pages that were free. -/
def Duplicated (d c n size : ℕ) (m : Memory) (o : Owner) (m' : Memory) (o' : Owner) : Prop :=
  ∀ k, n ≤ k → 4096 * k < size → ∃ f g, o f = .user d (k / 1024) (k % 1024) ∧ o g = .free ∧
    o' g = .user c (k / 1024) (k % 1024) ∧ m'.entry c k = 4096 * g ||| m.entry d k % 4096 ||| PTE_P ∧
    ∀ j < 1024, m'.word g j = m.word f j

def Copied (R : ℕ → Prop) (d c n size r : ℕ) (m : Memory) (o : Owner) (m' : Memory) : Prop :=
  (r = page c ∧ ∃ o', Owns R m' o' ∧ Within c o o' ∧ Spares c n size m o m' o' ∧
    Duplicated d c n size m o m' o' ∧ ∀ k, Maps o' c k ↔ Maps o c k ∨ (n ≤ k ∧ 4096 * k < size)) ∨
  (r = 0 ∧ (∃ o₁ o', Owns R m' o' ∧ Within c o o₁ ∧ Leaks (freed c o₁) o' ∧ Exhausted R o₁ ∧
    ∀ k, Maps o₁ c k → Maps o c k ∨ (n ≤ k ∧ 4096 * k < size)) ∧
    ∀ D : Set ℕ, (∀ d ∈ D, o d = .directory) → c ∉ D → Keeps D m m')

theorem freed_held {f : ℕ} (hf : o f = .free) : Leaks (freed c o) (freed c (update o f .held)) := by
  intro g
  by_cases hg : g = f
  · subst hg
    exact .inr ⟨by simp [freed,hf],by simp [freed]⟩
  · exact .inl (by simp [freed,hg])

theorem Duplicated.step {f g : ℕ} {m1 : Memory} {o1 : Owner} (hdc : d ≠ c)
    (hd : o d = .directory) (hc : o c = .directory) (hn : n < 2^19) (hw : Within c o o1)
    (hs : Spares c n (4096 * (n + 1)) m o m1 o1) (hfree : ∀ g, o1 g = .free → o g = .free)
    (hf : o f = .user d (n / 1024) (n % 1024)) (hg : o g = .free)
    (hg1 : o1 g = .user c (n / 1024) (n % 1024))
    (he : m1.entry c n = 4096 * g ||| m.entry d n % 4096 ||| PTE_P) (hwd : ∀ j < 1024, m1.word g j = m.word f j)
    (hs' : Spares c (n + 1) size m1 o1 m' o') (h : Duplicated d c (n + 1) size m1 o1 m' o') (hk : size ≤ KERNBASE) :
    Duplicated d c n size m o m' o' := by
  have hnn : 1024 * (n / 1024) + n % 1024 = n := Nat.div_add_mod n 1024
  have hnd : ∀ k, ¬ Affected c n (4096 * (n + 1)) d k := fun k ha => hdc ha.1
  intro k h1 h2
  rcases Nat.eq_or_lt_of_le h1 with rfl | hlt
  · have hna : ¬ Affected c (n + 1) size c n := fun ha => absurd ha.2.1 (by omega)
    have hna' : ¬ Affected c (n + 1) size c (1024 * (n / 1024) + n % 1024) := by rwa [hnn]
    refine ⟨f,g,hf,hg,?_,?_,fun j hj => ?_⟩
    · rw [hs'.owners g (by rw [hg1]; exact spared_user.mpr hna'),hg1]
    · rw [hs'.entries c n (hs.directory hc) (by omega) hna,he]
    · rw [hs'.words g _ _ _ hg1 hna' j hj,hwd j hj]
  · obtain ⟨f',g',hf',hg',ho',he',hw'⟩ := h k hlt h2
    have hfk : o f' = .user d (k / 1024) (k % 1024) := (hw.iff (by simp [Movable,hdc])).mp hf'
    refine ⟨f',g',hfk,hfree g' hg',ho',?_,fun j hj => ?_⟩
    · simp only [KERNBASE] at hk
      rw [he',hs.entries d k hd (by omega) (hnd k)]
    · rw [hw' j hj,hs.words f' _ _ _ hfk (hnd _) j hj]

theorem Owns.copy_loop_spares {fuel : ℕ} (h : Owns R m o) (hR : Manageable L R) (hd : o d = .directory)
    (hc : o c = .directory) (hdc : d ≠ c) (hs : size ≤ KERNBASE)
    (hl : copyLoop L (page d) size (page c) fuel m (4096 * n) = .ok (r,m')) : Copied R d c n size r m o m' := by
  induction fuel generalizing m o n with
  | zero => cases hl
  | succ fuel ih =>
    have hk : size ≤ 0x80000000 := hs
    rw [copyLoop] at hl
    by_cases ha : 4096 * n < size
    swap
    · simp only [ha,↓reduceIte] at hl
      cases hl
      exact .inl ⟨rfl,o,h,Within.refl c o,Spares.refl ..,fun k h1 h2 => by omega,
        fun k => ⟨.inl,fun hk => hk.resolve_right (by omega)⟩⟩
    simp only [ha,↓reduceIte] at hl
    have hnlt : n < 2^19 := by omega
    have hj : n % 1024 < 1024 := Nat.mod_lt _ (by norm_num)
    rcases h.lookup (4096 * n) hR hd with ⟨-,hpte⟩ | ⟨t,ht,hpte⟩
    · simp only [hpte,↓reduceIte] at hl
      cases hl
    rw [pdx_page (by omega)] at ht
    rw [ptx_page] at hpte
    have hne : page t + 4 * (n % 1024) ≠ 0 := by have := page_ne_zero t; omega
    have hload := load_page m (h.lt hR (f := t) (by simp [ht])) hj
    have hentry : m.entry d n = m.word t (n % 1024) := by
      rw [← h.entry_table ht hj,Nat.div_add_mod]
    simp only [hpte,hne,↓reduceIte,hload] at hl
    by_cases hp : m.word t (n % 1024) &&& PTE_P = 0
    · rw [if_pos hp] at hl; cases hl
    rw [if_neg hp] at hl
    have hsrc := (h.tree.user (m.word t (n % 1024) / 4096) d (n / 1024) (n % 1024)).mpr
      ⟨t,ht,by omega,hj,(present_iff _).mp hp,rfl⟩
    have hsl := h.lt hR (f := m.word t (n % 1024) / 4096) (by simp [hsrc])
    rw [pte_flags,pte_addr (word_lt _ _ _),p2v_frame hsl,← hentry] at hl
    rcases h.allocate hR with ⟨hal,hnone⟩ | ⟨f,m1,hal,hf,h₁,hw1⟩
    · obtain ⟨m2,hfr,h₂,hk2⟩ := h.free_directory_keeps hR hc
      simp only [hal,↓reduceIte,hfr,bind,Except.bind] at hl
      cases hl
      exact .inr ⟨rfl,⟨o,_,h₂,Within.refl c o,fun _ => .inl rfl,
        ⟨⟨m,h⟩,fun f _ hf => absurd hf (hnone f)⟩,fun _ => .inl⟩,hk2⟩
    · have hfl : f < 2^19 := h.lt hR (by simp [hf])
      have h₂ := h₁.memmove_data (page (m.entry d n / 4096)) hR (f := f) (.inl (by simp)) le_rfl
      have hw2 : ∀ g j, j < 1024 → g ≠ f →
          (m1.memmove (page f) (page (m.entry d n / 4096)) PGSIZE).word g j = m.word g j :=
        fun g j hj hg => (word_memmove_of_ne m1 hfl hj hg le_rfl).trans (hw1 g j)
      have hv : V2P (page f) = 4096 * f := by simpa using v2p_page (x := 0) hfl (by norm_num)
      rw [← hentry] at hsrc hsl
      simp only [hal,page_ne_zero,↓reduceIte,hv] at hl
      cases hcr : createPageTableEntries (m1.memmove (page f) (page (m.entry d n / 4096)) PGSIZE) (page c)
          (4096 * n) PGSIZE (4096 * f) (m.entry d n % 4096) with
      | error e => rw [hcr] at hl; cases hl
      | ok x =>
        obtain ⟨r1,m2⟩ := x
        rw [hcr] at hl
        rcases h.map_new hR hc hnlt hf h₂ hw2 (Nat.mod_lt _ (by norm_num)) hcr with
          ⟨rfl,rfl,hlast⟩ | ⟨rfl,o3,h3,hw3,hs3,hf3,hmaps,hfree,hent,hcopy⟩
        · obtain ⟨m3,hfr,h3,hk3⟩ := h₂.free_directory_keeps (d := c) hR (held_directory hf hc)
          simp only [hfr,bind,Except.bind] at hl
          cases hl
          refine .inr ⟨rfl,⟨o,_,h3,Within.refl c o,freed_held hf,
            ⟨⟨m,h⟩,fun g g' hg hg' => (hlast g hg).trans (hlast g' hg').symm⟩,fun _ => .inl⟩,fun D hD hcD => ?_⟩
          exact (h.keeps_page (f := f) hD (by simp [hf]) (by simp [hf]) (fun g j hg hj => hw2 g j hj hg)).trans
            (hk3 D (fun d' hd' => held_directory hf (hD d' hd')) hcD)
        · have hstep : (4096 * n + PGSIZE) % 2^32 = 4096 * (n + 1) := by simp only [PGSIZE]; omega
          have hwords : ∀ j < 1024, m2.word f j = m.word (m.entry d n / 4096) j := by
            intro j hj
            rw [hcopy j hj,word_memmove_page m1 hfl hsl hj,hw1]
          simp only [bind,Except.bind,hstep] at hl
          rcases ih h3 (hs3.directory hd) (hs3.directory hc) hl with
            ⟨hr,o',h',hw',hs',hdup,hm'⟩ | ⟨hr,⟨o1,o',h',hw',hlk,hx,hm'⟩,hk'⟩
          · refine .inl ⟨hr,o',h',hw3.trans hw',?_,?_,fun k => ?_⟩
            · exact (hs3.widen (fun k h1 h2 => ⟨h1,by omega⟩)).trans (hs'.mono (Nat.le_succ n))
            · exact hdup.step hdc hd hc hnlt hw3 hs3 hfree hsrc hf hf3 hent hwords hs' hs
            · rw [hm',hmaps,or_assoc]
              refine or_congr_right ⟨?_,?_⟩
              · rintro (rfl | hk) <;> omega
              · intro hk; omega
          · refine .inr ⟨hr,⟨o1,o',h',hw3.trans hw',hlk,hx,fun k hk => ?_⟩,fun D hD hcD => ?_⟩
            · rcases hm' k hk with hk | hk
              · rcases (hmaps k).mp hk with hk | rfl
                · exact .inl hk
                · exact .inr ⟨le_rfl,ha⟩
              · exact .inr ⟨by omega,hk.2⟩
            · exact (hs3.keeps (by simp only [KERNBASE]; omega) hD).trans
                (hk' D (fun d' hd' => hs3.directory (hD d' hd')) hcD)

theorem Owns.copy_loop_returns (fuel : ℕ) (h : Owns R m o) (hR : Manageable L R)
    (hd : o d = .directory) (hc : o c = .directory) (hdc : d ≠ c) (hs : size ≤ KERNBASE)
    (hm : ∀ k, 4096 * k < size → Maps o d k) (hn : ∀ k, n ≤ k → ¬ Maps o c k)
    (hfuel : size ≤ 4096 * (n + fuel)) :
    ∃ r m', copyLoop L (page d) size (page c) (fuel + 1) m (4096 * n) = .ok (r,m') := by
  have hk : size ≤ 0x80000000 := hs
  induction fuel generalizing m o n with
  | zero => exact ⟨page c,m,by rw [copyLoop,if_neg (by omega)]⟩
  | succ fuel ih =>
    rw [copyLoop]
    by_cases ha : 4096 * n < size
    swap
    · exact ⟨page c,m,by rw [if_neg ha]⟩
    have hnlt : n < 2^19 := by omega
    obtain ⟨g,hg⟩ := hm n ha
    obtain ⟨t,-,hpte,hpres,-⟩ := h.lookup_user hR hnlt hg
    have hne : page t + 4 * (n % 1024) ≠ 0 := by have := page_ne_zero t; omega
    have hp : m.load (page t + 4 * (n % 1024)) &&& PTE_P ≠ 0 := (present_iff _).mpr hpres
    simp only [ha,↓reduceIte,hpte,hne,hp]
    have hperm : PTE_FLAGS (m.load (page t + 4 * (n % 1024))) < 4096 := by
      rw [pte_flags]
      omega
    generalize PTE_FLAGS (m.load (page t + 4 * (n % 1024))) = flags at hperm
    generalize P2V (PTE_ADDR (m.load (page t + 4 * (n % 1024)))) = src
    rcases h.allocate hR with ⟨hal,-⟩ | ⟨f,m1,hal,hf,h1,-⟩
    · obtain ⟨m2,hfr,-⟩ := h.free_directory hR hc
      exact ⟨0,m2,by simp [hal,hfr,bind,Except.bind]⟩
    · have hfl : f < 2^19 := h.lt hR (by simp [hf])
      have hfc : c ≠ f := by rintro rfl; simp [hc] at hf
      have h2 := h1.memmove_data src hR (f := f) (.inl (by simp)) le_rfl
      have hv : V2P (page f) = 4096 * f := by simpa using v2p_page (x := 0) hfl (by norm_num)
      have hnot : ¬ Maps (update o f .held) c n := by
        rintro ⟨g',hg'⟩
        have hgf : g' ≠ f := by rintro rfl; simp at hg'
        exact hn n le_rfl ⟨g',by rwa [update_of_ne hgf] at hg'⟩
      obtain ⟨r1,m2,hcr⟩ := h2.map_page_returns (d := c) (n := n) (4096 * f) flags hR
        (by simp [hfc,hc]) hnlt hnot
      simp only [hal,page_ne_zero,↓reduceIte,hv,hcr,bind,Except.bind]
      rcases h2.map_page hR (by simp [hfc,hc]) hnlt (by simp) hperm hcr with ⟨rfl,rfl,-⟩ | ⟨rfl,-,o3,hgr,h3⟩
      · obtain ⟨m3,hfr,-⟩ := h2.free_directory (d := c) hR (by simp [hfc,hc])
        exact ⟨0,m3,by simp [hfr]⟩
      · obtain ⟨hw,hmaps⟩ := mapped_page (n := n) hf hgr
        rw [show (4096 * n + PGSIZE) % 2^32 = 4096 * (n + 1) by simp only [PGSIZE]; omega]
        simp only [lt_self_iff_false,↓reduceIte]
        refine ih h3 ((hw.iff (by simp [Movable])).mpr hd) ((hw.iff (by simp [Movable])).mpr hc)
          (fun k hk => (hw.maps hdc).mpr (hm k hk)) (fun k hk hmk => ?_) (by omega)
        rcases (hmaps k).mp hmk with hmk | rfl
        · exact hn k (by omega) hmk
        · omega

theorem Owns.copy_keeps (h : Owns R m o) (hR : Manageable L R) (hd : o d = .directory)
    (hs : size ≤ KERNBASE) (hc : copyProcessPageTable L m (page d) size = .ok (r,m')) :
    ((∃ c o', r = page c ∧ o c = .free ∧ Owns R m' o' ∧ Within c (update o c .directory) o' ∧
      (∀ k, Maps o' c k ↔ 4096 * k < size) ∧
      ∀ n, 2^19 ≤ n → n < 2^20 → m'.entry c n = ((rangeOf (kernelMemoryMap L) n).map (·.entry n)).getD 0) ∨
    (r = 0 ∧ (∃ o', Owns R m' o' ∧ Leaks o o') ∧ Scarce (1026 + (size + 4095) / 4096) o)) ∧
    ∀ D : Set ℕ, (∀ d ∈ D, o d = .directory) → Keeps D m m' := by
  rw [copyProcessPageTable] at hc
  rcases h.setup_keeps hR with ⟨m1,hset,h₁,hsc,hk1⟩ | ⟨c,m1,o1,hset,hcf,h₁,hg,hk1,hent⟩
  · rw [hset] at hc
    cases hc
    exact ⟨.inr ⟨rfl,⟨o,h₁,fun _ => .inl rfl⟩,fun F hF => (hsc F hF).trans (by omega)⟩,hk1⟩
  · rw [hset] at hc
    simp only [bind,Except.bind,page_ne_zero,↓reduceIte] at hc
    have hdc : d ≠ c := by rintro rfl; simp [hd] at hcf
    have hd1 : o1 d = .directory := (hg.iff (by simp) (by simp)).mpr (by simp [hdc,hd])
    have hc1 : o1 c = .directory := (hg.iff (by simp) (by simp)).mpr (by simp)
    have hempty := h.new_empty hcf hg
    have hnew : ∀ D : Set ℕ, (∀ d ∈ D, o d = .directory) → c ∉ D := fun D hD hm => by simp [hD c hm] at hcf
    have hD1 : ∀ D : Set ℕ, (∀ d ∈ D, o d = .directory) → ∀ d' ∈ D, o1 d' = .directory := by
      intro D hD d' hd'
      have hne : d' ≠ c := fun he => hnew D hD (he ▸ hd')
      exact (hg.iff (by simp) (by simp)).mpr (by rw [update_of_ne hne,hD d' hd'])
    rcases h₁.copy_loop_spares (n := 0) hR hd1 hc1 hdc hs hc with
      ⟨rfl,o',h',hw,hsp,-,hm⟩ | ⟨rfl,⟨o2,o',h',hw,hlk,hx,hm⟩,hk2⟩
    · refine ⟨.inl ⟨c,o',rfl,hcf,h',hg.within.trans hw,fun k => ?_,fun n h1 h2 => ?_⟩,
        fun D hD => (hk1 D hD).trans (hsp.keeps hs (hD1 D hD))⟩
      · simp [hm,hempty k]
      · rw [← hent n h2]
        exact hsp.keeps (D := {c}) hs (by simp [hc1]) c rfl n h1 h2
    · refine ⟨.inr ⟨rfl,⟨o',h',h.freed_new hcf (hg.within.trans hw) ▸ hlk⟩,?_⟩,
        fun D hD => (hk1 D hD).trans (hk2 D (hD1 D hD) (hnew D hD))⟩
      obtain ⟨⟨m2,h₂⟩,hone⟩ := hx
      refine h₂.scarce (hg.within.trans hw) (scarce_of_one hone) (h₂.users_below (fun k hk => ?_))
      rcases hm k hk with hk | hk
      · exact absurd hk (hempty _)
      · omega

theorem Owns.copy (h : Owns R m o) (hR : Manageable L R) (hd : o d = .directory)
    (hs : size ≤ KERNBASE) (hc : copyProcessPageTable L m (page d) size = .ok (r,m')) :
    (∃ c o', r = page c ∧ o c = .free ∧ Owns R m' o' ∧ Within c (update o c .directory) o' ∧
      ∀ k, Maps o' c k ↔ 4096 * k < size) ∨
    (r = 0 ∧ (∃ o', Owns R m' o' ∧ Leaks o o') ∧ Scarce (1026 + (size + 4095) / 4096) o) := by
  rcases (h.copy_keeps hR hd hs hc).1 with ⟨c,o',hr,hcf,ho,hw,hm,-⟩ | hno
  · exact .inl ⟨c,o',hr,hcf,ho,hw,hm⟩
  · exact .inr hno

theorem Owns.copy_spares (h : Owns R m o) (hR : Manageable L R) (hd : o d = .directory)
    (hs : size ≤ KERNBASE) (hr : r ≠ 0) (hc : copyProcessPageTable L m (page d) size = .ok (r,m')) :
    ∃ c o', r = page c ∧ o c = .free ∧ Owns R m' o' ∧ o' c = .directory ∧ Spares c 0 size m o m' o' ∧
      Duplicated d c 0 size m o m' o' ∧ ∀ k, Maps o' c k ↔ 4096 * k < size := by
  rw [copyProcessPageTable] at hc
  rcases h.setup_words hR with ⟨m1,hset,-⟩ | ⟨c,m1,o1,hset,hcf,h₁,hg,hw1,-⟩
  · rw [hset] at hc
    cases hc
    exact absurd rfl hr
  · rw [hset] at hc
    simp only [bind,Except.bind,page_ne_zero,↓reduceIte] at hc
    have hne : ∀ g, o g ≠ .free → g ≠ c := by rintro g hgf rfl; exact hgf hcf
    have howner : ∀ g, o g ≠ .free → o1 g = o g := by
      intro g hgf
      have hg' := hg g
      rw [update_of_ne (hne g hgf)] at hg'
      rcases hg' with he | ⟨he,-⟩
      · exact he
      · exact absurd he hgf
    have hdc := hne d (by simp [hd])
    have hc1 : o1 c = .directory := (hg.iff (by simp) (by simp)).mpr (by simp)
    have hs1 : Spares c 0 size m o m1 o1 :=
      h.spares_loose (fun g hgs => howner g hgs.1) hw1
    have hnd : ∀ k, ¬ Affected c 0 size d k := fun k ha => hdc ha.1
    rcases h₁.copy_loop_spares (n := 0) hR (hs1.directory hd) hc1 hdc hs hc with
      ⟨rfl,o',h',hw,hsp,hdup,hm⟩ | ⟨rfl,-⟩
    · refine ⟨c,o',rfl,hcf,h',hsp.directory hc1,hs1.trans hsp,fun k h1 h2 => ?_,fun k => ?_⟩
      · obtain ⟨f,g,hf,hgf,hgu,he,hwd⟩ := hdup k h1 h2
        have hgc : g ≠ c := by rintro rfl; simp [hc1] at hgf
        have hgo : o g = .free := by
          by_contra hno
          rw [howner g hno] at hgf
          exact hno hgf
        have hfo : o f = .user d (k / 1024) (k % 1024) := by
          have hfc : f ≠ c := by rintro rfl; simp [hc1] at hf
          rw [hg.iff (by simp) (by simp),update_of_ne hfc] at hf
          exact hf
        simp only [KERNBASE] at hs
        refine ⟨f,g,hfo,hgo,hgu,?_,fun j hj => ?_⟩
        · rw [he,hs1.entries d k hd (by omega) (hnd k)]
        · rw [hwd j hj,hs1.words f _ _ _ hfo (hnd _) j hj]
      · simp [hm,h.new_empty hcf hg k]
    · exact absurd rfl hr

theorem Owns.copy_returns (h : Owns R m o) (hR : Manageable L R) (hd : o d = .directory)
    (hs : size ≤ KERNBASE) (hm : ∀ k, 4096 * k < size → Maps o d k) :
    ∃ r m', copyProcessPageTable L m (page d) size = .ok (r,m') := by
  rw [copyProcessPageTable]
  rcases h.setup hR with ⟨m1,hset,-,-⟩ | ⟨c,m1,o1,hset,hcf,h1,hg⟩
  · rw [hset]
    exact ⟨0,m1,rfl⟩
  · rw [hset]
    simp only [bind,Except.bind,page_ne_zero,↓reduceIte]
    have hdc : d ≠ c := by rintro rfl; simp [hd] at hcf
    have hd1 : o1 d = .directory := (hg.iff (by simp) (by simp)).mpr (by simp [hdc,hd])
    have hc1 : o1 c = .directory := (hg.iff (by simp) (by simp)).mpr (by simp)
    refine h1.copy_loop_returns (2^20) (n := 0) hR hd1 hc1 hdc hs (fun k hk => ?_)
      (fun k _ => h.new_empty hcf hg k) (by simp only [KERNBASE] at hs; omega)
    obtain ⟨f,hf⟩ := hm k hk
    refine ⟨f,(hg.iff (by simp) (by simp)).mpr ?_⟩
    have hfc : f ≠ c := by rintro rfl; rw [hcf] at hf; cases hf
    rwa [update_of_ne hfc]

end UoDOS.Paging
