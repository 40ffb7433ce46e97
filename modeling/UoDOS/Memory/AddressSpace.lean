import UoDOS.Memory.OwnedPages

/-! # Mapping pages of a directory

The loops of vm.c are described by what they do to the owners of pages, and by the
entries of the kernel halves that they keep: mapping adds tables and user pages to
a directory.
-/
namespace UoDOS.Paging
open ByteMemory Function

variable {L : Layout} {R : ℕ → Prop} {m m' : Memory} {o o' o'' : Owner}
  {d f n perm : ℕ} {D : Set ℕ}

def Grows (d : ℕ) (o o' : Owner) : Prop := ∀ f, o' f = o f ∨ (o f = .free ∧ ∃ i, o' f = .table d i)

theorem Grows.refl (d : ℕ) (o : Owner) : Grows d o o := fun _ => .inl rfl

theorem Grows.trans (h : Grows d o o') (h' : Grows d o' o'') : Grows d o o'' := by
  intro f
  have h1 := h f
  have h2 := h' f
  grind

theorem Grows.iff (h : Grows d o o') {p : Place} (hp : p ≠ .free) (ht : ∀ i, p ≠ .table d i) :
    o' f = p ↔ o f = p := by
  have := h f
  grind

def Blank (m : Memory) (o : Owner) (d n : ℕ) : Prop :=
  ∀ t i j, o t = .table d i → j < 1024 → n ≤ 1024 * i + j → m.word t j % 2 ≠ 1

theorem Blank.mono {n' : ℕ} (h : Blank m o d n) (hn : n ≤ n') : Blank m o d n' :=
  fun t i j ht hj hle => h t i j ht hj (hn.trans hle)

/-- The entry of directory `d` for page `n`, 0 where there is no table. -/
def Memory.entry (m : Memory) (d n : ℕ) : ℕ :=
  if m.word d (n / 1024) % 2 = 1 then m.word (m.word d (n / 1024) / 4096) (n % 1024) else 0

theorem Memory.entry_lt (m : Memory) (d n : ℕ) : m.entry d n < 2^32 := by
  unfold Memory.entry
  split_ifs
  · exact word_lt ..
  · norm_num

def Keeps (D : Set ℕ) (m m' : Memory) : Prop := ∀ d ∈ D, ∀ n, 2^19 ≤ n → n < 2^20 → m'.entry d n = m.entry d n

theorem Keeps.refl (D : Set ℕ) (m : Memory) : Keeps D m m := fun _ _ _ _ _ => rfl

theorem Keeps.trans {m1 m2 m3 : Memory} (h : Keeps D m1 m2) (h' : Keeps D m2 m3) : Keeps D m1 m3 :=
  fun d hd n h1 h2 => (h' d hd n h1 h2).trans (h d hd n h1 h2)

theorem Owns.entry_congr (h : Owns R m o) (hd : o d = .directory) (hn : n < 2^20)
    (hw : m'.word d (n / 1024) = m.word d (n / 1024))
    (ht : ∀ t, o t = .table d (n / 1024) → m'.word t (n % 1024) = m.word t (n % 1024)) :
    m'.entry d n = m.entry d n := by
  unfold Memory.entry
  rw [hw]
  split_ifs with hp
  · exact ht _ ((h.tree.table _ _ _).mpr ⟨hd,by omega,hp,rfl⟩)
  · rfl

theorem Owns.keeps (h : Owns R m o) (hD : ∀ d ∈ D, o d = .directory)
    (hw : ∀ d ∈ D, ∀ i, 512 ≤ i → i < 1024 → m'.word d i = m.word d i)
    (ht : ∀ d ∈ D, ∀ t i j, 512 ≤ i → o t = .table d i → j < 1024 → m'.word t j = m.word t j) : Keeps D m m' :=
  fun d hd n _ hn => h.entry_congr (hD d hd) hn (hw d hd _ (by omega) (by omega))
    (fun t htt => ht d hd t _ _ (by omega) htt (Nat.mod_lt _ (by norm_num)))

theorem Owns.keeps_page (h : Owns R m o) (hD : ∀ d ∈ D, o d = .directory)
    (hf : o f ≠ .directory) (hft : ∀ d i, 512 ≤ i → o f ≠ .table d i)
    (hw : ∀ g j, g ≠ f → j < 1024 → m'.word g j = m.word g j) : Keeps D m m' := by
  refine h.keeps hD (fun d hd i _ hi => hw d i ?_ hi) (fun d hd t i j hi htt hj => hw t j ?_ hj)
  · rintro rfl
    exact hf (hD _ hd)
  · rintro rfl
    exact hft d i hi htt

theorem Owns.obtain_entry_words (va : ℕ) (h : Owns R m o) (hR : Manageable L R) (hd : o d = .directory) :
    (getPageTableEntry m (page d) va true = (0,m) ∧ ∀ f, o f ≠ .free) ∨
    ∃ t m' o', getPageTableEntry m (page d) va true = (page t + 4 * PTX va,m') ∧
      o' t = .table d (PDX va) ∧ Owns R m' o' ∧ Grows d o o' ∧
      (∀ n, n < 2^20 → m'.entry d n = m.entry d n) ∧
      (∀ g j, j < 1024 → o g ≠ .free → ¬ (g = d ∧ j = PDX va) → m'.word g j = m.word g j) ∧
      ∀ f i, o' f = .table d i → o f = .table d i ∨ i = PDX va := by
  have hdl : d < 2^19 := h.lt hR (by simp [hd])
  have hi : PDX va < 1024 := by rw [pdx_eq]; omega
  have hload := load_page m hdl hi
  by_cases hp : m.word d (PDX va) % 2 = 1
  · have ht := (h.tree.table (m.word d (PDX va) / 4096) d (PDX va)).mpr ⟨hd,hi,hp,rfl⟩
    refine .inr ⟨_,m,o,?_,ht,h,Grows.refl d o,fun _ _ => rfl,fun _ _ _ _ _ => rfl,fun _ _ => .inl⟩
    simp only [getPageTableEntry,hload]
    rw [if_pos ((present_iff _).mpr hp),pte_addr (word_lt _ _ _),p2v_frame (h.lt hR (by simp [ht]))]
  · have hnp : ¬ (m.word d (PDX va) &&& PTE_P ≠ 0) := fun hc => hp ((present_iff _).mp hc)
    rcases h.allocate hR with ⟨ha,hnone⟩ | ⟨t,m1,ha,htf,h1,hw1⟩
    · refine .inl ⟨?_,hnone⟩
      simp only [getPageTableEntry,hload,if_neg hnp,ha]
      simp
    · have htl : t < 2^19 := h.lt hR (by simp [htf])
      have hdt : d ≠ t := by rintro rfl; simp [hd] at htf
      have h2 := h1.memset_held (c := 0) hR (f := t) (by simp)
      have he : V2P (page t) ||| PTE_P ||| PTE_W ||| PTE_U = 4096 * t ||| 6 ||| PTE_P := by
        rw [show V2P (page t) = 4096 * t by simpa using v2p_page (x := 0) htl (by norm_num)]
        simp only [Nat.or_assoc]
        rfl
      have hword : ∀ g j, j < 1024 → g ≠ t → ¬ (g = d ∧ j = PDX va) →
          ((m1.memset (page t) 0 PGSIZE).store (page d + 4 * PDX va) (4096 * t ||| 6 ||| PTE_P)).word g j =
            m.word g j := by
        intro g j hj hg hn
        rw [word_store _ hdl hi hj (entry_lt htl (by norm_num)),if_neg hn,word_memset_of_ne m1 htl hj hg,hw1]
      have h3 := h2.install_table (d := d) (i := PDX va) (t := t) hR (by simp [hdt,hd]) hi ?_
        (by simp) (fun j hj => by simp [word_memset_zero m1 htl hj]) (show 6 < 4096 by norm_num)
      · refine .inr ⟨t,_,_,?_,?_,h3,?_,fun n hn => ?_,fun g j hj hg hn => hword g j hj ?_ hn,fun f i hf => ?_⟩
        · simp only [getPageTableEntry,hload,if_neg hnp,ha,if_neg (page_ne_zero t),he]
          rfl
        · simp
        · intro f
          by_cases hf : f = t
          · subst hf; exact .inr ⟨htf,PDX va,by simp⟩
          · exact .inl (by simp [hf])
        · by_cases hni : n / 1024 = PDX va
          · have hjn : n % 1024 < 1024 := Nat.mod_lt _ (by norm_num)
            have hte : 4096 * t ||| 6 ||| PTE_P < 2^32 := entry_lt htl (by norm_num)
            have hde := word_store (m1.memset (page t) 0 PGSIZE) (g := d) hdl hi hi hte
            rw [if_pos ⟨rfl,rfl⟩] at hde
            unfold Memory.entry
            rw [hni,if_neg hp,hde,entry_frame (by norm_num),if_pos (entry_present (by norm_num)),
              word_store _ hdl hi hjn (entry_lt htl (by norm_num)),if_neg (by tauto),word_memset_zero m1 htl hjn,
              if_pos rfl]
          · refine h.entry_congr hd hn (hword d _ (by omega) hdt (by tauto)) (fun t' ht' => ?_)
            refine hword t' _ (Nat.mod_lt _ (by norm_num)) ?_ ?_
            · rintro rfl
              simp [htf] at ht'
            · rintro ⟨rfl,-⟩
              simp [hd] at ht'
        · rintro rfl
          exact hg htf
        · by_cases hft : f = t
          · subst hft
            rw [update_self,Place.table.injEq] at hf
            exact .inr hf.2.symm
          · rw [update_of_ne hft,update_of_ne hft] at hf
            exact .inl hf
      · rw [word_memset_of_ne m1 htl hi hdt,hw1]
        exact hp

theorem Owns.entry_table {i j t : ℕ} (h : Owns R m o) (ht : o t = .table d i) (hj : j < 1024) :
    m.entry d (1024 * i + j) = m.word t j := by
  obtain ⟨-,-,hp,hw⟩ := (h.tree.table _ _ _).mp ht
  rw [Memory.entry,show (1024 * i + j) / 1024 = i by omega,show (1024 * i + j) % 1024 = j by omega,if_pos hp,hw]

theorem Owns.blank_of_entries (h : Owns R m o) (hd : o d = .directory) (h' : Owns R m' o')
    (he : ∀ k, k < 2^20 → m'.entry d k = m.entry d k) (hb : Blank m o d n) : Blank m' o' d n := by
  intro t i j ht hj hle
  obtain ⟨-,hi,-⟩ := (h'.tree.table _ _ _).mp ht
  rw [← h'.entry_table ht hj,he _ (by omega),Memory.entry]
  rw [show (1024 * i + j) / 1024 = i by omega,show (1024 * i + j) % 1024 = j by omega]
  split_ifs with hp
  · exact hb _ i j ((h.tree.table _ _ _).mpr ⟨hd,hi,hp,rfl⟩) hj hle
  · simp

theorem pdx_page (hn : n < 2^20) : PDX (4096 * n) = n / 1024 := by
  rw [pdx_eq]
  omega

theorem ptx_page (n : ℕ) : PTX (4096 * n) = n % 1024 := by
  rw [ptx_eq]
  omega

theorem create_page_eq (m : Memory) (pgdir pa perm : ℕ) (hn : n < 2^20) :
    createPageTableEntries m pgdir (4096 * n) PGSIZE pa perm =
      if (getPageTableEntry m pgdir (4096 * n) true).1 = 0 then
        .ok (-1,(getPageTableEntry m pgdir (4096 * n) true).2)
      else if (getPageTableEntry m pgdir (4096 * n) true).2.load (getPageTableEntry m pgdir (4096 * n) true).1
          &&& PTE_P ≠ 0 then .error (.panic "remap")
      else .ok (0,(getPageTableEntry m pgdir (4096 * n) true).2.store
        (getPageTableEntry m pgdir (4096 * n) true).1 (pa ||| perm ||| PTE_P)) := by
  have h1 : PGROUNDDOWN (4096 * n) = 4096 * n := by rw [pgrounddown_eq (by omega)]; omega
  have h2 : PGROUNDDOWN ((4096 * n + PGSIZE + (2^32 - 1)) % 2^32) = 4096 * n := by
    rw [pgrounddown_eq (Nat.mod_lt _ (by norm_num))]
    simp only [PGSIZE]
    omega
  rw [createPageTableEntries,h1,h2,show (2^20 : ℕ) = (2^20 - 1) + 1 by norm_num,createLoop]
  simp

theorem Owns.entry_store {k t v : ℕ} (h : Owns R m o) (hR : Manageable L R) (ht : o t = .table d (n / 1024))
    (hk : k < 2^20) (hv : v < 2^32) :
    (m.store (page t + 4 * (n % 1024)) v).entry d k = if k = n then v else m.entry d k := by
  have htl : t < 2^19 := h.lt hR (by simp [ht])
  obtain ⟨hd,hi,hp,hw⟩ := (h.tree.table _ _ _).mp ht
  have hdt : d ≠ t := by rintro rfl; simp [hd] at ht
  have hs : ∀ g j, j < 1024 → (m.store (page t + 4 * (n % 1024)) v).word g j =
      if g = t ∧ j = n % 1024 then v else m.word g j :=
    fun g j hj => word_store m htl (Nat.mod_lt _ (by norm_num)) hj hv
  split_ifs with hkn
  · subst hkn
    have hsd := hs d _ hi
    rw [if_neg (by tauto)] at hsd
    unfold Memory.entry
    rw [hsd,if_pos hp,hw,hs t _ (Nat.mod_lt _ (by norm_num)),if_pos ⟨rfl,rfl⟩]
  · refine h.entry_congr hd hk ?_ (fun t' ht' => ?_)
    · rw [hs d _ (by omega),if_neg (by tauto)]
    · rw [hs t' _ (Nat.mod_lt _ (by norm_num)),if_neg]
      rintro ⟨rfl,hj⟩
      rw [ht,Place.table.injEq] at ht'
      omega

theorem Owns.map_page_words {r : ℤ} (h : Owns R m o) (hR : Manageable L R)
    (hd : o d = .directory) (hn : n < 2^19) (hf : o f = .held) (hp : perm < 4096)
    (hc : createPageTableEntries m (page d) (4096 * n) PGSIZE (4096 * f) perm = .ok (r,m')) :
    (r = -1 ∧ m' = m ∧ ∀ g, o g ≠ .free) ∨
    (r = 0 ∧ (∀ g, o g ≠ .user d (n / 1024) (n % 1024)) ∧ ∃ o', Grows d o o' ∧
      Owns R m' (update o' f (.user d (n / 1024) (n % 1024))) ∧
      (∀ k, k < 2^20 → m'.entry d k = if k = n then 4096 * f ||| perm ||| PTE_P else m.entry d k) ∧
      ∀ g j, j < 1024 → o g ≠ .free → ¬ (g = d ∧ j = n / 1024) → o g ≠ .table d (n / 1024) →
        m'.word g j = m.word g j) := by
  rw [create_page_eq _ _ _ _ (by omega)] at hc
  rcases h.obtain_entry_words (4096 * n) hR hd with ⟨hg,hnone⟩ | ⟨t,m1,o1,hg,ht,h1,hgr,hent,hw,-⟩
  · simp only [hg,↓reduceIte] at hc
    cases hc
    exact .inl ⟨rfl,rfl,hnone⟩
  · rw [pdx_page (by omega)] at ht hw
    rw [ptx_page] at hg
    have hj : n % 1024 < 1024 := Nat.mod_lt _ (by norm_num)
    have hi : n / 1024 < 512 := by omega
    have hne : page t + 4 * (n % 1024) ≠ 0 := by have := page_ne_zero t; omega
    have htl : t < 2^19 := h1.lt hR (by simp [ht])
    have hload := load_page m1 htl hj
    simp only [hg,hne,↓reduceIte,hload,present_iff] at hc
    split_ifs at hc with hpres
    cases hc
    have hf1 : o1 f = .held := (hgr.iff (by simp) (by simp)).mpr hf
    have hfl : f < 2^19 := h1.lt hR (by simp [hf1])
    refine .inr ⟨rfl,fun g hgu => hpres ?_,o1,hgr,?_,fun k hk => ?_,fun g j hj' hgf hgd hgt => ?_⟩
    · rw [← hgr.iff (by simp) (by simp)] at hgu
      obtain ⟨t',ht',-,-,hpr,-⟩ := (h1.tree.user _ _ _ _).mp hgu
      exact h1.tree.table_unique ht' ht ▸ hpr
    · exact h1.install_user hR ht hi hj hpres hf1 hp
    · rw [h1.entry_store hR ht hk (entry_lt hfl hp),hent k hk]
    · have hgt' : g ≠ t := by
        rintro rfl
        rcases hgr g with he | ⟨he,-⟩
        · exact hgt (he ▸ ht)
        · exact hgf he
      rw [word_store m1 htl hj hj' (entry_lt hfl hp),if_neg (by tauto),hw g j hj' hgf hgd]

theorem Owns.map_page {r : ℤ} (h : Owns R m o) (hR : Manageable L R)
    (hd : o d = .directory) (hn : n < 2^19) (hf : o f = .held) (hp : perm < 4096)
    (hc : createPageTableEntries m (page d) (4096 * n) PGSIZE (4096 * f) perm = .ok (r,m')) :
    (r = -1 ∧ m' = m ∧ ∀ g, o g ≠ .free) ∨
    (r = 0 ∧ (∀ g, o g ≠ .user d (n / 1024) (n % 1024)) ∧ ∃ o', Grows d o o' ∧
      Owns R m' (update o' f (.user d (n / 1024) (n % 1024)))) := by
  rcases h.map_page_words hR hd hn hf hp hc with hno | ⟨hr,hno,o',hgr,h',-⟩
  · exact .inl hno
  · exact .inr ⟨hr,hno,o',hgr,h'⟩

theorem Owns.map_kernel_words {last pa : ℕ} (h : Owns R m o) (fuel : ℕ) (hR : Manageable L R)
    (hd : o d = .directory) (hn : 2^19 ≤ n) (hlast : n ≤ last) (hl : last < 2^20) (hpa : pa < 2^32)
    (hp : perm < 4096) (hb : Blank m o d n) (hfuel : last < n + fuel) :
    ∃ r m' o', createLoop (page d) (4096 * last) perm fuel m (4096 * n) pa = .ok (r,m') ∧ Owns R m' o' ∧
      Grows d o o' ∧ ((r = 0 ∧ Blank m' o' d (last + 1)) ∨ (r = -1 ∧ ∀ f, o' f ≠ .free)) ∧
      (∀ g j, j < 1024 → o g ≠ .free → g ≠ d → (∀ i, o g ≠ .table d i) → m'.word g j = m.word g j) ∧
      (r = 0 → ∀ k, k < 2^20 → m'.entry d k =
        if n ≤ k ∧ k ≤ last then (pa + 4096 * (k - n)) % 2^32 ||| perm ||| PTE_P else m.entry d k) ∧
      ∀ f i, o' f = .table d i → o f = .table d i ∨ 512 ≤ i := by
  induction fuel generalizing m o n pa with
  | zero => omega
  | succ fuel ih =>
    rw [createLoop]
    rcases h.obtain_entry_words (4096 * n) hR hd with ⟨hg,hnone⟩ | ⟨t,m1,o1,hg,ht,h1,hgr,hent,hw1,hnew1⟩
    · exact ⟨-1,m,o,by simp [hg],h,Grows.refl d o,.inr ⟨rfl,hnone⟩,fun _ _ _ _ _ _ => rfl,by simp,fun _ _ => .inl⟩
    · have hne : page t + 4 * PTX (4096 * n) ≠ 0 := by have := page_ne_zero t; omega
      rw [pdx_page (by omega)] at ht hnew1
      have hnew1' : ∀ f i, o1 f = .table d i → o f = .table d i ∨ 512 ≤ i :=
        fun f i hf => (hnew1 f i hf).imp_right (fun hi => by omega)
      have htl : t < 2^19 := h1.lt hR (by simp [ht])
      have hj : PTX (4096 * n) < 1024 := by rw [ptx_page]; omega
      have hv : pa ||| perm ||| PTE_P < 2^32 :=
        Nat.or_lt_two_pow (Nat.or_lt_two_pow hpa (by omega)) (by norm_num [PTE_P])
      have hb1 := h.blank_of_entries hd h1 hent hb
      have hpres : ¬ (m1.load (page t + 4 * PTX (4096 * n)) &&& PTE_P ≠ 0) := by
        rw [present_iff,load_page m1 htl hj]
        exact hb1 t _ _ ht hj (by rw [ptx_page]; omega)
      have h2 := h1.write_kernel hR ht (by omega) hj hv
      have hb2 : Blank (m1.store (page t + 4 * PTX (4096 * n)) (pa ||| perm ||| PTE_P)) o1 d (n + 1) := by
        intro t' i j ht' hj' hle
        rw [word_store m1 htl hj hj' hv,if_neg]
        · exact hb1 t' i j ht' hj' (by omega)
        · rintro ⟨rfl,rfl⟩
          rw [ht,Place.table.injEq] at ht'
          rw [ptx_page] at hle
          omega
      have hsame : ∀ g, o g ≠ .free → (∀ i, o g ≠ .table d i) → o1 g = o g := by
        intro g hgf hgt
        rcases hgr g with he | ⟨he,-⟩
        · exact he
        · exact absurd he hgf
      have hw2 : ∀ g j, j < 1024 → o g ≠ .free → g ≠ d → (∀ i, o g ≠ .table d i) →
          (m1.store (page t + 4 * PTX (4096 * n)) (pa ||| perm ||| PTE_P)).word g j = m.word g j := by
        intro g j hj' hgf hgd hgt
        have hgt' : g ≠ t := by
          rintro rfl
          exact hgt _ ((hsame g hgf hgt) ▸ ht)
        rw [word_store m1 htl hj hj' hv,if_neg (by tauto),hw1 g j hj' hgf (by tauto)]
      have he2 : ∀ k, k < 2^20 → (m1.store (page t + 4 * PTX (4096 * n)) (pa ||| perm ||| PTE_P)).entry d k =
          if k = n then pa ||| perm ||| PTE_P else m.entry d k := by
        intro k hk
        rw [ptx_page,h1.entry_store hR ht hk hv,hent k hk]
      simp only [hg,hne,↓reduceIte,hpres]
      by_cases hend : n = last
      · subst hend
        refine ⟨0,_,o1,by simp,h2,hgr,.inl ⟨rfl,hb2⟩,hw2,fun _ k hk => ?_,hnew1'⟩
        rw [he2 k hk]
        by_cases hkn : k = n
        · rw [if_pos hkn,if_pos (by omega),hkn,Nat.sub_self,Nat.mul_zero,Nat.add_zero,Nat.mod_eq_of_lt hpa]
        · rw [if_neg hkn,if_neg (by omega)]
      · rw [if_neg (by omega),show (4096 * n + PGSIZE) % 2^32 = 4096 * (n + 1) by simp only [PGSIZE]; omega]
        obtain ⟨r,m2,o2,hc,ho2,hgr2,hr,hw3,he3,hnew2⟩ := ih h2 ((hgr.iff (by simp) (by simp)).mpr hd) (by omega)
          (by omega) (Nat.mod_lt (pa + PGSIZE) (by norm_num)) hb2 (by omega)
        refine ⟨r,m2,o2,hc,ho2,hgr.trans hgr2,hr,fun g j hj' hgf hgd hgt => ?_,fun hr0 k hk => ?_,fun f i hf => ?_⟩
        · have he := hsame g hgf hgt
          rw [hw3 g j hj' (by rwa [he]) hgd (by rwa [he]),hw2 g j hj' hgf hgd hgt]
        · rw [he3 hr0 k hk,he2 k hk]
          by_cases hkn : k = n
          · rw [if_neg (by omega),if_pos hkn,if_pos (by omega),hkn,Nat.sub_self,Nat.mul_zero,Nat.add_zero,
              Nat.mod_eq_of_lt hpa]
          · rw [if_neg hkn]
            by_cases hin : n + 1 ≤ k ∧ k ≤ last
            · rw [if_pos hin,if_pos (by omega)]
              rw [show ((pa + PGSIZE) % 2^32 + 4096 * (k - (n + 1))) % 2^32 = (pa + 4096 * (k - n)) % 2^32 by
                simp only [PGSIZE]; omega]
            · rw [if_neg hin,if_neg (by omega)]
        · rcases hnew2 f i hf with hf1 | hi
          · exact hnew1' f i hf1
          · exact .inr hi

end UoDOS.Paging
