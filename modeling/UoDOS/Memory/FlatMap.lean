import UoDOS.Memory.AddressSpace

/-! # A page directory as a flat map

Through getPageTableEntry a directory is a map from page numbers to entries.
-/
namespace UoDOS.Paging
open ByteMemory

/-- The entry that getPageTableEntry finds for page `n`, 0 where there is no table. -/
def flat (m : Memory) (pgdir n : ℕ) : ℕ :=
  let pte := (getPageTableEntry m pgdir (4096 * n) false).1
  if pte = 0 then 0 else m.load pte

/-- Page `d` is a page directory and `F` the pages on the free list: each table has one place in
the directory, and the directory and its tables are not on the list. -/
structure Directory (m : Memory) (d : ℕ) (F : List ℕ) : Prop where
  frame : d < 2^19
  chain : FreeChain m m.FreeList F
  nodup : F.Nodup
  free : ∀ f ∈ F, f < 2^19 ∧ f ≠ d
  table : ∀ i < 1024, m.word d i % 2 = 1 →
    m.word d i / 4096 < 2^19 ∧ m.word d i / 4096 ≠ d ∧ m.word d i / 4096 ∉ F
  apart : ∀ i < 1024, ∀ j < 1024, m.word d i % 2 = 1 → m.word d j % 2 = 1 →
    m.word d i / 4096 = m.word d j / 4096 → i = j

/-- A page that is neither the directory, nor one of its tables, nor free. -/
structure Elsewhere (m : Memory) (d : ℕ) (F : List ℕ) (g : ℕ) : Prop where
  directory : g ≠ d
  free : g ∉ F
  table : ∀ i < 1024, m.word d i % 2 = 1 → m.word d i / 4096 ≠ g

variable {m m' : Memory} {d n : ℕ} {F : List ℕ}

section Lookup

theorem Directory.lookup (h : Directory m d F) (hn : n < 2^20) (alloc : Bool) (hp : m.word d (n / 1024) % 2 = 1) :
    getPageTableEntry m (page d) (4096 * n) alloc = (page (m.word d (n / 1024) / 4096) + 4 * (n % 1024),m) := by
  obtain ⟨hlt,-⟩ := h.table _ (by omega) hp
  rw [getPageTableEntry,pdx_page hn,ptx_page,load_page m h.frame (by omega)]
  dsimp only
  rw [if_pos ((present_iff _).mpr hp),pte_addr (word_lt _ _ _),p2v_frame hlt]

theorem Directory.lookup_none (h : Directory m d F) (hn : n < 2^20) (hp : m.word d (n / 1024) % 2 ≠ 1) :
    getPageTableEntry m (page d) (4096 * n) false = (0,m) := by
  rw [getPageTableEntry,pdx_page hn,load_page m h.frame (by omega)]
  dsimp only
  rw [if_neg (mt (present_iff _).mp hp),if_pos rfl]

theorem Directory.flat_eq (h : Directory m d F) (hn : n < 2^20) : flat m (page d) n = m.entry d n := by
  unfold flat Memory.entry
  by_cases hp : m.word d (n / 1024) % 2 = 1
  · obtain ⟨hlt,-⟩ := h.table _ (by omega) hp
    have hne : page (m.word d (n / 1024) / 4096) + 4 * (n % 1024) ≠ 0 := by
      have := page_ne_zero (m.word d (n / 1024) / 4096)
      omega
    rw [h.lookup hn false hp,if_pos hp]
    dsimp only
    rw [if_neg hne,load_page m hlt (Nat.mod_lt _ (by norm_num))]
  · rw [h.lookup_none hn hp,if_neg hp]
    rfl

end Lookup

theorem Directory.store_entry {v : ℕ} (h : Directory m d F) (hn : n < 2^20) (hp : m.word d (n / 1024) % 2 = 1)
    (hv : v < 2^32) :
    let m' := m.store (page (m.word d (n / 1024) / 4096) + 4 * (n % 1024)) v
    Directory m' d F ∧ (∀ k < 2^20, m'.entry d k = if k = n then v else m.entry d k) ∧
      ∀ g, Elsewhere m d F g → Elsewhere m' d F g ∧ ∀ j < 1024, m'.word g j = m.word g j := by
  obtain ⟨hlt,hd,hF⟩ := h.table _ (by omega) hp
  have hs : ∀ g j, j < 1024 → (m.store (page (m.word d (n / 1024) / 4096) + 4 * (n % 1024)) v).word g j =
      if g = m.word d (n / 1024) / 4096 ∧ j = n % 1024 then v else m.word g j :=
    fun g j hj => word_store m hlt (Nat.mod_lt _ (by norm_num)) hj hv
  have hdir : ∀ i < 1024,
      (m.store (page (m.word d (n / 1024) / 4096) + 4 * (n % 1024)) v).word d i = m.word d i := by
    intro i hi
    rw [hs d i hi,if_neg (fun hc => hd hc.1.symm)]
  refine ⟨⟨h.frame,?_,h.nodup,h.free,fun i hi hpi => ?_,fun i hi j hj hpi hpj he => ?_⟩,fun k hk => ?_,
    fun g hg => ?_⟩
  · refine h.chain.congr (fun f hf => ?_)
    rw [hs f 0 (by norm_num),if_neg]
    rintro ⟨rfl,-⟩
    exact hF hf
  · rw [hdir i hi] at hpi ⊢
    exact h.table i hi hpi
  · rw [hdir i hi] at hpi he
    rw [hdir j hj] at hpj he
    exact h.apart i hi j hj hpi hpj he
  · rw [Memory.entry,Memory.entry,hdir _ (by omega)]
    by_cases hpk : m.word d (k / 1024) % 2 = 1
    · rw [if_pos hpk,if_pos hpk,hs _ _ (Nat.mod_lt _ (by norm_num))]
      by_cases hkn : k = n
      · rw [hkn,if_pos ⟨rfl,rfl⟩,if_pos rfl]
      · rw [if_neg hkn,if_neg]
        rintro ⟨ht,hj⟩
        have := h.apart _ (by omega) _ (by omega) hpk hp ht
        omega
    · rw [if_neg hpk,if_neg hpk,if_neg]
      rintro rfl
      exact hpk hp
  · refine ⟨⟨hg.directory,hg.free,fun i hi hpi => ?_⟩,fun j hj => ?_⟩
    · rw [hdir i hi] at hpi ⊢
      exact hg.table i hi hpi
    · rw [hs g j hj,if_neg (fun hc => hg.table _ (by omega) hp hc.1.symm)]

def withTable (m : Memory) (d i t : ℕ) : Memory :=
  (({ m with FreeList := m.word t 0 } : Memory).memset (page t) 0 PGSIZE).store (page d + 4 * i)
    (4096 * t ||| 6 ||| PTE_P)

section Tables
variable {t : ℕ}

theorem Directory.create_table (h : Directory m d (t :: F)) (hn : n < 2^20) (hp : m.word d (n / 1024) % 2 ≠ 1) :
    getPageTableEntry m (page d) (4096 * n) true =
      (page t + 4 * (n % 1024),withTable m d (n / 1024) t) := by
  obtain ⟨ht,-⟩ := h.free t List.mem_cons_self
  have hF : m.FreeList = page t := h.chain.1
  have hload : m.load (page t) = m.word t 0 := load_page m (i := 0) ht (by norm_num)
  have he : V2P (page t) ||| PTE_P ||| PTE_W ||| PTE_U = 4096 * t ||| 6 ||| PTE_P := by
    rw [show V2P (page t) = 4096 * t by simpa using v2p_page (x := 0) ht (by norm_num)]
    simp only [Nat.or_assoc]
    rfl
  rw [getPageTableEntry,pdx_page hn,ptx_page,load_page m h.frame (by omega)]
  dsimp only
  rw [if_neg (mt (present_iff _).mp hp),if_neg (by decide),allocatePhysicalMemoryPage,hF,
    if_neg (page_ne_zero t),hload]
  dsimp only
  rw [if_neg (page_ne_zero t),he]
  rfl

theorem Directory.no_table (h : Directory m d []) (hn : n < 2^20) (hp : m.word d (n / 1024) % 2 ≠ 1) :
    getPageTableEntry m (page d) (4096 * n) true = (0,m) := by
  have hF : m.FreeList = 0 := h.chain
  rw [getPageTableEntry,pdx_page hn,load_page m h.frame (by omega)]
  dsimp only
  rw [if_neg (mt (present_iff _).mp hp),if_neg (by decide),allocatePhysicalMemoryPage,if_pos hF]
  rfl

theorem Directory.with_table (h : Directory m d (t :: F)) (hn : n < 2^20) (hp : m.word d (n / 1024) % 2 ≠ 1) :
    let m' := withTable m d (n / 1024) t
    Directory m' d F ∧ m'.word d (n / 1024) % 2 = 1 ∧ m'.word d (n / 1024) / 4096 = t ∧
      (∀ k < 2^20, m'.entry d k = m.entry d k) ∧
      ∀ g, Elsewhere m d (t :: F) g → Elsewhere m' d F g ∧ ∀ j < 1024, m'.word g j = m.word g j := by
  obtain ⟨ht,htd⟩ := h.free t List.mem_cons_self
  obtain ⟨htF,hnd⟩ := List.nodup_cons.mp h.nodup
  have hi : n / 1024 < 1024 := by omega
  have hv : 4096 * t ||| 6 ||| PTE_P < 2^32 := entry_lt ht (by norm_num)
  have hw : ∀ g j, j < 1024 → (withTable m d (n / 1024) t).word g j =
      if g = d ∧ j = n / 1024 then 4096 * t ||| 6 ||| PTE_P else if g = t then 0 else m.word g j := by
    intro g j hj
    rw [withTable,word_store _ h.frame hi hj hv,word_memset_zero _ ht hj]
    rfl
  have hnew : (withTable m d (n / 1024) t).word d (n / 1024) = 4096 * t ||| 6 ||| PTE_P := by
    rw [hw d _ hi,if_pos ⟨rfl,rfl⟩]
  have hpres : (withTable m d (n / 1024) t).word d (n / 1024) % 2 = 1 := by
    rw [hnew]
    exact entry_present (by norm_num)
  have hframe : (withTable m d (n / 1024) t).word d (n / 1024) / 4096 = t := by
    rw [hnew]
    exact entry_frame (by norm_num)
  have hdir : ∀ i < 1024, i ≠ n / 1024 → (withTable m d (n / 1024) t).word d i = m.word d i := by
    intro i hi' hne
    rw [hw d i hi',if_neg (fun hc => hne hc.2),if_neg (Ne.symm htd)]
  -- an entry of the directory is the new one or an old one, whose table is not the new page
  have hold : ∀ i < 1024, i ≠ n / 1024 → m.word d i % 2 = 1 →
      m.word d i / 4096 < 2^19 ∧ m.word d i / 4096 ≠ d ∧ m.word d i / 4096 ≠ t ∧ m.word d i / 4096 ∉ F := by
    intro i hi' _ hpi
    obtain ⟨h1,h2,h3⟩ := h.table i hi' hpi
    rw [List.mem_cons,not_or] at h3
    exact ⟨h1,h2,h3.1,h3.2⟩
  refine ⟨⟨h.frame,?_,hnd,fun f hf => h.free f (List.mem_cons_of_mem _ hf),fun i hi' hpi => ?_,
    fun i hi' j hj hpi hpj he => ?_⟩,hpres,hframe,fun k hk => ?_,fun g hg => ?_⟩
  · have hlist : (withTable m d (n / 1024) t).FreeList = m.word t 0 := rfl
    rw [hlist]
    refine h.chain.2.congr (fun f hf => ?_)
    rw [hw f 0 (by norm_num),if_neg (fun hc => (h.free f (List.mem_cons_of_mem _ hf)).2 hc.1),if_neg]
    rintro rfl
    exact htF hf
  · by_cases hin : i = n / 1024
    · subst hin
      rw [hframe]
      exact ⟨ht,htd,htF⟩
    · rw [hdir i hi' hin] at hpi ⊢
      obtain ⟨h1,h2,-,h3⟩ := hold i hi' hin hpi
      exact ⟨h1,h2,h3⟩
  · by_cases hin : i = n / 1024
    · by_cases hjn : j = n / 1024
      · rw [hin,hjn]
      · subst hin
        rw [hdir j hj hjn] at hpj he
        rw [hframe] at he
        exact absurd he.symm (hold j hj hjn hpj).2.2.1
    · by_cases hjn : j = n / 1024
      · subst hjn
        rw [hdir i hi' hin] at hpi he
        rw [hframe] at he
        exact absurd he (hold i hi' hin hpi).2.2.1
      · rw [hdir i hi' hin] at hpi he
        rw [hdir j hj hjn] at hpj he
        exact h.apart i hi' j hj hpi hpj he
  · unfold Memory.entry
    have hmod : k % 1024 < 1024 := Nat.mod_lt _ (by norm_num)
    by_cases hkn : k / 1024 = n / 1024
    · rw [hkn,if_pos hpres,hframe,if_neg hp,hw t _ hmod,if_neg (fun hc => htd hc.1),if_pos rfl]
    · rw [hdir _ (by omega) hkn]
      by_cases hpk : m.word d (k / 1024) % 2 = 1
      · obtain ⟨-,hne,hnt,-⟩ := hold _ (by omega) hkn hpk
        rw [if_pos hpk,if_pos hpk,hw _ _ hmod,if_neg (fun hc => hne hc.1),if_neg hnt]
      · rw [if_neg hpk,if_neg hpk]
  · obtain ⟨hgt,hgF⟩ := not_or.mp (mt List.mem_cons.mpr hg.free)
    refine ⟨⟨hg.directory,hgF,fun i hi' hpi => ?_⟩,fun j hj => ?_⟩
    · by_cases hin : i = n / 1024
      · subst hin
        rw [hframe]
        exact Ne.symm hgt
      · rw [hdir i hi' hin] at hpi ⊢
        exact hg.table i hi' hpi
    · rw [hw g j hj,if_neg (fun hc => hg.directory hc.1),if_neg hgt]

theorem Directory.obtain_entry (h : Directory m d F) (hn : n < 2^20) :
    (getPageTableEntry m (page d) (4096 * n) true = (0,m) ∧ F = []) ∨
    ∃ m' F', getPageTableEntry m (page d) (4096 * n) true =
        (page (m'.word d (n / 1024) / 4096) + 4 * (n % 1024),m') ∧
      Directory m' d F' ∧ m'.word d (n / 1024) % 2 = 1 ∧ (∀ k < 2^20, m'.entry d k = m.entry d k) ∧
      ∀ g, Elsewhere m d F g → Elsewhere m' d F' g ∧ ∀ j < 1024, m'.word g j = m.word g j := by
  by_cases hp : m.word d (n / 1024) % 2 = 1
  · exact .inr ⟨m,F,h.lookup hn true hp,h,hp,fun _ _ => rfl,fun g hg => ⟨hg,fun _ _ => rfl⟩⟩
  · cases F with
    | nil => exact .inl ⟨h.no_table hn hp,rfl⟩
    | cons t F =>
      obtain ⟨h',hpres,hframe,hent,helse⟩ := h.with_table hn hp
      refine .inr ⟨_,F,?_,h',hpres,hent,helse⟩
      rw [hframe]
      exact h.create_table hn hp

end Tables

section Ranges

def rangeEntry (pa perm k : ℕ) : ℕ := (pa + 4096 * k) % 2^32 ||| perm ||| PTE_P

variable {pa perm : ℕ}

theorem rangeEntry_lt (pa : ℕ) (hperm : perm < 2^32) (k : ℕ) : rangeEntry pa perm k < 2^32 :=
  Nat.or_lt_two_pow (Nat.or_lt_two_pow (Nat.mod_lt _ (by norm_num)) hperm) (by norm_num [PTE_P])

theorem rangeEntry_succ (pa perm k : ℕ) :
    rangeEntry ((pa + PGSIZE) % 2^32) perm k = rangeEntry pa perm (k + 1) := by
  have h : ((pa + PGSIZE) % 2^32 + 4096 * k) % 2^32 = (pa + 4096 * (k + 1)) % 2^32 := by
    simp only [PGSIZE]
    omega
  rw [rangeEntry,rangeEntry,h]

theorem Directory.create_loop {last : ℕ} (h : Directory m d F) (fuel : ℕ) (hn : n ≤ last) (hl : last < 2^20)
    (hpa : pa < 2^32) (hperm : perm < 2^32) (hb : ∀ k, n ≤ k → k ≤ last → m.entry d k % 2 ≠ 1)
    (hfuel : last < n + fuel) :
    ∃ r m' F' c, createLoop (page d) (4096 * last) perm fuel m (4096 * n) pa = .ok (r,m') ∧
      Directory m' d F' ∧
      ((r = 0 ∧ n + c = last + 1) ∨ (r = -1 ∧ n + c < last + 1 ∧ F' = [])) ∧
      (∀ k < 2^20, m'.entry d k = if n ≤ k ∧ k < n + c then rangeEntry pa perm (k - n) else m.entry d k) ∧
      ∀ g, Elsewhere m d F g → ∀ j < 1024, m'.word g j = m.word g j := by
  induction fuel generalizing m F n pa with
  | zero => omega
  | succ fuel ih =>
    rw [createLoop]
    rcases h.obtain_entry (n := n) (by omega) with ⟨hg,hF⟩ | ⟨m1,F1,hg,h1,hp1,he1,hw1⟩
    · refine ⟨-1,m,F,0,?_,h,.inr ⟨rfl,by omega,hF⟩,fun k _ => ?_,fun _ _ _ _ => rfl⟩
      · rw [hg]
        rfl
      · rw [if_neg (by omega)]
    · have hne : page (m1.word d (n / 1024) / 4096) + 4 * (n % 1024) ≠ 0 := by
        have := page_ne_zero (m1.word d (n / 1024) / 4096)
        omega
      have hload : m1.load (page (m1.word d (n / 1024) / 4096) + 4 * (n % 1024)) = m.entry d n := by
        rw [← he1 n (by omega),Memory.entry,if_pos hp1,
          load_page m1 (h1.table _ (by omega) hp1).1 (Nat.mod_lt _ (by norm_num))]
      have hnp : ¬(m.entry d n &&& PTE_P ≠ 0) := fun hc => hb n le_rfl hn ((present_iff _).mp hc)
      have hfirst : pa ||| perm ||| PTE_P = rangeEntry pa perm 0 := by
        rw [rangeEntry,Nat.mul_zero,Nat.add_zero,Nat.mod_eq_of_lt hpa]
      obtain ⟨h2,he2,hw2⟩ := h1.store_entry (n := n) (by omega) hp1 (rangeEntry_lt pa hperm 0)
      rw [hg]
      dsimp only
      rw [if_neg hne,hload,if_neg hnp,hfirst]
      by_cases hend : n = last
      · subst hend
        refine ⟨0,_,F1,1,if_pos rfl,h2,.inl ⟨rfl,rfl⟩,fun k hk => ?_,fun g hg j hj => ?_⟩
        · rw [he2 k hk,he1 k hk]
          by_cases hkn : k = n
          · rw [if_pos hkn,if_pos (by omega),hkn,Nat.sub_self]
          · rw [if_neg hkn,if_neg (by omega)]
        · obtain ⟨hg1,hgw⟩ := hw1 g hg
          rw [(hw2 g hg1).2 j hj,hgw j hj]
      · have hnext : (4096 * n + PGSIZE) % 2^32 = 4096 * (n + 1) := by
          simp only [PGSIZE]
          omega
        rw [if_neg (by omega),hnext]
        have hb2 : ∀ k, n + 1 ≤ k → k ≤ last → (m1.store (page (m1.word d (n / 1024) / 4096) + 4 * (n % 1024))
            (rangeEntry pa perm 0)).entry d k % 2 ≠ 1 := by
          intro k hk hkl
          rw [he2 k (by omega),if_neg (by omega),he1 k (by omega)]
          exact hb k (by omega) hkl
        obtain ⟨r,m',F',c,hr,h',hcount,hent,helse⟩ := ih h2 (n := n + 1) (by omega)
          (Nat.mod_lt (pa + PGSIZE) (by norm_num)) hb2 (by omega)
        refine ⟨r,m',F',c + 1,hr,h',?_,fun k hk => ?_,fun g hg j hj => ?_⟩
        · rcases hcount with ⟨hr0,hc⟩ | ⟨hr1,hc,hF'⟩
          · exact .inl ⟨hr0,by omega⟩
          · exact .inr ⟨hr1,by omega,hF'⟩
        · rw [hent k hk,he2 k hk,he1 k hk]
          by_cases hkn : k = n
          · rw [if_neg (by omega),if_pos hkn,if_pos (by omega),hkn,Nat.sub_self]
          · rw [if_neg hkn]
            by_cases hin : n + 1 ≤ k ∧ k < n + 1 + c
            · rw [if_pos hin,if_pos (by omega),rangeEntry_succ,show k - (n + 1) + 1 = k - n by omega]
            · rw [if_neg hin,if_neg (by omega)]
        · obtain ⟨hg1,hgw⟩ := hw1 g hg
          obtain ⟨hg2,hgw2⟩ := hw2 g hg1
          rw [helse g hg2 j hj,hgw2 j hj,hgw j hj]

end Ranges

/-- createPageTableEntries returns for every range of absent pages, also at the end of the
address space. If it returns 0 the whole range is mapped, and otherwise a part from its start
on; no other entry and no page elsewhere changes. -/
theorem create_maps_flat {va size pa perm : ℕ} (h : Directory m d F) (hsize : 0 < size)
    (hend : va + size - 1 < 2^32) (hpa : pa < 2^32) (hperm : perm < 2^32)
    (hb : ∀ k, va / 4096 ≤ k → k ≤ (va + size - 1) / 4096 → flat m (page d) k &&& PTE_P = 0) :
    ∃ r m' F' c, createPageTableEntries m (page d) va size pa perm = .ok (r,m') ∧ Directory m' d F' ∧
      ((r = 0 ∧ va / 4096 + c = (va + size - 1) / 4096 + 1) ∨
        (r = -1 ∧ va / 4096 + c < (va + size - 1) / 4096 + 1)) ∧
      (∀ k < 2^20, flat m' (page d) k = if va / 4096 ≤ k ∧ k < va / 4096 + c then
          (pa + 4096 * (k - va / 4096)) % 2^32 ||| perm ||| PTE_P else flat m (page d) k) ∧
      ∀ g, Elsewhere m d F g → ∀ j < 1024, m'.word g j = m.word g j := by
  have hlast : (va + size + (2^32 - 1)) % 2^32 = va + size - 1 := by omega
  have hblank : ∀ k, va / 4096 ≤ k → k ≤ (va + size - 1) / 4096 → m.entry d k % 2 ≠ 1 := by
    intro k h1 h2 hodd
    refine (present_iff _).mpr hodd ?_
    rw [← h.flat_eq (by omega)]
    exact hb k h1 h2
  have hle : va / 4096 ≤ (va + size - 1) / 4096 := Nat.div_le_div_right (by omega)
  obtain ⟨r,m',F',c,hr,h',hcount,hent,helse⟩ :=
    h.create_loop (2^20) hle (by omega) hpa hperm hblank (by omega)
  refine ⟨r,m',F',c,?_,h',?_,fun k hk => ?_,helse⟩
  · rw [createPageTableEntries,hlast,pgrounddown_eq hend,pgrounddown_eq (by omega)]
    exact hr
  · rcases hcount with hcount | ⟨hr1,hc,-⟩
    · exact .inl hcount
    · exact .inr ⟨hr1,hc⟩
  · rw [h'.flat_eq hk,h.flat_eq hk]
    exact hent k hk

section Empty

def emptyDirectory : Memory := ⟨fun _ => 0,page 2⟩

theorem emptyDirectory_word (g j : ℕ) : emptyDirectory.word g j = 0 := rfl

theorem directory_empty : Directory emptyDirectory 1 [2] := by
  refine ⟨by norm_num,⟨rfl,emptyDirectory_word 2 0⟩,List.nodup_singleton 2,fun f hf => ?_,fun i _ hp => ?_,
    fun i _ j _ hp => ?_⟩
  · rw [List.mem_singleton.mp hf]
    norm_num
  · rw [emptyDirectory_word] at hp
    cases hp
  · rw [emptyDirectory_word] at hp
    cases hp

/-- A few bytes on the last page of the address space. -/
theorem create_maps_flat_last :
    ∃ r m' F' c, createPageTableEntries emptyDirectory (page 1) 0xFFFFF010 16 0x3000 6 = .ok (r,m') ∧
      Directory m' 1 F' ∧
      ((r = 0 ∧ 0xFFFFF010 / 4096 + c = (0xFFFFF010 + 16 - 1) / 4096 + 1) ∨
        (r = -1 ∧ 0xFFFFF010 / 4096 + c < (0xFFFFF010 + 16 - 1) / 4096 + 1)) ∧
      (∀ k < 2^20, flat m' (page 1) k = if 0xFFFFF010 / 4096 ≤ k ∧ k < 0xFFFFF010 / 4096 + c then
          (0x3000 + 4096 * (k - 0xFFFFF010 / 4096)) % 2^32 ||| 6 ||| PTE_P else flat emptyDirectory (page 1) k) ∧
      ∀ g, Elsewhere emptyDirectory 1 [2] g → ∀ j < 1024, m'.word g j = emptyDirectory.word g j := by
  refine create_maps_flat directory_empty (by norm_num) (by norm_num) (by norm_num) (by norm_num) (fun k _ h2 => ?_)
  have hk : k < 2^20 := lt_of_le_of_lt h2 (by norm_num)
  rw [directory_empty.flat_eq hk,Memory.entry,emptyDirectory_word,if_neg (by norm_num),Nat.zero_and]

end Empty

end UoDOS.Paging
