import UoDOS.Memory.FlatMap
import UoDOS.Memory.PageRuns

/-! # Releasing a range page by page

releaseUserPages jumps over the absent tables of a directory.
-/
namespace UoDOS.Paging
open ByteMemory

/-- A directory whose user pages can be freed: each is in use once, and neither the directory,
nor one of its tables, nor free. -/
structure UserDirectory (L : Layout) (m : Memory) (d : ℕ) (F : List ℕ) : Prop extends Directory m d F where
  managed : ∀ n < 2^19, m.entry d n % 2 = 1 →
    L.kernelEnd ≤ page (m.entry d n / 4096) ∧ 4096 * (m.entry d n / 4096) < PHYSTOP
  elsewhere : ∀ n < 2^19, m.entry d n % 2 = 1 → Elsewhere m d F (m.entry d n / 4096)
  once : ∀ n < 2^19, ∀ k < 2^19, m.entry d n % 2 = 1 → m.entry d k % 2 = 1 →
    m.entry d n / 4096 = m.entry d k / 4096 → n = k

def releasePage (L : Layout) (pgdir : ℕ) (m : Memory) (n : ℕ) : Except Stop Memory :=
  let pte := (getPageTableEntry m pgdir (4096 * n) false).1
  if pte = 0 then .ok m
  else if m.load pte &&& PTE_P ≠ 0 then
    if PTE_ADDR (m.load pte) = 0 then .error (.panic "freePhysicalMemoryPage")
    else do
      let m' ← freePhysicalMemoryPage L m (P2V (PTE_ADDR (m.load pte)))
      .ok (m'.store pte 0)
  else .ok m

def pagesBetween (newsz oldsz : ℕ) : List ℕ :=
  List.range' ((newsz + 4095) / 4096) ((oldsz + 4095) / 4096 - (newsz + 4095) / 4096)

/-- The frames of the present pages, in the order of the pages. -/
def presentFrames (m : Memory) (d : ℕ) (ns : List ℕ) : List ℕ :=
  (ns.filter fun n => m.entry d n % 2 = 1).map fun n => m.entry d n / 4096

variable {L : Layout} {m m' : Memory} {d n : ℕ} {F : List ℕ}

section OnePage

theorem Directory.release_absent (h : Directory m d F) (hn : n < 2^20) (hp : m.word d (n / 1024) % 2 ≠ 1) :
    releasePage L (page d) m n = .ok m := by
  rw [releasePage,h.lookup_none hn hp]
  rfl

theorem Directory.pte_load (h : Directory m d F) (hn : n < 2^20) (hp : m.word d (n / 1024) % 2 = 1) :
    page (m.word d (n / 1024) / 4096) + 4 * (n % 1024) ≠ 0 ∧
      m.load (page (m.word d (n / 1024) / 4096) + 4 * (n % 1024)) = m.entry d n := by
  have := page_ne_zero (m.word d (n / 1024) / 4096)
  refine ⟨by omega,?_⟩
  rw [Memory.entry,if_pos hp,load_page m (h.table _ (by omega) hp).1 (Nat.mod_lt _ (by norm_num))]

theorem Directory.release_not_present (h : Directory m d F) (hn : n < 2^20) (hp : m.entry d n % 2 ≠ 1) :
    releasePage L (page d) m n = .ok m := by
  by_cases hw : m.word d (n / 1024) % 2 = 1
  · obtain ⟨hne,hload⟩ := h.pte_load hn hw
    rw [releasePage,h.lookup hn false hw]
    dsimp only
    rw [if_neg hne,hload,if_neg (mt (present_iff _).mp hp)]
  · exact h.release_absent hn hw

theorem Directory.freeList_lt (h : Directory m d F) : m.FreeList < 2^32 := by
  have hc := h.chain
  cases F with
  | nil =>
    have hz : m.FreeList = 0 := hc
    omega
  | cons f F =>
    obtain ⟨hf,-⟩ := h.free f List.mem_cons_self
    rw [hc.1]
    simp only [page,KERNBASE]
    omega

theorem Directory.push {f : ℕ} (h : Directory m d F) (hf : f < 2^19) (he : Elsewhere m d F f)
    (hF : m'.FreeList = page f) (hl : m'.word f 0 = m.FreeList)
    (hw : ∀ g j, g ≠ f → j < 1024 → m'.word g j = m.word g j) :
    Directory m' d (f :: F) ∧ (∀ k < 2^20, m'.entry d k = m.entry d k) ∧
      ∀ g, Elsewhere m d F g → g ≠ f → Elsewhere m' d (f :: F) g := by
  have hdir : ∀ i < 1024, m'.word d i = m.word d i := fun i hi => hw d i (Ne.symm he.directory) hi
  refine ⟨⟨h.frame,⟨hF,?_⟩,List.nodup_cons.mpr ⟨he.free,h.nodup⟩,fun g hg => ?_,fun i hi hp => ?_,
    fun i hi j hj hpi hpj hij => ?_⟩,fun k hk => ?_,fun g hg hgf => ⟨hg.directory,?_,fun i hi hp => ?_⟩⟩
  · rw [hl]
    refine h.chain.congr (fun g hg => hw g 0 ?_ (by norm_num))
    rintro rfl
    exact he.free hg
  · rcases List.mem_cons.mp hg with rfl | hg
    · exact ⟨hf,he.directory⟩
    · exact h.free g hg
  · rw [hdir i hi] at hp ⊢
    obtain ⟨h1,h2,h3⟩ := h.table i hi hp
    exact ⟨h1,h2,List.not_mem_cons_of_ne_of_not_mem (he.table i hi hp) h3⟩
  · rw [hdir i hi] at hpi hij
    rw [hdir j hj] at hpj hij
    exact h.apart i hi j hj hpi hpj hij
  · unfold Memory.entry
    rw [hdir _ (by omega)]
    by_cases hp : m.word d (k / 1024) % 2 = 1
    · rw [if_pos hp,if_pos hp,hw _ _ (he.table _ (by omega) hp) (Nat.mod_lt _ (by norm_num))]
    · rw [if_neg hp,if_neg hp]
  · exact List.not_mem_cons_of_ne_of_not_mem hgf hg.free
  · rw [hdir i hi] at hp ⊢
    exact hg.table i hi hp

theorem table_of_entry (hp : m.entry d n % 2 = 1) : m.word d (n / 1024) % 2 = 1 := by
  by_contra hw
  rw [Memory.entry,if_neg hw] at hp
  cases hp

theorem UserDirectory.release_present (h : UserDirectory L m d F) (hn : n < 2^19) (hp : m.entry d n % 2 = 1) :
    ∃ m', releasePage L (page d) m n = .ok m' ∧ UserDirectory L m' d (m.entry d n / 4096 :: F) ∧
      (∀ k < 2^20, m'.entry d k = if k = n then 0 else m.entry d k) ∧
      ∀ g, Elsewhere m d F g → g ≠ m.entry d n / 4096 →
        Elsewhere m' d (m.entry d n / 4096 :: F) g ∧ ∀ j < 1024, m'.word g j = m.word g j := by
  have hman := h.managed n hn hp
  have hels := h.elsewhere n hn hp
  have hf : m.entry d n / 4096 < 2^19 := by
    have := hman.2
    simp only [PHYSTOP] at this
    omega
  have hw := table_of_entry hp
  obtain ⟨hne,hload⟩ := h.pte_load (by omega) hw
  have hR : Manageable L fun g => L.kernelEnd ≤ page g ∧ 4096 * g < PHYSTOP := fun _ hg => hg
  obtain ⟨m1,hfree,hF,hl,hkeep⟩ := free_page hR hman h.freeList_lt
  obtain ⟨h₁,he1,hels1⟩ := h.toDirectory.push hf hels hF hl hkeep
  have hdir : m1.word d (n / 1024) = m.word d (n / 1024) := hkeep d _ (Ne.symm hels.directory) (by omega)
  have hw1 : m1.word d (n / 1024) % 2 = 1 := by rw [hdir]; exact hw
  obtain ⟨h₂,he2,hels2⟩ := h₁.store_entry (n := n) (v := 0) (by omega) hw1 (by norm_num)
  have hent : ∀ k < 2^20, (m1.store (page (m1.word d (n / 1024) / 4096) + 4 * (n % 1024)) 0).entry d k =
      if k = n then 0 else m.entry d k := by
    intro k hk
    rw [he2 k hk,he1 k hk]
  have hpos : PTE_ADDR (m.entry d n) ≠ 0 := by
    have h1 := hman.1
    have h2 := L.data_above
    have h3 := L.kernelEnd_above
    rw [pte_addr (m.entry_lt d n)]
    simp only [page,KERNLINK,EXTMEM] at h1 h2
    omega
  have hpass : ∀ g, Elsewhere m d F g → g ≠ m.entry d n / 4096 →
      Elsewhere (m1.store (page (m1.word d (n / 1024) / 4096) + 4 * (n % 1024)) 0) d
        (m.entry d n / 4096 :: F) g ∧ ∀ j < 1024,
        (m1.store (page (m1.word d (n / 1024) / 4096) + 4 * (n % 1024)) 0).word g j = m.word g j := by
    intro g hg hgf
    obtain ⟨hg2,hgw⟩ := hels2 g (hels1 g hg hgf)
    refine ⟨hg2,fun j hj => ?_⟩
    rw [hgw j hj,hkeep g j hgf hj]
  refine ⟨_,?_,⟨h₂,fun k hk hpk => ?_,fun k hk hpk => ?_,fun k hk k' hk' hpk hpk' he => ?_⟩,hent,hpass⟩
  · rw [releasePage,h.lookup (by omega) false hw]
    dsimp only
    rw [if_neg hne,hload,if_pos ((present_iff _).mpr hp),if_neg hpos,pte_addr (m.entry_lt d n),p2v_frame hf,hfree,
      hdir]
    rfl
  all_goals rw [hent k (by omega)] at hpk
  all_goals split_ifs at hpk with hkn
  · rw [hent k (by omega),if_neg hkn]
    exact h.managed k hk hpk
  · rw [hent k (by omega),if_neg hkn]
    refine (hpass _ (h.elsewhere k hk hpk) (fun hc => hkn ?_)).1
    exact h.once k hk n hn hpk hp hc
  · rw [hent k' (by omega)] at hpk' he
    rw [hent k (by omega),if_neg hkn] at he
    split_ifs at hpk' he with hkn'
    exact h.once k hk k' hk' hpk hpk' he

end OnePage

section Ranges

theorem presentFrames_congr {ns : List ℕ} (h : ∀ k ∈ ns, m'.entry d k = m.entry d k) :
    presentFrames m' d ns = presentFrames m d ns := by
  unfold presentFrames
  rw [List.filter_congr (fun k hk => by rw [h k hk])]
  refine List.map_congr_left (fun k hk => ?_)
  rw [h k (List.mem_of_mem_filter hk)]

theorem presentFrames_cons (m : Memory) (d n : ℕ) (ns : List ℕ) : presentFrames m d (n :: ns) =
    if m.entry d n % 2 = 1 then m.entry d n / 4096 :: presentFrames m d ns else presentFrames m d ns := by
  unfold presentFrames
  rw [List.filter_cons]
  by_cases hp : m.entry d n % 2 = 1
  · rw [if_pos (decide_eq_true hp),if_pos hp,List.map_cons]
  · rw [if_neg (by rw [decide_eq_true_eq]; exact hp),if_neg hp]

theorem UserDirectory.release_range (h : UserDirectory L m d F) (c : ℕ) (hc : n + c ≤ 2^19) :
    ∃ m', (List.range' n c).foldlM (releasePage L (page d)) m = .ok m' ∧
      UserDirectory L m' d ((presentFrames m d (List.range' n c)).reverse ++ F) ∧
      (∀ k < 2^20, m'.entry d k = if (n ≤ k ∧ k < n + c) ∧ m.entry d k % 2 = 1 then 0 else m.entry d k) ∧
      ∀ g, Elsewhere m d F g → g ∉ presentFrames m d (List.range' n c) →
        ∀ j < 1024, m'.word g j = m.word g j := by
  induction c generalizing m F n with
  | zero =>
    refine ⟨m,rfl,h,fun k _ => ?_,fun _ _ _ _ _ => rfl⟩
    rw [if_neg (by omega)]
  | succ c ih =>
    rw [List.range'_succ,List.foldlM_cons]
    by_cases hp : m.entry d n % 2 = 1
    · obtain ⟨m1,hr1,h1,he1,hw1⟩ := h.release_present (by omega) hp
      obtain ⟨m2,hr2,h2,he2,hw2⟩ := ih h1 (n := n + 1) (by omega)
      have hframes : presentFrames m1 d (List.range' (n + 1) c) = presentFrames m d (List.range' (n + 1) c) := by
        refine presentFrames_congr (fun k hk => ?_)
        obtain ⟨hk1,hk2⟩ := List.mem_range'_1.mp hk
        rw [he1 k (by omega),if_neg (by omega)]
      rw [hframes] at h2 hw2
      rw [presentFrames_cons,if_pos hp]
      refine ⟨m2,?_,?_,fun k hk => ?_,fun g hg hgn j hj => ?_⟩
      · rw [hr1]
        exact hr2
      · rw [List.reverse_cons,List.append_assoc]
        exact h2
      · rw [he2 k hk,he1 k hk]
        by_cases hkn : k = n
        · rw [if_pos hkn,if_neg (by omega),if_pos ⟨by omega,by rw [hkn]; exact hp⟩]
        · rw [if_neg hkn]
          congr 1
          simp only [eq_iff_iff]
          omega
      · obtain ⟨hgf,hgr⟩ := not_or.mp (mt List.mem_cons.mpr hgn)
        obtain ⟨hg1,hgw⟩ := hw1 g hg hgf
        rw [hw2 g hg1 hgr j hj,hgw j hj]
    · obtain ⟨m2,hr2,h2,he2,hw2⟩ := ih h (n := n + 1) (by omega)
      rw [presentFrames_cons,if_neg hp]
      refine ⟨m2,?_,h2,fun k hk => ?_,hw2⟩
      · rw [h.release_not_present (by omega) hp]
        exact hr2
      · rw [he2 k hk]
        by_cases hkn : k = n
        · rw [if_neg (by omega),if_neg (by rw [hkn]; tauto)]
        · congr 1
          simp only [eq_iff_iff]
          omega

theorem Directory.skip_range (h : Directory m d F) (c : ℕ) (hc : n + c ≤ 2^20)
    (ha : ∀ k, n ≤ k → k < n + c → m.word d (k / 1024) % 2 ≠ 1) :
    (List.range' n c).foldlM (releasePage L (page d)) m = .ok m := by
  induction c generalizing n with
  | zero => rfl
  | succ c ih =>
    rw [List.range'_succ,List.foldlM_cons,h.release_absent (by omega) (ha n le_rfl (by omega))]
    exact ih (by omega) (fun k h1 h2 => ha k (by omega) (by omega))

theorem range'_split {lo mid : ℕ} (hi : ℕ) (h : lo ≤ mid) :
    List.range' lo (hi - lo) = List.range' lo (min hi mid - lo) ++ List.range' mid (hi - mid) := by
  by_cases hle : hi ≤ mid
  · rw [min_eq_left hle,Nat.sub_eq_zero_of_le hle,List.range'_zero,List.append_nil]
  · have happ := @List.range'_append_1 lo (mid - lo) (hi - mid)
    rw [Nat.add_sub_cancel' h,show mid - lo + (hi - mid) = hi - lo by omega] at happ
    rw [min_eq_right (by omega),happ]

theorem releaseLoop_visit {pgdir oldsz a fuel : ℕ} (ha : 4096 * n < oldsz)
    (hnext : (4096 * n + PGSIZE) % 2^32 = a) (hpte : (getPageTableEntry m pgdir (4096 * n) false).1 ≠ 0) :
    releaseLoop L pgdir oldsz (fuel + 1) m (4096 * n) =
      (releasePage L pgdir m n >>= fun m => releaseLoop L pgdir oldsz fuel m a) := by
  rw [releaseLoop,if_pos ha,releasePage,hnext]
  dsimp only
  rw [if_neg hpte,if_neg hpte]
  split_ifs
  · rfl
  · rw [bind_assoc]
    rfl
  · rfl

theorem UserDirectory.release_loop {hi oldsz : ℕ} (h : UserDirectory L m d F) (fuel : ℕ) (hhi : hi ≤ 2^19)
    (ho : (oldsz + 4095) / 4096 = hi) (hfuel : hi < n + fuel) (hpos : 0 < fuel) :
    releaseLoop L (page d) oldsz fuel m (4096 * n) =
      (List.range' n (hi - n)).foldlM (releasePage L (page d)) m := by
  induction fuel generalizing m F n with
  | zero => omega
  | succ fuel ih =>
    by_cases ha : 4096 * n < oldsz
    · by_cases hw : m.word d (n / 1024) % 2 = 1
      · have hrange : List.range' n (hi - n) = n :: List.range' (n + 1) (hi - (n + 1)) := by
          rw [show hi - n = hi - (n + 1) + 1 by omega,List.range'_succ]
        have hnext : (4096 * n + PGSIZE) % 2^32 = 4096 * (n + 1) := by
          simp only [PGSIZE]
          omega
        have hpte : (getPageTableEntry m (page d) (4096 * n) false).1 ≠ 0 := by
          rw [h.lookup (by omega) false hw]
          exact (h.pte_load (by omega) hw).1
        rw [releaseLoop_visit ha hnext hpte,hrange,List.foldlM_cons]
        by_cases hp : m.entry d n % 2 = 1
        · obtain ⟨m1,hr1,h₁,-⟩ := h.release_present (by omega) hp
          rw [hr1]
          exact ih h₁ (by omega) (by omega)
        · rw [h.release_not_present (by omega) hp]
          exact ih h (by omega) (by omega)
      · -- the pages up to the next table, and those behind it
        obtain ⟨next,hnext⟩ : ∃ next, next = 1024 * (n / 1024 + 1) := ⟨_,rfl⟩
        have hskip : (List.range' n (min hi next - n)).foldlM (releasePage L (page d)) m = .ok m := by
          refine h.skip_range _ (by omega) (fun k h1 h2 => ?_)
          rw [show k / 1024 = n / 1024 by omega]
          exact hw
        rw [releaseLoop,if_pos ha,h.lookup_none (by omega) hw]
        dsimp only
        rw [if_pos rfl,next_table (by omega),← hnext,range'_split hi (show n ≤ next by omega),
          List.foldlM_append,hskip,ih h (n := next) (by omega) (by omega)]
        rfl
    · rw [releaseLoop,if_neg ha,show hi - n = 0 by omega]
      rfl

end Ranges

theorem Owns.userDirectory {R : ℕ → Prop} {o : Owner} (h : Owns R m o) (hR : Manageable L R)
    (hd : o d = .directory) : ∃ F, UserDirectory L m d F := by
  obtain ⟨F,hc,hnd,hF⟩ := h.free
  have htab : ∀ i < 1024, m.word d i % 2 = 1 → o (m.word d i / 4096) = .table d i :=
    fun i hi hp => (h.tree.table _ _ _).mpr ⟨hd,hi,hp,rfl⟩
  have huser : ∀ n < 2^19, m.entry d n % 2 = 1 → o (m.entry d n / 4096) = .user d (n / 1024) (n % 1024) := by
    intro n hn hp
    have hw := table_of_entry hp
    rw [Memory.entry,if_pos hw] at hp ⊢
    exact (h.tree.user _ _ _ _).mpr ⟨_,htab _ (by omega) hw,by omega,Nat.mod_lt _ (by norm_num),hp,rfl⟩
  refine ⟨F,⟨h.lt hR (by simp [hd]),hc,hnd,fun f hf => ⟨h.lt hR (by simp [(hF f).mp hf]),?_⟩,
    fun i hi hp => ?_,fun i hi j hj hpi hpj he => ?_⟩,fun n hn hp => ?_,fun n hn hp => ⟨?_,?_,fun i hi hpi => ?_⟩,
    fun n hn k hk hpn hpk he => ?_⟩
  · rintro rfl
    simp [(hF f).mp hf] at hd
  · have ht := htab i hi hp
    refine ⟨h.lt hR (by simp [ht]),?_,fun hf => ?_⟩
    · intro he
      simp [he,hd] at ht
    · simp [(hF _).mp hf] at ht
  · have ht := htab i hi hpi
    rw [he,htab j hj hpj,Place.table.injEq] at ht
    exact ht.2.symm
  · exact hR _ (h.managed (by simp [huser n hn hp]))
  · intro he
    have hu := huser n hn hp
    simp [he,hd] at hu
  · intro hf
    have hu := huser n hn hp
    simp [(hF _).mp hf] at hu
  · intro he
    have hu := huser n hn hp
    simp [← he,htab i hi hpi] at hu
  · have hu := huser n hn hpn
    rw [he,huser k hk hpk,Place.user.injEq] at hu
    omega

/-- releaseUserPages ends and does what a visit of every page from `newsz` rounded up to `oldsz`
does: exactly the present pages of the range go to the free list, each once, their entries are
cleared, and no other entry and no page elsewhere changes. -/
theorem release_visits_every_page {newsz oldsz : ℕ} (h : UserDirectory L m d F) (hlt : newsz < oldsz)
    (hk : oldsz ≤ KERNBASE) :
    ∃ m', releaseUserPages L m (page d) oldsz newsz = .ok (newsz,m') ∧
      (pagesBetween newsz oldsz).foldlM (releasePage L (page d)) m = .ok m' ∧
      UserDirectory L m' d ((presentFrames m d (pagesBetween newsz oldsz)).reverse ++ F) ∧
      (∀ k < 2^20, flat m' (page d) k =
        if k ∈ pagesBetween newsz oldsz ∧ flat m (page d) k &&& PTE_P ≠ 0 then 0 else flat m (page d) k) ∧
      ∀ g, Elsewhere m d F g → g ∉ presentFrames m d (pagesBetween newsz oldsz) →
        ∀ j < 1024, m'.word g j = m.word g j := by
  simp only [KERNBASE] at hk
  have hle : (newsz + 4095) / 4096 ≤ (oldsz + 4095) / 4096 := Nat.div_le_div_right (by omega)
  obtain ⟨m',hr,h',hent,helse⟩ := h.release_range ((oldsz + 4095) / 4096 - (newsz + 4095) / 4096)
    (n := (newsz + 4095) / 4096) (by omega)
  refine ⟨m',?_,hr,h',fun k hk' => ?_,helse⟩
  · rw [releaseUserPages,if_neg (by omega),pgroundup_eq (by omega),
      h.release_loop (2^20 + 1) (show (oldsz + 4095) / 4096 ≤ 2^19 by omega) rfl (by omega) (by norm_num),hr]
    rfl
  · rw [h'.flat_eq hk',h.flat_eq hk',hent k hk',pagesBetween]
    simp only [List.mem_range'_1,present_iff]

section OneUserPage

def oneUserPage : Memory :=
  (emptyDirectory.store (page 1 + 4 * 0) (4096 * 3 + 7)).store (page 3 + 4 * 0) (4096 * 512 + 7)

theorem oneUserPage_word {g j : ℕ} (hj : j < 1024) : oneUserPage.word g j =
    if g = 3 ∧ j = 0 then 4096 * 512 + 7 else if g = 1 ∧ j = 0 then 4096 * 3 + 7 else 0 := by
  rw [oneUserPage,word_store _ (by norm_num) (by norm_num) hj (by norm_num),
    word_store _ (by norm_num) (by norm_num) hj (by norm_num),emptyDirectory_word]

theorem oneUserPage_table {i : ℕ} (hi : i < 1024) : oneUserPage.word 1 i = if i = 0 then 4096 * 3 + 7 else 0 := by
  rw [oneUserPage_word hi,if_neg (by omega)]
  simp only [true_and]

theorem oneUserPage_present {n : ℕ} (hn : n < 2^19) (hp : oneUserPage.entry 1 n % 2 = 1) :
    n = 0 ∧ oneUserPage.entry 1 n / 4096 = 512 := by
  have hw := table_of_entry hp
  rw [Memory.entry,if_pos hw] at hp ⊢
  rw [oneUserPage_table (by omega)] at hp hw ⊢
  split_ifs at hp hw ⊢ with h0
  have h3 : (4096 * 3 + 7) / 4096 = 3 := by norm_num
  rw [h3,oneUserPage_word (Nat.mod_lt _ (by norm_num))] at hp ⊢
  by_cases hj : n % 1024 = 0
  · rw [if_pos ⟨rfl,hj⟩]
    exact ⟨by omega,by norm_num⟩
  · rw [if_neg (fun hc => hj hc.2),if_neg (by norm_num)] at hp
    cases hp

theorem oneUserPage_directory : UserDirectory smallLayout oneUserPage 1 [2] := by
  have htab : ∀ i < 1024, oneUserPage.word 1 i % 2 = 1 → i = 0 ∧ oneUserPage.word 1 i / 4096 = 3 := by
    intro i hi hp
    rw [oneUserPage_table hi] at hp ⊢
    split_ifs at hp ⊢ with h0
    exact ⟨h0,by norm_num⟩
  refine ⟨⟨by norm_num,⟨rfl,?_⟩,List.nodup_singleton 2,fun f hf => ?_,fun i hi hp => ?_,
    fun i hi j hj hpi hpj _ => ?_⟩,fun n hn hp => ?_,fun n hn hp => ⟨?_,?_,fun i hi hpi => ?_⟩,
    fun n hn k hk hpn hpk _ => ?_⟩
  · rw [oneUserPage_word (by norm_num)]
    rfl
  · rw [List.mem_singleton.mp hf]
    norm_num
  · rw [(htab i hi hp).2]
    decide
  · rw [(htab i hi hpi).1,(htab j hj hpj).1]
  · rw [(oneUserPage_present hn hp).2]
    decide
  · rw [(oneUserPage_present hn hp).2]
    decide
  · rw [(oneUserPage_present hn hp).2]
    decide
  · rw [(oneUserPage_present hn hp).2,(htab i hi hpi).2]
    decide
  · rw [(oneUserPage_present hn hpn).1,(oneUserPage_present hk hpk).1]

/-- The page is freed, and the absent tables behind it are passed over. -/
theorem release_visits_every_page_one :
    ∃ m', releaseUserPages smallLayout oneUserPage (page 1) KERNBASE 0 = .ok (0,m') ∧
      (pagesBetween 0 KERNBASE).foldlM (releasePage smallLayout (page 1)) oneUserPage = .ok m' ∧
      UserDirectory smallLayout m' 1 ((presentFrames oneUserPage 1 (pagesBetween 0 KERNBASE)).reverse ++ [2]) ∧
      (∀ k < 2^20, flat m' (page 1) k =
        if k ∈ pagesBetween 0 KERNBASE ∧ flat oneUserPage (page 1) k &&& PTE_P ≠ 0 then 0
        else flat oneUserPage (page 1) k) ∧
      ∀ g, Elsewhere oneUserPage 1 [2] g → g ∉ presentFrames oneUserPage 1 (pagesBetween 0 KERNBASE) →
        ∀ j < 1024, m'.word g j = oneUserPage.word g j :=
  release_visits_every_page oneUserPage_directory (by decide) le_rfl

end OneUserPage

end UoDOS.Paging
