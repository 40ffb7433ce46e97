import UoDOS.Memory.PageRuns

/-! # The kernel half of every directory

Whatever the calls do to the user halves, every directory that setupKernelVirtualMemory
or copyProcessPageTable has returned maps the addresses from `KERNBASE` on as
kernelMemoryMap says, and nothing else there.
-/
namespace UoDOS.Paging
open ByteMemory Transition

/-- The entry that the hardware finds for an address, 0 where there is no table. -/
def entryAt (m : Memory) (pgdir va : ℕ) : ℕ :=
  if (getPageTableEntry m pgdir va false).1 = 0 then 0 else m.load (getPageTableEntry m pgdir va false).1

/-- The length of a range as setupKernelVirtualMemory computes it. -/
def KernelRange.size (k : KernelRange) : ℕ := (k.phys_end + (2^32 - k.phys_start)) % 2^32

def KernelRange.Contains (k : KernelRange) (va : ℕ) : Prop := k.virt ≤ va ∧ va < k.virt + k.size

inductive Call
  | setup
  | allocate (pgdir oldsz newsz : ℕ)
  | release (pgdir oldsz newsz : ℕ)
  | copy (pgdir MemorySize : ℕ)
  | clear (pgdir uva : ℕ)
  | free (pgdir : ℕ)

/-- One call on a directory that has been built, with user addresses. A call that
panics has no successor. -/
def perform (L : Layout) (s : Space) : Call → Option Space
  | .setup =>
    match setupKernelVirtualMemory L s.memory with
    | .ok (pgdir,m) => some ⟨m,if pgdir = 0 then s.directories else pgdir :: s.directories⟩
    | .error _ => none
  | .allocate pgdir oldsz newsz =>
    if pgdir ∈ s.directories then
      match allocateMemoryAndPageTables L s.memory pgdir oldsz newsz with
      | .ok (_,m) => some ⟨m,s.directories⟩
      | .error _ => none
    else none
  | .release pgdir oldsz newsz =>
    if pgdir ∈ s.directories ∧ oldsz ≤ KERNBASE then
      match releaseUserPages L s.memory pgdir oldsz newsz with
      | .ok (_,m) => some ⟨m,s.directories⟩
      | .error _ => none
    else none
  | .copy pgdir MemorySize =>
    if pgdir ∈ s.directories ∧ MemorySize ≤ KERNBASE then
      match copyProcessPageTable L s.memory pgdir MemorySize with
      | .ok (d,m) => some ⟨m,if d = 0 then s.directories else d :: s.directories⟩
      | .error _ => none
    else none
  | .clear pgdir uva =>
    if pgdir ∈ s.directories ∧ uva < KERNBASE then
      match clearPTEU s.memory pgdir uva with
      | .ok m => some ⟨m,s.directories⟩
      | .error _ => none
    else none
  | .free pgdir =>
    if pgdir ∈ s.directories then
      match freeMemoryAndPageTable L s.memory pgdir with
      | .ok m => some ⟨m,s.directories.filter (· ≠ pgdir)⟩
      | .error _ => none
    else none

section Ranges

theorem rangeOf_mem {n j : ℕ} {k : KernelRange} {ks : List KernelRange} (h : Consecutive n ks) (hk : k ∈ ks)
    (hlo : k.virt / 4096 ≤ j) (hhi : j ≤ k.last) : rangeOf ks j = some k := by
  induction ks generalizing n with
  | nil => cases hk
  | cons x ks ih =>
    obtain ⟨-,-,-,-,-,hks⟩ := h
    rcases List.mem_cons.mp hk with rfl | hk
    · rw [rangeOf,List.find?_cons_of_pos (by simpa using ⟨hlo,hhi⟩)]
    · have hx := ih hks hk
      have hj : x.last < j := by
        by_contra hn
        rw [rangeOf_below hks (by omega)] at hx
        cases hx
      rw [rangeOf,List.find?_cons_of_neg (by simp only [decide_eq_true_eq]; omega)]
      exact hx

theorem kernelMemoryMap_page {L : Layout} {k : KernelRange} (hk : k ∈ kernelMemoryMap L) (va : ℕ) :
    (k.Contains va ↔ k.virt / 4096 ≤ va / 4096 ∧ va / 4096 ≤ k.last) ∧
    (k.Contains va → k.entry (va / 4096) = k.phys_start + (PGROUNDDOWN va - k.virt) ||| k.perm ||| PTE_P) := by
  have h1 := L.data_aligned
  have h2 := L.data_above
  have h3 := L.kernelEnd_above
  have h4 := L.kernelEnd_below
  simp only [KERNLINK,KERNBASE,EXTMEM,P2V,PHYSTOP,PGSIZE] at h1 h2 h4
  have entry : ∀ {v p : ℕ}, va < 2^32 → v % 4096 = 0 → v ≤ va → p + (va - v) < 2^32 →
      (p + 4096 * (va / 4096 - v / 4096)) % 2^32 = p + (PGROUNDDOWN va - v) := by
    intro v p hva hv hle hp
    rw [pgrounddown_eq hva]
    omega
  simp only [kernelMemoryMap,List.mem_cons,List.not_mem_nil,or_false] at hk
  rcases hk with rfl | rfl | rfl | rfl <;>
    simp only [KernelRange.Contains,KernelRange.size,KernelRange.last,KernelRange.entry,KERNLINK,KERNBASE,EXTMEM,V2P,
      PHYSTOP,DEVSPACE] <;>
    refine ⟨by omega,fun hc => ?_⟩ <;>
    rw [entry (by omega) (by omega) (by omega) (by omega)]

theorem kernelMemoryMap_aligned {L : Layout} {k : KernelRange} (hk : k ∈ kernelMemoryMap L) :
    k.virt % 4096 = 0 ∧ k.phys_start % 4096 = 0 ∧ (k.perm = PTE_W ∨ k.perm = 0) := by
  have h1 := L.data_aligned
  have h2 := L.data_above
  simp only [KERNLINK,KERNBASE,EXTMEM,PGSIZE] at h1 h2
  simp only [kernelMemoryMap,List.mem_cons,List.not_mem_nil,or_false] at hk
  rcases hk with rfl | rfl | rfl | rfl <;> refine ⟨?_,?_,by simp⟩ <;>
    simp only [KERNLINK,KERNBASE,EXTMEM,V2P,DEVSPACE] <;> omega

end Ranges

section Calls
variable {L : Layout} {R : ℕ → Prop} {m m' : Memory} {o o' : Owner} {s t : Space}

theorem Owns.entryAt_eq {d va : ℕ} (h : Owns R m o) (hR : Manageable L R) (hd : o d = .directory) (hva : va < 2^32) :
    entryAt m (page d) va = m.entry d (va / 4096) := by
  have hi : PDX va = va / 4096 / 1024 := by rw [pdx_eq]; omega
  have hj : PTX va = va / 4096 % 1024 := by rw [ptx_eq]; norm_num
  have hj' : va / 4096 % 1024 < 1024 := Nat.mod_lt _ (by norm_num)
  unfold entryAt Memory.entry
  rcases h.lookup va hR hd with ⟨hnone,hg⟩ | ⟨t,ht,hg⟩
  · rw [hg,if_pos rfl,if_neg]
    intro hp
    exact hnone _ ((h.tree.table _ _ _).mpr ⟨hd,by omega,hi ▸ hp,rfl⟩)
  · have hne : page t + 4 * PTX va ≠ 0 := by have := page_ne_zero t; omega
    obtain ⟨-,-,hp,hw⟩ := (h.tree.table _ _ _).mp ht
    rw [hi] at hp hw
    rw [hg,if_neg hne,if_pos hp,hw,hj,load_page m (h.lt hR (by simp [ht])) hj']

theorem clear_user_bit {x : ℕ} (hx : x < 2^32) : (x &&& (2^32 - 1 - PTE_U)) % 2 = x % 2 ∧
    (x &&& (2^32 - 1 - PTE_U)) / 4096 = x / 4096 ∧ x &&& (2^32 - 1 - PTE_U) < 2^32 := by
  have h1 := Nat.and_mod_two_pow (a := x) (b := 2^32 - 1 - PTE_U) (n := 1)
  have h2 := Nat.and_div_two_pow (a := x) (b := 2^32 - 1 - PTE_U) (n := 12)
  have h3 : (2^32 - 1 - PTE_U) / 2^12 = 2^20 - 1 := by decide
  have h4 : (2^32 - 1 - PTE_U) % 2^1 = 1 := by decide
  refine ⟨?_,?_,Nat.and_lt_two_pow x (by decide)⟩
  · rw [h4,Nat.and_one_is_mod] at h1
    simpa using h1
  · rw [h3,Nat.and_two_pow_sub_one_of_lt_two_pow (by omega)] at h2
    exact h2

theorem Owns.clear_entry {d uva : ℕ} (h : Owns R m o) (hR : Manageable L R) (hd : o d = .directory)
    (hu : uva < 2^32) (hc : clearPTEU m (page d) uva = .ok m') :
    Owns R m' o ∧ m'.entry d (uva / 4096) &&& PTE_U = 0 ∧
      (∀ e n, o e = .directory → n < 2^20 → (e = d → n ≠ uva / 4096) → m'.entry e n = m.entry e n) ∧
      ∀ g j, j < 1024 → (∀ i, o g ≠ .table d i) → m'.word g j = m.word g j := by
  have hj : PTX uva < 1024 := by rw [ptx_eq]; omega
  have hn : uva / 4096 = 1024 * PDX uva + PTX uva := by rw [pdx_eq,ptx_eq]; omega
  rcases h.lookup uva hR hd with ⟨-,hg⟩ | ⟨t,ht,hg⟩
  · simp only [clearPTEU,hg,↓reduceIte] at hc
    cases hc
  have hne : page t + 4 * PTX uva ≠ 0 := by have := page_ne_zero t; omega
  have htl : t < 2^19 := h.lt hR (by simp [ht])
  simp only [clearPTEU,hg,hne,↓reduceIte,load_page m htl hj] at hc
  cases hc
  obtain ⟨h1,h2,h3⟩ := clear_user_bit (word_lt m t (PTX uva))
  have hw := fun g k (hk : k < 1024) => word_store (g := g) m htl hj hk h3
  have h' : Owns R (m.store (page t + 4 * PTX uva) (m.word t (PTX uva) &&& (2^32 - 1 - PTE_U))) o := by
    refine ⟨h.foreign,?_,h.tree.congr_frames (fun g k hk => ?_)⟩
    · have := h.store_free hR (g := t) (k := PTX uva) (t := t) (p := .table d (PDX uva)) (by simp [ht]) (by simp [ht])
        hj h3 (by simp [ht]) (by simp)
      rwa [← ht,Function.update_eq_self] at this
    · rw [hw g k hk]
      split_ifs with hgk
      · rw [hgk.1,hgk.2]
        exact ⟨h1,h2⟩
      · exact ⟨rfl,rfl⟩
  refine ⟨h',?_,fun e n he hlt hdiff => ?_,fun g j hj' hgt => ?_⟩
  · rw [hn,h'.entry_table ht hj,hw t _ hj,if_pos ⟨rfl,rfl⟩,Nat.and_assoc,
      show (2^32 - 1 - PTE_U) &&& PTE_U = 0 by decide,Nat.and_zero]
  · refine h.entry_congr he hlt ?_ (fun t' ht' => ?_)
    · rw [hw e _ (by omega),if_neg]
      rintro ⟨rfl,-⟩
      rw [ht] at he
      cases he
    · rw [hw t' _ (Nat.mod_lt _ (by norm_num)),if_neg]
      rintro ⟨rfl,hx⟩
      rw [ht,Place.table.injEq] at ht'
      exact hdiff ht'.1.symm (by omega)
  · rw [hw g j hj',if_neg]
    rintro ⟨rfl,-⟩
    exact hgt _ ht

theorem Owns.clear_user {d uva : ℕ} (h : Owns R m o) (hR : Manageable L R) (hd : o d = .directory)
    (hu : uva < KERNBASE) (hc : clearPTEU m (page d) uva = .ok m') :
    Owns R m' o ∧ ∀ D : Set ℕ, (∀ d ∈ D, o d = .directory) → Keeps D m m' := by
  simp only [KERNBASE] at hu
  obtain ⟨h',-,he,-⟩ := h.clear_entry hR hd (by omega) hc
  exact ⟨h',fun D hD e hed n h1 h2 => he e n (hD e hed) h2 (fun _ => by omega)⟩

def Prescribed (L : Layout) (m : Memory) (d : ℕ) : Prop :=
  ∀ n, 2^19 ≤ n → n < 2^20 → m.entry d n = ((rangeOf (kernelMemoryMap L) n).map (·.entry n)).getD 0

theorem kernel_entry_user {x perm : ℕ} (hx : x % 4096 = 0) (hp : perm = PTE_W ∨ perm = 0) :
    (x ||| perm ||| PTE_P) &&& PTE_U = 0 := by
  have hbit : x &&& 2^2 = 0 := by
    obtain ⟨y,rfl⟩ : ∃ y, x = 2^12 * y := ⟨x / 4096,by omega⟩
    rw [Nat.and_comm,Nat.two_pow_and,Nat.testBit_two_pow_mul]
    simp
  rw [Nat.and_or_distrib_right,Nat.and_or_distrib_right,show PTE_U = 2^2 by rfl,hbit]
  rcases hp with rfl | rfl <;> decide

def Closed (m : Memory) (d : ℕ) : Prop := ∀ n, 2^19 ≤ n → n < 2^20 → m.entry d n &&& PTE_U = 0

theorem Prescribed.closed {d : ℕ} (h : Prescribed L m d) : Closed m d := by
  intro n h1 h2
  rw [h n h1 h2]
  cases hr : rangeOf (kernelMemoryMap L) n with
  | none => exact Nat.zero_and _
  | some k =>
    obtain ⟨hv,hp,hperm⟩ := kernelMemoryMap_aligned (List.mem_of_find?_eq_some hr)
    rw [Option.map_some,Option.getD_some,KernelRange.entry]
    exact kernel_entry_user (by omega) hperm

structure Mapped (L : Layout) (R : ℕ → Prop) (s : Space) (o : Owner) : Prop where
  owns : Owns R s.memory o
  listed : ∀ v ∈ s.directories, ∃ d, v = page d ∧ o d = .directory
  prescribed : ∀ d, page d ∈ s.directories → Prescribed L s.memory d

def built (s : Space) : Set ℕ := {d | page d ∈ s.directories}

theorem Mapped.directory (h : Mapped L R s o) {d : ℕ} (hd : d ∈ built s) : o d = .directory := by
  obtain ⟨x,hx,hxd⟩ := h.listed _ hd
  rwa [page_injective hx]

theorem Mapped.keep (h : Mapped L R s o) (ho : Owns R m o') (hd : ∀ d, o d = .directory → o' d = .directory)
    (hk : Keeps (built s) s.memory m) : Mapped L R ⟨m,s.directories⟩ o' := by
  refine ⟨ho,fun v hv => ?_,fun d hm n h1 h2 => ?_⟩
  · obtain ⟨d,rfl,hx⟩ := h.listed v hv
    exact ⟨d,rfl,hd d hx⟩
  · exact (hk d hm n h1 h2).trans (h.prescribed d hm n h1 h2)

theorem Mapped.new {c : ℕ} (h : Mapped L R s o) (ho : Owns R m o') (hc : o c = .free)
    (hw : Within c (Function.update o c .directory) o') (hk : Keeps (built s) s.memory m)
    (hp : Prescribed L m c) : Mapped L R ⟨m,page c :: s.directories⟩ o' := by
  have hd : ∀ d, o d = .directory → o' d = .directory := by
    intro d hd
    have hne : d ≠ c := by rintro rfl; simp [hd] at hc
    exact (hw.iff (by simp [Movable])).mpr (by rw [Function.update_of_ne hne,hd])
  refine ⟨ho,fun v hv => ?_,fun d hm => ?_⟩
  · rcases List.mem_cons.mp hv with rfl | hv
    · exact ⟨c,rfl,(hw.iff (by simp [Movable])).mpr (by simp)⟩
    · obtain ⟨d,rfl,hx⟩ := h.listed v hv
      exact ⟨d,rfl,hd d hx⟩
  · rcases List.mem_cons.mp hm with hdc | hm
    · rw [page_injective hdc]
      exact hp
    · exact fun n h1 h2 => (hk d hm n h1 h2).trans (h.prescribed d hm n h1 h2)

theorem Mapped.perform {c : Call} (h : Mapped L R s o) (hR : Manageable L R) (he : perform L s c = some t) :
    ∃ o', Mapped L R t o' := by
  cases c with
  | setup =>
    simp only [Paging.perform] at he
    rcases h.owns.setup_keeps hR with ⟨m,hs,ho,-,hk⟩ | ⟨d,m,o',hs,hd,ho,hg,hk,hp⟩
    · rw [hs] at he
      cases he
      exact ⟨o,h.keep ho (fun _ => id) (hk _ (fun _ => h.directory))⟩
    · rw [hs] at he
      simp only [page_ne_zero,↓reduceIte] at he
      cases he
      exact ⟨o',h.new ho hd hg.within (hk _ (fun _ => h.directory)) (fun n _ h2 => hp n h2)⟩
  | allocate v oldsz newsz =>
    simp only [Paging.perform] at he
    split_ifs at he with hc
    split at he
    · rename_i r m ha
      cases he
      obtain ⟨d,rfl,hd⟩ := h.listed v hc
      by_cases hn : KERNBASE ≤ newsz
      · rw [allocateMemoryAndPageTables,if_pos hn] at ha
        cases ha
        exact ⟨o,h⟩
      · by_cases hle : oldsz ≤ newsz
        · obtain ⟨⟨o',ho,hw,-⟩,hk⟩ := h.owns.allocate_pages_keeps hR hd hle (not_le.mp hn) ha
          exact ⟨o',h.keep ho (fun d hd => (hw.iff (by simp [Movable])).mpr hd) (hk _ (fun _ => h.directory))⟩
        · rw [allocateMemoryAndPageTables,if_neg hn,if_pos (by omega)] at ha
          cases ha
          exact ⟨o,h⟩
    · cases he
  | release v oldsz newsz =>
    simp only [Paging.perform] at he
    split_ifs at he with hc
    obtain ⟨d,rfl,hd⟩ := h.listed v hc.1
    obtain ⟨m,hr,ho,hk⟩ := h.owns.release_pages_keeps oldsz newsz hR hd hc.2
    simp only [hr] at he
    cases he
    exact ⟨_,h.keep ho (fun d hd => (within_released.iff (by simp [Movable])).mpr hd) (hk _ (fun _ => h.directory))⟩
  | copy v size =>
    simp only [Paging.perform] at he
    split_ifs at he with hc
    obtain ⟨d,rfl,hd⟩ := h.listed v hc.1
    split at he
    · rename_i r m hcp
      obtain ⟨hres,hk⟩ := h.owns.copy_keeps hR hd hc.2 hcp
      rcases hres with ⟨c,o',rfl,hcf,ho,hw,-,hp⟩ | ⟨rfl,⟨o',ho,hl⟩,-⟩
      · rw [if_neg (page_ne_zero c)] at he
        cases he
        exact ⟨o',h.new ho hcf hw (hk _ (fun _ => h.directory)) hp⟩
      · rw [if_pos rfl] at he
        cases he
        refine ⟨o',h.keep ho (fun x hx => ?_) (hk _ (fun _ => h.directory))⟩
        rcases hl x with he | ⟨he,-⟩
        · rw [he,hx]
        · rw [hx] at he
          cases he
    · cases he
  | clear v uva =>
    simp only [Paging.perform] at he
    split_ifs at he with hc
    obtain ⟨d,rfl,hd⟩ := h.listed v hc.1
    split at he
    · rename_i m hcl
      cases he
      obtain ⟨ho,hk⟩ := h.owns.clear_user hR hd hc.2 hcl
      exact ⟨o,h.keep ho (fun _ => id) (hk _ (fun _ => h.directory))⟩
    · cases he
  | free v =>
    simp only [Paging.perform] at he
    split_ifs at he with hc
    obtain ⟨d,rfl,hd⟩ := h.listed v hc
    obtain ⟨m,hr,ho,hk⟩ := h.owns.free_directory_keeps hR hd
    simp only [hr] at he
    cases he
    have hkeep := hk {x | page x ∈ s.directories ∧ x ≠ d} (fun x hx => h.directory hx.1) (fun hx => hx.2 rfl)
    refine ⟨_,ho,fun v hv => ?_,fun x hx n h1 h2 => ?_⟩
    · obtain ⟨hv,hne⟩ := List.mem_filter.mp hv
      obtain ⟨x,rfl,hx⟩ := h.listed v hv
      have hxd : x ≠ d := by rintro rfl; simp at hne
      exact ⟨x,rfl,by simp [freed,hx,hxd]⟩
    · obtain ⟨hx,hne⟩ := List.mem_filter.mp hx
      have hxd : x ≠ d := by rintro rfl; simp at hne
      exact (hkeep x ⟨hx,hxd⟩ n h1 h2).trans (h.prescribed x hx n h1 h2)

end Calls

section Runs
variable {L : Layout} {vstart vend : ℕ} {s t : Space} {cs : List Call}

/-- After any calls, in every directory that has been built the entries from
`KERNBASE` on are those of kernelMemoryMap: each address of a range has the entry
for its physical page with the permission of the range, no other address is
present, and none is open to user code. Building another directory returns. -/
theorem kernel_half_prescribed (hs : Started L vstart vend s) (h : Runs (graph (perform L)) s cs t) :
    (∀ v ∈ t.directories, ∀ va, KERNBASE ≤ va → va < 2^32 →
      (∀ k ∈ kernelMemoryMap L, k.Contains va →
        entryAt t.memory v va = k.phys_start + (PGROUNDDOWN va - k.virt) ||| k.perm ||| PTE_P) ∧
      ((∀ k ∈ kernelMemoryMap L, ¬ k.Contains va) → entryAt t.memory v va = 0) ∧
      entryAt t.memory v va &&& PTE_U = 0) ∧
    ∃ r, setupKernelVirtualMemory L t.memory = .ok r := by
  obtain ⟨o₀,h₀,hR⟩ := hs.sound
  have hm₀ : Mapped L (InRange vstart vend) s o₀ :=
    ⟨h₀.owns,fun v hv => (h₀.listed v).mp hv,fun d hd => by simp [hs.2.2.2.1] at hd⟩
  obtain ⟨o,hm⟩ : ∃ o, Mapped L (InRange vstart vend) t o :=
    h.invariant (I := fun s => ∃ o, Mapped L (InRange vstart vend) s o) ⟨o₀,hm₀⟩
      (fun a c b ⟨o,ha⟩ he => ha.perform hR he)
  refine ⟨fun v hv va hlo hhi => ?_,?_⟩
  · obtain ⟨d,rfl,hd⟩ := hm.listed v hv
    have hn : 2^19 ≤ va / 4096 ∧ va / 4096 < 2^20 := by simp only [KERNBASE] at hlo; omega
    have he := hm.prescribed d hv (va / 4096) hn.1 hn.2
    rw [← hm.owns.entryAt_eq hR hd hhi] at he
    have inside : ∀ k ∈ kernelMemoryMap L, k.Contains va →
        entryAt t.memory (page d) va = k.phys_start + (PGROUNDDOWN va - k.virt) ||| k.perm ||| PTE_P := by
      intro k hk hc
      obtain ⟨hiff,hent⟩ := kernelMemoryMap_page hk va
      rw [he,rangeOf_mem (kernelMemoryMap_consecutive L) hk (hiff.mp hc).1 (hiff.mp hc).2]
      exact hent hc
    have outside : (∀ k ∈ kernelMemoryMap L, ¬ k.Contains va) → entryAt t.memory (page d) va = 0 := by
      intro hno
      have hnone : rangeOf (kernelMemoryMap L) (va / 4096) = none := by
        refine List.find?_eq_none.mpr (fun k hk => ?_)
        simpa using fun h1 h2 => hno k hk ((kernelMemoryMap_page hk va).1.mpr ⟨h1,h2⟩)
      rw [he,hnone]
      rfl
    refine ⟨inside,outside,?_⟩
    rw [hm.owns.entryAt_eq hR hd hhi]
    exact (hm.prescribed d hv).closed _ hn.1 hn.2
  · rcases hm.owns.setup hR with ⟨m,hs,-⟩ | ⟨d,m,o',hs,-⟩
    · exact ⟨_,hs⟩
    · exact ⟨_,hs⟩

/-- The first page of a directory built from plenty of memory is the one of the
I/O space. -/
theorem kernel_half_prescribed_firstDirectory : ∃ s t v, Started smallLayout 0x80102000 (P2V PHYSTOP) s ∧
    Runs (graph (perform smallLayout)) s [.setup] t ∧ v ∈ t.directories ∧
    entryAt t.memory v KERNBASE = 0 ||| PTE_W ||| PTE_P := by
  obtain ⟨m,o,hf,ho,hR,hplenty⟩ := free_memory (L := smallLayout) (v := 0x80102000) (fun _ => 0) (by decide)
    (by decide)
  have hstart : Started smallLayout 0x80102000 (P2V PHYSTOP) ⟨m,[]⟩ := ⟨by decide,by decide,le_rfl,rfl,_,hf⟩
  rcases ho.setup hR with ⟨-,-,-,hsc⟩ | ⟨d,m',o',hs,-⟩
  · exact absurd (hsc.mono (by norm_num)) hplenty
  · have hrun : Runs (graph (perform smallLayout)) ⟨m,[]⟩ [.setup] ⟨m',[page d]⟩ :=
      Runs.one (by simp [graph,perform,hs,page_ne_zero])
    have hk := ((kernel_half_prescribed hstart hrun).1 (page d) (by simp) KERNBASE le_rfl (by decide)).1
      ⟨KERNBASE,0,EXTMEM,PTE_W⟩ (by simp [kernelMemoryMap]) (by constructor <;> decide)
    exact ⟨_,_,page d,hstart,hrun,by simp,by rw [hk]; decide⟩

end Runs

end UoDOS.Paging
