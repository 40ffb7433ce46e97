import UoDOS.Kernel.Exec
import UoDOS.Memory.UserAccess

/-! # Copies into another address space

copyToUserVirtualMemory cuts the bytes at the page boundaries and looks up each page.
-/
namespace UoDOS.Kernel
open ByteMemory Paging Processes FileSystem Strings

variable {L : Layout} {R : ℕ → Prop} {m m' : Memory} {o : Owner} {d va k : ℕ} {data : List UInt8}

def Open (m : Memory) (d k : ℕ) : Prop := m.entry d k % 2 = 1 ∧ m.entry d k &&& PTE_U ≠ 0

def HasTable (m : Memory) (d k : ℕ) : Prop := m.word d (k / 1024) % 2 = 1

def AllOpen (m : Memory) (d va n : ℕ) : Prop := ∀ i < n, Open m d ((va + i) / 4096)

structure FirstClosed (m : Memory) (d va n i : ℕ) : Prop where
  inside : i < n
  closed : ¬ Open m d ((va + i) / 4096)
  first : AllOpen m d va i

structure Written (m m' : Memory) (d va : ℕ) (data : List UInt8) : Prop where
  bytes : ∀ i (hi : i < data.length), m'.peek d (va + i) = some data[i]
  frame : ∀ a, (∀ i < data.length, m.physical d (va + i) ≠ some a) → m'.ram a = m.ram a
  freeList : m'.FreeList = m.FreeList

def SameEntries (o : Owner) (m m' : Memory) : Prop :=
  ∀ e n, o e = .directory → n < 2^20 → m'.entry e n = m.entry e n

theorem SameEntries.trans {m'' : Memory} (h : SameEntries o m m') (h' : SameEntries o m' m'') :
    SameEntries o m m'' :=
  fun e n he hn => (h' e n he hn).trans (h e n he hn)

theorem SameEntries.physical (h : SameEntries o m m') (hd : o d = .directory) (va : ℕ) :
    m'.physical d va = m.physical d va := by
  unfold Memory.physical
  by_cases hva : va < KERNBASE
  · rw [h d _ hd (by simp only [KERNBASE] at hva; omega)]
  · rw [if_neg (fun hc => hva hc.1),if_neg (fun hc => hva hc.1)]

theorem Open.below (h : Open m d k) (hc : Closed m d) (hk : k < 2^20) : k < 2^19 := by
  by_contra hge
  exact h.2 (hc k (by omega) hk)

theorem AllOpen.below {n i : ℕ} (h : AllOpen m d va n) (hc : Closed m d) (hva : va < 2^32) (hi : i < n) :
    va + i < KERNBASE := by
  simp only [KERNBASE]
  by_contra hge
  have hfirst := (h 0 (by omega)).below hc (by omega)
  have hbound := h (2^31 - va) (by omega)
  rw [show (va + (2^31 - va)) / 4096 = 2^19 by omega] at hbound
  exact absurd (hbound.below hc (by norm_num)) (lt_irrefl _)

theorem FirstClosed.below {n i : ℕ} (h : FirstClosed m d va n i) (hc : Closed m d) (hva : va < 2^32) :
    (va + i) / 4096 < 2^20 := by
  cases i with
  | zero => omega
  | succ i =>
    have hi := h.first.below hc hva (Nat.lt_succ_self i)
    simp only [KERNBASE] at hi
    omega

theorem Open.hasTable (h : Open m d k) : HasTable m d k := by
  have hp := h.1
  unfold Memory.entry at hp
  split_ifs at hp with ht
  exact ht

theorem physical_injective {vb a : ℕ} (h : Owns R m o) (hd : o d = .directory) (ha : m.physical d va = some a)
    (hb : m.physical d vb = some a) : va = vb := by
  have howner := h.physical_owner hd ha
  rw [h.physical_owner hd hb,Place.user.injEq] at howner
  obtain ⟨-,-,rfl⟩ := physical_eq_some.mp ha
  obtain ⟨-,-,he⟩ := physical_eq_some.mp hb
  omega

theorem mapVirtualAddress_eq (h : Owns R m o) (hR : Manageable L R) (hd : o d = .directory) (hk : k < 2^20) :
    (¬ HasTable m d k ∧ mapVirtualAddressToKernelAddress m (page d) (4096 * k) = .error .nullPointer) ∨
    (HasTable m d k ∧ ¬ Open m d k ∧ mapVirtualAddressToKernelAddress m (page d) (4096 * k) = .ok 0) ∨
    (Open m d k ∧ mapVirtualAddressToKernelAddress m (page d) (4096 * k) = .ok (P2V (PTE_ADDR (m.entry d k)))) := by
  have hj : k % 1024 < 1024 := Nat.mod_lt _ (by norm_num)
  rcases h.lookup (4096 * k) hR hd with ⟨hnone,hg⟩ | ⟨t,ht,hg⟩
  · rw [pdx_page hk] at hnone
    refine .inl ⟨fun htab => hnone _ ((h.tree.table _ _ _).mpr ⟨hd,by omega,htab,rfl⟩),?_⟩
    simp only [mapVirtualAddressToKernelAddress,hg,↓reduceIte]
  · rw [pdx_page hk] at ht
    rw [ptx_page] at hg
    have hload : m.load (page t + 4 * (k % 1024)) = m.entry d k := by
      have he := h.entry_table ht hj
      rw [Nat.div_add_mod] at he
      rw [load_page m (h.lt hR (by simp [ht])) hj,he]
    have hne : page t + 4 * (k % 1024) ≠ 0 := by
      have := page_ne_zero t
      omega
    simp only [mapVirtualAddressToKernelAddress,hg,hne,↓reduceIte,hload]
    by_cases hp : m.entry d k &&& PTE_P = 0
    · refine .inr (.inl ⟨((h.tree.table _ _ _).mp ht).2.2.1,fun ho => ?_,by rw [if_pos hp]⟩)
      exact (present_iff _).mpr ho.1 hp
    by_cases hu : m.entry d k &&& PTE_U = 0
    · exact .inr (.inl ⟨((h.tree.table _ _ _).mp ht).2.2.1,fun ho => ho.2 hu,by rw [if_neg hp,if_pos hu]⟩)
    · exact .inr (.inr ⟨⟨(present_iff _).mp hp,hu⟩,by rw [if_neg hp,if_neg hu]⟩)

theorem hasTable_iff (h : Owns R m o) (hd : o d = .directory) (hk : k < 2^20) :
    HasTable m d k ↔ ∃ t, o t = .table d (k / 1024) := by
  constructor
  · intro ht
    exact ⟨_,(h.tree.table _ _ _).mpr ⟨hd,by omega,ht,rfl⟩⟩
  · rintro ⟨t,ht⟩
    exact ((h.tree.table _ _ _).mp ht).2.2.1

theorem open_page (h : Owns R m o) (hR : Manageable L R) (hd : o d = .directory) (ho : Open m d k)
    (hk : k < 2^19) : o (m.entry d k / 4096) = .user d (k / 1024) (k % 1024) ∧
      P2V (PTE_ADDR (m.entry d k)) = page (m.entry d k / 4096) := by
  have hu := h.entry_user hd hk ho.1
  exact ⟨hu,by rw [pte_addr (m.entry_lt d k),p2v_frame (h.lt hR (by simp [hu]))]⟩

theorem write_user {f i j x : ℕ} {A : List UInt8} (h : Owns R m o) (hR : Manageable L R) (hf : o f = .user d i j)
    (hx : x < 4096) (hn : x + A.length ≤ 4096) : Owns R (m.write (page f + x) A) o ∧
      SameEntries o m (m.write (page f + x) A) ∧ Leaves d o m (m.write (page f + x) A) := by
  have hdata : (o f).Data := .inr ⟨_,_,_,hf⟩
  have hw : ∀ g j, g ≠ f → j < 1024 → (m.write (page f + x) A).word g j = m.word g j :=
    fun g j hg hj => word_write_of_ne m (h.lt hR (by simp [hf])) hj hg hx hn
  refine ⟨h.write_data hdata rfl hw,fun e n he hn => h.entry_write_data hdata hw he hn,fun g hg k hk => hw g k ?_ hk⟩
  rintro rfl
  exact hg.2 (.inr (.inr ⟨i,j,hf⟩))

theorem write_chunk {x : ℕ} {A : List UInt8} (h : Owns R m o) (hR : Manageable L R) (hd : o d = .directory) (ho : Open m d k)
    (hk : k < 2^19) (hx : x < 4096) (hn : x + A.length ≤ 4096) :
    Owns R (m.write (page (m.entry d k / 4096) + x) A) o ∧
    SameEntries o m (m.write (page (m.entry d k / 4096) + x) A) ∧
    Written m (m.write (page (m.entry d k / 4096) + x) A) d (4096 * k + x) A := by
  have hu := h.entry_user hd hk ho.1
  have hf := h.lt hR (f := m.entry d k / 4096) (by simp [hu])
  obtain ⟨howns,hsame,-⟩ := write_user (A := A) h hR hu hx hn
  have hphys : ∀ i < A.length, m.physical d (4096 * k + x + i) = some (4096 * (m.entry d k / 4096) + x + i) := by
    intro i hi
    have hdiv : (4096 * k + x + i) / 4096 = k := by omega
    refine physical_eq_some.mpr ⟨by simp only [KERNBASE]; omega,?_,?_⟩
    · rw [hdiv]
      exact ho.1
    · rw [hdiv]
      omega
  refine ⟨howns,hsame,fun i hi => ?_,fun a ha => ?_,rfl⟩
  · rw [Memory.peek,hsame.physical hd,hphys i hi,Option.map_some,Memory.write,v2p_page hf hx]
    simp only [ByteMemory.write]
    rw [if_pos (by omega),Nat.add_sub_cancel_left,List.getD_eq_getElem _ _ hi]
  · rw [Memory.write,v2p_page hf hx]
    refine if_neg (fun hc => ha (a - (4096 * (m.entry d k / 4096) + x)) (by omega) ?_)
    rw [hphys _ (by omega)]
    congr 1
    omega

theorem written_nil (m : Memory) (d va : ℕ) : Written m m d va [] :=
  ⟨fun i hi => absurd hi (Nat.not_lt_zero i),fun _ _ => rfl,rfl⟩

theorem Written.append {m1 : Memory} {A B : List UInt8} (h : Owns R m o) (hd : o d = .directory)
    (hs : SameEntries o m m1) (hs' : SameEntries o m1 m') (hA : Written m m1 d va A)
    (hB : Written m1 m' d (va + A.length) B) : Written m m' d va (A ++ B) := by
  have hphys : ∀ v, m'.physical d v = m.physical d v := (hs.trans hs').physical hd
  refine ⟨fun i hi => ?_,fun a ha => ?_,hB.freeList.trans hA.freeList⟩
  · rw [List.length_append] at hi
    by_cases hlt : i < A.length
    · have hb := hA.bytes i hlt
      rw [List.getElem_append_left hlt,← hb,Memory.peek,Memory.peek,hphys,hs.physical hd]
      cases hp : m.physical d (va + i) with
      | none => rfl
      | some a =>
        -- the second part is stored elsewhere
        rw [Option.map_some,Option.map_some,hB.frame a (fun j hj hc => ?_)]
        rw [hs.physical hd] at hc
        have := physical_injective h hd hp hc
        omega
    · have hb := hB.bytes (i - A.length) (by omega)
      rw [List.getElem_append_right (by omega),← hb,Nat.add_assoc,Nat.add_sub_cancel' (by omega)]
  · rw [hB.frame a (fun j hj => ?_),hA.frame a (fun i hi => ha i (by rw [List.length_append]; omega))]
    rw [hs.physical hd,Nat.add_assoc]
    exact ha _ (by rw [List.length_append]; omega)

theorem SameEntries.open_iff (h : SameEntries o m m') (hd : o d = .directory) (hk : k < 2^20) :
    Open m' d k ↔ Open m d k := by
  rw [Open,Open,h d k hd hk]

theorem copyOut_nil (pgdir fuel : ℕ) (m : Memory) (va : ℕ) : copyOut pgdir fuel m va [] = .ok (0,m) := by
  cases fuel <;> rfl

theorem copyOut_step {pgdir fuel : ℕ} (hne : data ≠ []) (hva : va < 2^32) :
    copyOut pgdir (fuel + 1) m va data =
      (mapVirtualAddressToKernelAddress m pgdir (4096 * (va / 4096))).bind fun pa0 =>
        if pa0 = 0 then .ok (-1,m)
        else copyOut pgdir fuel (m.write (pa0 + va % 4096) (data.take (min data.length (4096 - va % 4096))))
          ((4096 * (va / 4096) + 4096) % 2^32) (data.drop (min data.length (4096 - va % 4096))) := by
  have hoff : va - 4096 * (va / 4096) = va % 4096 := by omega
  have hmin : ∀ n k : ℕ, (if n < k then n else k) = min n k := fun n k => by
    split_ifs <;> omega
  cases data with
  | nil => exact absurd rfl hne
  | cons b bs =>
    rw [copyOut,pgrounddown_eq hva]
    · simp only [hoff,hmin,PGSIZE]
      rfl
    · simp

theorem copyOut_cases (fuel : ℕ) (h : Owns R m o) (hR : Manageable L R) (hd : o d = .directory)
    (hc : Closed m d) (hva : va < 2^32) (hfuel : data.length ≤ fuel) :
    (AllOpen m d va data.length ∧ ∃ m', copyOut (page d) fuel m va data = .ok (0,m') ∧ Owns R m' o ∧
      SameEntries o m m' ∧ Written m m' d va data) ∨
    ∃ i, FirstClosed m d va data.length i ∧
      ((HasTable m d ((va + i) / 4096) ∧ ∃ m', copyOut (page d) fuel m va data = .ok (-1,m') ∧ Owns R m' o ∧
          SameEntries o m m') ∨
        (¬ HasTable m d ((va + i) / 4096) ∧ copyOut (page d) fuel m va data = .error .nullPointer)) := by
  induction fuel generalizing m va data with
  | zero =>
    obtain rfl := List.eq_nil_of_length_eq_zero (Nat.le_zero.mp hfuel)
    exact .inl ⟨fun i hi => absurd hi (Nat.not_lt_zero i),m,rfl,h,fun _ _ _ _ => rfl,written_nil m d va⟩
  | succ fuel ih =>
    by_cases hne : data = []
    · subst hne
      exact .inl ⟨fun i hi => absurd hi (Nat.not_lt_zero i),m,rfl,h,fun _ _ _ _ => rfl,written_nil m d va⟩
    have hk : va / 4096 < 2^20 := by omega
    have hpos : 0 < data.length := List.length_pos_of_ne_nil hne
    rw [copyOut_step hne hva]
    rcases mapVirtualAddress_eq h hR hd hk with ⟨hno,he⟩ | ⟨htab,hno,he⟩ | ⟨ho,he⟩
    · rw [he]
      exact .inr ⟨0,⟨hpos,fun ho => hno ho.hasTable,fun j hj => absurd hj (Nat.not_lt_zero j)⟩,.inr ⟨hno,rfl⟩⟩
    · rw [he]
      exact .inr ⟨0,⟨hpos,hno,fun j hj => absurd hj (Nat.not_lt_zero j)⟩,.inl ⟨htab,m,rfl,h,fun _ _ _ _ => rfl⟩⟩
    have hlt := ho.below hc hk
    rw [he,(open_page h hR hd ho hlt).2]
    simp only [Except.bind,page_ne_zero,↓reduceIte]
    obtain ⟨n,hn⟩ : ∃ n, n = min data.length (4096 - va % 4096) := ⟨_,rfl⟩
    rw [← hn]
    obtain ⟨h₁,hs1,hw1⟩ := write_chunk (A := data.take n) (x := va % 4096) h hR hd ho hlt (by omega)
      (by rw [List.length_take]; omega)
    rw [Nat.div_add_mod] at hw1
    generalize m.write (page (m.entry d (va / 4096) / 4096) + va % 4096) (data.take n) = m1 at h₁ hs1 hw1 ⊢
    have hopen : ∀ i < n, Open m d ((va + i) / 4096) := by
      intro i hi
      rw [show (va + i) / 4096 = va / 4096 by omega]
      exact ho
    by_cases hfit : data.length ≤ n
    · rw [List.drop_eq_nil_of_le hfit,copyOut_nil]
      rw [List.take_of_length_le hfit] at hw1
      exact .inl ⟨fun i hi => hopen i (by omega),m1,rfl,h₁,hs1,hw1⟩
    -- the next round begins at the next page
    have hnext : (4096 * (va / 4096) + 4096) % 2^32 = va + n := by omega
    rw [hnext]
    have hc1 : Closed m1 d := fun j h1 h2 => by
      rw [hs1 d j hd h2]
      exact hc j h1 h2
    have hrest : (data.drop n).length ≤ fuel := by
      rw [List.length_drop]
      omega
    rcases ih h₁ hc1 (show va + n < 2^32 by omega) hrest with
      ⟨hall,m',hm',h',hs',hw'⟩ | ⟨i,hfirst,hres⟩
    · have hall' : AllOpen m d va data.length := by
        intro i hi
        rcases Nat.lt_or_ge i n with hin | hin
        · exact hopen i hin
        · have hj : i - n < (data.drop n).length := by
            rw [List.length_drop]
            omega
          have hb := hall.below hc1 (by omega) hj
          have ho' := hall _ hj
          simp only [KERNBASE] at hb
          rw [show va + n + (i - n) = va + i by omega] at ho' hb
          exact (hs1.open_iff hd (by omega)).mp ho'
      have hlen : (data.take n).length = n := by
        rw [List.length_take]
        omega
      have hw := Written.append (A := data.take n) (B := data.drop n) h hd hs1 hs' hw1 (by rwa [hlen])
      rw [List.take_append_drop] at hw
      exact .inl ⟨hall',m',hm',h',hs1.trans hs',hw⟩
    · have hb := hfirst.below hc1 (by omega)
      have hi := hfirst.inside
      rw [List.length_drop] at hi
      have hfirst' : FirstClosed m d va data.length (n + i) := by
        refine ⟨by omega,fun ho' => hfirst.closed ?_,fun j hj => ?_⟩
        · rw [Nat.add_assoc]
          rw [Nat.add_assoc] at hb
          exact (hs1.open_iff hd hb).mpr ho'
        · rcases Nat.lt_or_ge j n with hjn | hjn
          · exact hopen j hjn
          · have ho' := hfirst.first (j - n) (by omega)
            rw [show va + n + (j - n) = va + j by omega] at ho'
            exact (hs1.open_iff hd (by omega)).mp ho'
      rw [Nat.add_assoc] at hres hb
      have htab : HasTable m1 d ((va + (n + i)) / 4096) ↔ HasTable m d ((va + (n + i)) / 4096) := by
        rw [hasTable_iff h₁ hd hb,hasTable_iff h hd hb]
      rw [htab] at hres
      rcases hres with ⟨ht,m',hm',h',hs'⟩ | ⟨hno,he'⟩
      · exact .inr ⟨n + i,hfirst',.inl ⟨ht,m',hm',h',hs1.trans hs'⟩⟩
      · exact .inr ⟨n + i,hfirst',.inr ⟨hno,he'⟩⟩

theorem FirstClosed.unique {n i j : ℕ} (hi : FirstClosed m d va n i) (hj : FirstClosed m d va n j) : i = j := by
  rcases Nat.lt_trichotomy i j with h | h | h
  · exact absurd (hj.first i h) hi.closed
  · exact h
  · exact absurd (hi.first j h) hj.closed

/-- The copy succeeds exactly if all pages are open, and otherwise fails with -1, if the first
page that is not open has a table. -/
theorem copyToUserVirtualMemory_iff (h : Owns R m o) (hR : Manageable L R) (hd : o d = .directory)
    (hc : Closed m d) (hva : va < 2^32) :
    (∃ r m', copyToUserVirtualMemory m (page d) va data = .ok (r,m') ∧
      ((r = 0 ∧ AllOpen m d va data.length ∧ Written m m' d va data) ∨
        (r = -1 ∧ ¬ AllOpen m d va data.length))) ↔
    ∀ i, FirstClosed m d va data.length i → HasTable m d ((va + i) / 4096) := by
  rw [copyToUserVirtualMemory]
  rcases copyOut_cases data.length h hR hd hc hva le_rfl with
    ⟨hall,m',he,-,-,hw⟩ | ⟨i,hi,⟨ht,m',he,-⟩ | ⟨hno,he⟩⟩
  · refine iff_of_true ⟨0,m',he,.inl ⟨rfl,hall,hw⟩⟩ (fun i hi => ?_)
    exact absurd (hall i hi.inside) hi.closed
  · refine iff_of_true ⟨-1,m',he,.inr ⟨rfl,fun hall => hi.closed (hall i hi.inside)⟩⟩ (fun j hj => ?_)
    rwa [hj.unique hi]
  · refine iff_of_false ?_ (fun hall => hno (hall i hi))
    rintro ⟨r,m',he',-⟩
    rw [he] at he'
    cases he'

theorem copyToUserVirtualMemory_iff_firstPage : ∃ m d m',
    copyToUserVirtualMemory m (page d) 4094 [1,2] = .ok (0,m') ∧ Written m m' d 4094 [1,2] := by
  obtain ⟨R,m,o,d,h,hR,hd,-,hc,hflags,-⟩ := directory_with_page (L := smallLayout) (by decide)
  have hopen : Open m d 0 := ⟨by omega,(user_iff _).mpr (by omega)⟩
  have hall : AllOpen m d 4094 [(1 : UInt8),2].length := by
    intro i hi
    rw [show (4094 + i) / 4096 = 0 by simp at hi; omega]
    exact hopen
  obtain ⟨r,m',he,⟨rfl,-,hw⟩ | ⟨-,hno⟩⟩ := (copyToUserVirtualMemory_iff h hR hd hc (by norm_num)).mpr
    (fun i hi => absurd (hall i hi.inside) hi.closed)
  · exact ⟨m,d,m',he,hw⟩
  · exact absurd hall hno

/-- In a new directory there is no table for user pages, and the entry of a user page is read
through a null pointer. -/
theorem null_entry_read : ∃ m₀ m d, setupKernelVirtualMemory smallLayout m₀ = .ok (page d,m) ∧
    copyToUserVirtualMemory m (page d) 0 [1] = .error .nullPointer := by
  obtain ⟨m,o,-,h,hR,hplenty⟩ := free_memory (L := smallLayout) (v := page 1024) (fun _ => 0) (by decide) le_rfl
  rcases h.setup_words hR with ⟨-,-,-,hsc,-⟩ | ⟨d,m₁,o₁,hset,-,h₁,hg,-,hent,htab⟩
  · exact absurd (hsc.mono (by norm_num)) hplenty
  have hd₁ : o₁ d = .directory := (hg.iff (by simp) (by simp)).mpr (by simp)
  have hno : ¬ HasTable m₁ d 0 := by
    rw [hasTable_iff h₁ hd₁ (by norm_num)]
    rintro ⟨t,ht⟩
    exact absurd (htab t _ ht) (by norm_num)
  refine ⟨m,m₁,d,hset,?_⟩
  have hc : Closed m₁ d := Prescribed.closed (L := smallLayout) (fun n _ hn => hent n hn)
  rcases copyOut_cases 1 h₁ hR hd₁ hc (show 0 < 2^32 by norm_num) (show [(1 : UInt8)].length ≤ 1 from le_rfl) with
    ⟨hall,-⟩ | ⟨i,hi,⟨ht,-⟩ | ⟨-,he⟩⟩
  · exact absurd (hall 0 (by norm_num)).hasTable hno
  · have := hi.inside
    obtain rfl : i = 0 := by simpa using this
    exact absurd ht hno
  · exact he

end UoDOS.Kernel
