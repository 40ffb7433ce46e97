import UoDOS.Memory.KernelHalf

/-! # Reading and writing through an address space

The user half of a directory as a program sees it: a virtual address is translated by the two
levels of the directory.
-/
namespace UoDOS.Paging
open ByteMemory Function

variable {L : Layout} {R : ℕ → Prop} {m m' : Memory} {o o' : Owner} {c d : ℕ}
  {a e n va : ℕ}

def Memory.physical (m : Memory) (d va : ℕ) : Option ℕ :=
  if va < KERNBASE ∧ m.entry d (va / 4096) % 2 = 1 then
    some (4096 * (m.entry d (va / 4096) / 4096) + va % 4096)
  else none

def Memory.peek (m : Memory) (d va : ℕ) : Option UInt8 := (m.physical d va).map m.ram

/-- A byte is stored at a user address; where there is no page nothing is stored. -/
def Memory.poke (m : Memory) (d va : ℕ) (x : UInt8) : Memory :=
  match m.physical d va with
  | some a => { m with ram := update m.ram a x }
  | none => m

def Memory.pokes (m : Memory) (d : ℕ) : List (ℕ × UInt8) → Memory
  | [] => m
  | (va,x) :: ws => (m.poke d va x).pokes d ws

theorem Owns.entry_user (h : Owns R m o) (hd : o d = .directory) (hn : n < 2^19)
    (hp : m.entry d n % 2 = 1) : o (m.entry d n / 4096) = .user d (n / 1024) (n % 1024) := by
  have hj : n % 1024 < 1024 := Nat.mod_lt _ (by norm_num)
  unfold Memory.entry at hp ⊢
  split_ifs at hp with ht
  · rw [if_pos ht]
    have htab := (h.tree.table _ _ _).mpr ⟨hd,by omega,ht,rfl⟩
    exact (h.tree.user _ _ _ _).mpr ⟨_,htab,by omega,hj,hp,rfl⟩

theorem Owns.entry_of_user {f : ℕ} (h : Owns R m o) (hf : o f = .user d (n / 1024) (n % 1024)) :
    m.entry d n % 2 = 1 ∧ m.entry d n / 4096 = f := by
  obtain ⟨t,ht,-,hj,hp,hq⟩ := (h.tree.user _ _ _ _).mp hf
  rw [← Nat.div_add_mod n 1024,h.entry_table ht hj]
  exact ⟨hp,hq⟩

theorem Owns.maps_iff (h : Owns R m o) (hd : o d = .directory) (hn : n < 2^19) :
    Maps o d n ↔ m.entry d n % 2 = 1 := by
  constructor
  · rintro ⟨f,hf⟩
    exact (h.entry_of_user hf).1
  · intro hp
    exact ⟨_,h.entry_user hd hn hp⟩

theorem physical_eq_some : m.physical d va = some a ↔
    va < KERNBASE ∧ m.entry d (va / 4096) % 2 = 1 ∧ a = 4096 * (m.entry d (va / 4096) / 4096) + va % 4096 := by
  unfold Memory.physical
  split_ifs with h
  · rw [Option.some.injEq]
    constructor
    · rintro rfl
      exact ⟨h.1,h.2,rfl⟩
    · rintro ⟨-,-,rfl⟩
      rfl
  · simp only [false_iff]
    exact fun hc => h ⟨hc.1,hc.2.1⟩

theorem Owns.physical_owner (h : Owns R m o) (hd : o d = .directory) (ha : m.physical d va = some a) :
    o (a / 4096) = .user d (va / 4096 / 1024) (va / 4096 % 1024) := by
  obtain ⟨hva,hp,rfl⟩ := physical_eq_some.mp ha
  simp only [KERNBASE] at hva
  rw [show (4096 * (m.entry d (va / 4096) / 4096) + va % 4096) / 4096 = m.entry d (va / 4096) / 4096 by omega]
  exact h.entry_user hd (by omega) hp

theorem word_update {m : Memory} {g j : ℕ} {x : UInt8} (hg : a / 4096 ≠ g) (hj : j < 1024) :
    ({ m with ram := update m.ram a x } : Memory).word g j = m.word g j := by
  apply readWord_congr
  intro y h1 h2
  exact update_of_ne (by omega) _ _

theorem Owns.entry_write_data {f : ℕ} (h : Owns R m o) (hf : (o f).Data)
    (hw : ∀ g j, g ≠ f → j < 1024 → m'.word g j = m.word g j) (he : o e = .directory) (hn : n < 2^20) :
    m'.entry e n = m.entry e n := by
  have hne : ∀ g, ¬ (o g).Data → g ≠ f := by rintro g hg rfl; exact hg hf
  apply h.entry_congr he hn
  · exact hw e _ (hne e (by simp [he,Place.Data])) (by omega)
  · intro t ht
    exact hw t _ (hne t (by simp [ht,Place.Data])) (Nat.mod_lt _ (by norm_num))

theorem Owns.poke (h : Owns R m o) (hd : o d = .directory) (va : ℕ) (x : UInt8) :
    Owns R (m.poke d va x) o ∧ ∀ d' n, o d' = .directory → n < 2^20 → (m.poke d va x).entry d' n = m.entry d' n := by
  unfold Memory.poke
  split
  · rename_i a ha
    have hdata : (o (a / 4096)).Data := .inr ⟨_,_,_,h.physical_owner hd ha⟩
    have hw : ∀ g j, g ≠ a / 4096 → j < 1024 →
        ({ m with ram := update m.ram a x } : Memory).word g j = m.word g j :=
      fun g j hg hj => word_update (Ne.symm hg) hj
    exact ⟨h.write_data hdata rfl hw,fun d' n hd' hn => h.entry_write_data hdata hw hd' hn⟩
  · exact ⟨h,fun _ _ _ _ => rfl⟩

theorem Owns.peek_poke {vb : ℕ} {x : UInt8} (h : Owns R m o) (hc : o c = .directory) (hd : o d = .directory)
    (hcd : c ≠ d) : (m.poke c va x).peek d vb = m.peek d vb := by
  have hent := (h.poke hc va x).2
  have hphys : (m.poke c va x).physical d vb = m.physical d vb := by
    unfold Memory.physical
    by_cases hvb : vb < KERNBASE
    · rw [hent d _ hd (by simp only [KERNBASE] at hvb; omega)]
    · rw [if_neg (fun hc => hvb hc.1),if_neg (fun hc => hvb hc.1)]
  rw [Memory.peek,Memory.peek,hphys]
  cases hb : m.physical d vb with
  | none => rfl
  | some b =>
    have hbo := h.physical_owner hd hb
    rw [Option.map_some,Option.map_some,Option.some.injEq]
    unfold Memory.poke
    split
    · rename_i a ha
      have hao := h.physical_owner hc ha
      apply update_of_ne
      rintro rfl
      rw [hao,Place.user.injEq] at hbo
      exact hcd hbo.1
    · rfl

theorem Owns.peek_pokes (h : Owns R m o) (hc : o c = .directory) (hd : o d = .directory) (hcd : c ≠ d)
    (ws : List (ℕ × UInt8)) (va : ℕ) : (m.pokes c ws).peek d va = m.peek d va := by
  induction ws generalizing m with
  | nil => rfl
  | cons w ws ih => rw [Memory.pokes,ih (h.poke hc w.1 w.2).1,h.peek_poke hc hd hcd]

/-- The copy of a directory: same flags and same bytes for every user page below the size, no
other user page, frames of its own, and no way to write from one into the other. -/
structure Isolated (m m' : Memory) (d c size : ℕ) : Prop where
  flags : ∀ k, 4096 * k < size → m'.entry c k % 4096 = m.entry d k % 4096
  bytes : ∀ va, va < KERNBASE → 4096 * (va / 4096) < size → m'.peek c va = m.peek d va
  pages : ∀ k, k < 2^19 → (m'.entry c k % 2 = 1 ↔ 4096 * k < size)
  original : ∀ va, m'.peek d va = m.peek d va
  frames : ∀ k k', k < 2^19 → k' < 2^19 → m'.entry c k % 2 = 1 → m'.entry d k' % 2 = 1 →
    m'.entry c k / 4096 ≠ m'.entry d k' / 4096
  distinct : ∀ k k', k < 2^19 → k' < 2^19 → m'.entry c k % 2 = 1 → m'.entry c k' % 2 = 1 →
    m'.entry c k / 4096 = m'.entry c k' / 4096 → k = k'
  writes : ∀ ws va, (m'.pokes c ws).peek d va = m'.peek d va ∧ (m'.pokes d ws).peek c va = m'.peek c va

theorem Owns.size_le {size : ℕ} (h : Owns R m o) (hm : ∀ k, 4096 * k < size → Maps o d k) : size ≤ KERNBASE := by
  by_contra hlt
  obtain ⟨f,hf⟩ := hm (2^19) (by simp only [KERNBASE] at hlt; omega)
  have := (h.user_bounds hf).1
  omega

theorem Owns.peek_congr (h : Owns R m o) (hd : o d = .directory)
    (he : va < KERNBASE → m'.entry d (va / 4096) = m.entry d (va / 4096))
    (hw : ∀ f, o f = .user d (va / 4096 / 1024) (va / 4096 % 1024) → ∀ j < 1024, m'.word f j = m.word f j) :
    m'.peek d va = m.peek d va := by
  by_cases hva : va < KERNBASE
  swap
  · rw [Memory.peek,Memory.peek,Memory.physical,Memory.physical,if_neg (fun hc => hva hc.1),
      if_neg (fun hc => hva hc.1)]
    rfl
  have hphys : m'.physical d va = m.physical d va := by rw [Memory.physical,Memory.physical,he hva]
  simp only [KERNBASE] at hva
  rw [Memory.peek,Memory.peek,hphys]
  cases ha : m.physical d va with
  | none => rfl
  | some a =>
    obtain ⟨-,hp,rfl⟩ := physical_eq_some.mp ha
    rw [Option.map_some,Option.map_some,Option.some.injEq]
    exact ram_of_words (hw _ (h.entry_user hd (by omega) hp)) (Nat.mod_lt _ (by norm_num))

theorem Spares.peek {lo hi : ℕ} (hs : Spares e lo hi m o m' o') (h : Owns R m o) (hd : o d = .directory)
    (hn : ¬ Affected e lo hi d (va / 4096)) : m'.peek d va = m.peek d va := by
  apply h.peek_congr hd
  · intro hva
    simp only [KERNBASE] at hva
    exact hs.entries d _ hd (by omega) hn
  · intro f hf j hj
    exact hs.words f _ _ _ hf (by rwa [Nat.div_add_mod]) j hj

theorem Others.peek (hx : Others e m o m' o') (va : ℕ) (h : Owns R m o) (hd : o d = .directory) (hn : d ≠ e) :
    m'.peek d va = m.peek d va := by
  apply h.peek_congr hd
  · intro hva
    simp only [KERNBASE] at hva
    exact hx.entries d _ hd hn (by omega)
  · intro f hf j hj
    exact hx.words f _ _ _ hf hn j hj

theorem directory_with_page (hL : L.kernelEnd ≤ page 1024) : ∃ R m o d, Owns R m o ∧ Manageable L R ∧
    o d = .directory ∧ (∀ k, Maps o d k ↔ 4096 * k < PGSIZE) ∧ Closed m d ∧ m.entry d 0 % 4096 = 7 ∧
    ¬ Scarce 2000 o := by
  obtain ⟨m,o,-,h,hR,hplenty⟩ := free_memory (fun _ => 0) hL le_rfl
  rcases h.setup_words hR with ⟨-,-,-,hsc,-⟩ | ⟨d,m1,o1,-,hdf,h₁,hg,-,hent,-⟩
  · exact absurd (hsc.mono (by norm_num)) hplenty
  have hd1 : o1 d = .directory := (hg.iff (by simp) (by simp)).mpr (by simp)
  have hempty := h.new_empty hdf hg
  have hclosed : Closed m1 d := Prescribed.closed (L := L) (fun n _ hn => hent n hn)
  obtain ⟨r,m2,hal⟩ := h₁.allocate_pages_returns hR hd1 (Nat.zero_le PGSIZE) (by decide)
    (fun k _ => hempty k)
  have hsc1 : ∀ k, Scarce k o1 → Scarce (k + 1025) o := fun k hk =>
    h₁.scarce hg.within hk (h₁.users_below (n := 0) (fun k hk => absurd hk (hempty k)))
  obtain ⟨o2,h₂,hw,⟨rfl,hsp,hfill,hm⟩ | ⟨-,-,-,hout⟩⟩ :=
    h₁.allocate_pages_spares hR hd1 (Nat.zero_le _) (by decide) hal
  · have hmaps : ∀ k, Maps o2 d k ↔ 4096 * k < PGSIZE := fun k => by simp [hm,hempty k]
    refine ⟨_,m2,o2,d,h₂,hR,hsp.directory hd1,hmaps,fun n h1 h2 => ?_,?_,fun hsc => hplenty ?_⟩
    · rw [hsp.keeps (D := {d}) (by decide) (by simp [hd1]) d rfl n h1 h2]
      exact hclosed n h1 h2
    · obtain ⟨f,-,-,he,-⟩ := hfill 0 (by norm_num) (by decide)
      rw [he,entry_eq (by decide),Nat.mul_add_mod]
      decide
    · refine (h₂.scarce (hg.within.trans hw) hsc (h₂.users_below (n := 1) (fun k hk => ?_))).mono (by norm_num)
      rw [hmaps,PGSIZE] at hk
      omega
  · exact absurd ((hsc1 _ (hout.scarce (fun k _ => hempty k))).mono (by norm_num [PGSIZE])) hplenty

/-- A directory that maps exactly the pages below its size is copied to one that is
isolated from it. -/
theorem copy_isolated {size r : ℕ} (h : Owns R m o) (hR : Manageable L R) (hd : o d = .directory)
    (hmaps : ∀ k, Maps o d k ↔ 4096 * k < size)
    (hc : copyProcessPageTable L m (page d) size = .ok (r,m')) (hr : r ≠ 0) :
    ∃ c, r = page c ∧ Isolated m m' d c size := by
  have hs := h.size_le (fun k => (hmaps k).mpr)
  obtain ⟨c,o',rfl,hcf,h',hc',hsp,hdup,hm⟩ := h.copy_spares hR hd hs hr hc
  have hd' := hsp.directory hd
  have hcd : c ≠ d := by rintro rfl; simp [hd] at hcf
  refine ⟨c,rfl,?_,?_,?_,?_,?_,?_,?_⟩
  · intro k hk
    obtain ⟨f,g,hf,-,-,he,-⟩ := hdup k (Nat.zero_le k) hk
    have hodd := (h.entry_of_user hf).1
    rw [he,entry_eq (Nat.mod_lt _ (by norm_num)),or_one_of_odd (by omega)]
    omega
  · intro va hva hk
    obtain ⟨f,g,hf,-,hg,-,hw⟩ := hdup (va / 4096) (Nat.zero_le _) hk
    obtain ⟨hp,hq⟩ := h.entry_of_user hf
    obtain ⟨hp',hq'⟩ := h'.entry_of_user hg
    rw [Memory.peek,Memory.peek,physical_eq_some.mpr ⟨hva,hp,rfl⟩,physical_eq_some.mpr ⟨hva,hp',rfl⟩,hq,hq',
      Option.map_some,Option.map_some,ram_of_words hw (Nat.mod_lt _ (by norm_num))]
  · intro k hk
    rw [← h'.maps_iff hc' hk,hm]
  · intro va
    exact hsp.peek h hd (fun ha => hcd ha.1.symm)
  · intro k k' hk hk' hp hp' he
    have hu := h'.entry_user hc' hk hp
    rw [he,h'.entry_user hd' hk' hp',Place.user.injEq] at hu
    exact hcd hu.1.symm
  · intro k k' hk hk' hp hp' he
    have hu := h'.entry_user hc' hk hp
    rw [he,h'.entry_user hc' hk' hp',Place.user.injEq] at hu
    omega
  · intro ws va
    exact ⟨h'.peek_pokes hc' hd' hcd ws va,h'.peek_pokes hd' hc' (Ne.symm hcd) ws va⟩

theorem copy_isolated_onePage : ∃ R m o d r m', Owns R m o ∧ (∀ k, Maps o d k ↔ 4096 * k < PGSIZE) ∧
    copyProcessPageTable smallLayout m (page d) PGSIZE = .ok (r,m') ∧ ∃ c, r = page c ∧
    Isolated m m' d c PGSIZE := by
  obtain ⟨R,m,o,d,h,hR,hd,hmaps,-,-,hplenty⟩ := directory_with_page (L := smallLayout) (by decide)
  obtain ⟨r,m',hc⟩ := h.copy_returns hR hd (by decide) (fun k hk => (hmaps k).mpr hk)
  refine ⟨R,m,o,d,r,m',h,hmaps,hc,copy_isolated h hR hd hmaps hc ?_⟩
  rcases h.copy hR hd (by decide) hc with ⟨c,-,rfl,-⟩ | ⟨-,-,hsc⟩
  · exact page_ne_zero c
  · exact absurd (hsc.mono (by norm_num [PGSIZE])) hplenty

end UoDOS.Paging
