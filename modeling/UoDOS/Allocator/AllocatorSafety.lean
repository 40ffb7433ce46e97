import UoDOS.Allocator.AllocatorRuns

/-! # What the allocator guarantees

malloc and free keep the tiling of the memory from sbrk, starting with no memory at
all, and every call that a program may make returns.
-/
namespace UoDOS.Allocator
open Extents Chains Transition

variable {base : ℕ} {s s' : State} {l : List ℕ} {c : Call}

theorem Inv.freep_ne (h : Inv base s l) (hpos : 0 < base) : s.arena.freep ≠ 0 := by
  have hb := h.list.base_le h.here
  omega

theorem Inv.search {nbytes : ℕ} (h : Inv base s l) (sbrk : ℕ → Option ℕ) (hpos : 0 < base)
    (hbase : base < 2^32) (hbytes : nbytes + 7 < 2^32)
    (hroom : ∀ hp, sbrk 0 = some hp → Room base s.arena.regions hp (moreUnits (units nbytes))) :
    ∃ r a' l' m, (∀ n, m ≤ n →
      search (units nbytes) sbrk n 0 s.arena s.arena.freep (s.arena.heap s.arena.freep).ptr = .ok (r,a')) ∧
      (a'.regions = s.arena.regions ∨ ∃ hp, sbrk 0 = some hp ∧
        a'.regions = ⟨hp,hp + 8 * moreUnits (units nbytes)⟩ :: s.arena.regions) ∧
      Inv base ⟨a',r.toList.map (⟨·,nbytes⟩) ++ s.live⟩ l' := by
  by_cases hbig : ∃ q ∈ l, units nbytes ≤ (s.arena.heap q).size
  · obtain ⟨a',ap,l',hs,hr,hi⟩ := h.take sbrk hbase hbytes hbig
    exact ⟨some ap,a',l',l.length + 1,fun n hn => hs n 0 hn,.inl hr,hi⟩
  have hsmall : ∀ x ∈ l, (s.arena.heap x).size < units nbytes := by
    intro x hx
    by_contra hle
    exact hbig ⟨x,hx,Nat.le_of_not_lt hle⟩
  cases hsb : sbrk 0 with
  | none =>
    refine ⟨none,s.arena,l,l.length,fun n hn => ?_,.inl rfl,h⟩
    obtain ⟨n,rfl⟩ : ∃ k, n = k + l.length := ⟨n - l.length,by omega⟩
    rw [search_exhausted h.list h.here hsmall,hsb]
    rfl
  | some hp =>
    obtain ⟨a1,l1,hmore,hr1,hi1,q,hq,hlarge⟩ := h.grow (hroom hp hsb)
    have hle : units nbytes ≤ moreUnits (units nbytes) := by
      unfold moreUnits
      split_ifs <;> omega
    obtain ⟨a',ap,l',hs,hr,hi⟩ := hi1.take sbrk hbase hbytes ⟨q,hq,hle.trans hlarge⟩
    have hne : a1.freep ≠ 0 := hi1.freep_ne hpos
    refine ⟨some ap,a',l',2 * l.length + 1 + l1.length + 1 + l.length,fun n hn => ?_,.inr ⟨hp,rfl,hr.trans hr1⟩,hi⟩
    obtain ⟨n,rfl⟩ : ∃ k, n = k + l.length := ⟨n - l.length,by omega⟩
    rw [search_exhausted h.list h.here hsmall,hsb,hmore n (by omega)]
    simp only [bind,Except.bind,hne,↓reduceIte]
    exact hs n 1 (by omega)

/-- No memory has been asked for yet, or the blocks tile what there is. -/
def Ready (base : ℕ) (s : State) : Prop :=
  (s.arena.freep = 0 ∧ s.live = [] ∧ s.arena.regions = []) ∨ ∃ l, Inv base s l

theorem inv_base {heap : ℕ → Header} (hbase : heap base = ⟨base,0⟩) : Inv base ⟨⟨heap,base,[]⟩,[]⟩ [base] := by
  refine ⟨⟨rfl,?_,?_,?_,?_⟩,?_,Covers.refl _,.nil,?_,?_⟩
  · change (heap base).ptr = base
    rw [hbase]
  · change (heap base).size = 0
    rw [hbase]
  · intro p hp hne
    exact absurd (List.mem_singleton.mp hp) hne
  · simp
  · simp
  · simp
  · simp

def started (base : ℕ) (a : Arena) : Arena :=
  if a.freep = 0 then { a with heap := Function.update a.heap base ⟨base,0⟩, freep := base } else a

theorem started_regions (base : ℕ) (a : Arena) : (started base a).regions = a.regions := by
  unfold started
  split <;> rfl

theorem malloc_started (base n : ℕ) (sbrk : ℕ → Option ℕ) (a : Arena) (nbytes : ℕ) :
    malloc base n sbrk a nbytes = search (units nbytes) sbrk n 0 (started base a) (started base a).freep
      ((started base a).heap (started base a).freep).ptr := rfl

theorem Ready.started (h : Ready base s) (hpos : 0 < base) : ∃ l, Inv base ⟨started base s.arena,s.live⟩ l := by
  rcases h with ⟨hz,hl,hr⟩ | ⟨l,h⟩
  · refine ⟨[base],?_⟩
    rw [Allocator.started,if_pos hz,hl,hr]
    exact inv_base (by simp)
  · refine ⟨l,?_⟩
    rw [Allocator.started,if_neg (h.freep_ne hpos)]
    exact h

theorem Ready.malloc {nbytes : ℕ} {sbrk : ℕ → Option ℕ} (h : Ready base s) (hpos : 0 < base)
    (hbase : base < 2^32) (ha : Admissible base s (.malloc nbytes sbrk)) :
    ∃ s', Returns base s (.malloc nbytes sbrk) s' ∧ Ready base s' := by
  obtain ⟨hbytes,hfresh⟩ := ha
  have hsum : nbytes + 7 < 2^32 := by omega
  obtain ⟨l,hi⟩ := h.started hpos
  obtain ⟨r,a',l',m,hs,-,hi'⟩ := hi.search sbrk hpos hbase hsum (fun hp hh => by
    rw [started_regions]
    exact (hfresh hp hh).room)
  refine ⟨⟨a',r.toList.map (⟨·,nbytes⟩) ++ s.live⟩,⟨m,fun n hn => ?_⟩,.inr ⟨l',hi'⟩⟩
  have hr := hs n hn
  rw [← malloc_started] at hr
  cases r with
  | none => simp only [call,hr,bind,Except.bind,Option.toList,List.map_nil,List.nil_append]
  | some ap =>
    simp only [call,hr,bind,Except.bind,Option.toList,List.map_cons,List.map_nil,List.cons_append,
      List.nil_append]

theorem Ready.call (h : Ready base s) (hpos : 0 < base) (hbase : base < 2^32) (ha : Admissible base s c) :
    ∃ s', Returns base s c s' ∧ Ready base s' := by
  cases c with
  | malloc nbytes sbrk => exact h.malloc hpos hbase ha
  | free ap =>
    rcases h with ⟨-,hl,-⟩ | ⟨l,h⟩
    · obtain ⟨b,hb,-⟩ := ha
      rw [hl] at hb
      cases hb
    · obtain ⟨s',l',hr,hi⟩ := h.free ha
      exact ⟨s',hr,.inr ⟨l',hi⟩⟩
  | store x hd =>
    rcases h with ⟨-,hl,-⟩ | ⟨l,h⟩
    · obtain ⟨b,hb,-⟩ := ha
      rw [hl] at hb
      cases hb
    · obtain ⟨s',l',hr,hi⟩ := h.store hd ha
      exact ⟨s',hr,.inr ⟨l',hi⟩⟩

theorem Returns.unique {s1 s2 : State} (h1 : Returns base s c s1) (h2 : Returns base s c s2) : s1 = s2 := by
  obtain ⟨m1,h1⟩ := h1
  obtain ⟨m2,h2⟩ := h2
  have h := (h1 (max m1 m2) (le_max_left _ _)).symm.trans (h2 (max m1 m2) (le_max_right _ _))
  exact Except.ok.inj h

def performs (base : ℕ) (s : State) (c : Call) (s' : State) : Prop :=
  Admissible base s c ∧ Returns base s c s'

def initialState (heap : ℕ → Header) : State := ⟨⟨heap,0,[]⟩,[]⟩

structure Orderly (base : ℕ) (s : State) (l : List ℕ) : Prop where
  circular : Ring (fun p => (s.arena.heap p).ptr) l
  here : s.arena.freep ∈ l
  first : l.head? = some base
  increasing : l.Pairwise (· < ·)
  uncoalesced : l.Pairwise (fun p q => p + 8 * (s.arena.heap p).size < q)

/-- The live blocks and the free blocks behind `base` tile the regions. -/
structure Tiled (s : State) (l : List ℕ) : Prop where
  apart : ((blocks s l).map (block s.arena.heap)).Pairwise Apart
  inside : ∀ p ∈ blocks s l, ∀ x, (block s.arena.heap p).Has x → ∃ r ∈ s.arena.regions, r.Has x
  total : 8 * ((blocks s l).map (fun p => (s.arena.heap p).size)).sum =
    (s.arena.regions.map (fun r => r.stop - r.start)).sum
  requested : ∀ b ∈ s.live, b.pointer = b.header + 8 ∧
    b.pointer + b.request ≤ (block s.arena.heap b.header).stop

theorem Inv.orderly (h : Inv base s l) : Orderly base s l where
  circular := h.list.ring
  here := h.here
  first := h.list.head
  increasing := h.list.increasing
  uncoalesced := h.list.gaps

theorem Inv.tiled (h : Inv base s l) : Tiled s l where
  apart := h.blocks_apart
  inside p hp x hx := h.covers.has (List.mem_map_of_mem hp) hx
  total := by
    have hc := h.covers _ additive_length
    simp only [Extents.measure,List.map_map] at hc
    rw [← hc,← List.sum_map_mul_left]
    congr 1
    apply List.map_congr_left
    intro p hp
    simp [block]
  requested b hb := by
    obtain ⟨h8,hpos,hreq⟩ := h.live b hb
    have hh : b.header = b.pointer - 8 := rfl
    simp only [block]
    omega

/-- In every sequence of calls the blocks tile the memory from sbrk, the free list is
in order without neighbours left apart, and every call returns. -/
theorem allocator_tiles_memory {heap : ℕ → Header} {cs : List Call} (hpos : 0 < base) (hbase : base < 2^32)
    (hr : Runs (performs base) (initialState heap) cs s) :
    ((s.arena.freep = 0 ∧ s.live = [] ∧ s.arena.regions = []) ∨ ∃ l, Orderly base s l ∧ Tiled s l) ∧
    ∀ c, Admissible base s c → ∃ s', Returns base s c s' := by
  have h : Ready base s := by
    apply hr.invariant (I := Ready base) (.inl ⟨rfl,rfl,rfl⟩)
    intro a c b ha hs
    obtain ⟨b',hb',hready⟩ := ha.call hpos hbase hs.1
    rw [hs.2.unique hb']
    exact hready
  constructor
  · rcases h with h | ⟨l,h⟩
    · exact .inl h
    · exact .inr ⟨l,h.orderly,h.tiled⟩
  · intro c hc
    obtain ⟨s',hs',-⟩ := h.call hpos hbase hc
    exact ⟨s',hs'⟩

def firstSbrk (calls : ℕ) : Option ℕ := if calls = 0 then some 0x10000 else none

theorem allocator_tiles_memory_first : ∃ s, Runs (performs 0x8000) (initialState fun _ => ⟨0,0⟩)
      [.malloc 100 firstSbrk] s ∧
    (((s.arena.freep = 0 ∧ s.live = [] ∧ s.arena.regions = []) ∨ ∃ l, Orderly 0x8000 s l ∧ Tiled s l) ∧
      ∀ c, Admissible 0x8000 s c → ∃ s', Returns 0x8000 s c s') := by
  have hready : Ready 0x8000 (initialState fun _ => ⟨0,0⟩) := .inl ⟨rfl,rfl,rfl⟩
  have ha : Admissible 0x8000 (initialState fun _ => ⟨0,0⟩) (.malloc 100 firstSbrk) := by
    refine ⟨by norm_num,?_⟩
    intro hp hh
    cases hh
    exact ⟨by decide,by decide,by decide,by simp [initialState]⟩
  obtain ⟨s,hs,-⟩ := hready.malloc (by decide) (by decide) ha
  have hrun : Runs (performs 0x8000) (initialState fun _ => ⟨0,0⟩) [.malloc 100 firstSbrk] s :=
    Runs.one ⟨ha,hs⟩
  exact ⟨s,hrun,allocator_tiles_memory (by decide) (by decide) hrun⟩

end UoDOS.Allocator
