import UoDOS.Allocator.Allocation
import UoDOS.Library.Transition

/-! # Sequences of calls of the allocator

A program calls malloc and free and stores into the blocks that it has. In every state
the live and the free blocks tile the memory that sbrk has returned.
-/
namespace UoDOS.Allocator
open Extents Chains Transition Function

/-- A pointer that malloc has returned, with the size asked for. -/
structure Live where
  pointer : ℕ
  request : ℕ

def Live.header (b : Live) : ℕ := b.pointer - 8

structure State where
  arena : Arena
  live : List Live

inductive Call
  | malloc (nbytes : ℕ) (sbrk : ℕ → Option ℕ)
  | free (ap : ℕ)
  | store (x : ℕ) (h : Header)

def call (base n : ℕ) (s : State) : Call → Except Stop State
  | .malloc nbytes sbrk => do
    let (ap,a) ← malloc base n sbrk s.arena nbytes
    match ap with
    | none => .ok { s with arena := a }
    | some ap => .ok ⟨a,⟨ap,nbytes⟩ :: s.live⟩
  | .free ap => do
    let a ← free n s.arena ap
    .ok ⟨a,s.live.filter (fun b => b.pointer ≠ ap)⟩
  | .store x h => .ok { s with arena := { s.arena with heap := update s.arena.heap x h } }

/-- The call returns: every large enough number of rounds leads to the same state. -/
def Returns (base : ℕ) (s : State) (c : Call) (s' : State) : Prop :=
  ∃ m, ∀ n, m ≤ n → call base n s c = .ok s'

structure Fresh (base : ℕ) (regions : List Extent) (hp nu : ℕ) : Prop where
  above : base + 8 ≤ hp
  aligned : 8 ∣ hp
  top : hp + 8 * nu < 2^32
  apart : ∀ r ∈ regions, Apart r ⟨hp,hp + 8 * nu⟩

structure Room (base : ℕ) (regions : List Extent) (hp nu : ℕ) : Prop where
  above : base + 8 ≤ hp
  top : hp + 8 * nu < 2^32
  apart : ∀ r ∈ regions, Apart r ⟨hp,hp + 8 * nu⟩

theorem Fresh.room {base hp nu : ℕ} {regions : List Extent} (h : Fresh base regions hp nu) :
    Room base regions hp nu := ⟨h.above,h.top,h.apart⟩

def Admissible (base : ℕ) (s : State) : Call → Prop
  | .malloc nbytes sbrk => nbytes ≤ 2^30 ∧
      ∀ hp, sbrk 0 = some hp → Fresh base s.arena.regions hp (moreUnits (units nbytes))
  | .free ap => ∃ b ∈ s.live, b.pointer = ap
  | .store x _ => ∃ b ∈ s.live, b.pointer ≤ x ∧ x + 8 ≤ b.pointer + b.request

def blocks (s : State) (l : List ℕ) : List ℕ := s.live.map Live.header ++ l.tail

structure Inv (base : ℕ) (s : State) (l : List ℕ) : Prop where
  list : FreeList base s.arena.heap l
  here : s.arena.freep ∈ l
  covers : Covers ((blocks s l).map (block s.arena.heap)) s.arena.regions
  apart : s.arena.regions.Pairwise Apart
  bounds : ∀ r ∈ s.arena.regions, base + 8 ≤ r.start ∧ r.stop < 2^32
  live : ∀ b ∈ s.live, 8 ≤ b.pointer ∧ 0 < (s.arena.heap b.header).size ∧
    b.request ≤ 8 * ((s.arena.heap b.header).size - 1)

variable {base n p : ℕ} {s s' : State} {l l' : List ℕ} {a a' : Arena} {c : Call}

theorem FreeList.eq_cons {heap : ℕ → Header} (h : FreeList base heap l) : l = base :: l.tail := by
  obtain ⟨l',rfl⟩ := List.head?_eq_some_iff.mp h.head
  rfl

theorem FreeList.covers_tail {heap : ℕ → Header} (h : FreeList base heap l) :
    Covers (l.map (block heap)) (l.tail.map (block heap)) := by
  have hb : block heap base = ⟨base,base⟩ := by simp [block,h.sentinel]
  rw [h.eq_cons,List.map_cons,hb]
  exact covers_empty base _

theorem FreeList.tail_ne {heap : ℕ → Header} (h : FreeList base heap l) (hp : p ∈ l.tail) : p ≠ base := by
  have hs := h.increasing
  rw [h.eq_cons] at hs
  exact (List.rel_of_pairwise_cons hs hp).ne'

theorem FreeList.congr {heap heap' : ℕ → Header} (h : FreeList base heap l)
    (hsame : ∀ p ∈ l, heap' p = heap p) : FreeList base heap' l := by
  have hb : base ∈ l := List.mem_of_mem_head? h.head
  refine ⟨h.head,?_,?_,?_,?_⟩
  · obtain ⟨l',rfl⟩ := List.head?_eq_some_iff.mp h.head
    exact h.ring.restart (by rw [hsame base hb]) (fun x hx => by rw [hsame x (by simp [hx])])
  · rw [hsame base hb]
    exact h.sentinel
  · intro p hp hpb
    rw [hsame p hp]
    exact h.positive p hp hpb
  · refine h.gaps.imp_of_mem (fun {p q} hp hq hpq => ?_)
    rw [hsame p hp]
    exact hpq

theorem Inv.positive (h : Inv base s l) (hp : p ∈ blocks s l) : 0 < (s.arena.heap p).size := by
  rcases List.mem_append.mp hp with hp | hp
  · obtain ⟨b,hb,rfl⟩ := List.mem_map.mp hp
    exact (h.live b hb).2.1
  · exact h.list.positive p (List.mem_of_mem_tail hp) (h.list.tail_ne hp)

theorem Inv.blocks_apart (h : Inv base s l) : ((blocks s l).map (block s.arena.heap)).Pairwise Apart := by
  apply h.covers.apart h.apart
  intro e he
  obtain ⟨p,hp,rfl⟩ := List.mem_map.mp he
  have := h.positive hp
  simp only [block]
  omega

theorem Inv.block_bounds (h : Inv base s l) (hp : p ∈ blocks s l) :
    base + 8 ≤ p ∧ p + 8 * (s.arena.heap p).size < 2^32 := by
  have hpos := h.positive hp
  have hm := List.mem_map_of_mem (f := block s.arena.heap) hp
  obtain ⟨r,hr,hx⟩ := h.covers.has (x := p) hm ⟨le_rfl,by simp only [block]; omega⟩
  obtain ⟨r',hr',hx'⟩ := h.covers.has (x := p + 8 * (s.arena.heap p).size - 1) hm
    ⟨by simp only [block]; omega,by simp only [block]; omega⟩
  have h1 := h.bounds r hr
  have h2 := h.bounds r' hr'
  unfold Extent.Has at hx hx'
  omega

theorem Inv.tops (h : Inv base s l) (hbase : base < 2^32) (hp : p ∈ l) :
    p + 8 * (s.arena.heap p).size < 2^32 := by
  rw [h.list.eq_cons] at hp
  rcases List.mem_cons.mp hp with rfl | hp
  · rw [h.list.sentinel]
    omega
  · exact (h.block_bounds (List.mem_append_right _ hp)).2

theorem Inv.live_apart {b : Live} {xs ys : List Live} (h : Inv base s l) (hs : s.live = xs ++ b :: ys)
    (hp : p ∈ (xs ++ ys).map Live.header ++ l.tail) :
    Apart (block s.arena.heap b.header) (block s.arena.heap p) := by
  have hperm : (blocks s l).Perm (b.header :: ((xs ++ ys).map Live.header ++ l.tail)) := by
    rw [blocks,hs,← List.cons_append,← List.map_cons]
    exact (List.perm_middle.map _).append_right _
  have ha := ((hperm.map (block s.arena.heap)).pairwise_iff (fun {e f} hef => hef.symm)).mp h.blocks_apart
  rw [List.map_cons] at ha
  exact List.rel_of_pairwise_cons ha (List.mem_map_of_mem hp)

theorem Inv.header_not_mem {b : Live} (h : Inv base s l) (hb : b ∈ s.live) : b.header ∉ l := by
  intro hm
  obtain ⟨xs,ys,hs⟩ := List.append_of_mem hb
  have hbounds := h.block_bounds (p := b.header) (List.mem_append_left _ (List.mem_map_of_mem hb))
  rw [h.list.eq_cons] at hm
  rcases List.mem_cons.mp hm with he | hm
  · omega
  · have ha := h.live_apart hs (List.mem_append_right _ hm)
    have hpos := (h.live b hb).2.1
    simp only [Apart,block] at ha
    omega

theorem live_blocks {live : List Live} {heap heap' : ℕ → Header}
    (h : ∀ b ∈ live, heap' b.header = heap b.header) :
    (live.map Live.header).map (block heap') = (live.map Live.header).map (block heap) := by
  rw [List.map_map,List.map_map]
  apply List.map_congr_left
  intro b hb
  simp only [Function.comp,block,h b hb]

theorem Inv.free {ap : ℕ} (h : Inv base s l) (hap : ∃ b ∈ s.live, b.pointer = ap) :
    ∃ s' l', Returns base s (.free ap) s' ∧ Inv base s' l' := by
  obtain ⟨b,hb,rfl⟩ := hap
  obtain ⟨xs,ys,hs⟩ := List.append_of_mem hb
  obtain ⟨h8,hpos,-⟩ := h.live b hb
  have hbounds := h.block_bounds (p := b.header) (List.mem_append_left _ (List.mem_map_of_mem hb))
  have hi : Insertable base s.arena.heap l b.header := by
    refine ⟨by omega,hpos,hbounds.2,fun p hp => ?_,fun p hp => h.tops (by omega) hp⟩
    rw [h.list.eq_cons] at hp
    rcases List.mem_cons.mp hp with rfl | hp
    · left
      simp only [block,h.list.sentinel]
      omega
    · exact (h.live_apart hs (List.mem_append_right _ hp)).symm
  obtain ⟨a',l',hfree,hf⟩ := free_returns h.list h.here hi
  -- the other live blocks have other headers
  have hother : ∀ c ∈ xs ++ ys, c ∈ s.live ∧ c.header ≠ b.header ∧ c.pointer ≠ b.pointer := by
    intro c hc
    have hcl : c ∈ s.live := by
      rw [hs]
      rcases List.mem_append.mp hc with hc | hc <;> simp [hc]
    have hne : c.header ≠ b.header := by
      intro he
      have ha := h.live_apart hs (List.mem_append_left _ (List.mem_map_of_mem hc))
      rw [he] at ha
      simp only [Apart,block] at ha
      omega
    refine ⟨hcl,hne,fun he => hne ?_⟩
    rw [Live.header,he,Live.header]
  have hlive : s.live.filter (fun c => c.pointer ≠ b.pointer) = xs ++ ys := by
    rw [hs,List.filter_append,List.filter_cons_of_neg (by simp),← List.filter_append]
    rw [List.filter_eq_self]
    intro c hc
    simpa using (hother c hc).2.2
  have hsame : ∀ c ∈ xs ++ ys, a'.heap c.header = s.arena.heap c.header := by
    intro c hc
    obtain ⟨hcl,hne,-⟩ := hother c hc
    apply hf.same
    simp only [List.mem_cons,not_or]
    exact ⟨hne,h.header_not_mem hcl⟩
  refine ⟨⟨a',xs ++ ys⟩,l',⟨2 * l.length + 1,fun n hn => ?_⟩,hf.list,hf.here,?_,?_,?_,?_⟩
  · have hp : b.header + 8 = b.pointer := by
      unfold Live.header
      omega
    have hr := hfree n hn
    rw [hp] at hr
    simp only [call,hr,bind,Except.bind,hlive]
  · change Covers _ a'.regions
    rw [hf.regions]
    refine Covers.trans ?_ h.covers
    unfold blocks
    rw [List.map_append (f := block a'.heap),List.map_append (f := block s.arena.heap),live_blocks hsame]
    refine ((Covers.refl _).append (hf.list.covers_tail.symm.trans hf.covers)).trans ?_
    refine ((Covers.refl _).append (h.list.covers_tail.cons _)).trans (covers_perm ?_)
    rw [hs,List.map_append,List.map_append,List.map_append,List.map_append,List.map_cons,List.map_cons]
    rw [List.append_assoc,List.append_assoc]
    apply List.Perm.append_left
    rw [List.cons_append]
    exact List.perm_middle
  · change a'.regions.Pairwise Apart
    rw [hf.regions]
    exact h.apart
  · intro r hr
    change r ∈ a'.regions at hr
    rw [hf.regions] at hr
    exact h.bounds r hr
  · intro c hc
    change _ ∧ 0 < (a'.heap c.header).size ∧ _ ≤ 8 * ((a'.heap c.header).size - 1)
    rw [hsame c hc]
    exact h.live c (hother c hc).1

theorem Inv.store {x : ℕ} (h : Inv base s l) (hd : Header)
    (hx : ∃ b ∈ s.live, b.pointer ≤ x ∧ x + 8 ≤ b.pointer + b.request) :
    ∃ s' l', Returns base s (.store x hd) s' ∧ Inv base s' l' := by
  obtain ⟨b,hb,hlow,hhigh⟩ := hx
  obtain ⟨xs,ys,hs⟩ := List.append_of_mem hb
  obtain ⟨h8,hpos,hreq⟩ := h.live b hb
  have hbounds := h.block_bounds (p := b.header) (List.mem_append_left _ (List.mem_map_of_mem hb))
  have hhead : b.header = b.pointer - 8 := rfl
  -- the place lies inside the block and is no header
  have hin : ∀ p ∈ (xs ++ ys).map Live.header ++ l.tail, 0 < (s.arena.heap p).size → p ≠ x := by
    rintro p hp hpp rfl
    have ha := h.live_apart hs hp
    simp only [Apart,block] at ha
    omega
  have hblocks : ∀ p ∈ blocks s l, p ≠ x := by
    intro p hp
    have hpp := h.positive hp
    rw [blocks,hs] at hp
    simp only [List.map_append,List.map_cons,List.append_assoc,List.cons_append,List.mem_append,
      List.mem_cons] at hp
    by_cases hpb : p = b.header
    · omega
    · apply hin p _ hpp
      simp only [List.map_append,List.mem_append]
      tauto
  have hlist : ∀ p ∈ l, p ≠ x := by
    intro p hp
    rw [h.list.eq_cons] at hp
    rcases List.mem_cons.mp hp with rfl | hp
    · omega
    · exact hblocks p (List.mem_append_right _ hp)
  have hsame : ∀ p, p ≠ x → update s.arena.heap x hd p = s.arena.heap p := fun p hp =>
    update_of_ne hp _ _
  refine ⟨_,l,⟨0,fun n _ => rfl⟩,h.list.congr (fun p hp => hsame p (hlist p hp)),h.here,?_,h.apart,h.bounds,?_⟩
  · have hmap : (blocks s l).map (block (update s.arena.heap x hd)) =
        (blocks s l).map (block s.arena.heap) := by
      apply List.map_congr_left
      intro p hp
      rw [block,block,hsame p (hblocks p hp)]
    change Covers ((blocks s l).map (block (update s.arena.heap x hd))) s.arena.regions
    rw [hmap]
    exact h.covers
  · intro c hc
    have hcx := hblocks c.header (List.mem_append_left _ (List.mem_map_of_mem hc))
    change _ ∧ 0 < (update s.arena.heap x hd c.header).size ∧
      _ ≤ 8 * ((update s.arena.heap x hd c.header).size - 1)
    rw [hsame _ hcx]
    exact h.live c hc

theorem Inv.take {nbytes : ℕ} (h : Inv base s l) (sbrk : ℕ → Option ℕ) (hbase : base < 2^32)
    (hbytes : nbytes + 7 < 2^32) (hbig : ∃ q ∈ l, units nbytes ≤ (s.arena.heap q).size) :
    ∃ a' ap l', (∀ n calls, l.length < n →
      search (units nbytes) sbrk n calls s.arena s.arena.freep (s.arena.heap s.arena.freep).ptr =
        .ok (some ap,a')) ∧ a'.regions = s.arena.regions ∧ Inv base ⟨a',⟨ap,nbytes⟩ :: s.live⟩ l' := by
  have hpos : 0 < units nbytes := Nat.succ_pos _
  obtain ⟨us,prevp,p,vs,rfl,hle,hsearch⟩ := search_finds sbrk h.list h.here hpos hbig
  obtain ⟨q,l',hap,ht⟩ := takeBlock_takes h.list hpos hle (h.tops hbase (by simp))
  obtain ⟨p',hp',hpb,hq⟩ := ht.inside
  have hp'' : p' ∈ (us ++ prevp :: p :: vs).tail := by
    rw [h.list.eq_cons] at hp'
    rcases List.mem_cons.mp hp' with rfl | hp'
    · exact absurd rfl hpb
    · exact hp'
  -- live headers keep what they hold
  have hsame : ∀ b ∈ s.live, (takeBlock s.arena (units nbytes) prevp p).2.heap b.header =
      s.arena.heap b.header := by
    intro b hb
    apply ht.same
    simp only [List.mem_cons,not_or]
    refine ⟨?_,h.header_not_mem hb⟩
    rintro rfl
    obtain ⟨xs,ys,hs⟩ := List.append_of_mem hb
    have ha := h.live_apart hs (List.mem_append_right _ hp'')
    have hbpos := (h.live b hb).2.1
    unfold Extent.Has at hq
    simp only [Apart,block] at ha hq
    omega
  generalize takeBlock s.arena (units nbytes) prevp p = r at *
  obtain ⟨ap,a'⟩ := r
  dsimp only at *
  subst hap
  have hhead : Live.header ⟨q + 8,nbytes⟩ = q := Nat.add_sub_cancel q 8
  refine ⟨a',q + 8,l',hsearch,ht.regions,ht.list,ht.here,?_,?_,?_,?_⟩
  · change Covers _ a'.regions
    rw [ht.regions]
    refine Covers.trans ?_ h.covers
    simp only [blocks,List.map_append,List.map_cons,hhead,List.cons_append]
    rw [live_blocks hsame]
    refine (covers_perm List.perm_middle.symm).trans ((Covers.refl _).append ?_)
    exact (ht.list.covers_tail.symm.cons _).trans (ht.covers.trans h.list.covers_tail)
  · change a'.regions.Pairwise Apart
    rw [ht.regions]
    exact h.apart
  · intro r hr
    change r ∈ a'.regions at hr
    rw [ht.regions] at hr
    exact h.bounds r hr
  · intro b hb
    rcases List.mem_cons.mp hb with rfl | hb
    · rw [hhead]
      change 8 ≤ q + 8 ∧ 0 < (a'.heap q).size ∧ nbytes ≤ 8 * ((a'.heap q).size - 1)
      rw [ht.size]
      refine ⟨by omega,hpos,?_⟩
      unfold units
      omega
    · change _ ∧ 0 < (a'.heap b.header).size ∧ _ ≤ 8 * ((a'.heap b.header).size - 1)
      rw [hsame b hb]
      exact h.live b hb

theorem Inv.grow {hp nu : ℕ} (h : Inv base s l) (hf : Room base s.arena.regions hp (moreUnits nu)) :
    ∃ a' l', (∀ n, 2 * l.length + 1 ≤ n → morecore n (some hp) s.arena nu = .ok (a'.freep,a')) ∧
      a'.regions = ⟨hp,hp + 8 * moreUnits nu⟩ :: s.arena.regions ∧
      Inv base ⟨a',s.live⟩ l' ∧ ∃ q ∈ l', moreUnits nu ≤ (a'.heap q).size := by
  obtain ⟨habove,htop,hapart⟩ := hf
  have hnu : 4096 ≤ moreUnits nu := by
    unfold moreUnits
    split_ifs <;> omega
  -- the new memory lies apart from every block
  have hnew : ∀ p ∈ blocks s l, p + 8 * (s.arena.heap p).size ≤ hp ∨ hp + 8 * moreUnits nu ≤ p := by
    intro p hp'
    have hpos := h.positive hp'
    by_contra hn
    obtain ⟨r,hr,hx⟩ := h.covers.has (x := max p hp) (List.mem_map_of_mem hp')
      (by unfold Extent.Has; simp only [block]; omega)
    have ha := hapart r hr
    unfold Extent.Has at hx
    simp only [Apart] at ha
    omega
  have hlist : ∀ p ∈ l, p ≠ hp ∧ (p + 8 * (s.arena.heap p).size ≤ hp ∨ hp + 8 * moreUnits nu ≤ p) := by
    intro p hp'
    rw [h.list.eq_cons] at hp'
    rcases List.mem_cons.mp hp' with rfl | hp'
    · rw [h.list.sentinel]
      omega
    · have hb := List.mem_append_right (s.live.map Live.header) hp'
      have hpos := h.positive hb
      have ha := hnew p hb
      omega
  have hlive : ∀ b ∈ s.live, b.header ≠ hp := by
    intro b hb
    have hm : b.header ∈ blocks s l := List.mem_append_left _ (List.mem_map_of_mem hb)
    have hpos := h.positive hm
    have ha := hnew _ hm
    omega
  generalize hr : ({ s.arena with regions := ⟨hp,hp + 8 * moreUnits nu⟩ :: s.arena.regions } : Arena).setSize hp
    (moreUnits nu) = a1
  have hsame : ∀ x, x ≠ hp → a1.heap x = s.arena.heap x := fun x hx => by
    simp [← hr,Arena.setSize,hx]
  have hsize : (a1.heap hp).size = moreUnits nu := by simp [← hr,Arena.setSize]
  have hfl : FreeList base a1.heap l := h.list.congr (fun p hp' => hsame p (hlist p hp').1)
  have hhere : a1.freep ∈ l := by
    rw [← hr]
    exact h.here
  have hi : Insertable base a1.heap l hp := by
    refine ⟨by omega,by omega,by omega,fun p hp' => ?_,fun p hp' => ?_⟩
    · simp only [Apart,block,hsize,hsame p (hlist p hp').1]
      exact (hlist p hp').2
    · rw [hsame p (hlist p hp').1]
      exact h.tops (by omega) hp'
  obtain ⟨a',l',hfree,hfr⟩ := free_returns hfl hhere hi
  have hregions : a'.regions = ⟨hp,hp + 8 * moreUnits nu⟩ :: s.arena.regions := by
    rw [hfr.regions,← hr]
    rfl
  have hkeep : ∀ b ∈ s.live, a'.heap b.header = s.arena.heap b.header := by
    intro b hb
    rw [hfr.same _ (by simp [hlive b hb,h.header_not_mem hb]),hsame _ (hlive b hb)]
  refine ⟨a',l',fun n hn => ?_,hregions,⟨hfr.list,hfr.here,?_,?_,?_,?_⟩,?_⟩
  · have hadv : advance hp 1 = hp + 8 := advance_eq (by omega)
    simp only [morecore,hr,hadv,hfree n hn,bind,Except.bind]
  · change Covers _ a'.regions
    rw [hregions]
    refine Covers.trans ?_ (h.covers.cons _)
    simp only [blocks,List.map_append]
    have hmapl : l.map (block a1.heap) = l.map (block s.arena.heap) := by
      apply List.map_congr_left
      intro p hp'
      rw [block,block,hsame p (hlist p hp').1]
    have hcov := hfr.covers
    rw [hmapl] at hcov
    have hb : block a1.heap hp = ⟨hp,hp + 8 * moreUnits nu⟩ := by rw [block,hsize]
    rw [hb] at hcov
    rw [live_blocks hkeep]
    refine ((Covers.refl _).append (hfr.list.covers_tail.symm.trans (hcov.trans (h.list.covers_tail.cons _)))).trans ?_
    exact covers_perm List.perm_middle
  · change a'.regions.Pairwise Apart
    rw [hregions]
    refine List.pairwise_cons.mpr ⟨fun r hr' => (hapart r hr').symm,h.apart⟩
  · intro r hr'
    change r ∈ a'.regions at hr'
    rw [hregions] at hr'
    rcases List.mem_cons.mp hr' with rfl | hr'
    · exact ⟨habove,htop⟩
    · exact h.bounds r hr'
  · intro b hb
    change _ ∧ 0 < (a'.heap b.header).size ∧ _ ≤ 8 * ((a'.heap b.header).size - 1)
    rw [hkeep b hb]
    exact h.live b hb
  · obtain ⟨q,hq,hle⟩ := hfr.room
    exact ⟨q,hq,by omega⟩

end UoDOS.Allocator
