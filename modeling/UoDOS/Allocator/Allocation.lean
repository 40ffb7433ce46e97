import UoDOS.Allocator.FreeList

/-! # free and malloc on the free list

free puts a block into the list. malloc goes round the list once; if no block is large
enough it asks for more memory, and then a second round finds a block.
-/
namespace UoDOS.Allocator
open Extents Chains

variable {base bp p q n nunits calls prevp : ℕ} {a a' : Arena} {l us vs : List ℕ}
variable {sbrk : ℕ → Option ℕ}

structure Insertable (base : ℕ) (heap : ℕ → Header) (l : List ℕ) (bp : ℕ) : Prop where
  above : base < bp
  positive : 0 < (heap bp).size
  top : bp + 8 * (heap bp).size < 2^32
  apart : ∀ p ∈ l, Apart (block heap p) (block heap bp)
  tops : ∀ p ∈ l, p + 8 * (heap p).size < 2^32

theorem joinUpper_regions (a : Arena) (bp p : ℕ) : (joinUpper a bp p).regions = a.regions := by
  unfold joinUpper
  dsimp only
  split_ifs <;> rfl

theorem joinLower_regions (a : Arena) (bp p : ℕ) : (joinLower a bp p).regions = a.regions := by
  unfold joinLower
  split_ifs <;> rfl

structure Freed (base bp : ℕ) (l : List ℕ) (a a' : Arena) (l' : List ℕ) : Prop where
  list : FreeList base a'.heap l'
  here : a'.freep ∈ l'
  regions : a'.regions = a.regions
  same : ∀ x, x ∉ bp :: l → a'.heap x = a.heap x
  room : ∃ q ∈ l', (a.heap bp).size ≤ (a'.heap q).size
  covers : Covers (l'.map (block a'.heap)) (block a.heap bp :: l.map (block a.heap))

theorem free_returns (h : FreeList base a.heap l) (hp : a.freep ∈ l) (hi : Insertable base a.heap l bp) :
    ∃ a' l', (∀ n, 2 * l.length + 1 ≤ n → free n a (bp + 8) = .ok a') ∧ Freed base bp l a a' l' := by
  obtain ⟨hb,hpos,htop,hapart,htops⟩ := hi
  have hbp : bp ∉ l := by
    intro hm
    have ha := hapart bp hm
    simp only [Apart,block] at ha
    omega
  obtain ⟨us,t,vs,rfl,ht,hv⟩ := h.place hb hbp
  have hlow : t + 8 * (a.heap t).size ≤ bp := by
    have ha := hapart t (by simp)
    simp only [Apart,block] at ha
    omega
  have hup : ∀ v ∈ vs, bp + 8 * (a.heap bp).size ≤ v := by
    intro v hv'
    have ha := hapart v (by simp [hv'])
    have hlt := hv v hv'
    simp only [Apart,block] at ha
    omega
  obtain ⟨ws,hws,ho,hsame,hsize,hcov⟩ := joinUpper_opens h hbp hb hpos htop hlow hup
    (fun v hv => htops v (by simp [hv]))
  obtain ⟨l',hj⟩ := joinLower_joins ho
  have hsub : (us ++ t :: ws).Sublist (us ++ t :: vs) := (hws.sublist.cons_cons t).append_left us
  have hmap : ∀ xs : List ℕ, (∀ x ∈ xs, x ∈ us ++ t :: vs) →
      xs.map (block (joinUpper a bp t).heap) = xs.map (block a.heap) := by
    intro xs hxs
    apply List.map_congr_left
    intro x hx
    rw [block,block,hsame x (fun he => hbp (he ▸ hxs x hx))]
  refine ⟨{ joinLower (joinUpper a bp t) bp t with freep := t },l',?_,hj.list,hj.here,?_,?_,?_,?_⟩
  · intro n hn
    have hw : (bp + 8 + (2^32 - 8)) % 2^32 = bp := by omega
    simp only [free,hw,findBefore_returns h hp hb ht hv hn,bind,Except.bind]
  · exact (joinLower_regions _ _ _).trans (joinUpper_regions _ _ _)
  · intro x hx
    rw [hj.same x (fun he => hx (by simp [he])),hsame x (fun he => hx (by simp [he]))]
  · obtain ⟨q,hq,hle⟩ := hj.room
    exact ⟨q,hq,hsize.trans hle⟩
  · refine hj.covers.trans ?_
    rw [hmap _ (fun x hx => hsub.subset hx),List.map_append,List.map_cons,List.map_append,List.map_cons]
    -- both sides differ in the blocks from `bp` on
    have hl : ∀ (e : Extent) (xs ys : List Extent), (e :: (us.map (block a.heap) ++ xs)).Perm
        (us.map (block a.heap) ++ e :: xs) := fun e xs _ => List.perm_middle.symm
    refine (covers_perm (hl _ _ [])).trans (Covers.trans ?_ (covers_perm (hl _ _ [])).symm)
    refine (Covers.refl _).append ?_
    exact (covers_perm (List.Perm.swap _ _ _)).trans ((hcov.cons _).trans (covers_perm (List.Perm.swap _ _ _)))

theorem search_walk {ms : List ℕ} {z : ℕ} (h : Chain (fun p => (a.heap p).ptr) prevp ms z)
    (hsmall : ∀ x ∈ ms, (a.heap x).size < nunits ∧ x ≠ a.freep) (n : ℕ) :
    search nunits sbrk (n + ms.length) calls a prevp (a.heap prevp).ptr =
      search nunits sbrk n calls a (ms.getLastD prevp) z := by
  induction ms generalizing prevp with
  | nil => exact congrArg _ h
  | cons x ms ih =>
    obtain ⟨hx,h⟩ := h
    obtain ⟨hs,hf⟩ := hsmall x (by simp)
    dsimp only at hx
    rw [hx,List.length_cons,← Nat.add_assoc,search,if_neg (by omega),if_neg hf,List.getLastD_cons]
    exact ih h (fun y hy => hsmall y (by simp [hy]))

theorem search_exhausted (h : FreeList base a.heap l) (hp : a.freep ∈ l)
    (hsmall : ∀ x ∈ l, (a.heap x).size < nunits) (n : ℕ) :
    search nunits sbrk (n + l.length) calls a a.freep (a.heap a.freep).ptr =
      (do
        let (p,a) ← morecore n (sbrk calls) a nunits
        if p = 0 then .ok (none,a)
        else search nunits sbrk n (calls + 1) a p (a.heap p).ptr) := by
  obtain ⟨xs,ys,hl⟩ := List.append_of_mem hp
  have hc : Chain (fun p => (a.heap p).ptr) a.freep (ys ++ xs) a.freep := by
    rw [← ring_rotate,← hl]
    exact h.ring
  have hnodup : l.Nodup := h.increasing.imp (fun hlt => Nat.ne_of_lt hlt)
  have hlen : n + l.length = n + 1 + (ys ++ xs).length := by
    rw [hl]
    simp only [List.length_append,List.length_cons]
    omega
  rw [hlen,search_walk hc]
  · rw [search,if_neg (by have := hsmall _ hp; omega),if_pos rfl]
  · intro x hx
    have hm : x ∈ xs ++ ys := by simpa [or_comm] using hx
    constructor
    · apply hsmall
      rw [hl]
      simp only [List.mem_append,List.mem_cons] at hm ⊢
      tauto
    · rintro rfl
      rw [hl,List.nodup_middle] at hnodup
      exact (List.nodup_cons.mp hnodup).1 hm

theorem search_finds (sbrk : ℕ → Option ℕ) (h : FreeList base a.heap l) (hp : a.freep ∈ l) (hpos : 0 < nunits)
    (hbig : ∃ q ∈ l, nunits ≤ (a.heap q).size) :
    ∃ us prevp p vs, l = us ++ prevp :: p :: vs ∧ nunits ≤ (a.heap p).size ∧ ∀ n calls, l.length < n →
      search nunits sbrk n calls a a.freep (a.heap a.freep).ptr =
        .ok (some (takeBlock a nunits prevp p).1,(takeBlock a nunits prevp p).2) := by
  obtain ⟨xs,ys,hl⟩ := List.append_of_mem hp
  have hc : Chain (fun p => (a.heap p).ptr) a.freep (ys ++ xs) a.freep := by
    rw [← ring_rotate,← hl]
    exact h.ring
  have hnodup : l.Nodup := h.increasing.imp (fun hlt => Nat.ne_of_lt hlt)
  have hperm : l.Perm ((ys ++ xs) ++ [a.freep]) := by
    rw [hl]
    refine List.perm_middle.trans ?_
    refine (List.perm_append_comm.cons _).trans ?_
    exact (List.perm_append_singleton _ _).symm
  obtain ⟨q0,hq0,hs0⟩ := hbig
  obtain ⟨q,hfind⟩ := Option.isSome_iff_exists.mp (List.find?_isSome
    (p := fun q => decide (nunits ≤ (a.heap q).size)).mpr ⟨q0,hperm.subset hq0,by simpa using hs0⟩)
  obtain ⟨hq,ms,rest,hsplit,hms⟩ := List.find?_eq_some_iff_append.mp hfind
  simp only [decide_eq_true_eq] at hq
  -- the round reaches `q` from the block before it
  have hcq : Chain (fun p => (a.heap p).ptr) a.freep ms q := by
    rcases List.eq_nil_or_concat rest with rfl | ⟨rest,z,rfl⟩
    · obtain ⟨hm,hz⟩ := List.append_inj' hsplit rfl
      cases hz
      rw [← hm]
      exact hc
    · rw [List.concat_eq_append,← List.cons_append,← List.append_assoc] at hsplit
      obtain ⟨hm,-⟩ := List.append_inj' hsplit rfl
      rw [hm] at hc
      exact (chain_append.mp hc).1
  have hmem : ∀ x ∈ ms, x ∈ l ∧ x ≠ a.freep := by
    intro x hx
    have hd := hperm.nodup_iff.mp hnodup
    constructor
    · apply hperm.symm.subset
      rw [hsplit]
      exact List.mem_append_left _ hx
    · rintro rfl
      have hlast : a.freep ∈ q :: rest := by
        have : ((ys ++ xs) ++ [a.freep]).getLast? = some a.freep := by simp
        rw [hsplit,List.getLast?_append_of_ne_nil _ (by simp)] at this
        exact List.mem_of_getLast? this
      rw [hsplit] at hd
      exact (List.nodup_append.mp hd).2.2 _ hx _ hlast rfl
  have hprev : ms.getLastD a.freep ∈ l := by
    rcases List.eq_nil_or_concat ms with rfl | ⟨ms,z,rfl⟩
    · exact hp
    · rw [List.concat_eq_append] at hmem ⊢
      rw [List.getLastD_concat]
      exact (hmem z (by simp)).1
  have hnext : (a.heap (ms.getLastD a.freep)).ptr = q := hcq.next_last
  obtain ⟨us,vs,hus⟩ := h.ring.split hprev (by
    rw [h.head]
    intro he
    have hb : base = q := (Option.some.inj he).trans hnext
    have hz := h.sentinel
    rw [hb] at hz
    omega)
  rw [hnext] at hus
  refine ⟨us,ms.getLastD a.freep,q,vs,hus,hq,fun n calls hn => ?_⟩
  have hlen : ms.length ≤ l.length := by
    have := hperm.length_eq
    rw [hsplit] at this
    simp only [List.length_append] at this
    omega
  obtain ⟨n,rfl⟩ : ∃ k, n = k + 1 + ms.length := ⟨n - 1 - ms.length,by omega⟩
  rw [search_walk hcq (fun x hx => ⟨by simpa using hms x hx,(hmem x hx).2⟩),search,if_pos hq]

structure Taken (base nunits : ℕ) (l : List ℕ) (a a' : Arena) (q : ℕ) (l' : List ℕ) : Prop where
  list : FreeList base a'.heap l'
  here : a'.freep ∈ l'
  regions : a'.regions = a.regions
  size : (a'.heap q).size = nunits
  inside : ∃ p ∈ l, p ≠ base ∧ (block a.heap p).Has q
  same : ∀ x, x ∉ q :: l → a'.heap x = a.heap x
  covers : Covers (block a'.heap q :: l'.map (block a'.heap)) (l.map (block a.heap))

theorem FreeList.ne_base (h : FreeList base a.heap (us ++ prevp :: p :: vs)) : p ≠ base := by
  rintro rfl
  have hle := h.base_le (p := prevp) (by simp)
  have hlt := List.rel_of_pairwise_cons (List.pairwise_append.mp h.increasing).2.1
    (show p ∈ p :: vs by simp)
  omega

theorem FreeList.remove (h : FreeList base a.heap (us ++ prevp :: p :: vs)) (hpos : 0 < (a.heap p).size) :
    Taken base (a.heap p).size (us ++ prevp :: p :: vs) a { a.setPtr prevp (a.heap p).ptr with freep := prevp } p
      (us ++ prevp :: vs) := by
  have hsub : (us ++ prevp :: vs).Sublist (us ++ prevp :: p :: vs) :=
    ((List.sublist_cons_self p vs).cons_cons prevp).append_left us
  have hother : ∀ x, x ≠ prevp → (a.setPtr prevp (a.heap p).ptr).heap x = a.heap x := fun x hx => by
    simp [Arena.setPtr,hx]
  have hsize : ∀ x, ((a.setPtr prevp (a.heap p).ptr).heap x).size = (a.heap x).size := by
    intro x
    rcases eq_or_ne x prevp with rfl | hx
    · simp [Arena.setPtr]
    · rw [hother x hx]
  have hblock : ∀ x, block (a.setPtr prevp (a.heap p).ptr).heap x = block a.heap x := by
    intro x
    rw [block,block,hsize]
  have hnodup : (us ++ prevp :: p :: vs).Nodup := h.increasing.imp (fun hlt => Nat.ne_of_lt hlt)
  refine ⟨⟨?_,?_,?_,?_,?_⟩,by simp,rfl,hsize p,⟨p,by simp,h.ne_base,?_⟩,?_,?_⟩
  · rw [← h.head]
    cases us <;> rfl
  · rw [ring_rotate]
    refine (ring_rotate.mp h.ring).2.restart (by simp [Arena.setPtr]) (fun x hx => ?_)
    have hxp : x ≠ prevp := by
      rintro rfl
      refine (List.nodup_cons.mp (List.nodup_middle.mp hnodup)).1 ?_
      rcases List.mem_append.mp hx with hx | hx <;> simp [hx]
    rw [hother x hxp]
  · rw [hsize]
    exact h.sentinel
  · intro x hx hxb
    rw [hsize]
    exact h.positive x (hsub.subset hx) hxb
  · simp only [hsize]
    exact h.gaps.sublist hsub
  · constructor
    · exact le_rfl
    · change p < p + 8 * (a.heap p).size
      omega
  · intro x hx
    exact hother x (fun he => hx (by simp [he]))
  · simp only [List.map_congr_left (fun x _ => hblock x),hblock]
    apply covers_perm
    rw [← List.map_cons]
    apply List.Perm.map
    rw [show us ++ prevp :: p :: vs = (us ++ [prevp]) ++ p :: vs by simp,
      show p :: (us ++ prevp :: vs) = p :: ((us ++ [prevp]) ++ vs) by simp]
    exact List.perm_middle.symm

theorem FreeList.divide (h : FreeList base a.heap (us ++ prevp :: p :: vs)) (hpos : 0 < nunits)
    (hlt : nunits < (a.heap p).size) :
    Taken base nunits (us ++ prevp :: p :: vs) a
      { (a.setSize p ((a.heap p).size - nunits)).setSize (p + 8 * ((a.heap p).size - nunits)) nunits with
        freep := prevp }
      (p + 8 * ((a.heap p).size - nunits)) (us ++ prevp :: p :: vs) := by
  generalize hq : p + 8 * ((a.heap p).size - nunits) = q
  have hql : ∀ x ∈ us ++ prevp :: p :: vs, x ≠ q := by
    rintro x hx rfl
    have hg := h.gaps
    rw [show us ++ prevp :: p :: vs = (us ++ [prevp]) ++ p :: vs by simp] at hg hx
    obtain ⟨-,hgp,hgup⟩ := List.pairwise_append.mp hg
    rcases List.mem_append.mp hx with hx | hx
    · have := hgup x hx p (by simp)
      omega
    · rcases List.mem_cons.mp hx with rfl | hx
      · omega
      · have := List.rel_of_pairwise_cons hgp hx
        omega
  have hpq : p ≠ q := hql p (by simp)
  generalize ha : (a.setSize p ((a.heap p).size - nunits)).setSize q nunits = a'
  have hptr : ∀ x, (a'.heap x).ptr = (a.heap x).ptr := by
    intro x
    rcases eq_or_ne x q with rfl | hxq
    · simp [← ha,Arena.setSize,hpq.symm]
    · rcases eq_or_ne x p with rfl | hxp
      · simp [← ha,Arena.setSize,hxq]
      · simp [← ha,Arena.setSize,hxq,hxp]
  have hother : ∀ x, x ≠ q → x ≠ p → a'.heap x = a.heap x := fun x hxq hxp => by
    simp [← ha,Arena.setSize,hxq,hxp]
  have hsp : (a'.heap p).size = (a.heap p).size - nunits := by simp [← ha,Arena.setSize,hpq]
  have hsq : (a'.heap q).size = nunits := by simp [← ha,Arena.setSize]
  have hle : ∀ x ∈ us ++ prevp :: p :: vs, (a'.heap x).size ≤ (a.heap x).size := by
    intro x hx
    rcases eq_or_ne x p with rfl | hxp
    · omega
    · rw [hother x (hql x hx) hxp]
  have hmem := hql
  refine ⟨⟨h.head,?_,?_,?_,?_⟩,by simp,by simp [← ha,Arena.setSize],hsq,⟨p,by simp,h.ne_base,?_⟩,?_,?_⟩
  · have hf : (fun x => (a'.heap x).ptr) = fun x => (a.heap x).ptr := funext hptr
    rw [hf]
    exact h.ring
  · have hbm : base ∈ us ++ prevp :: p :: vs := List.mem_of_mem_head? h.head
    rw [hother base (hql base hbm) h.ne_base.symm]
    exact h.sentinel
  · intro x hx hxb
    change 0 < (a'.heap x).size
    rcases eq_or_ne x p with rfl | hxp
    · omega
    · rw [hother x (hql x hx) hxp]
      exact h.positive x hx hxb
  · refine h.gaps.imp_of_mem (fun {x y} hx hy hxy => ?_)
    change x + 8 * (a'.heap x).size < y
    have := hle x hx
    omega
  · constructor
    · change p ≤ q
      omega
    · change q < p + 8 * (a.heap p).size
      omega
  · intro x hx
    exact hother x (fun he => hx (by simp [he])) (fun he => hx (by simp [he]))
  · have hmap : ∀ xs : List ℕ, (∀ x ∈ xs, x ≠ q ∧ x ≠ p) → xs.map (block a'.heap) = xs.map (block a.heap) := by
      intro xs hxs
      apply List.map_congr_left
      intro x hx
      rw [block,block,hother x (hxs x hx).1 (hxs x hx).2]
    have hnodup : (us ++ prevp :: p :: vs).Nodup := h.increasing.imp (fun hlt => Nat.ne_of_lt hlt)
    have hmid : (us ++ prevp :: p :: vs).Perm (p :: (us ++ prevp :: vs)) := by
      rw [show us ++ prevp :: p :: vs = (us ++ [prevp]) ++ p :: vs by simp,
        show p :: (us ++ prevp :: vs) = p :: ((us ++ [prevp]) ++ vs) by simp]
      exact List.perm_middle
    have hrest := (List.nodup_cons.mp (hmid.nodup_iff.mp hnodup)).1
    refine Covers.trans ((covers_perm (hmid.map _)).cons _) (Covers.trans ?_ (covers_perm (hmid.map _)).symm)
    rw [List.map_cons,List.map_cons,hmap (us ++ prevp :: vs) (fun x hx =>
      ⟨hql x (hmid.symm.subset (List.mem_cons_of_mem _ hx)),fun he => hrest (he ▸ hx)⟩)]
    have hbp : block a'.heap p = ⟨p,q⟩ := by
      rw [block,hsp,hq]
    have hbq : block a'.heap q = ⟨q,p + 8 * (a.heap p).size⟩ := by
      rw [block,hsq]
      congr 1
      omega
    rw [hbp,hbq]
    refine (covers_perm (List.Perm.swap _ _ _)).trans (covers_merge ?_ ?_ _)
    · omega
    · omega

theorem takeBlock_takes (h : FreeList base a.heap (us ++ prevp :: p :: vs)) (hpos : 0 < nunits)
    (hle : nunits ≤ (a.heap p).size) (htop : p + 8 * (a.heap p).size < 2^32) :
    ∃ q l', (takeBlock a nunits prevp p).1 = q + 8 ∧
      Taken base nunits (us ++ prevp :: p :: vs) a (takeBlock a nunits prevp p).2 q l' := by
  unfold takeBlock
  rcases Nat.eq_or_lt_of_le hle with rfl | hlt
  · rw [if_pos rfl]
    exact ⟨p,_,advance_eq (by omega),h.remove hpos⟩
  · have hs : ((a.setSize p ((a.heap p).size - nunits)).heap p).size = (a.heap p).size - nunits := by
      simp [Arena.setSize]
    rw [if_neg (by omega)]
    dsimp only
    rw [hs,advance_eq (p := p) (by omega)]
    exact ⟨_,_,advance_eq (by omega),h.divide hpos hlt⟩

end UoDOS.Allocator
