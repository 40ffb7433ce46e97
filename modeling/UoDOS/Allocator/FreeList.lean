import UoDOS.Allocator.Malloc
import UoDOS.Library.Chains

/-! # The free list

The blocks of the free list form a ring in the order of their addresses, from the static Header
`base` on, and between two of them there is a gap.
-/
namespace UoDOS.Allocator
open Extents Chains

def block (heap : ℕ → Header) (p : ℕ) : Extent := ⟨p,p + 8 * (heap p).size⟩

structure FreeList (base : ℕ) (heap : ℕ → Header) (l : List ℕ) : Prop where
  head : l.head? = some base
  ring : Ring (fun p => (heap p).ptr) l
  sentinel : (heap base).size = 0
  positive : ∀ p ∈ l, p ≠ base → 0 < (heap p).size
  gaps : l.Pairwise (fun p q => p + 8 * (heap p).size < q)

variable {base bp p q t n : ℕ} {a a' : Arena} {heap : ℕ → Header} {l us vs : List ℕ}
  {mid ws : List ℕ}

theorem FreeList.increasing (h : FreeList base heap l) : l.Pairwise (· < ·) :=
  h.gaps.imp (fun hlt => by omega)

theorem FreeList.base_le (h : FreeList base heap l) (hp : p ∈ l) : base ≤ p := by
  obtain ⟨l',rfl⟩ := List.head?_eq_some_iff.mp h.head
  rcases List.mem_cons.mp hp with rfl | hp
  · exact le_rfl
  · exact (List.rel_of_pairwise_cons h.increasing hp).le

theorem FreeList.ptr_next {v : ℕ} (h : FreeList base heap (us ++ t :: v :: vs)) : (heap t).ptr = v :=
  (ring_rotate.mp h.ring).1

theorem FreeList.ptr_last (h : FreeList base heap (us ++ [t])) : (heap t).ptr = base := by
  have hn := (ring_rotate.mp h.ring).next_head
  have hh := h.head
  cases us with
  | nil =>
    simp only [List.nil_append,List.head?_cons,Option.some.injEq] at hh
    simpa [hh] using hn
  | cons u us =>
    simp only [List.cons_append,List.head?_cons,Option.some.injEq] at hh
    simpa [hh] using hn

theorem FreeList.place (h : FreeList base heap l) (hb : base < bp) (hbp : bp ∉ l) :
    ∃ us t vs, l = us ++ t :: vs ∧ t < bp ∧ ∀ v ∈ vs, bp < v := by
  obtain ⟨l',rfl⟩ := List.head?_eq_some_iff.mp h.head
  have hs := h.increasing
  clear h
  induction l' generalizing base with
  | nil => exact ⟨[],base,[],rfl,hb,by simp⟩
  | cons x l' ih =>
    by_cases hx : x < bp
    · obtain ⟨us,t,vs,he,ht,hv⟩ := ih hx (fun hm => hbp (List.mem_cons_of_mem _ hm)) (List.Pairwise.of_cons hs)
      exact ⟨base :: us,t,vs,by rw [he,List.cons_append],ht,hv⟩
    · refine ⟨[],base,x :: l',rfl,hb,fun v hv => ?_⟩
      have hne : x ≠ bp := fun he => hbp (by simp [he])
      rcases List.mem_cons.mp hv with rfl | hv
      · omega
      · have hlt := List.rel_of_pairwise_cons (List.Pairwise.of_cons hs) hv
        omega

theorem findBefore_walk {z : ℕ} (h : Chain (fun p => (a.heap p).ptr) p mid z)
    (hno : ∀ q ∈ p :: mid, ¬ (bp > q ∧ bp < (a.heap q).ptr) ∧
      ¬ (q ≥ (a.heap q).ptr ∧ (bp > q ∨ bp < (a.heap q).ptr))) (n : ℕ) :
    findBefore a bp (n + mid.length + 1) p = findBefore a bp n z := by
  induction mid generalizing p with
  | nil =>
    obtain ⟨h1,h2⟩ := hno p (by simp)
    rw [List.length_nil,Nat.add_zero,findBefore,if_neg h1,if_neg h2]
    exact congrArg _ h
  | cons x mid ih =>
    obtain ⟨hx,h⟩ := h
    obtain ⟨h1,h2⟩ := hno p (by simp)
    dsimp only at hx
    rw [List.length_cons,← Nat.add_assoc,findBefore,if_neg h1,if_neg h2,hx]
    exact ih h (fun q hq => hno q (by simp [List.mem_cons.mp hq]))

theorem findBefore_below (h : Chain (fun p => (a.heap p).ptr) p mid t)
    (hs : (p :: mid ++ [t]).Pairwise (· < ·)) (ht : t < bp) (n : ℕ) :
    findBefore a bp (n + mid.length + 1) p = findBefore a bp n t := by
  apply findBefore_walk h
  intro q hq
  have hsq := List.pairwise_append.mp hs
  have hqt := hsq.2.2 q hq t (by simp)
  have hm := h.next_mem hq
  have hn : (a.heap q).ptr ≤ t := by
    rcases List.mem_append.mp hm with hm | hm
    · exact (hsq.2.2 _ (List.mem_cons_of_mem _ hm) t (by simp)).le
    · exact (List.mem_singleton.mp hm).le
  rcases h.next_rel hsq.1 hq with he | hlt
  · omega
  · omega

theorem findBefore_above (h : Chain (fun p => (a.heap p).ptr) p mid base)
    (hs : (p :: mid).Pairwise (· < ·)) (hbp : ∀ q ∈ p :: mid, bp < q) (hb : base < bp) (n : ℕ) :
    findBefore a bp (n + mid.length + 1) p = findBefore a bp n base := by
  apply findBefore_walk h
  intro q hq
  have hq' := hbp q hq
  rcases h.next_rel hs hq with he | hlt
  · omega
  · omega

theorem findBefore_here (h : FreeList base a.heap (us ++ t :: vs)) (ht : t < bp) (hv : ∀ v ∈ vs, bp < v)
    (n : ℕ) : findBefore a bp (n + 1) t = .ok t := by
  rw [findBefore]
  cases vs with
  | cons v vs =>
    have hn := h.ptr_next
    have := hv v (by simp)
    rw [if_pos (by omega)]
  | nil =>
    have hn := h.ptr_last
    have hle := h.base_le (p := t) (by simp)
    rw [hn]
    split_ifs <;> first | rfl | omega

theorem findBefore_returns (h : FreeList base a.heap (us ++ t :: vs)) (hp : p ∈ us ++ t :: vs)
    (hb : base < bp) (ht : t < bp) (hv : ∀ v ∈ vs, bp < v) (hn : 2 * (us ++ t :: vs).length + 1 ≤ n) :
    findBefore a bp n p = .ok t := by
  have hs := h.increasing
  obtain ⟨hsu,hst,hsut⟩ := List.pairwise_append.mp hs
  simp only [List.length_append,List.length_cons] at hn
  -- from a block below `bp`
  have hbelow : ∀ xs p ys m, us = xs ++ p :: ys → ys.length + 2 ≤ m → findBefore a bp m p = .ok t := by
    rintro xs p ys m rfl hm
    have hc : Chain (fun p => (a.heap p).ptr) p ys t := by
      have hr := h.ring
      rw [List.append_assoc,List.cons_append,ring_rotate,List.append_assoc,List.cons_append] at hr
      exact (chain_append.mp hr).1
    obtain ⟨m,rfl⟩ : ∃ k, m = k + 1 + ys.length + 1 := ⟨m - ys.length - 2,by omega⟩
    rw [findBefore_below hc _ ht]
    · exact findBefore_here h ht hv m
    · refine List.pairwise_append.mpr ⟨(List.pairwise_append.mp hsu).2.1,by simp,?_⟩
      intro x hx y hy
      rw [List.mem_singleton.mp hy]
      exact hsut x (List.mem_append_right _ hx) t (by simp)
  rcases List.mem_append.mp hp with hp | hp
  · obtain ⟨xs,ys,rfl⟩ := List.append_of_mem hp
    simp only [List.length_append,List.length_cons] at hn
    exact hbelow xs p ys n rfl (by omega)
  rcases List.mem_cons.mp hp with rfl | hp
  · obtain ⟨n,rfl⟩ : ∃ k, n = k + 1 := ⟨n - 1,by omega⟩
    exact findBefore_here h ht hv n
  -- from a block above it, the loop comes to `base` first
  obtain ⟨xs,ys,rfl⟩ := List.append_of_mem hp
  simp only [List.length_append,List.length_cons] at hn
  have hvs : (p :: ys).Pairwise (· < ·) := (List.pairwise_append.mp (List.Pairwise.of_cons hst)).2.1
  obtain ⟨n,rfl⟩ : ∃ k, n = k + ys.length + 1 := ⟨n - ys.length - 1,by omega⟩
  have hhead := h.head
  have hr := h.ring
  rw [show us ++ t :: (xs ++ p :: ys) = (us ++ t :: xs) ++ p :: ys by simp,ring_rotate] at hr
  cases us with
  | nil =>
    simp only [List.nil_append,List.head?_cons,Option.some.injEq] at hhead
    subst hhead
    rw [List.nil_append] at hr
    rw [findBefore_above (chain_append.mp hr).1 hvs (fun q hq => hv q (List.mem_append_right _ hq)) hb]
    obtain ⟨n,rfl⟩ : ∃ k, n = k + 1 := ⟨n - 1,by simp only [List.length_nil] at hn; omega⟩
    exact findBefore_here h ht hv n
  | cons u us =>
    simp only [List.cons_append,List.head?_cons,Option.some.injEq] at hhead
    subst hhead
    rw [List.cons_append] at hr
    rw [findBefore_above (chain_append.mp hr).1 hvs (fun q hq => hv q (List.mem_append_right _ hq)) hb]
    simp only [List.length_cons] at hn
    exact hbelow [] u us n rfl (by omega)

theorem advance_eq (h : p + 8 * n < 2^32) : advance p n = p + 8 * n := Nat.mod_eq_of_lt h

structure Opened (base bp t : ℕ) (heap : ℕ → Header) (us ws : List ℕ) : Prop where
  head : (us ++ t :: ws).head? = some base
  chain : Chain (fun p => (heap p).ptr) bp (ws ++ us) t
  sentinel : (heap base).size = 0
  positive : ∀ p ∈ bp :: (us ++ t :: ws), p ≠ base → 0 < (heap p).size
  gaps : (us ++ t :: ws).Pairwise (fun p q => p + 8 * (heap p).size < q)
  lower : t + 8 * (heap t).size ≤ bp
  upper : ∀ w ∈ ws, bp + 8 * (heap bp).size < w
  above : base < bp
  new : bp ∉ us ++ t :: ws
  top : bp + 8 * (heap bp).size < 2^32

theorem joinUpper_opens (h : FreeList base a.heap (us ++ t :: vs)) (hbp : bp ∉ us ++ t :: vs) (hb : base < bp)
    (hpos : 0 < (a.heap bp).size) (htop : bp + 8 * (a.heap bp).size < 2^32)
    (hlow : t + 8 * (a.heap t).size ≤ bp) (hv : ∀ v ∈ vs, bp + 8 * (a.heap bp).size ≤ v)
    (hvs : ∀ v ∈ vs, v + 8 * (a.heap v).size < 2^32) :
    ∃ ws, ws <:+ vs ∧ Opened base bp t (joinUpper a bp t).heap us ws ∧
      (∀ x, x ≠ bp → (joinUpper a bp t).heap x = a.heap x) ∧
      (a.heap bp).size ≤ ((joinUpper a bp t).heap bp).size ∧
      Covers (block (joinUpper a bp t).heap bp :: ws.map (block a.heap))
        (block a.heap bp :: vs.map (block a.heap)) := by
  have hring := ring_rotate.mp h.ring
  have hgaps := (List.pairwise_append.mp h.gaps).2.1
  have hne : ∀ x ∈ us ++ t :: vs, x ≠ bp := fun x hx he => hbp (he ▸ hx)
  -- what holds of a ring that is opened with a larger `bp` before a part of the blocks above
  have hopen : ∀ (heap : ℕ → Header) (ws : List ℕ), ws <:+ vs → (∀ x, x ≠ bp → heap x = a.heap x) →
      Chain (fun p => (heap p).ptr) bp (ws ++ us) t → (a.heap bp).size ≤ (heap bp).size →
      bp + 8 * (heap bp).size < 2^32 → (∀ w ∈ ws, bp + 8 * (heap bp).size < w) →
      Opened base bp t heap us ws := by
    intro heap ws hws hsame hchain hsize htop' hupper
    have hsub : (us ++ t :: ws).Sublist (us ++ t :: vs) := (hws.sublist.cons_cons t).append_left us
    have hmem : ∀ x ∈ us ++ t :: ws, x ≠ bp := fun x hx => hne x (hsub.subset hx)
    refine ⟨?_,hchain,?_,?_,?_,?_,hupper,hb,fun hm => hmem bp hm rfl,htop'⟩
    · rw [← h.head]
      cases us <;> rfl
    · rw [hsame base (by omega)]
      exact h.sentinel
    · intro p hp hpb
      rcases List.mem_cons.mp hp with rfl | hp
      · omega
      · rw [hsame p (hmem p hp)]
        exact h.positive p (hsub.subset hp) hpb
    · refine (h.gaps.sublist hsub).imp_of_mem (fun {x y} hx hy hxy => ?_)
      rw [hsame x (hmem x hx)]
      exact hxy
    · rw [hsame t (hne t (by simp))]
      exact hlow
  by_cases hj : advance bp (a.heap bp).size = (a.heap t).ptr
  · rw [advance_eq htop] at hj
    cases vs with
    | nil =>
      rw [h.ptr_last] at hj
      omega
    | cons v ws =>
      rw [h.ptr_next] at hj
      have hvtop := hvs v (by simp)
      have hu : joinUpper a bp t = (a.setSize bp ((a.heap bp).size + (a.heap v).size)).setPtr bp (a.heap v).ptr := by
        unfold joinUpper
        rw [h.ptr_next,if_pos (by rw [advance_eq htop,hj]),Nat.mod_eq_of_lt (by omega)]
      have hother : ∀ x, x ≠ bp → (joinUpper a bp t).heap x = a.heap x := by
        intro x hx
        simp [hu,Arena.setPtr,Arena.setSize,hx]
      have hsize : ((joinUpper a bp t).heap bp).size = (a.heap bp).size + (a.heap v).size := by
        simp [hu,Arena.setPtr,Arena.setSize]
      refine ⟨ws,List.suffix_cons v ws,hopen _ ws (List.suffix_cons v ws) hother ?_ ?_ ?_ ?_,hother,?_,?_⟩
      · refine hring.2.restart (by simp [hu,Arena.setPtr]) (fun x hx => ?_)
        rw [hother x (hne x (by rcases List.mem_append.mp hx with hx | hx <;> simp [hx]))]
      · omega
      · omega
      · intro w hw
        have hlt := List.rel_of_pairwise_cons (List.Pairwise.of_cons hgaps) hw
        omega
      · omega
      · have hm := (covers_merge (a := bp) (b := v) (c := v + 8 * (a.heap v).size) (by omega) (by omega)
          (ws.map (block a.heap))).symm
        simp only [block,hsize,List.map_cons,hj]
        rw [show bp + 8 * ((a.heap bp).size + (a.heap v).size) = v + 8 * (a.heap v).size by omega]
        exact hm
  · have hu : joinUpper a bp t = a.setPtr bp (a.heap t).ptr := by
      unfold joinUpper
      rw [if_neg hj]
    rw [advance_eq htop] at hj
    have hother : ∀ x, x ≠ bp → (joinUpper a bp t).heap x = a.heap x := by
      intro x hx
      simp [hu,Arena.setPtr,hx]
    have hsize : ((joinUpper a bp t).heap bp).size = (a.heap bp).size := by simp [hu,Arena.setPtr]
    refine ⟨vs,List.suffix_rfl,hopen _ vs List.suffix_rfl hother ?_ ?_ ?_ ?_,hother,hsize.ge,?_⟩
    · refine hring.restart (by simp [hu,Arena.setPtr]) (fun x hx => ?_)
      rw [hother x (hne x (by rcases List.mem_append.mp hx with hx | hx <;> simp [hx]))]
    · exact hsize.ge
    · omega
    · intro w hw
      cases vs with
      | nil => simp at hw
      | cons v vs =>
        rw [h.ptr_next] at hj
        have hvle := hv v (by simp)
        rcases List.mem_cons.mp hw with rfl | hw
        · omega
        · have hlt := List.rel_of_pairwise_cons (List.Pairwise.of_cons hgaps) hw
          omega
    · simp only [block,hsize]
      exact Covers.refl _

structure Joined (base bp t : ℕ) (heap heap' : ℕ → Header) (us ws l : List ℕ) : Prop where
  list : FreeList base heap' l
  here : t ∈ l
  same : ∀ x, x ≠ t → heap' x = heap x
  room : ∃ q ∈ l, (heap bp).size ≤ (heap' q).size
  within : ∀ x ∈ l, x ∈ bp :: (us ++ t :: ws)
  covers : Covers (l.map (block heap')) (block heap bp :: (us ++ t :: ws).map (block heap))

theorem Opened.link (h : Opened base bp t a.heap us ws) (hgap : t + 8 * (a.heap t).size ≠ bp) :
    Joined base bp t a.heap (a.setPtr t bp).heap us ws (us ++ t :: bp :: ws) := by
  have htbp : t ≠ bp := fun he => h.new (by simp [he])
  have hother : ∀ x, x ≠ t → (a.setPtr t bp).heap x = a.heap x := fun x hx => by simp [Arena.setPtr,hx]
  have hsize : ∀ x, ((a.setPtr t bp).heap x).size = (a.heap x).size := by
    intro x
    rcases eq_or_ne x t with rfl | hx
    · simp [Arena.setPtr]
    · rw [hother x hx]
  have hblock : ∀ l : List ℕ, l.map (block (a.setPtr t bp).heap) = l.map (block a.heap) := by
    intro l
    apply List.map_congr_left
    intro x hx
    rw [block,block,hsize]
  have hperm : (us ++ t :: bp :: ws).Perm (bp :: (us ++ t :: ws)) := by
    rw [show us ++ t :: bp :: ws = (us ++ [t]) ++ bp :: ws by simp,
      show bp :: (us ++ t :: ws) = bp :: ((us ++ [t]) ++ ws) by simp]
    exact List.perm_middle
  obtain ⟨hgu,hgt,hgut⟩ := List.pairwise_append.mp h.gaps
  have hlow := h.lower
  refine ⟨⟨?_,?_,?_,?_,?_⟩,by simp,hother,⟨bp,by simp,by rw [hsize]⟩,fun x hx => hperm.subset hx,?_⟩
  · rw [← h.head]
    cases us <;> rfl
  · rw [ring_rotate]
    have hnodup : (us ++ t :: ws).Nodup := h.gaps.imp (fun hlt => by omega)
    refine ⟨by simp [Arena.setPtr],h.chain.restart (by rw [hother bp htbp.symm]) (fun x hx => ?_)⟩
    have hxt : x ≠ t := by
      rintro rfl
      have hm := (List.nodup_middle.mp hnodup)
      exact (List.nodup_cons.mp hm).1 (by simpa [or_comm] using hx)
    rw [hother x hxt]
  · rw [hsize]
    exact h.sentinel
  · intro x hx hxb
    rw [hsize]
    exact h.positive x (hperm.subset hx) hxb
  · simp only [hsize]
    refine List.pairwise_append.mpr ⟨hgu,List.pairwise_cons.mpr ⟨fun w hw => ?_,
      List.pairwise_cons.mpr ⟨h.upper,List.Pairwise.of_cons hgt⟩⟩,fun x hx y hy => ?_⟩
    · rcases List.mem_cons.mp hw with rfl | hw
      · omega
      · have := h.upper w hw
        omega
    · have hxt := hgut x hx t (by simp)
      rcases List.mem_cons.mp hy with rfl | hy
      · exact hxt
      rcases List.mem_cons.mp hy with rfl | hy
      · omega
      · have := h.upper y hy
        omega
  · rw [hblock,← List.map_cons]
    exact covers_perm (hperm.map _)

theorem Opened.take (h : Opened base bp t a.heap us ws) (hmeet : t + 8 * (a.heap t).size = bp) :
    Joined base bp t a.heap ((a.setSize t ((a.heap t).size + (a.heap bp).size)).setPtr t (a.heap bp).ptr).heap
      us ws (us ++ t :: ws) := by
  have htb : t ≠ base := by
    rintro rfl
    have hz := h.sentinel
    have hab := h.above
    omega
  generalize ha : (a.setSize t ((a.heap t).size + (a.heap bp).size)).setPtr t (a.heap bp).ptr = a'
  have hother : ∀ x, x ≠ t → a'.heap x = a.heap x := fun x hx => by
    simp [← ha,Arena.setPtr,Arena.setSize,hx]
  have hsize : (a'.heap t).size = (a.heap t).size + (a.heap bp).size := by
    simp [← ha,Arena.setPtr,Arena.setSize]
  have hptr : (a'.heap t).ptr = (a.heap bp).ptr := by simp [← ha,Arena.setPtr]
  have hnodup : (us ++ t :: ws).Nodup := h.gaps.imp (fun hlt => by omega)
  have hrest : ∀ x, x ∈ us ++ ws → x ≠ t := by
    rintro x hx rfl
    exact (List.nodup_cons.mp (List.nodup_middle.mp hnodup)).1 hx
  obtain ⟨hgu,hgt,hgut⟩ := List.pairwise_append.mp h.gaps
  refine ⟨⟨h.head,?_,?_,?_,?_⟩,by simp,hother,⟨t,by simp,by omega⟩,fun x hx => List.mem_cons_of_mem _ hx,?_⟩
  · rw [ring_rotate]
    refine h.chain.restart hptr (fun x hx => ?_)
    rw [hother x (hrest x (by simpa [or_comm] using hx))]
  · rw [hother base htb.symm]
    exact h.sentinel
  · intro x hx hxb
    rcases eq_or_ne x t with rfl | hxt
    · have := h.positive x (by simp) hxb
      omega
    · rw [hother x hxt]
      exact h.positive x (List.mem_cons_of_mem _ hx) hxb
  · refine List.pairwise_append.mpr ⟨?_,List.pairwise_cons.mpr ⟨fun w hw => ?_,?_⟩,fun x hx y hy => ?_⟩
    · refine hgu.imp_of_mem (fun {x y} hx hy hxy => ?_)
      rw [hother x (hrest x (by simp [hx]))]
      exact hxy
    · have := h.upper w hw
      omega
    · refine (List.Pairwise.of_cons hgt).imp_of_mem (fun {x y} hx hy hxy => ?_)
      rw [hother x (hrest x (by simp [hx]))]
      exact hxy
    · rw [hother x (hrest x (by simp [hx]))]
      exact hgut x hx y hy
  · have hmap : ∀ xs : List ℕ, (∀ x ∈ xs, x ∈ us ++ ws) → xs.map (block a'.heap) = xs.map (block a.heap) := by
      intro xs hxs
      apply List.map_congr_left
      intro x hx
      rw [block,block,hother x (hrest x (hxs x hx))]
    have hb' : block a'.heap t = ⟨t,bp + 8 * (a.heap bp).size⟩ := by
      rw [block,hsize,← hmeet]
      congr 1
      omega
    have hb : block a.heap t = ⟨t,bp⟩ := by rw [block,hmeet]
    have hmid : (us ++ t :: ws).Perm (t :: (us ++ ws)) := List.perm_middle
    refine (covers_perm (hmid.map _)).trans (Covers.trans ?_ ((covers_perm (hmid.map _)).symm.cons _))
    rw [List.map_cons,List.map_cons,hb',hb,hmap (us ++ ws) (fun x hx => hx)]
    refine Covers.trans (covers_merge ?_ ?_ _).symm (covers_perm (List.Perm.swap _ _ _))
    · omega
    · omega

theorem joinLower_joins (h : Opened base bp t a.heap us ws) :
    ∃ l, Joined base bp t a.heap (joinLower a bp t).heap us ws l := by
  have htop := h.top
  have hlow := h.lower
  unfold joinLower
  by_cases hj : advance t (a.heap t).size = bp
  · have hmeet := hj
    rw [advance_eq (by omega)] at hmeet
    have hpos := h.take hmeet
    rw [if_pos hj,Nat.mod_eq_of_lt (by omega)]
    exact ⟨_,hpos⟩
  · rw [if_neg hj]
    rw [advance_eq (by omega)] at hj
    exact ⟨_,h.link hj⟩

end UoDOS.Allocator
