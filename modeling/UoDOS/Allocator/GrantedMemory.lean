import UoDOS.Allocator.AllocatorSafety
import UoDOS.Kernel.Growth

/-! # malloc and the memory of the process

The size that is asked for is rounded, scaled and turned into a signed number on its way to
sbrk, in 32 bits each time.
-/
namespace UoDOS.Allocator
open Extents Chains Kernel
open Paging (KERNBASE)

/-- The memory of a process: its size, and the regions that sbrk has granted. -/
structure Break where
  size : ℕ
  granted : List Extent

def sbrk (room : Bool) (b : Break) (n : UInt32) : Option ℕ × Break :=
  match grown room b.size n with
  | none => (none,b)
  | some size => (some b.size,⟨size,if b.size < size then ⟨b.size,size⟩ :: b.granted else b.granted⟩)

/-- The memory after `k` calls with the same argument, where `room i` says whether there are
pages for call `i`. -/
def breaks (room : ℕ → Bool) (b : Break) (n : UInt32) : ℕ → Break
  | 0 => b
  | k + 1 => (sbrk (room k) (breaks room b n k) n).2

def answers (room : ℕ → Bool) (b : Break) (n : UInt32) (k : ℕ) : Option ℕ :=
  (sbrk (room k) (breaks room b n k) n).1

def request (nbytes : ℕ) : UInt32 := UInt32.ofNat (8 * moreUnits (units nbytes))

/-- The block at `ap` has `nbytes` bytes behind its header and lies in memory that the process
has got and still has. -/
structure Usable (b : Break) (a : Arena) (ap nbytes : ℕ) : Prop where
  header : 8 ≤ ap
  size : 8 + nbytes ≤ 8 * (a.heap (ap - 8)).size
  backed : ∀ x, (block a.heap (ap - 8)).Has x → x < b.size ∧ ∃ r ∈ b.granted, r.Has x

/-- malloc returns, and the pointer is null or that of a usable block. The memory is that after
the calls of sbrk that were granted, which morecore has recorded. -/
def Provides (base : ℕ) (room : ℕ → Bool) (a : Arena) (b : Break) (nbytes : ℕ) : Prop :=
  ∃ m r a', (∀ n, m ≤ n → malloc base n (answers room b (request nbytes)) a nbytes = .ok (r,a')) ∧
    ∀ ap, r = some ap →
      Usable (breaks room b (request nbytes) (a'.regions.length - a.regions.length)) a' ap nbytes

/-- A heap that calls of malloc and free have left, in a process that has the static Header and
all regions in its memory. -/
structure WellFormed (base : ℕ) (s : State) (b : Break) : Prop where
  ready : Ready base s
  positive : 0 < base
  static : base + 8 ≤ b.size
  below : b.size < KERNBASE
  granted : ∀ r ∈ s.arena.regions, r ∈ b.granted ∧ r.stop ≤ b.size

def HasBlock (base : ℕ) (a : Arena) (nunits : ℕ) : Prop :=
  ∃ l, FreeList base a.heap l ∧ a.freep ∈ l ∧ ∃ q ∈ l, nunits ≤ (a.heap q).size

variable {base nbytes nunits : ℕ} {a : Arena} {s : State} {b : Break} {room : ℕ → Bool} {l : List ℕ}

section Sizes

theorem grown_below {r : Bool} {size size' : ℕ} {n : UInt32} (h : grown r size n = some size') (hs : size < KERNBASE) :
    size' < KERNBASE := by
  rcases Nat.lt_or_ge n.toNat (2^31) with hn | hn
  · rcases Nat.eq_zero_or_pos n.toNat with hz | hpos
    · rw [grown_zero _ _ (UInt32.toNat_inj.mp hz)] at h
      cases h
      exact hs
    · rw [grown_pos r hpos hn hs] at h
      split at h
      · rename_i hk
        cases h
        exact hk.1
      · cases h
  · have hw := n.toNat_lt
    rw [grown_neg r hn hs] at h
    split at h
    · cases h
    · split at h
      · rw [← Option.some.inj h]
        simp only [KERNBASE] at hs ⊢
        omega
      · rw [← Option.some.inj h]
        exact hs

theorem breaks_below (h : b.size < KERNBASE) (room : ℕ → Bool) (n : UInt32) (k : ℕ) :
    (breaks room b n k).size < KERNBASE := by
  induction k with
  | zero => exact h
  | succ k ih =>
    rw [breaks,sbrk]
    split
    · exact ih
    · rename_i size hg
      exact grown_below hg ih

theorem Usable.bytes_le {ap : ℕ} (h : Usable b a ap nbytes) (hb : b.size < KERNBASE) : nbytes ≤ 2^31 - 16 := by
  have hsize := h.size
  obtain ⟨hlast,-⟩ := h.backed (ap - 8 + 8 * (a.heap (ap - 8)).size - 1)
    ⟨by simp only [block]; omega,by simp only [block]; omega⟩
  simp only [KERNBASE] at hb
  omega

theorem moreUnits_le (nbytes : ℕ) : moreUnits (units nbytes) ≤ 2^29 := by
  unfold moreUnits units
  split <;> omega

theorem le_moreUnits (nunits : ℕ) : nunits ≤ moreUnits nunits := by
  unfold moreUnits
  split <;> omega

end Sizes

theorem request_small (h : nbytes ≤ 2^31 - 16) : (request nbytes).toNat = 8 * moreUnits (units nbytes) ∧
    8 * moreUnits (units nbytes) < 2^31 := by
  have hlt : 8 * moreUnits (units nbytes) < 2^31 := by
    unfold moreUnits units
    split <;> omega
  refine ⟨?_,hlt⟩
  rw [request,UInt32.toNat_ofNat',Nat.mod_eq_of_lt (by omega)]

theorem sbrk_small (h : nbytes ≤ 2^31 - 16) (hb : b.size < KERNBASE) {hp : ℕ}
    (ha : answers room b (request nbytes) 0 = some hp) :
    hp = b.size ∧ b.size + 8 * moreUnits (units nbytes) < KERNBASE ∧
      breaks room b (request nbytes) 1 =
        ⟨b.size + 8 * moreUnits (units nbytes),⟨b.size,b.size + 8 * moreUnits (units nbytes)⟩ :: b.granted⟩ := by
  obtain ⟨hw,hlt⟩ := request_small h
  have hpos : 0 < 8 * moreUnits (units nbytes) := by
    have := le_moreUnits (units nbytes)
    unfold units at this ⊢
    omega
  have hg := grown_pos (room 0) (n := request nbytes) (by omega) (by omega) hb
  rw [hw] at hg
  change (sbrk (room 0) b (request nbytes)).1 = some hp at ha
  change _ ∧ _ ∧ (sbrk (room 0) b (request nbytes)).2 = _
  rw [sbrk] at ha ⊢
  split at hg
  · rename_i hk
    rw [hg] at ha ⊢
    refine ⟨(Option.some.inj ha).symm,hk.1,?_⟩
    dsimp only
    rw [if_pos (by omega)]
  · rw [hg] at ha
    cases ha

theorem provides_small (h : WellFormed base s b) (hn : nbytes ≤ 2^31 - 16) (room : ℕ → Bool) :
    Provides base room s.arena b nbytes := by
  have hbelow := h.below
  have hstatic := h.static
  simp only [KERNBASE] at hbelow
  have hsum : nbytes + 7 < 2^32 := by omega
  obtain ⟨l,hi⟩ := h.ready.started h.positive
  obtain ⟨r,a',l',m,hs,hr,hi'⟩ := hi.search (answers room b (request nbytes)) h.positive (by omega) hsum
    (fun hp ha => by
      obtain ⟨rfl,hk,-⟩ := sbrk_small hn h.below ha
      simp only [KERNBASE] at hk
      refine ⟨hstatic,by omega,fun r hr => .inl ?_⟩
      change r ∈ (started base s.arena).regions at hr
      rw [started_regions] at hr
      exact (h.granted r hr).2)
  refine ⟨m,r,a',fun n hm => (malloc_started ..).trans (hs n hm),?_⟩
  rintro ap rfl
  -- what morecore has recorded was granted
  have hgrant : ∀ x ∈ a'.regions,
      x ∈ (breaks room b (request nbytes) (a'.regions.length - s.arena.regions.length)).granted ∧
      x.stop ≤ (breaks room b (request nbytes) (a'.regions.length - s.arena.regions.length)).size := by
    dsimp only at hr
    rw [started_regions] at hr
    rcases hr with hr | ⟨hp,ha,hr⟩
    · rw [hr,Nat.sub_self,breaks]
      exact h.granted
    · obtain ⟨rfl,-,hb⟩ := sbrk_small hn h.below ha
      rw [hr,List.length_cons,Nat.add_sub_cancel_left,hb]
      intro x hx
      rcases List.mem_cons.mp hx with rfl | hx
      · exact ⟨List.mem_cons_self,le_rfl⟩
      · obtain ⟨hg,hle⟩ := h.granted x hx
        exact ⟨List.mem_cons_of_mem _ hg,hle.trans (Nat.le_add_right _ _)⟩
  obtain ⟨h8,hpos,hreq⟩ := hi'.live ⟨ap,nbytes⟩ (by simp)
  change 0 < (a'.heap (ap - 8)).size at hpos
  change nbytes ≤ 8 * ((a'.heap (ap - 8)).size - 1) at hreq
  refine ⟨h8,by omega,fun x hx => ?_⟩
  obtain ⟨f,hf,hfx⟩ := hi'.covers.has (List.mem_map_of_mem (f := block a'.heap) (a := ap - 8) (by simp [blocks,Live.header])) hx
  exact ⟨lt_of_lt_of_le hfx.2 (hgrant f hf).2,f,(hgrant f hf).1,hfx⟩

section Insertion

variable {sbrk : ℕ → Option ℕ} {t brk mu : ℕ}

theorem joinUpper_behind (hnext : (a.heap t).ptr = base) (hz : (a.heap base).size = 0) (hmu : mu < 2^32)
    (hsize : (a.heap brk).size = mu) : ∃ y, (y = base ∨ y = (a.heap base).ptr) ∧
      (joinUpper a brk t).heap brk = ⟨y,mu⟩ ∧ ∀ x, x ≠ brk → (joinUpper a brk t).heap x = a.heap x := by
  unfold joinUpper
  simp only [hnext,hz,hsize,Nat.add_zero,Nat.mod_eq_of_lt hmu]
  split_ifs
  · exact ⟨_,.inr rfl,by simp [Arena.setSize,Arena.setPtr],fun x hx => by simp [Arena.setSize,Arena.setPtr,hx]⟩
  · exact ⟨_,.inl rfl,by simp [Arena.setPtr,← hsize],fun x hx => by simp [Arena.setPtr,hx]⟩

theorem search_behind (h : FreeList base a.heap l) (hpos : 0 < base) (hp : a.freep ∈ l)
    (hsmall : ∀ x ∈ l, (a.heap x).size < nunits) (hbrk : ∀ x ∈ l, x < brk) (htop : brk + 8 < 2^32)
    (hmu : moreUnits nunits ≤ 2^29) (hs : sbrk 0 = some brk) :
    ∃ m, ∀ n, m ≤ n → ∃ ap a', search nunits sbrk n 0 a a.freep (a.heap a.freep).ptr = .ok (some ap,a') := by
  have hle := le_moreUnits nunits
  have hbase : base ∈ l := List.mem_of_mem_head? h.head
  obtain ⟨us,t,rfl⟩ : ∃ us t, l = us ++ [t] := by
    rcases List.eq_nil_or_concat l with rfl | ⟨us,t,rfl⟩
    · cases hbase
    · exact ⟨us,t,List.concat_eq_append ..⟩
  have htb : t < brk := hbrk t (by simp)
  generalize ha1 : ({ a with regions := ⟨brk,brk + 8 * moreUnits nunits⟩ :: a.regions } : Arena).setSize brk
    (moreUnits nunits) = a1
  have hsame : ∀ x, x ≠ brk → a1.heap x = a.heap x := fun x hx => by simp [← ha1,Arena.setSize,hx]
  have hlist : FreeList base a1.heap (us ++ [t]) := h.congr (fun x hx => hsame x (Nat.ne_of_lt (hbrk x hx)))
  have hfreep : a1.freep = a.freep := by
    rw [← ha1]
    rfl
  obtain ⟨y,hy,hbp,hother⟩ := joinUpper_behind hlist.ptr_last hlist.sentinel
    (show moreUnits nunits < 2^32 by omega) (show (a1.heap brk).size = moreUnits nunits by simp [← ha1,Arena.setSize])
  have hmore : ∀ n, 2 * (us ++ [t]).length + 1 ≤ n → morecore n (some brk) a nunits =
      .ok (t,{ joinLower (joinUpper a1 brk t) brk t with freep := t }) := by
    intro n hn
    have hadv : (advance brk 1 + (2^32 - 8)) % 2^32 = brk := by
      rw [advance_eq (by omega)]
      omega
    have hfind : findBefore a1 brk n a1.freep = .ok t :=
      findBefore_returns hlist (hfreep ▸ hp) (hbrk base hbase) htb (by simp) hn
    simp only [morecore,free,ha1,hadv,hfind,bind,Except.bind]
  have hsearch : ∀ n, 2 * (us ++ [t]).length + 1 ≤ n →
      search nunits sbrk (n + (us ++ [t]).length) 0 a a.freep (a.heap a.freep).ptr =
        search nunits sbrk n 1 { joinLower (joinUpper a1 brk t) brk t with freep := t } t
          ((joinLower (joinUpper a1 brk t) brk t).heap t).ptr := by
    intro n hn
    have ht : t ≠ 0 := by
      have := h.base_le (p := t) (by simp)
      omega
    rw [search_exhausted h hp hsmall,hs,hmore n hn]
    simp only [bind,Except.bind,if_neg ht]
  have htsize : (a1.heap t).size < nunits := by
    rw [hsame t (Nat.ne_of_lt htb)]
    exact hsmall t (by simp)
  by_cases htouch : advance t (a1.heap t).size = brk
  · -- the last block takes the new one in, and the round comes back to it
    obtain ⟨us,rfl⟩ : ∃ us', us = base :: us' := by
      cases us with
      | nil =>
        have hb : t = base := by simpa using h.head
        rw [hb,hlist.sentinel,advance_eq (by have := hbrk base hbase; omega)] at htouch
        have := hbrk base hbase
        omega
      | cons u us =>
        have hu : u = base := by simpa using h.head
        exact ⟨us,by rw [hu]⟩
    have hlow : joinLower (joinUpper a1 brk t) brk t = ((joinUpper a1 brk t).setSize t
        (((a1.heap t).size + moreUnits nunits) % 2^32)).setPtr t y := by
      rw [joinLower,hother t (Nat.ne_of_lt htb),if_pos htouch,hbp]
    generalize ha3 : ({ joinLower (joinUpper a1 brk t) brk t with freep := t } : Arena) = a3 at hsearch
    have ht3 : a3.heap t = ⟨y,((a1.heap t).size + moreUnits nunits) % 2^32⟩ := by
      rw [← ha3]
      simp [hlow,Arena.setPtr,Arena.setSize]
    have hnodup : (base :: us ++ [t]).Nodup := h.increasing.imp (fun hlt => Nat.ne_of_lt hlt)
    have hother3 : ∀ x ∈ base :: us, x ≠ t ∧ a3.heap x = a1.heap x := by
      intro x hx
      have hxt : x ≠ t := (List.nodup_append.mp hnodup).2.2 x hx t (by simp)
      have hxb : x ≠ brk := Nat.ne_of_lt (hbrk x (List.mem_append_left _ hx))
      refine ⟨hxt,?_⟩
      rw [← ha3,← hother x hxb]
      simp [hlow,Arena.setPtr,Arena.setSize,hxt]
    have hring : Chain (fun p => (a1.heap p).ptr) base us t := (chain_append.mp hlist.ring).1
    obtain ⟨ms,hchain,hms⟩ : ∃ ms, Chain (fun p => (a3.heap p).ptr) t ms t ∧ ∀ x ∈ ms, x ∈ base :: us := by
      have hus : ∀ x ∈ us, (a3.heap x).ptr = (a1.heap x).ptr := fun x hx => by
        rw [(hother3 x (List.mem_cons_of_mem _ hx)).2]
      rcases hy with hy | hy
      · refine ⟨base :: us,⟨by simp [ht3,hy],hring.restart ?_ hus⟩,fun x hx => hx⟩
        rw [(hother3 base List.mem_cons_self).2]
      · exact ⟨us,hring.restart (by rw [ht3]; exact hy) hus,fun x hx => List.mem_cons_of_mem _ hx⟩
    refine ⟨3 * (base :: us ++ [t]).length + ms.length + 2,fun n hn => ?_⟩
    obtain ⟨n,rfl⟩ : ∃ k, n = k + 1 + ms.length + (base :: us ++ [t]).length :=
      ⟨n - 1 - ms.length - (base :: us ++ [t]).length,by omega⟩
    have hfreep3 : a3.freep = t := by rw [← ha3]
    have hptr3 : ((joinLower (joinUpper a1 brk t) brk t).heap t).ptr = (a3.heap t).ptr := by rw [← ha3]
    have hround : ∀ x ∈ ms, (a3.heap x).size < nunits ∧ x ≠ a3.freep := fun x hx => by
      obtain ⟨hxt,hx3⟩ := hother3 x (hms x hx)
      rw [hx3,hfreep3,hsame x (Nat.ne_of_lt (hbrk x (List.mem_append_left _ (hms x hx))))]
      exact ⟨hsmall x (List.mem_append_left _ (hms x hx)),hxt⟩
    have hsz : nunits ≤ (a3.heap t).size := by
      rw [ht3]
      change nunits ≤ ((a1.heap t).size + moreUnits nunits) % 2^32
      rw [Nat.mod_eq_of_lt (by omega)]
      omega
    rw [hsearch _ (by omega),hptr3,search_walk hchain hround,search,if_pos hsz]
    exact ⟨_,_,rfl⟩
  · -- the new block comes next
    have hlow : joinLower (joinUpper a1 brk t) brk t = (joinUpper a1 brk t).setPtr t brk := by
      rw [joinLower,hother t (Nat.ne_of_lt htb),if_neg htouch]
    refine ⟨3 * (us ++ [t]).length + 2,fun n hn => ?_⟩
    obtain ⟨n,rfl⟩ : ∃ k, n = k + 1 + (us ++ [t]).length := ⟨n - 1 - (us ++ [t]).length,by omega⟩
    have hptr : (((joinUpper a1 brk t).setPtr t brk).heap t).ptr = brk := by simp [Arena.setPtr]
    have hsz : nunits ≤ (((joinUpper a1 brk t).setPtr t brk).heap brk).size := by
      simp only [Arena.setPtr,Function.update_of_ne (Nat.ne_of_gt htb),hbp]
      exact hle
    rw [hsearch _ (by omega),hlow,hptr,search,if_pos hsz]
    exact ⟨_,_,rfl⟩

end Insertion

theorem WellFormed.below_break (h : WellFormed base s b) (hi : Inv base ⟨started base s.arena,s.live⟩ l) {x : ℕ}
    (hx : x ∈ l) : x < b.size := by
  have hstatic := h.static
  rw [hi.list.eq_cons] at hx
  rcases List.mem_cons.mp hx with rfl | hx
  · omega
  · have hmem : x ∈ blocks ⟨started base s.arena,s.live⟩ l := List.mem_append_right _ hx
    have hpos := hi.positive hmem
    have hm := List.mem_map_of_mem (f := block (started base s.arena).heap) hmem
    obtain ⟨r,hr,hin⟩ := hi.covers.has (x := x) hm ⟨le_rfl,by simp only [block] at hpos ⊢; omega⟩
    change r ∈ (started base s.arena).regions at hr
    rw [started_regions] at hr
    exact lt_of_lt_of_le hin.2 (h.granted r hr).2

theorem WellFormed.returns_block (h : WellFormed base s b) (hr : HasBlock base (started base s.arena) (units nbytes) ∨
    grown (room 0) b.size (request nbytes) ≠ none) :
    ∃ m, ∀ n, m ≤ n → ∃ ap a', malloc base n (answers room b (request nbytes)) s.arena nbytes = .ok (some ap,a') := by
  have hbelow := h.below
  simp only [KERNBASE] at hbelow
  simp only [malloc_started]
  by_cases hblock : HasBlock base (started base s.arena) (units nbytes)
  · obtain ⟨l,hl,hp,hbig⟩ := hblock
    obtain ⟨us,prevp,p,vs,-,-,hs⟩ := search_finds (answers room b (request nbytes)) hl hp (Nat.succ_pos _) hbig
    exact ⟨l.length + 1,fun n hn => ⟨_,_,hs n 0 hn⟩⟩
  · obtain ⟨l,hi⟩ := h.ready.started h.positive
    have hsmall : ∀ x ∈ l, ((started base s.arena).heap x).size < units nbytes := by
      intro x hx
      by_contra hle
      exact hblock ⟨l,hi.list,hi.here,x,hx,Nat.le_of_not_lt hle⟩
    obtain ⟨size,hg⟩ := Option.ne_none_iff_exists'.mp (hr.resolve_left hblock)
    have ha : answers room b (request nbytes) 0 = some b.size := by
      simp only [answers,breaks,sbrk,hg]
    exact search_behind hi.list h.positive hi.here hsmall (fun x hx => h.below_break hi hx) (by omega)
      (moreUnits_le nbytes) ha

theorem WellFormed.not_provides (h : WellFormed base s b) (hn : 2^31 - 16 < nbytes)
    (hr : HasBlock base (started base s.arena) (units nbytes) ∨ grown (room 0) b.size (request nbytes) ≠ none) :
    ¬ Provides base room s.arena b nbytes := by
  rintro ⟨m,r,a',hm,hu⟩
  obtain ⟨m',hm'⟩ := h.returns_block hr
  obtain ⟨ap,a'',hs⟩ := hm' (max m m') (le_max_right _ _)
  rw [hm _ (le_max_left _ _)] at hs
  cases hs
  have := (hu ap rfl).bytes_le (breaks_below h.below ..)
  omega

theorem WellFormed.provides_null (h : WellFormed base s b)
    (hblock : ¬ HasBlock base (started base s.arena) (units nbytes))
    (hg : grown (room 0) b.size (request nbytes) = none) : Provides base room s.arena b nbytes := by
  obtain ⟨l,hi⟩ := h.ready.started h.positive
  refine ⟨l.length,none,started base s.arena,fun n hn => ?_,by simp⟩
  obtain ⟨n,rfl⟩ : ∃ k, n = k + l.length := ⟨n - l.length,by omega⟩
  have hsmall : ∀ x ∈ l, ((started base s.arena).heap x).size < units nbytes := by
    intro x hx
    by_contra hle
    exact hblock ⟨l,hi.list,hi.here,x,hx,Nat.le_of_not_lt hle⟩
  have ha : answers room b (request nbytes) 0 = none := by
    simp only [answers,breaks,sbrk,hg]
  rw [malloc_started,search_exhausted hi.list hi.here hsmall,ha]
  rfl

/-- For which sizes malloc keeps its word: those that fit below the kernel, and larger ones for
which the list has no block of the wrapped number of units and sbrk refuses the wrapped request. -/
theorem provides_iff (h : WellFormed base s b) (room : ℕ → Bool) (nbytes : ℕ) :
    Provides base room s.arena b nbytes ↔ nbytes ≤ 2^31 - 16 ∨
      (¬ HasBlock base (started base s.arena) (units nbytes) ∧ grown (room 0) b.size (request nbytes) = none) := by
  constructor
  · intro hp
    by_contra hc
    push Not at hc
    obtain ⟨hn,hr⟩ := hc
    apply h.not_provides (by omega) ?_ hp
    by_cases hblock : HasBlock base (started base s.arena) (units nbytes)
    · exact .inl hblock
    · exact .inr (hr hblock)
  · rintro (hn | ⟨hblock,hg⟩)
    · exact provides_small h hn room
    · exact h.provides_null hblock hg

theorem wellFormed_fresh : WellFormed 0x8000 (initialState fun _ => ⟨0,0⟩) ⟨0x10000,[]⟩ where
  ready := .inl ⟨rfl,rfl,rfl⟩
  positive := by norm_num
  static := by norm_num
  below := by
    simp only [KERNBASE]
    norm_num
  granted := by simp [initialState]

theorem provides_iff_fresh : WellFormed 0x8000 (initialState fun _ => ⟨0,0⟩) ⟨0x10000,[]⟩ ∧
    Provides 0x8000 (fun _ => true) (initialState fun _ => ⟨0,0⟩).arena ⟨0x10000,[]⟩ 100 :=
  ⟨wellFormed_fresh,(provides_iff wellFormed_fresh _ _).mpr (.inl (by norm_num))⟩

/-- malloc(0xFFFFFFFF) asks for one unit and gets it. -/
theorem largest_size_not_provided : WellFormed 0x8000 (initialState fun _ => ⟨0,0⟩) ⟨0x10000,[]⟩ ∧
    units 0xFFFFFFFF = 1 ∧
    ¬ Provides 0x8000 (fun _ => true) (initialState fun _ => ⟨0,0⟩).arena ⟨0x10000,[]⟩ 0xFFFFFFFF := by
  have hreq : (request 0xFFFFFFFF).toNat = 32768 := by decide
  refine ⟨wellFormed_fresh,by decide,wellFormed_fresh.not_provides (by norm_num) (.inr ?_)⟩
  rw [grown_pos true (by omega) (by omega) wellFormed_fresh.below,hreq]
  simp [KERNBASE]

end UoDOS.Allocator
