import UoDOS.Kernel.AddressSpaces
import UoDOS.Kernel.ForkFailures
import UoDOS.Kernel.Growth
import UoDOS.Kernel.ProgramStart

/-! # Which user pages are present

A process has the user pages below its size and no others, through any run of fork, exec and
sbrk.
-/
namespace UoDOS.Kernel
open ByteMemory Paging Processes FileSystem Strings ProcState References Results Transition Function

section Owners

variable {o o' o'' : Owner} {d e : ℕ}

def Untouched (e : ℕ) (o o' : Owner) : Prop :=
  (o e = .directory → o' e = .directory) ∧ ∀ f i j, o' f = .user e i j ↔ o f = .user e i j

theorem Untouched.refl (e : ℕ) (o : Owner) : Untouched e o o := ⟨id,fun _ _ _ => Iff.rfl⟩

theorem Untouched.trans (h : Untouched e o o') (h' : Untouched e o' o'') : Untouched e o o'' :=
  ⟨fun hd => h'.1 (h.1 hd),fun f i j => (h'.2 f i j).trans (h.2 f i j)⟩

theorem Untouched.maps (h : Untouched e o o') (k : ℕ) : Maps o' e k ↔ Maps o e k :=
  exists_congr (fun f => h.2 f _ _)

theorem untouched_within (h : Within d o o') (hne : e ≠ d) : Untouched e o o' := by
  constructor
  · intro he
    have := h e
    simp only [Movable] at this
    grind
  · intro f i j
    have := h f
    simp only [Movable] at this
    grind

theorem untouched_update {f : ℕ} {p : Place} (ho : o f = .free ∨ o f = .held)
    (hp : p = .free ∨ p = .held ∨ p = .directory) : Untouched e o (update o f p) := by
  constructor
  · intro he
    have hne : e ≠ f := by
      rintro rfl
      rw [he] at ho
      simp at ho
    rw [update_of_ne hne,he]
  · intro g i j
    rcases eq_or_ne g f with rfl | hne
    · rw [update_self]
      constructor
      · rintro rfl
        simp at hp
      · intro hg
        rw [hg] at ho
        simp at ho
    · rw [update_of_ne hne]

theorem untouched_leaks (h : Leaks o o') : Untouched e o o' := by
  constructor
  · intro he
    have := h e
    grind
  · intro f i j
    have := h f
    grind

theorem Built.ne (h : Built d o o') (he : o e = .directory) : e ≠ d := by
  rintro rfl
  rw [h.fresh] at he
  cases he

theorem untouched_built (h : Built d o o') (he : o e = .directory) : Untouched e o o' :=
  (untouched_update (.inl h.fresh) (.inr (.inr rfl))).trans (untouched_within h.within (h.ne he))

theorem untouched_freed (hne : e ≠ d) : Untouched e o (freed d o) := by
  constructor
  · intro he
    simp [freed,he,hne]
  · intro f i j
    unfold freed
    cases o f with
    | user d' i j => by_cases hd : d' = d <;> simp [hd,hne.symm]
    | table d' i => by_cases hd : d' = d <;> simp [hd]
    | directory => by_cases hd : f = d <;> simp [hd]
    | foreign => simp
    | free => simp
    | held => simp

end Owners

variable {M : Mounted} {s s' t : System} {p np q : Fin NPROC} {R : ℕ → Prop} {o o' : Owner} {d : ℕ}

structure Present (R : ℕ → Prop) (s : System) (o : Owner) : Prop where
  owns : Owns R s.memory o
  pages : ∀ q, (s.table q).State ≠ UNUSED → ∃ d, HasPages s o q d
  kernelStacks : ∀ q, (s.table q).State ≠ UNUSED → (s.image q).KernelStack ≠ 0
  apart : ∀ q r, (s.table q).State ≠ UNUSED → (s.table r).State ≠ UNUSED →
    (s.image q).PageTable = (s.image r).PageTable → q = r

theorem HasPages.untouched (h : HasPages s o q d) (hs : (s.image q).SameSpace (s'.image q))
    (ho : Untouched d o o') : HasPages s' o' q d where
  directory := ho.1 h.directory
  pageTable := by rw [hs.PageTable,h.pageTable]
  below := by rw [hs.MemorySize]; exact h.below
  maps k := by rw [ho.maps,h.maps,hs.MemorySize]

theorem Present.keep (h : Present R s o) (ho : Owns R s'.memory o') (hu : ∀ e, o e = .directory → Untouched e o o')
    (hs : ∀ q, (s'.table q).State ≠ UNUSED → (s.table q).State ≠ UNUSED ∧ (s.image q).SameSpace (s'.image q)) :
    Present R s' o' where
  owns := ho
  pages q hq := by
    obtain ⟨hused,hsame⟩ := hs q hq
    obtain ⟨d,hd⟩ := h.pages q hused
    exact ⟨d,hd.untouched hsame (hu d hd.directory)⟩
  kernelStacks q hq := by
    obtain ⟨hused,hsame⟩ := hs q hq
    rw [hsame.KernelStack]
    exact h.kernelStacks q hused
  apart q r hq hr heq := by
    obtain ⟨huq,hsq⟩ := hs q hq
    obtain ⟨hur,hsr⟩ := hs r hr
    rw [hsq.PageTable,hsr.PageTable] at heq
    exact h.apart q r huq hur heq

theorem Present.replace (h : Present R s o) (ho : Owns R s'.memory o') (hp : HasPages s' o' p d)
    (hstack : (s'.image p).KernelStack ≠ 0)
    (hs : ∀ q ≠ p, (s'.table q).State ≠ UNUSED → (s.table q).State ≠ UNUSED ∧
      (s.image q).SameSpace (s'.image q))
    (hu : ∀ q ≠ p, ∀ e, (s.table q).State ≠ UNUSED → HasPages s o q e → e ≠ d ∧ Untouched e o o') :
    Present R s' o' := by
  have hother : ∀ q ≠ p, (s'.table q).State ≠ UNUSED → (s'.image q).PageTable ≠ page d := by
    intro q hqp hq heq
    obtain ⟨hused,hsame⟩ := hs q hqp hq
    obtain ⟨e,he⟩ := h.pages q hused
    rw [hsame.PageTable,he.pageTable] at heq
    exact (hu q hqp e hused he).1 (page_injective heq)
  refine ⟨ho,fun q hq => ?_,fun q hq => ?_,fun q r hq hr heq => ?_⟩
  · rcases eq_or_ne q p with rfl | hqp
    · exact ⟨d,hp⟩
    · obtain ⟨hused,hsame⟩ := hs q hqp hq
      obtain ⟨e,he⟩ := h.pages q hused
      exact ⟨e,he.untouched hsame (hu q hqp e hused he).2⟩
  · rcases eq_or_ne q p with rfl | hqp
    · exact hstack
    · obtain ⟨hused,hsame⟩ := hs q hqp hq
      rw [hsame.KernelStack]
      exact h.kernelStacks q hused
  · rcases eq_or_ne q p with rfl | hqp
    · by_contra hne
      rw [hp.pageTable] at heq
      exact hother r (Ne.symm hne) hr heq.symm
    · rcases eq_or_ne r p with rfl | hrp
      · rw [hp.pageTable] at heq
        exact absurd heq (hother q hqp hq)
      · obtain ⟨huq,hsq⟩ := hs q hqp hq
        obtain ⟨hur,hsr⟩ := hs r hrp hr
        rw [hsq.PageTable,hsr.PageTable] at heq
        exact h.apart q r huq hur heq

theorem Present.directories_differ {e : ℕ} (h : Present R s o) (hp : (s.table p).State ≠ UNUSED)
    (hd : HasPages s o p d) (hne : q ≠ p) (hq : (s.table q).State ≠ UNUSED) (he : HasPages s o q e) : e ≠ d := by
  rintro rfl
  exact hne (h.apart q p hq hp (he.pageTable.trans hd.pageTable.symm))

section Sbrk

variable {n : UInt32}

theorem HasPages.growable (h : HasPages s o p d) (hk : (s.image p).KernelStack ≠ 0) : Growable s o p d where
  directory := h.directory
  pageTable := h.pageTable
  kernelStack := hk
  below := h.below
  above k hk := by
    rw [h.maps]
    omega

theorem Present.resized {m' : Memory} {size : ℕ} (h : Present R s o) (hp : (s.table p).State ≠ UNUSED)
    (hd : HasPages s o p d) (ho : Owns R m' o') (hw : Within d o o') (hsize : size < KERNBASE)
    (hm : ∀ k, Maps o' d k ↔ 4096 * k < size) : Present R (s.resized p m' size) o' := by
  have hdir : o' d = .directory := by
    have hx := hw d
    simp only [Movable,hd.directory] at hx
    grind
  refine h.replace (p := p) (d := d) ho ?_ ?_ (fun q hq hused => ⟨hused,?_⟩) (fun q hq e hused he => ?_)
  · constructor
    · exact hdir
    · simpa [System.resized,System.setImage] using hd.pageTable
    · rw [resized_size]
      exact hsize
    · intro k
      rw [resized_size]
      exact hm k
  · simpa [System.resized,System.setImage] using h.kernelStacks p hp
  · simp only [System.resized,System.setImage,update_of_ne hq]
    exact ⟨rfl,rfl,rfl⟩
  · have hne := h.directories_differ hp hd hq hused he
    exact ⟨hne,untouched_within hw hne⟩

theorem Present.growProcess {r : ℤ} (h : Present R s o) (hR : Manageable M.image.toLayout R)
    (hp : (s.table p).State ≠ UNUSED)
    (hn : signed n.toNat < 0 → ((s.image p).MemorySize : ℤ) + signed n.toNat ≠ 0)
    (hg : growProcess M s p n = .ok (r,s')) : ∃ o', Present R s' o' := by
  obtain ⟨d,hd⟩ := h.pages p hp
  have hgrow := hd.growable (h.kernelStacks p hp)
  have hw := n.toNat_lt
  have hb : (s.image p).MemorySize < 2^31 := hd.below
  have hsame : Present R (s.resized p s.memory (s.image p).MemorySize) o :=
    h.resized hp hd h.owns (Within.refl d o) hd.below hd.maps
  rcases Nat.lt_or_ge n.toNat (2^31) with hlt | hge
  · rcases Nat.eq_zero_or_pos n.toNat with hz | hpos
    · rw [growProcess_zero hgrow (UInt32.toNat_inj.mp hz)] at hg
      cases hg
      exact ⟨o,hsame⟩
    · by_cases hk : (s.image p).MemorySize + n.toNat < KERNBASE
      · obtain ⟨m',o',ho',hw',⟨hup,hm⟩ | ⟨hup,hm,-⟩⟩ := growProcess_up h.owns hR hgrow hpos hlt hk
        · rw [hup] at hg
          cases hg
          refine ⟨o',h.resized hp hd ho' hw' hk (fun k => ?_)⟩
          rw [hm,hd.maps]
          omega
        · -- the memory ran out on the way: the size is stored by nobody, but it has not changed
          rw [hup] at hg
          cases hg
          have hkeep := h.resized hp hd ho' hw' hd.below (fun k => (hm k).trans (hd.maps k))
          refine ⟨o',hkeep.keep ho' (fun e _ => Untouched.refl e o') (fun q hq => ⟨hq,?_⟩)⟩
          rcases eq_or_ne q p with rfl | hqp
          · simp only [System.resized,System.setImage,update_self]
            exact ⟨rfl,rfl,rfl⟩
          · simp only [System.resized,System.setImage,update_of_ne hqp]
            exact ⟨rfl,rfl,rfl⟩
      · rw [growProcess_over hlt hpos hd.below (by omega)] at hg
        cases hg
        exact ⟨o,h⟩
  · have hneg : signed n.toNat < 0 := (signed_neg hw).mpr hge
    have hval := signed_of_neg hge
    rcases Nat.lt_or_ge ((s.image p).MemorySize + n.toNat) (2^32) with hlt | hwrap
    · rw [growProcess_under hgrow hge hlt] at hg
      split_ifs at hg
      · cases hg
        exact ⟨o,h⟩
      · cases hg
        exact ⟨o,hsame⟩
    · obtain ⟨size,hsize⟩ : ∃ size, (s.image p).MemorySize + n.toNat = size + 2^32 :=
        ⟨_,(Nat.sub_add_cancel hwrap).symm⟩
      obtain ⟨m',ho',hdown⟩ := growProcess_down h.owns hR hgrow hsize
      have hpos : size ≠ 0 := by
        rintro rfl
        exact hn hneg (by omega)
      rw [hdown,if_neg hpos] at hg
      cases hg
      refine ⟨_,h.resized hp hd ho' within_released (by simp only [KERNBASE]; omega) (fun k => ?_)⟩
      rw [maps_released,hd.maps]
      omega

end Sbrk

theorem Present.exec {path : CString} {argv : List CString} {junk : Bytes} {r : ℤ} (h : Present R s o)
    (hR : Manageable M.image.toLayout R) (hp : (s.table p).State ≠ UNUSED)
    (he : exec M s p path argv junk = .ok (r,s')) : ∃ o', Present R s' o' := by
  obtain ⟨e,hd⟩ := h.pages p hp
  obtain ⟨r,files,-,⟨-,-,rfl⟩ | ⟨f,m',files',o',-,-,rfl,h',-,hleft⟩ |
    ⟨f,x,d,m1,files1,o1,m2,esp,ptrs,-,-,-,hx,hlow,hb,rfl,hsized,-,-⟩⟩ := exec_ok h.owns hR hd.directory hd.pageTable he
  · exact ⟨o,h.keep h.owns (fun e _ => Untouched.refl e o) (fun q hq => ⟨hq,rfl,rfl,rfl⟩)⟩
  · refine ⟨o',h.keep h' (fun e he => ?_) (fun q hq => ⟨hq,rfl,rfl,rfl⟩)⟩
    rcases hleft with rfl | ⟨-,d,hb⟩
    · exact Untouched.refl e o'
    · exact untouched_built hb he
  refine ⟨freed e o1,h.replace (p := p) (d := d) hsized.owns ⟨hsized.directory,?_,?_,fun k => ?_⟩ ?_
    (fun q hq hused => ⟨hused,?_⟩) (fun q hq e' hused he' => ?_)⟩
  · simp [System.started,System.setImage,hx]
  · simpa [System.started,System.setImage] using hlow
  · simpa [System.started,System.setImage] using hsized.maps k
  · simpa [System.started,System.setImage] using h.kernelStacks p hp
  · simp only [System.started,System.setImage,update_of_ne hq]
    exact ⟨rfl,rfl,rfl⟩
  · have hne := h.directories_differ hp hd hq hused he'
    exact ⟨hb.ne he'.directory,(untouched_built hb he'.directory).trans (untouched_freed hne)⟩

section Fork

theorem allocateProcess_cases {r : Option (Fin NPROC)} (h : Owns R s.memory o) (hR : Manageable M.image.toLayout R)
    (hd : allocateProcess s = .ok (r,s')) :
    (r = none ∧ s'.memory = s.memory ∧ ∀ q, (s'.table q).State ≠ UNUSED → (s.table q).State ≠ UNUSED ∧
      (s.image q).SameSpace (s'.image q)) ∨
    ∃ np g, r = some np ∧ (s.table np).State = UNUSED ∧ o g = .free ∧
      Owns R s'.memory (update o g .held) ∧ (s'.image np).KernelStack = page g ∧
      ∀ q ≠ np, s'.table q = s.table q ∧ s'.image q = s.image q := by
  rcases allocateProcess_ok hd with ⟨rfl,ha⟩ | ⟨np,c,rfl,ha⟩
  · refine .inl ⟨rfl,ha.memory,fun q hq => ?_⟩
    have hu : (s.table q).State ≠ UNUSED := fun hz => hq ((ha.unused q).mpr hz)
    rw [ha.used q hu]
    exact ⟨hu,rfl,rfl,rfl⟩
  · rcases h.allocate hR with ⟨hal,-⟩ | ⟨g,m,hal,hg,ho,-⟩
    · have hz : s.memory.FreeList = 0 := by
        by_contra hne
        have hx := congrArg Prod.fst hal
        rw [allocatePhysicalMemoryPage,if_neg hne] at hx
        exact hne hx
      exact absurd hz ha.freePage
    · refine .inr ⟨np,g,rfl,ha.unused,hg,?_,?_,fun q hq => ⟨ha.table q hq,ha.image q hq⟩⟩
      · rw [ha.memory,hal]
        exact ho
      · rw [ha.kernelStack,hal]

theorem Present.fork {r : Option UInt32} (h : Present R s o) (hR : Manageable M.image.toLayout R)
    (hp : (s.table p).State ≠ UNUSED) (hf : fork M s p = .ok (r,s')) : ∃ o', Present R s' o' := by
  obtain ⟨d,hd⟩ := h.pages p hp
  unfold Kernel.fork at hf
  rw [bind_eq_ok] at hf
  obtain ⟨⟨x,s1⟩,hs1,hf⟩ := hf
  rcases allocateProcess_cases h.owns hR hs1 with ⟨rfl,hm,hkeep⟩ | ⟨np,g,rfl,hunused,hg,ho1,hstack,hother⟩
  · cases hf
    exact ⟨o,h.keep (by rw [hm]; exact h.owns) (fun e _ => Untouched.refl e o) hkeep⟩
  have hheld : ∀ e, Untouched e o (update o g .held) :=
    fun e => untouched_update (.inl hg) (.inr (.inl rfl))
  have hne : p ≠ np := by
    rintro rfl
    exact hp hunused
  obtain ⟨-,him⟩ := hother p hne
  dsimp only at hf
  rw [bind_eq_ok,him,hd.pageTable] at hf
  obtain ⟨⟨pt,m1⟩,hcopy,hf⟩ := hf
  rcases ho1.copy hR ((hheld d).1 hd.directory) hd.below.le hcopy with
    ⟨c,o2,rfl,hc,ho2,hw,hmaps⟩ | ⟨rfl,⟨o2,ho2,hleak⟩,-⟩
  · dsimp only at hf
    rw [if_neg (page_ne_zero c),bind_eq_ok] at hf
    obtain ⟨s2,hs2,hf⟩ := hf
    cases hf
    obtain ⟨hm2,hcop⟩ := forkInto_ok hne hs2
    have hsize := hcop.memorySize
    have hdir : o2 c = .directory := by
      have hx := hw c
      simp only [Movable,update_self] at hx
      grind
    refine ⟨o2,h.replace (p := np) (d := c) (by rw [hm2]; exact ho2) ⟨hdir,hcop.pageTable,?_,fun k => ?_⟩ ?_
      (fun q hq hused => ?_) (fun q hq e hused he => ?_)⟩
    · rw [hsize]
      exact him ▸ hd.below
    · rw [hmaps,hsize]
      exact him ▸ Iff.rfl
    · rw [hcop.kernelStack]
      exact hstack ▸ page_ne_zero g
    · obtain ⟨hq1,hq2⟩ := hother q hq
      rw [hcop.table q hq,hq1] at hused
      rw [hcop.image q hq,hq2]
      exact ⟨hused,rfl,rfl,rfl⟩
    · have hec : e ≠ c := by
        rintro rfl
        rw [(hheld e).1 he.directory] at hc
        cases hc
      exact ⟨hec,((hheld e).trans (untouched_update (.inl hc) (.inr (.inr rfl)))).trans (untouched_within hw hec)⟩
  · dsimp only at hf
    rw [if_pos rfl,bind_eq_ok,hstack] at hf
    obtain ⟨m2,hfree,hf⟩ := hf
    cases hf
    have hgheld : o2 g = .held := by
      have hx := hleak g
      simpa using hx
    obtain ⟨m3,hfree3,ho3,-⟩ := ho2.free_held hR hgheld
    rw [hfree] at hfree3
    cases hfree3
    refine ⟨_,h.keep ho3 (fun e _ => ((hheld e).trans (untouched_leaks hleak)).trans
      (untouched_update (.inr hgheld) (.inl rfl))) (fun q hq => ?_)⟩
    have hqn : q ≠ np := by
      rintro rfl
      simp at hq
    obtain ⟨hq1,hq2⟩ := hother q hqn
    simp only [System.setImage,update_of_ne hqn,hq1,hq2] at hq ⊢
    exact ⟨hq,rfl,rfl,rfl⟩

end Fork

end UoDOS.Kernel
