import UoDOS.FileSystem.OpenCounts
import UoDOS.Kernel.ProgramStack

/-! # What loading a program does to the memory

exec builds a directory on free pages, fills it section by section and adds the stack.
Until it commits nothing of any other directory changes.
-/
namespace UoDOS.Kernel
open ByteMemory Paging Processes FileSystem Strings Results Function

variable {M : Mounted} {L : Layout} {R : ℕ → Prop} {m m' : Memory} {o o' : Owner} {d : ℕ} {f : Fin NFILE}
  {l l' : Loader} {x : File}
  {t t' : FileTable} {size : ℕ}

def Moved (f : Fin NFILE) (t t' : FileTable) : Prop :=
  ∃ position eof, t' = update t f { t f with Position := position, Eof := eof }

theorem Moved.refl (f : Fin NFILE) (t : FileTable) : Moved f t t :=
  ⟨(t f).Position,(t f).Eof,(update_eq_self f t).symm⟩

theorem Moved.trans {t'' : FileTable} (h : Moved f t t') (h' : Moved f t' t'') : Moved f t t'' := by
  obtain ⟨p,e,rfl⟩ := h
  obtain ⟨p',e',rfl⟩ := h'
  exact ⟨p',e',by rw [update_self,update_idem]⟩

theorem Moved.type (h : Moved f t t') : (t' f).type = (t f).type := by
  obtain ⟨p,e,rfl⟩ := h
  simp

theorem Moved.counts (h : Moved f t t') : counts t' = counts t := by
  obtain ⟨p,e,rfl⟩ := h
  exact counts_write rfl

structure Readable (x : File) : Prop where
  type : x.type = .FD_FILE
  readable : x.Readable = true

def Holding (f : Fin NFILE) (x : File) (t : FileTable) : Prop :=
  ∃ position eof, t f = { x with Position := position, Eof := eof }

theorem Holding.moved (h : Holding f x t) (hm : Moved f t t') : Holding f x t' := by
  obtain ⟨p,e,h⟩ := h
  obtain ⟨p',e',rfl⟩ := hm
  exact ⟨p',e',by rw [update_self,h]⟩

theorem Holding.readable (h : Holding f x t) (hx : Readable x) : Readable (t f) := by
  obtain ⟨p,e,h⟩ := h
  rw [h]
  exact ⟨hx.type,hx.readable⟩

theorem read_ok {Position n : ℕ} {count : ℤ} {bytes : List UInt8}
    (he : l.read M f Position n = .ok (count,bytes,l')) :
    l'.memory = l.memory ∧ Moved f l.files l'.files ∧ bytes.length ≤ n := by
  rw [Loader.read,bind_eq_ok] at he
  obtain ⟨⟨c,bs,files⟩,hr,he⟩ := he
  cases he
  have hset : Moved f l.files (update l.files f { l.files f with Position := Position }) :=
    ⟨Position,(l.files f).Eof,rfl⟩
  have hfat : ∀ {t : FileTable} {r : ℕ × List UInt8 × File}, Moved f l.files t → fsFat12Read M (t f) n = .ok r →
      Moved f l.files (update t f r.2.2) ∧ r.2.1.length ≤ n := by
    rintro t ⟨k,bytes,file⟩ ht hread
    obtain ⟨p,e,hfile⟩ := read_file hread
    obtain ⟨hlen,hle⟩ := read_length hread
    exact ⟨ht.trans ⟨p,e,by rw [hfile]⟩,hlen.trans_le hle⟩
  unfold fileRead at hr
  split at hr
  · cases hr
    exact ⟨rfl,hset,Nat.zero_le n⟩
  · split at hr
    · cases hr
      exact ⟨rfl,hset,Nat.zero_le n⟩
    · cases hr
      exact ⟨rfl,hset,Nat.zero_le n⟩
    · rw [bind_eq_ok] at hr
      obtain ⟨r,hread,hr⟩ := hr
      cases hr
      exact ⟨rfl,hfat hset hread⟩
    · rw [bind_eq_ok] at hr
      obtain ⟨r,hread,hr⟩ := hr
      cases hr
      exact ⟨rfl,hfat hset hread⟩
    · cases hr

theorem readHeaders_ok {header : Option Bytes} (he : readHeaders M f l = .ok (header,l')) :
    l'.memory = l.memory ∧ Moved f l.files l'.files := by
  rw [readHeaders,bind_eq_ok] at he
  obtain ⟨⟨c,bs,l1⟩,hr,he⟩ := he
  obtain ⟨hm1,hf1,-⟩ := read_ok hr
  dsimp only at he
  split at he
  · cases he
    exact ⟨hm1,hf1⟩
  · split at he
    · cases he
      exact ⟨hm1,hf1⟩
    · rw [bind_eq_ok] at he
      obtain ⟨⟨c2,bs2,l2⟩,hr2,he⟩ := he
      obtain ⟨hm2,hf2,-⟩ := read_ok hr2
      dsimp only at he
      split at he
      · cases he
        exact ⟨hm2.trans hm1,hf1.trans hf2⟩
      · cases he
        exact ⟨hm2.trans hm1,hf1.trans hf2⟩

theorem entry_of_lookup {va : ℕ} (h : Owns R m o) (hR : Manageable L R) (hd : o d = .directory) (hva : va < 2^32)
    (hne : (getPageTableEntry m (page d) va false).1 ≠ 0) :
    m.load (getPageTableEntry m (page d) va false).1 = m.entry d (va / 4096) := by
  rcases h.lookup va hR hd with ⟨-,hg⟩ | ⟨t,ht,hg⟩
  · rw [hg] at hne
    exact absurd rfl hne
  · have hj : PTX va < 1024 := by rw [ptx_eq]; omega
    rw [hg,load_page m (h.lt hR (by simp [ht])) hj,← h.entry_table ht hj,pdx_eq,ptx_eq]
    congr 1
    omega

theorem write_nothing (m : Memory) (v : ℕ) : m.write v [] = m := by
  have hram : ByteMemory.write m.ram (V2P v) [] = m.ram := by
    funext x
    exact if_neg (by simp only [List.length_nil]; omega)
  rw [Memory.write,hram]

structure Sized (R : ℕ → Prop) (m : Memory) (o : Owner) (d size : ℕ) : Prop where
  owns : Owns R m o
  directory : o d = .directory
  limit : size ≤ KERNBASE
  maps : ∀ k, Maps o d k ↔ 4096 * k < size

/-- What growing a directory does to a memory: the kernel half and all outside of the directory stay. -/
structure Extends (d : ℕ) (m : Memory) (o : Owner) (m' : Memory) (o' : Owner) : Prop where
  within : Within d o o'
  leaves : Leaves d o m m'
  kernel : ∀ n, 2^19 ≤ n → n < 2^20 → m'.entry d n = m.entry d n

theorem Extends.refl (d : ℕ) (m : Memory) (o : Owner) : Extends d m o m o :=
  ⟨Within.refl d o,fun _ _ _ _ => rfl,fun _ _ _ => rfl⟩

theorem Extends.trans {m'' : Memory} {o'' : Owner} (h : Extends d m o m' o') (h' : Extends d m' o' m'' o'') :
    Extends d m o m'' o'' :=
  ⟨h.within.trans h'.within,h.leaves.trans h.within h'.leaves,
    fun n h1 h2 => (h'.kernel n h1 h2).trans (h.kernel n h1 h2)⟩

theorem Extends.closed (hx : Extends d m o m' o') (hc : Closed m d) : Closed m' d := by
  intro n h1 h2
  rw [hx.kernel n h1 h2]
  exact hc n h1 h2

theorem Sized.write_own {va : ℕ} {A : List UInt8} (h : Sized R m o d size) (hR : Manageable L R)
    (hlen : A.length ≤ 4096) (hown : A = [] ∨ OwnPage va (m.entry d (va / 4096))) :
    Sized R (m.write (P2V (PTE_ADDR (m.entry d (va / 4096)))) A) o d size ∧
      Extends d m o (m.write (P2V (PTE_ADDR (m.entry d (va / 4096)))) A) o := by
  rcases hown with rfl | ⟨hva,hp⟩
  · rw [write_nothing]
    exact ⟨h,Extends.refl d m o⟩
  · simp only [KERNBASE] at hva
    have hu := h.owns.entry_user h.directory (by omega) ((present_iff _).mp hp)
    rw [pte_addr (m.entry_lt d _),p2v_frame (h.owns.lt hR (by simp [hu])),← Nat.add_zero (page _)]
    obtain ⟨h',hs,hl⟩ := write_user (x := 0) (A := A) h.owns hR hu (by norm_num) (by omega)
    exact ⟨⟨h',h.directory,h.limit,h.maps⟩,Within.refl d o,hl,fun n _ h2 => hs d n h.directory h2⟩

theorem loadLoop_ok {addr offset memorySize fuel i : ℕ} {z : ℤ} (h : Sized R l.memory o d size)
    (hR : Manageable M.image.toLayout R)
    (he : loadLoop M f (page d) addr offset memorySize fuel l i = .ok (z,l')) :
    Sized R l'.memory o d size ∧ Extends d l.memory o l'.memory o ∧ Moved f l.files l'.files := by
  induction fuel generalizing l i with
  | zero => cases he
  | succ fuel ih =>
    rw [loadLoop] at he
    split at he
    swap
    · cases he
      exact ⟨h,Extends.refl _ _ _,Moved.refl _ _⟩
    dsimp only at he
    split at he
    · cases he
    rename_i hne
    rw [entry_of_lookup h.owns hR h.directory (Nat.mod_lt _ (by norm_num)) hne] at he
    have hn : (if memorySize - i < PGSIZE then memorySize - i else PGSIZE) ≤ PGSIZE := by
      split_ifs <;> omega
    generalize (if memorySize - i < PGSIZE then memorySize - i else PGSIZE) = n at he hn
    split at he
    · -- a section without bytes in the file is cleared
      split at he
      · rename_i hown
        obtain ⟨h1,hx1⟩ := h.write_own (A := List.replicate n 0) hR (by rw [List.length_replicate]; exact hn) (.inr hown)
        obtain ⟨h',hx',hm'⟩ := ih h1 he
        exact ⟨h',hx1.trans hx',hm'⟩
      · cases he
    · rw [bind_eq_ok] at he
      obtain ⟨⟨count,bytes,l1⟩,hr,he⟩ := he
      obtain ⟨hmem,hmoved,hlen⟩ := read_ok hr
      dsimp only at he
      split at he
      · cases he
      rename_i hown
      have hown' : bytes = [] ∨ OwnPage ((addr + i) % 2^32) (l.memory.entry d ((addr + i) % 2^32 / 4096)) := by
        by_contra hc
        exact hown ⟨fun h0 => hc (.inl h0),fun h0 => hc (.inr h0)⟩
      obtain ⟨h1,hx1⟩ := h.write_own hR (hlen.trans hn) hown'
      split at he
      · cases he
        rw [hmem]
        exact ⟨h1,hx1,hmoved⟩
      · rw [hmem] at he
        obtain ⟨h',hx',hm'⟩ := ih (l := { l1 with memory := l.memory.write _ bytes }) h1 he
        exact ⟨h',hx1.trans hx',hmoved.trans hm'⟩

theorem loadProgramSegment_ok {addr offset memorySize : ℕ} {z : ℤ} (h : Sized R l.memory o d size)
    (hR : Manageable M.image.toLayout R)
    (he : loadProgramSegmentIntoPageTable M f l (page d) addr offset memorySize = .ok (z,l')) :
    Sized R l'.memory o d size ∧ Extends d l.memory o l'.memory o ∧ Moved f l.files l'.files := by
  rw [loadProgramSegmentIntoPageTable] at he
  split at he
  · cases he
  · exact loadLoop_ok h hR he

theorem Sized.allocate {newsz r : ℕ} (h : Sized R m o d size) (hR : Manageable L R)
    (he : allocateMemoryAndPageTables L m (page d) size newsz = .ok (r,m')) :
    ∃ o', Extends d m o m' o' ∧ Sized R m' o' d (if r = 0 then size else r) ∧
      (r = 0 ∨ r = max size newsz ∧ newsz < KERNBASE ∧ ∀ k, size ≤ 4096 * k → 4096 * k < r → Open m' d k) := by
  have hb := h.limit
  by_cases hk : KERNBASE ≤ newsz
  · rw [allocateMemoryAndPageTables,if_pos hk] at he
    cases he
    exact ⟨o,Extends.refl d m o,by rwa [if_pos rfl],.inl rfl⟩
  by_cases hlt : newsz < size
  · rw [allocateMemoryAndPageTables,if_neg hk,if_pos hlt] at he
    cases he
    refine ⟨o,Extends.refl d m o,?_,.inr ⟨by omega,not_le.mp hk,?_⟩⟩
    · rwa [if_neg (by omega)]
    · intro k h1 h2
      omega
  have hround : ∀ k, 4096 * k < size ↔ k < (size + 4095) / 4096 := fun k => by omega
  have hext : ∀ {lo hi : ℕ} {o' : Owner}, hi ≤ KERNBASE → Within d o o' → Spares d lo hi m o m' o' →
      Extends d m o m' o' := by
    intro lo hi o' hhi hw hs
    exact ⟨hw,hs.outside,fun n h1 h2 => hs.keeps (D := {d}) hhi (by simp [h.directory]) d rfl n h1 h2⟩
  obtain ⟨o',h',hw,⟨rfl,hs,hfill,hm⟩ | ⟨rfl,hs,hm,-⟩⟩ :=
    h.owns.allocate_pages_spares hR h.directory (not_lt.mp hlt) (not_le.mp hk) he
  · refine ⟨o',hext (not_le.mp hk).le hw hs,⟨h',hs.directory h.directory,?_,fun k => ?_⟩,
      .inr ⟨by omega,not_le.mp hk,fun k h1 h2 => ?_⟩⟩
    · split_ifs <;> omega
    · rw [hm,h.maps]
      split_ifs <;> omega
    · obtain ⟨g,-,-,hent,-⟩ := hfill k (by omega) h2
      have h7 : m'.entry d k % 4096 = 7 := by
        rw [hent,entry_eq (by decide),Nat.mul_add_mod]
        decide
      exact ⟨by omega,(user_iff _).mpr (by omega)⟩
  · refine ⟨o',hext (not_le.mp hk).le hw hs,⟨h',hs.directory h.directory,?_,fun k => ?_⟩,.inl rfl⟩
    · rwa [if_pos rfl]
    · rw [hm,h.maps,if_pos rfl]
      omega

theorem loadSections_ok {k position : ℕ} {r : Loading} (h : Sized R l.memory o d size)
    (hR : Manageable M.image.toLayout R) (he : loadSections M f (page d) k l position size = .ok (r,l')) :
    Moved f l.files l'.files ∧ ∃ o' size', Extends d l.memory o l'.memory o' ∧ Sized R l'.memory o' d size' ∧
      ∀ n, r = .loaded n → n = size' := by
  induction k generalizing l o position size with
  | zero =>
    cases he
    refine ⟨Moved.refl _ _,o,size,Extends.refl d _ o,h,?_⟩
    rintro n ⟨⟩
    rfl
  | succ k ih =>
    rw [loadSections,bind_eq_ok] at he
    obtain ⟨⟨count,bytes,l1⟩,hr,he⟩ := he
    obtain ⟨hmem1,hmoved1,-⟩ := read_ok hr
    dsimp only at he
    split at he
    · cases he
      rw [hmem1]
      exact ⟨hmoved1,o,size,Extends.refl d _ o,h,fun n hn => by cases hn⟩
    rw [bind_eq_ok] at he
    obtain ⟨⟨size1,memory1⟩,hal,he⟩ := he
    rw [hmem1] at hal
    obtain ⟨o1,hext1,hs1,-⟩ := h.allocate hR hal
    dsimp only at he
    split at he
    · cases he
      exact ⟨hmoved1,o1,_,hext1,hs1,fun n hn => by cases hn⟩
    rename_i hnz
    rw [if_neg hnz] at hs1
    rw [bind_eq_ok] at he
    obtain ⟨⟨z,l2⟩,hload,he⟩ := he
    obtain ⟨hs2,hx2,hmoved2⟩ := loadProgramSegment_ok (l := { l1 with memory := memory1 }) hs1 hR hload
    have hext2 := hext1.trans hx2
    dsimp only at he
    split at he
    · cases he
      exact ⟨hmoved1.trans hmoved2,o1,size1,hext2,hs2,fun n hn => by cases hn⟩
    · obtain ⟨hmoved',o',size',hext',hs',hn⟩ := ih hs2 he
      exact ⟨(hmoved1.trans hmoved2).trans hmoved',o',size',hext2.trans hext',hs',hn⟩

end UoDOS.Kernel
