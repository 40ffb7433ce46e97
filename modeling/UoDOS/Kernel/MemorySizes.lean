import UoDOS.Kernel.AddressSpaces

/-! # Sizes and arguments

In every run the size of every process stays below `KERNBASE`.
-/
namespace UoDOS.Kernel
open ByteMemory Paging Processes FileSystem Strings ProcState References Results Transition

variable {M : Mounted} {s s' t : System} {p q : Fin NPROC} {f : Fin NFILE}

section Sizes

variable {L : Layout} {pgdir oldsz newsz r n a : ℕ} {m m' : Memory}

theorem allocateLoop_size (h : allocateLoop L pgdir oldsz newsz n m a = .ok (r,m')) : r = 0 ∨ r = newsz := by
  induction n generalizing m a with
  | zero => cases h
  | succ n ih =>
    rw [allocateLoop] at h
    split at h
    · dsimp only at h
      split at h
      · rw [bind_eq_ok] at h
        obtain ⟨x,-,h⟩ := h
        cases h
        exact .inl rfl
      · rw [bind_eq_ok] at h
        obtain ⟨⟨c,m1⟩,-,h⟩ := h
        dsimp only at h
        split at h
        · rw [bind_eq_ok] at h
          obtain ⟨x,-,h⟩ := h
          rw [bind_eq_ok] at h
          obtain ⟨m2,-,h⟩ := h
          cases h
          exact .inl rfl
        · exact ih h
    · cases h
      exact .inr rfl

theorem allocate_size (h : allocateMemoryAndPageTables L m pgdir oldsz newsz = .ok (r,m')) :
    r = 0 ∨ newsz < KERNBASE ∧ r = max oldsz newsz := by
  unfold allocateMemoryAndPageTables at h
  split_ifs at h with hk hlt
  · cases h
    exact .inl rfl
  · cases h
    exact .inr ⟨by omega,by omega⟩
  · rcases allocateLoop_size h with h0 | hr
    · exact .inl h0
    · exact .inr ⟨by omega,by omega⟩

theorem release_size (h : releaseUserPages L m pgdir oldsz newsz = .ok (r,m')) : r = min oldsz newsz := by
  unfold releaseUserPages at h
  split_ifs at h with hle
  · cases h
    omega
  · rw [bind_eq_ok] at h
    obtain ⟨m1,-,h⟩ := h
    cases h
    omega

end Sizes

def Bounded (s : System) : Prop := ∀ q, (s.image q).MemorySize < KERNBASE

theorem Bounded.same (h : Bounded s) (hs : SameSpaces s s') : Bounded s' := by
  intro q
  rw [(hs q).MemorySize]
  exact h q

theorem Bounded.setImage {x : Image} (h : Bounded s) (hx : x.MemorySize < KERNBASE) :
    Bounded (s.setImage p x) := by
  intro q
  rcases eq_or_ne q p with rfl | hq
  · simpa [System.setImage] using hx
  · simpa [System.setImage,hq] using h q

theorem Bounded.spawned {c : Fin NFILE} (h : Bounded s) (hsp : Spawned np c s s') : Bounded s' := by
  intro q
  rcases eq_or_ne q np with rfl | hq
  · rw [hsp.memorySize]
    exact h q
  · rw [hsp.image q hq]
    exact h q

theorem Bounded.fork {r : Option UInt32} (h : Bounded s) (hp : (s.table p).State ≠ UNUSED)
    (hd : fork M s p = .ok (r,s')) : Bounded s' := by
  cases fork_ends hd with
  | noStack ha =>
    intro q
    obtain ⟨k,hk⟩ := ha.image q
    rw [hk]
    exact h q
  | noMemory ha hc hf =>
    rename_i np c s1 m m'
    have h1 := h.spawned ha
    have h2 := h1.setImage (p := np) (x := { s1.image np with PageTable := 0, KernelStack := 0 }) (h1 np)
    exact h2
  | forked ha hc hpt hi =>
    obtain ⟨-,hcop⟩ := forkInto_ok (ha.ne hp) hi
    rename_i np c s1 pt m
    have h1 := h.spawned ha
    intro q
    rcases eq_or_ne q np with rfl | hq
    · rw [hcop.memorySize]
      exact h1 p
    · rw [hcop.image q hq]
      exact h1 q

theorem Bounded.wait {r : Option UInt32} (h : Bounded s) (hd : wait M s p = .ok (some (r,s'))) : Bounded s' := by
  rcases wait_ok hd with rfl | ⟨i,m,-,rfl⟩
  · exact h
  · have h1 := h.setImage (p := i) (x := { s.image i with
      KernelStack := 0
      Name := Function.update (s.image i).Name 0 0 }) (h i)
    exact h1

section Loading

theorem loadSections_size {pgdir k oldFilePosition memorySize S : ℕ} {l l' : Loader}
    (hs : memorySize < KERNBASE)
    (h : loadSections M f pgdir k l oldFilePosition memorySize = .ok (.loaded S,l')) : S < KERNBASE := by
  induction k generalizing l oldFilePosition memorySize with
  | zero =>
    cases h
    exact hs
  | succ k ih =>
    rw [loadSections,bind_eq_ok] at h
    obtain ⟨⟨count,bytes,l1⟩,-,h⟩ := h
    dsimp only at h
    split at h
    · cases h
    · rw [bind_eq_ok] at h
      obtain ⟨⟨size,m1⟩,hal,h⟩ := h
      dsimp only at h
      split at h
      · cases h
      · rename_i hne
        rw [bind_eq_ok] at h
        obtain ⟨⟨r,l2⟩,-,h⟩ := h
        dsimp only at h
        split at h
        · cases h
        · obtain ⟨hk,hmax⟩ := (allocate_size hal).resolve_left hne
          exact ih (by omega) h

theorem cleanupExec_image {pageTable : ℕ} (h : cleanupExec M f s pageTable = .ok s') : s'.image = s.image := by
  unfold cleanupExec at h
  split at h
  · exact (closeFile_ok h).2.1
  · rw [bind_eq_ok] at h
    obtain ⟨m,-,h⟩ := h
    have h1 := (closeFile_ok h).2.1
    exact h1

theorem addStack_size {x : Loaded} {r : Option Loaded} (hx : x.memorySize < KERNBASE) (h : addStack M f s x = .ok (r,s')) :
    s'.image = s.image ∧ ∀ y ∈ r, y.memorySize < KERNBASE := by
  rw [addStack,bind_eq_ok] at h
  obtain ⟨s1,hs1,h⟩ := h
  have him := (closeFile_ok hs1).2.1
  dsimp only at h
  rw [bind_eq_ok] at h
  obtain ⟨⟨S,m1⟩,hal,h⟩ := h
  dsimp only at h
  split at h
  · rw [bind_eq_ok] at h
    obtain ⟨s2,hs2,h⟩ := h
    cases h
    have h2 := cleanupExec_image hs2
    exact ⟨h2.trans him,by simp⟩
  · rename_i hne
    rw [bind_eq_ok] at h
    obtain ⟨m2,-,h⟩ := h
    cases h
    obtain ⟨hk,hmax⟩ := (allocate_size hal).resolve_left hne
    refine ⟨him,?_⟩
    rintro y ⟨⟩
    change S < KERNBASE
    have hlt : x.memorySize < 2^31 := hx
    have hround : PGROUNDUP x.memorySize = 4096 * ((x.memorySize + 4095) / 4096) := pgroundup_eq (by omega)
    rw [hround] at hmax hk
    simp only [PGSIZE,KERNBASE] at hmax hk ⊢
    omega

theorem loadImage_size {r : Option Loaded} (h : loadImage M f s = .ok (r,s')) :
    s'.image = s.image ∧ ∀ y ∈ r, y.memorySize < KERNBASE := by
  rw [loadImage,bind_eq_ok] at h
  obtain ⟨⟨header,l⟩,-,h⟩ := h
  -- a failure closes the executable, with or without the directory
  have hclose : ∀ {u u' : System}, closeFile M u f = .ok u' → u.image = s.image → u'.image = s.image :=
    fun hc hu => (closeFile_ok hc).2.1.trans hu
  dsimp only at h
  split at h
  · rw [bind_eq_ok] at h
    obtain ⟨s1,hs1,h⟩ := h
    cases h
    exact ⟨hclose hs1 rfl,by simp⟩
  · rw [bind_eq_ok] at h
    obtain ⟨⟨pgdir,m1⟩,-,h⟩ := h
    dsimp only at h
    split at h
    · rw [bind_eq_ok] at h
      obtain ⟨s1,hs1,h⟩ := h
      cases h
      exact ⟨hclose hs1 rfl,by simp⟩
    · rw [bind_eq_ok] at h
      obtain ⟨⟨r',l'⟩,hl,h⟩ := h
      dsimp only at h
      split at h
      · rw [bind_eq_ok] at h
        obtain ⟨s1,hs1,h⟩ := h
        cases h
        exact ⟨hclose hs1 rfl,by simp⟩
      · rw [bind_eq_ok] at h
        obtain ⟨s1,hs1,h⟩ := h
        cases h
        have h1 := cleanupExec_image hs1
        exact ⟨h1,by simp⟩
      · have h1 := addStack_size (loadSections_size (by decide) hl) h
        exact h1

end Loading

theorem Bounded.exec {path : CString} {argv : List CString} {junk : Bytes} {r : ℤ} (h : Bounded s)
    (hd : exec M s p path argv junk = .ok (r,s')) : Bounded s' := by
  rw [Kernel.exec,bind_eq_ok] at hd
  obtain ⟨⟨exeFile,files⟩,-,hd⟩ := hd
  dsimp only at hd
  split at hd
  · cases hd
    exact h
  · rw [bind_eq_ok] at hd
    obtain ⟨⟨x,s1⟩,hs1,hd⟩ := hd
    obtain ⟨him,hx⟩ := loadImage_size hs1
    have h1 : Bounded s1 := h.same (SameSpaces.of_image him)
    dsimp only at hd
    split at hd
    · cases hd
      exact h1
    · rename_i y
      rw [runImage,bind_eq_ok] at hd
      obtain ⟨⟨sp,m1⟩,-,hd⟩ := hd
      dsimp only at hd
      split at hd
      · rw [bind_eq_ok] at hd
        obtain ⟨s2,hs2,hd⟩ := hd
        cases hd
        have h2 := cleanupExec_image hs2
        exact h1.same (SameSpaces.of_image h2)
      · rw [bind_eq_ok] at hd
        obtain ⟨_,-,hd⟩ := hd
        rw [bind_eq_ok] at hd
        obtain ⟨m2,-,hd⟩ := hd
        cases hd
        intro q
        rcases eq_or_ne q p with rfl | hq
        · simpa [System.setImage] using hx y rfl
        · simpa [System.setImage,hq] using h1 q

theorem Bounded.growProcess {n : UInt32} {r : ℤ} (h : Bounded s) (hd : growProcess M s p n = .ok (r,s')) :
    Bounded s' := by
  have hp : (s.image p).MemorySize < KERNBASE := h p
  -- the size that has been computed is stored
  have hfinish : ∀ {m : Memory} {size : ℕ} {r : ℤ} {u : System}, size < KERNBASE →
      (do switchToUserVirtualMemory (({ s with memory := m }.setImage p
            { s.image p with MemorySize := size }).image p)
          .ok (0,{ s with memory := m }.setImage p { s.image p with MemorySize := size }) :
        Except Stop (ℤ × System)) = .ok (r,u) → Bounded u := by
    intro m size r u hsize hu
    rw [bind_eq_ok] at hu
    obtain ⟨_,-,hu⟩ := hu
    cases hu
    have h1 := h.setImage (p := p) (x := { s.image p with MemorySize := size }) hsize
    exact h1
  unfold Kernel.growProcess at hd
  dsimp only at hd
  split at hd
  · rw [bind_eq_ok] at hd
    obtain ⟨⟨size,m⟩,hal,hd⟩ := hd
    dsimp only at hd
    split at hd
    · cases hd
      exact h
    · rename_i hne
      obtain ⟨hk,hmax⟩ := (allocate_size hal).resolve_left hne
      exact hfinish (by omega) hd
  · split at hd
    · rw [bind_eq_ok] at hd
      obtain ⟨⟨size,m⟩,hrel,hd⟩ := hd
      dsimp only at hd
      split at hd
      · cases hd
        exact h
      · have hmin := release_size hrel
        exact hfinish (by omega) hd
    · exact hfinish hp hd

theorem Bounded.sys_sbrk {n : Option UInt32} {r : ℤ} (h : Bounded s) (hd : sys_sbrk M s p n = .ok (r,s')) :
    Bounded s' := by
  unfold Kernel.sys_sbrk at hd
  split at hd
  · cases hd
    exact h
  · dsimp only at hd
    rw [bind_eq_ok] at hd
    obtain ⟨⟨r1,s1⟩,hs1,hd⟩ := hd
    have h1 := h.growProcess hs1
    dsimp only at hd
    split_ifs at hd
    · cases hd
      exact h1
    · cases hd
      exact h1

theorem Bounded.boot {a b : ℕ} (h : Bounded s) (hd : initialiseFirstUserProcess M s a b = .ok s') :
    Bounded s' := by
  obtain ⟨p,c,s1,pt,m,m',hsp,-,rfl⟩ := first_ok hd
  have h1 := (h.spawned hsp).setImage (p := p) (x := { s1.image p with
    PageTable := pt
    MemorySize := PGSIZE
    Trapframe := firstTrapframe
    Name := safestrcpy (s1.image p).Name initcodeName.bytes 16
    Cwd := rootDirectory }) (by simp [PGSIZE,KERNBASE])
  exact h1

end UoDOS.Kernel
