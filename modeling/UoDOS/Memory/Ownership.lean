import UoDOS.Memory.Frames

/-! # Who owns a page

The abstract state of physical memory assigns each frame its place: on the free list, held by
the running operation, a page directory, a page table of one directory entry, or the frame of
one entry in the user half.
-/
namespace UoDOS.Paging
open ByteMemory Function

inductive Place
  | foreign
  | free
  | held
  | directory
  | table (d i : ℕ)
  | user (d i j : ℕ)
  deriving DecidableEq

abbrev Owner := ℕ → Place

def FreeChain (m : Memory) : ℕ → List ℕ → Prop
  | v, [] => v = 0
  | v, f :: F => v = page f ∧ FreeChain m (m.word f 0) F

theorem FreeChain.congr {m m' : Memory} {v : ℕ} {F : List ℕ} (h : FreeChain m v F)
    (hw : ∀ f ∈ F, m'.word f 0 = m.word f 0) : FreeChain m' v F := by
  induction F generalizing v with
  | nil => exact h
  | cons f F ih =>
    refine ⟨h.1,?_⟩
    rw [hw f (by simp)]
    exact ih h.2 (fun g hg => hw g (by simp [hg]))

def Manageable (L : Layout) (R : ℕ → Prop) : Prop := ∀ f, R f → L.kernelEnd ≤ page f ∧ 4096 * f < PHYSTOP

/-- The two levels of all page directories, over the words of the frames. -/
structure Tree (w : ℕ → ℕ → ℕ) (o : Owner) : Prop where
  table : ∀ t d i, o t = .table d i ↔ o d = .directory ∧ i < 1024 ∧ w d i % 2 = 1 ∧ w d i / 4096 = t
  user : ∀ f d i j, o f = .user d i j ↔
    ∃ t, o t = .table d i ∧ i < 512 ∧ j < 1024 ∧ w t j % 2 = 1 ∧ w t j / 4096 = f

structure Owns (R : ℕ → Prop) (m : Memory) (o : Owner) : Prop where
  foreign : ∀ f, o f = .foreign ↔ ¬ R f
  free : ∃ F, FreeChain m m.FreeList F ∧ F.Nodup ∧ ∀ f, f ∈ F ↔ o f = .free
  tree : Tree m.word o

section Trees
variable {w w' : ℕ → ℕ → ℕ} {o : Owner}

theorem Tree.table_unique (h : Tree w o) {d i t t' : ℕ} (ht : o t = .table d i) (ht' : o t' = .table d i) :
    t = t' :=
  ((h.table _ _ _).mp ht).2.2.2.symm.trans ((h.table _ _ _).mp ht').2.2.2

theorem Tree.congr (h : Tree w o) (hdir : ∀ d i, o d = .directory → i < 1024 → w' d i = w d i)
    (htab : ∀ t d i j, o t = .table d i → j < 1024 → w' t j = w t j) : Tree w' o := by
  refine ⟨fun t d i => ?_,fun f d i j => ?_⟩
  · rw [h.table]
    refine and_congr_right (fun hd => and_congr_right (fun hi => ?_))
    rw [hdir d i hd hi]
  · rw [h.user]
    refine exists_congr (fun t => and_congr_right (fun ht => and_congr_right (fun _ =>
      and_congr_right (fun hj => ?_))))
    rw [htab t d i j ht hj]

theorem Tree.congr_frames (h : Tree w o)
    (hw : ∀ g j, j < 1024 → w' g j % 2 = w g j % 2 ∧ w' g j / 4096 = w g j / 4096) : Tree w' o := by
  refine ⟨fun t d i => ?_,fun f d i j => ?_⟩
  · rw [h.table]
    refine and_congr_right (fun hd => and_congr_right (fun hi => ?_))
    rw [(hw d i hi).1,(hw d i hi).2]
  · rw [h.user]
    refine exists_congr (fun t => and_congr_right (fun ht => and_congr_right (fun _ =>
      and_congr_right (fun hj => ?_))))
    rw [(hw t j hj).1,(hw t j hj).2]

def Place.Loose (p : Place) : Prop := p = .free ∨ p = .held

theorem Tree.relabel (h : Tree w o) {f : ℕ} {p : Place} (hf : (o f).Loose) (hp : p.Loose) :
    Tree w (update o f p) := by
  have key : ∀ g q, ¬ q.Loose → (update o f p g = q ↔ o g = q) := by
    intro g q hq
    by_cases hg : g = f
    · subst hg
      simp only [update_self]
      exact ⟨fun he => absurd (he ▸ hp) hq,fun he => absurd (he ▸ hf) hq⟩
    · simp [hg]
  refine ⟨fun t d i => ?_,fun g d i j => ?_⟩
  · rw [key t _ (by simp [Place.Loose]),key d _ (by simp [Place.Loose]),h.table]
  · rw [key g _ (by simp [Place.Loose]),h.user]
    exact exists_congr (fun t => and_congr_left (fun _ => (key t _ (by simp [Place.Loose])).symm))

theorem Tree.new_directory (h : Tree w o) {d : ℕ} (hd : o d = .held) (hz : ∀ i, i < 1024 → w d i = 0) :
    Tree w (update o d .directory) := by
  refine ⟨fun t d' i => ?_,fun f d' i j => ?_⟩
  · have := h.table t d' i
    by_cases ht : t = d
    · subst ht
      grind
    · grind
  · have := h.user f d' i j
    grind

theorem Tree.install_table (h : Tree w o) {d i t : ℕ} (hd : o d = .directory) (hi : i < 1024)
    (he : w d i % 2 ≠ 1) (ht : o t = .held) (hz : ∀ j, j < 1024 → w t j = 0)
    (hw : ∀ g k, k < 1024 → ¬ (g = d ∧ k = i) → w' g k = w g k) (hp : w' d i % 2 = 1)
    (hf : w' d i / 4096 = t) : Tree w' (update o t (.table d i)) := by
  have hdt : d ≠ t := by rintro rfl; simp [hd] at ht
  refine ⟨fun t' d' i' => ?_,fun f d' i' j => ?_⟩
  · have h1 := h.table t' d' i'
    have h2 := h.table t d' i'
    have h3 := h.table t' d i
    have h4 := hw d' i'
    grind
  · have h1 := h.user f d' i' j
    have h2 := h.user t d' i' j
    have h3 : ∀ t', o t' = .table d' i' → t' ≠ d := by rintro t' ht' rfl; simp [hd] at ht'
    have h4 : ∀ t', t' ≠ d → j < 1024 → w' t' j = w t' j := fun t' hne hj => hw t' j hj (by tauto)
    grind

theorem Tree.install_user (h : Tree w o) {d i j t f : ℕ} (ht : o t = .table d i) (hi : i < 512)
    (hj : j < 1024) (he : w t j % 2 ≠ 1) (hf : o f = .held)
    (hw : ∀ g k, k < 1024 → ¬ (g = t ∧ k = j) → w' g k = w g k) (hp : w' t j % 2 = 1)
    (hq : w' t j / 4096 = f) : Tree w' (update o f (.user d i j)) := by
  have hne : ∀ d', o d' = .directory → d' ≠ t := by rintro d' hd' rfl; simp [ht] at hd'
  have hone : ∀ d' i', o t = .table d' i' → d' = d ∧ i' = i := by grind
  have hft : f ≠ t := by rintro rfl; simp [ht] at hf
  refine ⟨fun t' d' i' => ?_,fun f' d' i' j' => ?_⟩
  · have h1 := h.table t' d' i'
    have h2 := hw d' i'
    have h3 := hne d'
    grind
  · have h1 := h.user f' d' i' j'
    have h2 := h.user f d' i' j'
    have h3 := h.user f' d i j
    have h4 : ∀ t', ¬ (t' = t ∧ j' = j) → j' < 1024 → w' t' j' = w t' j' := fun t' hn hj' => hw t' j' hj' hn
    have h5 : ∀ t', o t' = .table d i → t' = t := fun t' ht' => h.table_unique ht' ht
    grind

theorem Tree.write_kernel (h : Tree w o) {d i j t : ℕ} (ht : o t = .table d i) (hi : 512 ≤ i)
    (hw : ∀ g k, k < 1024 → ¬ (g = t ∧ k = j) → w' g k = w g k) : Tree w' o := by
  have hne : ∀ d', o d' = .directory → d' ≠ t := by rintro d' hd' rfl; simp [ht] at hd'
  refine ⟨fun t' d' i' => ?_,fun f d' i' j' => ?_⟩
  · have h1 := h.table t' d' i'
    have h2 := hw d' i'
    have h3 := hne d'
    grind
  · have h1 := h.user f d' i' j'
    have h4 : ∀ t', ¬ (t' = t ∧ j' = j) → j' < 1024 → w' t' j' = w t' j' := fun t' hn hj' => hw t' j' hj' hn
    grind

theorem Tree.remove_user (h : Tree w o) {d i j t f : ℕ} {p : Place} (ht : o t = .table d i)
    (hf : o f = .user d i j) (hp : p.Loose)
    (hw : ∀ g k, k < 1024 → g ≠ f → ¬ (g = t ∧ k = j) → w' g k = w g k) (hz : w' t j % 2 ≠ 1) :
    Tree w' (update o f p) := by
  have hne : ∀ d', o d' = .directory → d' ≠ t ∧ d' ≠ f := by grind
  have hone : ∀ t', o t' = .table d i → t' = t := fun t' ht' => h.table_unique ht' ht
  have hpl : p = .free ∨ p = .held := hp
  have hfj : w t j / 4096 = f := by
    obtain ⟨t',ht',-,-,-,hq⟩ := (h.user f d i j).mp hf
    rw [← hone t' ht']
    exact hq
  refine ⟨fun t' d' i' => ?_,fun f' d' i' j' => ?_⟩
  · have h1 := h.table t' d' i'
    have h2 := hw d' i'
    have h3 := hne d'
    have h4 := h.table f d' i'
    grind
  · have h1 := h.user f' d' i' j'
    have h2 : ∀ t', t' ≠ f → ¬ (t' = t ∧ j' = j) → j' < 1024 → w' t' j' = w t' j' :=
      fun t' hn hn' hj' => hw t' j' hj' hn hn'
    have h3 : ∀ d' i', o t = .table d' i' → d' = d ∧ i' = i := by grind
    grind

def detached (d : ℕ) (o : Owner) : Owner := fun f =>
  match o f with
  | .directory => if f = d then .held else .directory
  | .table d' i => if d' = d then .held else .table d' i
  | p => p

theorem detached_directory {d f : ℕ} : detached d o f = .directory ↔ o f = .directory ∧ f ≠ d := by
  unfold detached
  split <;> grind

theorem detached_table {d f d' i : ℕ} : detached d o f = .table d' i ↔ o f = .table d' i ∧ d' ≠ d := by
  unfold detached
  split <;> grind

theorem detached_user {d f d' i j : ℕ} : detached d o f = .user d' i j ↔ o f = .user d' i j := by
  unfold detached
  split <;> grind

theorem detached_held {d f : ℕ} :
    detached d o f = .held ↔ o f = .held ∨ (o f = .directory ∧ f = d) ∨ ∃ i, o f = .table d i := by
  unfold detached
  split <;> grind

theorem detached_free {d f : ℕ} : detached d o f = .free ↔ o f = .free := by
  unfold detached
  split <;> grind

theorem detached_foreign {d f : ℕ} : detached d o f = .foreign ↔ o f = .foreign := by
  unfold detached
  split <;> grind

theorem Tree.detach (h : Tree w o) {d : ℕ} (hu : ∀ f i j, o f ≠ .user d i j) : Tree w (detached d o) := by
  refine ⟨fun t d' i => ?_,fun f d' i j => ?_⟩
  · rw [detached_table,detached_directory,h.table]
    tauto
  · have h1 := h.user f d' i j
    have h2 := hu f i j
    simp only [detached_user,detached_table]
    grind

end Trees

end UoDOS.Paging
