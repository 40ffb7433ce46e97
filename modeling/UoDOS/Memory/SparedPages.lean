import UoDOS.Memory.AddressSpace

/-! # What an operation on one directory leaves alone

An operation that grows or shrinks the user half of a directory between two sizes takes pages
from the free list, or gives the pages of that range back to it.
-/
namespace UoDOS.Paging
open ByteMemory

variable {L : Layout} {R : ℕ → Prop} {m m' m'' : Memory} {o o' o'' : Owner} {d lo hi : ℕ}

def Movable (d : ℕ) (p : Place) : Prop := p = .free ∨ (∃ i, p = .table d i) ∨ ∃ i j, p = .user d i j

def Outside (d : ℕ) (o : Owner) (g : ℕ) : Prop := g ≠ d ∧ ¬ Movable d (o g)

def Leaves (d : ℕ) (o : Owner) (m m' : Memory) : Prop :=
  ∀ g, Outside d o g → ∀ j < 1024, m'.word g j = m.word g j

def Affected (d lo hi d' n : ℕ) : Prop := d' = d ∧ lo ≤ n ∧ 4096 * n < hi

def Spared (d lo hi : ℕ) (p : Place) : Prop :=
  p ≠ .free ∧ ∀ d' i j, p = .user d' i j → ¬ Affected d lo hi d' (1024 * i + j)

structure Spares (d lo hi : ℕ) (m : Memory) (o : Owner) (m' : Memory) (o' : Owner) : Prop where
  owners : ∀ f, Spared d lo hi (o f) → o' f = o f
  entries : ∀ d' k, o d' = .directory → k < 2^20 → ¬ Affected d lo hi d' k → m'.entry d' k = m.entry d' k
  words : ∀ f d' i j, o f = .user d' i j → ¬ Affected d lo hi d' (1024 * i + j) →
    ∀ k < 1024, m'.word f k = m.word f k
  outside : Leaves d o m m'

theorem Outside.not_free {g : ℕ} (h : Outside d o g) : o g ≠ .free := fun he => h.2 (.inl he)

theorem Outside.spared {g : ℕ} (h : Outside d o g) : Spared d lo hi (o g) :=
  ⟨h.not_free,fun _ i j hu ha => h.2 (.inr (.inr ⟨i,j,ha.1 ▸ hu⟩))⟩

theorem spared_directory : Spared d lo hi .directory := by simp [Spared]

theorem spared_user {d' i j : ℕ} : Spared d lo hi (.user d' i j) ↔ ¬ Affected d lo hi d' (1024 * i + j) := by
  simp only [Spared,ne_eq,reduceCtorEq,not_false_eq_true,Place.user.injEq,true_and]
  constructor
  · intro h
    exact h d' i j ⟨rfl,rfl,rfl⟩
  · rintro h _ _ _ ⟨rfl,rfl,rfl⟩
    exact h

namespace Spares

theorem refl (d lo hi : ℕ) (m : Memory) (o : Owner) : Spares d lo hi m o m o :=
  ⟨fun _ _ => rfl,fun _ _ _ _ _ => rfl,fun _ _ _ _ _ _ _ _ => rfl,fun _ _ _ _ => rfl⟩

theorem trans (h : Spares d lo hi m o m' o') (h' : Spares d lo hi m' o' m'' o'') :
    Spares d lo hi m o m'' o'' := by
  refine ⟨fun f hf => ?_,fun d' k hd hk hn => ?_,fun f d' i j hf hn k hk => ?_,fun g hg j hj => ?_⟩
  · have he := h.owners f hf
    rw [h'.owners f (by rwa [he]),he]
  · have he := h.owners d' (by rw [hd]; exact spared_directory)
    rw [h'.entries d' k (he.trans hd) hk hn,h.entries d' k hd hk hn]
  · have he := h.owners f (by rw [hf]; exact spared_user.mpr hn)
    rw [h'.words f d' i j (he.trans hf) hn k hk,h.words f d' i j hf hn k hk]
  · have he := h.owners g hg.spared
    rw [h'.outside g (by rwa [Outside,he]) j hj,h.outside g hg j hj]

theorem widen {lo' hi' : ℕ} (h : Spares d lo hi m o m' o')
    (hw : ∀ n, lo ≤ n → 4096 * n < hi → lo' ≤ n ∧ 4096 * n < hi') : Spares d lo' hi' m o m' o' := by
  have ha : ∀ d' n, Affected d lo hi d' n → Affected d lo' hi' d' n :=
    fun d' n ha => ⟨ha.1,hw n ha.2.1 ha.2.2⟩
  exact ⟨fun f hf => h.owners f ⟨hf.1,fun d' i j hu hn => hf.2 d' i j hu (ha _ _ hn)⟩,
    fun d' k hd hk hn => h.entries d' k hd hk (fun hc => hn (ha _ _ hc)),
    fun f d' i j hf hn => h.words f d' i j hf (fun hc => hn (ha _ _ hc)),h.outside⟩

theorem mono {lo' : ℕ} (h : Spares d lo hi m o m' o') (hlo : lo' ≤ lo) : Spares d lo' hi m o m' o' :=
  h.widen (fun n h1 h2 => ⟨by omega,h2⟩)

theorem directory {d' : ℕ} (h : Spares d lo hi m o m' o') (hd : o d' = .directory) : o' d' = .directory :=
  (h.owners d' (by rw [hd]; exact spared_directory)).trans hd

theorem keeps (h : Spares d lo hi m o m' o') (hhi : hi ≤ KERNBASE) {D : Set ℕ}
    (hD : ∀ d ∈ D, o d = .directory) : Keeps D m m' := by
  intro d' hd n h1 h2
  apply h.entries d' n (hD d' hd) h2
  rintro ⟨-,-,ha⟩
  simp only [KERNBASE] at hhi
  omega

end Spares

theorem Owns.spares_loose (h : Owns R m o) (ho : ∀ f, Spared d lo hi (o f) → o' f = o f)
    (hw : ∀ g j, j < 1024 → o g ≠ .free → m'.word g j = m.word g j) :
    Spares d lo hi m o m' o' := by
  refine ⟨ho,fun d' k hd hk _ => ?_,fun f d' i j hf _ k hk => hw f k hk (by simp [hf]),
    fun g hg j hj => hw g j hj hg.not_free⟩
  apply h.entry_congr hd hk
  · exact hw d' _ (by omega) (by simp [hd])
  · intro t ht
    exact hw t _ (Nat.mod_lt _ (by norm_num)) (by simp [ht])

theorem Owns.spares_entries (h : Owns R m o) (hdir : o d = .directory)
    (ho : ∀ f, Spared d lo hi (o f) → o' f = o f)
    (hd : ∀ k < 2^20, ¬ Affected d lo hi d k → m'.entry d k = m.entry d k)
    (hw : ∀ g j, j < 1024 → Spared d lo hi (o g) → g ≠ d → (∀ i, o g ≠ .table d i) →
      m'.word g j = m.word g j) : Spares d lo hi m o m' o' := by
  refine ⟨ho,fun d' k hd' hk hn => ?_,fun f d' i j hf hn k hk => ?_,
    fun g hg j hj => hw g j hj hg.spared hg.1 (fun i hi => hg.2 (.inr (.inl ⟨i,hi⟩)))⟩
  · by_cases hdd : d' = d
    · subst hdd
      exact hd k hk hn
    · apply h.entry_congr hd' hk
      · exact hw d' _ (by omega) (by rw [hd']; exact spared_directory) hdd (by simp [hd'])
      · intro t ht
        refine hw t _ (Nat.mod_lt _ (by norm_num)) (by rw [ht]; simp [Spared]) ?_ (by simp [ht,hdd])
        rintro rfl
        simp [hdir] at ht
  · refine hw f k hk (by rw [hf]; exact spared_user.mpr hn) ?_ (by simp [hf])
    rintro rfl
    simp [hdir] at hf

structure Others (d : ℕ) (m : Memory) (o : Owner) (m' : Memory) (o' : Owner) : Prop where
  directories : ∀ e, o e = .directory → e ≠ d → o' e = .directory
  users : ∀ f e i j, o f = .user e i j → e ≠ d → o' f = .user e i j
  entries : ∀ e k, o e = .directory → e ≠ d → k < 2^20 → m'.entry e k = m.entry e k
  words : ∀ f e i j, o f = .user e i j → e ≠ d → ∀ k < 1024, m'.word f k = m.word f k

theorem Others.refl (d : ℕ) (m : Memory) (o : Owner) : Others d m o m o :=
  ⟨fun _ he _ => he,fun _ _ _ _ hf _ => hf,fun _ _ _ _ _ => rfl,fun _ _ _ _ _ _ _ _ => rfl⟩

theorem Others.trans (h : Others d m o m' o') (h' : Others d m' o' m'' o'') : Others d m o m'' o'' := by
  refine ⟨fun e he hn => ?_,fun f e i j hf hn => ?_,fun e k he hn hk => ?_,fun f e i j hf hn k hk => ?_⟩
  · exact h'.directories e (h.directories e he hn) hn
  · exact h'.users f e i j (h.users f e i j hf hn) hn
  · rw [h'.entries e k (h.directories e he hn) hn hk,h.entries e k he hn hk]
  · rw [h'.words f e i j (h.users f e i j hf hn) hn k hk,h.words f e i j hf hn k hk]

theorem Spares.others (h : Spares d lo hi m o m' o') : Others d m o m' o' := by
  have hna : ∀ e k, e ≠ d → ¬ Affected d lo hi e k := fun e k hn ha => hn ha.1
  refine ⟨fun e he _ => h.directory he,fun f e i j hf hn => ?_,fun e k he hn hk => ?_,fun f e i j hf hn => ?_⟩
  · rw [h.owners f (by rw [hf]; exact spared_user.mpr (hna e _ hn)),hf]
  · exact h.entries e k he hk (hna e k hn)
  · exact h.words f e i j hf (hna e _ hn)

theorem Owns.others_held (h : Owns R m o) (ho : ∀ f, o f ≠ .held → o' f = o f)
    (hw : ∀ g j, j < 1024 → o g ≠ .held → m'.word g j = m.word g j) : Others d m o m' o' := by
  refine ⟨fun e he _ => ?_,fun f e i j hf _ => ?_,fun e k he _ hk => ?_,fun f e i j hf _ k hk => ?_⟩
  · rw [ho e (by simp [he]),he]
  · rw [ho f (by simp [hf]),hf]
  · apply h.entry_congr he hk
    · exact hw e _ (by omega) (by simp [he])
    · intro t ht
      exact hw t _ (Nat.mod_lt _ (by norm_num)) (by simp [ht])
  · exact hw f k hk (by simp [hf])

theorem Others.keeps (h : Others d m o m' o') {D : Set ℕ} (hD : ∀ e ∈ D, o e = .directory) (hd : d ∉ D) :
    Keeps D m m' := by
  intro e he n _ h2
  exact h.entries e n (hD e he) (fun hc => hd (hc ▸ he)) h2

end UoDOS.Paging
