import UoDOS.Pipe.PipeLifetimeSteps

/-! # Descriptors of a new process

fork fills in the descriptors of a process that nobody else looks at. What it
overwrites there are consoles.
-/
namespace UoDOS.PipeLifetime
open FileSystem References Function

variable {s s' : System} {t : FileTable} {p np : Fin NPROC} {fd : Fin NOFILE} {f c : Fin NFILE} {i : ℕ}
  {choice : Bool}

namespace Inv

theorem fill {x : Control} {k : Fin NPROC × Fin NOFILE} (h : Inv s) (hp : s.status p = .live)
    (hb : (s.control p).builds = some np) (hd : (s.control p).due = 0) (hk : slots s.OpenFile k = some f)
    (hfd : ∀ g, s.OpenFile np fd = some g → (s.files g).type = .FD_DEVICE)
    (ht : fileDup s.files f = .ok t) (hxb : x.builds = some np) (hxd : x.due = 0)
    (hx : Fits t (update s.OpenFile np (update (s.OpenFile np) fd (some f))) p x) :
    Inv (({ s with files := t }.setOpenFile np fd (some f)).goto p x) := by
  have hcounted := h.counted_at p
  have hended := h.ended_at p
  rw [hd] at hcounted hended
  refine h.advance hp (by rw [hb,hxb]) ?_ (fun g _ _ => .inl (fileDup_same ht g)) ?_ ?_ hx
  · intro q _ hq
    rw [hb] at hq
    simp only [System.setOpenFile]
    rw [update_of_ne (fun he => hq (by rw [he]))]
  · rw [hxd]
    simp only [System.setOpenFile,slots_update]
    refine (hcounted.dup hk ht).give ?_ ?_
    · rw [(fileDup_same ht f).1]
      exact h.counted.named k f hk
    · intro g hg
      rw [(fileDup_same ht g).1]
      exact hfd g hg
  · rw [hxd]
    exact (hended.cons_close (fileDup_same ht) f).of_cons_close

theorem opening (h : Inv s) (hc : s.control p = .opening np) (hr : run s p choice = some s') : Inv s' := by
  have hp := h.busy p (by simp [hc])
  have hb : (s.control p).builds = some np := by rw [hc]; rfl
  have hd : (s.control p).due = 0 := by rw [hc]; rfl
  have hblank : Blank s.files (s.OpenFile np) 0 := by
    have hfit := h.fits p
    rwa [hc] at hfit
  simp only [run,hc] at hr
  split_ifs at hr
  · split at hr
    · rename_i c files ha
      cases hr
      have hcounted := h.counted_at p
      have hended := h.ended_at p
      rw [hd] at hcounted hended
      have hz := (counts_allocate ha).1
      have hn := h.allocated_type ha
      -- no File that was in use changes
      have hs : ∀ g, 0 < counts s.files g →
          Same (s.files g) (update files c (consoleFile (files c)) g) := by
        intro g hg
        have hne : g ≠ c := by
          rintro rfl
          omega
        rw [update_of_ne hne]
        exact allocateFileStructure_same ha g
      have hdev : ∀ g, slots s.OpenFile (np,stdin) = some g →
          (update files c (consoleFile (files c)) g).type = .FD_DEVICE := by
        intro g hg
        rw [(hs g (h.counted.pos_of_slot hg)).1]
        exact hblank stdin g (Nat.zero_le _) hg
      refine h.advance hp (by rw [hb]; rfl) ?_ (fun g hg _ => .inl (hs g hg)) ?_ ?_ ?_
      · intro q _ hq
        rw [hb] at hq
        simp only [System.setOpenFile]
        rw [update_of_ne (fun he => hq (by rw [he]))]
      · simp only [System.setOpenFile,slots_update]
        have htyped := (hcounted.allocate ha).retype (x := consoleFile (files c)) (by simp) hn rfl
          (by simp [consoleFile])
        exact htyped.give (by simp [consoleFile]) hdev
      · exact ((hended.cons_close (allocateFileStructure_same ha) c).of_cons_close).retype (by simp [hn])
          (by simp [consoleFile])
      · refine ⟨by simp [System.setOpenFile],?_⟩
        intro fd g _ hg
        simp only [System.setOpenFile,update_self] at hg
        rcases eq_or_ne fd stdin with rfl | hne
        · rw [update_self] at hg
          cases hg
          simp [System.setOpenFile,consoleFile]
        · rw [update_of_ne hne] at hg
          have hpos : 0 < counts s.files g := h.counted.pos_of_slot (k := (np,fd)) hg
          simp only [System.setOpenFile]
          rw [(hs g hpos).1]
          exact hblank fd g (Nat.zero_le _) hg
    · cases hr
  · cases hr
    exact h.settle hp hd (.inl ⟨h.embryo p np hb,hb⟩) (fun _ => hblank) (fun hx => by cases hx)

theorem sharing (h : Inv s) (hc : s.control p = .sharing np c fd) (hr : run s p choice = some s') : Inv s' := by
  have hp := h.busy p (by simp [hc])
  obtain ⟨hstdin,hblank⟩ : s.OpenFile np stdin = some c ∧ Blank s.files (s.OpenFile np) 0 := by
    have hfit := h.fits p
    rwa [hc] at hfit
  simp only [run,hc] at hr
  split at hr
  · rename_i files hd
    cases hr
    have hblank' : Blank files
        (update s.OpenFile np (update (s.OpenFile np) fd (some c)) np) 0 := by
      intro j g _ hg
      rw [(fileDup_same hd g).1]
      rw [update_self] at hg
      rcases eq_or_ne j fd with rfl | hne
      · rw [update_self] at hg
        cases hg
        exact hblank stdin c (Nat.zero_le _) hstdin
      · rw [update_of_ne hne] at hg
        exact hblank j g (Nat.zero_le _) hg
    refine h.fill (k := (np,stdin)) hp (by rw [hc]; rfl) (by rw [hc]; rfl) hstdin
      (fun g hg => hblank fd g (Nat.zero_le _) hg) hd ?_ ?_ ?_
    · split_ifs <;> rfl
    · split_ifs <;> rfl
    · split_ifs with hfd
      · refine ⟨?_,hblank'⟩
        rw [update_self,update_of_ne (by rw [hfd]; decide),hstdin]
      · exact hblank'
  · cases hr

theorem copying (h : Inv s) (hc : s.control p = .copying np) (hr : run s p choice = some s') : Inv s' := by
  have hp := h.busy p (by simp [hc])
  have hb : (s.control p).builds = some np := by rw [hc]; rfl
  have hblank : Blank s.files (s.OpenFile np) 0 := by
    have hfit := h.fits p
    rwa [hc] at hfit
  simp only [run,hc] at hr
  split_ifs at hr
  · cases hr
    exact h.move hp (by rw [hc]; rfl) (by rw [hc]; rfl) hblank
  · cases hr
    exact h.settle hp (by rw [hc]; rfl) (.inl ⟨h.embryo p np hb,hb⟩) (fun _ => hblank) (fun hx => by cases hx)

theorem duplicating (h : Inv s) (hc : s.control p = .duplicating np i) (hr : run s p choice = some s') :
    Inv s' := by
  have hp := h.busy p (by simp [hc])
  have hb : (s.control p).builds = some np := by rw [hc]; rfl
  have hblank : Blank s.files (s.OpenFile np) i := by
    have hfit := h.fits p
    rwa [hc] at hfit
  simp only [run,hc] at hr
  split_ifs at hr with hi
  · split at hr
    · rename_i f hf
      split at hr
      · rename_i files hd
        cases hr
        refine h.fill (k := (p,⟨i,hi⟩)) hp hb (by rw [hc]; rfl) hf
          (fun g hg => hblank ⟨i,hi⟩ g le_rfl hg) hd rfl rfl ?_
        intro j g hj hg
        have hne : j ≠ ⟨i,hi⟩ := by
          rintro rfl
          simp at hj
        rw [update_self,update_of_ne hne] at hg
        rw [(fileDup_same hd g).1]
        exact hblank j g (by omega) hg
      · cases hr
    · cases hr
      refine h.move hp (by rw [hc]; rfl) (by rw [hc]; rfl) ?_
      intro j g hj hg
      exact hblank j g (by omega) hg
  · cases hr
    exact h.settle hp (by rw [hc]; rfl) (.inl ⟨h.embryo p np hb,hb⟩) (fun hx => by cases hx)
      (fun hx => by cases hx)

end Inv

end UoDOS.PipeLifetime
