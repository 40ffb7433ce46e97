import UoDOS.FileSystem.ObservedResults
import UoDOS.FileSystem.SubDirectory

/-! # The search of the root directory

fsFat12FindInRootDirectory gives the first entry in use that has the converted name, in
the order of the disk, and holds the buffer of a sector only while it looks at it.
-/
namespace UoDOS.FileSystem
open ByteMemory Strings Traces

variable {M : Mounted}

def rootEntries (M : Mounted) : List DirectoryEntry :=
  (List.range M.volume.mount.NumRootEntries).map
    (fun k => entryAt (M.disk (M.volume.mount.RootOffset + k / 16)) (k % 16))

local instance entry_size : NeZero 32 := ⟨by decide⟩

def Matches (name : CString) (junk : Bytes) (e : DirectoryEntry) : Prop :=
  e.bytes 0 ≠ 0 ∧ ∀ j : Fin 11, e.name j = toDosFileName name junk 11 j

instance (name : CString) (junk : Bytes) (e : DirectoryEntry) : Decidable (Matches name junk e) :=
  inferInstanceAs (Decidable (_ ∧ _))

def InRoot (v : Volume) (s : ℕ) : Prop := v.mount.RootOffset ≤ s ∧ s < v.mount.RootOffset + v.mount.RootSize

theorem findSome_blocks {α : Type} (q : ℕ → ℕ → Bool) (g : ℕ → ℕ → α) (n : ℕ) :
    (List.range n).findSome? (fun s => ((List.range 16).find? (q s)).map (g s)) =
      ((List.range (16 * n)).find? (fun k => q (k / 16) (k % 16))).map (fun k => g (k / 16) (k % 16)) := by
  induction n with
  | zero => rfl
  | succ n ih =>
    have hblock : ∀ i ∈ List.range 16, (16 * n + i) / 16 = n ∧ (16 * n + i) % 16 = i := by
      intro i hi
      have := List.mem_range.mp hi
      omega
    have hlast : ((List.range 16).map (16 * n + ·)).find? (fun k => q (k / 16) (k % 16)) =
        ((List.range 16).find? (q n)).map (16 * n + ·) := by
      rw [List.find?_map]
      congr 1
      apply List.find?_congr
      intro i hi
      obtain ⟨h1,h2⟩ := hblock i hi
      simp only [Function.comp_apply,h1,h2]
    rw [List.range_succ (n := n),List.findSome?_append,ih,show 16 * (n + 1) = 16 * n + 16 by ring,List.range_add,
      List.find?_append,hlast]
    cases (List.range (16 * n)).find? (fun k => q (k / 16) (k % 16)) with
    | some k => rfl
    | none =>
      cases hl : (List.range 16).find? (q n) with
      | none => simp [hl]
      | some i =>
        obtain ⟨h1,h2⟩ := hblock i (List.mem_of_find?_eq_some hl)
        simp [hl,h1,h2]

theorem test_iff (name : CString) (junk buf : Bytes) (i : ℕ) :
    buf (32 * i) ≠ 0 ∧ strcmp (dosFileName name junk) (entryName buf i) = 0 ↔ Matches name junk (entryAt buf i) := by
  rw [strcmp_comm,entryName,strcmp_dosFileName]
  exact and_congr Iff.rfl ⟨fun h j => h j j.isLt,fun h j hj => h ⟨j,hj⟩⟩

theorem rootSize_eq (v : Volume) : v.mount.RootSize = v.mount.NumRootEntries / 16 := by
  rw [v.mounted,mountInfo,v.sector_size]
  change v.Bpb.NumDirEntries.toNat * 32 / 512 = v.Bpb.NumDirEntries.toNat / 16
  omega

theorem rootMatch_find (name : CString) (junk : Bytes) (h16 : 16 ∣ M.volume.mount.NumRootEntries) :
    (List.range (M.volume.mount.NumRootEntries / 16)).findSome? (rootMatch M (dosFileName name junk)) =
      (rootEntries M).find? (fun e => Matches name junk e) := by
  have hroot := M.volume.root_lt
  have hsize := rootSize_eq M.volume
  have hsector : ∀ s ∈ List.range (M.volume.mount.NumRootEntries / 16), rootMatch M (dosFileName name junk) s =
      ((List.range 16).find? (fun i => decide (Matches name junk
        (entryAt (M.disk (M.volume.mount.RootOffset + s)) i)))).map
        (entryAt (M.disk (M.volume.mount.RootOffset + s))) := by
    intro s hs
    have hlt := List.mem_range.mp hs
    rw [rootMatch,Nat.mod_eq_of_lt (by omega)]
    simp only [test_iff]
  have hcongr : ∀ l : List ℕ, (∀ s ∈ l, s ∈ List.range (M.volume.mount.NumRootEntries / 16)) →
      l.findSome? (rootMatch M (dosFileName name junk)) = l.findSome? (fun s =>
        ((List.range 16).find? (fun i => decide (Matches name junk
          (entryAt (M.disk (M.volume.mount.RootOffset + s)) i)))).map
          (entryAt (M.disk (M.volume.mount.RootOffset + s)))) := by
    intro l hl
    induction l with
    | nil => rfl
    | cons s l ih =>
      rw [List.findSome?_cons,List.findSome?_cons,hsector s (hl s List.mem_cons_self),
        ih (fun x hx => hl x (List.mem_cons_of_mem _ hx))]
  rw [hcongr _ (fun _ h => h),findSome_blocks (fun s i => decide (Matches name junk
    (entryAt (M.disk (M.volume.mount.RootOffset + s)) i))) (fun s => entryAt (M.disk (M.volume.mount.RootOffset + s))),
    Nat.mul_div_cancel' h16,rootEntries,List.find?_map]
  rfl

/-- The search of the root directory for every name. -/
theorem find_in_root_directory (name : CString) (e : DirectoryEntry) (junk : Bytes)
    (h16 : 16 ∣ M.volume.mount.NumRootEntries) :
    ∃ found e', ∃ sectors : List ℕ, Observed.fsFat12FindInRootDirectory M name e junk =
        ⟨sectors.flatMap (fun s => [.diskBufferRead s,.diskBufferRelease s]),.ok (found,e')⟩ ∧
      (∀ s ∈ sectors, InRoot M.volume s) ∧ (found = true ↔ ∃ x ∈ rootEntries M, Matches name junk x) ∧
      (found = true → (rootEntries M).find? (fun x => Matches name junk x) = some e') ∧ (found = false → e' = e) := by
  have hroot := M.volume.root_lt
  have hsize := rootSize_eq M.volume
  obtain ⟨hresult,sectors,hevents,hin⟩ := findInRoot_performs (M := M)
    (law_pairsOf Event.diskBufferRead Event.diskBufferRelease (InRoot M.volume)) name e junk (fun k hk => by
      refine ⟨[(M.volume.mount.RootOffset + k) % 2^32],rfl,fun r hr => ?_⟩
      rw [List.mem_singleton.mp hr,Nat.mod_eq_of_lt (by omega)]
      exact ⟨by omega,by omega⟩)
  have hfind : fsFat12FindInRootDirectory M name e junk =
      ((rootEntries M).find? (fun x => Matches name junk x)).elim (false,e) (fun x => (true,x)) := by
    rw [← rootMatch_find name junk h16]
    unfold fsFat12FindInRootDirectory
    dsimp only
    split
    · rename_i x hx
      change List.findSome? (rootMatch M (dosFileName name junk)) _ = some x at hx
      rw [hx,Option.elim_some]
    · rename_i hx
      change List.findSome? (rootMatch M (dosFileName name junk)) _ = none at hx
      rw [hx,Option.elim_none]
  rw [hfind] at hresult
  cases hx : (rootEntries M).find? (fun x => Matches name junk x) with
  | some x =>
    rw [hx,Option.elim_some] at hresult
    refine ⟨true,x,sectors,by rw [← hevents,← hresult],hin,⟨fun _ => ?_,fun _ => rfl⟩,fun _ => rfl,fun h => by cases h⟩
    exact ⟨x,List.mem_of_find?_eq_some hx,by simpa using List.find?_some hx⟩
  | none =>
    rw [hx,Option.elim_none] at hresult
    have hno := List.find?_eq_none.mp hx
    refine ⟨false,e,sectors,by rw [← hevents,← hresult],hin,⟨fun h => absurd h Bool.false_ne_true,?_⟩,
      fun h => absurd h Bool.false_ne_true,fun _ => rfl⟩
    rintro ⟨x,hmem,hm⟩
    exact absurd hm (by simpa using hno x hmem)

/-- The name `A` in a root directory of one sector. -/
theorem find_in_root_directory_oneSector : 16 ∣ smallVolume.mount.NumRootEntries ∧
    ∃ found e', ∃ sectors : List ℕ, Observed.fsFat12FindInRootDirectory (twoClusters true)
        (nameA.string (fun _ => 0)) ⟨fun _ => 0⟩ (fun _ => 0) =
        ⟨sectors.flatMap (fun s => [.diskBufferRead s,.diskBufferRelease s]),.ok (found,e')⟩ ∧
      ∀ s ∈ sectors, InRoot smallVolume s := by
  obtain ⟨found,e',sectors,hrun,hin,-⟩ := find_in_root_directory (M := twoClusters true) (nameA.string (fun _ => 0))
    ⟨fun _ => 0⟩ (fun _ => 0) (by decide)
  exact ⟨by decide,found,e',sectors,hrun,hin⟩

end UoDOS.FileSystem
