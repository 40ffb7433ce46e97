import UoDOS.FileSystem.NameConversion
import UoDOS.FileSystem.Paths
import UoDOS.FileSystem.RootSearch

/-! # The parent of a directory in the root

The entry `..` of a directory in the root has FirstCluster 0.
-/
namespace UoDOS.FileSystem
open ByteMemory Strings Results

variable {M : Mounted} {t t' : FileTable} {junk : Bytes}

namespace FileName

def Exact (n : FileName) : Prop := ∀ e ∈ n.extension, 2 ≤ e.length

theorem Exact.converted {n : FileName} (h : n.Exact) (tail junk : Bytes) : n.converted tail junk = n.form := by
  apply n.converted_iff.mpr
  intro e he m hm hlt
  have := h e he
  omega

end FileName

section Searches

variable {n : FileName} {tail : Bytes}

end Searches

section Walk

variable {n : FileName} {p : Bytes} {rest : List UInt8} {k : ℕ} {root : Bool} {e : DirectoryEntry}

def Spells (p : Bytes) (text : List UInt8) : Prop := (∀ i < text.length, p i = text.getD i 0) ∧ p text.length = 0

theorem Spells.tail (h : Spells p (n.text ++ 47 :: rest)) :
    p n.text.length = 47 ∧ Spells (fun i => p (n.text.length + 1 + i)) rest := by
  obtain ⟨htext,hend⟩ := h
  simp only [List.length_append,List.length_cons] at htext hend
  refine ⟨?_,fun i hi => ?_,?_⟩
  · rw [htext _ (by omega)]
    simp
  · dsimp only
    rw [htext _ (by omega),List.getD_append_right _ _ _ _ (by omega),
      show n.text.length + 1 + i - n.text.length = i + 1 by omega,List.getD_cons_succ]
  · dsimp only
    rw [Nat.add_assoc,Nat.add_comm 1]
    exact hend

end Walk

end UoDOS.FileSystem
