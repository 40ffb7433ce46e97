import UoDOS.FileSystem.FileReads
import UoDOS.Kernel.FileRuns
import UoDOS.Kernel.ProgramReturns

/-! # Executables on the disk

A read that reaches the end of a file marks the File, and every later read of it delivers
nothing, wherever exec has moved the position to.
-/
namespace UoDOS.Kernel
open ByteMemory Paging Processes FileSystem Strings Results Function

variable {M : Mounted} {cs : List ℕ} {x : File} {f : Fin NFILE} {l l' : Loader} {pgdir : ℕ}

def Waiting (f : Fin NFILE) (x : File) (t : FileTable) : Prop :=
  ∃ position, t f = { x with Position := position, Eof := false }

theorem Waiting.holding {t : FileTable} (hw : Waiting f x t) : Holding f x t := by
  obtain ⟨p,h⟩ := hw
  exact ⟨p,false,h⟩

theorem Waiting.read (hw : Waiting f x l.files) (hf : FatFile M x cs) (hx : Readable x) {P n : ℕ}
    (hP : P < x.Size) (hn : P + n ≤ x.Size) :
    l.read M f P n = .ok ((n : ℤ),(List.range n).map (delivered M cs P n),
      { l with files := update l.files f { x with
          Position := P + n
          Eof := decide (x.Size ≤ P + n) } }) := by
  obtain ⟨p,h⟩ := hw
  have hbelow := hf.below
  have ht : n = min n (cs.length * M.volume.mount.ClusterSize - P) := by omega
  have hread := ((hf.mark false).move P).read rfl hP ht
  rw [read_eq (by rw [h]; exact ⟨hx.type,hx.readable⟩),h,hread]
  rfl

theorem Waiting.read_on (hw : Waiting f x l.files) (hf : FatFile M x cs) (hx : Readable x) {P n : ℕ} {count : ℤ}
    {bytes : List UInt8} (hn : P + n < x.Size) (hr : l.read M f P n = .ok (count,bytes,l')) :
    count = n ∧ Waiting f x l'.files := by
  rw [hw.read hf hx (by omega) hn.le] at hr
  cases hr
  refine ⟨rfl,P + n,?_⟩
  dsimp only
  rw [update_self,decide_eq_false (by omega)]

theorem readHeaders_waiting {imageFileHeader : Bytes} (hw : Waiting f x l.files) (hf : FatFile M x cs)
    (hx : Readable x) (hsize : 0x80 + 24 + 96 < x.Size)
    (he : readHeaders M f l = .ok (some imageFileHeader,l')) : Waiting f x l'.files := by
  rw [readHeaders,bind_eq_ok] at he
  obtain ⟨⟨count,bytes,l1⟩,hr1,he⟩ := he
  obtain ⟨-,hw1⟩ := hw.read_on hf hx (by omega) hr1
  dsimp only at he
  split at he
  · cases he
  split at he
  · cases he
  rw [bind_eq_ok] at he
  obtain ⟨⟨count2,bytes2,l2⟩,hr2,he⟩ := he
  obtain ⟨-,hw2⟩ := hw1.read_on hf hx hsize hr2
  dsimp only at he
  split at he
  · cases he
  · cases he
    exact hw2

def fileHeader (M : Mounted) (cs : List ℕ) : Bytes :=
  write (write (fun _ => 0) 0 ((List.range 24).map (delivered M cs 0x80 24))) 24
    ((List.range 96).map (delivered M cs (0x80 + 24) 96))

theorem Waiting.readHeaders (hw : Waiting f x l.files) (hf : FatFile M x cs) (hx : Readable x)
    (hsize : 0x80 + 24 + 96 ≤ x.Size) (hP : delivered M cs 0x80 24 0 = 'P'.toUInt8)
    (hE : delivered M cs 0x80 24 1 = 'E'.toUInt8) :
    readHeaders M f l = .ok (some (fileHeader M cs),{ l with files := update l.files f { x with
      Position := 0x80 + 24 + 96
      Eof := decide (x.Size ≤ 0x80 + 24 + 96) } }) := by
  have hr1 := hw.read hf hx (P := 0x80) (n := 24) (by omega) (by omega)
  obtain ⟨-,hw1⟩ := hw.read_on hf hx (P := 0x80) (n := 24) (by omega) hr1
  have hr2 := hw1.read hf hx (P := 0x80 + 24) (n := 96) (by omega) hsize
  rw [Kernel.readHeaders,hr1]
  simp only [bind,Except.bind]
  rw [if_neg (by simp),if_neg]
  · rw [hr2]
    dsimp only
    rw [if_neg (by simp),update_idem]
    rfl
  · simp [write,hP,hE,List.range_succ]

section Samples

/-- A section header with a VirtualAddress, an ActualSize and an OffsetInExeFile. -/
def sectionBytes (x : ℕ × ℕ × ℕ) : List UInt8 :=
  List.replicate 8 0 ++ wordBytes x.2.1 ++ wordBytes x.1 ++ List.replicate 4 0 ++ wordBytes x.2.2 ++
    List.replicate 16 0

/-- An executable with these sections, which starts at address 0. -/
def programBytes (sections : List (ℕ × ℕ × ℕ)) : List UInt8 :=
  List.replicate 0x80 0 ++ [80,69,0,0,0,0,UInt8.ofNat sections.length,0] ++ List.replicate 12 0 ++ [96,0,0,0] ++
    List.replicate 96 0 ++ sections.flatMap sectionBytes

/-- A volume with the executable `A` in cluster 2 and nothing else. -/
def programVolume (size : ℕ) (sections : List (ℕ × ℕ × ℕ)) : Mounted where
  image := smallKernel
  memory x := if x = smallKernel.fat + 3 then 0xFF else if x = smallKernel.fat + 4 then 0x0F else 0
  volume := smallVolume
  disk n i :=
    if n = 2 then
      if i = 0 then 65 else if i < 11 then space else if i = 26 then 2
      else if 28 ≤ i then (wordBytes size).getD (i - 28) 0 else 0
    else if n = 3 then (programBytes sections).getD i 0 else 0

def programPath : CString := .ofBuffer (fun i => if i = 0 then 47 else if i = 1 then 65 else 0) 2 (by decide)

def openedFile (r : Except Stop (Option (Fin NFILE) × FileTable)) : Option (Fin NFILE) :=
  match r with
  | .ok (f,_) => f
  | .error _ => none

def openedTable (r : Except Stop (Option (Fin NFILE) × FileTable)) : FileTable :=
  match r with
  | .ok (_,t) => t
  | .error _ => unusedFiles

theorem opened_eq {r : Except Stop (Option (Fin NFILE) × FileTable)} (h : openedFile r = some f) :
    r = .ok (some f,openedTable r) := by
  rcases r with e | ⟨g,t⟩
  · cases h
  · cases h
    rfl

def openProgram (M : Mounted) : Except Stop (Option (Fin NFILE) × FileTable) :=
  fsFat12Open M unusedFiles emptyString programPath false (fun _ => 0)

theorem firstFile_lt : 0 < NFILE := by decide

def firstFile : Fin NFILE := ⟨0,firstFile_lt⟩

def programFile (M : Mounted) : File :=
  { openedTable (openProgram M) firstFile with Readable := true, Writable := false }

structure Sample (M : Mounted) : Prop where
  opens : openedFile (openProgram M) = some firstFile
  file : FatFile M (programFile M) [2]
  start : (programFile M).Eof = false
  size : 0x80 + 24 + 96 ≤ (programFile M).Size
  first : delivered M [2] 0x80 24 0 = 'P'.toUInt8
  second : delivered M [2] 0x80 24 1 = 'E'.toUInt8

def idleSystem (m : Memory) (d : ℕ) : System :=
  (coldSystem m).setImage initproc ⟨0,page d,1,firstTrapframe,fun _ => none,emptyString,fun _ => 0⟩

theorem idleSystem_image (m : Memory) (d : ℕ) : (idleSystem m d).image initproc =
    ⟨0,page d,1,firstTrapframe,fun _ => none,emptyString,fun _ => 0⟩ := by
  simp [idleSystem,System.setImage]

theorem idleSystem_owns : ∃ R m o d, Owns R (idleSystem m d).memory o ∧ Manageable smallKernel.toLayout R ∧
    o d = .directory ∧ ¬ Scarce 3000 o := by
  obtain ⟨m,o,h,hR,hplenty⟩ := plenty_of_memory
  rcases h.setup_words hR with ⟨-,-,-,hsc,-⟩ | ⟨d,m1,o1,-,hdf,h1,hg,-,-,-⟩
  · exact absurd (hsc.mono (by norm_num)) hplenty
  refine ⟨_,m1,o1,d,h1,hR,(hg.iff (by simp) (by simp)).mpr (by simp),fun hsc => hplenty ?_⟩
  exact (h1.scarce hg.within hsc (h1.users_below (n := 0) (fun k hk => absurd hk (h.new_empty hdf hg k)))).mono
    (by norm_num)

namespace Sample
variable {M : Mounted} (h : Sample M)
include h

theorem opened (m : Memory) (d : ℕ) :
    fsFat12Open M (idleSystem m d).files ((idleSystem m d).image initproc).Cwd programPath false (fun _ => 0) =
      .ok (some firstFile,openedTable (openProgram M)) := by
  rw [idleSystem_image]
  exact opened_eq h.opens

theorem readable : Readable (programFile M) := ⟨h.file.type,rfl⟩

theorem waiting : Waiting firstFile (programFile M)
    (update (openedTable (openProgram M)) firstFile (programFile M)) := by
  refine ⟨(programFile M).Position,?_⟩
  rw [update_self,← h.start]

theorem headers (m : Memory) : ∃ files,
    readHeaders M firstFile ⟨m,update (openedTable (openProgram M)) firstFile (programFile M)⟩ =
      .ok (some (fileHeader M [2]),⟨m,files⟩) ∧
      (0x80 + 24 + 96 < (programFile M).Size → Waiting firstFile (programFile M) files) ∧
      ((programFile M).Size = 0x80 + 24 + 96 → (files firstFile).Eof = true) := by
  have hr := Waiting.readHeaders (l := ⟨m,update (openedTable (openProgram M)) firstFile (programFile M)⟩)
    h.waiting h.file h.readable h.size h.first h.second
  refine ⟨_,hr,fun hlt => readHeaders_waiting h.waiting h.file h.readable hlt hr,fun heq => ?_⟩
  rw [update_self]
  exact decide_eq_true heq.le

end Sample

theorem sample_chain (size : ℕ) (sections : List (ℕ × ℕ × ℕ)) : TableChain (programVolume size sections) 2 [2] :=
  .last ⟨by decide,by decide⟩ (by
    change 0xff8 ≤ tableEntry (programVolume 0 []) 2
    decide +kernel)

def OneCluster (M : Mounted) (x : File) : Prop :=
  x.type = .FD_FILE ∧ x.DirectoryEntry.FirstCluster = 2 ∧ x.Eof = false ∧ 0x80 + 24 + 96 ≤ x.Size ∧ x.Size ≤ 512 ∧
    delivered M [2] 0x80 24 0 = 'P'.toUInt8 ∧ delivered M [2] 0x80 24 1 = 'E'.toUInt8

instance (M : Mounted) (x : File) : Decidable (OneCluster M x) := by
  unfold OneCluster
  infer_instance

theorem sample_of {size : ℕ} {sections : List (ℕ × ℕ × ℕ)}
    (hopen : openedFile (openProgram (programVolume size sections)) = some firstFile)
    (h : OneCluster (programVolume size sections) (programFile (programVolume size sections))) :
    Sample (programVolume size sections) := by
  obtain ⟨htype,hfirst,hstart,hlow,hhigh,h0,h1⟩ := h
  have hC : (programVolume size sections).volume.mount.ClusterSize = 512 := by
    change smallVolume.mount.ClusterSize = 512
    decide
  refine ⟨hopen,⟨htype,by omega,by omega,?_,?_,.inr ?_⟩,hstart,hlow,h0,h1⟩
  · rw [hC]
    simpa using hhigh
  · rw [hC,List.length_singleton]
    omega
  · rw [hfirst]
    exact sample_chain size sections

end Samples

end UoDOS.Kernel
