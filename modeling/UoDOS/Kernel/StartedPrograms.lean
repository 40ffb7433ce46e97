import UoDOS.Kernel.HostileSections

/-! # Programs that are started

exec that returns 0 has put the arguments into the top page of the new address space, and
has left everything below it as the sections were loaded.
-/
namespace UoDOS.Kernel
open ByteMemory Paging Processes FileSystem Strings Results

variable {M : Mounted} {R : ℕ → Prop} {o : Owner} {d e : ℕ} {f : Fin NFILE}
  {s s' : System} {p : Fin NPROC} {path : CString} {argv : List CString} {junk : Bytes}

/-- exec that returns 0 has started the program with its arguments on the stack. The state
`s₁` is the one before the arguments are copied: below the top page the new program finds
what was there then. -/
theorem exec_started (h : Owns R s.memory o)
    (hR : Manageable M.image.toLayout R) (hp : o e = .directory) (hpt : (s.image p).PageTable = page e)
    (he : exec M s p path argv junk = .ok (0,s')) :
    ∃ exeFile files x s₁ d ptrs, fsFat12Open M s.files (s.image p).Cwd path false junk = .ok (some exeFile,files) ∧
      loadImage M exeFile { s with files := files } = .ok (some x,s₁) ∧ x.pgdir = page d ∧
      (s'.image p).PageTable = page d ∧ (s'.image p).MemorySize = x.memorySize ∧
      StackHolds s'.memory d x.memorySize (s'.image p).Trapframe.esp argv ptrs ∧
      ∀ va, va + 4096 < x.memorySize → s'.memory.peek d va = s₁.memory.peek d va := by
  obtain ⟨r,files,hopen,⟨-,hz,-⟩ | ⟨-,-,-,-,-,hz,-⟩ |
    ⟨f,x,d,m₁,files₁,o₁,m₂,esp,ptrs,rfl,-,hload,hx,-,-,rfl,-,hst,hpeek⟩⟩ := exec_ok h hR hp hpt he
  · cases hz
  · cases hz
  refine ⟨f,files,x,_,d,ptrs,hopen,hload,hx,?_,?_,?_,hpeek⟩
  · simp [System.started,System.setImage,hx]
  · simp [System.started,System.setImage]
  · simpa [System.started,System.setImage] using hst

/-- A program of one byte with two arguments. -/
theorem exec_started_oneByte : ∃ m d s' g ptrs,
    exec oneByte (idleSystem m d) initproc programPath [programPath,programPath] (fun _ => 0) = .ok (0,s') ∧
    StackHolds s'.memory g (s'.image initproc).MemorySize (s'.image initproc).Trapframe.esp
      [programPath,programPath] ptrs := by
  obtain ⟨R,m,o,d,h,hR,hd,hplenty⟩ := idleSystem_owns
  obtain ⟨g,m₁,o₁,files,-,hsetup,hsized,hmany,-,hhead,hw,-⟩ := oneByte_sample.starts h hR hplenty
  obtain ⟨l₂,hload⟩ : ∃ l₂, loadSections oneByte firstFile (page g) (NumberOfSections (fileHeader oneByte [2]))
      ⟨m₁,files⟩ (0x80 + 24 + SizeOfOptionalHeader (fileHeader oneByte [2])) 0 = .ok (.loaded 1,l₂) := by
    obtain ⟨l₂,o₂,hfirst,-⟩ := FirstByte.loads ⟨oneByte_sample,by decide +kernel,by decide +kernel,by decide +kernel,
      by decide +kernel⟩ 0 hsized hR hmany (hw (by decide +kernel))
    rw [show NumberOfSections (fileHeader oneByte [2]) = 0 + 1 by decide +kernel,
      show SizeOfOptionalHeader (fileHeader oneByte [2]) = 96 by decide +kernel,hfirst]
    exact ⟨l₂,rfl⟩
  obtain ⟨s',he,-⟩ := exec_ends (B := 1) [programPath,programPath] h hR hd (by rw [idleSystem_image])
    (by simp [idleSystem_image]) (oneByte_sample.opened m d) hhead hsetup hload (by rintro n ⟨⟩; rfl)
    ⟨by decide,fun hsc => hplenty (hsc.mono (by norm_num)),⟨by decide,by decide⟩⟩
  obtain ⟨-,-,x,-,g',ptrs,-,-,-,-,hsize,hst,-⟩ := exec_started h hR hd (by rw [idleSystem_image]) he
  exact ⟨m,d,s',g',ptrs,he,by rw [hsize]; exact hst⟩

end UoDOS.Kernel
