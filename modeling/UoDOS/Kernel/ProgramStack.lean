import UoDOS.Kernel.UserCopies
import UoDOS.Library.Results

/-! # The stack of a new program

The strings are pushed downwards from the end of the memory, each aligned to a word, and the
vector of their addresses is copied below them.
-/
namespace UoDOS.Kernel
open ByteMemory Paging Processes FileSystem Strings Results

variable {L : Layout} {R : ℕ → Prop} {m m' : Memory} {o : Owner} {d S sp : ℕ}
  {n va : ℕ} {data : List UInt8} {argv : List CString}

def stored (arg : CString) : List UInt8 := (List.range (arg.length + 1)).map arg.bytes

def Holds (m : Memory) (d va : ℕ) (data : List UInt8) : Prop :=
  ∀ i (hi : i < data.length), m.peek d (va + i) = some data[i]

structure Guarded (m : Memory) (d S : ℕ) : Prop where
  aligned : S % 4096 = 0
  room : 8192 ≤ S
  below : S < KERNBASE
  guard : ¬ Open m d (S / 4096 - 2)

/-- The strings that have been pushed: in the page below `S` and above `sp`, each one below
the one before. -/
structure Pushed (m : Memory) (d S sp : ℕ) (regs : List (CString × ℕ)) : Prop where
  aligned : sp % 4 = 0
  floor : S ≤ sp + 4096
  ceiling : sp ≤ S
  inside : ∀ x ∈ regs, sp ≤ x.2 ∧ x.2 + (x.1.length + 1) ≤ S
  apart : regs.Pairwise (fun x y => y.2 + (y.1.length + 1) ≤ x.2)
  strings : ∀ x ∈ regs, Holds m d x.2 (stored x.1)

/-- The stack that a program finds: the return address, argc, argv and the vector at `esp`,
and the strings above it, all of them apart in the top page. -/
structure StackHolds (m : Memory) (d S esp : ℕ) (argv : List CString) (ptrs : List ℕ) : Prop where
  count : ptrs.length = argv.length
  vector : Holds m d esp (([0xffffffff,argv.length,esp + 12] ++ ptrs ++ [0]).flatMap wordBytes)
  strings : ∀ x ∈ argv.zip ptrs, Holds m d x.2 (stored x.1)
  top : S ≤ esp + 4096
  room : esp + 4 * (argv.length + 4) ≤ S
  inside : ∀ x ∈ argv.zip ptrs, esp + 4 * (argv.length + 4) ≤ x.2 ∧ x.2 + (x.1.length + 1) ≤ S
  apart : (argv.zip ptrs).Pairwise (fun x y => y.2 + (y.1.length + 1) ≤ x.2)

@[simp] theorem stored_length (arg : CString) : (stored arg).length = arg.length + 1 := by simp [stored]

theorem Written.peek_outside {vb : ℕ} (h : Owns R m o) (hd : o d = .directory)
    (hs : SameEntries o m m') (hw : Written m m' d va data) (hb : vb < va ∨ va + data.length ≤ vb) :
    m'.peek d vb = m.peek d vb := by
  rw [Memory.peek,Memory.peek,hs.physical hd]
  cases hp : m.physical d vb with
  | none => rfl
  | some a =>
    rw [Option.map_some,Option.map_some,hw.frame a (fun i hi hc => ?_)]
    have := physical_injective h hd hp hc
    omega

theorem Holds.outside {vb : ℕ} {bytes : List UInt8} (h : Owns R m o) (hd : o d = .directory)
    (hs : SameEntries o m m') (hw : Written m m' d va data) (hold : Holds m d vb bytes)
    (hb : va + data.length ≤ vb) : Holds m' d vb bytes := by
  intro i hi
  rw [hw.peek_outside h hd hs (by omega)]
  exact hold i hi

theorem copyToUser_cases {z : ℤ} (h : Owns R m o) (hR : Manageable L R)
    (hd : o d = .directory) (hc : Closed m d) (hva : va < 2^32)
    (he : copyToUserVirtualMemory m (page d) va data = .ok (z,m')) :
    Owns R m' o ∧ SameEntries o m m' ∧
      ((z = 0 ∧ AllOpen m d va data.length ∧ Written m m' d va data) ∨ z = -1) := by
  rw [copyToUserVirtualMemory] at he
  rcases copyOut_cases data.length h hR hd hc hva le_rfl with
    ⟨hall,m1,he1,h1,hs1,hw⟩ | ⟨i,hi,⟨ht,m1,he1,h1,hs1⟩ | ⟨hno,he1⟩⟩
  · rw [he1] at he
    cases he
    exact ⟨h1,hs1,.inl ⟨rfl,hall,hw⟩⟩
  · rw [he1] at he
    cases he
    exact ⟨h1,hs1,.inr rfl⟩
  · rw [he1] at he
    cases he

theorem Guarded.copy_inside (hg : Guarded m d S) (hall : AllOpen m d va n) (hn : 0 < n)
    (hsp : S ≤ sp + 4096) (hend : sp < va + n + 4) (htop : va + n ≤ sp) (hle : sp ≤ S) : S ≤ va + 4096 := by
  obtain ⟨ha,hr,-,hno⟩ := hg
  by_contra hlt
  by_cases hlast : va + n - 1 + 4096 < S
  · refine hno ?_
    have ho := hall (n - 1) (by omega)
    rwa [show (va + (n - 1)) / 4096 = S / 4096 - 2 by omega] at ho
  · refine hno ?_
    have ho := hall (S - 4097 - va) (by omega)
    rwa [show (va + (S - 4097 - va)) / 4096 = S / 4096 - 2 by omega] at ho

theorem below_lt (sp n : ℕ) : below sp n < 2^32 := Nat.mod_lt _ (by norm_num)

theorem below_sp_of_open (hall : AllOpen m d (below sp n &&& 0xFFFFFFFC) n) (hc : Closed m d) (hn : 0 < n)
    (hsp : sp < KERNBASE) : (below sp n &&& 0xFFFFFFFC) + n ≤ sp ∧ sp < (below sp n &&& 0xFFFFFFFC) + n + 4 := by
  have hlt := below_lt sp n
  rw [and_word_mask hlt] at hall ⊢
  have hend := hall.below hc (by omega) (show n - 1 < n by omega)
  simp only [KERNBASE] at hend hsp
  unfold below at hend ⊢
  omega

theorem Pushed.push {arg : CString} {regs : List (CString × ℕ)} (hp : Pushed m d S sp regs)
    (h : Owns R m o) (hd : o d = .directory) (hs : SameEntries o m m') (hw : Written m m' d va (stored arg))
    (ha : va % 4 = 0) (hfloor : S ≤ va + 4096) (hva : va + (arg.length + 1) ≤ sp) :
    Pushed m' d S va (regs ++ [(arg,va)]) := by
  have hle := hp.ceiling
  refine ⟨ha,hfloor,by omega,fun x hx => ?_,?_,fun x hx => ?_⟩
  · rcases List.mem_append.mp hx with hx | hx
    · have := hp.inside x hx
      omega
    · obtain rfl := List.mem_singleton.mp hx
      exact ⟨le_rfl,by dsimp only; omega⟩
  · rw [List.pairwise_append]
    refine ⟨hp.apart,List.pairwise_singleton _ _,fun x hx y hy => ?_⟩
    obtain rfl := List.mem_singleton.mp hy
    have := hp.inside x hx
    dsimp only
    omega
  · rcases List.mem_append.mp hx with hx | hx
    · have hin := hp.inside x hx
      exact (hp.strings x hx).outside h hd hs hw (by rw [stored_length]; omega)
    · obtain rfl := List.mem_singleton.mp hx
      exact hw.bytes

theorem Guarded.same (hg : Guarded m d S) (hd : o d = .directory) (hs : SameEntries o m m') : Guarded m' d S := by
  have hb := hg.below
  simp only [KERNBASE] at hb
  refine ⟨hg.aligned,hg.room,hg.below,?_⟩
  rw [hs.open_iff hd (by omega)]
  exact hg.guard

theorem SameEntries.closed (hs : SameEntries o m m') (hd : o d = .directory) (hc : Closed m d) : Closed m' d := by
  intro n h1 h2
  rw [hs d n hd h2]
  exact hc n h1 h2

theorem pushArguments_spec {regs : List (CString × ℕ)} {r : Option (ℕ × List ℕ)}
    (h : Owns R m o) (hR : Manageable L R) (hd : o d = .directory) (hc : Closed m d) (hg : Guarded m d S)
    (hp : Pushed m d S sp regs) (he : pushArguments (page d) argv m sp (regs.map Prod.snd) = .ok (r,m')) :
    Owns R m' o ∧ SameEntries o m m' ∧ (∀ sp' ptrs, r = some (sp',ptrs) →
      (∀ va, va + 4096 < S → m'.peek d va = m.peek d va) ∧
      ∃ regs', regs'.map Prod.fst = argv ∧ ptrs = (regs ++ regs').map Prod.snd ∧
        Pushed m' d S sp' (regs ++ regs')) := by
  induction argv generalizing m sp regs with
  | nil =>
    cases he
    refine ⟨h,fun _ _ _ _ => rfl,?_⟩
    rintro sp' ptrs ⟨⟩
    exact ⟨fun _ _ => rfl,[],rfl,by simp,by simpa using hp⟩
  | cons arg argv ih =>
    rw [pushArguments] at he
    split_ifs at he with hmax
    · cases he
      exact ⟨h,fun _ _ _ _ => rfl,fun _ _ hc => by cases hc⟩
    rw [bind_eq_ok] at he
    obtain ⟨⟨z,m1⟩,hcopy,he⟩ := he
    dsimp only at he
    have hb := hg.below
    have hlt := below_lt sp (arg.length + 1)
    have hva : below sp (arg.length + 1) &&& 0xFFFFFFFC < 2^32 := by
      rw [and_word_mask hlt]
      omega
    obtain ⟨h1,hs1,⟨rfl,hall,hw⟩ | rfl⟩ := copyToUser_cases h hR hd hc hva hcopy
    swap
    · rw [if_pos (by norm_num)] at he
      cases he
      exact ⟨h1,hs1,fun _ _ hc => by cases hc⟩
    rw [if_neg (by norm_num)] at he
    have hlen : ((List.range (arg.length + 1)).map arg.bytes).length = arg.length + 1 := by simp
    rw [hlen] at hall
    obtain ⟨hend,hnear⟩ := below_sp_of_open hall hc (Nat.succ_pos _) (by have := hp.ceiling; omega)
    have hfloor := hg.copy_inside hall (Nat.succ_pos _) hp.floor hnear hend hp.ceiling
    have hpush := hp.push h hd hs1 hw (by rw [and_word_mask hlt]; omega) hfloor hend
    obtain ⟨h',hs',hres⟩ := ih h1 (hs1.closed hd hc) (hg.same hd hs1) hpush (by simpa using he)
    refine ⟨h',hs1.trans hs',fun sp' ptrs hr => ?_⟩
    obtain ⟨hpeek,regs',hfst,hsnd,hp'⟩ := hres sp' ptrs hr
    refine ⟨fun va hlow => ?_,(arg,below sp (arg.length + 1) &&& 0xFFFFFFFC) :: regs',by simp [hfst],?_,?_⟩
    · rw [hpeek va hlow,hw.peek_outside h hd hs1 (by omega)]
    · rw [hsnd,List.append_assoc,List.singleton_append]
    · rwa [List.append_assoc,List.singleton_append] at hp'

theorem wordBytes_flatMap_length (ws : List ℕ) : (ws.flatMap wordBytes).length = 4 * ws.length := by
  induction ws with
  | nil => rfl
  | cons w ws ih =>
    rw [List.flatMap_cons,List.length_append,ih,List.length_cons]
    simp only [wordBytes,List.length_map,List.length_range]
    omega

theorem buildStack_spec {r : Option ℕ} (h : Owns R m o) (hR : Manageable L R)
    (hd : o d = .directory) (hc : Closed m d) (hg : Guarded m d S)
    (he : buildStack m (page d) S argv = .ok (r,m')) :
    Owns R m' o ∧ SameEntries o m m' ∧ ∀ esp, r = some esp →
      (∀ va, va + 4096 < S → m'.peek d va = m.peek d va) ∧ ∃ ptrs, StackHolds m' d S esp argv ptrs := by
  have hbelow := hg.below
  have haligned := hg.aligned
  simp only [KERNBASE] at hbelow
  rw [buildStack,bind_eq_ok] at he
  obtain ⟨⟨r1,m1⟩,hpush,he⟩ := he
  have hp0 : Pushed m d S S [] := ⟨by omega,by omega,le_rfl,by simp,List.Pairwise.nil,by simp⟩
  obtain ⟨h1,hs1,hres⟩ := pushArguments_spec h hR hd hc hg hp0 hpush
  cases r1 with
  | none =>
    cases he
    exact ⟨h1,hs1,fun _ hc => by cases hc⟩
  | some x =>
    obtain ⟨sp,ptrs⟩ := x
    obtain ⟨hpeek1,regs,hfst,hsnd,hp⟩ := hres sp ptrs rfl
    rw [List.nil_append] at hsnd hp
    have hcount : ptrs.length = argv.length := by rw [hsnd,← hfst,List.length_map,List.length_map]
    have hzip : regs = argv.zip ptrs := List.zip_of_prod hfst hsnd.symm
    dsimp only at he
    rw [bind_eq_ok] at he
    obtain ⟨⟨z,m2⟩,hcopy,he⟩ := he
    dsimp only at he
    obtain ⟨esp,hesp⟩ : ∃ esp, esp = below sp ((3 + ptrs.length + 1) * 4) := ⟨_,rfl⟩
    have hlt : esp < 2^32 := hesp ▸ below_lt ..
    rw [← hesp] at hcopy he
    obtain ⟨h2,hs2,⟨rfl,hall,hw⟩ | rfl⟩ := copyToUser_cases h1 hR hd (hs1.closed hd hc) hlt hcopy
    swap
    · rw [if_pos (by norm_num)] at he
      cases he
      exact ⟨h2,hs1.trans hs2,fun _ hc => by cases hc⟩
    rw [if_neg (by norm_num)] at he
    cases he
    refine ⟨h2,hs1.trans hs2,?_⟩
    rintro _ ⟨⟩
    have hn : ((ustack sp ptrs).flatMap wordBytes).length = 4 * (ptrs.length + 4) := by
      rw [wordBytes_flatMap_length]
      simp [ustack]
    rw [hn] at hall
    have hend := hall.below (hs1.closed hd hc) hlt (show 4 * (ptrs.length + 4) - 1 < 4 * (ptrs.length + 4) by omega)
    have hceil := hp.ceiling
    have htop : esp + 4 * (ptrs.length + 4) = sp := by
      simp only [KERNBASE] at hend
      simp only [below] at hesp
      omega
    have hargv : below sp ((ptrs.length + 1) * 4) = esp + 12 := by
      simp only [below]
      omega
    have hfloor := (hg.same hd hs1).copy_inside hall (by omega) hp.floor (by omega) htop.le hceil
    refine ⟨fun va hlow => ?_,ptrs,hcount,?_,fun x hx => ?_,hfloor,by omega,fun x hx => ?_,?_⟩
    · rw [hw.peek_outside h1 hd hs2 (by omega),hpeek1 va hlow]
    · rw [← hcount]
      have hbytes := hw.bytes
      rw [ustack,hargv] at hbytes
      exact hbytes
    · rw [← hzip] at hx
      exact (hp.strings x hx).outside h1 hd hs2 hw (by rw [hn,htop]; exact (hp.inside x hx).1)
    · rw [← hzip] at hx
      rw [← hcount,htop]
      exact hp.inside x hx
    · rw [← hzip]
      exact hp.apart

def stringSpace (argv : List CString) : ℕ := (argv.map (fun arg => 4 * ((arg.length + 4) / 4))).sum

def Fits (argv : List CString) : Prop :=
  argv.length ≤ MAXARG ∧ stringSpace argv + 4 * (argv.length + 4) ≤ PGSIZE

theorem Guarded.allOpen (hg : Guarded m d S) (hopen : Open m d (S / 4096 - 1)) (hva : S ≤ va + 4096)
    (hn : va + n ≤ S) : AllOpen m d va n := by
  intro i hi
  have ha := hg.aligned
  rwa [show (va + i) / 4096 = S / 4096 - 1 by omega]

theorem copyToUser_returns (va : ℕ) (data : List UInt8) (h : Owns R m o) (hR : Manageable L R)
    (hd : o d = .directory) (hc : Closed m d) (hva : va < 2^32) (hall : AllOpen m d va data.length) :
    ∃ m', copyToUserVirtualMemory m (page d) va data = .ok (0,m') ∧ Owns R m' o ∧ SameEntries o m m' := by
  rcases copyOut_cases data.length h hR hd hc hva le_rfl with ⟨-,m',he,h',hs,-⟩ | ⟨i,hi,-⟩
  · exact ⟨m',he,h',hs⟩
  · exact absurd (hall i hi.inside) hi.closed

theorem pushArguments_returns (argv : List CString) (ptrs : List ℕ) (h : Owns R m o) (hR : Manageable L R)
    (hd : o d = .directory) (hc : Closed m d) (hg : Guarded m d S) (hopen : Open m d (S / 4096 - 1))
    (ha : sp % 4 = 0) (hle : sp ≤ S) (hroom : S + stringSpace argv ≤ sp + 4096)
    (hmax : ptrs.length + argv.length ≤ MAXARG) :
    ∃ ptrs' m', pushArguments (page d) argv m sp ptrs = .ok (some (sp - stringSpace argv,ptrs'),m') ∧
      ptrs'.length = ptrs.length + argv.length ∧ Owns R m' o ∧ SameEntries o m m' := by
  induction argv generalizing m sp ptrs with
  | nil => exact ⟨ptrs,m,rfl,rfl,h,fun _ _ _ _ => rfl⟩
  | cons arg argv ih =>
    have hS := hg.below
    have hr := hg.room
    simp only [KERNBASE] at hS
    have hspace : stringSpace (arg :: argv) = 4 * ((arg.length + 4) / 4) + stringSpace argv := List.sum_cons
    rw [hspace] at hroom
    rw [List.length_cons] at hmax
    have hsp : below sp (arg.length + 1) &&& 0xFFFFFFFC = sp - 4 * ((arg.length + 4) / 4) := by
      rw [and_word_mask (below_lt _ _)]
      unfold below
      omega
    have hlen : ((List.range (arg.length + 1)).map arg.bytes).length = arg.length + 1 := by simp
    obtain ⟨m1,hcopy,h1,hs1⟩ := copyToUser_returns (sp - 4 * ((arg.length + 4) / 4))
      ((List.range (arg.length + 1)).map arg.bytes) h hR hd hc (by omega)
      (hg.allOpen hopen (by omega) (by rw [hlen]; omega))
    obtain ⟨ptrs',m',hpush,hcount,h',hs'⟩ := ih (ptrs ++ [sp - 4 * ((arg.length + 4) / 4)]) h1 (hs1.closed hd hc)
      (hg.same hd hs1) ((hs1.open_iff hd (by omega)).mpr hopen)
      (show (sp - 4 * ((arg.length + 4) / 4)) % 4 = 0 by omega) (by omega) (by omega) (by simp; omega)
    refine ⟨ptrs',m',?_,?_,h',hs1.trans hs'⟩
    · rw [pushArguments,if_neg (by omega),hsp,hspace,Nat.sub_add_eq]
      simp only [bind,Except.bind,hcopy]
      exact hpush
    · simp only [hcount,List.length_append,List.length_cons,List.length_nil]
      omega

theorem buildStack_returns (h : Owns R m o) (hR : Manageable L R)
    (hd : o d = .directory) (hc : Closed m d) (hg : Guarded m d S) (hopen : Open m d (S / 4096 - 1))
    (hfit : Fits argv) : ∃ esp m', buildStack m (page d) S argv = .ok (some esp,m') := by
  obtain ⟨hmax,hroom⟩ := hfit
  have hS := hg.below
  have hr := hg.room
  have ha := hg.aligned
  simp only [KERNBASE,PGSIZE] at hS hroom
  obtain ⟨ptrs,m1,hpush,hcount,h1,hs1⟩ := pushArguments_returns argv [] h hR hd hc hg hopen (by omega) le_rfl
    (by omega) (by simpa using hmax)
  rw [List.length_nil,Nat.zero_add] at hcount
  have htop : below (S - stringSpace argv) ((3 + ptrs.length + 1) * 4) =
      S - stringSpace argv - 4 * (argv.length + 4) := by
    unfold below
    omega
  have hn : ((ustack (S - stringSpace argv) ptrs).flatMap wordBytes).length = 4 * (argv.length + 4) := by
    rw [wordBytes_flatMap_length,← hcount]
    simp [ustack]
  obtain ⟨m2,hcopy,-⟩ := copyToUser_returns (S - stringSpace argv - 4 * (argv.length + 4))
    ((ustack (S - stringSpace argv) ptrs).flatMap wordBytes) h1 hR hd (hs1.closed hd hc) (by omega)
    ((hg.same hd hs1).allOpen ((hs1.open_iff hd (by omega)).mpr hopen) (by omega) (by rw [hn]; omega))
  refine ⟨S - stringSpace argv - 4 * (argv.length + 4),m2,?_⟩
  rw [buildStack,hpush]
  simp only [bind,Except.bind,htop,hcopy]
  rfl

theorem StackHolds.congr {esp : ℕ} {ptrs : List ℕ} (hs : StackHolds m d S esp argv ptrs)
    (hp : ∀ va, m'.peek d va = m.peek d va) : StackHolds m' d S esp argv ptrs := by
  refine ⟨hs.count,fun i hi => ?_,fun x hx i hi => ?_,hs.top,hs.room,hs.inside,hs.apart⟩
  · rw [hp]
    exact hs.vector i hi
  · rw [hp]
    exact hs.strings x hx i hi

end UoDOS.Kernel
