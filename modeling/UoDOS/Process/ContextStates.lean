import UoDOS.Process.ContextSwitch

/-! # Contexts, running and switched out

A context is a process or the scheduler of a CPU.
-/
namespace UoDOS.ContextSwitch
open ByteMemory StackMachine StackMachine.Machine Function

variable {U C : Type}

structure Slots (C : Type) where
  slot : C → UInt32
  below : ∀ c, (slot c).toNat + 4 < 2^32
  apart : ∀ c d, c ≠ d → (slot c).toNat + 4 ≤ (slot d).toNat ∨ (slot d).toNat + 4 ≤ (slot c).toNat

/-- What a context had when it called swtch: its registers and return address, and the
stack pointer that it has again after the return. -/
structure Saved extends Context where
  esp : UInt32

/-- `stack` gives the bounds of the stacks of living contexts. For the statements there
are `out`, what a context that does not run had when it switched out, and `child`, the
frame of its parent for a process that has not left forkret. -/
structure State (U C : Type) where
  mem : Bytes
  regs : U → Registers
  running : U → Option C
  stack : C → Option (ℕ × ℕ)
  out : C → Option Saved
  child : C → Option Trapframe

/-- Where the code of the context may use its stack, of which `hi` is the upper bound. -/
def State.limit (s : State U C) (c : C) (hi : ℕ) : ℕ := if (s.child c).isSome then hi - 80 else hi

def State.machine (s : State U C) (u : U) : Machine := { s.regs u with mem := s.mem }

inductive Event (U C : Type)
  /-- the code of the context that runs on `u` -/
  | work (u : U) (b : Bytes) (r : Registers)
  /-- fork makes `d` with its stack at `k`, from the frame at `tf` -/
  | fork (u : U) (d : C) (k tf : UInt32)
  | swtch (u : U) (d : C)
  /-- forkret returns, and trapret runs -/
  | forkret (u : U)
  /-- wait frees the stack -/
  | free (d : C)

structure Spares (W : Slots C) (s : State U C) (c : C) (b : Bytes) : Prop where
  regions : ∀ d lo hi x, s.stack d = some (lo,hi) → lo ≤ x → x < hi → d ≠ c ∨ s.limit d hi ≤ x → b x = s.mem x
  slots : ∀ d x, (W.slot d).toNat ≤ x → x < (W.slot d).toNat + 4 → b x = s.mem x

structure Calls (W : Slots C) (s : State U C) (u : U) (c d : C) (lo hi : ℕ) : Prop where
  running : s.running u = some c
  stack : s.stack c = some (lo,hi)
  ready : (s.out d).isSome
  room : lo + 16 ≤ ((s.regs u).reg .esp).toNat
  inside : ((s.regs u).reg .esp).toNat + 12 ≤ s.limit c hi
  old : word s.mem ((s.regs u).reg .esp + 4) = W.slot c
  new : word s.mem ((s.regs u).reg .esp + 8) = word s.mem (W.slot d)

/-- There is a page for the stack of `d`, away from everything else. -/
structure Fresh (W : Slots C) (s : State U C) (u : U) (d : C) (k tf : UInt32) : Prop where
  absent : s.stack d = none
  idle : ∀ v, s.running v ≠ some d
  below : k.toNat + 4096 < 2^32
  regions : ∀ e lo hi, s.stack e = some (lo,hi) → hi ≤ k.toNat ∨ k.toNat + 4096 ≤ lo
  slots : ∀ e, (W.slot e).toNat + 4 ≤ k.toNat ∨ k.toNat + 4096 ≤ (W.slot e).toNat
  /-- the frame of the parent, which came from user mode -/
  parent : ∃ c lo hi, s.running u = some c ∧ s.stack c = some (lo,hi) ∧ lo ≤ tf.toNat ∧ tf.toNat + 76 ≤ hi
  user : (trapframeAt s.mem tf).cs % 4 = 3

def forked (L : Symbols) (W : Slots C) (s : State U C) (d : C) (k tf : UInt32) : Bytes :=
  putWord (childStack L s.mem k tf) (W.slot d) (k + 3996)

def step [DecidableEq U] [DecidableEq C] (L : Symbols) (W : Slots C) (s : State U C) (e : Event U C)
    (t : State U C) : Prop :=
  match e with
  | .work u b r => ∃ c, s.running u = some c ∧ Spares W s c b ∧
      t = { s with mem := b, regs := update s.regs u r }
  | .fork u d k tf => Fresh W s u d k tf ∧ t = { s with
      mem := forked L W s d k tf
      stack := update s.stack d (some (k.toNat,k.toNat + 4096))
      out := update s.out d (some ⟨⟨0,0,0,0,L.forkret⟩,k + 4016⟩)
      child := update s.child d (some (trapframeAt s.mem tf)) }
  | .swtch u d => ∃ c lo hi, Calls W s u c d lo hi ∧ t = { s with
      mem := ((s.machine u).exec swtch).mem
      regs := update s.regs u ((s.machine u).exec swtch).toRegisters
      running := update s.running u (some d)
      out := update (update s.out c (some
        ⟨⟨(s.regs u).reg .edi,(s.regs u).reg .esi,(s.regs u).reg .ebx,(s.regs u).reg .ebp,
          word s.mem ((s.regs u).reg .esp)⟩,(s.regs u).reg .esp + 4⟩)) d none }
  | .forkret u => ∃ c lo hi, s.running u = some c ∧ s.stack c = some (lo,hi) ∧ (s.child c).isSome ∧
      ((s.regs u).reg .esp).toNat = hi - 80 ∧ (s.regs u).seg .cs % 4 = 0 ∧ t = { s with
        regs := update s.regs u ((s.machine u).exec (.ret :: trapret)).toRegisters
        child := update s.child c none }
  | .free d => (s.out d).isSome ∧ t = { s with
      stack := update s.stack d none
      out := update s.out d none
      child := update s.child d none }

structure Start (W : Slots C) (s : State U C) : Prop where
  running : ∀ u, ∃ c lo hi, s.running u = some c ∧ s.stack c = some (lo,hi) ∧ hi < 2^32
  alone : ∀ u v c, s.running u = some c → s.running v = some c → u = v
  regions : ∀ c d lo hi lo' hi', c ≠ d → s.stack c = some (lo,hi) → s.stack d = some (lo',hi') →
    hi ≤ lo' ∨ hi' ≤ lo
  slots : ∀ c d lo hi, s.stack c = some (lo,hi) → (W.slot d).toNat + 4 ≤ lo ∨ hi ≤ (W.slot d).toNat
  alive : ∀ c, (s.stack c).isSome → ∃ u, s.running u = some c
  out : ∀ c, s.out c = none
  child : ∀ c, s.child c = none

structure GivesBack (r : Registers) (v : Saved) : Prop where
  edi : r.reg .edi = v.edi
  esi : r.reg .esi = v.esi
  ebx : r.reg .ebx = v.ebx
  ebp : r.reg .ebp = v.ebp
  esp : r.reg .esp = v.esp
  eip : r.eip = v.eip

structure Inv (L : Symbols) (W : Slots C) (s : State U C) : Prop where
  live : ∀ u c, s.running u = some c → (s.stack c).isSome ∧ s.out c = none
  alone : ∀ u v c, s.running u = some c → s.running v = some c → u = v
  below : ∀ c lo hi, s.stack c = some (lo,hi) → hi < 2^32
  regions : ∀ c d lo hi lo' hi', c ≠ d → s.stack c = some (lo,hi) → s.stack d = some (lo',hi') →
    hi ≤ lo' ∨ hi' ≤ lo
  slots : ∀ c d lo hi, s.stack c = some (lo,hi) → (W.slot d).toNat + 4 ≤ lo ∨ hi ≤ (W.slot d).toNat
  saved : ∀ d v, s.out d = some v → ∃ lo hi, s.stack d = some (lo,hi) ∧
    lo ≤ (word s.mem (W.slot d)).toNat ∧ (word s.mem (W.slot d)).toNat + 20 ≤ s.limit d hi ∧
    contextAt s.mem (word s.mem (W.slot d)) = v.toContext ∧ v.esp = word s.mem (W.slot d) + 20
  frames : ∀ c f, s.child c = some f → ∃ lo hi, s.stack c = some (lo,hi) ∧ lo + 80 ≤ hi ∧
    word s.mem (UInt32.ofNat (hi - 80)) = L.trapret ∧
    trapframeAt s.mem (UInt32.ofNat (hi - 76)) = { f with eax := 0 } ∧ f.cs % 4 = 3

variable {L : Symbols} {W : Slots C} {s t : State U C} {u : U} {c d : C} {lo hi : ℕ}

theorem State.limit_le (s : State U C) (c : C) (hi : ℕ) : s.limit c hi ≤ hi := by
  unfold State.limit
  split_ifs
  · omega
  · exact le_rfl

theorem Inv.saved_congr (h : Inv L W s) {v : Saved} {b : Bytes} (hd : s.out d = some v)
    (hslot : ∀ x, (W.slot d).toNat ≤ x → x < (W.slot d).toNat + 4 → b x = s.mem x)
    (hstack : ∀ lo hi x, s.stack d = some (lo,hi) → lo ≤ x → x < hi → b x = s.mem x) :
    ∃ lo hi, s.stack d = some (lo,hi) ∧ lo ≤ (word b (W.slot d)).toNat ∧
      (word b (W.slot d)).toNat + 20 ≤ s.limit d hi ∧
      contextAt b (word b (W.slot d)) = v.toContext ∧ v.esp = word b (W.slot d) + 20 := by
  obtain ⟨lo,hi,hs,h1,h2,h3,h4⟩ := h.saved d v hd
  have hle := s.limit_le d hi
  have hb := h.below d lo hi hs
  rw [word_congr hslot]
  refine ⟨lo,hi,hs,h1,h2,?_,h4⟩
  rw [← h3]
  exact contextAt_congr (by omega) (fun x hx1 hx2 => hstack lo hi x hs (by omega) (by omega))

theorem Inv.frames_congr (h : Inv L W s) {f : Trapframe} {b : Bytes} (hc : s.child c = some f)
    (hstack : ∀ lo hi x, s.stack c = some (lo,hi) → hi - 80 ≤ x → x < hi → b x = s.mem x) :
    ∃ lo hi, s.stack c = some (lo,hi) ∧ lo + 80 ≤ hi ∧ word b (UInt32.ofNat (hi - 80)) = L.trapret ∧
      trapframeAt b (UInt32.ofNat (hi - 76)) = { f with eax := 0 } ∧ f.cs % 4 = 3 := by
  obtain ⟨lo,hi,hs,h1,h2,h3,h4⟩ := h.frames c f hc
  have hb := h.below c lo hi hs
  have e1 : (UInt32.ofNat (hi - 80)).toNat = hi - 80 := toNat_ofNat_of_lt (by omega)
  have e2 : (UInt32.ofNat (hi - 76)).toNat = hi - 76 := toNat_ofNat_of_lt (by omega)
  refine ⟨lo,hi,hs,h1,?_,?_,h4⟩
  · rw [← h2]
    exact word_congr (fun x hx1 hx2 => hstack lo hi x hs (by omega) (by omega))
  · rw [← h3]
    exact trapframeAt_congr (by omega) (fun x hx1 hx2 => hstack lo hi x hs (by omega) (by omega))

theorem Start.inv (h : Start W s) : Inv L W s := by
  refine ⟨fun u c hc => ⟨?_,h.out c⟩,h.alone,fun c lo hi hs => ?_,h.regions,h.slots,fun d v hd => ?_,
    fun c f hc => ?_⟩
  · obtain ⟨c',lo,hi,hc',hs,-⟩ := h.running u
    rw [hc] at hc'
    cases hc'
    rw [hs]
    rfl
  · obtain ⟨u,hu⟩ := h.alive c (by rw [hs]; rfl)
    obtain ⟨c',lo',hi',hc',hs',hlt⟩ := h.running u
    rw [hu] at hc'
    cases hc'
    rw [hs] at hs'
    cases hs'
    exact hlt
  · rw [h.out d] at hd
    cases hd
  · rw [h.child c] at hc
    cases hc

/-- What a context leaves when it calls swtch: its registers below its stack pointer, a
pointer to them in its slot, and nothing else. -/
structure Leaves (W : Slots C) (s : State U C) (u : U) (c : C) (b : Bytes) : Prop where
  context : contextAt b ((s.regs u).reg .esp - 16) =
    ⟨(s.regs u).reg .edi,(s.regs u).reg .esi,(s.regs u).reg .ebx,(s.regs u).reg .ebp,
      word s.mem ((s.regs u).reg .esp)⟩
  pointer : word b (W.slot c) = (s.regs u).reg .esp - 16
  rest : ∀ x, x < ((s.regs u).reg .esp).toNat - 16 ∨ ((s.regs u).reg .esp).toNat ≤ x →
    x < (W.slot c).toNat ∨ (W.slot c).toNat + 4 ≤ x → b x = s.mem x

theorem Calls.leaves (hc : Calls W s u c d lo hi) (h : Inv L W s) :
    Leaves W s u c ((s.machine u).exec swtch).mem := by
  have hroom := hc.room
  have hin := hc.inside
  have hle := s.limit_le c hi
  have hb := h.below c lo hi hc.stack
  have hsl := h.slots c c lo hi hc.stack
  obtain ⟨h1,h2,h3⟩ := @swtch_saves (s.machine u) ((s.regs u).reg .esp) _ rfl hc.old (by omega) (by omega)
    (by omega)
  exact ⟨h1,h2,h3⟩

theorem Calls.spares {b : Bytes} (hc : Calls W s u c d lo hi) (h : Inv L W s) (hb : Leaves W s u c b) {e : C}
    (he : e ≠ c) : (∀ x, (W.slot e).toNat ≤ x → x < (W.slot e).toNat + 4 → b x = s.mem x) ∧
      ∀ lo' hi' x, s.stack e = some (lo',hi') → lo' ≤ x → x < hi' → b x = s.mem x := by
  have hroom := hc.room
  have hin := hc.inside
  have hle := s.limit_le c hi
  constructor
  · intro x h1 h2
    have hslot := h.slots c e lo hi hc.stack
    have happart := W.apart e c he
    exact hb.rest x (by omega) (by omega)
  · intro lo' hi' x hs h1 h2
    have hreg := h.regions e c lo' hi' lo hi he hs hc.stack
    have hslot := h.slots e c lo' hi' hs
    exact hb.rest x (by omega) (by omega)

theorem Calls.ne (hc : Calls W s u c d lo hi) (h : Inv L W s) : d ≠ c := by
  rintro rfl
  have hr := hc.ready
  rw [(h.live u d hc.running).2] at hr
  cases hr

theorem Calls.gives_back (hc : Calls W s u c d lo hi) (h : Inv L W s) {v : Saved} (hv : s.out d = some v) :
    GivesBack ((s.machine u).exec swtch).toRegisters v := by
  obtain ⟨h1,h2⟩ := hc.spares h (hc.leaves h) (hc.ne h)
  obtain ⟨lo',hi',hs,hlo,hhi,hctx,hesp⟩ := h.saved d v hv
  have hle := s.limit_le d hi'
  have hb := h.below d lo' hi' hs
  have hnew : word (s.machine u).mem ((s.machine u).reg .esp + 8) = word s.mem (W.slot d) := hc.new
  have hreg := swtch_registers (s.machine u)
  rw [hnew,contextAt_congr (b := s.mem) (by omega) (fun x hx1 hx2 => h2 lo' hi' x hs (by omega) (by omega)),
    hctx] at hreg
  obtain ⟨r1,r2,r3,r4,r5,r6⟩ := hreg
  exact ⟨r1,r2,r3,r4,by rw [hesp]; exact r6,r5⟩

theorem Inv.work [DecidableEq U] {b : Bytes} {r : Registers} (h : Inv L W s) (hc : s.running u = some c)
    (hs : Spares W s c b) : Inv L W { s with mem := b, regs := update s.regs u r } := by
  refine ⟨h.live,h.alone,h.below,h.regions,h.slots,fun d v hd => ?_,fun d f hd => ?_⟩
  · have hne : d ≠ c := by
      rintro rfl
      have hout := (h.live u d hc).2
      rw [show s.out d = some v from hd] at hout
      cases hout
    exact h.saved_congr hd (hs.slots d) (fun lo hi x hst h1 h2 => hs.regions d lo hi x hst h1 h2 (.inl hne))
  · have hf : s.child d = some f := hd
    have hlim : ∀ hi, s.limit d hi = hi - 80 := fun hi => by simp [State.limit,hf]
    refine h.frames_congr hf (fun lo hi x hst h1 h2 => ?_)
    obtain ⟨lo',hi',hst',hle,-⟩ := h.frames d f hf
    rw [hst] at hst'
    cases hst'
    exact hs.regions d lo hi x hst (by omega) h2 (.inr (by rw [hlim]; exact h1))

structure NewStack (L : Symbols) (W : Slots C) (s : State U C) (d : C) (k tf : UInt32) : Prop where
  pointer : word (forked L W s d k tf) (W.slot d) = k + 3996
  context : contextAt (forked L W s d k tf) (k + 3996) = ⟨0,0,0,0,L.forkret⟩
  ret : word (forked L W s d k tf) (UInt32.ofNat (k.toNat + 4096 - 80)) = L.trapret
  frame : trapframeAt (forked L W s d k tf) (UInt32.ofNat (k.toNat + 4096 - 76)) =
    { trapframeAt s.mem tf with eax := 0 }
  rest : ∀ x, x < k.toNat ∨ k.toNat + 4096 ≤ x → x < (W.slot d).toNat ∨ (W.slot d).toNat + 4 ≤ x →
    forked L W s d k tf x = s.mem x

theorem Fresh.newStack {k tf : UInt32} (hf : Fresh W s u d k tf) (h : Inv L W s) :
    NewStack L W s d k tf := by
  have hk := hf.below
  obtain ⟨c,lo,hi,hc,hst,htlo,hthi⟩ := hf.parent
  have hbc := h.below c lo hi hst
  have hkc := hf.regions c lo hi hst
  obtain ⟨hctx,hret,hframe,hout⟩ := @childStack_spec L s.mem k tf hk (by omega) (by omega)
  have hslot := hf.slots d
  have hnew : ∀ x, k.toNat ≤ x → x < k.toNat + 4096 → forked L W s d k tf x = childStack L s.mem k tf x :=
    fun x h1 h2 => putWord_outside (by omega)
  have hadd : ∀ n : UInt32, n.toNat ≤ 4096 → (k + n).toNat = k.toNat + n.toNat :=
    fun n hn => toNat_add_of_lt (by omega)
  have e1 : (k + 3996).toNat = k.toNat + 3996 := hadd 3996 (by decide)
  have e2 : (k + 4016).toNat = k.toNat + 4016 := hadd 4016 (by decide)
  have e3 : (k + 4020).toNat = k.toNat + 4020 := hadd 4020 (by decide)
  have a2 : UInt32.ofNat (k.toNat + 4096 - 80) = k + 4016 :=
    UInt32.toNat_inj.mp (by rw [toNat_ofNat_of_lt (by omega),e2]; omega)
  have a3 : UInt32.ofNat (k.toNat + 4096 - 76) = k + 4020 :=
    UInt32.toNat_inj.mp (by rw [toNat_ofNat_of_lt (by omega),e3]; omega)
  refine ⟨word_putWord _ _ _,?_,?_,?_,fun x h1 h2 => ?_⟩
  · rw [← hctx]
    exact contextAt_congr (by omega) (fun x h1 h2 => hnew x (by omega) (by omega))
  · rw [a2,← hret]
    exact word_congr (fun x h1 h2 => hnew x (by omega) (by omega))
  · rw [a3,← hframe]
    exact trapframeAt_congr (by omega) (fun x h1 h2 => hnew x (by omega) (by omega))
  · rw [forked,putWord_outside h2,hout x h1]

theorem Inv.resumes {f : Trapframe} (h : Inv L W s) (hs : s.stack c = some (lo,hi)) (hf : s.child c = some f)
    (hesp : ((s.regs u).reg .esp).toNat = hi - 80) (hcs : (s.regs u).seg .cs % 4 = 0) :
    ((s.machine u).exec [.ret]).eip = L.trapret ∧
      Resumes ((s.machine u).exec (.ret :: trapret)).toRegisters { f with eax := 0 } := by
  obtain ⟨lo',hi',hs',hle,hret,hframe,huser⟩ := h.frames c f hf
  obtain ⟨rfl,rfl⟩ : lo' = lo ∧ hi' = hi := by simpa [hs'] using hs
  have hb := h.below c lo' hi' hs
  have e1 : (s.regs u).reg .esp = UInt32.ofNat (hi' - 80) :=
    UInt32.toNat_inj.mp (by rw [toNat_ofNat_of_lt (by omega),hesp])
  have e2 : (s.regs u).reg .esp + 4 = UInt32.ofNat (hi' - 76) := by
    apply UInt32.toNat_inj.mp
    rw [toNat_ofNat_of_lt (by omega),toNat_add_of_lt (by simp; omega),hesp]
    change hi' - 80 + 4 = hi' - 76
    omega
  refine ⟨?_,?_⟩
  · change word s.mem ((s.regs u).reg .esp) = L.trapret
    rw [e1,hret]
  · have hm : ((s.machine u).step .ret).reg .esp = UInt32.ofNat (hi' - 76) := by
      rw [← e2]
      simp [Machine.step,State.machine]
    have hmem : ((s.machine u).step .ret).mem = s.mem := rfl
    have hseg : ((s.machine u).step .ret).seg = (s.regs u).seg := rfl
    have hr := trapret_resumes ((s.machine u).step .ret)
    rw [hm,hmem,hseg,hframe,hcs] at hr
    rw [exec_cons]
    apply hr
    change 0 < f.cs % 4
    rw [huser]
    decide

end UoDOS.ContextSwitch
