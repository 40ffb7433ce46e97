import UoDOS.Library.StackMachine

/-! # Contexts and trap frames on kernel stacks

The code of swtch.asm and trapasm.asm, the layout of the structures Context and Trapframe, and
the stack that allocateProcess and fork prepare for a child.
-/
namespace UoDOS.ContextSwitch
open ByteMemory StackMachine StackMachine.Machine

def KSTACKSIZE : ℕ := 4096
def sizeofTrapframe : ℕ := 76
def sizeofContext : ℕ := 20

def swtch : List Instr :=
  [.load .eax .esp 4,.load .edx .esp 8,
    .push .ebp,.push .ebx,.push .esi,.push .edi,
    .store .eax .esp,.mov .esp .edx,
    .pop .edi,.pop .esi,.pop .ebx,.pop .ebp,.ret]

def alltraps : List Instr := [.pushSeg .ds,.pushSeg .es,.pushSeg .fs,.pushSeg .gs,.pushad]

def trapret : List Instr := [.popad,.popSeg .gs,.popSeg .fs,.popSeg .es,.popSeg .ds,.addEsp 8,.iret]

structure Context where
  edi : UInt32
  esi : UInt32
  ebx : UInt32
  ebp : UInt32
  eip : UInt32

def contextAt (b : Bytes) (a : UInt32) : Context where
  edi := word b a
  esi := word b (a + 4)
  ebx := word b (a + 8)
  ebp := word b (a + 12)
  eip := word b (a + 16)

structure Trapframe where
  edi : UInt32
  esi : UInt32
  ebp : UInt32
  ebx : UInt32
  edx : UInt32
  ecx : UInt32
  eax : UInt32
  gs : UInt16
  fs : UInt16
  es : UInt16
  ds : UInt16
  trapno : UInt32
  err : UInt32
  eip : UInt32
  cs : UInt16
  eflags : UInt32
  esp : UInt32
  ss : UInt16

/-- The fields of the structure at `a`; `oesp` at offset 12 is ignored by everyone. -/
def trapframeAt (b : Bytes) (a : UInt32) : Trapframe where
  edi := word b a
  esi := word b (a + 4)
  ebp := word b (a + 8)
  ebx := word b (a + 16)
  edx := word b (a + 20)
  ecx := word b (a + 24)
  eax := word b (a + 28)
  gs := (word b (a + 32)).toUInt16
  fs := (word b (a + 36)).toUInt16
  es := (word b (a + 40)).toUInt16
  ds := (word b (a + 44)).toUInt16
  trapno := word b (a + 48)
  err := word b (a + 52)
  eip := word b (a + 56)
  cs := (word b (a + 60)).toUInt16
  eflags := word b (a + 64)
  esp := word b (a + 68)
  ss := (word b (a + 72)).toUInt16

/-- What user code sees of a frame: all its registers, but not trapno and err. -/
structure Resumes (r : Registers) (f : Trapframe) : Prop where
  edi : r.reg .edi = f.edi
  esi : r.reg .esi = f.esi
  ebp : r.reg .ebp = f.ebp
  ebx : r.reg .ebx = f.ebx
  edx : r.reg .edx = f.edx
  ecx : r.reg .ecx = f.ecx
  eax : r.reg .eax = f.eax
  gs : r.seg .gs = f.gs
  fs : r.seg .fs = f.fs
  es : r.seg .es = f.es
  ds : r.seg .ds = f.ds
  eip : r.eip = f.eip
  cs : r.seg .cs = f.cs
  eflags : r.eflags = f.eflags
  esp : r.reg .esp = f.esp
  ss : r.seg .ss = f.ss

variable {b b' : Bytes} {a : UInt32}

theorem word_offset_congr {n : UInt32} {k : ℕ} (hb : a.toNat + k < 2^32)
    (h : ∀ x, a.toNat ≤ x → x < a.toNat + k → b' x = b x) (hn : n.toNat + 4 ≤ k) :
    word b' (a + n) = word b (a + n) := by
  have hadd : (a + n).toNat = a.toNat + n.toNat := toNat_add_of_lt (by omega)
  apply word_congr
  intro x h1 h2
  exact h x (by omega) (by omega)

theorem contextAt_congr (hb : a.toNat + 20 < 2^32) (h : ∀ x, a.toNat ≤ x → x < a.toNat + 20 → b' x = b x) :
    contextAt b' a = contextAt b a := by
  have h0 : word b' a = word b a := word_congr (fun x h1 h2 => h x h1 (by omega))
  simp only [contextAt,h0,word_offset_congr hb h (by decide : (4 : UInt32).toNat + 4 ≤ 20),
    word_offset_congr hb h (by decide : (8 : UInt32).toNat + 4 ≤ 20),
    word_offset_congr hb h (by decide : (12 : UInt32).toNat + 4 ≤ 20),
    word_offset_congr hb h (by decide : (16 : UInt32).toNat + 4 ≤ 20)]

theorem trapframeAt_congr (hb : a.toNat + 76 < 2^32)
    (h : ∀ x, a.toNat ≤ x → x < a.toNat + 76 → b' x = b x) : trapframeAt b' a = trapframeAt b a := by
  have h0 : word b' a = word b a := word_congr (fun x h1 h2 => h x h1 (by omega))
  have hw : ∀ n : UInt32, n.toNat + 4 ≤ 76 → word b' (a + n) = word b (a + n) :=
    fun n hn => word_offset_congr hb h hn
  simp only [trapframeAt,h0,hw 4 (by decide),hw 8 (by decide),hw 16 (by decide),hw 20 (by decide),
    hw 24 (by decide),hw 28 (by decide),hw 32 (by decide),hw 36 (by decide),hw 40 (by decide),
    hw 44 (by decide),hw 48 (by decide),hw 52 (by decide),hw 56 (by decide),hw 60 (by decide),
    hw 64 (by decide),hw 68 (by decide),hw 72 (by decide)]

theorem swtch_mem (m : Machine) : (m.exec swtch).mem =
    putWord (pushes m.mem (m.reg .esp) [m.reg .ebp,m.reg .ebx,m.reg .esi,m.reg .edi])
      (word m.mem (m.reg .esp + 4)) (m.reg .esp - 4 - 4 - 4 - 4) := by
  simp [swtch,exec,Machine.step,pushes]

theorem swtch_saves (m : Machine) {sp old : UInt32} (hsp : m.reg .esp = sp) (hold : word m.mem (sp + 4) = old)
    (hlo : 16 ≤ sp.toNat) (hhi : sp.toNat + 4 < 2^32)
    (hd : old.toNat + 4 ≤ sp.toNat - 16 ∨ sp.toNat + 4 ≤ old.toNat) :
    contextAt (m.exec swtch).mem (sp - 16) =
        ⟨m.reg .edi,m.reg .esi,m.reg .ebx,m.reg .ebp,word m.mem sp⟩ ∧
      word (m.exec swtch).mem old = sp - 16 ∧
      ∀ x, x < sp.toNat - 16 ∨ sp.toNat ≤ x → x < old.toNat ∨ old.toNat + 4 ≤ x →
        (m.exec swtch).mem x = m.mem x := by
  simp only [swtch_mem,hsp,hold]
  have a0 : sp - 4 - 4 - 4 - 4 = sp - 16 := by grind
  have a4 : sp - 16 + 16 = sp := by grind
  have hsub : (sp - 16).toNat = sp.toNat - 16 :=
    UInt32.toNat_sub_of_le sp 16 (UInt32.le_iff_toNat_le.mpr hlo)
  have hadd : ∀ n : UInt32, n.toNat ≤ 16 → (sp - 16 + n).toNat = sp.toNat - 16 + n.toNat := by
    intro n hn
    rw [toNat_add_of_lt (by omega),hsub]
  have e4 := hadd 4 (by decide)
  have e8 := hadd 8 (by decide)
  have e12 := hadd 12 (by decide)
  simp only [UInt32.reduceToNat] at e4 e8 e12
  -- the words pushed, at a place that the store to `old` does not touch
  have hw : ∀ {a : UInt32} {i : ℕ} (hi : i < 4), a.toNat = sp.toNat - 4 * (i + 1) →
      word (putWord (pushes m.mem sp [m.reg .ebp,m.reg .ebx,m.reg .esi,m.reg .edi]) old (sp - 16)) a =
        [m.reg .ebp,m.reg .ebx,m.reg .esi,m.reg .edi][i] := by
    intro a i hi ha
    rw [word_putWord_of_disjoint (by omega)]
    exact word_pushes (by simpa using hlo) hi ha
  have hout : ∀ x, x < sp.toNat - 16 ∨ sp.toNat ≤ x → x < old.toNat ∨ old.toNat + 4 ≤ x →
      putWord (pushes m.mem sp [m.reg .ebp,m.reg .ebx,m.reg .esi,m.reg .edi]) old (sp - 16) x = m.mem x := by
    intro x h1 h2
    rw [putWord_outside h2,pushes_outside (by simpa using hlo) (by simpa using h1)]
  rw [a0]
  refine ⟨?_,word_putWord _ _ _,hout⟩
  rw [contextAt,a4,Context.mk.injEq]
  refine ⟨hw (i := 3) (by omega) (by omega),hw (i := 2) (by omega) (by omega),
    hw (i := 1) (by omega) (by omega),hw (i := 0) (by omega) (by omega),?_⟩
  exact word_congr (fun x h1 h2 => hout x (by omega) (by omega))

theorem swtch_registers (m : Machine) :
    let c := contextAt (m.exec swtch).mem (word m.mem (m.reg .esp + 8))
    (m.exec swtch).reg .edi = c.edi ∧ (m.exec swtch).reg .esi = c.esi ∧ (m.exec swtch).reg .ebx = c.ebx ∧
      (m.exec swtch).reg .ebp = c.ebp ∧ (m.exec swtch).eip = c.eip ∧
      (m.exec swtch).reg .esp = word m.mem (m.reg .esp + 8) + 20 := by
  refine ⟨?_,?_,?_,?_,?_,?_⟩ <;>
    simp [swtch,exec,Machine.step,Machine.top,contextAt,UInt32.add_assoc]

theorem trapret_resumes (m : Machine) (h : m.seg .cs % 4 < (trapframeAt m.mem (m.reg .esp)).cs % 4) :
    Resumes (m.exec trapret).toRegisters (trapframeAt m.mem (m.reg .esp)) := by
  simp only [trapframeAt] at h
  constructor <;>
    simp [trapret,exec,Machine.step,Machine.top,Machine.iret,trapframeAt,UInt32.add_assoc,h]

theorem alltraps_frame (m : Machine) {sp : UInt32} (hsp : m.reg .esp = sp) (hlo : 48 ≤ sp.toNat)
    (hhi : sp.toNat + 28 < 2^32) : (m.exec alltraps).reg .esp = sp - 48 ∧
      trapframeAt (m.exec alltraps).mem (sp - 48) =
        ⟨m.reg .edi,m.reg .esi,m.reg .ebp,m.reg .ebx,m.reg .edx,m.reg .ecx,m.reg .eax,
          m.seg .gs,m.seg .fs,m.seg .es,m.seg .ds,word m.mem sp,word m.mem (sp + 4),word m.mem (sp + 8),
          (word m.mem (sp + 12)).toUInt16,word m.mem (sp + 16),word m.mem (sp + 20),
          (word m.mem (sp + 24)).toUInt16⟩ := by
  have a0 : sp - 4 - 4 - 4 - 4 - 4 - 4 - 4 - 4 - 4 - 4 - 4 - 4 = sp - 48 := by grind
  refine ⟨by simp [alltraps,exec,Machine.step,hsp,a0],?_⟩
  have hmem : (m.exec alltraps).mem = pushes m.mem sp [(m.seg .ds).toUInt32,(m.seg .es).toUInt32,
      (m.seg .fs).toUInt32,(m.seg .gs).toUInt32,m.reg .eax,m.reg .ecx,m.reg .edx,m.reg .ebx,
      sp - 4 - 4 - 4 - 4,m.reg .ebp,m.reg .esi,m.reg .edi] := by
    simp [alltraps,exec,Machine.step,pushes,hsp]
  have hsub : (sp - 48).toNat = sp.toNat - 48 :=
    UInt32.toNat_sub_of_le sp 48 (UInt32.le_iff_toNat_le.mpr hlo)
  have hin : ∀ (n : UInt32) (i : ℕ) (hi : i < 12), n.toNat + 4 * (i + 1) = 48 →
      word (m.exec alltraps).mem (sp - 48 + n) = [(m.seg .ds).toUInt32,(m.seg .es).toUInt32,
        (m.seg .fs).toUInt32,(m.seg .gs).toUInt32,m.reg .eax,m.reg .ecx,m.reg .edx,m.reg .ebx,
        sp - 4 - 4 - 4 - 4,m.reg .ebp,m.reg .esi,m.reg .edi][i] := by
    intro n i hi hn
    rw [hmem]
    exact word_pushes (by simpa using hlo) hi (by rw [toNat_add_of_lt (by omega),hsub]; omega)
  have hup : ∀ n k : UInt32, n = 48 + k → k.toNat ≤ 24 →
      word (m.exec alltraps).mem (sp - 48 + n) = word m.mem (sp + k) := by
    rintro n k rfl hk
    have ha : sp - 48 + (48 + k) = sp + k := by grind
    have hk' : (sp + k).toNat = sp.toNat + k.toNat := toNat_add_of_lt (by omega)
    rw [ha,hmem]
    exact word_congr (fun x h1 h2 => pushes_outside (by simpa using hlo) (.inr (by omega)))
  have h0 := hin 0 11 (by omega) (by decide)
  have h48 := hup 48 0 (by decide) (by decide)
  rw [show sp - 48 + 0 = sp - 48 by grind] at h0
  rw [show sp + 0 = sp by grind] at h48
  simp only [trapframeAt,h0,h48,hin 4 10 (by omega) (by decide),hin 8 9 (by omega) (by decide),
    hin 16 7 (by omega) (by decide),hin 20 6 (by omega) (by decide),hin 24 5 (by omega) (by decide),
    hin 28 4 (by omega) (by decide),hin 32 3 (by omega) (by decide),hin 36 2 (by omega) (by decide),
    hin 40 1 (by omega) (by decide),hin 44 0 (by omega) (by decide),hup 52 4 (by decide) (by decide),
    hup 56 8 (by decide) (by decide),hup 60 12 (by decide) (by decide),hup 64 16 (by decide) (by decide),
    hup 68 20 (by decide) (by decide),hup 72 24 (by decide) (by decide)]
  simp

structure Symbols where
  forkret : UInt32
  trapret : UInt32

def allocateStack (L : Symbols) (b : Bytes) (k : UInt32) : Bytes :=
  let sp := k + 4096 - 76 - 4
  let b := putWord b sp L.trapret
  let b := fill b (sp - 20).toNat sizeofContext 0
  putWord b (sp - 20 + 16) L.forkret

/-- The child's frame at `tf'`: fork copies the parent's at `tf` and clears eax. -/
def copyTrapframe (b : Bytes) (tf' tf : UInt32) : Bytes :=
  putWord (move b tf'.toNat tf.toNat sizeofTrapframe) (tf' + 28) 0

def childStack (L : Symbols) (b : Bytes) (k tf : UInt32) : Bytes :=
  copyTrapframe (allocateStack L b k) (k + 4096 - 76) tf

theorem allocateStack_spec (L : Symbols) (b : Bytes) {k : UInt32} (hk : k.toNat + 4096 < 2^32) :
    contextAt (allocateStack L b k) (k + 3996) = ⟨0,0,0,0,L.forkret⟩ ∧
      word (allocateStack L b k) (k + 4016) = L.trapret ∧
      ∀ x, x < k.toNat + 3996 ∨ k.toNat + 4020 ≤ x → allocateStack L b k x = b x := by
  have a0 : k + 4096 - 76 - 4 = k + 4016 := by grind
  have a1 : k + 4016 - 20 = k + 3996 := by grind
  have hadd : ∀ n : UInt32, n.toNat ≤ 4096 → (k + n).toNat = k.toNat + n.toNat :=
    fun n hn => toNat_add_of_lt (by omega)
  have e1 : (k + 3996).toNat = k.toNat + 3996 := hadd 3996 (by decide)
  have e2 : (k + 4016).toNat = k.toNat + 4016 := hadd 4016 (by decide)
  have e3 : (k + 4012).toNat = k.toNat + 4012 := hadd 4012 (by decide)
  have b1 : k + 3996 + 4 = k + 4000 := by grind
  have b2 : k + 3996 + 8 = k + 4004 := by grind
  have b3 : k + 3996 + 12 = k + 4008 := by grind
  have b4 : k + 3996 + 16 = k + 4012 := by grind
  have e4 : (k + 4000).toNat = k.toNat + 4000 := hadd 4000 (by decide)
  have e5 : (k + 4004).toNat = k.toNat + 4004 := hadd 4004 (by decide)
  have e6 : (k + 4008).toNat = k.toNat + 4008 := hadd 4008 (by decide)
  simp only [allocateStack,a0,a1,b4,sizeofContext]
  refine ⟨?_,?_,fun x hx => ?_⟩
  · rw [contextAt,b1,b2,b3,b4,word_putWord,Context.mk.injEq]
    refine ⟨?_,?_,?_,?_,rfl⟩
    · rw [word_putWord_of_disjoint (by omega),word_fill_zero (by omega) (by omega)]
    · rw [word_putWord_of_disjoint (by omega),word_fill_zero (by omega) (by omega)]
    · rw [word_putWord_of_disjoint (by omega),word_fill_zero (by omega) (by omega)]
    · rw [word_putWord_of_disjoint (by omega),word_fill_zero (by omega) (by omega)]
  · rw [word_putWord_of_disjoint (by omega)]
    have hfill : word (fill (putWord b (k + 4016) L.trapret) (k + 3996).toNat 20 0) (k + 4016) =
        word (putWord b (k + 4016) L.trapret) (k + 4016) :=
      word_congr (fun x h1 h2 => if_neg (by omega))
    rw [hfill,word_putWord]
  · rw [putWord_outside (by omega),fill,if_neg (by omega),putWord_outside (by omega)]

theorem copyTrapframe_spec (b : Bytes) {a tf : UInt32} (ha : a.toNat + 76 < 2^32) (htf : tf.toNat + 76 < 2^32) :
    trapframeAt (copyTrapframe b a tf) a = { trapframeAt b tf with eax := 0 } ∧
      ∀ x, x < a.toNat ∨ a.toNat + 76 ≤ x → copyTrapframe b a tf x = b x := by
  have h28 : (a + 28).toNat = a.toNat + 28 := toNat_add_of_lt (by simp; omega)
  have hw : ∀ n : UInt32, n.toNat + 4 ≤ 76 → n.toNat + 4 ≤ 28 ∨ 32 ≤ n.toNat →
      word (copyTrapframe b a tf) (a + n) = word b (tf + n) := by
    intro n h1 h2
    have hn : (a + n).toNat = a.toNat + n.toNat := toNat_add_of_lt (by omega)
    rw [copyTrapframe,word_putWord_of_disjoint (by omega)]
    exact word_move ha htf h1
  have h0 : word (copyTrapframe b a tf) a = word b tf := by
    simpa using hw 0 (by decide) (by decide)
  have heax : word (copyTrapframe b a tf) (a + 28) = 0 := word_putWord _ _ _
  refine ⟨?_,fun x hx => ?_⟩
  · simp only [trapframeAt,h0,heax,hw 4 (by decide) (by decide),hw 8 (by decide) (by decide),
      hw 16 (by decide) (by decide),hw 20 (by decide) (by decide),hw 24 (by decide) (by decide),
      hw 32 (by decide) (by decide),hw 36 (by decide) (by decide),hw 40 (by decide) (by decide),
      hw 44 (by decide) (by decide),hw 48 (by decide) (by decide),hw 52 (by decide) (by decide),
      hw 56 (by decide) (by decide),hw 60 (by decide) (by decide),hw 64 (by decide) (by decide),
      hw 68 (by decide) (by decide),hw 72 (by decide) (by decide)]
  · rw [copyTrapframe,putWord_outside (by omega),move,sizeofTrapframe,if_neg (by omega)]

theorem childStack_spec (L : Symbols) (b : Bytes) {k tf : UInt32} (hk : k.toNat + 4096 < 2^32)
    (htf : tf.toNat + 76 < 2^32) (hd : tf.toNat + 76 ≤ k.toNat ∨ k.toNat + 4096 ≤ tf.toNat) :
    contextAt (childStack L b k tf) (k + 3996) = ⟨0,0,0,0,L.forkret⟩ ∧
      word (childStack L b k tf) (k + 4016) = L.trapret ∧
      trapframeAt (childStack L b k tf) (k + 4020) = { trapframeAt b tf with eax := 0 } ∧
      ∀ x, x < k.toNat ∨ k.toNat + 4096 ≤ x → childStack L b k tf x = b x := by
  have a0 : k + 4096 - 76 = k + 4020 := by grind
  have hadd : ∀ n : UInt32, n.toNat ≤ 4096 → (k + n).toNat = k.toNat + n.toNat :=
    fun n hn => toNat_add_of_lt (by omega)
  have e1 : (k + 3996).toNat = k.toNat + 3996 := hadd 3996 (by decide)
  have e2 : (k + 4016).toNat = k.toNat + 4016 := hadd 4016 (by decide)
  have e3 : (k + 4020).toNat = k.toNat + 4020 := hadd 4020 (by decide)
  obtain ⟨hc,ht,hout⟩ := allocateStack_spec L b hk
  obtain ⟨hf,hout'⟩ := copyTrapframe_spec (allocateStack L b k) (a := k + 4020) (by omega) htf
  rw [childStack,a0]
  refine ⟨?_,?_,?_,fun x hx => ?_⟩
  · rw [← hc]
    exact contextAt_congr (by omega) (fun x h1 h2 => hout' x (by omega))
  · rw [← ht]
    exact word_congr (fun x h1 h2 => hout' x (by omega))
  · rw [hf,trapframeAt_congr htf (fun x h1 h2 => hout x (by omega))]
  · rw [hout' x (by omega),hout x (by omega)]

end UoDOS.ContextSwitch
