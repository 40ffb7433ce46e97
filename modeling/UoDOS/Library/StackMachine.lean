import UoDOS.Library.ByteMemory

/-! # A machine with a stack in memory

The registers of a 32-bit x86 processor and the instructions that move words between them and a
stack: enough to run the code that saves and restores registers.
-/
namespace UoDOS.StackMachine
open ByteMemory Function

inductive Reg
  | eax | ecx | edx | ebx | esp | ebp | esi | edi
  deriving DecidableEq

inductive Seg
  | cs | ds | es | fs | gs | ss
  deriving DecidableEq

structure Registers where
  reg : Reg → UInt32
  seg : Seg → UInt16
  eip : UInt32
  eflags : UInt32

structure Machine extends Registers where
  mem : Bytes

inductive Instr
  /-- `mov dst, [base + offset]` -/
  | load (dst base : Reg) (offset : UInt32)
  /-- `mov [base], src` -/
  | store (base src : Reg)
  | mov (dst src : Reg)
  | push (r : Reg)
  | pop (r : Reg)
  | pushSeg (s : Seg)
  | popSeg (s : Seg)
  | pushad
  | popad
  | addEsp (n : UInt32)
  | ret
  | iret

def word (b : Bytes) (a : UInt32) : UInt32 := UInt32.ofNat (readWord b a.toNat)

def putWord (b : Bytes) (a v : UInt32) : Bytes := writeWord b a.toNat v.toNat

namespace Machine

def set (m : Machine) (r : Reg) (v : UInt32) : Machine := { m with reg := update m.reg r v }

def setSeg (m : Machine) (s : Seg) (v : UInt32) : Machine :=
  { m with seg := update m.seg s v.toUInt16 }

def pushWord (m : Machine) (v : UInt32) : Machine :=
  let sp := m.reg .esp - 4
  { m.set .esp sp with mem := putWord m.mem sp v }

def top (m : Machine) : UInt32 := word m.mem (m.reg .esp)

def drop (m : Machine) (n : UInt32) : Machine := m.set .esp (m.reg .esp + n)

/-- `iret` also takes the stack pointer if it goes to an outer ring. -/
def iret (m : Machine) : Machine :=
  let ring := m.seg .cs % 4
  let m := { m.drop 4 with eip := m.top }
  let m := (m.setSeg .cs m.top).drop 4
  let m := { m.drop 4 with eflags := m.top }
  if ring < m.seg .cs % 4 then
    let esp := m.top
    let m := m.drop 4
    (m.setSeg .ss m.top).set .esp esp
  else m

def step (m : Machine) : Instr → Machine
  | .load dst base offset => m.set dst (word m.mem (m.reg base + offset))
  | .store base src => { m with mem := putWord m.mem (m.reg base) (m.reg src) }
  | .mov dst src => m.set dst (m.reg src)
  | .push r => m.pushWord (m.reg r)
  | .pop r => (m.drop 4).set r m.top
  | .pushSeg s => m.pushWord (m.seg s).toUInt32
  | .popSeg s => (m.drop 4).setSeg s m.top
  | .pushad =>
    let m' := [.eax,.ecx,.edx,.ebx].foldl (fun m' r => m'.pushWord (m.reg r)) m
    let m' := m'.pushWord (m.reg .esp)
    [.ebp,.esi,.edi].foldl (fun m' r => m'.pushWord (m.reg r)) m'
  | .popad =>
    let m := [.edi,.esi,.ebp].foldl (fun m r => (m.drop 4).set r m.top) m
    let m := m.drop 4
    [.ebx,.edx,.ecx,.eax].foldl (fun m r => (m.drop 4).set r m.top) m
  | .addEsp n => m.drop n
  | .ret => { m.drop 4 with eip := m.top }
  | .iret => m.iret

def exec (m : Machine) (code : List Instr) : Machine := code.foldl step m

theorem exec_cons (m : Machine) (i : Instr) (code : List Instr) :
    m.exec (i :: code) = (m.step i).exec code := rfl

section Fields
variable (m : Machine) (r r' : Reg) (s s' : Seg) (v n : UInt32)

@[simp] theorem set_mem : (m.set r v).mem = m.mem := rfl

@[simp] theorem set_seg : (m.set r v).seg = m.seg := rfl

@[simp] theorem set_eip : (m.set r v).eip = m.eip := rfl

@[simp] theorem set_eflags : (m.set r v).eflags = m.eflags := rfl

@[simp] theorem set_reg : (m.set r v).reg r' = if r' = r then v else m.reg r' := by
  simp [set,update_apply]

@[simp] theorem setSeg_mem : (m.setSeg s v).mem = m.mem := rfl

@[simp] theorem setSeg_reg : (m.setSeg s v).reg = m.reg := rfl

@[simp] theorem setSeg_eip : (m.setSeg s v).eip = m.eip := rfl

@[simp] theorem setSeg_eflags : (m.setSeg s v).eflags = m.eflags := rfl

@[simp] theorem setSeg_seg : (m.setSeg s v).seg s' = if s' = s then v.toUInt16 else m.seg s' := by
  simp [setSeg,update_apply]

@[simp] theorem drop_mem : (m.drop n).mem = m.mem := rfl

@[simp] theorem drop_seg : (m.drop n).seg = m.seg := rfl

@[simp] theorem drop_eip : (m.drop n).eip = m.eip := rfl

@[simp] theorem drop_eflags : (m.drop n).eflags = m.eflags := rfl

@[simp] theorem drop_reg : (m.drop n).reg r = if r = .esp then m.reg .esp + n else m.reg r := by
  simp [drop]

@[simp] theorem pushWord_seg : (m.pushWord v).seg = m.seg := rfl

@[simp] theorem pushWord_reg : (m.pushWord v).reg r = if r = .esp then m.reg .esp - 4 else m.reg r := by
  simp [pushWord]

@[simp] theorem pushWord_mem : (m.pushWord v).mem = putWord m.mem (m.reg .esp - 4) v := rfl

end Fields
end Machine

theorem toNat_add_of_lt {a n : UInt32} (h : a.toNat + n.toNat < 2^32) :
    (a + n).toNat = a.toNat + n.toNat := by
  rw [UInt32.toNat_add]
  exact Nat.mod_eq_of_lt h

theorem toNat_ofNat_of_lt {n : ℕ} (h : n < 2^32) : (UInt32.ofNat n).toNat = n :=
  UInt32.toNat_ofNat_of_lt' h

theorem toNat_sub_four {a : UInt32} (h : 4 ≤ a.toNat) : (a - 4).toNat = a.toNat - 4 :=
  UInt32.toNat_sub_of_le a 4 (UInt32.le_iff_toNat_le.mpr h)

variable {b b' : Bytes}

theorem word_congr {a : UInt32} (h : ∀ x, a.toNat ≤ x → x < a.toNat + 4 → b' x = b x) :
    word b' a = word b a := by
  rw [word,readWord_congr h,word]

theorem word_putWord (b : Bytes) (a v : UInt32) : word (putWord b a v) a = v := by
  rw [word,putWord,readWord_writeWord _ _ _ v.toNat_lt]
  exact UInt32.ofNat_toNat

theorem putWord_outside {a v : UInt32} {x : ℕ} (h : x < a.toNat ∨ a.toNat + 4 ≤ x) :
    putWord b a v x = b x := if_neg (by omega)

theorem word_putWord_of_disjoint {a a' v : UInt32} (h : a.toNat + 4 ≤ a'.toNat ∨ a'.toNat + 4 ≤ a.toNat) :
    word (putWord b a v) a' = word b a' := by
  apply word_congr
  intro x h1 h2
  exact putWord_outside (by omega)

def pushes (b : Bytes) (sp : UInt32) : List UInt32 → Bytes
  | [] => b
  | v :: vs => pushes (putWord b (sp - 4) v) (sp - 4) vs

theorem pushes_outside {sp : UInt32} {vs : List UInt32} (h : 4 * vs.length ≤ sp.toNat) {x : ℕ}
    (hx : x < sp.toNat - 4 * vs.length ∨ sp.toNat ≤ x) : pushes b sp vs x = b x := by
  induction vs generalizing b sp with
  | nil => rfl
  | cons v vs ih =>
    simp only [List.length_cons] at h hx
    have hs := toNat_sub_four (a := sp) (by omega)
    rw [pushes,ih (by omega) (by omega),putWord_outside (by omega)]

theorem word_pushes {sp a : UInt32} {vs : List UInt32} (h : 4 * vs.length ≤ sp.toNat) {i : ℕ}
    (hi : i < vs.length) (ha : a.toNat = sp.toNat - 4 * (i + 1)) : word (pushes b sp vs) a = vs[i] := by
  induction vs generalizing b sp i with
  | nil => cases hi
  | cons v vs ih =>
    simp only [List.length_cons] at h hi
    have hs := toNat_sub_four (a := sp) (by omega)
    cases i with
    | zero =>
      obtain rfl : a = sp - 4 := UInt32.toNat_inj.mp (by rw [ha,hs])
      rw [pushes,word_congr (b := putWord b (sp - 4) v)
        (fun x h1 h2 => pushes_outside (by omega) (.inr h1)),word_putWord]
      rfl
    | succ i => exact ih (by omega) (by omega) (by rw [ha,hs]; omega)

theorem word_move {dst src o : UInt32} {n : ℕ} (hd : dst.toNat + n < 2^32) (hs : src.toNat + n < 2^32)
    (ho : o.toNat + 4 ≤ n) : word (move b dst.toNat src.toNat n) (dst + o) = word b (src + o) := by
  rw [word,word,toNat_add_of_lt (by omega),toNat_add_of_lt (by omega)]
  congr 1
  have hb : ∀ i < 4, move b dst.toNat src.toNat n (dst.toNat + o.toNat + i) = b (src.toNat + o.toNat + i) := by
    intro i hi
    rw [move,if_pos (by omega)]
    congr 1
    omega
  have h0 := hb 0 (by omega)
  simp only [Nat.add_zero] at h0
  simp only [readWord,h0,hb 1 (by omega),hb 2 (by omega),hb 3 (by omega)]

theorem word_fill_zero {a : UInt32} {p n : ℕ} (h1 : p ≤ a.toNat) (h2 : a.toNat + 4 ≤ p + n) :
    word (fill b p n 0) a = 0 := by
  rw [word,readWord_fill_inside b h1 h2]
  rfl

end UoDOS.StackMachine
