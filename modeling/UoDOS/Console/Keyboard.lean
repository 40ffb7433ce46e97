import Mathlib.Data.Finset.Basic
import Mathlib.Data.List.Basic

/-! # The keyboard

kbdgetc of kbd.c with the tables of kbd.h. Its shift state follows the keys that are held, but
the two keys of one modifier share a bit, and a release of one of them clears it.
-/
namespace UoDOS.Keyboard

def KBS_DIB : BitVec 8 := 0x01
def NO : BitVec 8 := 0
def SHIFT : BitVec 32 := 1 <<< 0
def CTL : BitVec 32 := 1 <<< 1
def ALT : BitVec 32 := 1 <<< 2
def CAPSLOCK : BitVec 32 := 1 <<< 3
def NUMLOCK : BitVec 32 := 1 <<< 4
def SCROLLLOCK : BitVec 32 := 1 <<< 5
def E0ESC : BitVec 32 := 1 <<< 6

section Tables

/-- A table with its first entries, and those that are given with their index. -/
def table (first : List (BitVec 8)) (others : List (BitVec 8 × BitVec 8)) (i : BitVec 8) : BitVec 8 :=
  (others.lookup i).getD (first.getD i.toNat 0)

def ascii (s : String) : List (BitVec 8) := s.toList.map fun c => BitVec.ofNat 8 c.toNat

def ctl (s : String) : List (BitVec 8) := (ascii s).map (· - 0x40)

def shiftcode : BitVec 8 → BitVec 8 :=
  table [] [(0x1D,CTL.setWidth 8),(0x2A,SHIFT.setWidth 8),(0x36,SHIFT.setWidth 8),(0x38,ALT.setWidth 8),
    (0x9D,CTL.setWidth 8),(0xB8,ALT.setWidth 8)]

def togglecode : BitVec 8 → BitVec 8 :=
  table [] [(0x3A,CAPSLOCK.setWidth 8),(0x45,NUMLOCK.setWidth 8),(0x46,SCROLLLOCK.setWidth 8)]

/-- The keys behind the prefix, from KP_Enter and KP_Div to the arrows and the block above them. -/
def extendedKeys (enter div : BitVec 8) : List (BitVec 8 × BitVec 8) :=
  [(0x9C,enter),(0xB5,div),(0xC8,0xE2),(0xD0,0xE3),(0xC9,0xE6),(0xD1,0xE7),(0xCB,0xE4),(0xCD,0xE5),(0x97,0xE0),
    (0xCF,0xE1),(0xD2,0xE8),(0xD3,0xE9)]

def keypad : List (BitVec 8) := List.replicate 13 NO ++ ascii "789-456+1230." ++ List.replicate 4 NO

def normalmap : BitVec 8 → BitVec 8 :=
  table ([NO,0x1B] ++ ascii "1234567890-=\x08\tqwertyuiop[]\n" ++ [NO] ++ ascii "asdfghjkl;'\x60" ++ [NO] ++
    ascii "\\zxcvbnm,./" ++ [NO,0x2A,NO,0x20] ++ keypad) (extendedKeys 0x0A 0x2F)

def shiftmap : BitVec 8 → BitVec 8 :=
  table ([NO,0x1B] ++ ascii "!@#$%^&*()_+\x08\tQWERTYUIOP\x7b\x7d\n" ++ [NO] ++ ascii "ASDFGHJKL:\x22~" ++ [NO] ++
    ascii "|ZXCVBNM<>?" ++ [NO,0x2A,NO,0x20] ++ keypad) (extendedKeys 0x0A 0x2F)

def ctlmap : BitVec 8 → BitVec 8 :=
  table (List.replicate 16 NO ++ ctl "QWERTYUIOP" ++ [NO,NO,0x0D,NO] ++ ctl "ASDFGHJKL" ++ List.replicate 4 NO ++
    ctl "\\ZXCVBNM" ++ [NO,NO] ++ ctl "/" ++ [NO,NO]) (extendedKeys 0x0D (0x2F - 0x40))

def charcode (i : BitVec 32) : BitVec 8 → BitVec 8 :=
  if i = 0 then normalmap else if i = 1 then shiftmap else ctlmap

end Tables

/-- kbdgetc with what it reads from the two ports: the character, and the next shift state. -/
def kbdgetc (st data : BitVec 8) (shift : BitVec 32) : BitVec 32 × BitVec 32 :=
  if st &&& KBS_DIB = 0 then (-1,shift)
  else if data = 0xE0 then (0,shift ||| E0ESC)
  else if data &&& 0x80 ≠ 0 then
    -- key released
    let data := if shift &&& E0ESC ≠ 0 then data else data &&& 0x7F
    (0,shift &&& ~~~((shiftcode data).setWidth 32 ||| E0ESC))
  else
    -- after the prefix, the upper half of the tables
    let (data,shift) := if shift &&& E0ESC ≠ 0 then (data ||| 0x80,shift &&& ~~~E0ESC) else (data,shift)
    let shift := shift ||| (shiftcode data).setWidth 32
    let shift := shift ^^^ (togglecode data).setWidth 32
    let c : BitVec 32 := (charcode (shift &&& (CTL ||| SHIFT)) data).setWidth 32
    let c := if shift &&& CAPSLOCK ≠ 0 then
        if 0x61 ≤ c ∧ c ≤ 0x7A then c + (0x41 - 0x61)
        else if 0x41 ≤ c ∧ c ≤ 0x5A then c + (0x61 - 0x41)
        else c
      else c
    (c,shift)

/-- The shift state after bytes from the keyboard, each with a status byte. -/
def receive (st : BitVec 8) (shift : BitVec 32) (bytes : List (BitVec 8)) : BitVec 32 :=
  bytes.foldl (fun shift data => (kbdgetc st data shift).2) shift

section Keys

inductive Modifier
  | shift
  | ctl
  | alt
  deriving DecidableEq

def Modifier.place : Modifier → ℕ
  | .shift => 0
  | .ctl => 1
  | .alt => 2

def Modifier.bit : Modifier → BitVec 32
  | .shift => SHIFT
  | .ctl => CTL
  | .alt => ALT

structure Key where
  extended : Bool
  code : BitVec 7
  code_ne : code ≠ 0x60
  deriving DecidableEq

def Key.modifier (k : Key) : Option Modifier :=
  if k.code = 0x2A ∧ k.extended = false then some .shift
  else if k.code = 0x36 ∧ k.extended = false then some .shift
  else if k.code = 0x1D then some .ctl
  else if k.code = 0x38 then some .alt
  else none

inductive Event
  | press (k : Key)
  | release (k : Key)
  deriving DecidableEq

def Event.key : Event → Key
  | .press k => k
  | .release k => k

def Key.leading (k : Key) : List (BitVec 8) := if k.extended then [0xE0] else []

def Event.codes : Event → List (BitVec 8)
  | .press k => k.leading ++ [k.code.setWidth 8]
  | .release k => k.leading ++ [k.code.setWidth 8 ||| 0x80]

def hold (keys : Finset Key) : Event → Finset Key
  | .press k => insert k keys
  | .release k => keys.erase k

def held (es : List Event) : Finset Key := es.foldl hold ∅

/-- The last event of the modifier is the release of one of its keys while another one is held. -/
def Masked (m : Modifier) (es : List Event) : Prop :=
  ∃ before k after, es = before ++ .release k :: after ∧ k.modifier = some m ∧
    (∀ e ∈ after, e.key.modifier ≠ some m) ∧ ∃ k' ∈ held before, k' ≠ k ∧ k'.modifier = some m

def shiftState (st : BitVec 8) (es : List Event) : BitVec 32 := receive st 0 (es.flatMap Event.codes)

end Keys

section Bytes

theorem make_code : ∀ c : BitVec 7,
    c.setWidth 8 ≠ (0xE0 : BitVec 8) ∧ c.setWidth 8 &&& (0x80 : BitVec 8) = 0 := by
  decide +kernel

theorem break_code : ∀ c : BitVec 7, c ≠ 0x60 → c.setWidth 8 ||| (0x80 : BitVec 8) ≠ 0xE0 ∧
    (c.setWidth 8 ||| 0x80) &&& (0x80 : BitVec 8) ≠ 0 ∧
    (c.setWidth 8 ||| 0x80) &&& (0x7F : BitVec 8) = c.setWidth 8 := by
  decide +kernel

def Key.index (k : Key) : BitVec 8 := if k.extended then k.code.setWidth 8 ||| 0x80 else k.code.setWidth 8

theorem shiftcode_place (k : Key) (m : Modifier) :
    (shiftcode k.index).getLsbD m.place = true ↔ k.modifier = some m := by
  have h : ∀ (x : Bool) (c : BitVec 7), ∀ m ∈ [Modifier.shift,.ctl,.alt],
      ((shiftcode (if x then c.setWidth 8 ||| 0x80 else c.setWidth 8)).getLsbD m.place = true ↔
        (if c = 0x2A ∧ x = false then some Modifier.shift else if c = 0x36 ∧ x = false then some .shift
          else if c = 0x1D then some .ctl else if c = 0x38 then some .alt else none) = some m) := by
    decide +kernel
  exact h k.extended k.code m (by cases m <;> decide)

theorem togglecode_place (m : Modifier) : ∀ d, (togglecode d).getLsbD m.place = false := by
  cases m <;> decide +kernel

theorem tables_below_escape : ∀ d, (shiftcode d).getLsbD 6 = false ∧ (togglecode d).getLsbD 6 = false := by
  decide +kernel

theorem and_bit (x : BitVec 32) (m : Modifier) : x &&& m.bit ≠ 0 ↔ x.getLsbD m.place = true := by
  have hm : m.bit = BitVec.twoPow 32 m.place := by cases m <;> rfl
  rw [hm,BitVec.and_twoPow]
  cases m <;> cases x.getLsbD _ <;> decide

theorem and_escape (x : BitVec 32) : x &&& E0ESC ≠ 0 ↔ x.getLsbD 6 = true := by
  have hm : E0ESC = BitVec.twoPow 32 6 := rfl
  rw [hm,BitVec.and_twoPow]
  cases x.getLsbD 6 <;> decide

end Bytes

section Steps
variable {st : BitVec 8} {shift : BitVec 32}

theorem receive_append (st : BitVec 8) (shift : BitVec 32) (a b : List (BitVec 8)) :
    receive st shift (a ++ b) = receive st (receive st shift a) b := List.foldl_append

theorem kbdgetc_escape (hst : st &&& KBS_DIB ≠ 0) : (kbdgetc st 0xE0 shift).2 = shift ||| E0ESC := by
  rw [kbdgetc,if_neg hst,if_pos rfl]

theorem escape_set (shift : BitVec 32) : (shift ||| E0ESC) &&& E0ESC ≠ 0 := by
  rw [and_escape,BitVec.getLsbD_or,Bool.or_eq_true]
  exact .inr (by decide)

theorem escape_disjoint (h : shift &&& E0ESC = 0) : shift &&& ~~~E0ESC = shift := by
  refine BitVec.eq_of_getLsbD_eq fun i hi => ?_
  have hb : (shift &&& E0ESC).getLsbD i = false := by
    rw [h]
    exact BitVec.getLsbD_zero
  rw [BitVec.getLsbD_and] at hb ⊢
  rw [BitVec.getLsbD_not]
  cases hs : shift.getLsbD i with
  | false => rfl
  | true =>
    rw [hs,Bool.true_and] at hb
    rw [hb,decide_eq_true hi]
    rfl

theorem escape_cleared (h : shift &&& E0ESC = 0) : (shift ||| E0ESC) &&& ~~~E0ESC = shift := by
  rw [BitVec.and_or_distrib_right,escape_disjoint h,BitVec.and_not_self]
  exact BitVec.or_zero

theorem kbdgetc_make (hst : st &&& KBS_DIB ≠ 0) {data : BitVec 8} (hne : data ≠ 0xE0)
    (hmake : data &&& 0x80 = 0) :
    (kbdgetc st data shift).2 = if shift &&& E0ESC ≠ 0 then
        (shift &&& ~~~E0ESC ||| (shiftcode (data ||| 0x80)).setWidth 32) ^^^
          (togglecode (data ||| 0x80)).setWidth 32
      else (shift ||| (shiftcode data).setWidth 32) ^^^ (togglecode data).setWidth 32 := by
  rw [kbdgetc,if_neg hst,if_neg hne,if_neg (not_not.mpr hmake)]
  split_ifs <;> rfl

theorem kbdgetc_break (hst : st &&& KBS_DIB ≠ 0) {data : BitVec 8} (hne : data ≠ 0xE0)
    (hbreak : data &&& 0x80 ≠ 0) :
    (kbdgetc st data shift).2 = shift &&&
      ~~~((shiftcode (if shift &&& E0ESC ≠ 0 then data else data &&& 0x7F)).setWidth 32 ||| E0ESC) := by
  rw [kbdgetc,if_neg hst,if_neg hne,if_pos hbreak]

theorem receive_press (hst : st &&& KBS_DIB ≠ 0) (h : shift &&& E0ESC = 0) (k : Key) :
    receive st shift (Event.press k).codes =
      (shift ||| (shiftcode k.index).setWidth 32) ^^^ (togglecode k.index).setWidth 32 := by
  obtain ⟨hne,hmake⟩ := make_code k.code
  have hlast : ∀ x, receive st x [k.code.setWidth 8] = (kbdgetc st (k.code.setWidth 8) x).2 := fun _ => rfl
  rw [Event.codes,receive_append,Key.leading,hlast,Key.index,kbdgetc_make hst hne hmake]
  cases k.extended with
  | false => exact if_neg (not_not.mpr h)
  | true =>
    have hesc : receive st shift [0xE0] = shift ||| E0ESC := kbdgetc_escape hst
    rw [if_pos rfl,if_pos rfl,hesc,if_pos (escape_set shift),escape_cleared h]

theorem receive_release (hst : st &&& KBS_DIB ≠ 0) (h : shift &&& E0ESC = 0) (k : Key) :
    receive st shift (Event.release k).codes = shift &&& ~~~(shiftcode k.index).setWidth 32 := by
  obtain ⟨hne,hbreak,hcode⟩ := break_code k.code k.code_ne
  have hlast : ∀ x, receive st x [k.code.setWidth 8 ||| 0x80] = (kbdgetc st (k.code.setWidth 8 ||| 0x80) x).2 :=
    fun _ => rfl
  rw [Event.codes,receive_append,Key.leading,hlast,Key.index,kbdgetc_break hst hne hbreak]
  cases k.extended with
  | false =>
    have hstart : receive st shift [] = shift := rfl
    rw [if_neg Bool.false_ne_true,if_neg Bool.false_ne_true,hstart,if_neg (not_not.mpr h),hcode,BitVec.not_or,
      BitVec.and_comm (~~~_),← BitVec.and_assoc,escape_disjoint h]
  | true =>
    have hesc : receive st shift [0xE0] = shift ||| E0ESC := kbdgetc_escape hst
    rw [if_pos rfl,if_pos rfl,hesc,if_pos (escape_set shift),BitVec.not_or,BitVec.and_comm (~~~_),
      ← BitVec.and_assoc,escape_cleared h]

theorem press_bit {s t : BitVec 8} {i : ℕ} (hi : i < 32) (ht : t.getLsbD i = false) :
    ((shift ||| s.setWidth 32) ^^^ t.setWidth 32).getLsbD i = (shift.getLsbD i || s.getLsbD i) := by
  rw [BitVec.getLsbD_xor,BitVec.getLsbD_or,BitVec.getLsbD_setWidth,BitVec.getLsbD_setWidth,ht,decide_eq_true hi,
    Bool.true_and,Bool.and_false,Bool.xor_false]

theorem release_bit {s : BitVec 8} {i : ℕ} (hi : i < 32) :
    (shift &&& ~~~s.setWidth 32).getLsbD i = (shift.getLsbD i && !s.getLsbD i) := by
  rw [BitVec.getLsbD_and,BitVec.getLsbD_not,BitVec.getLsbD_setWidth,decide_eq_true hi,Bool.true_and,Bool.true_and]

end Steps

section Bits
variable {st : BitVec 8} {es : List Event} {e : Event} {m : Modifier}

theorem shiftState_append (st : BitVec 8) (es : List Event) (e : Event) :
    shiftState st (es ++ [e]) = receive st (shiftState st es) e.codes := by
  rw [shiftState,List.flatMap_append,receive_append,List.flatMap_singleton]
  rfl

theorem held_append (es : List Event) (e : Event) : held (es ++ [e]) = hold (held es) e := by
  rw [held,List.foldl_append]
  rfl

theorem escape_clear (hst : st &&& KBS_DIB ≠ 0) (es : List Event) : shiftState st es &&& E0ESC = 0 := by
  induction es using List.reverseRecOn with
  | nil => exact BitVec.zero_and
  | append_singleton es e ih =>
    have hb : (shiftState st es).getLsbD 6 = false := Bool.eq_false_iff.mpr (mt (and_escape _).mpr (not_not.mpr ih))
    rw [shiftState_append]
    refine not_not.mp (mt (and_escape _).mp (Bool.eq_false_iff.mp ?_))
    cases e with
    | press k =>
      obtain ⟨hs,ht⟩ := tables_below_escape k.index
      rw [receive_press hst ih,press_bit (by decide) ht,hb,hs,Bool.or_false]
    | release k => rw [receive_release hst ih,release_bit (by decide),hb,Bool.false_and]

theorem shiftState_bit (hst : st &&& KBS_DIB ≠ 0) (es : List Event) (e : Event) (m : Modifier) :
    (shiftState st (es ++ [e])).getLsbD m.place =
      if e.key.modifier = some m then decide (e = .press e.key) else (shiftState st es).getLsbD m.place := by
  have hm : m.place < 32 := by cases m <;> decide
  have hesc := escape_clear hst es
  rw [shiftState_append]
  cases e with
  | press k =>
    rw [receive_press hst hesc,press_bit hm (togglecode_place m _),Event.key]
    by_cases hk : k.modifier = some m
    · rw [if_pos hk,(shiftcode_place k m).mpr hk,Bool.or_true,decide_eq_true rfl]
    · rw [if_neg hk,Bool.eq_false_iff.mpr (mt (shiftcode_place k m).mp hk),Bool.or_false]
  | release k =>
    rw [receive_release hst hesc,release_bit hm,Event.key]
    by_cases hk : k.modifier = some m
    · rw [if_pos hk,(shiftcode_place k m).mpr hk,Bool.not_true,Bool.and_false,decide_eq_false (by nofun)]
    · rw [if_neg hk,Bool.eq_false_iff.mpr (mt (shiftcode_place k m).mp hk),Bool.not_false,Bool.and_true]

theorem masked_append : Masked m (es ++ [e]) ↔ if e.key.modifier = some m then
      e = .release e.key ∧ ∃ k' ∈ held es, k' ≠ e.key ∧ k'.modifier = some m
    else Masked m es := by
  constructor
  · rintro ⟨before,k,after,heq,hk,hafter,hother⟩
    rcases List.eq_nil_or_concat' after with rfl | ⟨after',last,rfl⟩
    · obtain ⟨rfl,he⟩ := List.append_inj' heq rfl
      obtain rfl := List.singleton_inj.mp he
      rw [Event.key,if_pos hk]
      exact ⟨rfl,hother⟩
    · rw [← List.cons_append,← List.append_assoc] at heq
      obtain ⟨rfl,he⟩ := List.append_inj' heq rfl
      obtain rfl := List.singleton_inj.mp he
      rw [if_neg (hafter _ (List.mem_append_right _ (List.mem_singleton_self _)))]
      exact ⟨before,k,after',rfl,hk,fun x hx => hafter x (List.mem_append_left _ hx),hother⟩
  · intro h
    by_cases hk : e.key.modifier = some m
    · rw [if_pos hk] at h
      exact ⟨es,e.key,[],by rw [← h.1],hk,fun x hx => absurd hx List.not_mem_nil,h.2⟩
    · rw [if_neg hk] at h
      obtain ⟨before,k,after,rfl,hk',hafter,hother⟩ := h
      refine ⟨before,k,after ++ [e],by rw [List.append_assoc,List.cons_append],hk',fun x hx => ?_,hother⟩
      rcases List.mem_append.mp hx with hx | hx
      · exact hafter x hx
      · rw [List.mem_singleton.mp hx]
        exact hk

def Holds (m : Modifier) (keys : Finset Key) : Prop := ∃ k ∈ keys, k.modifier = some m

theorem holds_append : Holds m (held (es ++ [e])) ↔ if e.key.modifier = some m then
      e = .press e.key ∨ ∃ k' ∈ held es, k' ≠ e.key ∧ k'.modifier = some m
    else Holds m (held es) := by
  rw [held_append]
  cases e with
  | press k =>
    rw [hold,Event.key]
    by_cases hk : k.modifier = some m
    · rw [if_pos hk]
      exact ⟨fun _ => .inl rfl,fun _ => ⟨k,Finset.mem_insert_self _ _,hk⟩⟩
    · rw [if_neg hk]
      constructor
      · rintro ⟨k',hk',hm⟩
        rcases Finset.mem_insert.mp hk' with rfl | hk'
        · exact absurd hm hk
        · exact ⟨k',hk',hm⟩
      · rintro ⟨k',hk',hm⟩
        exact ⟨k',Finset.mem_insert_of_mem hk',hm⟩
  | release k =>
    rw [hold,Event.key]
    by_cases hk : k.modifier = some m
    · rw [if_pos hk]
      constructor
      · rintro ⟨k',hk',hm⟩
        exact .inr ⟨k',Finset.mem_of_mem_erase hk',Finset.ne_of_mem_erase hk',hm⟩
      · rintro (h | ⟨k',hk',hne,hm⟩)
        · cases h
        · exact ⟨k',Finset.mem_erase.mpr ⟨hne,hk'⟩,hm⟩
    · rw [if_neg hk]
      constructor
      · rintro ⟨k',hk',hm⟩
        exact ⟨k',Finset.mem_of_mem_erase hk',hm⟩
      · rintro ⟨k',hk',hm⟩
        refine ⟨k',Finset.mem_erase.mpr ⟨?_,hk'⟩,hm⟩
        rintro rfl
        exact hk hm

theorem bit_or_masked (hst : st &&& KBS_DIB ≠ 0) (es : List Event) (m : Modifier) :
    (((shiftState st es).getLsbD m.place = true ∨ Masked m es) ↔ Holds m (held es)) ∧
      ¬((shiftState st es).getLsbD m.place = true ∧ Masked m es) := by
  induction es using List.reverseRecOn with
  | nil =>
    have hmask : ¬Masked m [] := by
      rintro ⟨before,k,after,h,-⟩
      exact absurd h (by simp)
    have hbit : (shiftState st []).getLsbD m.place = false := BitVec.getLsbD_zero
    have hhold : ¬Holds m (held []) := by
      rintro ⟨k,hk,-⟩
      exact absurd hk (Finset.notMem_empty k)
    rw [hbit]
    tauto
  | append_singleton es e ih =>
    rw [shiftState_bit hst,masked_append,holds_append]
    by_cases hk : e.key.modifier = some m
    · rw [if_pos hk,if_pos hk,if_pos hk,decide_eq_true_eq]
      cases e with
      | press k => exact ⟨⟨fun _ => .inl rfl,fun _ => .inl rfl⟩,fun h => by cases h.2.1⟩
      | release k =>
        refine ⟨⟨fun h => .inr ?_,fun h => .inr ?_⟩,fun h => by cases h.1⟩
        · rcases h with h | h
          · cases h
          · exact h.2
        · rcases h with h | h
          · cases h
          · exact ⟨rfl,h⟩
    · rw [if_neg hk,if_neg hk,if_neg hk]
      exact ih

end Bits

/-- After any events, the modifier bits are those of the keys held, with no prefix left, exactly if
no modifier's last event released one of its keys while another one was held. -/
theorem bits_of_held_iff {st : BitVec 8} (hst : st &&& KBS_DIB ≠ 0) (es : List Event) :
    ((∀ m, shiftState st es &&& Modifier.bit m ≠ 0 ↔ ∃ k ∈ held es, k.modifier = some m) ∧
      shiftState st es &&& E0ESC = 0) ↔ ∀ m, ¬Masked m es := by
  constructor
  · rintro ⟨h,-⟩ m hmask
    obtain ⟨hiff,hnot⟩ := bit_or_masked hst es m
    exact hnot ⟨(and_bit _ m).mp ((h m).mpr (hiff.mp (.inr hmask))),hmask⟩
  · intro h
    refine ⟨fun m => ?_,escape_clear hst es⟩
    obtain ⟨hiff,-⟩ := bit_or_masked hst es m
    rw [and_bit]
    exact ⟨fun hb => hiff.mp (.inl hb),fun hh => (hiff.mpr hh).resolve_right (h m)⟩

def leftShift : Key := ⟨false,0x2A,by decide⟩
def rightShift : Key := ⟨false,0x36,by decide⟩

/-- Both shift keys one after the other, with the last one held. -/
theorem bits_of_held_iff_both :
    ((∀ m, shiftState KBS_DIB [.press leftShift,.release leftShift,.press rightShift] &&& Modifier.bit m ≠ 0 ↔
        ∃ k ∈ held [.press leftShift,.release leftShift,.press rightShift], k.modifier = some m) ∧
      shiftState KBS_DIB [.press leftShift,.release leftShift,.press rightShift] &&& E0ESC = 0) ↔
    ∀ m, ¬Masked m [.press leftShift,.release leftShift,.press rightShift] :=
  bits_of_held_iff (by decide) _

/-- The right shift key is still held, but the release of the left one cleared their bit. -/
theorem shift_lost : rightShift ∈ held [.press leftShift,.press rightShift,.release leftShift] ∧
    rightShift.modifier = some .shift ∧
    shiftState KBS_DIB [.press leftShift,.press rightShift,.release leftShift] &&& SHIFT = 0 := by
  decide +kernel

end UoDOS.Keyboard
