import UoDOS.Library.Results
import UoDOS.Process.State
import UoDOS.Strings.Blocks

/-! # The screen

cgaputc of console.c, with the cursor in two registers of the CRT controller and the cells in
the CGA memory. It keeps the screen of a terminal of 24 lines, whatever is written.
-/
namespace UoDOS.Console
open ByteMemory StringFunctions Results Function

def BACKSPACE : BitVec 32 := 0x100
def CRTPORT : ℕ := 0x3D4
def crt : ℕ := 0x800B8000

/-- The CRT controller: a byte for the selected register goes through the second port. -/
structure Crtc where
  index : UInt8
  register : UInt8 → UInt8

structure Display where
  memory : Bytes
  crtc : Crtc

def Display.outputByteToPort (d : Display) (port : ℕ) (data : UInt8) : Display :=
  if port = CRTPORT then { d with crtc := { d.crtc with index := data } }
  else if port = CRTPORT + 1 then
    { d with crtc := { d.crtc with register := update d.crtc.register d.crtc.index data } }
  else d

def Display.inputByteFromPort (d : Display) (port : ℕ) : UInt8 :=
  if port = CRTPORT + 1 then d.crtc.register d.crtc.index else 0xFF

def cell (b : Bytes) (pos : ℕ) : UInt16 := readHalf b (crt + 2 * pos)

def storeCell (b : Bytes) (pos : ℕ) (v : UInt16) : Bytes :=
  update (update b (crt + 2 * pos) (UInt8.ofNat v.toNat)) (crt + 2 * pos + 1)
    (UInt8.ofNat (v.toNat / 2^8))

def scroll (b : Bytes) (pos : ℕ) : Bytes × ℕ :=
  if pos / 80 ≥ 24 then
    let b := memmove b crt (crt + 2 * 80) (2 * 23 * 80)
    let pos := pos - 80
    (memset b (crt + 2 * pos) 0 (2 * (24 * 80 - pos)),pos)
  else (b,pos)

def advance (b : Bytes) (pos : ℕ) (c : BitVec 32) : Bytes × ℕ :=
  if c = 0x0A then (b,pos + (80 - pos % 80))
  else if c = BACKSPACE then (b,if pos > 0 then pos - 1 else pos)
  else (storeCell b pos (UInt16.ofNat (c &&& 0xFF ||| 0x0700).toNat),pos + 1)

def cgaputc (d : Display) (c : BitVec 32) : Except Stop Display :=
  let d := d.outputByteToPort CRTPORT 14
  let pos := (d.inputByteFromPort (CRTPORT + 1)).toNat <<< 8
  let d := d.outputByteToPort CRTPORT 15
  let pos := pos ||| (d.inputByteFromPort (CRTPORT + 1)).toNat
  let (b,pos) := advance d.memory pos c
  if pos > 25 * 80 then .error (.panic "pos under/overflow")
  else
    let (b,pos) := scroll b pos
    let d := { d with memory := b }
    let d := d.outputByteToPort CRTPORT 14
    let d := d.outputByteToPort (CRTPORT + 1) (UInt8.ofNat (pos >>> 8))
    let d := d.outputByteToPort CRTPORT 15
    let d := d.outputByteToPort (CRTPORT + 1) (UInt8.ofNat pos)
    .ok { d with memory := storeCell d.memory pos (0x20 ||| 0x0700) }

def cursor (d : Display) : ℕ := (d.crtc.register 14).toNat <<< 8 ||| (d.crtc.register 15).toNat

section Terminal

structure Terminal where
  cell : Fin 24 → Fin 80 → UInt16
  row : Fin 24
  col : Fin 80

/-- To the next line; at the last one all lines move up and it is cleared. -/
def Terminal.newline (T : Terminal) : Terminal :=
  if h : T.row.val + 1 < 24 then { T with row := ⟨T.row + 1,h⟩, col := 0 }
  else { T with cell := fun r k => if h : r.val + 1 < 24 then T.cell ⟨r + 1,h⟩ k else 0, col := 0 }

def Terminal.back (T : Terminal) : Terminal :=
  if 0 < T.col.val then { T with col := ⟨T.col - 1,by omega⟩ }
  else if 0 < T.row.val then { T with row := ⟨T.row - 1,by omega⟩, col := 79 }
  else T

def Terminal.set (T : Terminal) (v : UInt16) : Terminal :=
  { T with cell := update T.cell T.row (update (T.cell T.row) T.col v) }

def Terminal.type (T : Terminal) (v : UInt16) : Terminal :=
  if h : T.col.val + 1 < 80 then { T.set v with col := ⟨T.col + 1,h⟩ } else (T.set v).newline

def Terminal.put (T : Terminal) (c : BitVec 32) : Terminal :=
  (if c = 0x0A then T.newline
  else if c = BACKSPACE then T.back
  else T.type (UInt16.ofNat (c &&& 0xFF ||| 0x0700).toNat)).set (0x20 ||| 0x0700)

theorem Terminal.back_position (T : Terminal) :
    (if 80 * T.row.val + T.col.val > 0 then 80 * T.row.val + T.col.val - 1 else 80 * T.row.val + T.col.val) =
      80 * T.back.row.val + T.back.col.val := by
  unfold Terminal.back
  by_cases hc : 0 < T.col.val
  · rw [if_pos hc,if_pos (by omega)]
    dsimp only
    omega
  · by_cases hr : 0 < T.row.val
    · have h79 : (79 : Fin 80).val = 79 := rfl
      rw [if_neg hc,if_pos hr,if_pos (by omega)]
      dsimp only
      omega
    · rw [if_neg hc,if_neg hr,if_neg (by omega)]

theorem Terminal.back_cell (T : Terminal) : T.back.cell = T.cell := by
  unfold Terminal.back
  split_ifs <;> rfl

end Terminal

def Cells (b : Bytes) (T : Terminal) : Prop := ∀ r k, cell b (80 * r.val + k.val) = T.cell r k

structure Shows (d : Display) (T : Terminal) : Prop where
  cells : Cells d.memory T
  cursor : cursor d = 80 * T.row.val + T.col.val

def SameElsewhere (b b' : Bytes) : Prop := ∀ x, x < crt ∨ crt + 2 * (24 * 80) ≤ x → b' x = b x

variable {b b' : Bytes} {pos : ℕ} {T : Terminal} {d : Display}

section Cells

theorem SameElsewhere.trans {b'' : Bytes} (h : SameElsewhere b b') (h' : SameElsewhere b' b'') :
    SameElsewhere b b'' := fun x hx => (h' x hx).trans (h x hx)

theorem storeCell_elsewhere (h : pos < 24 * 80) (v : UInt16) : SameElsewhere b (storeCell b pos v) := by
  intro x hx
  rw [storeCell,update_of_ne (by omega),update_of_ne (by omega)]

theorem cell_storeCell (b : Bytes) (pos : ℕ) (v : UInt16) : cell (storeCell b pos v) pos = v := by
  have hv := v.toNat_lt
  rw [cell,readHalf,storeCell,update_self,update_of_ne (by omega),update_self,
    UInt8.toNat_ofNat',UInt8.toNat_ofNat']
  apply UInt16.toNat_inj.mp
  rw [UInt16.toNat_ofNat']
  omega

theorem cell_storeCell_of_ne {j : ℕ} (b : Bytes) (v : UInt16) (h : j ≠ pos) :
    cell (storeCell b pos v) j = cell b j := by
  rw [cell,readHalf,storeCell,update_of_ne (by omega),update_of_ne (by omega),
    update_of_ne (by omega),update_of_ne (by omega)]
  rfl

theorem Cells.set (h : Cells b T) (v : UInt16) (hp : pos = 80 * T.row.val + T.col.val) :
    Cells (storeCell b pos v) (T.set v) := by
  intro r k
  rw [Terminal.set]
  dsimp only
  by_cases hr : r = T.row
  · subst hr
    rw [update_self]
    by_cases hk : k = T.col
    · subst hk
      rw [update_self,← hp,cell_storeCell]
    · have hne : k.val ≠ T.col.val := fun he => hk (Fin.ext he)
      rw [update_of_ne hk,cell_storeCell_of_ne _ _ (by omega),h]
  · have hne : r.val ≠ T.row.val := fun he => hr (Fin.ext he)
    rw [update_of_ne hr,cell_storeCell_of_ne _ _ (by omega),h]

end Cells

section Scrolling

theorem scroll_inside (h : pos < 24 * 80) : scroll b pos = (b,pos) := by
  rw [scroll,if_neg (by omega)]

theorem scroll_behind : ∃ b', scroll b (24 * 80) = (b',23 * 80) ∧ SameElsewhere b b' ∧
    (∀ j < 23 * 80, cell b' j = cell b (j + 80)) ∧ ∀ j, 23 * 80 ≤ j → j < 24 * 80 → cell b' j = 0 := by
  refine ⟨fill (move b crt (crt + 2 * 80) (2 * 23 * 80)) (crt + 2 * (23 * 80)) (2 * 80) 0,?_,fun x hx => ?_,
    fun j hj => ?_,fun j h1 h2 => ?_⟩
  · rw [scroll,if_pos (by norm_num)]
    dsimp only
    rw [memmove_eq_move (by decide) (by decide),memset_eq_fill (by decide)]
    rfl
  · rw [fill,if_neg (by omega),move,if_neg (by omega)]
  · rw [cell,cell,readHalf,readHalf,fill,fill,if_neg (by omega),if_neg (by omega),move,move,if_pos (by omega),
      if_pos (by omega)]
    have h0 : crt + 2 * 80 + (crt + 2 * j - crt) = crt + 2 * (j + 80) := by omega
    have h1 : crt + 2 * 80 + (crt + 2 * j + 1 - crt) = crt + 2 * (j + 80) + 1 := by omega
    rw [h0,h1]
  · rw [cell,readHalf,fill,fill,if_pos (by omega),if_pos (by omega)]
    rfl

theorem scroll_newline (h : Cells b T) : ∃ b', scroll b (80 * (T.row.val + 1)) =
    (b',80 * T.newline.row.val + T.newline.col.val) ∧ Cells b' T.newline ∧ SameElsewhere b b' := by
  unfold Terminal.newline
  split_ifs with hrow
  · exact ⟨b,scroll_inside (by omega),h,fun x _ => rfl⟩
  · have hlast : 80 * (T.row.val + 1) = 24 * 80 := by omega
    obtain ⟨b',hs,helse,hmoved,hcleared⟩ := scroll_behind (b := b)
    refine ⟨b',?_,fun r k => ?_,helse⟩
    · rw [hlast,hs]
      have hrow' : T.row.val = 23 := by omega
      simp only [hrow',Fin.val_zero]
    · dsimp only
      split_ifs with hr
      · rw [hmoved _ (by omega),← h ⟨r.val + 1,hr⟩ k]
        congr 1
        dsimp only
        omega
      · exact hcleared _ (by omega) (by omega)

end Scrolling

section Ports

theorem split_position (h : pos < 2^16) :
    (UInt8.ofNat (pos >>> 8)).toNat <<< 8 ||| (UInt8.ofNat pos).toNat = pos := by
  rw [UInt8.toNat_ofNat',UInt8.toNat_ofNat',Nat.shiftRight_eq_div_pow,
    ← Nat.shiftLeft_add_eq_or_of_lt (Nat.mod_lt _ (by norm_num)),Nat.shiftLeft_eq]
  omega

theorem select_port (d : Display) (i : UInt8) :
    d.outputByteToPort CRTPORT i = ⟨d.memory,⟨i,d.crtc.register⟩⟩ := rfl

theorem write_port (d : Display) (v : UInt8) : d.outputByteToPort (CRTPORT + 1) v =
    ⟨d.memory,⟨d.crtc.index,update d.crtc.register d.crtc.index v⟩⟩ := rfl

theorem read_port (d : Display) : d.inputByteFromPort (CRTPORT + 1) = d.crtc.register d.crtc.index := rfl

theorem cgaputc_ok {c : BitVec 32} {b1 b2 : Bytes} {pos1 pos2 : ℕ}
    (ha : advance d.memory (cursor d) c = (b1,pos1)) (hpos : pos1 ≤ 25 * 80) (hs : scroll b1 pos1 = (b2,pos2)) (h : pos2 < 2^16) :
    ∃ d', cgaputc d c = .ok d' ∧ d'.memory = storeCell b2 pos2 (0x20 ||| 0x0700) ∧ cursor d' = pos2 := by
  unfold cursor at ha
  simp only [cgaputc,select_port,read_port,write_port,ha,hs,if_neg (Nat.not_lt.mpr hpos)]
  refine ⟨_,rfl,rfl,?_⟩
  have hne : (14 : UInt8) ≠ 15 := by decide
  rw [cursor]
  dsimp only
  rw [update_of_ne hne,update_self,update_self,split_position h]

end Ports

theorem cgaputc_shows (h : Shows d T) (c : BitVec 32) :
    ∃ d', cgaputc d c = .ok d' ∧ Shows d' (T.put c) ∧ SameElsewhere d.memory d'.memory := by
  -- it is enough to follow the position and the cells up to the blank under the cursor
  have hend : ∀ (T' : Terminal) (b1 b2 : Bytes) (pos1 pos2 : ℕ), advance d.memory (cursor d) c = (b1,pos1) →
      pos1 ≤ 24 * 80 → scroll b1 pos1 = (b2,pos2) → pos2 = 80 * T'.row.val + T'.col.val → Cells b2 T' →
      SameElsewhere d.memory b2 → T.put c = T'.set (0x20 ||| 0x0700) →
      ∃ d', cgaputc d c = .ok d' ∧ Shows d' (T.put c) ∧ SameElsewhere d.memory d'.memory := by
    intro T' b1 b2 pos1 pos2 ha hle hs hpos hcells helse hput
    obtain ⟨d',hd,hm,hc⟩ := cgaputc_ok ha (by omega) hs (by omega)
    refine ⟨d',hd,⟨?_,?_⟩,?_⟩
    · rw [hm,hput]
      exact hcells.set _ hpos
    · rw [hc,hput,hpos]
      rfl
    · rw [hm]
      exact helse.trans (storeCell_elsewhere (by omega) _)
  have hcur := h.cursor
  by_cases hnl : c = 0x0A
  · obtain ⟨b',hs,hcells,helse⟩ := scroll_newline h.cells
    have hadv : advance d.memory (cursor d) c = (d.memory,80 * (T.row.val + 1)) := by
      rw [advance,if_pos hnl,hcur]
      congr 1
      omega
    exact hend T.newline _ _ _ _ hadv (by omega) hs rfl hcells helse (by rw [Terminal.put,if_pos hnl])
  · by_cases hbs : c = BACKSPACE
    · have hadv : advance d.memory (cursor d) c = (d.memory,80 * T.back.row.val + T.back.col.val) := by
        rw [advance,if_neg hnl,if_pos hbs,hcur,T.back_position]
      have hcells : Cells d.memory T.back := by
        intro r k
        rw [T.back_cell,h.cells]
      exact hend T.back _ _ _ _ hadv (by omega) (scroll_inside (by omega)) rfl hcells (fun x _ => rfl)
        (by rw [Terminal.put,if_neg hnl,if_pos hbs])
    · have hput : T.put c = (T.type (UInt16.ofNat (c &&& 0xFF ||| 0x0700).toNat)).set (0x20 ||| 0x0700) := by
        rw [Terminal.put,if_neg hnl,if_neg hbs]
      have hadv : advance d.memory (cursor d) c =
          (storeCell d.memory (cursor d) (UInt16.ofNat (c &&& 0xFF ||| 0x0700).toNat),cursor d + 1) := by
        rw [advance,if_neg hnl,if_neg hbs]
      generalize UInt16.ofNat (c &&& 0xFF ||| 0x0700).toNat = v at hput hadv
      have hcells := h.cells.set v hcur
      have hstored : SameElsewhere d.memory (storeCell d.memory (cursor d) v) := storeCell_elsewhere (by omega) v
      by_cases hcol : T.col.val + 1 < 80
      · rw [Terminal.type,dif_pos hcol] at hput
        exact hend { T.set v with col := ⟨T.col.val + 1,hcol⟩ } _ _ _ _ hadv (by omega) (scroll_inside (by omega))
          (by dsimp only [Terminal.set]; omega) hcells hstored hput
      · rw [Terminal.type,dif_neg hcol] at hput
        obtain ⟨b',hs,hcells',helse⟩ := scroll_newline hcells
        have hend' : cursor d + 1 = 80 * ((T.set v).row.val + 1) := by
          dsimp only [Terminal.set]
          omega
        exact hend _ _ _ _ _ (hadv.trans (by rw [hend'])) (by omega) hs rfl hcells' (hstored.trans helse) hput

theorem cgaputc_list (h : Shows d T) (cs : List (BitVec 32)) : ∃ d', cs.foldlM cgaputc d = .ok d' ∧
    Shows d' (cs.foldl Terminal.put T) ∧ SameElsewhere d.memory d'.memory := by
  induction cs generalizing d T with
  | nil => exact ⟨d,rfl,h,fun x _ => rfl⟩
  | cons c cs ih =>
    obtain ⟨d1,hd1,h1,he1⟩ := cgaputc_shows h c
    obtain ⟨d2,hd2,h2,he2⟩ := ih h1
    refine ⟨d2,?_,h2,he1.trans he2⟩
    rw [List.foldlM_cons,hd1]
    exact hd2

def terminal (d : Display) (h : cursor d < 24 * 80) : Terminal where
  cell r k := cell d.memory (80 * r.val + k.val)
  row := ⟨cursor d / 80,by omega⟩
  col := ⟨cursor d % 80,by omega⟩

theorem shows_terminal (d : Display) (h : cursor d < 24 * 80) : Shows d (terminal d h) := by
  refine ⟨fun r k => rfl,?_⟩
  dsimp only [terminal]
  omega

theorem cursor_inside (h : Shows d T) : cursor d < 24 * 80 := by
  have := h.cursor
  omega

/-- Whatever is written from a position inside, no character panics, the position read back stays
inside, only the cells of the 24 lines change, and they are those of the terminal. -/
theorem screen_of_terminal (d : Display) (h : cursor d < 24 * 80) (cs : List (BitVec 32)) :
    ∃ d', cs.foldlM cgaputc d = .ok d' ∧ cursor d' < 24 * 80 ∧ SameElsewhere d.memory d'.memory ∧
      Shows d' (cs.foldl Terminal.put (terminal d h)) := by
  obtain ⟨d',hd,hs,he⟩ := cgaputc_list (shows_terminal d h) cs
  exact ⟨d',hd,cursor_inside hs,he,hs⟩

/-- A character at the last position of an empty screen. -/
theorem screen_of_terminal_last :
    ∃ d', [0x41].foldlM cgaputc ⟨fun _ => 0,⟨0,fun i => if i = 14 then 0x07 else 0x7F⟩⟩ = .ok d' ∧
      cursor d' < 24 * 80 ∧ SameElsewhere (fun _ => 0) d'.memory ∧ Shows d' ([0x41].foldl Terminal.put
        (terminal ⟨fun _ => 0,⟨0,fun i => if i = 14 then 0x07 else 0x7F⟩⟩ (by decide))) :=
  screen_of_terminal _ (by decide) _

end UoDOS.Console
