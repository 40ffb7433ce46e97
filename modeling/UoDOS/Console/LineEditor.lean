import UoDOS.Console.Console

/-! # The line editor that the console implements

The editor holds two lists of bytes: those of finished lines, and those that can still be
edited.
-/
namespace UoDOS.Console
open FreeRunningRing Transition

structure Editor where
  committed : List UInt8
  pending : List UInt8

namespace Editor

def total (l : Editor) : ℕ := l.committed.length + l.pending.length

def commit (l : Editor) : Editor := ⟨l.committed ++ l.pending,[]⟩

/-- A key: `^U` and backspace edit the pending bytes, others are appended while there is
room, and the end of a line, `^D` or the last free place commits. -/
def key (l : Editor) (c : UInt8) : Editor :=
  if c = ctrlP ∨ c = 0 then l
  else if c = ctrlU then { l with pending := [] }
  else if c = ctrlH ∨ c = delete then { l with pending := l.pending.dropLast }
  else if l.total < INPUT_BUF then
    let c := if c = carriageReturn then newline else c
    let l := { l with pending := l.pending ++ [c] }
    if c = newline ∨ c = ctrlD ∨ l.total = INPUT_BUF then l.commit else l
  else l

/-- A read that wants `n` more bytes takes committed bytes in their order. A line ends
it; so does `^D`, which it takes only if it has no byte yet. -/
def take (killed : Bool) (target : ℤ) : ℕ → List UInt8 → Editor → Editor × Reader
  | 0, dst, l => (l,.returned target dst.length dst .count)
  | n + 1, dst, l =>
    match l.committed with
    | [] => (l,if killed then .returned target (-1) dst .killed else .asleep target (n + 1) dst)
    | c :: rest =>
      if c = ctrlD then
        (if dst = [] then { l with committed := rest } else l,.returned target dst.length dst .eof)
      else if c = newline then
        ({ l with committed := rest },.returned target (dst.length + 1) (dst ++ [c]) .line)
      else take killed target n (dst ++ [c]) { l with committed := rest }

def read (l : Editor) (killed : Bool) (n : ℤ) : Editor × Reader :=
  if 0 < n then take killed n n.toNat [] l else (l,.returned n 0 [] .count)

end Editor

def editor : Device Editor where
  key := Editor.key
  read := Editor.read
  goOn l killed target n dst := Editor.take killed target n dst l

/-- The ring holds the bytes of the editor, and the editor is as full as it may be. -/
structure Refines (x : Input) (l : Editor) : Prop where
  bytes : contents x.buf INPUT_BUF x.r (count x.r x.e) = l.committed ++ l.pending
  committed : count x.r x.w = l.committed.length
  room : l.total ≤ INPUT_BUF
  full : l.total = INPUT_BUF → l.pending = []
  line : newline ∉ l.pending

/-- What holds of a call of consoleRead that sleeps or has returned. It has stored at most
one line; it returns how many bytes it has stored, unless it was killed; and a call for
bytes returns 0 just if it has found `^D` first. -/
def Reader.Orderly : Reader → Prop
  | .idle => True
  | .asleep target n dst => 0 < target ∧ (dst.length : ℤ) + n = target ∧ newline ∉ dst ∧ ctrlD ∉ dst
  | .returned target value dst why => newline ∉ dst.dropLast ∧ ctrlD ∉ dst ∧ dst.length ≤ target.toNat ∧
      (value = dst.length ∨ value = -1 ∧ why = .killed) ∧ (0 < target → (value = 0 ↔ why = .eof ∧ dst = []))

variable {x : Input} {l : Editor} {c : UInt8}

theorem ring_dvd : INPUT_BUF ∣ 2^32 := by decide

theorem Refines.total (h : Refines x l) : count x.r x.e = l.total := by
  have hb := congrArg List.length h.bytes
  rwa [contents_length,List.length_append] at hb

theorem Refines.pending_nil (h : Refines x l) : x.e = x.w ↔ l.pending = [] := by
  have ht := h.total
  have hc := h.committed
  simp only [Editor.total] at ht
  constructor
  · intro he
    rw [he] at ht
    exact List.length_eq_zero_iff.mp (by omega)
  · intro hn
    rw [hn] at ht
    exact count_injective (r := x.r) (by rw [hc]; simpa using ht)

theorem Refines.committed_nil (h : Refines x l) : x.r = x.w ↔ l.committed = [] := by
  rw [← count_eq_zero,h.committed,List.length_eq_zero_iff]

theorem Refines.back (h : Refines x l) (hp : l.pending ≠ []) :
    Refines { x with e := x.e - 1 } { l with pending := l.pending.dropLast } ∧
      x.at (x.e - 1) ∈ l.pending := by
  have ht := h.total
  have hpos : 0 < l.pending.length := List.length_pos_iff.mpr hp
  have hne : x.r ≠ x.e := by
    rw [Ne,← count_eq_zero,ht,Editor.total]
    omega
  have hc := count_back hne
  have hb := h.bytes
  rw [← hc,contents_succ,← toNat_mod_eq ring_dvd,← List.dropLast_append_getLast hp,← List.append_assoc] at hb
  obtain ⟨hb,hl⟩ := List.append_inj' hb rfl
  have hlen : l.pending.dropLast.length = l.pending.length - 1 := List.length_dropLast
  have hroom := h.room
  simp only [Editor.total] at hroom ⊢
  refine ⟨⟨hb,h.committed,?_,?_,?_⟩,?_⟩
  · simp only [Editor.total]
    omega
  · simp only [Editor.total]
    omega
  · exact fun hm => h.line (List.mem_of_mem_dropLast hm)
  · rw [Input.at,List.singleton_inj.mp hl]
    exact List.getLast_mem hp

theorem Refines.killLine (h : Refines x l) {k : ℕ} (hk : l.pending.length = k) :
    Refines (killLine k x) { l with pending := [] } := by
  induction k generalizing x l with
  | zero =>
    rw [← List.length_eq_zero_iff.mp hk]
    exact h
  | succ k ih =>
    have hp : l.pending ≠ [] := by
      rintro hn
      rw [hn] at hk
      cases hk
    obtain ⟨hb,hm⟩ := h.back hp
    have hnl : x.at (x.e - 1) ≠ newline := fun hn => h.line (hn ▸ hm)
    rw [Console.killLine,if_pos ⟨fun he => hp (h.pending_nil.mp he),hnl⟩]
    exact ih (l := { l with pending := l.pending.dropLast }) hb (by simp [hk])

theorem Refines.between (h : Refines x l) : count x.w x.e = l.pending.length := by
  have ht := h.total
  have hc := h.committed
  rw [Editor.total] at ht
  rw [count_between (r := x.r) (by omega)]
  omega

theorem Refines.append (h : Refines x l) (hr : l.total < INPUT_BUF) (c : UInt8) :
    let x' := { x with buf := Function.update x.buf (x.e.toNat % INPUT_BUF) c, e := x.e + 1 }
    let l' := { l with pending := l.pending ++ [c] }
    Refines (if c = newline ∨ c = ctrlD ∨ x'.e = x'.r + BitVec.ofNat 32 INPUT_BUF then { x' with w := x'.e }
      else x') (if c = newline ∨ c = ctrlD ∨ l'.total = INPUT_BUF then l'.commit else l') := by
  intro x' l'
  have ht := h.total
  have hlt : count x.r x.e + 1 < 2^32 := by
    rw [ht]
    simp only [INPUT_BUF] at hr
    omega
  have hl' : l'.total = l.total + 1 := by
    simp only [l',Editor.total,List.length_append,List.length_singleton]
    omega
  have hcount : count x'.r x'.e = l'.total := by rw [hl',← ht,← count_push hlt]
  have hbytes : contents x'.buf INPUT_BUF x'.r (count x'.r x'.e) = l'.committed ++ l'.pending := by
    rw [show count x'.r x'.e = count x.r x.e + 1 from count_push hlt,
      contents_push ring_dvd x.buf (by omega : count x.r x.e < INPUT_BUF) c,h.bytes,List.append_assoc]
  have hfull : x'.e = x'.r + BitVec.ofNat 32 INPUT_BUF ↔ l'.total = INPUT_BUF := by
    rw [full_iff (by decide),hcount]
  simp only [hfull]
  split_ifs with hc
  · refine ⟨?_,?_,?_,fun _ => rfl,by simp [Editor.commit]⟩
    · rw [hbytes]
      simp [Editor.commit]
    · rw [hcount]
      simp [Editor.commit,Editor.total]
    · simp only [Editor.commit,Editor.total,List.length_append,List.length_nil] at hl' hr ⊢
      omega
  · refine ⟨hbytes,h.committed,by omega,fun hf => absurd (.inr (.inr hf)) hc,?_⟩
    intro hm
    rcases List.mem_append.mp hm with hm | hm
    · exact h.line hm
    · exact hc (.inl (List.mem_singleton.mp hm).symm)

theorem Refines.key (h : Refines x l) (c : UInt8) : Refines (x.key c) (l.key c) := by
  unfold Input.key Editor.key
  by_cases hP : c = ctrlP
  · rw [if_pos hP,if_pos (Or.inl hP)]
    exact h
  by_cases h0 : c = 0
  · subst h0
    simpa [ctrlP,ctrlU,ctrlH,delete] using h
  have hP0 : ¬ (c = ctrlP ∨ c = 0) := fun hc => hc.elim hP h0
  rw [if_neg hP,if_neg hP0]
  by_cases hU : c = ctrlU
  · rw [if_pos hU,if_pos hU]
    exact h.killLine h.between.symm
  rw [if_neg hU,if_neg hU]
  by_cases hH : c = ctrlH ∨ c = delete
  · rw [if_pos hH,if_pos hH]
    by_cases hp : l.pending = []
    · have he : l.pending.dropLast = l.pending := by
        rw [hp]
        rfl
      rw [if_neg (fun hne => hne (h.pending_nil.mpr hp)),he]
      exact h
    · rw [if_pos (fun he => hp (h.pending_nil.mp he))]
      exact (h.back hp).1
  rw [if_neg hH,if_neg hH]
  have hroom : (x.e - x.r).toNat < INPUT_BUF ↔ l.total < INPUT_BUF := by rw [← h.total]; rfl
  by_cases hr : l.total < INPUT_BUF
  · rw [if_pos ⟨h0,hroom.mpr hr⟩,if_pos hr]
    exact h.append hr _
  · rw [if_neg (fun hc => hr (hroom.mp hc.2)),if_neg hr]
    exact h

theorem Refines.pop {rest : List UInt8} (h : Refines x l) (hc : l.committed = c :: rest) :
    x.at x.r = c ∧ Refines { x with r := x.r + 1 } { l with committed := rest } := by
  have ht := h.total
  have hk := h.committed
  have hrw : x.r ≠ x.w := by
    rw [Ne,h.committed_nil,hc]
    simp
  have hre : x.r ≠ x.e := by
    rw [Ne,← count_eq_zero,ht,Editor.total,hc]
    simp
  have hb := h.bytes
  have hroom := h.room
  rw [count_pop hre] at ht hb
  rw [count_pop hrw,hc] at hk
  rw [contents_pop ring_dvd,hc,List.cons_append] at hb
  obtain ⟨hhead,htail⟩ := List.cons.inj hb
  simp only [Editor.total,hc,List.length_cons] at ht hk hroom
  refine ⟨hhead,htail,Nat.succ.inj hk,?_,?_,h.line⟩
  · simp only [Editor.total]
    omega
  · simp only [Editor.total]
    omega

theorem Refines.readLoop (h : Refines x l) (killed : Bool) {target : ℤ} {n : ℕ} {dst : List UInt8}
    (hn : (dst.length : ℤ) + n = target) :
    Refines (readLoop killed target n dst x).1 (Editor.take killed target n dst l).1 ∧
      (readLoop killed target n dst x).2 = (Editor.take killed target n dst l).2 := by
  induction n generalizing x l dst with
  | zero =>
    rw [Console.readLoop,Editor.take,← hn]
    exact ⟨h,by simp⟩
  | succ n ih =>
    rw [Console.readLoop,Editor.take]
    cases hc : l.committed with
    | nil =>
      rw [if_pos (h.committed_nil.mpr hc)]
      exact ⟨h,rfl⟩
    | cons c rest =>
      obtain ⟨hat,hpop⟩ := h.pop hc
      rw [if_neg (fun he => by rw [h.committed_nil,hc] at he; cases he)]
      simp only [hat]
      push_cast at hn
      have hvalue : target - (n + 1) = dst.length := by omega
      by_cases hD : c = ctrlD
      · rw [if_pos hD,if_pos hD,hvalue]
        refine ⟨?_,rfl⟩
        by_cases hd : dst = []
        · -- nothing was read before: the byte is gone
          rw [if_neg (by rw [← hn,hd]; simp),if_pos hd]
          exact hpop
        · have hpos : 0 < dst.length := List.length_pos_iff.mpr hd
          rw [if_pos (by omega),if_neg hd]
          simpa using h
      · rw [if_neg hD,if_neg hD]
        by_cases hL : c = newline
        · rw [if_pos hL,if_pos hL,show target - (n : ℤ) = dst.length + 1 by omega]
          exact ⟨hpop,rfl⟩
        · rw [if_neg hL,if_neg hL]
          exact ih hpop (by rw [← hn]; simp; omega)

theorem take_orderly (killed : Bool) {target : ℤ} {n : ℕ} {dst : List UInt8} (l : Editor) (ht : 0 < target)
    (hn : (dst.length : ℤ) + n = target) (hl : newline ∉ dst) (hd : ctrlD ∉ dst) :
    (Editor.take killed target n dst l).2.Orderly := by
  induction n generalizing l dst with
  | zero =>
    have hlen : (dst.length : ℤ) = target := by simpa using hn
    refine ⟨fun hm => hl (List.mem_of_mem_dropLast hm),hd,by omega,.inl rfl,fun _ => ?_⟩
    constructor
    · intro hz
      omega
    · rintro ⟨hw,-⟩
      cases hw
  | succ n ih =>
    rw [Editor.take]
    split
    · split_ifs
      · refine ⟨fun hm => hl (List.mem_of_mem_dropLast hm),hd,by omega,.inr ⟨rfl,rfl⟩,fun _ => ?_⟩
        constructor
        · intro hz
          cases hz
        · rintro ⟨hw,-⟩
          cases hw
      · exact ⟨ht,hn,hl,hd⟩
    · rename_i c rest _
      by_cases hD : c = ctrlD
      · rw [if_pos hD]
        refine ⟨fun hm => hl (List.mem_of_mem_dropLast hm),hd,by omega,.inl rfl,fun _ => ?_⟩
        simp [List.length_eq_zero_iff]
      · have hd' : ctrlD ∉ dst ++ [c] := by simpa [hd] using fun h => hD h.symm
        rw [if_neg hD]
        by_cases hL : c = newline
        · rw [if_pos hL]
          refine ⟨by simpa using hl,hd',by simp; omega,.inl (by simp),fun _ => ?_⟩
          constructor
          · intro hz
            omega
          · rintro ⟨hw,-⟩
            cases hw
        · rw [if_neg hL]
          refine ih _ (by rw [← hn]; simp; omega) ?_ hd'
          simpa [hl] using fun h => hL h.symm

variable {P : Type} [DecidableEq P]

structure InStep (s : Input × (P → Reader)) (a : Editor × (P → Reader)) : Prop where
  refines : Refines s.1 a.1
  readers : a.2 = s.2
  orderly : ∀ p, (s.2 p).Orderly

theorem refines_keys (keys : List UInt8) (h : Refines x l) :
    Refines (keys.foldl Input.key x) (keys.foldl Editor.key l) := by
  induction keys generalizing x l with
  | nil => exact h
  | cons c keys ih => exact ih (h.key c)

theorem Refines.read (h : Refines x l) (killed : Bool) (n : ℤ) :
    Refines (x.read killed n).1 (l.read killed n).1 ∧ (x.read killed n).2 = (l.read killed n).2 ∧
      (l.read killed n).2.Orderly := by
  unfold Input.read Editor.read
  split_ifs with hn
  · have hlen : (([] : List UInt8).length : ℤ) + n.toNat = n := by simp; omega
    obtain ⟨hr,he⟩ := h.readLoop killed hlen
    exact ⟨hr,he,take_orderly killed l hn hlen (by simp) (by simp)⟩
  · refine ⟨h,by rw [sub_self],by simp,by simp,by simp,by simp,fun hp => absurd hp hn⟩

theorem InStep.answer {s : Input × (P → Reader)} {a : Editor × (P → Reader)} (h : InStep s a) {x : Input}
    {l : Editor} {b b' : Reader} (p : P) (hr : Refines x l) (he : b = b') (ho : b'.Orderly) :
    InStep (x,Function.update s.2 p b) (l,Function.update s.2 p b') := by
  refine ⟨hr,by rw [he],fun q => ?_⟩
  rcases eq_or_ne q p with rfl | hq
  · simpa [he] using ho
  · simpa [hq] using h.orderly q

theorem InStep.serve {s s' : Input × (P → Reader)} {a : Editor × (P → Reader)} {e : Event P}
    (h : InStep s a) (hs : serve ring s e = some s') : ∃ a', serve editor a e = some a' ∧ InStep s' a' := by
  cases e with
  | interrupt keys =>
    cases hs
    exact ⟨_,rfl,refines_keys keys h.refines,h.readers,h.orderly⟩
  | read p killed n =>
    obtain ⟨hr,he,ho⟩ := h.refines.read killed n
    simp only [Console.serve,h.readers] at hs ⊢
    split at hs
    · cases hs
    · cases hs
      exact ⟨_,rfl,h.answer p hr he ho⟩
  | goOn p killed =>
    have hp := h.orderly p
    simp only [Console.serve,h.readers] at hs ⊢
    split at hs
    · rename_i target n dst hsl
      cases hs
      rw [hsl] at hp
      obtain ⟨ht,hn,hl,hd⟩ := hp
      obtain ⟨hr,he⟩ := h.refines.readLoop killed hn
      exact ⟨_,rfl,h.answer p hr he (take_orderly killed a.1 ht hn hl hd)⟩
    · cases hs

/-- Wherever the indices start, the ring goes through every sequence of interrupts and
reads like the editor. When it is full, there is something to read. -/
theorem console_refines_editor (buf : ℕ → UInt8) (i : BitVec 32) {es : List (Event P)}
    {t : Input × (P → Reader)}
    (hr : Runs (graph (serve ring)) (Input.empty buf i,fun _ => .idle) es t) :
    ∃ l, Runs (graph (serve editor)) (⟨[],[]⟩,fun _ => .idle) es (l,t.2) ∧ Refines t.1 l ∧
      l.total ≤ INPUT_BUF ∧ (l.total = INPUT_BUF → l.committed ≠ [] ∧ t.1.r ≠ t.1.w) ∧
      ∀ p, (t.2 p).Orderly := by
  have hempty : count i i = 0 := count_eq_zero.mpr rfl
  have hstart : Refines (Input.empty buf i) ⟨[],[]⟩ := by
    refine ⟨?_,hempty,by decide,fun _ => rfl,by simp⟩
    simp [Input.empty,hempty,contents]
  obtain ⟨⟨l,readers⟩,hl,h⟩ := hr.simulation (R := InStep) (a := (⟨[],[]⟩,fun _ => .idle))
    ⟨hstart,rfl,fun _ => trivial⟩ (fun s e s' a h hs => h.serve hs)
  obtain rfl : readers = t.2 := h.readers
  refine ⟨l,hl,h.refines,h.refines.room,fun hf => ?_,h.orderly⟩
  have hne : l.committed ≠ [] := by
    intro hn
    rw [Editor.total,h.refines.full hf,hn] at hf
    cases hf
  exact ⟨hne,fun he => hne (h.refines.committed_nil.mp he)⟩

local instance typed_size : NeZero 1 := ⟨by decide⟩

def typed : List (Event (Fin 1)) := [.interrupt [0x61,ctrlH,0x62,carriageReturn],.read 0 false 10]

theorem typed_runs : (execute (serve ring) (Input.empty (fun _ => 0) 0xFFFFFFFF,fun _ => .idle) typed).isSome =
    true := by decide +kernel

theorem console_refines_editor_typed : ∃ l t, Runs (graph (serve ring))
      (Input.empty (fun _ => 0) 0xFFFFFFFF,fun _ => .idle) typed t ∧
    Runs (graph (serve editor)) (⟨[],[]⟩,fun _ => .idle) typed (l,t.2) ∧ Refines t.1 l := by
  have hr := Runs.of_execute (Option.some_get typed_runs).symm
  obtain ⟨l,hl,hrl,-⟩ := console_refines_editor _ _ hr
  exact ⟨l,_,hr,hl,hrl⟩

end UoDOS.Console
