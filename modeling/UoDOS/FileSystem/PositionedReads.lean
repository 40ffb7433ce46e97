import UoDOS.FileSystem.FileReads

/-! # Reads from positions that the caller sets

exec and loadProgramSegmentIntoPageTable write the field Position of a File before each read.
-/
namespace UoDOS.FileSystem
open ByteMemory Function

structure PositionedRead where
  Position : ℕ
  length : ℕ

/-- Sets the position of the File and reads: the count and the bytes. -/
def positionedRead (M : Mounted) (t : FileTable) (f : Fin NFILE) (r : PositionedRead) :
    Except Stop ((ℤ × List UInt8) × FileTable) := do
  let t := update t f { t f with Position := r.Position }
  let (count,bytes,t) ← fileRead M t f r.length (0,[])
  .ok ((count,bytes),t)

/-- The answers to a sequence of reads, each with the buffers as they are at its time. -/
def positionedReads (M : Mounted) (f : Fin NFILE) :
    List (PositionedRead × Disk) → FileTable → Except Stop (List (ℤ × List UInt8))
  | [], _ => .ok []
  | (r,D) :: rs, t => do
    let (answer,t) ← positionedRead { M with disk := D } t f r
    let answers ← positionedReads M f rs t
    .ok (answer :: answers)

/-- Every read is answered as if it were the first one, whatever lies behind the buffers. -/
def Independent (M : Mounted) (f : Fin NFILE) (t : FileTable) (rs : List PositionedRead) : Prop :=
  ∀ qs : List (PositionedRead × Disk), qs.map Prod.fst = rs → (∀ q ∈ qs, SameSectors M.disk q.2) →
    ∀ D, SameSectors M.disk D → positionedReads M f qs t =
      rs.mapM (fun r => Prod.fst <$> positionedRead { M with disk := D } t f r)

/-- A read of at least one byte that comes to the end of a file of the given size. -/
def PositionedRead.Ends (r : PositionedRead) (Size : ℕ) : Prop :=
  0 < r.length ∧ r.Position + r.length = Size

instance (r : PositionedRead) (Size : ℕ) : Decidable (r.Ends Size) := inferInstanceAs (Decidable (_ ∧ _))

/-- No read leaves the sector it starts in, except from its beginning, and no read follows
one that comes to the end of the file; reads of no bytes do not matter. -/
def Undisturbing (C Size : ℕ) (rs : List PositionedRead) : Prop :=
  (∀ r ∈ rs, 0 < r.length → InSector C (r.Position % C) r.length) ∧
    rs.Pairwise (fun r r' => r.Ends Size → r'.length = 0)

variable {M : Mounted} {f : Fin NFILE} {t : FileTable} {cs : List ℕ} {D : Disk}
  {r : PositionedRead} {file : File}

def answerOf (M : Mounted) (cs : List ℕ) (r : PositionedRead) : ℤ × List UInt8 :=
  (r.length,(List.range r.length).map (delivered M cs r.Position r.length))

def answersOf (M : Mounted) (cs : List ℕ) (Size : ℕ) :
    Bool → List (PositionedRead × Disk) → List (ℤ × List UInt8)
  | _, [] => []
  | e, (r,D) :: qs => (if e then (0,[]) else answerOf { M with disk := D } cs r) ::
      answersOf M cs Size (e || decide (r.Ends Size)) qs

theorem FatFile.read_none (hf : FatFile M file cs) : fsFat12Read M file 0 = .ok (0,[],file) := by
  unfold fsFat12Read
  split_ifs with hr hc
  · exact absurd hc hf.clusterSize_pos.ne'
  · rfl
  · rfl

theorem positionedRead_file (ht : (t f).type = .FD_FILE) (hr : (t f).Readable = true) (r : PositionedRead) :
    positionedRead M t f r = fsFat12Read M { t f with Position := r.Position } r.length >>= fun x =>
      .ok (((x.1 : ℤ),x.2.1),update t f x.2.2) := by
  have h1 : ¬ (update t f { t f with Position := r.Position } f).Readable = false := by
    simp [hr]
  have h2 : (update t f { t f with Position := r.Position } f).type = .FD_FILE := by
    simpa using ht
  rw [positionedRead]
  dsimp only
  rw [fileRead,if_neg h1,h2]
  simp only [update_self,bind,Except.bind]
  cases fsFat12Read M { t f with Position := r.Position } r.length with
  | error e => rfl
  | ok x => simp only [update_idem]

theorem positionedRead_marked (ht : (t f).type = .FD_FILE) (hr : (t f).Readable = true)
    (he : (t f).Eof = true) (r : PositionedRead) : positionedRead M t f r =
      .ok ((0,[]),update t f { t f with Position := r.Position }) := by
  rw [positionedRead_file ht hr,fsFat12Read,if_neg (fun h => absurd h.2 (by simp [he]))]
  rfl

theorem positionedRead_open (hf : FatFile M (t f) cs) (hr : (t f).Readable = true)
    (he : (t f).Eof = false) (hs : r.Position + r.length ≤ (t f).Size) :
    positionedRead M t f r = .ok (answerOf M cs r,update t f
      { t f with Position := r.Position + r.length, Eof := decide (r.Ends (t f).Size) }) := by
  have hread : fsFat12Read M { t f with Position := r.Position } r.length =
      .ok (r.length,(List.range r.length).map (delivered M cs r.Position r.length),
        { t f with Position := r.Position + r.length, Eof := decide (r.Ends (t f).Size) }) := by
    rcases Nat.eq_zero_or_pos r.length with h0 | hpos
    · have hends : ¬ r.Ends (t f).Size := fun h => absurd h.1 (by omega)
      rw [h0,(hf.move r.Position).read_none,decide_eq_false hends,← he]
      rfl
    · have hbelow := hf.below
      rw [(hf.move r.Position).read he (show r.Position < (t f).Size by omega)
        (show r.length = _ by simp only; omega)]
      congr 4
      apply decide_eq_decide.mpr
      simp only [PositionedRead.Ends]
      omega
  rw [positionedRead_file hf.type hr,hread]
  rfl

theorem positionedRead_unreadable (hr : (t f).Readable = false) (r : PositionedRead) :
    positionedRead M t f r = .ok ((-1,[]),update t f { t f with Position := r.Position }) := by
  have h1 : (update t f { t f with Position := r.Position } f).Readable = false := by
    simpa using hr
  rw [positionedRead]
  dsimp only
  rw [fileRead,if_pos h1]
  rfl

theorem positionedReads_open (hf : FatFile M (t f) cs) (hr : (t f).Readable = true)
    {qs : List (PositionedRead × Disk)} (hs : ∀ q ∈ qs, q.1.Position + q.1.length ≤ (t f).Size) :
    positionedReads M f qs t = .ok (answersOf M cs (t f).Size (t f).Eof qs) := by
  induction qs generalizing t with
  | nil => rfl
  | cons q qs ih =>
    obtain ⟨r,D⟩ := q
    have hrest : ∀ q ∈ qs, q.1.Position + q.1.length ≤ (t f).Size :=
      fun q hq => hs q (List.mem_cons_of_mem _ hq)
    cases he : (t f).Eof with
    | false =>
      rw [positionedReads,positionedRead_open (M := { M with disk := D }) (hf.redisk D) hr he
        (hs (r,D) List.mem_cons_self)]
      simp only [bind,Except.bind]
      rw [ih (by simpa using (hf.move _).mark _) (by simpa using hr) (by simpa using hrest)]
      simp [answersOf]
    | true =>
      rw [positionedReads,positionedRead_marked (M := { M with disk := D }) hf.type hr he]
      simp only [bind,Except.bind]
      rw [ih (by simpa using hf.move _) (by simpa using hr) (by simpa using hrest)]
      simp [answersOf,he]

theorem fileByte_same (h : SameSectors M.disk D) (i : ℕ) :
    fileByte { M with disk := D } cs i = fileByte M cs i :=
  h _ _ (Nat.mod_lt _ (by decide))

theorem answerOf_none (h : r.length = 0) : answerOf M cs r = (0,[]) := by
  rw [answerOf,h]
  rfl

theorem answerOf_same_iff (hf : FatFile M file cs) :
    (∀ D D', SameSectors M.disk D → SameSectors M.disk D' →
        answerOf { M with disk := D } cs r = answerOf { M with disk := D' } cs r) ↔
      (0 < r.length → InSector M.volume.mount.ClusterSize (r.Position % M.volume.mount.ClusterSize)
        r.length) := by
  constructor
  · intro h hpos
    by_contra hno
    -- disks with the byte `x` behind every sector
    obtain ⟨D,hD,hb⟩ : ∃ D : UInt8 → Disk, (∀ x, SameSectors M.disk (D x)) ∧
        ∀ x sector, D x sector 512 = x :=
      ⟨fun x sector i => if i < BSIZE then M.disk sector i else x,
        fun x sector i hi => if_pos hi,fun x sector => if_neg (lt_irrefl BSIZE)⟩
    obtain ⟨hin,hplace⟩ := place_behind hno (M.volume.clusterSector
      (cs.getD (r.Position / M.volume.mount.ClusterSize) 0))
    set i := 512 - r.Position % M.volume.mount.ClusterSize % 512
    have hx : ∀ x, delivered { M with disk := D x } cs r.Position r.length i = x := by
      intro x
      rw [delivered,if_pos hin,startByte,hplace]
      apply hb
    have hi : i < r.length := by omega
    have hbytes := congrArg (fun a => a.2[i]?) (h (D 0) (D 1) (hD 0) (hD 1))
    simp only [answerOf,List.getElem?_map,List.getElem?_range hi,Option.map_some,Option.some.injEq,
      hx] at hbytes
    exact absurd hbytes (by decide)
  · intro h D D' hD hD'
    rcases Nat.eq_zero_or_pos r.length with h0 | hpos
    · rw [answerOf_none h0,answerOf_none h0]
    · rw [answerOf,answerOf,Prod.mk.injEq]
      refine ⟨rfl,List.map_congr_left ?_⟩
      intro i _
      rw [delivered_of_inSector (M := { M with disk := D }) hf.clusterSize_pos (h hpos),
        delivered_of_inSector (M := { M with disk := D' }) hf.clusterSize_pos (h hpos),
        fileByte_same hD,fileByte_same hD']

theorem answersOf_same_iff (hf : FatFile M file cs) (Size : ℕ) (e : Bool)
    (rs : List PositionedRead) :
    (∀ qs : List (PositionedRead × Disk), qs.map Prod.fst = rs → (∀ q ∈ qs, SameSectors M.disk q.2) →
        ∀ D, SameSectors M.disk D →
          answersOf M cs Size e qs = rs.map (answerOf { M with disk := D } cs)) ↔
      (e = true → ∀ r ∈ rs, r.length = 0) ∧ Undisturbing M.volume.mount.ClusterSize Size rs := by
  have hsame : SameSectors M.disk M.disk := fun _ _ _ => rfl
  induction rs generalizing e with
  | nil =>
    constructor
    · intro
      exact ⟨by simp,by simp,.nil⟩
    · rintro - qs hqs - D -
      rw [List.map_eq_nil_iff.mp hqs]
      rfl
  | cons r rs ih =>
    constructor
    · intro h
      have hhead : ∀ D D', SameSectors M.disk D → SameSectors M.disk D' →
          (if e then (0,[]) else answerOf { M with disk := D } cs r) =
            answerOf { M with disk := D' } cs r := by
        intro D D' hD hD'
        have hq := h ((r,D) :: rs.map (·,M.disk)) (by simp [Function.comp_def])
          (by simp [hD,hsame]) D' hD'
        rw [answersOf,List.map_cons] at hq
        exact (List.cons.inj hq).1
      have htail := (ih (e := e || decide (r.Ends Size))).mp (by
        intro qs hqs hq D hD
        have h' := h ((r,M.disk) :: qs) (by simp [hqs]) (by simpa [hsame] using hq) D hD
        rw [answersOf,List.map_cons] at h'
        exact (List.cons.inj h').2)
      obtain ⟨hmark,hin,hpair⟩ := htail
      have hr0 : e = true → r.length = 0 := by
        intro he
        have h0 := congrArg Prod.fst (hhead M.disk M.disk hsame hsame)
        rw [he,if_pos rfl] at h0
        exact Int.ofNat_eq_zero.mp h0.symm
      refine ⟨?_,?_,?_⟩
      · intro he r' hr'
        rcases List.mem_cons.mp hr' with rfl | hr'
        · exact hr0 he
        · exact hmark (by simp [he]) r' hr'
      · intro r' hr'
        rcases List.mem_cons.mp hr' with rfl | hr'
        · apply (answerOf_same_iff hf).mp
          intro D D' hD hD'
          rw [← hhead M.disk D hsame hD,← hhead M.disk D' hsame hD']
        · exact hin r' hr'
      · apply List.pairwise_cons.mpr
        exact ⟨fun r' hr' hends => hmark (by simp [hends]) r' hr',hpair⟩
    · rintro ⟨hmark,hin,hpair⟩ qs hqs hq D hD
      obtain ⟨⟨r',D0⟩,qs,rfl,rfl,hqs'⟩ := List.map_eq_cons_iff.mp hqs
      obtain ⟨hends,hpair⟩ := List.pairwise_cons.mp hpair
      rw [answersOf,List.map_cons]
      congr 1
      · cases e with
        | false =>
          exact (answerOf_same_iff hf).mpr (hin r' List.mem_cons_self) D0 D
            (hq _ List.mem_cons_self) hD
        | true => exact (answerOf_none (hmark rfl r' List.mem_cons_self)).symm
      · refine (ih _).mpr ⟨?_,fun r hr => hin r (List.mem_cons_of_mem _ hr),hpair⟩ qs hqs'
          (fun q hq' => hq q (List.mem_cons_of_mem _ hq')) D hD
        intro he r hr
        rcases (Bool.or_eq_true _ _).mp he with he | he
        · exact hmark he r (List.mem_cons_of_mem _ hr)
        · exact hends r hr (by simpa using he)

theorem mapM_ok {α β ε : Type} {g : α → Except ε β} {a : α → β} {l : List α}
    (h : ∀ x ∈ l, g x = .ok (a x)) : l.mapM g = .ok (l.map a) := by
  induction l with
  | nil => rfl
  | cons x l ih =>
    rw [List.mapM_cons,h x List.mem_cons_self,ih (fun y hy => h y (List.mem_cons_of_mem _ hy))]
    rfl

theorem independent_iff_of_readable (hf : FatFile M (t f) cs) (he : (t f).Eof = false)
    (hr : (t f).Readable = true) {rs : List PositionedRead}
    (hs : ∀ r ∈ rs, r.Position + r.length ≤ (t f).Size) :
    Independent M f t rs ↔ Undisturbing M.volume.mount.ClusterSize (t f).Size rs := by
  have hsingle : ∀ D, rs.mapM (fun r => Prod.fst <$> positionedRead { M with disk := D } t f r) =
      .ok (rs.map (answerOf { M with disk := D } cs)) := by
    intro D
    apply mapM_ok
    intro r hr'
    rw [positionedRead_open (M := { M with disk := D }) (hf.redisk D) hr he (hs r hr')]
    rfl
  have hall : ∀ qs : List (PositionedRead × Disk), qs.map Prod.fst = rs →
      positionedReads M f qs t = .ok (answersOf M cs (t f).Size false qs) := by
    rintro qs rfl
    rw [positionedReads_open hf hr (fun q hq => hs q.1 (List.mem_map_of_mem hq)),he]
  have hiff := answersOf_same_iff hf (t f).Size false rs
  simp only [Bool.false_eq_true,false_implies,true_and] at hiff
  simp only [← hiff,Independent,hsingle]
  constructor
  · intro h qs hqs hq D hD
    have h' := h qs hqs hq D hD
    rw [hall qs hqs] at h'
    exact Except.ok.inj h'
  · intro h qs hqs hq D hD
    rw [hall qs hqs,h qs hqs hq D hD]

theorem independent_of_unreadable (hr : (t f).Readable = false) (rs : List PositionedRead) :
    Independent M f t rs := by
  have hall : ∀ (qs : List (PositionedRead × Disk)) (t : FileTable), (t f).Readable = false →
      positionedReads M f qs t = .ok (qs.map (fun _ => (-1,[]))) := by
    intro qs
    induction qs with
    | nil => intros; rfl
    | cons q qs ih =>
      intro t hr
      rw [positionedReads,positionedRead_unreadable hr]
      simp only [bind,Except.bind]
      rw [ih _ (by simpa using hr)]
      rfl
  rintro qs rfl - D -
  rw [hall qs t hr,mapM_ok (a := fun _ => (-1,[])) (fun r _ => by
    rw [positionedRead_unreadable hr]
    rfl),List.map_map]
  rfl

/-- Positioned reads of an open file are independent of each other exactly if the file
cannot be read at all, or none follows one that comes to the end of the file, and none
crosses the end of a sector in mid-sector. -/
theorem positioned_reads_independent_iff (hf : FatFile M (t f) cs) (he : (t f).Eof = false)
    {rs : List PositionedRead} (hs : ∀ r ∈ rs, r.Position + r.length ≤ (t f).Size) :
    Independent M f t rs ↔ (t f).Readable = false ∨
      Undisturbing M.volume.mount.ClusterSize (t f).Size rs := by
  cases hr : (t f).Readable with
  | false => simp [independent_of_unreadable hr]
  | true => simp [independent_iff_of_readable hf he hr hs]

def shortFiles : FileTable := update unusedFiles ⟨0,by decide⟩ shortFile

theorem positioned_reads_independent_iff_short :
    FatFile (twoClusters true) (shortFiles ⟨0,by decide⟩) [3] ∧
      Independent (twoClusters true) ⟨0,by decide⟩ shortFiles [⟨4,2⟩,⟨0,10⟩] :=
  ⟨shortFile_wellFormed,(positioned_reads_independent_iff (t := shortFiles) (f := ⟨0,by decide⟩)
    shortFile_wellFormed rfl (by decide)).mpr (.inr ⟨by decide,by decide⟩)⟩

/-- The second of two equal reads that come to the end of the file delivers nothing. -/
theorem end_of_file_sticks :
    FatFile (twoClusters true) (shortFiles ⟨0,by decide⟩) [3] ∧
      ¬ Independent (twoClusters true) ⟨0,by decide⟩ shortFiles [⟨0,10⟩,⟨0,10⟩] := by
  refine ⟨shortFile_wellFormed,?_⟩
  rw [independent_iff_of_readable (t := shortFiles) (f := ⟨0,by decide⟩) shortFile_wellFormed rfl rfl
    (by decide)]
  intro h
  exact absurd h.2 (by decide)

end UoDOS.FileSystem
