import UoDOS.Boot.Fat12

/-! # Sectors that come to memory

What ReadSectors stores while the buffer stays in its segment, for every BIOS, and where a BIOS
that counts offsets modulo 2^16 stores the sectors of a longer read.
-/
namespace UoDOS.Boot
open ByteMemory Results Function
open FileSystem (Disk)

variable {B : Bios} {disk : Disk} {allowed : ℕ → Bool} {es ax bx : UInt16} {m m' : Machine}

section Memory

theorem scatter_outside {b data : Bytes} {place : ℕ → ℕ} {n x : ℕ} (h : ∀ i < n, place i ≠ x) :
    scatter b place data n x = b x := by
  induction n with
  | zero => rfl
  | succ n ih =>
    rw [scatter,update_of_ne (h n (by omega)).symm]
    exact ih (fun i hi => h i (by omega))

theorem scatter_linear {b data : Bytes} {place : ℕ → ℕ} {a n : ℕ} (h : ∀ i < n, place i = a + i) (x : ℕ) :
    scatter b place data n x = if a ≤ x ∧ x < a + n then data (x - a) else b x := by
  induction n with
  | zero => rw [if_neg (by omega),scatter]
  | succ n ih =>
    rw [scatter,h n (by omega)]
    by_cases hx : x = a + n
    · rw [hx,update_self,if_pos (by omega),Nat.add_sub_cancel_left]
    · rw [update_of_ne hx,ih (fun i hi => h i (by omega))]
      by_cases hin : a ≤ x ∧ x < a + n
      · rw [if_pos hin,if_pos (by omega)]
      · rw [if_neg hin,if_neg (by omega)]

def fromSector (disk : Disk) (s : ℕ) : Bytes := fun i => disk (s + i / 512) (i % 512)

def Stored (data : Bytes) (a n : ℕ) (m m' : Machine) : Prop :=
  ∀ x, m'.memory x = if a ≤ x ∧ x < a + n then data (x - a) else m.memory x

theorem Stored.outside {data : Bytes} {a n x : ℕ} (h : Stored data a n m m') (hx : x < a ∨ a + n ≤ x) :
    m'.memory x = m.memory x := by
  rw [h x,if_neg (by omega)]

theorem Stored.inside {data : Bytes} {a n i : ℕ} (h : Stored data a n m m') (hi : i < n) :
    m'.memory (a + i) = data i := by
  rw [h,if_pos (by omega),Nat.add_sub_cancel_left]

theorem Stored.congr {data data' : Bytes} {a n : ℕ} (h : Stored data a n m m') (hd : ∀ i < n, data i = data' i) :
    Stored data' a n m m' := by
  intro x
  rw [h x]
  split_ifs with hx
  · exact hd _ (by omega)
  · rfl

theorem Stored.append {data data' : Bytes} {a k l : ℕ} {m'' : Machine} (h : Stored data a k m m')
    (h' : Stored data' (a + k) l m' m'') (hd : ∀ i, data' i = data (k + i)) : Stored data a (k + l) m m'' := by
  intro x
  rw [h' x,h x]
  by_cases hx : a + k ≤ x ∧ x < a + k + l
  · rw [if_pos hx,if_pos (by omega),hd,show k + (x - (a + k)) = x - a by omega]
  · rw [if_neg hx]
    by_cases hk : a ≤ x ∧ x < a + k
    · rw [if_pos hk,if_pos (by omega)]
    · rw [if_neg hk,if_neg (by omega)]

end Memory

section Sectors

theorem LBAToCHS_number (h : ax.toNat < bpbTotalSectors.toNat) :
    sectorNumber (LBAToCHS ax).1 (LBAToCHS ax).2.1 (LBAToCHS ax).2.2 = ax.toNat := by
  have h1 : bpbTotalSectors.toNat = 20160 := rfl
  have h2 : bpbSectorsPerTrack.toNat = 63 := rfl
  have h3 : bpbHeadsPerCylinder.toNat = 16 := rfl
  have h4 : (1 : UInt8).toNat = 1 := rfl
  simp only [sectorNumber,LBAToCHS,UInt8.toNat_add,UInt16.toNat_toUInt8,UInt16.toNat_mod,UInt16.toNat_div,h2,h3,h4]
  omega

theorem AttemptRead_reads (hin : bx.toNat + 512 ≤ 2^16) (hallow : ∀ i < 512, allowed (linear es bx + i))
    (hax : ax.toNat < bpbTotalSectors.toNat) (di : ℕ) (m : Machine) :
    Delivers (· = .reboot) (Stored (disk ax.toNat) (linear es bx) 512 m)
      (AttemptRead B disk allowed es ax bx di m) := by
  have hplace : ∀ i < 512, B.place es bx i = linear es bx + i := fun i hi => B.inside es bx i (by omega)
  have hall : (List.range 512).all (fun i => allowed (B.place es bx i)) = true := by
    rw [List.all_eq_true]
    intro i hi
    rw [hplace i (List.mem_range.mp hi)]
    exact hallow i (List.mem_range.mp hi)
  induction di generalizing m with
  | zero => exact .error rfl
  | succ di ih =>
    rw [AttemptRead]
    simp only [int13,hall,if_true]
    cases B.error m.calls with
    | none =>
      refine .ok (fun x => ?_)
      dsimp only
      rw [scatter_linear hplace,LBAToCHS_number hax]
    | some bytes =>
      -- the next attempt goes over the same places
      refine (ih ⟨scatter m.memory (B.place es bx) bytes 512,m.calls + 1⟩).imp (fun m' hs x => ?_)
      rw [hs x]
      dsimp only
      split_ifs with hx
      · rfl
      · rw [scatter_linear hplace,if_neg hx]

theorem ReadSectors_reads (n : ℕ) (hin : bx.toNat + 512 * n ≤ 2^16)
    (hallow : ∀ i < 512 * n, allowed (linear es bx + i)) (hax : ax.toNat + n ≤ bpbTotalSectors.toNat) (m : Machine) :
    Delivers (· = .reboot) (fun r => r.1.toNat = (bx.toNat + 512 * n) % 2^16 ∧
      Stored (fromSector disk ax.toNat) (linear es bx) (512 * n) m r.2) (ReadSectors B disk allowed es n ax bx m) := by
  have hsize : ∀ x : UInt16, (x + bpbBytesPerSector).toNat = (x.toNat + 512) % 2^16 := fun x => UInt16.toNat_add ..
  induction n generalizing ax bx m with
  | zero =>
    refine .ok ⟨(Nat.mod_eq_of_lt bx.toNat_lt).symm,fun x => ?_⟩
    rw [if_neg (by omega)]
  | succ n ih =>
    rw [Nat.mul_succ,← Nat.add_assoc] at hin
    have hsector : Delivers (· = .reboot) (Stored (disk ax.toNat) (linear es bx) 512 m)
        (AttemptRead B disk allowed es ax bx 5 m) :=
      AttemptRead_reads (by omega) (fun i hi => hallow i (by omega)) (Nat.lt_of_lt_of_le (by omega) hax) 5 m
    rw [ReadSectors]
    refine hsector.bind (fun m1 hs => ?_)
    have hs1 : Stored (fromSector disk ax.toNat) (linear es bx) 512 m m1 := hs.congr (fun i hi => by
      rw [fromSector,Nat.div_eq_of_lt hi,Nat.mod_eq_of_lt hi,Nat.add_zero])
    have hax' : (ax + 1).toNat = ax.toNat + 1 := by
      have htop : ax.toNat + (n + 1) ≤ 20160 := hax
      rw [UInt16.toNat_add]
      exact Nat.mod_eq_of_lt (show ax.toNat + 1 < 2^16 by omega)
    rcases Nat.eq_zero_or_pos n with rfl | hn
    · -- the last sector may end with the segment
      exact .ok ⟨by rw [hsize],hs1⟩
    · have hlin : linear es (bx + bpbBytesPerSector) = linear es bx + 512 := by
        rw [linear,hsize,linear]
        omega
      refine (ih (by rw [hsize]; omega) (fun i hi => ?_) (by rw [hax']; omega) m1).imp (fun r hr => ⟨?_,?_⟩)
      · rw [hlin,Nat.add_assoc]
        exact hallow _ (by omega)
      · rw [hr.1,hsize]
        omega
      · have hs2 := hr.2
        rw [hlin,hax'] at hs2
        rw [Nat.mul_succ,Nat.add_comm (512 * n)]
        exact hs1.append hs2 (fun i => by
          rw [fromSector,fromSector,Nat.add_mod_left,Nat.add_div_left _ (by norm_num),Nat.add_succ,Nat.succ_add]
          rfl)

end Sectors

section Wrap

def wrapping : Bios where
  place es bx i := 16 * es.toNat + (bx.toNat + i) % 2^16
  inside es bx i h := by
    rw [Nat.mod_eq_of_lt h,linear]
    omega
  error _ := none

def Behind (es : UInt16) (m m' : Machine) : Prop := m'.memory (16 * es.toNat + 2^16) = m.memory (16 * es.toNat + 2^16)

theorem AttemptRead_wraps (di : ℕ) (m : Machine) :
    Delivers (· ≠ .reboot) (Behind es m) (AttemptRead wrapping disk allowed es ax bx (di + 1) m) := by
  rw [AttemptRead]
  simp only [int13]
  split_ifs with hall
  · refine .ok ?_
    unfold Behind
    dsimp only
    apply scatter_outside
    intro i _
    have hlt : (bx.toNat + i) % 2^16 < 2^16 := Nat.mod_lt _ (by norm_num)
    change 16 * es.toNat + (bx.toNat + i) % 2^16 ≠ _
    omega
  · exact .error (by decide)

theorem ReadSectors_wraps (n : ℕ) (m : Machine) :
    Delivers (· ≠ .reboot) (fun r => Behind es m r.2) (ReadSectors wrapping disk allowed es n ax bx m) := by
  induction n generalizing ax bx m with
  | zero => exact .ok rfl
  | succ n ih =>
    rw [ReadSectors]
    exact (AttemptRead_wraps 4 m).bind (fun m1 h1 => (ih m1).imp (fun r hr => hr.trans h1))

end Wrap

end UoDOS.Boot
