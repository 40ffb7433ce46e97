import UoDOS.Memory.PageTable

/-! # Frames and their words

Page `f` of physical memory is reached at the kernel address `page f`.
-/
namespace UoDOS.Paging
open ByteMemory

def page (f : ℕ) : ℕ := KERNBASE + 4096 * f

def Memory.word (m : Memory) (f i : ℕ) : ℕ := readWord m.ram (4096 * f + 4 * i)

theorem word_lt (m : Memory) (f i : ℕ) : m.word f i < 2^32 := readWord_lt _ _

section Bits

theorem and_high_mask {x k : ℕ} (hx : x < 2^32) (hk : k ≤ 32) :
    x &&& (2^(32 - k) - 1) * 2^k = 2^k * (x / 2^k) := by
  refine Nat.eq_of_testBit_eq (fun i => ?_)
  rw [mul_comm (2^k),Nat.testBit_and,Nat.testBit_mul_two_pow,Nat.testBit_mul_two_pow,Nat.testBit_two_pow_sub_one,
    Nat.testBit_div_two_pow]
  by_cases hi : k ≤ i
  · by_cases h32 : i < 32
    · simp [hi,show i - k < 32 - k by omega]
    · have : x.testBit i = false := Nat.testBit_lt_two_pow (lt_of_lt_of_le hx (Nat.pow_le_pow_right (by norm_num) (by omega)))
      simp [hi,this]
  · simp [hi]

theorem and_page_mask {x : ℕ} (hx : x < 2^32) : x &&& 0xFFFFF000 = 4096 * (x / 4096) :=
  and_high_mask (k := 12) hx (by norm_num)

theorem and_word_mask {x : ℕ} (hx : x < 2^32) : x &&& 0xFFFFFFFC = 4 * (x / 4) :=
  and_high_mask (k := 2) hx (by norm_num)

theorem pte_addr {x : ℕ} (hx : x < 2^32) : PTE_ADDR x = 4096 * (x / 4096) := and_page_mask hx

theorem pte_flags (x : ℕ) : PTE_FLAGS x = x % 4096 := Nat.and_two_pow_sub_one_eq_mod x 12

theorem user_iff (x : ℕ) : x &&& PTE_U ≠ 0 ↔ x / 4 % 2 = 1 := by
  rw [show PTE_U = 2^2 by rfl,Nat.and_two_pow,Nat.testBit_eq_decide_div_mod_eq]
  simp

theorem present_iff (x : ℕ) : x &&& PTE_P ≠ 0 ↔ x % 2 = 1 := by
  simp only [PTE_P]
  rw [Nat.and_one_is_mod]
  omega

theorem pdx_eq (va : ℕ) : PDX va = va / 2^22 % 1024 := by
  rw [PDX,Nat.shiftRight_eq_div_pow]
  exact Nat.and_two_pow_sub_one_eq_mod _ 10

theorem ptx_eq (va : ℕ) : PTX va = va / 2^12 % 1024 := by
  rw [PTX,Nat.shiftRight_eq_div_pow]
  exact Nat.and_two_pow_sub_one_eq_mod _ 10

theorem entry_eq {f perm : ℕ} (hp : perm < 4096) :
    4096 * f ||| perm ||| PTE_P = 4096 * f + (perm ||| 1) := by
  rw [Nat.or_assoc]
  exact (Nat.two_pow_add_eq_or_of_lt (i := 12) (Nat.or_lt_two_pow hp (by norm_num [PTE_P])) f).symm

theorem or_one_odd (x : ℕ) : (x ||| 1) % 2 = 1 := by
  have h := Nat.testBit_or x 1 0
  simp only [Nat.testBit_zero] at h
  simp

theorem or_one_of_odd {x : ℕ} (h : x % 2 = 1) : x ||| 1 = x := by
  have hdiv := Nat.or_div_two (a := x) (b := 1)
  have hodd := or_one_odd x
  simp only [Nat.reduceDiv,Nat.or_zero] at hdiv
  omega

theorem entry_frame {f perm : ℕ} (hp : perm < 4096) : (4096 * f ||| perm ||| PTE_P) / 4096 = f := by
  have : perm ||| 1 < 4096 := Nat.or_lt_two_pow (n := 12) hp (by norm_num)
  rw [entry_eq hp]
  omega

theorem entry_present {f perm : ℕ} (hp : perm < 4096) : (4096 * f ||| perm ||| PTE_P) % 2 = 1 := by
  have := or_one_odd perm
  rw [entry_eq hp]
  omega

theorem entry_lt {f perm : ℕ} (hf : f < 2^19) (hp : perm < 4096) : 4096 * f ||| perm ||| PTE_P < 2^32 := by
  have : perm ||| 1 < 4096 := Nat.or_lt_two_pow (n := 12) hp (by norm_num)
  rw [entry_eq hp]
  omega

theorem pgrounddown_eq {a : ℕ} (ha : a < 2^32) : PGROUNDDOWN a = 4096 * (a / 4096) := and_page_mask ha

theorem pgroundup_eq {a : ℕ} (ha : a + 4095 < 2^32) : PGROUNDUP a = 4096 * ((a + 4095) / 4096) := by
  rw [PGROUNDUP,PGSIZE,Nat.mod_eq_of_lt (by omega),and_page_mask (by omega)]
  congr 1

end Bits

section Addresses

theorem v2p_page {f x : ℕ} (hf : f < 2^19) (hx : x < 4096) : V2P (page f + x) = 4096 * f + x := by
  simp only [V2P,page,KERNBASE]
  omega

theorem p2v_frame {x : ℕ} (hx : x / 4096 < 2^19) : P2V (4096 * (x / 4096)) = page (x / 4096) := by
  simp only [P2V,page,KERNBASE]
  omega

theorem page_ne_zero (f : ℕ) : page f ≠ 0 := by
  simp only [page,KERNBASE]
  omega

theorem page_injective {f g : ℕ} (h : page f = page g) : f = g := by
  simp only [page] at h
  omega

theorem load_page (m : Memory) {f i : ℕ} (hf : f < 2^19) (hi : i < 1024) :
    m.load (page f + 4 * i) = m.word f i := by
  rw [Memory.load,v2p_page hf (by omega),Memory.word]

theorem word_store (m : Memory) {f i g j v : ℕ} (hf : f < 2^19) (hi : i < 1024) (hj : j < 1024)
    (hv : v < 2^32) : (m.store (page f + 4 * i) v).word g j = if g = f ∧ j = i then v else m.word g j := by
  rw [Memory.store,v2p_page hf (by omega)]
  split_ifs with h
  · rw [h.1,h.2]
    exact readWord_writeWord _ _ _ hv
  · exact readWord_writeWord_of_disjoint _ (by omega)

theorem word_memset_zero (m : Memory) {f g j : ℕ} (hf : f < 2^19) (hj : j < 1024) :
    (m.memset (page f) 0 PGSIZE).word g j = if g = f then 0 else m.word g j := by
  have hp : V2P (page f) = 4096 * f := by simpa using v2p_page (x := 0) hf (by norm_num)
  rw [Memory.memset,hp]
  split_ifs with h
  · subst h
    exact (readWord_fill_inside _ (by omega) (by simp only [PGSIZE]; omega)).trans (by simp [readWord])
  · exact readWord_fill_outside _ (by simp only [PGSIZE]; omega)

theorem word_memset_of_ne (m : Memory) {f g j : ℕ} {c : UInt8} (hf : f < 2^19) (hj : j < 1024) (hg : g ≠ f) :
    (m.memset (page f) c PGSIZE).word g j = m.word g j := by
  have hp : V2P (page f) = 4096 * f := by simpa using v2p_page (x := 0) hf (by norm_num)
  rw [Memory.memset,hp]
  exact readWord_fill_outside _ (by simp only [PGSIZE]; omega)

theorem word_memmove_of_ne (m : Memory) {f g j src n : ℕ} (hf : f < 2^19) (hj : j < 1024) (hg : g ≠ f)
    (hn : n ≤ PGSIZE) : (m.memmove (page f) src n).word g j = m.word g j := by
  have hp : V2P (page f) = 4096 * f := by simpa using v2p_page (x := 0) hf (by norm_num)
  rw [Memory.memmove,hp]
  exact readWord_move_outside _ (by simp only [PGSIZE] at hn; omega)

theorem word_memmove_page (m : Memory) {f g j : ℕ} (hf : f < 2^19) (hg : g < 2^19) (hj : j < 1024) :
    (m.memmove (page f) (page g) PGSIZE).word f j = m.word g j := by
  have hpf : V2P (page f) = 4096 * f := by simpa using v2p_page (x := 0) hf (by norm_num)
  have hpg : V2P (page g) = 4096 * g := by simpa using v2p_page (x := 0) hg (by norm_num)
  have hb : ∀ x, 4 * j ≤ x → x < 4 * j + 4 →
      move m.ram (4096 * f) (4096 * g) PGSIZE (4096 * f + x) = m.ram (4096 * g + x) := by
    intro x h1 h2
    rw [move,if_pos (by simp only [PGSIZE]; omega),Nat.add_sub_cancel_left]
  rw [Memory.memmove,hpf,hpg]
  simp only [Memory.word,readWord,Nat.add_assoc]
  rw [hb (4 * j) le_rfl (by omega),hb (4 * j + 1) (by omega) (by omega),hb (4 * j + 2) (by omega) (by omega),
    hb (4 * j + 3) (by omega) (by omega)]

theorem ram_of_words {m m' : Memory} {f g : ℕ} (h : ∀ j < 1024, m'.word f j = m.word g j) {x : ℕ}
    (hx : x < 4096) : m'.ram (4096 * f + x) = m.ram (4096 * g + x) := by
  have hb := bytes_of_readWord (h (x / 4) (by omega)) (show x % 4 < 4 by omega)
  rwa [Nat.add_assoc,Nat.add_assoc,Nat.div_add_mod] at hb

theorem word_write_of_ne (m : Memory) {f g j x : ℕ} {data : List UInt8} (hf : f < 2^19) (hj : j < 1024)
    (hg : g ≠ f) (hx : x < PGSIZE) (hn : x + data.length ≤ PGSIZE) :
    (m.write (page f + x) data).word g j = m.word g j := by
  rw [Memory.write,v2p_page hf hx]
  exact readWord_write_outside _ (by simp only [PGSIZE] at hn; omega)

end Addresses

end UoDOS.Paging
