import OsLab.Lib.Words
import OsLab.Mm.Model

/-!
# Entries, page numbers and frames

What the masks and shifts of `pgtable.h` compute. An entry written for a frame leads back to it, and
attributes neither change where an entry leads nor, the present bit apart, whether it is present. The three
page numbers of an address are nine bits each and determine the page. The frames of the two pools lie one
after the other from `INIT_KERNEL_STACK` on, a page apart.
-/

namespace OsLab.Mm

open Lib

/-! ### Entries -/

theorem wbit_pfn_mask (i : ℕ) : wbit pfn_mask i = decide (i < 44) := by
  have : pfn_mask = UInt64.ofNat (2 ^ 44 - 1) := by decide
  rw [this, wbit_ofNat_two_pow_sub_one (by decide)]

theorem wbit_get_pfn (e : UInt64) (i : ℕ) : wbit (get_pfn e) i = (wbit e (10 + i) && decide (i < 44)) := by
  rw [get_pfn, wbit_and, wbit_pfn_mask, wbit_shiftRight _ _ _ (by decide)]
  rfl

theorem get_pfn_set_pfn (e : UInt64) {pfn bits : UInt64} (hp : pfn.toNat < 2 ^ 44) (hb : bits.toNat < 2 ^ 10) :
    get_pfn (set_attribute (set_pfn e pfn) bits) = pfn := by
  apply eq_of_wbit
  intro i hi
  rw [wbit_get_pfn, set_attribute, set_pfn, wbit_or, wbit_or, wbit_and, wbit_not, wbit_shiftLeft _ _ _ (by decide),
    wbit_shiftLeft _ _ _ (by decide), wbit_of_toNat_lt hb (by omega : 10 ≤ 10 + i), wbit_pfn_mask]
  by_cases h : i < 44
  · have h1 : 10 + i < 64 := by omega
    have h2 : ¬ 10 + i < 10 := by omega
    simp [h, h1, h2]
  · rw [wbit_of_toNat_lt hp (by omega : 44 ≤ i)]
    simp [h]

theorem get_pfn_set_attribute (e : UInt64) {bits : UInt64} (hb : bits.toNat < 2 ^ 10) :
    get_pfn (set_attribute e bits) = get_pfn e := by
  apply eq_of_wbit
  intro i hi
  rw [wbit_get_pfn, wbit_get_pfn, set_attribute, wbit_or, wbit_of_toNat_lt hb (by omega : 10 ≤ 10 + i), Bool.or_false]

theorem get_pfn_clear_attribute (e : UInt64) {bits : UInt64} (hb : bits.toNat < 2 ^ 10) :
    get_pfn (clear_attribute e bits) = get_pfn e := by
  apply eq_of_wbit
  intro i hi
  rw [wbit_get_pfn, wbit_get_pfn, clear_attribute, wbit_and, wbit_not, wbit_of_toNat_lt hb (by omega : 10 ≤ 10 + i)]
  by_cases h : i < 44
  · have : 10 + i < 64 := by omega
    simp [this]
  · simp [h]

/-- The entry is present. -/
def Present (e : UInt64) : Prop := get_attribute e PAGE_PRESENT ≠ 0

theorem wbit_one (i : ℕ) : wbit 1 i = decide (i = 0) := by
  rw [Bool.eq_iff_iff, decide_eq_true_iff]
  exact Nat.testBit_one_eq_true_iff_self_eq_zero

theorem present_iff {e : UInt64} : Present e ↔ wbit e 0 = true := by
  have hbit : ∀ i, wbit (get_attribute e PAGE_PRESENT) i = (wbit e i && decide (i = 0)) := by
    intro i
    rw [get_attribute, wbit_and]
    congr 1
    exact wbit_one i
  constructor
  · intro h
    by_contra hn
    refine h (eq_of_wbit fun i hi => ?_)
    rw [hbit]
    by_cases h0 : i = 0
    · subst h0
      simp_all [wbit]
    · simp [h0, wbit]
  · intro h he
    have := hbit 0
    rw [he, h] at this
    simp [wbit] at this

@[simp] theorem target_set_attribute (e : UInt64) {bits : UInt64} (hb : bits.toNat < 2 ^ 10) :
    target (set_attribute e bits) = target e := by
  rw [target, target, get_pa, get_pa, get_pfn_set_attribute e hb]

@[simp] theorem target_clear_attribute (e : UInt64) {bits : UInt64} (hb : bits.toNat < 2 ^ 10) :
    target (clear_attribute e bits) = target e := by
  rw [target, target, get_pa, get_pa, get_pfn_clear_attribute e hb]

theorem present_set_attribute {e bits : UInt64} (hb : wbit bits 0 = false) :
    Present (set_attribute e bits) ↔ Present e := by
  rw [present_iff, present_iff, set_attribute, wbit_or, hb, Bool.or_false]

theorem present_clear_attribute {e bits : UInt64} (hb : wbit bits 0 = false) :
    Present (clear_attribute e bits) ↔ Present e := by
  rw [present_iff, present_iff, clear_attribute, wbit_and, wbit_not, hb]
  simp

theorem not_present_clear (e : UInt64) : ¬ Present (clear_attribute e PAGE_PRESENT) := by
  rw [present_iff, clear_attribute, wbit_and, wbit_not, PAGE_PRESENT, wbit_one]
  simp

theorem Present.ne_zero {e : UInt64} (h : Present e) : e ≠ 0 := by
  rintro rfl
  exact h rfl

theorem present_mapEntry (e kva : UInt64) {bits : UInt64} (hb : wbit bits 0 = true) :
    Present (mapEntry e kva bits) := by
  rw [present_iff, mapEntry, set_attribute, wbit_or, hb, Bool.or_true]

/-! ### Page numbers -/

theorem wbit_VA_MASK (i : ℕ) : wbit VA_MASK i = decide (i < 39) := by
  have : VA_MASK = UInt64.ofNat (2 ^ 39 - 1) := by decide
  rw [this, wbit_ofNat_two_pow_sub_one (by decide)]

theorem wbit_vpn2 (va : UInt64) (i : ℕ) : wbit (vpn2 va) i = (wbit va (30 + i) && decide (i < 9)) := by
  rw [vpn2, wbit_shiftRight _ _ _ (by decide), wbit_and, wbit_VA_MASK]
  have : (UInt64.toNat 30 + i < 39) ↔ i < 9 := by
    show 30 + i < 39 ↔ i < 9
    omega
  rw [decide_eq_decide.mpr this]
  rfl

theorem wbit_vpn1 (va : UInt64) (i : ℕ) : wbit (vpn1 va) i = (wbit va (21 + i) && decide (i < 9)) := by
  rw [vpn1, wbit_xor, wbit_shiftLeft _ _ _ (by decide), wbit_vpn2,
    wbit_shiftRight _ _ _ (by decide), wbit_and, wbit_VA_MASK]
  show (decide (i < 64) && !decide (i < 9) && (wbit va (30 + (i - 9)) && decide (i - 9 < 9)) ^^
    (wbit va (21 + i) && decide (21 + i < 39))) = _
  by_cases h : i < 9
  · have : 21 + i < 39 := by omega
    simp [h, this]
  · have e : 30 + (i - 9) = 21 + i := by omega
    rw [e]
    by_cases h2 : i < 18
    · have h3 : i < 64 := by omega
      have h4 : i - 9 < 9 := by omega
      have h5 : 21 + i < 39 := by omega
      simp [h, h3, h4, h5]
    · have h4 : ¬ i - 9 < 9 := by omega
      have h5 : ¬ 21 + i < 39 := by omega
      simp [h, h4, h5]

theorem wbit_vpn0 (va : UInt64) (i : ℕ) : wbit (vpn0 va) i = (wbit va (12 + i) && decide (i < 9)) := by
  rw [vpn0, wbit_xor, wbit_xor, wbit_shiftLeft _ _ _ (by decide),
    wbit_shiftLeft _ _ _ (by decide), wbit_vpn2, wbit_vpn1,
    wbit_shiftRight _ _ _ (by decide), wbit_and, wbit_VA_MASK]
  show ((wbit va (12 + i) && decide (12 + i < 39)) ^^
      (decide (i < 64) && !decide (i < 18) && (wbit va (30 + (i - 18)) && decide (i - 18 < 9))) ^^
      (decide (i < 64) && !decide (i < 9) && (wbit va (21 + (i - 9)) && decide (i - 9 < 9)))) = _
  by_cases h : i < 9
  · have h1 : 12 + i < 39 := by omega
    have h2 : i < 18 := by omega
    simp [h, h1, h2]
  · have h64 : i < 64 ∨ 39 ≤ 12 + i := by omega
    by_cases h2 : i < 18
    · have e : 21 + (i - 9) = 12 + i := by omega
      have h3 : i < 64 := by omega
      have h4 : i - 9 < 9 := by omega
      have h5 : 12 + i < 39 := by omega
      simp [h, h2, h3, h4, h5, e]
    · by_cases h6 : i < 27
      · have e : 30 + (i - 18) = 12 + i := by omega
        have h3 : i < 64 := by omega
        have h4 : i - 18 < 9 := by omega
        have h5 : ¬ i - 9 < 9 := by omega
        have h7 : 12 + i < 39 := by omega
        simp [h, h2, h3, h4, h5, h7, e]
      · have h4 : ¬ i - 18 < 9 := by omega
        have h5 : ¬ i - 9 < 9 := by omega
        have h7 : ¬ 12 + i < 39 := by omega
        simp [h, h4, h5, h7]

theorem vpn2_lt (va : UInt64) : (vpn2 va).toNat < 512 := by
  refine toNat_lt_of_wbit (k := 9) fun i hi => ?_
  rw [wbit_vpn2, decide_eq_false (by omega), Bool.and_false]

theorem vpn1_lt (va : UInt64) : (vpn1 va).toNat < 512 := by
  refine toNat_lt_of_wbit (k := 9) fun i hi => ?_
  rw [wbit_vpn1, decide_eq_false (by omega), Bool.and_false]

theorem vpn0_lt (va : UInt64) : (vpn0 va).toNat < 512 := by
  refine toNat_lt_of_wbit (k := 9) fun i hi => ?_
  rw [wbit_vpn0, decide_eq_false (by omega), Bool.and_false]

theorem testBit_div_mod (n s k i : ℕ) : (n / 2 ^ s % 2 ^ k).testBit i = (n.testBit (s + i) && decide (i < k)) := by
  rw [Nat.testBit_mod_two_pow, Nat.testBit_div_two_pow, Nat.add_comm i s, Bool.and_comm]

theorem toNat_vpn2 (va : UInt64) : (vpn2 va).toNat = va.toNat / 2 ^ 30 % 2 ^ 9 := by
  refine Nat.eq_of_testBit_eq fun i => ?_
  rw [testBit_div_mod]
  exact wbit_vpn2 va i

theorem toNat_vpn1 (va : UInt64) : (vpn1 va).toNat = va.toNat / 2 ^ 21 % 2 ^ 9 := by
  refine Nat.eq_of_testBit_eq fun i => ?_
  rw [testBit_div_mod]
  exact wbit_vpn1 va i

theorem toNat_vpn0 (va : UInt64) : (vpn0 va).toNat = va.toNat / 2 ^ 12 % 2 ^ 9 := by
  refine Nat.eq_of_testBit_eq fun i => ?_
  rw [testBit_div_mod]
  exact wbit_vpn0 va i

theorem wbit_masked (va : UInt64) {i : ℕ} (h : i < 39) : wbit (va &&& VA_MASK) i = wbit va i := by
  rw [wbit_and, wbit_VA_MASK, decide_eq_true h, Bool.and_true]

@[simp] theorem vpn2_masked (va : UInt64) : vpn2 (va &&& VA_MASK) = vpn2 va := by
  apply eq_of_wbit
  intro i hi
  rw [wbit_vpn2, wbit_vpn2]
  by_cases h : i < 9
  · rw [wbit_masked va (by omega)]
  · simp [h]

@[simp] theorem vpn1_masked (va : UInt64) : vpn1 (va &&& VA_MASK) = vpn1 va := by
  apply eq_of_wbit
  intro i hi
  rw [wbit_vpn1, wbit_vpn1]
  by_cases h : i < 9
  · rw [wbit_masked va (by omega)]
  · simp [h]

@[simp] theorem vpn0_masked (va : UInt64) : vpn0 (va &&& VA_MASK) = vpn0 va := by
  apply eq_of_wbit
  intro i hi
  rw [wbit_vpn0, wbit_vpn0]
  by_cases h : i < 9
  · rw [wbit_masked va (by omega)]
  · simp [h]

/-! ### Pages -/

theorem toNat_ROUNDDOWN (a : UInt64) : (ROUNDDOWN a).toNat = a.toNat / 4096 * 4096 := by
  have hmask : PAGE_SIZE - 1 = UInt64.ofNat (2 ^ 12 - 1) := by decide
  rw [ROUNDDOWN, hmask, toNat_and_not_low (by decide)]
  rfl

theorem ROUNDDOWN_eq (a : UInt64) : ROUNDDOWN a = (a >>> 12) <<< 12 := by
  have hlt := a.toNat_lt
  apply UInt64.toNat_inj.mp
  simp only [toNat_ROUNDDOWN, UInt64.toNat_shiftLeft, UInt64.toNat_shiftRight, UInt64.reduceToNat, Nat.shiftLeft_eq,
    Nat.shiftRight_eq_div_pow, show 2 ^ (12 % 64) = 4096 from rfl]
  omega

/-- Rounding up. -/
theorem toNat_ROUND {a : UInt64} (h : a.toNat + 4095 < 2 ^ 64) : (ROUND a).toNat = (a.toNat + 4095) / 4096 * 4096 := by
  have hadd : (a + PAGE_SIZE - 1).toNat = a.toNat + 4095 := by
    simp only [PAGE_SIZE, UInt64.toNat_sub, UInt64.toNat_add, UInt64.reduceToNat]
    omega
  have : ROUND a = ROUNDDOWN (a + PAGE_SIZE - 1) := rfl
  rw [this, toNat_ROUNDDOWN, hadd]

/-! ### Frames -/

/-- Frame `n` of the kernel's pool; beyond its end, of the user pool. -/
def kernelFrame (n : ℕ) : UInt64 := INIT_KERNEL_STACK + PAGE_SIZE * UInt64.ofNat n

/-- Frame `n` of the user pool. -/
def userFrame (n : ℕ) : UInt64 := USER_MEM_BASE + PAGE_SIZE * UInt64.ofNat n

/-- The number of frames. -/
def FRAME_NUM : ℕ := FREE_KERNEL_PAGE_NUM + FREE_USER_PAGE_NUM

theorem toNat_kernelFrame {n : ℕ} (h : n < FRAME_NUM) : (kernelFrame n).toNat = 0xffffffc052000000 + 4096 * n := by
  have h' : n < 45056 := h
  simp only [kernelFrame, INIT_KERNEL_STACK, PAGE_SIZE, UInt64.toNat_add,
    UInt64.toNat_mul, UInt64.toNat_ofNat', UInt64.reduceToNat]
  omega

theorem userFrame_eq {n : ℕ} (h : n < FREE_USER_PAGE_NUM) : userFrame n = kernelFrame (FREE_KERNEL_PAGE_NUM + n) := by
  have h' : n < 36864 := h
  apply UInt64.toNat_inj.mp
  rw [toNat_kernelFrame (Nat.add_lt_add_left h _)]
  simp only [userFrame, USER_MEM_BASE, FREE_KERNEL_PAGE_NUM,
    PAGE_SIZE, UInt64.toNat_add, UInt64.toNat_mul, UInt64.toNat_ofNat',
    UInt64.reduceToNat]
  omega

theorem kernelFrame_inj {n m : ℕ} (hn : n < FRAME_NUM)
    (hm : m < FRAME_NUM) (h : kernelFrame n = kernelFrame m) : n = m := by
  have := congrArg UInt64.toNat h
  rw [toNat_kernelFrame hn, toNat_kernelFrame hm] at this
  omega

theorem kernelFrame_ne_PGDIR_VA {n : ℕ} (h : n < FRAME_NUM) : kernelFrame n ≠ PGDIR_VA := by
  intro he
  have := congrArg UInt64.toNat he
  rw [toNat_kernelFrame h] at this
  simp only [PGDIR_VA, UInt64.reduceToNat] at this
  omega

/-- A frame of one of the pools. -/
def IsFrame (kva : UInt64) : Prop := ∃ n < FRAME_NUM, kva = kernelFrame n

theorem isFrame_userFrame {n : ℕ} (h : n < FREE_USER_PAGE_NUM) : IsFrame (userFrame n) :=
  ⟨FREE_KERNEL_PAGE_NUM + n, Nat.add_lt_add_left h _, userFrame_eq h⟩

theorem isFrame_kernelFrame {n : ℕ} (h : n < FREE_KERNEL_PAGE_NUM) : IsFrame (kernelFrame n) :=
  ⟨n, Nat.lt_of_lt_of_le h (Nat.le_add_right _ _), rfl⟩

theorem IsFrame.ne_PGDIR_VA {kva : UInt64} (h : IsFrame kva) : kva ≠ PGDIR_VA := by
  obtain ⟨n, hn, rfl⟩ := h
  exact kernelFrame_ne_PGDIR_VA hn

theorem pfn_kernelFrame {n : ℕ} (h : n < FRAME_NUM) : kva2pa (kernelFrame n) >>> 12 = UInt64.ofNat (0x52000 + n) := by
  have h' : n < 45056 := h
  apply UInt64.toNat_inj.mp
  simp only [UInt64.toNat_shiftRight, kva2pa, UInt64.toNat_sub,
    toNat_kernelFrame h, UInt64.toNat_ofNat', UInt64.reduceToNat,
    Nat.shiftRight_eq_div_pow, show 2 ^ (12 % 64) = 4096 from rfl]
  omega

/-- The entry written for a frame leads to it. -/
@[simp] theorem target_mapEntry (e : UInt64) {kva bits : UInt64} (h : IsFrame kva) (hb : bits.toNat < 2 ^ 10) :
    target (mapEntry e kva bits) = kva := by
  obtain ⟨n, hn, rfl⟩ := h
  have h' : n < 45056 := hn
  have hp : (UInt64.ofNat (0x52000 + n)).toNat = 0x52000 + n := by
    rw [UInt64.toNat_ofNat', Nat.mod_eq_of_lt]
    omega
  rw [target, get_pa, mapEntry, pfn_kernelFrame hn, get_pfn_set_pfn _ (by rw [hp]; omega) hb]
  apply UInt64.toNat_inj.mp
  simp only [pa2kva, UInt64.toNat_add, UInt64.toNat_shiftLeft, hp,
    UInt64.reduceToNat, toNat_kernelFrame hn, Nat.shiftLeft_eq,
    show 2 ^ (12 % 64) = 4096 from rfl]
  omega

end OsLab.Mm
