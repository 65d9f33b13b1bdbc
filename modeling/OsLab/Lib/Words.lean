import Mathlib.Algebra.GroupWithZero.Nat
import Mathlib.Data.Nat.Bitwise
import Mathlib.Tactic.Common

/-!
# Machine words, bit by bit

A word of 64 bits is known by its bits `wbit x i`. The lemmas compute the bits of the bitwise operations of
C, so that an equation between words with masks and shifts is proved for every bit; `toNat_lt_iff_wbit`
turns a bound on a word into a fact about bits.
-/

namespace OsLab.Lib

variable {x y : UInt64} {i k : ℕ}

/-- Bit `i` of a word. -/
def wbit (x : UInt64) (i : ℕ) : Bool := x.toBitVec.getLsbD i

theorem eq_of_wbit (h : ∀ i < 64, wbit x i = wbit y i) : x = y := UInt64.toBitVec_inj.mp (BitVec.eq_of_getLsbD_eq h)

theorem wbit_eq_testBit (x : UInt64) (i : ℕ) : wbit x i = x.toNat.testBit i := rfl

theorem wbit_of_le (x : UInt64) (h : 64 ≤ i) : wbit x i = false := BitVec.getLsbD_of_ge _ _ h

@[simp] theorem wbit_and (x y : UInt64) (i : ℕ) : wbit (x &&& y) i = (wbit x i && wbit y i) := by
  simp [wbit]

@[simp] theorem wbit_or (x y : UInt64) (i : ℕ) : wbit (x ||| y) i = (wbit x i || wbit y i) := by
  simp [wbit]

@[simp] theorem wbit_xor (x y : UInt64) (i : ℕ) : wbit (x ^^^ y) i = (wbit x i ^^ wbit y i) := by
  simp [wbit]

@[simp] theorem wbit_not (x : UInt64) (i : ℕ) : wbit (~~~x) i = (decide (i < 64) && !wbit x i) := by
  simp [wbit]

theorem wbit_shiftRight (x : UInt64) (s : UInt64) (i : ℕ) (h : s.toNat < 64) :
    wbit (x >>> s) i = wbit x (s.toNat + i) := by
  simp [wbit, UInt64.toBitVec_shiftRight, Nat.mod_eq_of_lt h]

theorem wbit_shiftLeft (x : UInt64) (s : UInt64) (i : ℕ) (h : s.toNat < 64) :
    wbit (x <<< s) i = (decide (i < 64) && !decide (i < s.toNat) && wbit x (i - s.toNat)) := by
  simp [wbit, UInt64.toBitVec_shiftLeft, Nat.mod_eq_of_lt h]

/-- The bits of a word below `2 ^ k`. -/
theorem wbit_of_toNat_lt (h : x.toNat < 2 ^ k) (hi : k ≤ i) : wbit x i = false :=
  Nat.testBit_lt_two_pow (h.trans_le (Nat.pow_le_pow_right (by decide) hi))

theorem toNat_lt_of_wbit (h : ∀ i, k ≤ i → wbit x i = false) : x.toNat < 2 ^ k := Nat.lt_pow_two_of_testBit _ h

/-- A mask of the low bits. -/
theorem wbit_ofNat_two_pow_sub_one (hk : k ≤ 64) (i : ℕ) : wbit (UInt64.ofNat (2 ^ k - 1)) i = decide (i < k) := by
  rw [wbit_eq_testBit, UInt64.toNat_ofNat', Nat.mod_eq_of_lt, Nat.testBit_two_pow_sub_one]
  exact Nat.lt_of_lt_of_le (Nat.sub_lt (Nat.two_pow_pos k) Nat.one_pos) (Nat.pow_le_pow_right (by decide) hk)

/-- The low bits are cleared. -/
theorem toNat_and_not_low (hk : k ≤ 64) (x : UInt64) :
    (x &&& ~~~UInt64.ofNat (2 ^ k - 1)).toNat = x.toNat / 2 ^ k * 2 ^ k := by
  apply Nat.eq_of_testBit_eq
  intro i
  rw [← wbit_eq_testBit, wbit_and, wbit_not, wbit_ofNat_two_pow_sub_one hk,
    Nat.testBit_mul_two_pow, Nat.testBit_div_two_pow,
    wbit_eq_testBit]
  by_cases hi : k ≤ i
  · have hlow : ¬ i < k := Nat.not_lt.mpr hi
    by_cases h64 : i < 64
    · simp [hi, hlow, h64]
    · rw [← wbit_eq_testBit, ← wbit_eq_testBit, Nat.sub_add_cancel hi, wbit_of_le x (Nat.le_of_not_lt h64)]
      simp
  · have hlow : i < k := Nat.lt_of_not_le hi
    simp [hi, hlow]

end OsLab.Lib
