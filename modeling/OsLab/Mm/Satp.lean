import OsLab.Mm.Entries

/-!
# The address-space register

`satp` has three fields: the mode in its four highest bits, below it sixteen bits for the address space and
44 bits for the page number of the page directory. `switch_to` in `entry.S` and `set_satp` in `pgtable.h` put
them together by shifts and `or`, with the pid for the address space. A pid is a counter of 31 bits, and
neither cuts it to sixteen.
-/

namespace OsLab.Mm

open Lib

/-- `SATP_MODE_SV39`. -/
def SATP_MODE_SV39 : UInt32 := 8

/-- `set_satp(mode, asid, ppn)`: the word that is written. -/
def set_satp (mode asid : UInt32) (ppn : UInt64) : UInt64 := ((mode.toUInt64 <<< 60) ||| (asid.toUInt64 <<< 44)) ||| ppn

/-- The word that `load_task_img` writes for a process. -/
def load_task_satp (pid : Int32) (pgdir : UInt64) : UInt64 := set_satp SATP_MODE_SV39 pid.toUInt32 (kva2pa pgdir >>> 12)

/-- The word that `switch_to` writes for the task it switches to. -/
def switch_to_satp (pid : Int32) (pgdir : UInt64) : UInt64 :=
  let t1 := (8 : UInt64) <<< 60
  -- `lw` extends the sign
  let t2 : UInt64 := pid.toInt64.toUInt64 <<< 44
  let t3 : UInt64 := (pgdir - 0xffffffc000000000) >>> 12
  t3 ||| (t1 ||| t2)

/-- The mode of `satp`. -/
def satpMode (satp : UInt64) : UInt64 := satp >>> 60

/-- The page number of `satp`. -/
def satpPpn (satp : UInt64) : UInt64 := satp &&& pfn_mask

/-- A word selects Sv39 and the page directory. -/
def Selects (satp pgdir : UInt64) : Prop := satpMode satp = 8 ∧ satpPpn satp = kva2pa pgdir >>> 12

/-- `process_id` after `n` processes have been started: each does `++process_id`. -/
def pidAfter : ℕ → Int32
  | 0 => 0
  | n + 1 => pidAfter n + 1

variable {n k i : ℕ}

theorem pidAfter_eq (n : ℕ) : pidAfter n = Int32.ofNat n := by
  induction n with
  | zero => rfl
  | succ n ih =>
    rw [pidAfter, ih, Int32.ofNat_add]
    rfl

/-! ### The fields -/

/-- A word from its three fields, where the middle one may be too wide. -/
def satpWord (asid ppn : UInt64) : UInt64 := ((8 : UInt64) <<< 60 ||| (asid <<< 44)) ||| ppn

theorem load_task_satp_eq (hn : n < 2 ^ 31) (pgdir : UInt64) :
    load_task_satp (Int32.ofNat n) pgdir = satpWord (UInt64.ofNat n) (kva2pa pgdir >>> 12) := by
  have hasid : (Int32.ofNat n).toUInt32.toUInt64 = UInt64.ofNat n := by
    rw [Int32.toUInt32_ofNat', ← UInt64.toNat_inj, UInt32.toNat_toUInt64, UInt32.toNat_ofNat', UInt64.toNat_ofNat',
      Nat.mod_eq_of_lt (by omega), Nat.mod_eq_of_lt (by omega)]
  rw [load_task_satp, set_satp, hasid]
  rfl

theorem switch_to_satp_eq (hn : n < 2 ^ 31) (pgdir : UInt64) :
    switch_to_satp (Int32.ofNat n) pgdir = satpWord (UInt64.ofNat n) (kva2pa pgdir >>> 12) := by
  have hpid : (Int32.ofNat n).toInt64 = Int64.ofNat n := by
    rw [← Int64.toInt_inj, Int32.toInt_toInt64, Int32.toInt_ofNat_of_lt hn, Int64.toInt_ofNat_of_lt (by omega)]
  simp only [switch_to_satp, hpid, Int64.toUInt64_ofNat', satpWord]
  exact UInt64.or_comm _ _

theorem wbit_ofNat (hn : n < 2 ^ 64) (i : ℕ) : wbit (UInt64.ofNat n) i = n.testBit i := by
  rw [wbit_eq_testBit, UInt64.toNat_ofNat', Nat.mod_eq_of_lt hn]

theorem wbit_satpWord (asid ppn : UInt64) (hi : i < 64) :
    wbit (satpWord asid ppn) i = (decide (i = 63) || (decide (44 ≤ i) && wbit asid (i - 44)) || wbit ppn i) := by
  have h8 : wbit ((8 : UInt64) <<< 60) i = decide (i = 63) := by
    rw [wbit_eq_testBit, show ((8 : UInt64) <<< 60).toNat = 2 ^ 63 from rfl,
      Nat.testBit_two_pow, decide_eq_decide, eq_comm]
  rw [satpWord, wbit_or, wbit_or, h8, wbit_shiftLeft _ _ _ (by decide), decide_eq_true hi, Bool.true_and, ← decide_not]
  simp only [not_lt, UInt64.reduceToNat]

/-- The page number of a frame fits its field. -/
theorem ppn_lt (hk : k < FRAME_NUM) : (kva2pa (kernelFrame k) >>> 12).toNat < 2 ^ 44 := by
  have h' : k < 45056 := hk
  rw [pfn_kernelFrame hk, UInt64.toNat_ofNat', Nat.mod_eq_of_lt (by omega)]
  omega

theorem satpPpn_satpWord (asid : UInt64) {ppn : UInt64} (hp : ppn.toNat < 2 ^ 44) :
    satpPpn (satpWord asid ppn) = ppn := by
  refine eq_of_wbit fun i hi => ?_
  rw [satpPpn, wbit_and, wbit_pfn_mask, wbit_satpWord _ _ hi]
  by_cases h : i < 44
  · have h1 : i ≠ 63 := by omega
    have h2 : ¬ 44 ≤ i := by omega
    simp [h, h1, h2]
  · rw [wbit_of_toNat_lt hp (by omega)]
    simp [h]

/-- The mode is Sv39 exactly if the address space has none of the bits that fall on the three low bits of the mode. -/
theorem satpMode_satpWord (asid : UInt64) {ppn : UInt64} (hp : ppn.toNat < 2 ^ 44) :
    satpMode (satpWord asid ppn) = 8 ↔ wbit asid 16 = false ∧ wbit asid 17 = false ∧ wbit asid 18 = false := by
  have hbit : ∀ i < 4, wbit (satpMode (satpWord asid ppn)) i = (decide (i = 3) || wbit asid (16 + i)) := by
    intro i hi
    have h1 : (60 + i = 63) = (i = 3) := by
      rw [eq_iff_iff]
      omega
    have h2 : 44 ≤ 60 + i := by omega
    rw [satpMode, wbit_shiftRight _ _ _ (by decide), show (60 : UInt64).toNat = 60 from rfl,
      wbit_satpWord _ _ (by omega), wbit_of_toNat_lt hp (by omega),
      decide_eq_true h2, show 60 + i - 44 = 16 + i by omega]
    simp [h1]
  have h8 : ∀ i, wbit 8 i = decide (i = 3) := fun i => by
    rw [wbit_eq_testBit, show (8 : UInt64).toNat = 2 ^ 3 from rfl, Nat.testBit_two_pow, decide_eq_decide, eq_comm]
  constructor
  · intro he
    refine ⟨?_, ?_, ?_⟩
    · simpa [h8] using (hbit 0 (by decide)).symm.trans (congrArg (wbit · 0) he)
    · simpa [h8] using (hbit 1 (by decide)).symm.trans (congrArg (wbit · 1) he)
    · simpa [h8] using (hbit 2 (by decide)).symm.trans (congrArg (wbit · 2) he)
  · rintro ⟨h0, h1, h2⟩
    refine eq_of_wbit fun i hi => ?_
    by_cases h4 : i < 4
    · rw [hbit i h4, h8]
      obtain rfl | rfl | rfl | rfl : i = 0 ∨ i = 1 ∨ i = 2 ∨ i = 3 := by omega
      all_goals simp [h0, h1, h2]
    · rw [satpMode, wbit_shiftRight _ _ _ (by decide), show (60 : UInt64).toNat = 60 from rfl,
        wbit_of_le _ (by omega), h8, decide_eq_false (by omega)]

/-- The bits of a pid that fall on the mode. -/
theorem mode_bits (n : ℕ) : (n.testBit 16 = false ∧ n.testBit 17 = false ∧ n.testBit 18 = false) ↔
    n / 2 ^ 16 % 8 = 0 := by
  simp only [Nat.testBit_eq_decide_div_mod_eq, decide_eq_false_iff_not]
  omega

/-- Both encoders select Sv39 and the page directory of the process exactly if the pid has none of the bits 16, 17
and 18. -/
theorem satp_selects_iff (hn : n < 2 ^ 31) (hk : k < FREE_KERNEL_PAGE_NUM) :
    (Selects (switch_to_satp (pidAfter n) (kernelFrame k)) (kernelFrame k) ∧
      Selects (load_task_satp (pidAfter n) (kernelFrame k)) (kernelFrame k)) ↔ n / 2 ^ 16 % 8 = 0 := by
  have hp := ppn_lt (k := k) (Nat.lt_of_lt_of_le hk (Nat.le_add_right _ _))
  rw [pidAfter_eq, switch_to_satp_eq hn, load_task_satp_eq hn,
    and_self_iff, Selects, satpPpn_satpWord _ hp, satpMode_satpWord _ hp,
    and_iff_left rfl, wbit_ofNat (by omega), wbit_ofNat (by omega), wbit_ofNat (by omega)]
  exact mode_bits n

/-- The first process. -/
theorem satp_selects_first : Selects (switch_to_satp (pidAfter 1) (kernelFrame 4)) (kernelFrame 4) ∧
    Selects (load_task_satp (pidAfter 1) (kernelFrame 4)) (kernelFrame 4) :=
  (satp_selects_iff (by decide) (by decide)).mpr (by decide)

/-- The 65536th process would run in mode 9, which is Sv48. -/
theorem satp_selects_fails : satpMode (switch_to_satp (pidAfter 65536) (kernelFrame 4)) = 9 ∧
    satpMode (load_task_satp (pidAfter 65536) (kernelFrame 4)) = 9 ∧
    ¬ Selects (switch_to_satp (pidAfter 65536) (kernelFrame 4)) (kernelFrame 4) ∧
    ¬ Selects (load_task_satp (pidAfter 65536) (kernelFrame 4)) (kernelFrame 4) := by
  have hs : satpMode (switch_to_satp (Int32.ofNat 65536) (kernelFrame 4)) = 9 := by decide +kernel
  have hl : satpMode (load_task_satp (Int32.ofNat 65536) (kernelFrame 4)) = 9 := by decide +kernel
  rw [pidAfter_eq]
  refine ⟨hs, hl, fun h => ?_, fun h => ?_⟩
  · exact absurd (hs.symm.trans h.1) (by decide)
  · exact absurd (hl.symm.trans h.1) (by decide)

end OsLab.Mm
