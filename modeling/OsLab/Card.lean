import Mathlib.Algebra.GroupWithZero.Nat
import Mathlib.Logic.Function.Basic
import Mathlib.Data.Fin.Basic

/-!
# The SD card and memory buffers

The card is a map from sector numbers to sectors of 512 bytes. The BIOS calls
`bios_sd_read` and `bios_sd_write` are outside the kernel; they read and write exactly the
sectors they name. A buffer is the memory from its base address on; copying a sector into it
or out of it is `memcpy` of `SECTOR_SIZE` bytes.
-/

namespace OsLab

/-- `SECTOR_SIZE`. -/
def SECTOR_SIZE : ℕ := 512

/-- The bytes of a sector. -/
abbrev Sector := Fin SECTOR_SIZE → UInt8

/-- The SD card. -/
abbrev Card := ℕ → Sector

/-- Memory, from the base address of a buffer on. -/
abbrev Bytes := ℕ → UInt8

namespace Bytes

/-- The 512 bytes at offset `off`. -/
def sector (m : Bytes) (off : ℕ) : Sector := fun i => m (off + i)

/-- `memcpy(m + off, s, SECTOR_SIZE)`. -/
def put (m : Bytes) (off : ℕ) (s : Sector) : Bytes := fun i =>
  if h : off ≤ i ∧ i < off + SECTOR_SIZE then s ⟨i - off, by omega⟩ else m i

theorem put_of_lt (m : Bytes) (s : Sector) {i : ℕ} (h : i < SECTOR_SIZE) : m.put 0 s i = s ⟨i, h⟩ := by
  simp [put, h]

theorem put_of_le (m : Bytes) (s : Sector) {i : ℕ} (h : SECTOR_SIZE ≤ i) : m.put 0 s i = m i := by
  simp [put, Nat.not_lt.mpr h]

@[simp] theorem put_put (m : Bytes) (off : ℕ) (s t : Sector) : (m.put off s).put off t = m.put off t := by
  funext i
  by_cases h : off ≤ i ∧ i < off + SECTOR_SIZE <;> simp [put, h]

@[simp] theorem sector_put (m : Bytes) (off : ℕ) (s : Sector) : (m.put off s).sector off = s := by
  funext i
  simp [put, sector]

end Bytes

end OsLab
