import OsLab.Fs.Blocks

/-!
# Files

What a file is for: a file maps some of its blocks to contents, of which only the sector that a
`bread` of the block delivers counts. `File.write` stores bytes one after the other; a byte at
an offset of 512 or more in its block is lost and reads as zero (`byte_write`).

`Vol.file` is the file that the pointers of an inode make up.
-/

namespace OsLab

open Lib Bytes

/-- The contents of the blocks of a file, by block number. -/
abbrev File := ℕ → Option Sector

namespace File

/-- The block of zeros that a new block starts as. -/
def zero : Sector := fun _ => 0

/-- Map block `n`, if it is not. -/
def grow (F : File) (n : ℕ) : File := Function.update F n (some ((F n).getD zero))

/-- Change the byte at offset `o` of a block, if the sector holds it. -/
def setByte (s : Sector) (o : ℕ) (c : UInt8) : Sector := fun i => if (i : ℕ) = o then c else s i

/-- Store a byte at position `p`. -/
def put (F : File) (p : ℕ) (c : UInt8) : File :=
  Function.update F (p / 4096) (some (setByte ((F (p / 4096)).getD zero) (p % 4096) c))

/-- Store bytes from position `p` on. -/
def write (F : File) (p : ℕ) : List UInt8 → File
  | [] => F
  | c :: cs => write (F.put p c) (p + 1) cs

/-- The byte at position `p`, if its block is mapped. -/
def byte (F : File) (p : ℕ) : Option UInt8 := (F (p / 4096)).map fun s => ofSector s (p % 4096)

variable {F : File} {p q : ℕ}

theorem ofSector_setByte (s : Sector) (o i : ℕ) (c : UInt8) :
    ofSector (setByte s o c) i = if i = o ∧ i < SECTOR_SIZE then c else ofSector s i := by
  by_cases hi : i < SECTOR_SIZE
  · rw [ofSector, put_of_lt _ _ hi, ofSector, put_of_lt _ _ hi, setByte]
    simp [hi]
  · rw [ofSector_of_le _ (by omega), ofSector_of_le _ (by omega), if_neg (by omega)]

/-- The byte that is stored. -/
theorem byte_put_self (F : File) (p : ℕ) (c : UInt8) :
    (F.put p c).byte p = some (if p % 4096 < SECTOR_SIZE then c else 0) := by
  rw [byte, put, Function.update_self, Option.map_some, ofSector_setByte]
  by_cases h : p % 4096 < SECTOR_SIZE
  · rw [if_pos ⟨rfl, h⟩, if_pos h]
  · rw [if_neg fun e => h e.2, if_neg h, ofSector_of_le _ (by omega)]

/-- The other bytes. -/
theorem byte_put_of_ne {x : UInt8} (hq : F.byte q = some x) (hne : q ≠ p) (c : UInt8) :
    (F.put p c).byte q = some x := by
  rw [byte] at hq ⊢
  by_cases hb : q / 4096 = p / 4096
  · rw [put, hb, Function.update_self, Option.map_some, ofSector_setByte, if_neg (by omega)]
    rw [hb] at hq
    obtain ⟨s, hs, rfl⟩ := Option.map_eq_some_iff.mp hq
    rw [hs, Option.getD_some]
  · rw [put, Function.update_of_ne hb]
    exact hq

/-- Mapping blocks keeps those that the file has. -/
theorem byte_grow {n : ℕ} {x : UInt8} (h : F.byte q = some x) : (F.grow n).byte q = some x := by
  obtain ⟨s, hs, rfl⟩ := Option.map_eq_some_iff.mp h
  rw [byte, grow, Function.update_apply]
  split
  · next hn => rw [← hn, hs]; rfl
  · rw [hs]; rfl

/-- What is outside the bytes that are stored stays. -/
theorem byte_write_of_ne {x : UInt8} (cs : List UInt8) (hq : F.byte q = some x) (hne : ¬ (p ≤ q ∧ q < p + cs.length)) :
    (F.write p cs).byte q = some x := by
  induction cs generalizing F p with
  | nil => exact hq
  | cons c cs ih =>
    simp only [List.length_cons] at hne
    exact ih (byte_put_of_ne hq (by omega) c) (by omega)

/-- What is stored, as far as the sectors hold it. -/
theorem byte_write (cs : List UInt8) {i : ℕ} (hi : i < cs.length) :
    (F.write p cs).byte (p + i) = some (if (p + i) % 4096 < SECTOR_SIZE then cs[i] else 0) := by
  induction cs generalizing F p i with
  | nil => simp at hi
  | cons c cs ih =>
    cases i with
    | zero => exact byte_write_of_ne cs (byte_put_self F p c) (by omega)
    | succ i =>
      have := ih (F := F.put p c) (p := p + 1) (i := i) (by simpa using hi)
      rw [show p + 1 + i = p + (i + 1) by omega] at this
      exact this

end File

/-! ### The paths of blocks -/

theorem length_pathOf (n : ℕ) : (pathOf n).2.length = height (pathOf n).1 := by
  unfold pathOf
  split
  · next h =>
    unfold DIRECT_BLOCK_NUM at h
    simp only [List.length_nil, height]
    omega
  · split
    · rfl
    · split <;> rfl

/-- The words of a path are words of a block. -/
theorem lt_of_mem_pathOf {n : ℕ} (hn : n < TREE_BLOCKS) : ∀ w ∈ (pathOf n).2, w < 1024 := by
  obtain ⟨c0, c1, c2, c3⟩ := levels
  rw [TREE_BLOCKS, c0, c1, c2, c3] at hn
  unfold pathOf
  split
  · simp
  · rw [c0, c1, c2]
    split
    · simp only [List.mem_singleton, forall_eq]
      omega
    · split
      · simp only [List.mem_cons, List.not_mem_nil, or_false, forall_eq_or_imp, forall_eq]
        omega
      · simp only [List.mem_cons, List.not_mem_nil, or_false, forall_eq_or_imp, forall_eq]
        omega

theorem length_eq_depth (f n : ℕ) : (pathOf n).2.length = Vol.depth (f, (pathOf n).1) := length_pathOf n

theorem firstId_9www (w₁ w₂ w₃ : ℕ) : firstId 9 [w₁, w₂, w₃] = 1049607 + 1048576 * w₃ + 1024 * w₂ + w₁ := by
  simp [firstId, base, DIRECT_BLOCK_NUM, NBLOCK_LV1, NBLOCK_LV2, Nat.ofDigits_cons]
  omega

theorem firstId_pathOf (n : ℕ) : firstId (pathOf n).1 (pathOf n).2 = n := by
  obtain ⟨c0, c1, c2, c3⟩ := levels
  unfold pathOf
  split
  · next h =>
    rw [c0] at h
    exact firstId_direct (Fin.lt_def.mpr h)
  · next h =>
    rw [c0] at h
    rw [c0, c1, c2]
    split
    · rw [firstId_7w]
      omega
    · split
      · rw [firstId_8ww]
        omega
      · rw [firstId_9www]
        omega

/-- Going on below a node, one does not get to a smaller block number. -/
theorem firstId_le_of_suffix {k : Fin 10} {ws p : List ℕ} (h : ws <:+ p) (hl : p.length ≤ height k) :
    firstId k ws ≤ firstId k p := by
  obtain ⟨t, rfl⟩ := h
  induction t with
  | nil => exact le_rfl
  | cons w t ih =>
    have hl' : (t ++ ws).length < height k := hl
    refine (ih hl'.le).trans ?_
    have hexp : (k : ℕ) - 6 - (t ++ ws).length = (k - 6 - (w :: t ++ ws).length) + 1 := by
      have : height k = k - 6 := rfl
      simp only [List.cons_append, List.length_cons]
      omega
    rw [firstId, firstId, hexp, pow_succ, mul_assoc, List.cons_append, Nat.ofDigits_cons]
    exact Nat.add_le_add_left (Nat.mul_le_mul_left _ (Nat.le_add_left _ _)) _

/-- The paths to the bottom are the ways to block numbers. -/
theorem pathOf_firstId {k : Fin 10} {ws : List ℕ} (hl : ws.length = height k) (hw : ∀ w ∈ ws, w < 1024) :
    firstId k ws < TREE_BLOCKS ∧ pathOf (firstId k ws) = (k, ws) := by
  obtain ⟨c0, c1, c2, c3⟩ := levels
  have hall : ∀ k : Fin 10, k < 7 ∨ k = 7 ∨ k = 8 ∨ k = 9 := by decide
  rw [TREE_BLOCKS, c0, c1, c2, c3]
  obtain hk | rfl | rfl | rfl := hall k
  · have hk' : (k : ℕ) < 7 := hk
    obtain rfl : ws = [] := List.eq_nil_of_length_eq_zero (by rw [hl, height]; omega)
    rw [firstId_direct hk, pathOf, dif_pos (by omega)]
    exact ⟨by omega, rfl⟩
  · obtain ⟨w, rfl⟩ := List.length_eq_one_iff.mp hl
    have := hw w (by simp)
    rw [firstId_7w, pathOf, dif_neg (by omega), if_pos (by omega), c0, Nat.add_sub_cancel_left]
    exact ⟨by omega, rfl⟩
  · obtain ⟨w₁, w₂, rfl⟩ := List.length_eq_two.mp hl
    have h1 := hw w₁ (by simp)
    have h2 := hw w₂ (by simp)
    rw [firstId_8ww, pathOf, dif_neg (by omega), if_neg (by omega), if_pos (by omega), c0, c1]
    dsimp only
    rw [show (1031 + 1024 * w₂ + w₁ - 7 - 1024) % 1024 =
      w₁ by omega, show (1031 + 1024 * w₂ + w₁ - 7 - 1024) / 1024 = w₂ by omega]
    exact ⟨by omega, rfl⟩
  · obtain ⟨w₁, w₂, w₃, rfl⟩ := List.length_eq_three.mp hl
    have h1 := hw w₁ (by simp)
    have h2 := hw w₂ (by simp)
    have h3 := hw w₃ (by simp)
    rw [firstId_9www, pathOf, dif_neg (by omega), if_neg (by omega), if_neg (by omega), c0, c1, c2]
    dsimp only
    rw [show 1049607 + 1048576 * w₃ + 1024 * w₂ + w₁ - 7 - 1024 - 1048576 = 1048576 * w₃ + 1024 * w₂ + w₁ by omega,
      show (1048576 * w₃ + 1024 * w₂ + w₁) % 1024 = w₁ by omega,
      show (1048576 * w₃ + 1024 * w₂ + w₁) / 1048576 = w₃ by omega,
      show (1048576 * w₃ + 1024 * w₂ + w₁ - w₃ * 1048576) / 1024 = w₂ by omega]
    exact ⟨by omega, rfl⟩

theorem pathOf_inj {n m : ℕ} (h : pathOf n = pathOf m) : n = m := by rw [← firstId_pathOf n, h, firstId_pathOf]

namespace Vol

variable {V : Vol} {f n : ℕ}

/-- The pointer to block `n` of file `f`. -/
def leaf (V : Vol) (f n : ℕ) : Option UInt32 := V.follow (f, (pathOf n).1) (pathOf n).2

/-- The contents of inode `f`. -/
def file (V : Vol) (f : ℕ) : File := fun n => (V.leaf f n).map fun p => V.data (blockOf p)

theorem leaf_inj (h : V.Space) {p : UInt32} {m : ℕ} (hn : V.leaf f n = some p) (hm : V.leaf f m = some p) : n = m := by
  obtain ⟨hk, hws⟩ := h.unshared _ _ _ _ _ (length_eq_depth f n).le (length_eq_depth f m).le hn hm
  exact pathOf_inj (Prod.ext (congrArg Prod.snd hk) hws)

/-- The block of a leaf. -/
theorem Space.leaf (h : V.Space) {p : UInt32} (hn : V.leaf f n = some p) : ∃ b < NUM_BLOCKS, p = sec b :=
  h.range _ _ _ (length_eq_depth f n).le hn

/-- Overwriting the block of a leaf changes that block of the file only. -/
theorem Space.file_setBlock (h : V.Space) {b : ℕ} (hb : b < NUM_BLOCKS) (hn : V.leaf f n = some (sec b)) (s : Sector) :
    (V.setBlock b s).file f = Function.update (V.file f) n (some s) := by
  have hleaf := h.bottom (length_eq_depth f n) hn
  funext m
  have hfollow : (V.setBlock b s).leaf f m = V.leaf f m := h.follow_setBlock s hb hleaf (length_eq_depth f m).le
  rw [file, hfollow]
  by_cases hm : m = n
  · subst hm
    rw [hn, Function.update_self, Option.map_some, blockOf_sec hb]
    exact congrArg some (Function.update_self ..)
  · rw [Function.update_of_ne hm, file]
    cases hp : V.leaf f m with
    | none => rfl
    | some p =>
      obtain ⟨c, hc, rfl⟩ := h.leaf hp
      have hcb : c ≠ b := by
        rintro rfl
        exact hm (leaf_inj h hp hn)
      rw [Option.map_some, Option.map_some, blockOf_sec hc]
      exact congrArg some (Function.update_of_ne hcb _ _)

end Vol

end OsLab
