import OsLab.Card
import OsLab.Lib.Bytes
import Mathlib.Data.List.OfFn
import Mathlib.Data.List.TakeWhile
import Mathlib.Tactic.IntervalCases

/-!
# The file system's layout

The constants of `include/os/fs.h` and the structures the file system keeps in sectors:
inodes of 64 bytes, directory entries of 32 bytes, both little-endian and without padding.
`getInode` and `getDentry` read a structure at an offset of a buffer, `putInode` and
`putDentry` assign it.
-/

namespace OsLab

open Lib

/-! ### Constants -/

/-- `NUM_FDESCS`. -/
def NUM_FDESCS : ℕ := 16
/-- `BLOCK_SIZE`. -/
def BLOCK_SIZE : ℕ := 4096
/-- `BLOCK_SIZE / SECTOR_SIZE`. -/
def BLOCK_SECTORS : ℕ := BLOCK_SIZE / SECTOR_SIZE
/-- `FS_NUM_SECTORS`. -/
def FS_NUM_SECTORS : ℕ := 2 ^ 20
/-- `FS_START_SECTOR`. -/
def FS_START_SECTOR : ℕ := 0x100
/-- `BLOCK_MAP_SIZE`, in sectors. -/
def BLOCK_MAP_SIZE : ℕ := 32
/-- `INODE_MAP_SIZE`, in sectors. -/
def INODE_MAP_SIZE : ℕ := 1
/-- `INODE_SIZE`, in sectors. -/
def INODE_SIZE : ℕ := 512
/-- `BLOCK_MAP_OFFSET`. -/
def BLOCK_MAP_OFFSET : ℕ := 1
/-- `INODE_MAP_OFFSET`. -/
def INODE_MAP_OFFSET : ℕ := BLOCK_MAP_OFFSET + BLOCK_MAP_SIZE
/-- `INODE_OFFSET`. -/
def INODE_OFFSET : ℕ := INODE_MAP_OFFSET + INODE_MAP_SIZE
/-- `DATA_OFFSET`. -/
def DATA_OFFSET : ℕ := INODE_OFFSET + INODE_SIZE
/-- `DATA_SIZE`. -/
def DATA_SIZE : ℕ := FS_NUM_SECTORS - DATA_OFFSET
/-- `MAX_PATHNAME_LEN`. -/
def MAX_PATHNAME_LEN : ℕ := 27
/-- `DIRECT_BLOCK_NUM`. -/
def DIRECT_BLOCK_NUM : ℕ := 7
/-- `NBLOCK_LV1`. -/
def NBLOCK_LV1 : ℕ := 1024
/-- `NBLOCK_LV2`. -/
def NBLOCK_LV2 : ℕ := NBLOCK_LV1 * NBLOCK_LV1
/-- `NBLOCK_LV3`. -/
def NBLOCK_LV3 : ℕ := NBLOCK_LV2 * NBLOCK_LV1
/-- `BLOCK_SIZE / sizeof(dentry_t)`. -/
def NUM_DENTRIES : ℕ := 128
/-- `IT_DIR`. -/
def IT_DIR : UInt8 := 1
/-- `IT_FILE`. -/
def IT_FILE : UInt8 := 2
/-- `O_WRONLY`. -/
def O_WRONLY : UInt8 := 2
/-- `O_RDWR`. -/
def O_RDWR : UInt8 := 3
/-- `SUPERBLOCK_MAGIC`. -/
def SUPERBLOCK_MAGIC : UInt32 := 0xDF4C4459
/-- The value of `(uint32_t) -1`. -/
def FAIL : ℕ := 2 ^ 32 - 1
/-- The number of inodes, `INODE_MAP_SIZE * SECTOR_SIZE * 8`. -/
def NUM_INODES : ℕ := 4096
/-- The number of data blocks, `SECTOR2BLOCK(DATA_SIZE)`. -/
def NUM_BLOCKS : ℕ := DATA_SIZE / BLOCK_SECTORS

/-- A direct block has a pointer. -/
theorem lt_of_direct {n : ℕ} (h : n < DIRECT_BLOCK_NUM) : n < 10 := by
  unfold DIRECT_BLOCK_NUM at h
  omega

/-! ### Structures -/

instance neZero_blocks : NeZero 10 := ⟨by decide⟩

instance neZero_name : NeZero 27 := ⟨by decide⟩

/-- `inode_t`. -/
@[ext]
structure Inode where
  mode : UInt8
  /-- `IT_DIR` or `IT_FILE`. -/
  type : UInt8
  /-- The link count. -/
  nlink : UInt16
  /-- The inode's own number. -/
  ino : UInt32
  /-- Size in bytes. -/
  size : UInt32
  atime : UInt32
  mtime : UInt32
  ctime : UInt32
  /-- Seven data blocks, then a single, a double and a triple indirect block. -/
  blocks : Fin 10 → UInt32

/-- `dentry_t`. -/
@[ext]
structure Dentry where
  name : Fin 27 → UInt8
  type : UInt8
  ino : UInt32

/-- `fdesc_t`. -/
structure Fdesc where
  mode : UInt8
  valid : UInt8
  ino : UInt32
  read_pos : UInt32
  write_pos : UInt32

namespace Inode

/-- An inode of zeros. -/
def zero : Inode := ⟨0, 0, 0, 0, 0, 0, 0, 0, fun _ => 0⟩

/-- The words of an inode after its first four bytes. -/
def word (I : Inode) : ℕ → UInt32
  | 0 => I.ino
  | 1 => I.size
  | 2 => I.atime
  | 3 => I.mtime
  | 4 => I.ctime
  | k + 5 => if h : k < 10 then I.blocks ⟨k, h⟩ else 0

/-- Byte `i` of an inode. -/
def byteAt (I : Inode) (i : ℕ) : UInt8 :=
  if i = 0 then I.mode
  else if i = 1 then I.type
  else if i < 4 then byte I.nlink.toNat (i - 2)
  else byte (I.word ((i - 4) / 4)).toNat ((i - 4) % 4)

end Inode

namespace Dentry

/-- An entry of zeros. -/
def zero : Dentry := ⟨fun _ => 0, 0, 0⟩

/-- Byte `i` of an entry. -/
def byteAt (e : Dentry) (i : ℕ) : UInt8 :=
  if h : i < 27 then e.name ⟨i, h⟩
  else if i = 27 then e.type
  else byte e.ino.toNat (i - 28)

end Dentry

/-- The inode at offset `o`. -/
def getInode (m : Bytes) (o : ℕ) : Inode where
  mode := m o
  type := m (o + 1)
  nlink := get16 m (o + 2)
  ino := get32 m (o + 4)
  size := get32 m (o + 8)
  atime := get32 m (o + 12)
  mtime := get32 m (o + 16)
  ctime := get32 m (o + 20)
  blocks := fun k => get32 m (o + 24 + 4 * k)

/-- Assign the inode at offset `o`. -/
def putInode (m : Bytes) (o : ℕ) (I : Inode) : Bytes := fun i => if o ≤ i ∧ i < o + 64 then I.byteAt (i - o) else m i

/-- The directory entry at offset `o`. -/
def getDentry (m : Bytes) (o : ℕ) : Dentry where
  name := fun k => m (o + k)
  type := m (o + 27)
  ino := get32 m (o + 28)

/-- Assign the directory entry at offset `o`. -/
def putDentry (m : Bytes) (o : ℕ) (e : Dentry) : Bytes := fun i => if o ≤ i ∧ i < o + 32 then e.byteAt (i - o) else m i

variable {m m' : Bytes} {o : ℕ}

/-- An inode is determined by its 64 bytes. -/
theorem getInode_congr (h : ∀ i, o ≤ i → i < o + 64 → m i = m' i) : getInode m o = getInode m' o := by
  have h32 : ∀ k, k + 4 ≤ 64 → get32 m (o + k) = get32 m' (o + k) :=
    fun k hk => get32_congr fun i h1 h2 => h i (by omega) (by omega)
  ext1
  · exact h o (by omega) (by omega)
  · exact h (o + 1) (by omega) (by omega)
  · exact get16_congr fun i h1 h2 => h i (by omega) (by omega)
  · exact h32 4 (by omega)
  · exact h32 8 (by omega)
  · exact h32 12 (by omega)
  · exact h32 16 (by omega)
  · exact h32 20 (by omega)
  · funext k
    have := h32 (24 + 4 * k) (by omega)
    rwa [← Nat.add_assoc] at this

/-- A directory entry is determined by its 32 bytes. -/
theorem getDentry_congr (h : ∀ i, o ≤ i → i < o + 32 → m i = m' i) : getDentry m o = getDentry m' o := by
  ext1
  · funext k
    exact h (o + k) (by omega) (by omega)
  · exact h (o + 27) (by omega) (by omega)
  · exact get32_congr fun i h1 h2 => h i (by omega) (by omega)

/-- The inode whose bytes lie at `o`. -/
theorem getInode_eq (I : Inode) (h : ∀ j < 64, m (o + j) = I.byteAt j) : getInode m o = I := by
  have hw : ∀ k < 15, get32 m (o + 4 + 4 * k) = I.word k := by
    intro k hk
    refine get32_eq _ fun j hj => ?_
    have := h (4 + 4 * k + j) (by omega)
    rw [← Nat.add_assoc, ← Nat.add_assoc] at this
    rw [this, Inode.byteAt, if_neg (by omega), if_neg (by omega), if_neg (by omega)]
    congr 1 <;> congr 2 <;> omega
  ext1
  · exact h 0 (by omega)
  · exact h 1 (by omega)
  · refine get16_eq _ fun j hj => ?_
    have := h (2 + j) (by omega)
    rw [← Nat.add_assoc] at this
    rw [this, Inode.byteAt, if_neg (by omega), if_neg (by omega), if_pos (by omega)]
    congr 1
    omega
  · exact hw 0 (by omega)
  · exact hw 1 (by omega)
  · exact hw 2 (by omega)
  · exact hw 3 (by omega)
  · exact hw 4 (by omega)
  · funext k
    have := hw (k + 5) (by omega)
    rw [show o + 4 + 4 * (↑k + 5) = o + 24 + 4 * ↑k by omega] at this
    simpa [Inode.word, getInode] using this

/-- The directory entry whose bytes lie at `o`. -/
theorem getDentry_eq (e : Dentry) (h : ∀ j < 32, m (o + j) = e.byteAt j) : getDentry m o = e := by
  ext1
  · funext k
    have := h k (by omega)
    simpa [Dentry.byteAt, getDentry] using this
  · exact h 27 (by omega)
  · refine get32_eq _ fun j hj => ?_
    have := h (28 + j) (by omega)
    rw [← Nat.add_assoc] at this
    rw [this, Dentry.byteAt, dif_neg (by omega), if_neg (by omega)]
    congr 1
    omega

@[simp] theorem getInode_putInode (m : Bytes) (o : ℕ) (I : Inode) : getInode (putInode m o I) o = I := by
  refine getInode_eq I fun j hj => ?_
  have : o ≤ o + j ∧ o + j < o + 64 := by omega
  simp [putInode, this]

theorem getInode_putInode_of_disjoint (m : Bytes) {o o' : ℕ} (I : Inode) (h : o + 64 ≤ o' ∨ o' + 64 ≤ o) :
    getInode (putInode m o I) o' = getInode m o' := by
  refine getInode_congr fun i h1 h2 => ?_
  have : ¬ (o ≤ i ∧ i < o + 64) := by omega
  simp [putInode, this]

@[simp] theorem getDentry_putDentry (m : Bytes) (o : ℕ) (e : Dentry) : getDentry (putDentry m o e) o = e := by
  refine getDentry_eq e fun j hj => ?_
  have : o ≤ o + j ∧ o + j < o + 32 := by omega
  simp [putDentry, this]

theorem getDentry_putDentry_of_disjoint (m : Bytes) {o o' : ℕ} (e : Dentry) (h : o + 32 ≤ o' ∨ o' + 32 ≤ o) :
    getDentry (putDentry m o e) o' = getDentry m o' := by
  refine getDentry_congr fun i h1 h2 => ?_
  have : ¬ (o ≤ i ∧ i < o + 32) := by omega
  simp [putDentry, this]

theorem Dentry.byteAt_zero (i : ℕ) : Dentry.zero.byteAt i = 0 := by
  rw [Dentry.byteAt]
  split
  · rfl
  · split
    · rfl
    · simp [Dentry.zero, byte]

/-- Zero bytes are the entry of zeros. -/
theorem getDentry_zero (h : ∀ j < 32, m (o + j) = 0) : getDentry m o = Dentry.zero :=
  getDentry_eq _ fun j hj => by rw [h j hj, Dentry.byteAt_zero]

/-! ### Names -/

/-- A C string: its characters before the terminating zero. -/
structure CString where
  /-- The characters. -/
  chars : List UInt8
  nonzero : 0 ∉ chars

namespace CString

/-- A string literal of the source (ASCII). -/
def ofString (s : String) (h : 0 ∉ s.toList.map fun c => UInt8.ofNat c.toNat := by decide) : CString :=
  ⟨s.toList.map fun c => UInt8.ofNat c.toNat, h⟩

end CString

namespace Dentry

/-- The name of an entry up to its terminating zero. `strcmp(e.name, path) == 0` says that it
is `path`, for a path of less than `MAX_PATHNAME_LEN` characters. -/
def str (e : Dentry) : List UInt8 := (List.ofFn e.name).takeWhile (· ≠ 0)

/-- The name as a string. -/
def string (e : Dentry) : CString where
  chars := e.str
  nonzero h := by simpa using List.mem_takeWhile_imp h

/-- Whether an entry is used: `e.name[0] != 0`. -/
def used (e : Dentry) : Bool := e.name 0 ≠ 0

/-- `strcpy(e.name, path)`, for a path of less than `MAX_PATHNAME_LEN` characters. -/
def strcpy (e : Dentry) (path : List UInt8) : Dentry :=
  { e with name := fun k => if h : k < path.length then path[k] else if k = path.length then 0 else e.name k }

theorem used_eq_false_iff (e : Dentry) : e.used = false ↔ e.str = [] := by
  simp [used, str, List.ofFn_succ, List.takeWhile_cons]

theorem str_strcpy (e : Dentry) {path : List UInt8} (hlen : path.length < MAX_PATHNAME_LEN) (h0 : 0 ∉ path) :
    (e.strcpy path).str = path := by
  have hsplit : List.ofFn (e.strcpy path).name =
      path ++ 0 :: (List.ofFn (e.strcpy path).name).drop (path.length + 1) := by
    refine List.ext_getElem ?_ fun i h₁ h₂ => ?_
    · simp [MAX_PATHNAME_LEN] at hlen ⊢
      omega
    · simp only [List.length_ofFn] at h₁
      rw [List.getElem_ofFn]
      by_cases hi : i < path.length
      · rw [List.getElem_append_left hi]
        simp [strcpy, hi]
      · rw [List.getElem_append_right (by omega)]
        by_cases hi' : i = path.length
        · simp [strcpy, hi']
        · obtain ⟨k, hk⟩ : ∃ k, i - path.length = k + 1 := ⟨i - path.length - 1, by omega⟩
          simp only [hk, List.getElem_cons_succ, List.getElem_drop, List.getElem_ofFn]
          congr 1
          apply Fin.ext
          simp
          omega
  rw [str, hsplit, List.takeWhile_append_of_pos, List.takeWhile_cons_of_neg (by simp), List.append_nil]
  intro a ha
  have : a ≠ 0 := fun e => h0 (e ▸ ha)
  simpa using this

end Dentry

end OsLab
