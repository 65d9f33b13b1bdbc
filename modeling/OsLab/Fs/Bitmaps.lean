import OsLab.Fs.Rmdir
import OsLab.Lib.Ledger

/-!
# The bitmaps of inodes and blocks

What `find_free_inode`, `find_free_block` and `free_block` do to the bitmaps as they are loaded, and
to the rest of the disk (`find_free_inode_finds`, `find_free_block_finds`): each takes the lowest clear
bit and no other, and -1 is the answer exactly when there is none. A map as it is loaded is what the
program has of it after `bread`, that is with the sector read last at the front.

Any sequence of allocations and frees keeps a ledger of what is out (`Allocs.moves`), so no inode and
no block is handed out twice without a free in between.
-/

namespace OsLab

open Lib ProgM Bytes

/-! ### One call -/

/-- `inode_map` as it is loaded. -/
def inodeMap (st : St) : Bytes := (st.mem.buf .inode_map).put 0 (st.dev Fs.INODE_MAP)

/-- `block_map` as it is loaded. -/
def blockMap (st : St) : Bytes := (st.mem.buf .block_map).put 0 (st.dev (Fs.BLOCK_MAP + 31))

/-- What `find_free_inode` answers and does. -/
structure FindsInode (st : St) (r : ℕ) (st' : St) : Prop where
  fail : r = FAIL ↔ ∀ i < NUM_INODES, bit (inodeMap st) i = true
  same : r = FAIL → inodeMap st' = inodeMap st ∧ st'.dev = st.dev
  lowest : r ≠ FAIL → r < NUM_INODES ∧ bit (inodeMap st) r = false ∧ ∀ i < r, bit (inodeMap st) i = true
  marked : r ≠ FAIL → inodeMap st' = setBit (inodeMap st) r
  rest : r ≠ FAIL → ∀ x, x ≠ Fs.INODE_MAP → st'.dev x = st.dev x
  blocks : blockMap st' = blockMap st

/-- What `find_free_block` answers and does: `b` is the block of sector `r`. -/
structure FindsBlock (st : St) (r b : ℕ) (st' : St) : Prop where
  fail : r = FAIL ↔ ∀ i < NUM_BLOCKS, bit (blockMap st) i = true
  same : r = FAIL → blockMap st' = blockMap st ∧ st'.dev = st.dev
  lowest : r ≠ FAIL → r = blockSector b ∧ b < NUM_BLOCKS ∧
    bit (blockMap st) b = false ∧ ∀ i < b, bit (blockMap st) i = true
  inside : r ≠ FAIL → Fs.DATA ≤ r ∧ r + 7 < Fs.DATA + DATA_SIZE
  marked : r ≠ FAIL → blockMap st' = setBit (blockMap st) b
  zeroed : r ≠ FAIL → ∀ x, r ≤ x → x < r + 8 → st'.dev x = fun _ => 0
  rest : r ≠ FAIL → ∀ x, ¬ (r ≤ x ∧ x < r + 8) →
    ¬ (Fs.BLOCK_MAP ≤ x ∧ x < Fs.BLOCK_MAP + BLOCK_MAP_SIZE) → st'.dev x = st.dev x

variable {st : St}

theorem inodeMap_eq (st : St) : (readImap st).mem.buf .inode_map = inodeMap st := by
  simp [readImap, inodeMap]

theorem blockMap_eq (st : St) : (readBmap st).mem.buf .block_map = blockMap st := by
  simp [readBmap, blockMap]

/-- A buffer is assigned and written: every sector of the run gets its first 512 bytes. -/
theorem exec_bwrite_set (st : St) (b : Buffer) (m : Bytes) {n s : ℕ} (h₁ : FS_START_SECTOR ≤ s)
    (h₂ : s + n ≤ FS_START_SECTOR + FS_NUM_SECTORS) : ∃ st',
      exec disk (Fs.bwrite b n s) (setBufSt st b m) = some ((), st') ∧ st'.mem = (setBufSt st b m).mem ∧
        ∀ x, st'.dev x = if s ≤ x ∧ x < s + n then m.sector 0 else st.dev x := by
  refine ⟨_, exec_bwrite _ h₁ h₂ _, rfl, fun x => ?_⟩
  have hbuf : (setBufSt st b m).mem.buf b = m := by simp [setBufSt]
  dsimp only
  rw [hbuf]
  exact Disk.bwrite_apply _ _ (le_trans h₂ region_lt) x

theorem buf_setBufSt (st : St) (b : Buffer) (m : Bytes) : (setBufSt st b m).mem.buf b = m := by simp [setBufSt]

/-- The inode map after `inode_map` is assigned and written. -/
theorem exec_bwrite_imap (st : St) (m : Bytes) : ∃ st',
    exec disk (Fs.bwrite .inode_map INODE_MAP_SIZE Fs.INODE_MAP) (setBufSt st .inode_map m) = some ((), st') ∧
      inodeMap st' = m ∧ blockMap st' = blockMap st ∧ ∀ x, x ≠ Fs.INODE_MAP → st'.dev x = st.dev x := by
  obtain ⟨st', he, hmem, hdev⟩ :=
    exec_bwrite_set st .inode_map m (n := INODE_MAP_SIZE) (s := Fs.INODE_MAP) (by decide) (by decide)
  refine ⟨st', he, ?_, ?_, fun x hx => ?_⟩
  · rw [inodeMap, hmem, buf_setBufSt, hdev, if_pos (by decide), put_sector_self]
  · rw [blockMap, blockMap, hmem, hdev, if_neg (by decide)]
    simp [setBufSt]
  · rw [hdev, if_neg]
    rw [INODE_MAP_SIZE]
    omega

/-- The block map after `block_map` is assigned and written. -/
theorem exec_bwrite_bmap (st : St) (m : Bytes) : ∃ st',
    exec disk (Fs.bwrite .block_map BLOCK_MAP_SIZE Fs.BLOCK_MAP) (setBufSt st .block_map m) = some ((), st') ∧
      blockMap st' = m ∧ ∀ x, ¬ (Fs.BLOCK_MAP ≤ x ∧ x < Fs.BLOCK_MAP + BLOCK_MAP_SIZE) → st'.dev x = st.dev x := by
  obtain ⟨st', he, hmem, hdev⟩ :=
    exec_bwrite_set st .block_map m (n := BLOCK_MAP_SIZE) (s := Fs.BLOCK_MAP) (by decide) (by decide)
  refine ⟨st', he, ?_, fun x hx => ?_⟩
  · rw [blockMap, hmem, buf_setBufSt, hdev, if_pos (by decide), put_sector_self]
  · rw [hdev, if_neg hx]

theorem NUM_INODES_lt_FAIL : NUM_INODES < FAIL := by decide

theorem find_free_inode_finds (st : St) : Runs st Fs.find_free_inode fun r st' => FindsInode st r st' := by
  have hs : scan (inodeMap st) (INODE_MAP_SIZE * SECTOR_SIZE)
    (INODE_MAP_SIZE * SECTOR_SIZE * 8) = firstClear _ _ := scan_eq (by decide)
  rw [show INODE_MAP_SIZE * SECTOR_SIZE * 8 = NUM_INODES by decide] at hs
  cases hf : firstClear (bit (inodeMap st)) NUM_INODES with
  | none =>
    rw [hf] at hs
    refine ⟨FAIL, readImap st, ?_, ⟨fun _ => firstClear_eq_none.mp hf, fun _ => rfl⟩, fun _ => ⟨?_, rfl⟩,
      fun h => absurd rfl h, fun h => absurd rfl h, fun h => absurd rfl h, ?_⟩
    · simp only [Fs.find_free_inode, exec_bind, exec_readImap, Option.bind_some, exec_get, inodeMap_eq,
        show INODE_MAP_SIZE * SECTOR_SIZE * 8 = NUM_INODES from rfl, hs, exec_pure]
    · simp [inodeMap, readImap]
    · simp [blockMap, readImap]
  | some i =>
    rw [hf] at hs
    obtain ⟨hi, hclear, hlow⟩ := firstClear_eq_some.mp hf
    obtain ⟨st', he, hmap, hblocks, hrest⟩ := exec_bwrite_imap (readImap st) (setBit (inodeMap st) i)
    have hne : i ≠ FAIL := Nat.ne_of_lt (Nat.lt_trans hi NUM_INODES_lt_FAIL)
    refine ⟨i, st', ?_, ⟨fun h => absurd h hne, fun h => ?_⟩, fun h => absurd h hne, fun _ => ⟨hi, hclear, hlow⟩,
      fun _ => hmap, fun _ x hx => (hrest x hx).trans rfl, hblocks.trans (by simp [blockMap, readImap])⟩
    · simp only [Fs.find_free_inode, exec_bind, exec_readImap, Option.bind_some, exec_get, inodeMap_eq,
        show INODE_MAP_SIZE * SECTOR_SIZE * 8 = NUM_INODES from rfl, hs, exec_setBuf, he, exec_pure]
    · rw [h i hi] at hclear
      cases hclear

theorem blockSector_ne_FAIL {b : ℕ} (hb : b < NUM_BLOCKS) : blockSector b ≠ FAIL := by
  have h := (blockSector_le hb).2
  have : FS_START_SECTOR + FS_NUM_SECTORS < FAIL := by decide
  omega

theorem blockSector_inside {b : ℕ} (hb : b < NUM_BLOCKS) :
    Fs.DATA ≤ blockSector b ∧ blockSector b + 7 < Fs.DATA + DATA_SIZE := by
  have hsize : DATA_SIZE = 1048030 := by decide
  rw [NUM_BLOCKS_eq] at hb
  rw [blockSector, hsize]
  omega

theorem find_free_block_finds (st : St) : Runs st Fs.find_free_block fun r st' => ∃ b, FindsBlock st r b st' := by
  have hs : scan (blockMap st) (BLOCK_MAP_SIZE * SECTOR_SIZE) (DATA_SIZE / BLOCK_SECTORS) = firstClear _ _ :=
    scan_eq (by decide)
  cases hf : firstClear (bit (blockMap st)) (DATA_SIZE / BLOCK_SECTORS) with
  | none =>
    rw [hf] at hs
    refine ⟨FAIL, readBmap st, ?_, 0, ⟨fun _ => firstClear_eq_none.mp hf, fun _ => rfl⟩,
      fun _ => ⟨?_, rfl⟩, ?_, ?_, ?_, ?_, ?_⟩
    · simp only [Fs.find_free_block, exec_bind, exec_readBmap, Option.bind_some, exec_get, blockMap_eq, hs, exec_pure]
    · simp [blockMap, readBmap]
    all_goals exact fun h => absurd rfl h
  | some b =>
    rw [hf] at hs
    obtain ⟨hb, hclear, hlow⟩ := firstClear_eq_some.mp hf
    have hne := blockSector_ne_FAIL hb
    obtain ⟨st₁, he₁, hmap₁, hrest₁⟩ := exec_bwrite_bmap (readBmap st) (setBit (blockMap st) b)
    have hsec : b * BLOCK_SECTORS + Fs.DATA = blockSector b := by
      rw [BLOCK_SECTORS_eq, blockSector]
      omega
    have he₂ := exec_setBuf st₁ .rdata_buffer fun _ => 0
    obtain ⟨st₂, he₃, hmem₂, hdev₂⟩ :=
      exec_bwrite_set st₁ .rdata_buffer (fun _ => 0) (n := BLOCK_SECTORS) (s := blockSector b)
      (le_trans (by decide) (blockSector_le hb).1) (by rw [BLOCK_SECTORS_eq]; exact (blockSector_le hb).2)
    rw [BLOCK_SECTORS_eq] at hdev₂
    -- the block map lies below the data area, so clearing the block leaves it alone
    have hlast : ¬ (blockSector b ≤ Fs.BLOCK_MAP + 31 ∧ Fs.BLOCK_MAP + 31 < blockSector b + 8) := by
      have h257 : Fs.BLOCK_MAP = 257 := by decide
      rw [blockSector, DATA_eq, h257]
      omega
    refine ⟨blockSector b, st₂, ?_, b, ⟨fun h => absurd h hne, fun h => ?_⟩, fun h => absurd h hne,
      fun _ => ⟨rfl, hb, hclear, hlow⟩, fun _ => blockSector_inside hb,
      fun _ => ?_, fun _ x h1 h2 => ?_, fun _ x hx hx' => ?_⟩
    · simp only [Fs.find_free_block, exec_bind, exec_readBmap, Option.bind_some, exec_get, blockMap_eq, hs,
        exec_setBuf (readBmap st), he₁, Fs.bzero, he₂, hsec, he₃, exec_pure]
    · rw [h b hb] at hclear
      cases hclear
    · rw [← hmap₁, blockMap, blockMap, hdev₂, if_neg hlast, hmem₂]
      simp [setBufSt]
    · rw [hdev₂, if_pos ⟨h1, h2⟩]
      rfl
    · rw [hdev₂, if_neg hx, hrest₁ x hx']
      rfl

/-- `free_block` clears the bit of the block and writes nothing but the block map. -/
theorem free_block_clears (st : St) {b : ℕ} (hb : b < NUM_BLOCKS) : Runs st (Fs.free_block (blockSector b)) fun _ st' =>
    blockMap st' = clearBit (blockMap st) b ∧
      ∀ x, ¬ (Fs.BLOCK_MAP ≤ x ∧ x < Fs.BLOCK_MAP + BLOCK_MAP_SIZE) → st'.dev x = st.dev x := by
  obtain ⟨st', he, hmap, hrest⟩ := exec_bwrite_bmap (readBmap st) (clearBit (blockMap st) b)
  refine ⟨(), st', ?_, hmap, fun x hx => (hrest x hx).trans rfl⟩
  have hidx : (blockSector b - Fs.DATA) / BLOCK_SECTORS = b := by
    rw [BLOCK_SECTORS_eq, blockSector]
    omega
  have hle : ¬ blockSector b < Fs.DATA := by
    rw [blockSector]
    omega
  have hin : ¬ BLOCK_MAP_SIZE * SECTOR_SIZE ≤ b / 8 := by
    rw [NUM_BLOCKS_eq] at hb
    rw [BLOCK_MAP_SIZE, SECTOR_SIZE]
    omega
  simp only [Fs.free_block, if_neg hle, exec_bind, exec_readBmap, Option.bind_some, hidx, if_neg hin, exec_get,
    blockMap_eq, exec_setBuf, he]

/-! ### Sequences of calls -/

/-- What the file system sees through the cache. -/
def Sys.seen (s : Sys) : St := ⟨s.mem, s.dev.logical⟩

/-- What is allocated. -/
inductive Item where
  /-- An inode number. -/
  | inode (i : Fin NUM_INODES)
  /-- A data block. -/
  | block (b : Fin NUM_BLOCKS)

/-- Whether an item is marked in its bitmap. -/
def Sys.out (s : Sys) : Item → Bool
  | .inode i => bit (inodeMap s.seen) i
  | .block b => bit (blockMap s.seen) b

/-- A sequence of allocations and frees from `s` to `t`, with what it hands out and gives back. The
blocks `free_inode` gives back are those whose bits it clears. What else runs in between leaves the
bitmaps alone. -/
inductive Allocs : Sys → List (Booking Item) → Sys → Prop where
  | nil {s : Sys} : Allocs s [] s
  /-- `find_free_inode` returns an inode number. -/
  | find_free_inode {s s' t : Sys} {es : List (Booking Item)} {i : Fin NUM_INODES} :
      exec cached Fs.find_free_inode s = some (i.val, s') → Allocs s' es t → Allocs s (.take (.inode i) :: es) t
  /-- `find_free_inode` returns -1. -/
  | no_free_inode {s s' t : Sys} {es : List (Booking Item)} :
      exec cached Fs.find_free_inode s = some (FAIL, s') → Allocs s' es t → Allocs s es t
  /-- `find_free_block` returns the sector of a block. -/
  | find_free_block {s s' t : Sys} {es : List (Booking Item)} {b : Fin NUM_BLOCKS} :
      exec cached Fs.find_free_block s = some (blockSector b, s') → Allocs s' es t → Allocs s (.take (.block b) :: es) t
  /-- `find_free_block` returns -1. -/
  | no_free_block {s s' t : Sys} {es : List (Booking Item)} :
      exec cached Fs.find_free_block s = some (FAIL, s') → Allocs s' es t → Allocs s es t
  | free_block {s s' t : Sys} {es : List (Booking Item)} {b : Fin NUM_BLOCKS} :
      exec cached (Fs.free_block (blockSector b)) s = some ((), s') → Allocs s' es t →
        Allocs s (.give {x | x = .block b} :: es) t
  | free_inode {s s' t : Sys} {es : List (Booking Item)} {ino : UInt32} :
      exec cached (Fs.free_inode ino) s = some ((), s') → Allocs s' es t →
        Allocs s (.give {x | (∃ i : Fin NUM_INODES, x = .inode i ∧ i.val = ino.toNat) ∨
          ∃ b : Fin NUM_BLOCKS, x = .block b ∧ s.out x = true ∧ s'.out x = false} :: es) t
  /-- Anything else. -/
  | other {α : Type} {s s' t : Sys} {es : List (Booking Item)} {x : FsM α} {a : α} :
      exec cached x s = some (a, s') → s'.out = s.out → Allocs s' es t → Allocs s es t

section Sequences

variable {s s' : Sys} {α : Type}

/-- The cache stays in order. -/
theorem exec_cached_ok {x : FsM α} {a : α} (hok : s.dev.Ok) (he : exec cached x s = some (a, s')) : s'.dev.Ok := by
  obtain ⟨c, -, rfl, hc⟩ := exec_sim cached cached (fun c c' => c = c' ∧ c'.Ok) (fun e c c' r d hrel hd => by
    obtain ⟨rfl, hc⟩ := hrel
    refine ⟨d, hd, rfl, ?_⟩
    cases e with
    | bread m n k =>
      obtain ⟨c'', hb, hok', -⟩ := Bcache.bread_spec hc m n k
      obtain ⟨-, rfl⟩ := Prod.mk.inj (Option.some.inj (hd.symm.trans hb))
      exact hok'
    | bwrite m n k =>
      obtain ⟨c'', hb, hok', -⟩ := Bcache.bwrite_spec hc m n k
      obtain ⟨d', hd', heq⟩ := Option.map_eq_some_iff.mp hd
      obtain rfl := Option.some.inj (hb.symm.trans hd')
      obtain ⟨-, rfl⟩ := Prod.mk.inj heq
      exact hok'
    | policy p =>
      obtain ⟨-, rfl⟩ := Prod.mk.inj (Option.some.inj hd)
      exact (Bcache.policy_spec hc p).1) x s.dev ⟨rfl, hok⟩ he
  exact hc

/-- The sector of the inode map is not one of the block map. -/
theorem INODE_MAP_outside : ¬ (Fs.BLOCK_MAP ≤ Fs.INODE_MAP ∧ Fs.INODE_MAP < Fs.BLOCK_MAP + BLOCK_MAP_SIZE) := by decide

/-- Nor is it one of a block of the data area. -/
theorem INODE_MAP_not_block (b : ℕ) : ¬ (blockSector b ≤ Fs.INODE_MAP ∧ Fs.INODE_MAP < blockSector b + 8) := by
  have h289 : Fs.INODE_MAP = 289 := by decide
  rw [blockSector, DATA_eq, h289]
  omega

/-- What is known of a program over the map of sectors holds of its run over the cache. -/
theorem Runs.of_cached {x : FsM α} {a : α} {Q : α → St → Prop} (h : Runs s.seen x Q) (hok : s.dev.Ok)
    (he : exec OsLab.cached x s = some (a, s')) : Q a s'.seen := by
  obtain ⟨b, t, he', -, hQ⟩ := Runs.cached (s := s) h hok
  obtain ⟨rfl, rfl⟩ := Prod.mk.inj (Option.some.inj (he'.symm.trans he))
  exact hQ

theorem out_inode (s : Sys) (i : Fin NUM_INODES) :
    s.out (.inode i) = bit (ofSector (s.dev.logical Fs.INODE_MAP)) i := by
  simp only [Sys.out, inodeMap, Sys.seen]
  rw [bit_put_of_lt _ _ i.isLt]

/-- Writing outside the sector of the inode map leaves the inode map alone. -/
theorem out_inode_congr (i : Fin NUM_INODES) (hd : s'.seen.dev Fs.INODE_MAP = s.seen.dev Fs.INODE_MAP) :
    s'.out (.inode i) = s.out (.inode i) := by
  simp only [Sys.seen] at hd
  rw [out_inode, out_inode, hd]

/-- Whether a block is out is told by `block_map` and the last sector of the block map. -/
theorem out_block_congr (b : Fin NUM_BLOCKS) (hmap : blockMap s'.seen = blockMap s.seen) :
    s'.out (.block b) = s.out (.block b) := by
  simp only [Sys.out, hmap]

/-- An inode number is handed out only while its bit is clear, and its bit is then set. -/
theorem find_free_inode_takes (hok : s.dev.Ok) {i : Fin NUM_INODES}
    (he : exec cached Fs.find_free_inode s = some (i.val, s')) :
    s.out (.inode i) = false ∧ s'.out (.inode i) = true ∧ ∀ x, s.out x = true → s'.out x = true := by
  have hf := Runs.of_cached (find_free_inode_finds s.seen) hok he
  have hne : i.val ≠ FAIL := Nat.ne_of_lt (Nat.lt_trans i.isLt NUM_INODES_lt_FAIL)
  have hset : ∀ j : Fin NUM_INODES, s'.out (.inode j) = (decide (j.val = i.val) || s.out (.inode j)) := by
    intro j
    simp only [Sys.out, hf.marked hne, bit_setBit]
  refine ⟨(hf.lowest hne).2.1, by simp [hset], fun x hx => ?_⟩
  cases x with
  | inode j => rw [hset, hx, Bool.or_true]
  | block b => rwa [out_block_congr b hf.blocks]

/-- A block is handed out only while its bit is clear, and its bit is then set. -/
theorem find_free_block_takes (hok : s.dev.Ok) {b : Fin NUM_BLOCKS}
    (he : exec cached Fs.find_free_block s = some (blockSector b, s')) :
    s.out (.block b) = false ∧ s'.out (.block b) = true ∧ ∀ x, s.out x = true → s'.out x = true := by
  obtain ⟨k, hf⟩ := Runs.of_cached (find_free_block_finds s.seen) hok he
  have hne := blockSector_ne_FAIL b.isLt
  obtain ⟨hsec, hk, hclear, -⟩ := hf.lowest hne
  have hkb : k = b.val := by
    unfold blockSector at hsec
    omega
  subst hkb
  have hset : ∀ j : Fin NUM_BLOCKS, s'.out (.block j) = (decide (j.val = b.val) || s.out (.block j)) := by
    intro j
    simp only [Sys.out, hf.marked hne, bit_setBit]
  refine ⟨hclear, by simp [hset], fun x hx => ?_⟩
  cases x with
  | inode i =>
    have hout : ¬ (blockSector b ≤ Fs.INODE_MAP ∧ Fs.INODE_MAP < blockSector b + 8) := INODE_MAP_not_block b
    rwa [out_inode_congr i (hf.rest hne Fs.INODE_MAP hout INODE_MAP_outside)]
  | block j => rw [hset, hx, Bool.or_true]

/-- -1 leaves the bitmaps alone. -/
theorem no_free_inode_same (hok : s.dev.Ok) (he : exec cached Fs.find_free_inode s = some (FAIL, s')) :
    s'.out = s.out := by
  have hf := Runs.of_cached (find_free_inode_finds s.seen) hok he
  funext x
  cases x with
  | inode i => simp only [Sys.out, (hf.same rfl).1]
  | block b => rw [out_block_congr b hf.blocks]

theorem no_free_block_same (hok : s.dev.Ok) (he : exec cached Fs.find_free_block s = some (FAIL, s')) :
    s'.out = s.out := by
  obtain ⟨k, hf⟩ := Runs.of_cached (find_free_block_finds s.seen) hok he
  obtain ⟨hmap, hdev⟩ := hf.same rfl
  funext x
  cases x with
  | inode i =>
    have hd : s'.seen.dev Fs.INODE_MAP = s.seen.dev Fs.INODE_MAP := by rw [hdev]
    exact out_inode_congr i hd
  | block b => rw [out_block_congr b hmap]

/-- `free_block` gives back its block only. -/
theorem free_block_gives (hok : s.dev.Ok) {b : Fin NUM_BLOCKS}
    (he : exec cached (Fs.free_block (blockSector b)) s = some ((), s'))
    {x : Item} (hx : x ≠ .block b) : s'.out x = s.out x := by
  obtain ⟨hmap, hrest⟩ := Runs.of_cached (free_block_clears s.seen b.isLt) hok he
  cases x with
  | inode i => exact out_inode_congr i (hrest _ INODE_MAP_outside)
  | block j =>
    have hne : j.val ≠ b.val := fun h => hx (congrArg Item.block (Fin.ext h))
    simp only [Sys.out, hmap, bit_clearBit, hne, decide_false, Bool.not_false, Bool.true_and]

/-- `free_inode` gives back its inode number only. -/
theorem free_inode_gives (hok : s.dev.Ok) {ino : UInt32} (he : exec cached (Fs.free_inode ino) s = some ((), s'))
    {i : Fin NUM_INODES} (hi : i.val ≠ ino.toNat) : s'.out (.inode i) = s.out (.inode i) := by
  have := (free_inode_ends hok he).1 i hi
  rw [out_inode, out_inode, ← Sys.imap_eq, ← Sys.imap_eq]
  exact this

/-- The run lemma: a sequence of allocations and frees is a ledger of the bitmaps. -/
theorem Allocs.moves {t : Sys} {es : List (Booking Item)} (ha : Allocs s es t) (hok : s.dev.Ok) :
    Moves s.out es t.out := by
  induction ha with
  | nil => exact .nil
  | find_free_inode he _ ih =>
    obtain ⟨h1, h2, h3⟩ := find_free_inode_takes hok he
    exact .take h1 h2 h3 (ih (exec_cached_ok hok he))
  | no_free_inode he _ ih =>
    rw [← no_free_inode_same hok he]
    exact ih (exec_cached_ok hok he)
  | find_free_block he _ ih =>
    obtain ⟨h1, h2, h3⟩ := find_free_block_takes hok he
    exact .take h1 h2 h3 (ih (exec_cached_ok hok he))
  | no_free_block he _ ih =>
    rw [← no_free_block_same hok he]
    exact ih (exec_cached_ok hok he)
  | @free_block s s' t es b he _ ih =>
    have hkeep : ∀ x, x ∉ {x | x = Item.block b} → s.out x = true → s'.out x = true := by
      intro x hx hout
      rwa [free_block_gives hok he hx]
    exact .give hkeep (ih (exec_cached_ok hok he))
  | @free_inode s s' t es ino he _ ih =>
    have hkeep : ∀ x, x ∉ {x | (∃ i : Fin NUM_INODES, x = Item.inode i ∧ i.val = ino.toNat) ∨
        ∃ b : Fin NUM_BLOCKS, x = .block b ∧ s.out x = true ∧ s'.out x = false} → s.out x = true → s'.out x = true := by
      intro x hx hout
      cases x with
      | inode i =>
        have hi : i.val ≠ ino.toNat := fun h => hx (Or.inl ⟨i, rfl, h⟩)
        rwa [free_inode_gives hok he hi]
      | block b =>
        by_contra hgone
        exact hx (Or.inr ⟨b, rfl, hout, Bool.not_eq_true _ ▸ hgone⟩)
    exact .give hkeep (ih (exec_cached_ok hok he))
  | other he hsame _ ih =>
    rw [← hsame]
    exact ih (exec_cached_ok hok he)

end Sequences

end OsLab
