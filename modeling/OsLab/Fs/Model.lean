import OsLab.Fs.Layout
import OsLab.Lib.Prog
import OsLab.Cache.Model

/-!
# The file system

The functions of `kernel/fs/fs.c` between the buffer cache and the system calls. They work on
static buffers, one per kind of data, and reach the card only through `bread` and `bwrite`; so
they are programs over the interface `Io` with the kernel's variables `Mem` as their memory.
`Io` is given three meanings elsewhere: the cache as it is written, and two ideal devices.

Return values and buffers are those of the source. `stop` stands for a call that does not come
back as C defines it: a failed `assert`, an index outside an array, a string copied past the
end of its buffer, or a recursion without end. Printing is left out, but for `pwd`.
-/

namespace OsLab

open Lib

/-- The static buffers. -/
inductive Buffer where
  | superblock_buffer
  | inode_map
  | block_map
  | inode_buffer
  | dentry_buffer
  | rdata_buffer
  | wdata_buffer
  deriving DecidableEq

/-- The static variables of the file system. -/
structure Mem where
  /-- The buffers. -/
  buf : Buffer → Bytes
  /-- `fdesc_array`. -/
  fdesc_array : Fin NUM_FDESCS → Fdesc
  /-- `wd_inode`, the working directory's inode. -/
  wd_inode : Inode
  /-- `root_ino`. -/
  root_ino : UInt32
  /-- `write_back_freq`. -/
  write_back_freq : ℤ
  /-- What the coming calls of `get_timer` answer. -/
  clock : ℕ → UInt32

/-- What the file system asks of the layer below. -/
inductive Io where
  /-- `bread(m, nsectors, sectorid)`. -/
  | bread (m : Bytes) (nsectors sectorid : ℕ)
  /-- `bwrite(m, nsectors, sectorid)`. -/
  | bwrite (m : Bytes) (nsectors sectorid : ℕ)
  /-- `page_cache_policy = p`. -/
  | policy (p : Policy)

/-- What it answers. -/
def Io.Res : Io → Type
  | .bread .. => Bytes
  | .bwrite .. => Unit
  | .policy _ => Unit

/-- Programs of the file system. -/
abbrev FsM := ProgM Mem Io Io.Res

/-- `dentry_buffer[j]`. -/
def Mem.dentry (s : Mem) (j : ℕ) : Dentry := getDentry (s.buf .dentry_buffer) (32 * j)

/-- `((uint32_t *) rdata_buffer)[k]`. -/
def Mem.rword (s : Mem) (k : ℕ) : UInt32 := get32 (s.buf .rdata_buffer) (4 * k)

/-- A pointer to an inode, as `find_inode` returns it. -/
inductive InodePtr where
  /-- `parent_inode`, which is `&wd_inode` in every call whose path may be empty. -/
  | wd
  /-- `&inode_buffer[k]`. -/
  | buf (k : ℕ)

namespace Fs

open ProgM

/-! ### Variables and buffers -/

/-- `if (c) x;` -/
def ifThen (c : Prop) [Decidable c] (x : FsM Unit) : FsM Unit := if c then x else pure ()

/-- Assign a buffer. -/
def setBuf (b : Buffer) (m : Bytes) : FsM Unit := modify fun s => { s with buf := Function.update s.buf b m }

/-- `bread(b, nsectors, sectorid)`. -/
def bread (b : Buffer) (nsectors sectorid : ℕ) : FsM Unit := do
  let s ← get
  let m ← perform (Io.bread (s.buf b) nsectors sectorid)
  setBuf b m

/-- `bwrite(b, nsectors, sectorid)`. -/
def bwrite (b : Buffer) (nsectors sectorid : ℕ) : FsM Unit := do
  let s ← get
  perform (Io.bwrite (s.buf b) nsectors sectorid)

/-- `bzero(b, …)` of the whole buffer. -/
def bzero (b : Buffer) : FsM Unit := setBuf b fun _ => 0

/-- `inode_buffer[k]`. -/
def inodeBuf (k : ℕ) : FsM Inode := do
  let s ← get
  pure (getInode (s.buf .inode_buffer) (64 * k))

/-- `inode_buffer[k] = I`. -/
def setInodeBuf (k : ℕ) (I : Inode) : FsM Unit := do
  let s ← get
  setBuf .inode_buffer (putInode (s.buf .inode_buffer) (64 * k) I)

/-- `dentry_buffer[j] = e`. -/
def setDentryBuf (j : ℕ) (e : Dentry) : FsM Unit := do
  let s ← get
  setBuf .dentry_buffer (putDentry (s.buf .dentry_buffer) (32 * j) e)

/-- `wd_inode`. -/
def wdInode : FsM Inode := do
  let s ← get
  pure s.wd_inode

/-- `dentry_buffer`, entry by entry. -/
def dentries : FsM (ℕ → Dentry) := do
  let s ← get
  pure s.dentry

/-- `((uint32_t *) rdata_buffer)[k]`. -/
def rword (k : ℕ) : FsM UInt32 := do
  let s ← get
  pure (s.rword k)

/-- `((uint32_t *) rdata_buffer)[k] = v`. -/
def setRword (k : ℕ) (v : UInt32) : FsM Unit := do
  let s ← get
  setBuf .rdata_buffer (put32 (s.buf .rdata_buffer) (4 * k) v)

/-- `rdata_buffer[o]`. -/
def rbyte (o : ℕ) : FsM UInt8 := do
  let s ← get
  pure (s.buf .rdata_buffer o)

/-- `wdata_buffer[o] = c`. -/
def setWbyte (o : ℕ) (c : UInt8) : FsM Unit := do
  let s ← get
  setBuf .wdata_buffer (Function.update (s.buf .wdata_buffer) o c)

/-- `fdesc_array`. -/
def fdescs : FsM (Fin NUM_FDESCS → Fdesc) := do
  let s ← get
  pure s.fdesc_array

/-- `wd_inode = I`. -/
def setWd (I : Inode) : FsM Unit := modify fun s => { s with wd_inode := I }

/-- Follow a pointer to an inode. -/
def deref : InodePtr → FsM Inode
  | .wd => wdInode
  | .buf k => inodeBuf k

/-- `get_timer()`, stored in 32 bits. -/
def get_timer : FsM UInt32 := do
  let s ← get
  modify fun s => { s with clock := fun n => s.clock (n + 1) }
  pure (s.clock 0)

/-- `inodeidx2sector`. -/
def inodeidx2sector (inode_idx : UInt32) : ℕ :=
  (FS_START_SECTOR + INODE_OFFSET + inode_idx.toNat * 64 / SECTOR_SIZE * SECTOR_SIZE / SECTOR_SIZE) % 2 ^ 32

/-- `inodeidx2offset`. -/
def inodeidx2offset (inode_idx : UInt32) : ℕ := inode_idx.toNat % 8

/-- The first sector of the block map. -/
def BLOCK_MAP : ℕ := BLOCK_MAP_OFFSET + FS_START_SECTOR

/-- The sector of the inode map. -/
def INODE_MAP : ℕ := INODE_MAP_OFFSET + FS_START_SECTOR

/-- The first sector of the data area. -/
def DATA : ℕ := DATA_OFFSET + FS_START_SECTOR

/-! ### Allocation -/

/-- `find_free_inode`. -/
def find_free_inode : FsM ℕ := do
  bread .inode_map INODE_MAP_SIZE INODE_MAP
  let s ← get
  match scan (s.buf .inode_map) (INODE_MAP_SIZE * SECTOR_SIZE) (INODE_MAP_SIZE * SECTOR_SIZE * 8) with
  | none => pure FAIL
  | some i => do
    setBuf .inode_map (setBit (s.buf .inode_map) i)
    bwrite .inode_map INODE_MAP_SIZE INODE_MAP
    pure i

/-- `find_free_block`: the first sector of a free block, marked used and cleared. -/
def find_free_block : FsM ℕ := do
  bread .block_map BLOCK_MAP_SIZE BLOCK_MAP
  let s ← get
  match scan (s.buf .block_map) (BLOCK_MAP_SIZE * SECTOR_SIZE) (DATA_SIZE / BLOCK_SECTORS) with
  | none => pure FAIL
  | some b => do
    setBuf .block_map (setBit (s.buf .block_map) b)
    bwrite .block_map BLOCK_MAP_SIZE BLOCK_MAP
    bzero .rdata_buffer
    bwrite .rdata_buffer BLOCK_SECTORS (b * BLOCK_SECTORS + DATA)
    pure (b * BLOCK_SECTORS + DATA)

/-- `free_block`. -/
def free_block (block_sector : ℕ) : FsM Unit :=
  if block_sector < DATA then stop
  else do
    bread .block_map BLOCK_MAP_SIZE BLOCK_MAP
    let block_idx := (block_sector - DATA) / BLOCK_SECTORS
    if BLOCK_MAP_SIZE * SECTOR_SIZE ≤ block_idx / 8 then stop
    else do
      let s ← get
      setBuf .block_map (clearBit (s.buf .block_map) block_idx)
      bwrite .block_map BLOCK_MAP_SIZE BLOCK_MAP

/-- `bread(rdata_buffer, BLOCK_SIZE / SECTOR_SIZE, sec)` and a word of it. -/
def readWord (sec : UInt32) (k : ℕ) : FsM UInt32 := do
  bread .rdata_buffer BLOCK_SECTORS sec.toNat
  rword k

/-- `if (sec != 0) free_block(sec)`. -/
def freeUnlessZero (sec : UInt32) : FsM Unit := ifThen (sec ≠ 0) (free_block sec.toNat)

/-- `if (c) free_block(sec)`. -/
def freeIf (c : Prop) [Decidable c] (sec : UInt32) : FsM Unit := ifThen c (free_block sec.toNat)

/-- One iteration of the loop of `free_inode`, at block number `i` of inode `I`; the result is
the value the iteration leaves in `i`. -/
def freeStep (I : Inode) (i : ℕ) : FsM ℕ :=
  if h : i < DIRECT_BLOCK_NUM then do
    freeUnlessZero (I.blocks ⟨i, lt_of_direct h⟩)
    pure i
  else if i < DIRECT_BLOCK_NUM + NBLOCK_LV1 then
    let index := i - DIRECT_BLOCK_NUM
    let lv1 := I.blocks 7
    if lv1 = 0 then pure (i - index)
    else do
      let data ← readWord lv1 index
      freeUnlessZero data
      freeIf (index % NBLOCK_LV1 = 0) lv1
      pure i
  else if i < DIRECT_BLOCK_NUM + NBLOCK_LV1 + NBLOCK_LV2 then
    let index := i - DIRECT_BLOCK_NUM - NBLOCK_LV1
    let lv2 := I.blocks 8
    if lv2 = 0 then pure (i - index)
    else do
      let lv1 ← readWord lv2 (index / NBLOCK_LV1)
      if lv1 = 0 then do
        freeIf ((index - index % NBLOCK_LV1) % NBLOCK_LV2 = 0) lv2
        pure (i - index % NBLOCK_LV1)
      else do
        let data ← readWord lv1 (index % NBLOCK_LV1)
        freeUnlessZero data
        freeIf (index % NBLOCK_LV1 = 0) lv1
        freeIf (index % NBLOCK_LV2 = 0) lv2
        pure i
  else if i < DIRECT_BLOCK_NUM + NBLOCK_LV1 + NBLOCK_LV2 + NBLOCK_LV3 then
    let index := i - DIRECT_BLOCK_NUM - NBLOCK_LV1 - NBLOCK_LV2
    let lv3 := I.blocks 9
    if lv3 = 0 then pure (i - index)
    else do
      let lv2 ← readWord lv3 (index / NBLOCK_LV2)
      if lv2 = 0 then do
        freeIf ((index - index % NBLOCK_LV2) % NBLOCK_LV3 = 0) lv3
        pure (i - index % NBLOCK_LV2)
      else do
        let lv1 ← readWord lv2 ((index - index / NBLOCK_LV2 * NBLOCK_LV2) / NBLOCK_LV1)
        if lv1 = 0 then do
          freeIf ((index - index % NBLOCK_LV1) % NBLOCK_LV2 = 0) lv2
          freeIf ((index - index % NBLOCK_LV1) % NBLOCK_LV3 = 0) lv3
          pure (i - index % NBLOCK_LV1)
        else do
          let data ← readWord lv1 (index % NBLOCK_LV1)
          freeUnlessZero data
          freeIf (index % NBLOCK_LV1 = 0) lv1
          freeIf (index % NBLOCK_LV2 = 0) lv2
          freeIf (index % NBLOCK_LV3 = 0) lv3
          pure i
  else pure i

/-- The loop of `free_inode` over the block numbers below `n`, downwards, for the inode at
`inode_buffer[k]`. Every iteration goes on below where it started, so `n` iterations suffice. -/
def freeLoop (k : ℕ) : ℕ → ℕ → FsM Unit
  | _, 0 => pure ()
  | 0, _ + 1 => stop
  | fuel + 1, i + 1 => do
    let I ← inodeBuf k
    let i' ← freeStep I i
    freeLoop k fuel i'

/-- `free_inode`. -/
def free_inode (inode_idx : UInt32) : FsM Unit := do
  let inode_sector := inodeidx2sector inode_idx
  let inode_offset := inodeidx2offset inode_idx
  bread .inode_buffer 1 inode_sector
  let I ← inodeBuf inode_offset
  let nblocks := (I.size.toNat + BLOCK_SIZE - 1) / BLOCK_SIZE * BLOCK_SIZE / BLOCK_SIZE
  freeLoop inode_offset nblocks nblocks
  setInodeBuf inode_offset Inode.zero
  bwrite .inode_buffer 1 inode_sector
  bread .inode_map INODE_MAP_SIZE INODE_MAP
  if INODE_MAP_SIZE * SECTOR_SIZE ≤ inode_idx.toNat / 8 then stop
  else do
    let s ← get
    setBuf .inode_map (clearBit (s.buf .inode_map) inode_idx.toNat)
    bwrite .inode_map INODE_MAP_SIZE INODE_MAP

/-! ### The block tree -/

/-- `blockid2sector`. -/
def blockid2sector (block_id : ℕ) (I : Inode) : FsM UInt32 :=
  if h : block_id < DIRECT_BLOCK_NUM then pure (I.blocks ⟨block_id, lt_of_direct h⟩)
  else if block_id < DIRECT_BLOCK_NUM + NBLOCK_LV1 then
    if I.blocks 7 = 0 then pure 0
    else readWord (I.blocks 7) (block_id - DIRECT_BLOCK_NUM)
  else if block_id < DIRECT_BLOCK_NUM + NBLOCK_LV1 + NBLOCK_LV2 then
    let index := block_id - DIRECT_BLOCK_NUM - NBLOCK_LV1
    if I.blocks 8 = 0 then pure 0
    else do
      let lv1 ← readWord (I.blocks 8) (index / NBLOCK_LV1)
      if lv1 = 0 then pure 0
      else readWord lv1 (index % NBLOCK_LV1)
  else if block_id < DIRECT_BLOCK_NUM + NBLOCK_LV1 + NBLOCK_LV2 + NBLOCK_LV3 then
    let index := block_id - DIRECT_BLOCK_NUM - NBLOCK_LV1 - NBLOCK_LV2
    if I.blocks 9 = 0 then pure 0
    else do
      let lv2 ← readWord (I.blocks 9) (index / NBLOCK_LV2)
      if lv2 = 0 then pure 0
      else do
        let lv1 ← readWord lv2 ((index - index / NBLOCK_LV2 * NBLOCK_LV2) / NBLOCK_LV1)
        if lv1 = 0 then pure 0
        else readWord lv1 (index % NBLOCK_LV1)
  else pure (UInt32.ofNat FAIL)

/-- `inode_buffer[k].blocks[j] = find_free_block()`. -/
def allocTop (k : ℕ) (j : Fin 10) : FsM Unit := do
  let b ← find_free_block
  let I ← inodeBuf k
  setInodeBuf k { I with blocks := Function.update I.blocks j (UInt32.ofNat b) }

/-- Allocate `inode_buffer[k].blocks[j]` if it is 0, and return it. -/
def needTop (k : ℕ) (j : Fin 10) : FsM UInt32 := do
  let I ← inodeBuf k
  ifThen (I.blocks j = 0) (allocTop k j)
  let I ← inodeBuf k
  pure (I.blocks j)

/-- A new block, entered as word `i` of the index block at `sec`, which is loaded into
`rdata_buffer` and written back. -/
def allocWord (sec : UInt32) (i : ℕ) : FsM Unit := do
  let b ← find_free_block
  bread .rdata_buffer BLOCK_SECTORS sec.toNat
  setRword i (UInt32.ofNat b)
  bwrite .rdata_buffer BLOCK_SECTORS sec.toNat

/-- Load the index block at `sec`, allocate its word `i` if that is 0, and return the word. -/
def needWord (sec : UInt32) (i : ℕ) : FsM UInt32 := do
  let w ← readWord sec i
  ifThen (w = 0) (allocWord sec i)
  rword i

/-- `alloc_inode_block`, for the inode at `inode_buffer[k]`. -/
def alloc_inode_block (block_idx k : ℕ) : FsM ℤ :=
  if h : block_idx < DIRECT_BLOCK_NUM then do
    allocTop k ⟨block_idx, lt_of_direct h⟩
    pure 0
  else if block_idx < DIRECT_BLOCK_NUM + NBLOCK_LV1 then do
    let lv1 ← needTop k 7
    allocWord lv1 (block_idx - DIRECT_BLOCK_NUM)
    pure 0
  else if block_idx < DIRECT_BLOCK_NUM + NBLOCK_LV1 + NBLOCK_LV2 then do
    let index := block_idx - DIRECT_BLOCK_NUM - NBLOCK_LV1
    let lv2 ← needTop k 8
    let lv1 ← needWord lv2 (index / NBLOCK_LV1)
    allocWord lv1 (index % NBLOCK_LV1)
    pure 0
  else if block_idx < DIRECT_BLOCK_NUM + NBLOCK_LV1 + NBLOCK_LV2 + NBLOCK_LV3 then do
    let index := block_idx - DIRECT_BLOCK_NUM - NBLOCK_LV1 - NBLOCK_LV2
    let lv3 ← needTop k 9
    let lv2 ← needWord lv3 (index / NBLOCK_LV2)
    let lv1 ← needWord lv2 ((index - index / NBLOCK_LV2 * NBLOCK_LV2) / NBLOCK_LV1)
    allocWord lv1 (index % NBLOCK_LV1)
    pure 0
  else pure (-1)

/-! ### Directories -/

/-- The components of a path before the first slash and after it. -/
def component (path : List UInt8) : List UInt8 × List UInt8 :=
  (path.takeWhile (· ≠ 47), (path.dropWhile (· ≠ 47)).tail)

/-- `parse_path`: the first three components of a path. `none` when a component does not fit
into its buffer of `MAX_PATHNAME_LEN` bytes. -/
def parse_path (path : List UInt8) : Option (List UInt8 × List UInt8 × List UInt8) :=
  let (dir1, rest1) := component path
  let (dir2, rest2) := component rest1
  let (dir3, _) := component rest2
  if dir1.length < MAX_PATHNAME_LEN ∧ dir2.length < MAX_PATHNAME_LEN ∧ dir3.length < MAX_PATHNAME_LEN then
    some (dir1, dir2, dir3)
  else none

/-- Load the block of a directory and look an entry up by its name. -/
def lookup (blk : UInt32) (name : List UInt8) : FsM (Option Dentry) := do
  bread .dentry_buffer BLOCK_SECTORS blk.toNat
  let d ← dentries
  pure (((List.range NUM_DENTRIES).find? fun j => (d j).str = name).map d)

/-- Load the inode `ino` into `inode_buffer`. -/
def loadInode (ino : UInt32) : FsM Inode := do
  bread .inode_buffer 1 (inodeidx2sector ino)
  inodeBuf (inodeidx2offset ino)

/-- `find_inode(path, parent)`. -/
def find_inode (path : CString) (parent : Inode) : FsM (Option InodePtr) :=
  if path.chars = [] then pure (some .wd)
  else match parse_path path.chars with
    | none => stop
    | some (dir1, dir2, dir3) => do
      match ← lookup (parent.blocks 0) dir1 with
      | none => pure none
      | some e1 => do
        let I1 ← loadInode e1.ino
        if dir2 = [] then pure (some (.buf (inodeidx2offset e1.ino)))
        else do
          match ← lookup (I1.blocks 0) dir2 with
          | none => pure none
          | some e2 => do
            let I2 ← loadInode e2.ino
            if dir3 = [] then pure (some (.buf (inodeidx2offset e2.ino)))
            else do
              match ← lookup (I2.blocks 0) dir3 with
              | none => pure none
              | some e3 => do
                let _ ← loadInode e3.ino
                pure (some (.buf (inodeidx2offset e3.ino)))

/-- `find_inode(path, &wd_inode)`. -/
def findFromWd (path : CString) : FsM (Option InodePtr) := do
  let wd ← wdInode
  find_inode path wd

/-- The lines of `do_ls` with details: every entry's inode is looked up by the entry's name, which overwrites
`dentry_buffer`, and must be there. -/
def listDetails (I : Inode) (j : ℕ) : FsM Unit := do
  let d ← dentries
  ifThen ((d j).used) do
    match ← find_inode (d j).string I with
    | none => stop
    | some _ => pure ()

/-- `do_ls`. -/
def do_ls (path : CString) (option : ℤ) : FsM ℤ := do
  match ← findFromWd path with
  | none => pure (-1)
  | some p => do
    let I ← deref p
    if I.type ≠ IT_DIR then pure (-1)
    else do
      bread .dentry_buffer BLOCK_SECTORS (I.blocks 0).toNat
      ifThen (option ≠ 0) ((List.range NUM_DENTRIES).forM (listDetails I))
      pure 0

/-- `nest_pwd`: the texts that are printed, one after the other. The recursion follows the entries `..`;
`fuel` bounds its depth. -/
def nest_pwd : ℕ → Inode → FsM (List (List UInt8))
  | 0, _ => stop
  | fuel + 1, dir =>
    if dir.ino = 0 then pure [[47]]
    else do
      bread .dentry_buffer BLOCK_SECTORS (dir.blocks 0).toNat
      let d ← dentries
      let parent ← loadInode (d 1).ino
      let out ← nest_pwd fuel parent
      bread .dentry_buffer BLOCK_SECTORS (parent.blocks 0).toNat
      let d ← dentries
      match (List.range NUM_DENTRIES).find? fun j => (d j).ino = dir.ino with
      | none => pure out
      | some j => pure (out ++ [(d j).str ++ [47]])

/-- `do_pwd`, with the texts that are printed. -/
def do_pwd : FsM (ℤ × List (List UInt8)) := do
  let wd ← wdInode
  let out ← nest_pwd NUM_INODES wd
  pure (0, out ++ [[10]])

/-- Write `inode_buffer[…] = I` back to the inode's own sector. -/
def storeInode (I : Inode) : FsM Unit := do
  bread .inode_buffer 1 (inodeidx2sector I.ino)
  setInodeBuf (inodeidx2offset I.ino) I
  bwrite .inode_buffer 1 (inodeidx2sector I.ino)

/-- Update `wd_inode` and write it back. -/
def updateWd (f : Inode → UInt32 → Inode) : FsM Unit := do
  let now ← get_timer
  let wd ← wdInode
  setWd (f wd now)
  storeInode (f wd now)

/-- `do_cd`. -/
def do_cd (path : CString) : FsM ℤ := do
  match ← findFromWd path with
  | none => pure (-1)
  | some p => do
    let I ← deref p
    if I.type ≠ IT_DIR then pure (-1)
    else do
      setWd I
      pure 0

/-- A new inode, entered at `inode_buffer[…]` and written to its sector. -/
def createInode (inode_idx : ℕ) (type : UInt8) (size : UInt32) (block : UInt32) : FsM Unit := do
  let ino := UInt32.ofNat inode_idx
  bread .inode_buffer 1 (inodeidx2sector ino)
  let now ← get_timer
  setInodeBuf (inodeidx2offset ino)
    ⟨O_RDWR, type, 1, ino, size, now, now, now, fun k => if k = 0 then block else 0⟩
  bwrite .inode_buffer 1 (inodeidx2sector ino)

/-- The block of a new directory: the entries `.` and `..`. -/
def writeDots (ino parent : UInt32) (block : ℕ) : FsM Unit := do
  bzero .dentry_buffer
  setDentryBuf 0 ⟨(Dentry.zero.strcpy [46]).name, IT_DIR, ino⟩
  setDentryBuf 1 ⟨(Dentry.zero.strcpy [46, 46]).name, IT_DIR, parent⟩
  bwrite .dentry_buffer BLOCK_SECTORS block

/-- `do_mkdir`. -/
def do_mkdir (path : CString) : FsM ℤ :=
  if MAX_PATHNAME_LEN ≤ path.chars.length then pure (-1)
  else do
    let wd ← wdInode
    let wdBlock := (wd.blocks 0).toNat
    bread .dentry_buffer BLOCK_SECTORS wdBlock
    let d ← dentries
    if (List.range NUM_DENTRIES).any fun j => (d j).str = path.chars then pure (-1)
    else do
      let inode_idx ← find_free_inode
      if inode_idx = FAIL then pure (-1)
      else do
        let new_block ← find_free_block
        if new_block = FAIL then pure (-1)
        else do
          createInode inode_idx IT_DIR 64 (UInt32.ofNat new_block)
          bread .dentry_buffer BLOCK_SECTORS wdBlock
          let d ← dentries
          match (List.range NUM_DENTRIES).find? fun j => !(d j).used with
          | none => pure (-1)
          | some j => do
            setDentryBuf j ⟨((d j).strcpy path.chars).name, IT_DIR, UInt32.ofNat inode_idx⟩
            bwrite .dentry_buffer BLOCK_SECTORS wdBlock
            updateWd fun I now => { I with size := I.size + 32, mtime := now, nlink := I.nlink + 1 }
            let wd ← wdInode
            writeDots (UInt32.ofNat inode_idx) wd.ino new_block
            pure 0

/-- `nest_rmdir`. The recursion follows directory entries; `fuel` bounds its depth. -/
def nest_rmdir : ℕ → Inode → FsM Unit
  | 0, _ => stop
  | fuel + 1, dir => (List.range' 2 (NUM_DENTRIES - 2)).forM fun j => do
    bread .dentry_buffer BLOCK_SECTORS (dir.blocks 0).toNat
    let d ← dentries
    if (d j).used then do
      let child ← loadInode (d j).ino
      if child.type = IT_DIR then do
        nest_rmdir fuel child
        free_inode child.ino
      else if child.nlink - 1 = 0 then free_inode child.ino
      else storeInode { child with nlink := child.nlink - 1 }
    else pure ()

/-- Clear the first entry of the working directory's block that refers to `ino`. -/
def clearEntry (wdBlock : ℕ) (ino : UInt32) : FsM Unit := do
  let d ← dentries
  match (List.range NUM_DENTRIES).find? fun j => (d j).ino = ino with
  | none => pure ()
  | some j => do
    setDentryBuf j ⟨Function.update (d j).name 0 0, 0, 0⟩
    bwrite .dentry_buffer BLOCK_SECTORS wdBlock

/-- `do_rmdir`. The pointer into `inode_buffer` is followed again after the buffer has been
reloaded, as in the source. -/
def do_rmdir (path : CString) : FsM ℤ := do
  let p ← findFromWd path
  if path.chars = [46] ∨ path.chars = [46, 46] then pure (-1)
  else match p with
    | none => pure (-1)
    | some p => do
      let I ← deref p
      if I.type ≠ IT_DIR then pure (-1)
      else if I.nlink ≠ 1 then pure (-1)
      else do
        nest_rmdir NUM_INODES I
        updateWd fun I now => { I with mtime := now, nlink := I.nlink - 1 }
        let wd ← wdInode
        bread .dentry_buffer BLOCK_SECTORS (wd.blocks 0).toNat
        let I ← deref p
        clearEntry (wd.blocks 0).toNat I.ino
        updateWd fun I now => { I with size := I.size - 32, mtime := now, nlink := I.nlink - 1 }
        let I ← deref p
        free_inode I.ino
        pure 0

/-- Enter a file into the first free entry of a directory's block. -/
def addEntry (blk : UInt32) (name : List UInt8) (ino : UInt32) : FsM Unit := do
  bread .dentry_buffer BLOCK_SECTORS blk.toNat
  let d ← dentries
  match (List.range NUM_DENTRIES).find? fun j => (d j).ino = 0 ∧ !(d j).used with
  | none => pure ()
  | some j => do
    setDentryBuf j ⟨((d j).strcpy name).name, IT_FILE, ino⟩
    bwrite .dentry_buffer BLOCK_SECTORS blk.toNat

/-- `add_file_dentry`. -/
def add_file_dentry (parent : Inode) (path : CString) (ino : UInt32) : FsM Unit :=
  match parse_path path.chars with
  | none => stop
  | some (dir1, dir2, dir3) =>
    if dir2 = [] then addEntry (parent.blocks 0) dir1 ino
    else do
      match ← lookup (parent.blocks 0) dir1 with
      | none => pure ()
      | some e1 =>
        if e1.type ≠ IT_DIR then pure ()
        else do
          let I1 ← loadInode e1.ino
          if dir3 = [] then addEntry (I1.blocks 0) dir2 ino
          else do
            match ← lookup (I1.blocks 0) dir2 with
            | none => pure ()
            | some e2 =>
              if e2.type ≠ IT_DIR then pure ()
              else do
                let I2 ← loadInode e2.ino
                addEntry (I2.blocks 0) dir3 ino

/-- `do_ln`. -/
def do_ln (src_path dst_path : CString) : FsM ℤ := do
  match ← findFromWd src_path with
  | none => pure (-1)
  | some p => do
    let I ← deref p
    if I.type = IT_DIR then pure (-1)
    else do
      let wd ← wdInode
      add_file_dentry wd dst_path I.ino
      let J ← loadInode I.ino
      setInodeBuf (inodeidx2offset I.ino) { J with nlink := J.nlink + 1 }
      bwrite .inode_buffer 1 (inodeidx2sector I.ino)
      pure 0

/-- `do_rm`. -/
def do_rm (path : CString) : FsM ℤ := do
  match ← findFromWd path with
  | none => pure (-1)
  | some p => do
    let I ← deref p
    if I.type = IT_DIR then pure (-1)
    else do
      let wd ← wdInode
      bread .dentry_buffer BLOCK_SECTORS (wd.blocks 0).toNat
      clearEntry (wd.blocks 0).toNat I.ino
      updateWd fun I now => { I with size := I.size - 32, mtime := now, nlink := I.nlink - 1 }
      if I.nlink - 1 = 0 then free_inode I.ino
      else storeInode { I with nlink := I.nlink - 1 }
      pure 0

/-- `do_touch`. The entry is looked for in `dentry_buffer` as the name check left it. -/
def do_touch (path : CString) : FsM ℤ :=
  if MAX_PATHNAME_LEN ≤ path.chars.length then pure (-1)
  else do
    let wd ← wdInode
    let wdBlock := (wd.blocks 0).toNat
    bread .dentry_buffer BLOCK_SECTORS wdBlock
    let d ← dentries
    if (List.range NUM_DENTRIES).any fun j => (d j).str = path.chars then pure (-1)
    else do
      let inode_idx ← find_free_inode
      if inode_idx = FAIL then pure (-1)
      else do
        createInode inode_idx IT_FILE 0 0
        let d ← dentries
        match (List.range NUM_DENTRIES).find? fun j => (d j).ino = 0 ∧ !(d j).used with
        | none => pure (-1)
        | some j => do
          setDentryBuf j ⟨((d j).strcpy path.chars).name, IT_FILE, UInt32.ofNat inode_idx⟩
          bwrite .dentry_buffer BLOCK_SECTORS wdBlock
          updateWd fun I now => { I with size := I.size + 32, mtime := now, nlink := I.nlink + 1 }
          pure 0

/-! ### Files -/

/-- The index `fd` of `fdesc_array`, if it is one. -/
def fdIndex (fd : ℤ) : Option (Fin NUM_FDESCS) :=
  if h : 0 ≤ fd ∧ fd < NUM_FDESCS then some ⟨fd.toNat, by omega⟩ else none

/-- Assign a descriptor. -/
def setFdesc (i : Fin NUM_FDESCS) (f : Fdesc) : FsM Unit :=
  modify fun s => { s with fdesc_array := Function.update s.fdesc_array i f }

/-- `do_open`. -/
def do_open (path : CString) (mode : ℤ) : FsM ℤ := do
  match ← findFromWd path with
  | none => pure (-1)
  | some p => do
    let I ← deref p
    if I.type = IT_DIR then pure (-1)
    else do
      let fds ← fdescs
      match (List.finRange NUM_FDESCS).find? fun i => (fds i).valid = 0 with
      | none => pure (-1)
      | some i => do
        setFdesc i ⟨UInt8.ofInt mode, 1, I.ino, 0, 0⟩
        pure (i : ℕ)

/-- `do_close`. -/
def do_close (fd : ℤ) : FsM ℤ :=
  match fdIndex fd with
  | none => stop
  | some i => do
    let fds ← fdescs
    setFdesc i { fds i with valid := 0 }
    pure 0

/-- `do_lseek`; `whence` is 0, 1 or 2 for `SEEK_SET`, `SEEK_CUR` and `SEEK_END`. -/
def do_lseek (fd offset whence : ℤ) : FsM ℤ :=
  match fdIndex fd with
  | none => pure (-1)
  | some i => do
    let fds ← fdescs
    let f := fds i
    if f.valid = 0 then pure (-1)
    else do
      let I ← loadInode f.ino
      let off := UInt32.ofInt offset
      if whence = 0 then do
        setFdesc i { f with read_pos := off, write_pos := off }
        pure 0
      else if whence = 1 then do
        setFdesc i { f with read_pos := f.read_pos + off, write_pos := f.write_pos + off }
        pure 0
      else if whence = 2 then do
        setFdesc i { f with read_pos := I.size + off, write_pos := I.size + off }
        pure 0
      else pure (-1)

/-- The loop of `do_read`: `n` bytes from the descriptor's `read_pos` on. -/
def readLoop (i : Fin NUM_FDESCS) (I : Inode) : ℕ → FsM (List UInt8)
  | 0 => pure []
  | n + 1 => do
    let fds ← fdescs
    let pos := (fds i).read_pos.toNat
    ifThen (pos % BLOCK_SIZE = 0) do
      let sec ← blockid2sector (pos / BLOCK_SIZE) I
      bread .rdata_buffer BLOCK_SECTORS sec.toNat
    let c ← rbyte (pos % BLOCK_SIZE)
    setFdesc i { fds i with read_pos := (fds i).read_pos + 1 }
    let cs ← readLoop i I n
    pure (c :: cs)

/-- `do_read`: the value returned and the bytes stored at `buff`. -/
def do_read (fd length : ℤ) : FsM (ℤ × List UInt8) :=
  match fdIndex fd with
  | none => pure (-1, [])
  | some i => do
    let fds ← fdescs
    let f := fds i
    if f.valid = 0 then pure (-1, [])
    else if f.mode = O_WRONLY then pure (-1, [])
    else do
      let I ← loadInode f.ino
      let sec ← blockid2sector (f.read_pos.toNat / BLOCK_SIZE) I
      bread .rdata_buffer 1 sec.toNat
      let cs ← readLoop i I length.toNat
      let now ← get_timer
      setInodeBuf (inodeidx2offset f.ino) { I with atime := now }
      bwrite .inode_buffer 1 (inodeidx2sector f.ino)
      pure (length, cs)

/-- The sector of a block of the file at `inode_buffer[k]`, allocated if it is missing. -/
def needBlock (block_id k : ℕ) : FsM UInt32 := do
  let I ← inodeBuf k
  let sec ← blockid2sector block_id I
  if sec = 0 then do
    let _ ← alloc_inode_block block_id k
    let I ← inodeBuf k
    blockid2sector block_id I
  else pure sec

/-- Write `wdata_buffer` to the block that holds position `pos`. -/
def flushData (pos k : ℕ) : FsM Unit := do
  let I ← inodeBuf k
  let sec ← blockid2sector (pos / BLOCK_SIZE) I
  bwrite .wdata_buffer BLOCK_SECTORS sec.toNat

/-- The loop of `do_write`, for the file at `inode_buffer[k]`. -/
def writeLoop (i : Fin NUM_FDESCS) (k : ℕ) : List UInt8 → FsM Unit
  | [] => pure ()
  | c :: cs => do
    let fds ← fdescs
    let pos := (fds i).write_pos.toNat
    ifThen (pos % BLOCK_SIZE = 0) do
      let sec ← needBlock (pos / BLOCK_SIZE) k
      bread .wdata_buffer BLOCK_SECTORS sec.toNat
    setWbyte (pos % BLOCK_SIZE) c
    ifThen (pos % BLOCK_SIZE = BLOCK_SIZE - 1) (flushData pos k)
    setFdesc i { fds i with write_pos := (fds i).write_pos + 1 }
    writeLoop i k cs

/-- `do_write`. The descriptor is not checked, and the inode is written to eight sectors. -/
def do_write (fd : ℤ) (buff : List UInt8) : FsM ℤ :=
  match fdIndex fd with
  | none => stop
  | some i => do
    let fds ← fdescs
    let inode_idx := (fds i).ino
    let k := inodeidx2offset inode_idx
    bread .inode_buffer 1 (inodeidx2sector inode_idx)
    let sec ← needBlock ((fds i).write_pos.toNat / BLOCK_SIZE) k
    bread .wdata_buffer BLOCK_SECTORS sec.toNat
    writeLoop i k buff
    let fds ← fdescs
    let pos := (fds i).write_pos
    ifThen (pos.toNat % BLOCK_SIZE ≠ 0) (flushData pos.toNat k)
    let I ← inodeBuf k
    let now ← get_timer
    setInodeBuf k { I with size := if I.size < pos then pos else I.size, mtime := now, atime := now }
    bwrite .inode_buffer BLOCK_SECTORS (inodeidx2sector inode_idx)
    pure buff.length

/-! ### Formatting -/

/-! The literals of `init_bcache_policy` hold no zero. -/

theorem proc_nonzero : 0 ∉ "proc".toList.map fun c => UInt8.ofNat c.toNat := by decide

theorem sys_nonzero : 0 ∉ "sys".toList.map fun c => UInt8.ofNat c.toNat := by decide

theorem vm_nonzero : 0 ∉ "vm".toList.map fun c => UInt8.ofNat c.toNat := by decide

theorem line1_nonzero : 0 ∉ "page_cache_policy = write back\n".toList.map fun c => UInt8.ofNat c.toNat := by decide

theorem line2_nonzero : 0 ∉ "write_back_freq = 30\n".toList.map fun c => UInt8.ofNat c.toNat := by decide

theorem up_nonzero : 0 ∉ "../..".toList.map fun c => UInt8.ofNat c.toNat := by decide

/-- `init_bcache_policy`: create `proc/sys/vm`. -/
def init_bcache_policy : FsM Unit := do
  let _ ← do_mkdir (.ofString "proc" proc_nonzero)
  let _ ← do_cd (.ofString "proc" proc_nonzero)
  let _ ← do_mkdir (.ofString "sys" sys_nonzero)
  let _ ← do_cd (.ofString "sys" sys_nonzero)
  let _ ← do_touch (.ofString "vm" vm_nonzero)
  let fd ← do_open (.ofString "vm" vm_nonzero) 3
  let _ ← do_write fd (CString.ofString "page_cache_policy = write back\n" line1_nonzero).chars
  let _ ← do_write fd ((CString.ofString "write_back_freq = 30\n" line2_nonzero).chars ++ [0])
  let _ ← do_close fd
  let _ ← do_cd (.ofString "../.." up_nonzero)
  perform (Io.policy .writeBack)
  modify fun s => { s with write_back_freq := 30 }

/-- The fields of the superblock, in order. -/
def superblock : List UInt32 :=
  [SUPERBLOCK_MAGIC, .ofNat FS_START_SECTOR, .ofNat BLOCK_MAP_OFFSET, .ofNat INODE_MAP_OFFSET, .ofNat INODE_OFFSET,
    .ofNat DATA_OFFSET, .ofNat FS_NUM_SECTORS, .ofNat BLOCK_MAP_SIZE, .ofNat INODE_MAP_SIZE, .ofNat INODE_SIZE,
    .ofNat DATA_SIZE, 64, 32]

/-- Store words one after the other. -/
def putWords (m : Bytes) (o : ℕ) : List UInt32 → Bytes
  | [] => m
  | v :: vs => putWords (put32 m o v) (o + 4) vs

/-- `do_mkfs`, after its call of `init_bcache`. -/
def do_mkfs : FsM ℤ := do
  let s ← get
  setBuf .superblock_buffer (putWords (s.buf .superblock_buffer) 0 superblock)
  bwrite .superblock_buffer 1 FS_START_SECTOR
  bzero .block_map
  bwrite .block_map BLOCK_MAP_SIZE BLOCK_MAP
  bzero .inode_map
  bwrite .inode_map INODE_MAP_SIZE INODE_MAP
  let root_inode_idx ← find_free_inode
  let ino := UInt32.ofNat root_inode_idx
  modify fun s => { s with root_ino := ino }
  bzero .inode_buffer
  let now ← get_timer
  let block ← find_free_block
  let root : Inode := ⟨O_RDWR, IT_DIR, 1, ino, 64, now, now, now, fun k => if k = 0 then UInt32.ofNat block else 0⟩
  setInodeBuf (inodeidx2offset ino) root
  bwrite .inode_buffer 1 (inodeidx2sector ino)
  setWd root
  writeDots ino ino block
  init_bcache_policy
  pure 0

end Fs

end OsLab
