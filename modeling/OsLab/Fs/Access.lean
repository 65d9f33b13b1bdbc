import OsLab.Fs.Volume

/-!
# Inodes and bitmaps on the volume

What the functions that load and store inodes, and those that take and give back inode numbers
and blocks, do to a view.
-/

namespace OsLab

open Lib ProgM Bytes

variable {α β : Type} {V V' : View}

/-! ### Inodes -/

/-- The sector of inode `i`, as it lies in `inode_buffer` after it is read. -/
def Vol.loadInodes (V : Vol) (i : ℕ) : ℕ → Inode := fun k => if k < 8 then V.inode (i / 8 * 8 + k) else Inode.zero

theorem Vol.loadInodes_mod (V : Vol) (i : ℕ) : V.loadInodes i (i % 8) = V.inode i := by
  rw [loadInodes, if_pos (by omega), show i / 8 * 8 + i % 8 = i by omega]

theorem Does.breadInode {i : ℕ} (hi : i < NUM_INODES) : Does V (Fs.bread .inode_buffer 1 (inodeSector i)) ()
    { V with ibuf := V.loadInodes i } := by
  rintro st rfl
  have hs : inodeSector i < 2 ^ 32 := by
    have : FS_START_SECTOR + INODE_OFFSET = 290 := by decide
    unfold inodeSector
    unfold NUM_INODES at hi
    omega
  refine ⟨_, exec_bread _ (by decide) (by omega) st, ?_⟩
  have hload : ∀ k, (if k < 8 then getInode ((st.mem.buf .inode_buffer).put 0 (st.dev (inodeSector i))) (64 * k)
      else Inode.zero) = (View.of st).toVol.loadInodes i k := by
    intro k
    rw [Vol.loadInodes]
    by_cases hk : k < 8
    · rw [if_pos hk, if_pos hk]
      have hik : i / 8 * 8 + k < NUM_INODES := by
        unfold NUM_INODES at hi ⊢
        omega
      simp only [View.of, if_pos hik]
      have hsame : inodeSector (i / 8 * 8 + k) = inodeSector i := by
        unfold inodeSector
        omega
      rw [hsame, show (i / 8 * 8 + k) % 8 = k by omega]
      refine getInode_congr fun x h1 h2 => ?_
      rw [ofSector, put_of_lt _ _ (by unfold SECTOR_SIZE; omega), put_of_lt _ _ (by unfold SECTOR_SIZE; omega)]
    · rw [if_neg hk, if_neg hk]
  exact congrArg (fun f => { View.of st with ibuf := f }) (funext hload)

/-- The inodes after `inode_buffer` is written to `n` sectors from that of inode `i` on. -/
def View.storeInodes (V : View) (n i : ℕ) : ℕ → Inode := fun j =>
  if j < NUM_INODES ∧ i / 8 ≤ j / 8 ∧ j / 8 < i / 8 + n then V.ibuf (j % 8) else V.inode j

theorem Does.bwriteInode {n i : ℕ} (hn : n ≤ 8) (hi : i < NUM_INODES) :
    Does V (Fs.bwrite .inode_buffer n (inodeSector i)) ()
    { V with inode := V.storeInodes n i } := by
  rintro st rfl
  have h290 : FS_START_SECTOR + INODE_OFFSET = 290 := by decide
  have h801 : FS_START_SECTOR + FS_NUM_SECTORS = 1048832 := by decide
  have hi' : inodeSector i < 802 ∧ 290 ≤ inodeSector i := by
    unfold inodeSector
    unfold NUM_INODES at hi
    omega
  have hstart : FS_START_SECTOR ≤ inodeSector i := le_trans (by decide) hi'.2
  refine ⟨_, exec_bwrite _ hstart (by omega) st, ?_⟩
  have happ : ∀ x, st.dev.bwrite (st.mem.buf .inode_buffer) n (inodeSector i) x =
      if inodeSector i ≤ x ∧ x < inodeSector i + n then (st.mem.buf .inode_buffer).sector 0 else st.dev x :=
    fun x => Disk.bwrite_apply _ _ (by omega) x
  have hinode : ∀ j, (if j < NUM_INODES then
      getInode (ofSector (st.dev.bwrite (st.mem.buf .inode_buffer) n (inodeSector i) (inodeSector j))) (64 * (j % 8))
      else Inode.zero) = (View.of st).storeInodes n i j := by
    intro j
    rw [View.storeInodes, happ]
    by_cases hj : j < NUM_INODES
    · rw [if_pos hj]
      by_cases hin : i / 8 ≤ j / 8 ∧ j / 8 < i / 8 + n
      · rw [if_pos (by unfold inodeSector; omega), if_pos ⟨hj, hin⟩]
        simp only [View.of, if_pos (show j % 8 < 8 by omega)]
        exact getInode_congr fun x h1 h2 => ofSector_sector_of_lt _ (by unfold SECTOR_SIZE; omega)
      · rw [if_neg (by unfold inodeSector; omega), if_neg (fun h => hin h.2)]
        simp only [View.of, if_pos hj]
    · rw [if_neg hj, if_neg (fun h => hj h.1)]
      simp only [View.of, if_neg hj]
  have hlow : ∀ x < 290, st.dev.bwrite (st.mem.buf .inode_buffer) n (inodeSector i) x = st.dev x :=
    fun x hx => by rw [happ, if_neg (by omega)]
  have hhigh : ∀ x, 809 ≤ x → st.dev.bwrite (st.mem.buf .inode_buffer) n (inodeSector i) x = st.dev x :=
    fun x hx => by rw [happ, if_neg (by omega)]
  ext : 1
  · simp only [View.of]
    rw [hlow _ (by decide)]
  · simp only [View.of]
    rw [hlow _ (by decide)]
  · exact funext hinode
  · simp only [View.of]
    funext b
    rw [hhigh _ (by rw [blockSector, DATA_eq]; omega)]
  · simp only [View.of]
    funext b
    split
    · rfl
    · rw [hhigh _ (by rw [blockSector, DATA_eq]; omega)]
  case boot =>
    simp only [View.of]
    funext s
    split
    · next hs => rw [hlow s (Nat.lt_of_lt_of_le hs (by decide))]
    · rfl
  all_goals rfl

theorem inodeidx2sector_eq {ino : UInt32} (h : ino.toNat < NUM_INODES) :
    Fs.inodeidx2sector ino = inodeSector ino.toNat := by
  have h290 : FS_START_SECTOR + INODE_OFFSET = 290 := by decide
  unfold NUM_INODES at h
  rw [Fs.inodeidx2sector, inodeSector, h290, SECTOR_SIZE]
  omega

theorem toNat_ino {i : ℕ} (h : i < NUM_INODES) : (UInt32.ofNat i).toNat = i := by
  unfold NUM_INODES at h
  rw [UInt32.toNat_ofNat', Nat.mod_eq_of_lt (by omega)]

theorem Does.loadInode {ino : UInt32} (h : ino.toNat < NUM_INODES) :
    Does V (Fs.loadInode ino) (V.inode ino.toNat) { V with ibuf := V.loadInodes ino.toNat } := by
  rw [Fs.loadInode, inodeidx2sector_eq h]
  refine (Does.breadInode h).bind ?_
  have := Does.inodeBuf (V := { V with ibuf := V.loadInodes ino.toNat }) (k := ino.toNat % 8) (by omega)
  dsimp only at this
  rwa [Vol.loadInodes_mod] at this

/-- Writing a loaded sector back with one inode changed changes that inode. -/
theorem View.storeInodes_update (V : View) (i : ℕ) (I : Inode) (hi : i < NUM_INODES) :
    View.storeInodes { V with ibuf := Function.update (V.loadInodes i) (i % 8) I } 1 i =
    Function.update V.inode i I := by
  funext j
  rw [View.storeInodes, Function.update_apply]
  dsimp only
  by_cases hj : j = i
  · rw [if_pos hj, if_pos ⟨hj ▸ hi, by omega⟩, hj, Function.update_self]
  · rw [if_neg hj]
    split
    · next h =>
      rw [Function.update_of_ne (by omega), Vol.loadInodes, if_pos (by omega), show i / 8 * 8 + j % 8 = j by omega]
    · rfl

theorem Does.storeInode {I : Inode} (h : I.ino.toNat < NUM_INODES) : Does V (Fs.storeInode I) ()
    { V with inode := Function.update V.inode I.ino.toNat I,
             ibuf := Function.update (V.loadInodes I.ino.toNat) (I.ino.toNat % 8) I } := by
  rw [Fs.storeInode, inodeidx2sector_eq h]
  refine (Does.breadInode h).bind ((Does.setInodeBuf (by unfold Fs.inodeidx2offset; omega) I).bind ?_)
  have := Does.bwriteInode (V := { V with ibuf := Function.update (V.loadInodes I.ino.toNat) (I.ino.toNat % 8) I })
    (n := 1) (by omega) h
  rwa [View.storeInodes_update V _ _ h] at this

/-- Update `wd_inode`, in memory and on the disk. -/
theorem Does.updateWd {f : Inode → UInt32 → Inode} (hf : (f V.wd (V.clock 0)).ino = V.wd.ino)
    (h : V.wd.ino.toNat < NUM_INODES) : Does V (Fs.updateWd f) ()
      { V with wd := f V.wd (V.clock 0), inode := Function.update V.inode V.wd.ino.toNat (f V.wd (V.clock 0)),
               ibuf := Function.update (V.loadInodes V.wd.ino.toNat) (V.wd.ino.toNat % 8) (f V.wd (V.clock 0)),
               clock := fun n => V.clock (n + 1) } := by
  refine Does.get_timer.bind (Does.wdInode.bind ((Does.setWd _).bind ?_))
  have := Does.storeInode (V := { V with wd := f V.wd (V.clock 0), clock := fun n => V.clock (n + 1) })
    (I := f V.wd (V.clock 0)) (by rw [hf]; exact h)
  rwa [hf] at this

/-- The inode `do_mkdir` and `do_touch` create. -/
def newInode (i : ℕ) (type : UInt8) (size block now : UInt32) : Inode :=
  ⟨O_RDWR, type, 1, UInt32.ofNat i, size, now, now, now, fun k => if k = 0 then block else 0⟩

theorem Does.createInode {i : ℕ} (hi : i < NUM_INODES) (type : UInt8) (size block : UInt32) :
    Does V (Fs.createInode i type size block) ()
      { V with inode := Function.update V.inode i (newInode i type size block (V.clock 0)),
               ibuf := Function.update (V.loadInodes i) (i % 8) (newInode i type size block (V.clock 0)),
               clock := fun n => V.clock (n + 1) } := by
  have h : (UInt32.ofNat i).toNat < NUM_INODES := by rwa [toNat_ino hi]
  rw [Fs.createInode, inodeidx2sector_eq h, Fs.inodeidx2offset, toNat_ino hi]
  refine (Does.breadInode hi).bind (Does.get_timer.bind ((Does.setInodeBuf (by omega) _).bind ?_))
  have := Does.bwriteInode (V := { V with
    ibuf := Function.update (V.loadInodes i) (i % 8) (newInode i type size block (V.clock 0)),
    clock := fun n => V.clock (n + 1) }) (n := 1) (by omega) hi
  have he := View.storeInodes_update { V with clock := fun n => V.clock (n + 1) } i
    (newInode i type size block (V.clock 0)) hi
  rwa [he] at this

/-! ### Bitmaps -/

theorem bit_put_of_lt (m : Bytes) (s : Sector) {i : ℕ} (h : i < NUM_INODES) :
    bit (m.put 0 s) i = bit (ofSector s) i := by
  have : i / 8 < SECTOR_SIZE := by
    unfold NUM_INODES at h
    unfold SECTOR_SIZE
    omega
  exact bit_congr (by rw [ofSector, put_of_lt _ _ this, put_of_lt _ _ this])

theorem bit_ofSector_of_le (s : Sector) {i : ℕ} (h : NUM_INODES ≤ i) : bit (ofSector s) i = false := by
  have : SECTOR_SIZE ≤ i / 8 := by
    unfold NUM_INODES at h
    unfold SECTOR_SIZE
    omega
  simp [bit, ofSector_of_le s this]

theorem bit_ofSector_sector (m : Bytes) {i : ℕ} (h : i < NUM_INODES) : bit (ofSector (m.sector 0)) i = bit m i := by
  have : i / 8 < SECTOR_SIZE := by
    unfold NUM_INODES at h
    unfold SECTOR_SIZE
    omega
  exact bit_congr (ofSector_sector_of_lt m this)

/-- What the inode map is after `inode_map` is written, whose bits below `NUM_INODES` are `f`. -/
theorem of_bwrite_imap (st : St) (f : ℕ → Bool) (hf : ∀ i < NUM_INODES, bit (st.mem.buf .inode_map) i = f i)
    (hf' : ∀ i, NUM_INODES ≤ i → f i = false) :
    View.of ⟨st.mem, st.dev.bwrite (st.mem.buf .inode_map) INODE_MAP_SIZE Fs.INODE_MAP⟩ =
    { View.of st with imap := f } := by
  have h289 : Fs.INODE_MAP = 289 := by decide
  have happ : ∀ x, st.dev.bwrite (st.mem.buf .inode_map) INODE_MAP_SIZE Fs.INODE_MAP x =
      if x = 289 then (st.mem.buf .inode_map).sector 0 else st.dev x := by
    intro x
    rw [Disk.bwrite_apply _ _ (by decide), h289, INODE_MAP_SIZE]
    simp only [show (289 ≤ x ∧ x < 289 + 1) ↔ x = 289 by omega]
  have hne : ∀ x, x ≠ 289 → st.dev.bwrite (st.mem.buf .inode_map) INODE_MAP_SIZE Fs.INODE_MAP x = st.dev x :=
    fun x hx => by rw [happ, if_neg hx]
  ext : 1
  · simp only [View.of]
    funext i
    rw [happ, if_pos h289]
    by_cases hi : i < NUM_INODES
    · rw [bit_ofSector_sector _ hi, hf i hi]
    · rw [bit_ofSector_of_le _ (by omega), hf' i (by omega)]
  · simp only [View.of]
    rw [hne _ (by decide)]
  · simp only [View.of]
    funext i
    have : FS_START_SECTOR + INODE_OFFSET = 290 := by decide
    rw [hne (inodeSector i) (by unfold inodeSector; omega)]
  · simp only [View.of]
    funext b
    rw [hne _ (by rw [blockSector, DATA_eq]; omega)]
  · simp only [View.of]
    funext b
    rw [hne _ (by rw [blockSector, DATA_eq]; omega)]
  case boot =>
    simp only [View.of]
    funext s
    split
    · next hs => rw [hne s (by unfold FS_START_SECTOR at hs; omega)]
    · rfl
  all_goals rfl

/-- What the block map is after `block_map` is written. -/
theorem of_bwrite_bmap (st : St) :
    View.of ⟨st.mem, st.dev.bwrite (st.mem.buf .block_map) BLOCK_MAP_SIZE Fs.BLOCK_MAP⟩ =
      { View.of st with bmap := bit (st.mem.buf .block_map) } := by
  have h257 : Fs.BLOCK_MAP = 257 := by decide
  have happ : ∀ x, st.dev.bwrite (st.mem.buf .block_map) BLOCK_MAP_SIZE Fs.BLOCK_MAP x =
      if 257 ≤ x ∧ x < 289 then (st.mem.buf .block_map).sector 0 else st.dev x := by
    intro x
    rw [Disk.bwrite_apply _ _ (by decide), h257, BLOCK_MAP_SIZE]
  have hne : ∀ x, 289 ≤ x → st.dev.bwrite (st.mem.buf .block_map) BLOCK_MAP_SIZE Fs.BLOCK_MAP x = st.dev x :=
    fun x hx => by rw [happ, if_neg (by omega)]
  ext : 1
  · simp only [View.of]
    rw [hne _ (by decide)]
  · simp only [View.of]
    rw [happ, if_pos (by decide), put_sector_self]
  · simp only [View.of]
    funext i
    have : FS_START_SECTOR + INODE_OFFSET = 290 := by decide
    rw [hne (inodeSector i) (by unfold inodeSector; omega)]
  · simp only [View.of]
    funext b
    rw [hne _ (by rw [blockSector, DATA_eq]; omega)]
  · simp only [View.of]
    funext b
    rw [hne _ (by rw [blockSector, DATA_eq]; omega)]
  case boot =>
    simp only [View.of]
    funext s
    split
    · next hs => rw [happ, if_neg (by unfold FS_START_SECTOR at hs; omega)]
    · rfl
  all_goals rfl

theorem imap_of_le (st : St) {i : ℕ} (h : NUM_INODES ≤ i) : (View.of st).imap i = false := bit_ofSector_of_le _ h

/-- The state after the inode map is read. -/
def readImap (st : St) : St :=
  { st with mem := { st.mem with
    buf := Function.update st.mem.buf .inode_map ((st.mem.buf .inode_map).put 0 (st.dev Fs.INODE_MAP)) } }

/-- The state after the block map is read. -/
def readBmap (st : St) : St :=
  { st with mem := { st.mem with
    buf := Function.update st.mem.buf .block_map ((st.mem.buf .block_map).put 0 (st.dev (Fs.BLOCK_MAP + 31))) } }

/-- The state after a buffer is assigned. -/
def setBufSt (st : St) (b : Buffer) (m : Bytes) : St :=
  { st with mem := { st.mem with buf := Function.update st.mem.buf b m } }

theorem exec_setBuf (st : St) (b : Buffer) (m : Bytes) :
    exec disk (Fs.setBuf b m) st = some ((), setBufSt st b m) := rfl

theorem exec_readImap (st : St) :
    exec disk (Fs.bread .inode_map INODE_MAP_SIZE Fs.INODE_MAP) st = some ((), readImap st) :=
  exec_bread _ (by decide) (by decide) st

theorem exec_readBmap (st : St) :
    exec disk (Fs.bread .block_map BLOCK_MAP_SIZE Fs.BLOCK_MAP) st = some ((), readBmap st) :=
  exec_bread _ (by decide) (by decide) st

theorem of_readImap (st : St) : View.of (readImap st) = View.of st := rfl

theorem of_readBmap (st : St) : View.of (readBmap st) = View.of st := by
  ext : 1
  · rfl
  · simp [View.of, readBmap]
  all_goals rfl

theorem bit_readBmap (st : St) : bit ((readBmap st).mem.buf .block_map) = (View.of st).bmap := by
  funext b
  simp [readBmap, View.of]

theorem bit_readImap (st : St) {i : ℕ} (h : i < NUM_INODES) :
    bit ((readImap st).mem.buf .inode_map) i = (View.of st).imap i := by
  simp [readImap, View.of, bit_put_of_lt _ _ h]

/-- Assigning and writing `inode_map`. -/
theorem exec_writeImap (st : St) (hst : View.of st = V) (m : Bytes)
    (f : ℕ → Bool) (hf : ∀ i < NUM_INODES, bit m i = f i)
    (hf' : ∀ i, NUM_INODES ≤ i → f i = false) :
    ∃ st', exec disk (Fs.bwrite .inode_map INODE_MAP_SIZE Fs.INODE_MAP) (setBufSt st .inode_map m) = some ((), st') ∧
      View.of st' = { V with imap := f } := by
  subst hst
  exact ⟨_, exec_bwrite _ (by decide) (by decide) _,
    of_bwrite_imap (setBufSt st .inode_map m) f (by simpa [setBufSt] using hf) hf'⟩

/-- Assigning and writing `block_map`. -/
theorem exec_writeBmap {st : St} (hst : View.of st = V) (m : Bytes) (f : ℕ → Bool) (hf : ∀ b, bit m b = f b) :
    ∃ st', exec disk (Fs.bwrite .block_map BLOCK_MAP_SIZE Fs.BLOCK_MAP) (setBufSt st .block_map m) = some ((), st') ∧
      View.of st' = { V with bmap := f } := by
  subst hst
  refine ⟨_, exec_bwrite _ (by decide) (by decide) _, (of_bwrite_bmap (setBufSt st .block_map m)).trans ?_⟩
  obtain rfl : bit m = f := funext hf
  simp [setBufSt, View.of]

/-- The inode `find_free_inode` takes. -/
def Vol.freeInode (V : Vol) : Option ℕ := firstClear V.imap NUM_INODES

/-- The block `find_free_block` takes. -/
def Vol.freeBlock (V : Vol) : Option ℕ := firstClear V.bmap NUM_BLOCKS

theorem scan_readImap (st : St) : scan ((readImap st).mem.buf .inode_map) (INODE_MAP_SIZE * SECTOR_SIZE)
    (INODE_MAP_SIZE * SECTOR_SIZE * 8) = (View.of st).freeInode := by
  rw [scan_eq (by decide), Vol.freeInode, show INODE_MAP_SIZE * SECTOR_SIZE * 8 = NUM_INODES by decide]
  exact firstClear_congr fun i hi => bit_readImap st hi

theorem scan_readBmap (st : St) : scan ((readBmap st).mem.buf .block_map) (BLOCK_MAP_SIZE * SECTOR_SIZE)
    (DATA_SIZE / BLOCK_SECTORS) = (View.of st).freeBlock := by
  rw [scan_eq (by decide), Vol.freeBlock, bit_readBmap]
  rfl

theorem Does.find_free_inode_none (h : V.freeInode = none) : Does V Fs.find_free_inode FAIL V := by
  rintro st rfl
  refine ⟨readImap st, ?_, of_readImap st⟩
  have hs := (scan_readImap st).trans h
  simp only [Fs.find_free_inode, exec_bind, exec_readImap, Option.bind_some, exec_get, hs, exec_pure]

theorem Does.find_free_inode {i : ℕ} (h : V.freeInode = some i) :
    Does V Fs.find_free_inode i { V with imap := Function.update V.imap i true } := by
  intro st hst
  obtain ⟨hi, -, -⟩ := firstClear_eq_some.mp h
  obtain ⟨st', he, hst'⟩ := exec_writeImap (readImap st) hst (setBit ((readImap st).mem.buf .inode_map) i)
    (Function.update V.imap i true)
    (fun j hj => by
      rw [bit_setBit, bit_readImap st hj, hst, Function.update_apply]
      by_cases hji : j = i <;> simp [hji])
    (fun j hj => by rw [Function.update_of_ne (by omega), ← hst, imap_of_le st hj])
  refine ⟨st', ?_, hst'⟩
  have hs : scan _ _ _ = some i := (scan_readImap st).trans (hst ▸ h)
  simp only [Fs.find_free_inode, exec_bind, exec_readImap, Option.bind_some, exec_get, hs, exec_setBuf, he, exec_pure]

theorem Does.find_free_block_none (h : V.freeBlock = none) : Does V Fs.find_free_block FAIL V := by
  rintro st rfl
  refine ⟨readBmap st, ?_, of_readBmap st⟩
  have hs := (scan_readBmap st).trans h
  simp only [Fs.find_free_block, exec_bind, exec_readBmap, Option.bind_some, exec_get, hs, exec_pure]

/-- A volume with block `b` taken and cleared. -/
def Vol.takeBlock (V : Vol) (b : ℕ) : Vol :=
  { V.setBlock b fun _ => 0 with bmap := Function.update V.bmap b true }

theorem Does.find_free_block {b : ℕ} (h : V.freeBlock = some b) :
    Does V Fs.find_free_block (blockSector b) { V with toVol := V.takeBlock b, rbuf := fun _ => 0 } := by
  intro st hst
  obtain ⟨hb, -, -⟩ := firstClear_eq_some.mp h
  obtain ⟨st₁, he₁, hst₁⟩ := exec_writeBmap ((of_readBmap st).trans hst) (setBit ((readBmap st).mem.buf .block_map) b)
    (Function.update V.bmap b true)
    (fun j => by
      rw [bit_setBit, bit_readBmap, hst, Function.update_apply]
      by_cases hjb : j = b <;> simp [hjb])
  obtain ⟨st₂, he₂, hst₂⟩ := Does.bzeroRdata st₁ hst₁
  obtain ⟨st₃, he₃, hst₃⟩ := Does.bwriteRdata hb st₂ hst₂
  refine ⟨st₃, ?_, hst₃⟩
  have hs : scan _ _ _ = some b := (scan_readBmap st).trans (hst ▸ h)
  have hsec : b * BLOCK_SECTORS + Fs.DATA = blockSector b := by
    rw [BLOCK_SECTORS_eq, blockSector]
    omega
  simp only [Fs.find_free_block, exec_bind, exec_readBmap,
    Option.bind_some, exec_get, hs, exec_setBuf (readBmap st), he₁,
    he₂, hsec, he₃, exec_pure]

theorem Does.free_block {b : ℕ} (hb : b < NUM_BLOCKS) :
    Does V (Fs.free_block (blockSector b)) () { V with bmap := Function.update V.bmap b false } := by
  intro st hst
  obtain ⟨st', he, hst'⟩ := exec_writeBmap ((of_readBmap st).trans hst) (clearBit ((readBmap st).mem.buf .block_map) b)
    (Function.update V.bmap b false)
    (fun j => by
      rw [bit_clearBit, bit_readBmap, hst, Function.update_apply]
      by_cases hjb : j = b <;> simp [hjb])
  refine ⟨st', ?_, hst'⟩
  have hidx : (blockSector b - Fs.DATA) / BLOCK_SECTORS = b := by
    rw [BLOCK_SECTORS_eq, blockSector]
    omega
  have hle : ¬ blockSector b < Fs.DATA := by
    rw [blockSector]
    omega
  have hmap : ¬ BLOCK_MAP_SIZE * SECTOR_SIZE ≤ b / 8 := by
    rw [NUM_BLOCKS_eq] at hb
    rw [BLOCK_MAP_SIZE, SECTOR_SIZE]
    omega
  simp only [Fs.free_block, if_neg hle, exec_bind, exec_readBmap, Option.bind_some, hidx, if_neg hmap, exec_get,
    exec_setBuf, he]

/-- Clearing a bit of the inode map, as `free_inode` does at its end. -/
theorem Does.clearImap {i : ℕ} (hi : i < NUM_INODES) :
    Does V (do
      Fs.bread .inode_map INODE_MAP_SIZE Fs.INODE_MAP
      if INODE_MAP_SIZE * SECTOR_SIZE ≤ i / 8 then stop
      else do
        let s ← get
        Fs.setBuf .inode_map (clearBit (s.buf .inode_map) i)
        Fs.bwrite .inode_map INODE_MAP_SIZE Fs.INODE_MAP) () { V with imap := Function.update V.imap i false } := by
  intro st hst
  obtain ⟨st', he, hst'⟩ := exec_writeImap (readImap st) hst (clearBit ((readImap st).mem.buf .inode_map) i)
    (Function.update V.imap i false)
    (fun j hj => by
      rw [bit_clearBit, bit_readImap st hj, hst, Function.update_apply]
      by_cases hji : j = i <;> simp [hji])
    (fun j hj => by rw [Function.update_of_ne (by omega), ← hst, imap_of_le st hj])
  refine ⟨st', ?_, hst'⟩
  have hmap : ¬ INODE_MAP_SIZE * SECTOR_SIZE ≤ i / 8 := by
    unfold NUM_INODES at hi
    rw [INODE_MAP_SIZE, SECTOR_SIZE]
    omega
  simp only [exec_bind, exec_readImap, Option.bind_some, if_neg hmap, exec_get, exec_setBuf, he]

end OsLab
