import OsLab.Fs.Grow
import OsLab.Lib.Hoare

/-!
# Blocks that are read and written as units

What `bread` and `bwrite` of several sectors are meant to do: move all of them (`units`). Over such a device an
index block has all its 1024 words and a directory all its 128 entries. The device also keeps the block maps
written to it, one after the other; so a run shows which blocks were given back, and how often.

`Whole` is what the state means then, with the blocks as 4096 bytes, and `Goes V x Q` says that from every
state with view `V` the program `x` comes back with a result and a view as described by `Q`.
-/

namespace OsLab

open Lib ProgM Bytes

/-! ### The device -/

/-- `n` sectors from sector `s` on. -/
def Disk.bytes (d : Disk) (n s : ℕ) : Bytes := fun i =>
  if i < n * SECTOR_SIZE then d ((s + i / SECTOR_SIZE) % 2 ^ 32) ⟨i % SECTOR_SIZE, Nat.mod_lt _ (by decide)⟩ else 0

/-- Write `n` sectors from sector `s` on. -/
def Disk.store (d : Disk) (m : Bytes) (n s : ℕ) : Disk := fun x =>
  if Bcache.InRun n s x then m.sector (SECTOR_SIZE * ((x + 2 ^ 32 - s) % 2 ^ 32)) else d x

/-- The block map on the disk. -/
def Disk.bmap (d : Disk) : ℕ → Bool := bit (d.bytes BLOCK_MAP_SIZE Fs.BLOCK_MAP)

/-- A device that moves all the sectors it is asked for. -/
structure Units where
  /-- The sectors. -/
  disk : Disk
  /-- The block maps written so far. -/
  maps : List (ℕ → Bool)

/-- The operations of the device. -/
def units : Handler Io Io.Res Units
  | .bread m n s, u => some (fun i => if i < n * SECTOR_SIZE then u.disk.bytes n s i else m i, u)
  | .bwrite m n s, u =>
    some ((), ⟨u.disk.store m n s, if s = Fs.BLOCK_MAP then u.maps ++ [(u.disk.store m n s).bmap] else u.maps⟩)
  | .policy _, u => some ((), u)

section Disk

variable {d : Disk} {m : Bytes} {n n' s s' : ℕ}

theorem Disk.store_apply (h : s + n ≤ 2 ^ 32) (x : ℕ) :
    d.store m n s x = if s ≤ x ∧ x < s + n then m.sector (SECTOR_SIZE * (x - s)) else d x := by
  have hrun : Bcache.InRun n s x ↔ s ≤ x ∧ x < s + n := by
    constructor
    · rintro ⟨i, hi, rfl⟩
      rw [Nat.mod_eq_of_lt (by omega)]
      omega
    · rintro ⟨h1, h2⟩
      exact ⟨x - s, by omega, by rw [Nat.mod_eq_of_lt (by omega)]; omega⟩
  simp only [Disk.store, hrun]
  split
  · next hx =>
    have hmod : (x + 2 ^ 32 - s) % 2 ^ 32 = x - s := by omega
    rw [hmod]
  · rfl

/-- What has been written. -/
theorem Disk.bytes_store (h : s + n ≤ 2 ^ 32) (i : ℕ) :
    (d.store m n s).bytes n s i = if i < n * SECTOR_SIZE then m i else 0 := by
  rw [Disk.bytes]
  split
  · next hi =>
    have hq : i / SECTOR_SIZE < n := Nat.div_lt_of_lt_mul (by rwa [Nat.mul_comm])
    have hlt : s + i / SECTOR_SIZE < s + n := Nat.add_lt_add_left hq s
    rw [Nat.mod_eq_of_lt (Nat.lt_of_lt_of_le hlt h), Disk.store_apply h,
      if_pos ⟨Nat.le_add_right _ _, hlt⟩, Nat.add_sub_cancel_left]
    show m (SECTOR_SIZE * (i / SECTOR_SIZE) + i % SECTOR_SIZE) = m i
    rw [Nat.div_add_mod]
  · rfl

/-- A write elsewhere. -/
theorem Disk.bytes_store_of_disjoint (h : s + n ≤ 2 ^ 32) (h' : s' + n' ≤ 2 ^ 32) (hd : s' + n' ≤ s ∨ s + n ≤ s') :
    (d.store m n s).bytes n' s' = d.bytes n' s' := by
  funext i
  rw [Disk.bytes, Disk.bytes]
  split
  · next hi =>
    have hq : i / SECTOR_SIZE < n' := Nat.div_lt_of_lt_mul (by rwa [Nat.mul_comm])
    have hlt : s' + i / SECTOR_SIZE < s' + n' := Nat.add_lt_add_left hq s'
    have hle : s' ≤ s' + i / SECTOR_SIZE := Nat.le_add_right _ _
    rw [Nat.mod_eq_of_lt (Nat.lt_of_lt_of_le hlt h'), Disk.store_apply h, if_neg (by omega)]
  · rfl

end Disk

/-! ### Views -/

/-- The first 4096 bytes. -/
def cut (m : Bytes) : Bytes := fun i => if i < BLOCK_SIZE then m i else 0

/-- What the functions on blocks see of a state. -/
@[ext]
structure Whole where
  /-- The inode map. -/
  imap : ℕ → Bool
  /-- The block map. -/
  bmap : ℕ → Bool
  /-- The inodes. -/
  inode : ℕ → Inode
  /-- The blocks. -/
  data : ℕ → Bytes
  /-- `dentry_buffer`. -/
  dbuf : Bytes
  /-- `inode_buffer`, inode by inode. -/
  ibuf : ℕ → Inode
  /-- `rdata_buffer`. -/
  rbuf : Bytes
  /-- The block maps written so far. -/
  maps : List (ℕ → Bool)

/-- The view of a state. -/
def Whole.of (c : Conf Mem Units) : Whole where
  imap := bit (c.dev.disk.bytes INODE_MAP_SIZE Fs.INODE_MAP)
  bmap := c.dev.disk.bmap
  inode i := if i < NUM_INODES then getInode (c.dev.disk.bytes 1 (inodeSector i)) (64 * (i % 8)) else Inode.zero
  data b := if b < NUM_BLOCKS then c.dev.disk.bytes BLOCK_SECTORS (blockSector b) else fun _ => 0
  dbuf := cut (c.mem.buf .dentry_buffer)
  ibuf k := if k < 8 then getInode (c.mem.buf .inode_buffer) (64 * k) else Inode.zero
  rbuf := cut (c.mem.buf .rdata_buffer)
  maps := c.dev.maps

/-- From every state with view `V` the program comes back, with a result and a view as described by `Q`. -/
def Goes {α : Type} (V : Whole) (x : FsM α) (Q : α → Whole → Prop) : Prop :=
  ∀ c, Whole.of c = V → Returns units c x fun a c' => Q a (Whole.of c')

namespace Goes

variable {α β : Type} {V W : Whole} {x : FsM α} {f : α → FsM β}

theorem pure {a : α} {Q : α → Whole → Prop} (h : Q a V) : Goes V (pure a) Q := Shows.pure h

theorem bind {P : α → Whole → Prop} {Q : β → Whole → Prop} (hx : Goes V x P) (hf : ∀ a V', P a V' → Goes V' (f a) Q) :
    Goes V (x >>= f) Q := Shows.bind hx hf

/-- After a step whose result is known. -/
theorem seq {a : α} {Q : β → Whole → Prop} (hx : Goes V x fun r V' => r = a ∧ V' = W) (hf : Goes W (f a) Q) :
    Goes V (x >>= f) Q :=
  Shows.seq hx hf

theorem mono {P Q : α → Whole → Prop} (hx : Goes V x P) (h : ∀ a V', P a V' → Q a V') : Goes V x Q := Shows.mono hx h

theorem ifThen {p : Prop} [Decidable p] {x : FsM Unit}
    {Q : Unit → Whole → Prop} (hx : p → Goes V x Q) (hno : ¬ p → Q () V) :
    Goes V (Fs.ifThen p x) Q := by
  unfold Fs.ifThen
  split
  · next h => exact hx h
  · next h => exact pure (hno h)

/-- A step that is known from every state with the view. -/
theorem of_exec {a : α} (h : ∀ c, Whole.of c = V → ∃ c', exec units x c = some (a, c') ∧ Whole.of c' = W) :
    Goes V x fun r V' => r = a ∧ V' = W := by
  intro c hc
  obtain ⟨c', he, hw⟩ := h c hc
  exact Returns.of_exec he ⟨rfl, hw⟩

end Goes

/-! ### Variables and buffers -/

section Steps

variable {V : Whole} {c : Conf Mem Units}

theorem cut_of_lt (m : Bytes) {i : ℕ} (h : i < BLOCK_SIZE) : cut m i = m i := if_pos h

theorem get32_cut (m : Bytes) {k : ℕ} (hk : k < 1024) : get32 (cut m) (4 * k) = get32 m (4 * k) :=
  get32_congr fun i _ hi => cut_of_lt m (by unfold BLOCK_SIZE; omega)

theorem cut_put32 (m : Bytes) {k : ℕ} (hk : k < 1024) (v : UInt32) :
    cut (put32 m (4 * k) v) = put32 (cut m) (4 * k) v := by
  funext i
  by_cases hi : i < BLOCK_SIZE
  · rw [cut_of_lt _ hi, put32, put32, cut_of_lt _ hi]
  · have hout : ¬ (4 * k ≤ i ∧ i < 4 * k + 4) := by
      unfold BLOCK_SIZE at hi
      omega
    rw [cut, if_neg hi, put32, if_neg hout, cut, if_neg hi]

theorem Goes.rword {k : ℕ} (hk : k < 1024) : Goes V (Fs.rword k) fun r V' => r = get32 V.rbuf (4 * k) ∧ V' = V := by
  rintro c rfl
  exact Returns.of_exec rfl ⟨(get32_cut _ hk).symm, rfl⟩

theorem Goes.setRword {k : ℕ} (hk : k < 1024) (v : UInt32) :
    Goes V (Fs.setRword k v) fun r V' => r = () ∧ V' = { V with rbuf := put32 V.rbuf (4 * k) v } := by
  rintro c rfl
  refine Returns.of_exec rfl ⟨rfl, ?_⟩
  exact congrArg (fun m => { Whole.of c with rbuf := m }) (cut_put32 _ hk v)

theorem Goes.bzeroRdata : Goes V (Fs.bzero .rdata_buffer) fun r V' => r = () ∧ V' = { V with rbuf := fun _ => 0 } := by
  rintro c rfl
  refine Returns.of_exec rfl ⟨rfl, ?_⟩
  refine congrArg (fun m => { Whole.of c with rbuf := m }) (funext fun i => ?_)
  exact ite_self _

theorem Goes.dentries : Goes V Fs.dentries fun d V' =>
    (∀ j < NUM_DENTRIES, d j = getDentry V.dbuf (32 * j)) ∧ V' = V := by
  rintro c rfl
  refine Returns.of_exec rfl ⟨fun j hj => ?_, rfl⟩
  refine getDentry_congr fun i _ hi => (cut_of_lt _ ?_).symm
  unfold NUM_DENTRIES at hj
  unfold BLOCK_SIZE
  omega

theorem Goes.inodeBuf {k : ℕ} (hk : k < 8) : Goes V (Fs.inodeBuf k) fun r V' => r = V.ibuf k ∧ V' = V := by
  rintro c rfl
  exact Returns.of_exec rfl ⟨(if_pos hk).symm, rfl⟩

theorem Goes.setInodeBuf {k : ℕ} (hk : k < 8) (I : Inode) :
    Goes V (Fs.setInodeBuf k I) fun r V' => r = () ∧ V' = { V with ibuf := Function.update V.ibuf k I } := by
  rintro c rfl
  refine Returns.of_exec rfl ⟨rfl, ?_⟩
  refine congrArg (fun f => { Whole.of c with ibuf := f }) (funext fun k' => ?_)
  show (if k' < 8 then getInode (putInode (c.mem.buf .inode_buffer) (64 * k) I) (64 * k') else Inode.zero) = _
  rw [Function.update_apply]
  by_cases hkk : k' = k
  · rw [if_pos hkk, if_pos (by omega), hkk, getInode_putInode]
  · rw [if_neg hkk, getInode_putInode_of_disjoint _ _ (by omega)]
    rfl

theorem Goes.setWbyte (o : ℕ) (x : UInt8) : Goes V (Fs.setWbyte o x) fun r V' => r = () ∧ V' = V := by
  rintro c rfl
  exact Returns.of_exec rfl ⟨rfl, rfl⟩

theorem Goes.get_timer : Goes V Fs.get_timer fun _ V' => V' = V := by
  rintro c rfl
  exact Returns.of_exec rfl rfl

theorem cut_zero : cut (fun _ => 0) = fun _ => 0 := funext fun _ => ite_self _

theorem cut_putDentry (m : Bytes) {j : ℕ} (hj : j < NUM_DENTRIES) (e : Dentry) :
    cut (putDentry m (32 * j) e) = putDentry (cut m) (32 * j) e := by
  unfold NUM_DENTRIES at hj
  funext i
  by_cases hi : i < BLOCK_SIZE
  · rw [cut_of_lt _ hi, putDentry, putDentry, cut_of_lt _ hi]
  · have hout : ¬ (32 * j ≤ i ∧ i < 32 * j + 32) := by
      unfold BLOCK_SIZE at hi
      omega
    rw [cut, if_neg hi, putDentry, if_neg hout, cut, if_neg hi]

theorem Goes.bzeroDentry : Goes V (Fs.bzero .dentry_buffer) fun r V' =>
    r = () ∧ V' = { V with dbuf := fun _ => 0 } := by
  rintro c rfl
  refine Returns.of_exec rfl ⟨rfl, ?_⟩
  exact congrArg (fun m => { Whole.of c with dbuf := m }) cut_zero

theorem Goes.setDentryBuf {j : ℕ} (hj : j < NUM_DENTRIES) (e : Dentry) :
    Goes V (Fs.setDentryBuf j e) fun r V' => r = () ∧ V' = { V with dbuf := putDentry V.dbuf (32 * j) e } := by
  rintro c rfl
  refine Returns.of_exec rfl ⟨rfl, ?_⟩
  exact congrArg (fun m => { Whole.of c with dbuf := m }) (cut_putDentry _ hj e)

/-! ### Reading -/

theorem exec_bread_units (b : Buffer) (n s : ℕ) (c : Conf Mem Units) : exec units (Fs.bread b n s) c = some ((),
    { c with mem := { c.mem with
        buf := Function.update c.mem.buf b fun i =>
          if i < n * SECTOR_SIZE then c.dev.disk.bytes n s i else c.mem.buf b i } }) := rfl

theorem exec_bwrite_units (b : Buffer) (n s : ℕ) (c : Conf Mem Units) : exec units (Fs.bwrite b n s) c = some ((),
    ⟨c.mem, c.dev.disk.store (c.mem.buf b) n s,
      if s = Fs.BLOCK_MAP then c.dev.maps ++ [(c.dev.disk.store (c.mem.buf b) n s).bmap] else c.dev.maps⟩) := rfl

theorem cut_read (d : Disk) (m : Bytes) (s : ℕ) :
    cut (fun i => if i < BLOCK_SECTORS * SECTOR_SIZE then d.bytes BLOCK_SECTORS s i else m i) =
    d.bytes BLOCK_SECTORS s := by
  have hsize : BLOCK_SECTORS * SECTOR_SIZE = BLOCK_SIZE := by decide
  funext i
  rw [cut, hsize]
  split
  · rfl
  · next hi => rw [Disk.bytes, hsize, if_neg hi]

theorem Goes.breadRdata {b : ℕ} (hb : b < NUM_BLOCKS) :
    Goes V (Fs.bread .rdata_buffer BLOCK_SECTORS (blockSector b)) fun r V' =>
    r = () ∧ V' = { V with rbuf := V.data b } := by
  rintro c rfl
  refine Returns.of_exec (exec_bread_units _ _ _ c) ⟨rfl, ?_⟩
  refine congrArg (fun m => { Whole.of c with rbuf := m }) ?_
  exact (cut_read _ _ _).trans (if_pos hb).symm

theorem Goes.breadDentry {b : ℕ} (hb : b < NUM_BLOCKS) :
    Goes V (Fs.bread .dentry_buffer BLOCK_SECTORS (blockSector b)) fun r V' =>
    r = () ∧ V' = { V with dbuf := V.data b } := by
  rintro c rfl
  refine Returns.of_exec (exec_bread_units _ _ _ c) ⟨rfl, ?_⟩
  refine congrArg (fun m => { Whole.of c with dbuf := m }) ?_
  exact (cut_read _ _ _).trans (if_pos hb).symm

theorem Goes.breadWdata (s : ℕ) : Goes V (Fs.bread .wdata_buffer BLOCK_SECTORS s) fun r V' => r = () ∧ V' = V := by
  rintro c rfl
  exact Returns.of_exec (exec_bread_units _ _ _ c) ⟨rfl, rfl⟩

/-- The inodes of the sector of inode `i`. -/
def Whole.loadInodes (V : Whole) (i : ℕ) : ℕ → Inode := fun k => if k < 8 then V.inode (i / 8 * 8 + k) else Inode.zero

theorem Whole.loadInodes_mod (V : Whole) (i : ℕ) : V.loadInodes i (i % 8) = V.inode i := by
  rw [Whole.loadInodes, if_pos (by omega)]
  congr 1
  omega

theorem Goes.breadInode {i : ℕ} (hi : i < NUM_INODES) :
    Goes V (Fs.bread .inode_buffer 1 (inodeSector i)) fun r V' => r = () ∧ V' = { V with ibuf := V.loadInodes i } := by
  rintro c rfl
  refine Returns.of_exec (exec_bread_units _ _ _ c) ⟨rfl, ?_⟩
  refine congrArg (fun f => { Whole.of c with ibuf := f }) (funext fun k => ?_)
  unfold NUM_INODES at hi
  rw [Whole.loadInodes]
  split
  · next hk =>
    have hsec : inodeSector (i / 8 * 8 + k) = inodeSector i := by
      unfold inodeSector
      omega
    have hmod : (i / 8 * 8 + k) % 8 = k := by omega
    simp only [Whole.of, hsec, hmod, Function.update_self]
    rw [if_pos (show i / 8 * 8 + k < NUM_INODES by unfold NUM_INODES; omega)]
    exact getInode_congr fun x _ hx => if_pos (by unfold SECTOR_SIZE; omega)
  · rfl

theorem Goes.loadInode {ino : UInt32} (h : ino.toNat < NUM_INODES) : Goes V (Fs.loadInode ino) fun r V' =>
    r = V.inode ino.toNat ∧ V' = { V with ibuf := V.loadInodes ino.toNat } := by
  rw [Fs.loadInode, inodeidx2sector_eq h]
  refine (Goes.breadInode h).seq ((Goes.inodeBuf (Nat.mod_lt _ (by decide))).mono ?_)
  rintro _ _ ⟨rfl, rfl⟩
  exact ⟨V.loadInodes_mod _, rfl⟩

/-! ### Writing -/

theorem inodeSector_eq (i : ℕ) : inodeSector i = 290 + i / 8 := by
  have h290 : FS_START_SECTOR + INODE_OFFSET = 290 := by decide
  rw [inodeSector, h290]

theorem blockSector_eq (b : ℕ) : blockSector b = 802 + 8 * b := by rw [blockSector, DATA_eq]

theorem sectors_eq : Fs.BLOCK_MAP = 257 ∧ BLOCK_MAP_SIZE = 32 ∧
    Fs.INODE_MAP = 289 ∧ INODE_MAP_SIZE = 1 ∧ BLOCK_SECTORS = 8 := by decide

/-- The view after a write to a block, whichever buffer it came from. -/
theorem Whole.of_store {b : ℕ} (hb : b < NUM_BLOCKS) (c : Conf Mem Units) (m : Bytes) :
    Whole.of ⟨c.mem, ⟨c.dev.disk.store m BLOCK_SECTORS (blockSector b), c.dev.maps⟩⟩ =
      { Whole.of c with data := Function.update (Whole.of c).data b (cut m) } := by
  obtain ⟨hbm, hbs, him, his, h8⟩ := sectors_eq
  rw [NUM_BLOCKS_eq] at hb
  have hin := blockSector_eq b
  have hle : blockSector b + BLOCK_SECTORS ≤ 2 ^ 32 := by omega
  have hout {s n : ℕ} (hs : s + n ≤ 802) :
      (c.dev.disk.store m BLOCK_SECTORS (blockSector b)).bytes n s = c.dev.disk.bytes n s :=
    Disk.bytes_store_of_disjoint hle (by omega) (by omega)
  ext : 1
  · simp only [Whole.of]
    rw [hout (by omega)]
  · simp only [Whole.of, Disk.bmap]
    rw [hout (by omega)]
  · simp only [Whole.of]
    funext i
    split
    · next hi =>
      unfold NUM_INODES at hi
      rw [hout (by rw [inodeSector_eq]; omega)]
    · rfl
  · funext b'
    simp only [Whole.of, Function.update_apply, NUM_BLOCKS_eq]
    have hsize : BLOCK_SECTORS * SECTOR_SIZE = BLOCK_SIZE := by decide
    by_cases hbb : b' = b
    · rw [if_pos hbb, hbb, if_pos hb]
      funext i
      rw [Disk.bytes_store hle, hsize]
      rfl
    · rw [if_neg hbb]
      split
      · next hb' =>
        have hin' := blockSector_eq b'
        rw [Disk.bytes_store_of_disjoint hle (by omega) (by omega)]
      · rfl
  all_goals rfl

theorem exec_bwrite_block (B : Buffer) {b : ℕ} (hb : b < NUM_BLOCKS) (c : Conf Mem Units) :
    ∃ c', exec units (Fs.bwrite B BLOCK_SECTORS (blockSector b)) c = some ((), c') ∧
      Whole.of c' = { Whole.of c with data := Function.update (Whole.of c).data b (cut (c.mem.buf B)) } := by
  have hne : blockSector b ≠ Fs.BLOCK_MAP := by
    have hmap := sectors_eq.1
    have := blockSector_eq b
    omega
  refine ⟨⟨c.mem, ⟨c.dev.disk.store (c.mem.buf B) BLOCK_SECTORS (blockSector b), c.dev.maps⟩⟩,
    ?_, Whole.of_store hb c _⟩
  rw [exec_bwrite_units, if_neg hne]

/-- A write to a block. -/
theorem Goes.bwriteRdata {b : ℕ} (hb : b < NUM_BLOCKS) :
    Goes V (Fs.bwrite .rdata_buffer BLOCK_SECTORS (blockSector b)) fun r V' =>
    r = () ∧ V' = { V with data := Function.update V.data b V.rbuf } := by
  rintro c rfl
  obtain ⟨c', he, hw⟩ := exec_bwrite_block .rdata_buffer hb c
  exact Returns.of_exec he ⟨rfl, hw⟩

theorem Goes.bwriteDentry {b : ℕ} (hb : b < NUM_BLOCKS) :
    Goes V (Fs.bwrite .dentry_buffer BLOCK_SECTORS (blockSector b)) fun r V' =>
    r = () ∧ V' = { V with data := Function.update V.data b V.dbuf } := by
  rintro c rfl
  obtain ⟨c', he, hw⟩ := exec_bwrite_block .dentry_buffer hb c
  exact Returns.of_exec he ⟨rfl, hw⟩

/-- What `wdata_buffer` holds is not seen. -/
theorem Goes.bwriteWdata {b : ℕ} (hb : b < NUM_BLOCKS) :
    Goes V (Fs.bwrite .wdata_buffer BLOCK_SECTORS (blockSector b)) fun _ V' =>
    ∃ m, V' = { V with data := Function.update V.data b m } := by
  rintro c rfl
  obtain ⟨c', he, hw⟩ := exec_bwrite_block .wdata_buffer hb c
  exact Returns.of_exec he ⟨_, hw⟩

/-- The inodes after `inode_buffer` has been written to the sector of inode `i`. -/
def Whole.storeInodes (V : Whole) (i : ℕ) : ℕ → Inode :=
  fun j => if j < NUM_INODES ∧ j / 8 = i / 8 then V.ibuf (j % 8) else V.inode j

theorem Goes.bwriteInode {i : ℕ} (hi : i < NUM_INODES) :
    Goes V (Fs.bwrite .inode_buffer 1 (inodeSector i)) fun r V' =>
    r = () ∧ V' = { V with inode := V.storeInodes i } := by
  rintro c rfl
  refine Returns.of_exec (exec_bwrite_units _ _ _ c) ⟨rfl, ?_⟩
  obtain ⟨hbm, hbs, him, his, h8⟩ := sectors_eq
  unfold NUM_INODES at hi
  have hin := inodeSector_eq i
  have hle : inodeSector i + 1 ≤ 2 ^ 32 := by omega
  ext : 1
  · simp only [Whole.of]
    rw [Disk.bytes_store_of_disjoint hle (by omega) (by omega)]
  · simp only [Whole.of, Disk.bmap]
    rw [Disk.bytes_store_of_disjoint hle (by omega) (by omega)]
  · funext j
    simp only [Whole.of, Whole.storeInodes]
    by_cases hj : j < NUM_INODES
    · have hj' := hj
      unfold NUM_INODES at hj'
      rw [if_pos hj]
      by_cases hin' : j / 8 = i / 8
      · have hsec : inodeSector j = inodeSector i := by rw [inodeSector_eq, inodeSector_eq, hin']
        rw [if_pos ⟨hj, hin'⟩, if_pos (Nat.mod_lt _ (by decide)), hsec]
        refine getInode_congr fun x _ hx => ?_
        rw [Disk.bytes_store hle, if_pos (by unfold SECTOR_SIZE; omega)]
      · have hsec := inodeSector_eq j
        rw [if_neg fun h => hin' h.2, if_pos hj, Disk.bytes_store_of_disjoint hle (by omega) (by omega)]
    · rw [if_neg hj, if_neg fun h => hj h.1, if_neg hj]
  · funext b
    simp only [Whole.of, NUM_BLOCKS_eq]
    split
    · next hb =>
      have hsec := blockSector_eq b
      rw [Disk.bytes_store_of_disjoint hle (by omega) (by omega)]
    · rfl
  case maps =>
    simp only [Whole.of]
    rw [if_neg (by omega)]
  all_goals rfl

/-- Writing a loaded sector back with one inode changed changes that inode. -/
theorem Whole.storeInodes_update (V : Whole) (i : ℕ) (I : Inode) (hi : i < NUM_INODES) :
    Whole.storeInodes { V with ibuf := Function.update (V.loadInodes i) (i % 8) I } i =
    Function.update V.inode i I := by
  funext j
  rw [Whole.storeInodes, Function.update_apply]
  dsimp only
  by_cases hj : j = i
  · rw [if_pos hj, if_pos ⟨hj ▸ hi, by omega⟩, hj, Function.update_self]
  · rw [if_neg hj]
    split
    · next h =>
      rw [Function.update_of_ne (by omega), Whole.loadInodes, if_pos (by omega), show i / 8 * 8 + j % 8 = j by omega]
    · rfl

/-- `inode_buffer` written to eight sectors, as `do_write` does: the first holds the inodes of the buffer. -/
theorem Goes.bwriteInodes {i : ℕ} (hi : i + 64 ≤ NUM_INODES) :
    Goes V (Fs.bwrite .inode_buffer BLOCK_SECTORS (inodeSector i)) fun _ V' =>
    ∃ g, V' = { V with inode := g } ∧ ∀ j, j / 8 = i / 8 → g j = V.ibuf (j % 8) := by
  rintro c rfl
  obtain ⟨hbm, hbs, him, his, h8⟩ := sectors_eq
  unfold NUM_INODES at hi
  have hin := inodeSector_eq i
  have hle : inodeSector i + BLOCK_SECTORS ≤ 2 ^ 32 := by omega
  have hout {s n : ℕ} (hs : s + n ≤ 290 ∨ 802 ≤ s) (hs' : s + n ≤ 2 ^ 32) :
      (c.dev.disk.store (c.mem.buf .inode_buffer) BLOCK_SECTORS (inodeSector i)).bytes n s = c.dev.disk.bytes n s :=
    Disk.bytes_store_of_disjoint hle hs' (by omega)
  let g := (Whole.of ⟨c.mem,
    ⟨c.dev.disk.store (c.mem.buf .inode_buffer) BLOCK_SECTORS (inodeSector i), c.dev.maps⟩⟩).inode
  refine Returns.of_exec (exec_bwrite_units _ _ _ c) ⟨g, ?_, fun j hj => ?_⟩
  · ext : 1
    · simp only [Whole.of]
      rw [hout (by omega) (by omega)]
    · simp only [Whole.of, Disk.bmap]
      rw [hout (by omega) (by omega)]
    · rfl
    · funext b
      simp only [Whole.of, NUM_BLOCKS_eq]
      split
      · next hb =>
        have hsec := blockSector_eq b
        rw [hout (by omega) (by omega)]
      · rfl
    case maps =>
      simp only [Whole.of]
      rw [if_neg (by omega)]
    all_goals rfl
  · have hsec : inodeSector j = inodeSector i := by rw [inodeSector_eq, inodeSector_eq, hj]
    simp only [g, Whole.of, hsec]
    rw [if_pos (show j < NUM_INODES by unfold NUM_INODES; omega), if_pos (Nat.mod_lt _ (by decide))]
    refine getInode_congr fun x _ hx => ?_
    have hlt : x < 1 * SECTOR_SIZE := by
      unfold SECTOR_SIZE
      omega
    have hdiv : x / SECTOR_SIZE = 0 := Nat.div_eq_of_lt (by omega)
    have hmod : x % SECTOR_SIZE = x := Nat.mod_eq_of_lt (by omega)
    rw [Disk.bytes, if_pos hlt, Nat.mod_eq_of_lt (by omega),
      Disk.store_apply hle, if_pos (by omega), hdiv, Nat.add_zero, Nat.sub_self]
    show c.mem.buf .inode_buffer (0 + x % SECTOR_SIZE) = _
    rw [hmod, Nat.zero_add]

theorem Goes.storeInode {I : Inode} (h : I.ino.toNat < NUM_INODES) : Goes V (Fs.storeInode I) fun r V' => r = () ∧
    V' = { V with inode := Function.update V.inode I.ino.toNat I,
                  ibuf := Function.update (V.loadInodes I.ino.toNat) (I.ino.toNat % 8) I } := by
  rw [Fs.storeInode, inodeidx2sector_eq h]
  refine (Goes.breadInode h).seq ((Goes.setInodeBuf (Nat.mod_lt _ (by decide)) I).seq ((Goes.bwriteInode h).mono ?_))
  rintro _ _ ⟨rfl, rfl⟩
  rw [Whole.storeInodes_update V _ I h]
  exact ⟨rfl, rfl⟩

/-! ### Bitmaps -/

theorem bit_bytes_of_le (d : Disk) (n s : ℕ) {i : ℕ} (h : 8 * (n * SECTOR_SIZE) ≤ i) : bit (d.bytes n s) i = false := by
  rw [bit, Disk.bytes, if_neg (by omega), UInt8.toBitVec_zero, BitVec.getLsbD_zero]

/-- The bits of a map that has been read. -/
theorem bit_read (d : Disk) (m : Bytes) (n s : ℕ) {i : ℕ} (h : i < 8 * (n * SECTOR_SIZE)) :
    bit (fun x => if x < n * SECTOR_SIZE then d.bytes n s x else m x) i = bit (d.bytes n s) i :=
  bit_congr (if_pos (by omega))

/-- The bits of a map that has been written. -/
theorem bit_store (d : Disk) (m : Bytes) {n s : ℕ} (hs : s + n ≤ 2 ^ 32) {i : ℕ} (h : i < 8 * (n * SECTOR_SIZE)) :
    bit ((d.store m n s).bytes n s) i = bit m i :=
  bit_congr (by rw [Disk.bytes_store hs, if_pos (by omega)])

/-- Reading the block map changes nothing that is seen. -/
theorem Goes.readBmap : ∀ c, Whole.of c = V → ∃ c',
    exec units (Fs.bread .block_map BLOCK_MAP_SIZE Fs.BLOCK_MAP) c = some ((), c') ∧
    Whole.of c' = V ∧ ∀ i < 8 * (BLOCK_MAP_SIZE * SECTOR_SIZE), bit (c'.mem.buf .block_map) i = V.bmap i := by
  rintro c rfl
  refine ⟨_, exec_bread_units _ _ _ c, rfl, fun i hi => ?_⟩
  dsimp only
  rw [Function.update_self]
  exact bit_read _ _ _ _ hi

/-- Writing a block map. -/
theorem Goes.writeBmap {f : ℕ → Bool} (m : Bytes) (hm : ∀ i < 8 * (BLOCK_MAP_SIZE * SECTOR_SIZE), bit m i = f i)
    (hf : ∀ i, 8 * (BLOCK_MAP_SIZE * SECTOR_SIZE) ≤ i → f i = false) : ∀ c, Whole.of c = V →
    ∃ c', exec units (do
      Fs.setBuf .block_map m
      Fs.bwrite .block_map BLOCK_MAP_SIZE Fs.BLOCK_MAP) c = some ((), c') ∧
      Whole.of c' = { V with bmap := f, maps := V.maps ++ [f] } := by
  rintro c rfl
  obtain ⟨hbm, hbs, him, his, h8⟩ := sectors_eq
  have hle : Fs.BLOCK_MAP + BLOCK_MAP_SIZE ≤ 2 ^ 32 := by decide
  have hbmap : (c.dev.disk.store m BLOCK_MAP_SIZE Fs.BLOCK_MAP).bmap = f := by
    funext i
    by_cases hi : i < 8 * (BLOCK_MAP_SIZE * SECTOR_SIZE)
    · exact (bit_store _ _ hle hi).trans (hm i hi)
    · rw [hf i (Nat.le_of_not_lt hi)]
      exact bit_bytes_of_le _ _ _ (Nat.le_of_not_lt hi)
  have hout {s n : ℕ} (hs : 289 ≤ s) (hle' : s + n ≤ 2 ^ 32) :
      (c.dev.disk.store m BLOCK_MAP_SIZE Fs.BLOCK_MAP).bytes n s = c.dev.disk.bytes n s :=
    Disk.bytes_store_of_disjoint hle hle' (by omega)
  refine ⟨⟨{ c.mem with buf := Function.update c.mem.buf .block_map m },
    ⟨c.dev.disk.store m BLOCK_MAP_SIZE Fs.BLOCK_MAP,
      c.dev.maps ++ [(c.dev.disk.store m BLOCK_MAP_SIZE Fs.BLOCK_MAP).bmap]⟩⟩, ?_, ?_⟩
  · simp only [Fs.setBuf, exec_bind, exec_modify, Option.bind_some, exec_bwrite_units, Function.update_self, if_true]
  ext : 1
  · simp only [Whole.of]
    rw [hout (by omega) (by omega)]
  · exact hbmap
  · simp only [Whole.of]
    funext i
    split
    · next hi =>
      unfold NUM_INODES at hi
      have hsec := inodeSector_eq i
      rw [hout (by omega) (by omega)]
    · rfl
  · simp only [Whole.of, NUM_BLOCKS_eq]
    funext b'
    split
    · next hb' =>
      have hsec := blockSector_eq b'
      rw [hout (by omega) (by omega)]
    · rfl
  case maps =>
    show c.dev.maps ++ [_] = c.dev.maps ++ [_]
    rw [hbmap]
  all_goals rfl

/-- Changing one bit of the block map. -/
theorem Goes.updateBmap {b : ℕ} {v : Bool} (hb : b < NUM_BLOCKS) (m : Bytes)
    (hm : ∀ i < 8 * (BLOCK_MAP_SIZE * SECTOR_SIZE), bit m i = Function.update V.bmap b v i) : ∀ c, Whole.of c = V →
    ∃ c', exec units (do
      Fs.setBuf .block_map m
      Fs.bwrite .block_map BLOCK_MAP_SIZE Fs.BLOCK_MAP) c = some ((), c') ∧
      Whole.of c' = { V with bmap := Function.update V.bmap b v, maps := V.maps ++ [Function.update V.bmap b v] } := by
  intro c hc
  refine Goes.writeBmap m hm (fun i hi => ?_) c hc
  have hib : i ≠ b := by
    rintro rfl
    rw [NUM_BLOCKS_eq] at hb
    exact absurd hi (Nat.not_le.mpr (Nat.lt_of_lt_of_le hb (by decide)))
  rw [Function.update_of_ne hib, ← hc]
  exact bit_bytes_of_le _ _ _ hi

/-- The block `find_free_block` takes. -/
def Whole.freeBlock (V : Whole) : Option ℕ := firstClear V.bmap NUM_BLOCKS

/-- A view with block `b` taken and zero. -/
def Whole.takeBlock (V : Whole) (b : ℕ) : Whole :=
  { V with bmap := Function.update V.bmap b true, data := Function.update V.data b fun _ => 0, rbuf := fun _ => 0,
           maps := V.maps ++ [Function.update V.bmap b true] }

theorem Goes.find_free_block {b : ℕ} (h : V.freeBlock = some b) :
    Goes V Fs.find_free_block fun r V' => r = blockSector b ∧ V' = V.takeBlock b := by
  obtain ⟨hb, -, -⟩ := firstClear_eq_some.mp h
  refine Goes.of_exec fun c hc => ?_
  obtain ⟨c₁, he₁, hc₁, hbits⟩ := Goes.readBmap c hc
  have hscan : scan (c₁.mem.buf .block_map) (BLOCK_MAP_SIZE * SECTOR_SIZE) (DATA_SIZE / BLOCK_SECTORS) = some b := by
    rw [scan_eq (by decide), ← h, Whole.freeBlock]
    refine firstClear_congr fun i hi => hbits i (Nat.lt_of_lt_of_le hi ?_)
    decide
  obtain ⟨c₂, he₂, hc₂⟩ := Goes.updateBmap hb (setBit (c₁.mem.buf .block_map) b) (v := true) (fun i hi => by
    rw [bit_setBit, hbits i hi, Function.update_apply]
    by_cases hib : i = b <;> simp [hib]) c₁ hc₁
  have hsec : b * BLOCK_SECTORS + Fs.DATA = blockSector b := by
    rw [blockSector, BLOCK_SECTORS_eq]
    omega
  obtain ⟨_, c₃, he₃, -, hc₃⟩ := Goes.bzeroRdata c₂ hc₂
  obtain ⟨_, c₄, he₄, -, hc₄⟩ := Goes.bwriteRdata hb c₃ hc₃
  refine ⟨c₄, ?_, hc₄⟩
  rw [exec_bind, Option.bind_eq_some_iff] at he₂
  obtain ⟨⟨_, c'⟩, hset, hwrite⟩ := he₂
  simp only [Fs.find_free_block, exec_bind, he₁, Option.bind_some,
    exec_get, hscan, hset, hwrite, he₃, hsec, he₄, exec_pure]

theorem Goes.find_free_block_none (h : V.freeBlock = none) :
    Goes V Fs.find_free_block fun r V' => r = FAIL ∧ V' = V := by
  refine Goes.of_exec fun c hc => ?_
  obtain ⟨c₁, he₁, hc₁, hbits⟩ := Goes.readBmap c hc
  have hscan : scan (c₁.mem.buf .block_map) (BLOCK_MAP_SIZE * SECTOR_SIZE) (DATA_SIZE / BLOCK_SECTORS) = none := by
    rw [scan_eq (by decide), ← h, Whole.freeBlock]
    refine firstClear_congr fun i hi => hbits i (Nat.lt_of_lt_of_le hi ?_)
    decide
  refine ⟨c₁, ?_, hc₁⟩
  simp only [Fs.find_free_block, exec_bind, he₁, Option.bind_some, exec_get, hscan, exec_pure]

theorem Goes.free_block {b : ℕ} (hb : b < NUM_BLOCKS) : Goes V (Fs.free_block (blockSector b)) fun r V' => r = () ∧
    V' = { V with bmap := Function.update V.bmap b false, maps := V.maps ++ [Function.update V.bmap b false] } := by
  refine Goes.of_exec fun c hc => ?_
  obtain ⟨c₁, he₁, hc₁, hbits⟩ := Goes.readBmap c hc
  obtain ⟨c₂, he₂, hc₂⟩ := Goes.updateBmap hb (clearBit (c₁.mem.buf .block_map) b) (v := false) (fun i hi => by
    rw [bit_clearBit, hbits i hi, Function.update_apply]
    by_cases hib : i = b <;> simp [hib]) c₁ hc₁
  refine ⟨c₂, ?_, hc₂⟩
  have hidx : (blockSector b - Fs.DATA) / BLOCK_SECTORS = b := by
    rw [BLOCK_SECTORS_eq, blockSector]
    omega
  have hle : ¬ blockSector b < Fs.DATA := by
    rw [blockSector]
    omega
  have hmap : ¬ BLOCK_MAP_SIZE * SECTOR_SIZE ≤ b / 8 := by
    rw [NUM_BLOCKS_eq] at hb
    rw [BLOCK_MAP_SIZE, SECTOR_SIZE]
    omega
  rw [exec_bind, Option.bind_eq_some_iff] at he₂
  obtain ⟨⟨_, c'⟩, hset, hwrite⟩ := he₂
  simp only [Fs.free_block, if_neg hle, exec_bind, he₁, Option.bind_some, hidx, if_neg hmap, exec_get, hset, hwrite]

/-- Reading the inode map changes nothing that is seen. -/
theorem Goes.readImap : ∀ c, Whole.of c = V → ∃ c',
    exec units (Fs.bread .inode_map INODE_MAP_SIZE Fs.INODE_MAP) c = some ((), c') ∧
    Whole.of c' = V ∧ ∀ i < NUM_INODES, bit (c'.mem.buf .inode_map) i = V.imap i := by
  rintro c rfl
  refine ⟨_, exec_bread_units _ _ _ c, rfl, fun i hi => ?_⟩
  dsimp only
  rw [Function.update_self]
  exact bit_read _ _ _ _ (by rwa [show 8 * (INODE_MAP_SIZE * SECTOR_SIZE) = NUM_INODES by decide])

/-- Writing an inode map. -/
theorem Goes.writeImap {f : ℕ → Bool} (m : Bytes)
    (hm : ∀ i < NUM_INODES, bit m i = f i) (hf : ∀ i, NUM_INODES ≤ i → f i = false) :
    ∀ c, Whole.of c = V → ∃ c', exec units (do
      Fs.setBuf .inode_map m
      Fs.bwrite .inode_map INODE_MAP_SIZE Fs.INODE_MAP) c = some ((), c') ∧ Whole.of c' = { V with imap := f } := by
  rintro c rfl
  obtain ⟨hbm, hbs, him, his, h8⟩ := sectors_eq
  have hle : Fs.INODE_MAP + INODE_MAP_SIZE ≤ 2 ^ 32 := by decide
  have hall : 8 * (INODE_MAP_SIZE * SECTOR_SIZE) = NUM_INODES := by decide
  have hout {s n : ℕ} (hs : s + n ≤ 289 ∨ 290 ≤ s) (hle' : s + n ≤ 2 ^ 32) :
      (c.dev.disk.store m INODE_MAP_SIZE Fs.INODE_MAP).bytes n s = c.dev.disk.bytes n s :=
    Disk.bytes_store_of_disjoint hle hle' (by omega)
  refine ⟨⟨{ c.mem with buf := Function.update c.mem.buf .inode_map m },
    ⟨c.dev.disk.store m INODE_MAP_SIZE Fs.INODE_MAP, c.dev.maps⟩⟩, ?_, ?_⟩
  · simp only [Fs.setBuf, exec_bind, exec_modify, Option.bind_some, exec_bwrite_units, Function.update_self]
    rw [if_neg (by omega)]
  ext : 1
  · funext j
    show bit ((c.dev.disk.store m INODE_MAP_SIZE Fs.INODE_MAP).bytes INODE_MAP_SIZE Fs.INODE_MAP) j = f j
    by_cases hj : j < NUM_INODES
    · rw [bit_store _ _ hle (by omega), hm j hj]
    · rw [bit_bytes_of_le _ _ _ (by omega), hf j (by omega)]
  · simp only [Whole.of, Disk.bmap]
    rw [hout (by omega) (by omega)]
  · simp only [Whole.of]
    funext j
    split
    · next hj =>
      unfold NUM_INODES at hj
      have hsec := inodeSector_eq j
      rw [hout (by omega) (by omega)]
    · rfl
  · simp only [Whole.of, NUM_BLOCKS_eq]
    funext b'
    split
    · next hb' =>
      have hsec := blockSector_eq b'
      rw [hout (by omega) (by omega)]
    · rfl
  all_goals rfl

/-- Changing one bit of the inode map. -/
theorem Goes.updateImap {i : ℕ} {v : Bool} (hi : i < NUM_INODES) (m : Bytes)
    (hm : ∀ j < NUM_INODES, bit m j = Function.update V.imap i v j) : ∀ c, Whole.of c = V → ∃ c', exec units (do
      Fs.setBuf .inode_map m
      Fs.bwrite .inode_map INODE_MAP_SIZE Fs.INODE_MAP) c = some ((), c') ∧
      Whole.of c' = { V with imap := Function.update V.imap i v } := by
  intro c hc
  refine Goes.writeImap m hm (fun j hj => ?_) c hc
  rw [Function.update_of_ne (by omega), ← hc]
  exact bit_bytes_of_le _ _ _ (by rwa [show 8 * (INODE_MAP_SIZE * SECTOR_SIZE) = NUM_INODES by decide])

/-- The inode `find_free_inode` takes. -/
def Whole.freeInode (V : Whole) : Option ℕ := firstClear V.imap NUM_INODES

theorem Goes.find_free_inode {i : ℕ} (h : V.freeInode = some i) :
    Goes V Fs.find_free_inode fun r V' => r = i ∧ V' = { V with imap := Function.update V.imap i true } := by
  obtain ⟨hi, -, -⟩ := firstClear_eq_some.mp h
  refine Goes.of_exec fun c hc => ?_
  obtain ⟨c₁, he₁, hc₁, hbits⟩ := Goes.readImap c hc
  have hscan : scan (c₁.mem.buf .inode_map) (INODE_MAP_SIZE * SECTOR_SIZE)
      (INODE_MAP_SIZE * SECTOR_SIZE * 8) = some i := by
    rw [scan_eq (by decide), ← h, Whole.freeInode]
    exact firstClear_congr hbits
  obtain ⟨c₂, he₂, hc₂⟩ := Goes.updateImap hi (setBit (c₁.mem.buf .inode_map) i) (v := true) (fun j hj => by
    rw [bit_setBit, hbits j hj, Function.update_apply]
    by_cases hji : j = i <;> simp [hji]) c₁ hc₁
  refine ⟨c₂, ?_, hc₂⟩
  rw [exec_bind, Option.bind_eq_some_iff] at he₂
  obtain ⟨⟨_, c'⟩, hset, hwrite⟩ := he₂
  simp only [Fs.find_free_inode, exec_bind, he₁, Option.bind_some, exec_get, hscan, hset, hwrite, exec_pure]

theorem Goes.find_free_inode_none (h : V.freeInode = none) :
    Goes V Fs.find_free_inode fun r V' => r = FAIL ∧ V' = V := by
  refine Goes.of_exec fun c hc => ?_
  obtain ⟨c₁, he₁, hc₁, hbits⟩ := Goes.readImap c hc
  have hscan : scan (c₁.mem.buf .inode_map) (INODE_MAP_SIZE * SECTOR_SIZE)
      (INODE_MAP_SIZE * SECTOR_SIZE * 8) = none := by
    rw [scan_eq (by decide), ← h, Whole.freeInode]
    exact firstClear_congr hbits
  refine ⟨c₁, ?_, hc₁⟩
  simp only [Fs.find_free_inode, exec_bind, he₁, Option.bind_some, exec_get, hscan, exec_pure]

/-- Clearing a bit of the inode map, as `free_inode` does at its end. -/
theorem Goes.clearImap {i : ℕ} (hi : i < NUM_INODES) : Goes V (do
      Fs.bread .inode_map INODE_MAP_SIZE Fs.INODE_MAP
      if INODE_MAP_SIZE * SECTOR_SIZE ≤ i / 8 then stop
      else do
        let s ← get
        Fs.setBuf .inode_map (clearBit (s.buf .inode_map) i)
        Fs.bwrite .inode_map INODE_MAP_SIZE Fs.INODE_MAP) fun r V' => r =
        () ∧ V' = { V with imap := Function.update V.imap i false } := by
  refine Goes.of_exec fun c hc => ?_
  have hmap : ¬ INODE_MAP_SIZE * SECTOR_SIZE ≤ i / 8 := by
    unfold NUM_INODES at hi
    rw [INODE_MAP_SIZE, SECTOR_SIZE]
    omega
  obtain ⟨c₁, he₁, hc₁, hbits⟩ := Goes.readImap c hc
  obtain ⟨c₂, he₂, hc₂⟩ := Goes.updateImap hi (clearBit (c₁.mem.buf .inode_map) i) (v := false) (fun j hj => by
    rw [bit_clearBit, hbits j hj, Function.update_apply]
    by_cases hji : j = i <;> simp [hji]) c₁ hc₁
  refine ⟨c₂, ?_, hc₂⟩
  simp only [exec_bind, he₁, Option.bind_some, if_neg hmap, exec_get]
  rwa [exec_bind] at he₂

end Steps

end OsLab
