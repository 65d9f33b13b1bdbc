import OsLab.Fs.Device

/-!
# Volumes

What the file system's state means. `Vol` is the volume: the two bitmaps, the inodes, the
blocks of the data area, the working directory and the open descriptors. Of a block it has the
sector a `bread` of the block delivers (`data`), which is the last one, and the first one
(`first`), which `do_read` starts from. The block map is partly in memory: a `bread` of the map
refreshes only its first 512 bytes.

`View` adds the buffers through which the functions pass data to each other, and `Does V x a V'`
says that the program `x`, started in any state with view `V`, comes back with `a` in a state
with view `V'`; `Spec V x Q` says so of some `a` and `V'` described by `Q`. A function is described
by what it does to views, and the rules `Does.bind`, `Does.seq` and `Spec.bind` put descriptions
together.
-/

namespace OsLab

open Lib ProgM

namespace Bytes

/-- A sector followed by zeros. -/
def ofSector (s : Sector) : Bytes := put (fun _ => 0) 0 s

theorem put_eq_ofSector {m : Bytes} (h : ∀ i, SECTOR_SIZE ≤ i → m i = 0) (s : Sector) : m.put 0 s = ofSector s := by
  funext i
  by_cases hi : i < SECTOR_SIZE
  · rw [put_of_lt _ _ hi, ofSector, put_of_lt _ _ hi]
  · rw [put_of_le _ _ (by omega), ofSector, put_of_le _ _ (by omega), h i (by omega)]

theorem ofSector_of_le (s : Sector) {i : ℕ} (h : SECTOR_SIZE ≤ i) : ofSector s i = 0 := put_of_le _ _ h

@[simp] theorem sector_ofSector (s : Sector) : (ofSector s).sector 0 = s := sector_put _ _ _

@[simp] theorem put_sector_self (m : Bytes) : m.put 0 (m.sector 0) = m := by
  funext i
  by_cases hi : i < SECTOR_SIZE
  · rw [put_of_lt _ _ hi]
    simp [sector]
  · rw [put_of_le _ _ (by omega)]

theorem ofSector_sector_of_lt (m : Bytes) {i : ℕ} (h : i < SECTOR_SIZE) : ofSector (m.sector 0) i = m i := by
  rw [ofSector, put_of_lt _ _ h]
  simp [sector]

end Bytes

open Bytes

/-! ### Where things are -/

/-- The first sector of block `b`. -/
def blockSector (b : ℕ) : ℕ := Fs.DATA + 8 * b

/-- The pointer to block `b`. -/
def sec (b : ℕ) : UInt32 := UInt32.ofNat (blockSector b)

/-- The sector of inode `i`. -/
def inodeSector (i : ℕ) : ℕ := FS_START_SECTOR + INODE_OFFSET + i / 8

theorem DATA_eq : Fs.DATA = 802 := by decide

theorem NUM_BLOCKS_eq : NUM_BLOCKS = 131003 := by decide

theorem toNat_sec {b : ℕ} (h : b < NUM_BLOCKS) : (sec b).toNat = blockSector b := by
  rw [NUM_BLOCKS_eq] at h
  rw [sec, UInt32.toNat_ofNat', Nat.mod_eq_of_lt]
  rw [blockSector, DATA_eq]
  omega

theorem sec_inj {b b' : ℕ} (h : b < NUM_BLOCKS) (h' : b' < NUM_BLOCKS) (he : sec b = sec b') : b = b' := by
  have := congrArg UInt32.toNat he
  rw [toNat_sec h, toNat_sec h', blockSector, blockSector] at this
  omega

theorem sec_ne_zero {b : ℕ} (h : b < NUM_BLOCKS) : sec b ≠ 0 := by
  intro he
  have := congrArg UInt32.toNat he
  rw [toNat_sec h, blockSector, DATA_eq] at this
  simp at this

/-- The block a pointer points to. -/
def blockOf (p : UInt32) : ℕ := (p.toNat - Fs.DATA) / 8

@[simp] theorem blockOf_sec {b : ℕ} (h : b < NUM_BLOCKS) : blockOf (sec b) = b := by
  rw [blockOf, toNat_sec h, blockSector]
  omega

/-! ### Volumes and views -/

/-- The memory and the disk. -/
abbrev St := Conf Mem Disk

/-- A volume. -/
@[ext]
structure Vol where
  /-- The inode map. -/
  imap : ℕ → Bool
  /-- The block map. -/
  bmap : ℕ → Bool
  /-- The inodes. -/
  inode : ℕ → Inode
  /-- The sector that a `bread` of a block delivers. -/
  data : ℕ → Sector
  /-- The first sector of a block other than the first block of all. -/
  first : ℕ → Sector
  /-- `wd_inode`. -/
  wd : Inode
  /-- `fdesc_array`. -/
  fdesc : Fin NUM_FDESCS → Fdesc

/-- A volume and the buffers. -/
@[ext]
structure View extends Vol where
  /-- `dentry_buffer`. -/
  dbuf : Bytes
  /-- `inode_buffer`, inode by inode. -/
  ibuf : ℕ → Inode
  /-- `rdata_buffer`. -/
  rbuf : Bytes
  /-- `wdata_buffer`. -/
  wbuf : Bytes
  /-- What the coming calls of `get_timer` answer. -/
  clock : ℕ → UInt32
  /-- The sectors below the file system, which it never writes. -/
  boot : ℕ → Sector

/-- The view of a state. -/
def View.of (st : St) : View where
  imap i := bit (ofSector (st.dev Fs.INODE_MAP)) i
  bmap b := bit ((st.mem.buf .block_map).put 0 (st.dev (Fs.BLOCK_MAP + 31))) b
  inode i := if i < NUM_INODES then getInode (ofSector (st.dev (inodeSector i))) (64 * (i % 8)) else Inode.zero
  data b := st.dev (blockSector b + 7)
  first b := if b = 0 then fun _ => 0 else st.dev (blockSector b)
  wd := st.mem.wd_inode
  fdesc := st.mem.fdesc_array
  dbuf := st.mem.buf .dentry_buffer
  ibuf k := if k < 8 then getInode (st.mem.buf .inode_buffer) (64 * k) else Inode.zero
  rbuf := st.mem.buf .rdata_buffer
  wbuf := st.mem.buf .wdata_buffer
  clock := st.mem.clock
  boot s := if s < FS_START_SECTOR then st.dev s else fun _ => 0

/-- The buffers of whole blocks hold nothing beyond the sector a `bread` replaces. -/
structure View.Tidy (V : View) : Prop where
  dbuf : ∀ i, SECTOR_SIZE ≤ i → V.dbuf i = 0
  rbuf : ∀ i, SECTOR_SIZE ≤ i → V.rbuf i = 0

/-- Program `x` takes view `V` to view `V'` and returns `a`. -/
def Does {α : Type} (V : View) (x : FsM α) (a : α) (V' : View) : Prop :=
  ∀ st, View.of st = V → ∃ st', exec disk x st = some (a, st') ∧ View.of st' = V'

variable {α β : Type} {V V' V'' : View}

theorem Does.pure (a : α) : Does V (pure a) a V := fun st h => ⟨st, rfl, h⟩

/-- The rule for sequences. -/
theorem Does.bind {x : FsM α} {f : α → FsM β} {a : α} {b : β} (hx : Does V x a V') (hf : Does V' (f a) b V'') :
    Does V (x >>= f) b V'' := by
  intro st hst
  obtain ⟨st', h, hst'⟩ := hx st hst
  obtain ⟨st'', h', hst''⟩ := hf st' hst'
  exact ⟨st'', by simp [h, h'], hst''⟩

/-- Program `x` comes back from `V`, with a result and a view as described by `Q`. -/
def Spec {α : Type} (V : View) (x : FsM α) (Q : α → View → Prop) : Prop := ∃ a V', Does V x a V' ∧ Q a V'

section Spec

variable {Q : β → View → Prop} {P : α → View → Prop}

theorem Spec.pure {b : β} (h : Q b V) : Spec V (pure b) Q := ⟨b, V, Does.pure b, h⟩

theorem Does.spec {x : FsM β} {b : β} (hx : Does V x b V') (h : Q b V') : Spec V x Q := ⟨b, V', hx, h⟩

theorem Does.seq {x : FsM α} {f : α → FsM β} {a : α} (hx : Does V x a V') (hf : Spec V' (f a) Q) :
    Spec V (x >>= f) Q := by
  obtain ⟨b, V'', hb, hq⟩ := hf
  exact ⟨b, V'', hx.bind hb, hq⟩

theorem Spec.bind {x : FsM α} {f : α → FsM β} (hx : Spec V x P) (hf : ∀ a V', P a V' → Spec V' (f a) Q) :
    Spec V (x >>= f) Q := by
  obtain ⟨a, V', ha, hp⟩ := hx
  exact ha.seq (hf a V' hp)

theorem Spec.mono {x : FsM α} {P' : α → View → Prop} (hx : Spec V x P) (h : ∀ a V', P a V' → P' a V') :
    Spec V x P' := by
  obtain ⟨a, V', ha, hp⟩ := hx
  exact ⟨a, V', ha, h a V' hp⟩

/-- The rule for conditionals without alternative. -/
theorem Spec.ifThen {c : Prop} [Decidable c] {x : FsM Unit}
    {R : Unit → View → Prop} (hx : c → Spec V x R) (hno : ¬ c → R () V) :
    Spec V (Fs.ifThen c x) R := by
  unfold Fs.ifThen
  split
  · next h => exact hx h
  · next h => exact Spec.pure (hno h)

/-- The rule for loops over a list. -/
theorem Spec.forM {l : List α} {f : α → FsM Unit} {P : View → Prop}
    (hf : ∀ j ∈ l, ∀ V, P V → Spec V (f j) fun _ V' => P V') (hP : P V) : Spec V (l.forM f) fun _ V' => P V' := by
  induction l generalizing V with
  | nil => exact Spec.pure hP
  | cons j l ih =>
    show Spec V (f j >>= fun _ => l.forM f) _
    exact (hf j (by simp) V hP).bind fun _ V' hP' => ih (fun j' hj' => hf j' (by simp [hj'])) hP'

end Spec

/-! ### Runs from one state -/

/-- From `st` the program comes back, with a result and a state as described by `Q`. -/
def Runs {α : Type} (st : St) (x : FsM α) (Q : α → St → Prop) : Prop :=
  ∃ a st', exec disk x st = some (a, st') ∧ Q a st'

theorem Runs.pure {α : Type} {st : St} {a : α} {Q : α → St → Prop} (h : Q a st) : Runs st (pure a) Q := ⟨a, st, rfl, h⟩

theorem Runs.mono {α : Type} {st : St} {x : FsM α} {P Q : α → St → Prop}
    (hx : Runs st x P) (h : ∀ a st', P a st' → Q a st') :
    Runs st x Q := by
  obtain ⟨a, st', he, hp⟩ := hx
  exact ⟨a, st', he, h a st' hp⟩

/-- Two descriptions of one run. -/
theorem Runs.and {α : Type} {st : St} {x : FsM α} {P Q : α → St → Prop} (hp : Runs st x P) (hq : Runs st x Q) :
    Runs st x fun a st' => P a st' ∧ Q a st' := by
  obtain ⟨a, st₁, he, hp⟩ := hp
  obtain ⟨b, st₂, he₂, hq⟩ := hq
  obtain ⟨rfl, rfl⟩ := Prod.mk.inj (Option.some.inj (he.symm.trans he₂))
  exact ⟨a, st₁, he, hp, hq⟩

theorem Spec.runs {α : Type} {st : St} {x : FsM α} {Q : α → View → Prop} (h : Spec (View.of st) x Q) :
    Runs st x fun a st' => Q a (View.of st') := by
  obtain ⟨a, V', hdoes, hq⟩ := h
  obtain ⟨st', he, hst'⟩ := hdoes st rfl
  subst hst'
  exact ⟨a, st', he, hq⟩

/-- What is said of a program may be shown of the rest of it, after a first part has run. -/
def Onward {β : Type} (G : St → FsM β → Prop) : Prop :=
  ∀ (α : Type) (x : FsM α) (f : α → FsM β) (st st' : St) (a : α),
    exec disk x st = some (a, st') → G st' (f a) → G st (x >>= f)

section Onward

variable {α β : Type} {G : St → FsM β → Prop} {st : St}

theorem Runs.onward (Q : β → St → Prop) : Onward fun st x => Runs st x Q := by
  rintro α x f st st₁ a he ⟨b, st₂, he₂, hq⟩
  exact ⟨b, st₂, by rw [exec_bind, he, Option.bind_some, he₂], hq⟩

theorem Runs.bind {x : FsM α} {f : α → FsM β} {P : α → St → Prop} (hx : Runs st x P) (hG : Onward G)
    (hf : ∀ a st', P a st' → G st' (f a)) : G st (x >>= f) := by
  obtain ⟨a, st', he, hp⟩ := hx
  exact hG α x f st st' a he (hf a st' hp)

theorem Does.runs {x : FsM α} {f : α → FsM β} {a : α} (hx : Does (View.of st) x a V') (hG : Onward G)
    (hf : ∀ st', View.of st' = V' → G st' (f a)) : G st (x >>= f) := by
  obtain ⟨st', he, hst'⟩ := hx st rfl
  exact hG α x f st st' a he (hf st' hst')

end Onward

/-- The same of views: what is said of a program may be shown of the rest of it. -/
def Leads {β : Type} (G : View → FsM β → Prop) : Prop :=
  ∀ (α : Type) (x : FsM α) (f : α → FsM β) (V V' : View) (a : α), Does V x a V' → G V' (f a) → G V (x >>= f)

section Leads

variable {α β : Type} {G : View → FsM β → Prop}

theorem Spec.leads (Q : β → View → Prop) : Leads fun V x => Spec V x Q := fun _ _ _ _ _ _ hx hf => hx.seq hf

theorem Onward.leads {H : St → FsM β → Prop} (hH : Onward H) : Leads fun V x => ∀ st, View.of st = V → H st x := by
  intro α x f V V' a hx hf st hst
  obtain ⟨st', he, hst'⟩ := hx st hst
  exact hH α x f st st' a he (hf st' hst')

theorem Leads.does (hG : Leads G) {x : FsM α} {f : α → FsM β} {a : α} (hx : Does V x a V') (hf : G V' (f a)) :
    G V (x >>= f) :=
  hG α x f V V' a hx hf

theorem Leads.spec (hG : Leads G) {x : FsM α} {f : α → FsM β} {P : α → View → Prop} (hx : Spec V x P)
    (hf : ∀ a V', P a V' → G V' (f a)) : G V (x >>= f) := by
  obtain ⟨a, V', ha, hp⟩ := hx
  exact hG.does ha (hf a V' hp)

end Leads

/-! ### Variables and buffers -/

theorem Does.wdInode : Does V Fs.wdInode V.wd V := by
  rintro st rfl
  exact ⟨_, rfl, rfl⟩

theorem Does.fdescs : Does V Fs.fdescs V.fdesc V := by
  rintro st rfl
  exact ⟨_, rfl, rfl⟩

theorem Does.dentries : Does V Fs.dentries (fun j => getDentry V.dbuf (32 * j)) V := by
  rintro st rfl
  exact ⟨_, rfl, rfl⟩

theorem Does.setDentryBuf (j : ℕ) (e : Dentry) :
    Does V (Fs.setDentryBuf j e) () { V with dbuf := putDentry V.dbuf (32 * j) e } := by
  rintro st rfl
  exact ⟨_, rfl, rfl⟩

theorem Does.rword (k : ℕ) : Does V (Fs.rword k) (get32 V.rbuf (4 * k)) V := by
  rintro st rfl
  exact ⟨_, rfl, rfl⟩

theorem Does.setRword (k : ℕ) (v : UInt32) : Does V (Fs.setRword k v) () { V with rbuf := put32 V.rbuf (4 * k) v } := by
  rintro st rfl
  exact ⟨_, rfl, rfl⟩

theorem Does.rbyte (o : ℕ) : Does V (Fs.rbyte o) (V.rbuf o) V := by
  rintro st rfl
  exact ⟨_, rfl, rfl⟩

theorem Does.setWbyte (o : ℕ) (c : UInt8) :
    Does V (Fs.setWbyte o c) () { V with wbuf := Function.update V.wbuf o c } := by
  rintro st rfl
  exact ⟨_, rfl, rfl⟩

theorem Does.setWd (I : Inode) : Does V (Fs.setWd I) () { V with wd := I } := by
  rintro st rfl
  exact ⟨_, rfl, rfl⟩

theorem Does.setFdesc (i : Fin NUM_FDESCS) (f : Fdesc) :
    Does V (Fs.setFdesc i f) () { V with fdesc := Function.update V.fdesc i f } := by
  rintro st rfl
  exact ⟨_, rfl, rfl⟩

theorem Does.get_timer : Does V Fs.get_timer (V.clock 0) { V with clock := fun n => V.clock (n + 1) } := by
  rintro st rfl
  exact ⟨_, rfl, rfl⟩

theorem Does.bzeroDentry : Does V (Fs.bzero .dentry_buffer) () { V with dbuf := fun _ => 0 } := by
  rintro st rfl
  exact ⟨_, rfl, rfl⟩

theorem Does.inodeBuf {k : ℕ} (hk : k < 8) : Does V (Fs.inodeBuf k) (V.ibuf k) V := by
  rintro st rfl
  exact ⟨st, by simp [Fs.inodeBuf, View.of, hk], rfl⟩

theorem Does.setInodeBuf {k : ℕ} (hk : k < 8) (I : Inode) :
    Does V (Fs.setInodeBuf k I) () { V with ibuf := Function.update V.ibuf k I } := by
  rintro st rfl
  refine ⟨_, rfl, ?_⟩
  have hbuf :
    ∀ k', (if k' < 8 then getInode (putInode (st.mem.buf .inode_buffer) (64 * k) I)
      (64 * k') else Inode.zero) =
      Function.update (View.of st).ibuf k I k' := by
    intro k'
    rw [Function.update_apply]
    by_cases hkk : k' = k
    · simp [hkk, hk]
    · rw [if_neg hkk, getInode_putInode_of_disjoint _ _ (by omega)]
      rfl
  exact congrArg (fun f => { View.of st with ibuf := f }) (funext hbuf)

theorem Does.bzeroRdata : Does V (Fs.bzero .rdata_buffer) () { V with rbuf := fun _ => 0 } := by
  rintro st rfl
  exact ⟨_, rfl, rfl⟩

/-! ### The device -/

theorem Disk.bread_apply {n s : ℕ} (d : Disk) (m : Bytes) (hn : 0 < n) (h : s + n ≤ 2 ^ 32) :
    d.bread m n s = m.put 0 (d (s + (n - 1))) := by
  rw [Disk.bread, if_neg (by omega), Nat.mod_eq_of_lt (by omega)]

theorem Disk.bwrite_apply {n s : ℕ} (d : Disk) (m : Bytes) (h : s + n ≤ 2 ^ 32) (x : ℕ) :
    d.bwrite m n s x = if s ≤ x ∧ x < s + n then m.sector 0 else d x := by
  have : Bcache.InRun n s x ↔ s ≤ x ∧ x < s + n := by
    constructor
    · rintro ⟨i, hi, rfl⟩
      rw [Nat.mod_eq_of_lt (by omega)]
      omega
    · rintro ⟨h1, h2⟩
      exact ⟨x - s, by omega, by rw [Nat.mod_eq_of_lt (by omega)]; omega⟩
  simp only [Disk.bwrite, this]

theorem exec_bread (b : Buffer) {n s : ℕ} (hn : 0 < n) (h : s + n ≤ 2 ^ 32) (st : St) :
    exec disk (Fs.bread b n s) st =
      some ((), { st with mem := { st.mem with
        buf := Function.update st.mem.buf b ((st.mem.buf b).put 0 (st.dev (s + (n - 1)))) } }) := by
  simp only [Fs.bread, Fs.setBuf, exec_bind, exec_get, exec_perform,
    disk, Option.bind_some, Option.map_some, exec_modify,
    Disk.bread_apply _ _ hn h]

theorem exec_bwrite (b : Buffer) {n s : ℕ} (h₁ : FS_START_SECTOR ≤ s)
    (h₂ : s + n ≤ FS_START_SECTOR + FS_NUM_SECTORS) (st : St) :
    exec disk (Fs.bwrite b n s) st = some ((), ⟨st.mem, st.dev.bwrite (st.mem.buf b) n s⟩) := by
  have hin : ∀ x ∈ runSectors n s, InRegion x := by
    intro x hx
    obtain ⟨i, hi, rfl⟩ := mem_runSectors.mp hx
    have : FS_START_SECTOR + FS_NUM_SECTORS < 2 ^ 32 := by decide
    rw [Nat.mod_eq_of_lt (by omega)]
    exact ⟨by omega, by omega⟩
  have hd : disk (.bwrite (st.mem.buf b) n s) st.dev = some ((), st.dev.bwrite (st.mem.buf b) n s) := if_pos hin
  have he := exec_perform (μ := Mem) disk st (Io.bwrite (st.mem.buf b) n s)
  rw [hd] at he
  exact he

theorem blockSector_le {b : ℕ} (h : b < NUM_BLOCKS) : FS_START_SECTOR + INODE_OFFSET + 512 ≤ blockSector b ∧
    blockSector b + 8 ≤ FS_START_SECTOR + FS_NUM_SECTORS := by
  rw [NUM_BLOCKS_eq] at h
  have : FS_START_SECTOR + INODE_OFFSET + 512 = 802 ∧ FS_START_SECTOR + FS_NUM_SECTORS = 1048832 := by decide
  rw [blockSector, DATA_eq]
  omega

theorem region_lt : FS_START_SECTOR + FS_NUM_SECTORS ≤ 2 ^ 32 := by decide

theorem BLOCK_SECTORS_eq : BLOCK_SECTORS = 8 := by decide

/-! Reading a block. -/

theorem Does.breadDentry {b : ℕ} (h : b < NUM_BLOCKS) :
    Does V (Fs.bread .dentry_buffer BLOCK_SECTORS (blockSector b)) ()
    { V with dbuf := V.dbuf.put 0 (V.data b) } := by
  rintro st rfl
  have := (blockSector_le h).2
  have := region_lt
  exact ⟨_, exec_bread _ (by decide) (by rw [BLOCK_SECTORS_eq]; omega) st, rfl⟩

theorem Does.breadRdata {b : ℕ} (h : b < NUM_BLOCKS) : Does V (Fs.bread .rdata_buffer BLOCK_SECTORS (blockSector b)) ()
    { V with rbuf := V.rbuf.put 0 (V.data b) } := by
  rintro st rfl
  have := (blockSector_le h).2
  have := region_lt
  exact ⟨_, exec_bread _ (by decide) (by rw [BLOCK_SECTORS_eq]; omega) st, rfl⟩

theorem Does.breadWdata {b : ℕ} (h : b < NUM_BLOCKS) : Does V (Fs.bread .wdata_buffer BLOCK_SECTORS (blockSector b)) ()
    { V with wbuf := V.wbuf.put 0 (V.data b) } := by
  rintro st rfl
  have := (blockSector_le h).2
  have := region_lt
  exact ⟨_, exec_bread _ (by decide) (by rw [BLOCK_SECTORS_eq]; omega) st, rfl⟩

theorem Does.breadFirst {b : ℕ} (h : b < NUM_BLOCKS) (h0 : b ≠ 0) : Does V (Fs.bread .rdata_buffer 1 (blockSector b)) ()
    { V with rbuf := V.rbuf.put 0 (V.first b) } := by
  rintro st rfl
  have := (blockSector_le h).2
  have := region_lt
  refine ⟨_, exec_bread _ (by decide) (by omega) st, ?_⟩
  have hf : (View.of st).first b = st.dev (blockSector b) := if_neg h0
  rw [hf]
  rfl

/-- Reading below the file system. -/
theorem Does.breadBoot {n s : ℕ} (hn : 0 < n) (h : s + n ≤ FS_START_SECTOR) : Does V (Fs.bread .rdata_buffer n s) ()
    { V with rbuf := V.rbuf.put 0 (V.boot (s + (n - 1))) } := by
  rintro st rfl
  have := region_lt
  refine ⟨_, exec_bread _ hn (by omega) st, ?_⟩
  have hb : (View.of st).boot (s + (n - 1)) = st.dev (s + (n - 1)) := if_pos (by omega)
  rw [hb]
  rfl

/-! Writing a block. -/

/-- A volume whose block `b` is overwritten. -/
def Vol.setBlock (V : Vol) (b : ℕ) (s : Sector) : Vol :=
  { V with data := Function.update V.data b s, first := if b = 0 then V.first else Function.update V.first b s }

theorem of_bwrite_block {b : ℕ} (h : b < NUM_BLOCKS) (st : St) (m : Bytes) :
    View.of ⟨st.mem, st.dev.bwrite m BLOCK_SECTORS (blockSector b)⟩ =
      { View.of st with toVol := (View.of st).toVol.setBlock b (m.sector 0) } := by
  have hb := blockSector_le h
  have hr := region_lt
  have happ : ∀ x, st.dev.bwrite m BLOCK_SECTORS (blockSector b) x =
      if blockSector b ≤ x ∧ x < blockSector b + 8 then m.sector 0 else st.dev x := by
    intro x
    rw [Disk.bwrite_apply _ _ (by rw [BLOCK_SECTORS_eq]; omega), BLOCK_SECTORS_eq]
  have hlow : ∀ x, x < FS_START_SECTOR + INODE_OFFSET + 512 →
      st.dev.bwrite m BLOCK_SECTORS (blockSector b) x = st.dev x :=
    fun x hx => by rw [happ, if_neg (by omega)]
  have hdata : ∀ c, st.dev.bwrite m BLOCK_SECTORS (blockSector b) (blockSector c + 7) =
      Function.update (View.of st).data b (m.sector 0) c := by
    intro c
    rw [happ, Function.update_apply]
    by_cases hc : c = b
    · rw [if_pos hc, if_pos (by rw [hc]; omega)]
    · rw [if_neg hc, if_neg (by unfold blockSector; omega)]
      rfl
  have hfirst : ∀ c, (if c = 0 then fun _ => 0 else st.dev.bwrite m BLOCK_SECTORS (blockSector b) (blockSector c)) =
      (if b = 0 then (View.of st).first else Function.update (View.of st).first b (m.sector 0)) c := by
    intro c
    by_cases hc0 : c = 0
    · rw [if_pos hc0]
      split
      · simp [View.of, hc0]
      · next hb0 => rw [Function.update_of_ne (by omega)]; simp [View.of, hc0]
    · rw [if_neg hc0, happ]
      by_cases hc : c = b
      · have hb0 : b ≠ 0 := hc ▸ hc0
        rw [hc, if_pos (by omega), if_neg hb0, Function.update_self]
      · rw [if_neg (by unfold blockSector; omega)]
        split
        · simp [View.of, hc0]
        · rw [Function.update_of_ne hc]; simp [View.of, hc0]
  ext : 1
  · simp only [View.of, Vol.setBlock]
    rw [hlow _ (by decide)]
  · simp only [View.of, Vol.setBlock]
    rw [hlow _ (by decide)]
  · simp only [View.of, Vol.setBlock]
    funext i
    split
    · next hi => rw [hlow _ (by unfold inodeSector; unfold NUM_INODES at hi; omega)]
    · rfl
  · exact funext hdata
  · exact funext hfirst
  case boot =>
    simp only [View.of]
    funext s
    split
    · next hs => rw [hlow s (Nat.lt_of_lt_of_le hs (by decide))]
    · rfl
  all_goals rfl

theorem Does.bwriteDentry {b : ℕ} (h : b < NUM_BLOCKS) :
    Does V (Fs.bwrite .dentry_buffer BLOCK_SECTORS (blockSector b)) ()
    { V with toVol := V.setBlock b (V.dbuf.sector 0) } := by
  rintro st rfl
  have := blockSector_le h
  exact ⟨_, exec_bwrite _ (by omega) (by rw [BLOCK_SECTORS_eq]; omega) st, of_bwrite_block h st _⟩

theorem Does.bwriteRdata {b : ℕ} (h : b < NUM_BLOCKS) :
    Does V (Fs.bwrite .rdata_buffer BLOCK_SECTORS (blockSector b)) ()
    { V with toVol := V.setBlock b (V.rbuf.sector 0) } := by
  rintro st rfl
  have := blockSector_le h
  exact ⟨_, exec_bwrite _ (by omega) (by rw [BLOCK_SECTORS_eq]; omega) st, of_bwrite_block h st _⟩

theorem Does.bwriteWdata {b : ℕ} (h : b < NUM_BLOCKS) :
    Does V (Fs.bwrite .wdata_buffer BLOCK_SECTORS (blockSector b)) ()
    { V with toVol := V.setBlock b (V.wbuf.sector 0) } := by
  rintro st rfl
  have := blockSector_le h
  exact ⟨_, exec_bwrite _ (by omega) (by rw [BLOCK_SECTORS_eq]; omega) st, of_bwrite_block h st _⟩

end OsLab
