import OsLab.Fs.Space
import OsLab.Fs.Names
import Mathlib.Data.Nat.Digits.Defs

/-!
# Volumes in order

`Vol.Inv` says what the file system relies on between two calls: the space of the volume is in
order (`Space`), its names are (`Names.Inv`), inodes know their own number and type, directories
have one block, the blocks of a file lie below its size, and the working directory is one of the
directories, as it stands on the disk.
-/

namespace OsLab

open Lib ProgM Bytes

/-! ### Files and their blocks -/

/-- The number of blocks a file of a size has. -/
def nblocks (size : UInt32) : ℕ := (size.toNat + 4095) / 4096

/-- The first block number below pointer `k` of an inode. -/
def base (k : Fin 10) : ℕ :=
  if k < 7 then k
  else if k = 7 then DIRECT_BLOCK_NUM
  else if k = 8 then DIRECT_BLOCK_NUM + NBLOCK_LV1
  else DIRECT_BLOCK_NUM + NBLOCK_LV1 + NBLOCK_LV2

/-- The first block number below the node at `ws` under pointer `k`. -/
def firstId (k : Fin 10) (ws : List ℕ) : ℕ := base k + 1024 ^ (k - 6 - ws.length) * Nat.ofDigits 1024 ws

namespace Vol

variable {V V' : Vol}

/-- Entry `j` of block `b`, as a `bread` of the block delivers it. -/
def entry (V : Vol) (b j : ℕ) : Dentry := getDentry (ofSector (V.data b)) (32 * j)

/-- The block of a directory. -/
def dirBlock (V : Vol) (i : ℕ) : ℕ := blockOf ((V.inode i).blocks 0)

/-- The number of the working directory. -/
def cwd (V : Vol) : ℕ := V.wd.ino.toNat

/-- The tree of names of a volume. -/
def names (V : Vol) : Names where
  kind i := if V.imap i then some (if (V.inode i).type = IT_DIR then .dir else .file) else none
  dent i j := V.entry (V.dirBlock i) j
  nlink i := (V.inode i).nlink

/-- An allocated directory. -/
abbrev IsDir (V : Vol) (i : ℕ) : Prop := V.names.kind i = some .dir

/-- An allocated file. -/
abbrev IsFile (V : Vol) (i : ℕ) : Prop := V.names.kind i = some .file

theorem isDir_iff {i : ℕ} : V.IsDir i ↔ V.imap i = true ∧ (V.inode i).type = IT_DIR := by
  simp only [IsDir, names]
  by_cases hi : V.imap i = true <;> by_cases ht : (V.inode i).type = IT_DIR <;> simp [hi, ht]

theorem isFile_iff {i : ℕ} : V.IsFile i ↔ V.imap i = true ∧ (V.inode i).type ≠ IT_DIR := by
  simp only [IsFile, names]
  by_cases hi : V.imap i = true <;> by_cases ht : (V.inode i).type = IT_DIR <;> simp [hi, ht]

theorem imap_of_kind {i : ℕ} {k : Kind} (h : V.names.kind i = some k) : V.imap i = true := by
  simp only [names] at h
  by_contra hi
  simp [hi] at h

theorem kind_eq_none {i : ℕ} : V.names.kind i = none ↔ V.imap i = false := by
  simp only [names]
  by_cases hi : V.imap i = true <;> simp [hi]

/-- The blocks of file `i` lie below block number `n`. -/
def Covers (V : Vol) (i n : ℕ) : Prop :=
  ∀ k ws, ws.length ≤ depth (i, k) → V.follow (i, k) ws ≠ none → firstId k ws < n

/-- The volume is in order, apart from the names. -/
structure Base (V : Vol) : Prop where
  space : V.Space
  lt : ∀ {i}, V.imap i = true → i < NUM_INODES
  type : ∀ {i}, V.imap i = true → (V.inode i).type = IT_DIR ∨ (V.inode i).type = IT_FILE
  ino : ∀ {i}, V.imap i = true → (V.inode i).ino.toNat = i
  /-- The root is a directory and has the first block. -/
  root : V.IsDir 0 ∧ (V.inode 0).blocks 0 = sec 0
  /-- A directory has one block. -/
  dir : ∀ {i}, V.IsDir i → (V.inode i).blocks 0 ≠ 0 ∧ ∀ k, k ≠ 0 → (V.inode i).blocks k = 0
  cover : ∀ {i}, V.IsFile i → V.Covers i (nblocks (V.inode i).size)
  cwd : V.IsDir V.cwd
  wd : V.wd = V.inode V.cwd
  /-- The first and the last sector of a block agree. -/
  uniform : ∀ {b}, b ≠ 0 → b < NUM_BLOCKS → V.bmap b = true → V.first b = V.data b

/-- The volume is in order. -/
structure Inv (V : Vol) : Prop extends Base V where
  names : V.names.Inv

namespace Base

variable (h : V.Base)

include h

theorem cwd_lt : V.cwd < NUM_INODES := h.lt (imap_of_kind h.cwd)

/-- The block of a directory. -/
theorem dirBlock {i : ℕ} (hi : V.IsDir i) :
    V.dirBlock i < NUM_BLOCKS ∧ (V.inode i).blocks 0 = sec (V.dirBlock i) ∧
      V.follow (i, 0) [] = some (sec (V.dirBlock i)) := by
  have hf : V.follow (i, 0) [] = some ((V.inode i).blocks 0) := by
    simp only [follow, Forest.follow_nil, forest, imap_of_kind hi, if_true, nz_of_ne (h.dir hi).1]
  obtain ⟨b, hb, he⟩ := h.space.range _ _ _ (by simp) hf
  have hbb : V.dirBlock i = b := by rw [Vol.dirBlock, he, blockOf_sec hb]
  rw [hf, hbb, he]
  exact ⟨hb, rfl, rfl⟩

/-- Different directories have different blocks. -/
theorem dirBlock_inj {i i' : ℕ} (hi : V.IsDir i) (hi' : V.IsDir i') (he : V.dirBlock i = V.dirBlock i') : i = i' := by
  have hf := (h.dirBlock hi).2.2
  rw [he] at hf
  exact congrArg Prod.fst (h.space.unshared _ _ _ _ _ (by simp) (by simp) hf (h.dirBlock hi').2.2).1

/-- The block of a directory is no index block. -/
theorem dirBlock_leaf {i : ℕ} (hi : V.IsDir i) (r : ℕ × Fin 10) (ws : List ℕ) (hl : ws.length < depth r) :
    V.follow r ws ≠ some (sec (V.dirBlock i)) :=
  h.space.bottom (by rfl) (h.dirBlock hi).2.2 r ws hl

theorem bmap_dirBlock {i : ℕ} (hi : V.IsDir i) : V.bmap (V.dirBlock i) = true := by
  obtain ⟨hb, -, hf⟩ := h.dirBlock hi
  exact (h.space.used _ hb).mpr ⟨_, _, by simp, hf⟩

end Base

/-! ### Changing an entry -/

/-- Overwrite entry `j` of block `b`. -/
def setEntry (V : Vol) (b j : ℕ) (e : Dentry) : Vol :=
  V.setBlock b ((putDentry (ofSector (V.data b)) (32 * j) e).sector 0)

theorem entry_of_data {b : ℕ} (hd : V'.data b = V.data b) (j : ℕ) : V'.entry b j = V.entry b j := by
  rw [entry, entry, hd]

/-- Beyond the sector that a `bread` delivers the entries are empty. -/
theorem entry_of_le (V : Vol) (b : ℕ) {j : ℕ} (hj : 16 ≤ j) : V.entry b j = Dentry.zero := by
  refine getDentry_zero fun k hk => ofSector_of_le _ ?_
  unfold SECTOR_SIZE
  omega

theorem entry_setEntry (V : Vol) {b j : ℕ} (hj : j < 16) (e : Dentry) (c k : ℕ) :
    (V.setEntry b j e).entry c k = if c = b ∧ k = j then e else V.entry c k := by
  by_cases hc : c = b
  · subst hc
    have hd : (V.setEntry c j e).data c = (putDentry (ofSector (V.data c)) (32 * j) e).sector 0 :=
      Function.update_self ..
    rw [entry, hd]
    -- An entry beyond the sector is zero on both sides.
    have hput : getDentry (ofSector ((putDentry (ofSector (V.data c)) (32 * j) e).sector 0)) (32 * k) =
        getDentry (putDentry (ofSector (V.data c)) (32 * j) e) (32 * k) := by
      refine getDentry_congr fun i h1 h2 => ?_
      by_cases hi : i < SECTOR_SIZE
      · rw [ofSector_sector_of_lt _ hi]
      · have hij : ¬ (32 * j ≤ i ∧ i < 32 * j + 32) := by
          unfold SECTOR_SIZE at hi
          omega
        rw [ofSector_of_le _ (by omega), putDentry, if_neg hij, ofSector_of_le _ (by omega)]
    rw [hput]
    by_cases hk : k = j
    · simp [hk]
    · rw [if_neg (by simp [hk]), getDentry_putDentry_of_disjoint _ _ (by omega)]
      rfl
  · have hd : (V.setEntry b j e).data c = V.data c := Function.update_of_ne hc _ _
    rw [entry_of_data hd, if_neg (by simp [hc])]

/-- Covering depends on the paths only. -/
theorem Covers.congr {i n : ℕ} (h : V.Covers i n)
    (hf : ∀ k ws, ws.length ≤ depth (i, k) → V'.follow (i, k) ws = V.follow (i, k) ws) :
    V'.Covers i n := fun k ws hl hp => h k ws hl (by rwa [← hf k ws hl])

theorem Covers.mono {i n m : ℕ} (h : V.Covers i n) (hnm : n ≤ m) : V.Covers i m :=
  fun k ws hl hp => Nat.lt_of_lt_of_le (h k ws hl hp) hnm

/-- Overwriting a block that holds no pointers keeps the volume in order. -/
theorem Base.setBlock (h : V.Base) {b : ℕ} (s : Sector) (hb : b < NUM_BLOCKS)
    (hleaf : ∀ r ws, ws.length < depth r → V.follow r ws ≠ some (sec b)) : (V.setBlock b s).Base where
  space := h.space.setBlock s hb hleaf
  lt := h.lt
  type := h.type
  ino := h.ino
  root := h.root
  dir := h.dir
  cover := fun hi => (h.cover hi).congr fun _ _ hl => h.space.follow_setBlock s hb hleaf hl
  cwd := h.cwd
  wd := h.wd
  uniform := by
    intro c hc0 hc hm
    show (if b = 0 then V.first else Function.update V.first b s) c = Function.update V.data b s c
    by_cases hcb : c = b
    · subst hcb
      rw [if_neg hc0, Function.update_self, Function.update_self]
    · rw [Function.update_of_ne hcb]
      split
      · exact h.uniform hc0 hc hm
      · rw [Function.update_of_ne hcb]
        exact h.uniform hc0 hc hm

/-- What overwriting an entry of directory `i` does to the names. -/
structure EntrySet (N N' : Names) (i j : ℕ) (e : Dentry) : Prop where
  kind : ∀ x, N'.kind x = N.kind x
  dent : ∀ x y, N.kind x = some .dir → N'.dent x y = if x = i ∧ y = j then e else N.dent x y
  nlink : ∀ x, N'.nlink x = N.nlink x

theorem Base.setEntry (h : V.Base) {i j : ℕ} (hi : V.IsDir i) (hj : j < 16) (e : Dentry) :
    (V.setEntry (V.dirBlock i) j e).Base ∧ EntrySet V.names (V.setEntry (V.dirBlock i) j e).names i j e := by
  refine ⟨h.setBlock _ (h.dirBlock hi).1 (h.dirBlock_leaf hi), fun x => rfl, fun x y hx => ?_, fun x => rfl⟩
  have hdb : (V.setEntry (V.dirBlock i) j e).dirBlock x = V.dirBlock x := rfl
  show (V.setEntry (V.dirBlock i) j e).entry ((V.setEntry (V.dirBlock i) j e).dirBlock x) y = _
  rw [hdb, entry_setEntry V hj]
  have : V.dirBlock x = V.dirBlock i ∧ y = j ↔ x = i ∧ y = j :=
    ⟨fun e => ⟨h.dirBlock_inj hx hi e.1, e.2⟩, fun e => ⟨by rw [e.1], e.2⟩⟩
  simp only [this]
  rfl

/-- The inode of the working directory is changed, in memory and on the disk. -/
def updWd (V : Vol) (I : Inode) : Vol := { V with wd := I, inode := Function.update V.inode V.cwd I }

theorem Base.blocks_updWd (h : V.Base) {I : Inode} (hb : I.blocks = V.wd.blocks) (x : ℕ) :
    ((V.updWd I).inode x).blocks = (V.inode x).blocks := by
  by_cases hx : x = V.cwd
  · rw [hx, show (V.updWd I).inode V.cwd = I from Function.update_self .., hb, h.wd]
  · rw [show (V.updWd I).inode x = V.inode x from Function.update_of_ne hx _ _]

theorem Base.forest_updWd (h : V.Base) {I : Inode} (hb : I.blocks = V.wd.blocks) : (V.updWd I).forest = V.forest := by
  unfold forest
  congr 1
  funext r
  rw [h.blocks_updWd hb]
  rfl

/-- Updating the working directory's counters and times keeps the volume in order and its names. -/
theorem Base.updWd (h : V.Base) {I : Inode} (hb : I.blocks = V.wd.blocks)
    (ht : I.type = V.wd.type) (hn : I.ino = V.wd.ino) :
    (V.updWd I).Base ∧ V.names.Same (V.updWd I).names := by
  have hinode : ∀ x, x ≠ V.cwd → (V.updWd I).inode x = V.inode x := fun x hx => Function.update_of_ne hx _ _
  have hself : (V.updWd I).inode V.cwd = I := Function.update_self ..
  have htype : ∀ x, ((V.updWd I).inode x).type = (V.inode x).type := by
    intro x
    by_cases hx : x = V.cwd
    · rw [hx, hself, ht, h.wd]
    · rw [hinode x hx]
  have hblocks := h.blocks_updWd hb
  have hkind : ∀ x, (V.updWd I).names.kind x = V.names.kind x := by
    intro x
    simp only [Vol.names, htype]
    rfl
  have hforest := h.forest_updWd hb
  have hcwd : (V.updWd I).cwd = V.cwd := by
    show I.ino.toNat = _
    rw [hn]
    rfl
  have hne : ∀ {x}, V.IsFile x → x ≠ V.cwd := by
    rintro x hx rfl
    rw [IsFile, h.cwd] at hx
    cases hx
  refine ⟨⟨h.space.congr (fun r ws _ => by rw [follow, hforest]) rfl, h.lt, ?_, ?_, ?_, ?_, ?_, ?_, ?_, h.uniform⟩,
    hkind, ?_, ?_⟩
  · intro i hi
    rw [htype]
    exact h.type hi
  · intro i hi
    by_cases hx : i = V.cwd
    · rw [hx, hself, hn]
      rfl
    · rw [hinode i hx]
      exact h.ino hi
  · rw [IsDir, hkind, hblocks]
    exact h.root
  · intro i hi
    rw [IsDir, hkind] at hi
    rw [hblocks]
    exact h.dir hi
  · intro i hi
    rw [IsFile, hkind] at hi
    rw [hinode i (hne hi)]
    exact (h.cover hi).congr fun k ws _ => by rw [follow, hforest]
  · rw [IsDir, hkind, hcwd]
    exact h.cwd
  · rw [hcwd, hself]
    rfl
  · intro x y _
    simp only [Vol.names, Vol.dirBlock, hblocks]
    rfl
  · intro x hx
    simp only [Vol.names]
    rw [hinode x (hne hx)]

/-! ### Changing an inode -/

theorem inode_setInode (V : Vol) (f : ℕ) (I : Inode) (x : ℕ) :
    (V.setInode f I).inode x = if x = f then I else V.inode x :=
  Function.update_apply ..

/-- What changing an inode, but not its type and pointers, does to the names. -/
structure NlinkSet (N N' : Names) (f : ℕ) (n : UInt16) : Prop where
  kind : ∀ x, N'.kind x = N.kind x
  dent : ∀ x y, N'.dent x y = N.dent x y
  nlink : ∀ x, N'.nlink x = if x = f then n else N.nlink x

/-- Changing a file's inode, but not its pointers, and not to a smaller size. -/
theorem Base.setFile (h : V.Base) {f : ℕ} {I : Inode} (hf : V.IsFile f) (hb : I.blocks = (V.inode f).blocks)
    (ht : I.type = (V.inode f).type) (hn : I.ino = (V.inode f).ino) (hs : nblocks (V.inode f).size ≤ nblocks I.size) :
    (V.setInode f I).Base ∧ NlinkSet V.names (V.setInode f I).names f I.nlink := by
  have htype : ∀ x, ((V.setInode f I).inode x).type = (V.inode x).type := by
    intro x
    rw [inode_setInode]
    split
    · next hx => rw [hx, ht]
    · rfl
  have hblocks : ∀ x, ((V.setInode f I).inode x).blocks = (V.inode x).blocks := by
    intro x
    rw [inode_setInode]
    split
    · next hx => rw [hx, hb]
    · rfl
  have hkind : ∀ x, (V.setInode f I).names.kind x = V.names.kind x := by
    intro x
    simp only [Vol.names, htype]
    rfl
  have hforest := forest_setInode (V := V) hb
  have hne : V.cwd ≠ f := by
    rintro rfl
    rw [IsFile, h.cwd] at hf
    cases hf
  refine ⟨⟨h.space.setInode hb, h.lt, ?_, ?_, ?_, ?_, ?_, ?_, ?_, h.uniform⟩, hkind, ?_, ?_⟩
  · intro i hi
    rw [htype]
    exact h.type hi
  · intro i hi
    rw [inode_setInode]
    split
    · next hx => rw [hn, hx]; exact h.ino (hx ▸ hi)
    · exact h.ino hi
  · rw [IsDir, hkind, hblocks]
    exact h.root
  · intro i hi
    rw [IsDir, hkind] at hi
    rw [hblocks]
    exact h.dir hi
  · intro i hi
    rw [IsFile, hkind] at hi
    have hc : (V.setInode f I).Covers i _ := (h.cover hi).congr fun k ws _ => by rw [follow, hforest]
    rw [inode_setInode]
    split
    · next hx => exact hc.mono (hx ▸ hs)
    · exact hc
  · rw [IsDir, hkind]
    exact h.cwd
  · rw [inode_setInode]
    show V.wd = if V.cwd = f then I else V.inode V.cwd
    rw [if_neg hne]
    exact h.wd
  · intro x y
    simp only [Vol.names, Vol.dirBlock, hblocks]
    rfl
  · intro x
    simp only [Vol.names]
    rw [inode_setInode]
    split <;> rfl

/-- What a new inode does to the names. -/
structure Created (N N' : Names) (i : ℕ) (k : Kind) : Prop where
  kind : ∀ x, N'.kind x = if x = i then some k else N.kind x
  dent : ∀ x y, N.kind x = some .dir → N'.dent x y = N.dent x y
  new : N'.nlink i = 1
  nlink : ∀ x, x ≠ i → N'.nlink x = N.nlink x

/-- A new file. -/
theorem Base.newFile (h : V.Base) {i : ℕ} (hi : V.imap i = false) (hlt : i < NUM_INODES) (now : UInt32) :
    ((V.takeInode i).setInode i (newInode i IT_FILE 0 0 now)).Base ∧
      Created V.names ((V.takeInode i).setInode i (newInode i IT_FILE 0 0 now)).names i .file := by
  have hne : ∀ {x k}, V.names.kind x = some k → x ≠ i := by
    rintro x k hx rfl
    rw [kind_eq_none.mpr hi] at hx
    cases hx
  have hzero : ∀ k, (newInode i IT_FILE 0 0 now).blocks k = 0 := by
    intro k
    simp [newInode]
  have himap : ∀ x, x ≠ i → (V.takeInode i).imap x = V.imap x := fun x hx => Function.update_of_ne hx _ _
  have hkind : ∀ x, ((V.takeInode i).setInode i (newInode i IT_FILE 0 0 now)).names.kind x =
      if x = i then some .file else V.names.kind x := by
    intro x
    simp only [Vol.names]
    rw [inode_setInode]
    by_cases hx : x = i
    · simp [hx, setInode, takeInode, newInode, IT_DIR, IT_FILE]
    · simp only [if_neg hx, setInode]
      rw [himap x hx]
      rfl
  have hold : ∀ {x k}, x ≠ i → ((V.takeInode i).setInode i (newInode i IT_FILE 0 0 now)).names.kind x = some k →
      V.names.kind x = some k := fun hx hk => by rwa [hkind, if_neg hx] at hk
  have hforest := forest_takeInode (V := V) hi hzero
  have hdir : ∀ {x}, ((V.takeInode i).setInode i (newInode i IT_FILE 0 0 now)).IsDir x → x ≠ i ∧ V.IsDir x := by
    intro x hx
    rw [IsDir, hkind] at hx
    split at hx
    · cases hx
    · next hxi => exact ⟨hxi, hx⟩
  refine ⟨⟨h.space.takeInode hi hzero, ?_, ?_, ?_, ?_, ?_, ?_, ?_, ?_, h.uniform⟩, hkind, ?_, ?_, ?_⟩
  · intro x hx
    by_cases hxi : x = i
    · exact hxi ▸ hlt
    · exact h.lt ((himap x hxi).symm.trans hx)
  · intro x hx
    rw [inode_setInode]
    split
    · exact Or.inr rfl
    · next hxi => exact h.type ((himap x hxi).symm.trans hx)
  · intro x hx
    rw [inode_setInode]
    split
    · next hxi => rw [hxi]; exact toNat_ino hlt
    · next hxi => exact h.ino ((himap x hxi).symm.trans hx)
  · have h0 := hne h.root.1
    rw [IsDir, hkind, if_neg h0, inode_setInode, if_neg h0]
    exact h.root
  · intro x hx
    obtain ⟨hxi, hx⟩ := hdir hx
    rw [inode_setInode, if_neg hxi]
    exact h.dir hx
  · intro x hx
    by_cases hxi : x = i
    · subst hxi
      intro k ws hl hp
      refine absurd ?_ hp
      rw [follow, hforest]
      -- The new file has no pointers.
      exact Forest.follow_eq_none (by simp [forest, hi]) ws
    · have hx := hold hxi hx
      rw [inode_setInode, if_neg hxi]
      exact (h.cover hx).congr fun k ws _ => by rw [follow, hforest]
  · rw [IsDir, hkind, if_neg]
    · exact h.cwd
    · exact hne h.cwd
  · rw [inode_setInode, if_neg]
    · exact h.wd
    · exact hne h.cwd
  · intro x y hx
    simp only [Vol.names, Vol.dirBlock]
    rw [inode_setInode, if_neg (hne hx)]
    rfl
  · simp only [Vol.names]
    rw [inode_setInode, if_pos rfl]
    rfl
  · intro x hx
    simp only [Vol.names]
    rw [inode_setInode, if_neg hx]
    rfl

end Vol

end OsLab
