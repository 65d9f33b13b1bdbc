import OsLab.Fs.Growing
import OsLab.Fs.Mkfs

/-!
# Formatting a device of whole blocks

`do_mkfs` makes the root, and in it `proc` and `sys`, one in the other, with the file `vm` (`Tip` is where
the next one is made). Into `vm` two lines are written; then the working directory is two levels up again,
at the root.
-/

namespace OsLab

open Lib ProgM Bytes

/-! ### The empty device -/

section Empty

variable {V : Whole} {N : Names}

/-- The root only. -/
def rootKind (i : ℕ) : Option Kind := if i = 0 then some .dir else none

theorem rootKind_eq_some {i : ℕ} {kd : Kind} : rootKind i = some kd ↔ i = 0 ∧ kd = .dir := by
  rw [rootKind]
  split
  · next h => simp [h, eq_comm]
  · next h => simp [h]

/-- A root that contains nothing. -/
theorem Names.Dots.grown (hd : N.Dots 0 0) (hk : N.kind = rootKind) : N.Grown := by
  have hroot : ∀ {i}, N.kind i = some .dir → i = 0 := fun hi => (rootKind_eq_some.mp (hk ▸ hi)).1
  have h0 : N.kind 0 = some .dir := by rw [hk]; rfl
  refine ⟨h0, fun {i} hi => ?_, fun hi hi0 => absurd (hroot hi) hi0,
    fun hi hi0 => absurd (hroot hi) hi0, fun {i y} hi hy hu => ?_,
    fun {i y} hi hy hu => ?_, fun {i y y'} hi hy hy' hu hs => ?_, fun {i y} hi hy hu => ?_⟩
  all_goals obtain rfl := hroot hi
  · rw [hd.dotdot.2]
    exact ⟨hd.dotdot.1, h0⟩
  · obtain hc | hc := hd.child hy hu
    · exact ⟨.dir, by rw [hc, h0]⟩
    · exact ⟨.dir, by rw [hc, h0]⟩
  · exact hd.vacant hy hu
  · exact hd.unique hy hy' hu hs
  · exact hd.component hy hu

/-- Formatting writes the superblock before all that is seen. -/
theorem Goes.bwriteSuperblock :
    Goes V (Fs.bwrite .superblock_buffer 1 FS_START_SECTOR) fun r V' => r = () ∧ V' = V := by
  rintro c rfl
  refine Returns.of_exec (exec_bwrite_units _ _ _ c) ⟨rfl, ?_⟩
  obtain ⟨hbm, hbs, him, his, h8⟩ := sectors_eq
  have hsec : FS_START_SECTOR = 256 := by decide
  have hout {s n : ℕ} (hs : 257 ≤ s) (hle : s + n ≤ 2 ^ 32) :
      (c.dev.disk.store (c.mem.buf .superblock_buffer) 1 FS_START_SECTOR).bytes n s = c.dev.disk.bytes n s :=
    Disk.bytes_store_of_disjoint (by omega) hle (by omega)
  ext : 1
  · simp only [Whole.of]
    rw [hout (by omega) (by omega)]
  · simp only [Whole.of, Disk.bmap]
    rw [hout (by omega) (by omega)]
  · simp only [Whole.of]
    funext i
    split
    · next hi =>
      unfold NUM_INODES at hi
      have := inodeSector_eq i
      rw [hout (by omega) (by omega)]
    · rfl
  · simp only [Whole.of, NUM_BLOCKS_eq]
    funext b
    split
    · next hb =>
      have := blockSector_eq b
      rw [hout (by omega) (by omega)]
    · rfl
  case maps =>
    simp only [Whole.of]
    rw [if_neg (by omega)]
  all_goals rfl

theorem Goes.zeroBmap : Goes V (do
    Fs.bzero .block_map
    Fs.bwrite .block_map BLOCK_MAP_SIZE Fs.BLOCK_MAP) fun r V' => r = () ∧
      V' = { V with bmap := fun _ => false, maps := V.maps ++ [fun _ => false] } :=
  Goes.of_exec (Goes.writeBmap (fun _ => 0) (fun i _ => bit_zero i) fun _ _ => rfl)

theorem Goes.zeroImap : Goes V (do
    Fs.bzero .inode_map
    Fs.bwrite .inode_map INODE_MAP_SIZE Fs.INODE_MAP) fun r V' => r = () ∧ V' = { V with imap := fun _ => false } :=
  Goes.of_exec (Goes.writeImap (fun _ => 0) (fun i _ => bit_zero i) fun _ _ => rfl)

theorem Goes.bzeroInode : Goes V (Fs.bzero .inode_buffer) fun r V' =>
    r = () ∧ V' = { V with ibuf := fun _ => Inode.zero } := by
  rintro c rfl
  refine Returns.of_exec rfl ⟨rfl, ?_⟩
  refine congrArg (fun f => { Whole.of c with ibuf := f }) (funext fun k => ?_)
  simp only [Function.update_self, getInode_zero, ite_self]

end Empty

/-! ### The root -/

namespace Whole

variable {V V' : Whole} {kind : ℕ → Option Kind} {k w m : ℕ} {wd : Inode} {fd : Fin NUM_FDESCS → Fdesc}

/-- Directory `w` is empty, and the blocks from `m` on are free. -/
structure Tip (V : Whole) (kind : ℕ → Option Kind) (k w m : ℕ) : Prop where
  hier : V.Hier kind k
  dir : kind w = some .dir
  dots : ∃ p, (V.names kind).Dots w p
  bmap : ∀ b, m ≤ b → V.bmap b = false

/-- The root as `do_mkfs` makes it. -/
theorem tip_root {root : Inode} (himap : V.imap = Function.update (fun _ => false) 0 true)
    (hbmap : V.bmap = Function.update (fun _ => false) 0 true) (hinode : V.inode 0 = root) (hino : root.ino = 0)
    (htype : root.type = IT_DIR) (hblk : root.blocks 0 = sec 0) (hdata : V.data 0 = dots 0 0) :
    V.Tip rootKind 1 0 1 := by
  have hblock : V.dirBlock 0 = 0 := by rw [dirBlock, hinode, hblk, blockOf_sec (by decide)]
  have hdir : rootKind 0 = some .dir := rfl
  have hent : ∀ y, (V.names rootKind).dent 0 y = getDentry (OsLab.dots 0 0) (32 * y) := by
    intro y
    show getDentry (V.data (V.dirBlock 0)) _ = _
    rw [hblock, hdata]
  have hdots : (V.names rootKind).Dots 0 0 := by
    refine ⟨?_, ?_, fun y hy _ => ?_⟩
    · rw [Names.child, hent, getDentry_dots_block, if_pos rfl]
      exact ⟨Dentry.str_strcpy Dentry.zero (by decide) (by decide), rfl⟩
    · rw [Names.child, hent, getDentry_dots_block, if_neg (by omega), if_pos rfl]
      exact ⟨Dentry.str_strcpy Dentry.zero (by decide) (by decide), rfl⟩
    · rw [hent, getDentry_dots_block, if_neg (by omega), if_neg (by omega)]
  refine ⟨⟨hdots.grown
    rfl, by decide, fun i => ?_, fun {i kd} hi => ?_,
    fun {i kd} hi => ?_, fun {i} hi => ?_, fun {i i'} hi hi' _ => ?_⟩,
    hdir, ⟨0, hdots⟩, fun b hb => ?_⟩
  · rw [himap, Function.update_apply]
    split
    · next h0 => simp [h0]
    · next h0 => simp [h0]
  · rw [(rootKind_eq_some.mp hi).1]
    exact Nat.one_pos
  · obtain ⟨rfl, rfl⟩ := rootKind_eq_some.mp hi
    rw [hinode, hino, htype]
    exact ⟨rfl, rfl⟩
  · obtain ⟨rfl, -⟩ := rootKind_eq_some.mp hi
    rw [hblock, hinode, hblk, hbmap]
    exact ⟨by decide, rfl, rfl⟩
  · rw [(rootKind_eq_some.mp hi).1, (rootKind_eq_some.mp hi').1]
  · rw [hbmap, Function.update_of_ne (by omega)]

/-- A step that is not seen. -/
theorem unseen {x : FsM Unit} (h : ∀ c, ∃ c', exec units x c = some ((), c') ∧ Place.of c' = Place.of c) :
    Takes ⟨V, wd, fd⟩ x fun r S' => r = () ∧ S' = ⟨V, wd, fd⟩ := by
  intro c hc
  obtain ⟨c', he, hs⟩ := h c
  exact Returns.of_exec he ⟨rfl, hs.trans hc⟩

/-- The root's inode and its block are written. -/
theorem writeRoot {x : FsM ℤ} {post : Option (ℤ × Conf Mem Units) → Prop} {root : Inode}
    (himap : V.imap = Function.update (fun _ => false) 0 true)
    (hbmap : V.bmap = Function.update (fun _ => false) 0 true)
    (hino : root.ino = 0) (htype : root.type = IT_DIR) (hblk : root.blocks 0 = sec 0)
    (hpost : ∀ V', V'.Tip rootKind 1 0 1 → Yields units Place.of ⟨V', V'.inode 0, fd⟩ x post) :
    Yields units Place.of ⟨V, wd, fd⟩ (do
      Fs.setInodeBuf (Fs.inodeidx2offset (UInt32.ofNat 0)) root
      Fs.bwrite .inode_buffer 1 (Fs.inodeidx2sector (UInt32.ofNat 0))
      Fs.setWd root
      Fs.writeDots (UInt32.ofNat 0) (UInt32.ofNat 0) (blockSector 0)
      x) post := by
  have hsec : Fs.inodeidx2sector (UInt32.ofNat 0) = inodeSector 0 := by decide
  rw [hsec]
  refine Yields.seq ((Goes.setInodeBuf (by decide) _).takes_eq (still_setInodeBuf _ _)) ?_
  refine Yields.seq ((Goes.bwriteInode (by decide)).takes_eq (still_bwrite _ _ _)) (Yields.seq (Takes.setWd _) ?_)
  refine Yields.seq ((Goes.writeDots (by decide) _ _).takes_eq (still_writeDots _ _ _)) ?_
  have hroot : Whole.storeInodes { V with ibuf := Function.update V.ibuf 0 root } 0 0 = root := by
    refine (if_pos ⟨by decide, rfl⟩).trans ?_
    show Function.update V.ibuf 0 root 0 = root
    exact Function.update_self ..
  refine (congrArg (fun I => Yields units Place.of ⟨_, I, fd⟩ x post) hroot).mp (hpost _ ?_)
  exact tip_root himap hbmap hroot hino htype hblk (Function.update_self 0 (dots 0 0) V.data)

/-- `do_mkfs` up to its call of `init_bcache_policy`. -/
theorem do_mkfs_root {post : Option (ℤ × Conf Mem Units) → Prop} (hpost : ∀ V', V'.Tip rootKind 1 0 1 →
      Yields units Place.of ⟨V', V'.inode 0, fd⟩ Fs.init_bcache_policy fun o => post (o.map fun r => (0, r.2))) :
    Yields units Place.of ⟨V, wd, fd⟩ Fs.do_mkfs post := by
  rw [Fs.do_mkfs]
  refine Yields.read fun s => Yields.seq (unseen fun c => ⟨{ c with mem := _ }, rfl, rfl⟩) ?_
  refine Yields.seq (Goes.bwriteSuperblock.takes_eq (still_bwrite _ _ _)) ?_
  refine Yields.assoc (Yields.seq (Goes.zeroBmap.takes_eq ((still_bzero _).bind fun _ => still_bwrite _ _ _)) ?_)
  refine Yields.assoc (Yields.seq (Goes.zeroImap.takes_eq ((still_bzero _).bind fun _ => still_bwrite _ _ _)) ?_)
  have hinode : ∀ W : Whole, W.imap = (fun _ => false) → W.freeInode = some 0 := by
    intro W hW
    rw [freeInode, hW]
    exact firstClear_eq_some.mpr ⟨by decide, rfl, fun j hj => absurd hj (Nat.not_lt_zero j)⟩
  have hblock : ∀ W : Whole, W.bmap = (fun _ => false) → W.freeBlock = some 0 := by
    intro W hW
    rw [freeBlock, hW]
    exact firstClear_eq_some.mpr ⟨by decide, rfl, fun j hj => absurd hj (Nat.not_lt_zero j)⟩
  refine Yields.seq (Goes.takes_eq (Goes.find_free_inode (hinode _ rfl)) still_find_free_inode) ?_
  refine Yields.seq (unseen fun c => ⟨{ c with mem := _ }, rfl, rfl⟩)
    (Yields.seq (Goes.bzeroInode.takes_eq (still_bzero _)) ?_)
  refine Yields.bind Takes.get_timer ?_
  rintro now _ rfl
  refine Yields.seq (Goes.takes_eq (Goes.find_free_block (hblock _ rfl)) still_find_free_block) ?_
  refine writeRoot rfl rfl rfl rfl rfl fun V' ht c hc => ?_
  have hp := hpost V' ht c hc
  rw [exec_bind]
  cases he : exec units Fs.init_bcache_policy c with
  | none => rwa [he] at hp
  | some r => rwa [he] at hp

/-! ### The calls of `init_bcache_policy` -/

/-- There is room in an empty directory. -/
theorem Tip.room {path : CString} {kd : Kind} (h : V.Tip kind k w m) (hk : k < NUM_INODES) (hm : m < NUM_BLOCKS)
    (hp : IsComponent path.chars) (hdot : path.chars ≠ [46]) (hdotdot : path.chars ≠ [46, 46]) :
    V.Room kind w path.chars kd := by
  obtain ⟨p, hd⟩ := h.dots
  refine ⟨hp.2.2.2, Names.look_eq_none.mpr fun y hy he => ?_, fun hn => ?_, fun _ hn => ?_, 2, by decide, ?_⟩
  · obtain ⟨-, hs, -⟩ | ⟨-, hs, -⟩ | ⟨-, hs, -⟩ := hd.cases hy
    · exact hdot (he.symm.trans hs)
    · exact hdotdot (he.symm.trans hs)
    · exact hp.1 (he.symm.trans hs)
  · exact absurd ((h.hier.imap k).mp (firstClear_eq_none.mp hn k hk)) (Nat.lt_irrefl k)
  · have := firstClear_eq_none.mp hn m hm
    rw [h.bmap m le_rfl] at this
    cases this
  · rw [hd.rest 2 le_rfl (by decide)]
    rfl

/-- `do_mkdir` and `do_cd` go one directory deeper. -/
theorem Tip.extend {path : CString} {α : Type} {x : FsM α}
    {post : Option (α × Conf Mem Units) → Prop} (h : V.Tip kind k w m)
    (hk : k < NUM_INODES) (hm : m < NUM_BLOCKS) (hp : IsComponent path.chars) (hdot : path.chars ≠ [46])
    (hdotdot : path.chars ≠ [46, 46]) (hpost : ∀ V', V'.Tip (Function.update kind k (some .dir)) (k + 1) k (m + 1) →
      Yields units Place.of ⟨V', V'.inode k, fd⟩ x post) :
    Yields units Place.of ⟨V, V.inode w, fd⟩ (do let _ ← Fs.do_mkdir path; let _ ← Fs.do_cd path; x) post := by
  refine Yields.bind (h.hier.do_mkdir h.dir hp.2.2.1) ?_
  rintro _ ⟨V₁, wd₁, fd₁⟩ ⟨hfd, hwd, hcases⟩
  dsimp only at hfd hwd hcases
  subst hfd hwd
  obtain ⟨hnew, hbmap⟩ := hcases.resolve_right fun hno => hno.1 (h.room hk hm hp hdot hdotdot)
  have hw : Function.update kind k (some .dir) w = some .dir := by
    rw [Function.update_of_ne (h.hier.lt h.dir).ne, h.dir]
  refine Yields.bind (hnew.hier.do_cd hw hp.2.2.1 hp.2.2.2) ?_
  rintro _ ⟨V₂, wd₂, fd₂⟩ ⟨hpk, hfd, w', hw', hwd, hto⟩
  dsimp only at hpk hfd hwd
  obtain rfl := hto hp.1 k hnew.look (Function.update_self ..)
  rw [← hpk.inode] at hwd
  subst hfd hwd
  refine hpost V₂ ⟨hpk.hier hnew.hier, Function.update_self .., ⟨w, ?_⟩, fun b hb => ?_⟩
  · rw [hpk.names]
    exact hnew.dots rfl
  · rw [hpk.bmap]
    by_contra hne
    obtain ht | hf := hbmap b (by simpa using hne)
    · rw [h.bmap b (by omega)] at ht
      cases ht
    · -- The first free block is not above `m`.
      have := (firstClear_eq_some.mp hf).2.2 m (by omega)
      rw [h.bmap m le_rfl] at this
      cases this

/-- `do_open` of a file in the working directory. -/
theorem Hier.do_open {f : ℕ} {path : CString} (h : V.Hier kind k)
    (hw : kind w = some .dir) (hp : IsComponent path.chars)
    (hl : (V.names kind).look w path.chars = some f) (hf : kind f = some .file) (mode : ℤ) :
    Takes ⟨V, V.inode w, fd⟩ (Fs.do_open path mode) fun r S' => V.Peeks S'.view ∧ S'.wd = V.inode w ∧
      ((∀ i, (fd i).valid ≠ 0) ∧ r = -1 ∨ ∃ i : Fin NUM_FDESCS, (fd i).valid = 0 ∧ r = (i : ℕ) ∧
        S'.fdesc = Function.update fd i ⟨UInt8.ofInt mode, 1, (V.inode f).ino, 0, 0⟩) := by
  refine Shows.bind (Takes.wdInode.seq ((h.find_inode hw rfl hp).takes (still_find_inode _ _))) ?_
  rintro r ⟨V₁, wd₁, fd₁⟩ ⟨⟨hpk, hfound⟩, hwd, hfd⟩
  dsimp only at hpk hfound hwd hfd
  subst hwd hfd
  rw [hl] at hfound
  obtain ⟨rfl, hbuf⟩ := hfound
  refine ((Goes.inodeBuf (Nat.mod_lt _ (by decide))).takes_eq (still_inodeBuf _)).seq ?_
  rw [hbuf, if_neg]
  · refine Takes.fdescs.seq ?_
    cases hfind : (List.finRange NUM_FDESCS).find? fun i => (fd₁ i).valid = 0 with
    | none =>
      refine Shows.pure ⟨hpk, rfl, Or.inl ⟨fun i => ?_, rfl⟩⟩
      simpa using List.find?_eq_none.mp hfind i (List.mem_finRange i)
    | some i =>
      have hv : (fd₁ i).valid = 0 := by simpa using List.find?_some hfind
      refine (Takes.setFdesc i _).seq (Shows.pure ⟨hpk, rfl, Or.inr ⟨i, hv, rfl, rfl⟩⟩)
  · rw [(h.inode hf).2]
    decide

/-! ### Writing within the first block -/

/-- The first block of the file at `inode_buffer[j]` is there. -/
theorem needBlock_there {j b : ℕ} (hj : j < 8) (hb : b < NUM_BLOCKS) (hblk : (V.ibuf j).blocks 0 = sec b) :
    Takes ⟨V, wd, fd⟩ (Fs.needBlock 0 j) fun r S' => r = sec b ∧ S' = ⟨V, wd, fd⟩ := by
  refine ((Goes.inodeBuf hj).takes_eq (still_inodeBuf _)).seq ?_
  rw [blockid2sector_first, hblk]
  refine Shows.seq (Shows.pure ⟨rfl, rfl⟩) ?_
  rw [if_neg (sec_ne_zero hb)]
  exact Shows.pure ⟨rfl, rfl⟩

/-- The loop of `do_write`, within the first block. -/
theorem writeLoop_first {j b : ℕ} (hj : j < 8) (hb : b < NUM_BLOCKS) (i : Fin NUM_FDESCS) (cs : List UInt8) {p : ℕ}
    (hblk : (V.ibuf j).blocks 0 = sec b) (hp : (fd i).write_pos.toNat = p) (hlt : p + cs.length < 4096) :
    Takes ⟨V, wd, fd⟩ (Fs.writeLoop i j cs) fun _ S' => ∃ q : UInt32, q.toNat = p + cs.length ∧
      S' = ⟨V, wd, Function.update fd i { fd i with write_pos := q }⟩ := by
  induction cs generalizing fd p with
  | nil =>
    refine Shows.pure ⟨(fd i).write_pos, hp, ?_⟩
    rw [Function.update_eq_self]
  | cons c cs ih =>
    simp only [List.length_cons] at hlt ⊢
    rw [Fs.writeLoop]
    refine Takes.fdescs.seq ?_
    dsimp only
    rw [hp, show BLOCK_SIZE = 4096 from rfl, show p / 4096 = 0 by omega, Nat.mod_eq_of_lt (show p < 4096 by omega)]
    -- Loading the block is not seen.
    refine Shows.bind (q := fun _ S' => S' = ⟨V, wd, fd⟩) ?_ ?_
    · rw [Fs.ifThen]
      split
      · exact (needBlock_there hj hb hblk).seq
          (((Goes.breadWdata _).takes_eq (still_bread _ _ _)).mono fun _ _ => And.right)
      · exact Shows.pure rfl
    rintro _ _ rfl
    refine ((Goes.setWbyte _ _).takes_eq (still_setWbyte _ _)).seq ?_
    rw [Fs.ifThen, if_neg (by omega)]
    refine Shows.seq (Shows.pure ⟨rfl, rfl⟩) ((Takes.setFdesc i _).seq ?_)
    have hpos : ((fd i).write_pos + 1).toNat = p + 1 := by
      rw [UInt32.toNat_add, hp, show (1 : UInt32).toNat = 1 from rfl]
      exact Nat.mod_eq_of_lt (by omega)
    refine (ih (p := p + 1) ?_ (by omega)).mono ?_
    · rw [Function.update_self]
      exact hpos
    · rintro _ _ ⟨q, hq, rfl⟩
      refine ⟨q, by omega, ?_⟩
      rw [Function.update_idem, Function.update_self]

/-- The first block of file `f` is `b`, or will be. -/
def FirstIs (V : Whole) (f b : ℕ) : Prop :=
  ((V.inode f).blocks 0 = sec b ∧ V.bmap b = true) ∨ ((V.inode f).blocks 0 = 0 ∧ V.freeBlock = some b)

/-- `V'` is `V` with `f` in the buffer, whose first block is `b`; `b` is used, and no other block changed. -/
structure FirstBlock (V V' : Whole) (f b : ℕ) : Prop where
  imap : V'.imap = V.imap
  inode : V'.inode = V.inode
  ibuf : V'.ibuf = Function.update (V.loadInodes f) (f % 8)
    { V.inode f with blocks := Function.update (V.inode f).blocks 0 (sec b) }
  data : ∀ c, c ≠ b → V'.data c = V.data c
  bmap : V'.bmap = Function.update V.bmap b true

theorem FirstBlock.blocks {f b : ℕ} (h : FirstBlock V V' f b) : (V'.ibuf (f % 8)).blocks 0 = sec b := by
  rw [h.ibuf, Function.update_self]
  exact Function.update_self 0 (sec b) (V.inode f).blocks

theorem needBlock_first {f b : ℕ} (hb : b < NUM_BLOCKS) (hfirst : V.FirstIs f b) :
    Takes ⟨{ V with ibuf := V.loadInodes f }, wd, fd⟩ (Fs.needBlock 0 (f % 8)) fun r S' =>
      r = sec b ∧ FirstBlock V S'.view f b ∧ S'.wd = wd ∧ S'.fdesc = fd := by
  have hj : f % 8 < 8 := Nat.mod_lt _ (by decide)
  obtain ⟨hblk, hused⟩ | ⟨hblk, hfree⟩ := hfirst
  · refine (needBlock_there hj hb (by dsimp only; rwa [V.loadInodes_mod])).mono ?_
    rintro _ _ ⟨rfl, rfl⟩
    refine ⟨rfl, ⟨rfl, rfl, ?_, fun _ _ => rfl, ?_⟩, rfl, rfl⟩
    · rw [← hblk, Function.update_eq_self, ← V.loadInodes_mod f, Function.update_eq_self]
    · rw [← hused, Function.update_eq_self]
  · refine ((Goes.inodeBuf hj).takes_eq (still_inodeBuf _)).seq ?_
    dsimp only
    rw [V.loadInodes_mod, blockid2sector_first, hblk]
    refine Shows.seq (Shows.pure ⟨rfl, rfl⟩) ?_
    rw [if_pos rfl, Fs.alloc_inode_block, dif_pos (by decide)]
    refine Shows.bind (q := fun _ S' => FirstBlock V S'.view f b ∧ S'.wd = wd ∧ S'.fdesc = fd) ?_ ?_
    · refine Shows.bind (q := fun _ S' => FirstBlock V S'.view f b ∧ S'.wd = wd ∧ S'.fdesc = fd) ?_ fun _ _ h₁ =>
        Shows.pure h₁
      have hfree' : freeBlock { V with ibuf := V.loadInodes f } = some b := hfree
      refine ((Goes.find_free_block hfree').takes_eq still_find_free_block).seq ?_
      refine ((Goes.inodeBuf hj).takes_eq (still_inodeBuf _)).seq
        (((Goes.setInodeBuf hj _).takes (still_setInodeBuf _ _)).mono ?_)
      rintro _ ⟨V₁, wd₁, fd₁⟩ ⟨⟨-, hV₁⟩, hwd, hfd⟩
      dsimp only at hV₁ hwd hfd
      subst hV₁
      refine ⟨⟨rfl, rfl, ?_, fun c hc => Function.update_of_ne hc _ _, rfl⟩, hwd, hfd⟩
      dsimp only [takeBlock]
      rw [V.loadInodes_mod]
      rfl
    · rintro _ ⟨V₁, wd₁, fd₁⟩ ⟨h₁, hwd, hfd⟩
      refine ((Goes.inodeBuf hj).takes_eq (still_inodeBuf _)).seq ?_
      rw [blockid2sector_first]
      exact Shows.pure ⟨h₁.blocks, h₁, hwd, hfd⟩

/-- `V'` is `V` with `b` as the first block of file `f`, after a write into that block. -/
structure Written (V V' : Whole) (f b : ℕ) : Prop where
  imap : V'.imap = V.imap
  bmap : V'.bmap = Function.update V.bmap b true
  data : ∀ c, c ≠ b → V'.data c = V.data c
  /-- The inodes in its sector, but for its own. -/
  same : ∀ x, x ≠ f → x / 8 = f / 8 → V'.inode x = V.inode x
  file : (V'.inode f).ino = (V.inode f).ino ∧ (V'.inode f).type = (V.inode f).type ∧ (V'.inode f).blocks 0 = sec b

/-- `do_write`, within the first block. -/
theorem do_write_first {i : Fin NUM_FDESCS} {f p b : ℕ} (hf : (fd i).ino.toNat = f) (hlt : f + 64 ≤ NUM_INODES)
    (hp : (fd i).write_pos.toNat = p) {cs : List UInt8} (hlen : p + cs.length < 4096) (hb : b < NUM_BLOCKS)
    (hfirst : V.FirstIs f b) : Takes ⟨V, wd, fd⟩ (Fs.do_write (i : ℕ) cs) fun _ S' =>
    V.Written S'.view f b ∧ S'.wd = wd ∧
      ∃ q : UInt32, q.toNat = p + cs.length ∧ S'.fdesc = Function.update fd i { fd i with write_pos := q } := by
  have hj : f % 8 < 8 := Nat.mod_lt _ (by decide)
  have hf' : f < NUM_INODES := by omega
  rw [Fs.do_write, fdIndex_coe]
  refine Takes.fdescs.seq ?_
  dsimp only
  rw [inodeidx2sector_eq (by rwa [hf]), Fs.inodeidx2offset, hf, hp,
    show BLOCK_SIZE = 4096 from rfl, show p / 4096 = 0 by omega]
  refine ((Goes.breadInode hf').takes_eq (still_bread _ _ _)).seq ((needBlock_first hb hfirst).bind ?_)
  rintro _ ⟨V₁, wd₁, fd₁⟩ ⟨rfl, h₁, hwd, hfd⟩
  dsimp only at h₁ hwd hfd
  subst hwd hfd
  refine ((Goes.breadWdata _).takes_eq (still_bread _ _ _)).seq ((writeLoop_first hj hb i cs h₁.blocks hp hlen).bind ?_)
  rintro _ _ ⟨q, hq, rfl⟩
  refine Takes.fdescs.seq ?_
  dsimp only
  rw [Function.update_self]
  -- Writing the data changes the file's own block only.
  refine Shows.bind (q := fun _ S' =>
    (∃ m, S'.view = { V₁ with data := m } ∧ ∀ c, c ≠ b → m c = V₁.data c) ∧ S'.wd = wd₁ ∧
    S'.fdesc = Function.update fd₁ i { fd₁ i with write_pos := q }) ?_ ?_
  · rw [Fs.ifThen]
    split
    · refine ((Goes.inodeBuf hj).takes_eq (still_inodeBuf _)).seq ?_
      rw [show BLOCK_SIZE = 4096 from rfl, show q.toNat / 4096 = 0 by omega, blockid2sector_first, h₁.blocks]
      refine Shows.seq (Shows.pure ⟨rfl, rfl⟩) ?_
      rw [toNat_sec hb]
      refine ((Goes.bwriteWdata hb).takes (still_bwrite _ _ _)).mono ?_
      rintro _ _ ⟨⟨m, hV⟩, hwd, hfd⟩
      exact ⟨⟨_, hV, fun c hc => Function.update_of_ne hc _ _⟩, hwd, hfd⟩
    · exact Shows.pure ⟨⟨V₁.data, rfl, fun _ _ => rfl⟩, rfl, rfl⟩
  rintro _ ⟨V₂, wd₂, fd₂⟩ ⟨⟨m, hV₂, hm⟩, hwd, hfd⟩
  dsimp only at hV₂ hwd hfd
  subst hV₂ hwd hfd
  refine ((Goes.inodeBuf hj).takes_eq (still_inodeBuf _)).seq (Takes.get_timer.bind ?_)
  rintro now _ rfl
  refine ((Goes.setInodeBuf hj _).takes_eq (still_setInodeBuf _ _)).seq
    (((Goes.bwriteInodes hlt).takes (still_bwrite _ _ _)).bind ?_)
  rintro _ ⟨V₃, wd₃, fd₃⟩ ⟨⟨g, hV₃, hg⟩, hwd, hfd⟩
  dsimp only at hV₃ hg hwd hfd
  subst hV₃ hwd hfd
  refine Shows.pure ⟨⟨h₁.imap, h₁.bmap, fun c hc => (hm c hc).trans (h₁.data c hc), fun x hx hx8 => ?_, ?_⟩,
    rfl, q, hq, rfl⟩
  · have hne : x % 8 ≠ f % 8 := by omega
    refine (hg x hx8).trans ((Function.update_of_ne hne _ _).trans ?_)
    rw [h₁.ibuf, Function.update_of_ne hne, loadInodes, if_pos (by omega), ← hx8, show x / 8 * 8 + x % 8 = x by omega]
  · have hself := (hg f rfl).trans (Function.update_self ..)
    dsimp only
    rw [hself, h₁.ibuf, Function.update_self]
    exact ⟨rfl, rfl, Function.update_self 0 (sec b) (V.inode f).blocks⟩

/-- `f` is a file whose first block is `b`, or will be. -/
structure FileAt (V : Whole) (kind : ℕ → Option Kind) (k f b : ℕ) : Prop where
  hier : V.Hier kind k
  /-- All inodes are in the first sector. -/
  le : k ≤ 8
  file : kind f = some .file
  lt : b < NUM_BLOCKS
  first : V.FirstIs f b
  apart : ∀ {x}, kind x = some .dir → V.dirBlock x ≠ b

theorem FileAt.peeks {f b : ℕ} (h : V.FileAt kind k f b) (hp : V.Peeks V') : V'.FileAt kind k f b := by
  refine ⟨hp.hier h.hier, h.le, h.file, h.lt, ?_, fun hx => ?_⟩
  · rw [FirstIs, freeBlock, hp.inode, hp.bmap]
    exact h.first
  · rw [dirBlock, hp.inode]
    exact h.apart hx

/-- Writing to the file changes no directory. -/
theorem FileAt.written {f b : ℕ} (h : V.FileAt kind k f b) (hW : V.Written V' f b) :
    V'.FileAt kind k f b ∧ ∀ {x}, kind x = some .dir → V'.inode x = V.inode x := by
  have hlt : ∀ {x kd}, kind x = some kd → x / 8 = f / 8 := by
    intro x kd hx
    have := h.hier.lt hx
    have := h.hier.lt h.file
    have := h.le
    omega
  have hdir : ∀ {x}, kind x = some .dir → V'.inode x = V.inode x := by
    intro x hx
    refine hW.same x ?_ (hlt hx)
    rintro rfl
    rw [h.file] at hx
    cases hx
  refine ⟨⟨?_, h.le, h.file, h.lt, Or.inl ⟨hW.file.2.2, ?_⟩, fun hx => ?_⟩, hdir⟩
  · refine h.hier.keep le_rfl h.hier.le (by rw [hW.imap]; exact h.hier.imap)
      (fun {x kd} hx => ?_) (fun hx => ?_) fun hx => hW.data _ (h.apart hx)
    · by_cases hxf : x = f
      · subst hxf
        refine ⟨hW.file.1, hW.file.2.1, fun hkd => ?_⟩
        rw [h.file, hkd] at hx
        cases hx
      · rw [hW.same x hxf (hlt hx)]
        exact ⟨rfl, rfl, fun _ => rfl⟩
    · rw [hW.bmap, Function.update_of_ne (h.apart hx)]
      exact (h.hier.block hx).2.2
  · rw [hW.bmap, Function.update_self]
  · rw [dirBlock, hdir hx]
    exact h.apart hx

/-- `do_touch` in an empty directory. -/
theorem Tip.touch {path : CString} (h : V.Tip kind k w m) (hk : k < 8)
    (hm : m + 1 < NUM_BLOCKS) (hp : IsComponent path.chars)
    (hdot : path.chars ≠ [46]) (hdotdot : path.chars ≠ [46, 46]) :
    Takes ⟨V, V.inode w, fd⟩ (Fs.do_touch path) fun _ S' =>
      S'.wd = S'.view.inode w ∧ S'.fdesc = fd ∧
        (∃ b, S'.view.FileAt (Function.update kind k (some .file)) (k + 1) k b) ∧
      (S'.view.names (Function.update kind k (some .file))).look w path.chars = some k := by
  have hkn : k < NUM_INODES := Nat.lt_trans hk (by decide)
  refine (h.hier.do_touch h.dir hp.2.2.1).mono ?_
  rintro _ ⟨V₁, wd₁, fd₁⟩ ⟨hfd, hwd, hcases⟩
  dsimp only at hfd hwd hcases
  obtain ⟨hnew, hbmap⟩ := hcases.resolve_right fun hno => hno.1 (h.room hkn (Nat.lt_of_succ_lt hm) hp hdot hdotdot)
  refine ⟨hwd, hfd, ?_, hnew.look⟩
  -- A block is free, and no directory is in it.
  have hfree : V₁.bmap (m + 1) = false := by
    by_contra hne
    obtain ht | hf := hbmap (m + 1) (by simpa using hne)
    · rw [h.bmap (m + 1) (Nat.le_succ m)] at ht
      cases ht
    · have := (firstClear_eq_some.mp hf).2.2 m (Nat.lt_succ_self m)
      rw [h.bmap m le_rfl] at this
      cases this
  cases hfb : V₁.freeBlock with
  | none =>
    have := firstClear_eq_none.mp hfb (m + 1) hm
    rw [hfree] at this
    cases this
  | some b =>
    obtain ⟨hb, hbm, -⟩ := firstClear_eq_some.mp hfb
    refine ⟨b, hnew.hier, hk, Function.update_self .., hb, Or.inr ⟨hnew.empty rfl, hfb⟩, fun hx he => ?_⟩
    have := (hnew.hier.block hx).2.2
    rw [he, hbm] at this
    cases this

end Whole

/-! ### The whole of it -/

/-- The working directory is one of directories in order. -/
def Place.Settled (S : Place) : Prop := ∃ kind k w, S.view.Hier kind k ∧ kind w = some .dir ∧ S.wd = S.view.inode w

open Whole

variable {V : Whole} {wd : Inode} {fd : Fin NUM_FDESCS → Fdesc}

/-- `do_mkfs` up to its call of `do_open`. -/
theorem do_mkfs_opens {post : Option (ℤ × Conf Mem Units) → Prop} (hpost : ∀ V' kind k w f b, V'.FileAt kind k f b →
      kind w = some .dir → (V'.names kind).look w (CString.ofString "vm").chars = some f →
      Yields units Place.of ⟨V', V'.inode w, fd⟩ fillVm fun o => post (o.map fun r => (0, r.2))) :
    Yields units Place.of ⟨V, wd, fd⟩ Fs.do_mkfs post := by
  have hcomp : ∀ path ∈ [CString.ofString "proc", .ofString "sys", .ofString "vm"],
      IsComponent path.chars ∧ path.chars ≠ [46] ∧ path.chars ≠ [46, 46] := by
    unfold IsComponent
    decide
  obtain ⟨hproc, hproc₁, hproc₂⟩ := hcomp (.ofString "proc") (by simp)
  obtain ⟨hsys, hsys₁, hsys₂⟩ := hcomp (.ofString "sys") (by simp)
  obtain ⟨hvm, hvm₁, hvm₂⟩ := hcomp (.ofString "vm") (by simp)
  refine do_mkfs_root fun V₁ h₁ => ?_
  refine h₁.extend (by decide) (by decide) hproc hproc₁ hproc₂ fun V₂ h₂ => ?_
  refine h₂.extend (by decide) (by decide) hsys hsys₁ hsys₂ fun V₃ h₃ => ?_
  refine Yields.bind (h₃.touch (by decide) (by decide) hvm hvm₁ hvm₂) ?_
  rintro _ ⟨V₄, wd₄, fd₄⟩ ⟨hwd, hfd, ⟨b, h₄⟩, hlook⟩
  dsimp only at hwd hfd h₄ hlook
  subst hwd hfd
  exact hpost V₄ _ _ 2 _ b h₄ (by rfl) hlook

section Fill

variable {kind : ℕ → Option Kind} {k w f b : ℕ}

/-- The rest of `init_bcache_policy`, with a free descriptor. -/
theorem fillVm_settles (h : V.FileAt kind k f b) (hw : kind w = some .dir)
    (hl : (V.names kind).look w (CString.ofString "vm").chars = some f) (hfree : ∃ i, (fd i).valid = 0) :
    Takes ⟨V, V.inode w, fd⟩ fillVm fun _ S' => S'.Settled := by
  have hvm : IsComponent (CString.ofString "vm").chars := by
    unfold IsComponent
    decide
  have hroom : f + 64 ≤ NUM_INODES := by
    have := h.hier.lt h.file
    have := h.le
    unfold NUM_INODES
    omega
  refine (h.hier.do_open hw hvm hl h.file 3).bind ?_
  rintro _ ⟨V₁, wd₁, fd₁⟩ ⟨hpk, hwd, ⟨hfull, -⟩ | ⟨i, -, rfl, hfd⟩⟩
  · obtain ⟨i, hi⟩ := hfree
    exact absurd hi (hfull i)
  dsimp only at hpk hwd hfd
  have h₁ := h.peeks hpk
  have hfd₁ : fd₁ i = ⟨UInt8.ofInt 3, 1, (V.inode f).ino, 0, 0⟩ := by rw [hfd, Function.update_self]
  have hino : (fd₁ i).ino.toNat = f := by
    rw [hfd₁]
    exact (h.hier.inode h.file).1
  refine (Whole.do_write_first hino hroom (p := 0) (by rw [hfd₁]; rfl) (by decide) h₁.lt h₁.first).bind ?_
  rintro _ ⟨V₂, wd₂, fd₂⟩ ⟨hW₂, hwd₂, q, hq, hfd₂⟩
  dsimp only at hW₂ hwd₂ hfd₂
  obtain ⟨h₂, hdir₂⟩ := h₁.written hW₂
  have hself₂ : fd₂ i = { fd₁ i with write_pos := q } := by rw [hfd₂, Function.update_self]
  refine (Whole.do_write_first (by rw [hself₂]; exact hino) hroom (p := 31)
    (by rw [hself₂]; exact hq) (by decide) h₂.lt h₂.first).bind ?_
  rintro _ ⟨V₃, wd₃, fd₃⟩ ⟨hW₃, hwd₃, -⟩
  dsimp only at hW₃ hwd₃
  obtain ⟨h₃, hdir₃⟩ := h₂.written hW₃
  obtain rfl : wd₃ = V₃.inode w := by rw [hwd₃, hwd₂, hwd, hdir₃ hw, hdir₂ hw, hpk.inode]
  have hclose : Takes ⟨V₃, V₃.inode w, fd₃⟩ (Fs.do_close (i : ℕ)) fun _ S' => ∃ fd, S' = ⟨V₃, V₃.inode w, fd⟩ := by
    rw [Fs.do_close, fdIndex_coe]
    exact Takes.fdescs.seq ((Takes.setFdesc i _).seq (Shows.pure ⟨_, rfl⟩))
  refine hclose.bind ?_
  rintro _ _ ⟨fd₄, rfl⟩
  refine (h₃.hier.do_cd_up hw).bind ?_
  rintro _ ⟨V₅, wd₅, fd₅⟩ ⟨hpk₅, -, w', hw', hwd₅⟩
  dsimp only at hpk₅ hwd₅
  refine (unseen fun c => ⟨c, rfl, rfl⟩).seq
    ((unseen fun c => ⟨{ c with mem := { c.mem with write_back_freq := 30 } }, rfl, rfl⟩).mono ?_)
  rintro _ _ ⟨-, rfl⟩
  exact ⟨kind, k, w', hpk₅.hier h₃.hier, hw', by rw [hwd₅, hpk₅.inode]⟩

/-- Without one, `do_open` answers `-1`, which `do_write` takes for an index. -/
theorem fillVm_stops (h : V.FileAt kind k f b) (hw : kind w = some .dir)
    (hl : (V.names kind).look w (CString.ofString "vm").chars = some f) (hfull : ∀ i, (fd i).valid ≠ 0) :
    Yields units Place.of ⟨V, V.inode w, fd⟩ fillVm (· = none) := by
  have hvm : IsComponent (CString.ofString "vm").chars := by
    unfold IsComponent
    decide
  refine Yields.bind (h.hier.do_open hw hvm hl h.file 3) ?_
  rintro _ S' ⟨-, -, ⟨-, rfl⟩ | ⟨i, hi, -⟩⟩
  · intro c _
    rfl
  · exact absurd hi (hfull i)

end Fill

/-- `do_mkfs` comes back when a descriptor is free. -/
theorem do_mkfs_settles (hfree : ∃ i, (fd i).valid = 0) : Takes ⟨V, wd, fd⟩ Fs.do_mkfs fun _ S' => S'.Settled := by
  show Yields units Place.of _ _ fun o => ∃ r c', o = some (r, c') ∧ (Place.of c').Settled
  refine do_mkfs_opens fun V' kind k w f b h hw hl c hc => ?_
  obtain ⟨r, c', he, hs⟩ := fillVm_settles h hw hl hfree c hc
  exact ⟨0, c', by rw [he]; rfl, hs⟩

/-- Whenever it does. -/
theorem do_mkfs_ensures : Yields units Place.of ⟨V, wd, fd⟩ Fs.do_mkfs fun o => ∀ r c',
    o = some (r, c') → (Place.of c').Settled := by
  by_cases hfree : ∃ i, (fd i).valid = 0
  · intro c hc r c' he
    obtain ⟨r₁, c₁, he₁, hs⟩ := do_mkfs_settles hfree c hc
    rw [he] at he₁
    obtain ⟨-, rfl⟩ := Prod.mk.inj (Option.some.inj he₁)
    exact hs
  · refine do_mkfs_opens fun V' kind k w f b h hw hl c hc => ?_
    rw [fillVm_stops h hw hl (fun i hi => hfree ⟨i, hi⟩) c hc]
    rintro _ _ ⟨⟩

end OsLab
