import OsLab.Fs.Fresh

/-!
# The file system that formatting leaves

`do_mkfs` is built from the ordinary calls and ignores what they return. Its calls leave, byte for
byte, one file system, whatever the card, the cache, the buffers and the working directory were
before; only the times differ (`Vol.Made.same`). For that the calls are followed once more, with
the blocks, slots and inodes that they take.

The one thing that can go wrong is `do_open`: without a free descriptor it returns `-1`, which
`do_write` takes for an index. So formatting does what it should exactly when a descriptor is free
(`formats_iff`).
-/

namespace OsLab

open Lib ProgM Bytes

/-! ### The directories -/

/-- An inode without its times. -/
def Inode.untimed (I : Inode) : Inode := { I with atime := 0, mtime := 0, ctime := 0 }

/-- The entries of a directory `i` of the chain, whose own entry is `e`. -/
def chainEntry (i : ℕ) (e : Dentry) (y : ℕ) : Dentry :=
  if y = 0 then ⟨(Dentry.zero.strcpy [46]).name, IT_DIR, UInt32.ofNat i⟩
  else if y = 1 then ⟨(Dentry.zero.strcpy [46, 46]).name, IT_DIR, UInt32.ofNat (i - 1)⟩
  else if y = 2 then e else Dentry.zero

/-- The entry for `i`. -/
def newEntry (name : List UInt8) (type : UInt8) (i : ℕ) : Dentry :=
  ⟨(Dentry.zero.strcpy name).name, type, UInt32.ofNat i⟩

namespace Vol

variable {V V' : Vol} {path : ℕ → CString} {n : ℕ}

/-- Directory `i` is in block `i`, with one entry `e` besides `.` and `..`. -/
structure DirAt (V : Vol) (i : ℕ) (nlink : UInt16) (size : UInt32) (e : Dentry) : Prop where
  inode : (V.inode i).untimed = { newInode i IT_DIR size (sec i) 0 with nlink := nlink }
  entry : ∀ y, V.entry i y = chainEntry i e y

theorem DirAt.dirBlock {i : ℕ} {k : UInt16} {z : UInt32} {e : Dentry} (h : V.DirAt i k z e) (hi : i < NUM_BLOCKS) :
    V.dirBlock i = i := by
  have hb : (V.inode i).blocks 0 = sec i := congrArg (fun I => I.blocks 0) h.inode
  rw [Vol.dirBlock, hb, blockOf_sec hi]

/-- The directories of a chain, where `do_mkfs` puts them. -/
structure Laid (V : Vol) (path : ℕ → CString) (n : ℕ) : Prop extends Chain V path n where
  at_lt : ∀ i < n, V.DirAt i 2 96 (newEntry (path i).chars IT_DIR (i + 1))
  at_last : V.DirAt n 1 64 Dentry.zero

theorem Formatted.laid (h : V.Formatted) (path : ℕ → CString) : V.Laid path 0 := by
  obtain ⟨now, hino⟩ := h.inode
  refine ⟨h.chain path, fun i hi => absurd hi (by omega), by rw [hino]; rfl, fun y => ?_⟩
  rw [Vol.entry, h.data, getDentry_dots, chainEntry]
  split
  · rfl
  · split
    · rfl
    · simp

/-- The slot of a new entry is the third. -/
theorem Slot.eq_two {i j : ℕ} (hs : V.Slot i j) (hz : V.entry (V.dirBlock i) 2 = Dentry.zero) : j = 2 := by
  obtain ⟨-, -, hbefore⟩ := List.find?_range_eq_some.mp hs.find
  by_contra hj
  have h2 := hbefore 2 (by have := hs.two_le; omega)
  rw [hz] at h2
  exact absurd h2 (by decide)

/-- Entering a name into the working directory, which is directory `w` in block `w`. -/
theorem DirAt.enter {U : Vol} {w i j : ℕ} {k : UInt16} {z : UInt32}
    (h : V.DirAt w k z Dentry.zero) (hw : w < NUM_BLOCKS)
    (hcwd : V.cwd = w) (hwd : V.wd = V.inode w) (hs : V.Slot V.cwd j)
    (hUw : U.wd = V.wd) (hUe : ∀ y, U.entry w y = V.entry w y)
    (name : List UInt8) (type : UInt8) (now : UInt32) :
    (V.enterWd U name type i j now).DirAt w (k + 1) (z + 32) (newEntry name type i) ∧
      (∀ x, x ≠ w → (V.enterWd U name type i j now).inode x = U.inode x) ∧
      ∀ c y, c ≠ w → (V.enterWd U name type i j now).entry c y = U.entry c y := by
  have hblk : V.dirBlock V.cwd = w := by rw [hcwd, h.dirBlock hw]
  have hUc : U.cwd = w := by rw [Vol.cwd, hUw, ← hcwd]; rfl
  obtain rfl : j = 2 := hs.eq_two (by rw [hblk, h.entry]; rfl)
  have hentry : ∀ c y, (V.enterWd U name type i 2 now).entry c y =
      if c = w ∧ y = 2 then newEntry name type i else U.entry c y := by
    intro c y
    have := entry_setEntry U (b := w) (j := 2) (by decide) (newEntry name type i) c y
    rw [← this, enterWd, hblk, h.entry]
    rfl
  have hinode : ∀ x, (V.enterWd U name type i 2 now).inode x =
      if x = w then { V.wd with size := V.wd.size + 32, mtime := now, nlink := V.wd.nlink + 1 } else U.inode x := by
    intro x
    rw [← hUc]
    exact Function.update_apply ..
  refine ⟨⟨?_, fun y => ?_⟩, fun x hx => by
    rw [hinode, if_neg hx], fun c y hc => by rw [hentry, if_neg fun e => hc e.1]⟩
  · have hI := h.inode
    rw [hinode, if_pos rfl, hwd]
    have hsize : (V.inode w).size = z := congrArg Inode.size hI
    have hnlink : (V.inode w).nlink = k := congrArg Inode.nlink hI
    calc Inode.untimed { V.inode w with size := (V.inode w).size + 32, mtime := now, nlink := (V.inode w).nlink + 1 }
        = { (V.inode w).untimed with size := (V.inode w).size + 32, nlink := (V.inode w).nlink + 1 } := rfl
      _ = _ := by rw [hI, hsize, hnlink]; rfl
  · rw [hentry, hUe, h.entry]
    unfold chainEntry
    by_cases hy : y = 2
    · simp [hy]
    · simp [hy]

/-- One directory more. -/
theorem Laid.madeDir (h : V.Laid path n) {i b j : ℕ} {now now' : UInt32}
    (hm : MakesDir V V' (path n).chars i b j now now') (hn : n + 1 < NUM_INODES)
    (hc : Chain (V'.setWd (V'.inode (n + 1))) path (n + 1)) : (V'.setWd (V'.inode (n + 1))).Laid path (n + 1) := by
  have hnb : n + 1 < NUM_BLOCKS := Nat.lt_trans hn (by decide)
  obtain rfl : i = n + 1 := Option.some.inj (hm.freeInode.symm.trans (h.freeInode hn))
  obtain rfl : b = n + 1 := Option.some.inj (hm.freeBlock.symm.trans (h.freeBlock hnb))
  have hwd : V.wd = V.inode n := by rw [h.inv.wd, h.cwd]
  have hUentry : ∀ c y, c ≠ n + 1 → (V.newDir (n + 1) (n + 1) now).entry c y = V.entry c y :=
    fun c y hne => entry_of_data (Function.update_of_ne hne _ _) y
  obtain ⟨hwdir, hino, hent⟩ := h.at_last.enter (U := V.newDir (n + 1) (n + 1) now)
    (i := n + 1) (by omega) h.cwd hwd hm.slot rfl
    (fun y => hUentry n y (by omega)) (path n).chars IT_DIR now'
  generalize hW : V.enterWd (V.newDir (n + 1) (n + 1) now) (path n).chars IT_DIR (n + 1) j now' = W at hwdir hino hent
  have hV' := hm.vol
  rw [hW] at hV'
  have hinode : ∀ x, V'.inode x = W.inode x := fun x => by rw [hV']; rfl
  have hentry : ∀ c y, c ≠ n + 1 → V'.entry c y = W.entry c y := by
    intro c y hc
    rw [hV']
    exact entry_of_data (Function.update_of_ne hc _ _) y
  refine ⟨hc, fun x hx => ⟨?_, fun y => ?_⟩, ?_, fun y => ?_⟩
  · show (V'.inode x).untimed = _
    rw [hinode]
    by_cases hxn : x = n
    · rw [hxn]
      exact hwdir.inode
    · have hold : (V.newDir (n + 1) (n + 1) now).inode x = V.inode x := Function.update_of_ne (by omega) _ _
      rw [hino x hxn, hold]
      exact (h.at_lt x (by omega)).inode
  · show V'.entry x y = _
    rw [hentry x y (by omega)]
    by_cases hxn : x = n
    · rw [hxn]
      exact hwdir.entry y
    · rw [hent x y hxn, hUentry x y (by omega)]
      exact (h.at_lt x (by omega)).entry y
  · show (V'.inode (n + 1)).untimed = _
    have hnew : (V.newDir (n + 1) (n + 1) now).inode (n + 1) = newInode (n + 1) IT_DIR 64 (sec (n + 1)) now :=
      Function.update_self ..
    rw [hinode, hino _ (by omega), hnew]
    rfl
  · show V'.entry (n + 1) y = _
    have hdata : V'.data (n + 1) = (dots (UInt32.ofNat (n + 1)) V.wd.ino).sector 0 := by
      rw [hV']
      exact Function.update_self ..
    have hwino : V.wd.ino = UInt32.ofNat n := by rw [hwd]; exact congrArg Inode.ino h.at_last.inode
    rw [Vol.entry, hdata, getDentry_dots, hwino, chainEntry]
    simp

/-- The tree of `do_mkfs` in its blocks, with `vm` of a size, its first block at `blk`, and the first `m`
blocks used. -/
structure Tree (V : Vol) (size blk : UInt32) (m : ℕ) : Prop where
  dir : ∀ i < 2, V.DirAt i 2 96 (newEntry (procSys i).chars IT_DIR (i + 1))
  sys : V.DirAt 2 2 96 (newEntry vm.chars IT_FILE 3)
  file : (V.inode 3).untimed = newInode 3 IT_FILE size blk 0
  bmap : ∀ b, V.bmap b = true ↔ b < m

/-- Touching `vm`. -/
theorem Laid.touched (h : V.Laid procSys 2) {i j : ℕ} {now now' : UInt32} (hm : Touches V V' vm.chars i j now now') :
    V'.Tree 0 0 3 := by
  obtain rfl : i = 3 := Option.some.inj (hm.freeInode.symm.trans (h.freeInode (by decide)))
  have hwd : V.wd = V.inode 2 := by rw [h.inv.wd, h.cwd]
  obtain ⟨hwdir, hino, hent⟩ := h.at_last.enter (U := (V.takeInode 3).setInode 3 (newInode 3 IT_FILE 0 0 now))
    (i := 3) (by decide)
    h.cwd hwd hm.slot rfl (fun y => rfl) vm.chars IT_FILE now'
  rw [← hm.vol] at hwdir hino hent
  have hold : ∀ x, x ≠ 3 → ((V.takeInode 3).setInode 3 (newInode 3 IT_FILE 0 0 now)).inode x = V.inode x :=
    fun x hx => Function.update_of_ne hx _ _
  refine ⟨fun x hx => ⟨?_, fun y => ?_⟩, hwdir, ?_, fun b => ?_⟩
  · rw [hino x (by omega), hold x (by omega)]
    exact (h.at_lt x hx).inode
  · rw [hent x y (by omega)]
    exact (h.at_lt x hx).entry y
  · have hnew : ((V.takeInode 3).setInode 3 (newInode 3 IT_FILE 0 0 now)).inode 3 = newInode 3 IT_FILE 0 0 now := by
      rw [inode_setInode, if_pos rfl]
    rw [hino 3 (by decide), hnew]
    rfl
  · have hb : V'.bmap = V.bmap := by rw [hm.vol]; rfl
    rw [hb, h.bmap]
    omega

end Vol

/-! ### Writing within the first block -/

variable {V : View}

theorem blockid2sector_first {I : Inode} : Fs.blockid2sector 0 I = pure (I.blocks 0) := by
  rw [Fs.blockid2sector, dif_pos (by decide)]
  rfl

/-- The first block of the file at `inode_buffer[k]` is there. -/
theorem needBlock_there {k b : ℕ} (hk : k < 8) (hb : b < NUM_BLOCKS) (hblk : (V.ibuf k).blocks 0 = sec b) :
    Does V (Fs.needBlock 0 k) (sec b) V := by
  refine (Does.inodeBuf hk).bind ?_
  rw [blockid2sector_first, hblk]
  refine (Does.pure _).bind ?_
  rw [if_neg (sec_ne_zero hb)]
  exact Does.pure _

/-- The loop of `do_write`, within the first block. -/
theorem writeLoop_first {k b : ℕ} (hk : k < 8) (hb : b < NUM_BLOCKS)
    (i : Fin NUM_FDESCS) (cs : List UInt8) {V : View} {p : ℕ}
    (hblk : (V.ibuf k).blocks 0 = sec b) (hp : (V.fdesc i).write_pos.toNat = p) (hlt : p + cs.length < 4096) :
    Spec V (Fs.writeLoop i k cs) fun _ V' => ∃ (w : UInt32) (m : Bytes), w.toNat = p + cs.length ∧
      V' = { V with fdesc := Function.update V.fdesc i { V.fdesc i with write_pos := w }, wbuf := m } := by
  induction cs generalizing V p with
  | nil =>
    refine Spec.pure ⟨(V.fdesc i).write_pos, V.wbuf, hp, ?_⟩
    rw [Function.update_eq_self]
  | cons c cs ih =>
    simp only [List.length_cons] at hlt ⊢
    rw [Fs.writeLoop]
    refine Does.fdescs.seq ?_
    dsimp only
    rw [hp, show BLOCK_SIZE = 4096 from rfl, show p / 4096 = 0 by omega, Nat.mod_eq_of_lt (show p < 4096 by omega)]
    -- Loading the block changes the buffer only.
    refine Spec.bind (P := fun _ V₁ => ∃ m, V₁ = { V with wbuf := m })
      (Spec.ifThen (fun _ => ?_) fun _ => ⟨V.wbuf, rfl⟩) ?_
    · refine (needBlock_there hk hb hblk).seq ?_
      rw [toNat_sec hb]
      exact (Does.breadWdata hb).spec ⟨_, rfl⟩
    rintro _ V₁ ⟨m, rfl⟩
    refine (Does.setWbyte _ _).seq ?_
    rw [Fs.ifThen, if_neg (by omega)]
    refine (Does.pure ()).seq ((Does.setFdesc i _).seq ?_)
    have hpos : ((V.fdesc i).write_pos + 1).toNat = p + 1 := by
      rw [UInt32.toNat_add, hp, show (1 : UInt32).toNat = 1 from rfl]
      exact Nat.mod_eq_of_lt (by omega)
    refine Spec.mono (ih (p := p + 1) ?_ ?_ (by omega)) ?_
    · exact hblk
    · dsimp only
      rw [Function.update_self]
      exact hpos
    · rintro _ V₂ ⟨w, m', hw, rfl⟩
      refine ⟨w, m', by omega, ?_⟩
      dsimp only
      rw [Function.update_idem, Function.update_self]

/-- The inodes with `f` in the buffer, whose first block is `b`; `b` is used, and no other block changed. -/
structure FirstBlock (V V' : View) (f b : ℕ) : Prop where
  inode : V'.inode = V.inode
  ibuf : V'.ibuf = Function.update (V.loadInodes f) (f % 8)
    { V.inode f with blocks := Function.update (V.inode f).blocks 0 (sec b) }
  data : ∀ c, c ≠ b → V'.data c = V.data c
  bmap : V'.bmap = Function.update V.bmap b true
  fdesc : V'.fdesc = V.fdesc

/-- The first block of file `f` is `b`, or will be. -/
def Vol.FirstIs (V : Vol) (f b : ℕ) : Prop :=
  ((V.inode f).blocks 0 = sec b ∧ V.bmap b = true) ∨ ((V.inode f).blocks 0 = 0 ∧ V.freeBlock = some b)

theorem needBlock_first {f b : ℕ} (hb : b < NUM_BLOCKS) (hfirst : V.FirstIs f b) :
    Spec { V with ibuf := V.loadInodes f } (Fs.needBlock 0 (f % 8)) fun q V' => q = sec b ∧ FirstBlock V V' f b := by
  have hk : f % 8 < 8 := by omega
  obtain ⟨hblk, hused⟩ | ⟨hblk, hfree⟩ := hfirst
  · have hself : ({ V with ibuf := V.loadInodes f } : View).ibuf (f % 8) = V.inode f := V.loadInodes_mod f
    refine (needBlock_there hk hb (by rw [hself]; exact hblk)).spec ⟨rfl, rfl, ?_, fun _ _ => rfl, ?_, rfl⟩
    · rw [← hblk, Function.update_eq_self, ← V.loadInodes_mod f, Function.update_eq_self]
    · rw [← hused, Function.update_eq_self]
  · refine (Does.inodeBuf hk).seq ?_
    dsimp only
    rw [V.loadInodes_mod, blockid2sector_first, hblk]
    refine (Does.pure _).seq ?_
    rw [if_pos rfl, Fs.alloc_inode_block, dif_pos (by decide)]
    refine Spec.bind (P := fun _ V' => FirstBlock V V' f b) ?_ fun _ V₁ h₁ => ?_
    · refine Spec.bind (P := fun _ V' => FirstBlock V V' f b) ?_ fun _ V₁ h₁ => Spec.pure h₁
      refine Does.seq (Does.find_free_block (b := b) ?_)
        ((Does.inodeBuf hk).seq ((Does.setInodeBuf hk _).spec ⟨rfl, ?_, ?_, rfl, rfl⟩))
      · exact hfree
      · dsimp only
        rw [V.loadInodes_mod]
        rfl
      · exact fun c hc => Function.update_of_ne hc _ _
    · refine (Does.inodeBuf hk).seq ?_
      rw [blockid2sector_first]
      refine Spec.pure ⟨?_, h₁⟩
      rw [h₁.ibuf, Function.update_self]
      exact Function.update_self 0 (sec b) (V.inode f).blocks

/-- `do_write`, within the first block. -/
theorem do_write_first {fd : ℤ} {i : Fin NUM_FDESCS} {f p b : ℕ}
    (hfd : Fs.fdIndex fd = some i) (hf : (V.fdesc i).ino.toNat = f)
    (hlt : f < NUM_INODES) (hp : (V.fdesc i).write_pos.toNat = p) {cs : List UInt8} (hlen : p + cs.length < 4096)
    (hb : b < NUM_BLOCKS) (hfirst : V.FirstIs f b) :
    Spec V (Fs.do_write fd cs) fun _ V' => ∃ now w : UInt32, w.toNat = p + cs.length ∧
      V'.inode f = { V.inode f with size := newSize (V.inode f).size w, mtime := now, atime := now,
                                    blocks := Function.update (V.inode f).blocks 0 (sec b) } ∧
      (∀ x, x ≠ f → x / 8 = f / 8 → V'.inode x = V.inode x) ∧ (∀ c, c ≠ b → V'.data c = V.data c) ∧
      V'.bmap = Function.update V.bmap b true := by
  have hk : f % 8 < 8 := by omega
  rw [Fs.do_write, hfd]
  refine Does.fdescs.seq ?_
  dsimp only
  rw [inodeidx2sector_eq (by rw [hf]; exact hlt), Fs.inodeidx2offset, hf, hp, show BLOCK_SIZE = 4096 from rfl,
    show p / 4096 = 0 by omega]
  refine (Does.breadInode hlt).seq ((needBlock_first hb hfirst).bind ?_)
  rintro _ V₁ ⟨rfl, h₁⟩
  rw [toNat_sec hb]
  refine (Does.breadWdata hb).seq ?_
  have hblk₁ : (V₁.ibuf (f % 8)).blocks 0 = sec b := by
    rw [h₁.ibuf, Function.update_self]
    exact Function.update_self 0 (sec b) (V.inode f).blocks
  refine (writeLoop_first (V := { V₁ with wbuf := V₁.wbuf.put 0 (V₁.data b) }) (b := b) hk hb i cs hblk₁
    (by show (V₁.fdesc i).write_pos.toNat = p; rw [h₁.fdesc]; exact hp) hlen).bind ?_
  rintro _ V₂ ⟨w, m, hw, rfl⟩
  refine Does.fdescs.seq ?_
  dsimp only
  rw [Function.update_self]
  -- Writing the data changes the file's own block only.
  refine Spec.bind (P := fun _ V₃ => V₃.inode = V.inode ∧ V₃.ibuf = V₁.ibuf ∧ (∀ c, c ≠ b → V₃.data c = V.data c) ∧
    V₃.bmap = Function.update V.bmap b true) (Spec.ifThen (fun _ => ?_) fun _ => ⟨h₁.inode, rfl, h₁.data, h₁.bmap⟩) ?_
  · refine (Does.inodeBuf hk).seq ?_
    rw [show BLOCK_SIZE = 4096 from rfl, show w.toNat / 4096 = 0 by omega, blockid2sector_first]
    refine (Does.pure _).seq ?_
    dsimp only
    rw [hblk₁, toNat_sec hb]
    refine (Does.bwriteWdata hb).spec ⟨h₁.inode, rfl, fun c hc => ?_, h₁.bmap⟩
    exact (Function.update_of_ne hc _ _).trans (h₁.data c hc)
  rintro _ V₃ ⟨hino₃, hib₃, hdata₃, hbmap₃⟩
  refine (Does.inodeBuf hk).seq (Does.get_timer.seq ((Does.setInodeBuf hk _).seq
    ((Does.bwriteInode (by decide) hlt).seq (Spec.pure ⟨V₃.clock 0, w, hw, ?_, ?_, hdata₃, hbmap₃⟩))))
  · dsimp only [View.storeInodes]
    rw [if_pos ⟨hlt, by omega, by rw [BLOCK_SECTORS_eq]; omega⟩,
      Function.update_self, hib₃, h₁.ibuf, Function.update_self]
    rfl
  · intro x hx hx8
    unfold NUM_INODES at hlt
    dsimp only [View.storeInodes]
    rw [if_pos ⟨by unfold NUM_INODES; omega, by omega, by rw [BLOCK_SECTORS_eq]; omega⟩,
      Function.update_of_ne (by omega), hib₃,
      h₁.ibuf, Function.update_of_ne (by omega), Vol.loadInodes,
      if_pos (by omega), ← hx8, show x / 8 * 8 + x % 8 = x by omega]

/-! ### The calls of `init_bcache_policy` -/

/-- `do_mkdir` and `do_cd` make the chain longer. -/
theorem Vol.Laid.extend {st : St} {β : Type} {G : St → FsM β → Prop} (hG : Onward G) {path : ℕ → CString} {n : ℕ}
    (h : (View.of st).Laid path n) (ht : (View.of st).Tidy)
    (hp : Vol.Plain (path n)) (hn : n + 1 < NUM_INODES) {k : FsM β}
    (hk : ∀ st', (View.of st').Laid path (n + 1) → (View.of st').Tidy →
      (View.of st').fdesc = (View.of st).fdesc → G st' k) :
    G st (do
      let _ ← Fs.do_mkdir (path n)
      let _ ← Fs.do_cd (path n)
      k) := by
  have hfull : ¬ (View.of st).Full (View.of st).cwd := by
    rw [h.cwd]
    exact Vol.Bare.not_full h.bare
  have hok : (View.of st).MkdirOk (path n) :=
    fun _ _ _ => ⟨by rw [h.freeBlock (Nat.lt_trans hn (by decide))]; simp, hfull⟩
  refine ((do_mkdir_exact h.inv ht hok).runs.and (do_mkdir_spec h.inv ht hok).runs).bind hG ?_
  rintro r st₁ ⟨⟨ht₁, ⟨-, -, hr⟩ | ⟨hr0, -, i, b, j, now, now', hmk⟩⟩, -, hspec⟩
  · -- The name is new and short, and there is an inode for it.
    obtain hlen | hlook | hfree := hr
    · exact absurd hp.lt (by omega)
    · exact absurd (h.look hp) hlook
    · rw [h.freeInode hn] at hfree
      cases hfree
  obtain ⟨hr1, -⟩ | ⟨-, hm⟩ := hspec
  · omega
  obtain ⟨hinv₁, hdir₁, hsole₁, hcwd₁, hchain⟩ := h.toChain.madeDir hm hn
  have hfind : (View.of st₁).find (path n) = some (n + 1) := by
    rw [hp.find, hcwd₁]
    refine hinv₁.step_sole ?_ hsole₁ hp.ne hp.dot hp.dotdot
    rw [← hcwd₁]
    exact hinv₁.cwd
  refine (do_cd_spec hinv₁ ht₁ (hp.pathOk _)).runs.bind hG ?_
  rintro r st₂ ⟨ht₂, ⟨-, -, hno⟩ | ⟨-, i', hi, -, hv₂⟩⟩
  · exact absurd hdir₁ (hno _ hfind)
  · obtain rfl : n + 1 = i' := Option.some.inj (hfind.symm.trans hi)
    refine hk st₂ (by rw [hv₂]; exact h.madeDir hmk hn hchain) ht₂ ?_
    rw [hv₂]
    exact hm.fdesc

/-- The volume when `vm` is touched: its tree, in its blocks, and the working directory `sys`. -/
structure Vol.Ready (V : Vol) : Prop where
  fresh : V.Fresh
  cwd : V.cwd = 2
  tree : V.Tree 0 0 3

/-- `init_bcache_policy` after the first five calls. -/
def fillVm : FsM Unit := do
  let fd ← Fs.do_open (.ofString "vm" Fs.vm_nonzero) 3
  let _ ← Fs.do_write fd (CString.ofString "page_cache_policy = write back\n" Fs.line1_nonzero).chars
  let _ ← Fs.do_write fd ((CString.ofString "write_back_freq = 30\n" Fs.line2_nonzero).chars ++ [0])
  let _ ← Fs.do_close fd
  let _ ← Fs.do_cd (.ofString "../.." Fs.up_nonzero)
  perform (Io.policy .writeBack)
  modify fun s => { s with write_back_freq := 30 }

theorem plain_vm : Vol.Plain (.ofString "vm") := ⟨by decide, by decide, by decide, by decide, by decide⟩

/-- The first five calls of `init_bcache_policy`. -/
theorem init_bcache_policy_readies {st : St} {G : St → FsM Unit → Prop} (hG : Onward G) (h : (View.of st).Formatted)
    (ht : (View.of st).Tidy)
    (hk : ∀ st', (View.of st').Ready → (View.of st').Tidy → (View.of st').fdesc = (View.of st).fdesc → G st' fillVm) :
    G st Fs.init_bcache_policy := by
  have hproc : Vol.Plain (.ofString "proc") := ⟨by decide, by decide, by decide, by decide, by decide⟩
  have hsys : Vol.Plain (.ofString "sys") := ⟨by decide, by decide, by decide, by decide, by decide⟩
  refine (h.laid Vol.procSys).extend hG ht hproc (by decide) fun st₁ h₁ ht₁ hfd₁ => ?_
  refine h₁.extend hG ht₁ hsys (by decide) fun st₂ h₂ ht₂ hfd₂ => ?_
  have hfull : ¬ (View.of st₂).Full (View.of st₂).cwd := by
    rw [h₂.cwd]
    exact Vol.Bare.not_full h₂.bare
  have hok : (View.of st₂).TouchOk (.ofString "vm") := fun _ _ _ => hfull
  refine ((do_touch_exact h₂.inv ht₂ hok).runs.and (do_touch_spec h₂.inv ht₂ hok).runs).bind hG ?_
  rintro _ st₃ ⟨⟨ht₃, ⟨-, -, hr⟩ | ⟨hr0, -, i, j, now, now', htc⟩⟩, -, hspec⟩
  · obtain hlen | hlook | hfi := hr
    · exact absurd plain_vm.lt (by omega)
    · exact absurd (h₂.look plain_vm) hlook
    · rw [h₂.freeInode (by decide)] at hfi
      cases hfi
  obtain ⟨hr1, -⟩ | ⟨-, hm⟩ := hspec
  · omega
  obtain ⟨hfresh, hcwd⟩ := h₂.toChain.touched hm
  exact hk st₃ ⟨hfresh, hcwd, h₂.touched htc⟩ ht₃ (hm.fdesc.trans (hfd₂.trans hfd₁))

/-- What a write to the first block of `vm` leaves of the tree. -/
theorem Vol.Tree.written {V V' : Vol} {size blk now w : UInt32} {m : ℕ} (h : V.Tree size blk m) (hm : 3 ≤ m ∧ m ≤ 4)
    (hself : V'.inode 3 = { V.inode 3 with size := newSize (V.inode 3).size w, mtime := now, atime := now,
                                           blocks := Function.update (V.inode 3).blocks 0 (sec 3) })
    (hinode : ∀ x, x ≠ 3 → x / 8 = 3 / 8 → V'.inode x = V.inode x) (hdata : ∀ c, c ≠ 3 → V'.data c = V.data c)
    (hbmap : V'.bmap = Function.update V.bmap 3 true) : V'.Tree (newSize size w) (sec 3) 4 := by
  have hkeep : ∀ {i : ℕ} {k : UInt16} {z : UInt32} {e : Dentry}, i < 3 → V.DirAt i k z e → V'.DirAt i k z e := by
    intro i k z e hi hd
    refine ⟨by rw [hinode i (by omega) (by omega)]; exact hd.inode, fun y => ?_⟩
    rw [Vol.entry_of_data (hdata i (by omega))]
    exact hd.entry y
  refine ⟨fun i hi => hkeep (by omega) (h.dir i hi), hkeep (by omega) h.sys, ?_, fun b => ?_⟩
  · have hsize : (V.inode 3).size = size := congrArg Inode.size h.file
    have hblocks : (V.inode 3).blocks = fun k => if k = 0 then blk else 0 := congrArg Inode.blocks h.file
    have hupd : Function.update (fun k : Fin 10 => if k = 0 then blk else 0) 0 (sec 3) = fun k =>
        if k = 0 then sec 3 else 0 := by
      funext k
      rw [Function.update_apply]
      split <;> simp [*]
    calc (V'.inode 3).untimed
        = { (V.inode 3).untimed with
            size := newSize (V.inode 3).size w
            blocks := Function.update (V.inode 3).blocks 0 (sec 3) } := by
          rw [hself]
          rfl
      _ = newInode 3 IT_FILE (newSize size w) (sec 3) 0 := by rw [h.file, hsize, hblocks, hupd]; rfl
  · rw [hbmap, Function.update_apply]
    split
    · next hb => simp [hb]
    · next hb =>
      rw [h.bmap]
      omega

/-- A write to `vm` within its first block. -/
theorem writeVm {st : St} {size blk w : UInt32} {m p : ℕ}
    {k : Fin NUM_FDESCS} {cs : List UInt8} (h : (View.of st).Fresh)
    (hT : (View.of st).Tree size blk m) (hm : (blk = 0 ∧ m = 3) ∨ (blk = sec 3 ∧ m = 4)) (ht : (View.of st).Tidy)
    (hino : ((View.of st).fdesc k).ino = 3) (hp : ((View.of st).fdesc k).write_pos.toNat = p) (h0 : 0 < cs.length)
    (hlt : p + cs.length < 4096) (hw : w.toNat = p + cs.length) :
    Runs st (Fs.do_write (k : ℕ) cs) fun _ st' => (View.of st').Tidy ∧ (View.of st').Fresh ∧
      (View.of st').Tree (newSize size w) (sec 3) 4 ∧
      (View.of st').cwd = (View.of st).cwd ∧ (View.of st').leaf 3 0 ≠ none ∧
      (View.of st').file 3 = (((View.of st).file 3).grow 0).write p cs ∧
      (View.of st').fdesc = Function.update (View.of st).fdesc k { (View.of st).fdesc k with write_pos := w } := by
  have hino' : ((View.of st).fdesc k).ino.toNat = 3 := by rw [hino]; rfl
  have hblk : ((View.of st).inode 3).blocks 0 = blk := congrArg (fun I => I.blocks 0) hT.file
  have hfirst : (View.of st).FirstIs 3 3 := by
    obtain ⟨rfl, rfl⟩ | ⟨rfl, rfl⟩ := hm
    · refine Or.inr ⟨hblk, firstClear_eq_some.mpr ⟨by decide, ?_, fun b hb => (hT.bmap b).mpr hb⟩⟩
      have : (View.of st).bmap 3 ≠ true := fun e => absurd ((hT.bmap 3).mp e) (by omega)
      simpa using this
    · exact Or.inl ⟨hblk, (hT.bmap 3).mpr (by omega)⟩
  have hfree : (View.of st).free.Nonempty := by
    refine ⟨m, Finset.mem_filter.mpr ⟨Finset.mem_range.mpr ?_, ?_⟩⟩
    · rw [NUM_BLOCKS_eq]
      omega
    · have : (View.of st).bmap m ≠ true := fun e => absurd ((hT.bmap m).mp e) (by omega)
      simpa using this
  have hok : (View.of st).WriteOk k cs.length := h.writeOk hino h0 (by omega) (Or.inr hfree)
  refine ((do_write_spec h.inv ht (fdIndex_coe k) hok).runs.and
    (do_write_first (fdIndex_coe k) hino' (by decide) hp hlt (by decide) hfirst).runs).mono ?_
  rintro _ st' ⟨⟨-, ht', hW, w₁, hw₁, hfd⟩, now, w₂, hw₂, hself, hinode, hdata, hbmap⟩
  obtain rfl : w = w₁ := UInt32.toNat_inj.mp (by rw [hw, hw₁, hp])
  obtain rfl : w = w₂ := UInt32.toNat_inj.mp (by rw [hw, hw₂])
  rw [hino', hp] at hW
  have hp0 : p / 4096 = 0 := by omega
  obtain ⟨hfresh, hleaf, hcwd⟩ := h.written hp0 hW
  refine ⟨ht', hfresh, hT.written (by omega) hself hinode hdata hbmap, hcwd, hleaf, ?_, hfd⟩
  rw [← hp0]
  exact hW.file

/-- The two lines that `do_mkfs` writes to `vm`. -/
def line1 : List UInt8 := (CString.ofString "page_cache_policy = write back\n" Fs.line1_nonzero).chars

def line2 : List UInt8 := (CString.ofString "write_back_freq = 30\n" Fs.line2_nonzero).chars ++ [0]

/-- The file `vm`. -/
def vmFile : File := ((File.write (File.grow (fun _ => none) 0) 0 line1).grow 0).write 31 line2

/-- What `do_mkfs` leaves, in its blocks. -/
structure Vol.Made (V : Vol) : Prop where
  fresh : V.Fresh
  cwd : V.cwd = 0
  tree : V.Tree 53 (sec 3) 4
  file : V.file 3 = vmFile

/-- Two directories up from `sys` is the root. -/
theorem Vol.Fresh.find_up {V : Vol} (h : V.Fresh) (hcwd : V.cwd = 2) :
    V.find (.ofString "../..") = some 0 ∧ V.PathOk (.ofString "../..") := by
  have hup : ∀ i < 2, V.step (i + 1) [46, 46] = some i := by
    intro i hi
    rw [h.inv.step_dotdot (h.dir _ (by omega))]
    obtain ⟨j, hj, -, hs, hc, -⟩ := h.sole i hi
    have hu : (V.names.dent i j).used = true := Names.used_of_str (by rw [hs, Vol.procSys]; split <;> decide)
    exact congrArg some (h.inv.names.parent hj ⟨h.dir i (by omega), hu, hc⟩ (h.dir _ (by omega)))
  have hparse : Fs.parse_path (CString.ofString "../..").chars = some ([46, 46], [46, 46], []) := by decide
  have hne : (CString.ofString "../..").chars ≠ [] := by decide
  constructor
  · rw [Vol.find, if_neg hne, hparse, hcwd]
    simp [hup 1 (by decide), hup 0 (by decide)]
  · refine Or.inr ⟨_, hparse, fun _ i hi => ?_⟩
    rw [hcwd, hup 1 (by decide)] at hi
    obtain rfl := Option.some.inj hi
    exact ⟨h.dir 1 (by decide), fun hn => absurd rfl hn⟩

theorem Vol.Ready.find_vm {V : Vol} (h : V.Ready) : V.find (.ofString "vm") = some 3 := by
  rw [plain_vm.find, h.cwd]
  exact h.fresh.inv.step_sole (h.fresh.dir 2 le_rfl) h.fresh.vm plain_vm.ne plain_vm.dot plain_vm.dotdot

/-- `vm` is empty when it is touched. -/
theorem Vol.Tree.file_empty {V : Vol} (h : V.Tree 0 0 3) (hF : V.Fresh) : V.file 3 = fun _ => none := by
  funext n
  have hsize : (V.inode 3).size = 0 := congrArg Inode.size h.file
  have hcov := hF.inv.cover hF.file (pathOf n).1 (pathOf n).2 (length_eq_depth 3 n).le
  rw [Vol.file, Vol.leaf]
  by_contra hne
  have hleaf : V.follow (3, (pathOf n).1) (pathOf n).2 ≠ none := fun e => hne (by rw [e]; rfl)
  have := hcov hleaf
  rw [hsize] at this
  exact absurd this (by simp [nblocks])

/-- The rest of `init_bcache_policy`, with a free descriptor. -/
theorem fillVm_runs {st : St} (h : (View.of st).Ready)
    (ht : (View.of st).Tidy) (hfree : ∃ k, ((View.of st).fdesc k).valid = 0) :
    Runs st fillVm fun _ st' => (View.of st').Tidy ∧ (View.of st').Made ∧ (View.of st').leaf 3 0 ≠ none ∧
      ∃ k, ((View.of st).fdesc k).valid = 0 ∧ ((View.of st').fdesc k).valid = 0 ∧
        ∀ k', k' ≠ k → (View.of st').fdesc k' = (View.of st).fdesc k' := by
  have hG := Runs.onward fun (_ : Unit) st' => (View.of st').Tidy ∧ (View.of st').Made ∧ (View.of st').leaf 3 0 ≠ none ∧
    ∃ k, ((View.of st).fdesc k).valid = 0 ∧ ((View.of st').fdesc k).valid = 0 ∧
      ∀ k', k' ≠ k → (View.of st').fdesc k' = (View.of st).fdesc k'
  refine (do_open_spec h.fresh.inv ht (plain_vm.pathOk _) 3).runs.bind hG ?_
  rintro _ st₁ ⟨ht₁, ⟨-, -, hno | hno⟩ | ⟨k, f, rfl, hf, -, hk, hv₁⟩⟩
  · exact absurd h.fresh.file (hno 3 h.find_vm)
  · obtain ⟨k, hk⟩ := hfree
    exact absurd hk (hno k)
  obtain rfl : 3 = f := Option.some.inj (h.find_vm.symm.trans hf)
  have h₁ : (View.of st₁).Fresh := by rw [hv₁]; exact h.fresh.setFdesc k _
  have hT₁ : (View.of st₁).Tree 0 0 3 := by
    rw [hv₁]; exact ⟨fun i hi => ⟨(h.tree.dir i hi).inode, (h.tree.dir i hi).entry⟩,
    ⟨h.tree.sys.inode, h.tree.sys.entry⟩, h.tree.file, h.tree.bmap⟩
  have hcwd₁ : (View.of st₁).cwd = 2 := by rw [hv₁]; exact h.cwd
  have hfile₁ : (View.of st₁).file 3 = fun _ => none := hT₁.file_empty h₁
  have hino : ((View.of st).inode 3).ino = 3 := congrArg Inode.ino h.tree.file
  have hfd₁ : (View.of st₁).fdesc = Function.update (View.of st).fdesc k ⟨UInt8.ofInt 3, 1, 3, 0, 0⟩ := by
    rw [hv₁, hino]; rfl
  have hk₁ : (View.of st₁).fdesc k = ⟨UInt8.ofInt 3, 1, 3, 0, 0⟩ := by rw [hfd₁, Function.update_self]
  refine (writeVm (w := 31) h₁ hT₁ (Or.inl ⟨rfl, rfl⟩) ht₁ (by rw [hk₁])
    (p := 0) (by rw [hk₁]; rfl) (by decide) (by decide)
    (by decide)).bind hG ?_
  rintro _ st₂ ⟨ht₂, h₂, hT₂, hcwd₂, -, hfile₂, hfd₂⟩
  have hk₂ : (View.of st₂).fdesc k = ⟨UInt8.ofInt 3, 1, 3, 0, 31⟩ := by rw [hfd₂, Function.update_self, hk₁]
  refine (writeVm (w := 53) h₂ hT₂ (Or.inr ⟨rfl, rfl⟩) ht₂ (by rw [hk₂])
    (p := 31) (by rw [hk₂]; rfl) (by decide) (by decide)
    (by decide)).bind hG ?_
  rintro _ st₃ ⟨ht₃, h₃, hT₃, hcwd₃, hleaf₃, hfile₃, hfd₃⟩
  refine (do_close_spec ht₃ (fdIndex_coe k)).runs.bind hG ?_
  rintro _ st₄ ⟨-, ht₄, hv₄⟩
  have h₄ : (View.of st₄).Fresh := by rw [hv₄]; exact h₃.setFdesc k _
  have hcwd₄ : (View.of st₄).cwd = 2 := by rw [hv₄]; exact hcwd₃.trans (hcwd₂.trans hcwd₁)
  obtain ⟨hfind, hpath⟩ := h₄.find_up hcwd₄
  refine (do_cd_spec h₄.inv ht₄ hpath).runs.bind hG ?_
  rintro _ st₅ ⟨ht₅, ⟨-, -, hno⟩ | ⟨-, i, hi, -, hv₅⟩⟩
  · exact absurd (h₄.dir 0 (by decide)) (hno 0 hfind)
  obtain rfl : 0 = i := Option.some.inj (hfind.symm.trans hi)
  refine (Does.policy _).runs hG fun st₆ hst₆ => ?_
  refine ((Does.setFreq _).spec (Q := fun _ V' => V' = View.of st₆) rfl).runs.mono ?_
  rintro _ st₇ hst₇
  have hv₇ : (View.of st₇).toVol = (View.of st₄).setWd ((View.of st₄).inode 0) := by rw [hst₇, hst₆, hv₅]
  have ht₇ : (View.of st₇).Tidy := by rw [hst₇, hst₆]; exact ht₅
  refine ⟨ht₇, ?_⟩
  rw [hv₇]
  refine ⟨⟨h₄.setWd (h₄.dir 0 (by decide)), h₄.inv.ino (Vol.imap_of_kind (h₄.dir 0 (by decide))), ?_, ?_⟩,
    ?_, k, hk, ?_, ?_⟩
  · rw [hv₄]
    exact ⟨fun i hi => ⟨(hT₃.dir i hi).inode, (hT₃.dir i hi).entry⟩, ⟨hT₃.sys.inode, hT₃.sys.entry⟩, hT₃.file, hT₃.bmap⟩
  · rw [hv₄]
    show (View.of st₃).file 3 = vmFile
    rw [hfile₃, hfile₂, hfile₁]
    rfl
  · rw [hv₄]
    exact hleaf₃
  · rw [hv₄]
    show (Function.update (View.of st₃).fdesc k _ k).valid = 0
    rw [Function.update_self]
  · intro k' hk'
    rw [hv₄]
    show Function.update (View.of st₃).fdesc k _ k' = _
    rw [Function.update_of_ne hk', hfd₃, Function.update_of_ne hk', hfd₂, Function.update_of_ne hk', hfd₁,
      Function.update_of_ne hk']

/-- `do_mkfs`, with a free descriptor. -/
theorem do_mkfs_runs {st : St} (hfree : ∃ k, ((View.of st).fdesc k).valid = 0) : Runs st Fs.do_mkfs fun r st' =>
    r = 0 ∧ (View.of st').Tidy ∧ (View.of st').Made ∧ MadeFs (View.of st).toVol (View.of st').toVol := by
  refine do_mkfs_formats (Runs.onward _) fun st₁ h₁ ht₁ hfd₁ => ?_
  refine Runs.bind (P := fun _ st' => (View.of st').Tidy ∧ (View.of st').Made ∧ (View.of st').leaf 3 0 ≠ none ∧
    ∃ k, ((View.of st₁).fdesc k).valid = 0 ∧ ((View.of st').fdesc k).valid = 0 ∧
      ∀ k', k' ≠ k → (View.of st').fdesc k' = (View.of st₁).fdesc k') ?_ (Runs.onward _) ?_
  · refine init_bcache_policy_readies (Runs.onward _) h₁ ht₁ fun st₂ h₂ ht₂ hfd₂ => ?_
    have := fillVm_runs h₂ ht₂ (by rw [hfd₂, hfd₁]; exact hfree)
    rwa [hfd₂] at this
  · rintro _ st₂ ⟨ht₂, h₂, hleaf, hfd⟩
    rw [hfd₁] at hfd
    exact Runs.pure ⟨rfl, ht₂, h₂, h₂.fresh, h₂.cwd, hleaf, hfd⟩

end OsLab
