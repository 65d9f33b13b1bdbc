import OsLab.Fs.Ops

/-!
# What the system calls that remove do to the names

`do_rm` and `do_rmdir` follow their path to an inode and then clear the first entry of the working
directory that names it (`Vol.slotOf`), whichever directory the path led through. `Rms` says what
`do_rm` does to a file in every case. When the working directory has the entry (`RmOk`, `RmdirOk`),
what a call does is one of the steps of `Names`.
-/

namespace OsLab

open Lib ProgM Bytes

variable {V : View}

/-! ### The entry that is cleared -/

/-- An entry that is cleared. -/
def Dentry.cleared (e : Dentry) : Dentry := ⟨Function.update e.name 0 0, 0, 0⟩

theorem Dentry.cleared_zero : Dentry.zero.cleared = Dentry.zero := by
  simp [Dentry.cleared, Dentry.zero]

theorem Dentry.used_cleared (e : Dentry) : e.cleared.used = false := by simp [Dentry.cleared, Dentry.used]

namespace Vol

/-- The first entry of the working directory for an inode. -/
def slotOf (V : Vol) (ino : UInt32) : Option ℕ :=
  (List.range NUM_DENTRIES).find? fun j => (V.entry (V.dirBlock V.cwd) j).ino = ino

/-- Clear an entry of the working directory, if there is one to clear. -/
def clearSlot (V : Vol) : Option ℕ → Vol
  | none => V
  | some j => V.setEntry (V.dirBlock V.cwd) j (V.entry (V.dirBlock V.cwd) j).cleared

variable {V : Vol}

theorem wd_clearSlot (slot : Option ℕ) : (V.clearSlot slot).wd = V.wd := by
  cases slot <;> rfl

theorem inode_clearSlot (slot : Option ℕ) : (V.clearSlot slot).inode = V.inode := by
  cases slot <;> rfl

theorem Base.clearSlot (h : V.Base) (slot : Option ℕ) : (V.clearSlot slot).Base := by
  cases slot with
  | none => exact h
  | some j => exact h.setBlock _ (h.dirBlock h.cwd).1 (h.dirBlock_leaf h.cwd)

/-- The entry for an inode other than the root is used. -/
theorem Inv.link_of_slotOf (h : V.Inv) {j f : ℕ} {ino : UInt32} (hino : ino.toNat = f) (h0 : f ≠ 0)
    (hj : V.slotOf ino = some j) : V.names.Link V.cwd j f := by
  have he : (V.entry (V.dirBlock V.cwd) j).ino = ino := by simpa using List.find?_some hj
  refine ⟨h.cwd, ?_, by rw [Names.child]; exact (congrArg UInt32.toNat he).trans hino⟩
  -- An unused entry would name inode 0.
  by_contra hu
  have : (V.entry (V.dirBlock V.cwd) j).ino = 0 := h.names.vacant h.cwd (by simpa using hu)
  rw [this] at he
  rw [← he] at hino
  exact h0 hino.symm

theorem slotOf_isSome {j : ℕ} {ino : UInt32} (hj : j < NUM_DENTRIES) (he : (V.entry (V.dirBlock V.cwd) j).ino = ino) :
    ∃ j', V.slotOf ino = some j' := by
  refine Option.isSome_iff_exists.mp ?_
  rw [slotOf, List.find?_isSome]
  exact ⟨j, List.mem_range.mpr hj, by simpa using he⟩

/-- The entry that is cleared: the first one that names the inode. -/
theorem Inv.entryOf (h : V.Inv) {f : ℕ} {ino : UInt32} (hino : ino.toNat = f) (h0 : f ≠ 0)
    (hex : ∃ j < 16, (V.entry (V.dirBlock V.cwd) j).ino.toNat = f) :
    ∃ j, V.slotOf ino = some j ∧ V.names.Link V.cwd j f := by
  obtain ⟨j₀, hj₀, he₀⟩ := hex
  obtain ⟨j, hj⟩ := slotOf_isSome (V := V) (Nat.lt_trans hj₀ (by decide)) (UInt32.toNat_inj.mp (he₀.trans hino.symm))
  exact ⟨j, hj, h.link_of_slotOf hino h0 hj⟩

end Vol

/-- What clearing an entry of the working directory, if there is one, together with its inode does. -/
structure WdCleared (V V' : Vol) (slot : Option ℕ) (I : Inode) : Prop where
  base : V'.Base
  kind : ∀ x, V'.names.kind x = V.names.kind x
  dent : ∀ x y, V.IsDir x → V'.names.dent x y =
    if x = V.cwd ∧ slot = some y then (V.names.dent x y).cleared else V.names.dent x y
  follow : ∀ r ws, ws.length ≤ Vol.depth r → V'.follow r ws = V.follow r ws
  self : V'.inode V.cwd = I
  inode : ∀ x, x ≠ V.cwd → V'.inode x = V.inode x
  imap : V'.imap = V.imap
  bmap : V'.bmap = V.bmap
  fdesc : V'.fdesc = V.fdesc
  cwd : V'.cwd = V.cwd

theorem Vol.Base.wdCleared {V : Vol} (h : V.Base) {o : Option ℕ} (hslot : ∀ j, o = some j → j < 16) {I : Inode}
    (hb : I.blocks = V.wd.blocks) (ht : I.type = V.wd.type) (hn : I.ino = V.wd.ino) :
    WdCleared V ((V.clearSlot o).updWd I) o I := by
  have hcwd : I.ino.toNat = V.cwd := by rw [hn]; rfl
  cases o with
  | none =>
    obtain ⟨hb', hS⟩ := h.updWd (I := I) hb ht hn
    refine ⟨hb', hS.kind, fun x y hx => ?_, fun r ws _ => ?_,
      Function.update_self .., fun x hx => Function.update_of_ne hx _ _,
      rfl, rfl, rfl, hcwd⟩
    · rw [if_neg (by simp)]
      exact hS.dent x y hx
    · rw [Vol.follow, Vol.clearSlot, h.forest_updWd hb, Vol.follow]
  | some j =>
    have hE := h.wdEntry (hslot j rfl) (V.entry (V.dirBlock V.cwd) j).cleared (I := I) hb ht hn
    obtain ⟨hbE, -⟩ := h.setEntry h.cwd (hslot j rfl) (V.entry (V.dirBlock V.cwd) j).cleared
    refine ⟨hE.base, hE.kind, fun x y hx => ?_, fun r ws hl => ?_, hE.self, hE.inode, rfl, rfl, hE.fdesc, hE.cwd⟩
    · rw [Vol.clearSlot, hE.dent x y hx]
      by_cases hxy : x = V.cwd ∧ y = j
      · obtain ⟨rfl, rfl⟩ := hxy
        rw [if_pos ⟨rfl, rfl⟩, if_pos ⟨rfl, rfl⟩]
        rfl
      · rw [if_neg hxy, if_neg fun c => hxy ⟨c.1, (Option.some.inj c.2).symm⟩]
    · rw [Vol.follow, Vol.clearSlot, hbE.forest_updWd (I := I) hb]
      exact h.space.follow_setBlock _ (h.dirBlock h.cwd).1 (h.dirBlock_leaf h.cwd) hl

/-- Clearing the entry for an inode. An entry beyond the first sector is empty already. -/
theorem clearEntry_spec (ht : V.Tidy) {b : ℕ} (hb : b < NUM_BLOCKS) (hbw : b = V.dirBlock V.cwd)
    (hd : V.dbuf = ofSector (V.data b)) (ino : UInt32) :
    Spec V (Fs.clearEntry (blockSector b) ino) fun _ V' =>
    V'.toVol = V.clearSlot (V.slotOf ino) ∧ V'.Tidy ∧ V'.ibuf = V.ibuf := by
  subst hbw
  refine (Does.entries hd).seq ?_
  show Spec V (match V.slotOf ino with
    | none => pure ()
    | some j => do
      Fs.setDentryBuf j (V.entry (V.dirBlock V.cwd) j).cleared
      Fs.bwrite .dentry_buffer BLOCK_SECTORS (blockSector (V.dirBlock V.cwd))) _
  cases V.slotOf ino with
  | none => exact Spec.pure ⟨rfl, ht, rfl⟩
  | some j =>
    refine (Does.setDentryBuf j _).seq ((Does.bwriteDentry hb).spec ⟨?_, ⟨fun i hi => ?_, ht.rbuf⟩, rfl⟩)
    · show V.toVol.setBlock _ ((putDentry V.dbuf (32 * j) _).sector 0) = V.setEntry _ j _
      rw [Vol.setEntry, hd]
    · show putDentry V.dbuf (32 * j) _ i = 0
      rw [putDentry]
      split
      · next hij =>
        have hj : 16 ≤ j := by
          unfold SECTOR_SIZE at hi
          omega
        rw [V.entry_of_le _ hj, Dentry.cleared_zero, Dentry.byteAt_zero]
      · exact ht.dbuf i hi

/-! ### Removing files -/

/-- Counting down a link count. -/
theorem nlink_pred {n : UInt16} {c : ℕ} (h : n.toNat = c) (hc : 1 ≤ c) :
    (n - 1).toNat = c - 1 ∧ (n - 1 = 0 ↔ c = 1) := by
  have h1 : (n - 1).toNat = c - 1 := by
    rw [UInt16.toNat_sub_of_le _ _ (by rw [UInt16.le_iff_toNat_le, h]; exact hc), h]
    rfl
  refine ⟨h1, ?_⟩
  rw [← UInt16.toNat_inj, h1]
  show c - 1 = 0 ↔ c = 1
  omega

/-- What `do_rm` does to file `f`: the entry, if there is one, is cleared, the link count goes down, and
the file goes with its last link. -/
structure Rms (V V' : Vol) (f : ℕ) : Prop where
  base : V'.Base
  kind : ∀ x, V'.names.kind x = if x = f ∧ (V.inode f).nlink = 1 then none else V.names.kind x
  dent : ∀ x y, V.IsDir x → V'.names.dent x y =
    if x = V.cwd ∧ V.slotOf (V.inode f).ino = some y then (V.names.dent x y).cleared else V.names.dent x y
  nlink : (V'.inode f).nlink = (V.inode f).nlink - 1
  bmap : ∀ b < NUM_BLOCKS, V'.bmap b = true ↔ V.bmap b = true ∧ ¬ ((V.inode f).nlink = 1 ∧ V.Owns f b)
  self : (V'.inode V.cwd).nlink = V.wd.nlink - 1 ∧ (V'.inode V.cwd).size = V.wd.size - 32
  inode : ∀ x, x ≠ f → x ≠ V.cwd → V'.inode x = V.inode x
  fdesc : V'.fdesc = V.fdesc
  cwd : V'.cwd = V.cwd

section Rms

variable {V W V' : Vol} {f : ℕ} {I : Inode}

theorem Vol.Base.ne_of_isFile (h : V.Base) (hf : V.IsFile f) : f ≠ 0 ∧ f ≠ V.cwd := by
  constructor
  · rintro rfl
    rw [Vol.IsFile, h.root.1] at hf
    cases hf
  · rintro rfl
    rw [Vol.IsFile, h.cwd] at hf
    cases hf

theorem WdCleared.owns {slot : Option ℕ} (hW : WdCleared V W slot I) (f b : ℕ) : W.Owns f b ↔ V.Owns f b := by
  constructor
  · rintro ⟨k, ws, hl, hf⟩
    exact ⟨k, ws, hl, by rw [← hW.follow _ ws hl]; exact hf⟩
  · rintro ⟨k, ws, hl, hf⟩
    exact ⟨k, ws, hl, by rw [hW.follow _ ws hl]; exact hf⟩

/-- The last link goes, and the file with it. -/
theorem WdCleared.rms_last (hW : WdCleared V W (V.slotOf (V.inode f).ino) I) (hfile : V.IsFile f) (hne : f ≠ V.cwd)
    (h1 : (V.inode f).nlink = 1) (hn : I.nlink = V.wd.nlink - 1) (hs : I.size = V.wd.size - 32) (hbase : V'.Base)
    (hD : Vol.Dropped W.names V'.names f)
    (hinode : ∀ x, x ≠ f → V'.inode x = W.inode x) (hself : V'.inode f = Inode.zero)
    (hbmap : ∀ b < NUM_BLOCKS, V'.bmap b = true ↔ W.bmap b = true ∧ ¬ W.Owns f b) (hfd : V'.fdesc = W.fdesc)
    (hwd : V'.wd = W.wd) : Rms V V' f where
  base := hbase
  kind x := by
    rw [hD.kind, hW.kind]
    simp [h1]
  dent x y hx := by
    have hxf : x ≠ f := by
      rintro rfl
      rw [Vol.IsFile, hx] at hfile
      cases hfile
    rw [hD.dent x y hxf, hW.dent x y hx]
  nlink := by
    rw [hself, h1]
    rfl
  bmap b hb := by
    rw [hbmap b hb, hW.bmap, hW.owns]
    simp [h1]
  self := by
    rw [hinode _ (Ne.symm hne), hW.self]
    exact ⟨hn, hs⟩
  inode x hxf hxc := by rw [hinode x hxf, hW.inode x hxc]
  fdesc := hfd.trans hW.fdesc
  cwd := by
    rw [Vol.cwd, hwd]
    exact hW.cwd

/-- One of several links goes. -/
theorem WdCleared.rms_more (hW : WdCleared V W (V.slotOf (V.inode f).ino) I) (hfile : V.IsFile f) (hne : f ≠ V.cwd)
    (h1 : (V.inode f).nlink ≠ 1) (hn : I.nlink = V.wd.nlink - 1) (hs : I.size = V.wd.size - 32) :
    Rms V (W.setInode f { V.inode f with nlink := (V.inode f).nlink - 1 }) f := by
  have hfW : W.IsFile f := by rw [Vol.IsFile, hW.kind]; exact hfile
  have hinoW : W.inode f = V.inode f := hW.inode f hne
  obtain ⟨hb, hN⟩ := hW.base.setFile (I := { V.inode f with nlink := (V.inode f).nlink - 1 }) hfW (by rw [hinoW])
    (by rw [hinoW]) (by rw [hinoW]) (by rw [hinoW])
  refine ⟨hb, fun x => ?_, fun x y hx => ?_, ?_, fun b _ => ?_, ?_, fun x hxf hxc => ?_, hW.fdesc, hW.cwd⟩
  · rw [hN.kind, hW.kind, if_neg fun c => h1 c.2]
  · rw [hN.dent, hW.dent x y hx]
  · rw [Vol.inode_setInode, if_pos rfl]
  · show W.bmap b = true ↔ _
    rw [hW.bmap]
    simp [h1]
  · rw [Vol.inode_setInode, if_neg (Ne.symm hne), hW.self]
    exact ⟨hn, hs⟩
  · rw [Vol.inode_setInode, if_neg hxf, hW.inode x hxc]

end Rms

/-- `do_rm`, of any path that leads to a file. -/
theorem do_rm_exact (h : V.Inv) (ht : V.Tidy) {path : CString} (hp : V.PathOk path) :
    Spec V (Fs.do_rm path) fun r V' =>
    V'.Tidy ∧ ((r = -1 ∧ V'.toVol = V.toVol ∧ ∀ f, V.find path = some f → ¬ V.IsFile f) ∨
      (r = 0 ∧ ∃ f, V.find path = some f ∧ V.IsFile f ∧ Rms V.toVol V'.toVol f)) := by
  refine h.withPath ht hp
    (fun hn V₁ hv₁ ht₁ => Spec.pure ⟨ht₁, Or.inl ⟨rfl, hv₁, fun f hf => by cases hn.symm.trans hf⟩⟩) ?_
  rintro f hfind ⟨kd, hkd⟩ V₁ hv₁ ht₁
  split
  · next htype => exact Spec.pure ⟨ht₁, Or.inl ⟨rfl, hv₁, Vol.not_isFile_of_find hfind htype⟩⟩
  next htype =>
  have himap := Vol.imap_of_kind hkd
  have hf : V.IsFile f := Vol.isFile_iff.mpr ⟨himap, htype⟩
  have hino := h.ino himap
  obtain ⟨h0, hfc⟩ := h.ne_of_isFile hf
  have hslot : ∀ j, V.slotOf (V.inode f).ino = some j → j < 16 :=
    fun j hj => h.names.short (h.link_of_slotOf hino h0 hj)
  obtain ⟨hb, hblk⟩ := h.wdBlock
  refine Does.wdInode.seq (Spec.bind (Vol.Base.loadWd (V := V₁) (hv₁ ▸ h.toBase) ht₁) ?_)
  rintro _ V₂ ⟨hv₂, ht₂, hd₂⟩
  rw [hv₁] at hv₂ hd₂ ⊢
  rw [hblk]
  refine (clearEntry_spec ht₂ hb (by rw [hv₂]) (by rw [hd₂, hv₂]) _).bind ?_
  rintro _ V₃ ⟨hv₃, ht₃, -⟩
  rw [hv₂] at hv₃
  have hwd₃ : V₃.wd = V.wd := by rw [hv₃, Vol.wd_clearSlot]
  have hlt₃ : V₃.cwd < NUM_INODES := by rw [Vol.cwd, hwd₃]; exact h.cwd_lt
  refine Spec.bind (updateWd_spec ?_ hlt₃) ?_
  · exact fun _ _ => rfl
  rintro _ V₄ ⟨now, h₄⟩
  have ht₄ := h₄.tidy ht₃
  have hv₄ := h₄.vol
  rw [hwd₃, hv₃] at hv₄
  have hW := h.wdCleared (o := V.slotOf (V.inode f).ino) hslot
    (I := { V.wd with size := V.wd.size - 32, mtime := now, nlink := V.wd.nlink - 1 }) rfl rfl rfl
  rw [← hv₄] at hW
  have hlast : (V.inode f).nlink - 1 = 0 ↔ (V.inode f).nlink = 1 := by rw [UInt16.sub_eq_iff_eq_add, UInt16.zero_add]
  split
  · next hn =>
    have himap₄ : V₄.imap f = true := by rw [hW.imap]; exact himap
    refine (free_inode_spec (by rw [hino]; exact h.lt himap)
      (by rw [hino]; exact hW.base.space.ptrsOk himap₄) ht₄).bind ?_
    rintro _ V₅ hF
    rw [hino] at hF
    have hfW : V₄.IsFile f := by rw [Vol.IsFile, hW.kind]; exact hf
    obtain ⟨hb₅, hD⟩ := hW.base.freeInode himap₄ h0 (by rw [hW.cwd]; exact hfc) (hW.base.cover hfW) hF
    refine Spec.pure ⟨hF.tidy, Or.inr ⟨rfl, f, hfind, hf, ?_⟩⟩
    refine hW.rms_last hf hfc (hlast.mp hn) rfl rfl hb₅ hD (fun x hx => ?_) ?_ (fun b hb => ?_) ?_ ?_
    · rw [hF.eq]
      exact Function.update_of_ne hx _ _
    · rw [hF.eq]
      exact Function.update_self ..
    · rw [hF.bmap b hb, Vol.freed_iff_owns himap₄ (hW.base.cover hfW) hb]
    · rw [hF.eq]
      rfl
    · rw [hF.eq]
      rfl
  · next hn =>
    refine (storeInode_spec (I := { V.inode f with nlink := (V.inode f).nlink - 1 })
      (by rw [hino]; exact h.lt himap)).bind ?_
    rintro _ V₅ h₅
    refine Spec.pure ⟨h₅.tidy ht₄, Or.inr ⟨rfl, f, hfind, hf, ?_⟩⟩
    rw [h₅.vol, hino]
    exact hW.rms_more hf hfc (fun e => hn (hlast.mpr e)) rfl rfl

/-- What `do_rm` of a path to a file needs: the working directory has an entry for the file. -/
def Vol.RmOk (V : Vol) (path : CString) : Prop :=
  V.PathOk path ∧ ∀ f, V.find path = some f → V.IsFile f → ∃ j < 16, (V.entry (V.dirBlock V.cwd) j).ino.toNat = f

/-- What `do_rm` does when the working directory has an entry. -/
structure Removed (V V' : Vol) (f : ℕ) : Prop where
  base : V'.Base
  names : ∃ j e, V.names.Remove V'.names V.cwd j e f
  dirs : DirsKept V V' (V.wd.nlink - 1) (V.wd.size - 32)
  fdesc : V'.fdesc = V.fdesc
  cwd : V'.cwd = V.cwd

theorem Rms.removed {V V' : Vol} {f : ℕ} (hR : Rms V V' f) (h : V.Inv) (hf : V.IsFile f)
    (hex : ∃ j < 16, (V.entry (V.dirBlock V.cwd) j).ino.toNat = f) : Removed V V' f := by
  have hino := h.ino (Vol.imap_of_kind hf)
  obtain ⟨h0, hfc⟩ := h.ne_of_isFile hf
  obtain ⟨j, hj, hl⟩ := h.entryOf hino h0 hex
  have hpos : 1 ≤ (V.names.refs f).card := Finset.card_pos.mpr (h.names.refs_nonempty hf)
  obtain ⟨hcount, hlast⟩ := nlink_pred (h.names.links hf) hpos
  have hone : (V.inode f).nlink = 1 ↔ (V.names.refs f).card = 1 := by
    rw [← hlast, UInt16.sub_eq_iff_eq_add, UInt16.zero_add]
    rfl
  have hdir : ∀ x, V.IsDir x → x ≠ f := by
    rintro x hx rfl
    rw [Vol.IsFile, hx] at hf
    cases hf
  refine ⟨hR.base, ⟨j, (V.names.dent V.cwd j).cleared, hl, hf, Dentry.used_cleared _, rfl, ?_, ?_, ?_, ?_⟩,
    ⟨?_, ?_⟩, hR.fdesc, hR.cwd⟩
  · intro x
    simp only [hR.kind, hone]
  · intro x y hx
    rw [hR.dent x y hx, hj]
    by_cases hxy : x = V.cwd ∧ y = j
    · rw [if_pos ⟨hxy.1, congrArg some hxy.2.symm⟩, if_pos hxy, hxy.1, hxy.2]
    · rw [if_neg hxy, if_neg fun c => hxy ⟨c.1, (Option.some.inj c.2).symm⟩]
  · show (V'.inode f).nlink.toNat = _
    rw [hR.nlink]
    exact hcount
  · intro x hx hxf
    have hxc : x ≠ V.cwd := (h.ne_of_isFile hxf).2
    show (V'.inode x).nlink = (V.inode x).nlink
    rw [hR.inode x hx hxc]
  · exact hR.self
  · intro x hx _ hxc
    rw [hR.inode x (hdir x hx) hxc]
    exact ⟨rfl, rfl⟩

/-- `do_rm`. -/
theorem do_rm_spec (h : V.Inv) (ht : V.Tidy) {path : CString} (hok : V.RmOk path) :
    Spec V (Fs.do_rm path) fun r V' =>
    V'.Tidy ∧ ((r = -1 ∧ V'.toVol = V.toVol ∧ ∀ f, V.find path = some f → ¬ V.IsFile f) ∨
      (r = 0 ∧ ∃ f, V.find path = some f ∧ V.IsFile f ∧ Removed V.toVol V'.toVol f)) := by
  refine (do_rm_exact h ht hok.1).mono ?_
  rintro r V' ⟨ht', hno | ⟨hr, f, hfind, hf, hR⟩⟩
  · exact ⟨ht', Or.inl hno⟩
  · exact ⟨ht', Or.inr ⟨hr, f, hfind, hf, hR.removed h hf (hok.2 f hfind hf)⟩⟩

/-! ### Removing directories -/

/-- The path leads to directory `d` and `do_rmdir` takes it for an empty one. -/
structure Vol.Rmdir (V : Vol) (path : CString) (d : ℕ) : Prop where
  dot : path.chars ≠ [46]
  dotdot : path.chars ≠ [46, 46]
  find : V.find path = some d
  dir : V.IsDir d
  nlink : (V.inode d).nlink = 1

/-- What `do_rmdir` needs of a directory that it removes: the working directory has an entry for
it, it is empty, and its inode shares its sector with that of the working directory. -/
def Vol.RmdirOk (V : Vol) (path : CString) : Prop :=
  V.PathOk path ∧ ∀ d, V.Rmdir path d →
    (∃ j < 16, 2 ≤ j ∧ (V.entry (V.dirBlock V.cwd) j).ino.toNat = d) ∧ d / 8 = V.cwd / 8 ∧
    d ≠ 0 ∧ (∀ j < 16, 2 ≤ j → (V.entry (V.dirBlock d) j).used = false) ∧ (V.inode d).size ≠ 0

/-- The entry that `do_rmdir` clears is not `..`. -/
theorem Vol.Inv.two_le_of_empty {V : Vol} (h : V.Inv) {j j₀ d : ℕ} (hl : V.names.Link V.cwd j d)
    (hl₀ : V.names.Link V.cwd j₀ d) (hj₀ : 2 ≤ j₀) (hd : V.IsDir d) (h0 : d ≠ 0)
    (hempty : ∀ y, 2 ≤ y → (V.names.dent d y).used = false) : 2 ≤ j := by
  by_contra hlt
  obtain rfl | rfl : j = 0 ∨ j = 1 := by omega
  · exact h.names.ne_child hj₀ hl₀ hd ((h.names.dot h.cwd).2.symm.trans hl.2.2)
  · by_cases hroot : V.cwd = 0
    · rw [hroot] at hl
      exact h0 (hl.2.2.symm.trans h.names.rootdots)
    · -- The parent of the working directory has an entry.
      obtain ⟨p, y, hy, hp⟩ := h.names.exists_ref h.cwd hroot
      have hpd : p = d := (h.names.parent hy hp h.cwd).symm.trans hl.2.2
      have := hp.2.1
      rw [hpd, hempty y hy] at this
      cases this

/-- `nest_rmdir` of an empty directory does nothing. -/
theorem nest_rmdir_spec (h : V.Base) (ht : V.Tidy) {d : ℕ} (hd : V.IsDir d)
    (hempty : ∀ j, 2 ≤ j → (V.entry (V.dirBlock d) j).used = false) (fuel : ℕ) :
    Spec V (Fs.nest_rmdir (fuel + 1) (V.inode d)) fun _ V' => V'.toVol = V.toVol ∧ V'.Tidy := by
  obtain ⟨hb, he, -⟩ := h.dirBlock hd
  refine Spec.forM (P := fun V' => V'.toVol = V.toVol ∧ V'.Tidy) (fun j hj V₁ ⟨hv₁, ht₁⟩ => ?_) ⟨rfl, ht⟩
  have hread := Does.breadDentry (V := V₁) hb
  rw [put_eq_ofSector ht₁.dbuf, ← toNat_sec hb, ← he] at hread
  refine hread.seq ((Does.entries (U := V₁.toVol) rfl).seq ?_)
  rw [hv₁, hempty j (List.mem_range'_1.mp hj).1]
  exact Spec.pure ⟨rfl, (ht₁.setDbuf _).dbuf, ht₁.rbuf⟩

/-- What `do_rmdir` does when it succeeds. -/
structure RemovedDir (V V' : Vol) (d : ℕ) : Prop where
  base : V'.Base
  names : ∃ j e, V.names.RemoveDir V'.names V.cwd j e d
  dirs : DirsKept V V' (V.wd.nlink - 1 - 1) (V.wd.size - 32)
  fdesc : V'.fdesc = V.fdesc
  cwd : V'.cwd = V.cwd

/-- The number that a pointer to directory `d` in `inode_buffer` shows once the sector of the working
directory has been read over it. -/
def Vol.shown (V : Vol) (d : ℕ) : UInt32 := (V.inode (V.cwd / 8 * 8 + d % 8)).ino

theorem Vol.shown_cwd (V : Vol) : V.shown V.cwd = (V.inode V.cwd).ino := by
  rw [Vol.shown, show V.cwd / 8 * 8 + V.cwd % 8 = V.cwd by omega]

theorem Vol.shown_clearSlot (V : Vol) (slot : Option ℕ) (d : ℕ) : (V.clearSlot slot).shown d = V.shown d := by
  rw [Vol.shown, Vol.inode_clearSlot, Vol.cwd, Vol.wd_clearSlot]
  rfl

/-- Changing the working directory's inode, but not its number, shows the same numbers. -/
theorem Vol.Base.shown_updWd {V : Vol} (h : V.Base) {I : Inode} (hn : I.ino = V.wd.ino) (d : ℕ) :
    (V.updWd I).shown d = V.shown d := by
  have hcwd : (V.updWd I).cwd = V.cwd := congrArg UInt32.toNat hn
  rw [Vol.shown, Vol.shown, hcwd, Vol.updWd]
  dsimp only
  rw [Function.update_apply]
  split
  · next he => rw [he, hn, h.wd]
  · rfl

theorem updateWd_spec' {f : Inode → UInt32 → Inode} (hf : ∀ I now, (f I now).ino = I.ino) (h : V.Base) :
    Spec V (Fs.updateWd f) fun _ V' => ∃ now,
    Alters V V' (V.updWd (f V.wd now)) ∧ ∀ d, (V'.ibuf (d % 8)).ino = V.shown d := by
  refine (Does.updateWd (hf _ _) h.cwd_lt).spec ⟨_, ⟨rfl, rfl, rfl⟩, fun d => ?_⟩
  show (Function.update (V.loadInodes V.cwd) (V.cwd % 8) (f V.wd (V.clock 0)) (d % 8)).ino = _
  rw [Function.update_apply, Vol.shown]
  split
  · next he => rw [hf, he, show V.cwd / 8 * 8 + V.cwd % 8 = V.cwd by omega, ← h.wd]
  · rw [Vol.loadInodes, if_pos (by omega)]

/-- `do_rmdir` after its checks. -/
def rmdirTail (p : InodePtr) (I : Inode) : FsM ℤ := do
  Fs.nest_rmdir NUM_INODES I
  Fs.updateWd fun I now => { I with mtime := now, nlink := I.nlink - 1 }
  let wd ← Fs.wdInode
  Fs.bread .dentry_buffer BLOCK_SECTORS (wd.blocks 0).toNat
  let I ← Fs.deref p
  Fs.clearEntry (wd.blocks 0).toNat I.ino
  Fs.updateWd fun I now => { I with size := I.size - 32, mtime := now, nlink := I.nlink - 1 }
  let I ← Fs.deref p
  Fs.free_inode I.ino
  pure 0

/-- The pointer that `find_inode` returns for directory `d`. -/
def Vol.PointerTo (V : Vol) (p : InodePtr) (d : ℕ) : Prop := (p = .wd ∧ d = V.cwd) ∨ p = .buf (d % 8)

/-- The checks of `do_rmdir`. -/
theorem do_rmdir_checks {G : View → FsM ℤ → Prop} (hG : Leads G)
    (h : V.Inv) (ht : V.Tidy) {path : CString} (hp : V.PathOk path)
    (hno : ∀ V' : View, V'.toVol = V.toVol → V'.Tidy → (∀ d, ¬ V.Rmdir path d) → G V' (pure (-1)))
    (hyes : ∀ d p (V' : View), V'.toVol = V.toVol → V'.Tidy → V.Rmdir path d → V.PointerTo p d →
      G V' (rmdirTail p (V.inode d))) : G V (Fs.do_rmdir path) := by
  refine hG.spec (h.find_inode ht hp) fun r V₁ hF => ?_
  split
  · next hdots => exact hno V₁ hF.vol hF.tidy fun d hd => hdots.elim hd.dot hd.dotdot
  next hdots =>
  obtain ⟨hdot, hdotdot⟩ := not_or.mp hdots
  cases hfind : V.find path with
  | none =>
    rw [hF.none hfind]
    exact hno V₁ hF.vol hF.tidy fun d hd => by cases hfind.symm.trans hd.find
  | some d =>
    obtain ⟨⟨kd, hkd⟩, hptr⟩ := hF.some d hfind
    have hsame : ∀ d', V.Rmdir path d' → d' = d := fun d' hd' => Option.some.inj (hd'.find.symm.trans hfind)
    obtain ⟨p, rfl, hpd, hderef⟩ : ∃ p, r = some p ∧ V.PointerTo p d ∧ Does V₁ (Fs.deref p) (V.inode d) V₁ := by
      obtain ⟨-, rfl, rfl⟩ | ⟨-, rfl, hib⟩ := hptr
      · have hwd : V₁.wd = V.inode V.cwd := by rw [hF.vol]; exact h.wd
        exact ⟨_, rfl, Or.inl ⟨rfl, rfl⟩, hwd ▸ Does.wdInode⟩
      · have hi : V₁.ibuf (d % 8) = V.inode d := by rw [hib, Vol.loadInodes_mod]
        exact ⟨_, rfl, Or.inr rfl, hi ▸ Does.inodeBuf (by omega)⟩
    refine hG.does hderef ?_
    split
    · next htype =>
      refine hno V₁ hF.vol hF.tidy fun d' hd' => htype ?_
      rw [← hsame d' hd']
      exact (Vol.isDir_iff.mp hd'.dir).2
    next htype =>
    split
    · next hn =>
      refine hno V₁ hF.vol hF.tidy fun d' hd' => hn ?_
      rw [← hsame d' hd']
      exact hd'.nlink
    next hn =>
    have hdir : V.IsDir d := Vol.isDir_iff.mpr ⟨Vol.imap_of_kind hkd, not_not.mp htype⟩
    exact hyes d p V₁ hF.vol hF.tidy ⟨hdot, hdotdot, hfind, hdir, not_not.mp hn⟩ hpd

/-- Clearing an entry between two changes of the working directory's inode. -/
theorem Vol.Base.updWd_clearSlot {V : Vol} (h : V.Base) {I J : Inode}
    (hb : I.blocks = V.wd.blocks) (hn : I.ino = V.wd.ino)
    (slot : Option ℕ) : ((V.updWd I).clearSlot slot).updWd J = (V.clearSlot slot).updWd J := by
  have hcwd : (V.updWd I).cwd = V.cwd := congrArg UInt32.toNat hn
  have hblk : (V.updWd I).dirBlock (V.updWd I).cwd = V.dirBlock V.cwd := by
    rw [hcwd, Vol.dirBlock, h.blocks_updWd hb, Vol.dirBlock]
  have hupd : ∀ U : Vol,
      U.cwd = V.cwd → ({ U with wd := I, inode := Function.update U.inode V.cwd I } : Vol).updWd J = U.updWd J := by
    intro U hU
    have hc : I.ino.toNat = V.cwd := congrArg UInt32.toNat hn
    simp only [Vol.updWd, Vol.cwd, hc] at hU ⊢
    rw [hU, Function.update_idem]
  cases slot with
  | none => exact hupd V rfl
  | some j =>
    rw [Vol.clearSlot, Vol.clearSlot, hblk]
    exact hupd (V.setEntry _ _ _) rfl

theorem Vol.Base.slotOf_updWd {V : Vol} (h : V.Base) {I : Inode} (hb : I.blocks = V.wd.blocks) (hn : I.ino = V.wd.ino)
    (ino : UInt32) : (V.updWd I).slotOf ino = V.slotOf ino := by
  have hcwd : (V.updWd I).cwd = V.cwd := congrArg UInt32.toNat hn
  have hblk : (V.updWd I).dirBlock (V.updWd I).cwd = V.dirBlock V.cwd := by
    rw [hcwd, Vol.dirBlock, h.blocks_updWd hb, Vol.dirBlock]
  rw [Vol.slotOf, hblk]
  rfl

/-- Following the pointer again. -/
theorem derefAgain {U : Vol} {d : ℕ} {p : InodePtr} (hp : U.PointerTo p d) (hwd : V.wd.ino = (U.inode U.cwd).ino)
    (hib : ∀ d, (V.ibuf (d % 8)).ino = U.shown d) : ∃ I : Inode, I.ino = U.shown d ∧ Does V (Fs.deref p) I V := by
  obtain ⟨rfl, rfl⟩ | rfl := hp
  · exact ⟨V.wd, hwd.trans U.shown_cwd.symm, Does.wdInode⟩
  · exact ⟨_, hib d, Does.inodeBuf (by omega)⟩

/-- `do_rmdir` of an empty directory, up to the last step: the entry cleared and the inode given back
are those of the number that the pointer shows by then. -/
theorem rmdirTail_leads {G : View → FsM ℤ → Prop} (hG : Leads G) {U : Vol} (h : U.Inv) {d : ℕ} (hd : U.IsDir d)
    (hempty : ∀ y, 2 ≤ y → (U.names.dent d y).used = false) {p : InodePtr} (hp : U.PointerTo p d) (hv : V.toVol = U)
    (ht : V.Tidy)
    (hend : ∀ (now : UInt32) (V' : View), V'.toVol = (U.clearSlot (U.slotOf (U.shown d))).updWd
        { U.wd with size := U.wd.size - 32, mtime := now, nlink := U.wd.nlink - 1 - 1 } → V'.Tidy →
      G V' (do
        Fs.free_inode (U.shown d)
        pure 0)) : G V (rmdirTail p (U.inode d)) := by
  subst hv
  refine hG.spec (nest_rmdir_spec h.toBase ht hd hempty 4095) ?_
  rintro _ V₂ ⟨hv₂, ht₂⟩
  have hb₂ : V₂.Base := by rw [hv₂]; exact h.toBase
  -- The first update of the working directory's inode reads its sector over `inode_buffer`.
  refine hG.spec (updateWd_spec' (fun _ _ => rfl) hb₂) ?_
  rintro _ V₃ ⟨now, h₃, hib₃⟩
  have hv₃ := h₃.vol
  rw [hv₂] at hv₃ hib₃
  have ht₃ := h₃.tidy ht₂
  obtain ⟨hbU, -⟩ := h.updWd (I := { V.wd with mtime := now, nlink := V.wd.nlink - 1 }) rfl rfl rfl
  have hb₃ : V₃.Base := by rw [hv₃]; exact hbU
  have hwd₃ : V₃.wd.ino = (V.inode V.cwd).ino := by
    rw [hv₃, ← h.wd]
    rfl
  refine hG.does Does.wdInode (hG.does (hb₃.readWd ht₃) ?_)
  obtain ⟨I, hI, hderef⟩ := derefAgain (V := { V₃ with dbuf := ofSector (V₃.data (V₃.dirBlock V₃.cwd)) }) hp hwd₃ hib₃
  refine hG.does hderef ?_
  obtain ⟨hblt, hblk⟩ := hb₃.wdBlock
  rw [hblk, hI]
  refine hG.spec (clearEntry_spec (ht₃.setDbuf _) hblt rfl rfl (V.shown d)) ?_
  rintro _ V₄ ⟨hv₄, ht₄, -⟩
  dsimp only at hv₄
  rw [hv₃, h.slotOf_updWd (by rfl) (by rfl)] at hv₄
  have hb₄ : V₄.Base := by rw [hv₄]; exact hbU.clearSlot _
  have hshown₄ : ∀ x, V₄.shown x = V.shown x := by
    intro x
    rw [hv₄, Vol.shown_clearSlot]
    exact h.shown_updWd (by rfl) x
  refine hG.spec (updateWd_spec' (fun _ _ => rfl) hb₄) ?_
  rintro _ V₅ ⟨now', h₅, hib₅⟩
  have hwd₄ : V₄.wd = { V.wd with mtime := now, nlink := V.wd.nlink - 1 } := by
    rw [hv₄, Vol.wd_clearSlot]
    rfl
  have hwd₅ : V₅.wd.ino = (V.inode V.cwd).ino := by
    rw [h₅.vol, ← h.wd]
    show V₄.wd.ino = _
    rw [hwd₄]
  obtain ⟨J, hJ, hderef'⟩ := derefAgain hp hwd₅ fun x => (hib₅ x).trans (hshown₄ x)
  refine hG.does hderef' ?_
  rw [hJ]
  refine hend now' V₅ ?_ (h₅.tidy ht₄)
  rw [h₅.vol, hwd₄, hv₄, h.updWd_clearSlot (by rfl) (by rfl)]

/-- What taking directory `d` out of the working directory and giving its inode back does. -/
structure Rmsdir (V V' : Vol) (d : ℕ) : Prop where
  base : V'.Base
  kind : ∀ x, V'.names.kind x = if x = d then none else V.names.kind x
  dent : ∀ x y, V.IsDir x → x ≠ d → V'.names.dent x y =
    if x = V.cwd ∧ V.slotOf (V.inode d).ino = some y then (V.names.dent x y).cleared else V.names.dent x y
  imap : ∀ x, V'.imap x = if x = d then false else V.imap x
  bmap : ∀ b < NUM_BLOCKS, V'.bmap b = true ↔ V.bmap b = true ∧ ¬ V.Owns d b
  self : ∃ now, V'.inode V.cwd = { V.wd with size := V.wd.size - 32, mtime := now, nlink := V.wd.nlink - 1 - 1 }
  inode : ∀ x, x ≠ d → x ≠ V.cwd → V'.inode x = V.inode x
  fdesc : V'.fdesc = V.fdesc
  cwd : V'.cwd = V.cwd

/-- The last step of `do_rmdir`, when the pointer still shows the directory. -/
theorem rmdirLast_spec {U : Vol} (h : U.Inv) {d : ℕ} (hd : U.IsDir d)
    (h0 : d ≠ 0) (hcd : d ≠ U.cwd) (hsize : (U.inode d).size ≠ 0)
    (hshown : (U.shown d).toNat = d) {now : UInt32} (hv : V.toVol = (U.clearSlot (U.slotOf (U.shown d))).updWd
      { U.wd with size := U.wd.size - 32, mtime := now, nlink := U.wd.nlink - 1 - 1 }) (ht : V.Tidy) :
    Spec V (do
      Fs.free_inode (U.shown d)
      pure (0 : ℤ)) fun r V' => r = 0 ∧ V'.Tidy ∧ Rmsdir U V'.toVol d := by
  have himap := Vol.imap_of_kind hd
  have hino : U.shown d = (U.inode d).ino := UInt32.toNat_inj.mp (hshown.trans (h.ino himap).symm)
  have hslot : ∀ j, U.slotOf (U.inode d).ino = some j → j < 16 :=
    fun j hj => h.names.short (h.link_of_slotOf (h.ino himap) h0 hj)
  rw [hino] at hv hshown ⊢
  have hW :=
    h.wdCleared hslot (I := { U.wd with size := U.wd.size - 32, mtime := now, nlink := U.wd.nlink - 1 - 1 })
      rfl rfl rfl
  rw [← hv] at hW
  have himapW : V.imap d = true := by rw [hW.imap]; exact himap
  have hdW : V.IsDir d := by rw [Vol.IsDir, hW.kind]; exact hd
  have hblocks : 0 < nblocks (V.inode d).size := by
    rw [hW.inode d hcd, nblocks]
    have : (U.inode d).size.toNat ≠ 0 := fun e => hsize (UInt32.toNat_inj.mp e)
    omega
  refine (free_inode_spec (by rw [hshown]; exact h.lt himap)
    (by rw [hshown]; exact hW.base.space.ptrsOk himapW) ht).bind ?_
  rintro _ V₁ hF
  rw [hshown] at hF
  have hcov := hW.base.dir_covers hdW hblocks
  obtain ⟨hb, hD⟩ := hW.base.freeInode himapW h0 (by rw [hW.cwd]; exact hcd) hcov hF
  have hinode : ∀ x, x ≠ d → V₁.inode x = V.inode x := by
    intro x hx
    rw [hF.eq]
    exact Function.update_of_ne hx _ _
  refine Spec.pure ⟨rfl, hF.tidy, hb, fun x => ?_, fun x y hx hxd => ?_,
    fun x => ?_, fun b hb => ?_, ⟨now, ?_⟩, fun x hx hxc => ?_, ?_, ?_⟩
  · rw [hD.kind, hW.kind]
  · rw [hD.dent x y hxd, hW.dent x y hx]
  · rw [hF.eq, ← hW.imap]
    exact Function.update_apply ..
  · rw [hF.bmap b hb, Vol.freed_iff_owns himapW hcov hb, hW.bmap, hW.owns]
  · rw [hinode _ (Ne.symm hcd), hW.self]
  · rw [hinode x hx, hW.inode x hxc]
  · rw [hF.eq]
    exact hW.fdesc
  · rw [hF.eq]
    exact hW.cwd

theorem Rmsdir.removedDir {V V' : Vol} {d j : ℕ} (hR : Rmsdir V V' d)
    (h : V.Inv) (hd : V.IsDir d) (hl : V.names.Link V.cwd j d)
    (hj : 2 ≤ j) (hslot : V.slotOf (V.inode d).ino = some j) (hempty : ∀ y, 2 ≤ y → (V.names.dent d y).used = false) :
    RemovedDir V V' d := by
  obtain ⟨now, hself⟩ := hR.self
  refine ⟨hR.base, ⟨j, (V.names.dent V.cwd j).cleared, hl, hj, hd,
    hempty, Dentry.used_cleared _, rfl, hR.kind, ?_, ?_⟩, ⟨?_, ?_⟩,
    hR.fdesc, hR.cwd⟩
  · intro x y hx hxd
    rw [hR.dent x y hx hxd, hslot]
    by_cases hxy : x = V.cwd ∧ y = j
    · rw [if_pos ⟨hxy.1, congrArg some hxy.2.symm⟩, if_pos hxy, hxy.1, hxy.2]
    · rw [if_neg hxy, if_neg fun c => hxy ⟨c.1, (Option.some.inj c.2).symm⟩]
  · intro x hx
    have hxd : x ≠ d := by
      rintro rfl
      rw [hd] at hx
      cases hx
    show (V'.inode x).nlink = (V.inode x).nlink
    rw [hR.inode x hxd (h.ne_of_isFile hx).2]
  · rw [hself]
    exact ⟨rfl, rfl⟩
  · intro x hx hx' hxc
    have hxd : x ≠ d := by
      rintro rfl
      rw [Vol.IsDir, hR.kind, if_pos rfl] at hx'
      cases hx'
    rw [hR.inode x hxd hxc]
    exact ⟨rfl, rfl⟩

/-- The entry of the working directory that `do_rmdir` clears. -/
theorem Vol.Inv.slotOf_dir {V : Vol} (h : V.Inv) {d j₀ : ℕ}
    (hd : V.IsDir d) (hl₀ : V.names.Link V.cwd j₀ d) (hj₀ : 2 ≤ j₀)
    (hempty : ∀ y, 2 ≤ y → (V.names.dent d y).used = false) : V.slotOf (V.inode d).ino = some j₀ := by
  have hino := h.ino (Vol.imap_of_kind hd)
  have h0 := (h.names.entry hj₀ hl₀).1
  obtain ⟨j, hj, hl⟩ := h.entryOf hino h0 ⟨j₀, h.names.short hl₀, hl₀.2.2⟩
  have hj2 := h.two_le_of_empty hl hl₀ hj₀ hd h0 hempty
  rw [hj, (h.names.once hj2 hj₀ hl hl₀ hd).2]

/-- `do_rmdir`, when the pointer still shows the directory that it removes. -/
theorem do_rmdir_exact (h : V.Inv) (ht : V.Tidy) {path : CString} (hp : V.PathOk path)
    (hok : ∀ d, V.Rmdir path d → (∀ y, 2 ≤ y → (V.names.dent d y).used = false) ∧
      d ≠ 0 ∧ d ≠ V.cwd ∧ (V.inode d).size ≠ 0 ∧
      (V.shown d).toNat = d) :
    Spec V (Fs.do_rmdir path) fun r V' => V'.Tidy ∧ ((r = -1 ∧ V'.toVol = V.toVol ∧ ∀ d, ¬ V.Rmdir path d) ∨
      (r = 0 ∧ ∃ d, V.Rmdir path d ∧ Rmsdir V.toVol V'.toVol d)) := by
  refine do_rmdir_checks (Spec.leads _) h ht hp (fun V₁ hv₁ ht₁ hno => Spec.pure ⟨ht₁, Or.inl ⟨rfl, hv₁, hno⟩⟩) ?_
  intro d p V₁ hv₁ ht₁ hd hp
  obtain ⟨hempty, h0, hcd, hsize, hshown⟩ := hok d hd
  refine rmdirTail_leads (Spec.leads _) h hd.dir hempty hp hv₁ ht₁ fun now V₂ hv₂ ht₂ => ?_
  refine (rmdirLast_spec h hd.dir h0 hcd hsize hshown hv₂ ht₂).mono ?_
  rintro r V' ⟨rfl, ht', hR⟩
  exact ⟨ht', Or.inr ⟨rfl, d, hd, hR⟩⟩

/-- What `RmdirOk` says of the entry. -/
theorem Vol.Inv.rmdir_link {V : Vol} (h : V.Inv) {d j : ℕ}
    (h0 : d ≠ 0) (he : (V.entry (V.dirBlock V.cwd) j).ino.toNat = d) :
    V.names.Link V.cwd j d := by
  refine ⟨h.cwd, ?_, he⟩
  by_contra hu
  have hz : (V.entry (V.dirBlock V.cwd) j).ino = 0 := h.names.vacant h.cwd (by simpa using hu)
  rw [hz] at he
  exact h0 he.symm

/-- Entries beyond the first sector are empty. -/
theorem Vol.Inv.empty_of_short {V : Vol} (h : V.Inv) {d : ℕ} (hd : V.IsDir d)
    (hempty : ∀ j < 16, 2 ≤ j → (V.entry (V.dirBlock d) j).used = false) (y : ℕ) (hy : 2 ≤ y) :
    (V.names.dent d y).used = false := by
  by_cases hy16 : y < 16
  · exact hempty y hy16 hy
  · cases hu : (V.names.dent d y).used with
    | false => rfl
    | true => exact absurd (h.names.short ⟨hd, hu, rfl⟩) hy16

/-- `do_rmdir`. -/
theorem do_rmdir_spec (h : V.Inv) (ht : V.Tidy) {path : CString} (hok : V.RmdirOk path) :
    Spec V (Fs.do_rmdir path) fun r V' => V'.Tidy ∧ ((r = -1 ∧ V'.toVol = V.toVol) ∨
      (r = 0 ∧ ∃ d, V.Rmdir path d ∧ RemovedDir V.toVol V'.toVol d)) := by
  refine (do_rmdir_exact h ht hok.1 fun d hd => ?_).mono ?_
  · obtain ⟨⟨j, hj, hj2, he⟩, hsec, h0, hempty, hsize⟩ := hok.2 d hd
    refine ⟨h.empty_of_short hd.dir hempty, h0, Ne.symm (h.names.ne_child hj2 (h.rmdir_link h0 he) hd.dir), hsize, ?_⟩
    rw [Vol.shown, ← hsec, show d / 8 * 8 + d % 8 = d by omega]
    exact h.ino (Vol.imap_of_kind hd.dir)
  · rintro r V' ⟨ht', ⟨hr, hv, -⟩ | ⟨hr, d, hd, hR⟩⟩
    · exact ⟨ht', Or.inl ⟨hr, hv⟩⟩
    obtain ⟨⟨j, hj, hj2, he⟩, -, h0, hempty, -⟩ := hok.2 d hd
    have hempty := h.empty_of_short hd.dir hempty
    have hl := h.rmdir_link h0 he
    exact ⟨ht', Or.inr ⟨hr, d, hd, hR.removedDir h hd.dir hl hj2 (h.slotOf_dir hd.dir hl hj2 hempty) hempty⟩⟩

end OsLab
