import OsLab.Fs.Hierarchy
import OsLab.Fs.Nest
import Mathlib.Data.List.Find

/-!
# The working directory on a device of whole blocks

The system calls see the working directory and the descriptors besides the blocks (`Place`). What lies below them leaves
both alone, whatever the device does (`Still`), so what it does to the blocks is known from `Goes` (`Goes.takes`).
-/

namespace OsLab

open Lib ProgM Bytes

/-- What the system calls see of a state. -/
structure Place where
  /-- The blocks. -/
  view : Whole
  /-- `wd_inode`. -/
  wd : Inode
  /-- `fdesc_array`. -/
  fdesc : Fin NUM_FDESCS → Fdesc

/-- The place of a state. -/
def Place.of (c : Conf Mem Units) : Place := ⟨Whole.of c, c.mem.wd_inode, c.mem.fdesc_array⟩

/-- From every state with place `S` the program comes back, with a result and a place as described by `Q`. -/
abbrev Takes {α : Type} (S : Place) (x : FsM α) (Q : α → Place → Prop) : Prop := Shows units Place.of S x Q

/-- The working directory and the descriptors stay. -/
def Mem.Still (m m' : Mem) : Prop := m'.wd_inode = m.wd_inode ∧ m'.fdesc_array = m.fdesc_array

instance : Std.Refl Mem.Still := ⟨fun _ => ⟨rfl, rfl⟩⟩

instance : IsTrans Mem Mem.Still := ⟨fun _ _ _ h h' => ⟨h'.1.trans h.1, h'.2.trans h.2⟩⟩

/-! ### What leaves them alone -/

section Still

theorem still_setBuf (b : Buffer) (m : Bytes) : Keeps Mem.Still (Fs.setBuf b m) := Keeps.modify fun _ => ⟨rfl, rfl⟩

theorem still_bread (b : Buffer) (n s : ℕ) : Keeps Mem.Still (Fs.bread b n s) :=
  Keeps.read fun _ => (Keeps.perform _).bind fun _ => still_setBuf _ _

theorem still_bwrite (b : Buffer) (n s : ℕ) : Keeps Mem.Still (Fs.bwrite b n s) := Keeps.read fun _ => Keeps.perform _

theorem still_bzero (b : Buffer) : Keeps Mem.Still (Fs.bzero b) := still_setBuf _ _

theorem still_dentries : Keeps Mem.Still Fs.dentries := Keeps.read fun _ => Keeps.pure _

theorem still_inodeBuf (k : ℕ) : Keeps Mem.Still (Fs.inodeBuf k) := Keeps.read fun _ => Keeps.pure _

theorem still_setInodeBuf (k : ℕ) (I : Inode) : Keeps Mem.Still (Fs.setInodeBuf k I) :=
  Keeps.read fun _ => still_setBuf _ _

theorem still_setDentryBuf (j : ℕ) (e : Dentry) : Keeps Mem.Still (Fs.setDentryBuf j e) :=
  Keeps.read fun _ => still_setBuf _ _

theorem still_get_timer : Keeps Mem.Still Fs.get_timer :=
  Keeps.read fun _ => (Keeps.modify fun _ => ⟨rfl, rfl⟩).bind fun _ => Keeps.pure _

theorem still_setWbyte (o : ℕ) (x : UInt8) : Keeps Mem.Still (Fs.setWbyte o x) := Keeps.read fun _ => still_setBuf _ _

theorem still_lookup (blk : UInt32) (name : List UInt8) : Keeps Mem.Still (Fs.lookup blk name) :=
  (still_bread _ _ _).bind fun _ => still_dentries.bind fun _ => Keeps.pure _

theorem still_loadInode (ino : UInt32) : Keeps Mem.Still (Fs.loadInode ino) :=
  (still_bread _ _ _).bind fun _ => still_inodeBuf _

theorem still_storeInode (I : Inode) : Keeps Mem.Still (Fs.storeInode I) :=
  (still_bread _ _ _).bind fun _ => (still_setInodeBuf _ _).bind fun _ => still_bwrite _ _ _

theorem still_createInode (i : ℕ) (type : UInt8) (size block : UInt32) :
    Keeps Mem.Still (Fs.createInode i type size block) :=
  (still_bread _ _ _).bind fun _ => still_get_timer.bind fun _ =>
    (still_setInodeBuf _ _).bind fun _ => still_bwrite _ _ _

theorem still_writeDots (ino parent : UInt32) (block : ℕ) : Keeps Mem.Still (Fs.writeDots ino parent block) :=
  (still_bzero _).bind fun _ => (still_setDentryBuf _ _).bind fun _ =>
    (still_setDentryBuf _ _).bind fun _ => still_bwrite _ _ _

theorem still_find_free_inode : Keeps Mem.Still Fs.find_free_inode := by
  refine (still_bread _ _ _).bind fun _ => Keeps.read fun s => ?_
  split
  · exact Keeps.pure _
  · exact (still_setBuf _ _).bind fun _ => (still_bwrite _ _ _).bind fun _ => Keeps.pure _

theorem still_find_free_block : Keeps Mem.Still Fs.find_free_block := by
  refine (still_bread _ _ _).bind fun _ => Keeps.read fun s => ?_
  split
  · exact Keeps.pure _
  · exact (still_setBuf _ _).bind fun _ => (still_bwrite _ _ _).bind fun _ => (still_bzero _).bind fun _ =>
      (still_bwrite _ _ _).bind fun _ => Keeps.pure _

theorem still_find_inode (path : CString) (I : Inode) : Keeps Mem.Still (Fs.find_inode path I) := by
  unfold Fs.find_inode
  split
  · exact Keeps.pure _
  split
  · exact Keeps.stop
  · next dir1 dir2 dir3 _ =>
    refine (still_lookup _ _).bind fun r₁ => ?_
    cases r₁ with
    | none => exact Keeps.pure _
    | some e₁ =>
      refine (still_loadInode _).bind fun I₁ => Keeps.ite (Keeps.pure _) ((still_lookup _ _).bind fun r₂ => ?_)
      cases r₂ with
      | none => exact Keeps.pure _
      | some e₂ =>
        refine (still_loadInode _).bind fun I₂ => Keeps.ite (Keeps.pure _) ((still_lookup _ _).bind fun r₃ => ?_)
        cases r₃ with
        | none => exact Keeps.pure _
        | some e₃ => exact (still_loadInode _).bind fun _ => Keeps.pure _

end Still

/-! ### Steps -/

variable {α : Type} {V W : Whole} {wd : Inode} {fd : Fin NUM_FDESCS → Fdesc} {x : FsM α} {i b : ℕ}

/-- What leaves the place alone does to it what it does to the blocks. -/
theorem Goes.takes {Q : α → Whole → Prop} (hx : Goes V x Q) (hk : Keeps Mem.Still x) :
    Takes ⟨V, wd, fd⟩ x fun a S' => Q a S'.view ∧ S'.wd = wd ∧ S'.fdesc = fd := by
  intro c hc
  obtain ⟨a, c', he, hq⟩ := hx c (congrArg Place.view hc)
  obtain ⟨hwd, hfd⟩ := (hk c.mem).ensures a c' he
  exact ⟨a, c', he, hq, hwd.trans (congrArg Place.wd hc), hfd.trans (congrArg Place.fdesc hc)⟩

/-- The same for a step whose result is known. -/
theorem Goes.takes_eq {a : α} (hx : Goes V x fun r V' => r = a ∧ V' = W) (hk : Keeps Mem.Still x) :
    Takes ⟨V, wd, fd⟩ x fun r S' => r = a ∧ S' = ⟨W, wd, fd⟩ := by
  refine (hx.takes hk).mono ?_
  rintro r ⟨V', wd', fd'⟩ ⟨⟨hr, hV⟩, hwd, hfd⟩
  dsimp only at hV hwd hfd
  exact ⟨hr, by rw [hV, hwd, hfd]⟩

theorem Takes.wdInode : Takes ⟨V, wd, fd⟩ Fs.wdInode fun r S' => r = wd ∧ S' = ⟨V, wd, fd⟩ := by
  intro c hc
  exact Returns.of_exec rfl ⟨congrArg Place.wd hc, hc⟩

theorem Takes.setWd (I : Inode) : Takes ⟨V, wd, fd⟩ (Fs.setWd I) fun r S' => r = () ∧ S' = ⟨V, I, fd⟩ := by
  intro c hc
  refine Returns.of_exec rfl ⟨rfl, ?_⟩
  exact congrArg (fun S : Place => (⟨S.view, I, S.fdesc⟩ : Place)) hc

theorem Takes.fdescs : Takes ⟨V, wd, fd⟩ Fs.fdescs fun r S' => r = fd ∧ S' = ⟨V, wd, fd⟩ := by
  intro c hc
  exact Returns.of_exec rfl ⟨congrArg Place.fdesc hc, hc⟩

theorem Takes.setFdesc (i : Fin NUM_FDESCS) (f : Fdesc) :
    Takes ⟨V, wd, fd⟩ (Fs.setFdesc i f) fun r S' => r = () ∧ S' = ⟨V, wd, Function.update fd i f⟩ := by
  intro c hc
  refine Returns.of_exec rfl ⟨rfl, ?_⟩
  exact congrArg (fun S : Place => (⟨S.view, S.wd, Function.update S.fdesc i f⟩ : Place)) hc

theorem Takes.get_timer : Takes ⟨V, wd, fd⟩ Fs.get_timer fun _ S' => S' = ⟨V, wd, fd⟩ := by
  refine (Goes.get_timer.takes still_get_timer).mono ?_
  rintro _ ⟨V', wd', fd'⟩ ⟨hV, hwd, hfd⟩
  dsimp only at hV hwd hfd
  rw [hV, hwd, hfd]

/-- The view with inode `i` stored. -/
def Whole.putInode (V : Whole) (i : ℕ) (I : Inode) : Whole :=
  { V with inode := Function.update V.inode i I, ibuf := Function.update (V.loadInodes i) (i % 8) I }

/-- Assigning an inode of the loaded sector and writing it back. -/
theorem Goes.assignInode (hi : i < NUM_INODES) (I : Inode) : Goes { V with ibuf := V.loadInodes i } (do
    Fs.setInodeBuf (i % 8) I
    Fs.bwrite .inode_buffer 1 (inodeSector i)) fun r V' => r = () ∧ V' = V.putInode i I := by
  refine (Goes.setInodeBuf (Nat.mod_lt _ (by decide)) I).seq ((Goes.bwriteInode hi).mono ?_)
  rintro _ _ ⟨rfl, rfl⟩
  exact ⟨rfl, congrArg (fun f => { V.putInode i I with inode := f }) (Whole.storeInodes_update V i I hi)⟩

theorem Goes.createInode (hi : i < NUM_INODES) (type : UInt8) (size block : UInt32) :
    Goes V (Fs.createInode i type size block) fun _ V' => ∃ now,
    V' = V.putInode i (newInode i type size block now) := by
  rw [Fs.createInode, inodeidx2sector_eq (by rwa [toNat_ino hi]), Fs.inodeidx2offset, toNat_ino hi]
  refine (Goes.breadInode hi).seq (Goes.get_timer.bind ?_)
  rintro now _ rfl
  refine (Goes.assignInode hi (newInode i type size block now)).mono ?_
  rintro _ _ ⟨-, rfl⟩
  exact ⟨now, rfl⟩

theorem Goes.writeDots (hb : b < NUM_BLOCKS) (ino parent : UInt32) :
    Goes V (Fs.writeDots ino parent (blockSector b)) fun r V' =>
    r = () ∧ V' = { V with dbuf := dots ino parent, data := Function.update V.data b (dots ino parent) } :=
  Goes.bzeroDentry.seq
    ((Goes.setDentryBuf (by decide) _).seq ((Goes.setDentryBuf (by decide) _).seq (Goes.bwriteDentry hb)))

theorem Takes.updateWd {f : Inode → UInt32 → Inode}
    (hf : ∀ now, (f wd now).ino = wd.ino) (hi : wd.ino.toNat < NUM_INODES) :
    Takes ⟨V, wd, fd⟩ (Fs.updateWd f) fun _ S' => ∃ now, S' = ⟨V.putInode wd.ino.toNat (f wd now), f wd now, fd⟩ := by
  refine Takes.get_timer.bind ?_
  rintro now _ rfl
  refine Takes.wdInode.seq ((Takes.setWd _).seq ?_)
  have hstore := Goes.storeInode (V := V) (I := f wd now) (by rwa [hf])
  refine (hstore.takes_eq (still_storeInode _)).mono ?_
  rintro _ _ ⟨-, rfl⟩
  exact ⟨now, by rw [hf]; rfl⟩

end OsLab
