import OsLab.Fs.Unlink

/-!
# Removing the directory that was given

`do_rmdir` keeps a pointer into `inode_buffer` while it updates the working directory, which reads
another sector over that buffer. When it follows the pointer again, to clear the entry and to give the
inode back, it finds whatever inode has come to lie there (`Vol.shown`). And it looks for the entry in
the working directory, as `do_rm` does.

So a call that succeeds removes the directory that was given exactly when that directory has its
entry in the working directory and the pointer still shows it (`RmsdirHere`). What the call does when
the pointer shows another inode is not followed in full: `Leaves` says which sectors a program does not
write, and that is enough to see that the directory is still there.
-/

namespace OsLab

open Lib ProgM Bytes

variable {s s' : Sys}

/-! ### What a program leaves alone -/

section Leaves

variable {α β : Type} {S : ℕ → Prop}

/-- When the program comes back, the sectors in `S` are as they were. -/
def Leaves (S : ℕ → Prop) (x : FsM α) : Prop :=
  ∀ (s s' : Sys) (a : α), s.dev.Ok → exec cached x s = some (a, s') →
    s'.dev.Ok ∧ ∀ k, S k → s'.dev.logical k = s.dev.logical k

namespace Leaves

theorem pure (a : α) : Leaves S (pure a : FsM α) := by
  intro s s' b hok he
  obtain ⟨-, rfl⟩ := Prod.mk.inj (Option.some.inj he)
  exact ⟨hok, fun _ _ => rfl⟩

theorem stop : Leaves S (ProgM.stop : FsM α) := by
  intro s s' a _ he
  cases he

theorem bind {x : FsM α} {f : α → FsM β} (hx : Leaves S x) (hf : ∀ a, Leaves S (f a)) : Leaves S (x >>= f) := by
  intro s s' b hok he
  rw [exec_bind] at he
  obtain ⟨⟨a, t⟩, hxe, hfe⟩ := Option.bind_eq_some_iff.mp he
  obtain ⟨hok', hl⟩ := hx s t a hok hxe
  obtain ⟨hok'', hl'⟩ := hf a t s' b hok' hfe
  exact ⟨hok'', fun k hk => (hl' k hk).trans (hl k hk)⟩

/-- What is left to run after a program that leaves the sectors alone. -/
theorem rest {x : FsM α} {f : α → FsM β} (hx : Leaves S x) {s s' : Sys} {b : β} (hok : s.dev.Ok)
    (he : exec cached (x >>= f) s = some (b, s')) :
    ∃ (a : α) (t : Sys), exec cached (f a) t = some (b, s') ∧ t.dev.Ok ∧ ∀ k,
    S k → t.dev.logical k = s.dev.logical k := by
  rw [exec_bind] at he
  obtain ⟨⟨a, t⟩, hxe, hfe⟩ := Option.bind_eq_some_iff.mp he
  exact ⟨a, t, hfe, hx s t a hok hxe⟩

/-- Memory is not on the disk. -/
theorem get_bind {f : Mem → FsM β} (hf : ∀ m, Leaves S (f m)) : Leaves S ((get : FsM Mem) >>= f) :=
  bind (fun s s' a hok he => by
    obtain ⟨-, rfl⟩ := Prod.mk.inj (Option.some.inj he)
    exact ⟨hok, fun _ _ => rfl⟩) hf

theorem modify (f : Mem → Mem) : Leaves S (modify f : FsM Unit) := by
  intro s s' a hok he
  obtain ⟨-, rfl⟩ := Prod.mk.inj (Option.some.inj he)
  exact ⟨hok, fun _ _ => rfl⟩

theorem ifThen {c : Prop} [Decidable c] {x : FsM Unit} (hx : Leaves S x) : Leaves S (Fs.ifThen c x) := by
  unfold Fs.ifThen
  split
  · exact hx
  · exact pure ()

theorem perform {e : Io} (h : ∀ (c c' : Bcache) (r : Io.Res e), c.Ok → cached e c = some (r, c') →
    c'.Ok ∧ ∀ k, S k → c'.logical k = c.logical k) : Leaves S (ProgM.perform e : FsM (Io.Res e)) := by
  intro s s' a hok he
  rw [exec_perform] at he
  obtain ⟨⟨r, c'⟩, hc, heq⟩ := Option.map_eq_some_iff.mp he
  obtain ⟨-, rfl⟩ := Prod.mk.inj heq
  exact h s.dev c' r hok hc

theorem bread (b : Buffer) (n k : ℕ) : Leaves S (Fs.bread b n k) := by
  refine get_bind fun m => bind (perform fun c c' r hok hc => ?_) fun _ => modify _
  obtain ⟨c'', hb, hok', hl⟩ := Bcache.bread_spec hok (m.buf b) n k
  obtain ⟨-, rfl⟩ := Prod.mk.inj (Option.some.inj (hc.symm.trans hb))
  exact ⟨hok', fun x _ => congrFun hl x⟩

theorem bwrite (b : Buffer) {n k : ℕ} (hS : ∀ x, S x → ¬ Bcache.InRun n k x) : Leaves S (Fs.bwrite b n k) := by
  refine get_bind fun m => perform fun c c' r hok hc => ?_
  obtain ⟨c'', hb, hok', hl⟩ := Bcache.bwrite_spec hok (m.buf b) n k
  obtain ⟨d, hd, heq⟩ := Option.map_eq_some_iff.mp hc
  obtain rfl := Option.some.inj (hb.symm.trans hd)
  obtain ⟨-, rfl⟩ := Prod.mk.inj heq
  exact ⟨hok', fun x hx => by rw [hl x, if_neg (hS x hx)]⟩

/-! `free_block` writes the block map only. -/

theorem free_block (hS : ∀ x, S x → Fs.INODE_MAP ≤ x) (n : ℕ) : Leaves S (Fs.free_block n) := by
  have hmap : ∀ x, S x → ¬ Bcache.InRun BLOCK_MAP_SIZE Fs.BLOCK_MAP x := by
    rintro x hx ⟨i, hi, rfl⟩
    have h289 : Fs.INODE_MAP = 289 ∧ Fs.BLOCK_MAP = 257 := by decide
    have := hS _ hx
    rw [BLOCK_MAP_SIZE] at hi
    rw [Nat.mod_eq_of_lt (by omega)] at this
    omega
  unfold Fs.free_block
  split
  · exact stop
  refine (bread _ _ _).bind fun _ => ?_
  dsimp only
  split
  · exact stop
  · exact get_bind fun m => (modify _).bind fun _ => bwrite _ hmap

theorem readWord (p : UInt32) (k : ℕ) : Leaves S (Fs.readWord p k) :=
  (bread _ _ _).bind fun _ => get_bind fun _ => pure _

theorem freeUnlessZero (hS : ∀ x, S x → Fs.INODE_MAP ≤ x) (p : UInt32) :
    Leaves S (Fs.freeUnlessZero p) := ifThen (free_block hS _)

theorem freeIf (hS : ∀ x, S x → Fs.INODE_MAP ≤ x) {c : Prop} [Decidable c] (p : UInt32) : Leaves S (Fs.freeIf c p) :=
  ifThen (free_block hS _)

theorem freeStep (hS : ∀ x, S x → Fs.INODE_MAP ≤ x) (I : Inode) (i : ℕ) : Leaves S (Fs.freeStep I i) := by
  unfold Fs.freeStep
  split
  · exact (freeUnlessZero hS _).bind fun _ => pure _
  split
  · dsimp only
    split
    · exact pure _
    · exact (readWord _ _).bind fun _ => (freeUnlessZero hS _).bind fun _ => (freeIf hS _).bind fun _ => pure _
  split
  · dsimp only
    split
    · exact pure _
    refine (readWord _ _).bind fun lv1 => ?_
    split
    · exact (freeIf hS _).bind fun _ => pure _
    · exact (readWord _ _).bind fun _ => (freeUnlessZero hS _).bind fun _ =>
        (freeIf hS _).bind fun _ => (freeIf hS _).bind fun _ => pure _
  split
  · dsimp only
    split
    · exact pure _
    refine (readWord _ _).bind fun lv2 => ?_
    split
    · exact (freeIf hS _).bind fun _ => pure _
    refine (readWord _ _).bind fun lv1 => ?_
    split
    · exact (freeIf hS _).bind fun _ => (freeIf hS _).bind fun _ => pure _
    · exact (readWord _ _).bind fun _ => (freeUnlessZero hS _).bind fun _ =>
          (freeIf hS _).bind fun _ => (freeIf hS _).bind fun _ =>
        (freeIf hS _).bind fun _ => pure _
  · exact pure _

theorem freeLoop (hS : ∀ x, S x → Fs.INODE_MAP ≤ x) (k fuel n : ℕ) : Leaves S (Fs.freeLoop k fuel n) := by
  induction fuel generalizing n with
  | zero =>
    cases n with
    | zero => exact pure ()
    | succ n => exact stop
  | succ fuel ih =>
    cases n with
    | zero => exact pure ()
    | succ n => exact get_bind fun m => (freeStep hS _ n).bind fun i => ih i

end Leaves

theorem Sys.imap_eq (s : Sys) (x : ℕ) : s.view.imap x = bit (ofSector (s.dev.logical Fs.INODE_MAP)) x := by
  simp only [Sys.view, View.of]

theorem Sys.data_eq (s : Sys) (b : ℕ) : s.view.data b = s.dev.logical (blockSector b + 7) := by
  simp only [Sys.view, View.of]

/-- Whatever inode `free_inode` is given, it clears one bit of the inode map and writes no block of the
data area. -/
theorem free_inode_ends {s s' : Sys} {ino : UInt32} (hok : s.dev.Ok)
    (he : exec cached (Fs.free_inode ino) s = some ((), s')) :
    (∀ x, x ≠ ino.toNat → s'.vol.imap x = s.vol.imap x) ∧ ∀ b, s'.vol.data b = s.vol.data b := by
  -- A number that is too large stops at the inode map.
  let S : ℕ → Prop := fun k => ino.toNat < NUM_INODES ∧ (k = Fs.INODE_MAP ∨ Fs.DATA ≤ k)
  have hmap : ∀ x, S x → Fs.INODE_MAP ≤ x := by
    rintro x ⟨-, rfl | hx⟩
    · exact le_rfl
    · exact le_trans (by decide) hx
  have hinode : ∀ x, S x → ¬ Bcache.InRun 1 (Fs.inodeidx2sector ino) x := by
    rintro x ⟨hlt, hx⟩ ⟨i, hi, rfl⟩
    rw [inodeidx2sector_eq hlt] at hx
    have h290 : FS_START_SECTOR + INODE_OFFSET = 290 ∧ Fs.INODE_MAP = 289 ∧ Fs.DATA = 802 := by decide
    unfold inodeSector at hx
    unfold NUM_INODES at hlt
    rw [Nat.mod_eq_of_lt (by omega)] at hx
    omega
  obtain ⟨_, t₁, he, hok₁, hl₁⟩ := (Leaves.bread (S := S) _ _ _).rest hok he
  obtain ⟨I, t₂, he, hok₂, hl₂⟩ := (Leaves.get_bind (S := S) fun _ => Leaves.pure _).rest hok₁ he
  obtain ⟨_, t₃, he, hok₃, hl₃⟩ := (Leaves.freeLoop hmap _ _ _).rest hok₂ he
  obtain ⟨_, t₄, he, hok₄, hl₄⟩ := (Leaves.get_bind (S := S) fun _ => Leaves.modify _).rest hok₃ he
  obtain ⟨_, t₅, he, hok₅, hl₅⟩ := (Leaves.bwrite _ hinode).rest hok₄ he
  have hlt : ino.toNat < NUM_INODES := by
    by_contra hge
    obtain ⟨_, t₆, he, -, -⟩ := (Leaves.bread (S := S) _ _ _).rest hok₅ he
    rw [if_pos (by unfold NUM_INODES at hge; rw [INODE_MAP_SIZE, SECTOR_SIZE]; omega)] at he
    cases he
  have hl : ∀ k, k = Fs.INODE_MAP ∨ Fs.DATA ≤ k → t₅.dev.logical k = s.dev.logical k := by
    intro k hk
    rw [hl₅ k ⟨hlt, hk⟩, hl₄ k ⟨hlt, hk⟩, hl₃ k ⟨hlt, hk⟩, hl₂ k ⟨hlt, hk⟩, hl₁ k ⟨hlt, hk⟩]
  obtain ⟨_, t, he', -, hv⟩ := Spec.cached ((Does.clearImap (V := t₅.view) hlt).spec
    (Q := fun _ V' => V' = { t₅.view with imap := Function.update t₅.view.imap ino.toNat false }) rfl) hok₅
  rw [he] at he'
  obtain ⟨-, rfl⟩ := Prod.mk.inj (Option.some.inj he')
  refine ⟨fun x hx => ?_, fun b => ?_⟩
  · show s'.view.imap x = s.view.imap x
    rw [hv]
    dsimp only
    rw [Function.update_of_ne hx, Sys.imap_eq, Sys.imap_eq, hl _ (Or.inl rfl)]
  · show s'.view.data b = s.view.data b
    rw [hv]
    dsimp only
    rw [Sys.data_eq, Sys.data_eq, hl _ (Or.inr (by rw [blockSector]; omega))]

end Leaves

/-! ### Removing a directory -/

/-- What is said of a program holds of whatever it ends with, over any cache. -/
def Ends {β : Type} (P : β → Sys → Prop) (st : St) (x : FsM β) : Prop :=
  ∀ (c : Bcache) (b : β) (s' : Sys), c.Ok → c.logical = st.dev → exec cached x ⟨st.mem, c⟩ = some (b, s') → P b s'

theorem Ends.onward {β : Type} (P : β → Sys → Prop) : Onward (Ends P) := by
  intro α x f st st' a he hf c b s' hok hl hrun
  obtain ⟨c', he', hok', hl'⟩ :=
    cached_of_disk x hok (show exec disk x ⟨st.mem, c.logical⟩ =
      some (a, ⟨st'.mem, st'.dev⟩) by rw [hl]; exact he)
  rw [exec_bind, he', Option.bind_some] at hrun
  exact hf c' b s' hok' hl' hrun

/-- Entry `j` of directory `w` is gone, and directory `d` with it, and nothing else. -/
structure RemovesEntry (V V' : Vol) (w j d : ℕ) : Prop where
  two_le : 2 ≤ j
  link : V.names.Link w j d
  gone : (V'.names.dent w j).used = false
  entries : ∀ x y, V.IsDir x → x ≠ d → ¬ (x = w ∧ y = j) → V'.names.dent x y = V.names.dent x y
  imap : ∀ x, V'.imap x = if x = d then false else V.imap x
  bmap : ∀ b, V'.bmap b = if b = V.dirBlock d then false else V.bmap b
  inodes : ∀ x, x ≠ d → x ≠ w → V'.inode x = V.inode x
  parent : ∃ size nlink mtime, V'.inode w = { V.inode w with size := size, nlink := nlink, mtime := mtime }

/-- The path led to a directory, and it is that one which is gone. -/
def RemovesDir (V V' : Vol) (path : CString) : Prop :=
  ∃ ns d w j, Vol.components path = some ns ∧ V.walk V.cwd ns = some d ∧ V.IsDir d ∧ RemovesEntry V V' w j d

/-- The path leads to a directory whose entry is one of the working directory, and the inode at its place
in the sector of the working directory's inode bears its number. -/
def Vol.RmsdirHere (V : Vol) (path : CString) : Prop :=
  ∃ ns d j, Vol.components path = some ns ∧ V.walk V.cwd ns = some d ∧ V.IsDir d ∧ 2 ≤ j ∧ V.names.Link V.cwd j d ∧
    (V.shown d).toNat = d

/-- What every successful `do_rmdir` of an empty directory does. -/
structure RmdirEnds (V V' : Vol) (d : ℕ) : Prop where
  imap : ∀ x, x ≠ (V.shown d).toNat → V'.imap x = V.imap x
  data : ∀ b, b ≠ V.dirBlock V.cwd → V'.data b = V.data b
  removed : d ≠ 0 → d ≠ V.cwd → (V.inode d).size ≠ 0 → (V.shown d).toNat = d → Rmsdir V V' d

theorem Rmsdir.removesEntry {V V' : Vol} {d j : ℕ} (hR : Rmsdir V V' d) (h : V.Inv) (hd : V.IsDir d) (hj : 2 ≤ j)
    (hl : V.names.Link V.cwd j d) (hempty : ∀ y, 2 ≤ y → (V.names.dent d y).used = false) :
    RemovesEntry V V' V.cwd j d := by
  have hslot := h.slotOf_dir hd hl hj hempty
  have hcd : V.cwd ≠ d := h.names.ne_child hj hl hd
  refine ⟨hj, hl, ?_, fun x y hx hxd hne => ?_, hR.imap, fun b => ?_, hR.inode, ?_⟩
  · rw [hR.dent _ j h.cwd hcd, if_pos ⟨rfl, hslot⟩]
    exact Dentry.used_cleared _
  · rw [hR.dent x y hx hxd, if_neg]
    rintro ⟨hxc, hy⟩
    exact hne ⟨hxc, (Option.some.inj (hslot.symm.trans hy)).symm⟩
  · by_cases hb : b < NUM_BLOCKS
    · have := hR.bmap b hb
      rw [h.owns_dir hd hb] at this
      split
      · next hbd =>
        rw [← Bool.not_eq_true, this]
        exact fun c => c.2 hbd
      · next hbd =>
        rw [Bool.eq_iff_iff, this]
        exact ⟨fun c => c.1, fun c => ⟨c, hbd⟩⟩
    · have hV : V.bmap b = false := Bool.not_eq_true _ ▸ fun c => hb (h.space.bits b c)
      have hV' : V'.bmap b = false := Bool.not_eq_true _ ▸ fun c => hb (hR.base.space.bits b c)
      rw [hV, hV', ite_self]
  · obtain ⟨now, hself⟩ := hR.self
    rw [hself, h.wd]
    exact ⟨_, _, _, rfl⟩

theorem RmdirEnds.removesDir_iff {V V' : Vol} {d : ℕ} {path : CString}
    (hE : RmdirEnds V V' d) (h : V.Inv) (hd : V.Rmdir path d)
    (hempty : ∀ y, 2 ≤ y → (V.names.dent d y).used = false) (hsize : (V.inode d).size ≠ 0) :
    RemovesDir V V' path ↔ V.RmsdirHere path := by
  constructor
  · rintro ⟨ns, d', w, j, hns, hw, hdir, hR⟩
    obtain rfl : d = d' := Option.some.inj (hd.find.symm.trans (Vol.find_of_walk hns hw).2)
    have hshown : (V.shown d).toNat = d := by
      by_contra hne
      have himap := hE.imap d (Ne.symm hne)
      rw [hR.imap d, if_pos rfl, Vol.imap_of_kind hdir] at himap
      cases himap
    refine ⟨ns, d, j, hns, hw, hdir, hR.two_le, ?_, hshown⟩
    by_contra hno
    have hwc : w ≠ V.cwd := fun e => hno (e ▸ hR.link)
    -- The block of another directory is not written.
    obtain ⟨size, nlink, mtime, hparent⟩ := hR.parent
    have hblk : V'.dirBlock w = V.dirBlock w := by rw [Vol.dirBlock, hparent, Vol.dirBlock]
    have hdent : V'.names.dent w j = V.names.dent w j := by
      show V'.entry (V'.dirBlock w) j = V.entry (V.dirBlock w) j
      rw [hblk]
      exact Vol.entry_of_data (hE.data _ fun e => hwc (h.dirBlock_inj hR.link.1 h.cwd e)) j
    have := hR.gone
    rw [hdent, hR.link.2.1] at this
    cases this
  · rintro ⟨ns, d', j, hns, hw, hdir, hj, hl, hshown⟩
    obtain rfl : d = d' := Option.some.inj (hd.find.symm.trans (Vol.find_of_walk hns hw).2)
    have h0 := (h.names.entry hj hl).1
    have hcd : d ≠ V.cwd := Ne.symm (h.names.ne_child hj hl hdir)
    exact ⟨ns, d, V.cwd, j, hns, hw, hdir, (hE.removed h0 hcd hsize hshown).removesEntry h hdir hj hl hempty⟩

/-- The end of `do_rmdir`, over the cache. -/
theorem rmdirLast_ends {U : Vol} (h : U.Inv) {d : ℕ} (hd : U.IsDir d) {now : UInt32} {V : View}
    (hv : V.toVol = (U.clearSlot (U.slotOf (U.shown d))).updWd
      { U.wd with size := U.wd.size - 32, mtime := now, nlink := U.wd.nlink - 1 - 1 })
      (ht : V.Tidy) {st : St} (hst : View.of st = V) :
    Ends (fun r s' => r = 0 ∧ RmdirEnds U s'.vol d) st (do
      Fs.free_inode (U.shown d)
      pure (0 : ℤ)) := by
  intro c b s' hok hl he
  have hview : Sys.view ⟨st.mem, c⟩ = V := by
    rw [Sys.view, hl]
    exact hst
  obtain ⟨hr, hfree⟩ : b = 0 ∧ exec cached (Fs.free_inode (U.shown d)) ⟨st.mem, c⟩ = some ((), s') := by
    rw [exec_bind] at he
    obtain ⟨⟨_, t⟩, hfree, hp⟩ := Option.bind_eq_some_iff.mp he
    obtain ⟨rfl, rfl⟩ := Prod.mk.inj (Option.some.inj hp)
    exact ⟨rfl, hfree⟩
  obtain ⟨himap, hdata⟩ := free_inode_ends (s := ⟨st.mem, c⟩) hok hfree
  have hvol : Sys.vol ⟨st.mem, c⟩ = (U.clearSlot (U.slotOf (U.shown d))).updWd
      { U.wd with size := U.wd.size - 32, mtime := now, nlink := U.wd.nlink - 1 - 1 } := by rw [Sys.vol, hview, hv]
  rw [hvol] at himap hdata
  refine ⟨hr, fun x hx => ?_, fun y hy => ?_, fun h0 hcd hsize hshown => ?_⟩
  · rw [himap x hx]
    cases U.slotOf (U.shown d) <;> rfl
  · rw [hdata y]
    cases U.slotOf (U.shown d) with
    | none => rfl
    | some j => exact Function.update_of_ne hy _ _
  · obtain ⟨r', t, he', -, -, -, hR⟩ :=
      Spec.cached (s := ⟨st.mem, c⟩) (hview ▸ rmdirLast_spec h hd h0 hcd hsize hshown hv ht) hok
    rw [he] at he'
    obtain ⟨-, rfl⟩ := Prod.mk.inj (Option.some.inj he')
    exact hR

/-- A successful `do_rmdir`, where directories with `nlink == 1` are empty. -/
theorem do_rmdir_zero (h : Sound s) {path : CString} (hp : s.vol.PathOk path)
    (hempty : ∀ d, s.vol.Rmdir path d → ∀ y, 2 ≤ y → (s.vol.names.dent d y).used = false)
    (he : exec cached (Fs.do_rmdir path) s = some (0, s')) : ∃ d, s.vol.Rmdir path d ∧ RmdirEnds s.vol s'.vol d := by
  have hends : ∀ st, View.of st = s.view →
      Ends (fun r s' => r = 0 → ∃ d, s.vol.Rmdir path d ∧ RmdirEnds s.vol s'.vol d) st (Fs.do_rmdir path) := by
    refine do_rmdir_checks (Ends.onward _).leads h.inv h.tidy hp ?_ ?_
    · intro V' _ _ _ st _ c b s' _ _ hrun hb
      obtain ⟨rfl, -⟩ := Prod.mk.inj (Option.some.inj hrun)
      cases hb
    · intro d p V' hv ht hd hpd
      refine rmdirTail_leads (Ends.onward _).leads h.inv hd.dir (hempty d hd) hpd hv ht ?_
      intro now V₂ hv₂ ht₂ st hst c b s' hok hl hrun _
      exact ⟨d, hd, (rmdirLast_ends h.inv hd.dir hv₂ ht₂ hst c b s' hok hl hrun).2⟩
  have hend := hends ⟨s.mem, s.dev.logical⟩ (by rw [Sys.view]) s.dev 0 s' h.cache (by dsimp only)
  exact hend he rfl

/-- Where names are unique and counters right, a directory with `nlink == 1` is empty. -/
theorem Vol.Inv.empty_of_nlink {V : Vol} (h : V.Inv) (hu : V.UniqueNames) (hc : V.DirCounts) {d : ℕ} (hd : V.IsDir d)
    (hn : (V.inode d).nlink = 1) (y : ℕ) (hy : 2 ≤ y) : (V.names.dent d y).used = false := by
  cases hused : (V.names.dent d y).used with
  | false => rfl
  | true =>
    have hcount := (hc d hd).1
    rw [hn, show (1 : UInt16).toNat = 1 from rfl] at hcount
    have hnone : Entries.others (V.names.dent d) = ∅ := Finset.card_eq_zero.mp (by
      show (Entries.others (V.entry (V.dirBlock d))).card = 0
      omega)
    have hlt : y < NUM_DENTRIES := Nat.lt_trans (h.names.short ⟨hd, hused, rfl⟩) (by decide)
    have hmem : y ∈ Entries.others (V.names.dent d) := by
      refine Entries.mem_others.mpr ⟨⟨hlt, hused⟩, fun hs => ?_, fun hs => ?_⟩
      · have := hu d hd y 0 hused (h.names.link_dot hd).2.1 (hs.trans (h.names.dot hd).1.symm)
        omega
      · have := hu d hd y 1 hused (h.names.link_dotdot hd).2.1 (hs.trans (h.names.dotdot hd).symm)
        omega
    rw [hnone] at hmem
    cases hmem

theorem Vol.DirCounts.size_ne_zero {V : Vol} (hc : V.DirCounts) (h : V.Inv) {d : ℕ} (hd : V.IsDir d) :
    (V.inode d).size ≠ 0 := by
  intro h0
  have hsize := (hc d hd).2
  rw [h0, show (0 : UInt32).toNat = 0 from rfl] at hsize
  have hempty : Entries.used (V.names.dent d) = ∅ := Finset.card_eq_zero.mp (by
    show (Entries.used (V.entry (V.dirBlock d))).card = 0
    omega)
  have hmem : 0 ∈ Entries.used (V.names.dent d) := Entries.mem_used.mpr ⟨by decide, (h.names.link_dot hd).2.1⟩
  rw [hempty] at hmem
  cases hmem

/-- A successful `do_rmdir(path)` removes the directory it was given exactly when that is an entry of the
working directory and the inode at its place in the sector of the working directory's inode bears its
number. -/
theorem do_rmdir_removes_iff (h : Sound s) (hu : s.vol.UniqueNames) (hc : s.vol.DirCounts) {path : CString}
    (he : exec cached (Fs.do_rmdir path) s = some (0, s')) : RemovesDir s.vol s'.vol path ↔ s.vol.RmsdirHere path := by
  by_cases hp : s.vol.PathOk path
  · have hempty : ∀ d, s.vol.Rmdir path d → ∀ y, 2 ≤ y → (s.vol.names.dent d y).used = false :=
      fun d hd => h.inv.empty_of_nlink hu hc hd.dir hd.nlink
    obtain ⟨d, hd, hE⟩ := do_rmdir_zero h hp hempty he
    exact hE.removesDir_iff h.inv hd (hempty d hd) (hc.size_ne_zero h.inv hd.dir)
  · refine iff_of_false ?_ ?_
    · rintro ⟨ns, d, w, j, hns, hw, -⟩
      exact hp (Vol.find_of_walk hns hw).1
    · rintro ⟨ns, d, j, hns, hw, -⟩
      exact hp (Vol.find_of_walk hns hw).1

/-- The directories that `do_mkfs` makes, with `vm` removed. -/
structure Vol.Emptied (V : Vol) : Prop where
  dir : ∀ i ≤ 2, V.IsDir i
  step : ∀ i < 2, V.step i (procSys i).chars = some (i + 1)
  link : ∀ i < 2, ∃ j, 2 ≤ j ∧ V.names.Link i j (i + 1)
  nlink : (V.inode 2).nlink = 1

theorem Vol.Emptied.setWd {V : Vol} (h : V.Emptied) (I : Inode) :
    (V.setWd I).Emptied := ⟨h.dir, h.step, h.link, h.nlink⟩

theorem Vol.Fresh.emptied {V V' : Vol} (h : V.Fresh) (hcwd : V.cwd = 2) (hR : Rms V V' 3) : V'.Emptied where
  dir i hi := hR.isDir h.file (h.dir i hi)
  step i hi := hR.step_dir h.inv h.file (h.dir i (by omega)) (h.step_dir hi) (h.dir _ (by omega))
  link i hi := by
    obtain ⟨j, hj, hl⟩ := h.link_dir hi
    have hic : i ≠ V.cwd := by omega
    have hdent : V'.names.dent i j = V.names.dent i j := by rw [hR.dent i j hl.1, if_neg fun c => hic c.1]
    refine ⟨j, hj, hR.isDir h.file hl.1, by rw [hdent]; exact hl.2.1, ?_⟩
    rw [Names.child, hdent]
    exact hl.2.2
  nlink := by
    have := hR.self.1
    rw [hcwd, h.inv.wd, hcwd, (h.count 2 le_rfl).1] at this
    rw [this]
    rfl

theorem Vol.parse_dotdot : Fs.parse_path (CString.ofString "..").chars = some ([46, 46], [], []) := by decide

theorem Vol.pathOk_dotdot (V : Vol) : V.PathOk (.ofString "..") := Or.inr ⟨_, parse_dotdot, fun hn => absurd rfl hn⟩

/-- One directory up, from `proc/sys` or from `proc`. -/
theorem Vol.Emptied.up (h : s.vol.Emptied) (hs : Sound s) {i : ℕ} (hi : i < 2) (hcwd : s.vol.cwd = i + 1) :
    ∃ (r : ℤ) (s' : Sys),
    exec cached (SysCall.do_cd (.ofString "..")).code s = some (r, s') ∧
    Sound s' ∧ s'.vol.Emptied ∧ s'.vol.cwd = i := by
  obtain ⟨j, hj, hl⟩ := h.link i hi
  have hd := h.dir (i + 1) (by omega)
  have hfind : s.vol.find (.ofString "..") = some i := by
    rw [Vol.find, if_neg (by decide), Vol.parse_dotdot, hcwd]
    simp [hs.inv.step_dotdot hd, hs.inv.names.parent hj hl hd]
  obtain ⟨r, s', he, hsound, hv, hcwd'⟩ := hs.cd (Vol.pathOk_dotdot _) hfind (h.dir i (by omega))
  exact ⟨r, s', he, hsound, by rw [hv]; exact h.setWd _, hcwd'⟩

/-- After `do_cd("proc/sys")` and `do_rm("vm")`. -/
theorem Made.emptied (h : Made s) :
    ∃ t : Sys, Reach (fun V call => call.Ok V ∧ V.CountsKept call) t ∧ t.vol.Emptied ∧ t.vol.cwd = 2 := by
  obtain ⟨r, s₁, he₁, hs₁, hfresh, hcwd⟩ := h.cd_sys
  obtain ⟨-, hfresh₀, hcwd₀, -, -⟩ := h.sound
  obtain ⟨t, he, hR⟩ := hfresh.rm_vm hs₁ hcwd
  obtain ⟨hfind, hp, -⟩ := hfresh.rmsFirst hcwd
  have hok : s₁.vol.RmOk (.ofString "vm") := by
    refine ⟨hp, fun f hf _ => ?_⟩
    obtain rfl := Option.some.inj (hfind.symm.trans hf)
    obtain ⟨j, -, hj, -, hc, -⟩ := hfresh.vm
    exact ⟨j, hj, by rw [hcwd]; exact hc⟩
  have hr₁ : Reach (fun V call => call.Ok V ∧ V.CountsKept call) s₁ :=
    Reach.call (c := .do_cd _) (h.reach _) ⟨(hfresh₀.find_sys hcwd₀).2, trivial⟩ he₁
  exact ⟨t, Reach.call (c := .do_rm _) hr₁ ⟨hok, trivial⟩ he, hfresh.emptied hcwd hR, by rw [hR.cwd, hcwd]⟩

/-- And then `do_cd("..")`, once or twice. -/
theorem Made.emptied_up (h : Made s) {i : ℕ} (hi : i < 2) : ∃ t : Sys, Sound t ∧ t.vol.UniqueNames ∧ t.vol.DirCounts ∧
    t.vol.Emptied ∧ t.vol.cwd = i := by
  have hup : ∀ i < 2, ∀ t : Sys,
      Reach (fun V call => call.Ok V ∧ V.CountsKept call) t → t.vol.Emptied → t.vol.cwd = i + 1 →
      ∃ t' : Sys, Reach (fun V call => call.Ok V ∧ V.CountsKept call) t' ∧ t'.vol.Emptied ∧ t'.vol.cwd = i := by
    intro i hi t ht hE hcwd
    obtain ⟨r, t', he, -, hE', hcwd'⟩ := hE.up ht.dirCounts.1 hi hcwd
    exact ⟨t', Reach.call (c := .do_cd _) ht ⟨Vol.pathOk_dotdot _, trivial⟩ he, hE', hcwd'⟩
  obtain ⟨t₂, hr₂, hE₂, hcwd₂⟩ := h.emptied
  obtain ⟨t₁, hr₁, hE₁, hcwd₁⟩ := hup 1 (by decide) t₂ hr₂ hE₂ hcwd₂
  obtain ⟨t₀, hr₀, hE₀, hcwd₀⟩ := hup 0 (by decide) t₁ hr₁ hE₁ hcwd₁
  obtain rfl | rfl : i = 1 ∨ i = 0 := by omega
  · obtain ⟨hs, hu, hc⟩ := hr₁.dirCounts
    exact ⟨t₁, hs, hu, hc, hE₁, hcwd₁⟩
  · obtain ⟨hs, hu, hc⟩ := hr₀.dirCounts
    exact ⟨t₀, hs, hu, hc, hE₀, hcwd₀⟩

/-- `do_rmdir` of the empty directory `sys` succeeds, in `proc` and in the root. -/
theorem Vol.Emptied.rmdir (h : s.vol.Emptied) (hs : Sound s)
    (hu : s.vol.UniqueNames) (hc : s.vol.DirCounts) (hcwd : s.vol.cwd < 2)
    {path : CString} {ns : List (List UInt8)} (hns : components path = some ns) (hw : s.vol.walk s.vol.cwd ns = some 2)
    (hdot : path.chars ≠ [46]) (hdotdot : path.chars ≠ [46, 46]) :
    ∃ s' : Sys, exec cached (Fs.do_rmdir path) s = some (0, s') ∧
      s.vol.Rmdir path 2 ∧ s.vol.names.Bare 2 ∧ RmdirEnds s.vol s'.vol 2 := by
  obtain ⟨hp, hfind⟩ := find_of_walk hns hw
  have hd := h.dir 2 le_rfl
  have hrm : s.vol.Rmdir path 2 := ⟨hdot, hdotdot, hfind, hd, h.nlink⟩
  have hempty : ∀ d, s.vol.Rmdir path d → ∀ y, 2 ≤ y → (s.vol.names.dent d y).used = false :=
    fun d hd => hs.inv.empty_of_nlink hu hc hd.dir hd.nlink
  have hshown : (s.vol.shown 2).toNat = 2 := by
    rw [shown, show s.vol.cwd / 8 * 8 + 2 % 8 = 2 by omega]
    exact hs.inv.ino (imap_of_kind hd)
  obtain ⟨r, s', he, -, -, ⟨-, -, hno⟩ | ⟨rfl, -⟩⟩ := (do_rmdir_exact (V := s.view) hs.inv hs.tidy hp fun d hd' => by
    obtain rfl := Option.some.inj (hd'.find.symm.trans hfind)
    exact ⟨hempty 2 hrm, by decide, by show 2 ≠ s.vol.cwd; omega, hc.size_ne_zero hs.inv hd, hshown⟩).cached hs.cache
  · exact absurd hrm (hno 2)
  obtain ⟨d, hd', hE⟩ := do_rmdir_zero hs hp hempty he
  obtain rfl := Option.some.inj (hd'.find.symm.trans hfind)
  exact ⟨s', he, hrm, hempty 2 hrm, hE⟩

/-- In `proc`, `do_rmdir("sys")` removes the empty directory. -/
theorem do_rmdir_removes_sys : ∃ s s' : Sys, Sound s ∧ s.vol.UniqueNames ∧ s.vol.DirCounts ∧
    exec cached (Fs.do_rmdir (.ofString "sys")) s = some (0, s') ∧ RemovesDir s.vol s'.vol (.ofString "sys") := by
  obtain ⟨s₀, hs₀⟩ := made_start
  obtain ⟨s, hs, hu, hc, hE, hcwd⟩ := hs₀.emptied_up (i := 1) (by decide)
  have hns : Vol.components (.ofString "sys") = some [(Vol.procSys 1).chars] := by decide
  have hw : s.vol.walk s.vol.cwd [(Vol.procSys 1).chars] = some 2 := by
    rw [hcwd, Vol.walk, if_pos (hE.dir 1 (by decide)), hE.step 1 (by decide)]
    rfl
  obtain ⟨s', he, hrm, -, -⟩ := hE.rmdir hs hu hc (by omega) hns hw (by decide) (by decide)
  obtain ⟨j, hj, hl⟩ := hE.link 1 (by decide)
  refine ⟨s, s', hs, hu, hc, he,
    (do_rmdir_removes_iff hs hu hc he).mpr ⟨_, 2, j, hns, hw, hrm.dir, hj, by rw [hcwd]; exact hl, ?_⟩⟩
  rw [Vol.shown, hcwd]
  exact hs.inv.ino (Vol.imap_of_kind hrm.dir)

/-- In the root, `do_rmdir("proc/sys")` returns 0 and leaves the entry of `proc` that leads to `sys`. -/
theorem do_rmdir_removes_fails : ¬ ∀ (s s' : Sys) (path : CString), Sound s → s.vol.UniqueNames → s.vol.DirCounts →
    exec cached (Fs.do_rmdir path) s = some (0, s') → RemovesDir s.vol s'.vol path := by
  intro hall
  obtain ⟨s₀, hs₀⟩ := made_start
  obtain ⟨s, hs, hu, hc, hE, hcwd⟩ := hs₀.emptied_up (i := 0) (by decide)
  have hns : Vol.components (.ofString "proc/sys") = some [(Vol.procSys 0).chars, (Vol.procSys 1).chars] := by decide
  have hw : s.vol.walk s.vol.cwd [(Vol.procSys 0).chars, (Vol.procSys 1).chars] = some 2 := by
    rw [hcwd, Vol.walk, if_pos (hE.dir 0 (by decide)), hE.step 0 (by decide), Option.bind_some, Vol.walk,
      if_pos (hE.dir 1 (by decide)), hE.step 1 (by decide)]
    rfl
  obtain ⟨s', he, hrm, hbare, hends⟩ := hE.rmdir hs hu hc (by omega) hns hw (by decide) (by decide)
  have hsize := hc.size_ne_zero hs.inv hrm.dir
  obtain ⟨ns, d, j, hns', hw', -, hj, hl, -⟩ :=
    (hends.removesDir_iff hs.inv hrm hbare hsize).mp (hall s s' _ hs hu hc he)
  obtain rfl := Option.some.inj (hns.symm.trans hns')
  obtain rfl := Option.some.inj (hw.symm.trans hw')
  -- The one entry for `sys` is in `proc`.
  obtain ⟨j', hj', hl'⟩ := hE.link 1 (by decide)
  have := (hs.inv.names.once hj hj' hl hl' hrm.dir).1
  omega

end OsLab
