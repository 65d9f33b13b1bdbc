import OsLab.Fs.Release
import Mathlib.Algebra.BigOperators.Group.Finset.Basic
import Mathlib.Algebra.Order.BigOperators.Group.Finset

/-!
# Removing a directory tree

`nest_rmdir` walks the tree below a directory: files as their entries come, sub-directories after all that is below
them (`Walk`). No block of a directory is written on the way, so the walk is known beforehand, although the entry and
inode buffers are overwritten by each nested call. `Done V us` says what has happened when `us` have been visited: each
visit takes one link from a file, and the last one its inode and blocks; a visit to a directory takes its inode and
blocks. One visit adds one element to `us` (`Done.file`, `Done.dir`), a call adds its walk (`Fair.nest_rmdir`).

With the links of a file counted over all directories, a file is given back if all its links lie in the tree
(`nest_rmdir_tree`).
-/

namespace OsLab

open Lib ProgM Bytes

/-- The inode with `n` links less. -/
def Inode.unlink (I : Inode) (n : ℕ) : Inode := { I with nlink := I.nlink - UInt16.ofNat n }

theorem Inode.unlink_zero (I : Inode) : I.unlink 0 = I := by
  have h : I.nlink - UInt16.ofNat 0 = I.nlink := UInt16.sub_zero _
  rw [Inode.unlink, h]

theorem Inode.unlink_nlink (I : Inode) {n : ℕ} (h : n ≤ I.nlink.toNat) :
    (I.unlink n).nlink.toNat = I.nlink.toNat - n := by
  have hn : (UInt16.ofNat n).toNat = n := UInt16.toNat_ofNat_of_lt' (Nat.lt_of_le_of_lt h I.nlink.toNat_lt)
  have hle : UInt16.ofNat n ≤ I.nlink := by rwa [UInt16.le_iff_toNat_le, hn]
  rw [Inode.unlink, UInt16.toNat_sub_of_le _ _ hle, hn]

theorem Inode.unlink_nlink_eq_zero (I : Inode) {n : ℕ} (h : n ≤ I.nlink.toNat) :
    (I.unlink n).nlink = 0 ↔ n = I.nlink.toNat := by
  rw [← UInt16.toNat_inj, I.unlink_nlink h, UInt16.toNat_zero]
  omega

theorem Inode.unlink_succ (I : Inode) (n : ℕ) :
    { I.unlink n with nlink := (I.unlink n).nlink - 1 } = I.unlink (n + 1) := by
  have h : I.nlink - UInt16.ofNat n - 1 = I.nlink - UInt16.ofNat (n + 1) := by
    rw [UInt16.ofNat_add, UInt16.sub_eq_iff_eq_add, UInt16.sub_eq_iff_eq_add, UInt16.add_assoc, UInt16.add_comm 1]
    exact (UInt16.sub_add_cancel _ _).symm
  exact congrArg (fun l => { I with nlink := l }) h

namespace Whole

variable {V V₀ V' : Whole} {I : Inode} {us vs : List ℕ} {i b fuel : ℕ}

/-! ### The walk -/

/-- What entry `j` of the directory block `b` refers to, if it is in use. -/
def slot (V : Whole) (b j : ℕ) : Option UInt32 :=
  if (getDentry (V.data b) (32 * j)).used then some (getDentry (V.data b) (32 * j)).ino else none

/-- What the entries of the directory block `b` refer to, without `.` and `..`. -/
def entries (V : Whole) (b : ℕ) : List UInt32 := (List.range' 2 (NUM_DENTRIES - 2)).filterMap (V.slot b)

/-- The inode is a directory. -/
def Dir (V : Whole) (i : ℕ) : Prop := (V.inode i).type = IT_DIR

instance : Decidable (V.Dir i) := inferInstanceAs (Decidable (_ = _))

/-- The block of directory `i`. -/
def dirBlock (V : Whole) (i : ℕ) : ℕ := blockOf ((V.inode i).blocks 0)

/-- The tree below the entries is finite, and the numbers are its files and directories in the order in which they are
visited. -/
inductive Walk (V : Whole) : List UInt32 → List ℕ → Prop
  /-- Nothing to visit. -/
  | nil : Walk V [] []
  /-- A link to a file. -/
  | file {i : UInt32} {es : List UInt32} {vs : List ℕ} :
      ¬ V.Dir i.toNat → Walk V es vs → Walk V (i :: es) (i.toNat :: vs)
  /-- A sub-directory, after what is below it. -/
  | dir {i : UInt32} {es : List UInt32} {ws vs : List ℕ} : V.Dir i.toNat →
    Walk V (V.entries (V.dirBlock i.toNat)) ws → Walk V es vs →
    Walk V (i :: es) (ws ++ i.toNat :: vs)

/-- The directories that are visited. -/
def dirs (V : Whole) (vs : List ℕ) : List ℕ := vs.filter fun i => V.Dir i

/-! ### What the visits do -/

/-- Inode `i` is given back by the visits. -/
def Lost (V : Whole) (us : List ℕ) (i : ℕ) : Prop := i ∈ us ∧ (V.Dir i ∨ us.count i = (V.inode i).nlink.toNat)

instance : Decidable (V.Lost us i) := inferInstanceAs (Decidable (_ ∧ _))

/-- Block `b` belongs to the inode, at a node that starts below its size. -/
def Gone (V : Whole) (I : Inode) (b : ℕ) : Prop :=
  ∃ k ws, ws.length ≤ height k ∧ firstId k ws < nblocks I.size ∧
    b < NUM_BLOCKS ∧ (V.forest I).follow k ws = some (sec b)

/-- The inodes after the visits. -/
def after (V : Whole) (us : List ℕ) (i : ℕ) : Inode :=
  if V.Lost us i then Inode.zero else (V.inode i).unlink (us.count i)

/-- `V'` is what the visits make of `V`. -/
structure Done (V : Whole) (us : List ℕ) (V' : Whole) : Prop where
  data : V'.data = V.data
  inode : V'.inode = V.after us
  imap : ∀ i, V'.imap i = true ↔ V.imap i = true ∧ ¬ V.Lost us i
  bmap : ∀ b, V'.bmap b = true ↔ V.bmap b = true ∧ ¬ ∃ i, V.Lost us i ∧ V.Gone (V.inode i) b

theorem not_lost_nil (V : Whole) (i : ℕ) : ¬ V.Lost [] i := fun h => List.not_mem_nil h.1

theorem Done.nil (V : Whole) : Done V [] V where
  data := rfl
  inode := by
    funext i
    rw [after, if_neg (V.not_lost_nil i), List.count_nil, Inode.unlink_zero]
  imap i := by simp [not_lost_nil]
  bmap b := by simp [not_lost_nil]

theorem count_append_of_ne {f : ℕ} (h : i ≠ f) : (us ++ [f]).count i = us.count i := by
  have h0 : [f].count i = 0 := List.count_eq_zero_of_not_mem (by simpa using h)
  rw [List.count_append, h0, Nat.add_zero]

theorem count_append_self (us : List ℕ) (f : ℕ) : (us ++ [f]).count f = us.count f + 1 := by
  rw [List.count_append, List.count_singleton_self]

/-- The visit of one inode does not matter to the others. -/
theorem lost_append {f : ℕ} (h : i ≠ f) : V.Lost (us ++ [f]) i ↔ V.Lost us i := by
  rw [Lost, Lost, List.mem_append, List.mem_singleton, count_append_of_ne h, or_iff_left h]

theorem after_append {f : ℕ} (h : i ≠ f) : V.after (us ++ [f]) i = V.after us i := by
  rw [after, after, count_append_of_ne h]
  simp only [lost_append h]

/-! ### One visit -/

/-- The blocks of an inode depend on the data and the pointers only. -/
theorem forest_congr (hd : V'.data = V.data) {I J : Inode} (hb : J.blocks = I.blocks) : V'.forest J = V.forest I := by
  have hw : V'.word = V.word := by
    funext b w
    rw [word, hd, word]
  rw [forest, forest, hb, hw]

theorem Points.congr (h : V.Points I) (hd : V'.data = V.data) {J : Inode} (hb : J.blocks = I.blocks) : V'.Points J := by
  rw [Points, forest_congr hd hb]
  exact h

/-- What `free_inode` gives back. -/
theorem NodesIn.gone_iff {L : List (Fin 10 × List ℕ)} (h : NodesIn V I 0 (nblocks I.size) L) (hp : V.Points I) :
    b ∈ L.map (V.blockAt I) ↔ V.Gone I b := by
  rw [List.mem_map]
  constructor
  · rintro ⟨⟨k, ws⟩, hnd, rfl⟩
    obtain ⟨⟨-, hlt⟩, hl, hf⟩ := (h.mem_iff k ws).mp hnd
    obtain ⟨p, hp'⟩ := Option.ne_none_iff_exists'.mp hf
    obtain ⟨hb, rfl⟩ := hp.blockAt hl hp'
    exact ⟨k, ws, hl, hlt, hb, hp'⟩
  · rintro ⟨k, ws, hl, hlt, hb, hf⟩
    refine ⟨(k, ws), (h.mem_iff k ws).mpr ⟨⟨Nat.zero_le _, hlt⟩, hl, by simp [hf]⟩, ?_⟩
    rw [Whole.blockAt, hf, Option.getD_some, blockOf_sec hb]

theorem gone_congr (hd : V'.data = V.data) {I J : Inode} (hb : J.blocks = I.blocks) (hs : J.size = I.size) :
    V'.Gone J b ↔ V.Gone I b := by
  rw [Gone, Gone, forest_congr hd hb, hs]

theorem Done.of_eq {V₁ : Whole} (h : Done V us V₁) (hd : V'.data = V₁.data)
    (hi : V'.inode = V₁.inode) (hm : V'.imap = V₁.imap)
    (hb : V'.bmap = V₁.bmap) : Done V us V' :=
  ⟨hd.trans h.data, hi.trans h.inode, by rw [hm]; exact h.imap, by rw [hb]; exact h.bmap⟩

theorem Done.inode_of_not_lost (h : Done V us V') (hl : ¬ V.Lost us i) :
    V'.inode i = (V.inode i).unlink (us.count i) := by
  rw [h.inode, after, if_neg hl]

/-- A visit that gives the inode back. -/
theorem Done.free {ino : UInt32} (h : Done V us V') (hi : ino.toNat < NUM_INODES) (hp : V.Points (V.inode ino.toNat))
    (hl : ¬ V.Lost us ino.toNat) (hl' : V.Lost (us ++ [ino.toNat]) ino.toNat) :
    Goes V' (Fs.free_inode ino) fun _ V'' => Done V (us ++ [ino.toNat]) V'' := by
  have hinode := h.inode_of_not_lost hl
  have hblocks : (V'.inode ino.toNat).blocks = (V.inode ino.toNat).blocks := by
    rw [hinode]
    rfl
  have hsize : (V'.inode ino.toNat).size = (V.inode ino.toNat).size := by
    rw [hinode]
    rfl
  have hp' := hp.congr h.data hblocks
  refine (free_inode_goes hi hp').mono ?_
  rintro _ V'' ⟨L, hL, hV⟩
  have hlost (j : ℕ) : V.Lost (us ++ [ino.toNat]) j ↔ V.Lost us j ∨ j = ino.toNat := by
    by_cases hj : j = ino.toNat
    · rw [hj]
      exact iff_of_true hl' (Or.inr rfl)
    · rw [lost_append hj, or_iff_left hj]
  rw [hV]
  refine ⟨h.data, ?_, fun j => ?_, fun b => ?_⟩
  · funext j
    dsimp only
    rw [Function.update_apply, h.inode]
    split
    · next hj =>
      rw [hj, after, if_pos hl']
    · next hj => rw [after_append hj]
  · dsimp only
    rw [hlost, Function.update_apply]
    split
    · next hj => simp [hj]
    · next hj => rw [h.imap j, or_iff_left hj]
  · dsimp only
    have hb := hL.gone_iff (b := b) hp'
    rw [gone_congr h.data hblocks hsize] at hb
    rw [unmark_apply, Bool.and_eq_true, h.bmap b, Bool.not_eq_true', decide_eq_false_iff_not, hb, and_assoc, ← not_or]
    refine and_congr_right fun _ => not_congr ⟨?_, ?_⟩
    · rintro (⟨j, hj, hg⟩ | hg)
      · exact ⟨j, (hlost j).mpr (Or.inl hj), hg⟩
      · exact ⟨_, hl', hg⟩
    · rintro ⟨j, hj, hg⟩
      obtain hj | rfl := (hlost j).mp hj
      · exact Or.inl ⟨j, hj, hg⟩
      · exact Or.inr hg

/-- What is asked of the inodes that are visited: their number, their blocks, and that directories are
visited once, files not more often than they have links. -/
structure Fair (V : Whole) (vs : List ℕ) : Prop where
  lt : ∀ i ∈ vs, i < NUM_INODES
  ino : ∀ i ∈ vs, (V.inode i).ino.toNat = i
  points : ∀ i ∈ vs, V.Points (V.inode i)
  block : ∀ i ∈ vs, V.Dir i → (V.inode i).blocks 0 ≠ 0
  dirs : ∀ i ∈ vs, V.Dir i → vs.count i ≤ 1
  files : ∀ i ∈ vs, ¬ V.Dir i → vs.count i ≤ (V.inode i).nlink.toNat

theorem Fair.sublist (h : V.Fair vs) (hs : us.Sublist vs) : V.Fair us where
  lt i hi := h.lt i (hs.subset hi)
  ino i hi := h.ino i (hs.subset hi)
  points i hi := h.points i (hs.subset hi)
  block i hi := h.block i (hs.subset hi)
  dirs i hi hd := (hs.count_le i).trans (h.dirs i (hs.subset hi) hd)
  files i hi hd := (hs.count_le i).trans (h.files i (hs.subset hi) hd)

theorem Fair.not_lost {ino : UInt32} (hf : V.Fair (us ++ [ino.toNat])) : ¬ V.Lost us ino.toNat := by
  have hmem : ino.toNat ∈ us ++ [ino.toNat] := by simp
  rintro ⟨hin, hd | hc⟩
  · have := hf.dirs _ hmem hd
    have := List.count_pos_iff.mpr hin
    rw [count_append_self] at *
    omega
  · by_cases hd : V.Dir ino.toNat
    · have := hf.dirs _ hmem hd
      have := List.count_pos_iff.mpr hin
      rw [count_append_self] at *
      omega
    · have := hf.files _ hmem hd
      rw [count_append_self] at this
      omega

theorem Fair.dirBlock_lt (h : V.Fair vs) (hi : i ∈ vs) (hd : V.Dir i) :
    V.dirBlock i < NUM_BLOCKS ∧ (V.inode i).blocks 0 = sec (V.dirBlock i) := by
  have hroot : (V.forest (V.inode i)).follow 0 [] = some ((V.inode i).blocks 0) := nz_of_ne (h.block i hi hd)
  obtain ⟨b, hb, he⟩ := h.points i hi 0 [] _ (Nat.zero_le _) hroot
  rw [Whole.dirBlock, he, blockOf_sec hb]
  exact ⟨hb, rfl⟩

section Visit

variable {ino : UInt32} (h : Done V us V') (hf : V.Fair (us ++ [ino.toNat]))

include h hf

/-- A directory is given back. -/
theorem Done.dir (hd : V.Dir ino.toNat) : Goes V' (Fs.free_inode ino) fun _ V'' => Done V (us ++ [ino.toNat]) V'' := by
  have hmem : ino.toNat ∈ us ++ [ino.toNat] := by simp
  exact h.free (hf.lt _ hmem) (hf.points _ hmem) hf.not_lost ⟨hmem, Or.inl hd⟩

/-- A file loses a link, and with the last one its inode. -/
theorem Done.file {I : Inode} (hd : ¬ V.Dir ino.toNat) (hI : I = (V.inode ino.toNat).unlink (us.count ino.toNat)) :
    Goes V' (if I.nlink - 1 = 0 then Fs.free_inode I.ino else Fs.storeInode { I with nlink := I.nlink - 1 })
      fun _ V'' => Done V (us ++ [ino.toNat]) V'' := by
  have hmem : ino.toNat ∈ us ++ [ino.toNat] := by simp
  have hle := hf.files _ hmem hd
  rw [count_append_self] at hle
  have hino : I.ino = ino := by
    rw [hI]
    exact UInt32.toNat_inj.mp (hf.ino _ hmem)
  have hnext : { I with nlink := I.nlink - 1 } = (V.inode ino.toNat).unlink (us.count ino.toNat + 1) := by
    rw [hI]
    exact Inode.unlink_succ _ _
  have hzero : I.nlink - 1 = 0 ↔ us.count ino.toNat + 1 = (V.inode ino.toNat).nlink.toNat := by
    rw [← Inode.unlink_nlink_eq_zero _ hle, ← hnext]
  rw [hnext, hino]
  split
  · next h0 =>
    exact h.free (hf.lt _ hmem) (hf.points _ hmem) hf.not_lost
      ⟨hmem, Or.inr ((count_append_self us _).trans (hzero.mp h0))⟩
  · next h0 =>
    have hl' : ¬ V.Lost (us ++ [ino.toNat]) ino.toNat := by
      rintro ⟨-, hd' | hc⟩
      · exact hd hd'
      · exact h0 (hzero.mpr ((count_append_self us _).symm.trans hc))
    have hlost (j : ℕ) : V.Lost (us ++ [ino.toNat]) j ↔ V.Lost us j := by
      by_cases hj : j = ino.toNat
      · rw [hj]
        exact iff_of_false hl' hf.not_lost
      · exact lost_append hj
    have hself : ((V.inode ino.toNat).unlink (us.count ino.toNat + 1)).ino.toNat = ino.toNat := hf.ino _ hmem
    refine (Goes.storeInode (by rw [hself]; exact hf.lt _ hmem)).mono ?_
    rintro _ V'' ⟨-, rfl⟩
    rw [hself]
    refine ⟨h.data, ?_, fun j => ?_, fun b => ?_⟩
    · funext j
      dsimp only
      rw [Function.update_apply, h.inode]
      split
      · next hj => rw [hj, after, if_neg hl', count_append_self]
      · next hj => rw [after_append hj]
    · simp only [hlost]
      exact h.imap j
    · simp only [hlost]
      exact h.bmap b

end Visit

/-! ### The traversal -/

/-- `nest_rmdir` of a directory with block `b` visits what is below. -/
def Traverses (V : Whole) (fuel : ℕ) : Prop :=
  ∀ {I : Inode} {b : ℕ} {us vs : List ℕ} {V' : Whole}, I.blocks 0 = sec b → b < NUM_BLOCKS →
  Walk V (V.entries b) vs → V.Fair (us ++ vs) → (V.dirs vs).length < fuel → Done V us V' →
    Goes V' (Fs.nest_rmdir fuel I) fun _ V'' => Done V (us ++ vs) V''

/-- The entries of a block, one after the other. -/
theorem Traverses.slots (ih : V.Traverses fuel) (hI : I.blocks 0 = sec b)
    (hb : b < NUM_BLOCKS) {l : List ℕ} (hl : ∀ j ∈ l, j < NUM_DENTRIES)
    (hw : Walk V (l.filterMap (V.slot b)) vs) (hf : V.Fair (us ++ vs))
    (hlen : (V.dirs vs).length ≤ fuel) (h : Done V us V') :
    Goes V' (l.forM fun j => do
      Fs.bread .dentry_buffer BLOCK_SECTORS (I.blocks 0).toNat
      let d ← Fs.dentries
      if (d j).used then do
        let child ← Fs.loadInode (d j).ino
        if child.type = IT_DIR then do
          Fs.nest_rmdir fuel child
          Fs.free_inode child.ino
        else if child.nlink - 1 = 0 then Fs.free_inode child.ino
        else Fs.storeInode { child with nlink := child.nlink - 1 }
      else pure ()) fun _ V'' => Done V (us ++ vs) V'' := by
  induction l generalizing us vs V' with
  | nil =>
    cases hw
    rw [List.append_nil]
    exact Goes.pure h
  | cons j l ihl =>
    have hj := hl j List.mem_cons_self
    have hl' : ∀ j ∈ l, j < NUM_DENTRIES := fun j hj => hl j (List.mem_cons_of_mem _ hj)
    rw [List.filterMap_cons] at hw
    show Goes V' (_ >>= fun _ => List.forM l _) _
    refine Goes.bind (P := fun _ V₁ => ∃ ws vs',
      vs = ws ++ vs' ∧ Walk V (l.filterMap (V.slot b)) vs' ∧ Done V (us ++ ws) V₁) ?_ ?_
    · rw [hI, toNat_sec hb]
      refine (Goes.breadDentry hb).seq (Goes.dentries.bind ?_)
      rintro d V₁ ⟨hd, rfl⟩
      have hdj : d j = getDentry (V.data b) (32 * j) := by rw [hd j hj, ← h.data]
      rw [hdj]
      split
      · next hu =>
        have hslot : V.slot b j = some (getDentry (V.data b) (32 * j)).ino := if_pos hu
        rw [hslot] at hw
        generalize (getDentry (V.data b) (32 * j)).ino = ino at hw
        have hmem : ino.toNat ∈ us ++ vs := by
          cases hw <;> simp
        refine (Goes.loadInode (hf.lt _ hmem)).bind ?_
        rintro child V₂ ⟨hchild, rfl⟩
        dsimp only at hchild
        have h₂ : Done V us
            { V' with dbuf := V'.data b, ibuf := Whole.loadInodes { V' with dbuf := V'.data b } ino.toNat } :=
          h.of_eq rfl rfl rfl rfl
        cases hw with
        | file hd hw =>
          have hf₁ : V.Fair (us ++ [ino.toNat]) := hf.sublist ((List.Sublist.refl us).append (by simp))
          have hI₁ := h.inode_of_not_lost hf₁.not_lost
          have htype : child.type ≠ IT_DIR := by
            rw [hchild, hI₁]
            exact hd
          rw [if_neg htype]
          exact (h₂.file hf₁ hd (hchild.trans hI₁)).mono fun _ V₃ h₃ => ⟨[ino.toNat], _, rfl, hw, h₃⟩
        | @dir _ _ ws vs' hd hw₁ hw₂ =>
          have hf₀ : V.Fair (us ++ [ino.toNat]) := hf.sublist ((List.Sublist.refl us).append (by simp))
          have hf₁ : V.Fair (us ++ ws) := hf.sublist ((List.Sublist.refl us).append (List.sublist_append_left _ _))
          have hf₂ : V.Fair (us ++ ws ++ [ino.toNat]) := by
            rw [List.append_assoc]
            exact hf.sublist ((List.Sublist.refl us).append ((List.Sublist.refl ws).append (by simp)))
          have hI₁ := h.inode_of_not_lost hf₀.not_lost
          rw [← hchild] at hI₁
          have htype : child.type = IT_DIR := by
            rw [hI₁]
            exact hd
          have hino : child.ino = ino := by
            rw [hI₁]
            exact UInt32.toNat_inj.mp (hf.ino _ hmem)
          obtain ⟨hblk, hblocks⟩ := hf.dirBlock_lt hmem hd
          have hblocks' : child.blocks 0 = sec (V.dirBlock ino.toNat) := by
            rw [hI₁]
            exact hblocks
          have hdepth : (V.dirs ws).length < fuel := by
            have : V.dirs (ws ++ ino.toNat :: vs') = V.dirs ws ++ ino.toNat :: V.dirs vs' := by
              rw [dirs, List.filter_append, List.filter_cons_of_pos (by simpa using hd)]
              rfl
            rw [this, List.length_append, List.length_cons] at hlen
            omega
          rw [if_pos htype, hino]
          refine (ih hblocks' hblk hw₁ hf₁ hdepth h₂).bind fun _ V₃ h₃ => ?_
          refine (h₃.dir hf₂ hd).mono fun _ V₄ h₄ => ⟨ws ++ [ino.toNat], vs', by simp, hw₂, ?_⟩
          rwa [← List.append_assoc]
      · next hu =>
        have hslot : V.slot b j = none := if_neg hu
        rw [hslot] at hw
        exact Goes.pure ⟨[], vs, rfl, hw, by rw [List.append_nil]; exact h.of_eq rfl rfl rfl rfl⟩
    · rintro - V₁ ⟨ws, vs', rfl, hw', h₁⟩
      rw [← List.append_assoc] at hf ⊢
      refine ihl hl' hw' hf (le_trans ?_ hlen) h₁
      exact ((List.sublist_append_right ws vs').filter _).length_le

/-- A call of `nest_rmdir` visits what is below the directory. -/
theorem traverses (V : Whole) (fuel : ℕ) : V.Traverses fuel := by
  induction fuel with
  | zero => exact fun _ _ _ _ hlt _ => absurd hlt (Nat.not_lt_zero _)
  | succ fuel ih =>
    intro I b us vs V' hI hb hw hf hlt h
    have hl : ∀ j ∈ List.range' 2 (NUM_DENTRIES - 2), j < NUM_DENTRIES := by
      intro j hj
      have := List.mem_range'_1.mp hj
      unfold NUM_DENTRIES at this ⊢
      omega
    exact ih.slots hI hb hl hw hf (Nat.le_of_lt_succ hlt) h

/-! ### Links -/

/-- The links to file `f` in the entries of the directories. -/
def links (V : Whole) (ds : Finset ℕ) (f : ℕ) : ℕ := ∑ i ∈ ds, ((V.entries (V.dirBlock i)).map UInt32.toNat).count f

/-- All directories. -/
def allDirs (V : Whole) : Finset ℕ := (Finset.range NUM_INODES).filter fun i => V.imap i = true ∧ V.Dir i

/-- The directories of the tree below directory `d`. -/
def treeDirs (V : Whole) (d : ℕ) (vs : List ℕ) : Finset ℕ := insert d (V.dirs vs).toFinset

/-- A file is visited once for each link to it. -/
theorem Walk.count {es : List UInt32} (h : Walk V es vs) {f : ℕ} (hf : ¬ V.Dir f) :
    vs.count f = (es.map UInt32.toNat).count f +
    ((V.dirs vs).map fun i => ((V.entries (V.dirBlock i)).map UInt32.toNat).count f).sum := by
  induction h with
  | nil => rfl
  | @file i es vs hd _ ih =>
    have hdirs : V.dirs (i.toNat :: vs) = V.dirs vs := List.filter_cons_of_neg (by simpa using hd)
    rw [hdirs, List.map_cons, List.count_cons, List.count_cons, ih]
    omega
  | @dir i es ws vs hd _ _ ih₁ ih₂ =>
    have hdirs : V.dirs (ws ++ i.toNat :: vs) = V.dirs ws ++ i.toNat :: V.dirs vs := by
      rw [dirs, List.filter_append, List.filter_cons_of_pos (by simpa using hd)]
      rfl
    have hne : i.toNat ≠ f := by
      rintro rfl
      exact hf hd
    rw [hdirs, List.count_append, List.count_cons_of_ne hne,
      List.map_cons, List.count_cons_of_ne hne, ih₁, ih₂, List.map_append,
      List.sum_append, List.map_cons, List.sum_cons]
    omega

/-- Below directory `d` there is a tree: a sub-directory has one entry, and it has one block; a file's
`nlink` is the number of links to it. -/
structure DirTree (V : Whole) (d : ℕ) (vs : List ℕ) : Prop where
  lt : d < NUM_INODES
  mapped : V.imap d = true
  dir : V.Dir d
  block : V.dirBlock d < NUM_BLOCKS ∧ (V.inode d).blocks 0 = sec (V.dirBlock d)
  walk : Walk V (V.entries (V.dirBlock d)) vs
  distinct : (d :: V.dirs vs).Nodup
  inodes : ∀ i ∈ vs, i < NUM_INODES ∧ V.imap i = true ∧ (V.inode i).ino.toNat = i ∧ V.Points (V.inode i)
  dirs : ∀ i ∈ vs, V.Dir i → (V.inode i).blocks 0 ≠ 0 ∧ 1 ≤ (V.inode i).size.toNat ∧ (V.inode i).size.toNat ≤ 4096
  nlink : ∀ f ∈ vs, ¬ V.Dir f → (V.inode f).nlink.toNat = V.links V.allDirs f

theorem mem_dirs : i ∈ V.dirs vs ↔ i ∈ vs ∧ V.Dir i := by simp [dirs]

section DirTree

variable {d f : ℕ} (h : V.DirTree d vs)

include h

theorem DirTree.count (hf : ¬ V.Dir f) : vs.count f = V.links (V.treeDirs d vs) f := by
  obtain ⟨hd, hn⟩ := List.nodup_cons.mp h.distinct
  rw [h.walk.count hf, links, treeDirs, Finset.sum_insert (by rwa [List.mem_toFinset]), List.sum_toFinset _ hn]

theorem DirTree.links_le (f : ℕ) : V.links (V.treeDirs d vs) f ≤ V.links V.allDirs f := by
  refine Finset.sum_le_sum_of_subset fun i hi => ?_
  rw [allDirs, Finset.mem_filter, Finset.mem_range]
  obtain rfl | hi := Finset.mem_insert.mp hi
  · exact ⟨h.lt, h.mapped, h.dir⟩
  · obtain ⟨hi, hd⟩ := mem_dirs.mp (List.mem_toFinset.mp hi)
    obtain ⟨hlt, hmap, -, -⟩ := h.inodes i hi
    exact ⟨hlt, hmap, hd⟩

theorem DirTree.fair : V.Fair vs where
  lt i hi := (h.inodes i hi).1
  ino i hi := (h.inodes i hi).2.2.1
  points i hi := (h.inodes i hi).2.2.2
  block i hi hd := (h.dirs i hi hd).1
  dirs i hi hd := by
    have hcount : (V.dirs vs).count i = vs.count i := List.count_filter (by simpa using hd)
    rw [← hcount]
    exact List.nodup_iff_count_le_one.mp (List.nodup_cons.mp h.distinct).2 i
  files i hi hd := by
    rw [h.count hd, h.nlink i hi hd]
    exact h.links_le i

/-- There are no more directories than inodes. -/
theorem DirTree.depth : (V.dirs vs).length < NUM_INODES := by
  have hsub : d :: V.dirs vs ⊆ List.range NUM_INODES := by
    intro i hi
    rw [List.mem_range]
    obtain rfl | hi := List.mem_cons.mp hi
    · exact h.lt
    · exact (h.inodes i (mem_dirs.mp hi).1).1
  have hle := (h.distinct.subperm hsub).length_le
  rw [List.length_cons, List.length_range] at hle
  exact hle

theorem DirTree.lost_iff : V.Lost vs i ↔ i ∈ vs ∧
    (V.Dir i ∨ ¬ V.Dir i ∧ V.links (V.treeDirs d vs) i = V.links V.allDirs i) := by
  refine and_congr_right fun hi => ?_
  by_cases hd : V.Dir i
  · simp [hd]
  · simp only [hd, false_or, not_false_eq_true, true_and]
    rw [h.count hd, h.nlink i hi hd]

/-- The block of a directory is all it has below its size. -/
theorem DirTree.gone_iff (hi : i ∈ vs) (hd : V.Dir i) : V.Gone (V.inode i) b ↔ b = V.dirBlock i := by
  obtain ⟨h0, hlo, hhi⟩ := h.dirs i hi hd
  obtain ⟨hb, he⟩ := h.fair.dirBlock_lt hi hd
  have hroot : (V.forest (V.inode i)).follow 0 [] = some ((V.inode i).blocks 0) := nz_of_ne h0
  have hn : nblocks (V.inode i).size = 1 := by
    rw [nblocks]
    omega
  rw [Gone, hn]
  constructor
  · rintro ⟨k, ws, hl, hlt, hb', hf⟩
    obtain ⟨hk, rfl, hk0⟩ | ⟨-, -, hk0⟩ | ⟨w, -, -, -, hk0⟩ | ⟨-, -,
        hk0⟩ | ⟨w, -, -, -, hk0⟩ | ⟨w₁, -, w₂, -, -, -, hk0⟩ :=
      node_cases hl (by omega) (Option.ne_none_iff_exists'.mpr ⟨_, hf⟩)
    · obtain rfl : k = 0 := Fin.ext (by simp; omega)
      rw [hroot, he] at hf
      exact (sec_inj hb hb' (Option.some.inj hf)).symm
    all_goals omega
  · rintro rfl
    exact ⟨0, [], Nat.zero_le _, by decide, hb, by rw [hroot, he]⟩

end DirTree

/-- `V'` is `V` without what is below directory `d`. -/
structure Removed (V V' : Whole) (d : ℕ) (vs : List ℕ) : Prop where
  dir : ∀ i ∈ vs, V.Dir i → V'.imap i = false ∧ V'.inode i = Inode.zero
  file : ∀ f ∈ vs, ¬ V.Dir f →
    V.links (V.treeDirs d vs) f = V.links V.allDirs f → V'.imap f = false ∧ V'.inode f = Inode.zero
  linked : ∀ f ∈ vs, ¬ V.Dir f → V.links (V.treeDirs d vs) f < V.links V.allDirs f →
    V'.imap f = true ∧ V'.inode f = { V.inode f with nlink := (V'.inode f).nlink } ∧
      (V'.inode f).nlink.toNat = (V.inode f).nlink.toNat - V.links (V.treeDirs d vs) f
  outside : ∀ i ∉ vs, V'.imap i = V.imap i ∧ V'.inode i = V.inode i
  bmap : ∀ b, V'.bmap b = true ↔ V.bmap b = true ∧ ¬ ((∃ i ∈ vs, V.Dir i ∧ b = V.dirBlock i) ∨
    ∃ f ∈ vs, ¬ V.Dir f ∧ V.links (V.treeDirs d vs) f = V.links V.allDirs f ∧ V.Gone (V.inode f) b)

theorem DirTree.removed {d : ℕ} (h : V.DirTree d vs) (hD : Done V vs V') : V.Removed V' d vs where
  dir i hi hd := by
    have hl : V.Lost vs i := ⟨hi, Or.inl hd⟩
    have him := hD.imap i
    rw [hD.inode, after, if_pos hl]
    simp only [hl, not_true, and_false, iff_false, Bool.not_eq_true] at him
    exact ⟨him, rfl⟩
  file f hi hd he := by
    have hl : V.Lost vs f := h.lost_iff.mpr ⟨hi, Or.inr ⟨hd, he⟩⟩
    have him := hD.imap f
    rw [hD.inode, after, if_pos hl]
    simp only [hl, not_true, and_false, iff_false, Bool.not_eq_true] at him
    exact ⟨him, rfl⟩
  linked f hi hd hlt := by
    have hl : ¬ V.Lost vs f := by
      rw [h.lost_iff]
      rintro ⟨-, hd' | ⟨-, he⟩⟩
      · exact hd hd'
      · exact hlt.ne he
    have hle : V.links (V.treeDirs d vs) f ≤ (V.inode f).nlink.toNat := by
      rw [h.nlink f hi hd]
      exact hlt.le
    rw [hD.inode_of_not_lost hl, h.count hd]
    exact ⟨(hD.imap f).mpr ⟨(h.inodes f hi).2.1, hl⟩, rfl, Inode.unlink_nlink _ hle⟩
  outside i hi := by
    have hl : ¬ V.Lost vs i := fun hl => hi hl.1
    have him := hD.imap i
    rw [hD.inode_of_not_lost hl, List.count_eq_zero_of_not_mem hi, Inode.unlink_zero]
    simp only [hl, not_false_eq_true, and_true] at him
    exact ⟨Bool.eq_iff_iff.mpr him, rfl⟩
  bmap b := by
    rw [hD.bmap b]
    refine and_congr_right fun _ => not_congr ⟨?_, ?_⟩
    · rintro ⟨i, hl, hg⟩
      obtain ⟨hi, hd | ⟨hd, he⟩⟩ := h.lost_iff.mp hl
      · exact Or.inl ⟨i, hi, hd, (h.gone_iff hi hd).mp hg⟩
      · exact Or.inr ⟨i, hi, hd, he, hg⟩
    · rintro (⟨i, hi, hd, hb⟩ | ⟨f, hi, hd, he, hg⟩)
      · exact ⟨i, ⟨hi, Or.inl hd⟩, (h.gone_iff hi hd).mpr hb⟩
      · exact ⟨f, h.lost_iff.mpr ⟨hi, Or.inr ⟨hd, he⟩⟩, hg⟩

end Whole

/-- `nest_rmdir` comes back, and has removed what is below the directory: sub-directories, and files with
all their links in the tree; other files have lost the links in the tree, and the rest of the maps and
inodes is what it was. -/
theorem nest_rmdir_tree (c : Conf Mem Units) (d fuel : ℕ) (vs : List ℕ)
    (hfuel : NUM_INODES ≤ fuel) (h : (Whole.of c).DirTree d vs) :
    ∃ c', exec units (Fs.nest_rmdir fuel ((Whole.of c).inode d)) c =
    some ((), c') ∧ (Whole.of c).Removed (Whole.of c') d vs := by
  have hlen := Nat.lt_of_lt_of_le h.depth hfuel
  have hfair : (Whole.of c).Fair ([] ++ vs) := h.fair
  obtain ⟨_, c', hrun, hD⟩ := (Whole.of c).traverses fuel h.block.2 h.block.1 h.walk hfair hlen (Whole.Done.nil _) c rfl
  exact ⟨c', hrun, h.removed hD⟩

/-! ### A small tree -/

/-- Inodes one after the other, from byte `o` on. -/
def putInodes (m : Bytes) (o : ℕ) : List Inode → Bytes
  | [] => m
  | I :: Is => putInodes (putInode m o I) (o + 64) Is

theorem getInode_putInodes_of_le (m : Bytes) {o o' : ℕ} (Is : List Inode) (h : o' + 64 ≤ o) :
    getInode (putInodes m o Is) o' = getInode m o' := by
  induction Is generalizing m o with
  | nil => rfl
  | cons I Is ih =>
    rw [putInodes, ih _ (by omega)]
    exact getInode_putInode_of_disjoint m I (Or.inr h)

theorem getInode_putInodes (m : Bytes) (o : ℕ) {Is : List Inode} {i : ℕ} {I : Inode} (h : Is[i]? = some I) :
    getInode (putInodes m o Is) (o + 64 * i) = I := by
  induction Is generalizing m o i with
  | nil => cases h
  | cons J Is ih =>
    rw [putInodes]
    cases i with
    | zero =>
      obtain rfl : J = I := Option.some.inj h
      show getInode (putInodes (putInode m o J) (o + 64) Is) o = J
      rw [getInode_putInodes_of_le _ _ le_rfl, getInode_putInode]
    | succ i =>
      rw [show o + 64 * (i + 1) = o + 64 + 64 * i by omega]
      exact ih _ _ h

/-- Entries one after the other, from byte `o` on. -/
def putDentries (m : Bytes) (o : ℕ) : List Dentry → Bytes
  | [] => m
  | e :: es => putDentries (putDentry m o e) (o + 32) es

theorem getDentry_putDentries_of_le (m : Bytes) {o o' : ℕ} (es : List Dentry) (h : o' + 32 ≤ o) :
    getDentry (putDentries m o es) o' = getDentry m o' := by
  induction es generalizing m o with
  | nil => rfl
  | cons e es ih =>
    rw [putDentries, ih _ (by omega)]
    exact getDentry_putDentry_of_disjoint m e (Or.inr h)

theorem getDentry_putDentries (m : Bytes) (o : ℕ) (es : List Dentry) (j : ℕ) :
    getDentry (putDentries m o es) (o + 32 * j) = es[j]?.getD (getDentry m (o + 32 * j)) := by
  induction es generalizing m o j with
  | nil => rfl
  | cons e es ih =>
    rw [putDentries]
    cases j with
    | zero =>
      show getDentry (putDentries (putDentry m o e) (o + 32) es) o = e
      rw [getDentry_putDentries_of_le _ _ le_rfl, getDentry_putDentry]
    | succ j =>
      rw [show o + 32 * (j + 1) = o + 32 + 32 * j by omega, ih, getDentry_putDentry_of_disjoint _ _ (by omega)]
      rfl

/-- The bits below `n` set. -/
def bitsBelow (n : ℕ) : Bytes := (List.range n).foldl setBit fun _ => 0

theorem bit_bitsBelow (n i : ℕ) : bit (bitsBelow n) i = true ↔ i < n := by
  induction n with
  | zero => simp [bitsBelow, bit_zero]
  | succ n ih =>
    rw [bitsBelow, List.range_succ, List.foldl_append]
    show bit (setBit (bitsBelow n) n) i = true ↔ _
    rw [bit_setBit, Bool.or_eq_true, decide_eq_true_eq, ih]
    omega

namespace Whole

variable {V : Whole} {I : Inode} {b : ℕ}

/-- The entries of a block that begins with `.`, `..` and `es`. -/
theorem entries_eq {es : List Dentry} (hlen : es.length ≤ NUM_DENTRIES - 2) (hused : ∀ e ∈ es, e.used = true)
    (hd : ∀ j < NUM_DENTRIES - 2, getDentry (V.data b) (64 + 32 * j) = es[j]?.getD Dentry.zero) :
    V.entries b = es.map Dentry.ino := by
  have hslot : ∀ j < NUM_DENTRIES - 2, V.slot b (2 + j) = (es.map Dentry.ino)[j]? := by
    intro j hj
    rw [slot, show 32 * (2 + j) = 64 + 32 * j by omega, hd j hj, List.getElem?_map]
    cases he : es[j]? with
    | none => exact if_neg (by decide)
    | some e => exact if_pos (hused e (List.mem_of_getElem? he))
  have htake : ∀ n ≤ NUM_DENTRIES - 2,
      (List.range n).filterMap (fun j => V.slot b (2 + j)) = (es.map Dentry.ino).take n := by
    intro n hn
    induction n with
    | zero => rfl
    | succ n ih =>
      rw [List.range_succ, List.filterMap_append, ih (by omega),
        List.take_add_one, ← hslot n (by omega), List.filterMap_cons,
        List.filterMap_nil]
      cases V.slot b (2 + n) <;> rfl
  rw [entries, List.range'_eq_map_range, List.filterMap_map]
  exact (htake _ le_rfl).trans (List.take_of_length_le (by rw [List.length_map]; exact hlen))

/-- The pointers of an inode with one block. -/
def oneBlock (b : ℕ) (k : Fin 10) : UInt32 := if k = 0 then sec b else 0

theorem oneBlock_zero (b : ℕ) : oneBlock b 0 = sec b := if_pos rfl

theorem points_oneBlock (hb : b < NUM_BLOCKS) (hI : I.blocks = oneBlock b) : V.Points I := by
  intro k ws p hl hf
  by_cases h : k = 0
  · subst h
    obtain rfl : ws = [] := List.eq_nil_of_length_eq_zero (Nat.le_zero.mp hl)
    have hp : nz (I.blocks 0) = some p := hf
    rw [hI, oneBlock_zero] at hp
    exact ⟨b, hb, (nz_eq_some.mp hp).1.symm⟩
  · have hroot : (V.forest I).root k = none := by
      show nz (I.blocks k) = none
      rw [hI, oneBlock, if_neg h]
      rfl
    rw [Forest.follow_eq_none hroot] at hf
    cases hf

end Whole

/-- Directory `i`, in block `i`. -/
def Inode.nest (i : ℕ) (nlink : UInt16) (size : UInt32) : Inode :=
  { Inode.zero with type := IT_DIR, nlink := nlink, ino := UInt32.ofNat i, size := size, blocks := Whole.oneBlock i }

/-- Three directories, a file with two links and a block, and an empty file with two links. -/
def nestInodes : List Inode :=
  [Inode.nest 0 3 128, Inode.nest 1 4 160, Inode.nest 2 2 96,
    { Inode.zero with nlink := 2, ino := 3, size := 1, blocks := Whole.oneBlock 3 },
    { Inode.zero with nlink := 2, ino := 4 }]

/-- An entry for inode `i`. -/
def Dentry.nest (c type : UInt8) (i : UInt32) : Dentry := ⟨Function.update (fun _ => 0) 0 c, type, i⟩

/-- The entries of the directories, after `.` and `..`: directory 1 is in the root, directory 2 in directory
1; file 3 is in both of them, file 4 in the root and in directory 1. -/
def nestDentries : ℕ → List Dentry
  | 0 => [.nest 100 IT_DIR 1, .nest 102 IT_FILE 4]
  | 1 => [.nest 115 IT_DIR 2, .nest 97 IT_FILE 3, .nest 98 IT_FILE 4]
  | 2 => [.nest 97 IT_FILE 3]
  | _ => []

/-- The tree on a card. -/
def Conf.nest : Conf Mem Units :=
  ⟨Mem.start, ⟨(((((Disk.store (fun _ _ => 0) (bitsBelow 5) INODE_MAP_SIZE Fs.INODE_MAP).store
    (bitsBelow 4) BLOCK_MAP_SIZE Fs.BLOCK_MAP).store (putInodes (fun _ => 0) 0 nestInodes) 1 (inodeSector 0)).store
    (putDentries (fun _ => 0) 64 (nestDentries 0)) BLOCK_SECTORS (blockSector 0)).store
    (putDentries (fun _ => 0) 64 (nestDentries 1)) BLOCK_SECTORS (blockSector 1)).store
    (putDentries (fun _ => 0) 64 (nestDentries 2)) BLOCK_SECTORS (blockSector 2), []⟩⟩

/-! What is read from it. -/

section Nest

theorem nest_imap {i : ℕ} (hi : i < NUM_INODES) : (Whole.of Conf.nest).imap i = true ↔ i < 5 := by
  show bit (Disk.bytes
    (Disk.store (Disk.store (Disk.store (Disk.store (Disk.store (Disk.store _ _ INODE_MAP_SIZE Fs.INODE_MAP) _
    BLOCK_MAP_SIZE Fs.BLOCK_MAP) _ 1 (inodeSector 0)) _ BLOCK_SECTORS (blockSector 0)) _ BLOCK_SECTORS (blockSector 1))
    _ BLOCK_SECTORS
    (blockSector 2)) INODE_MAP_SIZE Fs.INODE_MAP) i = true ↔ _
  have hall : NUM_INODES = 8 * (INODE_MAP_SIZE * SECTOR_SIZE) := by decide
  rw [Disk.bytes_store_of_disjoint (by decide) (by decide) (by decide),
    Disk.bytes_store_of_disjoint (by decide) (by decide) (by decide),
    Disk.bytes_store_of_disjoint (by decide) (by decide) (by decide),
    Disk.bytes_store_of_disjoint (by decide) (by decide) (by decide),
    Disk.bytes_store_of_disjoint (by decide) (by decide) (by decide),
    bit_store _ _ (by decide) (hall ▸ hi), bit_bitsBelow]

theorem nest_inode {i : ℕ} {I : Inode} (h : nestInodes[i]? = some I) : (Whole.of Conf.nest).inode i = I := by
  have hi : i < 5 := (List.getElem?_eq_some_iff.mp h).1
  have hsector : inodeSector i = inodeSector 0 := by
    rw [inodeSector, inodeSector, Nat.div_eq_of_lt (by omega)]
  have hbytes : Disk.bytes Conf.nest.dev.disk 1 (inodeSector 0) = fun i => if i < 1 * SECTOR_SIZE then
      putInodes (fun _ => 0) 0 nestInodes i else 0 := by
    show Disk.bytes
      (Disk.store
        (Disk.store (Disk.store (Disk.store _ _ 1 (inodeSector 0)) _ BLOCK_SECTORS (blockSector 0)) _
      BLOCK_SECTORS (blockSector 1)) _ BLOCK_SECTORS (blockSector 2)) 1 (inodeSector 0) = _
    rw [Disk.bytes_store_of_disjoint (by decide) (by decide) (by decide),
      Disk.bytes_store_of_disjoint (by decide) (by decide) (by decide),
      Disk.bytes_store_of_disjoint (by decide) (by decide) (by decide)]
    funext i
    exact Disk.bytes_store (by decide) i
  show (if i < NUM_INODES then getInode (Disk.bytes Conf.nest.dev.disk 1 (inodeSector i))
    (64 * (i % 8)) else Inode.zero) = I
  rw [if_pos (Nat.lt_trans hi (by decide)), hsector, hbytes, Nat.mod_eq_of_lt (by omega)]
  refine (getInode_congr fun y _ hy => if_pos (by unfold SECTOR_SIZE; omega)).trans ?_
  have hget := getInode_putInodes (fun _ => 0) 0 h
  rwa [Nat.zero_add] at hget

/-- Block `b` of the card, for the three directories. -/
theorem nest_data {b : ℕ} (hb : b < 3) : ∀ i < BLOCK_SECTORS * SECTOR_SIZE,
    (Whole.of Conf.nest).data b i = putDentries (fun _ => 0) 64 (nestDentries b) i := by
  intro i hi
  show (if b < NUM_BLOCKS then Disk.bytes Conf.nest.dev.disk BLOCK_SECTORS (blockSector b) else fun _ => 0) i = _
  rw [if_pos (Nat.lt_trans hb (by decide))]
  show Disk.bytes (Disk.store (Disk.store (Disk.store _ _ BLOCK_SECTORS (blockSector 0)) _
    BLOCK_SECTORS (blockSector 1)) _ BLOCK_SECTORS (blockSector 2)) BLOCK_SECTORS (blockSector b) i = _
  obtain rfl | rfl | rfl : b = 0 ∨ b = 1 ∨ b = 2 := by omega
  · rw [Disk.bytes_store_of_disjoint (by decide) (by decide) (by decide),
      Disk.bytes_store_of_disjoint (by decide) (by decide) (by decide),
      Disk.bytes_store (by decide), if_pos hi]
  · rw [Disk.bytes_store_of_disjoint (by decide) (by decide) (by decide), Disk.bytes_store (by decide), if_pos hi]
  · rw [Disk.bytes_store (by decide), if_pos hi]

theorem nest_entries {b : ℕ} (hb : b < 3) : (Whole.of Conf.nest).entries b = (nestDentries b).map Dentry.ino := by
  have hfit : (nestDentries b).length ≤ NUM_DENTRIES - 2 ∧ ∀ e ∈ nestDentries b, e.used = true := by
    obtain rfl | rfl | rfl : b = 0 ∨ b = 1 ∨ b = 2 := by omega
    all_goals decide
  refine Whole.entries_eq hfit.1 hfit.2 fun j hj => ?_
  have hcongr : getDentry ((Whole.of Conf.nest).data b)
      (64 + 32 * j) = getDentry (putDentries (fun _ => 0) 64 (nestDentries b)) (64 + 32 * j) := by
    refine getDentry_congr fun i _ hi => nest_data hb i ?_
    rw [BLOCK_SECTORS_eq, SECTOR_SIZE]
    unfold NUM_DENTRIES at hj
    omega
  rw [hcongr, getDentry_putDentries]
  rfl

theorem nest_dir : (Whole.of Conf.nest).Dir 0 ∧ (Whole.of Conf.nest).Dir 1 ∧
    (Whole.of Conf.nest).Dir 2 ∧ ¬ (Whole.of Conf.nest).Dir 3 ∧
    ¬ (Whole.of Conf.nest).Dir 4 := by
  simp only [Whole.Dir]
  rw [nest_inode (i := 0) rfl, nest_inode (i := 1) rfl,
    nest_inode (i := 2) rfl, nest_inode (i := 3) rfl, nest_inode (i := 4) rfl]
  decide

theorem nest_dirBlock {i : ℕ} (hi : i < 3) : (Whole.of Conf.nest).dirBlock i = i ∧
    ((Whole.of Conf.nest).inode i).blocks 0 = sec i := by
  have hblocks : ((Whole.of Conf.nest).inode i).blocks 0 = sec i := by
    obtain rfl | rfl | rfl : i = 0 ∨ i = 1 ∨ i = 2 := by omega
    all_goals
      rw [nest_inode rfl]
      exact Whole.oneBlock_zero _
  rw [Whole.dirBlock, hblocks]
  exact ⟨blockOf_sec (Nat.lt_trans hi (by decide)), rfl⟩

/-- The links to a file. -/
theorem nest_links (ds : Finset ℕ) (hds : ∀ i ∈ ds, i < 3) (f : ℕ) :
    (Whole.of Conf.nest).links ds f = ∑ i ∈ ds, (((nestDentries i).map Dentry.ino).map UInt32.toNat).count f :=
  Finset.sum_congr rfl fun i hi => by rw [(nest_dirBlock (hds i hi)).1, nest_entries (hds i hi)]

theorem nest_allDirs : (Whole.of Conf.nest).allDirs = {0, 1, 2} := by
  obtain ⟨h0, h1, h2, h3, h4⟩ := nest_dir
  ext i
  simp only [Whole.allDirs, Finset.mem_filter, Finset.mem_range, Finset.mem_insert, Finset.mem_singleton]
  constructor
  · rintro ⟨hi, hm, hd⟩
    have hlt := (nest_imap hi).mp hm
    have hne3 : i ≠ 3 := by rintro rfl; exact h3 hd
    have hne4 : i ≠ 4 := by rintro rfl; exact h4 hd
    omega
  · intro hi
    have hlt : i < NUM_INODES := Nat.lt_of_lt_of_le (show i < 3 by omega) (by decide)
    refine ⟨hlt, (nest_imap hlt).mpr (by omega), ?_⟩
    obtain rfl | rfl | rfl := hi
    · exact h0
    · exact h1
    · exact h2

theorem nest_dirs : (Whole.of Conf.nest).dirs [3, 2, 3, 4] = [2] := by
  obtain ⟨-, -, h2, h3, h4⟩ := nest_dir
  simp [Whole.dirs, h2, h3, h4]

theorem nest_dirTree : (Whole.of Conf.nest).DirTree 1 [3, 2, 3, 4] := by
  obtain ⟨h0, h1, h2, h3, h4⟩ := nest_dir
  obtain ⟨hb1, he1⟩ := nest_dirBlock (i := 1) (by decide)
  obtain ⟨hb2, he2⟩ := nest_dirBlock (i := 2) (by decide)
  constructor
  case lt => decide
  case mapped => exact (nest_imap (by decide)).mpr (by decide)
  case dir => exact h1
  case block =>
    rw [hb1]
    exact ⟨by decide, he1⟩
  case walk =>
    have hsub : Whole.Walk (Whole.of Conf.nest)
        ((Whole.of Conf.nest).entries ((Whole.of Conf.nest).dirBlock 2)) [3] := by
      rw [hb2, nest_entries (by decide)]
      exact Whole.Walk.file h3 Whole.Walk.nil
    rw [hb1, nest_entries (by decide)]
    exact Whole.Walk.dir (i := 2) h2 hsub (Whole.Walk.file h3 (Whole.Walk.file h4 Whole.Walk.nil))
  case distinct =>
    rw [nest_dirs]
    decide
  case inodes =>
    intro i hi
    have hlt : 2 ≤ i ∧ i < 5 := by
      simp only [List.mem_cons, List.not_mem_nil, or_false] at hi
      omega
    have hi' : i < NUM_INODES := Nat.lt_of_lt_of_le hlt.2 (by decide)
    refine ⟨hi', (nest_imap hi').mpr hlt.2, ?_, ?_⟩
    · obtain rfl | rfl | rfl : i = 2 ∨ i = 3 ∨ i = 4 := by omega
      all_goals
        rw [nest_inode rfl]
        rfl
    · obtain rfl | rfl | rfl : i = 2 ∨ i = 3 ∨ i = 4 := by omega
      · rw [nest_inode rfl]
        exact Whole.points_oneBlock (b := 2) (by decide) rfl
      · rw [nest_inode rfl]
        exact Whole.points_oneBlock (b := 3) (by decide) rfl
      · intro k ws p _ hf
        rw [nest_inode rfl, Forest.follow_eq_none rfl] at hf
        cases hf
  case dirs =>
    intro i hi hd
    obtain rfl : i = 2 := List.mem_singleton.mp (nest_dirs ▸ Whole.mem_dirs.mpr ⟨hi, hd⟩)
    rw [he2, nest_inode rfl]
    decide
  case nlink =>
    intro f hf hd
    rw [nest_allDirs, nest_links _ (by decide)]
    have hcases : f = 3 ∨ f = 4 := by
      simp only [List.mem_cons, List.not_mem_nil, or_false] at hf
      have hne : f ≠ 2 := by rintro rfl; exact hd h2
      omega
    obtain rfl | rfl := hcases
    all_goals
      rw [nest_inode rfl]
      decide

/-- Directory 1 has a sub-directory; file 3 has its two links below directory 1, and file 4 has one of them there. -/
theorem nest_rmdir_links : ∃ c',
    exec units (Fs.nest_rmdir NUM_INODES ((Whole.of Conf.nest).inode 1)) Conf.nest = some ((), c') ∧
    (Whole.of Conf.nest).Removed (Whole.of c') 1 [3, 2, 3, 4] ∧
    (Whole.of c').imap 2 = false ∧ (Whole.of c').imap 3 = false ∧
    (Whole.of c').imap 4 = true ∧ ((Whole.of c').inode 4).nlink.toNat = 1 := by
  obtain ⟨c', he, hR⟩ := nest_rmdir_tree Conf.nest 1 NUM_INODES [3, 2, 3, 4] le_rfl nest_dirTree
  obtain ⟨h0, h1, h2, h3, h4⟩ := nest_dir
  have htree : (Whole.of Conf.nest).treeDirs 1 [3, 2, 3, 4] = {1, 2} := by rw [Whole.treeDirs, nest_dirs]; rfl
  have hin : ∀ f, (Whole.of Conf.nest).links ((Whole.of Conf.nest).treeDirs 1 [3, 2, 3, 4]) f =
      ∑ i ∈ ({1, 2} : Finset ℕ), (((nestDentries i).map Dentry.ino).map UInt32.toNat).count f :=
    fun f => by rw [htree, nest_links _ (by decide)]
  have hall : ∀ f, (Whole.of Conf.nest).links (Whole.of Conf.nest).allDirs f =
      ∑ i ∈ ({0, 1, 2} : Finset ℕ), (((nestDentries i).map Dentry.ino).map UInt32.toNat).count f :=
    fun f => by rw [nest_allDirs, nest_links _ (by decide)]
  obtain ⟨hm4, -, hn4⟩ := hR.linked 4 (by decide) h4 (by rw [hin, hall]; decide)
  rw [hin, nest_inode rfl] at hn4
  exact ⟨c', he, hR, (hR.dir 2 (by decide) h2).1, (hR.file 3 (by decide) h3 (by rw [hin, hall]; decide)).1, hm4, hn4⟩

end Nest

end OsLab
