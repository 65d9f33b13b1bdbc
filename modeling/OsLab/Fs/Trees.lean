import OsLab.Fs.Check
import OsLab.Fs.Units

/-!
# The tree of blocks below an inode

Over a device that moves whole blocks, an inode's ten pointers and the 1024 words of each index block make up a
tree of four levels (`Whole.forest`); `pathOf n` is the way to block number `n` in it. `Whole.Tree` says that the
blocks of the tree are distinct and marked used.

Lookup follows the path (`Whole.Tree.blockid2sector`), and allocation hangs the nodes on the tree that are
missing on the way, one at a time, and leaves all other paths alone (`Whole.Tree.alloc_inode_block`). So the two
computations of the index agree at every level (`alloc_inode_block_lookup`).
-/

namespace OsLab

open Lib ProgM Bytes

namespace Whole

variable {V V' : Whole} {I : Inode} {k : Fin 10} {ws : List ℕ}

/-- Word `w` of block `b`. -/
def word (V : Whole) (b w : ℕ) : UInt32 := get32 (V.data b) (4 * w)

/-- The tree of inode `I`. -/
def forest (V : Whole) (I : Inode) : Forest (Fin 10) UInt32 ℕ where
  root k := nz (I.blocks k)
  child p w := if w < 1024 then nz (V.word (blockOf p) w) else none

/-- The blocks of the inode's tree are distinct and marked used. -/
structure Tree (V : Whole) (I : Inode) : Prop where
  distinct : Forest.Unshared height (V.forest I)
  used : ∀ k ws p, ws.length ≤ height k → (V.forest I).follow k ws = some p → ∃ b < NUM_BLOCKS,
    p = sec b ∧ V.bmap b = true

/-- The two views differ in `rdata_buffer` only. -/
def OnlyRead (V V' : Whole) : Prop := V' = { V with rbuf := V'.rbuf }

theorem OnlyRead.refl (V : Whole) : OnlyRead V V := rfl

theorem OnlyRead.trans {V₁ V₂ V₃ : Whole} (h : OnlyRead V₁ V₂) (h' : OnlyRead V₂ V₃) : OnlyRead V₁ V₃ := by
  rw [OnlyRead] at h h' ⊢
  rw [h', h]

theorem OnlyRead.forest (h : OnlyRead V V') (I : Inode) : V'.forest I = V.forest I := by
  rw [OnlyRead] at h
  rw [h]
  rfl

theorem OnlyRead.tree (h : OnlyRead V V') (ht : V.Tree I) : V'.Tree I := by
  rw [OnlyRead] at h
  rw [h]
  exact ⟨ht.distinct, ht.used⟩

theorem readWord_goes {b w : ℕ} (hb : b < NUM_BLOCKS) (hw : w < 1024) :
    Goes V (Fs.readWord (sec b) w) fun r V' => r = V.word b w ∧ V' = { V with rbuf := V.data b } := by
  rw [Fs.readWord, toNat_sec hb]
  exact (Goes.breadRdata hb).seq (Goes.rword hw)

/-! ### Lookup -/

/-- Below an empty place there is nothing. -/
theorem follow_cons_none (h : (V.forest I).follow k ws = none) (w : ℕ) : (V.forest I).follow k (w :: ws) = none := by
  rw [Forest.follow_cons, h, Option.bind_none]

/-- The block at a node. -/
theorem follow_cons_word {b w : ℕ} (hb : b < NUM_BLOCKS) (h : (V.forest I).follow k ws = some (sec b)) (hw : w < 1024) :
    (V.forest I).follow k (w :: ws) = nz (V.word b w) := by
  rw [Forest.follow_cons, h, Option.bind_some, forest]
  dsimp only
  rw [if_pos hw, blockOf_sec hb]

/-- The pointers of the tree point to blocks. -/
def Points (V : Whole) (I : Inode) : Prop :=
  ∀ k ws p, ws.length ≤ height k → (V.forest I).follow k ws = some p → ∃ b < NUM_BLOCKS, p = sec b

theorem Tree.points (h : V.Tree I) : V.Points I := by
  intro k ws p hl hf
  obtain ⟨b, hb, he, -⟩ := h.used k ws p hl hf
  exact ⟨b, hb, he⟩

/-- Reading the word of a node. -/
theorem Points.readWord (h : V.Points I) {p : UInt32} {w : ℕ}
    (hl : ws.length ≤ height k) (hp : (V.forest I).follow k ws = some p)
    (hw : w < 1024) : Goes V (Fs.readWord p w) fun q V' => nz q = (V.forest I).follow k (w :: ws) ∧ OnlyRead V V' := by
  obtain ⟨b, hb, rfl⟩ := h k ws p hl hp
  refine (readWord_goes hb hw).mono ?_
  rintro _ _ ⟨rfl, rfl⟩
  exact ⟨(follow_cons_word hb hp hw).symm, rfl⟩

/-- One level of a lookup: nothing below a null pointer, else on with the word. -/
theorem Tree.descend (h : V.Tree I) {p : UInt32} {w : ℕ}
    (hl : ws.length < height k) (hp : nz p = (V.forest I).follow k ws)
    (hw : w < 1024) {g : UInt32 → FsM UInt32} {Q : UInt32 → Whole → Prop}
    (hnone : (V.forest I).follow k (w :: ws) = none → Q 0 V)
    (hg : ∀ q V', nz q = (V.forest I).follow k (w :: ws) → OnlyRead V V' → Goes V' (g q) Q) :
    Goes V (if p = 0 then pure 0 else Fs.readWord p w >>= g) Q := by
  split
  · next h0 =>
    rw [h0, nz_zero] at hp
    exact Goes.pure (hnone (follow_cons_none hp.symm w))
  · next h0 =>
    rw [nz_of_ne h0] at hp
    exact (h.points.readWord hl.le hp.symm hw).bind fun q V' hq => hg q V' hq.1 hq.2

/-- The last level. -/
theorem Tree.last (h : V.Tree I) {p : UInt32} {w : ℕ} (hl : ws.length < height k)
    (hp : nz p = (V.forest I).follow k ws) (hw : w < 1024) :
    Goes V (if p = 0 then pure 0 else Fs.readWord p w) fun q V' =>
    nz q = (V.forest I).follow k (w :: ws) ∧ OnlyRead V V' := by
  split
  · next h0 =>
    rw [h0, nz_zero] at hp
    exact Goes.pure ⟨(follow_cons_none hp.symm w).symm, OnlyRead.refl V⟩
  · next h0 =>
    rw [nz_of_ne h0] at hp
    exact h.points.readWord hl.le hp.symm hw

/-- `blockid2sector` follows the path. -/
theorem Tree.blockid2sector (h : V.Tree I) {n : ℕ} (hn : n < TREE_BLOCKS) : Goes V (Fs.blockid2sector n I) fun p V' =>
    nz p = (V.forest I).follow (pathOf n).1 (pathOf n).2 ∧ OnlyRead V V' := by
  have hwords := lt_of_mem_pathOf hn
  unfold Fs.blockid2sector
  by_cases h1 : n < DIRECT_BLOCK_NUM
  · have hp : pathOf n = (⟨n, by unfold DIRECT_BLOCK_NUM at h1; omega⟩, []) := by rw [pathOf, dif_pos h1]
    rw [dif_pos h1, hp]
    exact Goes.pure ⟨rfl, OnlyRead.refl V⟩
  rw [dif_neg h1]
  by_cases h2 : n < DIRECT_BLOCK_NUM + NBLOCK_LV1
  · have hp : pathOf n = (7, [n - DIRECT_BLOCK_NUM]) := by rw [pathOf, dif_neg h1, if_pos h2]
    rw [hp] at hwords
    rw [if_pos h2, hp]
    exact h.last (by simp [height]) rfl (hwords _ (by simp))
  rw [if_neg h2]
  by_cases h3 : n < DIRECT_BLOCK_NUM + NBLOCK_LV1 + NBLOCK_LV2
  · have hp : pathOf n =
        (8, [(n - DIRECT_BLOCK_NUM - NBLOCK_LV1) % NBLOCK_LV1,
          (n - DIRECT_BLOCK_NUM - NBLOCK_LV1) / NBLOCK_LV1]) := by
      rw [pathOf, dif_neg h1, if_neg h2, if_pos h3]
    rw [hp] at hwords
    rw [if_pos h3, hp]
    dsimp only at hwords ⊢
    refine h.descend (show ([] : List ℕ).length < height 8 by simp [height]) rfl (hwords _ (by simp))
      (fun hn => ?_) fun q V₁ hq h₁ => ?_
    · exact ⟨(follow_cons_none hn _).symm, OnlyRead.refl V⟩
    · rw [← h₁.forest I] at hq ⊢
      exact ((h₁.tree h).last (by simp [height]) hq (hwords _ (by simp))).mono fun p V₂ hp₂ => ⟨hp₂.1, h₁.trans hp₂.2⟩
  rw [if_neg h3]
  have hp : pathOf n = (9, [(n - DIRECT_BLOCK_NUM - NBLOCK_LV1 - NBLOCK_LV2) % NBLOCK_LV1,
      (n - DIRECT_BLOCK_NUM - NBLOCK_LV1 - NBLOCK_LV2 -
        (n - DIRECT_BLOCK_NUM - NBLOCK_LV1 - NBLOCK_LV2) / NBLOCK_LV2 * NBLOCK_LV2) / NBLOCK_LV1,
      (n - DIRECT_BLOCK_NUM - NBLOCK_LV1 - NBLOCK_LV2) / NBLOCK_LV2]) := by
    rw [pathOf, dif_neg h1, if_neg h2, if_neg h3]
  rw [hp] at hwords
  rw [if_pos (show n < DIRECT_BLOCK_NUM + NBLOCK_LV1 + NBLOCK_LV2 + NBLOCK_LV3 from hn), hp]
  dsimp only at hwords ⊢
  refine h.descend (show ([] : List ℕ).length < height 9 by simp [height]) rfl (hwords _ (by simp))
    (fun hn => ?_) fun q V₁ hq h₁ => ?_
  · exact ⟨(follow_cons_none (follow_cons_none hn _) _).symm, OnlyRead.refl V⟩
  rw [← h₁.forest I] at hq ⊢
  refine (h₁.tree h).descend (by simp [height]) hq (hwords _ (by simp)) (fun hn => ?_) fun q V₂ hq h₂ => ?_
  · exact ⟨(follow_cons_none hn _).symm, h₁⟩
  rw [← h₂.forest I] at hq ⊢
  have h₁₂ := h₁.trans h₂
  exact ((h₁₂.tree h).last (by simp [height]) hq (hwords _ (by simp))).mono fun p V₃ hp₃ => ⟨hp₃.1, h₁₂.trans hp₃.2⟩

/-! ### Allocation -/

/-- There are free blocks for all nodes that are missing on the way to `p`. -/
def Enough (V : Whole) (I : Inode) (k : Fin 10) (p : List ℕ) : Prop :=
  (V.forest I).Enough (nodesTo (k, p)).toFinset (freeBlocks V.bmap)

theorem mem_toFinset_nodesTo {p : List ℕ} (hs : ws <:+ p) : (k, ws) ∈ (nodesTo (k, p)).toFinset :=
  List.mem_toFinset.mpr (mem_nodesTo.mpr ⟨rfl, hs⟩)

theorem Enough.freeBlock {p : List ℕ} (h : V.Enough I k p) (hs : ws <:+ p) (hnone : (V.forest I).follow k ws = none) :
    ∃ b, V.freeBlock = some b :=
  exists_firstClear (Forest.Enough.nonempty h (mem_toFinset_nodesTo hs) hnone)

/-- Node `ws` below pointer `k` of the inode in `inode_buffer[i]` is hung on its tree, as block `b`, and nothing else
is changed in the tree. -/
structure Hung (V V' : Whole) (i : ℕ) (k : Fin 10) (ws : List ℕ) (b : ℕ) : Prop where
  lt : b < NUM_BLOCKS
  free : V.bmap b = false
  att : Forest.Attached height (V.forest (V.ibuf i)) (V'.forest (V'.ibuf i)) k ws (sec b)
  bmap : V'.bmap = Function.update V.bmap b true
  zero : V'.data b = fun _ => 0
  buf : ∃ f, V'.ibuf = Function.update V.ibuf i { V.ibuf i with blocks := f }

section Hung

variable {i b : ℕ} (g : Hung V V' i k ws b)

include g

theorem Hung.tree (h : V.Tree (V.ibuf i)) : V'.Tree (V'.ibuf i) := by
  refine ⟨g.att.unshared h.distinct, fun r vs p hl hf => ?_⟩
  rw [g.bmap]
  obtain ⟨-, -, rfl⟩ | ⟨-, hf⟩ := g.att.cases hl hf
  · exact ⟨b, g.lt, rfl, Function.update_self ..⟩
  · obtain ⟨c, hc, rfl, hm⟩ := h.used r vs p hl hf
    refine ⟨c, hc, rfl, ?_⟩
    rw [Function.update_apply]
    split
    · rfl
    · exact hm

theorem Hung.enough {p : List ℕ} (h : V.Enough (V.ibuf i) k p) (hp : p.length ≤ height k) (hs : ws <:+ p) :
    V'.Enough (V'.ibuf i) k p := by
  rw [Enough, g.bmap, freeBlocks_update]
  refine g.att.enough ?_ (mem_toFinset_nodesTo hs) (mem_freeBlocks.mpr ⟨g.lt, g.free⟩) h
  rintro ⟨k', vs⟩ hv
  obtain ⟨rfl, hvs⟩ := mem_nodesTo.mp (List.mem_toFinset.mp hv)
  exact hvs.length_le.trans hp

end Hung

/-- A free block is not in the tree. -/
theorem Tree.not_live (h : V.Tree I) {b : ℕ} (hb : b < NUM_BLOCKS) (hfree : V.bmap b = false) :
    ¬ Forest.Live height (V.forest I) (sec b) := by
  rintro ⟨r, vs, hl, hf⟩
  obtain ⟨c, hc, he, hm⟩ := h.used r vs _ hl hf
  rw [sec_inj hb hc he, hm] at hfree
  cases hfree

theorem word_zero {b : ℕ} (h : V.data b = fun _ => 0) (w : ℕ) : V.word b w = 0 := get32_zero fun j _ => by rw [h]

/-- `inode_buffer[i].blocks[j] = find_free_block()`. -/
theorem Tree.allocTop {i : ℕ} (hi : i < 8) (h : V.Tree (V.ibuf i)) {b : ℕ} (hb : V.freeBlock = some b) {j : Fin 10}
    (h0 : (V.ibuf i).blocks j = 0) : Goes V (Fs.allocTop i j) fun _ V' => Hung V V' i j [] b := by
  obtain ⟨hlt, hfree, -⟩ := firstClear_eq_some.mp hb
  refine (Goes.find_free_block hb).seq ((Goes.inodeBuf hi).seq ((Goes.setInodeBuf hi _).mono ?_))
  rintro _ V' ⟨-, rfl⟩
  have hself : (V.takeBlock b).ibuf i = V.ibuf i := rfl
  rw [hself]
  refine ⟨hlt, hfree, ?_, rfl, Function.update_self .., _, rfl⟩
  dsimp only
  rw [Function.update_self]
  refine Forest.attached_root ?_ (h.not_live hlt hfree) ?_ ?_ ?_ ?_
  · simp [forest, h0]
  · show nz (Function.update (V.ibuf i).blocks j (sec b) j) = some (sec b)
    rw [Function.update_self, nz_of_ne (sec_ne_zero hlt)]
  · intro r hr
    show nz (Function.update (V.ibuf i).blocks j (sec b) r) = nz ((V.ibuf i).blocks r)
    rw [Function.update_of_ne hr]
  · rintro p w ⟨r, vs, hl, hf⟩
    obtain ⟨c, hc, rfl, hm⟩ := h.used r vs p hl hf
    have hcb : c ≠ b := by
      rintro rfl
      rw [hfree] at hm
      cases hm
    have hdata : Function.update V.data b (fun _ => 0) c = V.data c := Function.update_of_ne hcb _ _
    simp only [forest, blockOf_sec hc, word, takeBlock, hdata]
  · intro w
    have hword : (V.takeBlock b).word b w = 0 := word_zero (Function.update_self ..) w
    simp only [forest, blockOf_sec hlt]
    split
    · exact congrArg nz hword
    · rfl

/-- Enter a new block as word `w` of the index block of a node. -/
theorem Tree.allocWord {i : ℕ} (h : V.Tree (V.ibuf i)) {b : ℕ} (hb : V.freeBlock = some b) {p : UInt32} {w : ℕ}
    (hl : ws.length < height k) (hp : (V.forest (V.ibuf i)).follow k ws = some p) (hw : w < 1024)
    (hnone : (V.forest (V.ibuf i)).follow k (w :: ws) = none) : Goes V (Fs.allocWord p w) fun _ V' =>
      Hung V V' i k (w :: ws) b ∧ get32 V'.rbuf (4 * w) = sec b := by
  obtain ⟨hlt, hfree, -⟩ := firstClear_eq_some.mp hb
  obtain ⟨a, ha, rfl, hma⟩ := h.used k ws p hl.le hp
  have hab : a ≠ b := by
    rintro rfl
    rw [hfree] at hma
    cases hma
  have hw0 : V.word a w = 0 := by
    rw [follow_cons_word ha hp hw] at hnone
    exact nz_eq_none.mp hnone
  rw [Fs.allocWord, toNat_sec ha]
  refine (Goes.find_free_block hb).seq
    ((Goes.breadRdata ha).seq ((Goes.setRword hw _).seq ((Goes.bwriteRdata ha).mono ?_)))
  rintro _ V' ⟨-, rfl⟩
  have hread : (V.takeBlock b).data a = V.data a := Function.update_of_ne hab _ _
  have hsec : UInt32.ofNat (blockSector b) = sec b := rfl
  dsimp only
  rw [hread, hsec]
  generalize hV' : ({ V.takeBlock b with
    data := Function.update (V.takeBlock b).data a (put32 (V.data a) (4 * w) (sec b)),
    rbuf := put32 (V.data a) (4 * w) (sec b) } : Whole) = V'
  have hbuf : V'.ibuf = V.ibuf := by rw [← hV']; rfl
  have hdata : V'.data = Function.update (Function.update V.data b fun _ => 0) a (put32 (V.data a) (4 * w) (sec b)) := by
    rw [← hV']; rfl
  have hzero : V'.data b = fun _ => 0 := by
    rw [hdata, Function.update_of_ne (Ne.symm hab), Function.update_self]
  have hword : ∀ w', w' < 1024 → V'.word a w' = if w' = w then sec b else V.word a w' := by
    intro w' hw'
    rw [word, hdata, Function.update_self]
    by_cases hww : w' = w
    · rw [if_pos hww, hww, get32_put32]
    · rw [if_neg hww, get32_put32_of_disjoint _ _ (by omega)]
      rfl
  refine ⟨⟨hlt, hfree, ?_, by rw [← hV']; rfl, hzero, (V.ibuf i).blocks, ?_⟩, get32_put32 _ _ _⟩
  · rw [hbuf]
    refine Forest.attached_child h.distinct hl hp ?_ (h.not_live hlt hfree) (fun _ => rfl) ?_ ?_ ?_
    · simp only [forest, blockOf_sec ha, if_pos hw, hw0, nz_zero]
    · simp only [forest, blockOf_sec ha, if_pos hw, hword w hw, if_true, nz_of_ne (sec_ne_zero hlt)]
    · rintro q v ⟨r, vs, hl', hf⟩ hqv
      obtain ⟨c, hc, rfl, hm⟩ := h.used r vs q hl' hf
      have hcb : c ≠ b := by
        rintro rfl
        rw [hfree] at hm
        cases hm
      simp only [forest, blockOf_sec hc]
      split
      · next hv =>
        by_cases hca : c = a
        · subst hca
          rw [hword v hv, if_neg (hqv rfl)]
        · rw [word, word, hdata, Function.update_of_ne hca, Function.update_of_ne hcb]
      · rfl
    · intro v
      simp only [forest, blockOf_sec hlt, word_zero hzero, nz_zero, ite_self]
  · rw [hbuf, Function.update_eq_self]

/-- Nodes on the way to `p` have been hung, down to `q`. -/
structure Reached (V V' : Whole) (i : ℕ) (k : Fin 10) (p q : List ℕ) : Prop where
  tree : V'.Tree (V'.ibuf i)
  enough : V'.Enough (V'.ibuf i) k p
  elsewhere : ∀ r vs, vs.length ≤ height r → (r = k → ¬ vs <:+ q) →
    (V'.forest (V'.ibuf i)).follow r vs = (V.forest (V.ibuf i)).follow r vs
  used : ∀ b, V.bmap b = true → V'.bmap b = true
  buf : ∃ f, V'.ibuf = Function.update V.ibuf i { V.ibuf i with blocks := f }

/-- Block `p` has been mapped. -/
structure Mapped (V V' : Whole) (i : ℕ) (k : Fin 10) (p : List ℕ) : Prop where
  tree : V'.Tree (V'.ibuf i)
  elsewhere : ∀ r vs, vs.length ≤ height r → (r = k → ¬ vs <:+ p) →
    (V'.forest (V'.ibuf i)).follow r vs = (V.forest (V.ibuf i)).follow r vs
  here : ∃ b < NUM_BLOCKS,
    V.bmap b = false ∧ (V'.data b = fun _ => 0) ∧ (V'.forest (V'.ibuf i)).follow k p = some (sec b)
  used : ∀ b, V.bmap b = true → V'.bmap b = true
  buf : ∃ f, V'.ibuf = Function.update V.ibuf i { V.ibuf i with blocks := f }

section Alloc

variable {V₁ : Whole} {i : ℕ} {p q : List ℕ}

theorem Hung.used {b : ℕ} (g : Hung V V' i k ws b) {c : ℕ} (hc : V.bmap c = true) : V'.bmap c = true := by
  rw [g.bmap, Function.update_apply]
  split
  · rfl
  · exact hc

theorem buf_trans {f : Fin 10 → UInt32} (h : V₁.ibuf = Function.update V.ibuf i { V.ibuf i with blocks := f })
    (h' : ∃ f, V'.ibuf = Function.update V₁.ibuf i { V₁.ibuf i with blocks := f }) :
    ∃ f, V'.ibuf = Function.update V.ibuf i { V.ibuf i with blocks := f } := by
  obtain ⟨f', h'⟩ := h'
  rw [h, Function.update_idem, Function.update_self] at h'
  exact ⟨f', h'⟩

theorem buf_refl (V : Whole) (i : ℕ) : ∃ f, V.ibuf = Function.update V.ibuf i { V.ibuf i with blocks := f } :=
  ⟨(V.ibuf i).blocks, (Function.update_eq_self ..).symm⟩

/-- The next node on the way. -/
theorem Reached.hung (h : Reached V V₁ i k p q) {w b : ℕ} (hp : p.length ≤ height k) (hs : w :: q <:+ p)
    (g : Hung V₁ V' i k (w :: q) b) : Reached V V' i k p (w :: q) := by
  obtain ⟨f, hf⟩ := h.buf
  refine ⟨g.tree h.tree, g.enough h.enough hp hs, fun r vs hl hne => ?_,
    fun c hc => g.used (h.used c hc), buf_trans hf g.buf⟩
  refine (g.att.elsewhere r vs hl fun hr e => hne hr (e ▸ List.suffix_refl _)).trans
    (h.elsewhere r vs hl fun hr hv => hne hr ?_)
  exact hv.trans (List.suffix_cons _ _)

theorem Reached.onlyRead (h : Reached V V₁ i k p q) (hr : OnlyRead V₁ V') : Reached V V' i k p q := by
  rw [OnlyRead] at hr
  rw [hr]
  exact ⟨⟨h.tree.distinct, h.tree.used⟩, h.enough, h.elsewhere, h.used, h.buf⟩

/-- Going on below a node. -/
theorem Reached.below (h : Reached V V₁ i k p q) (w : ℕ) : Reached V V₁ i k p (w :: q) :=
  ⟨h.tree, h.enough, fun r vs hl hne => h.elsewhere r vs hl fun hr hv =>
    hne hr (hv.trans (List.suffix_cons _ _)), h.used, h.buf⟩

theorem Tree.needTop (hi : i < 8) (h : V.Tree (V.ibuf i)) (he : V.Enough (V.ibuf i) k p) (hp : p.length ≤ height k) :
    Goes V (Fs.needTop i k) fun a V' => Reached V V' i k p [] ∧ (V'.forest (V'.ibuf i)).follow k [] = some a := by
  refine (Goes.inodeBuf hi).seq ?_
  refine Goes.bind (P := fun _ V' => Reached V V' i k p [] ∧ (V'.ibuf i).blocks k ≠ 0)
    (Goes.ifThen (fun h0 => ?_) fun h0 => ?_) ?_
  · have hnone : (V.forest (V.ibuf i)).follow k [] = none := by
      show nz ((V.ibuf i).blocks k) = none
      rw [h0, nz_zero]
    obtain ⟨b, hb⟩ := he.freeBlock (List.nil_suffix) hnone
    refine (h.allocTop hi hb h0).mono fun _ V' g => ⟨⟨g.tree h, g.enough he hp List.nil_suffix, fun r vs hl hne => ?_,
      fun c hc => g.used hc, g.buf⟩, fun h0' => ?_⟩
    · exact g.att.elsewhere r vs hl fun hr e => hne hr (e ▸ List.suffix_refl _)
    · have hhere : nz ((V'.ibuf i).blocks k) = some (sec b) := g.att.here
      rw [h0', nz_zero] at hhere
      cases hhere
  · exact ⟨⟨h, he, fun _ _ _ _ => rfl, fun _ hc => hc, buf_refl V i⟩, h0⟩
  · rintro _ V₁ ⟨h₁, h0⟩
    refine (Goes.inodeBuf hi).seq (Goes.pure ⟨h₁, ?_⟩)
    exact nz_of_ne h0

theorem Reached.needWord (h : Reached V V₁ i k p q) {a : UInt32}
    {w : ℕ} (ha : (V₁.forest (V₁.ibuf i)).follow k q = some a)
    (hp : p.length ≤ height k) (hs : w :: q <:+ p) (hw : w < 1024) : Goes V₁ (Fs.needWord a w) fun a' V' =>
      Reached V V' i k p (w :: q) ∧ (V'.forest (V'.ibuf i)).follow k (w :: q) = some a' := by
  have hl : q.length < height k := Nat.lt_of_lt_of_le (Nat.lt_of_succ_le hs.length_le) hp
  obtain ⟨c, hc, rfl, -⟩ := h.tree.used k q a hl.le ha
  have hword := follow_cons_word hc ha hw
  refine (readWord_goes hc hw).seq ?_
  have hread : OnlyRead V₁ { V₁ with rbuf := V₁.data c } := rfl
  refine Goes.bind (P := fun _ V' =>
    Reached V V' i k p (w :: q) ∧ (V'.forest (V'.ibuf i)).follow k (w :: q) = some (get32 V'.rbuf (4 * w)))
    (Goes.ifThen (fun h0 => ?_) fun h0 => ⟨(h.onlyRead hread).below w, hword.trans (nz_of_ne h0)⟩) fun _ V' h' => ?_
  · have hnone : (V₁.forest (V₁.ibuf i)).follow k (w :: q) = none := by rw [hword, h0, nz_zero]
    obtain ⟨b, hb⟩ := h.enough.freeBlock hs hnone
    refine ((h.onlyRead hread).tree.allocWord (b := b) hb hl ha hw hnone).mono fun _ V' hg => ?_
    obtain ⟨g, hr⟩ := hg
    exact ⟨(h.onlyRead hread).hung hp hs g, g.att.here.trans (congrArg some hr.symm)⟩
  · refine (Goes.rword hw).mono ?_
    rintro _ _ ⟨rfl, rfl⟩
    exact h'

/-- The last step: the block itself. -/
theorem Reached.allocWord {w : ℕ} (h : Reached V V₁ i k (w :: q) q)
    {a : UInt32} (ha : (V₁.forest (V₁.ibuf i)).follow k q = some a)
    (hp : (w :: q).length ≤ height k) (hw : w < 1024) (hnone : (V.forest (V.ibuf i)).follow k (w :: q) = none) :
    Goes V₁ (Fs.allocWord a w) fun _ V' => Mapped V V' i k (w :: q) := by
  have hnone₁ : (V₁.forest (V₁.ibuf i)).follow k (w :: q) = none := by
    rw [h.elsewhere k (w :: q) hp fun _ hs => ?_, hnone]
    exact absurd hs.length_le (by simp)
  obtain ⟨b, hb⟩ := h.enough.freeBlock (List.suffix_refl _) hnone₁
  refine (h.tree.allocWord hb hp ha hw hnone₁).mono fun _ V' hg => ?_
  have g := hg.1
  have h' := h.hung hp (List.suffix_refl _) g
  refine ⟨h'.tree, h'.elsewhere, ⟨b, g.lt, ?_, g.zero, g.att.here⟩, h'.used, h'.buf⟩
  by_contra hm
  have hm' := h.used b (by simpa using hm)
  rw [g.free] at hm'
  cases hm'

/-- `alloc_inode_block` of a block that is not mapped. -/
theorem Tree.alloc_inode_block (hi : i < 8) (h : V.Tree (V.ibuf i)) {n : ℕ} (hn : n < TREE_BLOCKS)
    (he : V.Enough (V.ibuf i) (pathOf n).1 (pathOf n).2)
    (hnone : (V.forest (V.ibuf i)).follow (pathOf n).1 (pathOf n).2 = none) :
    Goes V (Fs.alloc_inode_block n i) fun r V' => r = 0 ∧ Mapped V V' i (pathOf n).1 (pathOf n).2 := by
  have hwords := lt_of_mem_pathOf hn
  have hlen := (length_pathOf n).le
  unfold Fs.alloc_inode_block
  by_cases h1 : n < DIRECT_BLOCK_NUM
  · have hp : pathOf n = (⟨n, by unfold DIRECT_BLOCK_NUM at h1; omega⟩, []) := by rw [pathOf, dif_pos h1]
    rw [hp] at he hnone ⊢
    rw [dif_pos h1]
    obtain ⟨b, hb⟩ := he.freeBlock (List.suffix_refl _) hnone
    refine (h.allocTop hi hb (nz_eq_none.mp hnone)).bind fun _ V' g => Goes.pure ⟨rfl, g.tree h, fun r vs hl hne => ?_,
      ⟨b, g.lt, g.free, g.zero, g.att.here⟩, fun c hc => g.used hc, g.buf⟩
    exact g.att.elsewhere r vs hl fun hr e => hne hr (e ▸ List.suffix_refl _)
  rw [dif_neg h1]
  by_cases h2 : n < DIRECT_BLOCK_NUM + NBLOCK_LV1
  · have hp : pathOf n = (7, [n - DIRECT_BLOCK_NUM]) := by rw [pathOf, dif_neg h1, if_pos h2]
    rw [hp] at he hnone hwords hlen ⊢
    rw [if_pos h2]
    refine (h.needTop hi he hlen).bind fun a V₁ h₁ => ?_
    exact (h₁.1.allocWord h₁.2 hlen (hwords _ (by simp)) hnone).bind fun _ V₂ h₂ => Goes.pure ⟨rfl, h₂⟩
  rw [if_neg h2]
  by_cases h3 : n < DIRECT_BLOCK_NUM + NBLOCK_LV1 + NBLOCK_LV2
  · have hp : pathOf n =
        (8, [(n - DIRECT_BLOCK_NUM - NBLOCK_LV1) % NBLOCK_LV1,
          (n - DIRECT_BLOCK_NUM - NBLOCK_LV1) / NBLOCK_LV1]) := by
      rw [pathOf, dif_neg h1, if_neg h2, if_pos h3]
    rw [hp] at he hnone hwords hlen ⊢
    rw [if_pos h3]
    dsimp only at he hnone hwords hlen ⊢
    refine (h.needTop hi he hlen).bind fun a V₁ h₁ => ?_
    refine (h₁.1.needWord h₁.2 hlen (List.suffix_cons _ _) (hwords _ (by simp))).bind fun a V₂ h₂ => ?_
    exact (h₂.1.allocWord h₂.2 hlen (hwords _ (by simp)) hnone).bind fun _ V₃ h₃ => Goes.pure ⟨rfl, h₃⟩
  rw [if_neg h3]
  have hp : pathOf n = (9, [(n - DIRECT_BLOCK_NUM - NBLOCK_LV1 - NBLOCK_LV2) % NBLOCK_LV1,
      (n - DIRECT_BLOCK_NUM - NBLOCK_LV1 - NBLOCK_LV2 -
        (n - DIRECT_BLOCK_NUM - NBLOCK_LV1 - NBLOCK_LV2) / NBLOCK_LV2 * NBLOCK_LV2) / NBLOCK_LV1,
      (n - DIRECT_BLOCK_NUM - NBLOCK_LV1 - NBLOCK_LV2) / NBLOCK_LV2]) := by
    rw [pathOf, dif_neg h1, if_neg h2, if_neg h3]
  rw [hp] at he hnone hwords hlen ⊢
  rw [if_pos (show n < DIRECT_BLOCK_NUM + NBLOCK_LV1 + NBLOCK_LV2 + NBLOCK_LV3 from hn)]
  dsimp only at he hnone hwords hlen ⊢
  refine (h.needTop hi he hlen).bind fun a V₁ h₁ => ?_
  refine (h₁.1.needWord h₁.2 hlen ((List.suffix_cons _ _).trans (List.suffix_cons _ _))
    (hwords _ (by simp))).bind fun a V₂ h₂ => ?_
  refine (h₂.1.needWord h₂.2 hlen (List.suffix_cons _ _) (hwords _ (by simp))).bind fun a V₃ h₃ => ?_
  exact (h₃.1.allocWord h₃.2 hlen (hwords _ (by simp)) hnone).bind fun _ V₄ h₄ => Goes.pure ⟨rfl, h₄⟩

end Alloc

end Whole

/-! ### Allocation and lookup agree -/

/-- `blockid2sector(n, &inode_buffer[i])` gives `p`. -/
def Looks (c : Conf Mem Units) (i n : ℕ) (p : UInt32) : Prop :=
  ∃ c', exec units (Fs.blockid2sector n ((Whole.of c).ibuf i)) c = some (p, c')

/-- The blocks of the tree of `inode_buffer[i]` are distinct and marked used. -/
def TreeAt (c : Conf Mem Units) (i : ℕ) : Prop := (Whole.of c).Tree ((Whole.of c).ibuf i)

section Agree

variable {c c' : Conf Mem Units} {i n : ℕ} {p : UInt32}

theorem TreeAt.looks_iff (h : TreeAt c i) (hn : n < TREE_BLOCKS) :
    Looks c i n p ↔ nz p = ((Whole.of c).forest ((Whole.of c).ibuf i)).follow (pathOf n).1 (pathOf n).2 := by
  obtain ⟨q, c₁, he, hq, -⟩ := h.blockid2sector hn c rfl
  have hinj : ∀ {x y : UInt32}, nz x = nz y → x = y := by
    intro x y hxy
    by_cases hx : x = 0
    · rw [hx, nz_zero] at hxy
      rw [hx, nz_eq_none.mp hxy.symm]
    · rw [nz_of_ne hx] at hxy
      exact (nz_eq_some.mp hxy.symm).1.symm
  constructor
  · rintro ⟨c₂, he'⟩
    obtain ⟨rfl, -⟩ := Prod.mk.inj (Option.some.inj (he.symm.trans he'))
    exact hq
  · intro hp
    rw [← hinj (hq.trans hp.symm)]
    exact ⟨c₁, he⟩

/-- Beyond the last block number nothing is looked up. -/
theorem looks_of_le (hn : TREE_BLOCKS ≤ n) : Looks c i n p ↔ p = UInt32.ofNat FAIL := by
  obtain ⟨c0, c1, c2, c3⟩ := levels
  rw [TREE_BLOCKS] at hn
  have hcode : Fs.blockid2sector n ((Whole.of c).ibuf i) = pure (UInt32.ofNat FAIL) := by
    unfold Fs.blockid2sector
    rw [dif_neg (by omega), if_neg (by omega), if_neg (by omega), if_neg (by omega)]
  rw [Looks, hcode]
  constructor
  · rintro ⟨c', he⟩
    exact (Prod.mk.inj (Option.some.inj he)).1.symm
  · rintro rfl
    exact ⟨c, rfl⟩

/-- After the allocation of a block that was not mapped, its lookup gives a block that was free and is zero,
the lookup of every other block gives what it gave, and the blocks of the tree are distinct and marked
used. -/
theorem alloc_inode_block_lookup (c : Conf Mem Units) (i n : ℕ) (hi : i < 8)
    (h : TreeAt c i) (hn : n < TREE_BLOCKS) (h0 : Looks c i n 0)
    (he : (Whole.of c).Enough ((Whole.of c).ibuf i) (pathOf n).1 (pathOf n).2) :
    ∃ c', exec units (Fs.alloc_inode_block n i) c = some (0, c') ∧
      (∃ b < NUM_BLOCKS, (Whole.of c).bmap b = false ∧ ((Whole.of c').data b = fun _ => 0) ∧ Looks c' i n (sec b)) ∧
      (∀ j ≠ n, ∀ p, Looks c' i j p ↔ Looks c i j p) ∧ TreeAt c' i := by
  have hnone := ((h.looks_iff hn).mp h0).symm
  rw [nz_zero] at hnone
  obtain ⟨r, c', hrun, rfl, hM⟩ := Whole.Tree.alloc_inode_block hi h hn he hnone c rfl
  have h' : TreeAt c' i := hM.tree
  refine ⟨c', hrun, ?_, fun j hj p => ?_, h'⟩
  · obtain ⟨b, hb, hfree, hzero, hhere⟩ := hM.here
    exact ⟨b, hb, hfree, hzero, (h'.looks_iff hn).mpr (by rw [hhere, nz_of_ne (sec_ne_zero hb)])⟩
  · by_cases hjt : j < TREE_BLOCKS
    · rw [h'.looks_iff hjt, h.looks_iff hjt, hM.elsewhere _ _ (length_pathOf j).le fun hk hs => hj (pathOf_inj ?_)]
      refine Prod.ext hk (hs.eq_of_length ?_)
      rw [length_pathOf, length_pathOf, hk]
    · rw [looks_of_le (Nat.le_of_not_lt hjt), looks_of_le (Nat.le_of_not_lt hjt)]

/-- An empty disk, and an inode without blocks in `inode_buffer[0]`. -/
def Conf.empty : Conf Mem Units := ⟨Mem.start, ⟨fun _ _ => 0, []⟩⟩

theorem empty_bmap (b : ℕ) : (Whole.of Conf.empty).bmap b = false := by
  have hzero : Disk.bytes (fun _ _ => 0) BLOCK_MAP_SIZE Fs.BLOCK_MAP = fun _ => 0 := funext fun i => ite_self _
  show bit (Disk.bytes (fun _ _ => 0) BLOCK_MAP_SIZE Fs.BLOCK_MAP) b = false
  rw [hzero]
  exact bit_zero b

theorem empty_ibuf : (Whole.of Conf.empty).ibuf 0 = Inode.zero := by
  show (if 0 < 8 then getInode (fun _ => 0) (64 * 0) else Inode.zero) = Inode.zero
  rw [if_pos (by decide)]
  exact getInode_zero _

theorem empty_treeAt : TreeAt Conf.empty 0 := by
  have hroot : ∀ k ws, ((Whole.of Conf.empty).forest ((Whole.of Conf.empty).ibuf 0)).follow k ws = none := by
    intro k ws
    rw [empty_ibuf]
    exact Forest.follow_eq_none rfl ws
  refine ⟨fun r ws r' ws' a _ _ hf _ => ?_, fun k ws p _ hf => ?_⟩
  · rw [hroot] at hf
    cases hf
  · rw [hroot] at hf
    cases hf

/-- The last block number of all, on an empty disk. -/
theorem alloc_inode_block_last : ∃ (c c' : Conf Mem Units), TreeAt c 0 ∧
    exec units (Fs.alloc_inode_block (TREE_BLOCKS - 1) 0) c = some (0, c') ∧
    (∃ b, Looks c' 0 (TREE_BLOCKS - 1) (sec b)) ∧ TreeAt c' 0 := by
  have hn : TREE_BLOCKS - 1 < TREE_BLOCKS := by decide
  have h0 : Looks Conf.empty 0 (TREE_BLOCKS - 1) 0 := by
    rw [empty_treeAt.looks_iff hn, empty_ibuf]
    exact (Forest.follow_eq_none rfl _).symm
  have hfree : freeBlocks (Whole.of Conf.empty).bmap = Finset.range NUM_BLOCKS :=
    Finset.filter_true_of_mem fun b _ => empty_bmap b
  have he : (Whole.of Conf.empty).Enough ((Whole.of Conf.empty).ibuf 0)
      (pathOf (TREE_BLOCKS - 1)).1 (pathOf (TREE_BLOCKS - 1)).2 := by
    rw [Whole.Enough, Forest.Enough, hfree, Finset.card_range]
    calc _ ≤ (nodesTo (pathOf (TREE_BLOCKS - 1))).toFinset.card := Finset.card_filter_le _ _
      _ ≤ (nodesTo (pathOf (TREE_BLOCKS - 1))).length := List.toFinset_card_le _
      _ ≤ NUM_BLOCKS := by decide
  obtain ⟨c', hrun, ⟨b, -, -, -, hl⟩, -, h'⟩ :=
    alloc_inode_block_lookup Conf.empty 0 (TREE_BLOCKS - 1) (by decide) empty_treeAt hn h0 he
  exact ⟨_, c', empty_treeAt, hrun, ⟨b, hl⟩, h'⟩

end Agree

end OsLab
