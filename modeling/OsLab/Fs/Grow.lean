import OsLab.Fs.File

/-!
# Allocating the blocks of a file

While `do_write` runs, the file's inode lives in `inode_buffer`: `View.virt` is the volume with
that inode in place. A block that is missing is hung on the tree together with the index blocks
above it, one at a time (`Grown`); altogether the volume `Grows`. An allocation succeeds as long
as there are enough free blocks for the missing nodes of the tree (`Enough`).
-/

namespace OsLab

open Lib ProgM Bytes

/-- The nodes on the way to `nd`, with `nd` itself. -/
def nodesTo (nd : Fin 10 × List ℕ) : List (Fin 10 × List ℕ) := nd.2.tails.map fun ws => (nd.1, ws)

theorem mem_nodesTo {nd : Fin 10 × List ℕ} {k : Fin 10} {ws : List ℕ} :
    (k, ws) ∈ nodesTo nd ↔ k = nd.1 ∧ ws <:+ nd.2 := by
  simp only [nodesTo, List.mem_map, List.mem_tails, Prod.mk.injEq]
  constructor
  · rintro ⟨ws', hs, rfl, rfl⟩
    exact ⟨rfl, hs⟩
  · rintro ⟨rfl, hs⟩
    exact ⟨ws, hs, rfl, rfl⟩

/-- The free blocks of a block map. -/
def freeBlocks (bmap : ℕ → Bool) : Finset ℕ := (Finset.range NUM_BLOCKS).filter fun b => bmap b = false

theorem mem_freeBlocks {bmap : ℕ → Bool} {b : ℕ} : b ∈ freeBlocks bmap ↔
    b < NUM_BLOCKS ∧ bmap b = false := by simp [freeBlocks]

theorem freeBlocks_update (bmap : ℕ → Bool) (b : ℕ) :
    freeBlocks (Function.update bmap b true) = (freeBlocks bmap).erase b := by
  ext c
  rw [Finset.mem_erase, mem_freeBlocks, mem_freeBlocks, Function.update_apply]
  by_cases hc : c = b <;> simp [hc]

theorem exists_firstClear {bmap : ℕ → Bool} (h : (freeBlocks bmap).Nonempty) :
    ∃ b, firstClear bmap NUM_BLOCKS = some b := by
  obtain ⟨b, hb⟩ := h
  obtain ⟨hlt, hfree⟩ := mem_freeBlocks.mp hb
  cases hf : firstClear bmap NUM_BLOCKS with
  | some b => exact ⟨b, rfl⟩
  | none =>
    rw [firstClear_eq_none.mp hf b hlt] at hfree
    cases hfree

namespace Vol

variable {U U' U'' : Vol} {f n : ℕ} {k : Fin 10} {ws : List ℕ}

/-- The nodes on the way to block `n`, with the block itself. -/
def nodes (n : ℕ) : List (Fin 10 × List ℕ) := nodesTo (pathOf n)

/-- The nodes on the way to the blocks of `A`. -/
def nodesOf (A : Finset ℕ) : Finset (Fin 10 × List ℕ) := A.biUnion fun n => (nodes n).toFinset

/-- The free blocks. -/
def free (U : Vol) : Finset ℕ := freeBlocks U.bmap

/-- There are free blocks for all that the blocks of `A` lack. -/
def Enough (U : Vol) (f : ℕ) (A : Finset ℕ) : Prop := (U.forest.below f).Enough (nodesOf A) U.free

theorem mem_nodes : (k, ws) ∈ nodes n ↔ k = (pathOf n).1 ∧ ws <:+ (pathOf n).2 := mem_nodesTo

theorem mem_nodesOf {A : Finset ℕ} : (k, ws) ∈ nodesOf A ↔ ∃ n ∈ A, (k, ws) ∈ nodes n := by simp [nodesOf]

theorem length_of_mem_nodesOf {A : Finset ℕ} (h : (k, ws) ∈ nodesOf A) : ws.length ≤ depth (f, k) := by
  obtain ⟨n, -, hn⟩ := mem_nodesOf.mp h
  obtain ⟨rfl, hs⟩ := mem_nodes.mp hn
  exact hs.length_le.trans (length_eq_depth f n).le

/-- A node that is missing can be allocated. -/
theorem Enough.freeBlock {A : Finset ℕ} (h : U.Enough f A) (hn : n ∈ A) (hnd : (k, ws) ∈ nodes n)
    (hnone : U.follow (f, k) ws = none) : ∃ b, U.freeBlock = some b :=
  exists_firstClear (Forest.Enough.nonempty h (mem_nodesOf.mpr ⟨n, hn, hnd⟩) ((Forest.follow_below ..).trans hnone))

/-- A node of file `f` is hung on its tree, and nothing else changes. -/
structure Grown (U U' : Vol) (f : ℕ) (k : Fin 10) (ws : List ℕ) (b : ℕ) : Prop where
  lt : b < NUM_BLOCKS
  free : U.bmap b = false
  att : Forest.Attached depth U.forest U'.forest (f, k) ws (sec b)
  bmap : U'.bmap = Function.update U.bmap b true
  new : U'.data b = File.zero
  /-- Only index blocks change. -/
  data : ∀ c < NUM_BLOCKS, c ≠ b → (∀ r ws, ws.length < depth r → U.follow r ws ≠ some (sec c)) → U'.data c = U.data c
  uniform : (∀ {c}, c ≠ 0 → c < NUM_BLOCKS → U.bmap c = true → U.first c = U.data c) →
    ∀ {c}, c ≠ 0 → c < NUM_BLOCKS → U'.bmap c = true → U'.first c = U'.data c

namespace Grown

variable {b : ℕ} (g : Grown U U' f k ws b)

include g

theorem space (h : U.Space) : U'.Space := h.attach g.lt g.att g.bmap

/-- The data of a block at the bottom of a tree. -/
theorem data_bottom (h : U.Space) {r : ℕ × Fin 10} {vs : List ℕ}
    {c : ℕ} (hc : c < NUM_BLOCKS) (hl : vs.length = depth r)
    (hf : U.follow r vs = some (sec c)) : U'.data c = U.data c := by
  refine g.data c hc ?_ (h.bottom hl hf)
  rintro rfl
  exact g.att.fresh ⟨r, vs, by omega, hf⟩

/-- The file gets a block of zeros, or none. -/
theorem file_eq (h : U.Space) (m : ℕ) :
    U'.file f m = if (k, ws) = pathOf m then some File.zero else U.file f m := by
  by_cases hm : (k, ws) = pathOf m
  · have hleaf : U'.leaf f m = some (sec b) := by
      rw [leaf, ← hm]
      exact g.att.here
    rw [file, hleaf, if_pos hm, Option.map_some, blockOf_sec g.lt, g.new]
  · have hleaf : U'.leaf f m = U.leaf f m := by
      refine g.att.elsewhere _ _ (length_eq_depth f m).le fun hr hw => hm ?_
      exact Prod.ext (congrArg Prod.snd hr).symm hw.symm
    rw [if_neg hm, file, hleaf, file]
    cases hp : U.leaf f m with
    | none => rfl
    | some p =>
      obtain ⟨c, hc, rfl⟩ := h.leaf hp
      rw [Option.map_some, Option.map_some, blockOf_sec hc, g.data_bottom h hc (length_eq_depth f m) hp]

theorem covers {N N' : ℕ} (hc : U.Covers f N) (hN : N ≤ N') (hid : firstId k ws < N') : U'.Covers f N' := by
  intro k' vs hl hp
  by_cases he : k' = k ∧ vs = ws
  · rw [he.1, he.2]
    exact hid
  · rw [follow, g.att.elsewhere (f, k') vs hl fun hr hw => he ⟨congrArg Prod.snd hr, hw⟩] at hp
    exact Nat.lt_of_lt_of_le (hc k' vs hl hp) hN

theorem enough {A : Finset ℕ} (h : U.Enough f A) (hn : n ∈ A) (hnd : (k, ws) ∈ nodes n) : U'.Enough f A := by
  have hfree : U'.free = U.free.erase b := by rw [Vol.free, g.bmap, freeBlocks_update, Vol.free]
  rw [Enough, hfree]
  exact g.att.below.enough (fun _ hnd => length_of_mem_nodesOf hnd) (mem_nodesOf.mpr ⟨n, hn, hnd⟩)
    (mem_freeBlocks.mpr ⟨g.lt, g.free⟩) h

end Grown

/-! ### The two ways of hanging a block on a tree -/

/-- Take block `b` for pointer `j` of inode `f`. -/
def growRoot (U : Vol) (f : ℕ) (j : Fin 10) (b : ℕ) : Vol :=
  (U.takeBlock b).setInode f { U.inode f with blocks := Function.update (U.inode f).blocks j (sec b) }

theorem uniform_setBlock (U : Vol) (b : ℕ) (s : Sector) {c : ℕ} (hc0 : c ≠ 0)
    (h : c ≠ b → U.first c = U.data c) : (U.setBlock b s).first c = (U.setBlock b s).data c := by
  show (if b = 0 then U.first else Function.update U.first b s) c = Function.update U.data b s c
  by_cases hcb : c = b
  · subst hcb
    rw [if_neg hc0, Function.update_self, Function.update_self]
  · rw [Function.update_of_ne hcb]
    split
    · exact h hcb
    · rw [Function.update_of_ne hcb]
      exact h hcb

theorem grown_root (h : U.Space) {j : Fin 10} {b : ℕ} (hf : U.imap f = true) (hj : (U.inode f).blocks j = 0)
    (hb : b < NUM_BLOCKS) (hfree : U.bmap b = false) : Grown U (U.growRoot f j b) f j [] b := by
  have hself : (U.growRoot f j b).inode f = { U.inode f with blocks := Function.update (U.inode f).blocks j (sec b) } :=
    Function.update_self ..
  have hdata : ∀ c, c ≠ b → (U.growRoot f j b).data c = U.data c := fun c hc => Function.update_of_ne hc _ _
  have hbmap : (U.growRoot f j b).bmap = Function.update U.bmap b true := rfl
  refine ⟨hb, hfree, Forest.attached_root ?_ (h.not_live hb hfree) ?_ ?_ ?_ ?_, hbmap, Function.update_self ..,
    fun c _ hc _ => hdata c hc, ?_⟩
  · simp [forest, hf, hj]
  · have himap : (U.growRoot f j b).imap f = true := hf
    simp [forest, himap, hself, nz_of_ne (sec_ne_zero hb)]
  · rintro ⟨x, k'⟩ hr
    have himap : (U.growRoot f j b).imap x = U.imap x := rfl
    by_cases hx : x = f
    · subst hx
      have hk : k' ≠ j := fun e => hr (by rw [e])
      simp [forest, himap, hself, Function.update_of_ne hk]
    · have hino : (U.growRoot f j b).inode x = U.inode x := Function.update_of_ne hx _ _
      simp [forest, himap, hino]
  · rintro p w ⟨r, vs, hl, hfo⟩
    obtain ⟨c, hc, rfl⟩ := h.range r vs p hl hfo
    have hcb : c ≠ b := by
      rintro rfl
      exact h.not_live hb hfree ⟨r, vs, hl, hfo⟩
    simp only [forest, blockOf_sec hc, word_of_data (hdata c hcb)]
  · intro w
    have : (U.growRoot f j b).word b w = 0 := word_takeBlock_self U b w
    simp only [forest, blockOf_sec hb, this, nz_zero]
  · intro huni c hc0 hc hm
    refine uniform_setBlock U b _ hc0 fun hcb => huni hc0 hc ?_
    rwa [hbmap, Function.update_of_ne hcb] at hm

/-- Take block `b` for word `w` of index block `a`. -/
def growWord (U : Vol) (a w b : ℕ) : Vol :=
  (U.takeBlock b).setBlock a (Bytes.sector (put32 (ofSector (U.data a)) (4 * w) (sec b)) 0)

theorem word_growWord (U : Vol) {a w b : ℕ} (hw : w < 128) (w' : ℕ) :
    (U.growWord a w b).word a w' = if w' = w then sec b else U.word a w' := by
  have hd : (U.growWord a w b).data a = Bytes.sector (put32 (ofSector (U.data a)) (4 * w) (sec b)) 0 :=
    Function.update_self ..
  have hput : ofSector (Bytes.sector (put32 (ofSector (U.data a)) (4 * w) (sec b)) 0) =
      put32 (ofSector (U.data a)) (4 * w) (sec b) := by
    rw [← put_eq_ofSector fun i hi => ?_, put_sector_self]
    unfold SECTOR_SIZE at hi
    rw [put32, if_neg (by omega), ofSector_of_le _ (by unfold SECTOR_SIZE; omega)]
  rw [word, hd, hput]
  by_cases hw' : w' = w
  · rw [if_pos hw', hw', get32_put32]
  · rw [if_neg hw', get32_put32_of_disjoint _ _ (by omega)]
    rfl

theorem grown_word (h : U.Space) {a w b : ℕ} (ha : a < NUM_BLOCKS) (hlen : ws.length < depth (f, k))
    (hws : U.follow (f, k) ws = some (sec a)) (hw0 : U.word a w = 0) (hw : w < 128) (hb : b < NUM_BLOCKS)
    (hfree : U.bmap b = false) : Grown U (U.growWord a w b) f k (w :: ws) b := by
  have hab : a ≠ b := by
    rintro rfl
    exact h.not_live hb hfree ⟨_, _, hlen.le, hws⟩
  have hdata : ∀ c, c ≠ b → c ≠ a → (U.growWord a w b).data c = U.data c := by
    intro c hcb hca
    show Function.update (Function.update U.data b _) a _ c = _
    rw [Function.update_of_ne hca, Function.update_of_ne hcb]
  have hnew : (U.growWord a w b).data b = File.zero := by
    show Function.update (Function.update U.data b _) a _ b = _
    rw [Function.update_of_ne (Ne.symm hab), Function.update_self]
    rfl
  have hbmap : (U.growWord a w b).bmap = Function.update U.bmap b true := rfl
  refine ⟨hb, hfree, Forest.attached_child h.unshared hlen hws ?_ (h.not_live hb hfree) (fun _ => rfl) ?_ ?_ ?_, hbmap,
    hnew, fun c _ hcb hidx => hdata c hcb ?_, ?_⟩
  · simp only [forest, blockOf_sec ha, hw0, nz_zero]
  · simp only [forest, blockOf_sec ha, word_growWord U hw, if_true, nz_of_ne (sec_ne_zero hb)]
  · rintro p v ⟨r, vs, hl, hfo⟩ hpv
    obtain ⟨c, hc, rfl⟩ := h.range r vs p hl hfo
    have hcb : c ≠ b := by
      rintro rfl
      exact h.not_live hb hfree ⟨r, vs, hl, hfo⟩
    by_cases hca : c = a
    · subst hca
      simp only [forest, blockOf_sec ha, word_growWord U hw, if_neg (hpv rfl)]
    · simp only [forest, blockOf_sec hc, word_of_data (hdata c hcb hca)]
  · intro v
    have hzero : (U.growWord a w b).word b v = 0 := by
      refine get32_zero fun j _ => ?_
      rw [hnew]
      by_cases hj : 4 * v + j < SECTOR_SIZE
      · rw [ofSector, put_of_lt _ _ hj]
        rfl
      · rw [ofSector_of_le _ (by omega)]
    simp only [forest, blockOf_sec hb, hzero, nz_zero]
  · rintro rfl
    exact hidx _ _ hlen hws
  · intro huni c hc0 hc hm
    refine uniform_setBlock _ a _ hc0 fun _ => uniform_setBlock U b _ hc0 fun hcb => huni hc0 hc ?_
    rwa [hbmap, Function.update_of_ne hcb] at hm

/-- The nodes on the way to a block start at or before it. -/
theorem firstId_le_of_mem_nodes (h : (k, ws) ∈ nodes n) : firstId k ws ≤ n := by
  obtain ⟨rfl, hs⟩ := mem_nodes.mp h
  calc firstId (pathOf n).1 ws ≤ firstId (pathOf n).1 (pathOf n).2 := firstId_le_of_suffix hs (length_pathOf n).le
    _ = n := firstId_pathOf n

/-- A node on the way to a block that is itself a block is that block. -/
theorem eq_of_mem_nodes {m : ℕ} (h : (k, ws) ∈ nodes n) (hm : (k, ws) = pathOf m) : m = n := by
  obtain ⟨hk, hs⟩ := mem_nodes.mp h
  have hlen : ws.length = (pathOf n).2.length := by
    have := length_pathOf m
    rw [← hm] at this
    rw [length_pathOf, ← hk]
    exact this
  refine pathOf_inj (hm.symm.trans (Prod.ext hk ?_))
  exact hs.eq_of_length hlen

end Vol

/-! ### The code -/

/-- The volume with inode `f` as it is in `inode_buffer`. -/
def View.virt (V : View) (f : ℕ) : Vol := V.toVol.setInode f (V.ibuf (f % 8))

/-- Apart from blocks and the pointers of inode `f` in `inode_buffer`, nothing changes. -/
structure KeepsFile (V V' : View) (f : ℕ) : Prop where
  tidy : V'.Tidy
  imap : V'.imap = V.imap
  inode : V'.inode = V.inode
  wd : V'.wd = V.wd
  fdesc : V'.fdesc = V.fdesc
  ibuf : ∀ x, x ≠ f % 8 → V'.ibuf x = V.ibuf x
  self : V'.ibuf (f % 8) = { V.ibuf (f % 8) with blocks := (V'.ibuf (f % 8)).blocks }
  wbuf : V'.wbuf = V.wbuf

theorem KeepsFile.trans {V V' V'' : View} {f : ℕ} (h : KeepsFile V V' f) (h' : KeepsFile V' V'' f) :
    KeepsFile V V'' f :=
  ⟨h'.tidy, h'.imap.trans h.imap, h'.inode.trans h.inode, h'.wd.trans h.wd, h'.fdesc.trans h.fdesc,
    fun x hx => (h'.ibuf x hx).trans (h.ibuf x hx), by rw [h'.self, h.self], h'.wbuf.trans h.wbuf⟩

/-- Nodes on the way to block `n` of file `f` are allocated. -/
structure Grows (V V' : View) (f n : ℕ) : Prop where
  keeps : KeepsFile V V' f
  space : (V'.virt f).Space
  uniform : (∀ {c}, c ≠ 0 → c < NUM_BLOCKS → V.bmap c = true → V.first c = V.data c) →
    ∀ {c}, c ≠ 0 → c < NUM_BLOCKS → V'.bmap c = true → V'.first c = V'.data c
  other : ∀ r ws, r.1 ≠ f → ws.length ≤ Vol.depth r → (V'.virt f).follow r ws = (V.virt f).follow r ws
  mono : ∀ r ws p, ws.length ≤ Vol.depth r → (V.virt f).follow r ws = some p → (V'.virt f).follow r ws = some p
  bottom : ∀ r ws c, c < NUM_BLOCKS → ws.length = Vol.depth r → (V.virt f).follow r ws = some (sec c) →
    V'.data c = V.data c
  file : ∀ m, (V'.virt f).file f m = (V.virt f).file f m ∨
    (m = n ∧ (V.virt f).file f m = none ∧ (V'.virt f).file f m = some File.zero)
  covers : ∀ N, n < N → (V.virt f).Covers f N → (V'.virt f).Covers f N
  enough : ∀ A, n ∈ A → (V.virt f).Enough f A → (V'.virt f).Enough f A

namespace Grows

variable {V V' V'' : View} {f n : ℕ}

theorem of_onlyRbuf (hs : (V.virt f).Space) (h : OnlyRbuf V V') : Grows V V' f n := by
  obtain ⟨ht, m, rfl⟩ := h
  exact ⟨⟨ht, rfl, rfl, rfl, rfl, fun _ _ => rfl, rfl, rfl⟩, hs, id, fun _ _ _ _ => rfl, fun _ _ _ _ h => h,
    fun _ _ _ _ _ _ => rfl, fun _ => Or.inl rfl, fun _ _ h => h, fun _ _ h => h⟩

theorem trans (h : Grows V V' f n) (h' : Grows V' V'' f n) : Grows V V'' f n where
  keeps := h.keeps.trans h'.keeps
  space := h'.space
  uniform := fun hu => h'.uniform (h.uniform hu)
  other := fun r ws hr hl => (h'.other r ws hr hl).trans (h.other r ws hr hl)
  mono := fun r ws p hl hf => h'.mono r ws p hl (h.mono r ws p hl hf)
  bottom := fun r ws c hc hl hf => (h'.bottom r ws c hc hl (h.mono r ws _ hl.le hf)).trans (h.bottom r ws c hc hl hf)
  file := by
    intro m
    obtain h1 | ⟨rfl, h1, h2⟩ := h.file m
    · rw [← h1]
      exact h'.file m
    · obtain h3 | ⟨-, h3, -⟩ := h'.file m
      · exact Or.inr ⟨rfl, h1, h3.trans h2⟩
      · rw [h2] at h3
        cases h3
  covers := fun N hN hc => h'.covers N hN (h.covers N hN hc)
  enough := fun A hA he => h'.enough A hA (h.enough A hA he)

theorem of_grown {k : Fin 10} {ws : List ℕ} {b : ℕ} (hk : KeepsFile V V' f) (hs : (V.virt f).Space)
    (g : Vol.Grown (V.virt f) (V'.virt f) f k ws b) (hnd : (k, ws) ∈ Vol.nodes n) : Grows V V' f n where
  keeps := hk
  space := g.space hs
  uniform := fun hu => g.uniform hu
  other := fun r vs hr hl => g.att.elsewhere r vs hl fun e => absurd (congrArg Prod.fst e) hr
  mono := fun _ _ _ hl hf => g.att.mono hl hf
  bottom := fun _ _ _ hc hl hf => g.data_bottom hs hc hl hf
  file := by
    intro m
    rw [g.file_eq hs]
    by_cases hm : (k, ws) = pathOf m
    · refine Or.inr ⟨Vol.eq_of_mem_nodes hnd hm, ?_, if_pos hm⟩
      have hleaf : (V.virt f).leaf f m = none := by
        rw [Vol.leaf, ← hm]
        exact g.att.empty
      rw [Vol.file, hleaf]
      rfl
    · exact Or.inl (if_neg hm)
  covers := fun N hN hc => g.covers hc le_rfl (Nat.lt_of_le_of_lt (Vol.firstId_le_of_mem_nodes hnd) hN)
  enough := fun A hA he => g.enough he hA hnd

end Grows

section Alloc

variable {V : View} {f n : ℕ} {A : Finset ℕ} {k : Fin 10} {ws : List ℕ}

theorem follow_virt_nil (hf : V.imap f = true) (j : Fin 10) :
    (V.virt f).follow (f, j) [] = nz ((V.ibuf (f % 8)).blocks j) := by
  have himap : (V.virt f).imap f = true := hf
  have hself : (V.virt f).inode f = V.ibuf (f % 8) := Function.update_self ..
  simp [Vol.follow, Vol.forest, himap, hself]

/-- No other node than `ws` below pointer `k` of inode `f` changes. -/
def SameBut (V V' : View) (f : ℕ) (k : Fin 10) (ws : List ℕ) : Prop :=
  ∀ r vs, vs.length ≤ Vol.depth r → (r = (f, k) → vs ≠ ws) → (V'.virt f).follow r vs = (V.virt f).follow r vs

/-- `inode_buffer[…].blocks[j] = find_free_block()`. -/
theorem allocTop_spec (ht : V.Tidy) (hs : (V.virt f).Space)
    (hf : V.imap f = true) (he : (V.virt f).Enough f A) (hn : n ∈ A)
    {j : Fin 10} (hnd : (j, []) ∈ Vol.nodes n) (h0 : (V.ibuf (f % 8)).blocks j = 0) :
    Spec V (Fs.allocTop (f % 8) j) fun _ V' => Grows V V' f n ∧ SameBut V V' f j [] ∧
      (V'.ibuf (f % 8)).blocks j ≠ 0 := by
  obtain ⟨b, hb⟩ := he.freeBlock hn hnd (by rw [follow_virt_nil hf, h0]; rfl)
  have hb' : V.freeBlock = some b := hb
  obtain ⟨hlt, hfree, -⟩ := firstClear_eq_some.mp hb'
  have hk : f % 8 < 8 := by omega
  refine (Does.find_free_block hb').seq ((Does.inodeBuf hk).seq ((Does.setInodeBuf hk _).spec ?_))
  have hself : (V.virt f).inode f = V.ibuf (f % 8) := Function.update_self ..
  have hg := Vol.grown_root hs hf (by rw [hself]; exact h0) hlt hfree
  -- The new inode in the buffer is the grown one.
  have hvirt : (V.virt f).growRoot f j b = View.virt { V with
      toVol := V.takeBlock b, rbuf := fun _ => 0,
      ibuf := Function.update V.ibuf (f % 8)
        { V.ibuf (f % 8) with blocks := Function.update (V.ibuf (f % 8)).blocks j (UInt32.ofNat (blockSector b)) } }
        f := by
    rw [Vol.growRoot, hself]
    show _ = Vol.setInode _ f (Function.update V.ibuf (f % 8) _ (f % 8))
    rw [Function.update_self]
    simp only [Vol.setInode, View.virt, Vol.takeBlock, Vol.setBlock, Function.update_idem]
    rfl
  rw [hvirt] at hg
  refine ⟨Grows.of_grown ⟨⟨ht.dbuf, fun _ _ => rfl⟩, rfl, rfl,
    rfl, rfl, fun x hx => Function.update_of_ne hx _ _, ?_, rfl⟩ hs
    hg hnd, fun r vs hl hr => hg.att.elsewhere r vs hl hr, ?_⟩
  · dsimp only
    rw [Function.update_self]
  · dsimp only
    rw [Function.update_self]
    dsimp only
    rw [Function.update_self]
    exact sec_ne_zero hlt

theorem needTop_spec (ht : V.Tidy) (hs : (V.virt f).Space)
    (hf : V.imap f = true) (he : (V.virt f).Enough f A) (hn : n ∈ A)
    {j : Fin 10} (hnd : (j, []) ∈ Vol.nodes n) :
    Spec V (Fs.needTop (f % 8) j) fun p V' => Grows V V' f n ∧ SameBut V V' f j [] ∧
      (V'.virt f).follow (f, j) [] = some p := by
  have hk : f % 8 < 8 := by omega
  refine (Does.inodeBuf hk).seq (Spec.bind (Spec.ifThen (allocTop_spec ht hs hf he hn hnd)
    fun h0 => ⟨Grows.of_onlyRbuf hs (OnlyRbuf.refl ht), fun _ _ _ _ => rfl, h0⟩) ?_)
  rintro _ V₁ ⟨hg, hb, h0⟩
  refine (Does.inodeBuf hk).seq (Spec.pure ⟨hg, hb, ?_⟩)
  rw [follow_virt_nil (by rw [hg.keeps.imap]; exact hf), nz_of_ne h0]

/-- A word of an index block that file `f` reaches. -/
theorem follow_virt_cons {a : ℕ} (ha : a < NUM_BLOCKS)
    (hws : (V.virt f).follow (f, k) ws = some (sec a)) (w : ℕ) :
    (V.virt f).follow (f, k) (w :: ws) = nz (V.word a w) := by
  rw [Vol.follow, Forest.follow_cons]
  rw [Vol.follow] at hws
  rw [hws]
  simp only [Option.bind_some, Vol.forest, blockOf_sec ha]
  rfl

/-- A new block for word `w` of an index block. -/
theorem allocWord_spec (ht : V.Tidy) (hs : (V.virt f).Space)
    (he : (V.virt f).Enough f A) (hn : n ∈ A) {p : UInt32} {w : ℕ}
    (hlen : ws.length < Vol.depth (f, k)) (hws : (V.virt f).follow (f, k) ws = some p) (hw : w < 128)
    (hnd : (k, w :: ws) ∈ Vol.nodes n) (hnone : (V.virt f).follow (f, k) (w :: ws) = none) :
    Spec V (Fs.allocWord p w) fun _ V' => Grows V V' f n ∧ SameBut V V' f k (w :: ws) ∧
      (V'.virt f).follow (f, k) (w :: ws) = some (get32 V'.rbuf (4 * w)) := by
  obtain ⟨b, hb⟩ := he.freeBlock hn hnd hnone
  have hb' : V.freeBlock = some b := hb
  obtain ⟨hlt, hfree, -⟩ := firstClear_eq_some.mp hb'
  obtain ⟨a, ha, rfl⟩ := hs.range _ _ _ hlen.le hws
  have hw0 : V.word a w = 0 := by
    rw [follow_virt_cons ha hws] at hnone
    exact nz_eq_none.mp hnone
  have hab : a ≠ b := by
    rintro rfl
    exact hs.not_live hlt hfree ⟨_, _, hlen.le, hws⟩
  have hdata : (V.toVol.takeBlock b).data a = V.data a := Function.update_of_ne hab _ _
  have hg := Vol.grown_word hs ha hlen hws hw0 hw hlt hfree
  rw [Fs.allocWord, toNat_sec ha]
  refine (Does.find_free_block hb').seq
    ((Does.breadRdata ha).seq ((Does.setRword w _).seq ((Does.bwriteRdata ha).spec ?_)))
  dsimp only
  rw [hdata]
  have hput : Bytes.put (fun _ => 0) 0 (V.data a) = ofSector (V.data a) := rfl
  have htail : ∀ i, SECTOR_SIZE ≤ i → put32 (ofSector (V.data a)) (4 * w) (sec b) i = 0 := by
    intro i hi
    rw [put32, if_neg (by unfold SECTOR_SIZE at hi; omega), ofSector_of_le _ hi]
  refine ⟨Grows.of_grown ⟨⟨ht.dbuf, htail⟩, rfl, rfl, rfl, rfl, fun _ _ => rfl, rfl, rfl⟩ hs hg hnd,
    fun r vs hl hr => hg.att.elsewhere r vs hl hr, ?_⟩
  rw [hput]
  have hsec : get32 (put32 (ofSector (V.data a)) (4 * w) (UInt32.ofNat (blockSector b))) (4 * w) = sec b :=
    get32_put32 _ _ _
  rw [hsec]
  exact hg.att.here

theorem needWord_spec (ht : V.Tidy) (hs : (V.virt f).Space)
    (he : (V.virt f).Enough f A) (hn : n ∈ A) {p : UInt32} {w : ℕ}
    (hlen : ws.length < Vol.depth (f, k)) (hws : (V.virt f).follow (f, k) ws = some p) (hw : w < 128)
    (hnd : (k, w :: ws) ∈ Vol.nodes n) : Spec V (Fs.needWord p w) fun q V' => Grows V V' f n ∧
      SameBut V V' f k (w :: ws) ∧ (V'.virt f).follow (f, k) (w :: ws) = some q := by
  obtain ⟨a, ha, rfl⟩ := hs.range _ _ _ hlen.le hws
  have hcons := follow_virt_cons ha hws w
  refine (Does.readWord ht ha w).seq ?_
  have hO : OnlyRbuf V { V with rbuf := ofSector (V.data a) } := ⟨⟨ht.dbuf, fun _ hi => ofSector_of_le _ hi⟩, _, rfl⟩
  have hO' : Grows V { V with rbuf := ofSector (V.data a) } f n := Grows.of_onlyRbuf hs hO
  refine Spec.bind (P := fun _ V₁ => Grows V V₁ f n ∧ SameBut V V₁ f k (w :: ws) ∧
    (V₁.virt f).follow (f, k) (w :: ws) = some (get32 V₁.rbuf (4 * w))) (Spec.ifThen (fun h0 => ?_) fun h0 => ?_)
    fun _ V₁ h₁ => (Does.rword w).spec h₁
  · have hnone : (V.virt f).follow (f, k) (w :: ws) = none := by
      rw [hcons, h0]
      rfl
    refine (allocWord_spec (V := { V with rbuf := ofSector (V.data a) }) hO.tidy hs he hn hlen hws hw hnd hnone).mono ?_
    rintro _ V₁ ⟨hg, hb, hfo⟩
    exact ⟨hO'.trans hg, hb, hfo⟩
  · refine ⟨hO', fun _ _ _ _ => rfl, hcons.trans ?_⟩
    rw [nz_of_ne h0]
    rfl

/-- The words on the way to block `n` lie in the sectors that are kept. -/
def Reachable (n : ℕ) : Prop := n < MAX_BLOCKS ∧ ∀ w ∈ (pathOf n).2, w < 128

theorem mem_nodes_self (n : ℕ) : ((pathOf n).1, (pathOf n).2) ∈ Vol.nodes n :=
  Vol.mem_nodes.mpr ⟨rfl, List.suffix_refl _⟩

/-- `alloc_inode_block` for a block that is missing. -/
theorem alloc_inode_block_spec (ht : V.Tidy) (hs : (V.virt f).Space) (hf : V.imap f = true) (he : (V.virt f).Enough f A)
    (hn : n ∈ A) (hr : Reachable n) (hnone : (V.virt f).leaf f n = none) :
    Spec V (Fs.alloc_inode_block n (f % 8)) fun _ V' => Grows V V' f n ∧ (V'.virt f).leaf f n ≠ none := by
  obtain ⟨hmax, hwords⟩ := hr
  have hself := mem_nodes_self n
  rw [Vol.leaf] at hnone
  unfold Fs.alloc_inode_block
  by_cases h1 : n < DIRECT_BLOCK_NUM
  · have hp : pathOf n = (⟨n, by unfold DIRECT_BLOCK_NUM at h1; omega⟩, []) := by rw [pathOf, dif_pos h1]
    rw [dif_pos h1]
    rw [hp] at hself hnone
    refine (allocTop_spec ht hs hf he hn hself (nz_eq_none.mp ((follow_virt_nil hf _).symm.trans hnone))).bind ?_
    rintro _ V₁ ⟨hg, -, h0⟩
    refine Spec.pure ⟨hg, ?_⟩
    rw [Vol.leaf, hp, follow_virt_nil (by rw [hg.keeps.imap]; exact hf), nz_of_ne h0]
    simp
  rw [dif_neg h1]
  by_cases h2 : n < DIRECT_BLOCK_NUM + NBLOCK_LV1
  · have hp : pathOf n = (7, [n - DIRECT_BLOCK_NUM]) := by rw [pathOf, dif_neg h1, if_pos h2]
    rw [if_pos h2]
    rw [hp] at hself hwords hnone
    have htop : (7, []) ∈ Vol.nodes n := Vol.mem_nodes.mpr (by rw [hp]; exact ⟨rfl, List.nil_suffix⟩)
    refine (needTop_spec ht hs hf he hn htop).bind ?_
    rintro lv1 V₁ ⟨hg₁, hb₁, hlv1⟩
    have hnone₁ := (hb₁ (f, 7) [n - DIRECT_BLOCK_NUM] (by simp [Vol.depth]) (by simp)).trans hnone
    refine (allocWord_spec hg₁.keeps.tidy hg₁.space (hg₁.enough A hn he) hn (by simp [Vol.depth]) hlv1
      (hwords _ (by simp)) hself hnone₁).bind ?_
    rintro _ V₂ ⟨hg₂, -, hfo⟩
    refine Spec.pure ⟨hg₁.trans hg₂, ?_⟩
    rw [Vol.leaf, hp]
    simp [hfo]
  have h3 : n < DIRECT_BLOCK_NUM + NBLOCK_LV1 + NBLOCK_LV2 := by
    have : MAX_BLOCKS ≤ DIRECT_BLOCK_NUM + NBLOCK_LV1 + NBLOCK_LV2 := by decide
    omega
  have hp : pathOf n = (8, [(n - DIRECT_BLOCK_NUM - NBLOCK_LV1) % NBLOCK_LV1,
      (n - DIRECT_BLOCK_NUM - NBLOCK_LV1) / NBLOCK_LV1]) := by rw [pathOf, dif_neg h1, if_neg h2, if_pos h3]
  rw [if_neg h2, if_pos h3]
  dsimp only
  generalize (n - DIRECT_BLOCK_NUM - NBLOCK_LV1) % NBLOCK_LV1 = w₁ at hp ⊢
  generalize (n - DIRECT_BLOCK_NUM - NBLOCK_LV1) / NBLOCK_LV1 = w₂ at hp ⊢
  rw [hp] at hself hwords hnone
  have htop : (8, []) ∈ Vol.nodes n := Vol.mem_nodes.mpr (by rw [hp]; exact ⟨rfl, List.nil_suffix⟩)
  have hmid : (8, [w₂]) ∈ Vol.nodes n := Vol.mem_nodes.mpr (by rw [hp]; exact ⟨rfl, List.suffix_cons _ _⟩)
  refine (needTop_spec ht hs hf he hn htop).bind ?_
  rintro lv2 V₁ ⟨hg₁, hb₁, hlv2⟩
  have hnone₁ := (hb₁ (f, 8) [w₁, w₂] (by simp [Vol.depth]) (by simp)).trans hnone
  have he₁ := hg₁.enough A hn he
  refine (needWord_spec hg₁.keeps.tidy hg₁.space he₁ hn (by simp [Vol.depth]) hlv2 (hwords w₂ (by simp)) hmid).bind ?_
  rintro lv1 V₂ ⟨hg₂, hb₂, hlv1⟩
  have hnone₂ := (hb₂ (f, 8) [w₁, w₂] (by simp [Vol.depth]) (by simp)).trans hnone₁
  refine (allocWord_spec hg₂.keeps.tidy hg₂.space (hg₂.enough A hn he₁)
    hn (by simp [Vol.depth]) hlv1 (hwords w₁ (by simp)) hself
    hnone₂).bind ?_
  rintro _ V₃ ⟨hg₃, -, hfo⟩
  refine Spec.pure ⟨(hg₁.trans hg₂).trans hg₃, ?_⟩
  rw [Vol.leaf, hp]
  simp [hfo]

end Alloc

end OsLab
