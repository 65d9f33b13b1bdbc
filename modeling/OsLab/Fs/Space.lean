import OsLab.Fs.Access
import OsLab.Lib.Forest

/-!
# The space of a volume

Every block in use belongs to one place: the pointers of the allocated inodes, and those in
their index blocks, form a forest of which no block is reached twice, and the block map marks
exactly the blocks of the forest (`Space`). The lemmas say how the forest changes when a block
is overwritten, an inode is created, a block is attached, and an inode is given back.
-/

namespace OsLab

open Lib ProgM Bytes

/-- A pointer, if it is not null. -/
def nz (p : UInt32) : Option UInt32 := if p = 0 then none else some p

@[simp] theorem nz_zero : nz 0 = none := rfl

theorem nz_of_ne {p : UInt32} (h : p ≠ 0) : nz p = some p := if_neg h

theorem nz_eq_some {p q : UInt32} : nz p = some q ↔ p = q ∧ q ≠ 0 := by
  unfold nz
  split
  · next h =>
    subst h
    simp [eq_comm]
  · next h =>
    simp only [Option.some.injEq]
    exact ⟨fun e => ⟨e, e ▸ h⟩, fun e => e.1⟩

theorem nz_eq_none {p : UInt32} : nz p = none ↔ p = 0 := by
  unfold nz
  split <;> simp_all

namespace Vol

variable {V : Vol}

/-- Word `w` of block `b`, as a `bread` of the block delivers it. -/
def word (V : Vol) (b w : ℕ) : UInt32 := get32 (ofSector (V.data b)) (4 * w)

/-- The pointers of the allocated inodes and of the blocks. -/
def forest (V : Vol) : Forest (ℕ × Fin 10) UInt32 ℕ where
  root r := if V.imap r.1 then nz ((V.inode r.1).blocks r.2) else none
  child p w := nz (V.word (blockOf p) w)

/-- The number of index blocks on the way to data: none from the first seven pointers of an
inode, one, two and three from the others. -/
def depth (r : ℕ × Fin 10) : ℕ := r.2 - 6

/-- Word `ws` below pointer `r.2` of inode `r.1`. -/
abbrev follow (V : Vol) (r : ℕ × Fin 10) (ws : List ℕ) : Option UInt32 := V.forest.follow r ws

/-- The block is reached. -/
abbrev Live (V : Vol) (p : UInt32) : Prop := V.forest.Live depth p

/-- The blocks are used once, and the block map knows which. -/
structure Space (V : Vol) : Prop where
  /-- No block is reached along two paths. -/
  unshared : V.forest.Unshared depth
  /-- Pointers point to blocks. -/
  range : ∀ r ws p, ws.length ≤ depth r → V.follow r ws = some p → ∃ b < NUM_BLOCKS, p = sec b
  /-- The block map. -/
  used : ∀ b < NUM_BLOCKS, V.bmap b = true ↔ V.Live (sec b)
  /-- No other bits are set. -/
  bits : ∀ b, V.bmap b = true → b < NUM_BLOCKS

/-! ### Changes -/

/-- Overwrite inode `i`. -/
def setInode (V : Vol) (i : ℕ) (I : Inode) : Vol := { V with inode := Function.update V.inode i I }

/-- Mark inode `i` used. -/
def takeInode (V : Vol) (i : ℕ) : Vol := { V with imap := Function.update V.imap i true }

/-- Set the working directory. -/
def setWd (V : Vol) (I : Inode) : Vol := { V with wd := I }

/-- Set a descriptor. -/
def setFdesc (V : Vol) (k : Fin NUM_FDESCS) (f : Fdesc) : Vol := { V with fdesc := Function.update V.fdesc k f }

theorem word_of_data {V' : Vol} {b : ℕ} (h : V'.data b = V.data b) (w : ℕ) : V'.word b w = V.word b w := by
  rw [word, word, h]

/-- Volumes with the same inodes and blocks have the same forest. -/
theorem Space.congr {V' : Vol} (h : V.Space) (hf : ∀ r ws, ws.length ≤ depth r → V'.follow r ws = V.follow r ws)
    (hb : V'.bmap = V.bmap) : V'.Space := by
  refine ⟨h.unshared.mono fun r ws a hl e => (hf r ws hl).symm.trans e,
    fun r ws p hl e => h.range r ws p hl ((hf r ws hl).symm.trans e), fun b hlt => ?_, fun b hm => h.bits b (hb ▸ hm)⟩
  rw [hb, h.used b hlt]
  constructor
  · rintro ⟨r, ws, hl, e⟩
    exact ⟨r, ws, hl, (hf r ws hl).trans e⟩
  · rintro ⟨r, ws, hl, e⟩
    exact ⟨r, ws, hl, (hf r ws hl).symm.trans e⟩

/-- Overwriting a block that is no index block leaves every path alone. -/
theorem Space.follow_setBlock (h : V.Space) {b : ℕ} (s : Sector) (hb : b < NUM_BLOCKS)
    (hleaf : ∀ r ws, ws.length < depth r → V.follow r ws ≠ some (sec b)) {r : ℕ × Fin 10} {ws : List ℕ}
    (hl : ws.length ≤ depth r) : (V.setBlock b s).follow r ws = V.follow r ws := by
  refine Forest.follow_congr (F := V.forest)
    (G := (V.setBlock b s).forest) depth (fun _ => rfl) (fun r ws a w hlt hf => ?_)
    r ws hl
  obtain ⟨c, hc, rfl⟩ := h.range r ws a (by omega) hf
  have hcb : c ≠ b := by
    rintro rfl
    exact hleaf r ws hlt hf
  have : (V.setBlock b s).word c w = V.word c w := word_of_data (Function.update_of_ne hcb _ _) w
  simp only [forest, blockOf_sec hc, this]

theorem Space.setBlock (h : V.Space) {b : ℕ} (s : Sector) (hb : b < NUM_BLOCKS)
    (hleaf : ∀ r ws, ws.length < depth r → V.follow r ws ≠ some (sec b)) : (V.setBlock b s).Space :=
  h.congr (fun _ _ hl => h.follow_setBlock s hb hleaf hl) rfl

/-- A block at the bottom of a tree is no index block. -/
theorem Space.bottom (h : V.Space) {r₀ : ℕ × Fin 10} {ws₀ : List ℕ} {b : ℕ} (hl₀ : ws₀.length = depth r₀)
    (hf₀ : V.follow r₀ ws₀ = some (sec b)) (r : ℕ × Fin 10) (ws : List ℕ) (hl : ws.length < depth r) :
    V.follow r ws ≠ some (sec b) := by
  intro hf
  obtain ⟨rfl, rfl⟩ := h.unshared r ws r₀ ws₀ _ (by omega) (by omega) hf hf₀
  omega

/-- Changing an inode but not its pointers leaves the forest alone. -/
theorem forest_setInode {i : ℕ} {I : Inode} (hI : I.blocks = (V.inode i).blocks) :
    (V.setInode i I).forest = V.forest := by
  unfold forest
  congr 1
  funext r
  by_cases hr : r.1 = i
  · simp [setInode, hr, hI]
  · simp [setInode, Function.update_of_ne hr]

theorem Space.setInode (h : V.Space) {i : ℕ} {I : Inode} (hI : I.blocks = (V.inode i).blocks) :
    (V.setInode i I).Space :=
  h.congr (fun r ws _ => by rw [follow, forest_setInode hI]) rfl

/-- A new inode without pointers leaves the forest alone. -/
theorem forest_takeInode {i : ℕ} {I : Inode} (hi : V.imap i = false) (hI : ∀ k, I.blocks k = 0) :
    ((V.takeInode i).setInode i I).forest = V.forest := by
  unfold forest
  congr 1
  funext r
  by_cases hr : r.1 = i
  · simp [Vol.setInode, takeInode, hr, hi, hI]
  · simp [Vol.setInode, takeInode, Function.update_of_ne hr]

theorem Space.takeInode (h : V.Space) {i : ℕ} {I : Inode} (hi : V.imap i = false) (hI : ∀ k, I.blocks k = 0) :
    ((V.takeInode i).setInode i I).Space :=
  h.congr (fun r ws _ => by rw [follow, forest_takeInode hi hI]) rfl

/-- A free block is not reached. -/
theorem Space.not_live (h : V.Space) {b : ℕ} (hb : b < NUM_BLOCKS) (hfree : V.bmap b = false) : ¬ V.Live (sec b) := by
  rw [← h.used b hb, hfree]
  simp

/-- Attaching a free block keeps the space in order. -/
theorem Space.attach {V' : Vol} (h : V.Space) {r₀ : ℕ × Fin 10} {p₀ : List ℕ} {b : ℕ} (hb : b < NUM_BLOCKS)
    (ha : Forest.Attached depth V.forest V'.forest r₀ p₀ (sec b)) (hbmap : V'.bmap = Function.update V.bmap b true) :
    V'.Space := by
  refine ⟨ha.unshared h.unshared, fun r ws p hl hf => ?_, fun c hc => ?_, fun c hm => ?_⟩
  · obtain ⟨-, -, rfl⟩ | ⟨-, hf⟩ := ha.cases hl hf
    · exact ⟨b, hb, rfl⟩
    · exact h.range r ws p hl hf
  · rw [hbmap, Function.update_apply, Live, ha.live_iff]
    by_cases hcb : c = b
    · simp [hcb]
    · have : sec c ≠ sec b := fun e => hcb (sec_inj hc hb e)
      simp [hcb, this, h.used c hc]
  · rw [hbmap, Function.update_apply] at hm
    split at hm
    · next hcb => exact hcb ▸ hb
    · exact h.bits c hm

theorem word_takeBlock_self (V : Vol) (b w : ℕ) : (V.takeBlock b).word b w = 0 := by
  refine get32_zero fun j _ => ?_
  have : (V.takeBlock b).data b = fun _ => 0 := Function.update_self ..
  rw [this]
  by_cases hj : 4 * w + j < SECTOR_SIZE
  · rw [ofSector, put_of_lt _ _ hj]
  · rw [ofSector_of_le _ (by omega)]

end Vol

end OsLab
