import OsLab.Fs.Invariant

/-!
# The blocks of a file

`Vol.ptr V I k ws` is the pointer found below pointer `k` of inode `I` along the words `ws` of
index blocks, last one first; `pathOf n` is the path to block number `n` of a file. Positions in
a file have 32 bits, so block numbers stay below 2^20 and the triple indirect block is never
reached.

`blockid2sector` follows the path of a block number (`blockid2sector_spec`), and the loop of
`free_inode` gives back every block of the tree that starts below the size of the file
(`freeLoop_spec`).
-/

namespace OsLab

open Lib ProgM Bytes

/-- The number of index blocks on the way to the data below pointer `k`. -/
def height (k : Fin 10) : ℕ := k - 6

/-- The number of blocks an inode can have. -/
def TREE_BLOCKS : ℕ := DIRECT_BLOCK_NUM + NBLOCK_LV1 + NBLOCK_LV2 + NBLOCK_LV3

/-- The way to block number `n`. -/
def pathOf (n : ℕ) : Fin 10 × List ℕ :=
  if h : n < DIRECT_BLOCK_NUM then (⟨n, lt_of_direct h⟩, [])
  else if n < DIRECT_BLOCK_NUM + NBLOCK_LV1 then (7, [n - DIRECT_BLOCK_NUM])
  else if n < DIRECT_BLOCK_NUM + NBLOCK_LV1 + NBLOCK_LV2 then
    let index := n - DIRECT_BLOCK_NUM - NBLOCK_LV1
    (8, [index % NBLOCK_LV1, index / NBLOCK_LV1])
  else
    let index := n - DIRECT_BLOCK_NUM - NBLOCK_LV1 - NBLOCK_LV2
    (9, [index % NBLOCK_LV1, (index - index / NBLOCK_LV2 * NBLOCK_LV2) / NBLOCK_LV1, index / NBLOCK_LV2])

theorem levels : DIRECT_BLOCK_NUM = 7 ∧ NBLOCK_LV1 = 1024 ∧ NBLOCK_LV2 = 1048576 ∧ NBLOCK_LV3 = 1073741824 := by decide

/-- The number of blocks a position can lie in. -/
def MAX_BLOCKS : ℕ := 2 ^ 20

namespace Vol

variable {V : Vol} {I : Inode} {k : Fin 10}

/-- The pointer at `ws` below pointer `k` of `I`; null below a null pointer. -/
def ptr (V : Vol) (I : Inode) (k : Fin 10) : List ℕ → UInt32
  | [] => I.blocks k
  | w :: ws => if V.ptr I k ws = 0 then 0 else V.word (blockOf (V.ptr I k ws)) w

@[simp] theorem ptr_nil (V : Vol) (I : Inode) (k : Fin 10) : V.ptr I k [] = I.blocks k := rfl

theorem ptr_cons (V : Vol) (I : Inode) (k : Fin 10) (w : ℕ) (ws : List ℕ) :
    V.ptr I k (w :: ws) = if V.ptr I k ws = 0 then 0 else V.word (blockOf (V.ptr I k ws)) w := rfl

/-- Pointers are the paths of the forest. -/
theorem follow_eq_ptr {i : ℕ} (hi : V.imap i = true) (hI : V.inode i = I) (ws : List ℕ) :
    V.follow (i, k) ws = nz (V.ptr I k ws) := by
  induction ws with
  | nil => simp [follow, forest, hi, hI]
  | cons w ws ih =>
    rw [follow, Forest.follow_cons]
    rw [follow] at ih
    rw [ih, ptr_cons]
    by_cases h : V.ptr I k ws = 0
    · simp [h]
    · rw [nz_of_ne h, if_neg h]
      rfl

/-- Words beyond the sector that a `bread` delivers are null. -/
theorem word_of_le (V : Vol) (b : ℕ) {w : ℕ} (hw : 128 ≤ w) : V.word b w = 0 :=
  get32_zero fun j _ => ofSector_of_le _ (by unfold SECTOR_SIZE; omega)

theorem lt_of_ptr_ne_zero {ws : List ℕ} (h : V.ptr I k ws ≠ 0) : ∀ w ∈ ws, w < 128 := by
  induction ws with
  | nil => simp
  | cons w ws ih =>
    rw [ptr_cons] at h
    split at h
    · exact absurd rfl h
    · next h' =>
      intro x hx
      obtain rfl | hx := List.mem_cons.mp hx
      · by_contra hlt
        exact h (V.word_of_le _ (by omega))
      · exact ih h' x hx

/-- The pointers of inode `I` point to blocks. -/
def PtrsOk (V : Vol) (I : Inode) : Prop :=
  ∀ (k : Fin 10) ws, ws.length ≤ (k : ℕ) - 6 → V.ptr I k ws ≠ 0 → ∃ b < NUM_BLOCKS, V.ptr I k ws = sec b

theorem Space.ptrsOk (h : V.Space) {i : ℕ} (hi : V.imap i = true) : V.PtrsOk (V.inode i) := by
  intro k ws hl hp
  refine h.range (i, k) ws _ hl ?_
  rw [follow_eq_ptr hi rfl, nz_of_ne hp]

end Vol

variable {V : View} {I : Inode}

/-- The view is the same but for `rdata_buffer`. -/
structure OnlyRbuf (V V' : View) : Prop where
  tidy : V'.Tidy
  eq : ∃ m, V' = { V with rbuf := m }

theorem OnlyRbuf.refl (ht : V.Tidy) : OnlyRbuf V V := ⟨ht, V.rbuf, rfl⟩

theorem OnlyRbuf.trans {V₁ V₂ V₃ : View} (h : OnlyRbuf V₁ V₂) (h' : OnlyRbuf V₂ V₃) : OnlyRbuf V₁ V₃ := by
  obtain ⟨-, m, rfl⟩ := h
  obtain ⟨ht, m', rfl⟩ := h'
  exact ⟨ht, m', rfl⟩

theorem Does.readWord (ht : V.Tidy) {b : ℕ} (hb : b < NUM_BLOCKS) (w : ℕ) :
    Does V (Fs.readWord (sec b) w) (V.word b w) { V with rbuf := ofSector (V.data b) } := by
  rw [Fs.readWord, toNat_sec hb]
  have hread := Does.breadRdata (V := V) hb
  rw [put_eq_ofSector ht.rbuf] at hread
  exact hread.bind (Does.rword w)

/-- Reading a word below a pointer. -/
theorem Vol.PtrsOk.readWord (h : V.PtrsOk I) (ht : V.Tidy) (k : Fin 10) (ws : List ℕ) (hl : ws.length ≤ (k : ℕ) - 6)
    (h0 : V.ptr I k ws ≠ 0) (w : ℕ) :
    Spec V (Fs.readWord (V.ptr I k ws) w) fun p V' => p = V.ptr I k (w :: ws) ∧ OnlyRbuf V V' := by
  obtain ⟨b, hb, he⟩ := h k ws hl h0
  rw [he]
  refine (Does.readWord ht hb w).spec ⟨?_, ⟨ht.dbuf, fun _ hi => ofSector_of_le _ hi⟩, _, rfl⟩
  rw [Vol.ptr_cons, if_neg h0, he, blockOf_sec hb]

/-- The pointers do not depend on the buffers. -/
theorem OnlyRbuf.ptr {V' : View} (h : OnlyRbuf V V') : V'.toVol = V.toVol := by
  obtain ⟨-, m, rfl⟩ := h
  rfl

/-- `blockid2sector` follows the path of a block number. -/
theorem blockid2sector_spec (h : V.PtrsOk I) (ht : V.Tidy) {n : ℕ} (hn : n < MAX_BLOCKS) :
    Spec V (Fs.blockid2sector n I) fun p V' => p = V.ptr I (pathOf n).1 (pathOf n).2 ∧ OnlyRbuf V V' := by
  unfold Fs.blockid2sector
  by_cases h1 : n < DIRECT_BLOCK_NUM
  · rw [dif_pos h1]
    exact Spec.pure ⟨by rw [pathOf, dif_pos h1]; rfl, OnlyRbuf.refl ht⟩
  rw [dif_neg h1]
  by_cases h2 : n < DIRECT_BLOCK_NUM + NBLOCK_LV1
  · have hp : pathOf n = (7, [n - DIRECT_BLOCK_NUM]) := by rw [pathOf, dif_neg h1, if_pos h2]
    rw [if_pos h2, hp]
    split
    · next h0 => exact Spec.pure ⟨by simp [Vol.ptr_cons, h0], OnlyRbuf.refl ht⟩
    · next h0 => exact h.readWord ht 7 [] (by simp) h0 _
  have h3 : n < DIRECT_BLOCK_NUM + NBLOCK_LV1 + NBLOCK_LV2 := by
    have : MAX_BLOCKS ≤ DIRECT_BLOCK_NUM + NBLOCK_LV1 + NBLOCK_LV2 := by decide
    omega
  have hp : pathOf n = (8, [(n - DIRECT_BLOCK_NUM - NBLOCK_LV1) % NBLOCK_LV1,
      (n - DIRECT_BLOCK_NUM - NBLOCK_LV1) / NBLOCK_LV1]) := by rw [pathOf, dif_neg h1, if_neg h2, if_pos h3]
  rw [if_neg h2, if_pos h3, hp]
  dsimp only
  split
  · next h0 => exact Spec.pure ⟨by simp [Vol.ptr_cons, h0], OnlyRbuf.refl ht⟩
  · next h0 =>
    refine (h.readWord ht 8 [] (by simp) h0 _).bind ?_
    rintro lv1 V₁ ⟨rfl, hV₁⟩
    split
    · next h0' => exact Spec.pure ⟨by rw [Vol.ptr_cons, if_pos h0'], hV₁⟩
    · next h0' =>
      have hvol := hV₁.ptr
      have h' : V₁.PtrsOk I := by rwa [hvol]
      have hr := h'.readWord hV₁.tidy 8 [(n - DIRECT_BLOCK_NUM - NBLOCK_LV1) / NBLOCK_LV1]
        (by simp) (by rwa [hvol]) ((n - DIRECT_BLOCK_NUM - NBLOCK_LV1) % NBLOCK_LV1)
      rw [hvol] at hr
      exact hr.mono fun p V₂ hp => ⟨hp.1, hV₁.trans hp.2⟩

/-! ### Giving blocks back -/

/-- Block `b` belongs to the tree of `I`, at a node that starts between `lo` and `hi`. -/
def Vol.Freed (V : Vol) (I : Inode) (lo hi b : ℕ) : Prop :=
  ∃ (k : Fin 10) (ws : List ℕ), ws.length ≤ (k : ℕ) - 6 ∧ lo ≤ firstId k ws ∧ firstId k ws < hi ∧ V.ptr I k ws = sec b

theorem firstId_direct {k : Fin 10} (h : k < 7) : firstId k [] = k := by
  simp [firstId, base, h]

theorem firstId_7 : firstId 7 [] = 7 := by decide

theorem firstId_7w (w : ℕ) : firstId 7 [w] = 7 + w := by
  simp [firstId, base, DIRECT_BLOCK_NUM]

theorem firstId_8 : firstId 8 [] = 1031 := by decide

theorem firstId_8w (w : ℕ) : firstId 8 [w] = 1031 + 1024 * w := by
  simp [firstId, base, DIRECT_BLOCK_NUM, NBLOCK_LV1]

theorem firstId_8ww (w₁ w₂ : ℕ) : firstId 8 [w₁, w₂] = 1031 + 1024 * w₂ + w₁ := by
  simp [firstId, base, DIRECT_BLOCK_NUM, NBLOCK_LV1, Nat.ofDigits_cons]
  omega

theorem firstId_9 (ws : List ℕ) : 1031 + 1048576 ≤ firstId 9 ws := by
  have : base 9 = 1031 + 1048576 := by decide
  rw [firstId, this]
  omega

/-- The shapes of paths. -/
theorem path_cases {k : Fin 10} {ws : List ℕ} (h : ws.length ≤ (k : ℕ) - 6) :
    (k < 7 ∧ ws = []) ∨ (k = 7 ∧ (ws = [] ∨ ∃ w, ws = [w])) ∨
      (k = 8 ∧ (ws = [] ∨ (∃ w, ws = [w]) ∨ ∃ w₁ w₂, ws = [w₁, w₂])) ∨ k = 9 := by
  have hall : ∀ k : Fin 10, k < 7 ∨ k = 7 ∨ k = 8 ∨ k = 9 := by decide
  obtain hk | rfl | rfl | rfl := hall k
  · left
    refine ⟨hk, List.length_eq_zero_iff.mp ?_⟩
    have : (k : ℕ) < 7 := hk
    omega
  · right; left
    match ws, h with
    | [], _ => exact ⟨rfl, Or.inl rfl⟩
    | [w], _ => exact ⟨rfl, Or.inr ⟨w, rfl⟩⟩
    | _ :: _ :: _, h => simp at h
  · right; right; left
    match ws, h with
    | [], _ => exact ⟨rfl, Or.inl rfl⟩
    | [w], _ => exact ⟨rfl, Or.inr (Or.inl ⟨w, rfl⟩)⟩
    | [w₁, w₂], _ => exact ⟨rfl, Or.inr (Or.inr ⟨w₁, w₂, rfl⟩)⟩
    | _ :: _ :: _ :: _, h => simp at h
  · exact Or.inr (Or.inr (Or.inr rfl))

/-- The nodes that start in a range below the triple indirect block. -/
theorem Vol.freed_iff {V : Vol} {lo hi b : ℕ} (hb : b < NUM_BLOCKS) (hhi : hi ≤ 1031 + 1048576) : V.Freed I lo hi b ↔
    (∃ k : Fin 10, k < 7 ∧ (lo ≤ k ∧ k < hi) ∧ I.blocks k = sec b) ∨ ((lo ≤ 7 ∧ 7 < hi) ∧ I.blocks 7 = sec b) ∨
      (∃ w < 128, (lo ≤ 7 + w ∧ 7 + w < hi) ∧ V.ptr I 7 [w] = sec b) ∨
      ((lo ≤ 1031 ∧ 1031 < hi) ∧ I.blocks 8 = sec b) ∨
      (∃ w < 128, (lo ≤ 1031 + 1024 * w ∧ 1031 + 1024 * w < hi) ∧ V.ptr I 8 [w] = sec b) ∨
      ∃ w₁ < 128, ∃ w₂ < 128, (lo ≤ 1031 + 1024 * w₂ + w₁ ∧ 1031 + 1024 * w₂ + w₁ < hi) ∧
      V.ptr I 8 [w₁, w₂] = sec b := by
  constructor
  · rintro ⟨k, ws, hl, hlo, hhi', hp⟩
    have hlt : ∀ w ∈ ws, w < 128 := Vol.lt_of_ptr_ne_zero (V := V) (I := I) (k := k) (by rw [hp]; exact sec_ne_zero hb)
    obtain ⟨hk, rfl⟩ | ⟨rfl, rfl | ⟨w, rfl⟩⟩ | ⟨rfl, rfl | ⟨w, rfl⟩ | ⟨w₁, w₂, rfl⟩⟩ | rfl := path_cases hl
    · rw [firstId_direct hk] at hlo hhi'
      exact Or.inl ⟨k, hk, ⟨hlo, hhi'⟩, hp⟩
    · rw [firstId_7] at hlo hhi'
      exact Or.inr (Or.inl ⟨⟨hlo, hhi'⟩, hp⟩)
    · rw [firstId_7w] at hlo hhi'
      exact Or.inr (Or.inr (Or.inl ⟨w, hlt w (by simp), ⟨hlo, hhi'⟩, hp⟩))
    · rw [firstId_8] at hlo hhi'
      exact Or.inr (Or.inr (Or.inr (Or.inl ⟨⟨hlo, hhi'⟩, hp⟩)))
    · rw [firstId_8w] at hlo hhi'
      exact Or.inr (Or.inr (Or.inr (Or.inr (Or.inl ⟨w, hlt w (by simp), ⟨hlo, hhi'⟩, hp⟩))))
    · rw [firstId_8ww] at hlo hhi'
      exact Or.inr (Or.inr (Or.inr (Or.inr (Or.inr ⟨w₁, hlt w₁ (by simp), w₂, hlt w₂ (by simp), ⟨hlo, hhi'⟩, hp⟩))))
    · have := firstId_9 ws
      omega
  · rintro (⟨k, hk, hr, hp⟩ | ⟨hr, hp⟩ | ⟨w, -, hr, hp⟩ | ⟨hr, hp⟩ | ⟨w, -, hr, hp⟩ | ⟨w₁, -, w₂, -, hr, hp⟩)
    · exact ⟨k, [], by simp, by rw [firstId_direct hk]; exact hr.1, by rw [firstId_direct hk]; exact hr.2, hp⟩
    · exact ⟨7, [], by simp, by rw [firstId_7]; exact hr.1, by rw [firstId_7]; exact hr.2, hp⟩
    · exact ⟨7, [w], by simp, by rw [firstId_7w]; exact hr.1, by rw [firstId_7w]; exact hr.2, hp⟩
    · exact ⟨8, [], by simp, by rw [firstId_8]; exact hr.1, by rw [firstId_8]; exact hr.2, hp⟩
    · exact ⟨8, [w], by simp, by rw [firstId_8w]; exact hr.1, by rw [firstId_8w]; exact hr.2, hp⟩
    · exact ⟨8, [w₁, w₂], by simp, by rw [firstId_8ww]; exact hr.1, by rw [firstId_8ww]; exact hr.2, hp⟩

/-- The blocks of `F` are given back; otherwise only `rdata_buffer` changes. -/
structure Frees (V V' : View) (F : ℕ → Prop) : Prop where
  tidy : V'.Tidy
  eq : ∃ m bm, V' = { V with bmap := bm, rbuf := m }
  bmap : ∀ b < NUM_BLOCKS, V'.bmap b = true ↔ V.bmap b = true ∧ ¬ F b
  mono : ∀ b, V'.bmap b = true → V.bmap b = true

namespace Frees

variable {V₁ V₂ V₃ : View} {F G : ℕ → Prop}

theorem trans (h : Frees V₁ V₂ F) (h' : Frees V₂ V₃ G) : Frees V₁ V₃ fun b => F b ∨ G b := by
  refine ⟨h'.tidy, ?_, fun b hb => ?_, fun b hm => h.mono b (h'.mono b hm)⟩
  · obtain ⟨m, bm, rfl⟩ := h.eq
    obtain ⟨m', bm', rfl⟩ := h'.eq
    exact ⟨m', bm', rfl⟩
  · rw [h'.bmap b hb, h.bmap b hb]
    tauto

theorem congr (h : Frees V₁ V₂ F) (hFG : ∀ b < NUM_BLOCKS, F b ↔ G b) : Frees V₁ V₂ G :=
  ⟨h.tidy, h.eq, fun b hb => by rw [h.bmap b hb, hFG b hb], h.mono⟩

theorem of_onlyRbuf (h : OnlyRbuf V₁ V₂) : Frees V₁ V₂ fun _ => False := by
  obtain ⟨ht, m, rfl⟩ := h
  exact ⟨ht, ⟨m, _, rfl⟩, fun b _ => by simp, fun _ => id⟩

theorem refl (ht : V₁.Tidy) : Frees V₁ V₁ fun _ => False := of_onlyRbuf (OnlyRbuf.refl ht)

/-- The tree of an inode does not change when blocks are given back. -/
theorem ptr_eq (h : Frees V₁ V₂ F) (k : Fin 10) (ws : List ℕ) : V₂.ptr I k ws = V₁.ptr I k ws := by
  obtain ⟨m, bm, rfl⟩ := h.eq
  induction ws with
  | nil => rfl
  | cons w ws ih => rw [Vol.ptr_cons, Vol.ptr_cons, ih]; rfl

theorem ptrsOk (h : Frees V₁ V₂ F) (hp : V₁.PtrsOk I) : V₂.PtrsOk I := by
  intro k ws hl
  rw [h.ptr_eq]
  exact hp k ws hl

end Frees

theorem freeIf_spec (ht : V.Tidy) {p : UInt32} (hp : p ≠ 0 → ∃ b < NUM_BLOCKS, p = sec b) (c : Prop) [Decidable c]
    (h0 : c → p ≠ 0) : Spec V (Fs.freeIf c p) fun _ V' => Frees V V' fun b => c ∧ p = sec b := by
  refine Spec.ifThen (fun hc => ?_) fun hc => (Frees.refl ht).congr fun b _ => by simp [hc]
  obtain ⟨b, hb, rfl⟩ := hp (h0 hc)
  rw [toNat_sec hb]
  refine (Does.free_block hb).spec ⟨⟨ht.dbuf, ht.rbuf⟩, ⟨V.rbuf, _, rfl⟩, fun c hc' => ?_, fun c hm => ?_⟩
  · simp only [Function.update_apply, hc, true_and]
    by_cases hcb : c = b
    · simp [hcb]
    · have : sec b ≠ sec c := fun e => hcb (sec_inj hb hc' e).symm
      simp [hcb, this]
  · simp only [Function.update_apply] at hm
    split at hm
    · cases hm
    · exact hm

theorem freeUnlessZero_spec (ht : V.Tidy) {p : UInt32} (hp : p ≠ 0 → ∃ b < NUM_BLOCKS, p = sec b) :
    Spec V (Fs.freeUnlessZero p) fun _ V' => Frees V V' fun b => p = sec b := by
  have h := freeIf_spec ht hp (p ≠ 0) id
  refine h.mono fun _ V' hF => hF.congr fun b hb => ⟨fun e => e.2, fun e => ⟨?_, e⟩⟩
  rw [e]
  exact sec_ne_zero hb

theorem constants : DIRECT_BLOCK_NUM = 7 ∧ NBLOCK_LV1 = 1024 ∧ NBLOCK_LV2 = 1048576 ∧ MAX_BLOCKS = 1048576 := by decide

section FreeStep

variable (h : V.PtrsOk I) (ht : V.Tidy) {i : ℕ}

include h ht

/-- An iteration at a direct block. -/
theorem freeStep_direct (hi : i < 7) :
    Spec V (Fs.freeStep I i) fun i' V' => i' ≤ i ∧ Frees V V' (V.Freed I i' (i + 1)) := by
  rw [Fs.freeStep, dif_pos (show i < DIRECT_BLOCK_NUM from hi)]
  refine (freeUnlessZero_spec ht (h _ [] (by simp))).bind fun _ V₁ h₁ => Spec.pure ⟨le_rfl, h₁.congr fun b hb => ?_⟩
  rw [Vol.freed_iff hb (by omega)]
  constructor
  · exact fun hp => Or.inl ⟨_, hi, ⟨le_rfl, Nat.lt_succ_self _⟩, hp⟩
  · rintro (⟨k, hk, hr, hp⟩ | ⟨hr, hp⟩ | ⟨w, -, hr, hp⟩ | ⟨hr, hp⟩ | ⟨w, -, hr, hp⟩ | ⟨w₁, -, w₂, -, hr, hp⟩)
    · have : k = ⟨i, by omega⟩ := Fin.ext (by simp; omega)
      rwa [this] at hp
    all_goals omega

/-- An iteration below the single indirect block. -/
theorem freeStep_single (hi : 7 ≤ i) (hi' : i < 1031) :
    Spec V (Fs.freeStep I i) fun i' V' => i' ≤ i ∧ Frees V V' (V.Freed I i' (i + 1)) := by
  obtain ⟨h7, h1024, -, -⟩ := constants
  rw [Fs.freeStep, dif_neg (by omega), if_pos (by omega), h7, h1024]
  dsimp only
  split
  · next h0 =>
    refine Spec.pure ⟨by omega, (Frees.refl ht).congr fun b hb => ?_⟩
    have hb0 := sec_ne_zero hb
    rw [Vol.freed_iff hb (by omega), false_iff]
    rintro (⟨k, hk, hr, hp⟩ | ⟨hr, hp⟩ | ⟨w, -, hr, hp⟩ | ⟨hr, hp⟩ | ⟨w, -, hr, hp⟩ | ⟨w₁, -, w₂, -, hr, hp⟩)
    · have : (k : ℕ) < 7 := hk
      omega
    · exact hb0 (hp.symm.trans h0)
    · rw [Vol.ptr_cons, Vol.ptr_nil, if_pos h0] at hp
      exact hb0 hp.symm
    all_goals omega
  · next h0 =>
    refine (h.readWord ht 7 [] (by simp) h0 _).bind ?_
    rintro data V₁ ⟨rfl, hV₁⟩
    have hF₁ := Frees.of_onlyRbuf hV₁
    refine (freeUnlessZero_spec hV₁.tidy (h 7 [_] (by simp))).bind fun _ V₂ hF₂ => ?_
    refine (freeIf_spec hF₂.tidy (h 7 [] (by simp)) _ fun _ => h0).bind fun _ V₃ hF₃ => Spec.pure ⟨le_rfl, ?_⟩
    refine ((hF₁.trans hF₂).trans hF₃).congr fun b hb => ?_
    rw [Vol.freed_iff hb (by omega)]
    constructor
    · rintro ((hp | hp) | ⟨hc, hp⟩)
      · exact absurd hp id
      · have hlt := Vol.lt_of_ptr_ne_zero (by rw [hp]; exact sec_ne_zero hb) (i - 7) (by simp)
        exact Or.inr (Or.inr (Or.inl ⟨i - 7, hlt, by omega, hp⟩))
      · exact Or.inr (Or.inl ⟨by omega, hp⟩)
    · rintro (⟨k, hk, hr, hp⟩ | ⟨hr, hp⟩ | ⟨w, -, hr, hp⟩ | ⟨hr, hp⟩ | ⟨w, -, hr, hp⟩ | ⟨w₁, -, w₂, -, hr, hp⟩)
      · have : (k : ℕ) < 7 := hk
        omega
      · exact Or.inr ⟨by omega, hp⟩
      · have : w = i - 7 := by omega
        rw [this] at hp
        exact Or.inl (Or.inr hp)
      all_goals omega

/-- An iteration below the double indirect block. -/
theorem freeStep_double (hi : 1031 ≤ i) (hi' : i < 1031 + 1048576) :
    Spec V (Fs.freeStep I i) fun i' V' => i' ≤ i ∧ Frees V V' (V.Freed I i' (i + 1)) := by
  obtain ⟨h7, h1024, h2, -⟩ := constants
  rw [Fs.freeStep, dif_neg (by omega), if_neg (by omega), if_pos (by omega), h7, h1024, h2]
  dsimp only
  have hidx : i - 7 - 1024 = i - 1031 := by omega
  rw [hidx]
  split
  · next h0 =>
    -- No double indirect block: the whole range is passed over.
    refine Spec.pure ⟨by omega, (Frees.refl ht).congr fun b hb => ?_⟩
    have hb0 := sec_ne_zero hb
    have h1 : ∀ w, V.ptr I 8 [w] = 0 := fun w => by rw [Vol.ptr_cons, Vol.ptr_nil, if_pos h0]
    rw [Vol.freed_iff hb (by omega), false_iff]
    rintro (⟨k, hk, hr, hp⟩ | ⟨hr, hp⟩ | ⟨w, hw, hr, hp⟩ | ⟨hr, hp⟩ | ⟨w, -, hr, hp⟩ | ⟨w₁, -, w₂, -, hr, hp⟩)
    · have : (k : ℕ) < 7 := hk
      omega
    · omega
    · omega
    · exact hb0 (hp.symm.trans h0)
    · exact hb0 (hp.symm.trans (h1 w))
    · rw [Vol.ptr_cons, if_pos (h1 w₂)] at hp
      exact hb0 hp.symm
  · next h0 =>
    refine (h.readWord ht 8 [] (by simp) h0 _).bind ?_
    rintro lv1 V₁ ⟨rfl, hV₁⟩
    have hF₁ := Frees.of_onlyRbuf hV₁
    split
    · next h1 =>
      -- No index block for this range of 1024: it is passed over.
      refine (freeIf_spec hF₁.tidy (h 8 [] (by simp)) _ fun _ => h0).bind fun _ V₂ hF₂ => Spec.pure ⟨by omega, ?_⟩
      refine (hF₁.trans hF₂).congr fun b hb => ?_
      have hb0 := sec_ne_zero hb
      rw [Vol.freed_iff hb (by omega)]
      constructor
      · rintro (hp | ⟨hc, hp⟩)
        · exact absurd hp id
        · exact Or.inr (Or.inr (Or.inr (Or.inl ⟨by omega, hp⟩)))
      · rintro (⟨k, hk, hr, hp⟩ | ⟨hr, hp⟩ | ⟨w, hw, hr, hp⟩ | ⟨hr, hp⟩ | ⟨w, -, hr, hp⟩ | ⟨w₁, hw₁, w₂, -, hr, hp⟩)
        · have : (k : ℕ) < 7 := hk
          omega
        · omega
        · omega
        · exact Or.inr ⟨by omega, hp⟩
        · have : w = (i - 1031) / 1024 := by omega
          rw [this, h1] at hp
          exact absurd hp.symm hb0
        · have : w₂ = (i - 1031) / 1024 := by omega
          rw [this, Vol.ptr_cons, if_pos h1] at hp
          exact absurd hp.symm hb0
    · next h1 =>
      have hok₁ := hF₁.ptrsOk h
      have hr := hok₁.readWord hF₁.tidy 8 [(i - 1031) / 1024] (by simp) (by rwa [hF₁.ptr_eq])
        ((i - 1031) % 1024)
      rw [hF₁.ptr_eq, hF₁.ptr_eq] at hr
      refine hr.bind ?_
      rintro data V₂ ⟨rfl, hV₂⟩
      have hF₂ := hF₁.trans (Frees.of_onlyRbuf hV₂)
      refine (freeUnlessZero_spec hF₂.tidy (h 8 [_, _] (by simp))).bind fun _ V₃ hF₃ => ?_
      refine (freeIf_spec hF₃.tidy (h 8 [_] (by simp)) _ fun _ => h1).bind fun _ V₄ hF₄ => ?_
      refine (freeIf_spec hF₄.tidy (h 8 [] (by simp)) _ fun _ => h0).bind fun _ V₅ hF₅ => Spec.pure ⟨le_rfl, ?_⟩
      refine (((hF₂.trans hF₃).trans hF₄).trans hF₅).congr fun b hb => ?_
      rw [Vol.freed_iff hb (by omega)]
      constructor
      · rintro ((((hp | hp) | hp) | ⟨hc, hp⟩) | ⟨hc, hp⟩)
        · exact absurd hp id
        · exact absurd hp id
        · have hlt := Vol.lt_of_ptr_ne_zero (by rw [hp]; exact sec_ne_zero hb)
          exact Or.inr (Or.inr (Or.inr (Or.inr (Or.inr
            ⟨(i - 1031) % 1024, hlt _ (by simp), (i - 1031) / 1024, hlt _ (by simp), by omega, hp⟩))))
        · have hlt := Vol.lt_of_ptr_ne_zero (by rw [hp]; exact sec_ne_zero hb)
          exact Or.inr (Or.inr (Or.inr (Or.inr (Or.inl ⟨(i - 1031) / 1024, hlt _ (by simp), by omega, hp⟩))))
        · exact Or.inr (Or.inr (Or.inr (Or.inl ⟨by omega, hp⟩)))
      · rintro (⟨k, hk, hr, hp⟩ | ⟨hr, hp⟩ | ⟨w, hw, hr, hp⟩ | ⟨hr, hp⟩ | ⟨w, -, hr, hp⟩ | ⟨w₁, hw₁, w₂, -, hr, hp⟩)
        · have : (k : ℕ) < 7 := hk
          omega
        · omega
        · omega
        · exact Or.inr ⟨by omega, hp⟩
        · have : w = (i - 1031) / 1024 := by omega
          rw [this] at hp
          exact Or.inl (Or.inr ⟨by omega, hp⟩)
        · have h₂ : w₂ = (i - 1031) / 1024 := by omega
          have h₁ : w₁ = (i - 1031) % 1024 := by omega
          rw [h₁, h₂] at hp
          exact Or.inl (Or.inl (Or.inr hp))

/-- One iteration of the loop of `free_inode` gives back the nodes that start where it passes. -/
theorem freeStep_spec (hi : i < MAX_BLOCKS) :
    Spec V (Fs.freeStep I i) fun i' V' => i' ≤ i ∧ Frees V V' (V.Freed I i' (i + 1)) := by
  have := constants
  by_cases h1 : i < 7
  · exact freeStep_direct h ht h1
  · by_cases h2 : i < 1031
    · exact freeStep_single h ht (by omega) h2
    · exact freeStep_double h ht (by omega) (by omega)

end FreeStep

/-- The loop of `free_inode`. -/
theorem freeLoop_spec {k : ℕ} (hk : k < 8) {n fuel : ℕ} (hf : n ≤ fuel) (hn : n ≤ MAX_BLOCKS) (h : V.PtrsOk (V.ibuf k))
    (ht : V.Tidy) : Spec V (Fs.freeLoop k fuel n) fun _ V' => Frees V V' (V.Freed (V.ibuf k) 0 n) := by
  induction fuel generalizing n V with
  | zero =>
    obtain rfl : n = 0 := by omega
    exact Spec.pure ((Frees.refl ht).congr fun b _ => by simp [Vol.Freed])
  | succ fuel ih =>
    cases n with
    | zero => exact Spec.pure ((Frees.refl ht).congr fun b _ => by simp [Vol.Freed])
    | succ i =>
      rw [Fs.freeLoop]
      refine (Does.inodeBuf hk).seq ?_
      refine (freeStep_spec h ht (by omega)).bind ?_
      rintro i' V₁ ⟨hi', hF₁⟩
      have hib : V₁.ibuf = V.ibuf := by
        obtain ⟨m, bm, rfl⟩ := hF₁.eq
        rfl
      have hok : V₁.PtrsOk (V₁.ibuf k) := hib ▸ hF₁.ptrsOk h
      refine (ih (n := i') (by omega) (by omega) hok hF₁.tidy).mono fun _ V₂ hF₂ => (hF₁.trans hF₂).congr fun b _ => ?_
      simp only [Vol.Freed, hib, hF₁.ptr_eq]
      -- A node is given back by this iteration or by the later ones.
      constructor
      · rintro (⟨k', ws, hl, hlo, hhi, hp⟩ | ⟨k', ws, hl, hlo, hhi, hp⟩)
        · exact ⟨k', ws, hl, by omega, hhi, hp⟩
        · exact ⟨k', ws, hl, hlo, by omega, hp⟩
      · rintro ⟨k', ws, hl, hlo, hhi, hp⟩
        by_cases hcut : i' ≤ firstId k' ws
        · exact Or.inl ⟨k', ws, hl, hcut, hhi, hp⟩
        · exact Or.inr ⟨k', ws, hl, hlo, by omega, hp⟩

/-- A volume without inode `i`, and with another block map. -/
def Vol.dropInode (V : Vol) (i : ℕ) (bm : ℕ → Bool) : Vol :=
  { V with imap := Function.update V.imap i false, inode := Function.update V.inode i Inode.zero, bmap := bm }

/-- Inode `i` is given back with the blocks below its size. -/
structure FreesInode (V V' : View) (i : ℕ) : Prop where
  tidy : V'.Tidy
  eq : V'.toVol = V.dropInode i V'.bmap
  bmap : ∀ b < NUM_BLOCKS, V'.bmap b = true ↔
    V.bmap b = true ∧ ¬ V.Freed (V.inode i) 0 (nblocks (V.inode i).size) b
  mono : ∀ b, V'.bmap b = true → V.bmap b = true

/-- `free_inode`. -/
theorem free_inode_spec {ino : UInt32} (hi : ino.toNat < NUM_INODES) (h : V.PtrsOk (V.inode ino.toNat)) (ht : V.Tidy) :
    Spec V (Fs.free_inode ino) fun _ V' => FreesInode V V' ino.toNat := by
  rw [Fs.free_inode, inodeidx2sector_eq hi, Fs.inodeidx2offset]
  generalize hino : ino.toNat = i at hi h ⊢
  have hk : i % 8 < 8 := by omega
  refine (Does.breadInode hi).seq ((Does.inodeBuf hk).seq ?_)
  dsimp only
  rw [Vol.loadInodes_mod]
  have hround : ((V.inode i).size.toNat + BLOCK_SIZE - 1) / BLOCK_SIZE * BLOCK_SIZE / BLOCK_SIZE =
      nblocks (V.inode i).size := by
    rw [nblocks, Nat.mul_div_cancel _ (by decide), show BLOCK_SIZE = 4096 from rfl]
    congr 1
  have hmax : nblocks (V.inode i).size ≤ MAX_BLOCKS := by
    have := (V.inode i).size.toNat_lt
    rw [nblocks, constants.2.2.2]
    omega
  rw [hround]
  have hload : V.loadInodes i (i % 8) = V.inode i := V.loadInodes_mod i
  refine (freeLoop_spec (V := { V with ibuf := V.loadInodes i }) hk le_rfl hmax (by dsimp only; rwa [hload])
    ⟨ht.dbuf, ht.rbuf⟩).bind fun _ V₁ hF => ?_
  obtain ⟨m, bm, rfl⟩ := hF.eq
  refine (Does.setInodeBuf hk _).seq ((Does.bwriteInode (by omega) hi).seq ?_)
  have hstore := View.storeInodes_update { V with bmap := bm, rbuf := m } i Inode.zero hi
  refine (Does.clearImap hi).spec ⟨⟨hF.tidy.dbuf, hF.tidy.rbuf⟩, ?_, fun b hb => ?_, hF.mono⟩
  · exact congrArg (fun f => { V.dropInode i bm with inode := f }) hstore
  · have := hF.bmap b hb
    dsimp only at this
    rw [hload] at this
    exact this

end OsLab
