import OsLab.Fs.Trees

/-!
# Giving an inode back with its tree

Over a device that moves whole blocks, `free_inode` passes downwards over the block numbers below the size of the
inode, skips sub-trees that are not there, and gives an index block back on its first slot. Every node of the
tree starts at some block number (`firstId`), and an iteration that goes on at `i'` gives back the nodes that
start between `i'` and the number it was at (`Whole.freeStep_goes`); so the loop gives back all nodes, and each of them
once (`Whole.freeLoop_goes`).

The calls of `free_block` are seen in the block maps that are written: one for each call (`unmarks`).
-/

namespace OsLab

open Lib ProgM Bytes

/-! ### Blocks given back one after the other -/

/-- The block map when the blocks of a list have been given back. -/
def unmark (m : ℕ → Bool) (L : List ℕ) : ℕ → Bool := L.foldl (fun m b => Function.update m b false) m

/-- The block maps that are written when the blocks of a list are given back, one after the other. -/
def unmarks (m : ℕ → Bool) : List ℕ → List (ℕ → Bool)
  | [] => []
  | b :: L => Function.update m b false :: unmarks (Function.update m b false) L

theorem unmark_append (m : ℕ → Bool) (L L' : List ℕ) : unmark m (L ++ L') = unmark (unmark m L) L' := List.foldl_append

theorem unmarks_append (m : ℕ → Bool) (L L' : List ℕ) :
    unmarks m (L ++ L') = unmarks m L ++ unmarks (unmark m L) L' := by
  induction L generalizing m with
  | nil => rfl
  | cons b L ih =>
    show _ :: unmarks _ (L ++ L') = _ :: (_ ++ _)
    rw [ih]
    rfl

theorem unmark_apply (m : ℕ → Bool) (L : List ℕ) (b : ℕ) : unmark m L b = (m b && !decide (b ∈ L)) := by
  induction L generalizing m with
  | nil => simp [unmark]
  | cons c L ih =>
    show unmark (Function.update m c false) L b = _
    rw [ih, Function.update_apply]
    by_cases hb : b = c <;> simp [hb]

namespace Whole

variable {V V' : Whole} {I : Inode} {k : Fin 10} {ws : List ℕ}

/-- The blocks of a list are given back, one after the other; otherwise only `rdata_buffer` changes. -/
def Frees (V V' : Whole) (L : List ℕ) : Prop :=
  V' = { V with bmap := unmark V.bmap L, maps := V.maps ++ unmarks V.bmap L, rbuf := V'.rbuf }

theorem Frees.refl (V : Whole) : V.Frees V [] := by
  rw [Frees, unmark, unmarks, List.append_nil]
  rfl

theorem Frees.of_onlyRead (h : OnlyRead V V') : V.Frees V' [] := by
  rw [Frees, unmark, unmarks, List.append_nil]
  exact h

theorem Frees.trans {V₁ V₂ V₃ : Whole} {L L' : List ℕ} (h : V₁.Frees V₂ L) (h' : V₂.Frees V₃ L') :
    V₁.Frees V₃ (L ++ L') := by
  rw [Frees] at h h' ⊢
  rw [h', h]
  dsimp only
  rw [unmark_append, unmarks_append, List.append_assoc]

theorem Frees.forest {L : List ℕ} (h : V.Frees V' L) (I : Inode) : V'.forest I = V.forest I := by
  rw [Frees] at h
  rw [h]
  rfl

theorem Frees.points {L : List ℕ} (h : V.Frees V' L) (hp : V.Points I) : V'.Points I := by
  intro k ws p hl hf
  rw [h.forest] at hf
  exact hp k ws p hl hf

/-- The block at a node. -/
def blockAt (V : Whole) (I : Inode) (nd : Fin 10 × List ℕ) : ℕ := blockOf (((V.forest I).follow nd.1 nd.2).getD 0)

theorem Points.blockAt (h : V.Points I) {p : UInt32}
    (hl : ws.length ≤ height k) (hf : (V.forest I).follow k ws = some p) :
    V.blockAt I (k, ws) < NUM_BLOCKS ∧ p = sec (V.blockAt I (k, ws)) := by
  obtain ⟨b, hb, rfl⟩ := h _ _ _ hl hf
  rw [Whole.blockAt, hf, Option.getD_some, blockOf_sec hb]
  exact ⟨hb, rfl⟩

theorem Frees.blockAt {L : List ℕ} (h : V.Frees V' L) (nd : Fin 10 × List ℕ) : V'.blockAt I nd = V.blockAt I nd := by
  rw [Whole.blockAt, h.forest, Whole.blockAt]

/-- The nodes of a list are given back. -/
def FreesNodes (V V' : Whole) (I : Inode) (L : List (Fin 10 × List ℕ)) : Prop := V.Frees V' (L.map (V.blockAt I))

theorem FreesNodes.trans {V₁ V₂ V₃ : Whole} {L L' : List (Fin 10 × List ℕ)}
    (h : V₁.FreesNodes V₂ I L) (h' : V₂.FreesNodes V₃ I L') :
    V₁.FreesNodes V₃ I (L ++ L') := by
  have hL : L'.map (V₂.blockAt I) = L'.map (V₁.blockAt I) := List.map_congr_left fun nd _ => Frees.blockAt h nd
  rw [FreesNodes, hL] at h'
  rw [FreesNodes, List.map_append]
  exact Frees.trans h h'

/-- A node that may be given back. -/
def nodeIf (c : Prop) [Decidable c] (nd : Fin 10 × List ℕ) : List (Fin 10 × List ℕ) := if c then [nd] else []

theorem mem_nodeIf {c : Prop} [Decidable c] {nd nd' : Fin 10 × List ℕ} : nd' ∈ nodeIf c nd ↔ c ∧ nd' = nd := by
  unfold nodeIf
  split
  · next hc => simp [hc]
  · next hc => simp [hc]

theorem nodup_nodeIf (c : Prop) [Decidable c] (nd : Fin 10 × List ℕ) : (nodeIf c nd).Nodup := by
  unfold nodeIf
  split <;> simp

theorem nodup_append_nodeIf {L : List (Fin 10 × List ℕ)} (hL : L.Nodup)
    {c : Prop} [Decidable c] {nd : Fin 10 × List ℕ} (h : nd ∉ L) :
    (L ++ nodeIf c nd).Nodup := by
  refine hL.append (nodup_nodeIf c nd) fun nd' h₁ h₂ => ?_
  rw [(mem_nodeIf.mp h₂).2] at h₁
  exact h h₁

theorem freeIf_goes (h : V.Points I) (c : Prop) [Decidable c] {p : UInt32} (hl : ws.length ≤ height k)
    (hf : c → (V.forest I).follow k ws = some p) :
    Goes V (Fs.freeIf c p) fun _ V' => V.FreesNodes V' I (nodeIf c (k, ws)) := by
  refine Goes.ifThen (fun hc => ?_) fun hc => ?_
  · obtain ⟨hb, he⟩ := h.blockAt hl (hf hc)
    rw [he, toNat_sec hb]
    refine (Goes.free_block hb).mono ?_
    rintro _ _ ⟨-, rfl⟩
    rw [FreesNodes, Frees, nodeIf, if_pos hc]
    rfl
  · rw [FreesNodes, nodeIf, if_neg hc]
    exact Frees.refl V

theorem freeUnlessZero_goes (h : V.Points I) {p : UInt32}
    (hl : ws.length ≤ height k) (hf : nz p = (V.forest I).follow k ws) :
    Goes V (Fs.freeUnlessZero p) fun _ V' => V.FreesNodes V' I (nodeIf ((V.forest I).follow k ws ≠ none) (k, ws)) := by
  refine (freeIf_goes h (p ≠ 0) hl fun h0 => hf.symm.trans (nz_of_ne h0)).mono fun _ V' hF => ?_
  have hc : (p ≠ 0) = ((V.forest I).follow k ws ≠ none) := by rw [← hf, Ne, Ne, nz_eq_none]
  simpa only [hc] using hF

/-! ### The loop of `free_inode` -/

/-- The list has the nodes that start between `lo` and `hi`, each of them once. -/
structure NodesIn (V : Whole) (I : Inode) (lo hi : ℕ) (L : List (Fin 10 × List ℕ)) : Prop where
  nodup : L.Nodup
  mem_iff : ∀ k ws, (k, ws) ∈ L ↔ (lo ≤ firstId k ws ∧ firstId k ws < hi) ∧
    ws.length ≤ height k ∧ (V.forest I).follow k ws ≠ none

theorem lt_of_follow {w : ℕ} (h : (V.forest I).follow k (w :: ws) ≠ none) : w < 1024 := by
  by_contra hw
  apply h
  rw [Forest.follow_cons]
  cases (V.forest I).follow k ws with
  | none => rfl
  | some p =>
    rw [Option.bind_some, forest]
    exact if_neg hw

theorem follow_tail {w : ℕ} (h : (V.forest I).follow k (w :: ws) ≠ none) : (V.forest I).follow k ws ≠ none :=
  fun hn => h (follow_cons_none hn w)

/-- The nodes that start below the triple indirect block, by their shape. -/
theorem node_cases (hl : ws.length ≤ height k)
    (hid : firstId k ws < 1031 + 1048576) (hf : (V.forest I).follow k ws ≠ none) :
    (k < 7 ∧ ws = [] ∧ firstId k ws = k) ∨ (k = 7 ∧ ws = [] ∧ firstId k ws = 7) ∨
      (∃ w < 1024, k = 7 ∧ ws = [w] ∧ firstId k ws = 7 + w) ∨ (k = 8 ∧ ws = [] ∧ firstId k ws = 1031) ∨
      (∃ w < 1024, k = 8 ∧ ws = [w] ∧ firstId k ws = 1031 + 1024 * w) ∨
      ∃ w₁ < 1024, ∃ w₂ < 1024, k = 8 ∧ ws = [w₁, w₂] ∧ firstId k ws = 1031 + 1024 * w₂ + w₁ := by
  obtain ⟨hk, rfl⟩ | ⟨rfl, rfl | ⟨w, rfl⟩⟩ | ⟨rfl, rfl | ⟨w, rfl⟩ | ⟨w₁, w₂, rfl⟩⟩ | rfl := path_cases hl
  · exact Or.inl ⟨hk, rfl, firstId_direct hk⟩
  · exact Or.inr (Or.inl ⟨rfl, rfl, firstId_7⟩)
  · exact Or.inr (Or.inr (Or.inl ⟨w, lt_of_follow hf, rfl, rfl, firstId_7w w⟩))
  · exact Or.inr (Or.inr (Or.inr (Or.inl ⟨rfl, rfl, firstId_8⟩)))
  · exact Or.inr (Or.inr (Or.inr (Or.inr (Or.inl ⟨w, lt_of_follow hf, rfl, rfl, firstId_8w w⟩))))
  · exact Or.inr
      (Or.inr (Or.inr
        (Or.inr (Or.inr ⟨w₁, lt_of_follow hf, w₂,
          lt_of_follow (follow_tail hf), rfl, rfl, firstId_8ww w₁ w₂⟩))))
  · have := firstId_9 ws
    omega

theorem NodesIn.nil {lo hi : ℕ}
    (h : ∀ k ws, ws.length ≤ height k → lo ≤ firstId k ws →
      firstId k ws < hi → (V.forest I).follow k ws = none) :
    NodesIn V I lo hi [] := by
  refine ⟨List.nodup_nil, fun k ws => ?_⟩
  rw [iff_false_left List.not_mem_nil]
  rintro ⟨⟨hlo, hhi⟩, hl, hf⟩
  exact hf (h k ws hl hlo hhi)

section FreeStep

variable (h : V.Points I) {i : ℕ}

include h

/-- An iteration at a direct block. -/
theorem freeStep_direct (hi : i < 7) :
    Goes V (Fs.freeStep I i) fun i' V' => i' ≤ i ∧ ∃ L, NodesIn V I i' (i + 1) L ∧ V.FreesNodes V' I L := by
  rw [Fs.freeStep, dif_pos (show i < DIRECT_BLOCK_NUM from hi)]
  have hlen : ([] : List ℕ).length ≤ height ⟨i, by omega⟩ := Nat.zero_le _
  refine (freeUnlessZero_goes h hlen rfl).bind fun _ V₁ h₁ =>
    Goes.pure ⟨le_rfl, _, ⟨nodup_nodeIf _ _, fun k ws => ?_⟩, h₁⟩
  rw [mem_nodeIf, Prod.mk.injEq]
  constructor
  · rintro ⟨hf, rfl, rfl⟩
    rw [firstId_direct (Fin.lt_def.mpr hi)]
    exact ⟨⟨le_rfl, Nat.lt_succ_self _⟩, Nat.zero_le _, hf⟩
  · rintro ⟨⟨hlo, hhi⟩, hl, hf⟩
    obtain ⟨hk, rfl, he⟩ | ⟨rfl, rfl, he⟩ | ⟨w, -, rfl, rfl, he⟩ | ⟨rfl,
        rfl, he⟩ | ⟨w, -, rfl, rfl, he⟩ | ⟨w₁, -, w₂, -, rfl, rfl, he⟩ :=
      node_cases hl (by omega) hf
    · obtain rfl : i = k := by omega
      exact ⟨hf, rfl, rfl⟩
    all_goals omega

/-- An iteration below the single indirect block. -/
theorem freeStep_single (hi : 7 ≤ i) (hi' : i < 1031) :
    Goes V (Fs.freeStep I i) fun i' V' => i' ≤ i ∧ ∃ L, NodesIn V I i' (i + 1) L ∧ V.FreesNodes V' I L := by
  obtain ⟨c0, c1, c2, -⟩ := levels
  rw [Fs.freeStep, dif_neg (by omega), if_pos (by omega), c0, c1]
  dsimp only
  split
  · next h0 =>
    -- No index block: the whole range is passed over.
    have hnone : (V.forest I).follow 7 [] = none := nz_eq_none.mpr h0
    refine Goes.pure ⟨by omega, [], NodesIn.nil fun k ws hl hlo hhi => ?_, Frees.refl V⟩
    by_contra hf
    obtain ⟨hk, rfl, he⟩ | ⟨rfl, rfl, he⟩ | ⟨w, -, rfl, rfl, he⟩ | ⟨rfl,
        rfl, he⟩ | ⟨w, -, rfl, rfl, he⟩ | ⟨w₁, -, w₂, -, rfl, rfl, he⟩ :=
      node_cases hl (by omega) hf
    · have : (k : ℕ) < 7 := hk
      omega
    · exact hf hnone
    · exact hf (follow_cons_none hnone w)
    all_goals omega
  · next h0 =>
    have hroot : (V.forest I).follow 7 [] = some (I.blocks 7) := nz_of_ne h0
    refine (h.readWord (by simp) hroot (show i - 7 < 1024 by omega)).bind ?_
    rintro data V₁ ⟨hdata, hV₁⟩
    have hF₁ := Frees.of_onlyRead hV₁
    rw [← hF₁.forest] at hdata
    have hstep := freeUnlessZero_goes (hF₁.points h) (by simp [height]) hdata
    rw [hF₁.forest] at hstep
    refine hstep.bind fun _ V₂ hF₂ => ?_
    have hF₁₂ := FreesNodes.trans (L := []) hF₁ hF₂
    have hroot₂ := hroot
    rw [← Frees.forest hF₁₂] at hroot₂
    refine (freeIf_goes (Frees.points hF₁₂ h) _ (by simp) fun _ => hroot₂).bind fun _ V₃ hF₃ =>
      Goes.pure ⟨le_rfl, _, ⟨?_, fun k ws => ?_⟩, hF₁₂.trans hF₃⟩
    · exact nodup_append_nodeIf (nodup_nodeIf _ _) (by simp [mem_nodeIf])
    · simp only [List.nil_append, List.mem_append, mem_nodeIf, Prod.mk.injEq]
      constructor
      · rintro (⟨hf, rfl, rfl⟩ | ⟨hc, rfl, rfl⟩)
        · rw [firstId_7w]
          exact ⟨by omega, by simp [height], hf⟩
        · rw [firstId_7, hroot]
          exact ⟨by omega, by simp, by simp⟩
      · rintro ⟨⟨hlo, hhi⟩, hl, hf⟩
        obtain ⟨hk, rfl, he⟩ | ⟨rfl, rfl, he⟩ | ⟨w, -, rfl, rfl, he⟩ | ⟨rfl,
            rfl, he⟩ | ⟨w, -, rfl, rfl, he⟩ | ⟨w₁, -, w₂, -, rfl, rfl, he⟩ :=
          node_cases hl (by omega) hf
        · have : (k : ℕ) < 7 := hk
          omega
        · exact Or.inr ⟨by omega, rfl, rfl⟩
        · obtain rfl : w = i - 7 := by omega
          exact Or.inl ⟨hf, rfl, rfl⟩
        all_goals omega

/-- An iteration below the double indirect block. -/
theorem freeStep_double (hi : 1031 ≤ i) (hi' : i < 1031 + 1048576) :
    Goes V (Fs.freeStep I i) fun i' V' => i' ≤ i ∧ ∃ L, NodesIn V I i' (i + 1) L ∧ V.FreesNodes V' I L := by
  obtain ⟨c0, c1, c2, -⟩ := levels
  rw [Fs.freeStep, dif_neg (by omega), if_neg (by omega), if_pos (by omega), c0, c1, c2]
  dsimp only
  have hidx : i - 7 - 1024 = i - 1031 := by omega
  rw [hidx]
  split
  · next h0 =>
    -- No double indirect block: the whole range is passed over.
    have hnone : (V.forest I).follow 8 [] = none := nz_eq_none.mpr h0
    refine Goes.pure ⟨by omega, [], NodesIn.nil fun k ws hl hlo hhi => ?_, Frees.refl V⟩
    by_contra hf
    obtain ⟨hk, rfl, he⟩ | ⟨rfl, rfl, he⟩ | ⟨w, hw, rfl, rfl, he⟩ | ⟨rfl,
        rfl, he⟩ | ⟨w, -, rfl, rfl, he⟩ | ⟨w₁, -, w₂, -, rfl, rfl, he⟩ :=
      node_cases hl (by omega) hf
    · have : (k : ℕ) < 7 := hk
      omega
    · omega
    · omega
    · exact hf hnone
    · exact hf (follow_cons_none hnone w)
    · exact hf (follow_cons_none (follow_cons_none hnone w₂) w₁)
  · next h0 =>
    have hroot : (V.forest I).follow 8 [] = some (I.blocks 8) := nz_of_ne h0
    have hdiv : (i - 1031) / 1024 < 1024 := by omega
    have hmod : (i - 1031) % 1024 < 1024 := by omega
    have hidiv : 1031 + 1024 * ((i - 1031) / 1024) + (i - 1031) % 1024 = i := by omega
    generalize hq : (i - 1031) / 1024 = q at hdiv hidiv
    generalize hr : (i - 1031) % 1024 = r at hmod hidiv
    refine (h.readWord (by simp) hroot hdiv).bind ?_
    rintro lv1 V₁ ⟨hlv1, hV₁⟩
    have hF₁ := Frees.of_onlyRead hV₁
    have hroot₁ := hroot
    rw [← hF₁.forest] at hroot₁
    split
    · next h1 =>
      -- No index block for this range of 1024: it is passed over.
      have hnone : (V.forest I).follow 8 [q] = none := by rw [← hlv1, h1, nz_zero]
      refine (freeIf_goes (hF₁.points h) _ (by simp) fun _ => hroot₁).bind fun _ V₂ hF₂ =>
        Goes.pure ⟨by omega, _, ⟨nodup_nodeIf _ _, fun k ws => ?_⟩, FreesNodes.trans (L := []) hF₁ hF₂⟩
      rw [mem_nodeIf, Prod.mk.injEq]
      constructor
      · rintro ⟨hc, rfl, rfl⟩
        rw [firstId_8, hroot]
        exact ⟨by omega, by simp, by simp⟩
      · rintro ⟨⟨hlo, hhi⟩, hl, hf⟩
        obtain ⟨hk, rfl, he⟩ | ⟨rfl, rfl, he⟩ | ⟨w, hw, rfl, rfl, he⟩ | ⟨rfl,
            rfl, he⟩ | ⟨w, -, rfl, rfl, he⟩ | ⟨w₁, hw₁, w₂, -, rfl, rfl, he⟩ :=
          node_cases hl (by omega) hf
        · have : (k : ℕ) < 7 := hk
          omega
        · omega
        · omega
        · exact ⟨by omega, rfl, rfl⟩
        · obtain rfl : w = q := by omega
          exact absurd hnone hf
        · obtain rfl : w₂ = q := by omega
          exact absurd (follow_cons_none hnone w₁) hf
    · next h1 =>
      have hlv1' : (V.forest I).follow 8 [q] = some lv1 := by rw [← hlv1, nz_of_ne h1]
      have hlv1₁ := hlv1'
      rw [← hF₁.forest] at hlv1₁
      refine ((hF₁.points h).readWord (by simp [height]) hlv1₁ hmod).bind ?_
      rintro data V₂ ⟨hdata, hV₂⟩
      have hF₂ := Frees.of_onlyRead (hV₁.trans hV₂)
      rw [hF₁.forest, ← hF₂.forest] at hdata
      have hstep := freeUnlessZero_goes (hF₂.points h) (by simp [height]) hdata
      rw [hF₂.forest] at hstep
      refine hstep.bind fun _ V₃ hF₃ => ?_
      have hF₃ := FreesNodes.trans (L := []) hF₂ hF₃
      have hlv1₃ := hlv1'
      rw [← Frees.forest hF₃] at hlv1₃
      refine (freeIf_goes (Frees.points hF₃ h) _ (by simp [height]) fun _ => hlv1₃).bind fun _ V₄ hF₄ => ?_
      have hF₄ := hF₃.trans hF₄
      have hroot₄ := hroot
      rw [← Frees.forest hF₄] at hroot₄
      refine (freeIf_goes (Frees.points hF₄ h) _ (by simp) fun _ => hroot₄).bind fun _ V₅ hF₅ =>
        Goes.pure ⟨le_rfl, _, ⟨?_, fun k ws => ?_⟩, hF₄.trans hF₅⟩
      · exact nodup_append_nodeIf (nodup_append_nodeIf (nodup_nodeIf _ _) (by simp [mem_nodeIf])) (by simp [mem_nodeIf])
      · simp only [List.nil_append, List.mem_append, mem_nodeIf, Prod.mk.injEq]
        constructor
        · rintro ((⟨hf, rfl, rfl⟩ | ⟨hc, rfl, rfl⟩) | ⟨hc, rfl, rfl⟩)
          · rw [firstId_8ww]
            exact ⟨by omega, by simp [height], hf⟩
          · rw [firstId_8w, hlv1']
            exact ⟨by omega, by simp [height], by simp⟩
          · rw [firstId_8, hroot]
            exact ⟨by omega, by simp, by simp⟩
        · rintro ⟨⟨hlo, hhi⟩, hl, hf⟩
          obtain ⟨hk, rfl, he⟩ | ⟨rfl, rfl, he⟩ | ⟨w, hw, rfl, rfl, he⟩ | ⟨rfl,
              rfl, he⟩ | ⟨w, -, rfl, rfl, he⟩ | ⟨w₁, hw₁, w₂, -, rfl, rfl, he⟩ :=
            node_cases hl (by omega) hf
          · have : (k : ℕ) < 7 := hk
            omega
          · omega
          · omega
          · exact Or.inr ⟨by omega, rfl, rfl⟩
          · obtain rfl : w = q := by omega
            exact Or.inl (Or.inr ⟨by omega, rfl, rfl⟩)
          · obtain rfl : w₂ = q := by omega
            obtain rfl : w₁ = r := by omega
            exact Or.inl (Or.inl ⟨hf, rfl, rfl⟩)

/-- One iteration of the loop of `free_inode` gives back the nodes that start where it passes. -/
theorem freeStep_goes (hi : i < 1031 + 1048576) :
    Goes V (Fs.freeStep I i) fun i' V' => i' ≤ i ∧ ∃ L, NodesIn V I i' (i + 1) L ∧ V.FreesNodes V' I L := by
  by_cases h1 : i < 7
  · exact freeStep_direct h h1
  · by_cases h2 : i < 1031
    · exact freeStep_single h (by omega) h2
    · exact freeStep_double h (by omega) hi

end FreeStep

theorem NodesIn.append {lo mid hi : ℕ} {L L' : List (Fin 10 × List ℕ)}
    (h : NodesIn V I mid hi L) (h' : NodesIn V I lo mid L')
    (hlo : lo ≤ mid) (hhi : mid ≤ hi) : NodesIn V I lo hi (L ++ L') := by
  refine ⟨h.nodup.append h'.nodup ?_, fun k ws => ?_⟩
  · rintro ⟨k, ws⟩ h₁ h₂
    have := ((h.mem_iff k ws).mp h₁).1
    have := ((h'.mem_iff k ws).mp h₂).1
    omega
  · rw [List.mem_append, h.mem_iff, h'.mem_iff, ← or_and_right]
    apply and_congr_left
    intro
    omega

/-- The loop of `free_inode` gives back the nodes that start below `n`. -/
theorem freeLoop_goes {i n fuel : ℕ} (hi : i < 8) (hf : n ≤ fuel) (hn : n ≤ 1031 + 1048576) (h : V.Points (V.ibuf i)) :
    Goes V (Fs.freeLoop i fuel n) fun _ V' => ∃ L, NodesIn V (V.ibuf i) 0 n L ∧ V.FreesNodes V' (V.ibuf i) L := by
  induction fuel generalizing n V with
  | zero =>
    obtain rfl : n = 0 := by omega
    exact Goes.pure ⟨[], NodesIn.nil fun _ _ _ _ h0 => absurd h0 (Nat.not_lt_zero _), Frees.refl V⟩
  | succ fuel ih =>
    cases n with
    | zero => exact Goes.pure ⟨[], NodesIn.nil fun _ _ _ _ h0 => absurd h0 (Nat.not_lt_zero _), Frees.refl V⟩
    | succ j =>
      rw [Fs.freeLoop]
      refine (Goes.inodeBuf hi).seq ((freeStep_goes h (by omega)).bind ?_)
      rintro j' V₁ ⟨hj', L, hL, hF⟩
      have hbuf : V₁.ibuf = V.ibuf := by
        rw [FreesNodes, Frees] at hF
        rw [hF]
      have hforest : V₁.forest (V.ibuf i) = V.forest (V.ibuf i) := Frees.forest hF _
      have hstep := ih (n := j') (V := V₁) (by omega) (by omega) (by rw [hbuf]; exact Frees.points hF h)
      rw [hbuf] at hstep
      refine hstep.mono ?_
      rintro _ V₂ ⟨L', hL', hF'⟩
      have hL' : NodesIn V (V.ibuf i) 0 j' L' := ⟨hL'.nodup, fun k ws => by rw [hL'.mem_iff, hforest]⟩
      exact ⟨L ++ L', hL.append hL' (Nat.zero_le _) (by omega), hF.trans hF'⟩

/-- `free_inode`. -/
theorem free_inode_goes {ino : UInt32} (hi : ino.toNat < NUM_INODES) (h : V.Points (V.inode ino.toNat)) :
    Goes V (Fs.free_inode ino) fun _ V' => ∃ L, NodesIn V (V.inode ino.toNat) 0 (nblocks (V.inode ino.toNat).size) L ∧
      V' = { V with
        imap := Function.update V.imap ino.toNat false, inode := Function.update V.inode ino.toNat Inode.zero,
        bmap := unmark V.bmap (L.map (V.blockAt (V.inode ino.toNat))),
        maps := V.maps ++ unmarks V.bmap (L.map (V.blockAt (V.inode ino.toNat))),
        ibuf := V'.ibuf, rbuf := V'.rbuf } := by
  rw [Fs.free_inode, inodeidx2sector_eq hi, Fs.inodeidx2offset]
  generalize hino : ino.toNat = i at hi h ⊢
  have hk : i % 8 < 8 := by omega
  refine (Goes.breadInode hi).seq ((Goes.inodeBuf hk).seq ?_)
  dsimp only
  rw [Whole.loadInodes_mod]
  have hround : ((V.inode i).size.toNat + BLOCK_SIZE - 1) / BLOCK_SIZE * BLOCK_SIZE / BLOCK_SIZE =
      nblocks (V.inode i).size := by
    rw [nblocks, Nat.mul_div_cancel _ (by decide), show BLOCK_SIZE = 4096 from rfl]
    congr 1
  have hmax : nblocks (V.inode i).size ≤ 1031 + 1048576 := by
    have := (V.inode i).size.toNat_lt
    rw [nblocks]
    omega
  rw [hround]
  have hload : V.loadInodes i (i % 8) = V.inode i := V.loadInodes_mod i
  have hloop := freeLoop_goes (V := { V with ibuf := V.loadInodes i }) hk le_rfl hmax (by dsimp only; rwa [hload])
  dsimp only at hloop
  rw [hload] at hloop
  refine hloop.bind ?_
  rintro _ V₁ ⟨L, hL, hF⟩
  rw [FreesNodes, Frees] at hF
  dsimp only at hF
  rw [hF]
  refine (Goes.setInodeBuf hk _).seq ((Goes.bwriteInode hi).seq ((Goes.clearImap hi).mono ?_))
  rintro _ _ ⟨-, rfl⟩
  refine ⟨L, ⟨hL.nodup, hL.mem_iff⟩, ?_⟩
  have hstore := Whole.storeInodes_update V i Inode.zero hi
  exact congrArg (fun f => { V with
    imap := Function.update V.imap i false, inode := f,
    bmap := unmark V.bmap (L.map (V.blockAt (V.inode i))),
    maps := V.maps ++ unmarks V.bmap (L.map (V.blockAt (V.inode i))),
    ibuf := Function.update (V.loadInodes i) (i % 8) Inode.zero, rbuf := V₁.rbuf }) hstore

/-! ### An inode that is given back whole -/

/-- The blocks of the inode are distinct, its mapped blocks are below its size, and there is no index block
that none of them needs. -/
structure Filled (V : Whole) (I : Inode) : Prop where
  points : V.Points I
  distinct : Forest.Unshared height (V.forest I)
  below : ∀ n < TREE_BLOCKS, (V.forest I).follow (pathOf n).1 (pathOf n).2 ≠ none → n < nblocks I.size
  needed : ∀ k ws, ws.length < height k → (V.forest I).follow k ws ≠ none →
    ∃ n < TREE_BLOCKS, (V.forest I).follow (pathOf n).1 (pathOf n).2 ≠ none ∧ (pathOf n).1 = k ∧ ws <:+ (pathOf n).2

/-- The words of a path that leads somewhere are words of a block. -/
theorem lt_of_mem_follow (h : (V.forest I).follow k ws ≠ none) : ∀ w ∈ ws, w < 1024 := by
  induction ws with
  | nil => simp
  | cons w ws ih =>
    rw [List.forall_mem_cons]
    exact ⟨lt_of_follow h, ih (follow_tail h)⟩

/-- The nodes of an inode start below its size. -/
theorem Filled.firstId_lt (h : V.Filled I) (hl : ws.length ≤ height k) (hf : (V.forest I).follow k ws ≠ none) :
    firstId k ws < nblocks I.size := by
  rcases hl.lt_or_eq with hlt | heq
  · obtain ⟨n, hn, hfn, rfl, hs⟩ := h.needed k ws hlt hf
    refine Nat.lt_of_le_of_lt ?_ (h.below n hn hfn)
    calc firstId (pathOf n).1 ws ≤ firstId (pathOf n).1 (pathOf n).2 := firstId_le_of_suffix hs (length_pathOf n).le
      _ = n := firstId_pathOf n
  · obtain ⟨hlt, hp⟩ := pathOf_firstId heq (lt_of_mem_follow hf)
    exact h.below _ hlt (by rwa [hp])

end Whole

/-- The block belongs to the inode. -/
def BlockOf (V : Whole) (I : Inode) (b : ℕ) : Prop := b < NUM_BLOCKS ∧ Forest.Live height (V.forest I) (sec b)

/-- The nodes of an inode are its blocks. -/
theorem Whole.Filled.blocks {V : Whole} {I : Inode} (h : V.Filled I)
    {L : List (Fin 10 × List ℕ)} (hL : V.NodesIn I 0 (nblocks I.size) L) :
    (L.map (V.blockAt I)).Nodup ∧ ∀ b, b ∈ L.map (V.blockAt I) ↔ BlockOf V I b := by
  have hmem {nd : Fin 10 × List ℕ} (hnd : nd ∈ L) : nd.2.length ≤ height nd.1 ∧ V.blockAt I nd < NUM_BLOCKS ∧
      (V.forest I).follow nd.1 nd.2 = some (sec (V.blockAt I nd)) := by
    obtain ⟨-, hl, hf⟩ := (hL.mem_iff nd.1 nd.2).mp hnd
    obtain ⟨p, hp⟩ := Option.ne_none_iff_exists'.mp hf
    obtain ⟨hb, rfl⟩ := h.points.blockAt hl hp
    exact ⟨hl, hb, hp⟩
  constructor
  · refine List.Nodup.map_on (fun nd hnd nd' hnd' e => ?_) hL.nodup
    obtain ⟨hl, -, hf⟩ := hmem hnd
    obtain ⟨hl', -, hf'⟩ := hmem hnd'
    rw [← e] at hf'
    obtain ⟨hk, hws⟩ := h.distinct _ _ _ _ _ hl hl' hf hf'
    exact Prod.ext hk hws
  · intro b
    rw [List.mem_map]
    constructor
    · rintro ⟨nd, hnd, rfl⟩
      obtain ⟨hl, hb, hf⟩ := hmem hnd
      exact ⟨hb, nd.1, nd.2, hl, hf⟩
    · rintro ⟨hb, k, ws, hl, hf⟩
      have hne : (V.forest I).follow k ws ≠ none := by simp [hf]
      have hnd : (k, ws) ∈ L := (hL.mem_iff k ws).mpr ⟨⟨Nat.zero_le _, h.firstId_lt hl hne⟩, hl, hne⟩
      refine ⟨_, hnd, ?_⟩
      rw [Whole.blockAt, hf, Option.getD_some, blockOf_sec hb]

/-- `free_inode` comes back, calls `free_block` once for each block of the inode and for no other (each call
writes the block map with its bit cleared), clears the slot and the bit of the inode, and changes no other
bit. -/
theorem free_inode_blocks (c : Conf Mem Units) (ino : UInt32) (hi : ino.toNat < NUM_INODES)
    (h : (Whole.of c).Filled ((Whole.of c).inode ino.toNat)) : ∃ c', exec units (Fs.free_inode ino) c = some ((), c') ∧
      (∃ L : List ℕ, L.Nodup ∧ (∀ b, b ∈ L ↔ BlockOf (Whole.of c) ((Whole.of c).inode ino.toNat) b) ∧
        (Whole.of c').maps = (Whole.of c).maps ++ unmarks (Whole.of c).bmap L ∧
        ∀ b, (Whole.of c').bmap b = ((Whole.of c).bmap b && !decide (b ∈ L))) ∧
      (Whole.of c').inode = Function.update (Whole.of c).inode ino.toNat Inode.zero ∧
      (Whole.of c').imap = Function.update (Whole.of c).imap ino.toNat false := by
  obtain ⟨_, c', hrun, L, hL, hV⟩ := Whole.free_inode_goes hi h.points c rfl
  obtain ⟨hnodup, hmem⟩ := h.blocks hL
  refine ⟨c', hrun, ⟨_, hnodup, hmem, ?_, fun b => ?_⟩, ?_, ?_⟩
  · rw [hV]
  · rw [hV]
    exact unmark_apply _ _ _
  · rw [hV]
  · rw [hV]

/-- A file of nine blocks, mapped in the last one only. -/
def Inode.holed : Inode := { Inode.zero with size := 9 * 4096, blocks := Function.update (fun _ => 0) 7 (sec 0) }

/-- The file as inode 0 of a disk, with its block as the second word of the index block. -/
def Conf.holed : Conf Mem Units :=
  ⟨Mem.start, ⟨((Disk.store (fun _ _ => 0) (putInode (fun _ => 0) 0 Inode.holed) 1 (inodeSector 0)).store
    (put32 (fun _ => 0) 4 (sec 1)) BLOCK_SECTORS (blockSector 0)), []⟩⟩

theorem holed_inode : (Whole.of Conf.holed).inode 0 = Inode.holed := by
  show getInode (Disk.bytes (Disk.store (Disk.store _ _ 1 (inodeSector 0)) _ BLOCK_SECTORS (blockSector 0))
    1 (inodeSector 0)) 0 = Inode.holed
  rw [Disk.bytes_store_of_disjoint (by decide) (by decide) (by decide)]
  have hput := getInode_putInode (fun _ => 0) 0 Inode.holed
  refine Eq.trans (getInode_congr fun i _ hi => ?_) hput
  rw [Disk.bytes_store (by decide), if_pos (by unfold SECTOR_SIZE; omega)]

theorem holed_word (w : ℕ) (hw : w < 1024) : (Whole.of Conf.holed).word 0 w = if w = 1 then sec 1 else 0 := by
  have hdata : (Whole.of Conf.holed).word 0 w = get32 (put32 (fun _ => 0) 4 (sec 1)) (4 * w) := by
    refine get32_congr fun i _ hi => ?_
    show Disk.bytes (Disk.store _ _ BLOCK_SECTORS (blockSector 0)) BLOCK_SECTORS (blockSector 0) i = _
    rw [Disk.bytes_store (by decide), if_pos (by rw [BLOCK_SECTORS_eq, SECTOR_SIZE]; omega)]
  rw [hdata]
  split
  · next h1 =>
    rw [h1]
    exact get32_put32 _ 4 (sec 1)
  · next h1 =>
    rw [get32_put32_of_disjoint _ _ (by omega)]
    exact get32_zero fun _ _ => rfl

theorem holed_top (k : Fin 10) :
    ((Whole.of Conf.holed).forest Inode.holed).root k = if k = 7 then some (sec 0) else none := by
  show nz (Function.update (fun _ => (0 : UInt32)) 7 (sec 0) k) = _
  rw [Function.update_apply]
  split
  · exact nz_of_ne (sec_ne_zero (by decide))
  · rfl

theorem holed_follow {k : Fin 10} {ws : List ℕ} {p : UInt32} (hl : ws.length ≤ height k)
    (hf : ((Whole.of Conf.holed).forest Inode.holed).follow k ws = some p) :
    k = 7 ∧ (ws = [] ∧ p = sec 0 ∨ ws = [1] ∧ p = sec 1) := by
  have h0 : (0 : ℕ) < NUM_BLOCKS := by decide
  have h7 : ((Whole.of Conf.holed).forest Inode.holed).follow 7 [] = some (sec 0) := (holed_top 7).trans (if_pos rfl)
  by_cases hk : k = 7
  · subst hk
    refine ⟨rfl, ?_⟩
    rcases ws with _ | ⟨w, _ | ⟨w', ws⟩⟩
    · exact Or.inl ⟨rfl, (Option.some.inj (h7.symm.trans hf)).symm⟩
    · have hw : w < 1024 := Whole.lt_of_follow (Option.ne_none_iff_exists'.mpr ⟨p, hf⟩)
      rw [Whole.follow_cons_word h0 h7 hw, holed_word w hw] at hf
      split at hf
      · next h1 => exact Or.inr ⟨by rw [h1], (nz_eq_some.mp hf).1.symm⟩
      · rw [nz_zero] at hf
        cases hf
    · simp [height] at hl
  · rw [Forest.follow_eq_none ((holed_top k).trans (if_neg hk)) ws] at hf
    cases hf

theorem holed_filled : (Whole.of Conf.holed).Filled Inode.holed := by
  have h0 : (0 : ℕ) < NUM_BLOCKS := by decide
  have h1 : (1 : ℕ) < NUM_BLOCKS := by decide
  have hsec : sec 0 ≠ sec 1 := by decide
  have h7 : ((Whole.of Conf.holed).forest Inode.holed).follow 7 [] = some (sec 0) := (holed_top 7).trans (if_pos rfl)
  have h71 : ((Whole.of Conf.holed).forest Inode.holed).follow 7 [1] = some (sec 1) := by
    rw [Whole.follow_cons_word h0 h7 (by decide), holed_word 1 (by decide), if_pos rfl, nz_of_ne (sec_ne_zero h1)]
  have hp : pathOf 8 = (7, [1]) := by decide
  refine ⟨fun k ws p hl hf => ?_, fun r ws r' ws' a hl hl' hf hf' => ?_, fun n _ hf => ?_, fun k ws hl hf => ?_⟩
  · obtain ⟨-, ⟨-, rfl⟩ | ⟨-, rfl⟩⟩ := holed_follow hl hf
    · exact ⟨0, h0, rfl⟩
    · exact ⟨1, h1, rfl⟩
  · obtain ⟨rfl, ⟨rfl, rfl⟩ | ⟨rfl, rfl⟩⟩ := holed_follow hl hf
    · obtain ⟨rfl, ⟨rfl, -⟩ | ⟨-, he⟩⟩ := holed_follow hl' hf'
      · exact ⟨rfl, rfl⟩
      · exact absurd he hsec
    · obtain ⟨rfl, ⟨-, he⟩ | ⟨rfl, -⟩⟩ := holed_follow hl' hf'
      · exact absurd he.symm hsec
      · exact ⟨rfl, rfl⟩
  · obtain ⟨p, hp⟩ := Option.ne_none_iff_exists'.mp hf
    obtain ⟨hk, ⟨hws, -⟩ | ⟨hws, -⟩⟩ := holed_follow (length_pathOf n).le hp
    · have := length_pathOf n
      rw [hk, hws] at this
      cases this
    · rw [← firstId_pathOf n, hk, hws, firstId_7w]
      decide
  · obtain ⟨p, hp'⟩ := Option.ne_none_iff_exists'.mp hf
    obtain ⟨rfl, ⟨rfl, -⟩ | ⟨rfl, -⟩⟩ := holed_follow hl.le hp'
    · refine ⟨8, by decide, ?_, by rw [hp], by simp⟩
      rw [hp, h71]
      simp
    · simp [height] at hl

/-- The file with a hole in front: its block and its index block are given back. -/
theorem free_inode_holed : ∃ c', exec units (Fs.free_inode 0) Conf.holed = some ((), c') ∧
    ∃ L : List ℕ, L.Nodup ∧ (∀ b, b ∈ L ↔ BlockOf (Whole.of Conf.holed) ((Whole.of Conf.holed).inode 0) b) ∧
      (Whole.of c').maps = unmarks (Whole.of Conf.holed).bmap L := by
  have hf : (Whole.of Conf.holed).Filled ((Whole.of Conf.holed).inode (0 : UInt32).toNat) := by
    show (Whole.of Conf.holed).Filled ((Whole.of Conf.holed).inode 0)
    rw [holed_inode]
    exact holed_filled
  obtain ⟨c', hrun, ⟨L, hL, hmem, hmaps, -⟩, -⟩ := free_inode_blocks Conf.holed 0 (by decide) hf
  exact ⟨c', hrun, L, hL, hmem, hmaps⟩

end OsLab
