import Mathlib.Data.Finset.Card
import Mathlib.Data.List.Basic
import Mathlib.Logic.Function.Basic

/-!
# Forests of pointers

Trees whose nodes lie at addresses: a root may hold the address of a node, and a node holds
addresses of its children in numbered words. The trees below root `r` are at most `depth r`
deep; a node at the bottom holds data, and its words are not followed.

A node is named by its root and the words that lead to it, last one first. `Unshared` says that
no address is reached along two paths, and `Live` that it is reached at all. The rules
`attached_root`, `attached_child`, `follow_prune` and `follow_congr` compute paths after a
change, and `Attached.unshared`, `Attached.live_iff` and `Unshared.mono` say what it keeps.

`Enough` says that there are as many addresses to spare as nodes of a set are missing; attaching one
of them keeps that (`Attached.enough`).
-/

namespace OsLab.Lib

/-- Pointers from roots and from the words of nodes. -/
structure Forest (R A W : Type) where
  /-- What a root points to. -/
  root : R → Option A
  /-- What a word of a node points to. -/
  child : A → W → Option A

namespace Forest

variable {R A W : Type} {F G : Forest R A W} {depth : R → ℕ}

/-- The address of a node. -/
def follow (F : Forest R A W) (r : R) : List W → Option A
  | [] => F.root r
  | w :: ws => (F.follow r ws).bind fun a => F.child a w

@[simp] theorem follow_nil (F : Forest R A W) (r : R) : F.follow r [] = F.root r := rfl

@[simp] theorem follow_cons (F : Forest R A W) (r : R) (w : W) (ws : List W) :
    F.follow r (w :: ws) = (F.follow r ws).bind fun a => F.child a w := rfl

/-- Below an empty root there is nothing. -/
theorem follow_eq_none {F : Forest R A W} {r : R} (h : F.root r = none) (ws : List W) : F.follow r ws = none := by
  induction ws with
  | nil => exact h
  | cons w ws ih => rw [follow_cons, ih]; rfl

/-- No address is reached along two paths. -/
def Unshared (depth : R → ℕ) (F : Forest R A W) : Prop :=
  ∀ r ws r' ws' a, ws.length ≤ depth r → ws'.length ≤ depth r' → F.follow r ws = some a → F.follow r' ws' = some a →
    r = r' ∧ ws = ws'

/-- The address is reached. -/
def Live (depth : R → ℕ) (F : Forest R A W) (a : A) : Prop := ∃ r ws, ws.length ≤ depth r ∧ F.follow r ws = some a

/-- Only the words of nodes above the bottom matter. -/
theorem follow_congr (depth : R → ℕ) (hroot : ∀ r, G.root r = F.root r)
    (hchild : ∀ r ws a w, ws.length < depth r → F.follow r ws = some a → G.child a w = F.child a w)
    (r : R) (ws : List W) (h : ws.length ≤ depth r) : G.follow r ws = F.follow r ws := by
  induction ws with
  | nil => exact hroot r
  | cons w ws ih =>
    simp only [List.length_cons] at h
    rw [follow_cons, follow_cons, ih (by omega)]
    cases hf : F.follow r ws with
    | none => rfl
    | some a => exact hchild r ws a w (by omega) hf

/-- `G` is `F` with the new address `b` at an empty place, and nothing below it. -/
structure Attached (depth : R → ℕ) (F G : Forest R A W) (r₀ : R) (p₀ : List W) (b : A) : Prop where
  len : p₀.length ≤ depth r₀
  empty : F.follow r₀ p₀ = none
  fresh : ¬ Live depth F b
  here : G.follow r₀ p₀ = some b
  elsewhere : ∀ r ws, ws.length ≤ depth r → (r = r₀ → ws ≠ p₀) → G.follow r ws = F.follow r ws

/-- Hang a new node without children on an empty root. -/
theorem attached_root {r₀ : R} {b : A} (hr₀ : F.root r₀ = none) (hb : ¬ Live depth F b) (hroot₀ : G.root r₀ = some b)
    (hroot : ∀ r, r ≠ r₀ → G.root r = F.root r) (hchild : ∀ a w, Live depth F a → G.child a w = F.child a w)
    (hnew : ∀ w, G.child b w = none) : Attached depth F G r₀ [] b := by
  refine ⟨by simp, hr₀, hb, hroot₀, fun r ws h hp => ?_⟩
  induction ws with
  | nil => exact hroot r fun e => hp e rfl
  | cons w ws ih =>
    simp only [List.length_cons] at h
    rw [follow_cons, follow_cons]
    by_cases hr : r = r₀ ∧ ws = []
    · simp [hr, hroot₀, hnew, hr₀]
    · rw [ih (by omega) fun e e' => hr ⟨e, e'⟩]
      cases hf : F.follow r ws with
      | none => rfl
      | some a => exact hchild a w ⟨r, ws, by omega, hf⟩

/-- Hang a new node without children on an empty word of a node above the bottom. -/
theorem attached_child {r₀ : R} {ws₀ : List W} {w₀ : W} {a₀ b : A} (hF : Unshared depth F)
    (hlen : ws₀.length < depth r₀) (ha₀ : F.follow r₀ ws₀ = some a₀)
    (hw₀ : F.child a₀ w₀ = none) (hb : ¬ Live depth F b)
    (hroot : ∀ r, G.root r = F.root r) (hchild₀ : G.child a₀ w₀ = some b)
    (hchild : ∀ a w, Live depth F a → (a = a₀ → w ≠ w₀) → G.child a w = F.child a w) (hnew : ∀ w, G.child b w = none) :
    Attached depth F G r₀ (w₀ :: ws₀) b := by
  -- Below the new node there is nothing; elsewhere only one word of one node has changed.
  have key : ∀ r (ws : List W), ws.length ≤ depth r →
      (r = r₀ ∧ ws = w₀ :: ws₀ → G.follow r ws = some b) ∧
      (¬ (r = r₀ ∧ ws = w₀ :: ws₀) → G.follow r ws = F.follow r ws) := by
    intro r ws h
    induction ws with
    | nil => exact ⟨by simp, fun _ => hroot r⟩
    | cons w ws ih =>
      simp only [List.length_cons] at h
      obtain ⟨ihnew, ihold⟩ := ih (by omega)
      rw [follow_cons, follow_cons]
      refine ⟨?_, fun hp => ?_⟩
      · rintro ⟨rfl, he⟩
        obtain ⟨rfl, rfl⟩ := List.cons.inj he
        rw [ihold (by simp), ha₀]
        exact hchild₀
      · by_cases hp' : r = r₀ ∧ ws = w₀ :: ws₀
        · rw [ihnew hp', hp'.1, hp'.2, follow_cons, ha₀]
          simp [hnew, hw₀]
        · rw [ihold hp']
          cases hf : F.follow r ws with
          | none => rfl
          | some a =>
            refine hchild a w ⟨r, ws, by omega, hf⟩ ?_
            rintro rfl rfl
            obtain ⟨rfl, rfl⟩ := hF _ _ _ _ _ (by omega) (by omega) hf ha₀
            exact hp ⟨rfl, rfl⟩
  refine ⟨hlen, by simp [ha₀, hw₀], hb, (key r₀ (w₀ :: ws₀) hlen).1 ⟨rfl, rfl⟩, fun r ws h hp => (key r ws h).2 ?_⟩
  exact fun e => hp e.1 e.2

namespace Attached

variable {r₀ : R} {p₀ : List W} {b : A}

theorem cases (h : Attached depth F G r₀ p₀ b) {r : R} {ws : List W} {a : A} (hl : ws.length ≤ depth r)
    (hf : G.follow r ws = some a) : (r = r₀ ∧ ws = p₀ ∧ a = b) ∨ (a ≠ b ∧ F.follow r ws = some a) := by
  by_cases hp : r = r₀ ∧ ws = p₀
  · obtain ⟨rfl, rfl⟩ := hp
    rw [h.here] at hf
    exact Or.inl ⟨rfl, rfl, (Option.some.inj hf).symm⟩
  · rw [h.elsewhere r ws hl fun e e' => hp ⟨e, e'⟩] at hf
    refine Or.inr ⟨?_, hf⟩
    rintro rfl
    exact h.fresh ⟨r, ws, hl, hf⟩

theorem unshared (h : Attached depth F G r₀ p₀ b) (hF : Unshared depth F) : Unshared depth G := by
  intro r ws r' ws' a hl hl' hf hf'
  obtain ⟨rfl, rfl, ha⟩ | ⟨ha, hf⟩ := h.cases hl hf
  · obtain ⟨rfl, rfl, -⟩ | ⟨ha', -⟩ := h.cases hl' hf'
    · exact ⟨rfl, rfl⟩
    · exact absurd ha ha'
  · obtain ⟨rfl, rfl, ha'⟩ | ⟨-, hf'⟩ := h.cases hl' hf'
    · exact absurd ha' ha
    · exact hF r ws r' ws' a hl hl' hf hf'

/-- What was there is still there. -/
theorem mono (h : Attached depth F G r₀ p₀ b) {r : R} {ws : List W} {a : A} (hl : ws.length ≤ depth r)
    (hf : F.follow r ws = some a) : G.follow r ws = some a := by
  rw [h.elsewhere r ws hl, hf]
  rintro rfl rfl
  rw [h.empty] at hf
  cases hf

theorem live_iff (h : Attached depth F G r₀ p₀ b) (a : A) : Live depth G a ↔ a = b ∨ Live depth F a := by
  constructor
  · rintro ⟨r, ws, hl, hf⟩
    obtain ⟨-, -, ha⟩ | ⟨-, hf⟩ := h.cases hl hf
    · exact Or.inl ha
    · exact Or.inr ⟨r, ws, hl, hf⟩
  · rintro (rfl | ⟨r, ws, hl, hf⟩)
    · exact ⟨r₀, p₀, h.len, h.here⟩
    · exact ⟨r, ws, hl, h.mono hl hf⟩

end Attached

/-- Emptying some of the roots. -/
theorem follow_prune {P : R → Prop} (hroot : ∀ r, P r → G.root r = none) (hroot' : ∀ r, ¬ P r → G.root r = F.root r)
    (hchild : ∀ a w, G.child a w = F.child a w) (r : R) (ws : List W) :
    (P r → G.follow r ws = none) ∧ (¬ P r → G.follow r ws = F.follow r ws) := by
  induction ws with
  | nil => exact ⟨hroot r, hroot' r⟩
  | cons w ws ih =>
    refine ⟨fun h => by simp [ih.1 h], fun h => ?_⟩
    rw [follow_cons, follow_cons, ih.2 h]
    congr
    exact funext fun a => hchild a w

/-- A forest all of whose paths are those of an unshared one is unshared. -/
theorem Unshared.mono (hF : Unshared depth F)
    (h : ∀ r ws a, ws.length ≤ depth r → G.follow r ws = some a → F.follow r ws = some a) : Unshared depth G :=
  fun r ws r' ws' a hl hl' hf hf' => hF r ws r' ws' a hl hl' (h r ws a hl hf) (h r' ws' a hl' hf')

/-! ### Room for what is missing -/

section Room

variable {ι B : Type}

/-- The trees below the roots of `i`. -/
def below (F : Forest (ι × R) A W) (i : ι) : Forest R A W := ⟨fun r => F.root (i, r), F.child⟩

theorem follow_below (F : Forest (ι × R) A W) (i : ι) (r : R) (ws : List W) :
    (F.below i).follow r ws = F.follow (i, r) ws := by
  induction ws with
  | nil => rfl
  | cons w ws ih => rw [follow_cons, follow_cons, ih]; rfl

theorem Attached.below {depth : ι × R → ℕ} {F G : Forest (ι × R) A W} {i : ι} {r₀ : R} {p₀ : List W} {b : A}
    (h : Attached depth F G (i, r₀) p₀ b) : Attached (fun r => depth (i, r)) (F.below i) (G.below i) r₀ p₀ b := by
  refine ⟨h.len, ?_, ?_, ?_, fun r ws hl hne => ?_⟩
  · rw [follow_below, h.empty]
  · rintro ⟨r, ws, hl, hf⟩
    rw [follow_below] at hf
    exact h.fresh ⟨(i, r), ws, hl, hf⟩
  · rw [follow_below, h.here]
  · rw [follow_below, follow_below]
    exact h.elsewhere (i, r) ws hl fun hr => hne (congrArg Prod.snd hr)

/-- The nodes of `N` that are missing. -/
def missing (F : Forest R A W) (N : Finset (R × List W)) : Finset (R × List W) :=
  N.filter fun nd => F.follow nd.1 nd.2 = none

/-- There are as many addresses to spare as nodes of `N` are missing. -/
def Enough (F : Forest R A W) (N : Finset (R × List W)) (free : Finset B) : Prop := (F.missing N).card ≤ free.card

variable {N : Finset (R × List W)} {r : R} {ws : List W} {free : Finset B}

theorem mem_missing : (r, ws) ∈ F.missing N ↔ (r, ws) ∈ N ∧ F.follow r ws = none := by rw [missing, Finset.mem_filter]

theorem missing_congr (h : ∀ r ws, (r, ws) ∈ N → G.follow r ws = F.follow r ws) : G.missing N = F.missing N :=
  Finset.filter_congr fun nd hnd => by rw [h nd.1 nd.2 hnd]

/-- A missing node can be given an address. -/
theorem Enough.nonempty (h : F.Enough N free) (hN : (r, ws) ∈ N) (hnone : F.follow r ws = none) : free.Nonempty := by
  have hpos : 0 < (F.missing N).card := Finset.card_pos.mpr ⟨(r, ws), mem_missing.mpr ⟨hN, hnone⟩⟩
  exact Finset.card_pos.mp (Nat.lt_of_lt_of_le hpos h)

/-- Giving it one takes one address. -/
theorem Attached.enough [DecidableEq R] [DecidableEq W] [DecidableEq B] {b : A} (ha : Attached depth F G r ws b)
    (hlen : ∀ nd ∈ N, nd.2.length ≤ depth nd.1) (hN : (r, ws) ∈ N) {x : B} (hx : x ∈ free) (h : F.Enough N free) :
    G.Enough N (free.erase x) := by
  have hsub : G.missing N ⊆ (F.missing N).erase (r, ws) := by
    rintro ⟨r', vs⟩ hv
    obtain ⟨hvN, hnone⟩ := mem_missing.mp hv
    have hne : (r', vs) ≠ (r, ws) := by
      intro he
      obtain ⟨rfl, rfl⟩ := Prod.mk.inj he
      rw [ha.here] at hnone
      cases hnone
    refine Finset.mem_erase.mpr ⟨hne, mem_missing.mpr ⟨hvN, ?_⟩⟩
    rwa [ha.elsewhere r' vs (hlen _ hvN) fun hr hw => hne (Prod.ext hr hw)] at hnone
  calc (G.missing N).card ≤ ((F.missing N).erase (r, ws)).card := Finset.card_le_card hsub
    _ = (F.missing N).card - 1 := Finset.card_erase_of_mem (mem_missing.mpr ⟨hN, ha.empty⟩)
    _ ≤ free.card - 1 := Nat.sub_le_sub_right h 1
    _ = (free.erase x).card := (Finset.card_erase_of_mem hx).symm

end Room

end Forest

end OsLab.Lib
