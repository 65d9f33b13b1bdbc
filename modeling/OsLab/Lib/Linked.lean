import Mathlib.Data.List.Basic
import Mathlib.Tactic.Common

/-!
# Singly linked lists

`Linked next l` says that each node of `l` but the last points to the one after it. A ring is a list that comes back to
its first node; it can be entered anywhere (`Linked.rotate`). `seek` is the loop that follows the pointers
until a node is found: it finds the first one on the list (`Linked.seek`).
-/

namespace OsLab.Lib

variable {α : Type*} {next next' : α → α} {l l₁ l₂ : List α} {x y z : α}

/-- Each node of the list but the last points to the one after it. -/
def Linked (next : α → α) : List α → Prop
  | x :: y :: l => next x = y ∧ Linked next (y :: l)
  | _ => True

@[simp] theorem linked_nil : Linked next [] := trivial

@[simp] theorem linked_singleton : Linked next [x] := trivial

@[simp] theorem linked_cons_cons : Linked next (x :: y :: l) ↔ next x = y ∧ Linked next (y :: l) := Iff.rfl

theorem Linked.tail (h : Linked next (x :: l)) : Linked next l := by
  cases l with
  | nil => simp
  | cons y l => exact (linked_cons_cons.mp h).2

/-- Two lists that share a node. -/
theorem linked_append : Linked next (l₁ ++ x :: l₂) ↔ Linked next (l₁ ++ [x]) ∧ Linked next (x :: l₂) := by
  induction l₁ with
  | nil => simp
  | cons y l₁ ih => cases l₁ <;> simp_all [and_assoc]

theorem Linked.left (h : Linked next (l₁ ++ x :: l₂)) : Linked next (l₁ ++ [x]) := (linked_append.mp h).1

theorem Linked.right (h : Linked next (l₁ ++ x :: l₂)) : Linked next (x :: l₂) := (linked_append.mp h).2

theorem Linked.next_eq (h : Linked next (l₁ ++ x :: y :: l₂)) : next x = y := (linked_cons_cons.mp h.right).1

theorem Linked.next_last (h : Linked next (l ++ [y])) (hx : l.getLast? = some x) : next x = y := by
  obtain ⟨l', rfl⟩ := List.getLast?_eq_some_iff.mp hx
  rw [List.append_assoc, List.singleton_append] at h
  exact h.next_eq

/-- The pointer of the last node does not matter. -/
theorem Linked.congr (h : Linked next (l ++ [z])) (hl : ∀ x ∈ l, next' x = next x) : Linked next' (l ++ [z]) := by
  induction l with
  | nil => simp
  | cons x l ih =>
    have hrest : Linked next' (l ++ [z]) := ih h.tail fun y hy => hl y (List.mem_cons_of_mem x hy)
    have hx : next' x = next x := hl x (List.mem_cons_self ..)
    cases l <;> simp_all

/-- A ring can be entered at each of its nodes. -/
theorem Linked.rotate (h : Linked next (x :: (l₁ ++ y :: l₂) ++ [x])) : Linked next (y :: (l₂ ++ x :: l₁) ++ [y]) := by
  have hring : Linked next ((x :: l₁) ++ y :: (l₂ ++ [x])) := by simpa using h
  have hleft : Linked next ((x :: l₁) ++ [y]) := hring.left
  have hright : Linked next (y :: (l₂ ++ [x])) := hring.right
  have hjoin : Linked next ((y :: l₂) ++ x :: (l₁ ++ [y])) :=
    linked_append.mpr ⟨by simpa using hright, by simpa using hleft⟩
  simpa using hjoin

/-! ### Following the pointers -/

/-- The first node from `x` on with `p`, if there is one within `fuel` nodes. -/
def seek (next : α → α) (p : α → Bool) : ℕ → α → Option α
  | 0, _ => none
  | fuel + 1, x => if p x then some x else seek next p fuel (next x)

theorem Linked.seek {p : α → Bool} {fuel : ℕ} (h : Linked next (l ++ [y])) (hl : ∀ x ∈ l, ¬ p x) (hy : p y)
    (hfuel : l.length < fuel) (hx : (l ++ [y]).head? = some x) : seek next p fuel x = some y := by
  induction l generalizing x fuel with
  | nil =>
    obtain ⟨fuel, rfl⟩ := Nat.exists_eq_succ_of_ne_zero (Nat.ne_of_gt hfuel)
    obtain rfl : y = x := by simpa using hx
    simp [Lib.seek, hy]
  | cons z l ih =>
    obtain ⟨fuel, rfl⟩ := Nat.exists_eq_succ_of_ne_zero (Nat.ne_zero_of_lt hfuel)
    obtain rfl : z = x := by simpa using hx
    have hz : ¬ p z := hl z (List.mem_cons_self ..)
    have hrest : Linked next (l ++ [y]) ∧ (l ++ [y]).head? = some (next z) := by
      cases l <;> simp_all
    simp only [Lib.seek, if_neg hz]
    exact ih hrest.1 (fun x hx => hl x (List.mem_cons_of_mem z hx)) (by simpa using hfuel) hrest.2

/-- Entered at `x`, a ring has the same nodes. -/
theorem Linked.enter (h : Linked next (x :: l ++ [x])) (hy : y ∈ x :: l) :
    ∃ l', Linked next (y :: l' ++ [y]) ∧ (y :: l').Perm (x :: l) := by
  rcases List.mem_cons.mp hy with rfl | hy
  · exact ⟨l, h, List.Perm.refl _⟩
  · obtain ⟨l₁, l₂, rfl⟩ := List.append_of_mem hy
    refine ⟨l₂ ++ x :: l₁, h.rotate, ?_⟩
    have hswap : ((y :: l₂) ++ (x :: l₁)).Perm ((x :: l₁) ++ (y :: l₂)) := List.perm_append_comm
    simpa using hswap

/-- On a ring no two nodes point to one. -/
theorem Linked.next_inj (h : Linked next (x :: l ++ [x])) (hnodup : (x :: l).Nodup) (hy : y ∈ x :: l) (hz : z ∈ x :: l)
    (he : next y = next z) : y = z := by
  obtain ⟨l', h', hperm⟩ := h.enter hy
  have hnodup' : (y :: l').Nodup := hperm.nodup_iff.mpr hnodup
  rcases List.mem_cons.mp (hperm.mem_iff.mpr hz) with rfl | hz'
  · rfl
  · obtain ⟨l₁, l₂, rfl⟩ := List.append_of_mem hz'
    -- what `y` points to comes before `z` or is `z`; what `z` points to comes behind `z` or is `y`
    have hring : Linked next ((y :: l₁) ++ z :: (l₂ ++ [y])) := by simpa using h'
    have hleft : Linked next (y :: (l₁ ++ [z])) := hring.left
    have hright : Linked next (z :: (l₂ ++ [y])) := hring.right
    have hyl : next y ∈ l₁ ++ [z] := by
      cases l₁ <;> simp_all
    have hzl : next z ∈ l₂ ++ [y] := by
      cases l₂ <;> simp_all
    rw [he] at hyl
    simp [List.nodup_append] at hnodup' hyl hzl
    grind

/-- On a ring, the one node with `p` is found from everywhere. -/
theorem Linked.seek_ring {p : α → Bool} {fuel : ℕ} (h : Linked next (x :: l ++ [x])) (hp : ∀ z ∈ x :: l, p z ↔ z = y)
    (hy : y ∈ x :: l) (hz : z ∈ x :: l) (hfuel : (x :: l).length ≤ fuel) : Lib.seek next p fuel z = some y := by
  obtain ⟨l', h', hperm⟩ := h.enter hz
  obtain ⟨l₁, l₂, hsplit, hfirst⟩ := List.eq_append_cons_of_mem (hperm.mem_iff.mpr hy)
  have hl₁ : ∀ w ∈ l₁, w ∈ x :: l := fun w hw => hperm.mem_iff.mp (hsplit ▸ List.mem_append_left _ hw)
  have hlength : l₁.length < fuel := by
    have hle := hperm.length_eq
    rw [hsplit] at hle
    simp at hle hfuel
    omega
  refine Linked.seek (l := l₁) ?_ (fun w hw he => hfirst ((hp w (hl₁ w hw)).mp he ▸ hw)) ((hp y hy).mpr rfl) hlength ?_
  · rw [hsplit, List.append_assoc, List.cons_append] at h'
    exact h'.left
  · have hhead : (l₁ ++ y :: l₂).head? = some z := by
      rw [← hsplit]
      rfl
    cases l₁ <;> simpa using hhead

end OsLab.Lib
