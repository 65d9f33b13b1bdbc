import Mathlib.Algebra.GroupWithZero.Nat
import Mathlib.Algebra.Group.Fin.Basic
import Mathlib.Data.Fin.Basic
import Mathlib.Order.Fin.Basic

/-!
# Arcs of a circular array

The positions of a circular array of length `n` are `Fin n`, with addition that wraps around. The arc
from `a` to `b` is what lies at `a`, `a + 1`, … up to but not including `b`; from `a` to `a` it is
empty, so that an arc never takes in the whole circle. `arc f a b` are the entries of `f` along it, and
`InArc a b i` says that position `i` is on it. A queue in a circular array is an arc: it grows at `b`
as long as it does not close the circle, and shrinks at `a` as long as it is not empty.
-/

namespace OsLab.Lib

variable {n : ℕ} [NeZero n] {α : Type*} {f : Fin n → α} {a b i : Fin n}

/-- `k` entries from `a` on. -/
def slice (f : Fin n → α) (a : Fin n) : ℕ → List α
  | 0 => []
  | k + 1 => f a :: slice f (a + 1) k

/-- The entries from `a` up to but not including `b`. -/
def arc (f : Fin n → α) (a b : Fin n) : List α := slice f a (b - a).val

/-- Position `i` is on the arc from `a` to `b`. -/
def InArc (a b i : Fin n) : Prop := (i - a).val < (b - a).val

instance : Decidable (InArc a b i) := inferInstanceAs (Decidable (_ < _))

theorem val_add_one {x : Fin n} (hx : x + 1 ≠ 0) : (x + 1).val = x.val + 1 := by
  have h := Fin.val_sub_one_of_ne_zero hx
  rw [add_sub_cancel_right] at h
  rw [h, Nat.sub_add_cancel (Nat.pos_of_ne_zero fun e => hx (Fin.val_eq_zero_iff.mp e))]

/-- A step at the far end makes the arc longer. -/
theorem val_push (hb : b + 1 ≠ a) : (b + 1 - a).val = (b - a).val + 1 := by
  rw [add_sub_right_comm]
  refine val_add_one ?_
  rw [← add_sub_right_comm]
  exact sub_ne_zero.mpr hb

/-- A step at the near end makes the arc shorter. -/
theorem val_pop (hb : a ≠ b) : (b - a).val = (b - (a + 1)).val + 1 := by
  have hne : b - a ≠ 0 := sub_ne_zero.mpr hb.symm
  have h := Fin.val_sub_one_of_ne_zero hne
  rw [sub_sub] at h
  rw [h, Nat.sub_add_cancel (Nat.pos_of_ne_zero fun e => hne (Fin.val_eq_zero_iff.mp e))]

theorem length_slice (f : Fin n → α) (a : Fin n) (k : ℕ) : (slice f a k).length = k := by
  induction k generalizing a with
  | zero => rfl
  | succ k ih => rw [slice, List.length_cons, ih]

theorem length_arc (f : Fin n → α) (a b : Fin n) : (arc f a b).length = (b - a).val := length_slice ..

theorem arc_self : arc f a a = [] := by
  rw [arc, sub_self]
  rfl

theorem arc_pop (hb : a ≠ b) : arc f a b = f a :: arc f (a + 1) b := by
  rw [arc, val_pop hb]
  rfl

theorem slice_succ (f : Fin n → α) (a : Fin n) (k : ℕ) (hk : (b - a).val = k) :
    slice f a (k + 1) = slice f a k ++ [f b] := by
  induction k generalizing a with
  | zero =>
    have hab : b = a := by
      rw [← sub_eq_zero]
      exact Fin.ext hk
    rw [hab]
    rfl
  | succ k ih =>
    have hne : a ≠ b := by
      rintro rfl
      rw [sub_self] at hk
      cases hk
    have hk' : (b - (a + 1)).val = k := by
      have := val_pop hne
      omega
    rw [slice, ih (a + 1) hk', slice, List.cons_append]

theorem arc_push (hb : b + 1 ≠ a) : arc f a (b + 1) = arc f a b ++ [f b] := by
  rw [arc, val_push hb, slice_succ f a _ rfl]
  rfl

theorem slice_update [DecidableEq (Fin n)] {x : α} {k : ℕ} (hi : k ≤ (i - a).val) :
    slice (Function.update f i x) a k = slice f a k := by
  induction k generalizing a with
  | zero => rfl
  | succ k ih =>
    have hne : a ≠ i := by
      rintro rfl
      rw [sub_self] at hi
      cases hi
    have hi' : k ≤ (i - (a + 1)).val := by
      have := val_pop hne
      omega
    rw [slice, slice, Function.update_of_ne hne, ih hi']

/-- Entries off the arc do not matter. -/
theorem arc_update {x : α} (hi : ¬ InArc a b i) :
    arc (Function.update f i x) a b = arc f a b := slice_update (not_lt.mp hi)

omit [NeZero n] in
theorem not_inArc_right : ¬ InArc a b b := lt_irrefl _

theorem inArc_push (hb : b + 1 ≠ a) : InArc a (b + 1) i ↔ InArc a b i ∨ i = b := by
  rw [InArc, val_push hb, Nat.lt_succ_iff_lt_or_eq, InArc]
  refine or_congr_right ?_
  rw [Fin.val_inj]
  exact sub_left_inj

theorem inArc_pop (hb : a ≠ b) : InArc a b i ↔ i = a ∨ InArc (a + 1) b i := by
  by_cases hi : i = a
  · subst hi
    simp only [InArc, sub_self, Fin.val_zero, true_or, iff_true]
    have := val_pop hb
    omega
  · have h1 := val_pop hb
    have h2 := val_pop (Ne.symm hi)
    rw [InArc, InArc, h1, h2]
    simp [hi]

theorem not_inArc_pop : ¬ InArc (a + 1) b a := by
  obtain ⟨m, rfl⟩ := Nat.exists_eq_succ_of_ne_zero (NeZero.ne n)
  rw [InArc, not_lt, sub_add_cancel_left, Fin.coe_neg_one]
  exact Nat.lt_succ_iff.mp (b - (a + 1)).isLt

end OsLab.Lib
