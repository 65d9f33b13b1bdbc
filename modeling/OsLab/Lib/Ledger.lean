import Mathlib.Data.Set.Basic

/-!
# Items handed out and given back

A ledger is a map that says of every item whether it is out. Items are taken one at a time, each only
while it is not out, and given back in sets; an item that is out stays out until a set it belongs to
is given back. So between two times an item is taken it is given back (`Moves.between`), and an item
that is out at the start is given back before it is taken (`Moves.before`).
-/

namespace OsLab.Lib

variable {ι : Type}

/-- An entry of the ledger. -/
inductive Booking (ι : Type) where
  /-- Item `x` is handed out. -/
  | take (x : ι)
  /-- The items in `X` are given back. -/
  | give (X : Set ι)

/-- Item `x` is given back in one of the entries. -/
def Given (x : ι) (es : List (Booking ι)) : Prop := ∃ X, .give X ∈ es ∧ x ∈ X

/-- From ledger `f` the entries lead to ledger `g`. -/
inductive Moves : (ι → Bool) → List (Booking ι) → (ι → Bool) → Prop where
  /-- Nothing happens. -/
  | nil {f : ι → Bool} : Moves f [] f
  /-- An item that is not out is handed out. -/
  | take {f g h : ι → Bool} {x : ι} {es : List (Booking ι)} : f x = false → g x = true →
      (∀ y, f y = true → g y = true) → Moves g es h → Moves f (.take x :: es) h
  /-- Items are given back. -/
  | give {f g h : ι → Bool} {X : Set ι} {es : List (Booking ι)} : (∀ y, y ∉ X → f y = true → g y = true) →
      Moves g es h → Moves f (.give X :: es) h

/-- No item is handed out while it is out: the items that are out at the start are those in `f`. -/
structure NeverTwice (f : ι → Bool) (es : List (Booking ι)) : Prop where
  before : ∀ es₀ es₁ x, es = es₀ ++ .take x :: es₁ → f x = true → Given x es₀
  between : ∀ es₀ es₁ es₂ x, es = es₀ ++ .take x :: (es₁ ++ .take x :: es₂) → Given x es₁

namespace Moves

variable {f g : ι → Bool} {x : ι} {es es' : List (Booking ι)}

theorem split (h : Moves f (es ++ es') g) : ∃ m, Moves f es m ∧ Moves m es' g := by
  induction es generalizing f with
  | nil => exact ⟨f, .nil, h⟩
  | cons e es ih =>
    cases h with
    | take h1 h2 h3 h4 =>
      obtain ⟨m, hm, hm'⟩ := ih h4
      exact ⟨m, .take h1 h2 h3 hm, hm'⟩
    | give h1 h2 =>
      obtain ⟨m, hm, hm'⟩ := ih h2
      exact ⟨m, .give h1 hm, hm'⟩

/-- What is out and not given back is out. -/
theorem out (h : Moves f es g) (hx : f x = true) (hn : ¬ Given x es) : g x = true := by
  induction h with
  | nil => exact hx
  | take _ _ hkeep _ ih => exact ih (hkeep x hx) fun ⟨X, hX, hin⟩ => hn ⟨X, List.mem_cons_of_mem _ hX, hin⟩
  | give hkeep _ ih =>
    apply ih
    · exact hkeep x (fun hin => hn ⟨_, List.mem_cons_self, hin⟩) hx
    · exact fun ⟨X, hX, hin⟩ => hn ⟨X, List.mem_cons_of_mem _ hX, hin⟩

/-- An item that is out is given back before it is taken. -/
theorem before (h : Moves f (es ++ .take x :: es') g) (hx : f x = true) : Given x es := by
  obtain ⟨m, hm, hm'⟩ := h.split
  by_contra hn
  have hout := hm.out hx hn
  cases hm' with
  | take hfree => exact absurd (hfree.symm.trans hout) Bool.false_ne_true

/-- An item that is taken twice is given back in between. -/
theorem between {es₀ : List (Booking ι)} (h : Moves f (es₀ ++ .take x :: (es ++ .take x :: es')) g) : Given x es := by
  obtain ⟨m, -, hm⟩ := h.split
  cases hm with
  | take _ hout _ hm => exact hm.before hout

theorem neverTwice (h : Moves f es g) : NeverTwice f es where
  before := by
    rintro es₀ es₁ x rfl hx
    exact h.before hx
  between := by
    rintro es₀ es₁ es₂ x rfl
    exact h.between

end Moves

end OsLab.Lib
