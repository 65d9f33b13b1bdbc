import Mathlib.Data.Int.Notation
import Mathlib.Data.List.GetD
import OsLab.Lib.Bytes

/-!
# C strings in memory

A C string is a list of bytes without zero; in memory a zero follows it. `strcmp` and `strncmp` compare the
string at an address with a given one and `strcpy` writes a given one, byte by byte as the C functions do.
None of them knows how long the field at the address is.
-/

namespace OsLab.Lib

/-- `strcmp(&m[a], s)`, where `char` is unsigned. -/
def strcmp (m : ℕ → UInt8) (a : ℕ) : List UInt8 → ℤ
  | [] => ((m a).toNat : ℤ)
  | c :: s => if m a = 0 then -(c.toNat : ℤ) else if m a = c then strcmp m (a + 1) s else ((m a).toNat : ℤ) - c.toNat

/-- `strcpy(&m[a], s)`. -/
def strcpy (m : ℕ → UInt8) (a : ℕ) : List UInt8 → ℕ → UInt8
  | [] => Function.update m a 0
  | c :: s => strcpy (Function.update m a c) (a + 1) s

/-- `strncmp(&m[a], s, n)`, where `n` is the length of `s`. -/
def strncmp (m : ℕ → UInt8) (a : ℕ) : List UInt8 → ℤ
  | [] => 0
  | c :: s => if m a = 0 ∨ m a ≠ c then ((m a).toNat : ℤ) - c.toNat else strncmp m (a + 1) s

/-- A string literal. -/
def literal (s : String) : List UInt8 := s.toList.map fun c => UInt8.ofNat c.toNat

variable {m m' : ℕ → UInt8} {a n : ℕ} {s s' : List UInt8}

/-- The string at `a` is `s`. -/
theorem strcmp_eq_zero (h0 : 0 ∉ s) : strcmp m a s = 0 ↔ ∀ j ≤ s.length, m (a + j) = s.getD j 0 := by
  induction s generalizing a with
  | nil =>
    rw [strcmp, List.length_nil]
    constructor
    · intro h j hj
      obtain rfl : j = 0 := Nat.le_zero.mp hj
      rw [Nat.add_zero, List.getD_nil]
      exact UInt8.toNat_inj.mp (Int.natCast_eq_zero.mp h)
    · intro h
      have := h 0 (Nat.le_refl 0)
      rw [Nat.add_zero, List.getD_nil] at this
      rw [this]
      rfl
  | cons c s ih =>
    have hc : c ≠ 0 := fun e => h0 (e ▸ List.mem_cons_self ..)
    have hs : 0 ∉ s := fun e => h0 (List.mem_cons_of_mem _ e)
    have hall : (∀ j ≤ (c :: s).length, m (a + j) = (c :: s).getD j 0) ↔
        m a = c ∧ ∀ j ≤ s.length, m (a + 1 + j) = s.getD j 0 := by
      constructor
      · intro h
        refine ⟨h 0 (Nat.zero_le _), fun j hj => ?_⟩
        have := h (j + 1) (Nat.succ_le_succ hj)
        rwa [List.getD_cons_succ, ← Nat.add_assoc, Nat.add_right_comm] at this
      · rintro ⟨h, ht⟩ j hj
        cases j with
        | zero => exact h
        | succ j =>
          rw [List.getD_cons_succ, ← Nat.add_assoc, Nat.add_right_comm]
          exact ht j (Nat.le_of_succ_le_succ hj)
    rw [hall, strcmp]
    split
    · next hz =>
      constructor
      · intro h
        exact absurd (UInt8.toNat_inj.mp (Int.natCast_eq_zero.mp (Int.neg_eq_zero.mp h))) hc
      · rintro ⟨h, -⟩
        exact absurd (h.symm.trans hz) hc
    · split
      · next hz heq => rw [ih hs, and_iff_right heq]
      · next hz hne =>
        constructor
        · intro h
          exact absurd (UInt8.toNat_inj.mp (Int.natCast_inj.mp (Int.sub_eq_zero.mp h))) hne
        · rintro ⟨h, -⟩
          exact absurd h hne

/-- The string at `a` begins with `s`. -/
theorem strncmp_eq_zero (h0 : 0 ∉ s) : strncmp m a s = 0 ↔ ∀ j < s.length, m (a + j) = s.getD j 0 := by
  induction s generalizing a with
  | nil => exact iff_of_true rfl nofun
  | cons c s ih =>
    have hc : c ≠ 0 := fun e => h0 (e ▸ List.mem_cons_self ..)
    have hs : 0 ∉ s := fun e => h0 (List.mem_cons_of_mem _ e)
    rw [strncmp]
    split
    · next hne =>
      refine iff_of_false (fun h => ?_) fun h => ?_
      · have heq : m a = c := UInt8.toNat_inj.mp (Int.natCast_inj.mp (Int.sub_eq_zero.mp h))
        exact hne.elim (fun hz => hc (heq.symm.trans hz)) fun hn => hn heq
      · have heq : m a = c := h 0 (Nat.zero_lt_succ _)
        exact hne.elim (fun hz => hc (heq.symm.trans hz)) fun hn => hn heq
    · next heq =>
      have heq : m a = c := by_contra fun hn => heq (Or.inr hn)
      rw [ih hs]
      constructor
      · intro h j hj
        cases j with
        | zero => exact heq
        | succ j =>
          rw [List.getD_cons_succ, ← Nat.add_assoc, Nat.add_right_comm]
          exact h j (Nat.lt_of_succ_lt_succ hj)
      · intro h j hj
        have := h (j + 1) (Nat.succ_lt_succ hj)
        rwa [List.getD_cons_succ, ← Nat.add_assoc, Nat.add_right_comm] at this

theorem strcpy_apply (m : ℕ → UInt8) (a : ℕ) (s : List UInt8) (x : ℕ) :
    strcpy m a s x = if a ≤ x ∧ x < a + (s.length + 1) then s.getD (x - a) 0 else m x := by
  induction s generalizing m a with
  | nil =>
    rw [strcpy, Function.update_apply, List.length_nil, List.getD_nil]
    refine if_congr ?_ rfl rfl
    omega
  | cons c s ih =>
    rw [strcpy, ih, List.length_cons]
    by_cases hx : x = a
    · subst hx
      rw [if_neg (by omega), if_pos (by omega), Function.update_self, Nat.sub_self, List.getD_cons_zero]
    · rw [Function.update_of_ne hx]
      by_cases hin : a ≤ x ∧ x < a + (s.length + 1 + 1)
      · rw [if_pos hin, if_pos (by omega), ← List.getD_cons_succ, show x - (a + 1) + 1 = x - a by omega]
      · rw [if_neg hin, if_neg (by omega)]

/-- A string that has been copied is found. -/
theorem strcmp_strcpy (m : ℕ → UInt8) (a : ℕ) (h0 : 0 ∉ s) : strcmp (strcpy m a s) a s = 0 := by
  refine (strcmp_eq_zero h0).mpr fun j hj => ?_
  rw [strcpy_apply, if_pos (by omega), Nat.add_sub_cancel_left]

/-- A string that ends in a field of `n` bytes is shorter than the field. -/
theorem length_of_strcmp (h0 : 0 ∉ s) (hs : strcmp m a s = 0) (hend : ∃ j < n, m (a + j) = 0) : s.length < n := by
  obtain ⟨j, hj, hz⟩ := hend
  by_contra hlt
  have := (strcmp_eq_zero h0).mp hs j (by omega)
  rw [hz, List.getD_eq_getElem _ _ (by omega)] at this
  exact h0 (this ▸ List.getElem_mem _)

/-- At one place there is one string. -/
theorem strcmp_unique (h0 : 0 ∉ s) (h0' : 0 ∉ s') (hs : strcmp m a s = 0) (hs' : strcmp m a s' = 0) : s = s' := by
  have hlt : ∀ {s s' : List UInt8}, 0 ∉ s → 0 ∉ s' → strcmp m a s = 0 → strcmp m a s' = 0 → s.length ≤ s'.length := by
    intro s s' h0 h0' hs hs'
    refine Nat.le_of_lt_succ (length_of_strcmp h0 hs ⟨s'.length, Nat.lt_succ_self _, ?_⟩)
    rw [(strcmp_eq_zero h0').mp hs' _ (Nat.le_refl _), List.getD_eq_default _ _ (Nat.le_refl _)]
  have hlen := Nat.le_antisymm (hlt h0 h0' hs hs') (hlt h0' h0 hs' hs)
  refine List.ext_getElem hlen fun j hj hj' => ?_
  rw [← List.getD_eq_getElem s 0 hj, ← List.getD_eq_getElem s' 0 hj', ← (strcmp_eq_zero h0).mp hs j (Nat.le_of_lt hj),
    (strcmp_eq_zero h0').mp hs' j (Nat.le_of_lt hj')]

/-- Nothing beyond a field is looked at that the string ends in. -/
theorem strcmp_congr (h0 : 0 ∉ s) (hm : ∀ x, a ≤ x → x < a + n → m x = m' x) (hend : ∃ j < n, m (a + j) = 0) :
    strcmp m a s = 0 ↔ strcmp m' a s = 0 := by
  have hgo : ∀ {m m' : ℕ → UInt8},
      (∀ x, a ≤ x → x < a + n → m x = m' x) → (∃ j < n, m (a + j) = 0) →
      strcmp m a s = 0 → strcmp m' a s = 0 := by
    intro m m' hm hend hs
    have hlen := length_of_strcmp h0 hs hend
    refine (strcmp_eq_zero h0).mpr fun j hj => ?_
    rw [← hm (a + j) (by omega) (by omega)]
    exact (strcmp_eq_zero h0).mp hs j hj
  refine ⟨hgo hm hend, hgo (fun x h1 h2 => (hm x h1 h2).symm) ?_⟩
  obtain ⟨j, hj, hz⟩ := hend
  exact ⟨j, hj, by rw [← hm (a + j) (by omega) (by omega)]; exact hz⟩

end OsLab.Lib
