import Mathlib.Algebra.Group.Int.Defs
import Mathlib.Algebra.GroupWithZero.Nat
import Mathlib.Data.Finset.Range
import Mathlib.Data.Int.Notation
import Mathlib.Logic.Function.Basic
import Mathlib.Tactic.Simps.Basic

/-!
# The screen

`screen_write`, `screen_clear` and `screen_move_cursor`. Every task has a cursor, and all write to
`new_screen`. The index of every access to `new_screen` is noted, also of those outside the array; what is
sent to the terminal is left out.

A cursor is a spot on the line of the `SCREEN_WIDTH * SCREEN_HEIGHT` cells (`spot`): a character goes one spot on, a
backspace one back, and a newline to the next row (`advance`). The row below the last one is a spot, too: a
newline or a full row may lead there. The characters stay on the screen exactly when none is written there
(`onScreen_iff`).
-/

namespace OsLab.Screen

/-- `SCREEN_WIDTH`. -/
def SCREEN_WIDTH : Int32 := 80

/-- `SCREEN_HEIGHT`. -/
def SCREEN_HEIGHT : Int32 := 50

/-- `SCREEN_LOC(x, y)`. -/
def SCREEN_LOC (x y : Int32) : Int32 := y * SCREEN_WIDTH + x

/-- `cursor_x` and `cursor_y` of a task. -/
structure Cursor where
  cursor_x : Int32
  cursor_y : Int32

variable {τ : Type} [DecidableEq τ]

/-- The buffers and the cursors of the tasks. -/
structure State (τ : Type) where
  cursor : τ → Cursor
  new_screen : Int32 → UInt8
  old_screen : Int32 → UInt8
  /-- The indices of the accesses to `new_screen`, the last one first. -/
  accesses : List Int32

/-! ### The functions -/

/-- `new_screen[SCREEN_LOC(current_running->cursor_x, current_running->cursor_y)] = ch`. -/
def put (t : τ) (ch : UInt8) (s : State τ) : State τ :=
  let i := SCREEN_LOC (s.cursor t).cursor_x (s.cursor t).cursor_y
  { s with new_screen := Function.update s.new_screen i ch, accesses := i :: s.accesses }

/-- Assign the cursor of `current_running`. -/
def setCursor (t : τ) (c : Cursor) (s : State τ) : State τ := { s with cursor := Function.update s.cursor t c }

/-- The cursor after a newline. -/
def newline (c : Cursor) : Cursor :=
  { cursor_x := 0, cursor_y := if c.cursor_y < SCREEN_HEIGHT then c.cursor_y + 1 else c.cursor_y }

/-- The cursor after a backspace. -/
def backspace (c : Cursor) : Cursor :=
  if c.cursor_x > 0 then { c with cursor_x := c.cursor_x - 1 }
  else if c.cursor_y > 0 then { cursor_x := SCREEN_WIDTH - 1, cursor_y := c.cursor_y - 1 }
  else c

/-- The cursor after another character. -/
def forward (c : Cursor) : Cursor :=
  if c.cursor_x + 1 ≥ SCREEN_WIDTH then newline c else { c with cursor_x := c.cursor_x + 1 }

/-- `screen_write_ch(ch)`, by task `t`. -/
def screen_write_ch (t : τ) (ch : UInt8) (s : State τ) : State τ :=
  if ch = 10 then setCursor t (newline (s.cursor t)) s
  else if ch = 8 ∨ ch = 127 then put t 32 (setCursor t (backspace (s.cursor t)) s)
  else setCursor t (forward (s.cursor t)) (put t ch s)

/-- The indices of the cells, row by row. -/
def cells : List Int32 := (List.range 50).flatMap fun i =>
    (List.range 80).map fun j => SCREEN_LOC (Int32.ofNat j) (Int32.ofNat i)

/-- `screen_reflush()`. -/
def screen_reflush (s : State τ) : State τ :=
  { s with
    old_screen := fun i => if i ∈ cells then s.new_screen i else s.old_screen i
    accesses := cells.reverse ++ s.accesses }

/-- `screen_clear()`, by task `t`. -/
def screen_clear (t : τ) (s : State τ) : State τ :=
  screen_reflush (setCursor t ⟨0, 0⟩ { s with
    new_screen := fun i => if i ∈ cells then 32 else s.new_screen i
    old_screen := fun i => if i ∈ cells then 32 else s.old_screen i
    accesses := cells.reverse ++ s.accesses })

/-- `v` if it is within `0` and `limit - 1`, else the nearest value that is. -/
def clamp (limit v : Int32) : Int32 := if v ≥ limit then limit - 1 else if v < 0 then 0 else v

/-- `screen_move_cursor(x, y)`, by task `t`. -/
def screen_move_cursor (t : τ) (x y : Int32) (s : State τ) : State τ :=
  setCursor t ⟨clamp SCREEN_WIDTH x, clamp SCREEN_HEIGHT y⟩ s

/-- The characters that `screen_write(buff)` comes to: `l` is an `int`. -/
def written (buff : List UInt8) : List UInt8 := buff.take (Int32.ofNat buff.length).toInt.toNat

/-- `screen_write(buff)`, by task `t`. -/
def screen_write (t : τ) (buff : List UInt8) (s : State τ) : State τ :=
  (written buff).foldl (fun s ch => screen_write_ch t ch s) s

/-! ### Runs -/

/-- The calls. -/
inductive Call where
  | screen_clear
  | screen_move_cursor (x y : Int32)
  | screen_write (buff : List UInt8)

/-- The steps of the calls. -/
inductive Step where
  | screen_clear
  | screen_move_cursor (x y : Int32)
  | screen_write_ch (ch : UInt8)

/-- A call by a task. -/
def call (s : State τ) : τ × Call → State τ
  | (t, .screen_clear) => screen_clear t s
  | (t, .screen_move_cursor x y) => screen_move_cursor t x y s
  | (t, .screen_write buff) => screen_write t buff s

/-- A step by a task. -/
def step (s : State τ) : τ × Step → State τ
  | (t, .screen_clear) => screen_clear t s
  | (t, .screen_move_cursor x y) => screen_move_cursor t x y s
  | (t, .screen_write_ch ch) => screen_write_ch t ch s

/-- The steps of a call. -/
def steps : τ × Call → List (τ × Step)
  | (t, .screen_clear) => [(t, .screen_clear)]
  | (t, .screen_move_cursor x y) => [(t, .screen_move_cursor x y)]
  | (t, .screen_write buff) => (written buff).map fun ch => (t, .screen_write_ch ch)

/-- A call is its steps. -/
theorem call_eq (s : State τ) (c : τ × Call) : call s c = (steps c).foldl step s := by
  obtain ⟨t, c⟩ := c
  cases c with
  | screen_clear => rfl
  | screen_move_cursor x y => rfl
  | screen_write buff =>
    rw [call, steps, List.foldl_map]
    rfl

/-- A cell of the screen. -/
def InScreen (i : Int32) : Prop := 0 ≤ i.toInt ∧ i.toInt < 80 * 50

/-- All accesses were to cells of the screen, and the cursors are in its columns. -/
def OnScreen (s : State τ) : Prop := (∀ i ∈ s.accesses, InScreen i) ∧
    ∀ t, 0 ≤ (s.cursor t).cursor_x.toInt ∧ (s.cursor t).cursor_x.toInt < 80

/-- A cursor that `screen_clear` or `screen_move_cursor` may leave. -/
def Placed (c : Cursor) : Prop := 0 ≤ c.cursor_x.toInt ∧
    c.cursor_x.toInt < 80 ∧ 0 ≤ c.cursor_y.toInt ∧ c.cursor_y.toInt < 50

instance (c : Cursor) : Decidable (Placed c) := inferInstanceAs (Decidable (_ ∧ _ ∧ _ ∧ _))

/-! ### Spots -/

/-- The spot of a cursor. -/
def spot (c : Cursor) : ℤ := c.cursor_y.toInt * 80 + c.cursor_x.toInt

/-- The first spot below the screen. -/
def BELOW : ℤ := 80 * 50

/-- Where a character takes the cursor. -/
def advance (ch : UInt8) (p : ℤ) : ℤ :=
  if ch = 10 then min (p / 80 * 80 + 80) BELOW
  else if ch = 8 ∨ ch = 127 then max (p - 1) 0
  else p + 1

/-- Where a step takes the cursors. -/
def move (p : τ → ℤ) : τ × Step → τ → ℤ
  | (t, .screen_clear) => Function.update p t 0
  | (t, .screen_move_cursor x y) => Function.update p t (spot ⟨clamp SCREEN_WIDTH x, clamp SCREEN_HEIGHT y⟩)
  | (t, .screen_write_ch ch) => Function.update p t (advance ch (p t))

/-- A character that is put where the cursor is. -/
def Printable (ch : UInt8) : Prop := ch ≠ 10 ∧ ch ≠ 8 ∧ ch ≠ 127

/-- No character is put below the screen when the cursors go from `p` on. -/
def Roomy (p : τ → ℤ) (l : List (τ × Step)) : Prop :=
  ∀ l₁ t ch, l₁ ++ [(t, .screen_write_ch ch)] <+: l → Printable ch → l₁.foldl move p t ≠ BELOW

section Proofs

variable {s : State τ} {p : τ → ℤ} {c : Cursor} {q : ℤ} {t : τ} {ch : UInt8} {l : List (τ × Step)}

/-! ### One character -/

/-- The cursor is at the spot `q`. -/
structure At (c : Cursor) (q : ℤ) : Prop where
  value : spot c = q
  column : 0 ≤ c.cursor_x.toInt ∧ c.cursor_x.toInt < 80
  range : 0 ≤ q ∧ q ≤ BELOW

theorem toInt_add {x y : Int32} (h1 : -2 ^ 31 ≤ x.toInt + y.toInt) (h2 : x.toInt + y.toInt < 2 ^ 31) :
    (x + y).toInt = x.toInt + y.toInt := by
  rw [Int32.toInt_add, Int.bmod_def]
  split <;> omega

theorem toInt_sub {x y : Int32} (h1 : -2 ^ 31 ≤ x.toInt - y.toInt) (h2 : x.toInt - y.toInt < 2 ^ 31) :
    (x - y).toInt = x.toInt - y.toInt := by
  rw [Int32.toInt_sub, Int.bmod_def]
  split <;> omega

/-- The row of a cursor, from its spot. -/
theorem At.row (h : At c q) : c.cursor_y.toInt = q / 80 ∧ 0 ≤ c.cursor_y.toInt ∧ c.cursor_y.toInt ≤ 50 := by
  have hspot := h.value
  have hcol := h.column
  have hrange := h.range
  rw [spot] at hspot
  rw [BELOW] at hrange
  omega

theorem At.loc (h : At c q) : (SCREEN_LOC c.cursor_x c.cursor_y).toInt = q := by
  have hspot := h.value
  have hcol := h.column
  obtain ⟨-, h0, h50⟩ := h.row
  rw [spot] at hspot
  have hmul : (c.cursor_y * SCREEN_WIDTH).toInt = c.cursor_y.toInt * 80 := by
    have hwidth : SCREEN_WIDTH.toInt = 80 := rfl
    rw [Int32.toInt_mul, hwidth, Int.bmod_def]
    split <;> omega
  rw [SCREEN_LOC, toInt_add (by omega) (by omega), hmul, hspot]

/-- A write at the cursor is on the screen, unless the cursor is below it. -/
theorem At.inScreen_iff (h : At c q) : InScreen (SCREEN_LOC c.cursor_x c.cursor_y) ↔ q ≠ BELOW := by
  have hrange := h.range
  rw [InScreen, h.loc]
  rw [BELOW] at hrange ⊢
  omega

theorem At.newline (h : At c q) : At (newline c) (min (q / 80 * 80 + 80) BELOW) := by
  obtain ⟨hrow, h0, h50⟩ := h.row
  have hzero : (0 : Int32).toInt = 0 := rfl
  have hcolumn : 0 ≤ (0 : Int32).toInt ∧ (0 : Int32).toInt < 80 := by decide
  have hrows : SCREEN_HEIGHT.toInt = 50 := rfl
  have hone : (1 : Int32).toInt = 1 := rfl
  have hrange := h.range
  have hbelow : BELOW = 4000 := rfl
  rw [Screen.newline]
  by_cases hlt : c.cursor_y < SCREEN_HEIGHT
  · have hy : c.cursor_y.toInt < 50 := Int32.lt_iff_toInt_lt.mp hlt
    have hsucc : (c.cursor_y + 1).toInt = c.cursor_y.toInt + 1 := toInt_add (by omega) (by omega)
    rw [if_pos hlt]
    refine ⟨?_, hcolumn, by omega, Int.min_le_right _ _⟩
    simp only [spot, hsucc, hzero]
    omega
  · have hy : ¬ c.cursor_y.toInt < 50 := fun h => hlt (Int32.lt_iff_toInt_lt.mpr h)
    rw [if_neg hlt]
    refine ⟨?_, hcolumn, by omega, Int.min_le_right _ _⟩
    simp only [spot, hzero]
    omega

theorem At.backspace (h : At c q) : At (backspace c) (max (q - 1) 0) := by
  obtain ⟨hrow, h0, h50⟩ := h.row
  have hspot := h.value
  have hcol := h.column
  have hrange := h.range
  have hone : (1 : Int32).toInt = 1 := rfl
  have hlast : (SCREEN_WIDTH - 1).toInt = 79 := rfl
  rw [spot] at hspot
  rw [BELOW] at hrange
  rw [Screen.backspace]
  by_cases hx : c.cursor_x > 0
  · have hx' : 0 < c.cursor_x.toInt := Int32.lt_iff_toInt_lt.mp hx
    have hpred : (c.cursor_x - 1).toInt = c.cursor_x.toInt - 1 := toInt_sub (by omega) (by omega)
    rw [if_pos hx]
    refine ⟨?_, ?_, by omega, by rw [BELOW]; omega⟩
    · simp only [spot, hpred]
      omega
    · simp only [hpred]
      omega
  · have hx' : ¬ 0 < c.cursor_x.toInt := fun h => hx (Int32.lt_iff_toInt_lt.mpr h)
    rw [if_neg hx]
    by_cases hy : c.cursor_y > 0
    · have hy' : 0 < c.cursor_y.toInt := Int32.lt_iff_toInt_lt.mp hy
      have hpred : (c.cursor_y - 1).toInt = c.cursor_y.toInt - 1 := toInt_sub (by omega) (by omega)
      rw [if_pos hy]
      refine ⟨?_, by simp only [hlast]; omega, by omega, by rw [BELOW]; omega⟩
      simp only [spot, hpred, hlast]
      omega
    · have hy' : ¬ 0 < c.cursor_y.toInt := fun h => hy (Int32.lt_iff_toInt_lt.mpr h)
      rw [if_neg hy]
      refine ⟨?_, hcol, by omega, by rw [BELOW]; omega⟩
      rw [spot]
      omega

theorem At.forward (h : At c q) (hq : q ≠ BELOW) : At (forward c) (q + 1) := by
  obtain ⟨hrow, h0, h50⟩ := h.row
  have hspot := h.value
  have hcol := h.column
  have hrange := h.range
  have hone : (1 : Int32).toInt = 1 := rfl
  have hwidth : SCREEN_WIDTH.toInt = 80 := rfl
  have hsucc : (c.cursor_x + 1).toInt = c.cursor_x.toInt + 1 := toInt_add (by omega) (by omega)
  rw [spot] at hspot
  rw [BELOW] at hrange hq
  rw [Screen.forward]
  by_cases hx : c.cursor_x + 1 ≥ SCREEN_WIDTH
  · have hx' : 80 ≤ (c.cursor_x + 1).toInt := Int32.le_iff_toInt_le.mp hx
    have hnext : min (q / 80 * 80 + 80) BELOW = q + 1 := by
      rw [BELOW]
      omega
    rw [if_pos hx, ← hnext]
    exact h.newline
  · have hx' : ¬ 80 ≤ (c.cursor_x + 1).toInt := fun h => hx (Int32.le_iff_toInt_le.mpr h)
    rw [if_neg hx]
    refine ⟨?_, ?_, by omega, by rw [BELOW]; omega⟩
    · simp only [spot, hsucc]
      omega
    · simp only [hsucc]
      omega

theorem At.of_placed (h : Placed c) : At c (spot c) ∧ spot c ≠ BELOW := by
  obtain ⟨h1, h2, h3, h4⟩ := h
  refine ⟨⟨rfl, ⟨h1, h2⟩, ?_, ?_⟩, ?_⟩
  all_goals rw [spot]
  · omega
  · rw [BELOW]
    omega
  · rw [BELOW]
    omega

/-! ### One step -/

/-- The cursors are at the spots `p`. -/
def Follows (s : State τ) (p : τ → ℤ) : Prop := ∀ t, At (s.cursor t) (p t)

theorem Follows.setCursor (h : Follows s p) (hc : At c q) : Follows (setCursor t c s) (Function.update p t q) := by
  intro u
  rw [Screen.setCursor]
  by_cases hu : u = t
  · subst hu
    simpa using hc
  · simpa [hu] using h u

theorem toInt_ofNat {n : ℕ} (h : n < 2 ^ 31) : (Int32.ofNat n).toInt = n := Int32.toInt_ofNat_of_lt h

theorem inScreen_cells : ∀ i ∈ cells, InScreen i := by
  intro i hi
  obtain ⟨y, hy, hi⟩ := List.mem_flatMap.mp hi
  obtain ⟨x, hx, rfl⟩ := List.mem_map.mp hi
  rw [List.mem_range] at hx hy
  have hcx : (Int32.ofNat x).toInt = x := toInt_ofNat (by omega)
  have hcy : (Int32.ofNat y).toInt = y := toInt_ofNat (by omega)
  obtain ⟨hat, hne⟩ := @At.of_placed ⟨Int32.ofNat x, Int32.ofNat y⟩
    ⟨by rw [hcx]; omega, by rw [hcx]; omega, by rw [hcy]; omega, by rw [hcy]; omega⟩
  exact hat.inScreen_iff.mpr hne

theorem clamp_bounds {limit : Int32} (h : 0 < limit.toInt) (v : Int32) :
    0 ≤ (clamp limit v).toInt ∧ (clamp limit v).toInt < limit.toInt := by
  have hlt := limit.toInt_lt
  have hone : (1 : Int32).toInt = 1 := rfl
  have hpred : (limit - 1).toInt = limit.toInt - 1 := toInt_sub (by omega) (by omega)
  rw [clamp]
  split
  · omega
  · next hlimit =>
    have hv : ¬ limit.toInt ≤ v.toInt := fun h => hlimit (Int32.le_iff_toInt_le.mpr h)
    split
    · exact ⟨Int.le_refl _, h⟩
    · next hneg =>
      have hv' : ¬ v.toInt < 0 := fun h => hneg (Int32.lt_iff_toInt_lt.mpr h)
      omega

theorem placed_clamp (x y : Int32) : Placed ⟨clamp SCREEN_WIDTH x, clamp SCREEN_HEIGHT y⟩ := by
  obtain ⟨h1, h2⟩ := @clamp_bounds SCREEN_WIDTH (by decide) x
  obtain ⟨h3, h4⟩ := @clamp_bounds SCREEN_HEIGHT (by decide) y
  exact ⟨h1, h2, h3, h4⟩

/-- The step does not put a character below the screen. -/
def Fits (p : τ → ℤ) : τ × Step → Prop
  | (t, .screen_write_ch ch) => Printable ch → p t ≠ BELOW
  | _ => True

/-- A step that fits accesses cells of the screen only, and takes the cursors to the next spots. -/
theorem step_onScreen (h : Follows s p) (hs : ∀ i ∈ s.accesses, InScreen i) (a : τ × Step) (hf : Fits p a) :
    (∀ i ∈ (step s a).accesses, InScreen i) ∧ Follows (step s a) (move p a) := by
  obtain ⟨t, a⟩ := a
  cases a with
  | screen_clear =>
    refine ⟨fun i hi => ?_, ?_⟩
    · have hcases : i ∈ cells ∨ i ∈ cells ∨ i ∈ s.accesses := by
        simpa [step, screen_clear, screen_reflush, setCursor] using hi
      rcases hcases with hi | hi | hi
      · exact inScreen_cells i hi
      · exact inScreen_cells i hi
      · exact hs i hi
    · have hzero : At ⟨0, 0⟩ 0 := (At.of_placed (c := ⟨0, 0⟩) (by decide)).1
      exact h.setCursor hzero
  | screen_move_cursor x y => exact ⟨hs, h.setCursor (At.of_placed (placed_clamp x y)).1⟩
  | screen_write_ch ch =>
    rw [step, screen_write_ch, move, advance]
    by_cases hn : ch = 10
    · rw [if_pos hn, if_pos hn]
      exact ⟨hs, h.setCursor (h t).newline⟩
    · rw [if_neg hn, if_neg hn]
      by_cases hb : ch = 8 ∨ ch = 127
      · rw [if_pos hb, if_pos hb]
        have hback := (h t).backspace
        refine ⟨fun i hi => ?_, h.setCursor hback⟩
        rcases List.mem_cons.mp hi with rfl | hi
        · have hcur : (setCursor t (backspace (s.cursor t)) s).cursor t = backspace (s.cursor t) :=
            Function.update_self ..
          rw [hcur, hback.inScreen_iff]
          have hrange := (h t).range
          have hbelow : BELOW = 4000 := rfl
          omega
        · exact hs i hi
      · rw [if_neg hb, if_neg hb]
        have hne : p t ≠ BELOW := hf ⟨hn, fun h8 => hb (Or.inl h8), fun h127 => hb (Or.inr h127)⟩
        refine ⟨fun i hi => ?_, h.setCursor ((h t).forward hne)⟩
        rcases List.mem_cons.mp hi with rfl | hi
        · exact (h t).inScreen_iff.mpr hne
        · exact hs i hi

/-- A step that does not fit accesses a cell below the screen. -/
theorem step_below (h : Follows s p) (a : τ × Step) (hf : ¬ Fits p a) : ∃ i ∈ (step s a).accesses, ¬ InScreen i := by
  obtain ⟨t, a⟩ := a
  cases a with
  | screen_clear => exact absurd trivial hf
  | screen_move_cursor x y => exact absurd trivial hf
  | screen_write_ch ch =>
    obtain ⟨⟨hn, h8, h127⟩, hp⟩ := Classical.not_imp.mp hf
    refine ⟨SCREEN_LOC (s.cursor t).cursor_x (s.cursor t).cursor_y, ?_, ?_⟩
    · have hb : ¬ (ch = 8 ∨ ch = 127) := fun h => h.elim h8 h127
      rw [step, screen_write_ch, if_neg hn, if_neg hb]
      exact List.mem_cons_self ..
    · rw [(h t).inScreen_iff]
      exact hp

/-! ### Runs -/

theorem roomy_cons (a : τ × Step) : Roomy p (a :: l) ↔ Fits p a ∧ Roomy (move p a) l := by
  constructor
  · intro h
    refine ⟨?_, fun l₁ t ch hl hp => h (a :: l₁) t ch (List.cons_prefix_cons.mpr ⟨rfl, hl⟩) hp⟩
    obtain ⟨t, a⟩ := a
    cases a with
    | screen_clear => trivial
    | screen_move_cursor x y => trivial
    | screen_write_ch ch => exact h [] t ch ⟨l, rfl⟩
  · rintro ⟨hf, hr⟩ l₁ t ch hl hp
    cases l₁ with
    | nil =>
      obtain ⟨rest, hrest⟩ := hl
      obtain ⟨rfl, -⟩ := List.cons_eq_cons.mp hrest
      exact hf hp
    | cons b l₁ =>
      obtain ⟨rfl, hrest⟩ := List.cons_prefix_cons.mp hl
      exact hr l₁ t ch hrest hp

theorem roomy_nil : Roomy p [] := by
  intro l₁ t ch hl
  simp at hl

/-- The steps of a run. -/
theorem onScreen_steps_iff (h : Follows s p) (hs : ∀ i ∈ s.accesses, InScreen i) (l : List (τ × Step)) :
    (∀ l₁, l₁ <+: l → OnScreen (l₁.foldl step s)) ↔ Roomy p l := by
  have hstart : OnScreen s := ⟨hs, fun t => (h t).column⟩
  induction l generalizing s p with
  | nil =>
    refine iff_of_true (fun l₁ hl => ?_) roomy_nil
    rw [List.prefix_nil.mp hl]
    exact hstart
  | cons a l ih =>
    rw [roomy_cons]
    by_cases hf : Fits p a
    · obtain ⟨hs', h'⟩ := step_onScreen h hs a hf
      rw [and_iff_right hf]
      refine Iff.trans ?_ (ih h' hs' ⟨hs', fun t => (h' t).column⟩)
      constructor
      · intro hall l₁ hl
        exact hall (a :: l₁) (List.cons_prefix_cons.mpr ⟨rfl, hl⟩)
      · intro hall l₁ hl
        cases l₁ with
        | nil => exact hstart
        | cons b l₁ =>
          obtain ⟨rfl, hrest⟩ := List.cons_prefix_cons.mp hl
          exact hall l₁ hrest
    · obtain ⟨i, hi, hout⟩ := step_below h a hf
      refine iff_of_false (fun hall => hout ?_) fun hr => hf hr.1
      exact (hall [a] ⟨l, rfl⟩).1 i hi

/-- **Writes stay on the screen exactly when no character is put below it.** This holds of all runs of calls
by any tasks, from cursors that `screen_clear` or `screen_move_cursor` have left. -/
theorem onScreen_iff (h0 : s.accesses = []) (hc : ∀ t, Placed (s.cursor t)) (calls : List (τ × Call)) :
    (∀ l, l <+: calls.flatMap steps → OnScreen (l.foldl step s)) ↔
    Roomy (fun t => spot (s.cursor t)) (calls.flatMap steps) := by
  refine onScreen_steps_iff (fun t => (At.of_placed (hc t)).1) ?_ _
  rw [h0]
  exact nofun

theorem calls_eq (s : State τ) (calls : List (τ × Call)) : calls.foldl call s = (calls.flatMap steps).foldl step s := by
  induction calls generalizing s with
  | nil => rfl
  | cons c calls ih => rw [List.foldl_cons, ih, call_eq, List.flatMap_cons, List.foldl_append]

end Proofs

/-! ### The last row -/

/-- The screen as it is loaded, for one task. -/
def blank : State Unit := ⟨fun _ => ⟨0, 0⟩, fun _ => 0, fun _ => 0, []⟩

theorem placed_blank (t : Unit) : Placed (blank.cursor t) := by
  show Placed ⟨0, 0⟩
  decide

/-- A character in the last column of the second last row, and a newline. -/
theorem onScreen_secondLast : OnScreen
    (([((), Call.screen_move_cursor 79 48), ((), .screen_write [97, 10])].flatMap steps).foldl step blank) := by
  refine (onScreen_iff rfl placed_blank _).mpr ?_ _ (List.prefix_refl _)
  show Roomy _ [((), .screen_move_cursor 79 48), ((), .screen_write_ch 97), ((), .screen_write_ch 10)]
  refine (roomy_cons _).mpr ⟨trivial,
    (roomy_cons _).mpr ⟨fun _ => ?_, (roomy_cons _).mpr ⟨fun h => absurd rfl h.1, roomy_nil⟩⟩⟩
  decide

/-- A newline in the last row, and one character. -/
theorem onScreen_fails : ¬ ∀ (s : State Unit) (calls : List (Unit × Call)),
    s.accesses = [] → (∀ t, Placed (s.cursor t)) →
    ∀ l, l <+: calls.flatMap steps → OnScreen (l.foldl step s) := by
  intro hall
  have hlast := hall blank [((), .screen_move_cursor 0 49),
    ((), .screen_write [10, 97])] rfl placed_blank _ (List.prefix_refl _)
  have hin : InScreen 4000 := hlast.1 4000 (List.mem_cons_self ..)
  exact absurd hin.2 (by decide)

end OsLab.Screen
