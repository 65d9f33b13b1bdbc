import Mathlib.Data.Nat.Log
import OsLab.Libc.Atol

/-!
# Writing numbers

`itoa` of the user library, with the `strlen` and `strrev` that it calls. The digits come out lowest first,
so that the buffer is reversed in the end.

What a call leaves in memory is written with `write`: the characters of a list from an address on, and all
other bytes as they were. A number that is not negative becomes its numeral if the buffer has room for it
and for the terminator (`itoa_fits`), and then `atoi` reads it back. Otherwise the call fails and has
written no further than the buffer (`itoa_short`); only a buffer of one byte is overrun (`itoa_one`).
-/

namespace OsLab.Libc

open Lib

/-! ### The functions -/

/-- `strlen(src)`, from `src + i` on. -/
def strlen (m : ℕ → UInt8) (src : ℕ) : ℕ → ℕ → Option ℕ
  | 0, _ => none
  | fuel + 1, i => if m (src + i) ≠ 0 then strlen m src fuel (i + 1) else some i

/-- `tmp = str[i]; str[i] = str[j]; str[j] = tmp`. -/
def swapBytes (m : ℕ → UInt8) (p q : ℕ) : ℕ → UInt8 := Function.update (Function.update m p (m q)) q (m p)

/-- The loop of `strrev`. -/
def strrevLoop (str : ℕ) : ℕ → ℕ → ℕ → (ℕ → UInt8) → Option (ℕ → UInt8)
  | 0, _, _, _ => none
  | fuel + 1, i, j, m => if i < j then strrevLoop str fuel (i + 1) (j - 1) (swapBytes m (str + i) (str + j)) else some m

/-- `strrev(str)`. -/
def strrev (fuel str : ℕ) (m : ℕ → UInt8) : Option (ℕ → UInt8) := do
  let len ← strlen m str fuel 0
  strrevLoop str fuel 0 (len - 1) m

/-- The character of a digit. -/
def digitChar (digit : ℤ) : UInt8 := if digit < 0xA then UInt8.ofInt (48 + digit) else UInt8.ofInt (65 + digit - 0xA)

/-- The loop of `itoa`: memory, `sum` and `i` after it. -/
def itoaLoop (str : ℕ) (len base : ℤ) : ℕ → (ℕ → UInt8) → ℤ → ℕ → Option ((ℕ → UInt8) × ℤ × ℕ)
  | 0, _, _, _ => none
  | fuel + 1, m, sum, i =>
    let m := Function.update m (str + i) (digitChar (sum.tmod base))
    let sum := sum.tdiv base
    let i := i + 1
    if sum ≠ 0 ∧ (i : ℤ) < len - 1 then itoaLoop str len base fuel m sum i else some (m, sum, i)

/-- `itoa(num, str, len, base)`: memory afterwards and what is returned. -/
def itoa (fuel : ℕ) (m : ℕ → UInt8) (num : ℤ) (str : ℕ) (len base : ℤ) : Option ((ℕ → UInt8) × ℤ) :=
  if len = 0 then some (m, -1)
  else do
    let (m, sum, i) ← itoaLoop str len base fuel m num 0
    if (i : ℤ) = len - 1 ∧ sum ≠ 0 then some (m, -1)
    else do
      let m ← strrev fuel str (Function.update m (str + i) 0)
      some (m, 0)

/-! ### Numerals -/

/-- The lowest `k` digits of a number, the lowest first. -/
def lowDigits (b : ℕ) : ℕ → ℕ → List ℕ
  | 0, _ => []
  | k + 1, n => n % b :: lowDigits b k (n / b)

/-- How many digits a number has. -/
def digitCount (b n : ℕ) : ℕ := Nat.log b n + 1

/-- The characters of the lowest `k` digits. -/
def lowChars (b k n : ℕ) : List UInt8 := (lowDigits b k n).map fun d : ℕ => digitChar d

/-- The numeral of a number. -/
def numeral (b n : ℕ) : List UInt8 := (lowChars b (digitCount b n) n).reverse

/-- The characters from `a` on. -/
def write (m : ℕ → UInt8) (a : ℕ) (cs : List UInt8) : ℕ → UInt8 :=
  fun x => if a ≤ x ∧ x < a + cs.length then cs.getD (x - a) 0 else m x

section Proofs

variable {m : ℕ → UInt8} {str fuel b n k i j a x : ℕ} {len : ℤ} {cs : List UInt8} {c : UInt8}

theorem write_of_lt (h : x < a ∨ a + cs.length ≤ x) : write m a cs x = m x := by
  rw [write, if_neg]
  omega

theorem write_add (h : i < cs.length) : write m a cs (a + i) = cs.getD i 0 := by
  rw [write, if_pos ⟨by omega, by omega⟩, Nat.add_sub_cancel_left]

theorem write_nil : write m a [] = m := by
  funext x
  refine write_of_lt ?_
  simp only [List.length_nil]
  omega

/-- One character after the other. -/
theorem write_cons : write (Function.update m a c) (a + 1) cs = write m a (c :: cs) := by
  funext x
  by_cases hx : a + 1 ≤ x ∧ x < a + 1 + cs.length
  · obtain ⟨i, rfl⟩ : ∃ i, x = a + 1 + i := ⟨x - (a + 1), by omega⟩
    rw [write_add (by omega), Nat.add_assoc a 1 i, Nat.add_comm 1 i,
      write_add (by rw [List.length_cons]; omega), List.getD_cons_succ]
  · rw [write_of_lt (by omega)]
    by_cases hxa : x = a
    · have hhead : write m a (c :: cs) (a + 0) = _ := write_add (by simp)
      rw [Nat.add_zero, List.getD_cons_zero] at hhead
      rw [hxa, Function.update_self, hhead]
    · rw [Function.update_of_ne hxa, write_of_lt (by rw [List.length_cons]; omega)]

/-- The terminator behind them. -/
theorem write_concat : Function.update (write m a cs) (a + cs.length) c = write m a (cs ++ [c]) := by
  induction cs generalizing m a with
  | nil => rw [write_nil, List.nil_append, ← write_cons, write_nil, List.length_nil, Nat.add_zero]
  | cons d cs ih => rw [← write_cons, List.cons_append, ← write_cons,
      ← ih, List.length_cons, Nat.add_assoc a 1, Nat.add_comm 1]

theorem stringAt_write (hcs : 0 ∉ cs) : StringAt (write m a (cs ++ [0])) a cs := by
  refine ⟨hcs, fun j hj => ?_⟩
  rw [write_add (by rw [List.length_append, List.length_singleton]; omega)]
  rcases Nat.lt_or_ge j cs.length with hlt | hge
  · rw [List.getD_append _ _ _ _ hlt]
  · obtain rfl : j = cs.length := Nat.le_antisymm hj hge
    simp

/-! ### `strrev` -/

theorem strlen_of_stringAt (hs : StringAt m str cs) (hi : i ≤ cs.length) (hf : cs.length - i < fuel) :
    strlen m str fuel i = some cs.length := by
  induction fuel generalizing i with
  | zero => omega
  | succ fuel ih =>
    rcases Nat.lt_or_ge i cs.length with hlt | hge
    · have hne : m (str + i) ≠ 0 := by
        rw [hs.2 i hi, List.getD_eq_getElem _ _ hlt]
        exact fun h => hs.1 (h ▸ List.getElem_mem hlt)
      rw [strlen, if_pos hne, ih hlt (by omega)]
    · obtain rfl : i = cs.length := Nat.le_antisymm hi hge
      have hzero : m (str + cs.length) = 0 := by
        rw [hs.2 _ hi]
        simp
      rw [strlen, if_neg (not_not_intro hzero)]

/-- The bytes between `i` and `j` change places. -/
theorem strrevLoop_eq (hf : j - i < fuel) : strrevLoop str fuel i j m =
    some fun x => if str + i ≤ x ∧ x ≤ str + j then m (str + i + (str + j) - x) else m x := by
  induction fuel generalizing i j m with
  | zero => omega
  | succ fuel ih =>
    rw [strrevLoop]
    split
    · next hlt =>
      rw [ih (by omega)]
      congr 1
      funext x
      by_cases hin : str + (i + 1) ≤ x ∧ x ≤ str + (j - 1)
      · rw [if_pos hin, if_pos ⟨by omega, by omega⟩, swapBytes,
          Function.update_of_ne (by omega), Function.update_of_ne (by omega)]
        congr 1
        omega
      · rw [if_neg hin, swapBytes]
        by_cases hj : x = str + j
        · rw [hj, Function.update_self, if_pos ⟨by omega, by omega⟩, Nat.add_sub_cancel]
        · rw [Function.update_of_ne hj]
          by_cases hi : x = str + i
          · rw [hi, Function.update_self, if_pos ⟨by omega, by omega⟩, Nat.add_sub_cancel_left]
          · rw [Function.update_of_ne hi, if_neg (by omega)]
    · next hge =>
      congr 1
      funext x
      by_cases hx : str + i ≤ x ∧ x ≤ str + j
      · rw [if_pos hx]
        congr 1
        omega
      · rw [if_neg hx]

/-- `strrev` reverses the string. -/
theorem strrev_write (hcs : 0 ∉ cs) (hf : cs.length < fuel) :
    strrev fuel a (write m a (cs ++ [0])) = some (write m a (cs.reverse ++ [0])) := by
  have hlen : strlen (write m a (cs ++ [0])) a fuel 0 = some cs.length :=
    strlen_of_stringAt (stringAt_write hcs) (Nat.zero_le _) hf
  rw [strrev, hlen, Option.bind_eq_bind, Option.bind_some, strrevLoop_eq (by omega)]
  congr 1
  funext x
  by_cases hx : a ≤ x ∧ x < a + cs.length
  · obtain ⟨i, rfl⟩ : ∃ i, x = a + i := ⟨x - a, by omega⟩
    have hi : i < cs.length := by omega
    have hplace : a + 0 + (a + (cs.length - 1)) - (a + i) = a + (cs.length - 1 - i) := by omega
    rw [if_pos ⟨by omega, by omega⟩, hplace, write_add (by simp; omega),
      write_add (by simp; omega), List.getD_append _ _ _ _ (by omega),
      List.getD_append _ _ _ _ (by simpa using hi),
      List.getD_eq_getElem _ _ (by omega), List.getD_eq_getElem _ _ (by simpa using hi),
      List.getElem_reverse]
  · have hout : (if a + 0 ≤ x ∧ x ≤ a + (cs.length - 1) then write m a (cs ++ [0]) (a + 0 + (a + (cs.length - 1)) - x)
        else write m a (cs ++ [0]) x) = write m a (cs ++ [0]) x := by
      by_cases hin : a + 0 ≤ x ∧ x ≤ a + (cs.length - 1)
      · rw [if_pos hin]
        congr 1
        omega
      · rw [if_neg hin]
    rw [hout]
    by_cases hend : x = a + cs.length
    · have hcs' : cs.reverse.length = cs.length := List.length_reverse
      rw [hend, write_add (by simp), ← hcs', write_add (by simp)]
      simp
    · rw [write_of_lt (by simp; omega), write_of_lt (by simp; omega)]

/-! ### The digits -/

theorem length_lowDigits : (lowDigits b k n).length = k := by
  induction k generalizing n with
  | zero => rfl
  | succ k ih => rw [lowDigits, List.length_cons, ih]

theorem length_lowChars : (lowChars b k n).length = k := by rw [lowChars, List.length_map, length_lowDigits]

theorem lowDigits_lt (hb : 0 < b) : ∀ d ∈ lowDigits b k n, d < b := by
  induction k generalizing n with
  | zero => simp [lowDigits]
  | succ k ih => exact List.forall_mem_cons.mpr ⟨Nat.mod_lt _ hb, ih⟩

/-- The digits make up the number. -/
theorem ofDigits_lowDigits (h : n < b ^ k) : Nat.ofDigits b (lowDigits b k n) = n := by
  induction k generalizing n with
  | zero =>
    rw [Nat.pow_zero, Nat.lt_one_iff] at h
    rw [lowDigits, h, Nat.ofDigits_nil]
  | succ k ih =>
    have hdiv : n / b < b ^ k := Nat.div_lt_of_lt_mul (Nat.pow_succ' ▸ h)
    rw [lowDigits, Nat.ofDigits_cons, ih hdiv]
    exact Nat.mod_add_div n b

theorem digitCount_pos : 0 < digitCount b n := Nat.succ_pos _

theorem lt_pow_digitCount (hb : 2 ≤ b) : n < b ^ digitCount b n := Nat.lt_pow_succ_log_self hb n

theorem div_pow_ne_zero (hb : 2 ≤ b) (hj : 0 < j) (hlt : j < digitCount b n) : n / b ^ j ≠ 0 := by
  rw [digitCount] at hlt
  have hn : n ≠ 0 := by
    rintro rfl
    rw [Nat.log_zero_right] at hlt
    omega
  have hle : b ^ j ≤ n := Nat.pow_le_of_le_log hn (by omega)
  exact Nat.ne_of_gt (Nat.div_pos hle (Nat.pow_pos (by omega)))

theorem digitChar_ne_zero : ∀ d < 36, digitChar (d : ℕ) ≠ 0 := by decide +kernel

theorem zero_notMem_lowChars (hb : 0 < b) (hb' : b ≤ 36) : 0 ∉ lowChars b k n := by
  intro h
  obtain ⟨d, hd, he⟩ := List.mem_map.mp h
  exact digitChar_ne_zero d (Nat.lt_of_lt_of_le (lowDigits_lt hb d hd) hb') he

theorem length_numeral : (numeral b n).length = digitCount b n := by rw [numeral, List.length_reverse, length_lowChars]

theorem zero_notMem_numeral (hb : 0 < b) (hb' : b ≤ 36) : 0 ∉ numeral b n :=
  fun h => zero_notMem_lowChars hb hb' (List.mem_reverse.mp h)

/-! ### The loop -/

/-- The loop goes `k` times around if it does not stop before and stops then. -/
theorem itoaLoop_eq (hk : 0 < k) (hgo : ∀ j, 0 < j → j < k → n / b ^ j ≠ 0 ∧ (i : ℤ) + j < len - 1)
    (hstop : n / b ^ k = 0 ∨ ¬ (i : ℤ) + k < len - 1) (hf : k ≤ fuel) :
    itoaLoop str len b fuel m n i = some (write m (str + i) (lowChars b k n), ((n / b ^ k : ℕ) : ℤ), i + k) := by
  induction k generalizing m n i fuel with
  | zero => omega
  | succ k ih =>
    obtain ⟨fuel, rfl⟩ : ∃ f, fuel = f + 1 := ⟨fuel - 1, by omega⟩
    have hmod : (n : ℤ).tmod b = ((n % b : ℕ) : ℤ) := rfl
    have hdiv : (n : ℤ).tdiv b = ((n / b : ℕ) : ℤ) := rfl
    have hchars : lowChars b (k + 1) n = digitChar ((n % b : ℕ) : ℤ) :: lowChars b k (n / b) := rfl
    have hnext : ∀ j, n / b ^ (j + 1) = n / b / b ^ j := fun j => by rw [Nat.pow_succ', Nat.div_div_eq_div_mul]
    rw [itoaLoop, hmod, hdiv, hchars, hnext, ← write_cons]
    rcases Nat.eq_zero_or_pos k with rfl | hpos
    · have hcond : ¬ (((n / b : ℕ) : ℤ) ≠ 0 ∧ ((i + 1 : ℕ) : ℤ) < len - 1) := by
        rintro ⟨hne, hlt⟩
        rw [Nat.pow_one] at hstop
        rcases hstop with h0 | hge
        · exact hne (by rw [h0]; rfl)
        · exact hge (by push_cast at hlt ⊢; exact hlt)
      rw [if_neg hcond, Nat.pow_zero, Nat.div_one]
      exact congrArg (fun w => some (w, _)) write_nil.symm
    · obtain ⟨hne, hlt⟩ := hgo 1 (by decide) (by omega)
      rw [Nat.pow_one] at hne
      have hcond : ((n / b : ℕ) : ℤ) ≠ 0 ∧ ((i + 1 : ℕ) : ℤ) < len - 1 :=
        ⟨Int.natCast_ne_zero.mpr hne, by push_cast at hlt ⊢; exact hlt⟩
      have hgo' : ∀ j, 0 < j → j < k → n / b / b ^ j ≠ 0 ∧ ((i + 1 : ℕ) : ℤ) + j < len - 1 := by
        intro j hj hjk
        obtain ⟨hne', hlt'⟩ := hgo (j + 1) (by omega) (by omega)
        rw [hnext] at hne'
        refine ⟨hne', ?_⟩
        push_cast at hlt' ⊢
        omega
      have hstop' : n / b / b ^ k = 0 ∨ ¬ ((i + 1 : ℕ) : ℤ) + k < len - 1 := by
        rw [hnext] at hstop
        refine hstop.imp_right fun h => ?_
        push_cast at h ⊢
        omega
      rw [if_pos hcond, ih hpos hgo' hstop' (by omega), Nat.add_assoc str i 1, Nat.add_assoc i 1 k, Nat.add_comm 1 k]

/-! ### `itoa` -/

theorem itoa_of_loop {cs : List UInt8} {q : ℤ} (hlen : len ≠ 0)
    (hloop : itoaLoop str len b fuel m n 0 = some (write m str cs, q, cs.length))
    (hcs : 0 ∉ cs) (hf : cs.length < fuel) : itoa fuel m n str len b =
      if (cs.length : ℤ) = len - 1 ∧
          q ≠ 0 then some (write m str cs, -1) else some (write m str (cs.reverse ++ [0]), 0) := by
  rw [itoa, if_neg hlen, hloop, Option.bind_eq_bind, Option.bind_some]
  dsimp only
  split
  · rfl
  · rw [write_concat, strrev_write hcs hf]
    rfl

/-- There is room for the numeral. -/
theorem itoa_fits (hb : 2 ≤ b) (hb' : b ≤ 36) (hlen : (digitCount b n : ℤ) < len) (hf : digitCount b n < fuel) :
    itoa fuel m n str len b = some (write m str (numeral b n ++ [0]), 0) := by
  have hzero : n / b ^ digitCount b n = 0 := Nat.div_eq_of_lt (lt_pow_digitCount hb)
  have hloop : itoaLoop str len b fuel m n 0 = _ :=
    itoaLoop_eq digitCount_pos (fun j hj hjk => ⟨div_pow_ne_zero hb hj hjk, by push_cast; omega⟩)
      (Or.inl hzero) (Nat.le_of_lt hf)
  rw [hzero, Nat.zero_add, Nat.add_zero] at hloop
  have hcs : 0 ∉ lowChars b (digitCount b n) n := zero_notMem_lowChars (by omega) hb'
  have hlength : (lowChars b (digitCount b n) n).length = digitCount b n := length_lowChars
  rw [itoa_of_loop (by omega) (by rw [hlength]; exact hloop) hcs (by rw [hlength]; exact hf), if_neg, numeral]
  rintro ⟨-, hq⟩
  exact hq rfl

/-- The buffer is too small. -/
theorem itoa_short (hb : 2 ≤ b) (hb' : b ≤ 36) (hk : 0 < k) (hshort : k < digitCount b n) (hf : k < fuel) :
    itoa fuel m n str (k + 1) b = some (write m str (lowChars b k n), -1) := by
  have hloop : itoaLoop str (k + 1) b fuel m n 0 = _ := itoaLoop_eq hk
    (fun j hj hjk => ⟨div_pow_ne_zero hb hj (by omega), by push_cast; omega⟩)
    (Or.inr (by push_cast; omega)) (Nat.le_of_lt hf)
  rw [Nat.zero_add, Nat.add_zero] at hloop
  have hcs : 0 ∉ lowChars b k n := zero_notMem_lowChars (by omega) hb'
  have hlength : (lowChars b k n).length = k := length_lowChars
  have hne : ((n / b ^ k : ℕ) : ℤ) ≠ 0 := Int.natCast_ne_zero.mpr (div_pow_ne_zero hb hk hshort)
  rw [itoa_of_loop (by omega) (by rw [hlength]; exact hloop) hcs (by rw [hlength]; exact hf),
    if_pos ⟨by rw [hlength]; omega, hne⟩]

/-- A buffer of one byte is overrun. -/
theorem itoa_one (hb : 2 ≤ b) (hb' : b ≤ 36) (hf : 1 < fuel) :
    itoa fuel m n str 1 b = some (write m str (lowChars b 1 n ++ [0]), 0) := by
  have hloop : itoaLoop str 1 b fuel m n 0 = _ :=
    itoaLoop_eq (k := 1) (by decide) (fun j hj hjk => by omega) (Or.inr (by decide)) (Nat.le_of_lt hf)
  rw [Nat.zero_add, Nat.add_zero] at hloop
  have hcs : 0 ∉ lowChars b 1 n := zero_notMem_lowChars (by omega) hb'
  rw [itoa_of_loop (by decide) hloop hcs hf, if_neg]
  · rfl
  · rintro ⟨h, -⟩
    rw [length_lowChars] at h
    cases h

/-- **What `itoa` does** with a number that is not negative and a buffer of two bytes or more: it comes
back, writes nothing outside the buffer, and returns 0 exactly if the numeral and the terminator fit; then
they are in the buffer. -/
theorem itoa_writes (hb : 2 ≤ b) (hb' : b ≤ 36) (hlen : 2 ≤ len) : ∃ (m' : ℕ → UInt8) (r : ℤ),
    (∀ fuel > digitCount b n, itoa fuel m n str len b = some (m', r)) ∧
    (∀ x : ℕ, x < str ∨ (str : ℤ) + len ≤ x → m' x = m x) ∧
      (r = 0 ↔ (digitCount b n : ℤ) < len) ∧ (r = 0 → StringAt m' str (numeral b n)) ∧ (r ≠ 0 → r = -1) := by
  by_cases hfits : (digitCount b n : ℤ) < len
  · have hzero : 0 ∉ numeral b n := zero_notMem_numeral (by omega) hb'
    refine ⟨_, 0, fun fuel hf => itoa_fits hb hb' hfits hf,
      fun x hx => write_of_lt ?_, iff_of_true rfl hfits, fun _ => stringAt_write hzero,
      fun h => absurd rfl h⟩
    rw [List.length_append, List.length_singleton, length_numeral]
    omega
  · obtain ⟨k, hk⟩ : ∃ k : ℕ, len = k + 1 := ⟨(len - 1).toNat, by omega⟩
    subst hk
    refine ⟨_, -1, fun fuel hf => itoa_short hb hb' (by omega) (by omega) (by omega),
      fun x hx => write_of_lt ?_, iff_of_false (by decide) hfits,
      fun h => absurd h (by decide), fun _ => rfl⟩
    rw [length_lowChars]
    omega

theorem digitCount_eq (h : b ^ k ≤ n) (h' : n < b ^ (k + 1)) : digitCount b n = k + 1 := by
  rw [digitCount, Nat.log_eq_of_pow_le_of_lt_pow h h']

/-- 255 is written to a buffer of 8 bytes as `FF`. -/
theorem itoa_writes_hexadecimal :
    ∃ m' : ℕ → UInt8, itoa 8 (fun _ => 7) 255 64 8 16 = some (m', 0) ∧ StringAt m' 64 (literal "FF") := by
  have hcount : digitCount 16 255 = 2 := digitCount_eq (k := 1) (by decide) (by decide)
  have hnumeral : numeral 16 255 = literal "FF" := by
    rw [numeral, hcount]
    decide +kernel
  obtain ⟨m', r, he, -, hr, hs, -⟩ := @itoa_writes (fun _ => 7) 64 16 255 8 (by decide) (by decide) (by decide)
  obtain rfl : r = 0 := hr.mpr (by rw [hcount]; decide)
  exact ⟨m', he 8 (by rw [hcount]; decide), hnumeral ▸ hs rfl⟩

/-- **When `itoa` stays inside the buffer**: always but for a buffer of one byte, behind which it writes the
terminator. -/
theorem itoa_inside_iff (hb : 2 ≤ b) (hb' : b ≤ 36) (hlen : 0 ≤ len) :
    ((∀ m : ℕ → UInt8, ∃ (m' : ℕ → UInt8) (r : ℤ), (∀ fuel > digitCount b n, itoa fuel m n str len b = some (m', r)) ∧
      ∀ x : ℕ, x < str ∨ (str : ℤ) + len ≤ x → m' x = m x) ↔ len ≠ 1) ∧
    (len = 1 → ∀ m : ℕ → UInt8, ∀ fuel > digitCount b n,
      itoa fuel m n str len b = some (write m str (lowChars b 1 n ++ [0]), 0)) := by
  have hone : ∀ m : ℕ → UInt8, ∀ fuel > digitCount b n,
      itoa fuel m n str 1 b = some (write m str (lowChars b 1 n ++ [0]), 0) :=
    fun m fuel hf => itoa_one hb hb' (Nat.lt_of_le_of_lt digitCount_pos hf)
  refine ⟨⟨?_, fun hne m => ?_⟩, fun h => h ▸ hone⟩
  · rintro hin rfl
    obtain ⟨m', r, he, hout⟩ := hin fun _ => 1
    have heq := (hone (fun _ => 1) _ (Nat.lt_succ_self _)).symm.trans (he _ (Nat.lt_succ_self _))
    obtain ⟨rfl, -⟩ := Prod.mk.inj (Option.some.inj heq)
    have hend := hout (str + 1) (Or.inr (by push_cast; omega))
    rw [write_add (by rw [List.length_append, length_lowChars]; decide)] at hend
    revert hend
    simp [length_lowChars]
  · by_cases hzero : len = 0
    · exact ⟨m, -1, fun fuel _ => if_pos hzero, fun _ _ => rfl⟩
    · obtain ⟨m', r, he, hout, -⟩ := @itoa_writes m str b n len hb hb' (by omega)
      exact ⟨m', r, he, hout⟩

/-- 255 overruns a buffer of one byte: the terminator is behind it. -/
theorem itoa_inside_iff_hexadecimal :
    itoa 3 (fun _ => 7) (255 : ℕ) 64 1 (16 : ℕ) = some (write (fun _ => 7) 64 [70, 0], 0) := by
  have hcount : digitCount 16 255 = 2 := by decide +kernel
  have hlow : lowChars 16 1 255 = [70] := by decide +kernel
  have hone : itoa 3 (fun _ => 7) (255 : ℕ) 64 1 (16 : ℕ) =
      some (write (fun _ => 7) 64 (lowChars 16 1 255 ++ [0]), 0) :=
    (itoa_inside_iff (by decide) (by decide) (by decide)).2 rfl (fun _ => 7) 3 (by rw [hcount]; decide)
  rwa [hlow] at hone

/-! ### Back again -/

theorem digitChar_ten : ∀ d < 10, isdigit (digitChar (d : ℕ)) = true ∧ digitOf (digitChar (d : ℕ)) = d := by
    decide +kernel

theorem number_numeral : number 10 (numeral 10 n) = n := by
  have hdigits : (lowDigits 10 (digitCount 10 n) n).map (digitOf ∘ fun d : ℕ => digitChar d) =
      lowDigits 10 (digitCount 10 n) n :=
    (List.map_congr_left fun d hd => (digitChar_ten d (lowDigits_lt (by decide) d hd)).2).trans (List.map_id _)
  rw [number, numeral, List.map_reverse, List.reverse_reverse, lowChars,
    List.map_map, hdigits, ofDigits_lowDigits (lt_pow_digitCount (by decide))]

theorem isdigit_numeral : ∀ c ∈ numeral 10 n, isdigit c := by
  intro c hc
  obtain ⟨d, hd, rfl⟩ := List.mem_map.mp (List.mem_reverse.mp hc)
  exact (digitChar_ten d (lowDigits_lt (by decide) d hd)).1

theorem isspace_digit (h : isdigit c) : isspace c = false := by
  obtain ⟨hlow, -⟩ := isdigit_iff.mp h
  have hne : ∀ d : UInt8, d.toNat < 48 → c ≠ d := by
    rintro d hd rfl
    omega
  simp [isspace, hne 32 (by decide), hne 9 (by decide), hne 10 (by decide),
    hne 11 (by decide), hne 12 (by decide), hne 13 (by decide)]

theorem magnitude_numeral : Magnitude (numeral 10 n) n := by
  have hne : numeral 10 n ≠ [] := List.ne_nil_of_length_pos (length_numeral ▸ digitCount_pos)
  have hM := Magnitude.decimal hne isdigit_numeral
  rwa [number_numeral] at hM

/-- A numeral with or without a sign is read. -/
theorem atoi_numeral {sign : Sign} (hstr : str ≠ 0) (hs : StringAt m str (sign.chars ++ numeral 10 n))
    (hf : (sign.chars ++ numeral 10 n).length < fuel) :
    atoi m fuel str = some (Int32.ofInt (sign.apply n)) := by
  refine atoi_reads hstr hs (fun c hc => ?_) (@Denotes.signed [] (numeral 10 n) n sign (by simp) magnitude_numeral) hf
  cases sign with
  | none => exact isspace_digit (isdigit_numeral c (List.mem_of_head? hc))
  | plus =>
    obtain rfl := Option.some.inj hc
    decide
  | minus =>
    obtain rfl := Option.some.inj hc
    decide

/-- **`atoi` reads what `itoa` has written.** -/
theorem atoi_itoa (hstr : str ≠ 0) (hn : n < 2 ^ 31) (hlen : (digitCount 10 n : ℤ) < len) : ∃ m' : ℕ → UInt8,
    (∀ fuel > digitCount 10 n, itoa fuel m n str len 10 = some (m', 0)) ∧
    ∀ fuel > digitCount 10 n, ∃ v, atoi m' fuel str = some v ∧ v.toInt = n := by
  have hzero : 0 ∉ numeral 10 n := zero_notMem_numeral (by decide) (by decide)
  refine ⟨_, fun fuel hf => itoa_fits (by decide) (by decide) hlen hf, fun fuel hf => ⟨Int32.ofInt n, ?_, ?_⟩⟩
  · exact @atoi_numeral _ str fuel n .none hstr (stringAt_write hzero) (length_numeral ▸ hf)
  · exact Int32.toInt_ofInt_of_le (by omega) (by omega)

/-- 2024 in a buffer of 8 bytes. -/
theorem atoi_itoa_2024 : ∃ (m' : ℕ → UInt8) (v : Int32),
    itoa 8 (fun _ => 0) (2024 : ℕ) 64 8 10 = some (m', 0) ∧ atoi m' 8 64 = some v ∧
    v.toInt = 2024 := by
  have hcount : digitCount 10 2024 = 4 := digitCount_eq (k := 3) (by decide) (by decide)
  obtain ⟨m', hwrite, hread⟩ := @atoi_itoa (fun _ => 0) 64 2024 8 (by decide) (by decide) (by rw [hcount]; decide)
  obtain ⟨v, hv, hvalue⟩ := hread 8 (by rw [hcount]; decide)
  exact ⟨m', v, hwrite 8 (by rw [hcount]; decide), hv, hvalue⟩

end Proofs

end OsLab.Libc
