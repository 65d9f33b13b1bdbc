import Mathlib.Data.Nat.Digits.Defs
import OsLab.Lib.CStrings

/-!
# Reading numbers

`atol` and `atoi` of the user library. Memory is bytes by address, a loop has fuel, and `none` stands for a
loop that has not ended when the fuel is used up.

What a numeral looks like and what it denotes is `Denotes`: blanks, a sign or none, and decimal digits or `0x` with
hexadecimal digits. The loop that should skip the blanks does not advance, so that a string that begins
with a blank is never read. All others are read as they should be (`atol_reads_iff`).
-/

namespace OsLab.Libc

open Lib

/-! ### `ctype.h` -/

/-- `isdigit(ch)`. -/
def isdigit (ch : UInt8) : Bool := 48 ≤ ch && ch ≤ 57

/-- `isxdigit(ch)`. -/
def isxdigit (ch : UInt8) : Bool := isdigit ch || (97 ≤ ch && ch ≤ 102) || (65 ≤ ch && ch ≤ 70)

/-- `isspace(ch)`. -/
def isspace (ch : UInt8) : Bool := ch = 32 || ch = 9 || ch = 10 || ch = 11 || ch = 12 || ch = 13

/-! ### The functions -/

variable (m : ℕ → UInt8)

/-- `while (isspace(*str)) { ; }`: where `str` points to afterwards. -/
def skipBlanks : ℕ → ℕ → Option ℕ
  | 0, _ => none
  | fuel + 1, str => if isspace (m str) then skipBlanks fuel str else some str

/-- The sign: `negative` and the new `str`, or `none` for `return 0`. -/
def readSign (str : ℕ) : Option (Bool × ℕ) :=
  if m str = 43 then some (false, str + 1)
  else if m str = 45 then some (true, str + 1)
  else if isdigit (m str) then some (false, str)
  else none

/-- `0x` or `0X`: `base` and the new `str`. -/
def readBase (str : ℕ) : Int64 × ℕ :=
  if (m str = 48 ∧ m (str + 1) = 120) ∨ (m str = 48 ∧ m (str + 1) = 88) then (16, str + 1 + 1) else (10, str)

/-- What is added to `ret * base` for a character, or `none` for `return 0`. -/
def digitValue (base : Int64) (ch : UInt8) : Option Int64 :=
  if isdigit ch then some (Int64.ofNat ch.toNat - 48)
  else if base = 16 then
    if 97 ≤ ch ∧ ch ≤ 102 then some (Int64.ofNat ch.toNat - 97 + 10)
    else if 65 ≤ ch ∧ ch ≤ 70 then some (Int64.ofNat ch.toNat - 65 + 10)
    else none
  else none

/-- The loop over the digits: `ret` at the terminator, or `some none` for `return 0`. -/
def convert (base : Int64) : ℕ → ℕ → Int64 → Option (Option Int64)
  | 0, _, _ => none
  | fuel + 1, str, ret =>
    if m str ≠ 0 then
      match digitValue base (m str) with
      | none => some none
      | some d => convert base fuel (str + 1) (ret * base + d)
    else some (some ret)

/-- `atol(str)`. -/
def atol (fuel str : ℕ) : Option Int64 :=
  if str = 0 then some 0
  else do
    let str ← skipBlanks m fuel str
    match readSign m str with
    | none => some 0
    | some (negative, str) => do
      let (base, str) := readBase m str
      match ← convert m base fuel str 0 with
      | none => some 0
      | some ret => some (if negative then -ret else ret)

/-- `atoi(str)`. -/
def atoi (fuel str : ℕ) : Option Int32 := (atol m fuel str).map Int64.toInt32

/-! ### Numerals -/

/-- The number of a digit. -/
def digitOf (ch : UInt8) : ℕ := if ch ≤ 57 then ch.toNat - 48 else if ch ≤ 70 then ch.toNat - 55 else ch.toNat - 87

/-- The number of a string of digits. -/
def number (base : ℕ) (ds : List UInt8) : ℕ := Nat.ofDigits base (ds.map digitOf).reverse

/-- A sign may be left out. -/
inductive Sign where
  | none
  | plus
  | minus

/-- How it is written. -/
def Sign.chars : Sign → List UInt8
  | none => []
  | plus => [43]
  | minus => [45]

/-- The number with the sign. -/
def Sign.apply (n : ℕ) : Sign → ℤ
  | minus => -n
  | _ => n

/-- A string without blanks and sign, and its number. -/
inductive Magnitude : List UInt8 → ℕ → Prop where
  | decimal {ds : List UInt8} (hne : ds ≠ []) (hd : ∀ c ∈ ds, isdigit c) : Magnitude ds (number 10 ds)
  | hexadecimal {x : UInt8} {ds : List UInt8} (hx : x = 120 ∨ x = 88) (hne : ds ≠ []) (hd : ∀ c ∈ ds, isxdigit c) :
      Magnitude (48 :: x :: ds) (number 16 ds)

/-- A numeral and its value. -/
inductive Denotes : List UInt8 → ℤ → Prop where
  | signed {blanks rest : List UInt8} {n : ℕ} (sign : Sign) (hb : ∀ c ∈ blanks, isspace c) (hm : Magnitude rest n) :
      Denotes (blanks ++ (sign.chars ++ rest)) (sign.apply n)

/-- `s` is at `str`, with its terminator. -/
def StringAt (m : ℕ → UInt8) (str : ℕ) (s : List UInt8) : Prop := 0 ∉ s ∧ ∀ j ≤ s.length, m (str + j) = s.getD j 0

/-- `atol` comes back, with the value of a numeral and with 0 for all other strings. -/
def Reads (m : ℕ → UInt8) (str : ℕ) (s : List UInt8) : Prop :=
  ∃ r : Int64, (∀ fuel, s.length < fuel → atol m fuel str = some r) ∧
  (∀ v, Denotes s v → r = Int64.ofInt v) ∧ ((∀ v, ¬ Denotes s v) → r = 0)

section Proofs

variable {m : ℕ → UInt8} {str n fuel : ℕ} {s ds rest : List UInt8} {c : UInt8} {base : Int64}

/-! ### Characters -/

theorem StringAt.head (h : StringAt m str (c :: s)) : m str = c := h.2 0 (Nat.zero_le _)

theorem StringAt.tail (h : StringAt m str (c :: s)) : StringAt m (str + 1) s := by
  refine ⟨fun hz => h.1 (List.mem_cons_of_mem _ hz), fun j hj => ?_⟩
  have := h.2 (j + 1) (Nat.succ_le_succ hj)
  rwa [List.getD_cons_succ, ← Nat.add_assoc, Nat.add_right_comm] at this

theorem StringAt.nil (h : StringAt m str []) : m str = 0 := h.2 0 (Nat.zero_le _)

theorem StringAt.ne_zero (h : StringAt m str (c :: s)) : c ≠ 0 := fun hc => h.1 (hc ▸ List.mem_cons_self ..)

theorem isdigit_iff : isdigit c = true ↔ 48 ≤ c.toNat ∧ c.toNat ≤ 57 := by
  simp only [isdigit, Bool.and_eq_true, decide_eq_true_eq, UInt8.le_iff_toNat_le]
  rfl

theorem isxdigit_iff : isxdigit c = true ↔
    (48 ≤ c.toNat ∧ c.toNat ≤ 57) ∨ (97 ≤ c.toNat ∧ c.toNat ≤ 102) ∨ (65 ≤ c.toNat ∧ c.toNat ≤ 70) := by
  simp only [isxdigit, isdigit, Bool.or_eq_true, Bool.and_eq_true, decide_eq_true_eq, UInt8.le_iff_toNat_le, or_assoc]
  rfl

theorem digitOf_eq (c : UInt8) : digitOf c =
    if c.toNat ≤ 57 then c.toNat - 48 else if c.toNat ≤ 70 then c.toNat - 55 else c.toNat - 87 := by
  simp only [digitOf, UInt8.le_iff_toNat_le]
  rfl

/-- The difference to a character, as a `long`. -/
theorem ofNat_sub_char {n k : ℕ} (h : k ≤ n) : Int64.ofNat n - Int64.ofNat k = Int64.ofNat (n - k) :=
  (Int64.ofNat_sub n k h).symm

theorem digitValue_ten (c : UInt8) : digitValue 10 c = if isdigit c then some (Int64.ofNat (digitOf c)) else none := by
  rw [digitValue]
  by_cases hd : isdigit c = true
  · obtain ⟨h1, h2⟩ := isdigit_iff.mp hd
    rw [if_pos hd, if_pos hd, digitOf_eq, if_pos h2, ← ofNat_sub_char h1]
    rfl
  · rw [if_neg hd, if_neg hd, if_neg (by decide)]

theorem digitValue_sixteen (c : UInt8) :
    digitValue 16 c = if isxdigit c then some (Int64.ofNat (digitOf c)) else none := by
  have hsmall : (97 ≤ c ∧ c ≤ 102) ↔ 97 ≤ c.toNat ∧ c.toNat ≤ 102 := Iff.rfl
  have hcapital : (65 ≤ c ∧ c ≤ 70) ↔ 65 ≤ c.toNat ∧ c.toNat ≤ 70 := Iff.rfl
  rw [digitValue, if_pos rfl]
  by_cases hd : isdigit c = true
  · obtain ⟨h1, h2⟩ := isdigit_iff.mp hd
    rw [if_pos hd, if_pos (isxdigit_iff.mpr (Or.inl ⟨h1, h2⟩)), digitOf_eq, if_pos h2, ← ofNat_sub_char h1]
    rfl
  · rw [if_neg hd]
    by_cases hs : 97 ≤ c ∧ c ≤ 102
    · obtain ⟨h1, h2⟩ := hsmall.mp hs
      have hplus : Int64.ofNat (c.toNat - 87) = Int64.ofNat (c.toNat - 97) + 10 := by
        rw [show c.toNat - 87 = c.toNat - 97 + 10 by omega, Int64.ofNat_add]
        rfl
      rw [if_pos hs, if_pos (isxdigit_iff.mpr (Or.inr (Or.inl ⟨h1, h2⟩))),
        digitOf_eq, if_neg (by omega), if_neg (by omega), hplus,
        ← ofNat_sub_char h1]
      rfl
    · rw [if_neg hs]
      by_cases hc : 65 ≤ c ∧ c ≤ 70
      · obtain ⟨h1, h2⟩ := hcapital.mp hc
        have hplus : Int64.ofNat (c.toNat - 55) = Int64.ofNat (c.toNat - 65) + 10 := by
          rw [show c.toNat - 55 = c.toNat - 65 + 10 by omega, Int64.ofNat_add]
          rfl
        rw [if_pos hc, if_pos (isxdigit_iff.mpr (Or.inr (Or.inr ⟨h1, h2⟩))),
          digitOf_eq, if_neg (by omega), if_pos h2, hplus,
          ← ofNat_sub_char h1]
        rfl
      · rw [if_neg hc, if_neg]
        rw [isxdigit_iff, ← isdigit_iff]
        rintro (h | h | h)
        · exact hd h
        · exact hs (hsmall.mpr h)
        · exact hc (hcapital.mpr h)

/-! ### The loop over the digits -/

theorem number_concat (b : ℕ) (ds : List UInt8) (c : UInt8) : number b (ds ++ [c]) = number b ds * b + digitOf c := by
  rw [number, List.map_append, List.map_singleton, List.reverse_append,
    List.reverse_singleton, List.singleton_append, Nat.ofDigits_cons,
    Nat.add_comm, Nat.mul_comm]
  rfl

/-- The characters are digits of the base, and their values are what they stand for. -/
def Digits (base : Int64) (b : ℕ) (ds : List UInt8) : Prop :=
  base = Int64.ofNat b ∧ ∀ c ∈ ds, digitValue base c = some (Int64.ofNat (digitOf c))

theorem digits_ten (hd : ∀ c ∈ ds, isdigit c) : Digits 10 10 ds := by
  refine ⟨rfl, fun c hc => ?_⟩
  rw [digitValue_ten, if_pos (hd c hc)]

theorem digits_sixteen (hd : ∀ c ∈ ds, isxdigit c) : Digits 16 16 ds := by
  refine ⟨rfl, fun c hc => ?_⟩
  rw [digitValue_sixteen, if_pos (hd c hc)]

/-- `ret` is the number of the digits that have been read. -/
theorem convert_digits {b : ℕ} (hd : Digits base b ds)
    (hs : StringAt m str ds) (hf : ds.length < fuel) (read : List UInt8) :
    convert m base fuel str (Int64.ofNat (number b read)) = some (some (Int64.ofNat (number b (read ++ ds)))) := by
  induction ds generalizing str fuel read with
  | nil =>
    obtain ⟨fuel, rfl⟩ := Nat.exists_eq_succ_of_ne_zero (Nat.ne_of_gt hf)
    rw [convert, hs.nil, if_neg (not_not_intro rfl), List.append_nil]
  | cons c ds ih =>
    obtain ⟨fuel, rfl⟩ := Nat.exists_eq_succ_of_ne_zero (Nat.ne_of_gt (Nat.zero_lt_of_lt hf))
    have hnext : Int64.ofNat (number b read) * base + Int64.ofNat (digitOf c) =
        Int64.ofNat (number b (read ++ [c])) := by
      rw [number_concat, Int64.ofNat_add, Int64.ofNat_mul, hd.1]
    rw [convert, hs.head, if_pos hs.ne_zero, hd.2 c (List.mem_cons_self ..)]
    dsimp only
    rw [hnext, ih ⟨hd.1, fun x hx => hd.2 x (List.mem_cons_of_mem _ hx)⟩ hs.tail (Nat.lt_of_succ_lt_succ hf),
      List.append_assoc,
      List.singleton_append]

/-- The loop ends at the first character that is no digit. -/
theorem convert_other (hd : ∃ c ∈ ds, digitValue base c = none)
    (hs : StringAt m str ds) (hf : ds.length < fuel) (ret : Int64) :
    convert m base fuel str ret = some none := by
  induction ds generalizing str fuel ret with
  | nil =>
    obtain ⟨c, hc, -⟩ := hd
    cases hc
  | cons c ds ih =>
    obtain ⟨fuel, rfl⟩ := Nat.exists_eq_succ_of_ne_zero (Nat.ne_of_gt (Nat.zero_lt_of_lt hf))
    rw [convert, hs.head, if_pos hs.ne_zero]
    cases hv : digitValue base c with
    | none => rfl
    | some d =>
      dsimp only
      obtain ⟨x, hx, hn⟩ := hd
      rcases List.mem_cons.mp hx with rfl | hx
      · rw [hn] at hv
        cases hv
      · exact ih ⟨x, hx, hn⟩ hs.tail (Nat.lt_of_succ_lt_succ hf) _

/-! ### Base and sign -/

theorem StringAt.eq_cons (h : StringAt m str s) (hc : m str = c) (hne : c ≠ 0) : ∃ rest, s = c :: rest := by
  cases s with
  | nil => exact absurd (hc.symm.trans h.nil) hne
  | cons d rest => exact ⟨rest, by rw [← hc, h.head]⟩

/-- The base and the digits. -/
def readDigits (m : ℕ → UInt8) (fuel str : ℕ) : Option (Option Int64) :=
  convert m (readBase m str).1 fuel (readBase m str).2 0

theorem readBase_ten (h : ∀ x ds, (x = 120 ∨ x = 88) → s ≠ 48 :: x :: ds) (hs : StringAt m str s) :
    readBase m str = (10, str) := by
  have hnone : ∀ x, (x = 120 ∨ x = 88) → ¬ (m str = 48 ∧ m (str + 1) = x) := by
    rintro x hx ⟨h0, h1⟩
    obtain ⟨rest, rfl⟩ := hs.eq_cons h0 (by decide)
    have hne : x ≠ 0 := by
      rcases hx with rfl | rfl
      · decide
      · decide
    obtain ⟨ds, rfl⟩ := hs.tail.eq_cons h1 hne
    exact h x ds hx rfl
  rw [readBase, if_neg]
  rintro (h | h)
  · exact hnone 120 (Or.inl rfl) h
  · exact hnone 88 (Or.inr rfl) h

theorem readBase_sixteen {x : UInt8} (hx : x = 120 ∨ x = 88) (hs : StringAt m str (48 :: x :: ds)) :
    readBase m str = (16, str + 1 + 1) := by
  rw [readBase, hs.head, hs.tail.head, if_pos]
  exact hx.imp (fun h => ⟨rfl, h⟩) fun h => ⟨rfl, h⟩

/-- A character that introduces a base is no digit. -/
theorem not_isdigit {x : UInt8} (hx : x = 120 ∨ x = 88) : isdigit x = false := by
  rcases hx with rfl | rfl
  · decide
  · decide

theorem readDigits_of (hM : Magnitude rest n) (hs : StringAt m str rest) (hf : rest.length < fuel) :
    readDigits m fuel str = some (some (Int64.ofNat n)) := by
  cases hM with
  | decimal hne hd =>
    have hbase : readBase m str = (10, str) := by
      refine readBase_ten (fun x ds hx he => ?_) hs
      rw [he] at hd
      have := hd x (List.mem_cons_of_mem _ (List.mem_cons_self ..))
      rw [not_isdigit hx] at this
      cases this
    rw [readDigits, hbase]
    exact convert_digits (digits_ten hd) hs hf []
  | hexadecimal hx hne hd =>
    rw [readDigits, readBase_sixteen hx hs]
    exact convert_digits (digits_sixteen hd) hs.tail.tail (by simp only [List.length_cons] at hf; omega) []

/-- What is no number is read as 0. -/
theorem readDigits_other (hM : ∀ n, ¬ Magnitude rest n) (hs : StringAt m str rest) (hf : rest.length < fuel) :
    readDigits m fuel str = some none ∨ readDigits m fuel str = some (some 0) := by
  by_cases hhex : ∃ x ds, (x = 120 ∨ x = 88) ∧ rest = 48 :: x :: ds
  · obtain ⟨x, ds, hx, rfl⟩ := hhex
    have hf' : ds.length < fuel := by
      simp only [List.length_cons] at hf
      omega
    rw [readDigits, readBase_sixteen hx hs]
    by_cases hd : ∀ c ∈ ds, isxdigit c
    · have hnil : ds = [] := by
        by_contra hne
        exact hM _ (.hexadecimal hx hne hd)
      subst hnil
      exact Or.inr (convert_digits (digits_sixteen hd) hs.tail.tail hf' [])
    · push Not at hd
      obtain ⟨c, hc, hn⟩ := hd
      refine Or.inl (convert_other ⟨c, hc, ?_⟩ hs.tail.tail hf' 0)
      rw [digitValue_sixteen, if_neg hn]
  · push Not at hhex
    rw [readDigits, readBase_ten hhex hs]
    by_cases hd : ∀ c ∈ rest, isdigit c
    · have hnil : rest = [] := by
        by_contra hne
        exact hM _ (.decimal hne hd)
      subst hnil
      exact Or.inr (convert_digits (digits_ten hd) hs hf [])
    · push Not at hd
      obtain ⟨c, hc, hn⟩ := hd
      refine Or.inl (convert_other ⟨c, hc, ?_⟩ hs hf 0)
      rw [digitValue_ten, if_neg hn]

/-- `negative`. -/
def Sign.negative : Sign → Bool
  | minus => true
  | _ => false

theorem Sign.ofInt_apply (sign : Sign) (n : ℕ) :
    Int64.ofInt (sign.apply n) = if sign.negative then -Int64.ofNat n else Int64.ofNat n := by
  cases sign with
  | none => exact Int64.ofInt_eq_ofNat
  | plus => exact Int64.ofInt_eq_ofNat
  | minus => exact Int64.neg_ofNat.symm

/-- A number begins with a digit. -/
theorem Magnitude.head (hM : Magnitude rest n) : ∃ c ds, rest = c :: ds ∧ isdigit c := by
  cases hM with
  | decimal hne hd =>
    obtain ⟨c, ds, rfl⟩ := List.exists_cons_of_ne_nil hne
    exact ⟨c, ds, rfl, hd c (List.mem_cons_self ..)⟩
  | hexadecimal hx hne hd => exact ⟨48, _, rfl, by decide⟩

theorem StringAt.afterSign {sign : Sign} (hs : StringAt m str (sign.chars ++ rest)) :
    StringAt m (str + sign.chars.length) rest := by
  cases sign with
  | none => exact hs
  | plus => exact hs.tail
  | minus => exact hs.tail

/-- A digit is not a sign. -/
theorem readSign_digit (h : isdigit (m str)) : readSign m str = some (false, str) := by
  have hd := isdigit_iff.mp h
  have hplus : m str ≠ 43 := by
    intro he
    rw [he] at hd
    exact absurd hd (by decide)
  have hminus : m str ≠ 45 := by
    intro he
    rw [he] at hd
    exact absurd hd (by decide)
  rw [readSign, if_neg hplus, if_neg hminus, if_pos h]

theorem readSign_of {sign : Sign} (hM : Magnitude rest n) (hs : StringAt m str (sign.chars ++ rest)) :
    readSign m str = some (sign.negative, str + sign.chars.length) := by
  cases sign with
  | none =>
    obtain ⟨c, ds, rfl, hd⟩ := hM.head
    refine readSign_digit ?_
    rw [hs.head]
    exact hd
  | plus => rw [readSign, if_pos hs.head]; rfl
  | minus => rw [readSign, hs.head, if_neg (by decide), if_pos rfl]; rfl

/-- What is read as a sign is one. -/
theorem readSign_cases (hs : StringAt m str s) : readSign m str = none ∨
    ∃ (sign : Sign) (rest : List UInt8),
    s = sign.chars ++ rest ∧ readSign m str = some (sign.negative, str + sign.chars.length) := by
  by_cases hplus : m str = 43
  · obtain ⟨rest, rfl⟩ := hs.eq_cons hplus (by decide)
    exact Or.inr ⟨.plus, rest, rfl, by rw [readSign, if_pos hplus]; rfl⟩
  · by_cases hminus : m str = 45
    · obtain ⟨rest, rfl⟩ := hs.eq_cons hminus (by decide)
      exact Or.inr ⟨.minus, rest, rfl, by rw [readSign, if_neg hplus, if_pos hminus]; rfl⟩
    · by_cases hd : isdigit (m str) = true
      · exact Or.inr ⟨.none, s, rfl, readSign_digit hd⟩
      · exact Or.inl (by rw [readSign, if_neg hplus, if_neg hminus, if_neg hd])

/-! ### `atol` -/

theorem skipBlanks_blank (h : isspace (m str) = true) (fuel : ℕ) : skipBlanks m fuel str = none := by
  induction fuel with
  | zero => rfl
  | succ fuel ih => rw [skipBlanks, if_pos h, ih]

/-- At a blank the loop does not end. -/
theorem atol_blank (hp : str ≠ 0) (h : isspace (m str) = true) (fuel : ℕ) : atol m fuel str = none := by
  rw [atol, if_neg hp, skipBlanks_blank h]
  rfl

/-- Elsewhere it goes on with the sign. -/
theorem atol_eq (hp : str ≠ 0) (h : isspace (m str) = false) (hf : fuel ≠ 0) : atol m fuel str =
    match readSign m str with
    | none => some 0
    | some (negative, q) => (readDigits m fuel q).map fun r => match r with
      | none => 0
      | some ret => if negative then -ret else ret := by
  obtain ⟨fuel, rfl⟩ := Nat.exists_eq_succ_of_ne_zero hf
  rw [atol, if_neg hp, skipBlanks, if_neg (by rw [h]; exact Bool.false_ne_true)]
  simp only [Option.bind_eq_bind, Option.bind_some]
  cases readSign m str with
  | none => rfl
  | some q =>
    dsimp only
    rw [readDigits]
    cases convert m (readBase m q.2).1 (fuel + 1) (readBase m q.2).2 0 with
    | none => rfl
    | some r => cases r <;> rfl

/-- A numeral without leading blanks. -/
theorem atol_denotes {v : ℤ} (hp : str ≠ 0) (hs : StringAt m str s)
    (h : isspace (m str) = false) (hd : Denotes s v) (hf : s.length < fuel) :
    atol m fuel str = some (Int64.ofInt v) := by
  cases hd with
  | @signed blanks rest n sign hb hM =>
    cases blanks with
    | cons c blanks =>
      have hc := hb c (List.mem_cons_self ..)
      rw [← hs.head, h] at hc
      cases hc
    | nil =>
      rw [List.nil_append] at hs hf
      have hlen : rest.length < fuel := by
        rw [List.length_append] at hf
        omega
      rw [atol_eq hp h (Nat.ne_of_gt (Nat.zero_lt_of_lt hf)), readSign_of hM hs]
      dsimp only
      rw [readDigits_of hM hs.afterSign hlen, sign.ofInt_apply]
      rfl

/-- A string that is no numeral. -/
theorem atol_other (hp : str ≠ 0) (hs : StringAt m str s)
    (h : isspace (m str) = false) (hd : ∀ v, ¬ Denotes s v) (hf : s.length < fuel) :
    atol m fuel str = some 0 := by
  rw [atol_eq hp h (Nat.ne_of_gt (Nat.zero_lt_of_lt hf))]
  rcases readSign_cases hs with hnone | ⟨sign, rest, rfl, hsign⟩
  · rw [hnone]
  · have hlen : rest.length < fuel := by
      rw [List.length_append] at hf
      omega
    have hM : ∀ n, ¬ Magnitude rest n :=
      fun n hM => hd _ (@Denotes.signed [] rest n sign (fun _ hc => absurd hc List.not_mem_nil) hM)
    rw [hsign]
    dsimp only
    rcases readDigits_other hM hs.afterSign hlen with hr | hr
    · rw [hr]
      rfl
    · rw [hr]
      cases sign.negative <;> rfl

theorem isspace_head (hs : StringAt m str s) (h : ∀ c ∈ s.head?, isspace c = false) : isspace (m str) = false := by
  cases s with
  | nil =>
    rw [hs.nil]
    decide
  | cons c s =>
    rw [hs.head]
    exact h c rfl

/-- **`atol` reads every string that does not begin with a blank, and no other.** -/
theorem atol_reads_iff (hp : str ≠ 0) (hs : StringAt m str s) : Reads m str s ↔ ∀ c ∈ s.head?, isspace c = false := by
  constructor
  · rintro ⟨r, hr, -⟩ c hc
    by_contra hblank
    cases s with
    | nil => cases hc
    | cons d s =>
      obtain rfl := Option.some.inj hc
      rw [← hs.head, Bool.not_eq_false] at hblank
      have := hr _ (Nat.lt_succ_self _)
      rw [atol_blank hp hblank] at this
      cases this
  · intro hhead
    have hblank := isspace_head hs hhead
    by_cases hd : ∃ v, Denotes s v
    · obtain ⟨v, hv⟩ := hd
      refine ⟨Int64.ofInt v, fun fuel hf => atol_denotes hp hs hblank hv hf,
        fun w hw => ?_, fun hnone => absurd hv (hnone v)⟩
      have hsame := (atol_denotes hp hs hblank hv (Nat.lt_succ_self _)).symm.trans
        (atol_denotes hp hs hblank hw (Nat.lt_succ_self _))
      exact Option.some.inj hsame
    · push Not at hd
      exact ⟨0, fun fuel hf => atol_other hp hs hblank hd hf, fun v hv => absurd hv (hd v), fun _ => rfl⟩

/-- `atoi` reads the same strings, to 32 bits. -/
theorem atoi_reads {v : ℤ} (hp : str ≠ 0) (hs : StringAt m str s)
    (hhead : ∀ c ∈ s.head?, isspace c = false) (hd : Denotes s v)
    (hf : s.length < fuel) : atoi m fuel str = some (Int32.ofInt v) := by
  rw [atoi, atol_denotes hp hs (isspace_head hs hhead) hd hf, Option.map_some, Int64.toInt32_ofInt]

end Proofs

/-! ### Two strings -/

/-- Memory with a string at 1. -/
def memoryOf (s : List UInt8) : ℕ → UInt8 := fun x => s.getD (x - 1) 0

theorem stringAt_memoryOf {s : List UInt8} (h : 0 ∉ s) : StringAt (memoryOf s) 1 s := by
  refine ⟨h, fun j _ => ?_⟩
  rw [memoryOf, Nat.add_sub_cancel_left]

/-- `-0x1F` does not begin with a blank. -/
theorem atol_reads_hexadecimal : Reads (memoryOf (literal "-0x1F")) 1 (literal "-0x1F") :=
  (atol_reads_iff (by decide) (stringAt_memoryOf (by decide))).mpr (by decide +kernel)

/-- ` 1` is a numeral, but `atol` does not come back. -/
theorem atol_reads_fails : Denotes (literal " 1") 1 ∧ (∀ fuel, atol (memoryOf (literal " 1")) fuel 1 = none) ∧
    ¬ ∀ (m : ℕ → UInt8) (str : ℕ) (s : List UInt8), str ≠ 0 → StringAt m str s → Reads m str s := by
  have hblank : ∀ fuel, atol (memoryOf (literal " 1")) fuel 1 = none := atol_blank (by decide) (by decide)
  refine ⟨?_, hblank, fun hall => ?_⟩
  · have hM : Magnitude [49] 1 := .decimal (List.cons_ne_nil _ _) (by decide +kernel)
    exact @Denotes.signed [32] [49] 1 .none (by decide +kernel) hM
  · obtain ⟨r, hr, -⟩ := hall (memoryOf (literal " 1")) 1 (literal " 1") (by decide) (stringAt_memoryOf (by decide))
    have := hr _ (Nat.lt_succ_self _)
    rw [hblank] at this
    cases this

end OsLab.Libc
