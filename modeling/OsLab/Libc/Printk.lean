import OsLab.Libc.Itoa

/-!
# Formatted output

`mini_itoa` and `mini_vsnprintf`, on which `printk`, `printv` and `printl` rest. A format string is what
comes before its terminator, and `va_arg` reads the next of the words that the caller has passed. The digits
of a number are put together in `bf`, which has 24 bytes and which a wide field overruns
(`mini_itoa_inside_iff`); then there is no outcome.

What a format prints is first said without an end to the buffer (`render`). The buffer shows as much of it
as there is room for, and the loop keeps that (`Shows`, `formatLoop_shows`).
-/

namespace OsLab.Libc

open Lib

/-! ### `mini_itoa` -/

/-- The character of a digit. -/
def miniDigit (uppercase : Bool) (digit : ℤ) : UInt8 :=
  UInt8.ofInt (if digit < 10 then 48 + digit else (if uppercase then 65 else 97) + digit - 10)

/-- The loop over the digits: what it pushes, the lowest digit first. -/
def miniDigits (radix : ℤ) (uppercase : Bool) : ℕ → ℤ → Option (List UInt8)
  | 0, _ => none
  | fuel + 1, value =>
    let digit := miniDigit uppercase (value.tmod radix)
    let value := value.tdiv radix
    if value ≠ 0 then (miniDigits radix uppercase fuel value).map (digit :: ·) else some [digit]

/-- The first `k` rounds of the loop that reverses the buffer. -/
def reverseLoop (len : ℕ) : ℕ → (ℕ → UInt8) → ℕ → UInt8
  | 0, m => m
  | k + 1, m => swapBytes (reverseLoop len k m) k (len - k - 1)

/-- What is left of `value`: its absolute value as a `long`, or what it is as an `unsigned long`. -/
def magnitude (unsig : Bool) (value : Int64) : ℤ :=
  if unsig then (value.toUInt64.toNat : ℤ) else if value < 0 then (-value).toInt else value.toInt

/-- `mini_itoa(value, radix, uppercase, unsig, buffer, n_pad, cpad)`: the buffer afterwards and its length. -/
def mini_itoa (value : Int64) (radix : ℕ) (uppercase unsig : Bool) (buffer : ℕ → UInt8) (n_pad : ℕ) (cpad : UInt8) :
    Option ((ℕ → UInt8) × ℕ) :=
  if radix > 16 then some (buffer, 0)
  else do
    let cs ← miniDigits radix uppercase 64 (magnitude unsig value)
    let cs := cs ++ List.replicate (n_pad - cs.length) cpad
    let cs := if value < 0 ∧ unsig = false then cs ++ [45] else cs
    some (reverseLoop cs.length (cs.length / 2) (write buffer 0 (cs ++ [0])), cs.length)

/-! ### The output -/

/-- `struct mini_buff`, and the memory it points into. -/
structure MiniBuff where
  mem : ℕ → UInt8
  buffer : ℕ
  pbuffer : ℕ
  buffer_len : ℕ

/-- `(b->pbuffer - b->buffer) + 1 >= b->buffer_len`. -/
def MiniBuff.full (b : MiniBuff) : Bool := b.pbuffer - b.buffer + 1 ≥ b.buffer_len

/-- `_putc(ch, b)`. -/
def putc (ch : UInt8) (b : MiniBuff) : MiniBuff :=
  if b.full then b
  else { b with
    mem := Function.update (Function.update b.mem b.pbuffer ch) (b.pbuffer + 1) 0
    pbuffer := b.pbuffer + 1 }

/-- `_puts(s, len, b)`, for the `len` characters at `s`. -/
def puts (s : List UInt8) (b : MiniBuff) : MiniBuff :=
  let len := if b.buffer_len - (b.pbuffer - b.buffer) -
    1 < s.length then b.buffer_len - (b.pbuffer - b.buffer) - 1 else s.length
  { b with mem := Function.update (write b.mem b.pbuffer (s.take len)) (b.pbuffer + len) 0, pbuffer := b.pbuffer + len }

/-! ### The format -/

/-- A conversion: what stands after `%`, and the rest of the format. -/
structure Conversion where
  n_pad : ℕ
  c_pad : UInt8
  longflag : Bool
  ch : UInt8
  rest : List UInt8

/-- The digits after `%`: `n_pad`, and the format after them. -/
def readPad : List UInt8 → ℕ → ℕ × List UInt8
  | [], n => (n, [])
  | c :: cs, n => if isdigit c then readPad cs ((n * 10 + (c.toNat - 48)) % 2 ^ 32) else (n, c :: cs)

/-- What is read after `%`, up to the switch; `none` for `goto end`. -/
def readConversion (fmt : List UInt8) : Option Conversion :=
  let c_pad := if fmt.head? = some 48 then 48 else 32
  let (n_pad, fmt) := readPad fmt 0
  let (longflag, fmt) := if fmt.head? = some 108 then (true, fmt.tail) else (false, fmt)
  match fmt with
  | [] => none
  | ch :: rest => some ⟨n_pad, c_pad, longflag, ch, rest⟩

/-- A call of `_putc` or of `_puts`. -/
inductive Emit where
  | putc (ch : UInt8)
  | puts (s : List UInt8)

/-- What the call does. -/
def Emit.run : Emit → MiniBuff → MiniBuff
  | .putc ch => Libc.putc ch
  | .puts s => Libc.puts s

/-- `va_arg(va, unsigned int)` or `va_arg(va, unsigned long)`. -/
def argUnsigned (longflag : Bool) (word : UInt64) : Int64 :=
  if longflag then word.toInt64 else word.toUInt32.toUInt64.toInt64

/-- `va_arg(va, int)` or `va_arg(va, unsigned long)`, as a `long`. -/
def argSigned (longflag : Bool) (word : UInt64) : Int64 :=
  if longflag then word.toInt64 else word.toUInt32.toInt32.toInt64

/-- `len = mini_itoa(...)` and `_puts(bf, len, &b)`, with `char bf[24]`; `none` where `bf` is overrun. -/
def putsNumber (value : Int64) (radix : ℕ) (uppercase unsig : Bool) (c : Conversion) : Option (List Emit) := do
  let (bf, len) ← mini_itoa value radix uppercase unsig (fun _ => 0) c.n_pad c.c_pad
  if len < 24 then some [.puts (bytes bf len)] else none

/-- The switch: the calls it makes, and how many words `va_arg` has read. `str` are the strings in memory,
by address. -/
def emits (str : UInt64 → List UInt8) (word : UInt64) (c : Conversion) : Option (List Emit × ℕ) :=
  if c.ch = 108 then some ([], 0)
  else if c.ch = 117 then (putsNumber (argUnsigned c.longflag word) 10 false true c).map (·, 1)
  else if c.ch = 100 then (putsNumber (argSigned c.longflag word) 10 false false c).map (·, 1)
  else if c.ch = 120 ∨ c.ch = 88 then (putsNumber (argUnsigned c.longflag word) 16 (c.ch = 88) true c).map (·, 1)
  else if c.ch = 99 then some ([.putc word.toUInt8], 1)
  else if c.ch = 115 then
    some (.puts (str word) :: if (str word).length <
      c.n_pad then [.puts (List.replicate (c.n_pad - (str word).length) 32)] else [], 1)
  else some ([.putc c.ch], 0)

/-- The loop of `mini_vsnprintf`. -/
def formatLoop (str : UInt64 → List UInt8) (va : ℕ → UInt64) : ℕ → List UInt8 → ℕ → MiniBuff → Option MiniBuff
  | 0, _, _, _ => none
  | _ + 1, [], _, b => some b
  | fuel + 1, ch :: fmt, i, b =>
    if b.full then some b
    else if ch ≠ 37 then formatLoop str va fuel fmt i (putc ch b)
    else match readConversion fmt with
      | none => some b
      | some c => do
        let (es, n) ← emits str (va i) c
        formatLoop str va fuel c.rest (i + n) (es.foldl (fun b e => e.run b) b)

/-- `mini_vsnprintf(buffer, buffer_len, fmt, va)`: memory afterwards, and the length. -/
def mini_vsnprintf (m : ℕ → UInt8) (buffer buffer_len : ℕ)
    (str : UInt64 → List UInt8) (fmt : List UInt8) (va : ℕ → UInt64) :
    Option ((ℕ → UInt8) × ℕ) := do
  let b ← formatLoop str va (fmt.length + 1) fmt 0 ⟨m, buffer, buffer, buffer_len⟩
  some (b.mem, b.pbuffer - b.buffer)

/-- `_vprint(fmt, va, output)`: what is passed to `output`, up to its terminator at the latest, and what is returned. -/
def vprint (m : ℕ → UInt8) (buff : ℕ) (str : UInt64 → List UInt8) (fmt : List UInt8) (va : ℕ → UInt64) :
    Option ((ℕ → UInt8) × ℕ) := do
  let (m, ret) ← mini_vsnprintf m buff 256 str fmt va
  some (Function.update m (buff + ret) 0, ret)

/-! ### Numbers -/

/-- The characters of a number, the highest digit first. -/
def miniNumeral (b : ℕ) (uppercase : Bool) (n : ℕ) : List UInt8 :=
  ((lowDigits b (digitCount b n) n).map fun d : ℕ => miniDigit uppercase d).reverse

/-- The digits of an integer, each with its sign. -/
def signedDigits (b : ℤ) : ℕ → ℤ → List ℤ
  | 0, _ => []
  | k + 1, v => v.tmod b :: signedDigits b k (v.tdiv b)

section Numbers

variable {b n k fuel len x n_pad : ℕ} {uppercase unsig : Bool} {v : ℤ}
    {value : Int64} {cpad : UInt8} {m buffer : ℕ → UInt8} {cs : List UInt8}

theorem signedDigits_natCast : signedDigits b k n = (lowDigits b k n).map fun d : ℕ => (d : ℤ) := by
  induction k generalizing n with
  | zero => rfl
  | succ k ih =>
    have hdiv : (n : ℤ).tdiv b = ((n / b : ℕ) : ℤ) := rfl
    rw [signedDigits, hdiv, ih]
    rfl

theorem length_signedDigits : (signedDigits b k v).length = k := by
  induction k generalizing v with
  | zero => rfl
  | succ k ih => rw [signedDigits, List.length_cons, ih]

theorem digitCount_of_lt (h : n < b) : digitCount b n = 1 := by rw [digitCount, Nat.log_of_lt h]

theorem digitCount_of_le (hb : 2 ≤ b) (h : b ≤ n) : digitCount b n = digitCount b (n / b) + 1 := by
  have hpos : 0 < Nat.log b n := Nat.log_pos hb h
  rw [digitCount, digitCount, Nat.log_div_base]
  omega

/-- The loop pushes all digits. -/
theorem miniDigits_eq (hb : 2 ≤ b) (hf : digitCount b v.natAbs ≤ fuel) :
    miniDigits b uppercase fuel v = some ((signedDigits b (digitCount b v.natAbs) v).map (miniDigit uppercase)) := by
  induction fuel generalizing v with
  | zero => exact absurd hf (Nat.not_le.mpr digitCount_pos)
  | succ fuel ih =>
    have habs : (v.tdiv b).natAbs = v.natAbs / b := by
      rw [Int.natAbs_tdiv, Int.natAbs_natCast]
      rfl
    rw [miniDigits]
    by_cases hlt : v.natAbs < b
    · have hzero : v.tdiv b = 0 := Int.natAbs_eq_zero.mp (habs.trans (Nat.div_eq_of_lt hlt))
      rw [if_neg (not_not_intro hzero), digitCount_of_lt hlt]
      rfl
    · have hle : b ≤ v.natAbs := Nat.not_lt.mp hlt
      have hcount : digitCount b v.natAbs = digitCount b (v.tdiv b).natAbs + 1 := by rw [habs, digitCount_of_le hb hle]
      have hne : v.tdiv b ≠ 0 := by
        intro hzero
        rw [hzero, Int.natAbs_zero] at habs
        exact absurd habs.symm (Nat.ne_of_gt (Nat.div_pos hle (by omega)))
      rw [if_pos hne, ih (by omega), hcount]
      rfl

theorem digitCount_le (hb : 2 ≤ b) (hn : n < 2 ^ 64) : digitCount b n ≤ 64 :=
  Nat.log_lt_of_lt_pow' (by decide) (Nat.lt_of_lt_of_le hn (Nat.pow_le_pow_left hb 64))

theorem magnitude_lt : (magnitude unsig value).natAbs < 2 ^ 64 := by
  have h₁ := value.toUInt64.toNat_lt
  have h₂ := value.toInt_lt
  have h₃ := value.le_toInt
  have h₄ := (-value).toInt_lt
  have h₅ := (-value).le_toInt
  rw [magnitude]
  split
  · omega
  · split <;> omega

/-! ### The buffer of `mini_itoa` -/

/-- The first `k` bytes and the last `k` ones have changed places. -/
theorem reverseLoop_eq (hk : 2 * k ≤ len) : reverseLoop len k m x = if x < k ∨
    len - k ≤ x ∧ x < len then m (len - 1 - x) else m x := by
  induction k generalizing x with
  | zero => rw [reverseLoop, if_neg (by omega)]
  | succ k ih =>
    rw [reverseLoop, swapBytes]
    by_cases hhigh : x = len - k - 1
    · rw [hhigh, Function.update_self, ih (by omega), if_neg (by omega), if_pos (by omega)]
      congr 1
      omega
    · rw [Function.update_of_ne hhigh]
      by_cases hlow : x = k
      · rw [hlow, Function.update_self, ih (by omega), if_neg (by omega), if_pos (by omega)]
        congr 1
        omega
      · rw [Function.update_of_ne hlow, ih (by omega)]
        by_cases hx : x < k ∨ len - k ≤ x ∧ x < len
        · rw [if_pos hx, if_pos (by omega)]
        · rw [if_neg hx, if_neg (by omega)]

/-- The loop reverses what has been pushed. -/
theorem reverseLoop_write : reverseLoop cs.length (cs.length / 2)
    (write m 0 (cs ++ [0])) = write m 0 (cs.reverse ++ [0]) := by
  have hlength : cs.reverse.length = cs.length := List.length_reverse
  have hread : ∀ {ds : List UInt8} {i : ℕ}, i < ds.length → write m 0 (ds ++ [0]) i = ds.getD i 0 := by
    intro ds i hi
    have hget : write m 0 (ds ++ [0]) (0 + i) = (ds ++ [0]).getD i 0 := write_add (by rw [List.length_append]; omega)
    rw [Nat.zero_add] at hget
    rw [hget, List.getD_append _ _ _ _ hi]
  funext x
  rw [reverseLoop_eq (by omega)]
  rcases Nat.lt_or_ge x cs.length with hx | hx
  · have hmirror : write m 0 (cs.reverse ++ [0]) x = cs[cs.length - 1 - x] := by
      rw [hread (by omega), List.getD_eq_getElem _ _ (by omega), List.getElem_reverse]
    rw [hmirror]
    by_cases hmoved : x < cs.length / 2 ∨ cs.length - cs.length / 2 ≤ x ∧ x < cs.length
    · rw [if_pos hmoved, hread (by omega), List.getD_eq_getElem _ _ (by omega)]
    · rw [if_neg hmoved, hread hx, List.getD_eq_getElem _ _ hx]
      congr 1
      omega
  · rw [if_neg (by omega)]
    rcases Nat.eq_or_lt_of_le hx with rfl | hx
    · have hend : ∀ ds : List UInt8, write m 0 (ds ++ [0]) ds.length = 0 := by
        intro ds
        have hget : write m 0 (ds ++ [0]) (0 + ds.length) = (ds ++ [0]).getD ds.length 0 := write_add (by simp)
        rw [Nat.zero_add] at hget
        rw [hget]
        simp
      rw [hend, ← hlength, hend]
    · rw [write_of_lt (by simp; omega), write_of_lt (by simp; omega)]

/-- What `mini_itoa` writes: sign, padding and digits. -/
def field (value : Int64) (b : ℕ) (uppercase unsig : Bool) (n_pad : ℕ) (cpad : UInt8) : List UInt8 :=
  (if value < 0 ∧ unsig = false then [45] else []) ++
    (List.replicate (n_pad - digitCount b (magnitude unsig value).natAbs) cpad ++
    ((signedDigits b (digitCount b (magnitude unsig value).natAbs) (magnitude unsig value)).map
      (miniDigit uppercase)).reverse)

/-- `mini_itoa` comes back with the field and its terminator. -/
theorem mini_itoa_eq (hb : 2 ≤ b) (hb' : b ≤ 16) : mini_itoa value b uppercase unsig buffer n_pad cpad =
    some (write buffer 0 (field value b uppercase unsig n_pad cpad ++ [0]),
      (field value b uppercase unsig n_pad cpad).length) := by
  rw [mini_itoa, if_neg (Nat.not_lt.mpr hb'),
    miniDigits_eq hb (digitCount_le hb magnitude_lt), Option.bind_eq_bind, Option.bind_some]
  dsimp only
  rw [reverseLoop_write, List.length_map, length_signedDigits]
  by_cases hneg : value < 0 ∧ unsig = false
  · simp only [if_pos hneg, field, List.reverse_append, List.reverse_replicate,
      List.reverse_singleton, List.length_append, List.length_reverse,
      List.length_singleton, List.length_map, List.length_replicate, List.append_assoc]
    congr 2
    omega
  · simp only [if_neg hneg, field, List.reverse_append, List.reverse_replicate,
      List.length_append, List.length_reverse, List.length_map,
      List.length_replicate, List.nil_append]
    congr 2
    omega

end Numbers

/-! ### Output and format -/

/-- What a call is to print. -/
def Emit.text : Emit → List UInt8
  | .putc ch => [ch]
  | .puts s => s

/-- What a format prints where there is no end to the buffer. -/
def render (str : UInt64 → List UInt8) (va : ℕ → UInt64) : ℕ → List UInt8 → ℕ → Option (List UInt8)
  | 0, _, _ => none
  | _ + 1, [], _ => some []
  | fuel + 1, ch :: fmt, i =>
    if ch ≠ 37 then (render str va fuel fmt i).map (ch :: ·)
    else match readConversion fmt with
      | none => some []
      | some c => (emits str (va i) c).bind fun r =>
          (render str va fuel c.rest (i + r.2)).map (r.1.flatMap Emit.text ++ ·)

/-- The buffer shows as much of the text as there is room for. -/
structure Shows (m : ℕ → UInt8) (buffer N : ℕ) (text : List UInt8) (b : MiniBuff) : Prop where
  buffer_eq : b.buffer = buffer
  len_eq : b.buffer_len = N
  pos_eq : b.pbuffer = buffer + (text.take (N - 1)).length
  mem_eq : b.mem = write m buffer (text.take (N - 1) ++ [0]) ∨ text.take (N - 1) = [] ∧ b.mem = m

section Output

variable {m : ℕ → UInt8} {buffer N fuel i a : ℕ} {text text' s fmt out : List UInt8} {b : MiniBuff} {c : UInt8}
  {str : UInt64 → List UInt8} {va : ℕ → UInt64}

/-- More characters behind those that are there. -/
theorem write_write : write (write m a (out ++ [0])) (a + out.length) (s ++ [0]) = write m a (out ++ s ++ [0]) := by
  induction out generalizing m a with
  | nil =>
    rw [List.length_nil, Nat.add_zero, List.nil_append, List.nil_append]
    have hlen : (s ++ [0]).length = s.length + 1 := by rw [List.length_append, List.length_singleton]
    have hone : ([0] : List UInt8).length = 1 := rfl
    funext x
    by_cases hx : a ≤ x ∧ x < a + (s ++ [0]).length
    · obtain ⟨i, rfl⟩ : ∃ i, x = a + i := ⟨x - a, by omega⟩
      rw [write_add (by omega), write_add (by omega)]
    · have houter : write (write m a [0]) a (s ++ [0]) x = write m a [0] x := write_of_lt (by omega)
      have hinner : write m a [0] x = m x := write_of_lt (by omega)
      have hplain : write m a (s ++ [0]) x = m x := write_of_lt (by omega)
      rw [houter, hinner, hplain]
  | cons d out ih => rw [List.cons_append, ← write_cons, List.length_cons,
      Nat.add_comm out.length 1, ← Nat.add_assoc, ih, write_cons]; rfl

theorem Shows.full_iff (h : Shows m buffer N text b) : b.full = true ↔ N ≤ (text.take (N - 1)).length + 1 := by
  rw [MiniBuff.full, h.buffer_eq, h.len_eq, h.pos_eq, Nat.add_sub_cancel_left]
  exact decide_eq_true_iff

/-- Nothing more is shown when the buffer is full. -/
theorem Shows.extend (h : Shows m buffer N text b) (hfull : b.full = true) (text' : List UInt8) :
    Shows m buffer N (text ++ text') b := by
  have hlen := h.full_iff.mp hfull
  rw [List.length_take] at hlen
  have hzero : N - 1 - text.length = 0 := by omega
  have htake : (text ++ text').take (N - 1) = text.take (N - 1) := by
    rw [List.take_append, hzero, List.take_zero, List.append_nil]
  exact ⟨h.buffer_eq, h.len_eq, htake ▸ h.pos_eq, htake ▸ h.mem_eq⟩

theorem Shows.puts (h : Shows m buffer N text b) (hN : 0 < N) : Shows m buffer N (text ++ s) (puts s b) := by
  have hout : (text.take (N - 1)).length = min (N - 1) text.length := List.length_take
  have hlen : (if N - (text.take (N - 1)).length - 1 < s.length then N - (text.take (N - 1)).length - 1 else s.length) =
      (s.take (N - 1 - text.length)).length := by
    simp only [List.length_take]
    split <;> omega
  have hsame : s.take (s.take (N - 1 - text.length)).length = s.take (N - 1 - text.length) := by
    rw [List.length_take, ← List.take_eq_take_min]
  have htake : (text ++ s).take (N - 1) = text.take (N - 1) ++ s.take (N - 1 - text.length) := List.take_append
  refine ⟨h.buffer_eq, h.len_eq, ?_, Or.inl ?_⟩
  · rw [Libc.puts, h.buffer_eq, h.len_eq, h.pos_eq, Nat.add_sub_cancel_left,
      hlen, htake, List.length_append, Nat.add_assoc]
  · rw [Libc.puts, h.buffer_eq, h.len_eq, h.pos_eq, Nat.add_sub_cancel_left, hlen, hsame, htake]
    dsimp only
    rw [write_concat]
    rcases h.mem_eq with hmem | ⟨hnil, hmem⟩
    · rw [hmem, write_write]
    · rw [hmem, hnil, List.length_nil, Nat.add_zero, List.nil_append]

theorem putc_eq (hb : b.full = false) : putc c b = puts [c] b := by
  have hroom : b.pbuffer - b.buffer + 1 < b.buffer_len := Nat.not_le.mp (of_decide_eq_false hb)
  rw [putc, if_neg (by rw [hb]; decide), puts, List.length_singleton,
    if_neg (by omega), List.take_of_length_le (by simp), ← write_cons, write_nil]

theorem Shows.putc (h : Shows m buffer N text b) (hN : 0 < N) : Shows m buffer N (text ++ [c]) (putc c b) := by
  cases hb : b.full with
  | true =>
    rw [Libc.putc, if_pos hb]
    exact h.extend hb [c]
  | false =>
    rw [putc_eq hb]
    exact h.puts hN

/-- The calls of one conversion. -/
theorem Shows.emits (h : Shows m buffer N text b) (hN : 0 < N) (es : List Emit) :
    Shows m buffer N (text ++ es.flatMap Emit.text) (es.foldl (fun b e => e.run b) b) := by
  induction es generalizing text b with
  | nil => rwa [List.flatMap_nil, List.append_nil]
  | cons e es ih =>
    rw [List.flatMap_cons, ← List.append_assoc]
    refine ih ?_
    cases e with
    | putc ch => exact h.putc hN
    | puts s => exact h.puts hN

/-- What the loop shows is what the format prints. -/
theorem formatLoop_shows (h : Shows m buffer N text b) (hN : 0 < N) (hr : render str va fuel fmt i = some text') :
    ∃ b', formatLoop str va fuel fmt i b = some b' ∧ Shows m buffer N (text ++ text') b' := by
  induction fuel generalizing fmt i b text text' with
  | zero => cases hr
  | succ fuel ih =>
    cases fmt with
    | nil =>
      obtain rfl := Option.some.inj hr
      exact ⟨b, rfl, by rwa [List.append_nil]⟩
    | cons ch fmt =>
      rw [formatLoop]
      cases hfull : b.full with
      | true => exact ⟨b, if_pos rfl, h.extend hfull text'⟩
      | false =>
        rw [if_neg (by decide)]
        rw [render] at hr
        by_cases hch : ch ≠ 37
        · rw [if_pos hch, Option.map_eq_some_iff] at hr
          obtain ⟨rest, hr, rfl⟩ := hr
          obtain ⟨b', hb', hshows⟩ := ih (h.putc hN) hr
          rw [List.append_assoc, List.singleton_append] at hshows
          exact ⟨b', by rw [if_pos hch, hb'], hshows⟩
        · rw [if_neg hch] at hr ⊢
          cases hc : readConversion fmt with
          | none =>
            rw [hc] at hr
            obtain rfl := Option.some.inj hr
            exact ⟨b, rfl, by rwa [List.append_nil]⟩
          | some c =>
            rw [hc] at hr
            obtain ⟨r, hes, hr⟩ := Option.bind_eq_some_iff.mp hr
            obtain ⟨rest, hrest, rfl⟩ := Option.map_eq_some_iff.mp hr
            obtain ⟨b', hb', hshows⟩ := ih (h.emits hN r.1) hrest
            rw [List.append_assoc] at hshows
            refine ⟨b', ?_, hshows⟩
            dsimp only
            rw [hes, Option.bind_eq_bind, Option.bind_some]
            exact hb'

end Output

/-! ### No overrun -/

section Width

variable {b n_pad fuel i N : ℕ} {uppercase unsig : Bool} {value : Int64}
    {cpad : UInt8} {fmt text : List UInt8} {c : Conversion}
  {str : UInt64 → List UInt8} {va : ℕ → UInt64} {word : UInt64}

theorem length_field : (field value b uppercase unsig n_pad cpad).length =
    (if value < 0 ∧ unsig = false then 1 else 0) + max n_pad (digitCount b (magnitude unsig value).natAbs) := by
  simp only [field, List.length_append, List.length_replicate,
    List.length_reverse, List.length_map, length_signedDigits]
  split
  · rw [List.length_singleton]
    omega
  · rw [List.length_nil]
    omega

/-- **When `mini_itoa` stays inside `bf[24]`**: it always comes back, and it writes nothing behind `bf`
exactly if the sign, the padding and the digits take 23 bytes or fewer. -/
theorem mini_itoa_inside_iff (hb : 2 ≤ b) (hb' : b ≤ 16) : ∃ (bf : (ℕ → UInt8) → ℕ → UInt8) (len : ℕ),
    (∀ buffer, mini_itoa value b uppercase unsig buffer n_pad cpad = some (bf buffer, len)) ∧
    ((∀ buffer : ℕ → UInt8, ∀ x, 24 ≤ x → bf buffer x = buffer x) ↔
      (if value < 0 ∧ unsig = false then 1 else 0) + max n_pad (digitCount b (magnitude unsig value).natAbs) < 24) := by
  rw [← @length_field b n_pad uppercase unsig value cpad]
  refine ⟨_, _, fun buffer => mini_itoa_eq hb hb', fun hin => ?_, fun hshort buffer x hx => write_of_lt ?_⟩
  · by_contra hlong
    have hend := hin (fun _ => 1) _ (Nat.not_lt.mp hlong)
    rw [← Nat.zero_add (field value b uppercase unsig n_pad cpad).length, write_add (by simp)] at hend
    simp at hend
  · rw [List.length_append, List.length_singleton]
    omega

/-- `%30d` with 5 does not. -/
theorem mini_itoa_inside_iff_wide : ∃ (bf : (ℕ → UInt8) → ℕ → UInt8) (len : ℕ),
    (∀ buffer, mini_itoa 5 10 false false buffer 30 32 = some (bf buffer, len)) ∧
      ¬ ∀ buffer : ℕ → UInt8, ∀ x, 24 ≤ x → bf buffer x = buffer x := by
  obtain ⟨bf, len, he, hiff⟩ := @mini_itoa_inside_iff 10 30 false false 5 32 (by decide) (by decide)
  refine ⟨bf, len, he, fun hin => ?_⟩
  have hwide := hiff.mp hin
  omega

/-- No conversion asks for more than 22 characters; `%%` ends one, so that `%%50d` has no other. -/
inductive Narrow : List UInt8 → Prop where
  | nil : Narrow []
  | char {ch : UInt8} {fmt : List UInt8} : ch ≠ 37 → Narrow fmt → Narrow (ch :: fmt)
  | last {fmt : List UInt8} : readConversion fmt = none → Narrow (37 :: fmt)
  | conversion {fmt : List UInt8} {c : Conversion} : readConversion fmt = some c →
      c.n_pad ≤ 22 → Narrow c.rest → Narrow (37 :: fmt)

theorem readPad_suffix (n : ℕ) : (readPad fmt n).2 <:+ fmt := by
  induction fmt generalizing n with
  | nil => exact List.suffix_refl _
  | cons d fmt ih =>
    rw [readPad]
    split
    · exact (ih _).trans (List.suffix_cons ..)
    · exact List.suffix_refl _

/-- A conversion takes at least one character. -/
theorem readConversion_rest (h : readConversion fmt = some c) : c.rest.length < fmt.length := by
  have hpad : (readPad fmt 0).2 <:+ fmt := readPad_suffix 0
  rw [readConversion] at h
  dsimp only at h
  have hlong :
      (if (readPad fmt 0).2.head? = some 108 then (true, (readPad fmt 0).2.tail)
        else (false, (readPad fmt 0).2)).2 <:+ fmt := by
    split
    · exact (List.tail_suffix _).trans hpad
    · exact hpad
  generalize (if (readPad fmt 0).2.head? = some 108 then (true, (readPad fmt 0).2.tail)
    else (false, (readPad fmt 0).2)) = p at h hlong
  obtain ⟨longflag, rest⟩ := p
  cases rest with
  | nil => cases h
  | cons ch rest =>
    obtain rfl := Option.some.inj h
    exact Nat.lt_of_lt_of_le (Nat.lt_succ_self _) hlong.length_le

theorem putsNumber_eq (hb : 2 ≤ b) (hb' : b ≤ 16) : putsNumber value b uppercase unsig c =
    if (field value b uppercase unsig c.n_pad c.c_pad).length <
        24 then some [.puts (field value b uppercase unsig c.n_pad c.c_pad)] else none := by
  have hbytes : ∀ cs : List UInt8, bytes (write (fun _ => 0) 0 (cs ++ [0])) cs.length = cs := by
    intro cs
    refine List.ext_getElem (by simp [bytes]) fun i h₁ h₂ => ?_
    have hget : write (fun _ => 0) 0 (cs ++ [0]) (0 + i) = (cs ++ [0]).getD i 0 := write_add (by simp; omega)
    rw [Nat.zero_add, List.getD_append _ _ _ _ h₂, List.getD_eq_getElem _ _ h₂] at hget
    simpa [bytes] using hget
  rw [putsNumber, mini_itoa_eq hb hb', Option.bind_eq_bind, Option.bind_some]
  dsimp only
  rw [hbytes]

theorem emits_some (hpad : c.n_pad ≤ 22) : ∃ r, emits str word c = some r := by
  have hnumber : ∀ (value : Int64) (b : ℕ) (uppercase unsig : Bool),
      b = 10 ∨ b = 16 → ∃ es, putsNumber value b uppercase unsig c = some es := by
    intro value b uppercase unsig hb
    have hcount : digitCount b (magnitude unsig value).natAbs ≤ 20 := by
      refine Nat.log_lt_of_lt_pow' (by decide) (Nat.lt_of_lt_of_le magnitude_lt ?_)
      rcases hb with rfl | rfl <;> decide
    refine ⟨_, (putsNumber_eq (by omega) (by omega)).trans (if_pos ?_)⟩
    rw [length_field]
    split <;> omega
  rw [emits]
  split
  · exact ⟨_, rfl⟩
  · split
    · obtain ⟨es, he⟩ := hnumber (argUnsigned c.longflag word) 10 false true (Or.inl rfl)
      exact ⟨_, by rw [he]; rfl⟩
    · split
      · obtain ⟨es, he⟩ := hnumber (argSigned c.longflag word) 10 false false (Or.inl rfl)
        exact ⟨_, by rw [he]; rfl⟩
      · split
        · obtain ⟨es, he⟩ := hnumber (argUnsigned c.longflag word) 16 (c.ch = 88) true (Or.inr rfl)
          exact ⟨_, by rw [he]; rfl⟩
        · split
          · exact ⟨_, rfl⟩
          · split
            · exact ⟨_, rfl⟩
            · exact ⟨_, rfl⟩

theorem render_some (hfmt : Narrow fmt) (hf : fmt.length < fuel) : ∃ text, render str va fuel fmt i = some text := by
  induction hfmt generalizing fuel i with
  | nil =>
    obtain ⟨fuel, rfl⟩ := Nat.exists_eq_add_one_of_ne_zero (Nat.ne_of_gt hf)
    exact ⟨[], rfl⟩
  | @char ch fmt hch _ ih =>
    obtain ⟨fuel, rfl⟩ := Nat.exists_eq_add_one_of_ne_zero (Nat.ne_of_gt (Nat.zero_lt_of_lt hf))
    obtain ⟨text, ht⟩ := ih (i := i) (Nat.lt_of_succ_lt_succ hf)
    exact ⟨ch :: text, by rw [render, if_pos hch, ht]; rfl⟩
  | @last fmt hnone =>
    obtain ⟨fuel, rfl⟩ := Nat.exists_eq_add_one_of_ne_zero (Nat.ne_of_gt (Nat.zero_lt_of_lt hf))
    exact ⟨[], by rw [render, if_neg (not_not_intro rfl), hnone]⟩
  | @conversion fmt c hc hpad _ ih =>
    obtain ⟨fuel, rfl⟩ := Nat.exists_eq_add_one_of_ne_zero (Nat.ne_of_gt (Nat.zero_lt_of_lt hf))
    obtain ⟨r, hr⟩ := @emits_some c str (va i) hpad
    obtain ⟨text, ht⟩ := ih (i := i + r.2) ((readConversion_rest hc).trans (Nat.lt_of_succ_lt_succ hf))
    refine ⟨r.1.flatMap Emit.text ++ text, ?_⟩
    rw [render, if_neg (not_not_intro rfl), hc]
    dsimp only
    rw [hr, Option.bind_some, ht, Option.map_some]

theorem narrow_decimal : Narrow [37, 100] := .conversion rfl (by decide) .nil

/-- **`printk` shows the first 255 characters of what the format prints**, with a terminator behind them,
and writes nothing else. -/
theorem vprint_prefixes (hfmt : Narrow fmt) (str : UInt64 → List UInt8) (va : ℕ → UInt64) : ∃ text,
    render str va (fmt.length + 1) fmt 0 = some text ∧ ∀ (m : ℕ → UInt8) (buff : ℕ),
      vprint m buff str fmt va = some (write m buff (text.take 255 ++ [0]), min 255 text.length) := by
  obtain ⟨text, hr⟩ : ∃ text, render str va (fmt.length + 1) fmt 0 = some text := render_some hfmt (Nat.lt_succ_self _)
  refine ⟨text, hr, fun m buff => ?_⟩
  have hstart : Shows m buff 256 [] ⟨m, buff, buff, 256⟩ := ⟨rfl, rfl, rfl, Or.inr ⟨rfl, rfl⟩⟩
  obtain ⟨b', hb', hshows⟩ := formatLoop_shows hstart (by decide) hr
  rw [List.nil_append] at hshows
  have hprinted : mini_vsnprintf m buff 256 str fmt va = some (b'.mem, b'.pbuffer - b'.buffer) := by
    rw [mini_vsnprintf, hb']
    rfl
  have hlast : Function.update b'.mem (buff + (text.take 255).length) 0 = write m buff (text.take 255 ++ [0]) := by
    have hmem : b'.mem = write m buff (text.take 255 ++ [0]) ∨ text.take 255 = [] ∧ b'.mem = m := hshows.mem_eq
    rcases hmem with hmem | ⟨hnil, hmem⟩
    · rw [hmem, ← write_concat, Function.update_idem]
    · rw [hmem, hnil, ← write_concat, write_nil]
  have hpos : b'.pbuffer - b'.buffer = (text.take 255).length := by
    rw [hshows.buffer_eq, hshows.pos_eq, Nat.add_sub_cancel_left]
  rw [vprint, hprinted, Option.bind_eq_bind, Option.bind_some]
  dsimp only
  rw [hpos, hlast, List.length_take]

/-- `%d` with 7. -/
theorem vprint_prefixes_decimal :
    ∃ text, render (fun _ => []) (fun _ => 7) 3 [37, 100] 0 = some text ∧ ∀ (m : ℕ → UInt8) (buff : ℕ),
    vprint m buff (fun _ => []) [37, 100]
    (fun _ => 7) = some (write m buff (text.take 255 ++ [0]), min 255 text.length) :=
  vprint_prefixes narrow_decimal (fun _ => []) fun _ => 7

end Width

/-! ### Decimal numbers -/

section Decimal

variable {n n_pad buff fuel : ℕ} {uppercase : Bool} {value : Int64}
    {cpad : UInt8} {m : ℕ → UInt8} {str : UInt64 → List UInt8} {va : ℕ → UInt64}

theorem miniDigit_ten : ∀ uppercase, ∀ d < 10, miniDigit uppercase (d : ℕ) = digitChar (d : ℕ) := by decide +kernel

theorem miniNumeral_ten : miniNumeral 10 uppercase n = numeral 10 n := by
  rw [miniNumeral, numeral, lowChars]
  exact congrArg List.reverse (List.map_congr_left fun d hd =>
    miniDigit_ten uppercase d (lowDigits_lt (by decide) d hd))

/-- A signed number is its sign, the padding and its numeral. -/
theorem field_decimal (hv : value ≠ Int64.minValue) : field value 10 uppercase false n_pad cpad =
    (if value < 0 then [45] else []) ++
    (List.replicate (n_pad - digitCount 10 value.toInt.natAbs) cpad ++ numeral 10 value.toInt.natAbs) := by
  have hmag : magnitude false value = (value.toInt.natAbs : ℤ) := by
    rw [magnitude, if_neg (by decide)]
    split
    · next hneg =>
      have hlt : value.toInt < 0 := Int64.lt_iff_toInt_lt.mp hneg
      have hne : value.toInt ≠ -2 ^ 63 := fun h => hv (Int64.toInt_inj.mp (h.trans Int64.toInt_minValue.symm))
      have hge := value.le_toInt
      rw [Int64.toInt_neg, Int.bmod_eq_of_le (by omega) (by omega)]
      omega
    · next hpos =>
      have hge : ¬ value.toInt < 0 := fun h => hpos (Int64.lt_iff_toInt_lt.mpr h)
      omega
  rw [field, hmag, Int.natAbs_natCast, signedDigits_natCast, List.map_map, ← @miniNumeral_ten _ uppercase]
  simp only [and_true]
  rfl

/-- What `%d` prints. -/
theorem render_decimal :
    render str va 3 [37, 100] 0 = some (field (va 0).toUInt32.toInt32.toInt64 10 false false 0 32) := by
  have hcount : digitCount 10 (magnitude false (va 0).toUInt32.toInt32.toInt64).natAbs ≤ 20 :=
    Nat.log_lt_of_lt_pow' (by decide) (Nat.lt_of_lt_of_le magnitude_lt (by decide))
  have hshort : (field (va 0).toUInt32.toInt32.toInt64 10 false false 0 32).length < 24 := by
    rw [length_field]
    split <;> omega
  have hemits : emits str (va 0) ⟨0, 32, false, 100, []⟩ =
      some ([.puts (field (va 0).toUInt32.toInt32.toInt64 10 false false 0 32)], 1) := by
    have hputs : putsNumber (va 0).toUInt32.toInt32.toInt64 10 false false ⟨0, 32, false, 100, []⟩ =
        some [.puts (field (va 0).toUInt32.toInt32.toInt64 10 false false 0 32)] :=
        (putsNumber_eq (by decide) (by decide)).trans (if_pos hshort)
    exact congrArg (Option.map (·, 1)) hputs
  have hread : readConversion [100] = some ⟨0, 32, false, 100, []⟩ := rfl
  rw [render, if_neg (by decide), hread]
  dsimp only
  rw [hemits, Option.bind_some]
  simp only [render, Option.map_some, List.flatMap_singleton, Emit.text, List.append_nil]

/-- **`atoi` reads what `printk("%d", ...)` has written**, for every `int`. -/
theorem atoi_vprint (hbuff : buff ≠ 0) : ∃ (m' : ℕ → UInt8) (r : ℕ), vprint m buff str [37, 100] va = some (m', r) ∧
    ∀ fuel > r, atoi m' fuel buff = some (va 0).toUInt32.toInt32 := by
  obtain ⟨text, hr, hprint⟩ := vprint_prefixes narrow_decimal str va
  obtain rfl := Option.some.inj (hr.symm.trans render_decimal)
  generalize (va 0).toUInt32.toInt32 = v at hprint ⊢
  have hlow := v.le_toInt
  have hne : v.toInt64 ≠ Int64.minValue := by
    intro he
    have hmin := congrArg Int64.toInt he
    rw [Int32.toInt_toInt64, Int64.toInt_minValue] at hmin
    omega
  have hneg : v.toInt64 < 0 ↔ v.toInt < 0 := by rw [Int64.lt_iff_toInt_lt, Int32.toInt_toInt64, Int64.toInt_zero]
  obtain ⟨sign, hsign, hvalue⟩ : ∃ sign : Sign,
      (if v.toInt64 < 0 then [45] else []) = sign.chars ∧ sign.apply v.toInt.natAbs = v.toInt := by
    by_cases hv : v.toInt < 0
    · have hminus : Sign.minus.apply v.toInt.natAbs = -(v.toInt.natAbs : ℤ) := rfl
      exact ⟨.minus, if_pos (hneg.mpr hv), by omega⟩
    · have hnone : Sign.none.apply v.toInt.natAbs = (v.toInt.natAbs : ℤ) := rfl
      exact ⟨.none, if_neg (fun h => hv (hneg.mp h)), by omega⟩
  have hfield : field v.toInt64 10 false false 0 32 = sign.chars ++ numeral 10 v.toInt.natAbs := by
    rw [field_decimal hne, hsign, Nat.zero_sub, List.replicate_zero, List.nil_append, Int32.toInt_toInt64]
  have hlength : (field v.toInt64 10 false false 0 32).length ≤ 21 := by
    have hcount : digitCount 10 (magnitude false v.toInt64).natAbs ≤ 20 :=
      Nat.log_lt_of_lt_pow' (by decide) (Nat.lt_of_lt_of_le magnitude_lt (by decide))
    rw [length_field]
    split <;> omega
  have hzero : 0 ∉ sign.chars ++ numeral 10 v.toInt.natAbs := by
    rw [List.mem_append, not_or]
    exact ⟨by cases sign <;> decide, zero_notMem_numeral (by decide) (by decide)⟩
  refine ⟨_, _, hprint m buff, fun fuel hf => ?_⟩
  rw [Nat.min_eq_right (by omega), hfield] at hf
  rw [List.take_of_length_le (by omega), hfield,
    atoi_numeral hbuff (stringAt_write hzero) hf, hvalue, Int32.ofInt_toInt]

/-- -5 is read back. -/
theorem atoi_vprint_negative : ∃ (m' : ℕ → UInt8) (r : ℕ),
    vprint (fun _ => 0) 64 (fun _ => []) [37, 100] (fun _ => 0xfffffffb) = some (m', r) ∧
    ∀ fuel > r, atoi m' fuel 64 = some (-5) := by
  have hvalue : (0xfffffffb : UInt64).toUInt32.toInt32 = -5 := by decide
  obtain ⟨m', r, hprint, hread⟩ := @atoi_vprint 64 (fun _ => 0) (fun _ => []) (fun _ => 0xfffffffb) (by decide)
  exact ⟨m', r, hprint, fun fuel hf => hvalue ▸ hread fuel hf⟩

end Decimal

/-! ### The copy of the user library -/

namespace User

/-- The loop over the digits in `printf`, which goes on while `value > 0`. -/
def miniDigits (radix : ℤ) (uppercase : Bool) : ℕ → ℤ → Option (List UInt8)
  | 0, _ => none
  | fuel + 1, value =>
    let digit := miniDigit uppercase (value.tmod radix)
    let value := value.tdiv radix
    if value > 0 then (miniDigits radix uppercase fuel value).map (digit :: ·) else some [digit]

/-- What the loop begins with. It divides as signed numbers, also where `unsig` is set. -/
def firstValue (unsig : Bool) (value : Int64) : ℤ := if value < 0 ∧ unsig = false then (-value).toInt else value.toInt

/-- `mini_itoa(value, radix, uppercase, unsig, buffer, zero_pad)` of `printf`. -/
def mini_itoa (value : Int64) (radix : ℕ) (uppercase unsig : Bool) (buffer : ℕ → UInt8) (zero_pad : ℕ) :
    Option ((ℕ → UInt8) × ℕ) :=
  if radix > 16 then some (buffer, 0)
  else do
    let cs ← miniDigits radix uppercase 64 (firstValue unsig value)
    let cs := cs ++ List.replicate (zero_pad - cs.length) 48
    let cs := if value < 0 ∧ unsig = false then cs ++ [45] else cs
    some (reverseLoop cs.length (cs.length / 2) (write buffer 0 (cs ++ [0])), cs.length)

end User

section User

variable {b fuel n_pad : ℕ} {uppercase unsig : Bool} {v : ℤ} {value : Int64} {buffer : ℕ → UInt8}

/-- The loops are the same where nothing is negative. -/
theorem user_miniDigits_eq (hv : 0 ≤ v) : User.miniDigits b uppercase fuel v = miniDigits b uppercase fuel v := by
  induction fuel generalizing v with
  | zero => rfl
  | succ fuel ih =>
    have hnext : 0 ≤ v.tdiv b := Int.tdiv_nonneg hv (Int.natCast_nonneg b)
    have hgoes : v.tdiv b > 0 ↔ v.tdiv b ≠ 0 := by omega
    rw [User.miniDigits, miniDigits, ih hnext]
    simp only [hgoes]

/-- A negative number has one round. -/
theorem user_miniDigits_neg (hv : v < 0) :
    User.miniDigits b uppercase (fuel + 1) v = some [miniDigit uppercase (v.tmod b)] := by
  have hnext : v.tdiv b ≤ 0 := by
    have hpos : 0 ≤ (-v).tdiv b := Int.tdiv_nonneg (by omega) (Int.natCast_nonneg b)
    rw [Int.neg_tdiv] at hpos
    omega
  rw [User.miniDigits, if_neg (Int.not_lt.mpr hnext)]

/-- The same 64 bits as a signed and as an unsigned number. -/
theorem toInt_cond (value : Int64) : value.toInt =
    if 2 * value.toUInt64.toNat < 2 ^ 64 then (value.toUInt64.toNat : ℤ) else value.toUInt64.toNat - 2 ^ 64 :=
  BitVec.toInt_eq_toNat_cond value.toBitVec

/-- Both begin with the same value where it is not negative. -/
theorem firstValue_eq (hv : 0 ≤ User.firstValue unsig value) : User.firstValue unsig value = magnitude unsig value := by
  rw [User.firstValue] at hv ⊢
  rw [magnitude]
  cases unsig with
  | false => simp
  | true =>
    have hcond := toInt_cond value
    have hlt := value.toUInt64.toNat_lt
    simp only [and_false, if_false, if_true, Bool.true_eq_false] at hv ⊢
    split at hcond <;> omega

/-- The number that the kernel's copy prints in full is large. -/
theorem two_digits (hb : 2 ≤ b) (hb' : b ≤ 16) (hv : User.firstValue unsig value < 0) :
    2 ≤ digitCount b (magnitude unsig value).natAbs := by
  have hlarge : b ≤ (magnitude unsig value).natAbs := by
    have hcond := toInt_cond value
    have hlow := value.le_toInt
    rw [User.firstValue] at hv
    rw [magnitude]
    cases unsig with
    | true =>
      simp only [and_false, if_false, if_true, Bool.true_eq_false] at hv ⊢
      split at hcond <;> omega
    | false =>
      by_cases hneg : value < 0
      · rw [if_pos ⟨hneg, rfl⟩] at hv
        rw [if_neg (by decide), if_pos hneg]
        by_cases hmin : value.toInt = -2 ^ 63
        · rw [Int64.toInt_neg, hmin]
          exact Nat.le_trans hb' (by decide)
        · have hlt : value.toInt < 0 := Int64.lt_iff_toInt_lt.mp hneg
          rw [Int64.toInt_neg, Int.bmod_eq_of_le (by omega) (by omega)] at hv
          omega
      · rw [if_neg fun h => hneg h.1] at hv
        exact absurd (Int64.lt_iff_toInt_lt.mpr hv) hneg
  rw [digitCount_of_le hb hlarge]
  exact Nat.succ_le_succ digitCount_pos

theorem user_mini_itoa_length (hb' : b ≤ 16) (hv : User.firstValue unsig value < 0) :
    ∃ bf, User.mini_itoa value b uppercase unsig buffer 0 =
    some (bf, (if value < 0 ∧ unsig = false then 1 else 0) + 1) := by
  rw [User.mini_itoa, if_neg (Nat.not_lt.mpr hb'), user_miniDigits_neg hv, Option.bind_eq_bind, Option.bind_some]
  dsimp only
  split
  · exact ⟨_, rfl⟩
  · exact ⟨_, rfl⟩

/-- **When the two copies of `mini_itoa` agree**: exactly if the value is not negative once the sign has
been taken off. The user's copy stops after one digit otherwise, so that an unsigned number of 2^63 or more
is not printed. -/
theorem mini_itoa_agrees_iff (hb : 2 ≤ b) (hb' : b ≤ 16) :
    (∀ buffer n_pad,
      User.mini_itoa value b uppercase unsig buffer n_pad = mini_itoa value b uppercase unsig buffer n_pad 48) ↔
      0 ≤ User.firstValue unsig value := by
  constructor
  · intro hall
    by_contra hneg
    have hv : User.firstValue unsig value < 0 := Int.not_le.mp hneg
    obtain ⟨bf, he⟩ := @user_mini_itoa_length b uppercase unsig value (fun _ => 0) hb' hv
    have hsame := he.symm.trans ((hall (fun _ => 0) 0).trans (mini_itoa_eq hb hb'))
    have hlength := (Prod.mk.inj (Option.some.inj hsame)).2
    have htwo := two_digits hb hb' hv
    rw [length_field] at hlength
    omega
  · intro hv buffer n_pad
    rw [User.mini_itoa, mini_itoa, user_miniDigits_eq hv, firstValue_eq hv]

/-- `%lx` with 2^63 does not print the same. -/
theorem mini_itoa_agrees_iff_large : ¬ ∀ buffer n_pad, User.mini_itoa Int64.minValue 16 false true buffer n_pad =
    mini_itoa Int64.minValue 16 false true buffer n_pad 48 := fun hall =>
  absurd ((mini_itoa_agrees_iff (by decide) (by decide)).mp hall) (by decide)

end User

end OsLab.Libc
