import Mathlib.Algebra.Group.Int.Defs
import Mathlib.Algebra.GroupWithZero.Nat
import Mathlib.Logic.Function.Basic
import Mathlib.Data.List.Basic
import Mathlib.Tactic.Tauto

/-!
# Little-endian words and bitmaps in memory

Memory is a function from addresses to bytes. `get16`, `get32` and `put32` read and write
little-endian words, as a C program does through a pointer into a structure or an array; `bit`,
`setBit` and `clearBit` treat memory as an array of bits, eight to the byte, and `scan` looks
for the first clear bit byte by byte, as allocators over bitmaps do. `memcpy` and `memcpyWithin` copy
byte by byte from the front.
-/

namespace OsLab.Lib

/-! ### Words -/

/-- Byte `j` of a word. -/
def byte (v j : ℕ) : UInt8 := UInt8.ofNat (v / 256 ^ j)

@[simp] theorem toNat_byte (v j : ℕ) : (byte v j).toNat = v / 256 ^ j % 256 := by
  simp [byte]

/-- The 16-bit word at `o`. -/
def get16 (m : ℕ → UInt8) (o : ℕ) : UInt16 := UInt16.ofNat ((m o).toNat + 256 * (m (o + 1)).toNat)

/-- The 32-bit word at `o`. -/
def get32 (m : ℕ → UInt8) (o : ℕ) : UInt32 :=
  UInt32.ofNat ((m o).toNat + 256 * (m (o + 1)).toNat + 256 ^ 2 * (m (o + 2)).toNat + 256 ^ 3 * (m (o + 3)).toNat)

/-- Store a 32-bit word at `o`. -/
def put32 (m : ℕ → UInt8) (o : ℕ) (v : UInt32) : ℕ → UInt8 := fun i =>
  if o ≤ i ∧ i < o + 4 then byte v.toNat (i - o) else m i

variable {m m' : ℕ → UInt8} {o : ℕ}

theorem get16_eq (v : UInt16) (h : ∀ j < 2, m (o + j) = byte v.toNat j) : get16 m o = v := by
  have h0 := h 0 (by omega)
  have h1 := h 1 (by omega)
  have hv := v.toNat_lt
  rw [Nat.add_zero] at h0
  apply UInt16.toNat_inj.mp
  simp only [get16, h0, h1, toNat_byte, UInt16.toNat_ofNat']
  omega

theorem get32_eq (v : UInt32) (h : ∀ j < 4, m (o + j) = byte v.toNat j) : get32 m o = v := by
  have h0 := h 0 (by omega)
  have h1 := h 1 (by omega)
  have h2 := h 2 (by omega)
  have h3 := h 3 (by omega)
  have hv := v.toNat_lt
  rw [Nat.add_zero] at h0
  apply UInt32.toNat_inj.mp
  simp only [get32, h0, h1, h2, h3, toNat_byte, UInt32.toNat_ofNat']
  omega

theorem get16_congr (h : ∀ i, o ≤ i → i < o + 2 → m i = m' i) : get16 m o = get16 m' o := by
  simp only [get16, h o (by omega) (by omega), h (o + 1) (by omega) (by omega)]

theorem get32_congr (h : ∀ i, o ≤ i → i < o + 4 → m i = m' i) : get32 m o = get32 m' o := by
  simp only [get32, h o (by omega) (by omega), h (o + 1) (by omega) (by omega), h (o + 2) (by omega) (by omega),
    h (o + 3) (by omega) (by omega)]

@[simp] theorem get32_put32 (m : ℕ → UInt8) (o : ℕ) (v : UInt32) : get32 (put32 m o v) o = v := by
  refine get32_eq v fun j hj => ?_
  have : o ≤ o + j ∧ o + j < o + 4 := by omega
  simp [put32, this]

theorem put32_of_lt (m : ℕ → UInt8) {o x : ℕ} (v : UInt32) (h : x < o ∨ o + 4 ≤ x) : put32 m o v x = m x := by
  rw [put32, if_neg]
  omega

theorem get32_put32_of_disjoint (m : ℕ → UInt8) {o o' : ℕ} (v : UInt32) (h : o + 4 ≤ o' ∨ o' + 4 ≤ o) :
    get32 (put32 m o v) o' = get32 m o' := by
  refine get32_congr fun i h1 h2 => ?_
  have : ¬ (o ≤ i ∧ i < o + 4) := by omega
  simp [put32, this]

/-- The 64-bit word at `o`. -/
def get64 (m : ℕ → UInt8) (o : ℕ) : UInt64 := UInt64.ofNat ((get32 m o).toNat + 2 ^ 32 * (get32 m (o + 4)).toNat)

/-- Store a 64-bit word at `o`. -/
def put64 (m : ℕ → UInt8) (o : ℕ) (v : UInt64) : ℕ → UInt8 :=
  put32 (put32 m o (UInt32.ofNat v.toNat)) (o + 4) (UInt32.ofNat (v.toNat / 2 ^ 32))

theorem get64_congr (h : ∀ i, o ≤ i → i < o + 8 → m i = m' i) : get64 m o = get64 m' o := by
  have hlow : get32 m o = get32 m' o := get32_congr fun i h1 h2 => h i h1 (by omega)
  have hhigh : get32 m (o + 4) = get32 m' (o + 4) := get32_congr fun i h1 h2 => h i (by omega) (by omega)
  rw [get64, get64, hlow, hhigh]

@[simp] theorem get64_put64 (m : ℕ → UInt8) (o : ℕ) (v : UInt64) : get64 (put64 m o v) o = v := by
  have hv := v.toNat_lt
  have hlow : get32 (put64 m o v) o = UInt32.ofNat v.toNat := by
    rw [put64, get32_put32_of_disjoint _ _ (Or.inr (Nat.le_refl _)), get32_put32]
  have hhigh : get32 (put64 m o v) (o + 4) = UInt32.ofNat (v.toNat / 2 ^ 32) := by
    rw [put64, get32_put32]
  apply UInt64.toNat_inj.mp
  rw [get64, hlow, hhigh, UInt64.toNat_ofNat', UInt32.toNat_ofNat', UInt32.toNat_ofNat']
  omega

theorem put64_of_lt (m : ℕ → UInt8) {o x : ℕ} (v : UInt64) (h : x < o ∨ o + 8 ≤ x) : put64 m o v x = m x := by
  rw [put64, put32_of_lt, put32_of_lt]
  all_goals omega

/-- A word all of whose bytes are zero. -/
theorem get32_zero (h : ∀ j < 4, m (o + j) = 0) : get32 m o = 0 :=
  get32_eq 0 fun j hj => by simp [h j hj, byte]

/-! ### Bits -/

/-- Bit `i` of the bitmap `m`: `m[i / 8] & (1 << (i % 8))`. -/
def bit (m : ℕ → UInt8) (i : ℕ) : Bool := (m (i / 8)).toBitVec.getLsbD (i % 8)

/-- `m[i / 8] |= (1 << (i % 8))`. -/
def setBit (m : ℕ → UInt8) (i : ℕ) : ℕ → UInt8 :=
  Function.update m (i / 8) (m (i / 8) ||| ⟨BitVec.twoPow 8 (i % 8)⟩)

/-- `m[i / 8] &= ~(1 << (i % 8))`. -/
def clearBit (m : ℕ → UInt8) (i : ℕ) : ℕ → UInt8 :=
  Function.update m (i / 8) (m (i / 8) &&& ~~~⟨BitVec.twoPow 8 (i % 8)⟩)

theorem bit_setBit (m : ℕ → UInt8) (i j : ℕ) : bit (setBit m i) j = (decide (j = i) || bit m j) := by
  simp only [bit, setBit, Function.update_apply]
  split
  · next h =>
    rw [UInt8.toBitVec_or, BitVec.getLsbD_or, h, BitVec.getLsbD_twoPow, Bool.or_comm]
    congr 1
    have : (i % 8 = j % 8 ∧ i % 8 < 8) ↔ j = i := by omega
    rw [← Bool.decide_and, decide_eq_decide]
    tauto
  · next h =>
    have : j ≠ i := fun e => h (by rw [e])
    simp [this]

theorem bit_clearBit (m : ℕ → UInt8) (i j : ℕ) : bit (clearBit m i) j = (!decide (j = i) && bit m j) := by
  simp only [bit, clearBit, Function.update_apply]
  split
  · next h =>
    rw [UInt8.toBitVec_and, BitVec.getLsbD_and, UInt8.toBitVec_not, BitVec.getLsbD_not, h,
      BitVec.getLsbD_twoPow, Bool.and_comm]
    congr 1
    have : (i % 8 = j % 8 ∧ i % 8 < 8) ↔ j = i := by omega
    have h8 : j % 8 < 8 := by omega
    simp only [h8, decide_true, Bool.true_and, ← Bool.decide_and, Bool.not_inj_iff, decide_eq_decide]
    tauto
  · next h =>
    have : j ≠ i := fun e => h (by rw [e])
    simp [this]

theorem bit_congr (h : m (o / 8) = m' (o / 8)) : bit m o = bit m' o := by
  rw [bit, bit, h]

/-- A bitmap is its bits. -/
theorem bit_injective : Function.Injective bit := by
  intro m m' h
  funext b
  apply UInt8.toBitVec_inj.mp
  apply BitVec.eq_of_getLsbD_eq
  intro k hk
  have := congrFun h (b * 8 + k)
  rwa [bit, bit, show (b * 8 + k) / 8 = b by omega, show (b * 8 + k) % 8 = k by omega] at this

/-- Clearing the bit that was set restores the bitmap. -/
theorem clearBit_setBit {m : ℕ → UInt8} {i : ℕ} (h : bit m i = false) : clearBit (setBit m i) i = m := by
  apply bit_injective
  funext j
  rw [bit_clearBit, bit_setBit]
  by_cases hj : j = i <;> simp [hj, h]

/-- The bits of one byte of a bitmap, in turn: `none` to go on with the next byte, `some none`
to give up because the limit is reached, `some (some i)` for a clear bit `i`. -/
def scanByte (m : ℕ → UInt8) (limit b : ℕ) : Option (Option ℕ) :=
  if m b = 0xFF then none
  else (List.range 8).findSome? fun k =>
    if limit ≤ b * 8 + k then some none
    else if bit m (b * 8 + k) then none
    else some (some (b * 8 + k))

/-- Look for a clear bit below `limit` in a bitmap of `n` bytes. -/
def scan (m : ℕ → UInt8) (n limit : ℕ) : Option ℕ := ((List.range n).findSome? (scanByte m limit)).join

/-- The first index at which a search along `0, 1, …` ends. -/
theorem findSome?_range_eq_some {β : Type*} {f : ℕ → Option β} {n : ℕ} {r : β}
    (h : (List.range n).findSome? f = some r) : ∃ k < n, f k = some r ∧ ∀ j < k, f j = none := by
  induction n with
  | zero => simp at h
  | succ n ih =>
    rw [List.range_succ, List.findSome?_append] at h
    cases hs : (List.range n).findSome? f with
    | some r' =>
      rw [hs, Option.some_or] at h
      obtain ⟨k, hk, hf, hprev⟩ := ih (hs.trans h)
      exact ⟨k, by omega, hf, hprev⟩
    | none =>
      rw [hs, Option.none_or] at h
      rw [List.findSome?_eq_none_iff] at hs
      refine ⟨n, by omega, ?_, fun j hj => hs j (List.mem_range.mpr hj)⟩
      simpa using h

/-- A byte that is passed over has all its bits set. -/
theorem scanByte_eq_none {limit b : ℕ} (h : scanByte m limit b = none) {k : ℕ} (hk : k < 8) :
    bit m (b * 8 + k) = true := by
  unfold scanByte at h
  split at h
  · next hb =>
    have hd : (b * 8 + k) / 8 = b := by omega
    rw [bit, hd, hb]
    have : (b * 8 + k) % 8 = k := by omega
    rw [this]
    clear hd this hb h
    revert k
    decide
  · rw [List.findSome?_eq_none_iff] at h
    have := h k (List.mem_range.mpr hk)
    split at this
    · cases this
    · split at this
      · next hb => exact hb
      · cases this

/-- A byte that ends the search, by a clear bit or by the limit. -/
theorem scanByte_eq_some {limit b : ℕ} {r : Option ℕ} (h : scanByte m limit b = some r) :
    ∃ k < 8, (∀ j < k, bit m (b * 8 + j) = true) ∧
      ((limit ≤ b * 8 + k ∧ r = none) ∨ (b * 8 + k < limit ∧ bit m (b * 8 + k) = false ∧ r = some (b * 8 + k))) := by
  unfold scanByte at h
  split at h
  · cases h
  · obtain ⟨k, hk8, hk, hprev⟩ := findSome?_range_eq_some h
    refine ⟨k, hk8, fun j hj => ?_, ?_⟩
    · have := hprev j hj
      split at this
      · cases this
      · split at this
        · next hb => exact hb
        · cases this
    · split at hk
      · next hlim => exact Or.inl ⟨hlim, (Option.some.inj hk).symm⟩
      · split at hk
        · cases hk
        · next hlim hb => exact Or.inr ⟨by omega, by simpa using hb, (Option.some.inj hk).symm⟩

/-- What `scan` answers: the lowest clear bit below the limit, and `none` exactly when there
is none. -/
theorem scan_spec {n limit : ℕ} (hn : limit ≤ 8 * n) :
    (∃ i, scan m n limit = some i ∧ i < limit ∧ bit m i = false ∧ ∀ j < i, bit m j = true) ∨
      (scan m n limit = none ∧ ∀ j < limit, bit m j = true) := by
  have hbyte : ∀ b, (∀ c < b, scanByte m limit c = none) → ∀ j < b * 8, bit m j = true := by
    intro b hb j hj
    have := scanByte_eq_none (hb (j / 8) (by omega)) (k := j % 8) (by omega)
    rwa [show j / 8 * 8 + j % 8 = j by omega] at this
  unfold scan
  cases hs : (List.range n).findSome? (scanByte m limit) with
  | none =>
    rw [List.findSome?_eq_none_iff] at hs
    refine Or.inr ⟨rfl, fun j hj => hbyte n (fun c hc => hs c (List.mem_range.mpr hc)) j (by omega)⟩
  | some r =>
    obtain ⟨b, hbn, hb, hprev⟩ := findSome?_range_eq_some hs
    have hlow := hbyte b hprev
    obtain ⟨k, hk, hset, ⟨hlim, rfl⟩ | ⟨hlim, hclear, rfl⟩⟩ := scanByte_eq_some hb
    · refine Or.inr ⟨rfl, fun j hj => ?_⟩
      by_cases hj' : j < b * 8
      · exact hlow j hj'
      · have := hset (j - b * 8) (by omega)
        rwa [show b * 8 + (j - b * 8) = j by omega] at this
    · refine Or.inl ⟨b * 8 + k, rfl, hlim, hclear, fun j hj => ?_⟩
      by_cases hj' : j < b * 8
      · exact hlow j hj'
      · have := hset (j - b * 8) (by omega)
        rwa [show b * 8 + (j - b * 8) = j by omega] at this

/-- The lowest index below `n` at which `f` is false. -/
def firstClear (f : ℕ → Bool) (n : ℕ) : Option ℕ := (List.range n).find? fun i => !f i

theorem firstClear_eq_some {f : ℕ → Bool} {n i : ℕ} :
    firstClear f n = some i ↔ i < n ∧ f i = false ∧ ∀ j < i, f j = true := by
  rw [firstClear, List.find?_range_eq_some]
  simp only [Bool.not_eq_true', Bool.not_not, List.mem_range]
  tauto

theorem firstClear_eq_none {f : ℕ → Bool} {n : ℕ} : firstClear f n = none ↔ ∀ i < n, f i = true := by
  simp [firstClear]

theorem firstClear_congr {f g : ℕ → Bool} {n : ℕ} (h : ∀ i < n, f i = g i) : firstClear f n = firstClear g n := by
  cases hg : firstClear g n with
  | none =>
    rw [firstClear_eq_none] at hg ⊢
    exact fun i hi => (h i hi).trans (hg i hi)
  | some i =>
    rw [firstClear_eq_some] at hg ⊢
    exact ⟨hg.1, (h i hg.1).trans hg.2.1, fun j hj => (h j (Nat.lt_trans hj hg.1)).trans (hg.2.2 j hj)⟩

theorem scan_eq {n limit : ℕ} (hn : limit ≤ 8 * n) : scan m n limit = firstClear (bit m) limit := by
  obtain ⟨i, hs, h⟩ | ⟨hs, h⟩ := scan_spec (m := m) hn
  · rw [hs, firstClear_eq_some.mpr h]
  · rw [hs, firstClear_eq_none.mpr h]

/-! ### Copies -/

/-- `memcpy(&m[d], &src[o], len)`, byte by byte from the front. -/
def memcpy (m : ℕ → UInt8) (d : ℕ) (src : ℕ → UInt8) (o : ℕ) : ℕ → ℕ → UInt8
  | 0 => m
  | len + 1 => memcpy (Function.update m d (src o)) (d + 1) src (o + 1) len

/-- `memcpy(&m[d], &m[o], len)` inside one array: what is copied first may be copied again. -/
def memcpyWithin (m : ℕ → UInt8) (d o : ℕ) : ℕ → ℕ → UInt8
  | 0 => m
  | len + 1 => memcpyWithin (Function.update m d (m o)) (d + 1) (o + 1) len

/-- The first `n` bytes of an array. -/
def bytes (m : ℕ → UInt8) (n : ℕ) : List UInt8 := (List.range n).map m

theorem memcpy_apply (m : ℕ → UInt8) (d : ℕ) (src : ℕ → UInt8) (o len x : ℕ) :
    memcpy m d src o len x = if d ≤ x ∧ x < d + len then src (o + (x - d)) else m x := by
  induction len generalizing m d o with
  | zero =>
    rw [memcpy, if_neg]
    omega
  | succ len ih =>
    rw [memcpy, ih]
    by_cases hx : x = d
    · subst hx
      rw [if_neg (by omega), if_pos (by omega), Function.update_self]
      simp
    · rw [Function.update_of_ne hx]
      by_cases hin : d ≤ x ∧ x < d + (len + 1)
      · rw [if_pos hin, if_pos (by omega)]
        congr 1
        omega
      · rw [if_neg hin, if_neg (by omega)]

/-- A copy to lower addresses reads every byte before it is overwritten. -/
theorem memcpyWithin_apply (m : ℕ → UInt8) (d o len x : ℕ) (hd : d ≤ o) :
    memcpyWithin m d o len x = if d ≤ x ∧ x < d + len then m (o + (x - d)) else m x := by
  induction len generalizing m d o with
  | zero =>
    rw [memcpyWithin, if_neg]
    omega
  | succ len ih =>
    rw [memcpyWithin, ih _ _ _ (by omega)]
    by_cases hx : x = d
    · subst hx
      rw [if_neg (by omega), if_pos (by omega), Function.update_self]
      simp
    · by_cases hin : d ≤ x ∧ x < d + (len + 1)
      · rw [if_pos hin, if_pos (by omega), Function.update_of_ne (by omega)]
        congr 1
        omega
      · rw [if_neg hin, if_neg (by omega), Function.update_of_ne hx]

/-- Bytes that are not copied over stay. -/
theorem memcpyWithin_of_lt (m : ℕ → UInt8) (d o len x : ℕ) (hx : x < d ∨ d + len ≤ x) :
    memcpyWithin m d o len x = m x := by
  induction len generalizing m d o with
  | zero => rfl
  | succ len ih => rw [memcpyWithin, ih _ _ _ (by omega), Function.update_of_ne (by omega)]

theorem bytes_add (m : ℕ → UInt8) (a b : ℕ) : bytes m (a + b) = bytes m a ++ bytes (fun x => m (a + x)) b := by
  simp [bytes, List.range_add, Function.comp_def]

theorem bytes_congr {m m' : ℕ → UInt8} {n : ℕ} (hm : ∀ x, x < n → m x = m' x) : bytes m n = bytes m' n :=
  List.map_congr_left fun x hx => hm x (List.mem_range.mp hx)

/-- A copy to the end of what is there. -/
theorem bytes_memcpy (m src : ℕ → UInt8) (d len : ℕ) :
    bytes (memcpy m d src 0 len) (d + len) = bytes m d ++ bytes src len := by
  rw [bytes_add]
  congr 1
  · refine bytes_congr fun x hx => ?_
    rw [memcpy_apply, if_neg (by omega)]
  · refine bytes_congr fun x hx => ?_
    rw [memcpy_apply, if_pos (by omega)]
    congr 1
    omega

/-- What is moved to the front, after what was there before. -/
theorem bytes_memcpyWithin (m : ℕ → UInt8) (len rest : ℕ) :
    bytes m len ++ bytes (memcpyWithin m 0 len rest) rest = bytes m (len + rest) := by
  rw [bytes_add]
  congr 1
  refine bytes_congr fun x hx => ?_
  rw [memcpyWithin_apply _ _ _ _ _ (Nat.zero_le _), if_pos (by omega)]
  congr 1

end OsLab.Lib
