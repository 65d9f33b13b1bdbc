import OsLab.Cache.Model
import OsLab.Lib.CStrings

/-!
# The policy file

`do_vmflush` reads the first block of `proc/sys/vm`, copies its first two lines to `line1` and `line2` and
sets `page_cache_policy` and `write_back_freq` from them. `none` stands for a call that leaves the block
or one of the line buffers: C gives no meaning to what follows.

What the file should look like is `Accepted`: one of the two policy lines, then `write_back_freq = N`. The
scanner has no limit on the length of a line, compares the first line up to its first zero only, takes
anything for digits, and sets the policy before it looks at the second line. So `Correct` is not what it
always is; when it is, is `Clean` (`correct_iff`).
-/

namespace OsLab.Vmflush

open Lib

/-- `BLOCK_SIZE`, also the size of `rdata_buffer`. -/
def BLOCK_SIZE : ℕ := 4096

/-- The size of `line1` and `line2`. -/
def LINE_SIZE : ℕ := 64

/-- The variables that the file sets. -/
structure Globals where
  page_cache_policy : Policy
  write_back_freq : Int32
  deriving DecidableEq

/-- `"page_cache_policy = write back"` and `"page_cache_policy = write through"`. -/
def policyLine : Policy → List UInt8
  | .writeBack => literal "page_cache_policy = write back"
  | .writeThrough => literal "page_cache_policy = write through"

/-- `"write_back_freq = "`. -/
def freqPrefix : List UInt8 := literal "write_back_freq = "

/-! ### The function -/

/-- `line[j] = c`. -/
def store (line : ℕ → UInt8) (j : ℕ) (c : UInt8) : Option (ℕ → UInt8) :=
  if j < LINE_SIZE then some (Function.update line j c) else none

/-- Copy `block[i]`, `block[i + 1]` and so on to `line[j]`, `line[j + 1]` and so on until `ends`, for at most
`fuel` rounds: the indices at the end and the line. -/
def copyLine (ends : UInt8 → Bool) (block : ℕ → UInt8) : ℕ → ℕ → ℕ → (ℕ → UInt8) → Option (ℕ × ℕ × (ℕ → UInt8))
  | 0, _, _, _ => none
  | fuel + 1, i, j, line =>
    if BLOCK_SIZE ≤ i then none
    else if ends (block i) then some (i, j, line)
    else do
      let line ← store line j (block i)
      copyLine ends block fuel (i + 1) (j + 1) line

/-- `line[i] != '\n'`. -/
def endsFirst (c : UInt8) : Bool := c = 10

/-- `line[i] != '\n' && line[i] != '\0'`. -/
def endsSecond (c : UInt8) : Bool := c = 10 ∨ c = 0

/-- The two tests of `line1`. -/
def policyOf (line1 : ℕ → UInt8) : Option Policy :=
  if strcmp line1 0 (policyLine .writeBack) = 0 then some .writeBack
  else if strcmp line1 0 (policyLine .writeThrough) = 0 then some .writeThrough
  else none

/-- `for (; line2[k] != '\0'; k++) write_back_freq = write_back_freq * 10 + line2[k] - '0';`, for at most
`fuel` rounds. -/
def readFreq (line2 : ℕ → UInt8) : ℕ → ℕ → Int32 → Option Int32
  | 0, _, _ => none
  | fuel + 1, k, freq =>
    if LINE_SIZE ≤ k then none
    else if line2 k = 0 then some freq
    else readFreq line2 fuel (k + 1) (freq * 10 + Int32.ofNat (line2 k).toNat - 48)

/-- What is done with the two lines. -/
def setGlobals (line1 line2 : ℕ → UInt8) (g : Globals) : Option (ℤ × Globals) :=
  match policyOf line1 with
  | none => some (-1, g)
  | some p =>
    let g := { g with page_cache_policy := p }
    if strncmp line2 0 freqPrefix = 0 then do
      let freq ← readFreq line2 (LINE_SIZE + 1) 18 0
      some (0, { g with write_back_freq := freq })
    else some (-1, g)

/-- `do_vmflush()`. `vm` is the first block of `proc/sys/vm` as it is brought into `rdata_buffer`, if
there is the file; `line1` and `line2` are what is on the stack. -/
def do_vmflush (vm : Option (ℕ → UInt8)) (line1 line2 : ℕ → UInt8) (g : Globals) : Option (ℤ × Globals) :=
  match vm with
  | none => some (-1, g)
  | some block => do
    let (i, n₁, line1) ← copyLine endsFirst block (BLOCK_SIZE + 1) 0 0 line1
    let line1 ← store line1 n₁ 0
    let (_, n₂, line2) ← copyLine endsSecond block (BLOCK_SIZE + 1) (i + 1) 0 line2
    let line2 ← store line2 n₂ 0
    setGlobals line1 line2 g

/-! ### What the file says -/

/-- The value of decimal digits. -/
def value (ds : List UInt8) : ℕ := ds.foldl (fun n d => 10 * n + (d.toNat - 48)) 0

/-- The second line, from `o` on, begins with `write_back_freq = `. -/
def HasFreq (block : ℕ → UInt8) (o : ℕ) : Prop := ∀ j < freqPrefix.length, block (o + j) = freqPrefix.getD j 0

/-- The block starts with the line of policy `p` and a line `write_back_freq = N` for the number `n`. The number has
digits only, from `o` on, and ends with the line or with a zero. -/
def Accepted (block : ℕ → UInt8) (p : Policy) (n : ℕ) : Prop :=
  let o := (policyLine p).length + 1 + freqPrefix.length
  (∀ j < (policyLine p).length, block j = (policyLine p).getD j 0) ∧ block (policyLine p).length = 10 ∧
    HasFreq block ((policyLine p).length + 1) ∧
      ∃ ds : List UInt8, ds ≠ [] ∧ (∀ d ∈ ds, 48 ≤ d.toNat ∧ d.toNat ≤ 57) ∧
      (∀ j < ds.length, block (o + j) = ds.getD j 0) ∧
        (block (o + ds.length) = 10 ∨ block (o + ds.length) = 0) ∧ o + ds.length < BLOCK_SIZE ∧
          value ds = n ∧ 1 ≤ n ∧ n ≤ 21474836

/-- The modulus in `handle_irq_timer`. -/
def period (g : Globals) : Int32 := g.write_back_freq * 100

/-- What `do_vmflush` should do: it comes back, accepts these files and no others, and changes nothing when
it does not accept. The modulus is not zero when it accepts. -/
structure Correct (block : ℕ → UInt8) (g : Globals) (r : Option (ℤ × Globals)) : Prop where
  accepts : ∀ p n, Accepted block p n → ∃ freq : Int32, r = some (0, ⟨p, freq⟩) ∧ freq.toInt = n
  rejects : (∀ p n, ¬ Accepted block p n) → r = some (-1, g)
  modulus : ∀ g', r = some (0, g') → period g' ≠ 0

/-- The first line ends at `n₁` and fits. -/
def EndsFirst (block : ℕ → UInt8) (n₁ : ℕ) : Prop := n₁ < LINE_SIZE ∧ block n₁ = 10 ∧ ∀ j < n₁, block j ≠ 10

/-- The line at `o` ends `n₂` bytes later and fits. -/
def EndsSecond (block : ℕ → UInt8) (o n₂ : ℕ) : Prop :=
  n₂ < LINE_SIZE ∧ (block (o + n₂) = 10 ∨ block (o + n₂) = 0) ∧ ∀ j < n₂, block (o + j) ≠ 10 ∧ block (o + j) ≠ 0

/-- The first line, up to its first zero, is the line of policy `p`; `n₁` is the length of the line. -/
def Names (block : ℕ → UInt8) (n₁ : ℕ) (p : Policy) : Prop :=
  (∀ j < (policyLine p).length, block j = (policyLine p).getD j 0) ∧
    (n₁ = (policyLine p).length ∨ block (policyLine p).length = 0)

/-- The first two lines have less than 64 characters, and the file is accepted, or no policy is found, or it
is the one that is set already and the second line does not begin as it should. -/
def Clean (block : ℕ → UInt8) (g : Globals) : Prop :=
  ∃ n₁ n₂, EndsFirst block n₁ ∧ EndsSecond block (n₁ + 1) n₂ ∧
    ((∃ p n, Accepted block p n) ∨ (∀ p, ¬ Names block n₁ p) ∨
      (¬ HasFreq block (n₁ + 1) ∧ ∀ p, Names block n₁ p → g.page_cache_policy = p))

/-! ### The loops -/

section Loops

variable {ends : UInt8 → Bool} {block line line' : ℕ → UInt8} {fuel i i' j j' k n : ℕ} {c : UInt8}

theorem store_of (hj : j < LINE_SIZE) : store line j c = some (Function.update line j c) := if_pos hj

theorem store_some (h : store line j c = some line') : j < LINE_SIZE := by
  rw [store, Option.ite_none_right_eq_some] at h
  exact h.1

/-- Where the loop ends. -/
theorem copyLine_some (h : copyLine ends block fuel i j line = some (i', j', line')) :
    ∃ n, i' = i + n ∧ j' = j + n ∧ ends (block (i + n)) = true ∧ ∀ m < n, ends (block (i + m)) = false := by
  induction fuel generalizing i j line with
  | zero => cases h
  | succ fuel ih =>
    rw [copyLine] at h
    split at h
    · cases h
    · split at h
      · next he =>
        cases h
        exact ⟨0, rfl, rfl, he, nofun⟩
      · next he =>
        obtain ⟨line₁, -, h⟩ := Option.bind_eq_some_iff.mp h
        obtain ⟨n, rfl, rfl, hend, hall⟩ := ih h
        refine ⟨n + 1, by omega, by omega, ?_, fun m hm => ?_⟩
        · rw [← hend]
          congr 2
          omega
        · cases m with
          | zero => exact Bool.eq_false_iff.mpr he
          | succ m =>
            rw [← hall m (by omega)]
            congr 2
            omega

/-- A line with `n` bytes copied. -/
def copied (block : ℕ → UInt8) (i j n : ℕ) (line : ℕ → UInt8) : ℕ → UInt8 := fun x =>
  if j ≤ x ∧ x < j + n then block (i + (x - j)) else line x

theorem copied_zero : copied block i j 0 line = line := by
  funext x
  rw [copied, if_neg (by omega)]

theorem copied_succ : copied block (i + 1)
    (j + 1) n (Function.update line j (block i)) = copied block i j (n + 1) line := by
  funext x
  rw [copied, copied]
  by_cases hx : x = j
  · subst hx
    rw [if_neg (by omega), if_pos (by omega), Function.update_self, Nat.sub_self]
    rfl
  · rw [Function.update_of_ne hx]
    by_cases hin : j + 1 ≤ x ∧ x < j + 1 + n
    · rw [if_pos hin, if_pos (by omega), show i + 1 + (x - (j + 1)) = i + (x - j) by omega]
    · rw [if_neg hin, if_neg (by omega)]

/-- A line that fits is copied. -/
theorem copyLine_of (hf : n < fuel) (hi : i + n < BLOCK_SIZE)
    (hj : j + n ≤ LINE_SIZE) (hend : ends (block (i + n)) = true)
    (hall : ∀ m < n, ends (block (i + m)) = false) :
    copyLine ends block fuel i j line = some (i + n, j + n, copied block i j n line) := by
  induction fuel generalizing i j line n with
  | zero => exact absurd hf (Nat.not_lt_zero n)
  | succ fuel ih =>
    rw [copyLine, if_neg (by omega)]
    cases n with
    | zero =>
      have hend : ends (block i) = true := hend
      rw [if_pos hend, copied_zero]
      rfl
    | succ n =>
      have hgo : ends (block i) = false := hall 0 (Nat.zero_lt_succ n)
      rw [if_neg (Bool.eq_false_iff.mp hgo), store, if_pos (by omega), ← copied_succ, ← Nat.add_assoc, ← Nat.add_assoc,
        Nat.add_right_comm i, Nat.add_right_comm j]
      refine ih (n := n) (by omega) (by omega) (by omega) ?_ fun m hm => ?_
      · rw [← hend]
        congr 2
        omega
      · rw [← hall (m + 1) (by omega)]
        congr 2
        omega

/-- The number ends at the zero after the line. -/
theorem readFreq_some (hf : n < fuel) (hk : k + n < LINE_SIZE) (hz : line (k + n) = 0) (freq : Int32) :
    ∃ freq', readFreq line fuel k freq = some freq' := by
  induction fuel generalizing k n freq with
  | zero => exact absurd hf (Nat.not_lt_zero n)
  | succ fuel ih =>
    rw [readFreq, if_neg (by omega)]
    split
    · exact ⟨_, rfl⟩
    · next hne =>
      cases n with
      | zero => exact absurd hz hne
      | succ n => exact ih (n := n) (by omega) (by omega) (by rw [← hz]; congr 1; omega) _

/-- Digits are read as their value. -/
theorem readFreq_digits {ds : List UInt8} (hd : ∀ d ∈ ds, 48 ≤ d.toNat)
    (hf : ds.length < fuel) (hk : k + ds.length < LINE_SIZE)
    (hline : ∀ j ≤ ds.length, line (k + j) = ds.getD j 0) (v : ℕ) :
    readFreq line fuel k (Int32.ofNat v) = some (Int32.ofNat (ds.foldl (fun n d => 10 * n + (d.toNat - 48)) v)) := by
  induction ds generalizing fuel k v with
  | nil =>
    cases fuel with
    | zero => cases hf
    | succ fuel =>
      have hz : line k = 0 := hline 0 (Nat.zero_le _)
      rw [List.length_nil] at hk
      rw [readFreq, if_neg (by omega), if_pos hz]
      rfl
  | cons d ds ih =>
    cases fuel with
    | zero => cases hf
    | succ fuel =>
      have hd48 := hd d (List.mem_cons_self ..)
      have hkd : line k = d := hline 0 (Nat.zero_le _)
      have hne : line k ≠ 0 := by
        rw [hkd]
        rintro rfl
        exact absurd hd48 (by decide)
      have hword : Int32.ofNat v * 10 + Int32.ofNat d.toNat - 48 = Int32.ofNat (10 * v + (d.toNat - 48)) := by
        rw [show 10 * v + (d.toNat - 48) = v * 10 + d.toNat -
          48 by omega, Int32.ofNat_sub _ _ (by omega), Int32.ofNat_add,
          Int32.ofNat_mul]
        rfl
      rw [readFreq, if_neg (by omega), if_neg hne, hkd, hword, List.foldl_cons]
      refine ih (fun d' hd' => hd d' (List.mem_cons_of_mem _ hd')) ?_ ?_ (fun j hj => ?_) _
      · simpa using hf
      · rw [List.length_cons] at hk
        omega
      · have := hline (j + 1) (by rw [List.length_cons]; omega)
        rwa [List.getD_cons_succ, ← Nat.add_assoc, Nat.add_right_comm] at this

end Loops

/-! ### The lines -/

section Lines

variable {block line1 line2 : ℕ → UInt8} {n₁ n₂ o : ℕ} {p : Policy} {g : Globals} {n : ℕ}

/-- The line of `n` bytes at `o`, with its zero, in a buffer that held `line`. -/
def lineOf (block : ℕ → UInt8) (o n : ℕ) (line : ℕ → UInt8) : ℕ → UInt8 := Function.update (copied block o 0 n line) n 0

theorem lineOf_of_lt {x : ℕ} (hx : x < n) : lineOf block o n line1 x = block (o + x) := by
  rw [lineOf, Function.update_of_ne (by omega), copied, if_pos (by omega), Nat.sub_zero]

theorem lineOf_self : lineOf block o n line1 n = 0 := Function.update_self ..

/-- Lines that fit are found. -/
theorem do_vmflush_of (h₁ : EndsFirst block n₁) (h₂ : EndsSecond block (n₁ + 1) n₂) :
    do_vmflush (some block) line1 line2 g =
    setGlobals (lineOf block 0 n₁ line1) (lineOf block (n₁ + 1) n₂ line2) g := by
  obtain ⟨hlt₁, hend₁, hall₁⟩ := h₁
  obtain ⟨hlt₂, hend₂, hall₂⟩ := h₂
  have h64 : LINE_SIZE = 64 := rfl
  have hcopy₁ : copyLine endsFirst block (BLOCK_SIZE + 1) 0 0 line1 = some (n₁, n₁, copied block 0 0 n₁ line1) := by
    have := @copyLine_of endsFirst block line1 (BLOCK_SIZE + 1) 0 0 n₁
      (by rw [BLOCK_SIZE]; omega) (by rw [BLOCK_SIZE]; omega) (by omega) (by simp [endsFirst, hend₁])
      fun m hm => by simp [endsFirst, hall₁ m hm]
    simpa using this
  have hcopy₂ : copyLine endsSecond block (BLOCK_SIZE + 1)
      (n₁ + 1) 0 line2 = some (n₁ + 1 + n₂, n₂, copied block (n₁ + 1) 0 n₂ line2) := by
    have := @copyLine_of endsSecond block line2 (BLOCK_SIZE + 1) (n₁ + 1) 0 n₂
      (by rw [BLOCK_SIZE]; omega) (by rw [BLOCK_SIZE]; omega) (by omega) (by simpa [endsSecond] using hend₂)
      fun m hm => by simp [endsSecond, hall₂ m hm]
    simpa using this
  simp only [do_vmflush, hcopy₁, Option.bind_eq_bind, Option.bind_some, store_of hlt₁, hcopy₂, store_of hlt₂]
  rfl

/-- Where the call comes back, the lines fit. -/
theorem ends_of_some {r : ℤ × Globals} (h : do_vmflush (some block) line1 line2 g = some r) :
    ∃ n₁ n₂, EndsFirst block n₁ ∧ EndsSecond block (n₁ + 1) n₂ := by
  simp only [do_vmflush, Option.bind_eq_bind, Option.bind_eq_some_iff] at h
  obtain ⟨⟨i, j₁, l₁⟩, hc₁, l₁', hs₁, ⟨i', j₂, l₂⟩, hc₂, l₂', hs₂, -⟩ := h
  obtain ⟨n₁, hi, hj, he₁, ha₁⟩ := copyLine_some hc₁
  obtain ⟨n₂, -, hj₂, he₂, ha₂⟩ := copyLine_some hc₂
  rw [Nat.zero_add] at hi hj hj₂ he₁
  rw [hj] at hs₁
  rw [hj₂] at hs₂
  rw [hi] at he₂ ha₂
  refine ⟨n₁, n₂, ⟨store_some hs₁, by simpa [endsFirst] using he₁, fun j hj => ?_⟩,
    store_some hs₂, by simpa [endsSecond] using he₂, fun j hj => ?_⟩
  · have := ha₁ j hj
    rw [Nat.zero_add] at this
    simpa [endsFirst] using this
  · simpa [endsSecond] using ha₂ j hj

theorem policyLine_ne (p : Policy) {j : ℕ} (hj : j < (policyLine p).length) :
    (policyLine p).getD j 0 ≠ 10 ∧ (policyLine p).getD j 0 ≠ 0 := by
  have hall : (policyLine p).all (fun c => decide (c ≠ 10 ∧ c ≠ 0)) = true := by
    cases p <;> decide
  rw [List.getD_eq_getElem _ _ hj]
  exact of_decide_eq_true (List.all_eq_true.mp hall _ (List.getElem_mem hj))

theorem freqPrefix_ne {j : ℕ} (hj : j < freqPrefix.length) : freqPrefix.getD j 0 ≠ 10 ∧ freqPrefix.getD j 0 ≠ 0 := by
  have hall : freqPrefix.all (fun c => decide (c ≠ 10 ∧ c ≠ 0)) = true := by decide
  rw [List.getD_eq_getElem _ _ hj]
  exact of_decide_eq_true (List.all_eq_true.mp hall _ (List.getElem_mem hj))

theorem zero_notMem_policyLine (p : Policy) : 0 ∉ policyLine p := by
  cases p <;> decide

/-- The test of the first line. -/
theorem strcmp_line (h₁ : EndsFirst block n₁) :
    strcmp (lineOf block 0 n₁ line1) 0 (policyLine p) = 0 ↔ Names block n₁ p := by
  rw [strcmp_eq_zero (zero_notMem_policyLine p)]
  constructor
  · intro h
    have hle : (policyLine p).length ≤ n₁ := by
      by_contra hlt
      have := h n₁ (by omega)
      rw [Nat.zero_add, lineOf_self] at this
      exact (policyLine_ne p (by omega)).2 this.symm
    refine ⟨fun j hj => ?_, ?_⟩
    · have := h j (Nat.le_of_lt hj)
      rwa [Nat.zero_add, lineOf_of_lt (by omega), Nat.zero_add] at this
    · rcases Nat.lt_or_eq_of_le hle with hlt | heq
      · have := h _ (Nat.le_refl _)
        rw [Nat.zero_add, lineOf_of_lt hlt, Nat.zero_add, List.getD_eq_default _ _ (Nat.le_refl _)] at this
        exact Or.inr this
      · exact Or.inl heq.symm
  · rintro ⟨hall, hend⟩ j hj
    have hle : (policyLine p).length ≤ n₁ := by
      by_contra hlt
      have := hall n₁ (by omega)
      exact (policyLine_ne p (by omega)).1 (this.symm.trans h₁.2.1)
    rw [Nat.zero_add]
    rcases Nat.lt_or_eq_of_le hj with hlt | rfl
    · rw [lineOf_of_lt (by omega), Nat.zero_add]
      exact hall j hlt
    · rw [List.getD_eq_default _ _ (Nat.le_refl _)]
      rcases Nat.lt_or_eq_of_le hle with hlt | heq
      · rw [lineOf_of_lt hlt, Nat.zero_add]
        exact hend.resolve_left (by omega)
      · rw [heq, lineOf_self]

/-- A first line does not name both policies. -/
theorem Names.unique {q : Policy} (hp : Names block n₁ p) (hq : Names block n₁ q) : p = q := by
  have hdiff : (policyLine .writeBack).getD 26 0 ≠ (policyLine .writeThrough).getD 26 0 := by decide
  have hlen : ∀ p, 26 < (policyLine p).length := by
    intro p
    cases p <;> decide
  have heq := (hp.1 26 (hlen p)).symm.trans (hq.1 26 (hlen q))
  cases p <;> cases q
  · rfl
  · exact absurd heq hdiff
  · exact absurd heq.symm hdiff
  · rfl

theorem policyOf_eq_some (h₁ : EndsFirst block n₁) :
    policyOf (lineOf block 0 n₁ line1) = some p ↔ Names block n₁ p := by
  rw [policyOf]
  split
  · next h =>
    have hb := (strcmp_line h₁).mp h
    exact ⟨fun e => Option.some.inj e ▸ hb, fun hp => congrArg some (hb.unique hp)⟩
  · next hb =>
    split
    · next h =>
      have ht := (strcmp_line h₁).mp h
      exact ⟨fun e => Option.some.inj e ▸ ht, fun hp => congrArg some (ht.unique hp)⟩
    · next ht =>
      refine ⟨nofun, fun hp => ?_⟩
      cases p with
      | writeBack => exact absurd ((strcmp_line h₁).mpr hp) hb
      | writeThrough => exact absurd ((strcmp_line h₁).mpr hp) ht

/-- The test of the second line. -/
theorem strncmp_line (line2 : ℕ → UInt8) (h₂ : EndsSecond block o n₂) :
    (strncmp (lineOf block o n₂ line2) 0 freqPrefix = 0 ↔ HasFreq block o) ∧
    (HasFreq block o → freqPrefix.length ≤ n₂) := by
  have hle : HasFreq block o → freqPrefix.length ≤ n₂ := by
    intro h
    by_contra hlt
    have := h n₂ (by omega)
    have hne := freqPrefix_ne (j := n₂) (by omega)
    rw [← this] at hne
    exact h₂.2.1.elim hne.1 hne.2
  rw [strncmp_eq_zero (by decide)]
  refine ⟨⟨fun h j hj => ?_, fun h j hj => ?_⟩, hle⟩
  · have hn : freqPrefix.length ≤ n₂ := by
      by_contra hlt
      have := h n₂ (by omega)
      rw [Nat.zero_add, lineOf_self] at this
      exact (freqPrefix_ne (by omega)).2 this.symm
    have := h j hj
    rwa [Nat.zero_add, lineOf_of_lt (by omega)] at this
  · have := hle h
    rw [Nat.zero_add, lineOf_of_lt (by omega)]
    exact h j hj

theorem setGlobals_unnamed (h₁ : EndsFirst block n₁) (hno : ∀ p, ¬ Names block n₁ p) :
    setGlobals (lineOf block 0 n₁ line1) line2 g = some (-1, g) := by
  rw [setGlobals]
  cases hp : policyOf (lineOf block 0 n₁ line1) with
  | none => rfl
  | some p => exact absurd ((policyOf_eq_some h₁).mp hp) (hno p)

theorem setGlobals_unfinished (h₁ : EndsFirst block n₁)
    (h₂ : EndsSecond block o n₂) (hp : Names block n₁ p) (hno : ¬ HasFreq block o) :
    setGlobals (lineOf block 0 n₁ line1)
    (lineOf block o n₂ line2) g = some (-1, { g with page_cache_policy := p }) := by
  rw [setGlobals, (policyOf_eq_some h₁).mpr hp]
  exact if_neg fun h => hno ((strncmp_line _ h₂).1.mp h)

theorem setGlobals_freq (h₁ : EndsFirst block n₁) (h₂ : EndsSecond block o n₂)
    (hp : Names block n₁ p) (hf : HasFreq block o) :
    setGlobals (lineOf block 0 n₁ line1) (lineOf block o n₂ line2) g =
      (readFreq (lineOf block o n₂ line2) (LINE_SIZE + 1) freqPrefix.length 0).map fun freq => (0, ⟨p, freq⟩) := by
  rw [setGlobals, (policyOf_eq_some h₁).mpr hp]
  refine (if_pos ((strncmp_line _ h₂).1.mpr hf)).trans ?_
  rw [Option.map_eq_bind]
  rfl

/-- A number is read, whatever it is. -/
theorem readFreq_line (line2 : ℕ → UInt8) (h₂ : EndsSecond block o n₂) (hf : HasFreq block o) :
    ∃ freq, readFreq (lineOf block o n₂ line2) (LINE_SIZE + 1) freqPrefix.length 0 = some freq := by
  have hle := (strncmp_line line2 h₂).2 hf
  have hlt := h₂.1
  obtain ⟨n, rfl⟩ := Nat.exists_eq_add_of_le hle
  exact readFreq_some (n := n) (by omega) hlt lineOf_self 0

/-- The lines of an accepted file. -/
theorem Accepted.lines (line2 : ℕ → UInt8) (ha : Accepted block p n)
    (h₁ : EndsFirst block n₁) (h₂ : EndsSecond block (n₁ + 1) n₂) :
    Names block n₁ p ∧ HasFreq block (n₁ + 1) ∧
      readFreq (lineOf block (n₁ + 1) n₂ line2) (LINE_SIZE + 1) freqPrefix.length 0 = some (Int32.ofNat n) := by
  obtain ⟨hpol, hnl, hfreq, ds, hne, hdig, hds, hend, -, hval, -, -⟩ := ha
  have hn₁ : n₁ = (policyLine p).length := by
    rcases Nat.lt_trichotomy n₁ (policyLine p).length with hlt | heq | hgt
    · exact absurd ((hpol n₁ hlt).symm.trans h₁.2.1) (policyLine_ne p hlt).1
    · exact heq
    · exact absurd hnl (h₁.2.2 _ hgt)
  subst hn₁
  have hdigit : ∀ j < ds.length, block ((policyLine p).length + 1 + (freqPrefix.length + j)) ≠ 10 ∧
      block ((policyLine p).length + 1 + (freqPrefix.length + j)) ≠ 0 := by
    intro j hj
    have hd := hdig _ (List.getElem_mem hj)
    rw [← Nat.add_assoc, hds j hj, List.getD_eq_getElem _ _ hj]
    refine ⟨fun e => ?_, fun e => ?_⟩
    · rw [e] at hd
      exact absurd hd.1 (by decide)
    · rw [e] at hd
      exact absurd hd.1 (by decide)
  have hn₂ : n₂ = freqPrefix.length + ds.length := by
    rcases Nat.lt_trichotomy n₂ (freqPrefix.length + ds.length) with hlt | heq | hgt
    · exfalso
      have hstop := h₂.2.1
      by_cases hp : n₂ < freqPrefix.length
      · rw [hfreq n₂ hp] at hstop
        exact hstop.elim (freqPrefix_ne hp).1 (freqPrefix_ne hp).2
      · have := hdigit (n₂ - freqPrefix.length) (by omega)
        rw [show freqPrefix.length + (n₂ - freqPrefix.length) = n₂ by omega] at this
        exact hstop.elim this.1 this.2
    · exact heq
    · have := h₂.2.2 _ hgt
      rw [← Nat.add_assoc] at this
      exact absurd hend (not_or.mpr this)
  subst hn₂
  refine ⟨⟨hpol, Or.inl rfl⟩, hfreq, ?_⟩
  have hlt := h₂.1
  have hread := @readFreq_digits (lineOf block ((policyLine p).length + 1) (freqPrefix.length + ds.length) line2)
    (LINE_SIZE + 1)
    freqPrefix.length ds (fun d hd => (hdig d hd).1) (by omega) hlt ?_ 0
  · rw [← hval]
    exact hread
  · intro j hj
    rcases Nat.lt_or_eq_of_le hj with hjlt | rfl
    · rw [lineOf_of_lt (by omega), ← Nat.add_assoc]
      exact hds j hjlt
    · rw [lineOf_self, List.getD_eq_default _ _ (Nat.le_refl _)]

end Lines

/-! ### When it is correct -/

variable {block line1 line2 : ℕ → UInt8} {g : Globals} {p : Policy} {n : ℕ}

theorem toInt_ofNat (hn : n ≤ 21474836) : (Int32.ofNat n).toInt = n := Int32.toInt_ofNat_of_lt (by omega)

/-- The modulus of an accepted number. -/
theorem period_ne_zero {freq : Int32} (h1 : 1 ≤ n) (h2 : n ≤ 21474836) (hf : freq.toInt = n) :
    period ⟨p, freq⟩ ≠ 0 := by
  intro h
  have := congrArg Int32.toInt h
  rw [period, Int32.toInt_mul, hf, show (100 : Int32).toInt = 100 from rfl, show (0 : Int32).toInt = 0 from rfl,
    Int.bmod_eq_of_le (by omega) (by omega)] at this
  omega

/-- **The policy file is handled well when its lines are short and nothing is set too early.** The call comes
back, accepts the well-formed files and no others, and leaves the variables as they are when it does
not accept, exactly when `Clean` holds. -/
theorem correct_iff (block line1 line2 : ℕ → UInt8) (g : Globals) :
    Correct block g (do_vmflush (some block) line1 line2 g) ↔ Clean block g := by
  constructor
  · intro hc
    obtain ⟨r, hr⟩ : ∃ r, do_vmflush (some block) line1 line2 g = some r := by
      by_cases ha : ∃ p n, Accepted block p n
      · obtain ⟨p, n, ha⟩ := ha
        obtain ⟨freq, hr, -⟩ := hc.accepts p n ha
        exact ⟨_, hr⟩
      · exact ⟨_, hc.rejects fun p n h => ha ⟨p, n, h⟩⟩
    obtain ⟨n₁, n₂, h₁, h₂⟩ := ends_of_some hr
    refine ⟨n₁, n₂, h₁, h₂, ?_⟩
    by_cases ha : ∃ p n, Accepted block p n
    · exact Or.inl ha
    have hrej := hc.rejects fun p n h => ha ⟨p, n, h⟩
    rw [do_vmflush_of h₁ h₂] at hrej
    by_cases hp : ∃ p, Names block n₁ p
    · obtain ⟨p, hp⟩ := hp
      by_cases hf : HasFreq block (n₁ + 1)
      · obtain ⟨freq, hread⟩ := readFreq_line line2 h₂ hf
        rw [setGlobals_freq h₁ h₂ hp hf, hread] at hrej
        cases hrej
      · rw [setGlobals_unfinished h₁ h₂ hp hf] at hrej
        refine Or.inr (Or.inr ⟨hf, fun q hq => ?_⟩)
        have := congrArg Globals.page_cache_policy (Prod.mk.inj (Option.some.inj hrej)).2
        exact this.symm.trans (hp.unique hq)
    · exact Or.inr (Or.inl fun p h => hp ⟨p, h⟩)
  · rintro ⟨n₁, n₂, h₁, h₂, hcases⟩
    rw [do_vmflush_of h₁ h₂]
    have haccept : ∀ p n, Accepted block p n → setGlobals (lineOf block 0 n₁ line1) (lineOf block (n₁ + 1) n₂ line2) g =
        some (0, ⟨p, Int32.ofNat n⟩) := by
      intro p n ha
      obtain ⟨hp, hf, hread⟩ := ha.lines line2 h₁ h₂
      rw [setGlobals_freq h₁ h₂ hp hf, hread]
      rfl
    have hreject : (∀ p n, ¬ Accepted block p n) →
        setGlobals (lineOf block 0 n₁ line1) (lineOf block (n₁ + 1) n₂ line2) g = some (-1, g) := by
      intro hno
      rcases hcases with ⟨p, n, ha⟩ | hnone | ⟨hf, hsame⟩
      · exact absurd ha (hno p n)
      · exact setGlobals_unnamed h₁ hnone
      · by_cases hp : ∃ p, Names block n₁ p
        · obtain ⟨p, hp⟩ := hp
          rw [setGlobals_unfinished h₁ h₂ hp hf, ← hsame p hp]
        · exact setGlobals_unnamed h₁ fun p h => hp ⟨p, h⟩
    refine ⟨fun p n ha => ⟨_, haccept p n ha, ?_⟩, hreject, fun g' hg' => ?_⟩
    · obtain ⟨-, -, -, ds, -, -, -, -, -, -, -, hn⟩ := ha
      exact toInt_ofNat hn
    · by_cases ha : ∃ p n, Accepted block p n
      · obtain ⟨p, n, ha⟩ := ha
        rw [haccept p n ha] at hg'
        obtain ⟨-, rfl⟩ := Prod.mk.inj (Option.some.inj hg')
        obtain ⟨-, -, -, ds, -, -, -, -, -, -, h1, h2⟩ := ha
        exact period_ne_zero h1 h2 (toInt_ofNat h2)
      · rw [hreject fun p n h => ha ⟨p, n, h⟩] at hg'
        cases hg'

/-- A file that asks for a frequency of zero. -/
def zeroFreq : ℕ → UInt8 := fun x =>
    (literal "page_cache_policy = write back" ++ [10] ++ literal "write_back_freq = 0" ++ [10]).getD x 0

/-- It is accepted, and the modulus in the timer interrupt is zero. -/
theorem correct_zero_fails : ¬ ∀ (block line1 line2 : ℕ → UInt8) (g : Globals),
    Correct block g (do_vmflush (some block) line1 line2 g) := by
  intro hall
  have hrun : do_vmflush (some zeroFreq) (fun _ => 0) (fun _ => 0) ⟨.writeBack, 30⟩ = some (0, ⟨.writeBack, 0⟩) := by
    decide +kernel
  exact (hall zeroFreq (fun _ => 0) (fun _ => 0) ⟨.writeBack, 30⟩).modulus _ hrun (by decide)

end OsLab.Vmflush
