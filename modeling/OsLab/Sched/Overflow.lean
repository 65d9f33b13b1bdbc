import OsLab.Lib.CStrings
import OsLab.Sched.Model

/-!
# The mailboxes in memory

`do_mbox_open`, `do_mbox_send` and `do_mbox_recv` once more, now on the bytes of the array `mailbox`.
The model of the scheduler stops where a name does not fit, a length is negative or a sum overflows; here
the functions go on as the machine does. Names have any length, `int` is a 32-bit word that wraps around,
and `memcpy` takes its length as unsigned. The copies are noted with their first address and their length,
so that one can ask where they end up.

One round of the loops of `do_mbox_send` and `do_mbox_recv` is one operation: a task that blocks changes
nothing, and its next round is an operation of its own. The queues are modelled apart.

`do_mbox_open` copies a name of any length, the guard of `do_mbox_send` is a sum that may wrap around, and
neither guard excludes negative lengths. Names that fit and lengths that do not overflow are safe, and
these only (`bounded_iff`).
-/

namespace OsLab.Mbox

open Lib Sched

/-- `MBOX_ACTIVE`. -/
def MBOX_ACTIVE : UInt32 := 0

/-- `MBOX_INACTIVE`. -/
def MBOX_INACTIVE : UInt32 := 1

/-- `MBOX_OPEN`. -/
def MBOX_OPEN : UInt32 := 0

/-- Memory. -/
abbrev Memory := ℕ → UInt8

section Layout

variable (base : ℕ) (k : Handle)

/-- `&mailbox[k]`, for the array at `base`. -/
def mailbox : ℕ := base + 144 * k

/-- `&mailbox[k].status`. -/
def statusAt : ℕ := mailbox base k

/-- `&mailbox[k].open`. -/
def openAt : ℕ := mailbox base k + 4

/-- `mailbox[k].name`, of 32 bytes. -/
def nameAt : ℕ := mailbox base k + 8

/-- `mailbox[k].buffer`, of `MAX_MBOX_LENGTH` bytes. -/
def bufferAt : ℕ := mailbox base k + 40

/-- `&mailbox[k].buffer_idx`. -/
def indexAt : ℕ := mailbox base k + 104

/-- `&mailbox[k].cite_num`. -/
def citeAt : ℕ := mailbox base k + 108

/-- `mailbox[k].status == MBOX_ACTIVE`. -/
def Active (m : Memory) : Prop := get32 m (statusAt base k) = MBOX_ACTIVE

instance (m : Memory) : Decidable (Active base k m) := inferInstanceAs (Decidable (_ = _))

/-- `mailbox[k].buffer_idx`. -/
def buffer_idx (m : Memory) : Int32 := (get32 m (indexAt base k)).toInt32

end Layout

/-! ### The operations -/

/-- What an operation does. -/
structure Effect where
  mem : Memory
  /-- The copies into the array: the first address and the number of bytes. -/
  writes : List (ℕ × ℕ)
  /-- The bytes that are copied to the caller. -/
  out : List UInt8
  /-- What the call returns; `none` when the task blocks. -/
  ret : Option ℤ

variable (base : ℕ)

/-- `mailbox[k].cite_num++; mailbox[k].open = MBOX_OPEN;` -/
def cite (m : Memory) (k : Handle) : Memory :=
  put32 (put32 m (citeAt base k) (get32 m (citeAt base k) + 1)) (openAt base k) MBOX_OPEN

/-- `do_mbox_open(name)`. -/
def do_mbox_open (m : Memory) (name : List UInt8) : Effect :=
  match (List.finRange LOCK_NUM).find? fun k => Active base k m ∧ strcmp m (nameAt base k) name = 0 with
  | some k => { mem := cite base m k, writes := [], out := [], ret := some k.1 }
  | none =>
    match (List.finRange LOCK_NUM).find? fun k => get32 m (statusAt base k) = MBOX_INACTIVE with
    | none => { mem := m, writes := [], out := [], ret := some (-1) }
    | some k =>
      let m₁ := strcpy m (nameAt base k) name
      let m₂ := put32 (put32 (put32 m₁ (statusAt base k) MBOX_ACTIVE) (indexAt base k) 0) (citeAt base k) 0
      { mem := cite base m₂ k, writes := [(nameAt base k, name.length + 1)], out := [], ret := some k.1 }

/-- `mailbox[k].buffer_idx = v`. -/
def setIndex (m : Memory) (k : Handle) (v : Int32) : Memory := put32 m (indexAt base k) v.toUInt32

/-- `&mailbox[k].buffer[i]`. -/
def bufferAddr (k : Handle) (i : Int32) : ℕ := (bufferAt base k + i.toInt).toNat

/-- One round of `do_mbox_send(k, msg, msg_length)`, which has blocked `blockedCount` times. -/
def do_mbox_send (m : Memory) (k : Handle) (msg : ℕ → UInt8) (msg_length : Int32) (blockedCount : ℕ) : Effect :=
  if buffer_idx base k m + msg_length ≤ 64 then
    let start := bufferAddr base k (buffer_idx base k m)
    let len := msg_length.toUInt32.toNat
    { mem := setIndex base (memcpy m start msg 0 len) k (buffer_idx base k m + msg_length)
      writes := [(start, len)], out := [], ret := some blockedCount }
  else { mem := m, writes := [], out := [], ret := none }

/-- One round of `do_mbox_recv(k, msg, msg_length)`, which has blocked `blockedCount` times. -/
def do_mbox_recv (m : Memory) (k : Handle) (msg_length : Int32) (blockedCount : ℕ) : Effect :=
  if 0 ≤ buffer_idx base k m - msg_length then
    let remain_length := buffer_idx base k m - msg_length
    let len := remain_length.toUInt32.toNat
    { mem := setIndex base (memcpyWithin m (bufferAt base k) (bufferAddr base k msg_length) len) k remain_length
      writes := [(bufferAt base k, len)]
      out := bytes (fun x => m (bufferAt base k + x)) msg_length.toUInt32.toNat
      ret := some blockedCount }
  else { mem := m, writes := [], out := [], ret := none }

/-- A string of C. -/
abbrev CString := { s : List UInt8 // 0 ∉ s }

/-- The operations on mailboxes. -/
inductive MboxOp where
  | do_mbox_open (name : CString)
  | do_mbox_send (k : Handle) (msg : ℕ → UInt8) (msg_length : Int32) (blockedCount : ℕ)
  | do_mbox_recv (k : Handle) (msg_length : Int32) (blockedCount : ℕ)

/-- What an operation does to the memory. -/
def perform (m : Memory) : MboxOp → Effect
  | .do_mbox_open name => do_mbox_open base m name
  | .do_mbox_send k msg msg_length blockedCount => do_mbox_send base m k msg msg_length blockedCount
  | .do_mbox_recv k msg_length blockedCount => do_mbox_recv base m k msg_length blockedCount

/-! ### Bounds -/

/-- The indices are within the buffers. -/
def InBounds (m : Memory) : Prop := ∀ k, 0 ≤ (buffer_idx base k m).toInt ∧ (buffer_idx base k m).toInt ≤ MAX_MBOX_LENGTH

/-- A copy stays inside a name or a buffer. -/
def Inside (w : ℕ × ℕ) : Prop := ∃ k,
  (nameAt base k ≤ w.1 ∧ w.1 + w.2 ≤ nameAt base k + 32) ∨
  (bufferAt base k ≤ w.1 ∧ w.1 + w.2 ≤ bufferAt base k + MAX_MBOX_LENGTH)

/-- The operation keeps its bounds, and a name leads to the active mailbox that has it. -/
structure Bounded (m : Memory) (op : MboxOp) : Prop where
  index : InBounds base (perform base m op).mem
  inside : ∀ w ∈ (perform base m op).writes, Inside base w
  opens : ∀ name, op = .do_mbox_open name → ∀ k, Active base k m → strcmp m (nameAt base k) name = 0 →
    (perform base m op).ret = some (k.1 : ℤ)

/-- The name fits if it is copied, and the length does not take the index where it must not go. -/
def Fits (m : Memory) : MboxOp → Prop
  | .do_mbox_open name => (∃ k, Active base k m ∧ strcmp m (nameAt base k) name = 0) ∨
    (∀ k, get32 m (statusAt base k) ≠ MBOX_INACTIVE) ∨ name.1.length < 32
  | .do_mbox_send k _ msg_length _ => 0 ≤ msg_length.toInt ∧ (buffer_idx base k m).toInt + msg_length.toInt < 2 ^ 31
  | .do_mbox_recv k msg_length _ => (buffer_idx base k m).toInt - msg_length.toInt ≤ MAX_MBOX_LENGTH ∨
    2 ^ 31 ≤ (buffer_idx base k m).toInt - msg_length.toInt

instance (m : Memory) (op : MboxOp) : Decidable (Fits base m op) := by
  unfold Fits
  split <;> infer_instance

/-- What `init_mbox` leaves, in memory that was zero. -/
def Booted (m : Memory) : Prop := ∀ k, get32 m (statusAt base k) = MBOX_INACTIVE ∧ get32 m (indexAt base k) = 0

/-- Runs whose operations meet `P`. -/
inductive MboxRun (P : Memory → MboxOp → Prop) : Memory → Prop where
  /-- The start. -/
  | boot {m : Memory} (hb : Booted base m) : MboxRun P m
  /-- One more operation. -/
  | step {m : Memory} {op : MboxOp} (hr : MboxRun P m) (hp : P m op) : MboxRun P (perform base m op).mem

/-! ### Addresses and words -/

section Words

variable {base} {m m' : Memory} {k k' : Handle} {s : CString}

theorem mailbox_disjoint (base : ℕ) (hk : k ≠ k') :
    mailbox base k + 144 ≤ mailbox base k' ∨ mailbox base k' + 144 ≤ mailbox base k := by
  have := Fin.val_ne_of_ne hk
  rw [mailbox, mailbox]
  omega

/-- An `int` and the same bits as `uint32_t`. -/
theorem toInt_cases (x : Int32) : (x.toInt = x.toUInt32.toNat ∧ x.toUInt32.toNat < 2 ^ 31) ∨
    (x.toInt = x.toUInt32.toNat - 2 ^ 32 ∧ 2 ^ 31 ≤ x.toUInt32.toNat ∧ x.toUInt32.toNat < 2 ^ 32) := by
  have hlt : x.toUInt32.toNat < 2 ^ 32 := x.toUInt32.toNat_lt
  have h : x.toInt = if 2 * x.toUInt32.toNat < 2 ^ 32 then (x.toUInt32.toNat : ℤ) else x.toUInt32.toNat -
      (2 ^ 32 : ℕ) :=
    BitVec.toInt_eq_toNat_cond x.toBitVec
  split at h
  · exact Or.inl ⟨h, by omega⟩
  · exact Or.inr ⟨by rw [h]; rfl, by omega, hlt⟩

theorem toInt_add_cases (x y : Int32) : (x + y).toInt = x.toInt + y.toInt ∨
    (2 ^ 31 ≤ x.toInt + y.toInt ∧ (x + y).toInt < 0) ∨
    (x.toInt + y.toInt < -2 ^ 31 ∧ 0 ≤ (x + y).toInt) := by
  have hx := x.toInt_lt
  have hx' := x.le_toInt
  have hy := y.toInt_lt
  have hy' := y.le_toInt
  rw [Int32.toInt_add, Int.bmod_def]
  split <;> omega

theorem toInt_sub_cases (x y : Int32) : (x - y).toInt = x.toInt - y.toInt ∨
    (2 ^ 31 ≤ x.toInt - y.toInt ∧ (x - y).toInt < 0) ∨
    (x.toInt - y.toInt < -2 ^ 31 ∧ 0 ≤ (x - y).toInt) := by
  have hx := x.toInt_lt
  have hx' := x.le_toInt
  have hy := y.toInt_lt
  have hy' := y.le_toInt
  rw [Int32.toInt_sub, Int.bmod_def]
  split <;> omega

theorem le_sixtyFour {x : Int32} : x ≤ 64 ↔ x.toInt ≤ MAX_MBOX_LENGTH := Int32.le_iff_toInt_le

theorem zero_le {x : Int32} : 0 ≤ x ↔ 0 ≤ x.toInt := Int32.le_iff_toInt_le

/-- A copy that is inside a field is no longer than the field. -/
theorem Inside.length_le {w : ℕ × ℕ} (hw : Inside base w) : w.2 ≤ MAX_MBOX_LENGTH := by
  obtain ⟨k, h | h⟩ := hw
  · rw [MAX_MBOX_LENGTH]
    omega
  · omega

/-- A copy to a name that is inside a field is no longer than the name. -/
theorem Inside.length_name {n : ℕ} (hw : Inside base (nameAt base k, n)) : n ≤ 32 := by
  obtain ⟨k', h⟩ := hw
  simp only [nameAt, bufferAt, MAX_MBOX_LENGTH] at h
  by_cases hk : k = k'
  · subst hk
    omega
  · have := mailbox_disjoint base hk
    omega

end Words

/-! ### The invariant -/

/-- The indices are within the buffers, the names of active mailboxes end within their fields, and no
two of them have the same name. -/
structure Ordered (m : Memory) : Prop where
  index : InBounds base m
  ended : ∀ k, Active base k m → ∃ j < 32, m (nameAt base k + j) = 0
  unique : ∀ k k' (s : CString), Active base k m → Active base k' m → strcmp m (nameAt base k) s = 0 →
    strcmp m (nameAt base k') s = 0 → k = k'

section Kept

variable {base} {m m' : Memory} {k k' : Handle} {s : CString}

/-- The two memories have the same mailbox `k`, except for its buffer, `open` and `cite_num`. -/
structure SameBox (base : ℕ) (m m' : Memory) (k : Handle) : Prop where
  status : get32 m' (statusAt base k) = get32 m (statusAt base k)
  name : ∀ x, nameAt base k ≤ x → x < nameAt base k + 32 → m x = m' x
  index : buffer_idx base k m' = buffer_idx base k m

theorem SameBox.active (h : SameBox base m m' k) : Active base k m' ↔ Active base k m := by
  rw [Active, Active, h.status]

theorem SameBox.of_bytes (h : ∀ x,
    mailbox base k ≤ x → x < mailbox base k + 144 → (x < openAt base k ∨ nameAt base k ≤ x) →
    (x < bufferAt base k ∨ indexAt base k ≤ x) → (x < citeAt base k ∨ citeAt base k + 4 ≤ x) → m x = m' x) :
    SameBox base m m' k := by
  simp only [openAt, nameAt, bufferAt, indexAt, citeAt] at h
  refine ⟨get32_congr fun x h1 h2 => (h x ?_ ?_ ?_ ?_ ?_).symm, fun x h1 h2 => h x ?_ ?_ ?_ ?_ ?_, ?_⟩
  any_goals simp only [statusAt, nameAt] at h1 h2
  any_goals omega
  rw [buffer_idx, buffer_idx]
  congr 1
  refine get32_congr fun x h1 h2 => (h x ?_ ?_ ?_ ?_ ?_).symm
  all_goals simp only [indexAt] at h1 h2
  all_goals omega

theorem SameBox.put_cite (m : Memory) (k k' : Handle) (v : UInt32) : SameBox base m (put32 m (citeAt base k) v) k' := by
  refine .of_bytes fun x h1 h2 h3 h4 h5 => (put32_of_lt m v ?_).symm
  by_cases hk : k' = k
  · subst hk
    exact h5
  · have := mailbox_disjoint base hk
    simp only [citeAt]
    omega

theorem SameBox.put_open (m : Memory) (k k' : Handle) (v : UInt32) : SameBox base m (put32 m (openAt base k) v) k' := by
  refine .of_bytes fun x h1 h2 h3 h4 h5 => (put32_of_lt m v ?_).symm
  by_cases hk : k' = k
  · subst hk
    simp only [openAt, nameAt] at h3 ⊢
    omega
  · have := mailbox_disjoint base hk
    simp only [openAt]
    omega

/-- The invariant does not look at buffers, nor at the names of inactive mailboxes. -/
theorem Ordered.of_same (ho : Ordered base m) (hindex : InBounds base m')
    (hstatus : ∀ k, Active base k m' ↔ Active base k m)
    (hname : ∀ k, Active base k m → ∀ x, nameAt base k ≤ x → x < nameAt base k + 32 → m x = m' x) :
    Ordered base m' := by
  refine ⟨hindex, fun k hk => ?_, fun k k' s hk hk' h h' => ?_⟩
  · have hk₀ := (hstatus k).mp hk
    obtain ⟨j, hj, hz⟩ := ho.ended k hk₀
    exact ⟨j, hj, by rw [← hname k hk₀ _ (by omega) (by omega)]; exact hz⟩
  · have hk₀ := (hstatus k).mp hk
    have hk₀' := (hstatus k').mp hk'
    refine ho.unique k k' s hk₀ hk₀' ?_ ?_
    · exact (strcmp_congr s.2 (hname k hk₀) (ho.ended k hk₀)).mpr h
    · exact (strcmp_congr s.2 (hname k' hk₀') (ho.ended k' hk₀')).mpr h'

theorem Ordered.of_sameBox (ho : Ordered base m) (hsame : ∀ k, SameBox base m m' k) : Ordered base m' := by
  refine ho.of_same (fun k => ?_) (fun k => (hsame k).active) fun k _ => (hsame k).name
  rw [(hsame k).index]
  exact ho.index k

theorem Ordered.cite (ho : Ordered base m) (k : Handle) : Ordered base (cite base m k) :=
  (ho.of_sameBox fun k' => .put_cite m k k' _).of_sameBox fun k' => .put_open _ k k' _

/-- Bytes of a buffer change. -/
theorem Ordered.copied (ho : Ordered base m)
    (hm : ∀ x, x < bufferAt base k ∨ bufferAt base k + MAX_MBOX_LENGTH ≤ x → m' x = m x) :
    Ordered base m' := by
  refine ho.of_sameBox fun k' => .of_bytes fun x h1 h2 h3 h4 h5 => (hm x ?_).symm
  by_cases hk : k' = k
  · subst hk
    simp only [bufferAt, indexAt, MAX_MBOX_LENGTH] at h4 ⊢
    omega
  · have := mailbox_disjoint base hk
    simp only [bufferAt, MAX_MBOX_LENGTH]
    omega

theorem buffer_idx_setIndex (m : Memory) (k : Handle) (v : Int32) : buffer_idx base k (setIndex base m k v) = v := by
  rw [buffer_idx, setIndex, get32_put32, Int32.toInt32_toUInt32]

theorem buffer_idx_setIndex_of_ne (m : Memory) (v : Int32) (hk : k' ≠ k) :
    buffer_idx base k' (setIndex base m k v) = buffer_idx base k' m := by
  have := mailbox_disjoint base hk
  rw [buffer_idx, setIndex, get32_put32_of_disjoint]
  · rfl
  · simp only [indexAt]
    omega

/-- An index changes, within bounds. -/
theorem Ordered.setIndex (ho : Ordered base m) {v : Int32} (h0 : 0 ≤ v.toInt) (h1 : v.toInt ≤ MAX_MBOX_LENGTH) :
    Ordered base (setIndex base m k v) := by
  have hbytes : ∀ k' x, mailbox base k' ≤ x → x < nameAt base k' + 32 → Mbox.setIndex base m k v x = m x := by
    intro k' x h1 h2
    refine put32_of_lt m _ ?_
    by_cases hk : k' = k
    · subst hk
      simp only [nameAt, indexAt] at h2 ⊢
      omega
    · have := mailbox_disjoint base hk
      simp only [nameAt, indexAt] at h2 ⊢
      omega
  refine ho.of_same (fun k' => ?_) (fun k' => ?_) fun k' _ x h1 h2 => (hbytes k' x ?_ h2).symm
  · by_cases hk : k' = k
    · subst hk
      rw [buffer_idx_setIndex]
      exact ⟨h0, h1⟩
    · rw [buffer_idx_setIndex_of_ne m v hk]
      exact ho.index k'
  · have : get32 (Mbox.setIndex base m k v) (statusAt base k') = get32 m (statusAt base k') := by
      refine get32_congr fun x h1 h2 => hbytes k' x h1 ?_
      simp only [statusAt, nameAt] at h2 ⊢
      omega
    rw [Active, Active, this]
  · simp only [nameAt] at h1
    omega

/-- A mailbox is made active whose name is new. -/
theorem Ordered.activate (ho : Ordered base m) (hend : ∃ j < 32, m (nameAt base k + j) = 0)
    (hnew : ∀ k' (s : CString), Active base k' m → strcmp m (nameAt base k') s = 0 → strcmp m (nameAt base k) s ≠ 0) :
    Ordered base (put32 m (statusAt base k) MBOX_ACTIVE) := by
  have hbytes : ∀ k' x, statusAt base k' + 4 ≤ x → x < mailbox base k' + 144 →
      put32 m (statusAt base k) MBOX_ACTIVE x = m x := by
    intro k' x h1 h2
    refine put32_of_lt m _ ?_
    by_cases hk : k' = k
    · subst hk
      exact Or.inr h1
    · have := mailbox_disjoint base hk
      simp only [statusAt] at h1 ⊢
      omega
  have hname : ∀ k' x, nameAt base k' ≤ x → x < nameAt base k' + 32 →
      m x = put32 m (statusAt base k) MBOX_ACTIVE x := by
    intro k' x h1 h2
    refine (hbytes k' x ?_ ?_).symm
    all_goals simp only [nameAt, statusAt] at h1 h2 ⊢
    all_goals omega
  have hactive : ∀ k', Active base k' (put32 m (statusAt base k) MBOX_ACTIVE) → k' = k ∨ Active base k' m := by
    intro k' hk'
    by_cases hk : k' = k
    · exact Or.inl hk
    · have := mailbox_disjoint base hk
      rw [Active, get32_put32_of_disjoint] at hk'
      · exact Or.inr hk'
      · simp only [statusAt]
        omega
  have hends : ∀ k', k' = k ∨ Active base k' m → ∃ j < 32, m (nameAt base k' + j) = 0 := by
    rintro k' (rfl | hk')
    · exact hend
    · exact ho.ended k' hk'
  refine ⟨fun k' => ?_, fun k' hk' => ?_, fun k₁ k₂ s h₁ h₂ hs₁ hs₂ => ?_⟩
  · have : buffer_idx base k' (put32 m (statusAt base k) MBOX_ACTIVE) = buffer_idx base k' m := by
      rw [buffer_idx, buffer_idx]
      congr 1
      refine get32_congr fun x h1 h2 => hbytes k' x ?_ ?_
      all_goals simp only [indexAt, statusAt] at h1 h2 ⊢
      all_goals omega
    rw [this]
    exact ho.index k'
  · obtain ⟨j, hj, hz⟩ := hends k' (hactive k' hk')
    exact ⟨j, hj, by rw [← hname k' _ (by omega) (by omega)]; exact hz⟩
  · have e₁ := (strcmp_congr s.2 (hname k₁) (hends k₁ (hactive k₁ h₁))).mpr hs₁
    have e₂ := (strcmp_congr s.2 (hname k₂) (hends k₂ (hactive k₂ h₂))).mpr hs₂
    rcases hactive k₁ h₁ with rfl | a₁ <;> rcases hactive k₂ h₂ with rfl | a₂
    · rfl
    · exact absurd e₁ (hnew k₂ s a₂ e₂)
    · exact absurd e₂ (hnew k₁ s a₁ e₁)
    · exact ho.unique k₁ k₂ s a₁ a₂ e₁ e₂

/-! ### The operations keep the invariant -/

/-- A name that fits changes no other field. -/
theorem strcpy_bytes (hs : s.1.length < 32) (x : ℕ) (hx : x < nameAt base k ∨ bufferAt base k ≤ x) :
    strcpy m (nameAt base k) s x = m x := by
  rw [strcpy_apply, if_neg]
  simp only [nameAt, bufferAt] at hx ⊢
  omega

theorem SameBox.strcpy (hs : s.1.length < 32) (hne : k' ≠ k) : SameBox base m (strcpy m (nameAt base k) s) k' := by
  refine .of_bytes fun x h1 h2 h3 h4 h5 => (strcpy_bytes hs x ?_).symm
  have := mailbox_disjoint base hne
  simp only [nameAt, bufferAt]
  omega

theorem active_strcpy (hs : s.1.length < 32) : Active base k' (strcpy m (nameAt base k) s) ↔ Active base k' m := by
  by_cases hne : k' = k
  · subst hne
    have : get32 (Lib.strcpy m (nameAt base k') s) (statusAt base k') = get32 m (statusAt base k') := by
      refine get32_congr fun x h1 h2 => strcpy_bytes hs x ?_
      simp only [statusAt, nameAt] at h2 ⊢
      omega
    rw [Active, Active, this]
  · exact (SameBox.strcpy hs hne).active

/-- A name is copied to a mailbox that is not active. -/
theorem Ordered.named (ho : Ordered base m) (hk : ¬ Active base k m) (hs : s.1.length < 32) :
    Ordered base (strcpy m (nameAt base k) s) := by
  refine ho.of_same (fun k' => ?_) (fun k' => active_strcpy hs) fun k' hk' => ?_
  · have : buffer_idx base k' (strcpy m (nameAt base k) s) = buffer_idx base k' m := by
      by_cases hne : k' = k
      · subst hne
        rw [buffer_idx, buffer_idx]
        congr 1
        refine get32_congr fun x h1 h2 => strcpy_bytes hs x ?_
        simp only [indexAt, bufferAt] at h1 ⊢
        omega
      · exact (SameBox.strcpy hs hne).index
    rw [this]
    exact ho.index k'
  · refine (SameBox.strcpy hs ?_).name
    rintro rfl
    exact hk hk'

/-- A mailbox is given a new name and made active. -/
theorem Ordered.opened (ho : Ordered base m) (hk : ¬ Active base k m) (hs : s.1.length < 32)
    (hnew : ∀ k', Active base k' m → strcmp m (nameAt base k') s ≠ 0) :
    Ordered base
    (Mbox.cite base
      (put32 (put32 (put32 (strcpy m (nameAt base k) s) (statusAt base k) MBOX_ACTIVE) (indexAt base k) 0)
      (citeAt base k) 0) k) := by
  have hfound := strcmp_strcpy m (nameAt base k) s.2
  have hactive := (ho.named (s := s) hk hs).activate (k := k) ?_ ?_
  · have hindex :
        Ordered base
        (Mbox.setIndex base (put32 (strcpy m (nameAt base k) s) (statusAt base k) MBOX_ACTIVE) k 0) :=
      hactive.setIndex (by decide) (by decide)
    exact (hindex.of_sameBox fun k' => .put_cite _ k k' 0).cite k
  · refine ⟨s.1.length, hs, ?_⟩
    rw [(strcmp_eq_zero s.2).mp hfound _ (Nat.le_refl _), List.getD_eq_default _ _ (Nat.le_refl _)]
  · intro k' s' hk' hs' hself
    obtain rfl : s' = s := Subtype.ext (strcmp_unique s'.2 s.2 hself hfound)
    have hk₀ := (active_strcpy hs).mp hk'
    have hne : k' ≠ k := by
      rintro rfl
      exact hk hk₀
    refine hnew k' hk₀ ?_
    exact (strcmp_congr s'.2 (SameBox.strcpy hs hne).name (ho.ended k' hk₀)).mpr hs'

theorem find_spec {p : Handle → Prop} [DecidablePred p] {r : Option Handle}
    (hf : (List.finRange LOCK_NUM).find? (fun k => p k) = r) :
    (∀ k, r = some k → p k) ∧ (r = none → ∀ k, ¬ p k) := by
  refine ⟨fun k hk => ?_, fun hn k => ?_⟩
  · rw [hk] at hf
    simpa using List.find?_some hf
  · rw [hn] at hf
    simpa using List.find?_eq_none.mp hf k (List.mem_finRange k)

/-- `do_mbox_open`. -/
theorem do_mbox_open_iff (ho : Ordered base m) :
    (Bounded base m (.do_mbox_open s) ↔ Fits base m (.do_mbox_open s)) ∧
      (Fits base m (.do_mbox_open s) → Ordered base (do_mbox_open base m s).mem) := by
  have hdef : perform base m (.do_mbox_open s) = do_mbox_open base m s := rfl
  rw [do_mbox_open] at hdef ⊢
  cases hf : (List.finRange LOCK_NUM).find? fun k => Active base k m ∧ strcmp m (nameAt base k) s = 0 with
  | some k =>
    obtain ⟨hk, hs⟩ := (find_spec hf).1 k rfl
    simp only [hf] at hdef ⊢
    have hcite := ho.cite k
    refine ⟨iff_of_true ⟨?_, ?_, ?_⟩ (Or.inl ⟨k, hk, hs⟩), fun _ => hcite⟩
    · rw [hdef]
      exact hcite.index
    · rw [hdef]
      exact nofun
    · rintro name ⟨⟩ k' hk' hs'
      rw [hdef, ho.unique k k' s hk hk' hs hs']
  | none =>
    have hnew : ∀ k, Active base k m → strcmp m (nameAt base k) s ≠ 0 := fun k hk hs => (find_spec hf).2 rfl k ⟨hk, hs⟩
    have hopens : ∀ name, MboxOp.do_mbox_open s = .do_mbox_open name → ∀ k,
        Active base k m → strcmp m (nameAt base k) name = 0 →
        (perform base m (.do_mbox_open s)).ret = some (k.1 : ℤ) := by
      rintro name ⟨⟩ k hk hs
      exact absurd hs (hnew k hk)
    cases hg : (List.finRange LOCK_NUM).find? fun k => get32 m (statusAt base k) = MBOX_INACTIVE with
    | none =>
      simp only [hf, hg] at hdef ⊢
      refine ⟨iff_of_true ⟨?_, ?_, hopens⟩ (Or.inr (Or.inl ((find_spec hg).2 rfl))), fun _ => ho⟩
      · rw [hdef]
        exact ho.index
      · rw [hdef]
        exact nofun
    | some k =>
      have hk := (find_spec hg).1 k rfl
      have hinactive : ¬ Active base k m := by
        rw [Active, hk]
        decide
      simp only [hf, hg] at hdef ⊢
      have hfits : Fits base m (.do_mbox_open s) → s.1.length < 32 := by
        rintro (⟨k', hk', hs'⟩ | hall | hlt)
        · exact absurd hs' (hnew k' hk')
        · exact absurd hk (hall k)
        · exact hlt
      have hordered := fun hlt => ho.opened (s := s) hinactive hlt hnew
      refine ⟨⟨fun hb => Or.inr (Or.inr ?_), fun hfit => ⟨?_, ?_, hopens⟩⟩, fun hfit => hordered (hfits hfit)⟩
      · have hin := hb.inside (nameAt base k, s.1.length + 1) (by rw [hdef]; exact List.mem_singleton_self _)
        have := hin.length_name
        omega
      · rw [hdef]
        exact (hordered (hfits hfit)).index
      · rw [hdef]
        intro w hw
        rcases List.mem_singleton.mp hw with rfl
        have := hfits hfit
        refine ⟨k, Or.inl ⟨Nat.le_refl _, ?_⟩⟩
        show nameAt base k + (s.1.length + 1) ≤ _
        omega

theorem bufferAddr_of_nonneg {i : Int32} (hi : 0 ≤ i.toInt) :
    bufferAddr base k i = bufferAt base k + i.toUInt32.toNat := by
  rw [bufferAddr]
  rcases toInt_cases i with ⟨h, -⟩ | ⟨h, -, hlt⟩
  · rw [h]
    omega
  · omega

/-- `do_mbox_send`. -/
theorem do_mbox_send_iff (ho : Ordered base m) (msg : ℕ → UInt8) (len : Int32) (n : ℕ) :
    (Bounded base m (.do_mbox_send k msg len n) ↔ Fits base m (.do_mbox_send k msg len n)) ∧
      (Fits base m (.do_mbox_send k msg len n) → Ordered base (do_mbox_send base m k msg len n).mem) := by
  have hdef : perform base m (.do_mbox_send k msg len n) = do_mbox_send base m k msg len n := rfl
  obtain ⟨h0, h1⟩ := ho.index k
  have hlen := toInt_cases len
  have hadd := toInt_add_cases (buffer_idx base k m) len
  have hlt := len.toInt_lt
  have hge := len.le_toInt
  simp only [MAX_MBOX_LENGTH] at h1
  rw [do_mbox_send] at hdef ⊢
  by_cases hguard : buffer_idx base k m + len ≤ 64
  · simp only [if_pos hguard] at hdef ⊢
    have hsum := le_sixtyFour.mp hguard
    have hstart : bufferAddr base k (buffer_idx base k m) = _ := bufferAddr_of_nonneg h0
    have hidx := toInt_cases (buffer_idx base k m)
    simp only [MAX_MBOX_LENGTH] at hsum
    have hordered : Fits base m (.do_mbox_send k msg len n) →
      Ordered base (setIndex base (memcpy m (bufferAddr base k (buffer_idx base k m)) msg 0
        len.toUInt32.toNat) k (buffer_idx base k m + len)) := by
      rintro ⟨hl, hs⟩
      refine (ho.copied (k := k) fun x hx => ?_).setIndex (by omega) (by rw [MAX_MBOX_LENGTH]; omega)
      rw [memcpy_apply, if_neg]
      rw [MAX_MBOX_LENGTH] at hx
      rw [hstart]
      omega
    refine ⟨⟨fun hb => ?_, fun hfit => ⟨?_, ?_, nofun⟩⟩, hordered⟩
    · have hin := hb.inside (bufferAddr base k (buffer_idx base k m), len.toUInt32.toNat)
        (by rw [hdef]; exact List.mem_singleton_self _)
      have hshort : len.toUInt32.toNat ≤ 64 := hin.length_le
      exact ⟨by omega, by omega⟩
    · rw [hdef]
      exact (hordered hfit).index
    · rw [hdef]
      intro w hw
      rcases List.mem_singleton.mp hw with rfl
      obtain ⟨hl, hs⟩ := hfit
      refine ⟨k, Or.inr ?_⟩
      show bufferAt base k ≤ bufferAddr base k (buffer_idx base k m) ∧
        bufferAddr base k (buffer_idx base k m) + len.toUInt32.toNat ≤ _
      rw [hstart, MAX_MBOX_LENGTH]
      omega
  · simp only [if_neg hguard] at hdef ⊢
    have hmax := (buffer_idx base k m + len).toInt_lt
    have hsum : ¬ (buffer_idx base k m + len).toInt ≤ MAX_MBOX_LENGTH := fun h => hguard (le_sixtyFour.mpr h)
    simp only [MAX_MBOX_LENGTH] at hsum
    refine ⟨iff_of_true ⟨?_, ?_, nofun⟩ ⟨by omega, by omega⟩, fun _ => ho⟩
    · rw [hdef]
      exact ho.index
    · rw [hdef]
      exact nofun

/-- `do_mbox_recv`. -/
theorem do_mbox_recv_iff (ho : Ordered base m) (len : Int32) (n : ℕ) :
    (Bounded base m (.do_mbox_recv k len n) ↔ Fits base m (.do_mbox_recv k len n)) ∧
      (Fits base m (.do_mbox_recv k len n) → Ordered base (do_mbox_recv base m k len n).mem) := by
  have hdef : perform base m (.do_mbox_recv k len n) = do_mbox_recv base m k len n := rfl
  obtain ⟨h0, h1⟩ := ho.index k
  have hrest := toInt_cases (buffer_idx base k m - len)
  have hsub := toInt_sub_cases (buffer_idx base k m) len
  have hlt := len.toInt_lt
  have hge := len.le_toInt
  simp only [MAX_MBOX_LENGTH] at h1
  rw [do_mbox_recv] at hdef ⊢
  by_cases hguard : 0 ≤ buffer_idx base k m - len
  · simp only [if_pos hguard] at hdef ⊢
    have hpos := zero_le.mp hguard
    have hordered : Fits base m (.do_mbox_recv k len n) →
      Ordered base (setIndex base (memcpyWithin m (bufferAt base k) (bufferAddr base k len)
        (buffer_idx base k m - len).toUInt32.toNat) k (buffer_idx base k m - len)) := by
      intro hfit
      simp only [Fits, MAX_MBOX_LENGTH] at hfit
      refine (ho.copied (k := k) fun x hx => memcpyWithin_of_lt m _ _ _ x ?_).setIndex
        hpos (by rw [MAX_MBOX_LENGTH]; omega)
      rw [MAX_MBOX_LENGTH] at hx
      omega
    refine ⟨⟨fun hb => ?_, fun hfit => ⟨?_, ?_, nofun⟩⟩, hordered⟩
    · have hin := hb.inside (bufferAt base k, (buffer_idx base k m - len).toUInt32.toNat)
        (by rw [hdef]; exact List.mem_singleton_self _)
      have hshort : (buffer_idx base k m - len).toUInt32.toNat ≤ 64 := hin.length_le
      refine Or.inl ?_
      simp only [MAX_MBOX_LENGTH]
      omega
    · rw [hdef]
      exact (hordered hfit).index
    · rw [hdef]
      intro w hw
      rcases List.mem_singleton.mp hw with rfl
      simp only [Fits, MAX_MBOX_LENGTH] at hfit
      refine ⟨k, Or.inr ⟨Nat.le_refl _, ?_⟩⟩
      show bufferAt base k + (buffer_idx base k m - len).toUInt32.toNat ≤ bufferAt base k + 64
      omega
  · simp only [if_neg hguard] at hdef ⊢
    have hneg : ¬ 0 ≤ (buffer_idx base k m - len).toInt := fun h => hguard (zero_le.mpr h)
    refine ⟨iff_of_true ⟨?_, ?_, nofun⟩ ?_, fun _ => ho⟩
    · rw [hdef]
      exact ho.index
    · rw [hdef]
      exact nofun
    · simp only [Fits, MAX_MBOX_LENGTH]
      omega

end Kept

/-! ### Runs -/

variable {base} {m : Memory}

/-- One operation. -/
theorem Ordered.perform_iff (ho : Ordered base m) (op : MboxOp) :
    (Bounded base m op ↔ Fits base m op) ∧ (Fits base m op → Ordered base (perform base m op).mem) := by
  cases op with
  | do_mbox_open name => exact do_mbox_open_iff ho
  | do_mbox_send k msg len n => exact do_mbox_send_iff ho msg len n
  | do_mbox_recv k len n => exact do_mbox_recv_iff ho len n

theorem Booted.ordered (hb : Booted base m) : Ordered base m := by
  have hnot : ∀ k, ¬ Active base k m := by
    intro k hk
    rw [Active, (hb k).1] at hk
    exact absurd hk (by decide)
  refine ⟨fun k => ?_, fun k hk => absurd hk (hnot k), fun k k' s hk => absurd hk (hnot k)⟩
  rw [buffer_idx, (hb k).2]
  decide

theorem MboxRun.ordered (hr : MboxRun base (Fits base) m) : Ordered base m := by
  induction hr with
  | boot hb => exact hb.ordered
  | step hr hp ih => exact (ih.perform_iff _).2 hp

/-- **Names that fit and lengths that do not overflow are safe.** In a run of such operations every index is
within its buffer. One more operation keeps it there, writes inside names and buffers and finds the
active mailbox of a name exactly when it is one of them. -/
theorem bounded_iff (hr : MboxRun base (Fits base) m) : InBounds base m ∧ ∀ op, Bounded base m op ↔ Fits base m op :=
  ⟨hr.ordered.index, fun op => (hr.ordered.perform_iff op).1⟩

/-! ### The model of the scheduler -/

/-- The scheduler's mailbox `b` has the index and the buffer that are in memory. -/
structure Mirrors (base : ℕ) (m : Memory) (k : Handle) (b : Mailbox) : Prop where
  index : b.buffer_idx = (buffer_idx base k m).toInt
  bytes : ∀ x < MAX_MBOX_LENGTH, b.buffer x = m (bufferAt base k + x)

variable {k : Handle} {b : Mailbox} {len : Int32}

theorem Mirrors.setIndex {m' : Memory} {buffer : ℕ → UInt8} {v : Int32}
    (hbytes : ∀ x < MAX_MBOX_LENGTH, buffer x = m' (bufferAt base k + x)) :
    Mirrors base (setIndex base m' k v) k { b with buffer := buffer, buffer_idx := v.toInt } := by
  refine ⟨by rw [buffer_idx_setIndex], fun x hx => ?_⟩
  show buffer x = _
  rw [hbytes x hx, Mbox.setIndex, put32_of_lt]
  rw [MAX_MBOX_LENGTH] at hx
  simp only [bufferAt, indexAt]
  omega

/-- A send that fits is the one of the scheduler: the same guard, the same bytes. -/
theorem Mirrors.send (hb : Mirrors base m k b) (ho : Ordered base m) (msg : ℕ → UInt8) (n : ℕ)
    (hfit : Fits base m (.do_mbox_send k msg len n)) :
    ((do_mbox_send base m k msg len n).ret = some (n : ℤ) ↔ b.buffer_idx + len.toInt ≤ MAX_MBOX_LENGTH) ∧
      (b.buffer_idx + len.toInt ≤ MAX_MBOX_LENGTH → Mirrors base (do_mbox_send base m k msg len n).mem k { b with
        buffer := memcpy b.buffer b.buffer_idx.toNat msg 0 len.toInt.toNat,
            buffer_idx := b.buffer_idx + len.toInt }) := by
  obtain ⟨h0, h1⟩ := ho.index k
  obtain ⟨hl, hs⟩ := hfit
  have hsum : (buffer_idx base k m + len).toInt = (buffer_idx base k m).toInt + len.toInt := by
    have := toInt_add_cases (buffer_idx base k m) len
    omega
  have hguard : buffer_idx base k m + len ≤ 64 ↔ b.buffer_idx + len.toInt ≤ MAX_MBOX_LENGTH := by
    rw [le_sixtyFour, hsum, hb.index]
  have hlen : len.toUInt32.toNat = len.toInt.toNat := by
    have := toInt_cases len
    omega
  have hidx : (buffer_idx base k m).toUInt32.toNat = b.buffer_idx.toNat := by
    have := toInt_cases (buffer_idx base k m)
    rw [hb.index]
    omega
  rw [do_mbox_send]
  refine ⟨?_, fun hle => ?_⟩
  · by_cases hg : buffer_idx base k m + len ≤ 64
    · rw [if_pos hg]
      exact iff_of_true rfl (hguard.mp hg)
    · rw [if_neg hg]
      exact iff_of_false nofun fun hle => hg (hguard.mpr hle)
  · rw [if_pos (hguard.mpr hle)]
    have hset :=
      @Mirrors.setIndex base k b (memcpy m (bufferAddr base k (buffer_idx base k m)) msg 0 len.toUInt32.toNat)
      (memcpy b.buffer b.buffer_idx.toNat msg 0 len.toInt.toNat) (buffer_idx base k m + len) fun x hx => ?_
    · rw [hsum, ← hb.index] at hset
      exact hset
    · rw [bufferAddr_of_nonneg h0, hidx, hlen, memcpy_apply, memcpy_apply, hb.bytes x hx]
      refine if_congr (by omega) ?_ rfl
      congr 1
      omega

/-- So is a receive of a length that is not negative. -/
theorem Mirrors.recv (hb : Mirrors base m k b) (ho : Ordered base m) (n : ℕ) (hl : 0 ≤ len.toInt) :
    ((do_mbox_recv base m k len n).ret = some (n : ℤ) ↔ 0 ≤ b.buffer_idx - len.toInt) ∧
      (0 ≤ b.buffer_idx - len.toInt → Mirrors base (do_mbox_recv base m k len n).mem k { b with
        buffer := memcpyWithin b.buffer 0 len.toInt.toNat (b.buffer_idx - len.toInt).toNat,
            buffer_idx := b.buffer_idx - len.toInt }) := by
  obtain ⟨h0, h1⟩ := ho.index k
  have hsub : (buffer_idx base k m - len).toInt = (buffer_idx base k m).toInt - len.toInt := by
    have := toInt_sub_cases (buffer_idx base k m) len
    have := len.toInt_lt
    have := (buffer_idx base k m - len).le_toInt
    rw [MAX_MBOX_LENGTH] at h1
    omega
  have hguard : 0 ≤ buffer_idx base k m - len ↔ 0 ≤ b.buffer_idx - len.toInt := by
    rw [zero_le, hsub, hb.index]
  rw [do_mbox_recv]
  refine ⟨?_, fun hle => ?_⟩
  · by_cases hg : 0 ≤ buffer_idx base k m - len
    · rw [if_pos hg]
      exact iff_of_true rfl (hguard.mp hg)
    · rw [if_neg hg]
      exact iff_of_false nofun fun hle => hg (hguard.mpr hle)
  · rw [if_pos (hguard.mpr hle)]
    have hrest : (buffer_idx base k m - len).toUInt32.toNat = (b.buffer_idx - len.toInt).toNat := by
      have := toInt_cases (buffer_idx base k m - len)
      rw [hsub, ← hb.index] at this
      omega
    have haddr : bufferAddr base k len = bufferAt base k + len.toInt.toNat := by
      rw [bufferAddr]
      omega
    have hset := @Mirrors.setIndex base k b
      (memcpyWithin m (bufferAt base k) (bufferAddr base k len) (buffer_idx base k m - len).toUInt32.toNat)
      (memcpyWithin b.buffer 0 len.toInt.toNat (b.buffer_idx - len.toInt).toNat)
      (buffer_idx base k m - len) fun x hx => ?_
    · rw [hsub, ← hb.index] at hset
      exact hset
    · rw [hrest, haddr, memcpyWithin_apply _ _ _ _ _ (Nat.zero_le _),
        memcpyWithin_apply _ _ _ _ _ (Nat.le_add_right _ _)]
      have hidx := hb.index
      by_cases hin : x < (b.buffer_idx - len.toInt).toNat
      · rw [if_pos (by omega), if_pos (by omega), hb.bytes _ (by omega)]
        congr 1
        omega
      · rw [if_neg (by omega), if_neg (by omega), hb.bytes x hx]

/-! ### A negative length -/

/-- Memory as `init_mbox` leaves it, for the array at `0`. -/
def bootMemory : Memory := fun x => if x < 144 * LOCK_NUM ∧ x % 144 = 0 then 1 else 0

theorem booted_bootMemory : Booted 0 bootMemory := by
  intro k
  have hk := k.isLt
  have hbyte : ∀ j < 4, bootMemory (statusAt 0 k + j) = byte MBOX_INACTIVE.toNat j := by
    intro j hj
    rw [statusAt, mailbox, bootMemory]
    obtain rfl | rfl | rfl | rfl : j = 0 ∨ j = 1 ∨ j = 2 ∨ j = 3 := by omega
    · rw [if_pos ⟨by omega, by omega⟩]
      rfl
    all_goals
      rw [if_neg (by omega)]
      rfl
  refine ⟨get32_eq _ hbyte, get32_zero fun j hj => ?_⟩
  rw [indexAt, mailbox, bootMemory, if_neg (by omega)]

/-- A mailbox is opened, ten bytes are sent and four received. -/
def exchange : List MboxOp :=
  [.do_mbox_open ⟨[97], by decide⟩, .do_mbox_send ⟨0, lock_num_pos⟩ (fun x => UInt8.ofNat x) 10 0,
    .do_mbox_recv ⟨0, lock_num_pos⟩ 4 0]

/-- The memory after operations that fit. -/
def performIf (base : ℕ) : List MboxOp → Memory → Option Memory
  | [], m => some m
  | op :: ops, m => if Fits base m op then performIf base ops (perform base m op).mem else none

theorem MboxRun.performIf {ops : List MboxOp} {m' : Memory}
    (hr : MboxRun base (Fits base) m) (he : performIf base ops m = some m') :
    MboxRun base (Fits base) m' := by
  induction ops generalizing m with
  | nil =>
    obtain rfl := Option.some.inj he
    exact hr
  | cons op ops ih =>
    rw [Mbox.performIf, Option.ite_none_right_eq_some] at he
    exact ih (hr.step he.1) he.2

/-- Six bytes are left, and another message of 58 bytes is safe. -/
theorem bounded_exchange : ∃ m, MboxRun 0 (Fits 0) m ∧ (buffer_idx 0 ⟨0, by decide⟩ m).toInt = 6 ∧ InBounds 0 m ∧
    Bounded 0 m (.do_mbox_send ⟨0, by decide⟩ (fun _ => 0) 58 0) := by
  have hrun : (performIf 0 exchange bootMemory).map (fun m => decide ((buffer_idx 0 ⟨0, by decide⟩ m).toInt = 6 ∧
      Fits 0 m (.do_mbox_send ⟨0, by decide⟩ (fun _ => 0) 58 0))) = some true := by decide +kernel
  obtain ⟨m, he, hs⟩ := Option.map_eq_some_iff.mp hrun
  obtain ⟨hidx, hfit⟩ := of_decide_eq_true hs
  have hr : MboxRun 0 (Fits 0) m := (MboxRun.boot booted_bootMemory).performIf he
  exact ⟨m, hr, hidx, (bounded_iff hr).1, ((bounded_iff hr).2 _).mpr hfit⟩

/-- A first message of length -1 passes the guard, and `2 ^ 32 - 1` bytes are copied. -/
theorem bounded_negative_fails :
    ¬ ∀ (base : ℕ) (m : Memory), MboxRun base (fun _ _ => True) m → ∀ op, Bounded base m op := by
  intro hall
  have hb := hall 0 bootMemory (.boot booted_bootMemory) (.do_mbox_send ⟨0, by decide⟩ (fun _ => 0) (-1) 0)
  have hfit := (booted_bootMemory.ordered.perform_iff _).1.mp hb
  exact absurd hfit.1 (by decide)

end OsLab.Mbox
