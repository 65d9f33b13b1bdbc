import OsLab.Mm.Break
import OsLab.Mm.Tables

/-!
# Protecting a range of pages

`do_mprotect` goes through the pages of a range and changes the attributes of each before it looks at the next. It
tests `prot` only inside the loop, and never whether a page has an entry. So a range is either changed as a whole,
or the call does not come back, or it reports success for pages that do not exist.
-/

namespace OsLab.Mm

open Lib ProgM

/-! ### `do_mprotect` -/

/-- `PROT_NONE`. -/
def PROT_NONE : Int32 := 0
/-- `PROT_READ`. -/
def PROT_READ : Int32 := 1
/-- `PROT_WRITE`. -/
def PROT_WRITE : Int32 := 2
/-- `PROT_EXEC`. -/
def PROT_EXEC : Int32 := 3

/-- `_PAGE_READ | _PAGE_WRITE | _PAGE_EXEC`. -/
def PAGE_RWX : UInt64 := PAGE_READ ||| PAGE_WRITE ||| PAGE_EXEC

/-- What the loop does to the entry of a page; `none` is the way to `return -1`. -/
def protect (prot : Int32) (entry : UInt64) : Option UInt64 :=
  if prot = PROT_NONE then some (clear_attribute entry PAGE_RWX)
  else if prot = PROT_READ then some (set_attribute (clear_attribute entry PAGE_RWX) PAGE_READ)
  else if prot = PROT_WRITE then some (set_attribute (clear_attribute entry PAGE_RWX) PAGE_WRITE)
  else if prot = PROT_EXEC then some (set_attribute (clear_attribute entry PAGE_RWX) PAGE_EXEC)
  else none

/-- Page `i` of the range. -/
def pageAt (addr : UInt64) (i : ℕ) : UInt64 := addr + UInt64.ofNat i * PAGE_SIZE

/-- The loop of `do_mprotect`, for `n` more pages from page `i` on. `i * PAGE_SIZE` is an `int`. -/
def mprotectLoop (addr : UInt64) (prot : Int32) (c : Slot) : ℕ → ℕ → MmM Int32
  | 0, _ => pure 0
  | n + 1, i => do
    assert (i < 2 ^ 19)
    let s ← get
    match uva2pte s.ram (pageAt addr i) (s.pcb c).pgdir with
    | none => if (protect prot 0).isSome then stop else pure (-1)
    | some pte =>
      match protect prot (s.ram.load pte) with
      | none => pure (-1)
      | some entry => do
        setRam fun ram => ram.store pte entry
        mprotectLoop addr prot c n (i + 1)

/-- `n_page`, which is an `int`, as a number of rounds. -/
def n_page (len : UInt64) : ℕ := (Int32.ofNat (NBYTES2PAGE len.toNat)).toInt.toNat

/-- `do_mprotect(addr, len, prot)`. -/
def do_mprotect (addr len : UInt64) (prot : Int32) (c : Slot) : MmM Int32 :=
  if addr &&& 0xfff ≠ 0 then pure (-1) else mprotectLoop addr prot c (n_page len) 0

/-! ### All or nothing -/

/-- The attributes that `prot` stands for. -/
def protBits (prot : Int32) : Option UInt64 :=
  if prot = PROT_NONE then some 0 else if prot =
    PROT_READ then some PAGE_READ else if prot = PROT_WRITE then some PAGE_WRITE
  else if prot = PROT_EXEC then some PAGE_EXEC else none

/-- The page has an entry, and it is not empty. -/
def HasEntry (ram : Ram) (pgdir va : UInt64) : Prop := ∃ r, uva2pte ram va pgdir = some r ∧ ram.load r ≠ 0

/-- The call changes memory from `ram` to `ram'` as it should: the attributes of the pages of the range are `bits`, and
nothing else has changed. -/
structure Protected (ram ram' : Ram) (addr len pgdir bits : UInt64) : Prop where
  page : ∀ i < NBYTES2PAGE len.toNat, uva2pte ram' (pageAt addr i) pgdir = uva2pte ram (pageAt addr i) pgdir
  rwx : ∀ i < NBYTES2PAGE len.toNat, ∀ r,
    uva2pte ram (pageAt addr i) pgdir = some r → get_attribute (ram'.load r) PAGE_RWX = bits
  others : ∀ r, get_attribute (ram'.load r) (~~~PAGE_RWX) = get_attribute (ram.load r) (~~~PAGE_RWX)
  outside : ∀ r, (∀ i < NBYTES2PAGE len.toNat, uva2pte ram (pageAt addr i) pgdir ≠ some r) → ram'.load r = ram.load r

/-- Page tables as `alloc_page_helper` builds them: an entry that is not empty is present, down to the first-level
tables. -/
structure PageTable (ram : Ram) (pgdir : UInt64) : Prop where
  dir : ∀ v < 512, ram pgdir v ≠ 0 → Present (ram pgdir v)
  mid : ∀ v < 512, ram pgdir v ≠ 0 → ∀ w < 512,
    ram (target (ram pgdir v)) w ≠ 0 → Present (ram (target (ram pgdir v)) w)

variable {σ : Type} {h : Handler Op Op.Res σ} {s : Memory} {ram ram' : Ram}
    {addr len pgdir bits va e : UInt64} {prot : Int32} {c : Slot}
  {n i : ℕ} {r : Ref}

/-! ### Entries -/

/-- The entry with the attributes `bits` in place of its own. -/
def setProt (bits e : UInt64) : UInt64 := set_attribute (clear_attribute e PAGE_RWX) bits

theorem protect_eq (prot : Int32) (e : UInt64) : protect prot e = (protBits prot).map fun bits => setProt bits e := by
  unfold protect protBits setProt
  split
  · simp [set_attribute]
  · split
    · rfl
    · split
      · rfl
      · split
        · rfl
        · rfl

/-- The attributes of a `prot` are among the three. -/
theorem protBits_cases (h : protBits prot = some bits) : bits = 0 ∨
    bits = PAGE_READ ∨ bits = PAGE_WRITE ∨ bits = PAGE_EXEC := by
  unfold protBits at h
  split at h
  · exact Or.inl (Option.some.inj h).symm
  · split at h
    · exact Or.inr (Or.inl (Option.some.inj h).symm)
    · split at h
      · exact Or.inr (Or.inr (Or.inl (Option.some.inj h).symm))
      · split at h
        · exact Or.inr (Or.inr (Or.inr (Option.some.inj h).symm))
        · cases h

theorem protBits_sub (h : protBits prot = some bits) : bits &&& PAGE_RWX = bits := by
  rcases protBits_cases h with rfl | rfl | rfl | rfl
  all_goals decide

theorem wbit_sub (h : bits &&& PAGE_RWX = bits) (hi : wbit PAGE_RWX i = false) : wbit bits i = false := by
  rw [← h, wbit_and, hi, Bool.and_false]

theorem wbit_setProt (h : bits &&& PAGE_RWX = bits) (e : UInt64) (hi : i < 64) :
    wbit (setProt bits e) i = if wbit PAGE_RWX i then wbit bits i else wbit e i := by
  rw [setProt, set_attribute, clear_attribute, wbit_or, wbit_and, wbit_not, decide_eq_true hi]
  by_cases hr : wbit PAGE_RWX i = true
  · simp [hr]
  · rw [Bool.not_eq_true] at hr
    simp [hr, wbit_sub h hr]

theorem get_attribute_setProt (h : bits &&& PAGE_RWX = bits) (e : UInt64) :
    get_attribute (setProt bits e) PAGE_RWX = bits := by
  refine eq_of_wbit fun i hi => ?_
  rw [get_attribute, wbit_and, wbit_setProt h e hi]
  by_cases hr : wbit PAGE_RWX i = true
  · simp [hr]
  · rw [Bool.not_eq_true] at hr
    simp [hr, wbit_sub h hr]

theorem get_attribute_setProt_others (h : bits &&& PAGE_RWX = bits) (e : UInt64) :
    get_attribute (setProt bits e) (~~~PAGE_RWX) = get_attribute e (~~~PAGE_RWX) := by
  refine eq_of_wbit fun i hi => ?_
  rw [get_attribute, get_attribute, wbit_and, wbit_and, wbit_setProt h e hi, wbit_not]
  by_cases hr : wbit PAGE_RWX i = true
  · simp [hr]
  · simp [hr]

theorem setProt_setProt (h : bits &&& PAGE_RWX = bits) (e : UInt64) :
    setProt bits (setProt bits e) = setProt bits e := by
  refine eq_of_wbit fun i hi => ?_
  rw [wbit_setProt h _ hi, wbit_setProt h _ hi]
  split
  · rfl
  · rfl

theorem PAGE_RWX_lt : PAGE_RWX.toNat < 2 ^ 10 := by decide

theorem bits_lt (h : bits &&& PAGE_RWX = bits) : bits.toNat < 2 ^ 10 := by
  rw [← h, UInt64.toNat_and]
  exact Nat.lt_of_le_of_lt Nat.and_le_right PAGE_RWX_lt

theorem target_setProt (h : bits &&& PAGE_RWX = bits) (e : UInt64) : target (setProt bits e) = target e := by
  rw [setProt, target_set_attribute _ (bits_lt h), target_clear_attribute _ PAGE_RWX_lt]

theorem present_setProt (h : bits &&& PAGE_RWX = bits) (e : UInt64) : Present (setProt bits e) ↔ Present e := by
  rw [setProt, present_set_attribute (wbit_sub h (by decide)), present_clear_attribute (by decide)]

/-! ### Walks -/

/-- Words that were not empty have got the attributes `bits`, or are as before. -/
def Recoloured (bits : UInt64) (ram ram' : Ram) : Prop :=
  ∀ k v, ram' k v = ram k v ∨ (ram k v ≠ 0 ∧ ram' k v = setProt bits (ram k v))

theorem Recoloured.refl (bits : UInt64) (ram : Ram) : Recoloured bits ram ram := fun _ _ => Or.inl rfl

theorem Recoloured.store (hb : bits &&& PAGE_RWX = bits) (h : Recoloured bits ram ram') (hr : ram.load r ≠ 0) :
    Recoloured bits ram (ram'.store r (setProt bits (ram'.load r))) := by
  intro k v
  rw [Ram.store_apply]
  split
  · next he =>
    obtain rfl := he
    refine Or.inr ⟨hr, ?_⟩
    rcases h k v with hk | ⟨-, hk⟩
    · rw [Ram.load, hk]
    · rw [Ram.load, hk, setProt_setProt hb]
  · exact h k v

theorem Recoloured.target (hb : bits &&& PAGE_RWX = bits) (h : Recoloured bits ram ram') (k : UInt64) (v : ℕ) :
    target (ram' k v) = target (ram k v) := by
  rcases h k v with hk | ⟨-, hk⟩
  · rw [hk]
  · rw [hk, target_setProt hb]

/-- A present entry does not become empty, and an empty one stays so. -/
theorem Recoloured.eq_zero (hb : bits &&& PAGE_RWX = bits) (h : Recoloured bits ram ram') {k : UInt64} {v : ℕ}
    (hp : ram k v ≠ 0 → Present (ram k v)) : ram' k v = 0 ↔ ram k v = 0 := by
  rcases h k v with hk | ⟨h0, hk⟩
  · rw [hk]
  · refine iff_of_false (fun hz => ?_) h0
    rw [hk] at hz
    exact ((present_setProt hb _).mpr (hp h0)).ne_zero hz

/-- The walks are the same. -/
theorem Recoloured.uva2pte (hb : bits &&& PAGE_RWX = bits)
    (h : Recoloured bits ram ram') (hpt : PageTable ram pgdir) (va : UInt64) :
    uva2pte ram' va pgdir = uva2pte ram va pgdir := by
  have h2 := h.eq_zero hb (hpt.dir _ (vpn2_lt va))
  rw [Mm.uva2pte, Mm.uva2pte, h.target hb]
  by_cases h0 : ram pgdir (vpn2 va).toNat = 0
  · rw [if_pos h0, if_pos (h2.mpr h0)]
  · have h1 := h.eq_zero hb (hpt.mid _ (vpn2_lt va) h0 _ (vpn1_lt va))
    rw [if_neg h0, if_neg fun hz => h0 (h2.mp hz)]
    simp only [h1, h.target hb]

/-! ### The loop -/

/-- What has happened to the range from page `i` on. -/
structure Coloured (ram ram₀ ram' : Ram) (addr pgdir bits : UInt64) (i n : ℕ) : Prop where
  recoloured : Recoloured bits ram ram'
  rwx : ∀ j, i ≤ j → j < i + n → ∀ r,
    uva2pte ram (pageAt addr j) pgdir = some r → get_attribute (ram'.load r) PAGE_RWX = bits
  outside : ∀ r, (∀ j, i ≤ j → j < i + n → uva2pte ram (pageAt addr j) pgdir ≠ some r) → ram'.load r = ram₀.load r
  stays : ∀ r, get_attribute (ram₀.load r) PAGE_RWX = bits → get_attribute (ram'.load r) PAGE_RWX = bits

/-- Over pages that all have entries the loop goes through. -/
theorem mprotectLoop_run (hpt : PageTable ram pgdir) (hp : protBits prot = some bits) (n i : ℕ) {s : Memory} (d : σ)
    (hr : Recoloured bits ram s.ram) (hd : (s.pcb c).pgdir = pgdir)
    (hall : ∀ j, i ≤ j → j < i + n → HasEntry ram pgdir (pageAt addr j))
    (hlim : n = 0 ∨ i + n ≤ 2 ^ 19) :
    ∃ ram', exec h (mprotectLoop addr prot c n i) ⟨s, d⟩ = some (0, ⟨{ s with ram := ram' }, d⟩) ∧
      Coloured ram s.ram ram' addr pgdir bits i n := by
  have hb := protBits_sub hp
  induction n generalizing i s with
  | zero =>
    exact ⟨s.ram, rfl, hr, fun j h1 h2 => absurd h2 (by omega), fun _ _ => rfl, fun _ h => h⟩
  | succ n ih =>
    obtain ⟨r, hw, hne⟩ := hall i (Nat.le_refl i) (by omega)
    have hi : i < 2 ^ 19 := by omega
    have hw' : uva2pte s.ram (pageAt addr i) (s.pcb c).pgdir = some r := by
      rw [hd, hr.uva2pte hb hpt, hw]
    obtain ⟨ram', he, hc⟩ := ih (i + 1)
      (s := s.putRam fun ram => ram.store r (setProt bits (s.ram.load r))) (hr.store hb hne) hd
      (fun j h1 h2 => hall j (by omega) (by omega)) (by omega)
    refine ⟨ram', ?_, hc.recoloured, fun j h1 h2 r' hw' => ?_, fun r' hn => ?_, fun r' hr' => hc.stays r' ?_⟩
    · rw [mprotectLoop, exec_bind, assert, if_pos hi, exec_pure,
        Option.bind_some, exec_bind, exec_get, Option.bind_some]
      simp only [hw', protect_eq, hp, Option.map_some]
      exact he
    · rcases Nat.lt_or_eq_of_le h1 with h1 | rfl
      · exact hc.rwx j h1 (by omega) r' hw'
      · obtain rfl := Option.some.inj (hw.symm.trans hw')
        refine hc.stays r ?_
        rw [Memory.putRam_ram, Ram.load_store, get_attribute_setProt hb]
    · rw [hc.outside r' fun j h1 h2 => hn j (by omega) (by omega), Memory.putRam_ram, Ram.load_store_of_ne]
      rintro rfl
      exact hn i (Nat.le_refl i) (by omega) hw
    · by_cases he' : r' = r
      · subst he'
        rw [Memory.putRam_ram, Ram.load_store, get_attribute_setProt hb]
      · rw [Memory.putRam_ram, Ram.load_store_of_ne _ _ he']
        exact hr'

theorem n_page_le (len : UInt64) : n_page len ≤ NBYTES2PAGE len.toNat := by
  rw [n_page, Int32.toInt_ofNat', Int.bmod_def, show Int32.size = 4294967296 from rfl]
  split
  · omega
  · omega

/-- The range can be protected: every page has an entry, the offsets of the pages that the loop reaches are `int`s, and
pages it does not reach have the attributes already, or the entry of a page it reaches. -/
structure Protectable (ram : Ram) (addr len pgdir bits : UInt64) : Prop where
  entry : ∀ i < NBYTES2PAGE len.toNat, HasEntry ram pgdir (pageAt addr i)
  limit : n_page len ≤ 2 ^ 19
  rest : ∀ i, n_page len ≤ i → i < NBYTES2PAGE len.toNat → ∀ r, uva2pte ram (pageAt addr i) pgdir = some r →
    (∃ j < n_page len, uva2pte ram (pageAt addr j) pgdir = some r) ∨ get_attribute (ram.load r) PAGE_RWX = bits

variable {z : Conf Memory σ}

theorem do_mprotect_aligned (hal : addr &&& 0xfff = 0) :
    do_mprotect addr len prot c = mprotectLoop addr prot c (n_page len) 0 :=
  if_neg (not_not.mpr hal)

/-- A range that can be protected is protected. -/
theorem Protectable.run (hq : Protectable z.mem.ram addr len (z.mem.pcb c).pgdir bits)
    (hpt : PageTable z.mem.ram (z.mem.pcb c).pgdir)
    (hal : addr &&& 0xfff = 0) (hp : protBits prot = some bits) : ∃ ram', exec h (do_mprotect addr len prot c) z =
      some (0, ⟨{ z.mem with ram := ram' }, z.dev⟩) ∧ Protected z.mem.ram ram' addr len (z.mem.pcb c).pgdir bits := by
  have hb := protBits_sub hp
  obtain ⟨ram', he, hc⟩ := mprotectLoop_run (h := h) (c := c) hpt hp (n_page len) 0 z.dev (Recoloured.refl bits _) rfl
    (fun j _ hj => hq.entry j (Nat.lt_of_lt_of_le (by omega) (n_page_le len))) (Or.inr (by have := hq.limit; omega))
  refine ⟨ram', (do_mprotect_aligned hal).symm ▸ he, fun i _ => hc.recoloured.uva2pte hb hpt _,
    fun i hi r hr => ?_, fun r => ?_, fun r hn => ?_⟩
  · by_cases hlt : i < n_page len
    · exact hc.rwx i (Nat.zero_le i) (by omega) r hr
    · rcases hq.rest i (Nat.le_of_not_lt hlt) hi r hr with ⟨j, hj, hjr⟩ | hrest
      · exact hc.rwx j (Nat.zero_le j) (by omega) r hjr
      · exact hc.stays r hrest
  · rcases hc.recoloured r.page r.idx with hk | ⟨-, hk⟩
    · rw [Ram.load, Ram.load, hk]
    · rw [Ram.load, Ram.load, hk, get_attribute_setProt_others hb]
  · exact hc.outside r fun j _ hj => hn j (Nat.lt_of_lt_of_le (by omega) (n_page_le len))

end OsLab.Mm
