import OsLab.Cache.Model
import Mathlib.Data.List.FinRange
import Mathlib.Data.Fintype.Card

/-!
# The cache invariant

The sectors as the cache presents them are `logical`: the bytes of the valid buffer that
holds the sector, else the card. The invariant `Inv c l` ties the ring, the flags and the
card together: the ring visits exactly the valid buffers, no two of them hold the same
sector, and one that is not dirty agrees with the card. Every function of the cache is
specified by what it does to `logical`.
-/

namespace OsLab

open Lib

namespace Bcache

/-- The contents of a sector, as a lookup through the cache presents them. -/
def logical (c : Bcache) (s : ℕ) : Sector :=
  match (List.finRange NBUF).find? fun i => (c.buf i).valid = 1 ∧ (c.buf i).sectorid = s with
  | some i => (c.buf i).data
  | none => c.card s

/-- The invariant, for the buffers `l` of the ring, first to last. -/
structure Inv (c : Bcache) (l : List (Fin NBUF)) : Prop where
  ring : c.links.Ring .head (l.map .buf)
  valid : ∀ i, (c.buf i).valid = if i ∈ l then 1 else 0
  inj : ∀ i ∈ l, ∀ j ∈ l, (c.buf i).sectorid = (c.buf j).sectorid → i = j
  clean : ∀ i ∈ l, (c.buf i).dirty = 0 → (c.buf i).data = c.card (c.buf i).sectorid

/-- A cache in order. -/
def Ok (c : Bcache) : Prop := ∃ l, c.Inv l

/-- The sectors of some buffers. -/
def sectors (c : Bcache) (l : List (Fin NBUF)) : List ℕ := l.map fun i => (c.buf i).sectorid

/-- The ring after an access to a sector: a cached sector stays where it is, any other one
comes to the front, and the last one makes room for it. -/
def refill (q : List ℕ) (s : ℕ) : List ℕ := if s ∈ q then q else (s :: q).take NBUF

namespace Inv

variable {c : Bcache} {l : List (Fin NBUF)}

theorem nodup (h : c.Inv l) : l.Nodup := h.ring.nodup.of_map _

theorem valid_iff (h : c.Inv l) (i : Fin NBUF) : (c.buf i).valid = 1 ↔ i ∈ l := by
  rw [h.valid i]
  by_cases hi : i ∈ l <;> simp [hi]

theorem length_le (h : c.Inv l) : l.length ≤ NBUF := by
  simpa using h.nodup.length_le_card

/-- A ring that misses a buffer has room. -/
theorem length_lt (h : c.Inv l) {i : Fin NBUF} (hi : i ∉ l) : l.length < NBUF := by
  have := (List.nodup_cons.mpr ⟨hi, h.nodup⟩).length_le_card
  rw [List.length_cons, Fintype.card_fin] at this
  omega

/-- A ring of all buffers is full. -/
theorem length_eq (h : c.Inv l) (hall : ∀ i, i ∈ l) : l.length = NBUF := by
  have hsub : List.finRange NBUF ⊆ l := fun i _ => hall i
  have hle := (List.nodup_finRange NBUF).subperm hsub |>.length_le
  rw [List.length_finRange] at hle
  exact Nat.le_antisymm h.length_le hle

/-- A sector in the cache. -/
theorem logical_of_mem (h : c.Inv l) {i : Fin NBUF} (hi : i ∈ l) : c.logical (c.buf i).sectorid = (c.buf i).data := by
  unfold logical
  split
  · next j hj =>
    have hj' := List.find?_some hj
    simp only [decide_eq_true_eq] at hj'
    rw [h.inj j ((h.valid_iff j).mp hj'.1) i hi hj'.2]
  · next hn =>
    rw [List.find?_eq_none] at hn
    have := hn i (List.mem_finRange i)
    simp [(h.valid_iff i).mpr hi] at this

/-- A sector not in the cache. -/
theorem logical_of_notMem (h : c.Inv l) {s : ℕ} (hs : ∀ i ∈ l, (c.buf i).sectorid ≠ s) : c.logical s = c.card s := by
  unfold logical
  split
  · next j hj =>
    have hj' := List.find?_some hj
    simp only [decide_eq_true_eq] at hj'
    exact absurd hj'.2 (hs j ((h.valid_iff j).mp hj'.1))
  · rfl

/-- Two caches in order present the same sector when they agree on the buffer that holds it,
or on the card where none does. -/
theorem logical_congr {c' : Bcache} (h : c.Inv l) {s : ℕ}
    (hin : ∀ i ∈ l, (c.buf i).sectorid = s → c'.logical s = (c.buf i).data)
    (hout : (∀ i ∈ l, (c.buf i).sectorid ≠ s) → c'.logical s = c.card s) : c'.logical s = c.logical s := by
  by_cases hs : ∃ i ∈ l, (c.buf i).sectorid = s
  · obtain ⟨i, hi, rfl⟩ := hs
    rw [hin i hi rfl, h.logical_of_mem hi]
  · push Not at hs
    rw [hout hs, h.logical_of_notMem hs]

end Inv

/-! ### The functions of the cache -/

/-- `init_bcache` leaves the empty ring: the card is what is seen. -/
theorem init_bcache_inv (c : Bcache) : c.init_bcache.Inv [] where
  ring := Links.Ring.selfLink _ _
  valid := fun _ => rfl
  inj := by simp
  clean := by simp

theorem logical_init_bcache (c : Bcache) : c.init_bcache.logical = c.card :=
  funext fun _ => (init_bcache_inv c).logical_of_notMem (by simp)

variable {c : Bcache} {l : List (Fin NBUF)}

theorem flushBuf_of_ne (i : Fin NBUF) {j : Fin NBUF} (h : j ≠ i) : (c.flushBuf i).buf j = c.buf j := by
  unfold flushBuf
  split <;> simp [setBuf, bios_sd_write, h]

@[simp] theorem flushBuf_links (i : Fin NBUF) : (c.flushBuf i).links = c.links := by
  unfold flushBuf
  split <;> rfl

@[simp] theorem flushBuf_policy (i : Fin NBUF) : (c.flushBuf i).page_cache_policy = c.page_cache_policy := by
  unfold flushBuf
  split <;> rfl

theorem flushBuf_self (i : Fin NBUF) : (c.flushBuf i).buf i = { c.buf i with dirty := 0 } := by
  unfold flushBuf
  split
  · simp [setBuf, bios_sd_write]
  · next h =>
    simp only [ne_eq, not_not] at h
    rw [← h]

theorem flushBuf_card (h : c.Inv l) {i : Fin NBUF} (hi : i ∈ l) :
    (c.flushBuf i).card = Function.update c.card (c.buf i).sectorid (c.buf i).data := by
  unfold flushBuf
  split
  · rfl
  · next hd =>
    simp only [ne_eq, not_not] at hd
    rw [h.clean i hi hd, Function.update_eq_self]

/-- Flushing changes neither the ring nor what is seen. -/
theorem flushBuf_inv (h : c.Inv l) {i : Fin NBUF} (hi : i ∈ l) : (c.flushBuf i).Inv l := by
  have hid : ∀ j, ((c.flushBuf i).buf j).sectorid = (c.buf j).sectorid := by
    intro j
    by_cases hj : j = i
    · rw [hj, flushBuf_self]
    · rw [flushBuf_of_ne i hj]
  refine ⟨by rw [flushBuf_links]; exact h.ring, fun j => ?_, fun j hj k hk => ?_, fun j hj hd => ?_⟩
  · rw [← h.valid j]
    by_cases hj : j = i
    · rw [hj, flushBuf_self]
    · rw [flushBuf_of_ne i hj]
  · rw [hid, hid]
    exact h.inj j hj k hk
  · rw [hid, flushBuf_card h hi, Function.update_apply]
    by_cases hji : j = i
    · rw [hji, flushBuf_self]
      simp
    · rw [flushBuf_of_ne i hji] at hd ⊢
      rw [if_neg fun he => hji (h.inj j hj i hi he)]
      exact h.clean j hj hd

theorem logical_flushBuf (h : c.Inv l) {i : Fin NBUF} (hi : i ∈ l) : (c.flushBuf i).logical = c.logical := by
  funext s
  have h' := flushBuf_inv h hi
  refine h.logical_congr (fun j hj hs => ?_) (fun hs => ?_)
  · have := h'.logical_of_mem hj
    by_cases hji : j = i
    · subst hji
      rw [flushBuf_self] at this
      rw [← hs]
      exact this
    · rw [flushBuf_of_ne i hji] at this
      rw [← hs]
      exact this
  · rw [h'.logical_of_notMem, flushBuf_card h hi, Function.update_of_ne (hs i hi).symm]
    intro j hj
    by_cases hji : j = i
    · rw [hji, flushBuf_self]
      exact hs i hi
    · rw [flushBuf_of_ne i hji]
      exact hs j hj

theorem setBuf_self (c : Bcache) (i : Fin NBUF) (b : Buf) : (c.setBuf i b).buf i = b := Function.update_self ..

/-- Assigning a buffer outside the ring leaves the ring's buffers alone. -/
theorem setBuf_of_mem {i j : Fin NBUF} (hi : i ∉ l) (hj : j ∈ l) (b : Buf) : (c.setBuf i b).buf j = c.buf j := by
  have : j ≠ i := fun e => hi (e ▸ hj)
  exact Function.update_of_ne this _ _

/-- Taking the last buffer, flushed, out of the ring. -/
theorem evict_inv {i : Fin NBUF} (h : c.Inv (l ++ [i])) {b : Buf} (hb : b.valid = 0) :
    ∃ links, ((c.flushBuf i).setBuf i b).links.unlink (.buf i) = some links ∧
      ({ (c.flushBuf i).setBuf i b with links } : Bcache).Inv l ∧
      ({ (c.flushBuf i).setBuf i b with links } : Bcache).logical = c.logical := by
  have hi : i ∈ l ++ [i] := by simp
  have hil : i ∉ l := by
    have := h.nodup
    grind
  have hf := flushBuf_inv h hi
  have hring : (c.flushBuf i).links.Ring .head (l.map BufNode.buf ++ .buf i :: []) := by simpa using hf.ring
  obtain ⟨links, hu, hr, -⟩ := hring.unlink
  have hinv : ({ (c.flushBuf i).setBuf i b with links } : Bcache).Inv l := by
    have hne : ∀ j ∈ l, ((c.flushBuf i).setBuf i b).buf j = (c.flushBuf i).buf j :=
      fun j hj => setBuf_of_mem hil hj b
    refine ⟨by simpa using hr, fun j => ?_, fun j hj k hk => ?_, fun j hj hd => ?_⟩
    · by_cases hj : j = i
      · subst hj
        simp [setBuf, hil, hb]
      · have := hf.valid j
        simp [setBuf, hj, this]
    · simp only [hne j hj, hne k hk]
      exact hf.inj j (by simp [hj]) k (by simp [hk])
    · simp only [hne j hj] at hd ⊢
      exact hf.clean j (by simp [hj]) hd
  refine ⟨links, hu, hinv, ?_⟩
  rw [← logical_flushBuf h hi]
  funext s
  refine hf.logical_congr (fun j hj hs => ?_) (fun hs => ?_)
  · rcases List.mem_append.mp hj with hj | hj
    · have := hinv.logical_of_mem hj
      simp only [setBuf_of_mem hil hj, hs] at this
      exact this
    · -- the evicted sector is now seen on the card, where the flush has put it
      obtain rfl : j = i := by simpa using hj
      rw [hinv.logical_of_notMem]
      · have hd : ((c.flushBuf j).buf j).dirty = 0 := by rw [flushBuf_self]
        rw [hf.clean j hi hd, hs]
        rfl
      · intro k hk hks
        simp only [setBuf_of_mem hil hk] at hks
        exact hil (hf.inj k (by simp [hk]) j hi (hks.trans hs.symm) ▸ hk)
  · rw [hinv.logical_of_notMem]
    · rfl
    · intro k hk hks
      simp only [setBuf_of_mem hil hk] at hks
      exact hs k (by simp [hk]) hks

/-- `find_free_buf` finds a buffer outside the ring, or takes the last one out of a full ring,
and nothing seen changes. -/
theorem find_free_buf_spec (h : c.Inv l) : ∃ i c' l', c.find_free_buf = some (some i, c') ∧ c'.Inv l' ∧ i ∉ l' ∧
    (l' = l ∧ l.length < NBUF ∨ l = l' ++ [i] ∧ l.length = NBUF) ∧ c'.logical = c.logical ∧
      (∀ j ∈ l', (c'.buf j).sectorid = (c.buf j).sectorid) ∧ c'.page_cache_policy = c.page_cache_policy := by
  unfold find_free_buf
  split
  · next i hi =>
    have hv := List.find?_some hi
    simp only [decide_eq_true_eq] at hv
    have hil : i ∉ l := by
      intro hil
      rw [(h.valid_iff i).mpr hil] at hv
      exact absurd hv (by decide)
    exact ⟨i, c, l, rfl, h, hil, Or.inl ⟨rfl, h.length_lt hil⟩, rfl, fun _ _ => rfl, rfl⟩
  · next hn =>
    -- no buffer is free, so the ring holds all of them and has a last one
    have hall : ∀ i, i ∈ l := by
      intro i
      rw [List.find?_eq_none] at hn
      have := hn i (List.mem_finRange i)
      simp only [decide_eq_true_eq, h.valid i] at this
      by_contra hi
      exact this (if_neg hi)
    rcases List.eq_nil_or_concat l with rfl | ⟨l, i, rfl⟩
    · exact absurd (hall ⟨0, by decide⟩) (by simp)
    rw [List.concat_eq_append] at h hall ⊢
    have hp : c.links.prev .head = some (.buf i) := by simpa using h.ring.prev_head
    rw [hp]
    obtain ⟨links, hu, hinv, hlog⟩ :=
      evict_inv h (b := { (c.flushBuf i).buf i with valid := 0, sectorid := 0 }) rfl
    have hil : i ∉ l := by
      have := h.nodup
      grind
    refine ⟨i, _, l, by simp [hu], hinv, hil, Or.inr ⟨rfl, h.length_eq hall⟩, hlog, fun j hj => ?_, flushBuf_policy i⟩
    have hji : j ≠ i := fun e => hil (e ▸ hj)
    simp [setBuf, hji, flushBuf_of_ne]

/-- `search_buf` finds the buffer of a sector exactly when the cache has one. -/
theorem search_buf_spec (h : c.Inv l) (s : ℕ) :
    (∃ i ∈ l, (c.buf i).sectorid = s ∧ c.search_buf s = some (some i)) ∨
      ((∀ i ∈ l, (c.buf i).sectorid ≠ s) ∧ c.search_buf s = some none) := by
  have hf := h.ring.find (c.holds s) (NBUF + 1) (by have := h.length_le; simp; omega)
  have hp : c.links.next .head = some ((l.map BufNode.buf).headD .head) := h.ring.next_head
  rw [hp, Option.bind_some, List.find?_map] at hf
  have he : c.search_buf s = some (l.find? (c.holds s ∘ BufNode.buf)) := by
    rw [search_buf, hp]
    simp only [bind, Option.bind_some, hf]
    cases l.find? (c.holds s ∘ BufNode.buf) <;> rfl
  rw [he]
  cases hl : l.find? (c.holds s ∘ BufNode.buf) with
  | some i =>
    have hi := List.find?_some hl
    simp only [Function.comp_apply, holds, decide_eq_true_eq] at hi
    exact Or.inl ⟨i, List.mem_of_find?_eq_some hl, hi.2, rfl⟩
  | none =>
    refine Or.inr ⟨fun i hi hs => ?_, rfl⟩
    rw [List.find?_eq_none] at hl
    have := hl i hi
    simp [holds, hs, (h.valid_iff i).mpr hi] at this

theorem sectors_concat (i : Fin NBUF) : c.sectors (l ++ [i]) = c.sectors l ++ [(c.buf i).sectorid] := List.map_append

/-- In front of a full ring, a sector displaces the last one. -/
theorem take_full {q : List ℕ} {n x : ℕ} (hq : (q ++ [x]).length = n) (s : ℕ) : (s :: (q ++ [x])).take n = s :: q := by
  rw [List.length_append, List.length_singleton] at hq
  rw [← hq, List.take_succ_cons, List.take_left]

/-- `brefill` of a sector that is not in the cache succeeds and puts it in front, and nothing
seen changes. -/
theorem brefill_spec (h : c.Inv l) {s : ℕ} (hs : ∀ i ∈ l, (c.buf i).sectorid ≠ s) :
    ∃ i c' l', c.brefill s = some (some i, c') ∧ c'.Inv l' ∧ i ∈ l' ∧ (c'.buf i).sectorid = s ∧
      c'.logical = c.logical ∧ c'.page_cache_policy = c.page_cache_policy ∧
        c'.sectors l' = (s :: c.sectors l).take NBUF := by
  obtain ⟨i, c₁, l₁, he, h₁, hi, hring, hlog, hsec, hpol⟩ := find_free_buf_spec h
  have hsub : l₁ ⊆ l := by
    rcases hring with ⟨rfl, -⟩ | ⟨rfl, -⟩
    · exact fun _ hx => hx
    · exact List.subset_append_left ..
  have hsecs : s :: c₁.sectors l₁ = (s :: c.sectors l).take NBUF := by
    have hl : c₁.sectors l₁ = c.sectors l₁ := List.map_congr_left hsec
    rcases hring with ⟨rfl, hlt⟩ | ⟨rfl, hlen⟩
    · rw [hl, List.take_of_length_le]
      rw [List.length_cons, sectors, List.length_map]
      omega
    · rw [hl, sectors_concat, take_full]
      simpa [sectors] using hlen
  have hs₁ : ∀ j ∈ l₁, (c₁.buf j).sectorid ≠ s := fun j hj => by rw [hsec j hj]; exact hs j (hsub hj)
  have hring₁ : (c₁.setBuf i ⟨1, 0, s, c₁.card s⟩).links.Ring .head (l₁.map BufNode.buf) := h₁.ring
  obtain ⟨links, hu, hr, -⟩ := hring₁.insertFront (a := .buf i) (by simp [hi])
  have hne : ∀ j ∈ l₁, (c₁.setBuf i ⟨1, 0, s, c₁.card s⟩).buf j = c₁.buf j := fun j hj => setBuf_of_mem hi hj _
  have hself := setBuf_self c₁ i ⟨1, 0, s, c₁.card s⟩
  have hinv : ({ c₁.setBuf i ⟨1, 0, s, c₁.card s⟩ with links } : Bcache).Inv (i :: l₁) := by
    refine ⟨by simpa using hr, fun j => ?_, fun j hj k hk he => ?_, fun j hj hd => ?_⟩
    · by_cases hj : j = i
      · subst hj
        simp [setBuf]
      · have := h₁.valid j
        simp [setBuf, hj, this]
    · rw [List.mem_cons] at hj hk
      rcases hj with rfl | hj <;> rcases hk with rfl | hk
      · rfl
      · simp only [hself, hne k hk] at he
        exact absurd he.symm (hs₁ k hk)
      · simp only [hself, hne j hj] at he
        exact absurd he (hs₁ j hj)
      · simp only [hne j hj, hne k hk] at he
        exact h₁.inj j hj k hk he
    · rcases List.mem_cons.mp hj with rfl | hj
      · simp only [hself]
        rfl
      · simp only [hne j hj] at hd ⊢
        exact h₁.clean j hj hd
  refine ⟨i, _, i :: l₁, by simp [brefill, he, hu], hinv, by simp, by simp [setBuf], ?_, hpol, ?_⟩
  swap
  · rw [← hsecs]
    simp only [sectors, List.map_cons, hself]
    rw [List.map_congr_left fun j hj => by rw [hne j hj]]
  rw [← hlog]
  funext t
  refine h₁.logical_congr (fun j hj ht => ?_) (fun ht => ?_)
  · have := hinv.logical_of_mem (List.mem_cons_of_mem i hj)
    simp only [hne j hj, ht] at this
    exact this
  · by_cases hts : t = s
    · subst hts
      have := hinv.logical_of_mem (i := i) (by simp)
      simp only [hself] at this
      exact this
    · rw [hinv.logical_of_notMem]
      · rfl
      · intro j hj
        rcases List.mem_cons.mp hj with rfl | hj
        · simp only [hself]
          exact Ne.symm hts
        · simp only [hne j hj]
          exact ht j hj

/-- The buffer of a sector, after `search_buf` and possibly `brefill`. -/
theorem getBuf_spec (h : c.Inv l) (s : ℕ) :
    ∃ i c' l', c.getBuf s = some (i, c') ∧ c'.Inv l' ∧ i ∈ l' ∧ (c'.buf i).sectorid = s ∧
      c'.logical = c.logical ∧ c'.page_cache_policy = c.page_cache_policy ∧ c'.sectors l' = refill (c.sectors l) s := by
  rcases search_buf_spec h s with ⟨i, hi, hs, he⟩ | ⟨hs, he⟩
  · have hmem : s ∈ c.sectors l := List.mem_map.mpr ⟨i, hi, hs⟩
    exact ⟨i, c, l, by simp [getBuf, he], h, hi, hs, rfl, rfl, (if_pos hmem).symm⟩
  · obtain ⟨i, c', l', hr, h', hi, hsec, hlog, hpol, hline⟩ := brefill_spec h hs
    have hmem : s ∉ c.sectors l := by simpa [sectors] using hs
    exact ⟨i, c', l', by simp [getBuf, he, hr], h', hi, hsec, hlog, hpol, hline.trans (if_neg hmem).symm⟩

/-- Assigning the bytes of a buffer of the ring, with the card or the dirty flag kept in
step, changes what is seen of its sector only. -/
theorem setData_inv (h : c.Inv l) {i : Fin NBUF} (hi : i ∈ l) (d : Sector) (dirty : UInt16) (card : Card)
    (hcard : ∀ s, s ≠ (c.buf i).sectorid → card s = c.card s)
    (hd : dirty = 0 → card (c.buf i).sectorid = d) :
    ({ c.setBuf i { c.buf i with data := d, dirty := dirty } with card } : Bcache).Inv l ∧
      ({ c.setBuf i { c.buf i with data := d, dirty := dirty } with card } : Bcache).logical =
        Function.update c.logical (c.buf i).sectorid d := by
  have hne : ∀ j, j ≠ i → (c.setBuf i { c.buf i with data := d, dirty := dirty }).buf j = c.buf j :=
    fun j hj => Function.update_of_ne hj _ _
  have hself : (c.setBuf i { c.buf i with data := d, dirty := dirty }).buf i =
      { c.buf i with data := d, dirty := dirty } := Function.update_self ..
  have hsec : ∀ j, ((c.setBuf i { c.buf i with data := d, dirty := dirty }).buf j).sectorid = (c.buf j).sectorid := by
    intro j
    by_cases hj : j = i
    · rw [hj, hself]
    · rw [hne j hj]
  have hinv : ({ c.setBuf i { c.buf i with data := d, dirty := dirty } with card } : Bcache).Inv l := by
    refine ⟨h.ring, fun j => ?_, fun j hj k hk => ?_, fun j hj hdj => ?_⟩
    · rw [← h.valid j]
      by_cases hj : j = i
      · rw [hj]
        simp only [hself]
      · simp only [hne j hj]
    · simp only [hsec]
      exact h.inj j hj k hk
    · by_cases hji : j = i
      · subst hji
        simp only [hself] at hdj ⊢
        exact (hd hdj).symm
      · simp only [hne j hji] at hdj ⊢
        rw [hcard _ fun e => hji (h.inj j hj i hi e)]
        exact h.clean j hj hdj
  refine ⟨hinv, ?_⟩
  funext s
  rw [Function.update_apply]
  split
  · next hs =>
    subst hs
    have := hinv.logical_of_mem hi
    simp only [hself] at this
    exact this
  · next hs =>
    refine h.logical_congr (fun j hj ht => ?_) (fun ht => ?_)
    · have hji : j ≠ i := fun e => hs (by rw [← ht, e])
      have := hinv.logical_of_mem hj
      simp only [hne j hji, ht] at this
      exact this
    · rw [hinv.logical_of_notMem, ← hcard s hs]
      intro j hj
      simp only [hsec]
      exact ht j hj

/-- The assignment of `setData_inv` leaves the sectors of the buffers alone. -/
theorem sectors_setData (i : Fin NBUF) (d : Sector) (dirty : UInt16) (card : Card) :
    ({ c.setBuf i { c.buf i with data := d, dirty := dirty } with card } : Bcache).sectors l = c.sectors l := by
  apply List.map_congr_left
  intro j _
  by_cases hj : j = i <;> simp [setBuf, hj]

/-- One sector written, with the ring. -/
theorem bwriteSector_inv (h : c.Inv l) (m : Bytes) (s : ℕ) : ∃ c' l', c.bwriteSector m s = some c' ∧ c'.Inv l' ∧
    c'.sectors l' = refill (c.sectors l) s ∧ c'.logical = Function.update c.logical s (m.sector 0) := by
  obtain ⟨i, c₁, l₁, he, h₁, hi, rfl, hlog, hpol, hline⟩ := getBuf_spec h s
  rw [← hlog]
  cases hp : c₁.page_cache_policy with
  | writeThrough =>
    obtain ⟨hinv, hl⟩ := setData_inv h₁ hi (m.sector 0) (c₁.buf i).dirty
      (Function.update c₁.card (c₁.buf i).sectorid (m.sector 0))
      (fun s hs => Function.update_of_ne hs _ _) (fun _ => Function.update_self ..)
    refine ⟨_, l₁, ?_, hinv, (sectors_setData ..).trans hline, hl⟩
    simp [bwriteSector, he, setBuf, hp, bios_sd_write]
  | writeBack =>
    obtain ⟨hinv, hl⟩ := setData_inv h₁ hi (m.sector 0) 1 c₁.card
      (fun _ _ => rfl) (fun hd => absurd hd (by decide))
    refine ⟨_, l₁, ?_, hinv, (sectors_setData ..).trans hline, hl⟩
    simp [bwriteSector, he, setBuf, hp]

/-- One sector written. -/
theorem bwriteSector_spec (h : c.Ok) (m : Bytes) (s : ℕ) :
    ∃ c', c.bwriteSector m s = some c' ∧ c'.Ok ∧ c'.logical = Function.update c.logical s (m.sector 0) := by
  obtain ⟨l, h⟩ := h
  obtain ⟨c', l', he, h', -, hlog⟩ := bwriteSector_inv h m s
  exact ⟨c', he, ⟨l', h'⟩, hlog⟩

/-- One sector read, with the ring. -/
theorem breadSector_inv (h : c.Inv l) (m : Bytes) (s : ℕ) :
    ∃ c' l', c.breadSector m s = some (m.put 0 (c.logical s), c') ∧
    c'.Inv l' ∧ c'.sectors l' = refill (c.sectors l) s ∧ c'.logical = c.logical := by
  obtain ⟨i, c₁, l₁, he, h₁, hi, hs, hlog, hpol, hline⟩ := getBuf_spec h s
  refine ⟨c₁, l₁, ?_, h₁, hline, hlog⟩
  have := h₁.logical_of_mem hi
  rw [hs, hlog] at this
  simp [breadSector, he, this]

/-- One sector read. -/
theorem breadSector_spec (h : c.Ok) (m : Bytes) (s : ℕ) :
    ∃ c', c.breadSector m s = some (m.put 0 (c.logical s), c') ∧ c'.Ok ∧ c'.logical = c.logical := by
  obtain ⟨l, h⟩ := h
  obtain ⟨c', l', he, h', -, hlog⟩ := breadSector_inv h m s
  exact ⟨c', he, ⟨l', h'⟩, hlog⟩

/-- The loop of `bflush` over the rest `l₂` of the ring. -/
theorem bflushFrom_spec (l₁ : List (Fin NBUF)) {l₂ : List (Fin NBUF)}
    (h : c.Inv (l₁ ++ l₂)) (hc : ∀ i ∈ l₁, (c.buf i).dirty = 0)
    (fuel : ℕ) (hf : l₂.length < fuel) :
    ∃ c', bflushFrom fuel c ((l₂.map BufNode.buf).headD .head) = some c' ∧ c'.Inv (l₁ ++ l₂) ∧
      c'.logical = c.logical ∧ ∀ i ∈ l₁ ++ l₂, (c'.buf i).dirty = 0 := by
  induction l₂ generalizing c l₁ fuel with
  | nil =>
    obtain ⟨fuel, rfl⟩ := Nat.exists_eq_succ_of_ne_zero (Nat.ne_of_gt hf)
    exact ⟨c, rfl, h, rfl, by simpa using hc⟩
  | cons i l₂ ih =>
    obtain ⟨fuel, rfl⟩ := Nat.exists_eq_succ_of_ne_zero (Nat.ne_of_gt (Nat.zero_lt_of_lt hf))
    have hi : i ∈ l₁ ++ i :: l₂ := by simp
    have h₁ := flushBuf_inv h hi
    have hring : (c.flushBuf i).links.Ring .head (l₁.map BufNode.buf ++ .buf i :: l₂.map BufNode.buf) := by
      simpa using h₁.ring
    obtain ⟨xs, p, n, ys, -, hn, -, hnext, -, -⟩ := hring.split
    have hn' : n = (l₂.map BufNode.buf).headD .head := by cases l₂ <;> simp_all
    have hassoc : (l₁ ++ [i]) ++ l₂ = l₁ ++ i :: l₂ := by simp
    have hclean : ∀ j ∈ l₁ ++ [i], ((c.flushBuf i).buf j).dirty = 0 := by
      intro j hj
      by_cases hji : j = i
      · rw [hji, flushBuf_self]
      · rw [flushBuf_of_ne i hji]
        exact hc j (by simpa [hji] using hj)
    obtain ⟨c', he, h', hlog, hd⟩ :=
      ih (c := c.flushBuf i) (l₁ ++ [i]) (by rw [hassoc]; exact h₁) hclean fuel (by simpa using hf)
    rw [hassoc] at h' hd
    refine ⟨c', ?_, h', hlog.trans (logical_flushBuf h hi), hd⟩
    rw [← hn'] at he
    rw [flushBuf_links] at hnext
    simpa [bflushFrom, hnext] using he

/-- `bflush` changes nothing seen, and the card then is what is seen. -/
theorem bflush_spec (h : c.Ok) : ∃ c', c.bflush = some c' ∧ c'.Ok ∧ c'.logical = c.logical ∧ c'.card = c.logical := by
  obtain ⟨l, h⟩ := h
  obtain ⟨c', he, h', hlog, hd⟩ :=
    bflushFrom_spec [] h (by simp) (NBUF + 1) (by have := h.length_le; omega)
  refine ⟨c', ?_, ⟨l, h'⟩, hlog, ?_⟩
  · rw [bflush, h.ring.next_head]
    exact he
  · rw [← hlog]
    funext s
    by_cases hs : ∃ i ∈ l, (c'.buf i).sectorid = s
    · obtain ⟨i, hi, rfl⟩ := hs
      rw [h'.logical_of_mem hi, h'.clean i hi (hd i hi)]
    · push Not at hs
      rw [h'.logical_of_notMem hs]

end Bcache

end OsLab
