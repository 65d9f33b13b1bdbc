import OsLab.Fs.Bitmaps
import OsLab.Mm.Model

/-!
# The bitmaps of pages, and all the bitmap allocators

`find_free_pages`, `mark_page_allocated` and `unmark_page_free` work on bitmaps in memory. Together with
the allocators of the file system they are the subject of `bitmap_allocators`.
-/

namespace OsLab.Mm

open Lib ProgM

/-- What `find_free_pages` answers, and what marking and unmarking the page do. -/
structure FindsPage (bitmap : ℕ → UInt8) (page_num : ℕ) (r : Option ℕ) : Prop where
  fail : r = none ↔ ∀ i < page_num, bit bitmap i = true
  lowest : ∀ i, r = some i → i < page_num ∧ bit bitmap i = false ∧ ∀ j < i, bit bitmap j = true
  marked : ∀ i, r = some i → ∀ j, bit (mark_page_allocated i bitmap) j = (decide (j = i) || bit bitmap j)
  restored : ∀ i, r = some i → unmark_page_free (UInt64.ofNat i) (mark_page_allocated i bitmap) = bitmap

/-- A sequence of allocations and frees of pages, with what it hands out and gives back. -/
inductive Pages (page_num : ℕ) : (ℕ → UInt8) → List (Booking ℕ) → (ℕ → UInt8) → Prop where
  | nil {bitmap : ℕ → UInt8} : Pages page_num bitmap [] bitmap
  /-- `find_free_pages` returns a page, and `mark_page_allocated` marks it. -/
  | alloc {bitmap bitmap' : ℕ → UInt8} {i : ℕ} {es : List (Booking ℕ)} : find_free_pages bitmap page_num = some i →
      Pages page_num (mark_page_allocated i bitmap) es bitmap' → Pages page_num bitmap (.take i :: es) bitmap'
  /-- `unmark_page_free`. -/
  | free {bitmap bitmap' : ℕ → UInt8} {page_idx : UInt64} {es : List (Booking ℕ)} :
      Pages page_num (unmark_page_free page_idx bitmap) es bitmap' →
        Pages page_num bitmap (.give {x | x = page_idx.toNat} :: es) bitmap'

variable {bitmap bitmap' : ℕ → UInt8} {page_num : ℕ}

theorem NPAGES2BITMAPCH_le (n : ℕ) : n ≤ 8 * NPAGES2BITMAPCH n := by
  unfold NPAGES2BITMAPCH
  split <;> omega

theorem find_free_pages_eq (bitmap : ℕ → UInt8) (page_num : ℕ) :
    find_free_pages bitmap page_num = firstClear (bit bitmap) page_num :=
  scan_eq (NPAGES2BITMAPCH_le page_num)

theorem find_free_pages_finds (bitmap : ℕ → UInt8) (hn : page_num < 2 ^ 31) :
    FindsPage bitmap page_num (find_free_pages bitmap page_num) := by
  rw [find_free_pages_eq]
  refine ⟨firstClear_eq_none, fun i hi => firstClear_eq_some.mp hi, fun i _ j => bit_setBit bitmap i j, fun i hi => ?_⟩
  obtain ⟨hlt, hclear, -⟩ := firstClear_eq_some.mp hi
  have hto : (UInt64.ofNat i).toNat = i := UInt64.toNat_ofNat_of_lt' (Nat.lt_trans hlt (Nat.lt_trans hn (by decide)))
  rw [unmark_page_free, mark_page_allocated, hto]
  exact clearBit_setBit hclear

/-- The run lemma: a sequence of allocations and frees is a ledger of the bitmap. -/
theorem Pages.moves {es : List (Booking ℕ)} (h : Pages page_num bitmap es bitmap') :
    Moves (bit bitmap) es (bit bitmap') := by
  induction h with
  | nil => exact .nil
  | @alloc bitmap bitmap' i es hi _ ih =>
    rw [find_free_pages_eq] at hi
    have hset : ∀ j, bit (mark_page_allocated i bitmap) j = (decide (j = i) || bit bitmap j) := bit_setBit bitmap i
    refine .take (firstClear_eq_some.mp hi).2.1 ?_ (fun j hj => ?_) ih
    · rw [hset, decide_eq_true rfl, Bool.true_or]
    · rw [hset, hj, Bool.or_true]
  | @free bitmap bitmap' page_idx es _ ih =>
    refine .give (fun j hj hset => ?_) ih
    have hne : j ≠ page_idx.toNat := hj
    rw [unmark_page_free, bit_clearBit, hset, decide_eq_false hne]
    rfl

/-- **The bitmap allocators.** Over every bitmap, `find_free_inode`, `find_free_block` and `find_free_pages`
answer -1 exactly when no bit in their range is clear and otherwise take the lowest clear one, and freeing
it restores the bitmap. So in no sequence of allocations and frees is an item handed out while it is out. -/
theorem bitmap_allocators :
    (∀ s : Sys, s.dev.Ok → ∃ (r : ℕ) (s' : Sys), exec cached Fs.find_free_inode s = some (r, s') ∧ s'.dev.Ok ∧
      FindsInode s.seen r s'.seen) ∧
    (∀ s : Sys, s.dev.Ok → ∃ (r b : ℕ) (s' : Sys), exec cached Fs.find_free_block s = some (r, s') ∧ s'.dev.Ok ∧
      FindsBlock s.seen r b s'.seen ∧
      (r ≠ FAIL → ∃ s'' : Sys, exec cached (Fs.free_block r) s' = some ((), s'') ∧
        s''.dev.Ok ∧ blockMap s''.seen = blockMap s.seen)) ∧
    (∀ (bitmap : ℕ → UInt8) (page_num : ℕ), page_num < 2 ^ 31 →
      FindsPage bitmap page_num (find_free_pages bitmap page_num)) ∧
    (∀ (s t : Sys) (es : List (Booking Item)), s.dev.Ok → Allocs s es t → NeverTwice s.out es) ∧
    ∀ (page_num : ℕ) (bitmap bitmap' : ℕ → UInt8) (es : List (Booking ℕ)), Pages page_num bitmap es bitmap' →
      NeverTwice (bit bitmap) es := by
  refine ⟨fun s hok => ?_, fun s hok => ?_, fun bitmap n hn => find_free_pages_finds bitmap hn,
    fun s t es hok ha => (ha.moves hok).neverTwice, fun n m m' es hp => hp.moves.neverTwice⟩
  · exact Runs.cached (s := s) (find_free_inode_finds s.seen) hok
  · obtain ⟨r, s', he, hok', b, hf⟩ := Runs.cached (s := s) (find_free_block_finds s.seen) hok
    have hfb : FindsBlock s.seen r b s'.seen := hf
    refine ⟨r, b, s', he, hok', hfb, fun hr => ?_⟩
    obtain ⟨rfl, hb, hclear, -⟩ := hfb.lowest hr
    obtain ⟨⟨⟩, s'', he', hok'', hmap, -⟩ := Runs.cached (s := s') (free_block_clears s'.seen hb) hok'
    have hback : blockMap s''.seen = clearBit (blockMap s'.seen) b := hmap
    refine ⟨s'', he', hok'', ?_⟩
    rw [hback, hfb.marked hr, clearBit_setBit hclear]

/-- A card of zeros. -/
def blankSys : Sys := ⟨Mem.start, Bcache.init_bcache Bcache.blank⟩

theorem blankSys_ok : blankSys.dev.Ok := ⟨[], Bcache.init_bcache_inv _⟩

theorem blankSys_logical : blankSys.dev.logical = Bcache.blank.card := Bcache.logical_init_bcache _

theorem blankSys_bit (b : ℕ) : bit (blockMap blankSys.seen) b = false := by
  have hzero : ∀ x, blockMap blankSys.seen x = 0 := by
    intro x
    rw [blockMap, Sys.seen, blankSys_logical, Bytes.put]
    split
    · rfl
    · rfl
  simp [bit, hzero]

/-- A block and two pages are handed out; the block and the first page are given back and handed out again. -/
theorem bitmap_allocators_again :
    (∃ t : Sys, Allocs blankSys [.take (.block ⟨0, by decide⟩),
      .give {x | x = .block ⟨0, by decide⟩}, .take (.block ⟨0, by decide⟩)] t ∧
      NeverTwice blankSys.out [.take (.block ⟨0, by decide⟩),
        .give {x | x = .block ⟨0, by decide⟩}, .take (.block ⟨0, by decide⟩)]) ∧
    ∃ bitmap : ℕ → UInt8, Pages 16 (fun _ => 0) [.take 0, .take 1, .give {x | x = 0}, .take 0] bitmap ∧
      NeverTwice (bit fun _ => 0) [.take 0, .take 1, .give {x | x = 0}, .take 0] := by
  constructor
  · have hzero : ∀ {s s' : Sys} {r b : ℕ},
        FindsBlock s.seen r b s'.seen → blockMap s.seen = blockMap blankSys.seen → r ≠ FAIL ∧ b = 0 := by
      intro s s' r b hf hmap
      have hr : r ≠ FAIL := fun hr => by
        have := hf.fail.mp hr 0 (by decide)
        rw [hmap, blankSys_bit] at this
        cases this
      refine ⟨hr, Nat.eq_zero_of_not_pos fun hpos => ?_⟩
      have := (hf.lowest hr).2.2.2 0 hpos
      rw [hmap, blankSys_bit] at this
      cases this
    obtain ⟨r, b, s₁, he₁, hok₁, hf₁, hfree⟩ := bitmap_allocators.2.1 blankSys blankSys_ok
    obtain ⟨hr, rfl⟩ := hzero hf₁ rfl
    obtain ⟨s₂, he₂, hok₂, hmap⟩ := hfree hr
    obtain ⟨r', b', s₃, he₃, hok₃, hf₃, -⟩ := bitmap_allocators.2.1 s₂ hok₂
    obtain ⟨hr', rfl⟩ := hzero hf₃ hmap
    rw [(hf₁.lowest hr).1] at he₁ he₂
    rw [(hf₃.lowest hr').1] at he₃
    have ha : Allocs blankSys [.take (.block ⟨0, by decide⟩),
        .give {x | x = .block ⟨0, by decide⟩}, .take (.block ⟨0, by decide⟩)] s₃ :=
      .find_free_block he₁ (.free_block he₂ (.find_free_block he₃ .nil))
    exact ⟨s₃, ha, bitmap_allocators.2.2.2.1 _ _ _ blankSys_ok ha⟩
  · have hp : Pages 16 (fun _ => 0) [.take 0, .take 1, .give {x | x = (0 : UInt64).toNat}, .take 0] _ :=
      .alloc (by decide) (.alloc (by decide) (.free (.alloc (by decide) .nil)))
    exact ⟨_, hp, bitmap_allocators.2.2.2.2 _ _ _ _ hp⟩

end OsLab.Mm
