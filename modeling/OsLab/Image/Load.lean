import Mathlib.Tactic.Ring
import OsLab.Image.Model

/-!
# The loader

The contents of a task are a stretch of the image that starts anywhere in a sector. `load_task_img`
reads the sectors that cover the stretch to the entry point and then moves the bytes down
(`load_task_img_spec`); the page that `pagenum` counts in addition makes room for the first, partial
sector.
-/

namespace OsLab.Image

open Lib

/-! ### Reading the pages -/

variable {s : Space} {a : ℕ}

theorem isMapped_of_mem (h : a / PAGE_SIZE * PAGE_SIZE ∈ s.mapped) : s.isMapped a = true := by
  simpa [Space.isMapped] using h

/-- An address of the task is in its first page or in a later one. -/
theorem page_cases (a uva T : ℕ) : uva ≤ a ∧ a < uva + 512 * (T + 8) ↔
    uva ≤ a ∧ a < uva + 4096 ∨ uva + 4096 ≤ a ∧ a < uva + 4096 + 512 * T := by
  omega

theorem page_shift {a uva : ℕ} (b : ℕ) (h : uva + 4096 ≤ a) :
    512 * (b + 8) + (a - (uva + 4096)) = 512 * b + (a - uva) := by
  omega

/-- All `S` sectors of the task are read, into the pages that were just mapped. -/
theorem loadPages_spec (card : ℕ → UInt8) (n uva S b : ℕ) (s : Space)
    (hal : PAGE_SIZE ∣ uva) (hfit : S ≤ 8 * n) (hlt : S < 2 ^ 23)
    (h0 : uva ≠ 0) (hu : uva + PAGE_SIZE * n ≤ 2 ^ 38) :
    ∃ s', loadPages card n uva S b s = some s' ∧
      (∀ a, s'.mem a = if uva ≤ a ∧ a < uva + 512 * S then card (512 * b + (a - uva)) else s.mem a) ∧
      (∀ p ∈ s.mapped, p ∈ s'.mapped) ∧ ∀ k < n, uva + 4096 * k ∈ s'.mapped := by
  induction n generalizing uva S b s with
  | zero =>
    refine ⟨s, rfl, fun a => ?_, fun p hp => hp, fun k hk => absurd hk (Nat.not_lt_zero k)⟩
    rw [if_neg]
    omega
  | succ n ih =>
    have hpage : uva / PAGE_SIZE * PAGE_SIZE = uva := Nat.div_mul_cancel hal
    have hal' : PAGE_SIZE ∣ uva + 0x1000 := Nat.dvd_add hal (Nat.dvd_refl PAGE_SIZE)
    simp only [PAGE_SIZE] at hu
    have halloc : alloc_page_helper uva s = some { s with mapped := uva :: s.mapped } := if_pos ⟨h0, by omega⟩
    -- what the later pages leave, once this page has been read as `m`
    have hrest : ∀ (R c : ℕ) (m : ℕ → UInt8), R ≤ 8 * n → R < 2 ^ 23 →
        ∃ s', loadPages card n (uva + 0x1000) R c ⟨uva :: s.mapped, m⟩ = some s' ∧
          (∀ a, s'.mem a =
            if uva + 4096 ≤ a ∧ a < uva + 4096 + 512 * R then card (512 * c + (a - (uva + 4096))) else m a) ∧
          (∀ p ∈ s.mapped, p ∈ s'.mapped) ∧ ∀ k < n + 1, uva + 4096 * k ∈ s'.mapped := by
      intro R c m h1 h2
      obtain ⟨s', he, hmem, hsub, hnew⟩ :=
        ih (uva + 0x1000) R c ⟨uva :: s.mapped, m⟩ hal' h1 h2 (by omega) (by simp only [PAGE_SIZE]; omega)
      refine ⟨s', he, hmem, fun p hp => hsub p (List.mem_cons_of_mem _ hp), fun k hk => ?_⟩
      cases k with
      | zero => exact hsub _ (by simp)
      | succ k =>
        have := hnew k (by omega)
        rwa [show uva + 4096 * (k + 1) = uva + 0x1000 + 4096 * k by ring]
    have hread : ∀ R : ℕ, R ≤ 8 → bios_sd_read card uva R b { s with mapped := uva :: s.mapped } =
        some ⟨uva :: s.mapped, memcpy s.mem uva card (512 * b) (512 * R)⟩ := by
      intro R hR
      rw [bios_sd_read, if_pos, SECTOR_SIZE, Nat.mul_comm b, Nat.mul_comm R]
      refine ⟨isMapped_of_mem ?_, Nat.mul_le_mul_right 512 hR⟩
      rw [hpage]
      exact List.mem_cons_self ..
    have hmod : S * SECTOR_SIZE % 2 ^ 32 = 512 * S := by
      rw [SECTOR_SIZE, Nat.mul_comm, Nat.mod_eq_of_lt]
      omega
    simp only [loadPages, halloc, Option.bind_eq_bind,
      Option.bind_some, hmod, show PAGE_SIZE / SECTOR_SIZE = 8 from rfl]
    by_cases hbig : 4096 ≤ 512 * S
    · obtain ⟨T, rfl⟩ : ∃ T, S = T + 8 := ⟨S - 8, by omega⟩
      rw [show PAGE_SIZE = 4096 from rfl, if_pos hbig, hread 8 (Nat.le_refl 8), Nat.add_sub_cancel]
      obtain ⟨s', he, hmem, hsub, hnew⟩ := hrest T (b + 8) (memcpy s.mem uva card (512 * b) 4096) (by omega) (by omega)
      refine ⟨s', he, fun a => ?_, hsub, hnew⟩
      rw [hmem, memcpy_apply]
      by_cases h1 : uva + 4096 ≤ a ∧ a < uva + 4096 + 512 * T
      · rw [if_pos h1, if_pos ((page_cases a uva T).mpr (Or.inr h1)), page_shift b h1.1]
      · rw [if_neg h1]
        by_cases h2 : uva ≤ a ∧ a < uva + 4096
        · rw [if_pos h2, if_pos ((page_cases a uva T).mpr (Or.inl h2))]
        · rw [if_neg h2, if_neg fun h3 => ((page_cases a uva T).mp h3).elim h2 h1]
    · rw [show PAGE_SIZE = 4096 from rfl, if_neg hbig]
      by_cases hpos : 0 < S
      · rw [if_pos hpos, hread S (by omega)]
        obtain ⟨s', he, hmem, hsub, hnew⟩ := hrest 0 b (memcpy s.mem uva card (512 * b) (512 * S)) (by omega) (by omega)
        refine ⟨s', he, fun a => ?_, hsub, hnew⟩
        rw [hmem, if_neg (by omega), memcpy_apply]
      · rw [if_neg hpos]
        obtain ⟨s', he, hmem, hsub, hnew⟩ := hrest S b s.mem (by omega) (by omega)
        refine ⟨s', he, fun a => ?_, hsub, hnew⟩
        rw [hmem, if_neg (by omega), if_neg (by omega)]

/-! ### Moving the bytes down -/

theorem my_memcpy_eq {dest src len : ℕ} (hd : ∀ j < len, s.isMapped (dest + j) = true)
    (hs : ∀ j < len, s.isMapped (src + j) = true) :
    my_memcpy dest src len s = some { s with mem := memcpyWithin s.mem dest src len } := by
  induction len generalizing dest src s with
  | zero => rfl
  | succ len ih =>
    have h0 : s.isMapped dest = true ∧ s.isMapped src = true := ⟨hd 0 (Nat.succ_pos _), hs 0 (Nat.succ_pos _)⟩
    rw [my_memcpy, if_pos h0, ih]
    · rfl
    · intro j hj
      have := hd (j + 1) (by omega)
      rwa [show dest + (j + 1) = dest + 1 + j by omega] at this
    · intro j hj
      have := hs (j + 1) (by omega)
      rwa [show src + (j + 1) = src + 1 + j by omega] at this

/-- The task whose contents start at byte `start` of the image and take `len` bytes. -/
def infoAt (f : Elf) (start len : ℕ) : TaskInfo where
  taskname := f.name
  entrypoint := f.e_entry
  sector_num := (ROUND (start + len) - ROUNDDOWN start) / SECTOR_SIZE
  firstsector := start / SECTOR_SIZE
  offset := start % SECTOR_SIZE
  memsize := f.memsize

/-- The pages that the loader maps for a task. -/
def Elf.pages (f : Elf) : ℕ := NBYTES2PAGE (f.memsize + SECTOR_SIZE)

theorem page_of_add {e j : ℕ} (he : PAGE_SIZE ∣ e) : (e + j) / PAGE_SIZE * PAGE_SIZE = e + 4096 * (j / 4096) := by
  obtain ⟨k, rfl⟩ := he
  rw [PAGE_SIZE, Nat.mul_add_div (Nat.succ_pos _), Nat.mul_comm, Nat.mul_add]

theorem pages_le (f : Elf) : f.memsize + 512 ≤ 4096 * f.pages := by
  unfold Elf.pages NBYTES2PAGE PAGE_SIZE SECTOR_SIZE
  by_cases h : (f.memsize + 512) % 4096 = 0
  · rw [if_neg (not_not.mpr h)]
    omega
  · rw [if_pos h]
    omega

/-- The sectors that cover a stretch of the image. -/
theorem sector_num_bounds (f : Elf) (start len : ℕ) :
    start % 512 + len ≤ 512 * (infoAt f start len).sector_num ∧
    512 * (infoAt f start len).sector_num < start % 512 + len + 512 := by
  simp only [infoAt, ROUND, ROUNDDOWN, SECTOR_SIZE]
  omega

/-- `load_task_img` brings the bytes of the card from `start` on to the entry point. -/
theorem load_task_img_spec (card : ℕ → UInt8) (f : Elf) (start : ℕ) {len : ℕ} (hal : PAGE_SIZE ∣ f.e_entry)
    (hmem : f.memsize < 2 ^ 31 - 512) (hlen : len ≤ f.memsize) (h0 : f.e_entry ≠ 0)
    (hhalf : f.e_entry + PAGE_SIZE * f.pages ≤ 2 ^ 38) (s : Space) :
    ∃ s', load_task_img card (infoAt f start len) s = some s' ∧ ∀ j < len,
    s'.mem (f.e_entry + j) = card (start + j) := by
  have hpages := pages_le f
  obtain ⟨hS, hS'⟩ := sector_num_bounds f start len
  obtain ⟨s₁, he, hread, -, hmap⟩ :=
    loadPages_spec card f.pages f.e_entry (infoAt f start len).sector_num (start / SECTOR_SIZE) s
    hal (by omega) (by omega) h0 hhalf
  have hmapped : ∀ j < 4096 * f.pages, s₁.isMapped (f.e_entry + j) = true := by
    intro j hj
    refine isMapped_of_mem ?_
    have hk := hmap (j / 4096) (by omega)
    rwa [page_of_add hal]
  have hpn : NBYTES2PAGE (((infoAt f start len).memsize + SECTOR_SIZE) % 2 ^ 32) = f.pages := by
    rw [Nat.mod_eq_of_lt]
    · rfl
    · simp only [infoAt, SECTOR_SIZE]
      omega
  have hl : (SECTOR_SIZE * (infoAt f start len).sector_num - (infoAt f start len).offset) % 2 ^ 32 =
      512 * (infoAt f start len).sector_num - start % 512 := by
    rw [Nat.mod_eq_of_lt]
    · rfl
    · simp only [SECTOR_SIZE]
      omega
  refine ⟨⟨s₁.mapped, memcpyWithin s₁.mem f.e_entry (f.e_entry + start % 512)
    (512 * (infoAt f start len).sector_num - start % 512)⟩,
    ?_, fun j hj => ?_⟩
  · rw [load_task_img, hpn, hl]
    change (loadPages card f.pages f.e_entry (infoAt f start len).sector_num (start / SECTOR_SIZE) s).bind _ = _
    rw [he, Option.bind_some]
    refine my_memcpy_eq (fun j hj => hmapped j (by omega)) fun j hj => ?_
    have := hmapped (start % 512 + j) (by omega)
    rwa [← Nat.add_assoc] at this
  · change memcpyWithin s₁.mem _ _ _ _ = _
    rw [memcpyWithin_apply _ _ _ _ _ (Nat.le_add_right ..), if_pos (by omega), hread, if_pos (by omega), SECTOR_SIZE,
      Nat.add_sub_cancel_left, Nat.add_assoc f.e_entry, Nat.add_sub_cancel_left, ← Nat.add_assoc, Nat.div_add_mod]

end OsLab.Image
