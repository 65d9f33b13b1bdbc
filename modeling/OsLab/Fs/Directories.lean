import OsLab.Fs.Check

/-!
# Names and counts of directories

Two more facts about the directories of a volume. No directory has two entries of one name
(`Vol.UniqueNames`), so that the first match of `find_inode` is the only one. And the counters of a
directory's inode tell its entries: `nlink` is one more than their number, `.` and `..` aside,
and `size` is 32 times their number (`Vol.DirCounts`); `do_rmdir` relies on it when it takes
a directory with `nlink == 1` for an empty one.

Names stay unique as long as `do_ln` is not asked for a name that is there (`NewNames`). The counters
stay right as long as `do_ln`, which does not count, adds no entry, and `do_rmdir`, which counts
twice, removes none (`CountsKept`).
-/

namespace OsLab

open Lib ProgM Bytes

/-! ### The entries of one directory -/

/-- The entries of a directory. -/
abbrev Entries := ℕ → Dentry

namespace Entries

variable {d d' : Entries} {e : Dentry} {j : ℕ}

/-- No two used entries have one name. -/
def Unique (d : Entries) : Prop := ∀ j j', (d j).used = true → (d j').used = true → (d j).str = (d j').str → j = j'

/-- The used entries. -/
def used (d : Entries) : Finset ℕ := (Finset.range NUM_DENTRIES).filter fun j => (d j).used = true

/-- The used entries other than `.` and `..`. -/
def others (d : Entries) : Finset ℕ := d.used.filter fun j => (d j).str ≠ [46] ∧ (d j).str ≠ [46, 46]

theorem mem_used : j ∈ d.used ↔ j < NUM_DENTRIES ∧ (d j).used = true := by
  rw [used, Finset.mem_filter, Finset.mem_range]

theorem mem_others : j ∈ d.others ↔ (j < NUM_DENTRIES ∧ (d j).used = true) ∧
    (d j).str ≠ [46] ∧ (d j).str ≠ [46, 46] := by
  rw [others, Finset.mem_filter, mem_used]

-- As with `Names.refs`, only membership is used.
attribute [irreducible] used others

/-- A new name. -/
theorem Unique.put (h : d.Unique) (hd : ∀ y, d' y = if y = j then e else d y)
    (hnew : ∀ y, (d y).used = true → (d y).str ≠ e.str) : d'.Unique := by
  intro a b ha hb hs
  rw [hd] at ha hb hs
  rw [hd] at hs
  by_cases haj : a = j
  · by_cases hbj : b = j
    · rw [haj, hbj]
    · rw [if_neg hbj] at hb hs
      rw [if_pos haj] at hs
      exact absurd hs.symm (hnew b hb)
  · rw [if_neg haj] at ha hs
    by_cases hbj : b = j
    · rw [if_pos hbj] at hs
      exact absurd hs (hnew a ha)
    · rw [if_neg hbj] at hb hs
      exact h a b ha hb hs

/-- A name less. -/
theorem Unique.clear (h : d.Unique) (hd : ∀ y, d' y = if y = j then e else d y) (hu : e.used = false) : d'.Unique := by
  have hkeep : ∀ y, (d' y).used = true → y ≠ j := by
    rintro y hy rfl
    rw [hd, if_pos rfl, hu] at hy
    cases hy
  intro a b ha hb hs
  have haj := hkeep a ha
  have hbj := hkeep b hb
  rw [hd, if_neg haj] at ha
  rw [hd, if_neg hbj] at hb
  rw [hd, hd, if_neg haj, if_neg hbj] at hs
  exact h a b ha hb hs

/-- The counts with an entry more. -/
theorem card_put (hd : ∀ y, d' y = if y = j then e else d y) (hj : j < NUM_DENTRIES) (hfree : (d j).used = false)
    (hu : e.used = true) (h1 : e.str ≠ [46]) (h2 : e.str ≠ [46, 46]) :
    d'.used.card = d.used.card + 1 ∧ d'.others.card = d.others.card + 1 := by
  have hused : d'.used = insert j d.used := by
    ext y
    rw [mem_used, Finset.mem_insert, mem_used, hd]
    by_cases hy : y = j
    · simp [hy, hj, hu]
    · simp [hy]
  have hothers : d'.others = insert j d.others := by
    ext y
    rw [mem_others, Finset.mem_insert, mem_others, hd]
    by_cases hy : y = j
    · simp [hy, hj, hu, h1, h2]
    · simp [hy]
  rw [hused, hothers, Finset.card_insert_of_notMem (by rw [mem_used, hfree]; simp),
    Finset.card_insert_of_notMem (by rw [mem_others, hfree]; simp)]
  exact ⟨rfl, rfl⟩

/-- The counts with an entry less. -/
theorem card_clear (hd : ∀ y, d' y = if y = j then e else d y) (hj : j ∈ d.others) (hu : e.used = false) :
    d'.used.card + 1 = d.used.card ∧ d'.others.card + 1 = d.others.card := by
  have hju : j ∈ d.used := mem_used.mpr (mem_others.mp hj).1
  have hused : d'.used = d.used.erase j := by
    ext y
    rw [mem_used, Finset.mem_erase, mem_used, hd]
    by_cases hy : y = j
    · simp [hy, hu]
    · simp [hy]
  have hothers : d'.others = d.others.erase j := by
    ext y
    rw [mem_others, Finset.mem_erase, mem_others, hd]
    by_cases hy : y = j
    · simp [hy, hu]
    · simp [hy]
  rw [hused, hothers, Finset.card_erase_add_one hju, Finset.card_erase_add_one hj]
  exact ⟨rfl, rfl⟩

/-- A directory with `.` and `..` only. -/
theorem eq_of_used (hempty : ∀ y, 2 ≤ y → (d y).used = false) {y : ℕ} (hy : (d y).used = true) : y = 0 ∨ y = 1 := by
  by_contra hne
  rw [hempty y (by omega)] at hy
  cases hy

/-- Its names are unique. -/
theorem unique_new (h0 : (d 0).str = [46]) (h1 : (d 1).str = [46, 46]) (hempty : ∀ y, 2 ≤ y → (d y).used = false) :
    d.Unique := by
  intro a b ha hb hs
  obtain rfl | rfl := eq_of_used hempty ha <;> obtain rfl | rfl := eq_of_used hempty hb
  · rfl
  · rw [h0, h1] at hs
    cases hs
  · rw [h0, h1] at hs
    cases hs
  · rfl

/-- Its counts. -/
theorem card_new (h0 : (d 0).str = [46]) (h1 : (d 1).str = [46, 46]) (hempty : ∀ y, 2 ≤ y → (d y).used = false) :
    d.used.card = 2 ∧ d.others.card = 0 := by
  have hused : d.used = {0, 1} := by
    ext y
    rw [mem_used, Finset.mem_insert, Finset.mem_singleton]
    constructor
    · exact fun hy => eq_of_used hempty hy.2
    · rintro (rfl | rfl)
      · exact ⟨by decide, Names.used_of_str (by rw [h0]; simp)⟩
      · exact ⟨by decide, Names.used_of_str (by rw [h1]; simp)⟩
  have hothers : d.others = ∅ := by
    refine Finset.eq_empty_iff_forall_notMem.mpr fun y hy => ?_
    obtain ⟨⟨-, hy⟩, hdot, hdotdot⟩ := mem_others.mp hy
    obtain rfl | rfl := eq_of_used hempty hy
    · exact hdot h0
    · exact hdotdot h1
  rw [hused, hothers]
  exact ⟨rfl, rfl⟩

end Entries

/-! ### The directories of a volume -/

namespace Vol

/-- No directory has two entries of one name. -/
def UniqueNames (V : Vol) : Prop := ∀ i, V.IsDir i → Entries.Unique (V.entry (V.dirBlock i))

/-- The counters of the directories are right. -/
def DirCounts (V : Vol) : Prop := ∀ i, V.IsDir i →
  (V.inode i).nlink.toNat = 1 + (Entries.others (V.entry (V.dirBlock i))).card ∧
    (V.inode i).size.toNat = 32 * (Entries.used (V.entry (V.dirBlock i))).card

/-- `do_ln` is not asked for a name that is there. -/
def NewNames (V : Vol) : SysCall → Prop
  | .do_ln src dst => ∀ f w name, V.find src = some f → V.IsFile f → V.lnTarget dst = some (w, name) →
      V.look (V.dirBlock w) name = none
  | _ => True

/-- `do_ln` adds no entry and `do_rmdir` removes no directory. -/
def CountsKept (V : Vol) : SysCall → Prop
  | .do_ln src _ => ∀ f, V.find src = some f → ¬ V.IsFile f
  | .do_rmdir path => ∀ d, ¬ V.Rmdir path d
  | _ => True

variable {V V' : Vol} {call : SysCall}

theorem CountsKept.newNames (h : V.CountsKept call) : V.NewNames call := by
  cases call with
  | do_ln src dst => exact fun f w name hf hfile _ => absurd hfile (h f hf)
  | _ => trivial

/-- A name that is not found is no entry's. -/
theorem Inv.str_ne_of_look (h : V.Inv) {i : ℕ} (hi : V.IsDir i)
    {name : List UInt8} (hl : V.look (V.dirBlock i) name = none)
    {y : ℕ} (hu : (V.names.dent i y).used = true) : (V.names.dent i y).str ≠ name := by
  have hy := h.names.short ⟨hi, hu, rfl⟩
  rw [look, Option.map_eq_none_iff, List.find?_eq_none] at hl
  have := hl y (List.mem_range.mpr (Nat.lt_trans hy (by decide)))
  simp only [decide_eq_true_eq] at this
  exact this

/-- A new name is not `.` or `..`. -/
theorem Inv.ne_dots_of_look (h : V.Inv) {i : ℕ} (hi : V.IsDir i)
    {name : List UInt8} (hl : V.look (V.dirBlock i) name = none) :
    name ≠ [46] ∧ name ≠ [46, 46] := by
  have h0 := h.str_ne_of_look hi hl (h.names.link_dot hi).2.1
  have h1 := h.str_ne_of_look hi hl (h.names.link_dotdot hi).2.1
  rw [(h.names.dot hi).1] at h0
  rw [h.names.dotdot hi] at h1
  exact ⟨h0.symm, h1.symm⟩

/-- The entry with a name is the one found. -/
theorem UniqueNames.step (h : V.UniqueNames) (hI : V.Inv) {i j c : ℕ} {name : List UInt8} (hl : V.names.Link i j c)
    (hs : (V.names.dent i j).str = name) (hne : name ≠ []) : V.step i name = some c := by
  have hlook : V.look (V.dirBlock i) name = some (V.entry (V.dirBlock i) j) := by
    refine look_of_str (Nat.lt_trans (hI.names.short hl) (by decide)) hs fun y hy hys => ?_
    have hu : (V.entry (V.dirBlock i) y).used = true := Names.used_of_str (by rw [hys]; exact hne)
    have := h i hl.1 y j hu hl.2.1 (hys.trans hs.symm)
    omega
  rw [Vol.step, hlook]
  exact congrArg some hl.2.2

/-- Names stay unique in a directory when an entry of some directory changes. -/
theorem UniqueNames.put (h : V.UniqueNames) {i w j : ℕ} {e : Dentry} (hi : V.IsDir i)
    (hd : ∀ y, V'.names.dent i y = if i = w ∧ y = j then e else V.names.dent i y)
    (he : e.used = false ∨ ∀ y, (V.names.dent w y).used = true → (V.names.dent w y).str ≠ e.str) :
    Entries.Unique (V'.names.dent i) := by
  by_cases hiw : i = w
  · subst hiw
    have hd' : ∀ y, V'.names.dent i y = if y = j then e else V.names.dent i y := by simpa using hd
    obtain hu | hnew := he
    · exact (h i hi).clear hd' hu
    · exact (h i hi).put hd' hnew
  · have heq : V'.names.dent i = V.names.dent i := funext fun y => by rw [hd, if_neg fun hp => hiw hp.1]
    rw [heq]
    exact h i hi

/-- Names stay unique. -/
theorem UniqueNames.change (hI : V.Inv) (h : V.UniqueNames) (hn : V.NewNames call) (hc : Change V V' call) :
    V'.UniqueNames := by
  intro i hi
  show Entries.Unique (V'.names.dent i)
  cases hc with
  | same hb hs hd =>
    rw [IsDir, hs.kind] at hi
    have he : V'.names.dent i = V.names.dent i := funext fun y => hs.dent i y hi
    rw [he]
    exact h i hi
  | madeDir hm =>
    obtain ⟨c, j, e, -, -, hM, hstr, -⟩ := hm.names
    by_cases hic : i = c
    · -- The new directory has `.` and `..` only.
      subst hic
      exact Entries.unique_new hM.dot.1 hM.dotdot.1 fun y hy => (hM.empty y hy).1
    · have hi' : V.IsDir i := by rwa [IsDir, hM.kind, if_neg hic] at hi
      exact h.put hi' (fun y => hM.dent i y hi')
        (Or.inr fun y hy => by rw [hstr]; exact hI.str_ne_of_look hM.dir hm.fresh hy)
  | removedDir hd hm =>
    obtain ⟨j, e, hM⟩ := hm.names
    rw [IsDir, hM.kind] at hi
    split at hi
    · cases hi
    · next hid => exact h.put hi (fun y => hM.dent i y hi hid) (Or.inl hM.unused)
  | touched hm =>
    obtain ⟨c, j, e, -, -, hM, hstr⟩ := hm.names
    rw [IsDir, hM.kind_dir] at hi
    exact h.put hi (fun y => hM.dent i y hi)
      (Or.inr fun y hy => by rw [hstr]; exact hI.str_ne_of_look hM.dir hm.fresh hy)
  | @linked src dst f w name hf hfile hw hm =>
    obtain ⟨j, e, hM, hstr⟩ := hm.names
    rw [IsDir, hM.kind_dir] at hi
    exact h.put hi (fun y => hM.dent i y hi)
      (Or.inr fun y hy => by rw [hstr]; exact hI.str_ne_of_look hM.dir (hn f w name hf hfile hw) hy)
  | removed hf hfile hm =>
    obtain ⟨j, e, hM⟩ := hm.names
    rw [IsDir, hM.kind_dir] at hi
    exact h.put hi (fun y => hM.dent i y hi) (Or.inl hM.unused)

/-! ### The counters -/

/-- Counting up. -/
theorem count_succ {n : UInt16} {s : UInt32} {a b : ℕ} (hn : n.toNat = 1 + a)
    (hs : s.toNat = 32 * b) (ha : a ≤ 128) (hb : b ≤ 128) :
    (n + 1).toNat = 1 + (a + 1) ∧ (s + 32).toNat = 32 * (b + 1) := by
  rw [UInt16.toNat_add, UInt32.toNat_add, hn, hs,
    show (1 : UInt16).toNat = 1 from rfl, show (32 : UInt32).toNat = 32 from rfl]
  omega

/-- Counting down. -/
theorem count_pred {n : UInt16} {s : UInt32} {a b : ℕ} (hn : n.toNat = 1 + (a + 1)) (hs : s.toNat = 32 * (b + 1)) :
    (n - 1).toNat = 1 + a ∧ (s - 32).toNat = 32 * b := by
  have hn2 := n.toNat_lt
  have hs2 := s.toNat_lt
  rw [UInt16.toNat_sub, UInt32.toNat_sub, hn, hs,
    show (1 : UInt16).toNat = 1 from rfl, show (32 : UInt32).toNat = 32 from rfl]
  omega

theorem card_le (d : Entries) : d.others.card ≤ 128 ∧ d.used.card ≤ 128 := by
  have hsub : d.used ⊆ Finset.range 128 := fun y hy => Finset.mem_range.mpr (Entries.mem_used.mp hy).1
  have hsub' : d.others ⊆ Finset.range 128 := fun y hy => Finset.mem_range.mpr (Entries.mem_others.mp hy).1.1
  have h1 := Finset.card_le_card hsub
  have h2 := Finset.card_le_card hsub'
  rw [Finset.card_range] at h1 h2
  exact ⟨h2, h1⟩

/-- The counters stay right. -/
theorem DirCounts.change (hI : V.Inv) (hU : V.UniqueNames)
    (h : V.DirCounts) (hn : V.CountsKept call) (hc : Change V V' call) :
    V'.DirCounts := by
  intro i hi
  show (V'.inode i).nlink.toNat = 1 + (Entries.others (V'.names.dent i)).card ∧
    (V'.inode i).size.toNat = 32 * (Entries.used (V'.names.dent i)).card
  -- A directory other than the working directory is as it was.
  have hkeep : V.IsDir i → V'.names.dent i = V.names.dent i →
      (V'.inode i).nlink = (V.inode i).nlink ∧ (V'.inode i).size = (V.inode i).size →
      (V'.inode i).nlink.toNat = 1 + (Entries.others (V'.names.dent i)).card ∧
        (V'.inode i).size.toNat = 32 * (Entries.used (V'.names.dent i)).card := by
    intro hi' he hc'
    rw [he, hc'.1, hc'.2]
    exact h i hi'
  have hcwd := h V.cwd hI.cwd
  rw [← hI.wd] at hcwd
  obtain ⟨hle1, hle2⟩ := card_le (V.entry (V.dirBlock V.cwd))
  cases hc with
  | same hb hs hd =>
    rw [IsDir, hs.kind] at hi
    exact hkeep hi (funext fun y => hs.dent i y hi) (by rw [hd i hi]; exact ⟨rfl, rfl⟩)
  | madeDir hm =>
    obtain ⟨c, j, e, -, -, hM, hstr, hnl, hsz⟩ := hm.names
    by_cases hic : i = c
    · subst hic
      obtain ⟨hu, ho⟩ := Entries.card_new hM.dot.1 hM.dotdot.1 fun y hy => (hM.empty y hy).1
      rw [hu, ho, hnl, hsz]
      exact ⟨rfl, rfl⟩
    · have hi' : V.IsDir i := by rwa [IsDir, hM.kind, if_neg hic] at hi
      by_cases hiw : i = V.cwd
      · subst hiw
        obtain ⟨hd1, hd2⟩ := hI.ne_dots_of_look hi' hm.fresh
        have hd : ∀ y, V'.names.dent V.cwd y = if y = j then e else V.names.dent V.cwd y := by
          intro y
          simpa using hM.dent V.cwd y hi'
        obtain ⟨hu, ho⟩ :=
          Entries.card_put hd (Nat.lt_trans hM.lt (by decide)) hM.free hM.used (by rw [hstr]; exact hd1)
          (by rw [hstr]; exact hd2)
        rw [hu, ho, hm.dirs.wd.1, hm.dirs.wd.2]
        exact count_succ hcwd.1 hcwd.2 hle1 hle2
      · exact hkeep hi' (funext fun y => by rw [hM.dent i y hi', if_neg fun hp => hiw hp.1]) (hm.dirs.dir i hi' hi hiw)
  | removedDir hd hm => exact absurd hd (hn _)
  | touched hm =>
    obtain ⟨c, j, e, -, -, hM, hstr⟩ := hm.names
    have hi' : V.IsDir i := (hM.kind_dir i).mp hi
    by_cases hiw : i = V.cwd
    · subst hiw
      obtain ⟨hd1, hd2⟩ := hI.ne_dots_of_look hi' hm.fresh
      have hd : ∀ y, V'.names.dent V.cwd y = if y = j then e else V.names.dent V.cwd y := by
        intro y
        simpa using hM.dent V.cwd y hi'
      obtain ⟨hu, ho⟩ := Entries.card_put hd (Nat.lt_trans hM.lt (by decide)) hM.free hM.used (by rw [hstr]; exact hd1)
        (by rw [hstr]; exact hd2)
      rw [hu, ho, hm.dirs.wd.1, hm.dirs.wd.2]
      exact count_succ hcwd.1 hcwd.2 hle1 hle2
    · exact hkeep hi' (funext fun y => by rw [hM.dent i y hi', if_neg fun hp => hiw hp.1]) (hm.dirs.dir i hi' hi hiw)
  | linked hf hfile hw hm => exact absurd hfile (hn _ hf)
  | removed hf hfile hm =>
    obtain ⟨j, e, hM⟩ := hm.names
    have hi' : V.IsDir i := (hM.kind_dir i).mp hi
    by_cases hiw : i = V.cwd
    · subst hiw
      have hd : ∀ y, V'.names.dent V.cwd y = if y = j then e else V.names.dent V.cwd y := by
        intro y
        simpa using hM.dent V.cwd y hi'
      -- The entry is another than `.` and `..`, whose names it does not have.
      have hj2 := hI.names.two_le hM.link hfile
      have hmem : j ∈ Entries.others (V.names.dent V.cwd) := by
        have hlt := hI.names.short hM.link
        refine Entries.mem_others.mpr ⟨⟨Nat.lt_trans hlt (by decide), hM.link.2.1⟩, fun hs => ?_, fun hs => ?_⟩
        · have := hU V.cwd hI.cwd j 0 hM.link.2.1 (hI.names.link_dot hI.cwd).2.1 (hs.trans (hI.names.dot hI.cwd).1.symm)
          omega
        · have := hU V.cwd hI.cwd j 1 hM.link.2.1 (hI.names.link_dotdot hI.cwd).2.1
            (hs.trans (hI.names.dotdot hI.cwd).symm)
          omega
      obtain ⟨hu, ho⟩ := Entries.card_clear hd hmem hM.unused
      rw [hm.dirs.wd.1, hm.dirs.wd.2]
      refine count_pred ?_ ?_
      · rw [ho]
        exact hcwd.1
      · rw [hu]
        exact hcwd.2
    · exact hkeep hi' (funext fun y => by rw [hM.dent i y hi', if_neg fun hp => hiw hp.1]) (hm.dirs.dir i hi' hi hiw)

/-! ### The first directories -/

/-- The entries of a directory of the fresh tree, as one put into an empty directory. -/
theorem Fresh.entries (h : V.Fresh) {i c : ℕ} {name : List UInt8} (hi : V.IsDir i) (hs : V.names.Sole i name c)
    (h0 : name ≠ []) (h1 : name ≠ [46]) (h2 : name ≠ [46, 46]) :
    Entries.Unique (V.names.dent i) ∧ (Entries.used (V.names.dent i)).card = 3 ∧
      (Entries.others (V.names.dent i)).card = 1 := by
  obtain ⟨j, hj, hj', hstr, -, hu⟩ := hs
  -- The directory before the entry.
  let d : Entries := fun y => if y = j then Dentry.zero else V.names.dent i y
  have hd : ∀ y, V.names.dent i y = if y = j then V.names.dent i j else d y := by
    intro y
    by_cases hy : y = j <;> simp [d, hy]
  have hd0 : (d 0).str = [46] := by
    have : d 0 = V.names.dent i 0 := if_neg (by omega)
    rw [this]
    exact (h.inv.names.dot hi).1
  have hd1 : (d 1).str = [46, 46] := by
    have : d 1 = V.names.dent i 1 := if_neg (by omega)
    rw [this]
    exact h.inv.names.dotdot hi
  have hz : Dentry.zero.used = false := by decide
  have hempty : ∀ y, 2 ≤ y → (d y).used = false := by
    intro y hy
    by_cases hyj : y = j
    · simp [d, hyj, hz]
    · simp only [d, if_neg hyj]
      exact hu y hy hyj
  have hused : (V.names.dent i j).used = true := Names.used_of_str (by rw [hstr]; exact h0)
  obtain ⟨hcu, hco⟩ := Entries.card_new hd0 hd1 hempty
  obtain ⟨hcu', hco'⟩ := Entries.card_put hd (Nat.lt_trans hj' (by decide)) (hempty j hj) hused (by rw [hstr]; exact h1)
    (by rw [hstr]; exact h2)
  refine ⟨(Entries.unique_new hd0 hd1 hempty).put hd fun y hy => ?_, by rw [hcu', hcu], by rw [hco', hco]⟩
  rw [hstr]
  obtain rfl | rfl := Entries.eq_of_used hempty hy
  · rw [hd0]
    exact h1.symm
  · rw [hd1]
    exact h2.symm

/-- The sole entry of a directory of the fresh tree. -/
theorem Fresh.sole' (h : V.Fresh) {i : ℕ} (hi : V.IsDir i) :
    ∃ name c, V.names.Sole i name c ∧ name ≠ [] ∧ name ≠ [46] ∧ name ≠ [46, 46] := by
  obtain hi2 | rfl : i < 2 ∨ i = 2 := by
    have := (h.isDir_iff i).mp hi
    omega
  · refine ⟨_, _, h.sole i hi2, ?_⟩
    rw [procSys]
    split <;> decide
  · exact ⟨_, _, h.vm, by decide, by decide, by decide⟩

theorem Fresh.uniqueNames (h : V.Fresh) : V.UniqueNames := by
  intro i hi
  obtain ⟨name, c, hs, h0, h1, h2⟩ := h.sole' hi
  exact (h.entries hi hs h0 h1 h2).1

theorem Fresh.dirCounts (h : V.Fresh) : V.DirCounts := by
  intro i hi
  obtain ⟨name, c, hs, h0, h1, h2⟩ := h.sole' hi
  obtain ⟨-, hu, ho⟩ := h.entries hi hs h0 h1 h2
  obtain ⟨hn, hz⟩ := h.count i ((h.isDir_iff i).mp hi)
  show (V.inode i).nlink.toNat = 1 + (Entries.others (V.names.dent i)).card ∧
    (V.inode i).size.toNat = 32 * (Entries.used (V.names.dent i)).card
  rw [hu, ho, hn, hz]
  exact ⟨rfl, rfl⟩

end Vol

/-! ### What `do_rmdir` answers -/

/-- Whatever `x` returns meets `P`. -/
def Answers {α : Type} (x : FsM α) (P : α → Prop) : Prop := ∀ (s s' : Sys) (a : α), exec cached x s = some (a, s') → P a

section Answers

variable {α β : Type} {P : β → Prop}

theorem Answers.pure {b : β} (h : P b) : Answers (pure b) P := by
  intro s s' a ha
  obtain ⟨rfl, -⟩ := Prod.mk.inj (Option.some.inj ha)
  exact h

theorem Answers.bind {x : FsM α} {f : α → FsM β} (h : ∀ a, Answers (f a) P) : Answers (x >>= f) P := by
  intro s s' b hb
  rw [exec_bind] at hb
  obtain ⟨⟨a, t⟩, -, hb⟩ := Option.bind_eq_some_iff.mp hb
  exact h a t s' b hb

end Answers

/-- `do_rmdir` returns 0 exactly for a path to a directory with `nlink == 1`. -/
theorem do_rmdir_answers {s s' : Sys} (h : Sound s) {path : CString} (hp : s.vol.PathOk path) {r : ℤ}
    (he : exec cached (Fs.do_rmdir path) s = some (r, s')) : r = 0 ↔ ∃ d, s.vol.Rmdir path d := by
  obtain ⟨p, s₁, hfind, -, hF⟩ := (Vol.Inv.find_inode (V := s.view) h.inv h.tidy hp).cached h.cache
  rw [Fs.do_rmdir, exec_bind, hfind, Option.bind_some] at he
  dsimp only at he
  have hno : ∀ {P : Prop}, ¬ P → ∀ {t : Sys}, exec cached (pure (-1) : FsM ℤ) t = some (r, s') → (r = 0 ↔ P) := by
    intro P hP t ht
    have hr : (-1 : ℤ) = r := congrArg Prod.fst (Option.some.inj ht)
    exact ⟨fun h0 => by omega, fun hp => absurd hp hP⟩
  split at he
  · next hdots =>
    refine hno ?_ he
    rintro ⟨d, hd⟩
    exact hdots.elim hd.dot hd.dotdot
  next hdots =>
  cases hf : s.vol.find path with
  | none =>
    rw [hF.none hf] at he
    refine hno ?_ he
    rintro ⟨d, hd⟩
    cases hf.symm.trans hd.find
  | some d =>
    have hunique : (∃ d', s.vol.Rmdir path d') ↔ s.vol.Rmdir path d := by
      constructor
      · rintro ⟨d', hd'⟩
        obtain rfl : d = d' := Option.some.inj (hf.symm.trans hd'.find)
        exact hd'
      · exact fun hd => ⟨d, hd⟩
    rw [hunique]
    obtain ⟨⟨kd, hkd⟩, hptr⟩ := hF.some d hf
    obtain ⟨q, rfl, hderef⟩ : ∃ q, p = some q ∧ exec cached (Fs.deref q) s₁ = some (s.vol.inode d, s₁) := by
      have hwd : s₁.mem.wd_inode = s₁.view.wd := rfl
      obtain ⟨-, rfl, rfl⟩ | ⟨-, rfl, hib⟩ := hptr
      · refine ⟨_, rfl, ?_⟩
        have : s₁.mem.wd_inode = s.vol.inode s.view.cwd := by rw [hwd, hF.vol]; exact h.inv.wd
        rw [← this]
        rfl
      · refine ⟨_, rfl, ?_⟩
        have hlt : d % 8 < 8 := by omega
        have : getInode (s₁.mem.buf .inode_buffer) (64 * (d % 8)) = s.vol.inode d := by
          have hbuf : s₁.view.ibuf (d % 8) = getInode (s₁.mem.buf .inode_buffer) (64 * (d % 8)) := if_pos hlt
          rw [← hbuf, hib, Vol.loadInodes_mod]
          rfl
        rw [← this]
        rfl
    dsimp only at he
    rw [exec_bind, hderef, Option.bind_some] at he
    dsimp only at he
    split at he
    · next htype => exact hno (fun hd => htype (Vol.isDir_iff.mp hd.dir).2) he
    next htype =>
    split at he
    · next hn => exact hno (fun hd => hn hd.nlink) he
    next hn =>
    have hzero : r = 0 := by
      refine Answers.bind (P := fun r => r = 0) (fun _ => ?_) _ _ _ he
      exact .bind fun _ => .bind fun _ => .bind fun _ => .bind fun _ => .bind fun _ => .bind fun _ => .bind fun _ =>
        .bind fun _ => .pure rfl
    have hdir : s.vol.IsDir d := Vol.isDir_iff.mpr ⟨Vol.imap_of_kind hkd, not_not.mp htype⟩
    exact iff_of_true hzero ⟨fun hd => hdots (Or.inl hd), fun hd => hdots (Or.inr hd), hf, hdir, not_not.mp hn⟩

/-! ### Runs -/

variable {s : Sys}

/-- Names are unique in every state of a run in which `do_ln` is not asked for a name that is
there. -/
theorem uniqueNames_of_reach (h : Reach (fun V call => call.Ok V ∧ V.NewNames call) s) : s.vol.UniqueNames := by
  obtain ⟨s₀, hm, hr⟩ := h
  obtain ⟨hsound, hfresh, -⟩ := hm.sound
  exact (Run.keeps (fun _ _ hp => hp.1) (fun V V' call r hI hp he hU => hU.change hI hp.2 (he.change hI)) hsound
    hfresh.uniqueNames hr).2

/-- `do_ln("proc/sys/vm", "y")`, `do_rm("y")` and `do_touch("x")` right after `do_mkfs`. -/
theorem uniqueNames_session : ∃ s₀ s₁ s₂ s₃ : Sys, Made s₀ ∧
    exec cached (Fs.do_ln (.ofString "proc/sys/vm") (.ofString "y")) s₀ = some (0, s₁) ∧
    exec cached (Fs.do_rm (.ofString "y")) s₁ = some (0, s₂) ∧
    exec cached (Fs.do_touch (.ofString "x")) s₂ = some (0, s₃) ∧
    s₁.vol.UniqueNames ∧ s₃.vol.UniqueNames := by
  obtain ⟨s₀, hs⟩ := made_start
  obtain ⟨s₁, s₂, s₃, h₁, h₂, h₃⟩ := hs.session
  have hy : Vol.Plain (.ofString "y") := ⟨by decide, by decide, by decide, by decide, by decide⟩
  have hnew : s₀.vol.NewNames (.do_ln (.ofString "proc/sys/vm") (.ofString "y")) := by
    intro f w name _ _ htarget
    obtain ⟨rfl, rfl⟩ := Prod.mk.inj (Option.some.inj ((hy.lnTarget s₀.vol).symm.trans htarget))
    exact hs.few.look (by decide) hy.ne hy.dot hy.dotdot
  have hr₁ : Reach (fun V call => call.Ok V ∧ V.NewNames call) s₁ := (hs.reach _).call ⟨h₁.ok, hnew⟩ h₁.exec
  have hr := (hr₁.call ⟨h₂.ok, trivial⟩ h₂.exec).call ⟨h₃.ok, trivial⟩ h₃.exec
  exact ⟨s₀, s₁, s₂, s₃, hs, h₁.exec, h₂.exec, h₃.exec, uniqueNames_of_reach hr₁, uniqueNames_of_reach hr⟩

/-- The run lemma for the counters. -/
theorem Reach.dirCounts (h : Reach (fun V call => call.Ok V ∧ V.CountsKept call) s) :
    Sound s ∧ s.vol.UniqueNames ∧ s.vol.DirCounts := by
  obtain ⟨s₀, hm, hr⟩ := h
  obtain ⟨hsound, hfresh, -⟩ := hm.sound
  exact Run.keeps (I := fun V => V.UniqueNames ∧ V.DirCounts) (fun _ _ hp => hp.1)
    (fun V V' call r hI hp he hU =>
      ⟨hU.1.change hI hp.2.newNames (he.change hI), hU.2.change hI hU.1 hp.2 (he.change hI)⟩)
    hsound ⟨hfresh.uniqueNames, hfresh.dirCounts⟩ hr

/-- The counters of directories are right in every state of a run in which `do_ln` adds no entry
and `do_rmdir` removes none; and there `do_rmdir` returns 0 for empty directories only, and refuses
none of them as not empty. -/
theorem dirCounts_of_reach (h : Reach (fun V call => call.Ok V ∧ V.CountsKept call) s) : s.vol.DirCounts ∧
    ∀ path r s', s.vol.PathOk path → exec cached (Fs.do_rmdir path) s = some (r, s') →
      (r = 0 → ∃ d, s.vol.find path = some d ∧ s.vol.IsDir d ∧ Entries.others (s.vol.entry (s.vol.dirBlock d)) = ∅) ∧
      ∀ d, s.vol.find path = some d → s.vol.IsDir d → Entries.others (s.vol.entry (s.vol.dirBlock d)) = ∅ →
        path.chars ≠ [46] → path.chars ≠ [46, 46] → r = 0 := by
  obtain ⟨hsound, -, hcounts⟩ := h.dirCounts
  refine ⟨hcounts, fun path r s' hp he => ?_⟩
  -- The test `nlink == 1` tells the empty directories.
  have hone : ∀ d, s.vol.IsDir d →
      ((s.vol.inode d).nlink = 1 ↔ Entries.others (s.vol.entry (s.vol.dirBlock d)) = ∅) := by
    intro d hd
    have hn := (hcounts d hd).1
    rw [← Finset.card_eq_zero]
    constructor
    · intro h1
      rw [h1, show (1 : UInt16).toNat = 1 from rfl] at hn
      omega
    · intro h0
      rw [h0] at hn
      exact UInt16.toNat_inj.mp hn
  rw [do_rmdir_answers hsound hp he]
  constructor
  · rintro ⟨d, hd⟩
    exact ⟨d, hd.find, hd.dir, (hone d hd.dir).mp hd.nlink⟩
  · intro d hf hd hempty h1 h2
    exact ⟨d, h1, h2, hf, hd, (hone d hd).mpr hempty⟩

/-- After `do_mkdir("d")`, `do_touch("x")` and `do_rm("x")` right after `do_mkfs`, `do_rmdir` removes `d`,
and refuses the root directory, which is what the empty path stands for. -/
theorem dirCounts_session : ∃ s₀ s₁ s₂ s₃ s₄ s₅ : Sys,
    Made s₀ ∧ exec cached (Fs.do_mkdir (.ofString "d")) s₀ = some (0, s₁) ∧
    exec cached (Fs.do_touch (.ofString "x")) s₁ = some (0, s₂) ∧
    exec cached (Fs.do_rm (.ofString "x")) s₂ = some (0, s₃) ∧
    s₃.vol.DirCounts ∧ exec cached (Fs.do_rmdir (.ofString "d")) s₃ = some (0, s₄) ∧
    exec cached (Fs.do_rmdir (.ofString "")) s₃ = some (-1, s₅) := by
  obtain ⟨s₀, hs⟩ := made_start
  obtain ⟨s₁, s₂, s₃, j, i, hi, h₁, h₂, h₃, hE, hcwd⟩ := hs.session_dir
  have hr : Reach (fun V call => call.Ok V ∧ V.CountsKept call) s₃ :=
    (((hs.reach _).call ⟨h₁.ok, trivial⟩ h₁.exec).call ⟨h₂.ok, trivial⟩ h₂.exec).call ⟨h₃.ok, trivial⟩ h₃.exec
  obtain ⟨hsound, hU, -⟩ := hr.dirCounts
  obtain ⟨hcounts, hrmdir⟩ := dirCounts_of_reach hr
  have hd : Vol.Plain (.ofString "d") := ⟨by decide, by decide, by decide, by decide, by decide⟩
  have hfind : s₃.vol.find (.ofString "d") = some i := by
    rw [hd.find, hcwd]
    exact hU.step hsound.inv hE.link hE.str hd.ne
  -- The directory `d` is removed.
  have hok : SysCall.Ok s₃.vol (.do_rmdir (.ofString "d")) := by
    refine ⟨hd.pathOk _, fun i' hi' => ?_⟩
    obtain rfl : i = i' := Option.some.inj (hfind.symm.trans hi'.find)
    rw [hcwd]
    have hsize : (64 : UInt32) ≠ 0 := by decide
    exact ⟨⟨j, hsound.inv.names.short hE.link, hE.two_le, hE.link.2.2⟩,
      Nat.div_eq_of_lt hi, hE.ne, fun y _ hy => hE.bare y hy,
      by rw [hE.size]; exact hsize⟩
  obtain ⟨r, s₄, he₄, -⟩ := hsound.call hok
  obtain ⟨-, hothers⟩ := Entries.card_new (hsound.inv.names.dot hE.dir).1 (hsound.inv.names.dotdot hE.dir) hE.bare
  obtain rfl : r = 0 := (hrmdir (.ofString "d") r s₄ (hd.pathOk _) he₄).2
    i hfind hE.dir (Finset.card_eq_zero.mp hothers) hd.dot hd.dotdot
  -- The root has an entry for it.
  have hnil : (CString.ofString "").chars = [] := by decide
  have hroot : s₃.vol.find (.ofString "") = some 0 := by rw [Vol.find, if_pos hnil, hcwd]
  have hpath : s₃.vol.PathOk (.ofString "") := Or.inl hnil
  have hmem : j ∈ Entries.others (s₃.vol.entry (s₃.vol.dirBlock 0)) := by
    refine Entries.mem_others.mpr ⟨⟨Nat.lt_trans (hsound.inv.names.short hE.link) (by decide), hE.link.2.1⟩,
      fun hs => ?_, fun hs => ?_⟩
    · exact hd.dot (hE.str.symm.trans hs)
    · exact hd.dotdot (hE.str.symm.trans hs)
  have hno : ∀ r s', exec cached (Fs.do_rmdir (.ofString "")) s₃ = some (r, s') → r ≠ 0 := by
    intro r s' he hr0
    obtain ⟨i', hi', -, hempty⟩ := (hrmdir _ r s' hpath he).1 hr0
    obtain rfl : 0 = i' := Option.some.inj (hroot.symm.trans hi')
    rw [hempty] at hmem
    exact absurd hmem (Finset.notMem_empty j)
  have hok' : SysCall.Ok s₃.vol (.do_rmdir (.ofString "")) := by
    refine ⟨hpath, fun i' hi' => ?_⟩
    obtain rfl : 0 = i' := Option.some.inj (hroot.symm.trans hi'.find)
    have hcount := (hcounts 0 hi'.dir).1
    rw [hi'.nlink, show (1 : UInt16).toNat = 1 from rfl] at hcount
    have := Finset.card_pos.mpr ⟨j, hmem⟩
    omega
  obtain ⟨r, s₅, he₅, -, ⟨rfl, -⟩ | ⟨rfl, -⟩⟩ := hsound.call hok'
  · exact ⟨s₀, s₁, s₂, s₃, s₄, s₅, hs, h₁.exec, h₂.exec, h₃.exec, hcounts, he₄, he₅⟩
  · exact absurd rfl (hno 0 s₅ he₅)

/-! ### Links that are neither counted nor checked -/

/-- `do_ln("proc/sys/vm", "x")` right after `do_mkfs` adds an entry to the root directory that its
counters do not tell. -/
theorem dirCounts_ln_fails : ¬ ∀ s, Reach (fun _ _ => True) s → s.vol.DirCounts := by
  intro hall
  obtain ⟨s, hs⟩ := made_start
  obtain ⟨hsound, hfresh, hcwd, -, -⟩ := hs.sound
  obtain ⟨s', hln, hl, -⟩ := hs.link (.ofString "x") ⟨by decide, by decide, by decide, by decide, by decide⟩
  have hr := hs.call hln.exec
  obtain ⟨j, e, hE, hstr⟩ := hl.names
  have h0 := hfresh.dir 0 (by decide)
  have hd : ∀ y, s'.vol.names.dent 0 y = if y = j then e else s.vol.names.dent 0 y := by
    intro y
    simpa using hE.dent 0 y h0
  obtain ⟨-, ho⟩ := Entries.card_put hd (Nat.lt_trans hE.lt (by decide)) hE.free hE.used (by rw [hstr]; decide)
    (by rw [hstr]; decide)
  have hbefore : (s.vol.inode 0).nlink.toNat = 1 + (Entries.others (s.vol.names.dent 0)).card :=
    (hfresh.dirCounts 0 h0).1
  have hafter : (s'.vol.inode 0).nlink.toNat = 1 + (Entries.others (s'.vol.names.dent 0)).card :=
    (hall s' hr 0 ((hE.kind_dir 0).mpr h0)).1
  rw [hl.dirs 0 h0] at hafter
  omega

/-- `do_ln("proc/sys/vm", "proc")` right after `do_mkfs` gives the root directory a second `proc`. -/
theorem uniqueNames_ln_fails : ¬ ∀ s, Reach (fun _ _ => True) s → s.vol.UniqueNames := by
  intro hall
  obtain ⟨s, hs⟩ := made_start
  obtain ⟨hsound, hfresh, hcwd, -, -⟩ := hs.sound
  obtain ⟨s', hln, hl, -⟩ := hs.link (.ofString "proc") ⟨by decide, by decide, by decide, by decide, by decide⟩
  have hr := hs.call hln.exec
  obtain ⟨j, e, hE, hstr⟩ := hl.names
  have h0 := hfresh.dir 0 (by decide)
  obtain ⟨j₀, hj₀, -, hs₀, -, -⟩ := hfresh.sole 0 (by decide)
  have hu₀ : (s.vol.names.dent 0 j₀).used = true := Names.used_of_str (by rw [hs₀]; decide)
  have hne : j₀ ≠ j := by
    rintro rfl
    rw [hE.free] at hu₀
    cases hu₀
  have hold : s'.vol.names.dent 0 j₀ = s.vol.names.dent 0 j₀ := by rw [hE.dent 0 j₀ h0, if_neg fun hp => hne hp.2]
  have hnew : s'.vol.names.dent 0 j = e := by rw [hE.dent 0 j h0, if_pos ⟨rfl, rfl⟩]
  refine hne (hall s' hr 0 ((hE.kind_dir 0).mpr h0) j₀ j ?_ ?_ ?_)
  · exact (congrArg Dentry.used hold).trans hu₀
  · exact (congrArg Dentry.used hnew).trans hE.used
  · exact (congrArg Dentry.str hold).trans (hs₀.trans (hstr.symm.trans (congrArg Dentry.str hnew).symm))

end OsLab
