import OsLab.Fs.Directories

/-!
# Removing the name that was given

A caller of `do_rm` names what is to go: the path leads from directory to directory to a last
name, and it is the entry of that name that has to go, and no other (`RemovesName`).

The code follows the path to an inode and then looks for the inode's number in the working
directory. So it removes the right name exactly when the last name is one of the working directory,
and the first one there of its inode (`RmsFirst`).
-/

namespace OsLab

open Lib ProgM Bytes

/-! ### Looking up a name, entry by entry -/

namespace Vol

variable {V V' : Vol} {i y : ℕ} {name : List UInt8}

/-- The first entry of directory `i` with a name. -/
def nameSlot (V : Vol) (i : ℕ) (name : List UInt8) : Option ℕ :=
  (List.range NUM_DENTRIES).find? fun j => (V.names.dent i j).str = name

theorem step_eq (V : Vol) (i : ℕ) (name : List UInt8) : V.step i name = (V.nameSlot i name).map (V.names.child i) := by
  rw [step, look, Option.map_map]
  rfl

theorem nameSlot_eq_some : V.nameSlot i name = some y ↔
    y < NUM_DENTRIES ∧ (V.names.dent i y).str = name ∧ ∀ z < y, (V.names.dent i z).str ≠ name := by
  rw [nameSlot, List.find?_range_eq_some]
  simp [and_left_comm]

theorem nameSlot_eq_none : V.nameSlot i name = none ↔ ∀ z < NUM_DENTRIES, (V.names.dent i z).str ≠ name := by
  rw [nameSlot, List.find?_eq_none]
  simp

/-- The empty name stands for the root, in every directory. -/
theorem step_nil (hv : ∀ y, (V.names.dent i y).used = false → (V.names.dent i y).ino = 0) : V.step i [] = some 0 := by
  rw [step_eq]
  cases hs : V.nameSlot i [] with
  | none =>
    have h16 := nameSlot_eq_none.mp hs 16 (by decide)
    have hz : V.names.dent i 16 = Dentry.zero := V.entry_of_le _ (le_refl 16)
    rw [hz] at h16
    exact absurd (by decide) h16
  | some y =>
    obtain ⟨-, hstr, -⟩ := nameSlot_eq_some.mp hs
    have : (V.names.dent i y).ino = 0 := hv y ((Dentry.used_eq_false_iff _).mpr hstr)
    rw [Option.map_some, Names.child, this]
    rfl

end Vol

/-! ### Removing a name -/

/-- One name less: entry `name` of directory `w`, which was one of file `f`. -/
structure Unlinked (V V' : Vol) (w : ℕ) (name : List UInt8) (f : ℕ) : Prop where
  /-- Every other path still leads where it led, from wherever. -/
  others : ∀ i ns n u c, V.walk i ns = some u → ¬ (u = w ∧ n = name) → V.walk i (ns ++ [n]) = some c →
    V'.walk i (ns ++ [n]) = some c
  nlink : (V'.inode f).nlink.toNat + 1 = (V.inode f).nlink.toNat
  /-- The inode is free when no entry is left, and only then. -/
  inode : V'.imap f = false ↔ ¬ ∃ i j, V'.names.Link i j f
  /-- So are its blocks. -/
  blocks : ∀ b < NUM_BLOCKS, V.Owns f b → (V'.bmap b = false ↔ ¬ ∃ i j, V'.names.Link i j f)

/-- The path led to a file, and it is that name which is gone. -/
def RemovesName (V V' : Vol) (path : CString) : Prop :=
  ∃ ns name w f, Vol.components path = some (ns ++ [name]) ∧
    V.walk V.cwd ns = some w ∧ V.walk V.cwd (ns ++ [name]) = some f ∧
    V'.walk V'.cwd (ns ++ [name]) = none ∧ Unlinked V V' w name f

/-- The last name of the path is one of the working directory, it is there once, and it is the
first one there of its inode. -/
def Vol.RmsFirst (V : Vol) (path : CString) : Prop :=
  ∃ ns name f, Vol.components path = some (ns ++ [name]) ∧ V.walk V.cwd ns = some V.cwd ∧ V.step V.cwd name = some f ∧
    ∀ y < NUM_DENTRIES, (V.names.dent V.cwd y).str = name → V.slotOf (V.inode f).ino = some y

theorem Dentry.str_cleared (e : Dentry) : e.cleared.str = [] := (Dentry.used_eq_false_iff _).mp e.used_cleared

/-- The entry of the working directory for a file's number is one of the file. -/
theorem Vol.Inv.link_file {V : Vol} (h : V.Inv) {f j : ℕ} (hf : V.IsFile f) (hj : V.slotOf (V.inode f).ino = some j) :
    V.names.Link V.cwd j f :=
  h.link_of_slotOf (h.ino (Vol.imap_of_kind hf)) (h.ne_of_isFile hf).1 hj

namespace Rms

variable {V V' : Vol} {f : ℕ}

/-- Directories stay directories. -/
theorem isDir (hR : Rms V V' f) (hf : V.IsFile f) {x : ℕ} (hx : V.IsDir x) : V'.IsDir x := by
  have hxf : x ≠ f := by
    rintro rfl
    rw [Vol.IsFile, hx] at hf
    cases hf
  rw [Vol.IsDir, hR.kind, if_neg fun c => hxf c.1]
  exact hx

/-- A name is looked up as before, unless its entry is the one that is cleared. -/
theorem step (hR : Rms V V' f) (h : V.Inv) {x y : ℕ} {name : List UInt8}
    (hx : V.IsDir x) (hs : V.nameSlot x name = some y)
    (hne : ¬ (x = V.cwd ∧ V.slotOf (V.inode f).ino = some y)) : V'.step x name = V.step x name := by
  by_cases hnil : name = []
  · subst hnil
    rw [Vol.step_nil fun z hz => h.names.vacant hx hz, Vol.step_nil fun z hz => ?_]
    rw [hR.dent x z hx] at hz ⊢
    split
    · rfl
    · next hn =>
      rw [if_neg hn] at hz
      exact h.names.vacant hx hz
  obtain ⟨hy, hstr, hfirst⟩ := Vol.nameSlot_eq_some.mp hs
  have hkeep : V'.names.dent x y = V.names.dent x y := by rw [hR.dent x y hx, if_neg hne]
  have hs' : V'.nameSlot x name = some y := by
    refine Vol.nameSlot_eq_some.mpr ⟨hy, by rw [hkeep, hstr], fun z hz => ?_⟩
    rw [hR.dent x z hx]
    split
    · rw [Dentry.str_cleared]
      exact Ne.symm hnil
    · exact hfirst z hz
  rw [Vol.step_eq, Vol.step_eq, hs, hs', Option.map_some, Option.map_some, Names.child, Names.child, hkeep]

/-- A name that stands for a directory is looked up as before. -/
theorem step_dir (hR : Rms V V' f) (h : V.Inv) (hf : V.IsFile f) {x c : ℕ} {name : List UInt8} (hx : V.IsDir x)
    (hs : V.step x name = some c) (hc : V.IsDir c) : V'.step x name = some c := by
  rw [← hs]
  rw [Vol.step_eq] at hs
  obtain ⟨y, hy, rfl⟩ := Option.map_eq_some_iff.mp hs
  refine hR.step h hx hy ?_
  rintro ⟨rfl, hj⟩
  rw [(h.link_file hf hj).2.2] at hc
  rw [Vol.IsFile, hc] at hf
  cases hf

/-- Walks from directory to directory are as before. -/
theorem walk_dir (hR : Rms V V' f) (h : V.Inv) (hf : V.IsFile f)
    {i u : ℕ} {ns : List (List UInt8)} (hw : V.walk i ns = some u)
    (hu : V.IsDir u) : V'.walk i ns = some u := by
  induction ns generalizing i with
  | nil => exact hw
  | cons n ns ih =>
    simp only [Vol.walk] at hw ⊢
    split at hw
    · next hi =>
      obtain ⟨c, hc, hw⟩ := Option.bind_eq_some_iff.mp hw
      have hcd : V.IsDir c := by
        cases ns with
        | nil => exact Option.some.inj hw ▸ hu
        | cons m ms =>
          simp only [Vol.walk] at hw
          split at hw
          · assumption
          · cases hw
      rw [if_pos (hR.isDir hf hi), hR.step_dir h hf hi hc hcd]
      exact ih hw
    · cases hw

/-- What is left of a file, when the working directory had an entry for it. -/
theorem unlinked (hR : Rms V V' f) (h : V.Inv) (hf : V.IsFile f) {y : ℕ} (hy : V.slotOf (V.inode f).ino = some y)
    {name : List UInt8} (hstr : (V.names.dent V.cwd y).str = name) : Unlinked V V' V.cwd name f := by
  have hl := h.link_file hf hy
  have hrm := hR.removed h hf ⟨y, h.names.short hl, hl.2.2⟩
  obtain ⟨j, e, hN⟩ := hrm.names
  have hinv := hN.inv h.names
  have himap : V'.imap f = false ↔ ¬ ∃ i j, V'.names.Link i j f := by
    constructor
    · rintro hfree ⟨i, j, hl'⟩
      obtain ⟨k, hk⟩ := hinv.kind_of_link hl'
      rw [Vol.imap_of_kind hk] at hfree
      cases hfree
    · intro hno
      rw [← Vol.kind_eq_none, hR.kind]
      by_contra hk
      have hfile : V'.IsFile f := by
        rw [Vol.IsFile, hR.kind]
        split at hk
        · exact absurd rfl hk
        · next hc => rw [if_neg hc]; exact hf
      obtain ⟨⟨i, j⟩, hij⟩ := hinv.refs_nonempty hfile
      exact hno ⟨i, j, hinv.mem_refs.mp hij⟩
  have hlast : V'.imap f = false ↔ (V.inode f).nlink = 1 := by
    rw [← Vol.kind_eq_none, hR.kind]
    by_cases h1 : (V.inode f).nlink = 1
    · simp [h1]
    · rw [if_neg fun c => h1 c.2, show V.names.kind f = some .file from hf]
      simp [h1]
  refine ⟨fun i ns n u c hu hne hc => ?_, ?_, himap, fun b hb hown => ?_⟩
  · obtain ⟨u', hu', hdir, hstep⟩ := Vol.walk_concat.mp hc
    obtain rfl := Option.some.inj (hu.symm.trans hu')
    refine Vol.walk_concat.mpr ⟨u, hR.walk_dir h hf hu hdir, hR.isDir hf hdir, ?_⟩
    rw [← hstep]
    rw [Vol.step_eq] at hstep
    obtain ⟨z, hz, -⟩ := Option.map_eq_some_iff.mp hstep
    refine hR.step h hdir hz ?_
    rintro ⟨rfl, hzy⟩
    obtain rfl := Option.some.inj (hzy.symm.trans hy)
    obtain ⟨-, hzstr, -⟩ := Vol.nameSlot_eq_some.mp hz
    exact hne ⟨rfl, hzstr.symm.trans hstr⟩
  · have hpos : 1 ≤ (V.names.refs f).card := Finset.card_pos.mpr (h.names.refs_nonempty hf)
    have hlinks : (V.inode f).nlink.toNat = (V.names.refs f).card := h.names.links hf
    rw [hR.nlink, (nlink_pred hlinks hpos).1, hlinks]
    omega
  · obtain ⟨k, ws, hlen, hfol⟩ := hown
    have hused : V.bmap b = true := (h.space.used b hb).mpr ⟨_, ws, hlen, hfol⟩
    rw [← himap, hlast, ← Bool.not_eq_true, hR.bmap b hb]
    simp only [hused, true_and, not_not]
    exact ⟨fun hc => hc.1, fun h1 => ⟨h1, k, ws, hlen, hfol⟩⟩

/-- `do_rm` removes the name that it was given exactly when that is the first one of the file in the
working directory. -/
theorem removesName_iff (hR : Rms V V' f) (h : V.Inv)
    (hf : V.IsFile f) {path : CString} (hfind : V.find path = some f) :
    RemovesName V V' path ↔ V.RmsFirst path := by
  constructor
  · rintro ⟨ns, name, w, g, hns, hw, hg, hgone, -⟩
    obtain rfl : f = g := Option.some.inj (hfind.symm.trans (Vol.find_of_walk hns hg).2)
    obtain ⟨w', hw', hdir, hstep⟩ := Vol.walk_concat.mp hg
    obtain rfl := Option.some.inj (hw.symm.trans hw')
    -- An entry of that name which is not cleared would still be found.
    have hall : ∀ y < NUM_DENTRIES, (V.names.dent w y).str = name → w = V.cwd ∧ V.slotOf (V.inode f).ino = some y := by
      intro y hy hstr
      by_contra hne
      have hkeep : V'.names.dent w y = V.names.dent w y := by rw [hR.dent w y hdir, if_neg hne]
      cases hs : V'.nameSlot w name with
      | none => exact Vol.nameSlot_eq_none.mp hs y hy (by rw [hkeep, hstr])
      | some z =>
        have hwalk : V'.walk V'.cwd (ns ++ [name]) = some (V'.names.child w z) := by
          refine Vol.walk_concat.mpr ⟨w, ?_, hR.isDir hf hdir, by rw [Vol.step_eq, hs]; rfl⟩
          rw [hR.cwd]
          exact hR.walk_dir h hf hw hdir
        cases hgone.symm.trans hwalk
    have hex := hstep
    rw [Vol.step_eq] at hex
    obtain ⟨y, hy, -⟩ := Option.map_eq_some_iff.mp hex
    obtain ⟨hylt, hystr, -⟩ := Vol.nameSlot_eq_some.mp hy
    obtain ⟨rfl, -⟩ := hall y hylt hystr
    exact ⟨ns, name, f, hns, hw, hstep, fun z hz hstr => (hall z hz hstr).2⟩
  · rintro ⟨ns, name, g, hns, hw, hstep, hall⟩
    have hg : V.walk V.cwd (ns ++ [name]) = some g := Vol.walk_concat.mpr ⟨_, hw, h.cwd, hstep⟩
    obtain rfl : f = g := Option.some.inj (hfind.symm.trans (Vol.find_of_walk hns hg).2)
    have hex := hstep
    rw [Vol.step_eq] at hex
    obtain ⟨y, hy, -⟩ := Option.map_eq_some_iff.mp hex
    obtain ⟨hylt, hystr, -⟩ := Vol.nameSlot_eq_some.mp hy
    have hslot := hall y hylt hystr
    refine ⟨ns, name, V.cwd, f, hns, hw, hg, ?_, hR.unlinked h hf hslot hystr⟩
    -- The empty name stands for the root, which is no file.
    have hne : name ≠ [] := by
      rintro rfl
      rw [Vol.step_nil fun z hz => h.names.vacant h.cwd hz] at hstep
      exact (h.ne_of_isFile hf).1 (Option.some.inj hstep).symm
    have hlost : V'.step V.cwd name = none := by
      rw [Vol.step_eq, Vol.nameSlot_eq_none.mpr fun z hz => ?_]
      · rfl
      rw [hR.dent _ z h.cwd]
      split
      · rw [Dentry.str_cleared]
        exact Ne.symm hne
      · next hn => exact fun hstr => hn ⟨rfl, hall z hz hstr⟩
    rw [hR.cwd, Vol.walk_append, hR.walk_dir h hf hw h.cwd,
      Option.bind_some, Vol.walk, if_pos (hR.isDir hf h.cwd), hlost]
    rfl

end Rms

variable {s s' : Sys}

/-- A successful `do_rm`. -/
theorem do_rm_zero (h : Sound s) {path : CString} (hp : s.vol.PathOk path)
    (he : exec cached (Fs.do_rm path) s = some (0, s')) :
    ∃ f, s.vol.find path = some f ∧ s.vol.IsFile f ∧ Rms s.vol s'.vol f := by
  obtain ⟨r, t, he', -, -, hr⟩ := (do_rm_exact (V := s.view) h.inv h.tidy hp).cached h.cache
  rw [he] at he'
  obtain ⟨rfl, rfl⟩ := Prod.mk.inj (Option.some.inj he')
  obtain ⟨hr, -⟩ | ⟨-, hf⟩ := hr
  · cases hr
  · exact hf

/-- A successful `do_rm(path)` removes the name it was given exactly when the last name of the path is
one of the working directory, there once, and the first one there of the file. -/
theorem do_rm_removes_iff (h : Sound s) {path : CString} (he : exec cached (Fs.do_rm path) s = some (0, s')) :
    RemovesName s.vol s'.vol path ↔ s.vol.RmsFirst path := by
  by_cases hp : s.vol.PathOk path
  · obtain ⟨f, hfind, hf, hR⟩ := do_rm_zero h hp he
    exact hR.removesName_iff h.inv hf hfind
  · -- A path through something that is no directory names nothing.
    refine iff_of_false ?_ ?_
    · rintro ⟨ns, name, w, f, hns, -, hf, -⟩
      exact hp (Vol.find_of_walk hns hf).1
    · rintro ⟨ns, name, f, hns, hw, hstep, -⟩
      exact hp (Vol.find_of_walk hns (Vol.walk_concat.mpr ⟨_, hw, h.inv.cwd, hstep⟩)).1

/-- A `do_cd` that succeeds. -/
theorem Sound.cd (h : Sound s) {path : CString} (hp : s.vol.PathOk path) {i : ℕ} (hfind : s.vol.find path = some i)
    (hi : s.vol.IsDir i) : ∃ (r : ℤ) (s' : Sys), exec cached (SysCall.do_cd path).code s = some (r, s') ∧ Sound s' ∧
      s'.vol = s.vol.setWd (s.vol.inode i) ∧ s'.vol.cwd = i := by
  obtain ⟨r, s', he, hsound, ⟨-, -, hno⟩ | ⟨-, c, hc, hd, hv⟩⟩ := h.call (c := .do_cd path) hp
  · exact absurd hi (hno i hfind)
  obtain rfl := Option.some.inj (hfind.symm.trans hc)
  refine ⟨r, s', he, hsound, hv, ?_⟩
  rw [hv, Vol.cwd_setWd]
  exact h.inv.ino (Vol.imap_of_kind hd)

/-- `do_cd("proc/sys")` right after `do_mkfs`. -/
theorem Made.cd_sys (h : Made s) : ∃ (r : ℤ) (s' : Sys),
    exec cached (SysCall.do_cd (.ofString "proc/sys")).code s = some (r, s') ∧
    Sound s' ∧ s'.vol.Fresh ∧ s'.vol.cwd = 2 := by
  obtain ⟨hsound, hfresh, hcwd, -, -⟩ := h.sound
  obtain ⟨hfind, hpath⟩ := hfresh.find_sys hcwd
  obtain ⟨r, s', he, hsound', hv, hcwd'⟩ := hsound.cd hpath hfind (hfresh.dir 2 le_rfl)
  exact ⟨r, s', he, hsound', by rw [hv]; exact hfresh.setWd (hfresh.dir 2 le_rfl), hcwd'⟩

/-- In `proc/sys`, the name `vm` is the first one of its inode. -/
theorem Vol.Fresh.rmsFirst {V : Vol} (h : V.Fresh) (hcwd : V.cwd = 2) : V.find (.ofString "vm") = some 3 ∧
    V.PathOk (.ofString "vm") ∧ V.RmsFirst (.ofString "vm") := by
  have hns : components (.ofString "vm") = some ([] ++ [Vol.vm.chars]) := by decide
  have hstep : V.step V.cwd Vol.vm.chars = some 3 := by
    rw [hcwd]
    exact h.inv.step_sole (h.dir 2 le_rfl) h.vm (by decide) (by decide) (by decide)
  obtain ⟨hp, hfind⟩ := find_of_walk hns (walk_concat.mpr ⟨_, rfl, h.inv.cwd, hstep⟩)
  refine ⟨hfind, hp, [], _, 3, hns, rfl, hstep, fun y hy hstr => ?_⟩
  -- The directory has one entry for the file, and one of that name.
  obtain ⟨j, hj2, hj16, hjstr, hjc, hother⟩ := h.vm
  have hsole : ∀ z, 2 ≤ z → (V.names.dent 2 z).used = true → z = j := by
    intro z hz hu
    by_contra hne
    rw [hother z hz hne] at hu
    cases hu
  have hyj : y = j := by
    rw [hcwd] at hstr
    refine hsole y ?_ (Names.used_of_str (by rw [hstr]; decide))
    by_contra hlt
    obtain rfl | rfl : y = 0 ∨ y = 1 := by omega
    · rw [(h.inv.names.dot (h.dir 2 le_rfl)).1] at hstr
      exact absurd hstr (by decide)
    · rw [h.inv.names.dotdot (h.dir 2 le_rfl)] at hstr
      exact absurd hstr (by decide)
  have hino := h.inv.ino (imap_of_kind h.file)
  obtain ⟨z, hz, hl⟩ := h.inv.entryOf hino (by decide) ⟨j, hj16, by rw [hcwd]; exact hjc⟩
  rw [hz, hyj]
  rw [hcwd] at hl
  exact congrArg some (hsole z (h.inv.names.two_le hl h.file) hl.2.1)

/-- There `do_rm("vm")` succeeds. -/
theorem Vol.Fresh.rm_vm (h : Sound s) (hfresh : s.vol.Fresh) (hcwd : s.vol.cwd = 2) : ∃ s' : Sys,
    exec cached (Fs.do_rm (.ofString "vm")) s = some (0, s') ∧ Rms s.vol s'.vol 3 := by
  obtain ⟨hfind, hp, -⟩ := hfresh.rmsFirst hcwd
  obtain ⟨r, s', he, -, -, ⟨-, -, hno⟩ | ⟨rfl, f, hf, -, hR⟩⟩ :=
    (do_rm_exact (V := s.view) h.inv h.tidy hp).cached h.cache
  · exact absurd hfresh.file (hno 3 hfind)
  obtain rfl := Option.some.inj (hfind.symm.trans hf)
  exact ⟨s', he, hR⟩

/-- In `proc/sys`, `do_rm("vm")` removes that name. -/
theorem do_rm_removes_vm : ∃ s s' : Sys, Sound s ∧ exec cached (Fs.do_rm (.ofString "vm")) s = some (0, s') ∧
    RemovesName s.vol s'.vol (.ofString "vm") := by
  obtain ⟨s₀, hs₀⟩ := made_start
  obtain ⟨-, s, -, hs, hfresh, hcwd⟩ := hs₀.cd_sys
  obtain ⟨s', he, -⟩ := hfresh.rm_vm hs hcwd
  exact ⟨s, s', hs, he, (do_rm_removes_iff hs he).mpr (hfresh.rmsFirst hcwd).2.2⟩

/-- Right after `do_mkfs`, `do_rm("proc/sys/vm")` returns 0 and the path still leads to the file. -/
theorem do_rm_removes_fails : ¬ ∀ (s s' : Sys) (path : CString),
    Sound s → exec cached (Fs.do_rm path) s = some (0, s') →
    RemovesName s.vol s'.vol path := by
  intro hall
  obtain ⟨s, hs⟩ := made_start
  obtain ⟨hsound, hfresh, hcwd, -, -⟩ := hs.sound
  obtain ⟨hfind, hpath⟩ := hfresh.find_vm hcwd
  obtain ⟨r, s', he, -, -, ⟨-, -, hno⟩ | ⟨rfl, f, hf, hfile, hR⟩⟩ :=
    (do_rm_exact (V := s.view) hsound.inv hsound.tidy hpath).cached hsound.cache
  · exact absurd hfresh.file (hno 3 hfind)
  have hR : Rms s.vol s'.vol f := hR
  obtain ⟨ns, name, g, hns, hw, -⟩ := (hR.removesName_iff hsound.inv hfile hf).mp (hall s s' _ hsound he)
  have hcomps : Vol.components (.ofString "proc/sys/vm") =
    some ([(Vol.procSys 0).chars, (Vol.procSys 1).chars] ++ [Vol.vm.chars]) := by decide
  obtain ⟨rfl, -⟩ := List.append_inj' (Option.some.inj (hns.symm.trans hcomps)) rfl
  -- The names before the last lead away from the root.
  have hsys : s.vol.walk 0 [(Vol.procSys 0).chars, (Vol.procSys 1).chars] = some 2 := by
    rw [Vol.walk, if_pos (hfresh.dir 0 (by decide)), hfresh.step_dir (i := 0) (by decide), Option.bind_some, Vol.walk,
      if_pos (hfresh.dir 1 (by decide)), hfresh.step_dir (i := 1) (by decide)]
    rfl
  rw [hcwd, hsys] at hw
  cases hw

end OsLab
