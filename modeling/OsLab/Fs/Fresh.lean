import OsLab.Fs.Format

/-!
# The first directories

`init_bcache_policy`, which `do_mkfs` ends with, makes the directories `proc` and `sys` and in
them the file `vm`. A volume on which it has made `n` of the directories is a `Chain`; the volume it leaves is
`Fresh`, a volume in order whose tree is known.
-/

namespace OsLab

open Lib ProgM Bytes

/-! ### Directories with one entry -/

namespace Names

variable {N N' : Names} {i w j c : ℕ} {name : List UInt8} {e : Dentry}

/-- Directory `i` has no entry besides `.` and `..`. -/
def Bare (N : Names) (i : ℕ) : Prop := ∀ y, 2 ≤ y → (N.dent i y).used = false

/-- Directory `i` has one entry besides `.` and `..`: a name for `c`. -/
def Sole (N : Names) (i : ℕ) (name : List UInt8) (c : ℕ) : Prop :=
  ∃ j, 2 ≤ j ∧ j < 16 ∧ (N.dent i j).str = name ∧ N.child i j = c ∧ ∀ y, 2 ≤ y → y ≠ j → (N.dent i y).used = false

theorem Bare.congr (h : N.Bare i) (hd : ∀ y, N'.dent i y = N.dent i y) : N'.Bare i := fun y hy => by
  rw [hd]
  exact h y hy

theorem Sole.congr (h : N.Sole i name c) (hd : ∀ y, N'.dent i y = N.dent i y) : N'.Sole i name c := by
  obtain ⟨j, hj, hj', hs, hc, hu⟩ := h
  refine ⟨j, hj, hj', by rw [hd, hs], by rw [child, hd]; exact hc, fun y hy hyj => ?_⟩
  rw [hd]
  exact hu y hy hyj

/-- The first entry of a directory. -/
theorem Bare.enter (h : N.Bare w) (hj : 2 ≤ j) (hj' : j < 16) (hs : e.str = name) (hc : e.ino.toNat = c)
    (hd : ∀ y, N'.dent w y = if y = j then e else N.dent w y) : N'.Sole w name c := by
  refine ⟨j, hj, hj', by rw [hd, if_pos rfl, hs], by rw [child, hd, if_pos rfl, hc], fun y hy hyj => ?_⟩
  rw [hd, if_neg hyj]
  exact h y hy

/-- The entries that are used. -/
theorem Sole.link (h : N.Sole i name c) {j d : ℕ} (hj : 2 ≤ j) (hl : N.Link i j d) : d = c := by
  obtain ⟨j₀, -, -, -, hc, hu⟩ := h
  by_cases hjj : j = j₀
  · rw [← hl.2.2, hjj, hc]
  · have := hl.2.1
    rw [hu j hj hjj] at this
    cases this

end Names

namespace Vol

variable {V V' : Vol} {i c : ℕ} {name : List UInt8}

/-- The name of an entry is looked up. -/
theorem look_of_str {b j : ℕ} (hj : j < NUM_DENTRIES) (hs : (V.entry b j).str = name)
    (hfirst : ∀ y < j, (V.entry b y).str ≠ name) : V.look b name = some (V.entry b j) := by
  have : ((List.range NUM_DENTRIES).find? fun j => (V.entry b j).str = name) = some j := by
    rw [List.find?_range_eq_some]
    refine ⟨by simpa using hs, List.mem_range.mpr hj, fun y hy => ?_⟩
    simpa using hfirst y hy
  rw [look, this, Option.map_some]

theorem look_eq_none {b : ℕ} (h : ∀ y, (V.entry b y).str ≠ name) : V.look b name = none := by
  rw [look, Option.map_eq_none_iff, List.find?_eq_none]
  intro y _
  simpa using h y

/-- A name that was not there is looked up once it is entered. -/
theorem look_put {b b' j : ℕ} {e : Dentry} (hj : j < NUM_DENTRIES)
    (hd : ∀ y, V'.entry b' y = if y = j then e else V.entry b y)
    (hs : e.str = name) (hl : V.look b name = none) : V'.look b' name = some e := by
  have hlook : V'.look b' name = some (V'.entry b' j) := by
    refine look_of_str hj (by rw [hd, if_pos rfl, hs]) fun y hy => ?_
    rw [look, Option.map_eq_none_iff, List.find?_eq_none] at hl
    rw [hd, if_neg (by omega)]
    simpa using hl y (List.mem_range.mpr (Nat.lt_trans hy hj))
  rw [hlook, hd, if_pos rfl]

/-- The entries of a directory, `.` and `..` first. -/
theorem Inv.str_ne (h : V.Inv) (hi : V.IsDir i) (h1 : name ≠ [46]) (h2 : name ≠ [46, 46]) {y : ℕ}
    (hy : 2 ≤ y → (V.entry (V.dirBlock i) y).str ≠ name) : (V.entry (V.dirBlock i) y).str ≠ name := by
  obtain rfl | rfl | hy2 : y = 0 ∨ y = 1 ∨ 2 ≤ y := by omega
  · exact fun e => h1 (e.symm.trans (h.names.dot hi).1)
  · exact fun e => h2 (e.symm.trans (h.names.dotdot hi))
  · exact hy hy2

theorem str_ne_of_unused {e : Dentry} (hu : e.used = false) (h0 : name ≠ []) : e.str ≠ name := by
  rw [(Dentry.used_eq_false_iff e).mp hu]
  exact h0.symm

/-- `..` is the second entry. -/
theorem Inv.step_dotdot (h : V.Inv) (hi : V.IsDir i) : V.step i [46, 46] = some (V.names.child i 1) := by
  have hlook : V.look (V.dirBlock i) [46, 46] = some (V.entry (V.dirBlock i) 1) := by
    refine look_of_str (by decide) (h.names.dotdot hi) fun y hy => ?_
    obtain rfl : y = 0 := by omega
    have h0 : (V.entry (V.dirBlock i) 0).str = [46] := (h.names.dot hi).1
    rw [h0]
    decide
  rw [Vol.step, hlook]
  rfl

/-- The name of the sole entry stands for its inode. -/
theorem Inv.step_sole (h : V.Inv) (hi : V.IsDir i) (hs : V.names.Sole i name c) (h0 : name ≠ []) (h1 : name ≠ [46])
    (h2 : name ≠ [46, 46]) : V.step i name = some c := by
  obtain ⟨j, -, hj', hstr, hc, hu⟩ := hs
  have hlook : V.look (V.dirBlock i) name = some (V.entry (V.dirBlock i) j) := by
    refine look_of_str (Nat.lt_trans hj' (by decide)) hstr fun y hy => h.str_ne hi h1 h2 fun hy2 => ?_
    exact str_ne_of_unused (hu y hy2 (by omega)) h0
  rw [Vol.step, hlook]
  exact congrArg some hc

/-- Other names stand for nothing. -/
theorem Inv.look_sole {other : List UInt8} (h : V.Inv)
    (hi : V.IsDir i) (hs : V.names.Sole i name c) (hne : other ≠ name)
    (h0 : other ≠ []) (h1 : other ≠ [46]) (h2 : other ≠ [46, 46]) : V.look (V.dirBlock i) other = none := by
  obtain ⟨j, -, -, hstr, -, hu⟩ := hs
  refine look_eq_none fun y => h.str_ne hi h1 h2 fun hy2 => ?_
  by_cases hy : y = j
  · rw [hy]
    exact fun e => hne (e.symm.trans hstr)
  · exact str_ne_of_unused (hu y hy2 hy) h0

theorem Inv.look_bare (h : V.Inv) (hi : V.IsDir i) (hs : V.names.Bare i) (h0 : name ≠ []) (h1 : name ≠ [46])
    (h2 : name ≠ [46, 46]) : V.look (V.dirBlock i) name = none :=
  look_eq_none fun y => h.str_ne hi h1 h2 fun hy2 => str_ne_of_unused (hs y hy2) h0

theorem Bare.not_full (hs : V.names.Bare i) : ¬ V.Full i := by
  intro hf
  have h2 : (V.entry (V.dirBlock i) 2).used = false := hs 2 le_rfl
  rw [hf 2 (by decide)] at h2
  cases h2

/-! ### Paths -/

/-- A name without a slash that fits into an entry, and not `.` or `..`. -/
structure Plain (path : CString) : Prop where
  parse : Fs.parse_path path.chars = some (path.chars, [], [])
  lt : path.chars.length < MAX_PATHNAME_LEN
  ne : path.chars ≠ []
  dot : path.chars ≠ [46]
  dotdot : path.chars ≠ [46, 46]

theorem Plain.pathOk {path : CString} (h : Plain path) (V : Vol) : V.PathOk path :=
  Or.inr ⟨_, h.parse, fun hn => absurd rfl hn⟩

theorem Plain.find {path : CString} (h : Plain path) (V : Vol) : V.find path = V.step V.cwd path.chars := by
  simp [Vol.find, h.ne, h.parse]

/-! ### A chain of directories -/

/-- The volume has the directories `0`, …, `n`, each the sole entry of the one before, and
nothing else; the working directory is the last. -/
structure Chain (V : Vol) (path : ℕ → CString) (n : ℕ) : Prop where
  inv : V.Inv
  imap : ∀ i, V.imap i = true ↔ i ≤ n
  bmap : ∀ b, V.bmap b = true ↔ b ≤ n
  dir : ∀ i ≤ n, V.IsDir i
  sole : ∀ i < n, V.names.Sole i (path i).chars (i + 1)
  bare : V.names.Bare n
  count : ∀ i < n, (V.inode i).nlink = 2 ∧ (V.inode i).size = 96
  last : (V.inode n).nlink = 1 ∧ (V.inode n).size = 64
  cwd : V.cwd = n

theorem Formatted.chain (h : V.Formatted) (path : ℕ → CString) : V.Chain path 0 := by
  obtain ⟨now, hino⟩ := h.inode
  refine ⟨h.inv, fun i => by rw [h.imap_iff]; omega, fun b => ?_, fun i hi => (h.isDir_iff i).mpr (by omega),
    fun i hi => absurd hi (by omega), fun y hy => ?_,
    fun i hi => absurd hi (by omega), by rw [hino]; exact ⟨rfl, rfl⟩, ?_⟩
  · rw [h.bmap, Function.update_apply]
    split
    · next hb => simp [hb]
    · next hb => simp [hb]
  · rw [h.dent, if_neg (by omega), if_neg (by omega)]
    decide
  · rw [Vol.cwd, h.wd, hino]
    rfl

section Chain

variable {path : ℕ → CString} {n : ℕ} (h : V.Chain path n)

include h

theorem Chain.freeInode (hn : n + 1 < NUM_INODES) : V.freeInode = some (n + 1) := by
  refine firstClear_eq_some.mpr ⟨hn, ?_, fun i hi => (h.imap i).mpr (by omega)⟩
  have : V.imap (n + 1) ≠ true := fun e => by have := (h.imap _).mp e; omega
  simpa using this

theorem Chain.freeBlock (hn : n + 1 < NUM_BLOCKS) : V.freeBlock = some (n + 1) := by
  refine firstClear_eq_some.mpr ⟨hn, ?_, fun b hb => (h.bmap b).mpr (by omega)⟩
  have : V.bmap (n + 1) ≠ true := fun e => by have := (h.bmap _).mp e; omega
  simpa using this

theorem Chain.look {name : CString} (hp : Plain name) : V.look (V.dirBlock V.cwd) name.chars = none := by
  rw [h.cwd]
  exact h.inv.look_bare (h.dir n le_rfl) h.bare hp.ne hp.dot hp.dotdot

theorem Chain.isDir_iff (i : ℕ) : V.IsDir i ↔ i ≤ n := by
  constructor
  · exact fun hi => (h.imap i).mp (imap_of_kind hi)
  · exact h.dir i

/-- One directory more. -/
theorem Chain.madeDir (hm : MadeDir V V' (path n).chars) (hn : n + 1 < NUM_INODES) :
    V'.Inv ∧ V'.IsDir (n + 1) ∧ V'.names.Sole n (path n).chars (n + 1) ∧ V'.cwd = n ∧
      Chain (V'.setWd (V'.inode (n + 1))) path (n + 1) := by
  obtain ⟨i, j, e, hfi, himap, hM, hstr, hnl, hsz⟩ := hm.names
  obtain ⟨b, hfb, hbmap⟩ := hm.bmap
  obtain rfl : i = n + 1 := Option.some.inj (hfi.symm.trans (h.freeInode hn))
  obtain rfl : b = n + 1 := Option.some.inj (hfb.symm.trans (h.freeBlock (Nat.lt_trans hn (by decide))))
  rw [h.cwd] at hM
  have hinv : V'.Inv := ⟨hm.base, hM.inv h.inv.names⟩
  have hkind : ∀ x, V'.names.kind x = if x = n + 1 then some .dir else V.names.kind x := hM.kind
  have hnew : V'.IsDir (n + 1) := by rw [IsDir, hkind, if_pos rfl]
  have hdir : ∀ x ≤ n + 1, V'.IsDir x := by
    intro x hx
    by_cases hxn : x = n + 1
    · exact hxn ▸ hnew
    · rw [IsDir, hkind, if_neg hxn]
      exact h.dir x (by omega)
  have hdn : ∀ y, V'.names.dent n y = if y = j then e else V.names.dent n y := by
    intro y
    rw [hM.dent n y (h.dir n le_rfl)]
    simp
  have hsole : V'.names.Sole n (path n).chars (n + 1) := h.bare.enter hM.two_le hM.lt hstr hM.ino hdn
  refine ⟨hinv, hnew, hsole, hm.cwd.trans h.cwd, hinv.setWd hnew,
    fun x => ?_, fun x => ?_, hdir, ?_, ?_, ?_, ⟨hnl, hsz⟩, ?_⟩
  · show V'.imap x = true ↔ _
    rw [himap, Function.update_apply]
    split
    · next hx => simp [hx]
    · rw [h.imap]
      omega
  · show V'.bmap x = true ↔ _
    rw [hbmap, Function.update_apply]
    split
    · next hx => simp [hx]
    · rw [h.bmap]
      omega
  · intro x hx
    by_cases hxn : x = n
    · rw [hxn]
      exact hsole
    · refine (h.sole x (by omega)).congr fun y => ?_
      have := hM.dent x y (h.dir x (by omega))
      rwa [if_neg (by omega)] at this
  · exact fun y hy => (hM.empty y hy).1
  · intro x hx
    by_cases hxn : x = n
    · have hwd : V.wd = V.inode n := by rw [h.inv.wd, h.cwd]
      have := hm.dirs.wd
      rw [h.cwd, hwd, h.last.1, h.last.2] at this
      rw [hxn]
      exact ⟨this.1.trans (by decide), this.2.trans (by decide)⟩
    · have := hm.dirs.dir x (h.dir x (by omega)) (hdir x (by omega)) (by rw [h.cwd]; exact hxn)
      rw [(h.count x (by omega)).1, (h.count x (by omega)).2] at this
      exact this
  · exact hinv.ino (imap_of_kind hnew)

end Chain

end Vol

/-! ### The file -/

namespace Vol

/-- The names of the first two directories. -/
def procSys (i : ℕ) : CString := if i = 0 then .ofString "proc" Fs.proc_nonzero else .ofString "sys" Fs.sys_nonzero

/-- The file that `do_mkfs` creates. -/
def vm : CString := .ofString "vm" Fs.vm_nonzero

/-- The tree that `do_mkfs` makes: `proc/sys/vm`. -/
structure Fresh (V : Vol) : Prop where
  inv : V.Inv
  dir : ∀ i ≤ 2, V.IsDir i
  file : V.IsFile 3
  unused : ∀ i, 3 < i → V.names.kind i = none
  sole : ∀ i < 2, V.names.Sole i (procSys i).chars (i + 1)
  vm : V.names.Sole 2 vm.chars 3
  count : ∀ i ≤ 2, (V.inode i).nlink = 2 ∧ (V.inode i).size = 96

variable {V V' : Vol}

/-- Calls that leave the tree alone keep it. -/
theorem Fresh.congr (h : V.Fresh) (hi : V'.Inv) (hs : V.names.Same V'.names)
    (hd : ∀ x, V.IsDir x → V'.inode x = V.inode x) :
    V'.Fresh := by
  refine ⟨hi, fun i h2 => ?_, ?_, fun i h3 => ?_, fun i h2 => ?_, ?_, fun i h2 => ?_⟩
  · rw [IsDir, hs.kind]
    exact h.dir i h2
  · rw [IsFile, hs.kind]
    exact h.file
  · rw [hs.kind]
    exact h.unused i h3
  · exact (h.sole i h2).congr fun y => hs.dent i y (h.dir i (by omega))
  · exact h.vm.congr fun y => hs.dent 2 y (h.dir 2 le_rfl)
  · rw [hd i (h.dir i h2)]
    exact h.count i h2

theorem Fresh.setFdesc (h : V.Fresh) (k : Fin NUM_FDESCS) (f : Fdesc) : (V.setFdesc k f).Fresh :=
  ⟨h.inv.setFdesc k f, h.dir, h.file, h.unused, h.sole, h.vm, h.count⟩

theorem Fresh.setWd (h : V.Fresh) {i : ℕ} (hi : V.IsDir i) : (V.setWd (V.inode i)).Fresh :=
  ⟨h.inv.setWd hi, h.dir, h.file, h.unused, h.sole, h.vm, h.count⟩

/-- Touching `vm` at the end of the chain. -/
theorem Chain.touched (h : V.Chain procSys 2) (hm : Touched V V' vm.chars) : V'.Fresh ∧ V'.cwd = 2 := by
  obtain ⟨i, j, e, hfi, -, hM, hstr⟩ := hm.names
  obtain rfl : i = 3 := Option.some.inj (hfi.symm.trans (h.freeInode (by decide)))
  rw [h.cwd] at hM
  have hdir : ∀ i ≤ 2, V'.IsDir i := by
    intro i hi
    rw [IsDir, hM.kind, if_neg (by omega)]
    exact h.dir i hi
  have hd2 : ∀ y, V'.names.dent 2 y = if y = j then e else V.names.dent 2 y := by
    intro y
    rw [hM.dent 2 y (h.dir 2 le_rfl)]
    simp
  refine ⟨⟨⟨hm.base, hM.inv h.inv.names⟩, hdir, ?_, fun i hi => ?_, fun i hi => ?_, ?_, fun i hi => ?_⟩,
    hm.cwd.trans h.cwd⟩
  · rw [IsFile, hM.kind, if_pos rfl]
  · rw [hM.kind, if_neg (by omega), kind_eq_none]
    have : V.imap i ≠ true := fun e => by have := (h.imap i).mp e; omega
    simpa using this
  · refine (h.sole i hi).congr fun y => ?_
    have := hM.dent i y (h.dir i (by omega))
    rwa [if_neg (by omega)] at this
  · exact h.bare.enter hM.two_le hM.lt hstr hM.ino hd2
  · by_cases hi2 : i = 2
    · have hwd : V.wd = V.inode 2 := by rw [h.inv.wd, h.cwd]
      have := hm.dirs.wd
      rw [h.cwd, hwd, h.last.1, h.last.2] at this
      rw [hi2]
      exact ⟨this.1.trans (by decide), this.2.trans (by decide)⟩
    · have := hm.dirs.dir i (h.dir i hi) (hdir i hi) (by rw [h.cwd]; exact hi2)
      rw [(h.count i (by omega)).1, (h.count i (by omega)).2] at this
      exact this

end Vol

/-- What `do_mkfs` leaves. -/
structure MadeFs (V V' : Vol) : Prop where
  fresh : V'.Fresh
  cwd : V'.cwd = 0
  /-- `vm` has a block. -/
  block : V'.leaf 3 0 ≠ none
  fdesc : ∃ k, (V.fdesc k).valid = 0 ∧ (V'.fdesc k).valid = 0 ∧ ∀ k', k' ≠ k → V'.fdesc k' = V.fdesc k'

/-- A write at the start of `vm` needs one block at most. -/
theorem Vol.Fresh.writeOk {V : Vol} (h : V.Fresh) {k : Fin NUM_FDESCS}
    (hino : (V.fdesc k).ino = 3) {len : ℕ} (hlen : 0 < len)
    (hle : (V.fdesc k).write_pos.toNat + len ≤ 4096) (hfree : V.leaf 3 0 ≠ none ∨ V.free.Nonempty) :
    V.WriteOk k len := by
  have hino' : (V.fdesc k).ino.toNat = 3 := by rw [hino]; rfl
  have hblocks : blocksOf (V.fdesc k).write_pos.toNat len = {0} := by
    ext n
    rw [blocksOf, Finset.mem_Icc, Finset.mem_singleton]
    omega
  have himap : ∀ x, V.imap x = true → x ≤ 3 := by
    intro x hx
    by_contra hlt
    rw [Vol.kind_eq_none.mp (h.unused x (by omega))] at hx
    cases hx
  have hnodes : (Vol.nodes 0).toFinset = {(0, [])} := by decide
  refine ⟨by rw [hino']; exact h.file, by omega, ?_, ?_, ?_, fun h0 => absurd h0 (by omega)⟩
  · intro n hn
    rw [hblocks, Finset.mem_singleton] at hn
    rw [hn, show (pathOf 0).2 = [] from rfl]
    exact fun w hw => absurd hw List.not_mem_nil
  · rw [hino', hblocks, Vol.Enough, Forest.Enough, Forest.missing,
      Vol.nodesOf, Finset.singleton_biUnion, hnodes, Finset.filter_singleton]
    obtain hleaf | hfree := hfree
    · rw [if_neg]
      · simp
      · exact hleaf
    · calc (if _ then {((0 : Fin 10), ([] : List ℕ))} else ∅ : Finset _).card ≤ 1 := by split <;> simp
        _ ≤ V.free.card := Finset.card_pos.mpr hfree
  · intro x hx
    rw [hino']
    have := himap x hx
    omega

/-- A write to `vm`. -/
theorem Vol.Fresh.written {V V' : Vol} (h : V.Fresh) {p : ℕ} {cs : List UInt8} (hp : p / 4096 = 0)
    (hw : Written V V' 3 p cs) : V'.Fresh ∧ V'.leaf 3 0 ≠ none ∧ V'.cwd = V.cwd := by
  refine ⟨h.congr ⟨hw.base, hw.names.inv h.inv.names⟩ hw.names hw.dirs, ?_, by rw [Vol.cwd, hw.wd]; rfl⟩
  intro hl
  have hfile : V'.file 3 0 = none := by rw [Vol.file, hl]; rfl
  rw [hw.file, hp] at hfile
  -- The block is there after `grow`, and stays.
  have hkeep : ∀ (cs : List UInt8) (F : File) (q : ℕ), F 0 ≠ none → F.write q cs 0 ≠ none := by
    intro cs
    induction cs with
    | nil => exact fun F q hF => hF
    | cons c cs ih =>
      intro F q hF
      refine ih _ _ ?_
      rw [File.put, Function.update_apply]
      split
      · simp
      · exact hF
  refine hkeep cs _ p ?_ hfile
  rw [File.grow]
  cases V.file 3 0 with
  | none => simp
  | some s => simp

/-- The descriptor that `do_open` returns. -/
theorem fdIndex_coe (k : Fin NUM_FDESCS) : Fs.fdIndex (k : ℕ) = some k := by
  have hk := k.isLt
  rw [Fs.fdIndex, dif_pos (by omega)]
  rfl

/-! ### The tree -/

namespace Vol.Fresh

variable {V : Vol} (h : V.Fresh)

include h

/-- The entry of a directory of the tree. -/
theorem link_dir {i : ℕ} (hi : i < 2) : ∃ j, 2 ≤ j ∧ V.names.Link i j (i + 1) := by
  obtain ⟨j, hj, -, hs, hc, -⟩ := h.sole i hi
  exact ⟨j, hj, h.dir i (by omega), Names.used_of_str (by rw [hs, procSys]; split <;> decide), hc⟩

/-- The entry of `vm`. -/
theorem link_vm : ∃ j, 2 ≤ j ∧ V.names.Link 2 j 3 := by
  obtain ⟨j, hj, -, hs, hc, -⟩ := h.vm
  exact ⟨j, hj, h.dir 2 le_rfl, Names.used_of_str (by rw [hs]; decide), hc⟩

theorem isDir_iff (i : ℕ) : V.IsDir i ↔ i ≤ 2 := by
  constructor
  · intro hi
    by_contra hlt
    obtain rfl | hgt : i = 3 ∨ 3 < i := by omega
    · rw [IsDir, h.file] at hi
      cases hi
    · rw [IsDir, h.unused i hgt] at hi
      cases hi
  · exact h.dir i

/-- `vm` has one name. -/
theorem card_vm : (V.names.refs 3).card = 1 := by
  obtain ⟨j, hj, hl⟩ := h.link_vm
  refine Finset.card_eq_one.mpr ⟨(2, j), Finset.eq_singleton_iff_unique_mem.mpr ⟨h.inv.names.mem_refs.mpr hl, ?_⟩⟩
  rintro ⟨i, y⟩ hy
  have hy := h.inv.names.mem_refs.mp hy
  have hy2 := h.inv.names.two_le hy h.file
  obtain hi | rfl : i < 2 ∨ i = 2 := by
    have := (h.isDir_iff i).mp hy.1
    omega
  · have := (h.sole i hi).link hy2 hy
    omega
  · obtain ⟨j₀, -, -, -, -, hu⟩ := h.vm
    have honly : ∀ x, 2 ≤ x → V.names.Link 2 x 3 → x = j₀ := by
      intro x hx hl'
      by_contra hne
      have := hl'.2.1
      rw [hu x hx hne] at this
      cases this
    rw [honly y hy2 hy, honly j hj hl]

theorem nlink_vm : (V.inode 3).nlink = 1 := by
  have hlinks : (V.inode 3).nlink.toNat = _ := h.inv.names.links h.file
  rw [h.card_vm] at hlinks
  exact UInt16.toNat_inj.mp hlinks

/-- The names of the directories stand for them. -/
theorem step_dir {i : ℕ} (hi : i < 2) : V.step i (procSys i).chars = some (i + 1) := by
  refine h.inv.step_sole (h.dir i (by omega)) (h.sole i hi) ?_ ?_ ?_ <;> rw [procSys] <;> split <;> decide

/-- The path to the last directory. -/
theorem find_sys (hc : V.cwd = 0) : V.find (.ofString "proc/sys") = some 2 ∧ V.PathOk (.ofString "proc/sys") := by
  have hparse : Fs.parse_path (CString.ofString "proc/sys").chars =
    some ((procSys 0).chars, (procSys 1).chars, []) := by decide
  have hne : (CString.ofString "proc/sys").chars ≠ [] := by decide
  have h1 := h.step_dir (i := 0) (by decide)
  have h2 := h.step_dir (i := 1) (by decide)
  have hne2 : (procSys 1).chars ≠ [] := by decide
  constructor
  · rw [Vol.find, if_neg hne, hparse, hc]
    simp [h1, h2, hne2]
  · refine Or.inr ⟨_, hparse, fun _ i hi => ?_⟩
    rw [hc, h1] at hi
    obtain rfl := Option.some.inj hi
    exact ⟨h.dir 1 (by decide), fun hn => absurd rfl hn⟩

/-- The path to `vm`. -/
theorem find_vm (hc : V.cwd = 0) : V.find (.ofString "proc/sys/vm") = some 3 ∧ V.PathOk (.ofString "proc/sys/vm") := by
  have hparse : Fs.parse_path (CString.ofString "proc/sys/vm").chars =
      some ((procSys 0).chars, (procSys 1).chars, Vol.vm.chars) := by decide
  have hne : (CString.ofString "proc/sys/vm").chars ≠ [] := by decide
  have h1 := h.step_dir (i := 0) (by decide)
  have h2 := h.step_dir (i := 1) (by decide)
  have h3 : V.step 2 Vol.vm.chars = some 3 := h.inv.step_sole (h.dir 2 le_rfl) h.vm (by decide) (by decide) (by decide)
  have hne2 : (procSys 1).chars ≠ [] := by decide
  have hne3 : Vol.vm.chars ≠ [] := by decide
  constructor
  · rw [Vol.find, if_neg hne, hparse, hc]
    simp [h1, h2, h3, hne2, hne3]
  · refine Or.inr ⟨_, hparse, fun _ i hi => ?_⟩
    rw [hc, h1] at hi
    obtain rfl := Option.some.inj hi
    refine ⟨h.dir 1 (by decide), fun _ i hi => ?_⟩
    rw [h2] at hi
    obtain rfl := Option.some.inj hi
    exact h.dir 2 le_rfl

end Vol.Fresh

end OsLab
