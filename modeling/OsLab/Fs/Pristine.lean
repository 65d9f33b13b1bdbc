import OsLab.Fs.Check

/-!
# Formatting and the past

`do_mkfs` is built from the ordinary calls and ignores what they return. With a free descriptor
it leaves one file system, whatever the card, the cache, the buffers, the working directory and the
other descriptors were before, and only the times differ (`Vol.Made.same`). Without one `do_open`
returns `-1`, which `do_write` takes for an index (`do_mkfs_fails`). So formatting is independent of
the past exactly when a descriptor is free (`formats_iff`).
-/

namespace OsLab

open Lib ProgM

/-- Two volumes hold the same file system, but for the times. -/
structure Vol.SameFs (V W : Vol) : Prop where
  imap : V.imap = W.imap
  bmap : V.bmap = W.bmap
  inode : ∀ i, V.imap i = true → (V.inode i).untimed = (W.inode i).untimed
  entry : ∀ i, V.IsDir i → ∀ y, V.names.dent i y = W.names.dent i y
  file : ∀ f, V.IsFile f → V.file f = W.file f
  wd : V.wd.untimed = W.wd.untimed

/-- The file system that formatting is to leave: the directories `/`, `proc` and `proc/sys` and the file
`proc/sys/vm` with the two lines of the policy, each in a block, and nothing else; the working
directory is the root. -/
structure Vol.Pristine (V : Vol) : Prop where
  imap : ∀ i, V.imap i = true ↔ i < 4
  root : V.IsDir 0
  proc : V.find (.ofString "proc") = some 1 ∧ V.IsDir 1
  sys : V.find (.ofString "proc/sys") = some 2 ∧ V.IsDir 2
  vm : V.find (.ofString "proc/sys/vm") = some 3 ∧ V.IsFile 3
  bmap : ∀ b, V.bmap b = true ↔ b < 4
  block : ∀ i < 4, (V.inode i).blocks 0 = sec i ∧ ∀ k, k ≠ 0 → (V.inode i).blocks k = 0
  size : (V.inode 3).size = 53
  lines : ∀ q, (h : q < (line1 ++ line2).length) → (V.file 3).byte q = some (line1 ++ line2)[q]
  cwd : V.cwd = 0

namespace Vol.Made

variable {V W : Vol} (h : V.Made)

include h

theorem imap_iff (i : ℕ) : V.imap i = true ↔ i < 4 := by
  constructor
  · intro hi
    by_contra hlt
    rw [Vol.kind_eq_none.mp (h.fresh.unused i (by omega))] at hi
    cases hi
  · intro hi
    obtain hlt | rfl : i ≤ 2 ∨ i = 3 := by omega
    · exact Vol.imap_of_kind (h.fresh.dir i hlt)
    · exact Vol.imap_of_kind h.fresh.file

/-- The directories, and where they are. -/
theorem dirAt {i : ℕ} (hi : i ≤ 2) : ∃ e, V.DirAt i 2 96 e := by
  obtain hlt | rfl : i < 2 ∨ i = 2 := by omega
  · exact ⟨_, h.tree.dir i hlt⟩
  · exact ⟨_, h.tree.sys⟩

theorem block {i : ℕ} (hi : i < 4) : (V.inode i).blocks 0 = sec i ∧ ∀ k, k ≠ 0 → (V.inode i).blocks k = 0 := by
  have hblocks : (V.inode i).blocks = fun k => if k = 0 then sec i else 0 := by
    obtain hlt | rfl : i ≤ 2 ∨ i = 3 := by omega
    · obtain ⟨e, hd⟩ := h.dirAt hlt
      exact congrArg Inode.blocks hd.inode
    · exact congrArg Inode.blocks h.tree.file
  rw [hblocks]
  exact ⟨if_pos rfl, fun k hk => if_neg hk⟩

/-- The lines of `vm`. -/
theorem lines (q : ℕ) (hq : q < (line1 ++ line2).length) : (V.file 3).byte q = some (line1 ++ line2)[q] := by
  have h1 : line1.length = 31 := by decide
  have h2 : line2.length = 22 := by decide
  have hpos : ∀ i < 53, i % 4096 < SECTOR_SIZE := by
    intro i hi
    unfold SECTOR_SIZE
    omega
  rw [List.length_append, h1, h2] at hq
  rw [h.file, vmFile]
  by_cases hlt : q < 31
  · rw [List.getElem_append_left (by omega)]
    refine File.byte_write_of_ne _ (File.byte_grow ?_) (by omega)
    have := File.byte_write (F := File.grow (fun _ => none) 0) (p := 0) line1 (i := q) (by omega)
    rw [Nat.zero_add, if_pos (hpos q (by omega))] at this
    exact this
  · rw [List.getElem_append_right (by omega)]
    have := File.byte_write (F := (File.write (File.grow (fun _ => none) 0) 0 line1).grow 0)
      (p := 31) line2 (i := q - 31)
      (by omega)
    rw [show 31 + (q - 31) = q by omega, if_pos (hpos q (by omega))] at this
    simpa only [h1] using this

theorem pristine : V.Pristine := by
  obtain ⟨hsys, -⟩ := h.fresh.find_sys h.cwd
  obtain ⟨hvm, -⟩ := h.fresh.find_vm h.cwd
  have hplain : Vol.Plain (.ofString "proc") := ⟨by decide, by decide, by decide, by decide, by decide⟩
  have hproc : V.find (.ofString "proc") = some 1 := by
    rw [hplain.find, h.cwd]
    exact h.fresh.step_dir (by decide)
  exact ⟨h.imap_iff, h.fresh.dir 0 (by decide), ⟨hproc, h.fresh.dir 1 (by decide)⟩, ⟨hsys, h.fresh.dir 2 le_rfl⟩,
    ⟨hvm, h.fresh.file⟩, h.tree.bmap, fun i hi => h.block hi, congrArg Inode.size h.tree.file, h.lines, h.cwd⟩

/-- The inodes without their times, and the entries. -/
theorem untimed (h' : W.Made) {i : ℕ} (hi : i < 4) : (V.inode i).untimed = (W.inode i).untimed := by
  obtain hlt | rfl | rfl : i < 2 ∨ i = 2 ∨ i = 3 := by omega
  · rw [(h.tree.dir i hlt).inode, (h'.tree.dir i hlt).inode]
  · rw [h.tree.sys.inode, h'.tree.sys.inode]
  · rw [h.tree.file, h'.tree.file]

theorem entry (h' : W.Made) {i : ℕ} (hi : i ≤ 2) (y : ℕ) : V.names.dent i y = W.names.dent i y := by
  have hb : i < NUM_BLOCKS := by
    rw [NUM_BLOCKS_eq]
    omega
  obtain ⟨e, hd⟩ := h.dirAt hi
  obtain ⟨e', hd'⟩ := h'.dirAt hi
  show V.entry (V.dirBlock i) y = W.entry (W.dirBlock i) y
  rw [hd.dirBlock hb, hd'.dirBlock hb]
  obtain hlt | rfl : i < 2 ∨ i = 2 := by omega
  · rw [(h.tree.dir i hlt).entry, (h'.tree.dir i hlt).entry]
  · rw [h.tree.sys.entry, h'.tree.sys.entry]

/-- The past leaves no trace. -/
theorem same (h' : W.Made) : V.SameFs W := by
  refine ⟨?_, ?_, fun i hi => h.untimed h' ((h.imap_iff i).mp hi), fun i hi y => ?_, fun f hf => ?_, ?_⟩
  · funext i
    rw [Bool.eq_iff_iff, h.imap_iff, h'.imap_iff]
  · funext b
    rw [Bool.eq_iff_iff, h.tree.bmap, h'.tree.bmap]
  · exact h.entry h' ((h.fresh.isDir_iff i).mp hi) y
  · have hlt := (h.imap_iff f).mp (Vol.imap_of_kind hf)
    obtain rfl : f = 3 := by
      by_contra hne
      have hd := h.fresh.dir f (by omega)
      rw [Vol.IsDir, hf] at hd
      cases hd
    rw [h.file, h'.file]
  · rw [h.fresh.inv.wd, h'.fresh.inv.wd, h.cwd, h'.cwd]
    exact h.untimed h' (by decide)

end Vol.Made

/-! ### Without a free descriptor -/

/-- Over every cache in order that shows the sectors of `st`, the program does not come back. -/
def Fails {α : Type} (st : St) (x : FsM α) : Prop :=
  ∀ c : Bcache, c.Ok → c.logical = st.dev → exec cached x ⟨st.mem, c⟩ = none

theorem Fails.apply {α : Type} {m : Mem} {d : Disk} {x : FsM α}
    (h : Fails ⟨m, d⟩ x) {c : Bcache} (hc : c.Ok) (hl : c.logical = d) :
    exec cached x ⟨m, c⟩ = none := h c hc hl

theorem Fails.onward {β : Type} : Onward (β := β) Fails := by
  rintro α x f ⟨m, d⟩ ⟨m', d'⟩ a he hf c hc rfl
  obtain ⟨c', he', hc', hl⟩ := cached_of_disk x hc he
  rw [exec_bind, he', Option.bind_some]
  exact hf c' hc' hl

theorem fillVm_fails {st : St} (h : (View.of st).Ready)
    (ht : (View.of st).Tidy) (hfull : ∀ k, ((View.of st).fdesc k).valid ≠ 0) :
    Fails st fillVm := by
  refine (do_open_spec h.fresh.inv ht (Vol.Plain.pathOk plain_vm _) 3).runs.bind Fails.onward ?_
  rintro fd st₁ ⟨-, ⟨rfl, -⟩ | ⟨k, -, -, -, -, hk, -⟩⟩
  · -- The index `-1` is outside `fdesc_array`.
    intro c _ _
    rfl
  · exact absurd hk (hfull k)

/-- `do_mkfs`, when every descriptor is in use. -/
theorem do_mkfs_fails {st : St} (hfull : ∀ k, ((View.of st).fdesc k).valid ≠ 0) : Fails st Fs.do_mkfs := by
  refine do_mkfs_formats Fails.onward fun st₁ h₁ ht₁ hfd₁ => ?_
  intro c hc hl
  have hp : Fails st₁ Fs.init_bcache_policy := init_bcache_policy_readies Fails.onward h₁ ht₁ fun st₂ h₂ ht₂ hfd₂ =>
    fillVm_fails h₂ ht₂ (by rw [hfd₂, hfd₁]; exact hfull)
  rw [exec_bind, hp c hc hl]
  rfl

/-! ### The result -/

/-- Formatting from memory `m` and cache `c`, cards included, comes back and leaves the file system it is to
leave, the same as from every other memory and cache. -/
def Formats (m : Mem) (c : Bcache) : Prop :=
  ∃ s : Sys, exec cached Fs.do_mkfs ⟨m, c.init_bcache⟩ = some (0, s) ∧ s.vol.Pristine ∧
    ∀ (m' : Mem) (c' : Bcache) (r : ℤ) (s' : Sys),
    exec cached Fs.do_mkfs ⟨m', c'.init_bcache⟩ = some (r, s') → s.vol.SameFs s'.vol

/-- With a free descriptor. -/
theorem exec_do_mkfs (m : Mem) (c : Bcache) (hfree : ∃ k, (m.fdesc_array k).valid = 0) :
    ∃ s : Sys, exec cached Fs.do_mkfs ⟨m, c.init_bcache⟩ = some (0, s) ∧ s.vol.Made := by
  have hc : c.init_bcache.Ok := ⟨[], Bcache.init_bcache_inv c⟩
  obtain ⟨_, s, he, -, rfl, -, hm, -⟩ := Runs.cached (s := ⟨m, c.init_bcache⟩) (do_mkfs_runs hfree) hc
  exact ⟨s, he, hm⟩

/-- Without. -/
theorem exec_do_mkfs_full (m : Mem) (c : Bcache) (hfull : ¬ ∃ k, (m.fdesc_array k).valid = 0) :
    exec cached Fs.do_mkfs ⟨m, c.init_bcache⟩ = none := by
  have hc : c.init_bcache.Ok := ⟨[], Bcache.init_bcache_inv c⟩
  have hused : ∀ k, ((View.of ⟨m, c.init_bcache.logical⟩).fdesc k).valid ≠ 0 := fun k hk => hfull ⟨k, hk⟩
  exact Fails.apply (do_mkfs_fails hused) hc rfl

/-- Formatting is independent of the past exactly when a descriptor is free. -/
theorem formats_iff (m : Mem) (c : Bcache) : Formats m c ↔ ∃ k, (m.fdesc_array k).valid = 0 := by
  constructor
  · rintro ⟨s, he, -⟩
    by_contra hfull
    rw [exec_do_mkfs_full m c hfull] at he
    cases he
  · intro hfree
    obtain ⟨s, he, hm⟩ := exec_do_mkfs m c hfree
    refine ⟨s, he, hm.pristine, fun m' c' r s' he' => ?_⟩
    by_cases hfree' : ∃ k, (m'.fdesc_array k).valid = 0
    · obtain ⟨t, ht, hm'⟩ := exec_do_mkfs m' c' hfree'
      rw [he'] at ht
      obtain ⟨-, rfl⟩ := Prod.mk.inj (Option.some.inj ht)
      exact hm.same hm'
    · rw [exec_do_mkfs_full m' c' hfree'] at he'
      cases he'

/-- On an empty card, with every descriptor in use. -/
theorem formats_full_fails : ¬ ∀ (m : Mem) (c : Bcache), Formats m c := by
  intro hall
  obtain ⟨s, he, -⟩ := hall { Mem.start with fdesc_array := fun _ => ⟨0, 1, 0, 0, 0⟩ } Bcache.blank
  have hfull : ¬ ∃ k : Fin NUM_FDESCS, (⟨0, 1, 0, 0, 0⟩ : Fdesc).valid = 0 := by
    rintro ⟨_, hk⟩
    exact absurd hk (by decide)
  rw [exec_do_mkfs_full _ _ hfull] at he
  cases he

end OsLab
