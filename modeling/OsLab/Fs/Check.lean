import OsLab.Fs.Session

/-!
# What a check of the volume finds

A check of the file system (`Vol.Fsck`) compares the two bitmaps with what is reachable from
the root directory: the marked inodes are those that directory entries lead to, the marked
blocks are those that the pointers of these inodes lead to, and no block is reached twice. It
also counts the names of every file (`Vol.Counted`).

Both hold in every state of a run whose calls meet their conditions (`SysCall.Ok`). Two calls that
do not are shown to break them: `do_rm` of a file that is not in the working directory gives back
an inode that still has a name, and `do_ln` into a directory that does not exist counts a name
that is not stored.
-/

namespace OsLab

open Lib ProgM Bytes

namespace Vol

/-- The inodes that directory entries lead to, from the root. -/
inductive Reachable (V : Vol) : ℕ → Prop where
  | root : Reachable V 0
  | entry {i j : ℕ} : Reachable V i → (V.inode i).type = IT_DIR → (V.entry (V.dirBlock i) j).used = true →
    Reachable V (V.entry (V.dirBlock i) j).ino.toNat

/-- The pointer at `ws` below pointer `k` of inode `i` leads to block `b`. -/
def PointsTo (V : Vol) (i : ℕ) (k : Fin 10) (ws : List ℕ) (b : ℕ) : Prop :=
  ws.length ≤ depth (i, k) ∧ (V.ptr (V.inode i) k ws).toNat = blockSector b

/-- The volume passes the check. -/
structure Fsck (V : Vol) : Prop where
  inodes : ∀ i, V.imap i = true ↔ V.Reachable i
  blocks : ∀ b, V.bmap b = true ↔ ∃ i k ws, V.Reachable i ∧ V.PointsTo i k ws b
  paths : ∀ b i k ws i' k' ws', V.Reachable i → V.Reachable i' → V.PointsTo i k ws b → V.PointsTo i' k' ws' b →
    i = i' ∧ k = k' ∧ ws = ws'

/-- The link count of every file is the number of its entries. -/
def Counted (V : Vol) : Prop :=
  ∀ f, V.imap f = true → (V.inode f).type = IT_FILE → (V.inode f).nlink.toNat = (V.names.refs f).card

variable {V : Vol}

/-- Entries lead to the marked inodes. -/
theorem Inv.reachable_iff (h : V.Inv) (i : ℕ) : V.imap i = true ↔ V.Reachable i := by
  constructor
  · intro hi
    have hb : V.names.Below i := by
      cases hk : V.names.kind i with
      | none =>
        rw [kind_eq_none.mp hk] at hi
        cases hi
      | some k => exact h.names.below hk
    clear hi
    induction hb with
    | root => exact .root
    | step _ _ hl ih =>
      obtain ⟨hdir, hu, rfl⟩ := hl
      exact .entry ih (isDir_iff.mp hdir).2 hu
  · intro hr
    induction hr with
    | root => exact imap_of_kind h.root.1
    | @entry i j _ ht hu ih =>
      obtain ⟨k, hk⟩ := h.names.kind_of_link (i := i) (j := j) ⟨isDir_iff.mpr ⟨ih, ht⟩, hu, rfl⟩
      exact imap_of_kind hk

/-- Pointers of marked inodes, as paths of the forest. -/
theorem Space.pointsTo_iff (h : V.Space) {i b : ℕ} {k : Fin 10} {ws : List ℕ} (hi : V.imap i = true) :
    V.PointsTo i k ws b ↔ ws.length ≤ depth (i, k) ∧ b < NUM_BLOCKS ∧ V.follow (i, k) ws = some (sec b) := by
  rw [PointsTo, follow_eq_ptr hi rfl]
  constructor
  · rintro ⟨hl, hp⟩
    have hp0 : V.ptr (V.inode i) k ws ≠ 0 := by
      intro h0
      rw [h0, blockSector, DATA_eq] at hp
      have : (0 : UInt32).toNat = 0 := rfl
      omega
    have hf : V.follow (i, k) ws = some (V.ptr (V.inode i) k ws) := by rw [follow_eq_ptr hi rfl, nz_of_ne hp0]
    obtain ⟨c, hc, he⟩ := h.range _ _ _ hl hf
    rw [he, toNat_sec hc, blockSector, blockSector] at hp
    obtain rfl : c = b := by omega
    exact ⟨hl, hc, by rw [nz_of_ne hp0, he]⟩
  · rintro ⟨hl, hb, hf⟩
    rw [(nz_eq_some.mp hf).1]
    exact ⟨hl, toNat_sec hb⟩

theorem Inv.fsck (h : V.Inv) : V.Fsck := by
  refine ⟨h.reachable_iff, fun b => ?_, fun b i k ws i' k' ws' hi hi' hp hp' => ?_⟩
  · constructor
    · intro hb
      have hlt := h.space.bits b hb
      obtain ⟨⟨i, k⟩, ws, hl, hf⟩ := (h.space.used b hlt).mp hb
      have hi : V.imap i = true := by
        by_contra hi
        have hn : V.follow (i, k) ws = none := Forest.follow_eq_none (by simp [forest, hi]) ws
        cases hn.symm.trans hf
      exact ⟨i, k, ws, (h.reachable_iff i).mp hi, (h.space.pointsTo_iff hi).mpr ⟨hl, hlt, hf⟩⟩
    · rintro ⟨i, k, ws, hi, hp⟩
      obtain ⟨hl, hlt, hf⟩ := (h.space.pointsTo_iff ((h.reachable_iff i).mpr hi)).mp hp
      exact (h.space.used b hlt).mpr ⟨(i, k), ws, hl, hf⟩
  · obtain ⟨hl, -, hf⟩ := (h.space.pointsTo_iff ((h.reachable_iff i).mpr hi)).mp hp
    obtain ⟨hl', -, hf'⟩ := (h.space.pointsTo_iff ((h.reachable_iff i').mpr hi')).mp hp'
    obtain ⟨hr, hws⟩ := h.space.unshared _ _ _ _ _ hl hl' hf hf'
    exact ⟨congrArg Prod.fst hr, congrArg Prod.snd hr, hws⟩

theorem Inv.counted (h : V.Inv) : V.Counted := by
  intro f hf ht
  have hfile : V.IsFile f := isFile_iff.mpr ⟨hf, by rw [ht]; decide⟩
  exact h.names.links hfile

/-- A count that goes up alone is wrong. -/
theorem Inv.not_counted (h : V.Inv) {f : ℕ} (hf : V.IsFile f) (hn : (V.inode f).nlink = 1) :
    ¬ (V.setInode f { V.inode f with nlink := (V.inode f).nlink + 1 }).Counted := by
  intro hck
  obtain ⟨hb, hN⟩ := h.setFile (I := { V.inode f with nlink := (V.inode f).nlink + 1 }) hf rfl rfl rfl le_rfl
  generalize V.setInode f { V.inode f with nlink := (V.inode f).nlink + 1 } = V' at hck hb hN
  have hf' : V'.IsFile f := by rw [IsFile, hN.kind]; exact hf
  obtain ⟨himap, htype⟩ := isFile_iff.mp hf'
  have hcount : (V'.names.nlink f).toNat = (V'.names.refs f).card := hck f himap ((hb.type himap).resolve_left htype)
  -- The entries are as they were.
  have hrefs : V'.names.refs f = V.names.refs f := by
    ext ⟨i, j⟩
    rw [Names.mem_refs_iff, Names.mem_refs_iff, Names.Link, Names.Link, Names.child, Names.child, hN.kind, hN.dent]
  have hlinks : (V.names.nlink f).toNat = (V.names.refs f).card := h.names.links hf
  have hn' : V.names.nlink f = 1 := hn
  rw [hN.nlink, if_pos rfl, hrefs, ← hlinks, hn', hn] at hcount
  have hne : ((1 : UInt16) + 1).toNat ≠ (1 : UInt16).toNat := by decide
  exact hne hcount

end Vol

/-! ### Removing a file that is not in the working directory -/

variable {V : View}

/-- `do_rm` of a file with one name that is not in the working directory: the inode is given back
and the name stays. -/
theorem do_rm_outside (h : V.Inv) (ht : V.Tidy) {path : CString}
    (hp : V.PathOk path) {f : ℕ} (hfind : V.find path = some f)
    (hf : V.IsFile f) (hn : (V.inode f).nlink = 1) (hout : ∀ j, (V.entry (V.dirBlock V.cwd) j).ino ≠ (V.inode f).ino) :
    Spec V (Fs.do_rm path) fun _ V' => V'.imap f = false ∧
      ∀ x, V.IsDir x → V'.IsDir x ∧ ∀ y, V'.names.dent x y = V.names.dent x y := by
  -- No entry of the working directory is cleared.
  have hnone : V.slotOf (V.inode f).ino = none := by
    rw [Vol.slotOf, List.find?_eq_none]
    intro j _
    simpa using hout j
  refine (do_rm_exact h ht hp).mono ?_
  rintro r V' ⟨-, ⟨-, -, hno⟩ | ⟨-, g, hg, -, hR⟩⟩
  · exact absurd hf (hno f hfind)
  obtain rfl : f = g := Option.some.inj (hfind.symm.trans hg)
  refine ⟨?_, fun x hx => ⟨?_, fun y => ?_⟩⟩
  · rw [← Vol.kind_eq_none, hR.kind, if_pos ⟨rfl, hn⟩]
  · have hxf : x ≠ f := by
      rintro rfl
      rw [Vol.IsFile, hx] at hf
      cases hf
    rw [Vol.IsDir, hR.kind, if_neg fun c => hxf c.1]
    exact hx
  · rw [hR.dent x y hx, hnone, if_neg (by simp)]

/-! ### Linking into a directory that does not exist -/

/-- `do_ln` when `add_file_dentry` does not find the directory: the count goes up all the same. -/
theorem do_ln_lost (h : V.Inv) (ht : V.Tidy) {src dst : CString}
    (hp : V.PathOk src) {f : ℕ} (hfind : V.find src = some f)
    (hf : V.IsFile f) {dir1 dir2 dir3 : List UInt8} (hparse : Fs.parse_path dst.chars = some (dir1, dir2, dir3))
    (hdir2 : dir2 ≠ []) (hlook : V.look (V.dirBlock V.cwd) dir1 = none) :
    Spec V (Fs.do_ln src dst) fun _ V' =>
    V'.toVol = V.setInode f { V.inode f with nlink := (V.inode f).nlink + 1 } := by
  refine h.withPath ht hp (fun hno => by rw [hfind] at hno; cases hno) ?_
  rintro g hg - V₁ hv₁ ht₁
  obtain rfl : f = g := Option.some.inj (hfind.symm.trans hg)
  obtain ⟨himap, htype⟩ := Vol.isFile_iff.mp hf
  have hino := h.ino himap
  have hlt := h.lt himap
  rw [if_neg htype]
  refine Does.wdInode.seq ?_
  have hb₁ : V₁.Base := hv₁ ▸ h.toBase
  have hadd : Spec V₁ (Fs.add_file_dentry V₁.wd dst (V.inode f).ino) fun _ V₂ => V₂.toVol = V.toVol := by
    rw [Fs.add_file_dentry, hparse]
    dsimp only
    rw [if_neg hdir2, hb₁.wd]
    refine (hb₁.lookup ht₁ hb₁.cwd dir1).seq ?_
    rw [hv₁, hlook]
    exact Spec.pure rfl
  refine hadd.bind ?_
  rintro _ V₂ hv₂
  have hlt' : (V.inode f).ino.toNat < NUM_INODES := by rw [hino]; exact hlt
  have hload := Does.loadInode (V := V₂) hlt'
  rw [hino, show V₂.inode f = V.inode f by rw [hv₂]] at hload
  refine hload.seq ?_
  rw [Fs.inodeidx2offset, inodeidx2sector_eq hlt', hino]
  refine (Does.setInodeBuf (by omega) _).seq ((Does.bwriteInode (by omega) hlt).seq (Spec.pure ?_))
  have hstore := View.storeInodes_update V₂ f { V.inode f with nlink := (V.inode f).nlink + 1 } hlt
  have hvol :
    ({ V₂.toVol with inode := Function.update V₂.inode f { V.inode f with nlink := (V.inode f).nlink + 1 } } :
      Vol) =
      V.setInode f { V.inode f with nlink := (V.inode f).nlink + 1 } := by
    rw [hv₂]
    rfl
  rw [← hvol, ← hstore]

/-! ### Runs -/

variable {s : Sys}

/-- The volume passes the check in every state of a run whose calls meet their conditions. -/
theorem fsck_of_reach (h : Reach (fun V call => call.Ok V) s) : s.vol.Fsck :=
  (h.sound fun _ _ hok => hok).inv.fsck

/-- So do the link counts of files. -/
theorem counted_of_reach (h : Reach (fun V call => call.Ok V) s) : s.vol.Counted :=
  (h.sound fun _ _ hok => hok).inv.counted

/-- `do_ln("proc/sys/vm", "y")`, `do_rm("y")` and `do_touch("x")` right after `do_mkfs`. -/
theorem fsck_session : ∃ s₀ s₁ s₂ s₃ : Sys, Made s₀ ∧
    exec cached (Fs.do_ln (.ofString "proc/sys/vm") (.ofString "y")) s₀ = some (0, s₁) ∧
    exec cached (Fs.do_rm (.ofString "y")) s₁ = some (0, s₂) ∧
    exec cached (Fs.do_touch (.ofString "x")) s₂ = some (0, s₃) ∧
    s₃.vol.Fsck := by
  obtain ⟨s₀, hs⟩ := made_start
  obtain ⟨s₁, s₂, s₃, h₁, h₂, h₃⟩ := hs.session
  have hr := (((hs.reach _).call h₁.ok h₁.exec).call h₂.ok h₂.exec).call h₃.ok h₃.exec
  exact ⟨s₀, s₁, s₂, s₃, hs, h₁.exec, h₂.exec, h₃.exec, fsck_of_reach hr⟩

theorem counted_session : ∃ s₀ s₁ s₂ s₃ : Sys, Made s₀ ∧
    exec cached (Fs.do_ln (.ofString "proc/sys/vm") (.ofString "y")) s₀ = some (0, s₁) ∧
    exec cached (Fs.do_rm (.ofString "y")) s₁ = some (0, s₂) ∧
    exec cached (Fs.do_touch (.ofString "x")) s₂ = some (0, s₃) ∧
    s₁.vol.Counted ∧ s₃.vol.Counted := by
  obtain ⟨s₀, hs⟩ := made_start
  obtain ⟨s₁, s₂, s₃, h₁, h₂, h₃⟩ := hs.session
  have hr₁ := (hs.reach _).call h₁.ok h₁.exec
  have hr := (hr₁.call h₂.ok h₂.exec).call h₃.ok h₃.exec
  exact ⟨s₀, s₁, s₂, s₃, hs, h₁.exec, h₂.exec, h₃.exec, counted_of_reach hr₁, counted_of_reach hr⟩

/-- A call that comes back leads to a state reached without conditions. -/
theorem Made.call {s' : Sys} (h : Made s) {call : SysCall} {r : ℤ} (he : exec cached call.code s = some (r, s')) :
    Reach (fun _ _ => True) s' := ⟨s, h, .single ⟨call, r, trivial, he⟩⟩

/-- `do_rm("proc/sys/vm")` right after `do_mkfs` gives back the inode of a file that still has its
name. -/
theorem fsck_rm_fails : ¬ ∀ s, Reach (fun _ _ => True) s → s.vol.Fsck := by
  intro hall
  obtain ⟨s, hs⟩ := made_start
  obtain ⟨hsound, hfresh, hcwd, -, -⟩ := hs.sound
  obtain ⟨hfind, hpath⟩ := hfresh.find_vm hcwd
  -- The root has one entry, for `proc`.
  have hout : ∀ j, (s.vol.entry (s.vol.dirBlock s.vol.cwd) j).ino ≠ (s.vol.inode 3).ino := by
    intro j he
    rw [hcwd] at he
    have hino : (s.vol.names.dent 0 j).ino.toNat = 3 :=
      (congrArg UInt32.toNat he).trans (hsound.inv.ino (Vol.imap_of_kind hfresh.file))
    have hu : (s.vol.names.dent 0 j).used = true := by
      by_contra hu
      rw [hsound.inv.names.vacant (hfresh.dir 0 (by decide)) (by simpa using hu)] at hino
      cases hino
    have hl : s.vol.names.Link 0 j 3 := ⟨hfresh.dir 0 (by decide), hu, hino⟩
    have := (hfresh.sole 0 (by decide)).link (hsound.inv.names.two_le hl hfresh.file) hl
    omega
  obtain ⟨r, s', he, -, himap, hdirs⟩ :=
    (do_rm_outside (V := s.view) hsound.inv hsound.tidy hpath hfind hfresh.file hfresh.nlink_vm hout).cached
      hsound.cache
  have hexec : exec cached (SysCall.do_rm (.ofString "proc/sys/vm")).code s = some (r, s') := he
  have hck := hall s' (hs.call hexec)
  -- The entries still lead to it.
  have hstep : ∀ {i j c}, s'.vol.Reachable i → s.vol.names.Link i j c → s'.vol.Reachable c := by
    rintro i j c hr ⟨hi, hu, rfl⟩
    obtain ⟨hi', hdent⟩ := hdirs i hi
    have hdent' : s'.vol.entry (s'.vol.dirBlock i) j = s.vol.names.dent i j := hdent j
    have := Vol.Reachable.entry (j := j) hr (Vol.isDir_iff.mp hi').2 (by rw [hdent']; exact hu)
    rw [hdent'] at this
    exact this
  obtain ⟨j₀, -, hl₀⟩ := hfresh.link_dir (i := 0) (by decide)
  obtain ⟨j₁, -, hl₁⟩ := hfresh.link_dir (i := 1) (by decide)
  obtain ⟨j₂, -, hl₂⟩ := hfresh.link_vm
  have h3 := (hck.inodes 3).mpr (hstep (hstep (hstep .root hl₀) hl₁) hl₂)
  have himap' : s'.vol.imap 3 = false := himap
  rw [himap'] at h3
  cases h3

/-- `do_ln("proc/sys/vm", "nodir/x")` right after `do_mkfs` counts a name that is not stored. -/
theorem counted_ln_fails : ¬ ∀ s, Reach (fun _ _ => True) s → s.vol.Counted := by
  intro hall
  obtain ⟨s, hs⟩ := made_start
  obtain ⟨hsound, hfresh, hcwd, -, -⟩ := hs.sound
  obtain ⟨hfind, hpath⟩ := hfresh.find_vm hcwd
  have hlook : s.vol.look (s.vol.dirBlock s.vol.cwd) (CString.ofString "nodir").chars = none := by
    rw [hcwd]
    exact hsound.inv.look_sole (hfresh.dir 0 (by decide))
      (hfresh.sole 0 (by decide)) (by decide) (by decide) (by decide)
      (by decide)
  have hparse : Fs.parse_path (CString.ofString "nodir/x").chars =
    some ((CString.ofString "nodir").chars, [120], []) := by decide
  obtain ⟨r, s', he, -, hv⟩ :=
    (do_ln_lost (V := s.view) hsound.inv hsound.tidy hpath hfind hfresh.file hparse (by decide) hlook).cached
      hsound.cache
  have hv' : s'.vol = s.vol.setInode 3 { s.vol.inode 3 with nlink := (s.vol.inode 3).nlink + 1 } := hv
  have hexec : exec cached (SysCall.do_ln (.ofString "proc/sys/vm") (.ofString "nodir/x")).code s = some (r, s') := he
  have hck := hall s' (hs.call hexec)
  rw [hv'] at hck
  exact hsound.inv.not_counted hfresh.file hfresh.nlink_vm hck

end OsLab
