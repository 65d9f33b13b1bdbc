import OsLab.Fs.OpenFiles

/-!
# Reading back

What `do_write` stores at a position of a file opened for reading and writing is read back by
`do_read` there, as far as the sectors hold it: of each block the code keeps the first 512 bytes
(`bread` and `bwrite` move one sector of the eight), so a byte at a higher offset in its block is
lost and reads as zero. Bytes of the file elsewhere are not changed.
-/

namespace OsLab

open Lib ProgM Bytes

/-- A write of `len` bytes at position `p` of file `f` finds its blocks. -/
structure Vol.RoomAt (V : Vol) (f p len : ℕ) : Prop where
  lt : p + len < 2 ^ 32
  /-- There are free blocks for those that the file lacks. -/
  enough : V.Enough f (blocksOf p len)
  /-- The index words on the way to the blocks lie in the first sector of their block. -/
  reach : ∀ n ∈ blocksOf p len, ∀ w ∈ (pathOf n).2, w < 128
  /-- The seven sectors that follow the inode's, which `do_write` overwrites, hold no inode in use. -/
  clobber : ∀ x, V.imap x = true → f / 8 < x / 8 → f / 8 + 8 ≤ x / 8

/-- `do_lseek(fd, q, SEEK_SET)` and `do_read(fd, buf, 1)` deliver `x`. -/
def Reads (s : Sys) (fd : ℤ) (q : ℕ) (x : UInt8) : Prop :=
  ∃ s₁ s₂ : Sys, exec cached (Fs.do_lseek fd q 0) s =
    some (0, s₁) ∧ exec cached (Fs.do_read fd 1) s₁ = some ((1, [x]), s₂)

/-- `d` is written at position `p` and read back, and what was in the file elsewhere reads as
before. -/
def ReadsBack (s : Sys) (fd : ℤ) (f p : ℕ) (d : List UInt8) : Prop :=
  ∃ s₁ s₂ s₃ s₄ : Sys, exec cached (Fs.do_lseek fd p 0) s = some (0, s₁) ∧
    exec cached (Fs.do_write fd d) s₁ = some ((d.length : ℤ), s₂) ∧ exec cached (Fs.do_lseek fd p 0) s₂ = some (0, s₃) ∧
    exec cached (Fs.do_read fd d.length) s₃ = some (((d.length : ℤ), d), s₄) ∧
    ∀ q < 2 ^ 32, ¬ (p ≤ q ∧ q < p + d.length) → (s.vol.file f).byte q ≠ none → ∀ x, Reads s fd q x → Reads s₄ fd q x

section ReadBack

variable {s : Sys} {fd : ℤ} {k : Fin NUM_FDESCS} {f : ℕ}

/-- A file opened for reading and writing. -/
structure OpenRw (s : Sys) (fd : ℤ) (k : Fin NUM_FDESCS) (f : ℕ) : Prop where
  sound : Sound s
  index : Fs.fdIndex fd = some k
  opened : Opened s.vol k f
  mode : (s.vol.fdesc k).mode = O_RDWR

theorem Vol.file_setFdesc (V : Vol) (k : Fin NUM_FDESCS) (x : Fdesc) (f : ℕ) : (V.setFdesc k x).file f = V.file f := rfl

theorem Vol.RoomAt.setFdesc {V : Vol} {p len : ℕ} (h : V.RoomAt f p len) (k : Fin NUM_FDESCS) (x : Fdesc) :
    (V.setFdesc k x).RoomAt f p len := ⟨h.lt, h.enough, h.reach, h.clobber⟩

theorem toNat_ofInt {p : ℕ} (h : p < 2 ^ 32) : (UInt32.ofInt p).toNat = p := by
  have hmod : ((p : ℤ) % 2 ^ 32).toNat = p := by omega
  rw [UInt32.ofInt, hmod]
  exact UInt32.toNat_ofNat_of_lt' h

/-- `do_lseek` to a position. -/
theorem OpenRw.seek (h : OpenRw s fd k f) (p : ℕ) : ∃ s₁ : Sys, exec cached (Fs.do_lseek fd p 0) s = some (0, s₁) ∧
    OpenRw s₁ fd k f ∧
    s₁.vol = s.vol.setFdesc k
    { s.vol.fdesc k with read_pos := UInt32.ofInt p, write_pos := UInt32.ofInt p } := by
  have hlt : (s.vol.fdesc k).ino.toNat < NUM_INODES := by
    rw [h.opened.ino]
    exact h.sound.inv.lt (Vol.imap_of_kind h.opened.file)
  obtain ⟨r, s₁, he, hc, rfl, ht, hv⟩ :=
    (do_lseek_set (V := s.view) p h.sound.tidy h.index h.opened.valid hlt).cached h.sound.cache
  have hv' :
    s₁.vol = s.vol.setFdesc k
    { s.vol.fdesc k with read_pos := UInt32.ofInt p, write_pos := UInt32.ofInt p } := hv
  have hfd : s₁.vol.fdesc k = { s.vol.fdesc k with read_pos := UInt32.ofInt p, write_pos := UInt32.ofInt p } := by
    rw [hv', Vol.fdesc_setFdesc]
  refine ⟨s₁, he, ⟨⟨hc, ht, by rw [hv']; exact h.sound.inv.setFdesc k _⟩, h.index, ⟨?_, ?_, ?_⟩, ?_⟩, hv'⟩
  · rw [hfd]
    exact h.opened.valid
  · rw [hfd]
    exact h.opened.ino
  · rw [hv']
    exact h.opened.file
  · rw [hfd]
    exact h.mode

/-- `do_read` of positions whose blocks the file has. -/
theorem OpenRw.read (h : OpenRw s fd k f) (cs : List UInt8) {p : ℕ} (hp : (s.vol.fdesc k).read_pos.toNat = p)
    (hlt : p + cs.length ≤ 2 ^ 32) (hcs : ∀ j (hj : j < cs.length), (s.vol.file f).byte (p + j) = some cs[j]) :
    ∃ s₁ : Sys, exec cached (Fs.do_read fd cs.length) s = some (((cs.length : ℤ), cs), s₁) ∧ OpenRw s₁ fd k f ∧
      s₁.vol.file f = s.vol.file f := by
  have hok : s.vol.ReadOk fd := by
    intro k' hk' _ _
    obtain rfl : k = k' := Option.some.inj (h.index.symm.trans hk')
    rw [h.opened.ino]
    exact h.opened.file
  obtain ⟨⟨n, bs⟩, s₁, he, hc, ht, hR⟩ :=
    (do_read_spec (V := s.view) cs.length h.sound.inv h.sound.tidy hok).cached h.sound.cache
  obtain ⟨-, -, hno⟩ | ⟨k', now, pos, hk', -, hv, hn, hlen, hD⟩ := hR
  · obtain hv | hm := hno k h.index
    · exact absurd hv h.opened.valid
    · cases (hm : (s.vol.fdesc k).mode = O_WRONLY).symm.trans h.mode
  obtain rfl : k = k' := Option.some.inj (h.index.symm.trans hk')
  have hv' : s₁.vol = s.vol.readBy k f now pos := by
    rw [← h.opened.ino]
    exact hv
  obtain ⟨hinv, hsame, -, hfiles⟩ := h.sound.inv.readBy h.opened.file k now pos
  -- The bytes delivered are those of the file.
  have hbs : bs = cs := by
    refine List.ext_getElem? fun j => ?_
    have hlen' : bs.length = cs.length := by simpa using hlen
    by_cases hj : j < cs.length
    · obtain ⟨c, hc, hd, -⟩ := hD j (by simpa using hj)
      have hpj : ((s.view.fdesc k).read_pos.toNat + j) % 2 ^ 32 = p + j := by
        rw [show (s.view.fdesc k).read_pos.toNat = p from hp]
        exact Nat.mod_eq_of_lt (by omega)
      rw [hpj, show (s.view.fdesc k).ino.toNat = f from h.opened.ino] at hd
      rw [hc, hd _ (hcs j hj), List.getElem?_eq_getElem hj]
    · rw [List.getElem?_eq_none (by omega), List.getElem?_eq_none (by omega)]
  have hfd : s₁.vol.fdesc k = { s.vol.fdesc k with read_pos := pos } := by
    rw [hv', Vol.readBy, Vol.fdesc_setFdesc]
  refine ⟨s₁, ?_, ⟨⟨hc, ht, by rw [hv']; exact hinv⟩, h.index, ⟨?_, ?_, ?_⟩, ?_⟩, by rw [hv']; exact hfiles f⟩
  · rw [he, hbs, show n = (cs.length : ℤ) from hn]
  · rw [hfd]
    exact h.opened.valid
  · rw [hfd]
    exact h.opened.ino
  · rw [hv', Vol.IsFile, hsame.kind]
    exact h.opened.file
  · rw [hfd]
    exact h.mode

/-- What is read at a position whose block the file has. -/
theorem OpenRw.reads_iff (h : OpenRw s fd k f) {q : ℕ} (hq : q < 2 ^ 32)
    {y : UInt8} (hy : (s.vol.file f).byte q = some y) (x : UInt8) :
    Reads s fd q x ↔ x = y := by
  obtain ⟨s₁, he₁, h₁, hv₁⟩ := h.seek q
  have hfile : s₁.vol.file f = s.vol.file f := by rw [hv₁, Vol.file_setFdesc]
  have hpos : (s₁.vol.fdesc k).read_pos.toNat = q := by rw [hv₁, Vol.fdesc_setFdesc]; exact toNat_ofInt hq
  obtain ⟨s₂, he₂, -⟩ := h₁.read [y] hpos (by rw [List.length_singleton]; omega) fun j hj => by
    obtain rfl : j = 0 := by simpa using hj
    rw [hfile]
    exact hy
  constructor
  · rintro ⟨t₁, t₂, ht₁, ht₂⟩
    obtain ⟨-, rfl⟩ := Prod.mk.inj (Option.some.inj (he₁.symm.trans ht₁))
    have := congrArg Prod.fst (Option.some.inj (he₂.symm.trans ht₂))
    simpa using this.symm
  · rintro rfl
    exact ⟨s₁, s₂, he₁, he₂⟩

/-- `do_write` at a position. -/
theorem OpenRw.write (h : OpenRw s fd k f) {p : ℕ}
    (hp : (s.vol.fdesc k).write_pos.toNat = p) {d : List UInt8} (hd : d ≠ [])
    (hroom : s.vol.RoomAt f p d.length) : ∃ s₁ : Sys, exec cached (Fs.do_write fd d) s = some ((d.length : ℤ), s₁) ∧
      OpenRw s₁ fd k f ∧ s₁.vol.file f = ((s.vol.file f).grow (p / 4096)).write p d := by
  have hino := h.opened.ino
  have hpos : 0 < d.length := List.length_pos_iff.mpr hd
  have hok : s.vol.WriteOk k d.length := by
    refine ⟨?_, ?_, ?_, ?_, ?_, fun h0 => absurd h0 (by omega)⟩
    · rw [hino]
      exact h.opened.file
    · rw [hp]
      exact hroom.lt
    · rw [hp]
      exact hroom.reach
    · rw [hp, hino]
      exact hroom.enough
    · rw [hino]
      exact hroom.clobber
  have hcall : SysCall.Ok s.vol (.do_write fd d) := ⟨k, h.index, hok⟩
  obtain ⟨r, s₁, he, hsound, hE⟩ := h.sound.call hcall
  have hfd := hE.fdesc h.index h.opened.valid (by simp)
  obtain ⟨k', rfl, hk', -, hW, -⟩ := hE
  obtain rfl : k = k' := Option.some.inj (h.index.symm.trans hk')
  rw [hino, hp] at hW
  refine ⟨s₁, he, ⟨hsound, h.index, ⟨?_, ?_, ?_⟩, ?_⟩, hW.file⟩
  · rw [hfd.1]
    exact h.opened.valid
  · rw [hfd.2.1]
    exact hino
  · rw [Vol.IsFile, hW.names.kind]
    exact h.opened.file
  · rw [hfd.2.2]
    exact h.mode

/-- The bytes that are read back. -/
def kept (p : ℕ) (d : List UInt8) : List UInt8 := d.mapIdx fun i c => if (p + i) % 4096 < SECTOR_SIZE then c else 0

theorem kept_eq_iff (p : ℕ) (d : List UInt8) : kept p d = d ↔
    ∀ i (hi : i < d.length), SECTOR_SIZE ≤ (p + i) % 4096 → d[i] = 0 := by
  constructor
  · intro he i hi hge
    have hk : (kept p d)[i]? = some 0 := by
      simp [kept, hi, show ¬ (p + i) % 4096 < SECTOR_SIZE by omega]
    rw [he, List.getElem?_eq_getElem hi] at hk
    exact Option.some.inj hk
  · intro hall
    refine List.ext_getElem (by simp [kept]) fun i hi hi' => ?_
    simp only [kept, List.getElem_mapIdx]
    split
    · rfl
    · exact (hall i hi' (by omega)).symm

/-- What is written, as it is read back: the run of the four calls. -/
theorem OpenRw.writeRead (h : OpenRw s fd k f) {p : ℕ} {d : List UInt8}
    (hd : d ≠ []) (hroom : s.vol.RoomAt f p d.length) :
    ∃ s₁ s₂ s₃ s₄ : Sys, exec cached (Fs.do_lseek fd p 0) s = some (0, s₁) ∧
      exec cached (Fs.do_write fd d) s₁ = some ((d.length : ℤ), s₂) ∧
      exec cached (Fs.do_lseek fd p 0) s₂ = some (0, s₃) ∧
      exec cached (Fs.do_read fd d.length) s₃ = some (((d.length : ℤ), kept p d), s₄) ∧
      ∀ q < 2 ^ 32, ¬ (p ≤ q ∧ q < p + d.length) → (s.vol.file f).byte q ≠ none → ∀ x,
      Reads s fd q x → Reads s₄ fd q x := by
  have hplt : p < 2 ^ 32 := Nat.lt_of_le_of_lt (Nat.le_add_right p _) hroom.lt
  obtain ⟨s₁, he₁, h₁, hv₁⟩ := h.seek p
  have hroom₁ : s₁.vol.RoomAt f p d.length := by
    rw [hv₁]
    exact hroom.setFdesc k _
  have hpos₁ : (s₁.vol.fdesc k).write_pos.toNat = p := by rw [hv₁, Vol.fdesc_setFdesc]; exact toNat_ofInt hplt
  obtain ⟨s₂, he₂, h₂, hf₂⟩ := h₁.write hpos₁ hd hroom₁
  rw [hv₁, Vol.file_setFdesc] at hf₂
  obtain ⟨s₃, he₃, h₃, hv₃⟩ := h₂.seek p
  have hf₃ : s₃.vol.file f = s₂.vol.file f := by rw [hv₃, Vol.file_setFdesc]
  have hpos₃ : (s₃.vol.fdesc k).read_pos.toNat = p := by rw [hv₃, Vol.fdesc_setFdesc]; exact toNat_ofInt hplt
  have hlen : (kept p d).length = d.length := by simp [kept]
  obtain ⟨s₄, he₄, h₄, hf₄⟩ := h₃.read (kept p d) hpos₃ (by rw [hlen]; exact hroom.lt.le) fun j hj => by
    rw [hf₃, hf₂, File.byte_write d (by omega)]
    simp [kept]
  rw [hlen] at he₄
  refine ⟨s₁, s₂, s₃, s₄, he₁, he₂, he₃, he₄, fun q hq hout hbyte x hx => ?_⟩
  obtain ⟨y, hy⟩ := Option.ne_none_iff_exists'.mp hbyte
  have hy₄ : (s₄.vol.file f).byte q = some y := by
    rw [hf₄, hf₃, hf₂]
    exact File.byte_write_of_ne d (File.byte_grow hy) hout
  rw [(h.reads_iff hq hy x).mp hx]
  exact (h₄.reads_iff hq hy₄ y).mpr rfl

/-- The run of the four calls reads `d` back exactly when it is kept. -/
theorem OpenRw.back_iff (h : OpenRw s fd k f) {p : ℕ} {d : List UInt8}
    (hd : d ≠ []) (hroom : s.vol.RoomAt f p d.length) :
    ReadsBack s fd f p d ↔ kept p d = d := by
  obtain ⟨s₁, s₂, s₃, s₄, he₁, he₂, he₃, he₄, hkeep⟩ := h.writeRead hd hroom
  constructor
  · rintro ⟨t₁, t₂, t₃, t₄, ht₁, ht₂, ht₃, ht₄, -⟩
    obtain ⟨-, rfl⟩ := Prod.mk.inj (Option.some.inj (he₁.symm.trans ht₁))
    obtain ⟨-, rfl⟩ := Prod.mk.inj (Option.some.inj (he₂.symm.trans ht₂))
    obtain ⟨-, rfl⟩ := Prod.mk.inj (Option.some.inj (he₃.symm.trans ht₃))
    exact congrArg (fun r => r.1.2) (Option.some.inj (he₄.symm.trans ht₄))
  · intro hk
    rw [hk] at he₄
    exact ⟨s₁, s₂, s₃, s₄, he₁, he₂, he₃, he₄, hkeep⟩

/-- Reading back, in every state of a run whose calls meet their conditions, for every file opened
for reading and writing, every position and all data for which there is room: it succeeds exactly
when the bytes that lie beyond the first sector of their block are zero. -/
theorem readsBack_iff (h : Reach (fun V call => call.Ok V) s) (hk : Fs.fdIndex fd = some k) (ho : Opened s.vol k f)
    (hm : (s.vol.fdesc k).mode = O_RDWR) {p : ℕ} {d : List UInt8} (hd : d ≠ []) (hroom : s.vol.RoomAt f p d.length) :
    ReadsBack s fd f p d ↔ ∀ i (hi : i < d.length), SECTOR_SIZE ≤ (p + i) % 4096 → d[i] = 0 := by
  have hrw : OpenRw s fd k f := ⟨h.sound fun _ _ hok => hok, hk, ho, hm⟩
  rw [hrw.back_iff hd hroom, kept_eq_iff]

/-- The first block of `vm` is there. -/
theorem Vol.Fresh.roomAt {V : Vol} (h : V.Fresh) (hleaf : V.leaf 3 0 ≠ none)
    {p len : ℕ} (h0 : 0 < len) (hle : p + len ≤ 4096) :
    V.RoomAt 3 p len := by
  -- The conditions of a write through a descriptor at the position.
  let k : Fin NUM_FDESCS := ⟨0, by decide⟩
  let x : Fdesc := ⟨3, 1, 3, 0, UInt32.ofInt p⟩
  have hpos : x.write_pos.toNat = p := toNat_ofInt (by omega)
  have hw : (V.setFdesc k x).WriteOk k len :=
    (h.setFdesc k x).writeOk (by rw [Vol.fdesc_setFdesc]) h0 (by rw [Vol.fdesc_setFdesc, hpos]; exact hle)
      (Or.inl hleaf)
  obtain ⟨-, hlt, hreach, henough, hclobber, -⟩ := hw
  rw [Vol.fdesc_setFdesc] at hlt hreach henough hclobber
  rw [hpos] at hlt hreach henough
  exact ⟨hlt, henough, hreach, hclobber⟩

/-- `vm`, opened for reading and writing right after `do_mkfs`, has 53 bytes and room in its first block. -/
theorem exists_openRw : ∃ (s : Sys) (fd : ℤ) (k : Fin NUM_FDESCS), Reach (fun V call => call.Ok V) s ∧ OpenRw s fd k 3 ∧
    (∀ p len, 0 < len → p + len ≤ 4096 → s.vol.RoomAt 3 p len) ∧
    (s.vol.fdesc k).read_pos = 0 ∧ (s.vol.inode 3).size = 53 ∧
    s.vol.file 3 0 ≠ none := by
  obtain ⟨s₀, hs⟩ := made_start
  obtain ⟨hsound₀, hfresh₀, hcwd₀, hleaf₀, -⟩ := hs.sound
  obtain ⟨hfind, hpath⟩ := hfresh₀.find_vm hcwd₀
  obtain ⟨fd, s, he, hfd⟩ := hs.openVm 3
  obtain ⟨k, f, hk, hf, hsound, ho, hv⟩ := hsound₀.opened hpath he hfd
  obtain rfl : 3 = f := Option.some.inj (hfind.symm.trans hf)
  have hmode : (s.vol.fdesc k).mode = O_RDWR := by
    rw [hv, Vol.fdesc_setFdesc]
    show UInt8.ofInt 3 = O_RDWR
    decide
  have hok : SysCall.Ok s₀.vol (.do_open (.ofString "proc/sys/vm") 3) := hpath
  have hfresh : s.vol.Fresh := by rw [hv]; exact hfresh₀.setFdesc k _
  have hleaf : s.vol.leaf 3 0 ≠ none := by rw [hv, Vol.leaf_setFdesc]; exact hleaf₀
  have hsize : (s₀.vol.inode 3).size = 53 := congrArg Inode.size hs.vol.tree.file
  refine ⟨s, fd, k, ⟨s₀, hs, .single ⟨_, fd, hok, he⟩⟩,
    ⟨hsound, hk, ho, hmode⟩, fun p len h0 hle => hfresh.roomAt hleaf h0 hle,
    by rw [hv, Vol.fdesc_setFdesc], by rw [hv]; exact hsize, fun hnone => hleaf (Option.map_eq_none_iff.mp hnone)⟩

theorem readsBack_start : ∃ (s : Sys) (fd : ℤ) (k : Fin NUM_FDESCS),
    Reach (fun V call => call.Ok V) s ∧ Opened s.vol k 3 ∧
    s.vol.RoomAt 3 40 1 ∧ ReadsBack s fd 3 40 [7] := by
  obtain ⟨s, fd, k, hr, h, hroom, -⟩ := exists_openRw
  refine ⟨s, fd, k, hr, h.opened, hroom 40 1 (by decide) (by decide), ?_⟩
  refine (readsBack_iff hr h.index h.opened h.mode (by decide) (hroom 40 1 (by decide) (by decide))).mpr ?_
  intro i hi hge
  obtain rfl : i = 0 := by simpa using hi
  exact absurd hge (by decide)

/-- One byte written at position 512 of `vm` is not read back. -/
theorem readsBack_fails : ¬ ∀ (s : Sys) (fd : ℤ) (k : Fin NUM_FDESCS) (f p : ℕ) (d : List UInt8),
    Reach (fun _ _ => True) s →
    Fs.fdIndex fd = some k → Opened s.vol k f → (s.vol.fdesc k).mode = O_RDWR → d ≠ [] → p + d.length < 2 ^ 32 →
    s.vol.Enough f (blocksOf p d.length) → ReadsBack s fd f p d := by
  intro hall
  obtain ⟨s, fd, k, hr, h, hroom, -⟩ := exists_openRw
  have hroom' := hroom 512 1 (by decide) (by decide)
  have hr' : Reach (fun _ _ => True) s := hr.mono fun _ _ _ => trivial
  have hback := hall s fd k 3 512 [1] hr' h.index h.opened h.mode (by decide) (by decide) hroom'.enough
  rw [h.back_iff (by decide) hroom'] at hback
  exact absurd hback (by decide)

end ReadBack

end OsLab
