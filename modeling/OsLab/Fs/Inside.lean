import OsLab.Fs.ReadBack

/-!
# Reading inside the file

`do_read` does not look at the size of the file and takes the pointer 0 of a hole for a sector. So it delivers what
it should exactly when the positions it is asked for end before the size does, and each of them lies in a block
of the file, or behind the sector of a block that is ever loaded (`do_read_inside_iff`).

That a byte comes from the file's own blocks is said without a look into the code: it is the same over every
card that differs elsewhere only.
-/

namespace OsLab

open Lib ProgM Bytes

variable {s s₂ : Sys} {fd : ℤ} {k : Fin NUM_FDESCS} {f n : ℕ} {W : Set ℕ}

/-! ### Positions never written -/

namespace File

variable {F : File} {p q : ℕ} {x : UInt8}

/-- Outside of `W` the blocks of the file are zero. -/
def ZeroOutside (F : File) (W : Set ℕ) : Prop := ∀ q x, q ∉ W → F.byte q = some x → x = 0

theorem byte_of_grow {n : ℕ} (h : (F.grow n).byte q = some x) : F.byte q = some x ∨ x = 0 := by
  obtain ⟨s, hs, rfl⟩ := Option.map_eq_some_iff.mp h
  rw [grow, Function.update_apply] at hs
  split at hs
  · next hn =>
    obtain rfl := Option.some.inj hs
    cases hF : F n with
    | none =>
      right
      rw [Option.getD_none]
      by_cases ho : q % 4096 < SECTOR_SIZE
      · rw [ofSector, put_of_lt _ _ ho]
        rfl
      · exact ofSector_of_le _ (by omega)
    | some s =>
      left
      rw [byte, hn, hF]
      rfl
  · left
    rw [byte, hs]
    rfl

theorem byte_of_put {c : UInt8} (hne : q ≠ p) (h : (F.put p c).byte q = some x) : F.byte q = some x ∨ x = 0 := by
  by_cases hb : q / 4096 = p / 4096
  · obtain ⟨s, hs, rfl⟩ := Option.map_eq_some_iff.mp h
    rw [put, hb, Function.update_self] at hs
    obtain rfl := Option.some.inj hs
    rw [ofSector_setByte, if_neg (by omega)]
    -- A block that is mapped now starts as zeros.
    have hgrow : (F.grow (p / 4096)).byte q = some (ofSector ((F (p / 4096)).getD zero) (q % 4096)) := by
      rw [byte, hb, grow, Function.update_self]
      rfl
    exact byte_of_grow hgrow
  · left
    rw [byte, put, Function.update_of_ne hb] at h
    exact h

theorem ZeroOutside.grow {W : Set ℕ} (h : F.ZeroOutside W) (n : ℕ) : (F.grow n).ZeroOutside W := by
  intro q x hq hx
  obtain hx | hx := byte_of_grow hx
  · exact h q x hq hx
  · exact hx

theorem ZeroOutside.put {W : Set ℕ} (h : F.ZeroOutside W) (p : ℕ) (c : UInt8) : (F.put p c).ZeroOutside (W ∪ {p}) := by
  intro q x hq hx
  have hne : q ≠ p := fun e => hq (Or.inr e)
  obtain hx | hx := byte_of_put hne hx
  · exact h q x (fun hw => hq (Or.inl hw)) hx
  · exact hx

theorem ZeroOutside.mono {W W' : Set ℕ} (h : F.ZeroOutside W) (hsub : W ⊆ W') : F.ZeroOutside W' :=
  fun q x hq hx => h q x (fun hw => hq (hsub hw)) hx

/-- Storing bytes makes no position but theirs other than zero. -/
theorem ZeroOutside.write {W : Set ℕ} (h : F.ZeroOutside W) (p : ℕ) (cs : List UInt8) :
    (F.write p cs).ZeroOutside (W ∪ {q | p ≤ q ∧ q < p + cs.length}) := by
  induction cs generalizing F W p with
  | nil => exact h.mono fun q hq => Or.inl hq
  | cons c cs ih =>
    refine (ih (h.put p c) (p + 1)).mono ?_
    rintro q ((hw | rfl) | ⟨h1, h2⟩)
    · exact Or.inl hw
    · exact Or.inr ⟨le_rfl, by simp⟩
    · exact Or.inr ⟨by omega, by simp only [List.length_cons]; omega⟩

end File

/-- A history of file `f`, with the positions written: it starts from what the file holds, and goes on
with calls that leave the blocks of the file alone and with writes to it. -/
inductive History (f : ℕ) : Set ℕ → Sys → Prop where
  | start {s : Sys} (h : Sound s) : History f {q | ∃ x, x ≠ 0 ∧ (s.vol.file f).byte q = some x} s
  | call {s s' : Sys} {W : Set ℕ} {r : ℤ} {c : SysCall} (h : History f W s) (hok : c.Ok s.vol)
      (he : exec cached c.code s = some (r, s')) (hsame : s'.vol.file f = s.vol.file f) : History f W s'
  | write {s s' : Sys} {W : Set ℕ} {fd r : ℤ} {k : Fin NUM_FDESCS}
      {cs : List UInt8} (h : History f W s) (hk : Fs.fdIndex fd = some k)
      (hf : (s.vol.fdesc k).ino.toNat = f) (hok : s.vol.WriteOk k cs.length)
      (he : exec cached (Fs.do_write fd cs) s = some (r, s')) :
    History f (W ∪ {q | (s.vol.fdesc k).write_pos.toNat ≤ q ∧ q < (s.vol.fdesc k).write_pos.toNat + cs.length}) s'

/-- In every history the volume stays in order, and the positions never written are zero. -/
theorem History.zeroOutside (h : History f W s) : Sound s ∧ (s.vol.file f).ZeroOutside W := by
  induction h with
  | start h =>
    refine ⟨h, fun q x hq hx => ?_⟩
    by_contra hne
    exact hq ⟨x, hne, hx⟩
  | call _ hok he hsame ih =>
    obtain ⟨hs, hz⟩ := ih
    obtain ⟨r', t, he', ht, -⟩ := hs.call hok
    obtain ⟨-, rfl⟩ := Prod.mk.inj (Option.some.inj (he.symm.trans he'))
    exact ⟨ht, by rw [hsame]; exact hz⟩
  | @write s s' W fd r k cs _ hk hf hok he ih =>
    obtain ⟨hs, hz⟩ := ih
    have hcall : SysCall.Ok s.vol (.do_write fd cs) := ⟨k, hk, hok⟩
    obtain ⟨r', t, he', ht, k', -, hk', -, hW, -⟩ := hs.call hcall
    obtain ⟨-, rfl⟩ := Prod.mk.inj (Option.some.inj (he.symm.trans he'))
    obtain rfl : k = k' := Option.some.inj (hk.symm.trans hk')
    rw [hf] at hW
    exact ⟨ht, by rw [hW.file]; exact (hz.grow _).write _ cs⟩

/-! ### What a read is to deliver -/

/-- The two states have the same descriptor `k`, the same inode `f` and the same blocks of this file. -/
structure SameFile (s s₂ : Sys) (k : Fin NUM_FDESCS) (f : ℕ) : Prop where
  fdesc : s₂.vol.fdesc k = s.vol.fdesc k
  imap : s₂.vol.imap f = s.vol.imap f
  inode : s₂.vol.inode f = s.vol.inode f
  file : s₂.vol.file f = s.vol.file f

/-- The number of bytes that a read of `n` bytes at position `p` of a file of `size` bytes is to deliver. -/
def readCount (size p n : ℕ) : ℕ := min n (size - p)

/-- `do_read(fd, buf, n)` delivers what the file holds from its position on, up to its size: zero where
nothing was written, and nothing that lies outside of the file's blocks. -/
def ReadsInside (s : Sys) (fd : ℤ) (k : Fin NUM_FDESCS) (f n : ℕ) (W : Set ℕ) : Prop :=
  ∃ bs s', exec cached (Fs.do_read fd n) s = some (((bs.length : ℤ), bs), s') ∧
    bs.length = readCount (s.vol.inode f).size.toNat (s.vol.fdesc k).read_pos.toNat n ∧
    (∀ j (hj : j < bs.length), (s.vol.fdesc k).read_pos.toNat + j ∉ W → bs[j] = 0) ∧
    ∀ s₂, Sound s₂ → SameFile s s₂ k f → ∃ s₂', exec cached (Fs.do_read fd n) s₂ = some (((bs.length : ℤ), bs), s₂')

/-- A file opened for reading. -/
structure OpenRd (s : Sys) (fd : ℤ) (k : Fin NUM_FDESCS) (f : ℕ) : Prop where
  sound : Sound s
  index : Fs.fdIndex fd = some k
  opened : Opened s.vol k f
  mode : (s.vol.fdesc k).mode ≠ O_WRONLY

/-- What `do_read` delivers. -/
theorem OpenRd.read (h : OpenRd s fd k f) (n : ℕ) :
    ∃ bs s', exec cached (Fs.do_read fd n) s = some (((n : ℤ), bs), s') ∧ bs.length = n ∧
    ∀ j (hj : j < bs.length), Delivers s.vol s.view.boot f (((s.vol.fdesc k).read_pos.toNat + j) % 2 ^ 32) bs[j] := by
  have hok : s.vol.ReadOk fd := by
    intro k' hk' _ _
    obtain rfl : k = k' := Option.some.inj (h.index.symm.trans hk')
    rw [h.opened.ino]
    exact h.opened.file
  obtain ⟨⟨r, bs⟩, s', he, -, -, hR⟩ :=
    (do_read_spec (V := s.view) (n : ℤ) h.sound.inv h.sound.tidy hok).cached h.sound.cache
  obtain ⟨-, -, hno⟩ | ⟨k', now, pos, hk', -, -, hr, hlen, hD⟩ := hR
  · obtain hv | hm := hno k h.index
    · exact absurd hv h.opened.valid
    · exact absurd hm h.mode
  obtain rfl : k = k' := Option.some.inj (h.index.symm.trans hk')
  obtain rfl : r = n := hr
  have hlen' : bs.length = n := by simpa using hlen
  refine ⟨bs, s', he, hlen', fun j hj => ?_⟩
  obtain ⟨c, hc, hd⟩ := hD j (by simpa [hlen'] using hj)
  obtain rfl : bs[j] = c := Option.some.inj ((List.getElem?_eq_getElem hj).symm.trans hc)
  rw [show (s.view.fdesc k).ino.toNat = f from h.opened.ino] at hd
  exact hd

theorem OpenRd.same (h : OpenRd s fd k f) (h₂ : Sound s₂) (hsame : SameFile s s₂ k f) : OpenRd s₂ fd k f := by
  refine ⟨h₂, h.index, ⟨?_, ?_, ?_⟩, ?_⟩
  · rw [hsame.fdesc]
    exact h.opened.valid
  · rw [hsame.fdesc]
    exact h.opened.ino
  · rw [Vol.isFile_iff, hsame.imap, hsame.inode]
    exact Vol.isFile_iff.mp h.opened.file
  · rw [hsame.fdesc]
    exact h.mode

/-- The same state over a card that has `c` in every byte below the file system. -/
def Sys.withBoot (s : Sys) (c : UInt8) : Sys :=
  ⟨s.mem, Bcache.init_bcache
    { Bcache.blank with card := fun x => if x < FS_START_SECTOR then fun _ => c else s.dev.logical x }⟩

/-- Two states that agree from the file system's first sector on have the same view, but for the sectors below. -/
theorem View.of_congr (m : Mem) {d e : Disk} (h : ∀ x, FS_START_SECTOR ≤ x → e x = d x) :
    View.of ⟨m, e⟩ = { View.of ⟨m, d⟩ with boot := fun x => if x < FS_START_SECTOR then e x else fun _ => 0 } := by
  have hinode : ∀ i, e (inodeSector i) = d (inodeSector i) := fun i => h _ (by unfold inodeSector; omega)
  have hblock : ∀ b, FS_START_SECTOR ≤ blockSector b := fun b => by
    unfold blockSector
    rw [DATA_eq]
    unfold FS_START_SECTOR
    omega
  have hlast : ∀ b, e (blockSector b + 7) = d (blockSector b + 7) :=
    fun b => h _ (le_trans (hblock b) (Nat.le_add_right _ _))
  have hfirst : ∀ b, e (blockSector b) = d (blockSector b) := fun b => h _ (hblock b)
  have himap : e Fs.INODE_MAP = d Fs.INODE_MAP := h _ (by decide)
  have hbmap : e (Fs.BLOCK_MAP + 31) = d (Fs.BLOCK_MAP + 31) := h _ (by decide)
  simp only [View.of, hinode, hlast, hfirst, himap, hbmap]

theorem logical_withBoot (s : Sys) (c : UInt8) (x : ℕ) :
    (s.withBoot c).dev.logical x = if x < FS_START_SECTOR then fun _ => c else s.dev.logical x := by
  rw [Sys.withBoot, Bcache.logical_init_bcache]

theorem Sys.view_withBoot (s : Sys) (c : UInt8) :
    (s.withBoot c).view = { s.view with boot := fun x => if x < FS_START_SECTOR then fun _ => c else fun _ => 0 } := by
  have h := View.of_congr s.mem (d := s.dev.logical) (e := (s.withBoot c).dev.logical) fun x hx => by
    rw [logical_withBoot, if_neg (by omega)]
  have hboot : (fun x => if x < FS_START_SECTOR then (s.withBoot c).dev.logical x else fun _ => 0) =
      fun x => if x < FS_START_SECTOR then fun _ => c else fun _ => 0 := by
    funext x
    rw [logical_withBoot]
    split
    · rfl
    · rfl
  rw [Sys.view, show (s.withBoot c).mem = s.mem from rfl, h, hboot, Sys.view]

theorem Sound.withBoot (h : Sound s) (c : UInt8) : Sound (s.withBoot c) := by
  have hvol : (s.withBoot c).vol = s.vol := by rw [Sys.vol, Sys.view_withBoot, Sys.vol]
  refine ⟨⟨[], Bcache.init_bcache_inv _⟩, ?_, by rw [hvol]; exact h.inv⟩
  rw [Sys.view_withBoot]
  exact ⟨h.tidy.dbuf, h.tidy.rbuf⟩

theorem SameFile.withBoot (s : Sys) (c : UInt8) : SameFile s (s.withBoot c) k f := by
  have hvol : (s.withBoot c).vol = s.vol := by rw [Sys.vol, Sys.view_withBoot, Sys.vol]
  exact ⟨by rw [hvol], by rw [hvol], by rw [hvol], by rw [hvol]⟩

/-! ### The condition -/

/-- Two states that share the file deliver the same bytes wherever the file has a block or the sector read
instead is not looked at. -/
theorem OpenRd.read_same (h : OpenRd s fd k f) (h₂ : Sound s₂) (hsame : SameFile s s₂ k f) {n : ℕ} {bs : List UInt8}
    (hlen : bs.length = n) {p : ℕ} (hp : (s.vol.fdesc k).read_pos.toNat = p) (hlt : n = 0 ∨ p + n ≤ 2 ^ 32)
    (hbs : ∀ j (hj : j < bs.length), Delivers s.vol s.view.boot f ((p + j) % 2 ^ 32) bs[j])
    (hmap : ∀ q, p ≤ q → q < p + n → s.vol.file f (q / 4096) ≠ none ∨ SECTOR_SIZE ≤ q % 4096) :
    ∃ s₂', exec cached (Fs.do_read fd n) s₂ = some (((n : ℤ), bs), s₂') := by
  obtain ⟨bs₂, s₂', he, hlen₂, hbs₂⟩ := (h.same h₂ hsame).read n
  rw [hsame.fdesc, hp] at hbs₂
  suffices hb : bs₂ = bs by exact ⟨s₂', by rw [he, hb]⟩
  refine List.ext_getElem (by omega) fun j hj hj' => ?_
  have hq : (p + j) % 2 ^ 32 = p + j := Nat.mod_eq_of_lt (by omega)
  have hd := hbs j hj'
  have hd₂ := hbs₂ j hj
  rw [hq] at hd hd₂
  cases hb : (s.vol.file f).byte (p + j) with
  | some x =>
    have hb₂ : (s₂.vol.file f).byte (p + j) = some x := by rw [hsame.file, hb]
    rw [hd.1 x hb, hd₂.1 x hb₂]
  | none =>
    have hb₂ : (s₂.vol.file f).byte (p + j) = none := by rw [hsame.file, hb]
    have hge : SECTOR_SIZE ≤ (p + j) % 4096 := by
      obtain hm | hge := hmap (p + j) (by omega) (by omega)
      · exact absurd (Option.map_eq_none_iff.mp hb) hm
      · exact hge
    obtain ⟨x, -, hx⟩ := hd.2 hb
    obtain ⟨y, -, hy⟩ := hd₂.2 hb₂
    rw [hx, hy, ofSector_of_le _ hge, ofSector_of_le _ hge]

/-- The bytes are counted right only if the read ends before the file does. -/
theorem ReadsInside.within (hr : ReadsInside s fd k f n W) (h : OpenRd s fd k f) :
    n = 0 ∨ (s.vol.fdesc k).read_pos.toNat + n ≤ (s.vol.inode f).size.toNat := by
  obtain ⟨bs, s', he, hcount, -, -⟩ := hr
  obtain ⟨bs', s'', he', hlen, -⟩ := h.read n
  obtain rfl : bs' = bs := congrArg (fun r => r.1.2) (Option.some.inj (he'.symm.trans he))
  rw [readCount] at hcount
  omega

/-- No byte comes from elsewhere only if each position has a block, or lies behind the sector of its block. -/
theorem ReadsInside.mapped (hr : ReadsInside s fd k f n W)
    (h : OpenRd s fd k f) {q : ℕ} (hlo : (s.vol.fdesc k).read_pos.toNat ≤ q)
    (hhi : q < (s.vol.fdesc k).read_pos.toNat + n) : s.vol.file f (q / 4096) ≠ none ∨ SECTOR_SIZE ≤ q % 4096 := by
  have hin := hr.within h
  have hsize := (s.vol.inode f).size.toNat_lt
  obtain ⟨bs, s', he, -, -, hall⟩ := hr
  obtain ⟨bs', s'', he', hlen, -⟩ := h.read n
  obtain rfl : bs' = bs := congrArg (fun r => r.1.2) (Option.some.inj (he'.symm.trans he))
  by_contra hno
  obtain ⟨hnone, hoff⟩ := not_or.mp hno
  -- Another byte in the sectors below the file system.
  obtain ⟨j, rfl⟩ := Nat.exists_eq_add_of_le hlo
  have hj : j < bs'.length := by omega
  have hsame : SameFile s (s.withBoot (bs'[j] + 1)) k f := SameFile.withBoot s _
  obtain ⟨t, ht⟩ := hall _ (h.sound.withBoot _) hsame
  obtain ⟨cs, t', ht', hlen', hcs⟩ := (h.same (h.sound.withBoot _) hsame).read n
  rw [hlen] at ht
  obtain rfl : cs = bs' := congrArg (fun r => r.1.2) (Option.some.inj (ht'.symm.trans ht))
  obtain ⟨-, hd⟩ := hcs j hj
  rw [hsame.fdesc, Nat.mod_eq_of_lt (by omega)] at hd
  obtain ⟨x, hx, hb⟩ := hd (by rw [hsame.file, File.byte, Option.map_eq_none_iff]; exact not_not.mp hnone)
  rw [Sys.view_withBoot] at hb
  dsimp only at hb
  rw [if_pos (by unfold FS_START_SECTOR; omega), ofSector, put_of_lt _ _ (by omega)] at hb
  have hone : cs[j] + 0 = cs[j] + 1 := by rw [UInt8.add_zero]; exact hb
  exact absurd (UInt8.add_right_inj cs[j] |>.mp hone) (by decide)

/-- A read delivers what it should, in every history of every file, at every position and of every length, exactly
when it ends before the file does and looks at no byte of a hole that lies in the sector loaded. -/
theorem do_read_inside_iff (s : Sys) (fd : ℤ) (k : Fin NUM_FDESCS)
    (f n : ℕ) (W : Set ℕ) (hW : History f W s) (h : OpenRd s fd k f) :
    ReadsInside s fd k f n W ↔ (n = 0 ∨ (s.vol.fdesc k).read_pos.toNat + n ≤ (s.vol.inode f).size.toNat) ∧
      ∀ q, (s.vol.fdesc k).read_pos.toNat ≤ q → q < (s.vol.fdesc k).read_pos.toNat + n →
        s.vol.file f (q / 4096) ≠ none ∨ SECTOR_SIZE ≤ q % 4096 := by
  constructor
  · intro hr
    exact ⟨hr.within h, fun q hlo hhi => hr.mapped h hlo hhi⟩
  · rintro ⟨hin, hmap⟩
    have hsize := (s.vol.inode f).size.toNat_lt
    have hlt : n = 0 ∨ (s.vol.fdesc k).read_pos.toNat + n ≤ 2 ^ 32 := by omega
    obtain ⟨bs, s', he, hlen, hbs⟩ := h.read n
    refine ⟨bs, s', by rw [hlen]; exact he, ?_, ?_, ?_⟩
    · rw [readCount]
      omega
    · intro j hj hq
      have hd := hbs j hj
      rw [Nat.mod_eq_of_lt (by omega)] at hd
      cases hb : (s.vol.file f).byte ((s.vol.fdesc k).read_pos.toNat + j) with
      | some x => rw [hd.1 x hb, hW.zeroOutside.2 _ x hq hb]
      | none =>
        obtain ⟨x, -, hx⟩ := hd.2 hb
        obtain hm | hge := hmap _ (Nat.le_add_right _ j) (by omega)
        · exact absurd (Option.map_eq_none_iff.mp hb) hm
        · rw [hx, ofSector_of_le _ hge]
    · intro s₂ h₂ hsame
      rw [hlen]
      exact h.read_same h₂ hsame hlen rfl hlt hbs hmap

theorem OpenRw.openRd (h : OpenRw s fd k f) : OpenRd s fd k f :=
  ⟨h.sound, h.index, h.opened, by rw [h.mode]; decide⟩

/-- The 53 bytes of `vm`, opened right after `do_mkfs`, are read as they should, and 54 are not. -/
theorem do_read_inside_vm : ∃ (s : Sys) (fd : ℤ) (k : Fin NUM_FDESCS) (W : Set ℕ),
    Reach (fun V call => call.Ok V) s ∧ History 3 W s ∧
    OpenRd s fd k 3 ∧ ReadsInside s fd k 3 53 W ∧ ¬ ReadsInside s fd k 3 54 W := by
  obtain ⟨s, fd, k, hr, hrw, -, hpos, hsize, hblock⟩ := exists_openRw
  have h := hrw.openRd
  have hW := History.start (f := 3) hrw.sound
  have hp : (s.vol.fdesc k).read_pos.toNat = 0 := by rw [hpos]; rfl
  have hn : (s.vol.inode 3).size.toNat = 53 := by rw [hsize]; rfl
  refine ⟨s, fd, k, _, hr, hW, h, ?_, ?_⟩
  · refine (do_read_inside_iff s fd k 3 53 _ hW h).mpr ⟨Or.inr (by omega), fun q _ hhi => Or.inl ?_⟩
    rw [Nat.div_eq_of_lt (by omega)]
    exact hblock
  · intro hno
    obtain ⟨hin, -⟩ := (do_read_inside_iff s fd k 3 54 _ hW h).mp hno
    omega

/-- Of `vm`, opened right after `do_mkfs`, one byte more than it has is delivered. -/
theorem do_read_past_vm : ¬ ∀ (s : Sys) (fd : ℤ) (k : Fin NUM_FDESCS) (f n : ℕ) (W : Set ℕ),
    Reach (fun V call => call.Ok V) s →
    History f W s → OpenRd s fd k f → ReadsInside s fd k f n W := by
  intro hall
  obtain ⟨s, fd, k, hr, hrw, -⟩ := exists_openRw
  have hin :=
    (hall s fd k 3 ((s.vol.inode 3).size.toNat + 1) _ hr (History.start hrw.sound) hrw.openRd).within
      hrw.openRd
  omega

end OsLab
