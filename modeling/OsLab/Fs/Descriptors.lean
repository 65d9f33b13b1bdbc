import OsLab.Fs.Write
import OsLab.Fs.Ops

/-!
# Descriptors, reading and the working directory

The calls that leave the tree of names alone: `do_cd`, `do_open`, `do_close`, `do_lseek` and
`do_read`. What `do_read` delivers is the file's contents wherever the file has blocks, and bytes of
the first eight sectors of the card elsewhere (`Delivers`).
-/

namespace OsLab

open Lib ProgM Bytes

variable {V : View}

/-! ### Changes that keep the volume in order -/

theorem Vol.cwd_setWd (V : Vol) (I : Inode) : (V.setWd I).cwd = I.ino.toNat := rfl

theorem Vol.Inv.setWd {V : Vol} (h : V.Inv) {i : ℕ} (hi : V.IsDir i) : (V.setWd (V.inode i)).Inv := by
  have hcwd : (V.setWd (V.inode i)).cwd = i := h.ino (Vol.imap_of_kind hi)
  refine ⟨⟨h.space.congr (fun _ _ _ => rfl) rfl, h.lt, h.type, h.ino,
    h.root, h.dir, fun hx => (h.cover hx).congr fun _ _ _ => rfl,
    ?_, ?_, h.uniform⟩, h.names⟩
  · rw [hcwd]
    exact hi
  · rw [hcwd]
    rfl

theorem Vol.Inv.setFdesc {V : Vol} (h : V.Inv) (k : Fin NUM_FDESCS) (f : Fdesc) : (V.setFdesc k f).Inv :=
  ⟨⟨h.space.congr (fun _ _ _ => rfl) rfl, h.lt, h.type, h.ino,
    h.root, h.dir, fun hx => (h.cover hx).congr fun _ _ _ => rfl,
    h.cwd, h.wd, h.uniform⟩, h.names⟩

/-- `do_cd`. -/
theorem do_cd_spec (h : V.Inv) (ht : V.Tidy) {path : CString} (hok : V.PathOk path) :
    Spec V (Fs.do_cd path) fun r V' =>
    V'.Tidy ∧ ((r = -1 ∧ V'.toVol = V.toVol ∧ ∀ i, V.find path = some i → ¬ V.IsDir i) ∨
      (r = 0 ∧ ∃ i, V.find path = some i ∧ V.IsDir i ∧ V'.toVol = V.setWd (V.inode i))) := by
  refine h.withPath ht hok (fun hn V₁ hv₁ ht₁ =>
    Spec.pure ⟨ht₁, Or.inl ⟨rfl, hv₁, fun i hi => by rw [hn] at hi; cases hi⟩⟩) ?_
  rintro i hfind ⟨kd, hkd⟩ V₁ hv₁ ht₁
  split
  · next htype =>
    refine Spec.pure ⟨ht₁, Or.inl ⟨rfl, hv₁, fun c hc hd => htype ?_⟩⟩
    obtain rfl : i = c := Option.some.inj (hfind.symm.trans hc)
    exact (Vol.isDir_iff.mp hd).2
  next htype =>
  have hi : V.IsDir i := Vol.isDir_iff.mpr ⟨Vol.imap_of_kind hkd, not_not.mp htype⟩
  refine (Does.setWd _).seq (Spec.pure ⟨⟨ht₁.dbuf, ht₁.rbuf⟩, Or.inr ⟨rfl, i, hfind, hi, ?_⟩⟩)
  rw [← hv₁]
  rfl

/-- `do_open`. -/
theorem do_open_spec (h : V.Inv) (ht : V.Tidy) {path : CString} (hok : V.PathOk path) (mode : ℤ) :
    Spec V (Fs.do_open path mode) fun r V' => V'.Tidy ∧ ((r = -1 ∧ V'.toVol = V.toVol ∧
        ((∀ f, V.find path = some f → ¬ V.IsFile f) ∨ ∀ k, (V.fdesc k).valid ≠ 0)) ∨
      ∃ (k : Fin NUM_FDESCS) (f : ℕ), r = (k : ℕ) ∧ V.find path = some f ∧ V.IsFile f ∧ (V.fdesc k).valid = 0 ∧
        V'.toVol = V.setFdesc k ⟨UInt8.ofInt mode, 1, (V.inode f).ino, 0, 0⟩) := by
  refine h.withPath ht hok (fun hn V₁ hv₁ ht₁ =>
    Spec.pure ⟨ht₁, Or.inl ⟨rfl, hv₁, Or.inl fun f hf => by rw [hn] at hf; cases hf⟩⟩) ?_
  rintro f hfind ⟨kd, hkd⟩ V₁ hv₁ ht₁
  split
  · next htype =>
    refine Spec.pure ⟨ht₁, Or.inl ⟨rfl, hv₁, Or.inl fun c hc hd => ?_⟩⟩
    obtain rfl : f = c := Option.some.inj (hfind.symm.trans hc)
    exact (Vol.isFile_iff.mp hd).2 htype
  next htype =>
  have hf : V.IsFile f := Vol.isFile_iff.mpr ⟨Vol.imap_of_kind hkd, htype⟩
  refine Does.fdescs.seq ?_
  cases hk : (List.finRange NUM_FDESCS).find? fun i => (V₁.fdesc i).valid = 0 with
  | none =>
    refine Spec.pure ⟨ht₁, Or.inl ⟨rfl, hv₁, Or.inr fun k => ?_⟩⟩
    have := List.find?_eq_none.mp hk k (List.mem_finRange k)
    rw [hv₁] at this
    simpa using this
  | some k =>
    have hvalid : (V₁.fdesc k).valid = 0 := by simpa using List.find?_some hk
    refine (Does.setFdesc k _).seq (Spec.pure ⟨⟨ht₁.dbuf, ht₁.rbuf⟩, Or.inr ⟨k, f, rfl, hfind, hf, hv₁ ▸ hvalid, ?_⟩⟩)
    rw [← hv₁]
    rfl

/-- `do_close`. -/
theorem do_close_spec (ht : V.Tidy) {fd : ℤ} {k : Fin NUM_FDESCS} (hfd : Fs.fdIndex fd = some k) :
    Spec V (Fs.do_close fd) fun r V' => r = 0 ∧ V'.Tidy ∧ V'.toVol = V.setFdesc k { V.fdesc k with valid := 0 } := by
  rw [Fs.do_close, hfd]
  exact Does.fdescs.seq ((Does.setFdesc k _).seq (Spec.pure ⟨rfl, ⟨ht.dbuf, ht.rbuf⟩, rfl⟩))

/-- What `do_lseek` needs: an open descriptor belongs to an inode. -/
def Vol.SeekOk (V : Vol) (fd : ℤ) : Prop :=
  ∀ k, Fs.fdIndex fd = some k → (V.fdesc k).valid ≠ 0 → (V.fdesc k).ino.toNat < NUM_INODES

/-- `do_lseek`. -/
theorem do_lseek_spec (ht : V.Tidy) {fd offset whence : ℤ} (hok : V.SeekOk fd) :
    Spec V (Fs.do_lseek fd offset whence) fun r V' => V'.Tidy ∧ ((r = -1 ∧ V'.toVol = V.toVol) ∨
      ∃ (k : Fin NUM_FDESCS) (rp wp : UInt32), r = 0 ∧ Fs.fdIndex fd = some k ∧
        V'.toVol = V.setFdesc k { V.fdesc k with read_pos := rp, write_pos := wp }) := by
  rw [Fs.do_lseek]
  cases hk : Fs.fdIndex fd with
  | none => exact Spec.pure ⟨ht, Or.inl ⟨rfl, rfl⟩⟩
  | some k =>
    refine Does.fdescs.seq ?_
    dsimp only
    split
    · exact Spec.pure ⟨ht, Or.inl ⟨rfl, rfl⟩⟩
    next hv =>
    refine (Does.loadInode (hok k hk hv)).seq ?_
    split
    · exact (Does.setFdesc k _).seq (Spec.pure ⟨⟨ht.dbuf, ht.rbuf⟩, Or.inr ⟨k, _, _, rfl, rfl, rfl⟩⟩)
    split
    · exact (Does.setFdesc k _).seq (Spec.pure ⟨⟨ht.dbuf, ht.rbuf⟩, Or.inr ⟨k, _, _, rfl, rfl, rfl⟩⟩)
    split
    · exact (Does.setFdesc k _).seq (Spec.pure ⟨⟨ht.dbuf, ht.rbuf⟩, Or.inr ⟨k, _, _, rfl, rfl, rfl⟩⟩)
    · exact Spec.pure ⟨⟨ht.dbuf, ht.rbuf⟩, Or.inl ⟨rfl, rfl⟩⟩

/-- `do_lseek` to a position of an open descriptor. -/
theorem do_lseek_set (offset : ℤ) (ht : V.Tidy) {fd : ℤ} {k : Fin NUM_FDESCS} (hk : Fs.fdIndex fd = some k)
    (hv : (V.fdesc k).valid ≠ 0) (hlt : (V.fdesc k).ino.toNat < NUM_INODES) :
    Spec V (Fs.do_lseek fd offset 0) fun r V' => r = 0 ∧ V'.Tidy ∧ V'.toVol =
      V.setFdesc k { V.fdesc k with read_pos := UInt32.ofInt offset, write_pos := UInt32.ofInt offset } := by
  rw [Fs.do_lseek, hk]
  refine Does.fdescs.seq ?_
  dsimp only
  rw [if_neg hv]
  refine (Does.loadInode hlt).seq ?_
  rw [if_pos rfl]
  exact (Does.setFdesc k _).seq (Spec.pure ⟨rfl, ⟨ht.dbuf, ht.rbuf⟩, rfl⟩)

/-! ### Reading -/

section Read

variable {U : Vol} {f : ℕ}

/-- `rdata_buffer` holds block `n` of the file, or a sector below the file system if the file has no
such block. -/
def Holds (U : Vol) (f : ℕ) (V : View) (n : ℕ) : Prop :=
  (∀ s, U.file f n = some s → V.rbuf = ofSector s) ∧ (U.file f n = none → ∃ x < 8, V.rbuf = ofSector (V.boot x))

/-- What a read of position `q` delivers. -/
def Delivers (U : Vol) (boot : ℕ → Sector) (f q : ℕ) (c : UInt8) : Prop :=
  (∀ x, (U.file f).byte q = some x → c = x) ∧ ((U.file f).byte q = none → ∃ x < 8, c = ofSector (boot x) (q % 4096))

/-- The byte that the loop of `do_read` takes from `rdata_buffer`. -/
theorem Holds.delivers {q : ℕ} (h : Holds U f V (q / 4096)) : Delivers U V.boot f q (V.rbuf (q % 4096)) := by
  refine ⟨fun x hx => ?_, fun hn => ?_⟩
  · obtain ⟨s, hs, rfl⟩ := Option.map_eq_some_iff.mp hx
    rw [h.1 s hs]
  · obtain ⟨x, hx, hr⟩ := h.2 (Option.map_eq_none_iff.mp hn)
    exact ⟨x, hx, by rw [hr]⟩

/-- No block of a file is the first block of all, which is the root's. -/
theorem Vol.Inv.leaf_ne_zero (h : U.Inv) (hf : U.IsFile f) {n b : ℕ} (hl : U.leaf f n = some (sec b)) : b ≠ 0 := by
  rintro rfl
  obtain ⟨-, he, hfo⟩ := h.dirBlock h.root.1
  rw [← he, h.root.2] at hfo
  have := (h.space.unshared _ _ _ _ _ (length_eq_depth f n).le (by simp) hl hfo).1
  have hf0 : f = 0 := congrArg Prod.fst this
  rw [hf0, Vol.IsFile, h.root.1] at hf
  cases hf

/-- Loading a block of a file, by its last sector or by its first. -/
theorem loadBlock_spec (h : U.Inv) (hf : U.IsFile f)
    (hv : V.toVol = { U with fdesc := V.fdesc }) (ht : V.Tidy) {n m : ℕ}
    (hn : n < MAX_BLOCKS) (hm : m = 1 ∨ m = BLOCK_SECTORS) :
    ∃ p V₁ V₂, Does V (Fs.blockid2sector n (U.inode f)) p V₁ ∧ Does V₁ (Fs.bread .rdata_buffer m p.toNat) () V₂ ∧
      OnlyRbuf V V₂ ∧ Holds U f V₂ n := by
  have hfi := Vol.imap_of_kind hf
  have hptr : ∀ k ws, V.ptr (U.inode f) k ws = U.ptr (U.inode f) k ws := fun k ws =>
    Vol.ptr_of_data U V.toVol (by rw [hv]) (U.inode f) k ws
  have hok : V.PtrsOk (U.inode f) := by
    intro k ws hl
    rw [hptr]
    exact h.space.ptrsOk hfi k ws hl
  obtain ⟨p, V₁, hdoes, hp, ht₁, r, rfl⟩ := blockid2sector_spec hok ht hn
  rw [hptr] at hp
  have hleaf : U.leaf f n = nz p := by rw [Vol.leaf, Vol.follow_eq_ptr hfi rfl, hp]
  by_cases h0 : p = 0
  · -- A block the file does not have is read at sector 0.
    have hread := Does.breadBoot (V := { V with rbuf := r }) (n := m) (s := 0) (by obtain rfl | rfl := hm <;> decide)
      (by obtain rfl | rfl := hm <;> decide)
    rw [h0] at hdoes
    have hnone : U.file f n = none := by
      rw [Vol.file, hleaf, h0]
      rfl
    rw [put_eq_ofSector ht₁.rbuf] at hread
    refine ⟨0, _, _, hdoes, hread, ⟨⟨ht.dbuf, fun i hi => ofSector_of_le _ hi⟩, _, rfl⟩, fun s hs => ?_, fun _ => ?_⟩
    · cases hnone.symm.trans hs
    · exact ⟨0 + (m - 1), by obtain rfl | rfl := hm <;> decide, rfl⟩
  · obtain ⟨b, hb, rfl⟩ : ∃ b < NUM_BLOCKS, p = sec b := h.space.leaf (f := f) (n := n) (by rw [hleaf, nz_of_ne h0])
    rw [nz_of_ne h0] at hleaf
    have hb0 := h.leaf_ne_zero hf hleaf
    have hfirst : V.first b = U.data b := by
      rw [hv]
      exact h.uniform hb0 hb ((h.space.used b hb).mpr ⟨_, _, (length_eq_depth f n).le, hleaf⟩)
    have hdata : V.data b = U.data b := by rw [hv]
    have hread : Does { V with rbuf := r } (Fs.bread .rdata_buffer m (blockSector b)) ()
        { V with rbuf := ofSector (U.data b) } := by
      rw [← put_eq_ofSector ht₁.rbuf]
      obtain rfl | rfl := hm
      · rw [← hfirst]
        exact Does.breadFirst hb hb0
      · rw [← hdata]
        exact Does.breadRdata hb
    rw [← toNat_sec hb] at hread
    have hfile : U.file f n = some (U.data b) := by
      rw [Vol.file, hleaf, Option.map_some, blockOf_sec hb]
    refine ⟨_, _, _, hdoes, hread, ⟨⟨ht.dbuf, fun i hi => ofSector_of_le _ hi⟩, _, rfl⟩, fun s hs => ?_, fun hn => ?_⟩
    · rw [Option.some.inj (hfile.symm.trans hs)]
    · cases hfile.symm.trans hn

/-- The loop of `do_read`. -/
theorem readLoop_spec (h : U.Inv) (hf : U.IsFile f) (i : Fin NUM_FDESCS) (n : ℕ) {V : View} {p : ℕ}
    (hv : V.toVol = { U with fdesc := V.fdesc }) (ht : V.Tidy) (hp : (V.fdesc i).read_pos.toNat = p)
    (hh : p % 4096 ≠ 0 → Holds U f V (p / 4096)) :
    Spec V (Fs.readLoop i (U.inode f) n) fun cs V' => cs.length = n ∧ V'.Tidy ∧ V'.ibuf = V.ibuf ∧
      (∃ w : UInt32, V'.toVol = V.setFdesc i { V.fdesc i with read_pos := w }) ∧
      ∀ j < n, ∃ c, cs[j]? = some c ∧ Delivers U V.boot f ((p + j) % 2 ^ 32) c := by
  induction n generalizing V p with
  | zero =>
    refine Spec.pure ⟨rfl, ht, rfl, ⟨(V.fdesc i).read_pos, ?_⟩, fun j hj => absurd hj (by omega)⟩
    rw [Vol.setFdesc, Function.update_eq_self]
  | succ n ih =>
    rw [Fs.readLoop]
    refine Does.fdescs.seq ?_
    rw [hp, show BLOCK_SIZE = 4096 from rfl]
    have hplt : p < 2 ^ 32 := hp ▸ (V.fdesc i).read_pos.toNat_lt
    have hmax : p / 4096 < MAX_BLOCKS := by
      rw [constants.2.2.2]
      omega
    refine Spec.bind (P := fun _ V₁ => OnlyRbuf V V₁ ∧ Holds U f V₁ (p / 4096))
      (Spec.ifThen (fun _ => ?_) fun h0 => ?_) ?_
    · obtain ⟨_, _, V₁, hid, hread, hq⟩ := loadBlock_spec h hf hv ht hmax (Or.inr rfl)
      exact hid.seq (hread.spec hq)
    · exact ⟨OnlyRbuf.refl ht, hh h0⟩
    rintro _ V₁ ⟨⟨ht₁, r, rfl⟩, hh₁⟩
    refine (Does.rbyte _).seq ((Does.setFdesc i _).seq ?_)
    have hbyte : Delivers U V.boot f p (r (p % 4096)) := hh₁.delivers
    generalize hV₂ : ({ V with
      fdesc := Function.update V.fdesc i { V.fdesc i with read_pos := (V.fdesc i).read_pos + 1 }, rbuf := r } :
        View) = V₂
    have hv₂ : V₂.toVol = { U with fdesc := V₂.fdesc } := by
      rw [← hV₂, hv]
    have ht₂ : V₂.Tidy := by
      rw [← hV₂]
      exact ⟨ht₁.dbuf, ht₁.rbuf⟩
    have hfd₂ : V₂.fdesc = Function.update V.fdesc i { V.fdesc i with read_pos := (V.fdesc i).read_pos + 1 } := by
      rw [← hV₂]
    have hpos₂ : (V₂.fdesc i).read_pos = (V.fdesc i).read_pos + 1 := by rw [hfd₂, Function.update_self]
    have hnext : (V₂.fdesc i).read_pos.toNat = (p + 1) % 2 ^ 32 := by
      rw [hpos₂, UInt32.toNat_add, hp]
      rfl
    have hh₂ : (p + 1) % 2 ^ 32 % 4096 ≠ 0 → Holds U f V₂ ((p + 1) % 2 ^ 32 / 4096) := by
      intro hne
      have hdiv : (p + 1) % 2 ^ 32 / 4096 = p / 4096 := by omega
      rw [hdiv, ← hV₂]
      exact hh₁
    refine Spec.bind (ih hv₂ ht₂ hnext hh₂) ?_
    rintro cs V₃ ⟨hlen, ht₃, hib₃, ⟨w, hw⟩, hcs⟩
    refine Spec.pure ⟨by simp [hlen], ht₃, hib₃.trans (by rw [← hV₂]), ⟨w, ?_⟩, ?_⟩
    · rw [hw, Vol.setFdesc, Vol.setFdesc, hfd₂, Function.update_idem, Function.update_self, ← hV₂]
    · intro j hj
      cases j with
      | zero => exact ⟨_, rfl, by rw [Nat.add_zero, Nat.mod_eq_of_lt hplt]; exact hbyte⟩
      | succ j =>
        rw [List.getElem?_cons_succ]
        have hboot : V₂.boot = V.boot := by rw [← hV₂]
        rw [hboot] at hcs
        obtain ⟨c, hc, hD⟩ := hcs j (by omega)
        exact ⟨c, hc, by rw [show (p + (j + 1)) % 2 ^ 32 = ((p + 1) % 2 ^ 32 + j) % 2 ^ 32 by omega]; exact hD⟩

end Read

/-- What `do_read` needs: a descriptor it reads from belongs to a file. -/
def Vol.ReadOk (V : Vol) (fd : ℤ) : Prop :=
  ∀ k, Fs.fdIndex fd = some k → (V.fdesc k).valid ≠ 0 → (V.fdesc k).mode ≠ O_WRONLY → V.IsFile (V.fdesc k).ino.toNat

/-- The volume after a read of file `f`. -/
def Vol.readBy (V : Vol) (k : Fin NUM_FDESCS) (f : ℕ) (now pos : UInt32) : Vol :=
  (V.setInode f { V.inode f with atime := now }).setFdesc k { V.fdesc k with read_pos := pos }

/-- Reading keeps the volume in order, its names, and the contents of files. -/
theorem Vol.Inv.readBy {V : Vol} (h : V.Inv) {f : ℕ} (hf : V.IsFile f) (k : Fin NUM_FDESCS) (now pos : UInt32) :
    (V.readBy k f now pos).Inv ∧ V.names.Same (V.readBy k f now pos).names ∧
      (∀ x, V.IsDir x → (V.readBy k f now pos).inode x = V.inode x) ∧
      ∀ g, (V.readBy k f now pos).file g = V.file g := by
  obtain ⟨hb, hN⟩ := h.setFile (I := { V.inode f with atime := now }) hf rfl rfl rfl le_rfl
  have hsame : V.names.Same (V.setInode f { V.inode f with atime := now }).names := by
    refine ⟨hN.kind, fun x y _ => hN.dent x y, fun x _ => ?_⟩
    rw [hN.nlink]
    split
    · next hx => rw [hx]; rfl
    · rfl
  have hinv : (V.setInode f { V.inode f with atime := now }).Inv := ⟨hb, hsame.inv h.names⟩
  refine ⟨hinv.setFdesc k _, hsame, fun x hx => ?_, fun g => ?_⟩
  · have hxf : x ≠ f := by
      rintro rfl
      rw [Vol.IsFile, hx] at hf
      cases hf
    exact Function.update_of_ne hxf _ _
  · have hforest := Vol.forest_setInode (V := V) (i := f) (I := { V.inode f with atime := now }) rfl
    funext n
    show Option.map _ ((V.setInode f { V.inode f with atime := now }).forest.follow _ _) = _
    rw [hforest]
    rfl

/-- `do_read`. -/
theorem do_read_spec (length : ℤ) (h : V.Inv) (ht : V.Tidy) {fd : ℤ} (hok : V.ReadOk fd) :
    Spec V (Fs.do_read fd length) fun r V' => V'.Tidy ∧ ((r = (-1, []) ∧ V'.toVol = V.toVol ∧
        ∀ k, Fs.fdIndex fd = some k → (V.fdesc k).valid = 0 ∨ (V.fdesc k).mode = O_WRONLY) ∨
      ∃ (k : Fin NUM_FDESCS) (now pos : UInt32), Fs.fdIndex fd = some k ∧ V.IsFile (V.fdesc k).ino.toNat ∧
        V'.toVol = V.readBy k (V.fdesc k).ino.toNat now pos ∧ r.1 = length ∧ r.2.length = length.toNat ∧
        ∀ j < length.toNat, ∃ c, r.2[j]? = some c ∧
          Delivers V.toVol V.boot (V.fdesc k).ino.toNat (((V.fdesc k).read_pos.toNat + j) % 2 ^ 32) c) := by
  rw [Fs.do_read]
  cases hk : Fs.fdIndex fd with
  | none => exact Spec.pure ⟨ht, Or.inl ⟨rfl, rfl, fun k hk => by cases hk⟩⟩
  | some k =>
    refine Does.fdescs.seq ?_
    dsimp only
    split
    · next hv => exact Spec.pure ⟨ht, Or.inl ⟨rfl, rfl, fun k' hk' => Or.inl (Option.some.inj hk' ▸ hv)⟩⟩
    next hv =>
    split
    · next hmode => exact Spec.pure ⟨ht, Or.inl ⟨rfl, rfl, fun k' hk' => Or.inr (Option.some.inj hk' ▸ hmode)⟩⟩
    next hmode =>
    have hf := hok k hk hv hmode
    have hflt := h.lt (Vol.imap_of_kind hf)
    refine (Does.loadInode hflt).seq ?_
    rw [Fs.inodeidx2offset, inodeidx2sector_eq hflt]
    generalize hfdef : (V.fdesc k).ino.toNat = f at *
    generalize hV₁ : ({ V with ibuf := V.loadInodes f } : View) = V₁
    have hv₁ : V₁.toVol = V.toVol := by rw [← hV₁]
    have ht₁ : V₁.Tidy := by
      rw [← hV₁]
      exact ⟨ht.dbuf, ht.rbuf⟩
    have hib₁ : V₁.ibuf = V.loadInodes f := by rw [← hV₁]
    have hmax : (V.fdesc k).read_pos.toNat / BLOCK_SIZE < MAX_BLOCKS := by
      have := (V.fdesc k).read_pos.toNat_lt
      rw [constants.2.2.2, show BLOCK_SIZE = 4096 from rfl]
      omega
    obtain ⟨_, _, V₂, hid, hread, ⟨ht₂, r, rfl⟩, hh₂⟩ :=
      loadBlock_spec h hf (show V₁.toVol = { V.toVol with fdesc := V₁.fdesc } by rw [hv₁]) ht₁ hmax (Or.inl rfl)
    refine hid.seq (hread.seq ?_)
    refine (readLoop_spec (V := { V₁ with rbuf := r }) h hf k
      length.toNat (by rw [hv₁]) ht₂ (by rw [hv₁]) fun _ => hh₂).bind ?_
    rintro cs V₃ ⟨hlen, ht₃, hib₃, ⟨w, hw⟩, hcs⟩
    rw [hv₁] at hw
    have hboot₁ : V₁.boot = V.boot := by rw [← hV₁]
    rw [show ({ V₁ with rbuf := r } : View).boot = V.boot from hboot₁] at hcs
    have hk8 : f % 8 < 8 := by omega
    refine Does.get_timer.seq ((Does.setInodeBuf hk8 _).seq ((Does.bwriteInode (by omega) hflt).seq (Spec.pure ?_)))
    refine ⟨⟨ht₃.dbuf, ht₃.rbuf⟩, Or.inr ⟨k, V₃.clock 0, w, rfl, hfdef ▸ hf, ?_, rfl, hlen, hfdef ▸ hcs⟩⟩
    have hload : V₃.loadInodes f = V₃.ibuf := by
      rw [hib₃]
      show V₃.loadInodes f = V₁.ibuf
      rw [hib₁, hw]
      rfl
    have hstore := View.storeInodes_update V₃ f { V.inode f with atime := V₃.clock 0 } hflt
    rw [hload] at hstore
    rw [hfdef, Vol.readBy]
    have hvol : ({ V₃.toVol with inode := Function.update V₃.inode f { V.inode f with atime := V₃.clock 0 } } : Vol) =
        (V.setInode f { V.inode f with atime := V₃.clock 0 }).setFdesc k { V.fdesc k with read_pos := w } := by
      rw [hw]
      rfl
    rw [← hvol, ← hstore]
    rfl

end OsLab
