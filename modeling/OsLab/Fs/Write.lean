import OsLab.Fs.Grow
import OsLab.Fs.Changes

/-!
# Writing files

`do_write` stores its bytes in `wdata_buffer`, one block at a time, and writes a block when the
position leaves it and at the end. `pend` is the file as it will be when the buffer is written.
The loop turns it into `File.write` of it (`writeLoop_spec`), and the invariant `Writing` says that
everything else stays in order; so does the volume when the inode is written back
(`do_write_spec`), provided that the sectors after the inode's, which are overwritten too, hold
no inode in use.
-/

namespace OsLab

open Lib ProgM Bytes

variable {V V₀ V₁ : View} {f n N : ℕ} {A : Finset ℕ}

theorem Vol.ptr_of_data (U U' : Vol) (h : U'.data = U.data) (I : Inode) (k : Fin 10) (ws : List ℕ) :
    U'.ptr I k ws = U.ptr I k ws := by
  induction ws with
  | nil => rfl
  | cons w ws ih => rw [Vol.ptr_cons, Vol.ptr_cons, ih, Vol.word_of_data (congrFun h _)]

theorem ptr_virt (I : Inode) (k : Fin 10) (ws : List ℕ) : (V.virt f).ptr I k ws = V.ptr I k ws :=
  Vol.ptr_of_data V.toVol (V.virt f) rfl I k ws

/-- Block `n` of the file in `inode_buffer`. -/
theorem leaf_virt (hf : V.imap f = true) (n : ℕ) :
    (V.virt f).leaf f n = nz (V.ptr (V.ibuf (f % 8)) (pathOf n).1 (pathOf n).2) := by
  have hself : (V.virt f).inode f = V.ibuf (f % 8) := Function.update_self ..
  rw [Vol.leaf, Vol.follow_eq_ptr (V := V.virt f) hf hself, ptr_virt]

theorem ptrsOk_virt (hs : (V.virt f).Space) (hf : V.imap f = true) : V.PtrsOk (V.ibuf (f % 8)) := by
  have hself : (V.virt f).inode f = V.ibuf (f % 8) := Function.update_self ..
  have h := hs.ptrsOk hf
  rw [hself] at h
  intro k ws hl hp
  have := h k ws hl
  rw [ptr_virt] at this
  exact this hp

/-- `blockid2sector` for the file in `inode_buffer`. -/
theorem blockid2sector_virt (ht : V.Tidy) (hs : (V.virt f).Space) (hf : V.imap f = true) (hn : n < MAX_BLOCKS) :
    Spec V (Fs.blockid2sector n (V.ibuf (f % 8))) fun p V' => nz p = (V.virt f).leaf f n ∧ OnlyRbuf V V' :=
  (blockid2sector_spec (ptrsOk_virt hs hf) ht hn).mono fun p V' ⟨hp, hO⟩ => ⟨by rw [leaf_virt hf, hp], hO⟩

/-- The block for a position is there afterwards. -/
theorem needBlock_spec (ht : V.Tidy) (hs : (V.virt f).Space)
    (hf : V.imap f = true) (he : (V.virt f).Enough f A) (hn : n ∈ A)
    (hr : Reachable n) : Spec V (Fs.needBlock n (f % 8)) fun p V' => Grows V V' f n ∧ (V'.virt f).leaf f n = some p ∧
      (V'.virt f).file f = ((V.virt f).file f).grow n := by
  have hk : f % 8 < 8 := by omega
  -- What is left to show once the block is there.
  have hdone : ∀ (p : UInt32) (V' : View), Grows V V' f n → (V'.virt f).leaf f n = some p →
      (V'.virt f).file f = ((V.virt f).file f).grow n := by
    intro p V' hg hp
    funext m
    obtain h1 | ⟨rfl, h1, h2⟩ := hg.file m
    · by_cases hm : m = n
      · subst hm
        have hsome : (V'.virt f).file f m ≠ none := by simp [Vol.file, hp]
        rw [h1] at hsome
        obtain ⟨s, hs⟩ := Option.ne_none_iff_exists'.mp hsome
        rw [h1, File.grow, Function.update_self, hs]
        rfl
      · rw [h1, File.grow, Function.update_of_ne hm]
    · rw [h2, File.grow, Function.update_self, h1]
      rfl
  refine (Does.inodeBuf hk).seq ((blockid2sector_virt ht hs hf hr.1).bind ?_)
  rintro p V₁ ⟨hp, hO⟩
  have hg₁ : Grows V V₁ f n := Grows.of_onlyRbuf hs hO
  have hvirt : V₁.virt f = V.virt f := by
    obtain ⟨-, m, rfl⟩ := hO
    rfl
  split
  · next h0 =>
    rw [h0, ← hvirt] at hp
    have hf₁ : V₁.imap f = true := by rw [hg₁.keeps.imap]; exact hf
    refine (alloc_inode_block_spec hO.tidy hg₁.space hf₁ (hg₁.enough A hn he) hn hr hp.symm).bind ?_
    rintro _ V₂ ⟨hg₂, hleaf⟩
    have hf₂ : V₂.imap f = true := by rw [hg₂.keeps.imap]; exact hf₁
    refine (Does.inodeBuf hk).seq ((blockid2sector_virt hg₂.keeps.tidy hg₂.space hf₂ hr.1).mono ?_)
    rintro q V₃ ⟨hq, hO₃⟩
    have hvirt₃ : V₃.virt f = V₂.virt f := by
      obtain ⟨-, m, rfl⟩ := hO₃
      rfl
    have hq' : (V₃.virt f).leaf f n = some q := by
      rw [hvirt₃, ← hq]
      rw [← hq] at hleaf
      exact nz_of_ne fun e => hleaf (by rw [e]; rfl)
    have hg₃ := (hg₁.trans hg₂).trans (Grows.of_onlyRbuf hg₂.space hO₃)
    exact ⟨hg₃, hq', hdone q V₃ hg₃ hq'⟩
  · next h0 =>
    rw [nz_of_ne h0, ← hvirt] at hp
    exact Spec.pure ⟨hg₁, hp.symm, hdone p V₁ hg₁ hp.symm⟩

/-! ### The loop -/

/-- While file `f` is written, from the view `V₀` on: the other files and the directories stay as
they are, and the blocks of `f` lie below `N`. -/
structure Writing (V₀ V : View) (f N : ℕ) (A : Finset ℕ) : Prop where
  tidy : V.Tidy
  imap : V.imap = V₀.imap
  inode : V.inode = V₀.inode
  wd : V.wd = V₀.wd
  ibuf : ∀ x, x ≠ f % 8 → V.ibuf x = V₀.ibuf x
  self : V.ibuf (f % 8) = { V₀.ibuf (f % 8) with blocks := (V.ibuf (f % 8)).blocks }
  space : (V.virt f).Space
  uniform : ∀ {c}, c ≠ 0 → c < NUM_BLOCKS → V.bmap c = true → V.first c = V.data c
  other : ∀ r ws, r.1 ≠ f → ws.length ≤ Vol.depth r → (V.virt f).follow r ws = (V₀.virt f).follow r ws
  bottom : ∀ r ws c, r.1 ≠ f → c < NUM_BLOCKS → ws.length = Vol.depth r → (V₀.virt f).follow r ws = some (sec c) →
    V.data c = V₀.data c
  covers : (V.virt f).Covers f N
  enough : (V.virt f).Enough f A

namespace Writing

variable (h : Writing V₀ V f N A)

include h

theorem grows (hg : Grows V V₁ f n) (hN : n < N) (hA : n ∈ A) : Writing V₀ V₁ f N A where
  tidy := hg.keeps.tidy
  imap := hg.keeps.imap.trans h.imap
  inode := hg.keeps.inode.trans h.inode
  wd := hg.keeps.wd.trans h.wd
  ibuf := fun x hx => (hg.keeps.ibuf x hx).trans (h.ibuf x hx)
  self := by rw [hg.keeps.self, h.self]
  space := hg.space
  uniform := hg.uniform h.uniform
  other := fun r ws hr hl => (hg.other r ws hr hl).trans (h.other r ws hr hl)
  bottom := fun r ws c hr hc hl hf =>
    (hg.bottom r ws c hc hl ((h.other r ws hr hl.le).trans hf)).trans (h.bottom r ws c hr hc hl hf)
  covers := hg.covers N hN h.covers
  enough := hg.enough A hA h.enough

/-- The buffers of data and the descriptors do not matter. -/
theorem congr {m r : Bytes} {g : Fin NUM_FDESCS → Fdesc} (hr : ∀ i, SECTOR_SIZE ≤ i → r i = 0) :
    Writing V₀ { V with fdesc := g, rbuf := r, wbuf := m } f N A :=
  ⟨⟨h.tidy.dbuf, hr⟩, h.imap, h.inode, h.wd, h.ibuf, h.self,
    h.space.congr (fun _ _ _ => rfl) rfl, h.uniform, h.other, h.bottom,
    h.covers.congr fun _ _ _ => rfl, h.enough⟩

/-- Writing a block of the file. -/
theorem setBlock {c : ℕ} (hc : c < NUM_BLOCKS) (hn : (V.virt f).leaf f n = some (sec c)) (s : Sector) :
    Writing V₀ { V with toVol := V.setBlock c s } f N A := by
  have hleaf := h.space.bottom (length_eq_depth f n) hn
  have hfollow : ∀ r ws, ws.length ≤ Vol.depth r → ((V.virt f).setBlock c s).follow r ws = (V.virt f).follow r ws :=
    fun r ws hl => h.space.follow_setBlock s hc hleaf hl
  refine ⟨⟨h.tidy.dbuf, h.tidy.rbuf⟩, h.imap, h.inode, h.wd,
    h.ibuf, h.self, h.space.setBlock s hc hleaf, ?_, ?_, ?_, ?_, ?_⟩
  · intro x hx0 hx hm
    exact Vol.uniform_setBlock V.toVol c s hx0 fun _ => h.uniform hx0 hx hm
  · exact fun r ws hr hl => (hfollow r ws hl).trans (h.other r ws hr hl)
  · intro r ws x hr hx hl hf
    have hxc : x ≠ c := by
      rintro rfl
      have := h.space.unshared _ _ _ _ _ hl.le (length_eq_depth f n).le ((h.other r ws hr hl.le).trans hf) hn
      exact hr (congrArg Prod.fst this.1)
    exact (Function.update_of_ne hxc _ _).trans (h.bottom r ws x hr hx hl hf)
  · exact h.covers.congr fun k ws hl => hfollow (f, k) ws hl
  · have hmiss : (((V.virt f).setBlock c s).forest.below f).missing (Vol.nodesOf A) =
        ((V.virt f).forest.below f).missing (Vol.nodesOf A) :=
      Forest.missing_congr fun k ws hnd => by
        rw [Forest.follow_below, Forest.follow_below]
        exact hfollow (f, k) ws (Vol.length_of_mem_nodesOf hnd)
    show ((((V.virt f).setBlock c s).forest.below f).missing (Vol.nodesOf A)).card ≤ (V.virt f).free.card
    rw [hmiss]
    exact h.enough

end Writing

/-- The file, with what `wdata_buffer` holds of the block at position `p`. -/
def pend (V : View) (f p : ℕ) : File :=
  if p % 4096 = 0 then (V.virt f).file f else Function.update ((V.virt f).file f) (p / 4096) (some (V.wbuf.sector 0))

/-- A position within a block belongs to a block that is there. -/
def Loaded (V : View) (f p : ℕ) : Prop := p % 4096 ≠ 0 → ∃ c < NUM_BLOCKS, (V.virt f).leaf f (p / 4096) = some (sec c)

theorem sector_update (m : Bytes) (o : ℕ) (c : UInt8) :
    Bytes.sector (Function.update m o c) 0 = File.setByte (m.sector 0) o c := by
  funext i
  simp [Bytes.sector, File.setByte, Function.update_apply]

/-- Writing `wdata_buffer` to its block. -/
theorem flushData_spec (h : Writing V₀ V f N A) (hf : V.imap f = true) {p c : ℕ} (hp : p < 2 ^ 32) (hc : c < NUM_BLOCKS)
    (hleaf : (V.virt f).leaf f (p / 4096) = some (sec c)) : Spec V (Fs.flushData p (f % 8)) fun _ V' =>
      Writing V₀ V' f N A ∧ V'.fdesc = V.fdesc ∧ (V'.virt f).leaf f (p / 4096) = some (sec c) ∧
        (V'.virt f).file f = Function.update ((V.virt f).file f) (p / 4096) (some (V.wbuf.sector 0)) := by
  have hmax : p / BLOCK_SIZE < MAX_BLOCKS := by
    rw [show BLOCK_SIZE = 4096 from rfl, constants.2.2.2]
    omega
  refine (Does.inodeBuf (by omega)).seq ((blockid2sector_virt h.tidy h.space hf hmax).bind ?_)
  rintro q V₁ ⟨hq, ht, m, rfl⟩
  have hq' : q = sec c := (nz_eq_some.mp (hq.trans hleaf)).1
  rw [hq', toNat_sec hc]
  have h₁ : Writing V₀ { V with rbuf := m } f N A := h.congr ht.rbuf
  refine (Does.bwriteWdata hc).spec ⟨h₁.setBlock hc hleaf _, rfl, ?_, ?_⟩
  · exact (h.space.follow_setBlock _ hc (h.space.bottom (length_eq_depth f _) hleaf)
      (length_eq_depth f _).le).trans hleaf
  · exact h.space.file_setBlock hc hleaf _

/-- What the loop needs of its positions. -/
def Room (A : Finset ℕ) (N p len : ℕ) : Prop :=
  p + len < 2 ^ 32 ∧ ∀ q, p ≤ q → q < p + len → q / 4096 ∈ A ∧ q / 4096 < N ∧ Reachable (q / 4096)

/-- One byte, from the load of its block to the write of it. -/
theorem writeByte_spec (h : Writing V₀ V f N A) (hf : V.imap f = true)
    {p : ℕ} (hroom : Room A N p 1) (hl : Loaded V f p)
    (c : UInt8) {β : Type} {k : Unit → FsM β} {Q : β → View → Prop}
    (hk : ∀ V' : View, Writing V₀ V' f N A → V'.fdesc = V.fdesc → Loaded V' f (p + 1) →
      pend V' f (p + 1) = (pend V f p).put p c → Spec V' (k ()) Q) :
    Spec V (do
      Fs.ifThen (p % BLOCK_SIZE = 0) do
        let sec ← Fs.needBlock (p / BLOCK_SIZE) (f % 8)
        Fs.bread .wdata_buffer BLOCK_SECTORS sec.toNat
      Fs.setWbyte (p % BLOCK_SIZE) c
      let u ← Fs.ifThen (p % BLOCK_SIZE = BLOCK_SIZE - 1) (Fs.flushData p (f % 8))
      k u) Q := by
  obtain ⟨hlt, hpos⟩ := hroom
  obtain ⟨hA, hN, hr⟩ := hpos p le_rfl (by omega)
  rw [show BLOCK_SIZE = 4096 from rfl]
  -- After the block is loaded, the buffer holds its sector.
  refine Spec.bind (P := fun _ V₁ => Writing V₀ V₁ f N A ∧ V₁.fdesc = V.fdesc ∧ V₁.imap f = true ∧
    (∃ c < NUM_BLOCKS, (V₁.virt f).leaf f (p / 4096) = some (sec c)) ∧
    Function.update ((V₁.virt f).file f) (p / 4096) (some (File.setByte (V₁.wbuf.sector 0) (p % 4096) c)) =
      (pend V f p).put p c) (Spec.ifThen (fun h0 => ?_) fun h0 => ?_) ?_
  · refine (needBlock_spec h.tidy h.space hf h.enough hA hr).bind ?_
    rintro q V₁ ⟨hg, hq, hfile⟩
    obtain ⟨b, hb, rfl⟩ := hg.space.leaf hq
    rw [toNat_sec hb]
    have h₁ := h.grows hg hN hA
    refine (Does.breadWdata hb).spec ⟨h₁.congr h₁.tidy.rbuf,
      hg.keeps.fdesc, by rw [hg.keeps.imap]; exact hf, ⟨b, hb, hq⟩, ?_⟩
    have hsec : (V₁.virt f).file f (p / 4096) = some (V₁.data b) := by
      rw [Vol.file, hq, Option.map_some, blockOf_sec hb]
      rfl
    show Function.update ((V₁.virt f).file f) (p / 4096)
      (some (File.setByte (Bytes.sector (V₁.wbuf.put 0 (V₁.data b)) 0) (p % 4096) c)) = _
    rw [sector_put, pend, if_pos h0, File.put]
    rw [hfile, File.grow, Function.update_self] at hsec
    rw [hfile, File.grow, Function.update_idem, Option.some.inj hsec]
  · refine ⟨h, rfl, hf, hl h0, ?_⟩
    rw [pend, if_neg h0, File.put, Function.update_idem, Function.update_self]
    rfl
  · rintro _ V₁ ⟨h₁, hfd₁, hf₁, ⟨b, hb, hleaf⟩, hput⟩
    refine (Does.setWbyte _ _).seq ?_
    have hsec := sector_update V₁.wbuf (p % 4096) c
    have h₂ : Writing V₀ { V₁ with wbuf := Function.update V₁.wbuf (p % 4096) c } f N A := h₁.congr h₁.tidy.rbuf
    by_cases hlast : p % 4096 = 4096 - 1
    · rw [Fs.ifThen, if_pos hlast]
      refine (flushData_spec h₂ hf₁ (by omega) hb hleaf).bind ?_
      rintro _ V₃ ⟨h₃, hfd₃, hleaf₃, hfile₃⟩
      refine hk V₃ h₃ (hfd₃.trans hfd₁) (fun h0 => absurd (show (p + 1) % 4096 = 0 by omega) h0) ?_
      rw [pend, if_pos (by omega), hfile₃, ← hput, ← hsec]
      rfl
    · rw [Fs.ifThen, if_neg hlast]
      have hdiv : (p + 1) / 4096 = p / 4096 := by omega
      refine (Does.pure ()).seq (hk _ h₂ hfd₁ (fun _ => ⟨b, hb, by rw [hdiv]; exact hleaf⟩) ?_)
      rw [pend, if_neg (by omega), hdiv, ← hput, ← hsec]
      rfl

/-- The loop of `do_write`. -/
theorem writeLoop_spec (hf : V₀.imap f = true) (i : Fin NUM_FDESCS) (cs : List UInt8) {V : View} {p : ℕ}
    (h : Writing V₀ V f N A) (hp : (V.fdesc i).write_pos.toNat = p) (hroom : Room A N p cs.length) (hl : Loaded V f p) :
    Spec V (Fs.writeLoop i (f % 8) cs) fun _ V' => Writing V₀ V' f N A ∧ Loaded V' f (p + cs.length) ∧
      pend V' f (p + cs.length) = (pend V f p).write p cs ∧
      ∃ w : UInt32, w.toNat = p + cs.length ∧
      V'.fdesc = Function.update V.fdesc i { V.fdesc i with write_pos := w } := by
  induction cs generalizing V p with
  | nil => exact Spec.pure ⟨h, hl, rfl, _, hp, (Function.update_eq_self i V.fdesc).symm⟩
  | cons c cs ih =>
    simp only [List.length_cons] at hroom ⊢
    rw [Fs.writeLoop]
    refine Does.fdescs.seq ?_
    rw [hp]
    refine writeByte_spec h (by rw [h.imap]; exact hf)
      ⟨by have := hroom.1; omega, fun q h1 h2 => hroom.2 q h1 (by omega)⟩ hl c ?_
    intro V₁ h₁ hfd₁ hl₁ hpend₁
    refine (Does.setFdesc i _).seq ?_
    have hpos : ((V.fdesc i).write_pos + 1).toNat = p + 1 := by
      rw [UInt32.toNat_add, hp, show (1 : UInt32).toNat = 1 from rfl]
      exact Nat.mod_eq_of_lt (by have := hroom.1; omega)
    have h₂ : Writing V₀ { V₁ with
        fdesc := Function.update V₁.fdesc i { V.fdesc i with write_pos := (V.fdesc i).write_pos + 1 } } f N A :=
      h₁.congr h₁.tidy.rbuf
    refine (ih h₂ (p := p + 1) ?_ ⟨by have := hroom.1; omega, fun q h1 h2 => hroom.2 q (by omega) (by omega)⟩
      hl₁).mono ?_
    · dsimp only
      rw [Function.update_self]
      exact hpos
    · rintro _ V₃ ⟨h₃, hl₃, hpend₃, w, hw, hfd₃⟩
      rw [show p + (cs.length + 1) = p + 1 + cs.length by omega]
      refine ⟨h₃, hl₃, hpend₃.trans ?_, w, hw, ?_⟩
      · rw [File.write, ← hpend₁]
        rfl
      · rw [hfd₃]
        simp only [Function.update_idem, Function.update_self, hfd₁]

/-! ### The call -/

/-- The blocks that a write of `len` bytes at position `p` visits. -/
def blocksOf (p len : ℕ) : Finset ℕ := Finset.Icc (p / 4096) ((p + (len - 1)) / 4096)

/-- What `do_write` needs. The inode's sector is written eight times, over the seven that follow. -/
structure Vol.WriteOk (V : Vol) (i : Fin NUM_FDESCS) (len : ℕ) : Prop where
  file : V.IsFile (V.fdesc i).ino.toNat
  lt : (V.fdesc i).write_pos.toNat + len < 2 ^ 32
  reach : ∀ n ∈ blocksOf (V.fdesc i).write_pos.toNat len, ∀ w ∈ (pathOf n).2, w < 128
  enough : V.Enough (V.fdesc i).ino.toNat (blocksOf (V.fdesc i).write_pos.toNat len)
  clobber : ∀ x, V.imap x = true → (V.fdesc i).ino.toNat / 8 < x / 8 → (V.fdesc i).ino.toNat / 8 + 8 ≤ x / 8
  /-- Writing nothing at the end of the file would allocate a block beyond it. -/
  empty : len = 0 → (V.fdesc i).write_pos.toNat % 4096 = 0 →
    (V.inode (V.fdesc i).ino.toNat).size.toNat ≤ (V.fdesc i).write_pos.toNat →
    V.leaf (V.fdesc i).ino.toNat ((V.fdesc i).write_pos.toNat / 4096) ≠ none

/-- What `do_write` does to the volume. -/
structure Written (V V' : Vol) (f p : ℕ) (cs : List UInt8) : Prop where
  base : V'.Base
  names : V.names.Same V'.names
  dirs : ∀ x, V.IsDir x → V'.inode x = V.inode x
  wd : V'.wd = V.wd
  file : V'.file f = ((V.file f).grow (p / 4096)).write p cs
  other : ∀ g, V.IsFile g → g ≠ f → V'.file g = V.file g

theorem nblocks_mono {a b : UInt32} (h : a.toNat ≤ b.toNat) : nblocks a ≤ nblocks b := by
  unfold nblocks
  omega

/-- The volume when the inode is written back. -/
theorem Writing.written {V V₀ V₁ : View} {W : Vol} (hV : V.Inv) (hf : V.IsFile f) (h₀ : V₀.toVol = V.toVol)
    (hib : V₀.ibuf = V.loadInodes f) (h : Writing V₀ V₁ f N A) {p : ℕ} {cs : List UInt8}
    (hfile : (V₁.virt f).file f = ((V.file f).grow (p / 4096)).write p cs) {I : Inode}
    (hI : I = { V₁.ibuf (f % 8) with size := I.size, mtime := I.mtime, atime := I.atime }) (hN : N ≤ nblocks I.size)
    (hW : W = { V₁.toVol with inode := W.inode }) (hself : W.inode f = I)
    (hinode : ∀ x, V.imap x = true → x ≠ f → W.inode x = V.inode x) : Written V.toVol W f p cs := by
  have hvirt₀ : V₀.virt f = V.toVol := by
    rw [View.virt, h₀, hib, Vol.loadInodes_mod, Vol.setInode, Function.update_eq_self]
  have himap : W.imap = V.imap := by rw [hW, ← h₀]; exact h.imap
  have hwd : W.wd = V.wd := by rw [hW, ← h₀]; exact h.wd
  have hdata : W.data = V₁.data := by rw [hW]
  have hI₁ : V₁.ibuf (f % 8) = { V.inode f with blocks := (V₁.ibuf (f % 8)).blocks } := by
    have := h.self
    rw [hib, Vol.loadInodes_mod] at this
    exact this
  have hblocks : I.blocks = (V₁.ibuf (f % 8)).blocks := by rw [hI]
  have htype : I.type = (V.inode f).type := by rw [hI, hI₁]
  have hino : I.ino = (V.inode f).ino := by rw [hI, hI₁]
  have hnlink : I.nlink = (V.inode f).nlink := by rw [hI, hI₁]
  have hfimap := Vol.imap_of_kind hf
  have hne : ∀ x, V.IsDir x → x ≠ f := by
    rintro x hx rfl
    rw [Vol.IsFile, hx] at hf
    cases hf
  -- The pointers are those that the file had in the buffer.
  have hforest : W.forest = (V₁.virt f).forest := by
    unfold Vol.forest
    congr 1
    · funext r
      have him : (V₁.virt f).imap r.1 = W.imap r.1 := by
        rw [hW]
        rfl
      rw [him]
      by_cases hr : r.1 = f
      · have hs : (V₁.virt f).inode f = V₁.ibuf (f % 8) := Function.update_self ..
        rw [hr, hself, hs, hblocks]
      · by_cases hm : V.imap r.1 = true
        · have hs : (V₁.virt f).inode r.1 = V.inode r.1 := by
            rw [View.virt, Vol.inode_setInode, if_neg hr, h.inode, h₀]
          rw [hinode r.1 hm hr, hs]
        · rw [himap, if_neg hm, if_neg hm]
    · funext q w
      have hb : W.data (blockOf q) = (V₁.virt f).data (blockOf q) := congrFun hdata _
      rw [Vol.word_of_data hb]
  have hfollow : ∀ r ws, W.follow r ws = (V₁.virt f).follow r ws := fun r ws => by rw [Vol.follow, hforest]
  have hother : ∀ r ws, r.1 ≠ f → ws.length ≤ Vol.depth r → W.follow r ws = V.follow r ws := fun r ws hr hl => by
    rw [hfollow, h.other r ws hr hl, hvirt₀]
  have hkind : ∀ x, W.names.kind x = V.names.kind x := by
    intro x
    simp only [Vol.names, himap]
    by_cases hm : V.imap x = true
    · by_cases hx : x = f
      · rw [hx, hself, htype]
      · rw [hinode x hm hx]
    · simp [hm]
  have hdirs : ∀ x, V.IsDir x → W.inode x = V.inode x := fun x hx => hinode x (Vol.imap_of_kind hx) (hne x hx)
  have hcwd : W.cwd = V.cwd := by rw [Vol.cwd, hwd]; rfl
  have hbottom : ∀ r ws c, r.1 ≠ f → c < NUM_BLOCKS → ws.length = Vol.depth r → V.follow r ws = some (sec c) →
      W.data c = V.data c := by
    intro r ws c hr hc hl hfo
    rw [hdata, h.bottom r ws c hr hc hl (by rw [hvirt₀]; exact hfo), h₀]
  refine ⟨⟨?_, ?_, ?_, ?_, ?_, ?_, ?_, ?_, ?_, ?_⟩, ⟨hkind, ?_, ?_⟩, hdirs, hwd, ?_, ?_⟩
  · exact h.space.congr (fun r ws _ => hfollow r ws) (by rw [hW]; rfl)
  · intro x hx
    rw [himap] at hx
    exact hV.lt hx
  · intro x hx
    rw [himap] at hx
    by_cases hxf : x = f
    · rw [hxf, hself, htype]
      exact hV.type hfimap
    · rw [hinode x hx hxf]
      exact hV.type hx
  · intro x hx
    rw [himap] at hx
    by_cases hxf : x = f
    · rw [hxf, hself, hino]
      exact hV.ino hfimap
    · rw [hinode x hx hxf]
      exact hV.ino hx
  · rw [Vol.IsDir, hkind, hdirs 0 hV.root.1]
    exact hV.root
  · intro x hx
    rw [Vol.IsDir, hkind] at hx
    rw [hdirs x hx]
    exact hV.dir hx
  · intro x hx
    rw [Vol.IsFile, hkind] at hx
    by_cases hxf : x = f
    · subst hxf
      rw [hself]
      exact (h.covers.congr fun k ws _ => hfollow (x, k) ws).mono hN
    · rw [hinode x (Vol.imap_of_kind hx) hxf]
      exact (hV.cover hx).congr fun k ws hl => hother (x, k) ws hxf hl
  · rw [Vol.IsDir, hkind, hcwd]
    exact hV.cwd
  · rw [hcwd, hwd, hdirs _ hV.cwd]
    exact hV.wd
  · intro c hc0 hc hm
    rw [hW] at hm ⊢
    exact h.uniform hc0 hc hm
  · intro x y hx
    obtain ⟨hb, -, hfo⟩ := hV.dirBlock hx
    simp only [Vol.names, Vol.dirBlock, hdirs x hx]
    exact Vol.entry_of_data (hbottom (x, 0) [] _ (hne x hx) hb rfl hfo) y
  · intro x hx
    simp only [Vol.names]
    by_cases hxf : x = f
    · rw [hxf, hself, hnlink]
    · rw [hinode x (Vol.imap_of_kind hx) hxf]
  · rw [← hfile]
    funext m
    rw [Vol.file, Vol.file, Vol.leaf, Vol.leaf, hfollow, hdata]
    rfl
  · intro g hg hgf
    funext m
    have hleaf : W.leaf g m = V.leaf g m := hother _ _ hgf (length_eq_depth g m).le
    rw [Vol.file, hleaf, Vol.file]
    cases hp : V.leaf g m with
    | none => rfl
    | some q =>
      obtain ⟨c, hc, rfl⟩ := hV.space.leaf hp
      rw [Option.map_some, Option.map_some, blockOf_sec hc, hbottom _ _ c hgf hc (length_eq_depth g m) hp]

/-- The size of a file after a write that ends at `pos`. -/
def newSize (size pos : UInt32) : UInt32 := if size < pos then pos else size

theorem le_newSize (size pos : UInt32) : size.toNat ≤ (newSize size pos).toNat ∧
    pos.toNat ≤ (newSize size pos).toNat := by
  unfold newSize
  split
  · next h =>
    have := UInt32.lt_iff_toNat_lt.mp h
    omega
  · next h =>
    have : ¬ size.toNat < pos.toNat := fun e => h (UInt32.lt_iff_toNat_lt.mpr e)
    omega

/-- The blocks that are visited lie below the new size. -/
theorem Vol.WriteOk.lt_nblocks {V : Vol} {i : Fin NUM_FDESCS} {len : ℕ} (h : V.WriteOk i len) (hV : V.Base) {w : UInt32}
    (hw : w.toNat = (V.fdesc i).write_pos.toNat + len) {n : ℕ} (hn : n ∈ blocksOf (V.fdesc i).write_pos.toNat len) :
    n < nblocks (newSize (V.inode (V.fdesc i).ino.toNat).size w) := by
  obtain ⟨h1, h2⟩ := le_newSize (V.inode (V.fdesc i).ino.toNat).size w
  obtain ⟨hlo, hhi⟩ := Finset.mem_Icc.mp hn
  have hempty := h.empty
  generalize (V.fdesc i).write_pos.toNat = p at *
  by_cases hcase : len = 0 ∧ p % 4096 = 0 ∧ (V.inode (V.fdesc i).ino.toNat).size.toNat ≤ p
  · -- The block is there already, so below the old size.
    obtain ⟨h0, hp0, hs⟩ := hcase
    have hcov := hV.cover h.file (pathOf (p / 4096)).1 (pathOf (p / 4096)).2 (length_eq_depth _ _).le (hempty h0 hp0 hs)
    rw [firstId_pathOf] at hcov
    have := nblocks_mono h1
    have : n = p / 4096 := by
      rw [h0] at hhi
      omega
    omega
  · unfold nblocks
    by_cases h0 : len = 0
    · rw [h0] at hhi hw hcase
      have : p % 4096 ≠ 0 ∨ p < (V.inode (V.fdesc i).ino.toNat).size.toNat := by
        by_contra hc
        exact hcase ⟨rfl, by omega, by omega⟩
      omega
    · omega

/-- `do_write`. -/
theorem do_write_spec (h : V.Inv) (ht : V.Tidy) {fd : ℤ} {i : Fin NUM_FDESCS} (hfd : Fs.fdIndex fd = some i)
    {cs : List UInt8} (hok : V.WriteOk i cs.length) :
    Spec V (Fs.do_write fd cs) fun r V' => r = cs.length ∧ V'.Tidy ∧
      Written V.toVol V'.toVol (V.fdesc i).ino.toNat (V.fdesc i).write_pos.toNat cs ∧
      ∃ w : UInt32, w.toNat = (V.fdesc i).write_pos.toNat + cs.length ∧
        V'.fdesc = Function.update V.fdesc i { V.fdesc i with write_pos := w } := by
  have hfile := hok.file
  have hfimap := Vol.imap_of_kind hfile
  have hflt := h.lt hfimap
  have hclob := hok.clobber
  have hbelow := fun w hw n hn => hok.lt_nblocks (w := w) h.toBase hw (n := n) hn
  have hreach : ∀ n ∈ blocksOf (V.fdesc i).write_pos.toNat cs.length, Reachable n := by
    intro n hn
    refine ⟨?_, hok.reach n hn⟩
    have hlt := hok.lt
    obtain ⟨-, hhi⟩ := Finset.mem_Icc.mp hn
    rw [constants.2.2.2]
    have hlen := cs.length.zero_le
    have hpos := (V.fdesc i).write_pos.toNat_lt
    omega
  have henough := hok.enough
  have hplt := hok.lt
  rw [Fs.do_write, hfd]
  refine Does.fdescs.seq ?_
  dsimp only
  rw [inodeidx2sector_eq hflt, Fs.inodeidx2offset]
  generalize hfdef : (V.fdesc i).ino.toNat = f at *
  generalize hpdef : (V.fdesc i).write_pos.toNat = p at *
  set A := blocksOf p cs.length with hA
  refine (Does.breadInode hflt).seq ?_
  generalize hV₁ : ({ V with ibuf := V.loadInodes f } : View) = V₁
  have hvol₁ : V₁.toVol = V.toVol := by rw [← hV₁]
  have hib₁ : V₁.ibuf = V.loadInodes f := by rw [← hV₁]
  have ht₁ : V₁.Tidy := by rw [← hV₁]; exact ⟨ht.dbuf, ht.rbuf⟩
  have hvirt₁ : V₁.virt f = V.toVol := by
    rw [View.virt, hvol₁, hib₁, Vol.loadInodes_mod, Vol.setInode, Function.update_eq_self]
  -- The position at the end, and the bound on blocks that the new size gives.
  obtain ⟨w, hw⟩ : ∃ w : UInt32, w.toNat = p + cs.length :=
    ⟨UInt32.ofNat (p + cs.length), by rw [UInt32.toNat_ofNat', Nat.mod_eq_of_lt hplt]⟩
  have hN := hbelow w hw
  have h₁ : Writing V₁ V₁ f (nblocks (newSize (V.inode f).size w)) A := by
    refine ⟨ht₁, rfl, rfl, rfl, fun _ _ => rfl, rfl, by rw [hvirt₁]; exact h.space, ?_, fun _ _ _ _ => rfl,
      fun _ _ _ _ _ _ _ => rfl, ?_, by rw [hvirt₁]; exact henough⟩
    · rw [hvol₁]
      exact h.uniform
    · rw [hvirt₁]
      exact (h.cover hfile).mono (nblocks_mono (le_newSize _ _).1)
  have hf₁ : V₁.imap f = true := by rw [hvol₁]; exact hfimap
  have hpA : p / 4096 ∈ A := by
    rw [hA, blocksOf, Finset.mem_Icc]
    omega
  refine (needBlock_spec ht₁ h₁.space hf₁ h₁.enough hpA (hreach _ hpA)).bind ?_
  rintro q V₂ ⟨hg, hq, hfile₂⟩
  rw [hvirt₁] at hfile₂
  obtain ⟨b, hb, rfl⟩ := hg.space.leaf hq
  rw [toNat_sec hb]
  have h₂ := h₁.grows hg (hN _ hpA) hpA
  refine (Does.breadWdata hb).seq ?_
  generalize hV₃ : ({ V₂ with wbuf := V₂.wbuf.put 0 (V₂.data b) } : View) = V₃
  have h₃ : Writing V₁ V₃ f (nblocks (newSize (V.inode f).size w)) A := by
    rw [← hV₃]
    exact h₂.congr h₂.tidy.rbuf
  have hfd₃ : V₃.fdesc = V.fdesc := by rw [← hV₃, ← hvol₁]; exact hg.keeps.fdesc
  have hl₃ : Loaded V₃ f p := by
    rw [← hV₃]
    exact fun _ => ⟨b, hb, hq⟩
  have hpend₃ : pend V₃ f p = (V.file f).grow (p / 4096) := by
    rw [← hfile₂, ← hV₃, pend]
    split
    · rfl
    · have hsec : (V₂.virt f).file f (p / 4096) = some (V₂.data b) := by
        rw [Vol.file, hq, Option.map_some, blockOf_sec hb]
        rfl
      show Function.update ((V₂.virt f).file f) (p / 4096) (some (Bytes.sector (V₂.wbuf.put 0 (V₂.data b)) 0)) = _
      rw [sector_put, ← hsec, Function.update_eq_self]
  have hroom : Room A (nblocks (newSize (V.inode f).size w)) p cs.length := by
    refine ⟨hplt, fun x hx hx' => ?_⟩
    have hxA : x / 4096 ∈ A := by
      rw [hA, blocksOf, Finset.mem_Icc]
      omega
    exact ⟨hxA, hN _ hxA, hreach _ hxA⟩
  refine (writeLoop_spec hf₁ i cs h₃ (by rw [hfd₃]; exact hpdef) hroom hl₃).bind ?_
  rintro _ V₄ ⟨h₄, hl₄, hpend₄, w', hw', hfd₄⟩
  obtain rfl : w' = w := UInt32.toNat_inj.mp (hw'.trans hw.symm)
  rw [hfd₃] at hfd₄
  refine Does.fdescs.seq ?_
  have hpos₄ : (V₄.fdesc i).write_pos = w' := by rw [hfd₄, Function.update_self]
  rw [hpos₄, hw]
  have hf₄ : V₄.imap f = true := by rw [h₄.imap]; exact hf₁
  refine Spec.bind (P := fun _ V₅ => Writing V₁ V₅ f (nblocks (newSize (V.inode f).size w')) A ∧ V₅.fdesc = V₄.fdesc ∧
    (V₅.virt f).file f = ((V.file f).grow (p / 4096)).write p cs) (Spec.ifThen (fun h0 => ?_) fun h0 => ?_) ?_
  · have h0 : (p + cs.length) % 4096 ≠ 0 := h0
    obtain ⟨c, hc, hleaf⟩ := hl₄ h0
    refine (flushData_spec h₄ hf₄ hplt hc hleaf).mono ?_
    rintro _ V₅ ⟨h₅, hfd₅, -, hfile₅⟩
    refine ⟨h₅, hfd₅, ?_⟩
    rw [← hpend₃, ← hpend₄, pend, if_neg h0, hfile₅]
  · have h0 : (p + cs.length) % 4096 = 0 := not_not.mp h0
    refine ⟨h₄, rfl, ?_⟩
    rw [← hpend₃, ← hpend₄, pend, if_pos h0]
  · rintro _ V₅ ⟨h₅, hfd₅, hfile₅⟩
    have hk : f % 8 < 8 := by omega
    refine (Does.inodeBuf hk).seq (Does.get_timer.seq ((Does.setInodeBuf hk _).seq
      ((Does.bwriteInode (by decide) hflt).seq
        (Spec.pure ⟨rfl, ⟨h₅.tidy.dbuf, h₅.tidy.rbuf⟩, ?_, w', hw, hfd₅.trans hfd₄⟩))))
    have hsize : (V₅.ibuf (f % 8)).size = (V.inode f).size := by rw [h₅.self, hib₁, Vol.loadInodes_mod]
    refine h₅.written
      (I := { V₅.ibuf
        (f % 8) with size := newSize (V₅.ibuf (f % 8)).size w', mtime := V₅.clock 0, atime := V₅.clock 0 })
      h hfile hvol₁ hib₁ hfile₅ rfl (by rw [hsize]) rfl ?_ ?_
    · dsimp only [View.storeInodes]
      rw [if_pos ⟨hflt, by omega, by rw [BLOCK_SECTORS_eq]; omega⟩, Function.update_self]
      rfl
    · intro x hx hxf
      have hxlt := h.lt hx
      dsimp only [View.storeInodes]
      rw [BLOCK_SECTORS_eq]
      split
      · next hin =>
        have hsame : x / 8 = f / 8 := by
          by_contra hne
          have := hclob x hx (by omega)
          omega
        rw [Function.update_of_ne (by omega), h₅.ibuf _ (by omega), hib₁, Vol.loadInodes, if_pos (by omega), ← hsame,
          show x / 8 * 8 + x % 8 = x by omega]
      · rw [h₅.inode, hvol₁]

end OsLab
