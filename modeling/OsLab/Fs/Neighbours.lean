import OsLab.Fs.ReadBack

/-!
# What a write to a file overwrites

`do_write` ends by writing the inode's sector with the sector count of a block: the seven sectors
after it receive the same bytes. These sectors hold other inodes, or the first block of the data
area. Since the bytes carry the time of the call, no contents of the seven sectors agree with
them for every answer of the timer; so for no state, no descriptor and no data does `do_write` keep
to its own file (`not_writesOnly`).

Up to the last two calls `do_write` does not look at the timer. `Timeless` is that property of
programs; its rules follow the constructs of the programs.
-/

namespace OsLab

open Lib ProgM Bytes

/-! ### Programs that do not read the timer -/

section Timeless

variable {α β : Type}

/-- The program comes back over every cache in order, with a result that does not depend on what
the timer will answer. -/
def Timeless (x : FsM α) : Prop :=
  ∀ (m : Mem) (c : Bcache), c.Ok → ∃ (a : α) (m' : Mem) (c' : Bcache), c'.Ok ∧
    ∀ t, exec cached x ⟨{ m with clock := t }, c⟩ = some (a, ⟨{ m' with clock := t }, c'⟩)

namespace Timeless

theorem pure (a : α) : Timeless (pure a : FsM α) := fun m c hc => ⟨a, m, c, hc, fun _ => rfl⟩

/-- What is left to run after a program that does not read the timer. -/
theorem seq {x : FsM α} {f : α → FsM β} (hx : Timeless x) {m : Mem} {c : Bcache} (hc : c.Ok)
    {Q : ((ℕ → UInt32) → Option (β × Sys)) → Prop}
    (hf : ∀ (a : α) (m' : Mem) (c' : Bcache), c'.Ok → Q fun t => exec cached (f a) ⟨{ m' with clock := t }, c'⟩) :
    Q fun t => exec cached (x >>= f) ⟨{ m with clock := t }, c⟩ := by
  obtain ⟨a, m', c', hc', he⟩ := hx m c hc
  simp only [exec_bind, he, Option.bind_some]
  exact hf a m' c' hc'

theorem bind {x : FsM α} {f : α → FsM β} (hx : Timeless x) (hf : ∀ a, Timeless (f a)) : Timeless (x >>= f) := by
  intro m c hc
  refine hx.seq hc (Q := fun run => ∃ (b : β) (m' : Mem) (c' : Bcache), c'.Ok ∧
    ∀ t, run t = some (b, ⟨{ m' with clock := t }, c'⟩)) fun a m₁ c₁ hc₁ => ?_
  exact hf a m₁ c₁ hc₁

theorem get_bind {f : Mem → FsM β} (hf : ∀ m, Timeless (f m)) (ht : ∀ m t, f { m with clock := t } = f m) :
    Timeless ((get : FsM Mem) >>= f) := by
  intro m c hc
  obtain ⟨b, m', c', hc', he⟩ := hf m m c hc
  refine ⟨b, m', c', hc', fun t => ?_⟩
  rw [exec_bind, exec_get, Option.bind_some, ht, he t]

theorem modify {f : Mem → Mem} (hf : ∀ m t, f { m with clock := t } = { f m with clock := t }) :
    Timeless (modify f : FsM Unit) := fun m c hc => ⟨(), f m, c, hc, fun t => by rw [exec_modify, hf]⟩

theorem perform (e : Io) : Timeless (ProgM.perform e : FsM (Io.Res e)) := by
  intro m c hc
  -- The cache answers every operation and stays in order.
  obtain ⟨r, c', he, hc'⟩ : ∃ r c', cached e c = some (r, c') ∧ c'.Ok := by
    cases e with
    | bread b n s =>
      obtain ⟨c', he, hc', -⟩ := Bcache.bread_spec hc b n s
      exact ⟨_, c', he, hc'⟩
    | bwrite b n s =>
      obtain ⟨c', he, hc', -⟩ := Bcache.bwrite_spec hc b n s
      exact ⟨(), c', by simp [cached, he], hc'⟩
    | policy p => exact ⟨(), _, rfl, (Bcache.policy_spec hc p).1⟩
  exact ⟨r, m, c', hc', fun t => by rw [exec_perform, he, Option.map_some]⟩

theorem ifThen {c : Prop} [Decidable c] {x : FsM Unit} (hx : Timeless x) : Timeless (Fs.ifThen c x) := by
  unfold Fs.ifThen
  split
  · exact hx
  · exact pure ()

/-! The building blocks of the file system. -/

theorem setBuf (b : Buffer) (m : Bytes) : Timeless (Fs.setBuf b m) := modify fun _ _ => rfl

theorem bread (b : Buffer) (n s : ℕ) : Timeless (Fs.bread b n s) :=
  get_bind (fun _ => (perform _).bind fun _ => setBuf _ _) fun _ _ => rfl

theorem bwrite (b : Buffer) (n s : ℕ) : Timeless (Fs.bwrite b n s) := get_bind (fun _ => perform _) fun _ _ => rfl

theorem inodeBuf (k : ℕ) : Timeless (Fs.inodeBuf k) := get_bind (fun _ => pure _) fun _ _ => rfl

theorem setInodeBuf (k : ℕ) (I : Inode) : Timeless (Fs.setInodeBuf k I) := get_bind (fun _ => setBuf _ _) fun _ _ => rfl

theorem rword (k : ℕ) : Timeless (Fs.rword k) := get_bind (fun _ => pure _) fun _ _ => rfl

theorem setRword (k : ℕ) (v : UInt32) : Timeless (Fs.setRword k v) := get_bind (fun _ => setBuf _ _) fun _ _ => rfl

theorem setWbyte (o : ℕ) (b : UInt8) : Timeless (Fs.setWbyte o b) := get_bind (fun _ => setBuf _ _) fun _ _ => rfl

theorem fdescs : Timeless Fs.fdescs := get_bind (fun _ => pure _) fun _ _ => rfl

theorem setFdesc (i : Fin NUM_FDESCS) (f : Fdesc) : Timeless (Fs.setFdesc i f) := modify fun _ _ => rfl

theorem readWord (p : UInt32) (k : ℕ) : Timeless (Fs.readWord p k) := (bread _ _ _).bind fun _ => rword k

theorem find_free_block : Timeless Fs.find_free_block := by
  refine (bread _ _ _).bind fun _ => get_bind (fun m => ?_) fun m t => ?_
  · split
    · exact pure _
    · exact (setBuf _ _).bind fun _ => (bwrite _ _ _).bind fun _ =>
        (setBuf _ _).bind fun _ => (bwrite _ _ _).bind fun _ => pure _
  · dsimp only

theorem blockid2sector (n : ℕ) (I : Inode) : Timeless (Fs.blockid2sector n I) := by
  unfold Fs.blockid2sector
  split
  · exact pure _
  split
  · split
    · exact pure _
    · exact readWord _ _
  split
  · dsimp only
    split
    · exact pure _
    refine (readWord _ _).bind fun lv1 => ?_
    split
    · exact pure _
    · exact readWord _ _
  split
  · dsimp only
    split
    · exact pure _
    refine (readWord _ _).bind fun lv2 => ?_
    split
    · exact pure _
    refine (readWord _ _).bind fun lv1 => ?_
    split
    · exact pure _
    · exact readWord _ _
  · exact pure _

theorem allocTop (k : ℕ) (j : Fin 10) : Timeless (Fs.allocTop k j) :=
  find_free_block.bind fun _ => (inodeBuf k).bind fun _ => setInodeBuf _ _

theorem needTop (k : ℕ) (j : Fin 10) : Timeless (Fs.needTop k j) :=
  (inodeBuf k).bind fun _ => (allocTop k j).ifThen.bind fun _ => (inodeBuf k).bind fun _ => pure _

theorem allocWord (p : UInt32) (i : ℕ) : Timeless (Fs.allocWord p i) :=
  find_free_block.bind fun _ => (bread _ _ _).bind fun _ => (setRword _ _).bind fun _ => bwrite _ _ _

theorem needWord (p : UInt32) (i : ℕ) : Timeless (Fs.needWord p i) :=
  (readWord p i).bind fun _ => (allocWord p i).ifThen.bind fun _ => rword i

theorem alloc_inode_block (n k : ℕ) : Timeless (Fs.alloc_inode_block n k) := by
  unfold Fs.alloc_inode_block
  split
  · exact (allocTop _ _).bind fun _ => pure _
  split
  · exact (needTop _ _).bind fun _ => (allocWord _ _).bind fun _ => pure _
  split
  · exact (needTop _ _).bind fun _ => (needWord _ _).bind fun _ => (allocWord _ _).bind fun _ => pure _
  split
  · exact (needTop _ _).bind fun _ => (needWord _ _).bind fun _ =>
      (needWord _ _).bind fun _ => (allocWord _ _).bind fun _ => pure _
  · exact pure _

theorem needBlock (n k : ℕ) : Timeless (Fs.needBlock n k) := by
  refine (inodeBuf k).bind fun I => (blockid2sector n I).bind fun p => ?_
  split
  · exact (alloc_inode_block n k).bind fun _ => (inodeBuf k).bind fun _ => blockid2sector _ _
  · exact pure _

theorem flushData (pos k : ℕ) : Timeless (Fs.flushData pos k) :=
  (inodeBuf k).bind fun _ => (blockid2sector _ _).bind fun _ => bwrite _ _ _

/-- The loop of `do_write`. -/
theorem writeLoop (i : Fin NUM_FDESCS) (k : ℕ) (cs : List UInt8) : Timeless (Fs.writeLoop i k cs) := by
  induction cs with
  | nil => exact pure ()
  | cons c cs ih =>
    refine fdescs.bind fun fds => ?_
    refine ((needBlock _ _).bind fun _ => bread _ _ _).ifThen.bind fun _ => (setWbyte _ _).bind fun _ => ?_
    exact (flushData _ _).ifThen.bind fun _ => (setFdesc _ _).bind fun _ => ih

end Timeless

end Timeless

/-! ### The sectors of a write -/

/-- The sectors that a write to file `f` may change: the block map, the inode's own sector, and the
blocks that are the file's or free. -/
def Vol.Writable (V : Vol) (f x : ℕ) : Prop :=
  (Fs.BLOCK_MAP ≤ x ∧ x < Fs.BLOCK_MAP + BLOCK_MAP_SIZE) ∨ x = inodeSector f ∨
    ∃ b < NUM_BLOCKS, blockSector b ≤ x ∧ x < blockSector b + 8 ∧
      (V.bmap b = false ∨ ∃ k ws, ws.length ≤ Vol.depth (f, k) ∧ V.follow (f, k) ws = some (sec b))

/-- From `s` to `s'` no inode but `f` changes, and no sector that a write to `f` may not change. -/
structure OnlyFile (s s' : Sys) (f : ℕ) : Prop where
  inode : ∀ i < NUM_INODES, i ≠ f → s'.vol.inode i = s.vol.inode i
  sector : ∀ x, s'.dev.logical x ≠ s.dev.logical x → s.vol.Writable f x

/-- `do_write(fd, cs)` in state `s` changes file `f` only, whatever the timer answers. -/
def WritesOnly (s : Sys) (fd : ℤ) (f : ℕ) (cs : List UInt8) : Prop :=
  ∀ (now : ℕ → UInt32) (r : ℤ) (s' : Sys),
    exec cached (Fs.do_write fd cs) ⟨{ s.mem with clock := now }, s.dev⟩ = some (r, s') → OnlyFile s s' f

variable {s : Sys} {fd : ℤ} {i : Fin NUM_FDESCS} {f : ℕ}

theorem inodeSector_lt {i : ℕ} (h : i < NUM_INODES) : inodeSector i < 802 := by
  have : FS_START_SECTOR + INODE_OFFSET = 290 := by decide
  unfold inodeSector
  unfold NUM_INODES at h
  omega

theorem exec_bwrite_cached (b : Buffer) (n x : ℕ) (m : Mem) (c : Bcache) :
    exec cached (Fs.bwrite b n x) ⟨m, c⟩ = (c.bwrite (m.buf b) n x).map fun c' => ((), ⟨m, c'⟩) := by
  have he := exec_perform (μ := Mem) cached ⟨m, c⟩ (Io.bwrite (m.buf b) n x)
  rw [cached, Option.map_map] at he
  exact he

theorem exec_fdescs_bind {β : Type} (k : (Fin NUM_FDESCS → Fdesc) → FsM β) (m : Mem) (c : Bcache) :
    exec cached (Fs.fdescs >>= k) ⟨m, c⟩ = exec cached (k m.fdesc_array) ⟨m, c⟩ := by
  rw [exec_bind]
  rfl

/-- The runs leave in the sector after that of inode `f` a copy of it, with the time of the call. -/
def Stamps (f : ℕ) (run : (ℕ → UInt32) → Option (ℤ × Sys)) : Prop :=
  ∃ (m : Bytes) (I : Inode), ∀ now : ℕ → UInt32, ∃ (r : ℤ) (s' : Sys), run now = some (r, s') ∧
    s'.dev.logical (inodeSector f + 1) = (putInode m (64 * (f % 8)) { I with mtime := now 0, atime := now 0 }).sector 0

/-- The end of `do_write`. -/
theorem stamps_end (hlt : f < NUM_INODES) (I : Inode) (n : ℤ) (m : Mem) {c : Bcache} (hc : c.Ok) : Stamps f fun t =>
    exec cached (do
      let now ← Fs.get_timer
      Fs.setInodeBuf (f % 8) { I with mtime := now, atime := now }
      Fs.bwrite .inode_buffer BLOCK_SECTORS (inodeSector f)
      pure n) ⟨{ m with clock := t }, c⟩ := by
  refine ⟨m.buf .inode_buffer, I, fun now => ?_⟩
  obtain ⟨c', hb, -, hl⟩ := Bcache.bwrite_spec hc
    (putInode (m.buf .inode_buffer) (64 * (f % 8)) { I with mtime := now 0, atime := now 0 })
    BLOCK_SECTORS (inodeSector f)
  have he : ∃ m', exec cached (do
      let now ← Fs.get_timer
      Fs.setInodeBuf (f % 8) { I with mtime := now, atime := now }
      Fs.bwrite .inode_buffer BLOCK_SECTORS (inodeSector f)
      pure n) ⟨{ m with clock := now }, c⟩ = some (n, ⟨m', c'⟩) := by
    simp only [Fs.get_timer, Fs.setInodeBuf, Fs.setBuf, exec_bind, exec_get, exec_modify, exec_pure, Option.bind_some]
    rw [exec_bwrite_cached]
    dsimp only
    rw [Function.update_self, hb]
    exact ⟨_, rfl⟩
  obtain ⟨m', he⟩ := he
  refine ⟨n, ⟨m', c'⟩, he, ?_⟩
  have := inodeSector_lt hlt
  rw [hl, if_pos ⟨1, by decide, by rw [Nat.mod_eq_of_lt (by omega)]⟩]

/-- `do_write` stamps the sector after the inode's. -/
theorem do_write_stamps (hc : s.dev.Ok) (hfd : Fs.fdIndex fd = some i) (hf : (s.vol.fdesc i).ino.toNat = f)
    (hlt : f < NUM_INODES) (cs : List UInt8) :
    Stamps f fun t => exec cached (Fs.do_write fd cs) ⟨{ s.mem with clock := t }, s.dev⟩ := by
  have hf' : (s.mem.fdesc_array i).ino.toNat = f := hf
  simp only [Fs.do_write, hfd, exec_fdescs_bind]
  rw [inodeidx2sector_eq (by rw [hf']; exact hlt), Fs.inodeidx2offset, hf']
  refine (Timeless.bread _ _ _).seq (Q := Stamps f) hc fun _ m₁ c₁ hc₁ => ?_
  refine (Timeless.needBlock _ _).seq (Q := Stamps f) hc₁ fun p m₂ c₂ hc₂ => ?_
  refine (Timeless.bread _ _ _).seq (Q := Stamps f) hc₂ fun _ m₃ c₃ hc₃ => ?_
  refine (Timeless.writeLoop _ _ _).seq (Q := Stamps f) hc₃ fun _ m₄ c₄ hc₄ => ?_
  refine Timeless.fdescs.seq (Q := Stamps f) hc₄ fun fds m₅ c₅ hc₅ => ?_
  refine (Timeless.flushData _ _).ifThen.seq (Q := Stamps f) hc₅ fun _ m₆ c₆ hc₆ => ?_
  refine (Timeless.inodeBuf _).seq (Q := Stamps f) hc₆ fun I m₇ c₇ hc₇ => ?_
  exact stamps_end hlt { I with size := if I.size < (fds i).write_pos then (fds i).write_pos else I.size } _ m₇ hc₇

/-- The sector after the inode's is none that a write to the file may change. -/
theorem Vol.Inv.not_writable {V : Vol} (h : V.Inv) (hlt : f < NUM_INODES) : ¬ V.Writable f (inodeSector f + 1) := by
  have hsec := inodeSector_lt hlt
  have h290 : FS_START_SECTOR + INODE_OFFSET = 290 := by decide
  rintro (⟨-, hmap⟩ | hself | ⟨b, hb, hlo, -, hown⟩)
  · have : Fs.BLOCK_MAP + BLOCK_MAP_SIZE ≤ 290 := by decide
    unfold inodeSector at hmap
    omega
  · omega
  · -- Only for the last inodes: the sector is in the first block, which is the root's.
    rw [blockSector, DATA_eq] at hlo
    obtain rfl : b = 0 := by omega
    have hf0 : f ≠ 0 := by
      rintro rfl
      unfold inodeSector at hlo
      omega
    have hroot : V.follow (0, 0) [] = some (sec 0) := by
      obtain ⟨-, he, hfo⟩ := h.dirBlock h.root.1
      rw [hfo, ← he, h.root.2]
    obtain hfree | ⟨k, ws, hl, hfo⟩ := hown
    · have := (h.space.used 0 hb).mpr ⟨_, _, by simp, hroot⟩
      rw [hfree] at this
      cases this
    · exact hf0 (congrArg Prod.fst (h.space.unshared _ _ _ _ _ hl (by simp) hfo hroot).1)

/-- With two answers of the timer the sector after the inode's gets different bytes. -/
theorem Vol.Inv.not_writesOnly (h : s.vol.Inv) (hc : s.dev.Ok) (hfd : Fs.fdIndex fd = some i)
    (hf : (s.vol.fdesc i).ino.toNat = f) (hlt : f < NUM_INODES) (cs : List UInt8) : ¬ WritesOnly s fd f cs := by
  intro hall
  obtain ⟨m, I, hrun⟩ := do_write_stamps hc hfd hf hlt cs
  have hkeep : ∀ t : UInt32, s.dev.logical (inodeSector f + 1) =
      (putInode m (64 * (f % 8)) { I with mtime := t, atime := t }).sector 0 := by
    intro t
    obtain ⟨r, s', he, hl⟩ := hrun fun _ => t
    by_contra hne
    refine h.not_writable hlt ((hall _ r s' he).sector _ ?_)
    rw [hl]
    exact Ne.symm hne
  have hget : ∀ t : UInt32, getInode (ofSector (s.dev.logical (inodeSector f + 1))) (64 * (f % 8)) =
      { I with mtime := t, atime := t } := by
    intro t
    rw [hkeep t]
    refine Eq.trans (getInode_congr fun j _ hj => ofSector_sector_of_lt _ ?_) (getInode_putInode m (64 * (f % 8)) _)
    unfold SECTOR_SIZE
    omega
  have h01 : (0 : UInt32) = 1 := congrArg Inode.mtime ((hget 0).symm.trans (hget 1))
  exact absurd h01 (by decide)

/-- On no volume in order, through no descriptor of an inode and with no data does `do_write` change
its own file only: for every state, descriptor and data there is an answer of the timer with which
it changes a sector of other inodes or of the root directory. -/
theorem do_write_never_only (s : Sys) (hc : s.dev.Ok) (h : s.vol.Inv)
    (fd : ℤ) (i : Fin NUM_FDESCS) (hfd : Fs.fdIndex fd = some i)
    (hlt : (s.vol.fdesc i).ino.toNat < NUM_INODES) (cs : List UInt8) : ¬ WritesOnly s fd (s.vol.fdesc i).ino.toNat cs :=
  h.not_writesOnly hc hfd rfl hlt cs

/-- Right after `do_mkfs`, with `vm` opened for reading and writing. -/
theorem do_write_never_only_vm : ∃ (s : Sys) (fd : ℤ) (i : Fin NUM_FDESCS), Reach (fun V call => call.Ok V) s ∧
    Fs.fdIndex fd = some i ∧ (s.vol.fdesc i).ino.toNat = 3 ∧ ¬ WritesOnly s fd (s.vol.fdesc i).ino.toNat [120] := by
  obtain ⟨s, fd, i, hr, ⟨hsound, hfd, ⟨-, hino, -⟩, -⟩, -⟩ := exists_openRw
  exact ⟨s, fd, i, hr, hfd, hino, do_write_never_only s hsound.cache hsound.inv fd i hfd (by rw [hino]; decide) [120]⟩

/-- One byte written to `vm` right after `do_mkfs` changes sectors that are not the file's. -/
theorem do_write_vm_overwrites :
    ¬ ∀ (s s' : Sys) (fd r : ℤ) (i : Fin NUM_FDESCS) (cs : List UInt8), s.dev.Ok → s.vol.Inv →
    Fs.fdIndex fd = some i → (s.vol.fdesc i).ino.toNat < NUM_INODES → (s.vol.fdesc i).valid ≠ 0 →
    exec cached (Fs.do_write fd cs) s = some (r, s') → OnlyFile s s' (s.vol.fdesc i).ino.toNat := by
  intro hall
  obtain ⟨s, fd, i, -, ⟨hsound, hfd, ⟨hvalid, hino, -⟩, -⟩, -⟩ := exists_openRw
  refine hsound.inv.not_writesOnly hsound.cache hfd hino (by decide) [120] fun now r s' he => ?_
  -- The answers of the timer are no part of the volume.
  obtain ⟨hinode, hsector⟩ := hall ⟨{ s.mem with clock := now }, s.dev⟩ s' fd r i [120] hsound.cache hsound.inv hfd
    (by show (s.vol.fdesc i).ino.toNat < NUM_INODES; rw [hino]; decide) hvalid he
  rw [← hino]
  exact ⟨hinode, hsector⟩

end OsLab
