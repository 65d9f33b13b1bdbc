import OsLab.Fs.Exhausted
import OsLab.Fs.Rmdir

/-!
# Creation that fails

`do_mkdir` and `do_touch` take an inode, then a block, then an entry of the working directory, and give nothing
back when a later step fails. So a failure leaves the file system as it was exactly when it comes before
the first of these: the name is too long or taken, or no inode is free (`create_failed_iff`). This is for
every state whatever, with directories and maps in order or not.
-/

namespace OsLab

open Lib ProgM Bytes

variable {α β : Type}

/-! ### What a run ends with -/

namespace Ends

variable {st st' : St} {P : β → Sys → Prop} {x : FsM α} {f : α → FsM β}

theorem seq {a : α} (he : exec disk x st = some (a, st')) (hf : Ends P st' (f a)) : Ends P st (x >>= f) :=
  Ends.onward P α x f st st' a he hf

theorem does {V : View} {a : α} (hx : Does (View.of st) x a V) (hf : ∀ st', View.of st' = V → Ends P st' (f a)) :
    Ends P st (x >>= f) := hx.runs (Ends.onward P) hf

theorem pure {b : β} (hp : ∀ c : Bcache, c.logical = st.dev → P b ⟨st.mem, c⟩) : Ends P st (pure b) := by
  intro c b' s' _ hl he
  obtain ⟨rfl, rfl⟩ := Prod.mk.inj (Option.some.inj he)
  exact hp c hl

theorem of_run {y : FsM β} {s s' : Sys} {b : β} (h : Ends P ⟨s.mem, s.dev.logical⟩ y) (hc : s.dev.Ok)
    (he : exec cached y s = some (b, s')) : P b s' := h s.dev b s' hc (by dsimp only) he

/-- A program that returns `b` only. -/
theorem of_value {y : FsM β} {b : β}
    (hy : ∀ (c : Bcache), Ensures cached ⟨st.mem, c⟩ y fun r _ => r = b) (hp : ∀ s', P b s') :
    Ends P st y := by
  intro c r s' _ _ he
  obtain rfl := hy c r s' he
  exact hp s'

end Ends

/-- The memory after a reading. -/
def St.afterBread (st : St) (b : Buffer) (n s : ℕ) : St :=
  setBufSt st b (st.dev.bread (st.mem.buf b) n s)

@[simp] theorem buf_afterBread (st : St) (b : Buffer) (n s : ℕ) :
    (st.afterBread b n s).mem.buf b = st.dev.bread (st.mem.buf b) n s := by
  simp [St.afterBread, setBufSt]

theorem exec_dentries (st : St) : exec disk Fs.dentries st = some (st.mem.dentry, st) := rfl

theorem exec_wdInode (st : St) : exec disk Fs.wdInode st = some (st.mem.wd_inode, st) := rfl

theorem dev_readImap (st : St) : (readImap st).dev = st.dev := rfl

theorem exec_bread_any (st : St) (b : Buffer) (n s : ℕ) :
    exec disk (Fs.bread b n s) st = some ((), st.afterBread b n s) := by
  simp only [Fs.bread, exec_bind, exec_get, exec_perform, disk,
    Option.bind_some, Option.map_some, exec_setBuf, St.afterBread]

/-- What is read into another buffer than those of the view does not change the volume. -/
theorem afterBread_dentry (st : St) (n s : ℕ) :
    (View.of (st.afterBread .dentry_buffer n s)).toVol = (View.of st).toVol := rfl

/-! ### Failing early and late -/

section Create

variable (s s' : Sys) (path : CString)

/-- The state in which `do_mkdir` and `do_touch` have read the working directory. -/
def Sys.looked : St := St.afterBread ⟨s.mem, s.dev.logical⟩ .dentry_buffer BLOCK_SECTORS (s.mem.wd_inode.blocks 0).toNat

/-- The entries of the working directory, as they are read. -/
def Sys.wdEntry : ℕ → Dentry := s.looked.mem.dentry

/-- The call fails before it takes an inode. -/
def Sys.RefusesAtOnce : Prop :=
  MAX_PATHNAME_LEN ≤ path.chars.length ∨ (∃ j < NUM_DENTRIES, (s.wdEntry j).str = path.chars) ∨ s.vol.freeInode = none

/-- The maps, the contents of the blocks and the working directory's inode, in memory and on the card, are the same. -/
structure Untouched : Prop where
  inode_map : s'.vol.imap = s.vol.imap
  block_map : s'.vol.bmap = s.vol.bmap
  contents : ∀ x, Fs.DATA ≤ x → s'.dev.logical x = s.dev.logical x
  wd_inode : s'.mem.wd_inode = s.mem.wd_inode
  wd_stored : s'.dev.logical (Fs.inodeidx2sector s.mem.wd_inode.ino) =
    s.dev.logical (Fs.inodeidx2sector s.mem.wd_inode.ino)

/-- What is shown of a call that ends with `r` in `s'`. -/
def FailsCleanlyIff (r : ℤ) : Prop := r = -1 → (Untouched s s' ↔ s.RefusesAtOnce path)

end Create

variable {s s' : Sys} {path : CString}

/-- A call that ends before it has taken an inode. -/
theorem Sys.RefusesAtOnce.ends (h : s.RefusesAtOnce path) {st : St} {r : ℤ} (hdev : st.dev = s.dev.logical)
    (hvol : (View.of st).toVol = s.vol) : Ends (fun r s' => FailsCleanlyIff s s' path r) st (pure r) := by
  refine Ends.pure fun c hl _ => ⟨fun _ => h, fun _ => ?_⟩
  have hlog : c.logical = s.dev.logical := hl.trans hdev
  have hv : Sys.vol ⟨st.mem, c⟩ = s.vol := by
    rw [← hvol, Sys.vol, Sys.view]
    dsimp only
    rw [hl]
  constructor
  · rw [hv]
  · rw [hv]
  · intro x _
    exact congrFun hlog x
  · exact congrArg Vol.wd hv
  · exact congrFun hlog _

/-- A call that fails with an inode taken. -/
theorem ends_taken (hno : ¬ s.RefusesAtOnce path) {i : ℕ} (hfree : s.vol.imap i = false) {st : St}
    (htaken : (View.of st).imap i = true) (r : ℤ) : Ends (fun r s' => FailsCleanlyIff s s' path r) st (pure r) := by
  refine Ends.pure fun c hl _ => ⟨fun h => ?_, fun h => absurd h hno⟩
  have hsame : Sys.vol ⟨st.mem, c⟩ = (View.of st).toVol := by
    rw [Sys.vol, Sys.view]
    dsimp only
    rw [hl]
  have := congrFun h.inode_map i
  rw [hsame, htaken, hfree] at this
  cases this

/-- A call that comes back with 0 only. -/
theorem ends_zero {st : St} {y : FsM ℤ} (hy : ∀ c : Bcache, Ensures cached ⟨st.mem, c⟩ y fun r _ => r = 0) :
    Ends (fun r s' => FailsCleanlyIff s s' path r) st y :=
  Ends.of_value hy fun s' h0 => absurd h0 (by decide)

/-- The first part of `do_mkdir` and `do_touch`; `k` is what follows when an inode has been taken. -/
theorem create_onward {G : St → FsM ℤ → Prop} (hG : Onward G) {k : Inode → ℕ → FsM ℤ}
    (hrefuse : s.RefusesAtOnce path → ∀ st : St, st.dev = s.dev.logical → (View.of st).toVol = s.vol → G st (pure (-1)))
    (hk : ∀ i st, s.vol.freeInode = some i → ¬ s.RefusesAtOnce path →
      View.of st = { View.of s.looked with imap := Function.update (View.of s.looked).imap i true } →
      G st (k s.mem.wd_inode i)) :
    G ⟨s.mem, s.dev.logical⟩
      (if MAX_PATHNAME_LEN ≤ path.chars.length then pure (-1)
      else do
        let wd ← Fs.wdInode
        Fs.bread .dentry_buffer BLOCK_SECTORS (wd.blocks 0).toNat
        let d ← Fs.dentries
        if (List.range NUM_DENTRIES).any fun j => (d j).str = path.chars then pure (-1)
        else do
          let inode_idx ← Fs.find_free_inode
          if inode_idx = FAIL then pure (-1) else k wd inode_idx) := by
  have hvol : (View.of s.looked).toVol = s.vol := by rw [Sys.looked, afterBread_dentry, Sys.vol, Sys.view]
  have hdev : s.looked.dev = s.dev.logical := by dsimp only [Sys.looked, St.afterBread, setBufSt]
  split
  · next hlen => exact hrefuse (Or.inl hlen) _ (by dsimp only) (by rw [Sys.vol, Sys.view])
  next hlen =>
  have hread : exec disk (Fs.bread .dentry_buffer BLOCK_SECTORS (s.mem.wd_inode.blocks 0).toNat)
    ⟨s.mem, s.dev.logical⟩ =
      some ((), s.looked) := by rw [exec_bread_any, Sys.looked]
  refine hG _ _ _ _ _ _ (exec_wdInode _) ?_
  refine hG _ _ _ _ _ _ hread (hG _ _ _ _ _ _ (exec_dentries s.looked) ?_)
  split
  · next hany =>
    obtain ⟨j, hj, hstr⟩ := List.any_eq_true.mp hany
    exact hrefuse (Or.inr (Or.inl ⟨j, List.mem_range.mp hj, of_decide_eq_true hstr⟩)) _ hdev hvol
  next hany =>
  cases hfi : s.vol.freeInode with
  | none =>
    have hfi' : (View.of s.looked).freeInode = none := by rw [hvol, hfi]
    have hscan := (scan_readImap s.looked).trans hfi'
    have he : exec disk Fs.find_free_inode s.looked = some (FAIL, readImap s.looked) := by
      simp only [Fs.find_free_inode, exec_bind, exec_readImap, Option.bind_some, exec_get, hscan, exec_pure]
    refine hG _ _ _ _ _ _ he ?_
    rw [if_pos rfl]
    exact hrefuse (Or.inr (Or.inr hfi)) _ ((dev_readImap s.looked).trans hdev)
      ((congrArg View.toVol (of_readImap s.looked)).trans hvol)
  | some i =>
    obtain ⟨hlt, -, -⟩ := firstClear_eq_some.mp hfi
    have hno : ¬ s.RefusesAtOnce path := by
      rintro (h | ⟨j, hj, hstr⟩ | h)
      · exact hlen h
      · exact hany (List.any_eq_true.mpr ⟨j, List.mem_range.mpr hj, decide_eq_true hstr⟩)
      · rw [hfi] at h
        cases h
    have hfi' : (View.of s.looked).freeInode = some i := by rw [hvol, hfi]
    refine (Does.find_free_inode hfi').runs hG fun st hst => ?_
    rw [if_neg (ino_ne_fail hlt)]
    exact hk i st hfi hno hst

/-- `do_touch`. -/
theorem do_touch_ends (s : Sys) (path : CString) :
    Ends (fun r s' => FailsCleanlyIff s s' path r) ⟨s.mem, s.dev.logical⟩ (Fs.do_touch path) := by
  rw [Fs.do_touch]
  refine create_onward (s := s) (Ends.onward _) (fun h st hdev hvol => h.ends hdev hvol) fun i st hfi hno hst => ?_
  obtain ⟨hlt, hfree, -⟩ := firstClear_eq_some.mp hfi
  refine Ends.does (Does.createInode hlt _ _ _) fun st₁ hst₁ => ?_
  have htaken : (View.of st₁).imap i = true := by
    rw [hst₁, hst]
    exact Function.update_self ..
  refine Ends.seq (exec_dentries st₁) ?_
  split
  · exact ends_taken hno hfree htaken _
  · exact ends_zero fun c => Ensures.last fun _ _ => Ensures.last fun _ _ => Ensures.last fun _ _ => Ensures.pure rfl

/-- `do_mkdir`. -/
theorem do_mkdir_ends (s : Sys) (path : CString) :
    Ends (fun r s' => FailsCleanlyIff s s' path r) ⟨s.mem, s.dev.logical⟩ (Fs.do_mkdir path) := by
  rw [Fs.do_mkdir]
  refine create_onward (s := s) (Ends.onward _) (fun h st hdev hvol => h.ends hdev hvol) fun i st hfi hno hst => ?_
  obtain ⟨hlt, hfree, -⟩ := firstClear_eq_some.mp hfi
  have htaken : (View.of st).imap i = true := by
    rw [hst]
    exact Function.update_self ..
  cases hfb : (View.of st).freeBlock with
  | none =>
    refine Ends.does (Does.find_free_block_none hfb) fun st₁ hst₁ => ?_
    rw [if_pos rfl]
    exact ends_taken hno hfree (by rw [hst₁]; exact htaken) _
  | some b =>
    obtain ⟨hb, -, -⟩ := firstClear_eq_some.mp hfb
    refine Ends.does (Does.find_free_block hfb) fun st₁ hst₁ => ?_
    rw [if_neg (blockSector_ne_fail hb)]
    refine Ends.does (Does.createInode hlt _ _ _) fun st₂ hst₂ => ?_
    have htaken₂ : (View.of st₂).imap i = true := by
      rw [hst₂, hst₁]
      exact htaken
    refine Ends.seq (exec_bread_any _ _ _ _) ?_
    refine Ends.seq (exec_dentries _) ?_
    split
    · have htaken₃ : (View.of (st₂.afterBread .dentry_buffer BLOCK_SECTORS (s.mem.wd_inode.blocks 0).toNat)).imap i =
        true := htaken₂
      exact ends_taken hno hfree htaken₃ _
    · exact ends_zero fun c => Ensures.last fun _ _ => Ensures.last fun _ _ => Ensures.last fun _ _ =>
        Ensures.last fun _ _ => Ensures.last fun _ _ => Ensures.pure rfl

/-- The two calls that create. -/
inductive Creation where
  | do_mkdir
  | do_touch

/-- The program of a creation. -/
def Creation.prog : Creation → CString → FsM ℤ
  | do_mkdir => Fs.do_mkdir
  | do_touch => Fs.do_touch

/-- A creation that fails leaves everything as it was exactly when it fails at once. -/
theorem create_failed_iff (s s' : Sys) (hc : s.dev.Ok) (call : Creation) (path : CString)
    (he : exec cached (call.prog path) s = some (-1, s')) : Untouched s s' ↔ s.RefusesAtOnce path := by
  cases call with
  | do_mkdir => exact (do_mkdir_ends s path).of_run hc he rfl
  | do_touch => exact (do_touch_ends s path).of_run hc he rfl

/-- Without a free block a `do_mkdir` fails, sooner or later. -/
theorem exists_do_mkdir_fails (hc : s.dev.Ok) (path : CString) (hfull : s.vol.freeBlock = none) :
    ∃ s', exec cached (Fs.do_mkdir path) s = some (-1, s') := by
  have hvol : (View.of s.looked).toVol = s.vol := by rw [Sys.looked, afterBread_dentry, Sys.vol, Sys.view]
  have hrun : Runs ⟨s.mem, s.dev.logical⟩ (Fs.do_mkdir path) fun r _ => r = -1 := by
    refine create_onward (Runs.onward _) (fun _ _ _ _ => Runs.pure rfl) fun i st _ _ hst => ?_
    have hfb : (View.of st).freeBlock = none := by
      rw [hst]
      show (View.of s.looked).toVol.freeBlock = none
      rw [hvol, hfull]
    refine (Does.find_free_block_none hfb).runs (Runs.onward _) fun st₁ _ => ?_
    rw [if_pos rfl]
    exact Runs.pure rfl
  obtain ⟨r, s', he, -, rfl⟩ := hrun.cached hc
  exact ⟨s', he⟩

theorem Sys.bmap_eq (s : Sys) (b : ℕ) :
    s.vol.bmap b = bit ((s.mem.buf .block_map).put 0 (s.dev.logical (Fs.BLOCK_MAP + 31))) b := by
  simp only [Sys.vol, Sys.view, View.of]

theorem Sys.wdEntry_eq (s : Sys) (j : ℕ) : s.wdEntry j = getDentry ((s.mem.buf .dentry_buffer).put 0
    (s.dev.logical (((s.mem.wd_inode.blocks 0).toNat + 7) % 2 ^ 32))) (32 * j) := by
  rw [Sys.wdEntry, Mem.dentry, Sys.looked, buf_afterBread, Disk.bread, if_neg (by decide), BLOCK_SECTORS_eq]

/-! ### On the full card -/

theorem fullSys_freeBlock : fullSys.vol.freeBlock = none :=
  firstClear_eq_none.mpr fun b _ => (Sys.bmap_eq fullSys b).trans (bit_of_full fullSys_map b)

theorem fullSys_wdEntry (j : ℕ) : fullSys.wdEntry j = getDentry (put (fun _ => 0) 0 (fullRoot.sector 0)) (32 * j) := by
  have hroot : fullCard (802 + 7) = fullRoot.sector 0 :=
    (if_neg (by decide)).trans ((if_neg (by decide)).trans ((if_neg (by decide)).trans (if_pos (by decide))))
  rw [Sys.wdEntry_eq, fullSys_logical, ← hroot]
  rfl

/-- The name `b` is free on the full card, and so is inode 2. -/
theorem fullSys_not_refuses : ¬ fullSys.RefusesAtOnce (.ofString "b") := by
  rintro (hlen | ⟨j, hj, hstr⟩ | hfree)
  · exact absurd hlen (by decide)
  · have hall : ∀ j < NUM_DENTRIES,
        (getDentry (put (fun _ => 0) 0 (fullRoot.sector 0)) (32 * j)).str ≠ (CString.ofString "b").chars := by
      decide +kernel
    rw [fullSys_wdEntry] at hstr
    exact hall j hj hstr
  · have hmap : fullCard Fs.INODE_MAP = sector (setBit (setBit (fun _ => 0) 0) 1) 0 :=
      (if_neg (by decide)).trans (if_pos rfl)
    have htwo := firstClear_eq_none.mp hfree 2 (by decide)
    rw [Sys.vol, Sys.imap_eq, fullSys_logical, hmap] at htwo
    exact absurd htwo (by decide)

/-- On the full card `mkdir b` fails, and inode 2 stays taken. -/
theorem do_mkdir_fullSys : ∃ s', exec cached (Creation.do_mkdir.prog (.ofString "b")) fullSys = some (-1, s') ∧
    (Untouched fullSys s' ↔ fullSys.RefusesAtOnce (.ofString "b")) := by
  obtain ⟨s', he⟩ := exists_do_mkdir_fails fullSys_ok (.ofString "b") fullSys_freeBlock
  exact ⟨s', he, create_failed_iff fullSys s' fullSys_ok .do_mkdir _ he⟩

/-- A creation that fails need not leave everything as it was. -/
theorem create_failed_changes : ¬ ∀ (s s' : Sys) (call : Creation) (path : CString), s.dev.Ok →
    exec cached (call.prog path) s = some (-1, s') → Untouched s s' := by
  intro hall
  obtain ⟨s', he⟩ := exists_do_mkdir_fails fullSys_ok (.ofString "b") fullSys_freeBlock
  have hends := (do_mkdir_ends fullSys (.ofString "b")).of_run fullSys_ok he rfl
  exact fullSys_not_refuses (hends.mp (hall fullSys s' .do_mkdir _ fullSys_ok he))

end OsLab
