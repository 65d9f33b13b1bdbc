import OsLab.Fs.Descriptors

/-!
# Formatting

`do_mkfs` writes empty bitmaps, makes the root directory and creates `proc/sys/vm`. Up to the last
of these it leaves a root directory and nothing else (`do_mkfs_formats`), on any card and from any
memory.
-/

namespace OsLab

open Lib ProgM Bytes

variable {V : View} {β : Type} {G : St → FsM β → Prop} {st : St}

/-! ### The maps -/

theorem Does.setSuperblock (m : Bytes) : Does V (Fs.setBuf .superblock_buffer m) () V := by
  rintro st rfl
  exact ⟨_, rfl, rfl⟩

theorem Does.bwriteSuperblock : Does V (Fs.bwrite .superblock_buffer 1 FS_START_SECTOR) () V := by
  rintro st rfl
  refine ⟨_, exec_bwrite _ (by decide) (by decide) st, ?_⟩
  have happ : ∀ x, x ≠ 256 → st.dev.bwrite (st.mem.buf .superblock_buffer) 1 FS_START_SECTOR x = st.dev x := by
    intro x hx
    rw [Disk.bwrite_apply _ _ (by decide), if_neg]
    unfold FS_START_SECTOR
    omega
  have h290 : FS_START_SECTOR + INODE_OFFSET = 290 := by decide
  ext : 1
  · simp only [View.of]
    rw [happ _ (by decide)]
  · simp only [View.of]
    rw [happ _ (by decide)]
  · simp only [View.of]
    funext i
    rw [happ _ (by unfold inodeSector; omega)]
  · simp only [View.of]
    funext b
    rw [happ _ (by rw [blockSector, DATA_eq]; omega)]
  · simp only [View.of]
    funext b
    rw [happ _ (by rw [blockSector, DATA_eq]; omega)]
  case boot =>
    simp only [View.of]
    funext s
    split
    · next hs => rw [happ s (by unfold FS_START_SECTOR at hs; omega)]
    · rfl
  all_goals rfl

theorem bit_zero (i : ℕ) : bit (fun _ => 0) i = false := by simp [bit]

/-- An empty block map is written. -/
theorem Onward.clearBmap (hG : Onward G) {k : Unit → FsM β}
    (hk : ∀ st', View.of st' = { View.of st with bmap := fun _ => false } → G st' (k ())) :
    G st (do
      Fs.bzero .block_map
      let u ← Fs.bwrite .block_map BLOCK_MAP_SIZE Fs.BLOCK_MAP
      k u) := by
  obtain ⟨st₁, he₁, hst₁⟩ := exec_writeBmap (rfl : View.of st = View.of st) (fun _ => 0) (fun _ => false) bit_zero
  exact hG _ _ _ st _ () (exec_setBuf st _ _) (hG _ _ _ _ st₁ () he₁ (hk st₁ hst₁))

/-- An empty inode map is written. -/
theorem Onward.clearImap (hG : Onward G) {k : Unit → FsM β}
    (hk : ∀ st', View.of st' = { View.of st with imap := fun _ => false } → G st' (k ())) :
    G st (do
      Fs.bzero .inode_map
      let u ← Fs.bwrite .inode_map INODE_MAP_SIZE Fs.INODE_MAP
      k u) := by
  obtain ⟨st₁, he₁, hst₁⟩ := exec_writeImap st rfl (fun _ => 0) (fun _ => false) (fun i _ => bit_zero i) fun _ _ => rfl
  exact hG _ _ _ st _ () (exec_setBuf st _ _) (hG _ _ _ _ st₁ () he₁ (hk st₁ hst₁))

theorem getInode_zero (o : ℕ) : getInode (fun _ => 0) o = Inode.zero := by
  refine getInode_eq _ fun j _ => ?_
  have hw : ∀ k, Inode.zero.word k = 0 := by
    intro k
    unfold Inode.word
    split <;> first | rfl | (split <;> rfl)
  unfold Inode.byteAt
  split
  · rfl
  · split
    · rfl
    · split
      · simp [Inode.zero, byte]
      · simp [hw, byte]

theorem Does.bzeroInode : Does V (Fs.bzero .inode_buffer) () { V with ibuf := fun _ => Inode.zero } := by
  rintro st rfl
  refine ⟨_, rfl, ?_⟩
  have hbuf : ∀ k, (if k < 8 then getInode (fun _ => 0) (64 * k) else Inode.zero) = Inode.zero := by
    intro k
    split
    · exact getInode_zero _
    · rfl
  exact congrArg (fun f => { View.of st with ibuf := f }) (funext hbuf)

theorem Does.setRoot (ino : UInt32) : Does V (modify fun s => { s with root_ino := ino } : FsM Unit) () V := by
  rintro st rfl
  exact ⟨_, rfl, rfl⟩

theorem Does.policy (p : Policy) : Does V (perform (Io.policy p)) () V := by
  rintro st rfl
  exact ⟨_, rfl, rfl⟩

theorem Does.setFreq (n : ℤ) : Does V (modify fun s => { s with write_back_freq := n } : FsM Unit) () V := by
  rintro st rfl
  exact ⟨_, rfl, rfl⟩

/-! ### The root directory -/

/-- A volume with a root directory and nothing else. -/
structure Vol.Formatted (U : Vol) : Prop where
  imap : U.imap = Function.update (fun _ => false) 0 true
  bmap : U.bmap = Function.update (fun _ => false) 0 true
  inode : ∃ now, U.inode 0 = newInode 0 IT_DIR 64 (sec 0) now
  data : U.data 0 = (dots 0 0).sector 0
  wd : U.wd = U.inode 0

namespace Vol.Formatted

variable {U : Vol} (h : U.Formatted)

include h

theorem imap_iff (i : ℕ) : U.imap i = true ↔ i = 0 := by
  rw [h.imap, Function.update_apply]
  split <;> simp [*]

theorem kind (i : ℕ) : U.names.kind i = if i = 0 then some .dir else none := by
  simp only [names]
  by_cases hi : i = 0
  · obtain ⟨now, hino⟩ := h.inode
    rw [if_pos ((h.imap_iff i).mpr hi), if_pos hi, hi, hino]
    rfl
  · have : U.imap i ≠ true := fun e => hi ((h.imap_iff i).mp e)
    rw [if_neg this, if_neg hi]

theorem isDir_iff (i : ℕ) : U.IsDir i ↔ i = 0 := by
  rw [IsDir, h.kind]
  split <;> simp [*]

theorem dirBlock : U.dirBlock 0 = 0 := by
  obtain ⟨now, hino⟩ := h.inode
  rw [Vol.dirBlock, hino]
  exact blockOf_sec (by decide)

theorem dent (y : ℕ) : U.names.dent 0 y =
    if y = 0 then ⟨(Dentry.zero.strcpy [46]).name, IT_DIR, 0⟩
    else if y = 1 then ⟨(Dentry.zero.strcpy [46, 46]).name, IT_DIR, 0⟩ else Dentry.zero := by
  show U.entry (U.dirBlock 0) y = _
  rw [h.dirBlock, entry, h.data, getDentry_dots]

/-- The pointers lead to block 0. -/
theorem follow_eq {r : ℕ × Fin 10} {ws : List ℕ} {p : UInt32} (hl : ws.length ≤ depth r) (hf : U.follow r ws = some p) :
    r = (0, 0) ∧ ws = [] ∧ p = sec 0 := by
  obtain ⟨now, hino⟩ := h.inode
  have hroot : ∀ r q, U.forest.root r = some q → r = (0, 0) ∧ q = sec 0 := by
    rintro ⟨i, k⟩ q hq
    simp only [forest] at hq
    split at hq
    · next hi =>
      obtain rfl := (h.imap_iff i).mp hi
      obtain ⟨hq, hq0⟩ := nz_eq_some.mp hq
      rw [hino] at hq
      simp only [newInode] at hq
      by_cases hk : k = 0
      · rw [if_pos hk] at hq
        exact ⟨by rw [hk], hq.symm⟩
      · rw [if_neg hk] at hq
        exact absurd hq.symm hq0
    · cases hq
  induction ws generalizing p with
  | nil =>
    obtain ⟨hr, hp⟩ := hroot r p hf
    exact ⟨hr, rfl, hp⟩
  | cons w ws ih =>
    simp only [List.length_cons] at hl
    rw [Vol.follow, Forest.follow_cons] at hf
    obtain ⟨q, hq, -⟩ := Option.bind_eq_some_iff.mp hf
    obtain ⟨rfl, -, -⟩ := ih (by omega) hq
    have : depth (0, 0) = 0 := rfl
    omega

theorem follow_root : U.follow (0, 0) [] = some (sec 0) := by
  obtain ⟨now, hino⟩ := h.inode
  have hi := (h.imap_iff 0).mpr rfl
  simp only [Vol.follow, Forest.follow_nil, forest, hi, if_true, hino, newInode]
  exact nz_of_ne (sec_ne_zero (by decide))

theorem space : U.Space := by
  refine ⟨?_, ?_, ?_, ?_⟩
  · intro r ws r' ws' p hl hl' hf hf'
    obtain ⟨rfl, rfl, -⟩ := h.follow_eq hl hf
    obtain ⟨rfl, rfl, -⟩ := h.follow_eq hl' hf'
    exact ⟨rfl, rfl⟩
  · intro r ws p hl hf
    obtain ⟨-, -, rfl⟩ := h.follow_eq hl hf
    exact ⟨0, by decide, rfl⟩
  · intro b hb
    rw [h.bmap, Function.update_apply]
    constructor
    · intro hm
      split at hm
      · next hb0 => exact ⟨(0, 0), [], by simp, by rw [hb0]; exact h.follow_root⟩
      · cases hm
    · rintro ⟨r, ws, hl, hf⟩
      obtain ⟨-, -, hp⟩ := h.follow_eq hl hf
      rw [if_pos (sec_inj hb (by decide) hp)]
  · intro b hm
    rw [h.bmap, Function.update_apply] at hm
    split at hm
    · next hb0 => rw [hb0]; decide
    · cases hm

theorem base : U.Base := by
  obtain ⟨now, hino⟩ := h.inode
  have hcwd : U.cwd = 0 := by
    rw [Vol.cwd, h.wd, hino]
    rfl
  have hfile : ∀ {i}, ¬ U.IsFile i := by
    intro i hi
    rw [IsFile, h.kind] at hi
    split at hi <;> cases hi
  refine ⟨h.space, ?_, ?_, ?_, ?_, ?_, fun hi => absurd hi hfile, ?_, ?_, ?_⟩
  · intro i hi
    rw [(h.imap_iff i).mp hi]
    decide
  · intro i hi
    rw [(h.imap_iff i).mp hi, hino]
    exact Or.inl rfl
  · intro i hi
    rw [(h.imap_iff i).mp hi, hino]
    rfl
  · exact ⟨(h.isDir_iff 0).mpr rfl, by rw [hino]; rfl⟩
  · intro i hi
    rw [(h.isDir_iff i).mp hi, hino]
    refine ⟨sec_ne_zero (by decide), fun k hk => ?_⟩
    simp [newInode, hk]
  · rw [hcwd]
    exact (h.isDir_iff 0).mpr rfl
  · rw [hcwd]
    exact h.wd
  · intro b hb0 _ hm
    rw [h.bmap, Function.update_of_ne hb0] at hm
    cases hm

theorem link_iff (i j c : ℕ) : U.names.Link i j c ↔ i = 0 ∧ j < 2 ∧ c = 0 := by
  rw [Names.Link, h.kind]
  constructor
  · rintro ⟨hi, hu, hc⟩
    split at hi
    · next hi0 =>
      subst hi0
      rw [Names.child, h.dent] at hc
      rw [h.dent] at hu
      obtain rfl | rfl | hj : j = 0 ∨ j = 1 ∨ 2 ≤ j := by omega
      · exact ⟨rfl, by omega, hc.symm⟩
      · exact ⟨rfl, by omega, hc.symm⟩
      · rw [if_neg (by omega), if_neg (by omega)] at hu
        exact absurd hu (by decide)
    · cases hi
  · rintro ⟨rfl, hj, rfl⟩
    rw [Names.child, h.dent]
    obtain rfl | rfl : j = 0 ∨ j = 1 := by omega
    · exact ⟨rfl, by decide, rfl⟩
    · exact ⟨rfl, by decide, rfl⟩

theorem inv : U.Inv := by
  refine ⟨h.base, ?_, ?_, ?_, ?_, ?_, ?_, ?_, ?_, ?_, ?_, ?_, ?_⟩
  · exact (h.isDir_iff 0).mpr rfl
  · exact fun hi => h.base.lt (imap_of_kind hi)
  · intro i hi
    obtain rfl := (h.isDir_iff i).mp hi
    rw [Names.child, h.dent]
    exact ⟨Dentry.str_strcpy Dentry.zero (by decide) (by decide), rfl⟩
  · intro i hi
    obtain rfl := (h.isDir_iff i).mp hi
    rw [h.dent]
    exact Dentry.str_strcpy Dentry.zero (by decide) (by decide)
  · rw [Names.child, h.dent]
    rfl
  · intro i j c hl
    obtain ⟨-, hj, -⟩ := (h.link_iff i j c).mp hl
    omega
  · intro i j hi hu
    obtain rfl := (h.isDir_iff i).mp hi
    rw [h.dent]
    split
    · rfl
    · split <;> rfl
  · intro i j c hj hl
    obtain ⟨-, hj', -⟩ := (h.link_iff i j c).mp hl
    omega
  · intro i j c hj hl
    obtain ⟨-, hj', -⟩ := (h.link_iff i j c).mp hl
    omega
  · intro i j i' j' c hj _ hl
    obtain ⟨-, hj', -⟩ := (h.link_iff i j c).mp hl
    omega
  · intro i k hi
    rw [h.kind] at hi
    split at hi
    · next hi0 => rw [hi0]; exact .root
    · cases hi
  · intro f hf
    rw [h.kind] at hf
    split at hf <;> cases hf

end Vol.Formatted

/-- `do_mkfs` up to the call of `init_bcache_policy`. -/
theorem do_mkfs_formats {G : St → FsM ℤ → Prop} (hG : Onward G)
    (hk : ∀ st', (View.of st').Formatted → (View.of st').Tidy → (View.of st').fdesc = (View.of st).fdesc → G st' (do
      Fs.init_bcache_policy
      pure 0)) : G st Fs.do_mkfs := by
  rw [Fs.do_mkfs]
  have hfi : firstClear (fun _ => false) NUM_INODES = some 0 := firstClear_eq_some.mpr ⟨by decide, rfl, by omega⟩
  have hfb : firstClear (fun _ => false) NUM_BLOCKS = some 0 := firstClear_eq_some.mpr ⟨by decide, rfl, by omega⟩
  refine hG _ _ _ st st st.mem rfl ?_
  refine (Does.setSuperblock _).runs hG fun st₁ hst₁ => Does.bwriteSuperblock.runs hG fun st₂ hst₂ => ?_
  refine hG.clearBmap fun st₃ hst₃ => hG.clearImap fun st₄ hst₄ => ?_
  have himap₄ : (View.of st₄).imap = fun _ => false := by rw [hst₄]
  have hbmap₄ : (View.of st₄).bmap = fun _ => false := by rw [hst₄, hst₃]
  have hfd₄ : (View.of st₄).fdesc = (View.of st).fdesc := by rw [hst₄, hst₃, hst₂, hst₁]
  clear hst₁ hst₂ hst₃ hst₄
  refine (Spec.runs (find_free_inode_spec (i := 0) ?_)).bind hG ?_
  · show firstClear (View.of st₄).imap NUM_INODES = some 0
    rw [himap₄]
    exact hfi
  rintro r st₅ ⟨hr, h₅⟩
  have himap₅ : (View.of st₅).imap = Function.update (fun _ => false) 0 true := by rw [h₅.vol, ← himap₄]; rfl
  have hbmap₅ : (View.of st₅).bmap = fun _ => false := by rw [h₅.vol, ← hbmap₄]; rfl
  have hfd₅ : (View.of st₅).fdesc = (View.of st).fdesc := by rw [h₅.vol, ← hfd₄]; rfl
  clear h₅
  have hoff : Fs.inodeidx2offset (UInt32.ofNat 0) = 0 := rfl
  have hsec : Fs.inodeidx2sector (UInt32.ofNat 0) = inodeSector 0 := inodeidx2sector_eq (by decide)
  rw [hr]
  refine (Does.setRoot _).runs hG fun st₆ hst₆ =>
    Does.bzeroInode.runs hG fun st₇ hst₇ => Does.get_timer.runs hG fun st₈ hst₈ => ?_
  have himap₈ : (View.of st₈).imap = (View.of st₅).imap := by rw [hst₈, hst₇, hst₆]
  have hbmap₈ : (View.of st₈).bmap = (View.of st₅).bmap := by rw [hst₈, hst₇, hst₆]
  have hfd₈ : (View.of st₈).fdesc = (View.of st₅).fdesc := by rw [hst₈, hst₇, hst₆]
  generalize (View.of st₇).clock 0 = now
  clear hst₆ hst₇ hst₈
  refine (Spec.runs (find_free_block_spec (b := 0) ?_)).bind hG ?_
  · show firstClear (View.of st₈).bmap NUM_BLOCKS = some 0
    rw [hbmap₈, hbmap₅]
    exact hfb
  rintro r' st₉ ⟨hr', hv₉, -, hrb₉⟩
  have himap₉ : (View.of st₉).imap = (View.of st₈).imap := by rw [hv₉]; rfl
  have hbmap₉ : (View.of st₉).bmap = Function.update (View.of st₈).bmap 0 true := by rw [hv₉]; rfl
  have hfd₉ : (View.of st₉).fdesc = (View.of st₈).fdesc := by rw [hv₉]; rfl
  clear hv₉
  rw [hr', hoff, hsec]
  refine (Does.setInodeBuf (by decide) _).runs hG fun st₁₀ hst₁₀ =>
    Does.runs (Does.bwriteInode (n := 1) (i := 0) (by omega) (by decide))
    hG fun st₁₁ hst₁₁ => (Does.setWd _).runs hG fun st₁₂ hst₁₂ => ?_
  have hv₁₂ : View.of st₁₂ = _ := hst₁₂
  rw [hst₁₁, hst₁₀] at hv₁₂
  -- The first inode is the root's.
  have hinode : ∀ (U : View) (I : Inode), View.storeInodes { U with ibuf := Function.update U.ibuf 0 I } 1 0 0 = I := by
    intro U I
    rw [View.storeInodes, if_pos ⟨by decide, by omega, by omega⟩]
    exact Function.update_self (0 : ℕ) I U.ibuf
  refine (Spec.runs (writeDots_spec (b := 0) ?_ (by decide) _ _)).bind hG ?_
  · rw [hv₁₂]
    show ∀ i, SECTOR_SIZE ≤ i → (View.of st₉).rbuf i = 0
    rw [hrb₉]
    exact fun _ _ => rfl
  rintro _ st₁₃ ⟨hv₁₃, ht₁₃⟩
  rw [hv₁₂] at hv₁₃
  refine hk st₁₃ ⟨?_, ?_, ⟨now, ?_⟩, ?_, ?_⟩ ht₁₃ ?_
  · rw [hv₁₃]
    exact himap₉.trans (himap₈.trans himap₅)
  · rw [hv₁₃]
    exact hbmap₉.trans (by rw [hbmap₈, hbmap₅])
  · rw [hv₁₃]
    exact hinode (View.of st₉) (newInode 0 IT_DIR 64 (sec 0) now)
  · rw [hv₁₃]
    exact Function.update_self 0 _ (View.of st₉).data
  · rw [hv₁₃]
    exact (hinode (View.of st₉) (newInode 0 IT_DIR 64 (sec 0) now)).symm
  · rw [hv₁₃]
    exact hfd₉.trans (hfd₈.trans hfd₅)

end OsLab
