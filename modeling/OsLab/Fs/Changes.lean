import OsLab.Fs.Blocks

/-!
# Making directories and giving inodes back

How a volume in order changes when a directory is made and when an inode is given back with
all its blocks.
-/

namespace OsLab

open Lib ProgM Bytes

namespace Vol

variable {V V' : Vol} {i b : ℕ}

/-- A new directory `i` with the free block `b`, still empty. -/
def newDir (V : Vol) (i b : ℕ) (now : UInt32) : Vol :=
  ((V.takeInode i).takeBlock b).setInode i (newInode i IT_DIR 64 (sec b) now)

theorem attached_newDir (h : V.Base) (hi : V.imap i = false) (hb : b < NUM_BLOCKS) (hfree : V.bmap b = false)
    (now : UInt32) : Forest.Attached depth V.forest (V.newDir i b now).forest (i, 0) [] (sec b) := by
  refine Forest.attached_root ?_ (h.space.not_live hb hfree) ?_ ?_ ?_ ?_
  · simp [forest, hi]
  · have himap : (V.newDir i b now).imap i = true := Function.update_self ..
    have hino : (V.newDir i b now).inode i = newInode i IT_DIR 64 (sec b) now := Function.update_self ..
    simp [forest, himap, hino, newInode, nz_of_ne (sec_ne_zero hb)]
  · rintro ⟨x, k⟩ hr
    by_cases hx : x = i
    · subst hx
      have hk : k ≠ 0 := fun e => hr (by rw [e])
      have hino : (V.newDir x b now).inode x = newInode x IT_DIR 64 (sec b) now := Function.update_self ..
      simp [forest, hi, hino, newInode, hk]
    · have himap : (V.newDir i b now).imap x = V.imap x := Function.update_of_ne hx _ _
      have hino : (V.newDir i b now).inode x = V.inode x := Function.update_of_ne hx _ _
      simp [forest, himap, hino]
  · rintro p w ⟨r, ws, hl, hf⟩
    obtain ⟨c, hc, rfl⟩ := h.space.range r ws p hl hf
    have hcb : c ≠ b := by
      rintro rfl
      exact h.space.not_live hb hfree ⟨r, ws, hl, hf⟩
    have : (V.newDir i b now).word c w = V.word c w :=
      word_of_data (show (V.newDir i b now).data c = V.data c from Function.update_of_ne hcb _ _) w
    simp only [forest, blockOf_sec hc, this]
  · intro w
    have : (V.newDir i b now).word b w = 0 := word_takeBlock_self (V.takeInode i) b w
    simp only [forest, blockOf_sec hb, this, nz_zero]

/-- A new directory. -/
theorem Base.newDir (h : V.Base) (hi : V.imap i = false) (hlt : i < NUM_INODES) (hb : b < NUM_BLOCKS)
    (hfree : V.bmap b = false) (now : UInt32) :
    (V.newDir i b now).Base ∧ Created V.names (V.newDir i b now).names i .dir ∧ (V.newDir i b now).dirBlock i = b := by
  have hne : ∀ {x k}, V.names.kind x = some k → x ≠ i := by
    rintro x k hx rfl
    rw [kind_eq_none.mpr hi] at hx
    cases hx
  have himap : ∀ x, x ≠ i → (V.newDir i b now).imap x = V.imap x := fun x hx => Function.update_of_ne hx _ _
  have hino : ∀ x, x ≠ i → (V.newDir i b now).inode x = V.inode x := fun x hx => Function.update_of_ne hx _ _
  have hself : (V.newDir i b now).inode i = newInode i IT_DIR 64 (sec b) now := Function.update_self ..
  have hself' : (V.newDir i b now).imap i = true := Function.update_self ..
  have hkind : ∀ x, (V.newDir i b now).names.kind x = if x = i then some .dir else V.names.kind x := by
    intro x
    simp only [Vol.names]
    by_cases hx : x = i
    · simp [hx, hself, hself', newInode]
    · rw [himap x hx, hino x hx, if_neg hx]
  have hatt := attached_newDir h hi hb hfree now
  have hfile : ∀ {x}, (V.newDir i b now).IsFile x → x ≠ i ∧ V.IsFile x := by
    intro x hx
    rw [IsFile, hkind] at hx
    split at hx
    · cases hx
    · next hxi => exact ⟨hxi, hx⟩
  have hblocks : ∀ x, V.IsDir x → V.dirBlock x ≠ b := by
    intro x hx e
    have := h.bmap_dirBlock hx
    rw [e, hfree] at this
    cases this
  refine ⟨⟨h.space.attach hb hatt rfl, ?_, ?_, ?_, ?_, ?_, ?_, ?_, ?_, ?_⟩, ⟨hkind, ?_, ?_, ?_⟩, ?_⟩
  · intro x hx
    by_cases hxi : x = i
    · exact hxi ▸ hlt
    · exact h.lt ((himap x hxi).symm.trans hx)
  · intro x hx
    by_cases hxi : x = i
    · rw [hxi, hself]
      exact Or.inl rfl
    · rw [hino x hxi]
      exact h.type ((himap x hxi).symm.trans hx)
  · intro x hx
    by_cases hxi : x = i
    · rw [hxi, hself]
      exact toNat_ino hlt
    · rw [hino x hxi]
      exact h.ino ((himap x hxi).symm.trans hx)
  · have h0 := hne h.root.1
    rw [IsDir, hkind, if_neg h0, hino 0 h0]
    exact h.root
  · intro x hx
    by_cases hxi : x = i
    · rw [hxi, hself]
      refine ⟨sec_ne_zero hb, fun k hk => ?_⟩
      simp [newInode, hk]
    · rw [IsDir, hkind, if_neg hxi] at hx
      rw [hino x hxi]
      exact h.dir hx
  · intro x hx
    obtain ⟨hxi, hx⟩ := hfile hx
    rw [hino x hxi]
    refine (h.cover hx).congr fun k ws hl => hatt.elsewhere _ _ hl ?_
    intro e
    exact absurd (congrArg Prod.fst e) hxi
  · have hc := hne h.cwd
    rw [IsDir, hkind, if_neg]
    · exact h.cwd
    · exact hc
  · show V.wd = (V.newDir i b now).inode V.cwd
    rw [hino _ (hne h.cwd)]
    exact h.wd
  · intro c hc0 hc hm
    show (if b = 0 then V.first else Function.update V.first b fun _ => 0) c = Function.update V.data b (fun _ => 0) c
    by_cases hcb : c = b
    · subst hcb
      rw [if_neg hc0, Function.update_self, Function.update_self]
    · have hm' : V.bmap c = true := by
        have : (V.newDir i b now).bmap c = V.bmap c := Function.update_of_ne hcb _ _
        exact this.symm.trans hm
      rw [Function.update_of_ne hcb]
      split
      · exact h.uniform hc0 hc hm'
      · rw [Function.update_of_ne hcb]
        exact h.uniform hc0 hc hm'
  · intro x y hx
    simp only [Vol.names, Vol.dirBlock, hino x (hne hx)]
    have hdata : (V.newDir i b now).data (V.dirBlock x) = V.data (V.dirBlock x) :=
      Function.update_of_ne (hblocks x hx) _ _
    exact entry_of_data hdata y
  · simp only [Vol.names, hself]
    rfl
  · intro x hx
    simp only [Vol.names, hino x hx]
  · rw [Vol.dirBlock, hself]
    exact blockOf_sec hb

/-- The other pointers of a directory lead nowhere. -/
theorem Base.follow_dir (h : V.Base) (hi : V.IsDir i) {k : Fin 10} (hk : k ≠ 0) (ws : List ℕ) :
    V.follow (i, k) ws = none := by
  rw [follow_eq_ptr (imap_of_kind hi) rfl, nz_eq_none]
  induction ws with
  | nil => exact (h.dir hi).2 k hk
  | cons w ws ih => rw [ptr_cons, if_pos ih]

/-- A directory's tree is its one block. -/
theorem Base.dir_covers (h : V.Base) (hi : V.IsDir i) {n : ℕ} (hn : 0 < n) : V.Covers i n := by
  intro k ws _ hp
  by_cases hk : k = 0
  · subst hk
    obtain ⟨-, rfl⟩ | ⟨e, -⟩ | ⟨e, -⟩ | e := path_cases (k := 0) (show ws.length ≤ ((0 : Fin 10) : ℕ) - 6 from ‹_›)
    · rw [firstId_direct (by decide)]
      exact hn
    all_goals exact absurd e (by decide)
  · exact absurd (h.follow_dir hi hk ws) hp

/-- Inode `i` has block `b`. -/
def Owns (V : Vol) (i b : ℕ) : Prop := ∃ k ws, ws.length ≤ depth (i, k) ∧ V.follow (i, k) ws = some (sec b)

/-- Below the size of an inode lies its whole tree of blocks. -/
theorem freed_iff_owns {V : Vol} (hi : V.imap i = true)
    (hcov : V.Covers i (nblocks (V.inode i).size)) {b : ℕ} (hb : b < NUM_BLOCKS) :
    V.Freed (V.inode i) 0 (nblocks (V.inode i).size) b ↔ V.Owns i b := by
  constructor
  · rintro ⟨k, ws, hl, -, -, hp⟩
    exact ⟨k, ws, hl, by rw [follow_eq_ptr hi rfl, hp, nz_of_ne (sec_ne_zero hb)]⟩
  · rintro ⟨k, ws, hl, hf⟩
    refine ⟨k, ws, hl, Nat.zero_le _, hcov k ws hl (by rw [hf]; simp), ?_⟩
    rw [follow_eq_ptr hi rfl, nz_eq_some] at hf
    exact hf.1

theorem Base.owns_dir (h : V.Base) (hi : V.IsDir i) {b : ℕ} (hb : b < NUM_BLOCKS) : V.Owns i b ↔ b = V.dirBlock i := by
  obtain ⟨hlt, -, hfol⟩ := h.dirBlock hi
  constructor
  · rintro ⟨k, ws, hl, hf⟩
    by_cases hk : k = 0
    · subst hk
      obtain rfl : ws = [] := List.eq_nil_of_length_eq_zero (Nat.le_zero.mp hl)
      exact sec_inj hb hlt (Option.some.inj (hf.symm.trans hfol))
    · rw [h.follow_dir hi hk ws] at hf
      cases hf
  · rintro rfl
    exact ⟨0, [], Nat.zero_le _, hfol⟩

/-- What giving inode `i` back does to the names. -/
structure Dropped (N N' : Names) (i : ℕ) : Prop where
  kind : ∀ x, N'.kind x = if x = i then none else N.kind x
  dent : ∀ x y, x ≠ i → N'.dent x y = N.dent x y
  nlink : ∀ x, x ≠ i → N'.nlink x = N.nlink x

/-- Giving an inode back, with the blocks below its size. -/
theorem Base.freeInode {V V' : View} (h : V.Base) (hi : V.imap i = true) (h0 : i ≠ 0) (hcwd : i ≠ V.cwd)
    (hcov : V.Covers i (nblocks (V.inode i).size)) (hF : FreesInode V V' i) :
    V'.Base ∧ Dropped V.names V'.names i := by
  have himap : V'.imap = Function.update V.imap i false := congrArg Vol.imap hF.eq
  have hinode : V'.inode = Function.update V.inode i Inode.zero := congrArg Vol.inode hF.eq
  have hdata : V'.data = V.data := by
    rw [hF.eq]
    rfl
  have hfirst : V'.first = V.first := by
    rw [hF.eq]
    rfl
  have hwd : V'.wd = V.wd := by
    rw [hF.eq]
    rfl
  have hino : ∀ x, x ≠ i → V'.inode x = V.inode x := fun x hx => by rw [hinode, Function.update_of_ne hx]
  have himap' : ∀ x, V'.imap x = true → x ≠ i ∧ V.imap x = true := by
    intro x hx
    rw [himap, Function.update_apply] at hx
    split at hx
    · cases hx
    · next hxi => exact ⟨hxi, hx⟩
  have hkind : ∀ x, V'.names.kind x = if x = i then none else V.names.kind x := by
    intro x
    simp only [Vol.names]
    by_cases hx : x = i
    · simp [hx, himap]
    · rw [hino x hx, himap, Function.update_of_ne hx, if_neg hx]
  have hkind' : ∀ {x k}, V'.names.kind x = some k → x ≠ i ∧ V.names.kind x = some k := by
    intro x k hx
    rw [hkind] at hx
    split at hx
    · cases hx
    · next hxi => exact ⟨hxi, hx⟩
  have hfollow := Forest.follow_prune (F := V.forest) (G := V'.forest) (P := fun r => r.1 = i)
    (fun r hr => by simp [forest, himap, hr])
    (fun r hr => by simp [forest, himap, Function.update_of_ne hr, hino r.1 hr])
    (fun a w => by simp only [forest, word_of_data (congrFun hdata _)])
  have howned := fun b hb => freed_iff_owns hi hcov (b := b) hb
  have hspace : V'.Space := by
    have hsub : ∀ r ws a, V'.follow r ws = some a → V.follow r ws = some a := by
      intro r ws a hf
      by_cases hr : r.1 = i
      · rw [follow, (hfollow r ws).1 hr] at hf
        cases hf
      · rwa [follow, (hfollow r ws).2 hr] at hf
    refine ⟨h.space.unshared.mono fun r ws a _ => hsub r ws a,
      fun r ws p hl hf => h.space.range r ws p hl (hsub r ws p hf),
      fun b hb => ?_, fun b hm => h.space.bits b (hF.mono b hm)⟩
    rw [hF.bmap b hb, howned b hb, h.space.used b hb]
    constructor
    · rintro ⟨⟨r, ws, hl, hf⟩, hno⟩
      have hr : r.1 ≠ i := by
        rintro rfl
        exact hno ⟨r.2, ws, hl, hf⟩
      exact ⟨r, ws, hl, ((hfollow r ws).2 hr).trans hf⟩
    · rintro ⟨r, ws, hl, hf⟩
      have hf' := hsub r ws _ hf
      refine ⟨⟨r, ws, hl, hf'⟩, ?_⟩
      rintro ⟨k, ws', hl', hf''⟩
      obtain ⟨rfl, rfl⟩ := h.space.unshared _ _ _ _ _ hl hl' hf' hf''
      rw [(hfollow _ ws).1 rfl] at hf
      cases hf
  have hcwd' : V'.cwd = V.cwd := by rw [Vol.cwd, hwd]; rfl
  refine ⟨⟨hspace, ?_, ?_, ?_, ?_, ?_, ?_, ?_, ?_, ?_⟩, hkind, ?_, ?_⟩
  · exact fun hx => h.lt (himap' _ hx).2
  · intro x hx
    obtain ⟨hxi, hx⟩ := himap' x hx
    rw [hino x hxi]
    exact h.type hx
  · intro x hx
    obtain ⟨hxi, hx⟩ := himap' x hx
    rw [hino x hxi]
    exact h.ino hx
  · rw [IsDir, hkind, if_neg (Ne.symm h0), hino 0 (Ne.symm h0)]
    exact h.root
  · intro x hx
    obtain ⟨hxi, hx⟩ := hkind' hx
    rw [hino x hxi]
    exact h.dir hx
  · intro x hx
    obtain ⟨hxi, hx⟩ := hkind' hx
    rw [hino x hxi]
    exact (h.cover hx).congr fun k ws _ => (hfollow (x, k) ws).2 hxi
  · rw [IsDir, hcwd', hkind, if_neg (Ne.symm hcwd)]
    exact h.cwd
  · rw [hcwd', hwd, hino _ (Ne.symm hcwd)]
    exact h.wd
  · intro c hc0 hc hm
    rw [hfirst, hdata]
    exact h.uniform hc0 hc ((hF.bmap c hc).mp hm).1
  · intro x y hx
    simp only [Vol.names, Vol.dirBlock, hino x hx]
    exact entry_of_data (congrFun hdata _) y
  · intro x hx
    simp only [Vol.names, hino x hx]

end Vol

end OsLab
