import OsLab.Fs.Place

/-!
# Directories on whole blocks, as long as nothing is removed

`Hier V kind k`: the first `k` inodes are taken, and those that have a kind make up directories in order. It
holds whatever the other inodes are; one that `do_mkdir` has made, but found no entry for, has no kind.

A call that allocates and gives up changes nothing that is in use (`Hier.grow`); one that succeeds enters one inode
(`Hier.enters`). `do_mkdir` and `do_touch` succeed when there is room (`Room`).
-/

namespace OsLab

open Lib ProgM Bytes

namespace Whole

variable {V V' : Whole} {kind : ℕ → Option Kind} {k w i j c : ℕ}
    {e : Dentry} {name : List UInt8} {kd : Kind} {I N : Inode}
  {fd : Fin NUM_FDESCS → Fdesc} {path : CString}

/-- Entry `j` of block `b`. -/
def entry (V : Whole) (b j : ℕ) : Dentry := getDentry (V.data b) (32 * j)

/-- The directories and their entries, when the inodes are of these kinds. -/
def names (V : Whole) (kind : ℕ → Option Kind) : Names where
  kind := kind
  dent i j := V.entry (V.dirBlock i) j
  nlink i := (V.inode i).nlink

/-- The first `k` inodes are taken, and those that have a kind make up directories in order, each in a block
of its own. -/
structure Hier (V : Whole) (kind : ℕ → Option Kind) (k : ℕ) : Prop where
  grown : (V.names kind).Grown
  le : k ≤ NUM_INODES
  imap : ∀ i, V.imap i = true ↔ i < k
  lt : ∀ {i kd}, kind i = some kd → i < k
  inode : ∀ {i kd}, kind i = some kd → (V.inode i).ino.toNat = i ∧ (V.inode i).type = kd.code
  block : ∀ {i}, kind i = some .dir →
    V.dirBlock i < NUM_BLOCKS ∧ (V.inode i).blocks 0 = sec (V.dirBlock i) ∧ V.bmap (V.dirBlock i) = true
  apart : ∀ {i i'}, kind i = some .dir → kind i' = some .dir → V.dirBlock i = V.dirBlock i' → i = i'

/-- Nothing changes but buffers. -/
structure Peeks (V V' : Whole) : Prop where
  imap : V'.imap = V.imap
  bmap : V'.bmap = V.bmap
  inode : V'.inode = V.inode
  data : V'.data = V.data

theorem Peeks.refl (V : Whole) : V.Peeks V := ⟨rfl, rfl, rfl, rfl⟩

theorem Peeks.trans {V₁ V₂ V₃ : Whole} (h : V₁.Peeks V₂) (h' : V₂.Peeks V₃) : V₁.Peeks V₃ :=
  ⟨h'.imap.trans h.imap, h'.bmap.trans h.bmap, h'.inode.trans h.inode, h'.data.trans h.data⟩

theorem Peeks.names (h : V.Peeks V') (kind : ℕ → Option Kind) : V'.names kind = V.names kind := by
  simp only [Whole.names, entry, dirBlock, h.inode, h.data]

theorem code_eq_dir : kd.code = IT_DIR ↔ kd = .dir := by
  cases kd <;> decide

/-! ### What is left in order -/

/-- Directories and inodes that have a kind keep what they are. -/
theorem Hier.keep {k' : ℕ} (h : V.Hier kind k) (hle : k ≤ k')
    (hle' : k' ≤ NUM_INODES) (himap : ∀ i, V'.imap i = true ↔ i < k')
    (hinode : ∀ {x kd}, kind x = some kd → (V'.inode x).ino = (V.inode x).ino ∧ (V'.inode x).type = (V.inode x).type ∧
      (kd = .dir → (V'.inode x).blocks 0 = (V.inode x).blocks 0))
    (hbmap : ∀ {x}, kind x = some .dir → V'.bmap (V.dirBlock x) = true)
    (hdata : ∀ {x}, kind x = some .dir → V'.data (V.dirBlock x) = V.data (V.dirBlock x)) : V'.Hier kind k' := by
  have hblock : ∀ {x}, kind x = some .dir → V'.dirBlock x = V.dirBlock x := by
    intro x hx
    rw [dirBlock, dirBlock, (hinode hx).2.2 rfl]
  refine ⟨h.grown.congr rfl fun {x} hx => funext fun y => ?_, hle',
    himap, fun hx => Nat.lt_of_lt_of_le (h.lt hx) hle, fun hx => ?_,
    fun hx => ?_, fun hx hx' => ?_⟩
  · show getDentry (V'.data (V'.dirBlock x)) _ = getDentry (V.data (V.dirBlock x)) _
    rw [hblock hx, hdata hx]
  · rw [(hinode hx).1, (hinode hx).2.1]
    exact h.inode hx
  · rw [hblock hx, (hinode hx).2.2 rfl]
    exact ⟨(h.block hx).1, (h.block hx).2.1, hbmap hx⟩
  · rw [hblock hx, hblock hx']
    exact h.apart hx hx'

theorem Peeks.hier (hp : V.Peeks V') (h : V.Hier kind k) : V'.Hier kind k :=
  h.keep (Nat.le_refl k) h.le (by rw [hp.imap]; exact h.imap)
    (fun _ => by rw [hp.inode]; exact ⟨rfl, rfl, fun _ => rfl⟩)
    (fun hx => by rw [hp.bmap]; exact (h.block hx).2.2) fun _ => by rw [hp.data]

/-- An inode is taken, and perhaps a block; nothing changes that was in use. -/
theorem Hier.grow (h : V.Hier kind k) (hk : k < NUM_INODES) (himap : V'.imap = Function.update V.imap k true)
    (hinode : ∀ x < k, V'.inode x = V.inode x) (hbmap : ∀ c, V.bmap c = true → V'.bmap c = true)
    (hdata : ∀ c, V.bmap c = true → V'.data c = V.data c) : V'.Hier kind (k + 1) := by
  refine h.keep (Nat.le_succ k) hk (fun i => ?_) (fun hx => ?_)
    (fun hx => hbmap _ (h.block hx).2.2) fun hx => hdata _ (h.block hx).2.2
  · rw [himap, Function.update_apply]
    split
    · next hik => exact iff_of_true rfl (by omega)
    · next hik =>
      rw [h.imap]
      omega
  · rw [hinode _ (h.lt hx)]
    exact ⟨rfl, rfl, fun _ => rfl⟩

/-- `V'` is `V` with a new inode `N`, number `k`, entered as `e` into slot `j` of directory `w`, whose inode
becomes `I`. -/
structure Enters (V V' : Whole) (kind : ℕ → Option Kind) (k w j : ℕ)
    (e : Dentry) (N I : Inode) (name : List UInt8) (kd : Kind) : Prop where
  imap : V'.imap = Function.update V.imap k true
  inode : V'.inode = Function.update (Function.update V.inode k N) w I
  bmap : ∀ c, V.bmap c = true → V'.bmap c = true
  data : ∀ c, V.bmap c = true → V'.data c = if c = V.dirBlock w then putDentry (V.data c) (32 * j) e else V.data c
  new : N.ino = UInt32.ofNat k ∧ N.type = kd.code
  wd : I.ino = (V.inode w).ino ∧ I.type = (V.inode w).type ∧ I.blocks = (V.inode w).blocks
  ino : e.ino = UInt32.ofNat k
  slot : ((List.range NUM_DENTRIES).find? fun y => !((V.names kind).dent w y).used) = some j
  str : e.str = name
  fresh : (V.names kind).look w name = none
  component : IsComponent name
  empty : kd = .file → N.blocks 0 = 0
  dots : kd = .dir → ∃ b < NUM_BLOCKS,
    N.blocks 0 = sec b ∧ V.bmap b = false ∧ V'.bmap b = true ∧ V'.data b = dots (UInt32.ofNat k) I.ino

/-- A new inode is found by its name, and is empty. -/
structure Entered (V' : Whole) (kind : ℕ → Option Kind) (k w : ℕ) (name : List UInt8) (kd : Kind) : Prop where
  hier : V'.Hier (Function.update kind k (some kd)) (k + 1)
  look : (V'.names (Function.update kind k (some kd))).look w name = some k
  empty : kd = .file → (V'.inode k).blocks 0 = 0
  dots : kd = .dir → (V'.names (Function.update kind k (some kd))).Dots k w

theorem getDentry_dots_block (ino parent : UInt32) (y : ℕ) : getDentry (dots ino parent) (32 * y) =
    if y = 0 then ⟨(Dentry.zero.strcpy [46]).name, IT_DIR, ino⟩
    else if y = 1 then ⟨(Dentry.zero.strcpy [46, 46]).name, IT_DIR, parent⟩ else Dentry.zero := by
  rw [← getDentry_dots, ofSector_sector fun i hi => dots_of_le _ _ (by unfold SECTOR_SIZE at hi; omega)]

theorem Hier.entered (h : V.Hier kind k) (hw : kind w = some .dir)
    (hk : k < NUM_INODES) (s : V.Enters V' kind k w j e N I name kd) :
    V'.Entered kind k w name kd := by
  obtain rfl := s.str
  have hwk : w ≠ k := (h.lt hw).ne
  have hinode : ∀ x < k, (V'.inode x).ino = (V.inode x).ino ∧
      (V'.inode x).type = (V.inode x).type ∧ (V'.inode x).blocks = (V.inode x).blocks := by
    intro x hx
    rw [s.inode, Function.update_apply]
    split
    · next hxw =>
      rw [hxw]
      exact s.wd
    · rw [Function.update_of_ne hx.ne]
      exact ⟨rfl, rfl, rfl⟩
  have hnew : V'.inode k = N := by rw [s.inode, Function.update_of_ne hwk.symm, Function.update_self]
  have hblock : ∀ {x kd}, kind x = some kd → V'.dirBlock x = V.dirBlock x := by
    intro x kd hx
    rw [dirBlock, dirBlock, (hinode x (h.lt hx)).2.2]
  obtain ⟨hfree, hlt, -⟩ := List.find?_range_eq_some.mp s.slot
  -- Directories have blocks of their own, so the other blocks are as before.
  have hdent : ∀ x y, kind x = some .dir →
      V'.entry (V'.dirBlock x) y = if x = w ∧ y = j then e else V.entry (V.dirBlock x) y := by
    intro x y hx
    rw [hblock hx, entry, s.data _ (h.block hx).2.2]
    by_cases hxw : x = w
    · rw [hxw, if_pos rfl]
      by_cases hyj : y = j
      · rw [hyj, getDentry_putDentry, if_pos ⟨rfl, rfl⟩]
      · rw [getDentry_putDentry_of_disjoint _ _ (by omega), if_neg fun hy => hyj hy.2]
        rfl
    · rw [if_neg fun hb => hxw (h.apart hx hw hb), if_neg fun hy => hxw hy.1]
      rfl
  have hlook := Names.look_eq_none.mp s.fresh
  have hdots : kd = .dir → (V'.names (Function.update kind k (some kd))).Dots k w := by
    intro hkd
    obtain ⟨b, hb, hsec, -, -, hd⟩ := s.dots hkd
    have hbk : V'.dirBlock k = b := by rw [dirBlock, hnew, hsec, blockOf_sec hb]
    have hall : ∀ y, (V'.names (Function.update kind k (some kd))).dent k y =
        getDentry (dots (UInt32.ofNat k) I.ino) (32 * y) := by
      intro y
      show getDentry (V'.data (V'.dirBlock k)) _ = _
      rw [hbk, hd]
    refine ⟨?_, ?_, fun y hy _ => ?_⟩
    · rw [Names.child, hall, getDentry_dots_block, if_pos rfl]
      exact ⟨Dentry.str_strcpy Dentry.zero (by decide) (by decide), toNat_ino hk⟩
    · rw [Names.child, hall, getDentry_dots_block, if_neg (by omega), if_pos rfl]
      exact ⟨Dentry.str_strcpy Dentry.zero (by decide) (by decide), by rw [s.wd.1]; exact (h.inode hw).1⟩
    · rw [hall, getDentry_dots_block, if_neg (by omega), if_neg (by omega)]
  have hadds : Names.Adds (V.names kind) (V'.names (Function.update kind k (some kd))) w j e k kd :=
    ⟨hw, List.mem_range.mp
      hlt, by simpa using hfree, hlook, s.component, by rw [s.ino, toNat_ino hk], fun x kd hx => h.lt hx, rfl,
      fun x y hx _ => hdent x y hx, hdots⟩
  have hgrown := hadds.grown h.grown
  have hself : (V'.names (Function.update kind k (some kd))).dent w j = e := by
    show V'.entry (V'.dirBlock w) j = e
    rw [hdent w j hw, if_pos ⟨rfl, rfl⟩]
  refine ⟨⟨hgrown, hk, fun i => ?_, fun {i kd'} hi => ?_,
    fun {i kd'} hi => ?_, fun {i} hi => ?_, fun {i i'} hi hi' => ?_⟩, ?_,
    fun hkd => by rw [hnew]; exact s.empty hkd, hdots⟩
  · rw [s.imap, Function.update_apply]
    split
    · next hik => exact iff_of_true rfl (by omega)
    · next hik =>
      rw [h.imap]
      omega
  · rw [Function.update_apply] at hi
    split at hi
    · omega
    · exact Nat.lt_succ_of_lt (h.lt hi)
  · rw [Function.update_apply] at hi
    split at hi
    · next hik =>
      rw [hik, hnew, s.new.1, s.new.2, Option.some.inj hi]
      exact ⟨toNat_ino hk, rfl⟩
    · obtain ⟨h1, h2, -⟩ := hinode i (h.lt hi)
      rw [h1, h2]
      exact h.inode hi
  · rw [Function.update_apply] at hi
    split at hi
    · next hik =>
      obtain ⟨b, hb, hsec, -, hbm, -⟩ := s.dots (Option.some.inj hi)
      have hbk : V'.dirBlock i = b := by rw [hik, dirBlock, hnew, hsec, blockOf_sec hb]
      rw [hbk, hik, hnew]
      exact ⟨hb, hsec, hbm⟩
    · rw [hblock hi, (hinode i (h.lt hi)).2.2]
      exact ⟨(h.block hi).1, (h.block hi).2.1, s.bmap _ (h.block hi).2.2⟩
  · -- The block of a new directory was free.
    have hne : ∀ {x}, kind x = some .dir → kd = .dir → V'.dirBlock x ≠ V'.dirBlock k := by
      intro x hx hkd he
      obtain ⟨b, hb, hsec, hbm, -⟩ := s.dots hkd
      have hbk : V'.dirBlock k = b := by rw [dirBlock, hnew, hsec, blockOf_sec hb]
      have := (h.block hx).2.2
      rw [← hblock hx, he, hbk, hbm] at this
      cases this
    intro he
    rw [Function.update_apply] at hi hi'
    split at hi <;> split at hi'
    · omega
    · next hik _ => exact absurd (hik ▸ he.symm) (hne hi' (Option.some.inj hi))
    · next _ hik => exact absurd (hik ▸ he) (hne hi (Option.some.inj hi'))
    · rw [hblock hi, hblock hi'] at he
      exact h.apart hi hi' he
  · have hwdir : (V'.names (Function.update kind k (some kd))).kind w = some .dir := by
      show Function.update kind k (some kd) w = some .dir
      rw [Function.update_of_ne hwk, hw]
    have hc : (V'.names (Function.update kind k (some kd))).child w j = k := by
      rw [Names.child, hself, s.ino, toNat_ino hk]
    have hl := hgrown.look_of_used hwdir (List.mem_range.mp hlt) (by rw [hself]; exact Names.used_of_str s.component.1)
    rwa [hself, hc] at hl

/-! ### Looking names up -/

/-- Loaded entries are searched like those of the block. -/
theorem find_entries {d d' : ℕ → Dentry} (hd : ∀ j < NUM_DENTRIES, d j = d' j) (p : Dentry → Bool) :
    (List.range NUM_DENTRIES).find? (fun j => p (d j)) = (List.range NUM_DENTRIES).find? fun j => p (d' j) :=
  List.find?_congr fun j hj => by rw [hd j (List.mem_range.mp hj)]

/-- The block of a directory is loaded. -/
theorem Hier.load (h : V.Hier kind k) (hw : kind w = some .dir) (hI : I.blocks 0 = (V.inode w).blocks 0) :
    Goes V (Fs.bread .dentry_buffer BLOCK_SECTORS (I.blocks 0).toNat) fun r V' =>
    r = () ∧ V' = { V with dbuf := V.data (V.dirBlock w) } := by
  obtain ⟨hb, hsec, -⟩ := h.block hw
  rw [hI, hsec, toNat_sec hb]
  exact Goes.breadDentry hb

theorem Hier.lookup (h : V.Hier kind k) (hw : kind w = some .dir)
    (hI : I.blocks 0 = (V.inode w).blocks 0) (name : List UInt8) :
    Goes V (Fs.lookup (I.blocks 0) name) fun r V' => V.Peeks V' ∧
      r = ((V.names kind).slotOf w name).map ((V.names kind).dent w) := by
  refine (h.load hw hI).seq (Goes.dentries.bind ?_)
  rintro d V₁ ⟨hd, rfl⟩
  refine Goes.pure ⟨⟨rfl, rfl, rfl, rfl⟩, ?_⟩
  have hslot : (List.range NUM_DENTRIES).find? (fun j => (d j).str = name) = (V.names kind).slotOf w name :=
    find_entries hd fun e => e.str = name
  rw [hslot]
  refine Option.map_congr fun j hj => hd j (Names.slotOf_eq_some.mp hj).1

/-- A step of `find_inode`: a name that stands for an inode is found, and the inode is loaded. -/
theorem Hier.step (h : V.Hier kind k) (hw : kind w = some .dir)
    (hI : I.blocks 0 = (V.inode w).blocks 0) (hn : name ≠ [])
    (hl : (V.names kind).look w name = some c)
    {K : Dentry → Inode → FsM (Option InodePtr)} {Q : Option InodePtr → Whole → Prop}
    (hK : ∀ V' e, V.Peeks V' → e.ino.toNat = c → V'.ibuf (c % 8) = V.inode c → Goes V' (K e (V.inode c)) Q) : Goes V (do
      match ← Fs.lookup (I.blocks 0) name with
      | none => pure none
      | some e => do
        let J ← Fs.loadInode e.ino
        K e J) Q := by
  refine (h.lookup hw hI name).bind ?_
  rintro _ V₁ ⟨hp, rfl⟩
  obtain ⟨j, hj, hc⟩ := Option.map_eq_some_iff.mp hl
  obtain ⟨kd, hkd⟩ := h.grown.kind_of_look hw hn hl
  have hino : ((V.names kind).dent w j).ino.toNat = c := hc
  rw [hj]
  refine (Goes.loadInode (by rw [hino]; exact Nat.lt_of_lt_of_le (h.lt hkd) h.le)).bind ?_
  rintro J V₂ ⟨hJ, hV₂⟩
  obtain rfl : J = V.inode c := by rw [hJ, hino, hp.inode]
  refine hK V₂ _ (hp.trans ?_) hino ?_
  · rw [hV₂]
    exact ⟨rfl, rfl, rfl, rfl⟩
  · rw [hV₂, hino, ← hp.inode]
    exact V₁.loadInodes_mod c

/-- What `find_inode` finds for one component. -/
def Finds (V V' : Whole) (r : Option InodePtr) : Option ℕ → Prop
  | none => r = none
  | some c => r = some (.buf (c % 8)) ∧ V'.ibuf (c % 8) = V.inode c

theorem Hier.find_inode (h : V.Hier kind k) (hw : kind w = some .dir)
    (hI : I.blocks 0 = (V.inode w).blocks 0) (hp : IsComponent path.chars) :
    Goes V (Fs.find_inode path I) fun r V' => V.Peeks V' ∧ V.Finds V' r ((V.names kind).look w path.chars) := by
  have hparse : Fs.parse_path path.chars = some (path.chars, [], []) := by
    have := @parse_path_join [path.chars] (by simpa using hp)
    rwa [List.intercalate_singleton] at this
  rw [Fs.find_inode, if_neg hp.1]
  simp only [hparse]
  cases hl : (V.names kind).look w path.chars with
  | none =>
    refine (h.lookup hw hI _).bind ?_
    rintro _ V₁ ⟨hp₁, rfl⟩
    rw [Option.map_eq_none_iff.mp hl]
    exact Goes.pure ⟨hp₁, rfl⟩
  | some c =>
    refine h.step hw hI hp.1 hl fun V₁ e hp₁ he hbuf => ?_
    rw [if_pos trivial]
    refine Goes.pure ⟨hp₁, ?_, hbuf⟩
    rw [Fs.inodeidx2offset, he]

/-- `find_inode` two directories up. -/
theorem Hier.find_up (h : V.Hier kind k) (hw : kind w = some .dir) (hI : I.blocks 0 = (V.inode w).blocks 0) :
    Goes V (Fs.find_inode (.ofString "../..") I) fun r V' => V.Peeks V' ∧
      ∃ c, kind c = some .dir ∧ r = some (.buf (c % 8)) ∧ V'.ibuf (c % 8) = V.inode c := by
  have hparse : Fs.parse_path (CString.ofString "../..").chars = some ([46, 46], [46, 46], []) := by decide
  have hne : (CString.ofString "../..").chars ≠ [] := by decide
  rw [Fs.find_inode, if_neg hne]
  simp only [hparse]
  obtain ⟨-, hup⟩ := h.grown.dotdot hw
  obtain ⟨-, hupup⟩ := h.grown.dotdot hup
  refine h.step hw hI (by decide) (h.grown.look_dotdot hw) fun V₁ e₁ hp₁ _ _ => ?_
  rw [if_neg (by decide)]
  have hl : (V₁.names kind).look ((V.names kind).child w 1)
      [46, 46] = some ((V.names kind).child ((V.names kind).child w 1) 1) := by
    rw [hp₁.names]
    exact h.grown.look_dotdot hup
  refine (hp₁.hier h).step hup (by rw [hp₁.inode]) (by decide) hl fun V₂ e₂ hp₂ he₂ hbuf => ?_
  rw [if_pos trivial]
  refine Goes.pure ⟨hp₁.trans hp₂, _, hupup, ?_, by rw [hbuf, hp₁.inode]⟩
  rw [Fs.inodeidx2offset, he₂]

/-- `do_cd` with one component. -/
theorem Hier.do_cd (h : V.Hier kind k) (hw : kind w = some .dir)
    (hp : 47 ∉ path.chars) (hlen : path.chars.length < MAX_PATHNAME_LEN) :
    Takes ⟨V, V.inode w, fd⟩ (Fs.do_cd path) fun _ S' => V.Peeks S'.view ∧ S'.fdesc = fd ∧ ∃ w', kind w' = some .dir ∧
      S'.wd = V.inode w' ∧
      (path.chars ≠ [] → ∀ c, (V.names kind).look w path.chars = some c → kind c = some .dir → w' = c) := by
  have htype : (V.inode w).type = IT_DIR := (h.inode hw).2
  refine Shows.bind (q := fun r S' => V.Peeks S'.view ∧ S'.wd = V.inode w ∧ S'.fdesc = fd ∧
    ((path.chars = [] ∧ r = some .wd) ∨ path.chars ≠ [] ∧ V.Finds S'.view r ((V.names kind).look w path.chars))) ?_ ?_
  · refine Takes.wdInode.seq ?_
    by_cases hnil : path.chars = []
    · rw [Fs.find_inode, if_pos hnil]
      exact Shows.pure ⟨Peeks.refl V, rfl, rfl, Or.inl ⟨hnil, rfl⟩⟩
    · refine ((h.find_inode hw rfl ⟨hnil, path.nonzero, hp, hlen⟩).takes (still_find_inode _ _)).mono ?_
      rintro r S' ⟨⟨hpk, hf⟩, hwd, hfd⟩
      exact ⟨hpk, hwd, hfd, Or.inr ⟨hnil, hf⟩⟩
  rintro r ⟨V₁, wd₁, fd₁⟩ ⟨hpk, rfl, rfl, ⟨hnil, rfl⟩ | ⟨hnil, hf⟩⟩
  · refine Takes.wdInode.seq ?_
    rw [if_neg (by simpa using htype)]
    refine (Takes.setWd _).seq (Shows.pure ⟨hpk, rfl, w, hw, rfl, fun hne => absurd hnil hne⟩)
  · cases hl : (V.names kind).look w path.chars with
    | none =>
      rw [hl] at hf
      obtain rfl : r = none := hf
      exact Shows.pure ⟨hpk, rfl, w, hw, rfl, fun _ c hc => by cases hc⟩
    | some c =>
      rw [hl] at hf
      obtain ⟨rfl, hbuf⟩ := hf
      obtain ⟨kd, hkd⟩ := h.grown.kind_of_look hw hnil hl
      refine ((Goes.inodeBuf (Nat.mod_lt _ (by decide))).takes_eq (still_inodeBuf _)).seq ?_
      dsimp only
      rw [hbuf]
      by_cases hd : (V.inode c).type = IT_DIR
      · rw [if_neg (by simpa using hd)]
        have hdir : kd = .dir := code_eq_dir.mp ((h.inode hkd).2.symm.trans hd)
        refine (Takes.setWd _).seq (Shows.pure ⟨hpk, rfl, c, hdir ▸ hkd, rfl, fun _ c' hc' _ => Option.some.inj hc'⟩)
      · rw [if_pos hd]
        refine Shows.pure ⟨hpk, rfl, w, hw, rfl, fun _ c' hc' hk' => ?_⟩
        obtain rfl := Option.some.inj hc'
        exact absurd (h.inode hk').2 hd

/-- `do_cd` two directories up. -/
theorem Hier.do_cd_up (h : V.Hier kind k) (hw : kind w = some .dir) :
    Takes ⟨V, V.inode w, fd⟩ (Fs.do_cd (.ofString "../..")) fun _ S' => V.Peeks S'.view ∧ S'.fdesc = fd ∧
      ∃ w', kind w' = some .dir ∧ S'.wd = V.inode w' := by
  refine Shows.bind (Takes.wdInode.seq ((h.find_up hw rfl).takes (still_find_inode _ _))) ?_
  rintro _ ⟨V₁, wd₁, fd₁⟩ ⟨⟨hpk, c, hc, rfl, hbuf⟩, rfl, rfl⟩
  have htype : (V.inode c).type = IT_DIR := (h.inode hc).2
  refine ((Goes.inodeBuf (Nat.mod_lt _ (by decide))).takes_eq (still_inodeBuf _)).seq ?_
  dsimp only
  rw [hbuf, if_neg (not_not.mpr htype)]
  exact (Takes.setWd _).seq (Shows.pure ⟨hpk, rfl, c, hc, rfl⟩)

/-! ### Making entries -/

/-- There is room for a new inode under a name. -/
structure Room (V : Whole) (kind : ℕ → Option Kind) (w : ℕ) (name : List UInt8) (kd : Kind) : Prop where
  short : name.length < MAX_PATHNAME_LEN
  fresh : (V.names kind).look w name = none
  inode : V.freeInode ≠ none
  block : kd = .dir → V.freeBlock ≠ none
  slot : ∃ y < NUM_DENTRIES, ((V.names kind).dent w y).used = false

/-- What a call leaves that enters one inode into the working directory `w`, or gives up. -/
structure Enlarges (V : Whole) (kind : ℕ → Option Kind) (k w : ℕ)
    (name : List UInt8) (kd : Kind) (S' : Place) : Prop where
  wd : S'.wd = S'.view.inode w
  cases : S'.view.Entered kind k w name kd ∧ (∀ b, S'.view.bmap b = true → V.bmap b = true ∨ V.freeBlock = some b) ∨
    ¬ V.Room kind w name kd ∧ ∃ k', S'.view.Hier kind k'

/-- The first free inode is the next one. -/
theorem Hier.freeInode (h : V.Hier kind k) (hf : V.freeInode = some i) : i = k ∧ k < NUM_INODES := by
  obtain ⟨hlt, hi, hbelow⟩ := firstClear_eq_some.mp hf
  have hik : ¬ i < k := fun hlt => by
    rw [(h.imap i).mpr hlt] at hi
    cases hi
  have : ¬ k < i := fun hlt => absurd ((h.imap k).mp (hbelow k hlt)) (Nat.lt_irrefl k)
  omega

/-- The names of loaded entries. -/
theorem Hier.any_iff (V : Whole) (kind : ℕ → Option Kind) (w : ℕ) {d : ℕ → Dentry}
    (hd : ∀ j < NUM_DENTRIES, d j = (V.names kind).dent w j) (name : List UInt8) :
    ((List.range NUM_DENTRIES).any fun j => (d j).str = name) = true ↔ (V.names kind).look w name ≠ none := by
  rw [List.any_eq_true, Ne, Names.look_eq_none, not_forall]
  refine exists_congr fun j => ?_
  rw [List.mem_range, not_forall, not_not, decide_eq_true_iff]
  constructor
  · rintro ⟨hj, hs⟩
    exact ⟨hj, by rwa [← hd j hj]⟩
  · rintro ⟨hj, hs⟩
    exact ⟨hj, by rwa [hd j hj]⟩

/-- A name that no entry has, where an entry is free. -/
theorem Hier.component (hp : 47 ∉ path.chars) (hlen : path.chars.length < MAX_PATHNAME_LEN)
    (hfresh : (V.names kind).look w path.chars = none)
    (hj : j < NUM_DENTRIES) (hfree : ((V.names kind).dent w j).used = false) :
    IsComponent path.chars := by
  refine ⟨fun hnil => ?_, path.nonzero, hp, hlen⟩
  refine Names.look_eq_none.mp hfresh j hj ?_
  rw [hnil]
  exact (Dentry.used_eq_false_iff _).mp hfree

/-- The inode of a directory with one entry more. -/
def enlarged (I : Inode) (now : UInt32) : Inode := { I with size := I.size + 32, mtime := now, nlink := I.nlink + 1 }

/-- `V'` is `V` with one of the loaded entries assigned and written to block `b`, and inode `w` stored. -/
structure Puts (V V' : Whole) (b j : ℕ) (e : Dentry) (w : ℕ) (I : Inode) : Prop where
  imap : V'.imap = V.imap
  bmap : V'.bmap = V.bmap
  inode : V'.inode = Function.update V.inode w I
  data : V'.data = Function.update V.data b (putDentry V.dbuf (32 * j) e)

/-- How `do_mkdir` and `do_touch` begin: the name is new, and there is an inode. -/
theorem Hier.newName {K : Inode → ℕ → FsM ℤ} (h : V.Hier kind k) (hw : kind w = some .dir) {name : List UInt8}
    (hK : (V.names kind).look w name = none → V.freeInode = some k → k < NUM_INODES →
      Takes ⟨{ V with dbuf := V.data (V.dirBlock w), imap := Function.update V.imap k true }, V.inode w, fd⟩
      (K (V.inode w) k)
        fun _ S' => S'.fdesc = fd ∧ V.Enlarges kind k w name kd S') :
    Takes ⟨V, V.inode w, fd⟩ (do
      let wd ← Fs.wdInode
      Fs.bread .dentry_buffer BLOCK_SECTORS (wd.blocks 0).toNat
      let d ← Fs.dentries
      if (List.range NUM_DENTRIES).any fun j => (d j).str = name then pure (-1)
      else do
        let inode_idx ← Fs.find_free_inode
        if inode_idx = FAIL then pure (-1)
        else K wd inode_idx) fun _ S' => S'.fdesc = fd ∧ V.Enlarges kind k w name kd S' := by
  refine Takes.wdInode.seq
    (((h.load hw rfl).takes_eq (still_bread _ _ _)).seq ((Goes.dentries.takes still_dentries).bind ?_))
  rintro d ⟨V₁, wd₁, fd₁⟩ ⟨⟨hd, hV₁⟩, hwd₁, hfd₁⟩
  dsimp only at hV₁ hwd₁ hfd₁
  subst hV₁ hwd₁ hfd₁
  have hsame : Hier { V with dbuf := V.data (V.dirBlock w) } kind k := Peeks.hier (V := V) ⟨rfl, rfl, rfl, rfl⟩ h
  have hany := Hier.any_iff V kind w hd name
  split
  · next hyes => exact Shows.pure ⟨rfl, rfl, Or.inr ⟨fun hr => hany.mp hyes hr.fresh, k, hsame⟩⟩
  next hno =>
  have hfresh : (V.names kind).look w name = none := by
    by_contra hl
    exact hno (hany.mpr hl)
  cases hfi : V.freeInode with
  | none =>
    refine ((Goes.find_free_inode_none (V := { V with dbuf := V.data (V.dirBlock w) }) hfi).takes_eq
      still_find_free_inode).seq ?_
    rw [if_pos rfl]
    exact Shows.pure ⟨rfl, rfl, Or.inr ⟨fun hr => hr.inode hfi, k, hsame⟩⟩
  | some i =>
    obtain ⟨rfl, hk⟩ := h.freeInode hfi
    refine ((Goes.find_free_inode (V := { V with dbuf := V.data (V.dirBlock w) }) hfi).takes_eq
      still_find_free_inode).seq ?_
    rw [if_neg (ino_ne_fail hk)]
    exact hK hfresh hfi hk

/-- How they go on when there is a slot. -/
theorem putName {α : Type} {x : FsM α} {Q : α → Place → Prop} {b : ℕ} (hb : b < NUM_BLOCKS) (hj : j < NUM_DENTRIES)
    (hI : I.ino.toNat = w) (hw : w < NUM_INODES)
    (hx : ∀ now V', V.Puts V' b j e w (enlarged I now) → Takes ⟨V', enlarged I now, fd⟩ x Q) : Takes ⟨V, I, fd⟩ (do
      Fs.setDentryBuf j e
      Fs.bwrite .dentry_buffer BLOCK_SECTORS (blockSector b)
      Fs.updateWd fun I now => { I with size := I.size + 32, mtime := now, nlink := I.nlink + 1 }
      x) Q := by
  refine ((Goes.setDentryBuf hj _).takes_eq (still_setDentryBuf _ _)).seq
    (((Goes.bwriteDentry hb).takes_eq (still_bwrite _ _ _)).seq ?_)
  refine (Takes.updateWd (fun _ => rfl) (by rwa [hI])).bind ?_
  rintro _ _ ⟨now, rfl⟩
  rw [hI]
  exact hx now _ ⟨rfl, rfl, rfl, rfl⟩

/-- `do_mkdir` with one component. -/
theorem Hier.do_mkdir (h : V.Hier kind k) (hw : kind w = some .dir) (hp : 47 ∉ path.chars) :
    Takes ⟨V, V.inode w, fd⟩ (Fs.do_mkdir path) fun _ S' => S'.fdesc = fd ∧ V.Enlarges kind k w path.chars .dir S' := by
  rw [Fs.do_mkdir]
  split
  · next hlen => exact Shows.pure ⟨rfl, rfl, Or.inr ⟨fun hr => absurd hr.short (by omega), k, h⟩⟩
  next hlen =>
  have hlen : path.chars.length < MAX_PATHNAME_LEN := by omega
  obtain ⟨hb, hsec, hbm⟩ := h.block hw
  have hwk : w < k := h.lt hw
  refine h.newName hw fun hfresh _ hk => ?_
  cases hfb : V.freeBlock with
  | none =>
    refine ((Goes.find_free_block_none
      (V := { V with dbuf := V.data (V.dirBlock w), imap := Function.update V.imap k true }) hfb).takes_eq
      still_find_free_block).seq ?_
    rw [if_pos rfl]
    refine Shows.pure ⟨rfl, rfl, Or.inr ⟨fun hr => hr.block rfl hfb, k + 1, ?_⟩⟩
    exact h.grow hk rfl (fun _ _ => rfl) (fun _ hc => hc) fun _ _ => rfl
  | some b =>
  obtain ⟨hblt, hbfree, -⟩ := firstClear_eq_some.mp hfb
  have hne : ∀ {c}, V.bmap c = true → c ≠ b := by
    rintro c hc rfl
    rw [hbfree] at hc
    cases hc
  have hfb₂ :
    Whole.freeBlock { V with dbuf := V.data (V.dirBlock w), imap := Function.update V.imap k true } = some b :=
    hfb
  refine ((Goes.find_free_block hfb₂).takes_eq still_find_free_block).seq ?_
  rw [if_neg (blockSector_ne_fail hblt)]
  refine ((Goes.createInode hk _ _ _).takes (still_createInode _ _ _ _)).bind ?_
  rintro _ ⟨V₄, wd₄, fd₄⟩ ⟨⟨now, hV₄⟩, hwd₄, hfd₄⟩
  dsimp only at hV₄ hwd₄ hfd₄
  subst wd₄ fd₄
  -- What was in use is as before.
  have himap₄ : V₄.imap = Function.update V.imap k true := by rw [hV₄]; rfl
  have hinode₄ : V₄.inode = Function.update V.inode k (newInode k IT_DIR 64 (sec b) now) := by rw [hV₄]; rfl
  have hbmap₄ : V₄.bmap = Function.update V.bmap b true := by rw [hV₄]; rfl
  have hdata₄ : ∀ c, V.bmap c = true → V₄.data c = V.data c := by
    intro c hc
    rw [hV₄]
    exact Function.update_of_ne (hne hc) _ _
  clear hV₄
  have hkeep : ∀ c, V.bmap c = true → V₄.bmap c = true := by
    intro c hc
    rw [hbmap₄, Function.update_of_ne (hne hc), hc]
  have hgrow : V₄.Hier kind (k + 1) :=
    h.grow hk himap₄ (fun x hx => by rw [hinode₄, Function.update_of_ne hx.ne]) hkeep hdata₄
  have hw₄ : V₄.inode w = V.inode w := by rw [hinode₄, Function.update_of_ne hwk.ne]
  have hblk₄ : V₄.dirBlock w = V.dirBlock w := by rw [dirBlock, hw₄, dirBlock]
  have hload := hgrow.load hw (I := V.inode w) (by rw [hw₄])
  rw [hblk₄, hdata₄ _ hbm] at hload
  refine (hload.takes_eq (still_bread _ _ _)).seq ((Goes.dentries.takes still_dentries).bind ?_)
  rintro d ⟨V₅, wd₅, fd₅⟩ ⟨⟨hd, hV₅⟩, hwd₅, hfd₅⟩
  dsimp only at hV₅ hwd₅ hfd₅
  subst hV₅ hwd₅ hfd₅
  have hslot : (List.range NUM_DENTRIES).find? (fun j => !(d j).used) =
      (List.range NUM_DENTRIES).find? fun j => !((V.names kind).dent w j).used := find_entries hd fun e => !e.used
  rw [hslot]
  cases hj : (List.range NUM_DENTRIES).find? fun j => !((V.names kind).dent w j).used with
  | none =>
    refine Shows.pure ⟨rfl, hw₄.symm, Or.inr ⟨fun hr => ?_, k + 1, Peeks.hier (V := V₄) ⟨rfl, rfl, rfl, rfl⟩ hgrow⟩⟩
    obtain ⟨y, hy, hu⟩ := hr.slot
    have := List.find?_eq_none.mp hj y (List.mem_range.mpr hy)
    rw [hu] at this
    exact this rfl
  | some j =>
  obtain ⟨hfree, hjlt, -⟩ := List.find?_range_eq_some.mp hj
  have hjlt : j < NUM_DENTRIES := List.mem_range.mp hjlt
  have hcomp := Hier.component hp hlen hfresh hjlt (by simpa using hfree)
  have hdj : d j = (V.names kind).dent w j := hd j hjlt
  dsimp only
  rw [hdj, hsec, toNat_sec hb]
  refine putName hb hjlt (h.inode hw).1 (Nat.lt_trans hwk hk) fun now' V₇ h₇ => ?_
  refine Takes.wdInode.seq (((Goes.writeDots hblt _ _).takes_eq (still_writeDots _ _ _)).seq ?_)
  have hinode₇ : V₇.inode = Function.update
      (Function.update V.inode k (newInode k IT_DIR 64 (sec b) now)) w (enlarged (V.inode w) now') := by
    rw [h₇.inode, ← hinode₄]
  have hbmap₇ : V₇.bmap = Function.update V.bmap b true := by rw [h₇.bmap, ← hbmap₄]
  refine Shows.pure ⟨rfl, ?_, Or.inl ⟨?_, fun c hc => ?_⟩⟩
  · exact (congrFun hinode₇ w).trans (Function.update_self ..) |>.symm
  · refine h.entered (N := newInode k IT_DIR 64 (sec b) now)
      (I := enlarged (V.inode w) now') hw hk ⟨?_, hinode₇, fun c hc => ?_,
      fun c hc => ?_, ⟨rfl, rfl⟩, ⟨rfl, rfl, rfl⟩, rfl, hj,
      str_strcpy_name ((V.names kind).dent w j) hlen IT_DIR _, hfresh,
      hcomp, by simp, fun _ => ⟨b, hblt, rfl, hbfree, ?_, Function.update_self ..⟩⟩
    · exact h₇.imap.trans himap₄
    · exact (congrFun hbmap₇ c).trans ((Function.update_of_ne (hne hc) _ _).trans hc)
    · refine (Function.update_of_ne (hne hc) _ _).trans
        ((congrFun h₇.data c).trans ((Function.update_apply ..).trans ?_))
      split
      · next hcb => rw [hcb]; rfl
      · exact hdata₄ c hc
    · exact (congrFun hbmap₇ b).trans (Function.update_self ..)
  · have hc : V₇.bmap c = true := hc
    rw [hbmap₇, Function.update_apply] at hc
    split at hc
    · next hcb => exact Or.inr (hcb ▸ hfb)
    · exact Or.inl hc

/-- `do_touch` with one component. -/
theorem Hier.do_touch (h : V.Hier kind k) (hw : kind w = some .dir) (hp : 47 ∉ path.chars) :
    Takes ⟨V, V.inode w, fd⟩ (Fs.do_touch path) fun _ S' =>
    S'.fdesc = fd ∧ V.Enlarges kind k w path.chars .file S' := by
  rw [Fs.do_touch]
  split
  · next hlen => exact Shows.pure ⟨rfl, rfl, Or.inr ⟨fun hr => absurd hr.short (by omega), k, h⟩⟩
  next hlen =>
  have hlen : path.chars.length < MAX_PATHNAME_LEN := by omega
  obtain ⟨hb, hsec, hbm⟩ := h.block hw
  have hwk : w < k := h.lt hw
  refine h.newName hw fun hfresh _ hk => ?_
  refine ((Goes.createInode hk _ _ _).takes (still_createInode _ _ _ _)).bind ?_
  rintro _ ⟨V₄, wd₄, fd₄⟩ ⟨⟨now, hV₄⟩, hwd₄, hfd₄⟩
  dsimp only at hV₄ hwd₄ hfd₄
  subst wd₄ fd₄ hV₄
  refine (Goes.dentries.takes still_dentries).bind ?_
  rintro d ⟨V₅, wd₅, fd₅⟩ ⟨⟨hd, hV₅⟩, hwd₅, hfd₅⟩
  dsimp only at hV₅ hwd₅ hfd₅
  subst hV₅ hwd₅ hfd₅
  -- An unused entry names no inode, so the code looks for an unused one.
  have hslot : (List.range NUM_DENTRIES).find? (fun j => (d j).ino = 0 ∧ !(d j).used) =
      (List.range NUM_DENTRIES).find? fun j => !((V.names kind).dent w j).used := by
    refine List.find?_congr fun j hj => ?_
    rw [hd j (List.mem_range.mp hj), Bool.eq_iff_iff, decide_eq_true_iff]
    refine ⟨And.right, fun hu => ⟨h.grown.vacant hw (List.mem_range.mp hj) ?_, hu⟩⟩
    exact (Bool.not_eq_true' _).mp hu
  rw [hslot]
  cases hj : (List.range NUM_DENTRIES).find? fun j => !((V.names kind).dent w j).used with
  | none =>
    refine Shows.pure ⟨rfl, (Function.update_of_ne hwk.ne _ _).symm, Or.inr ⟨fun hr => ?_, k + 1, ?_⟩⟩
    · obtain ⟨y, hy, hu⟩ := hr.slot
      have := List.find?_eq_none.mp hj y (List.mem_range.mpr hy)
      rw [hu] at this
      exact this rfl
    · exact h.grow hk rfl (fun x hx => Function.update_of_ne hx.ne _ _) (fun _ hc => hc) fun _ _ => rfl
  | some j =>
  obtain ⟨hfree, hjlt, -⟩ := List.find?_range_eq_some.mp hj
  have hjlt : j < NUM_DENTRIES := List.mem_range.mp hjlt
  have hcomp := Hier.component hp hlen hfresh hjlt (by simpa using hfree)
  have hdj : d j = (V.names kind).dent w j := hd j hjlt
  dsimp only
  rw [hdj, hsec, toNat_sec hb]
  refine putName hb hjlt (h.inode hw).1 (Nat.lt_trans hwk hk) fun now' V₆ h₆ =>
    Shows.pure ⟨rfl, ?_, Or.inl ⟨?_, fun c hc => ?_⟩⟩
  · exact (congrFun h₆.inode w).trans (Function.update_self ..) |>.symm
  · refine h.entered (N := newInode k IT_FILE 0 0 now)
      (I := enlarged (V.inode w) now') hw hk ⟨h₆.imap, h₆.inode, fun c hc => ?_,
      fun c _ => ?_, ⟨rfl, rfl⟩, ⟨rfl, rfl, rfl⟩, rfl, hj,
      str_strcpy_name ((V.names kind).dent w j) hlen IT_FILE _, hfresh,
      hcomp, fun _ => rfl, by simp⟩
    · exact (congrFun h₆.bmap c).trans hc
    · refine (congrFun h₆.data c).trans ((Function.update_apply ..).trans ?_)
      split
      · next hcb => rw [hcb]; rfl
      · rfl
  · exact Or.inl ((congrFun h₆.bmap c).symm.trans hc)

end Whole

end OsLab
