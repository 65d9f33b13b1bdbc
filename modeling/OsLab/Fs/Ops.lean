import OsLab.Fs.Changes
import OsLab.Fs.Paths

/-!
# What the system calls do to the names

For each call that adds to directories: when its arguments and the volume allow the code to
keep the volume in order (`TouchOk`, `MkdirOk`, `LnOk`), and what it then does.
A call that returns `-1` leaves the volume alone; one that succeeds is one of the steps of
`Names`.
-/

namespace OsLab

open Lib ProgM Bytes

namespace Vol

variable {V V' : Vol} {i : ℕ}

/-- The slots of a directory that fit into a sector are used. -/
def Full (V : Vol) (i : ℕ) : Prop := ∀ j < 16, (V.entry (V.dirBlock i) j).used = true

instance (V : Vol) (i : ℕ) : Decidable (V.Full i) := inferInstanceAs (Decidable (∀ j < 16, _))

/-- The slot the code takes in a directory that is not full. -/
theorem Inv.slot (h : V.Inv) (hi : V.IsDir i) (hfull : ¬ V.Full i) :
    ∃ j, ((List.range NUM_DENTRIES).find? fun j => !(V.entry (V.dirBlock i) j).used) = some j ∧
      2 ≤ j ∧ j < 16 ∧ (V.entry (V.dirBlock i) j).used = false := by
  simp only [Full, not_forall] at hfull
  obtain ⟨j₀, hj₀, hu₀⟩ := hfull
  have hsome : ((List.range NUM_DENTRIES).find? fun j => !(V.entry (V.dirBlock i) j).used).isSome := by
    rw [List.find?_isSome]
    exact ⟨j₀, List.mem_range.mpr (Nat.lt_trans hj₀ (by decide)), by simpa using hu₀⟩
  obtain ⟨j, hj⟩ := Option.isSome_iff_exists.mp hsome
  have hu : (V.entry (V.dirBlock i) j).used = false := by simpa using List.find?_some hj
  refine ⟨j, hj, ?_, ?_, hu⟩
  · -- The first two entries are `.` and `..`.
    by_contra hlt
    obtain rfl | rfl : j = 0 ∨ j = 1 := by omega
    · have := (h.names.link_dot hi).2.1
      simp only [Vol.names, hu] at this
      cases this
    · have := (h.names.link_dotdot hi).2.1
      simp only [Vol.names, hu] at this
      cases this
  · obtain ⟨-, as, bs, hab, hbefore⟩ := List.find?_eq_some_iff_append.mp hj
    by_contra hge
    -- The free slot below 16 would come first.
    have hmem : j₀ ∈ as := by
      have hlen : as.length = j := by
        have h1 := congrArg (fun l => l[as.length]?) hab
        simp only [List.getElem?_append_right (le_refl _), Nat.sub_self, List.getElem?_cons_zero] at h1
        rw [List.getElem?_eq_some_iff] at h1
        obtain ⟨_, h1⟩ := h1
        rwa [List.getElem_range] at h1
      have h2 : (List.range NUM_DENTRIES)[j₀]? = some j₀ :=
        List.getElem?_range (Nat.lt_trans hj₀ (by decide))
      rw [hab, List.getElem?_append_left (by omega)] at h2
      exact List.mem_of_getElem? h2
    have := hbefore j₀ hmem
    simp only [Bool.not_not] at this
    exact hu₀ this

/-- Unused entries name no inode, so the two tests for a free slot agree. -/
theorem Inv.slot' (h : V.Inv) (hi : V.IsDir i) :
    ((List.range NUM_DENTRIES).find? fun j => (V.entry (V.dirBlock i) j).ino = 0 ∧ !(V.entry (V.dirBlock i) j).used) =
      (List.range NUM_DENTRIES).find? fun j => !(V.entry (V.dirBlock i) j).used := by
  congr 1
  funext j
  cases hu : (V.entry (V.dirBlock i) j).used with
  | true => simp
  | false =>
    have h0 : (V.entry (V.dirBlock i) j).ino = 0 := h.names.vacant hi hu
    simp [h0]

/-- The name check of `do_mkdir` and `do_touch`. -/
theorem any_iff_look (V : Vol) (b : ℕ) (name : List UInt8) :
    ((List.range NUM_DENTRIES).any fun j => (V.entry b j).str = name) = true ↔ V.look b name ≠ none := by
  rw [look, Ne, Option.map_eq_none_iff, List.find?_eq_none, List.any_eq_true]
  simp

/-- `do_touch` with this path returns `-1` at once, or finds room for the entry. -/
def TouchOk (V : Vol) (path : CString) : Prop :=
  path.chars.length < MAX_PATHNAME_LEN → V.look (V.dirBlock V.cwd) path.chars = none → V.freeInode ≠ none →
    ¬ V.Full V.cwd

/-- `do_mkdir` with this path returns `-1` at once, or finds a block and room for the entry. -/
def MkdirOk (V : Vol) (path : CString) : Prop :=
  path.chars.length < MAX_PATHNAME_LEN → V.look (V.dirBlock V.cwd) path.chars = none → V.freeInode ≠ none →
    V.freeBlock ≠ none ∧ ¬ V.Full V.cwd

end Vol

/-- The inodes of the directories keep their counters, but for the working directory. -/
structure DirsKept (V V' : Vol) (n : UInt16) (s : UInt32) : Prop where
  wd : (V'.inode V.cwd).nlink = n ∧ (V'.inode V.cwd).size = s
  dir : ∀ x, V.IsDir x → V'.IsDir x → x ≠ V.cwd →
    (V'.inode x).nlink = (V.inode x).nlink ∧ (V'.inode x).size = (V.inode x).size

/-- What `do_touch` does when it succeeds. -/
structure Touched (V V' : Vol) (name : List UInt8) : Prop where
  base : V'.Base
  names : ∃ i j e, V.freeInode = some i ∧ V'.imap = Function.update V.imap i true ∧
    V.names.Enter V'.names V.cwd j e i ∧ e.str = name
  bmap : V'.bmap = V.bmap
  fresh : V.look (V.dirBlock V.cwd) name = none
  dirs : DirsKept V V' (V.wd.nlink + 1) (V.wd.size + 32)
  fdesc : V'.fdesc = V.fdesc
  cwd : V'.cwd = V.cwd

/-- What `do_mkdir` does when it succeeds. -/
structure MadeDir (V V' : Vol) (name : List UInt8) : Prop where
  base : V'.Base
  names : ∃ i j e, V.freeInode = some i ∧ V'.imap = Function.update V.imap i true ∧
    V.names.MakeDir V'.names V.cwd j e i ∧ e.str = name ∧ (V'.inode i).nlink = 1 ∧ (V'.inode i).size = 64
  bmap : ∃ b, V.freeBlock = some b ∧ V'.bmap = Function.update V.bmap b true
  fresh : V.look (V.dirBlock V.cwd) name = none
  dirs : DirsKept V V' (V.wd.nlink + 1) (V.wd.size + 32)
  fdesc : V'.fdesc = V.fdesc
  cwd : V'.cwd = V.cwd

variable {V : View}

/-- A step that leaves the block buffers alone and the volume as `U`. -/
structure Alters (V V' : View) (U : Vol) : Prop where
  vol : V'.toVol = U
  dbuf : V'.dbuf = V.dbuf
  rbuf : V'.rbuf = V.rbuf

theorem Alters.tidy {V' : View} {U : Vol} (h : Alters V V' U) (ht : V.Tidy) : V'.Tidy :=
  ⟨by rw [h.dbuf]; exact ht.dbuf, by rw [h.rbuf]; exact ht.rbuf⟩

theorem find_free_inode_spec {i : ℕ} (h : V.freeInode = some i) :
    Spec V Fs.find_free_inode fun r V' => r = i ∧ Alters V V' (V.takeInode i) :=
  (Does.find_free_inode h).spec ⟨rfl, rfl, rfl, rfl⟩

theorem createInode_spec {i : ℕ} (hi : i < NUM_INODES) (type : UInt8) (size block : UInt32) :
    Spec V (Fs.createInode i type size block) fun _ V' =>
      ∃ now, Alters V V' (V.setInode i (newInode i type size block now)) :=
  (Does.createInode hi type size block).spec ⟨_, rfl, rfl, rfl⟩

theorem updateWd_spec {f : Inode → UInt32 → Inode} (hf : ∀ I now, (f I now).ino = I.ino) (h : V.cwd < NUM_INODES) :
    Spec V (Fs.updateWd f) fun _ V' => ∃ now, Alters V V' (V.updWd (f V.wd now)) :=
  (Does.updateWd (hf _ _) h).spec ⟨_, rfl, rfl, rfl⟩

theorem storeInode_spec {I : Inode} (h : I.ino.toNat < NUM_INODES) :
    Spec V (Fs.storeInode I) fun _ V' => Alters V V' (V.setInode I.ino.toNat I) :=
  (Does.storeInode h).spec ⟨rfl, rfl, rfl⟩

/-- The entries of a loaded block. -/
theorem Does.entries {U : Vol} {b : ℕ} (hd : V.dbuf = ofSector (U.data b)) : Does V Fs.dentries (U.entry b) V := by
  have := Does.dentries (V := V)
  rw [hd] at this
  exact this

/-- Assign an entry of a loaded block and write the block. -/
theorem putEntry_spec (ht : V.Tidy) {b j : ℕ} (hb : b < NUM_BLOCKS) (hj : j < 16) (e : Dentry)
    (hd : V.dbuf = ofSector (V.data b)) :
    ∃ V₁ V₂ : View, Does V (Fs.setDentryBuf j e) () V₁ ∧
      Does V₁ (Fs.bwrite .dentry_buffer BLOCK_SECTORS (blockSector b)) () V₂ ∧
      V₂.toVol = V.setEntry b j e ∧ V₂.Tidy := by
  refine ⟨_, _, Does.setDentryBuf j e, Does.bwriteDentry hb, ?_, fun i hi => ?_, ht.rbuf⟩
  · show V.toVol.setBlock b ((putDentry V.dbuf (32 * j) e).sector 0) = V.setEntry b j e
    rw [Vol.setEntry, hd]
  · have : ¬ (32 * j ≤ i ∧ i < 32 * j + 32) := by
      unfold SECTOR_SIZE at hi
      omega
    show putDentry V.dbuf (32 * j) e i = 0
    rw [putDentry, if_neg this, ht.dbuf i hi]

/-- An entry with a name of legal length. -/
theorem str_strcpy_name (e : Dentry) {path : CString} (hlen : path.chars.length < MAX_PATHNAME_LEN) (type : UInt8)
    (ino : UInt32) : (⟨(e.strcpy path.chars).name, type, ino⟩ : Dentry).str = path.chars :=
  Dentry.str_strcpy e hlen path.nonzero

/-- The block of the working directory, as the code addresses it. -/
theorem Vol.Base.wdBlock {V : Vol} (h : V.Base) :
    V.dirBlock V.cwd < NUM_BLOCKS ∧ (V.wd.blocks 0).toNat = blockSector (V.dirBlock V.cwd) := by
  obtain ⟨hb, he, -⟩ := h.dirBlock h.cwd
  rw [h.wd, he]
  exact ⟨hb, toNat_sec hb⟩

/-- Loading the block of the working directory. -/
theorem Vol.Base.readWd (h : V.Base) (ht : V.Tidy) :
    Does V (Fs.bread .dentry_buffer BLOCK_SECTORS (V.wd.blocks 0).toNat) ()
      { V with dbuf := ofSector (V.data (V.dirBlock V.cwd)) } := by
  obtain ⟨hb, he⟩ := h.wdBlock
  have hread := Does.breadDentry (V := V) hb
  rwa [put_eq_ofSector ht.dbuf, ← he] at hread

theorem Vol.Base.loadWd (h : V.Base) (ht : V.Tidy) :
    Spec V (Fs.bread .dentry_buffer BLOCK_SECTORS (V.wd.blocks 0).toNat) fun _ V' =>
      V'.toVol = V.toVol ∧ V'.Tidy ∧ V'.dbuf = ofSector (V.data (V.dirBlock V.cwd)) :=
  (h.readWd ht).spec ⟨rfl, ht.setDbuf _, rfl⟩

theorem ino_ne_fail {i : ℕ} (h : i < NUM_INODES) : i ≠ FAIL := by
  unfold NUM_INODES at h
  unfold FAIL
  omega

/-- A name that no entry of a directory has is not empty: a directory has unused entries. -/
theorem Vol.look_nil_ne (V : Vol) (b : ℕ) : V.look b [] ≠ none := by
  rw [Vol.look, Ne, Option.map_eq_none_iff, List.find?_eq_none]
  intro hall
  have h16 := hall 16 (List.mem_range.mpr (by decide))
  rw [V.entry_of_le b (le_refl 16)] at h16
  exact h16 (by decide)

/-- What changing an entry of the working directory together with its inode does. -/
structure WdEntry (V V' : Vol) (j : ℕ) (e : Dentry) (I : Inode) : Prop where
  base : V'.Base
  kind : ∀ x, V'.names.kind x = V.names.kind x
  dent : ∀ x y, V.IsDir x → V'.names.dent x y = if x = V.cwd ∧ y = j then e else V.names.dent x y
  nlink : ∀ x, V.IsFile x → V'.names.nlink x = V.names.nlink x
  self : V'.inode V.cwd = I
  inode : ∀ x, x ≠ V.cwd → V'.inode x = V.inode x
  fdesc : V'.fdesc = V.fdesc
  cwd : V'.cwd = V.cwd

theorem Vol.Base.wdEntry {V : Vol} (h : V.Base) {j : ℕ} (hj : j < 16) (e : Dentry) {I : Inode}
    (hb : I.blocks = V.wd.blocks) (ht : I.type = V.wd.type) (hn : I.ino = V.wd.ino) :
    WdEntry V ((V.setEntry (V.dirBlock V.cwd) j e).updWd I) j e I := by
  obtain ⟨hbE, hE⟩ := h.setEntry h.cwd hj e
  obtain ⟨hb', hS⟩ := hbE.updWd (I := I) hb ht hn
  refine ⟨hb', fun x => (hS.kind x).trans (hE.kind x), fun x y hx => ?_, fun x hx => ?_, Function.update_self ..,
    fun x hx => Function.update_of_ne hx _ _, rfl, ?_⟩
  · rw [hS.dent x y (by rw [hE.kind]; exact hx), hE.dent x y hx]
  · rw [hS.nlink x (by rw [hE.kind]; exact hx), hE.nlink]
  · show I.ino.toNat = _
    rw [hn]
    rfl

/-- What creating a file and entering it into the working directory does. -/
theorem Vol.Inv.touched {V : Vol} (h : V.Inv) {i j : ℕ} (hfi : V.freeInode = some i) (hj : 2 ≤ j) (hj' : j < 16)
    (hu : (V.entry (V.dirBlock V.cwd) j).used = false) {e : Dentry} {name : List UInt8} (hstr : e.str = name)
    (htype : e.type = IT_FILE) (hino : e.ino = UInt32.ofNat i) (hfresh : V.look (V.dirBlock V.cwd) name = none)
    (now : UInt32) {I : Inode} (hb : I.blocks = V.wd.blocks) (ht : I.type = V.wd.type) (hn : I.ino = V.wd.ino)
    (hl : I.nlink = V.wd.nlink + 1) (hs : I.size = V.wd.size + 32) :
    Touched V ((((V.takeInode i).setInode i (newInode i IT_FILE 0 0 now)).setEntry (V.dirBlock V.cwd) j e).updWd I)
    name := by
  obtain ⟨hlt, hi, -⟩ := firstClear_eq_some.mp hfi
  have hne : ∀ {x k}, V.names.kind x = some k → x ≠ i := by
    rintro x k hx rfl
    rw [kind_eq_none.mpr hi] at hx
    cases hx
  obtain ⟨hbU, hcU⟩ := h.newFile hi hlt now
  have hblk : ((V.takeInode i).setInode i (newInode i IT_FILE 0 0 now)).dirBlock V.cwd = V.dirBlock V.cwd := by
    rw [Vol.dirBlock, inode_setInode, if_neg (hne h.cwd)]
    rfl
  have hE := hbU.wdEntry hj' e (I := I) hb ht hn
  rw [show ((V.takeInode i).setInode i (newInode i IT_FILE 0 0 now)).cwd = V.cwd from rfl, hblk] at hE
  have hname : name ≠ [] := by
    rintro rfl
    exact V.look_nil_ne _ hfresh
  have hfile : ∀ x, x ≠ i → V.IsFile x → Vol.IsFile ((V.takeInode i).setInode i (newInode i IT_FILE 0 0 now)) x := by
    intro x hx hf
    rw [Vol.IsFile, hcU.kind, if_neg hx]
    exact hf
  have hdir : ∀ x, V.IsDir x → Vol.IsDir ((V.takeInode i).setInode i (newInode i IT_FILE 0 0 now)) x := by
    intro x hx
    rw [Vol.IsDir, hcU.kind, if_neg (hne hx)]
    exact hx
  refine ⟨hE.base, ⟨i, j, e, hfi, rfl, ⟨h.cwd, hj, hj', hu, Names.used_of_str (by rw [hstr]; exact hname),
    by rw [hino]; exact toNat_ino hlt, htype, Or.inl (kind_eq_none.mpr hi), hlt,
    fun x => (hE.kind x).trans (hcU.kind x), ?_, ?_, ?_⟩, hstr⟩, rfl, hfresh, ⟨?_, ?_⟩, hE.fdesc, hE.cwd⟩
  · intro x y hx
    rw [hE.dent x y (hdir x hx), hcU.dent x y hx]
    rfl
  · -- Nothing referred to the new inode.
    have hno : (V.names.refs i).card = 0 := by
      rw [Finset.card_eq_zero, Finset.eq_empty_iff_forall_notMem]
      rintro ⟨a, b⟩ hab
      obtain ⟨k, hk⟩ := h.names.kind_of_link (h.names.mem_refs.mp hab)
      exact hne hk rfl
    rw [hE.nlink i (by rw [Vol.IsFile, hcU.kind, if_pos rfl]), hcU.new, hno]
    rfl
  · intro x hx hf
    rw [hE.nlink x (hfile x hx hf), hcU.nlink x hx]
  · have := hE.self
    rw [show ((V.takeInode i).setInode i (newInode i IT_FILE 0 0 now)).cwd = V.cwd from rfl] at this
    rw [this]
    exact ⟨hl, hs⟩
  · intro x hx _ hxc
    rw [hE.inode x hxc, inode_setInode, if_neg (hne hx)]
    exact ⟨rfl, rfl⟩

/-- Why `do_mkdir` and `do_touch` refuse a path. -/
def Vol.Refused (V : Vol) (path : CString) : Prop :=
  MAX_PATHNAME_LEN ≤ path.chars.length ∨ V.look (V.dirBlock V.cwd) path.chars ≠ none ∨ V.freeInode = none

/-- Entry `j` is the first free one of directory `i`. -/
structure Vol.Slot (V : Vol) (i j : ℕ) : Prop where
  find : ((List.range NUM_DENTRIES).find? fun j => !(V.entry (V.dirBlock i) j).used) = some j
  two_le : 2 ≤ j
  lt : j < 16
  unused : (V.entry (V.dirBlock i) j).used = false

/-- The volume with a new entry `j` of the working directory, which counts it. -/
def Vol.enterWd (V U : Vol) (name : List UInt8) (type : UInt8) (i j : ℕ) (now : UInt32) : Vol :=
  (U.setEntry (V.dirBlock V.cwd) j ⟨((V.entry (V.dirBlock V.cwd) j).strcpy name).name, type, UInt32.ofNat i⟩).updWd
    { V.wd with size := V.wd.size + 32, mtime := now, nlink := V.wd.nlink + 1 }

/-- What `do_touch` leaves when it succeeds. -/
structure Touches (V V' : Vol) (name : List UInt8) (i j : ℕ) (now now' : UInt32) : Prop where
  freeInode : V.freeInode = some i
  slot : V.Slot V.cwd j
  fresh : V.look (V.dirBlock V.cwd) name = none
  vol : V' = V.enterWd ((V.takeInode i).setInode i (newInode i IT_FILE 0 0 now)) name IT_FILE i j now'

/-- `do_touch`, to the byte. -/
theorem do_touch_exact (h : V.Inv) (ht : V.Tidy) {path : CString} (hok : V.TouchOk path) :
    Spec V (Fs.do_touch path) fun r V' => V'.Tidy ∧ ((r = -1 ∧ V'.toVol = V.toVol ∧ V.Refused path) ∨
      (r = 0 ∧ path.chars.length < MAX_PATHNAME_LEN ∧ ∃ i j now now',
        Touches V.toVol V'.toVol path.chars i j now now')) := by
  rw [Fs.do_touch]
  split
  · next hlen => exact Spec.pure ⟨ht, Or.inl ⟨rfl, rfl, Or.inl hlen⟩⟩
  next hlen =>
  have hlen : path.chars.length < MAX_PATHNAME_LEN := by omega
  obtain ⟨hb, hblk⟩ := h.wdBlock
  refine Does.wdInode.seq ((h.loadWd ht).bind fun _ V₁ ⟨hv₁, ht₁, hd₁⟩ => (Does.entries hd₁).seq ?_)
  split
  · next hany => exact Spec.pure ⟨ht₁, Or.inl ⟨rfl, hv₁, Or.inr (Or.inl ((V.any_iff_look _ _).mp hany))⟩⟩
  next hany =>
  have hlook : V.look (V.dirBlock V.cwd) path.chars = none := by
    by_contra hl
    exact hany ((V.any_iff_look _ _).mpr hl)
  rw [← hv₁] at hlook
  cases hfi : V₁.freeInode with
  | none =>
    refine (Does.find_free_inode_none hfi).seq ?_
    rw [if_pos rfl]
    rw [hv₁] at hfi
    exact Spec.pure ⟨ht₁, Or.inl ⟨rfl, hv₁, Or.inr (Or.inr hfi)⟩⟩
  | some i =>
    obtain ⟨hlt, hi, -⟩ := firstClear_eq_some.mp hfi
    rw [hv₁] at hi hfi hlook
    refine (find_free_inode_spec (hv₁ ▸ hfi)).bind ?_
    rintro r V₂ ⟨hr, h₂⟩
    rw [hr, if_neg (ino_ne_fail hlt)]
    refine (createInode_spec hlt _ _ _).bind ?_
    rintro _ V₃ ⟨now, h₃⟩
    have hd₃ : V₃.dbuf = ofSector (V.data (V.dirBlock V.cwd)) := by rw [h₃.dbuf, h₂.dbuf, hd₁]
    refine (Does.entries hd₃).seq ?_
    obtain ⟨j, hj, hj2, hj16, hu⟩ := h.slot h.cwd (hok hlen hlook (by rw [hfi]; simp))
    rw [h.slot' h.cwd, hj, hblk]
    have hvol₃ : V₃.toVol = (V.takeInode i).setInode i (newInode i IT_FILE 0 0 now) := by rw [h₃.vol, h₂.vol, hv₁]
    obtain ⟨_, V₄, hset, hwrite, hv₄, ht₄⟩ := putEntry_spec (h₃.tidy (h₂.tidy ht₁)) hb hj16
      ⟨((V.entry (V.dirBlock V.cwd) j).strcpy path.chars).name, IT_FILE, UInt32.ofNat i⟩ (by rw [hd₃, hvol₃]; rfl)
    refine hset.seq (hwrite.seq ?_)
    have hcwd₄ : V₄.wd = V.wd := by rw [hv₄, hvol₃]; rfl
    have hlt₄ : V₄.cwd < NUM_INODES := by rw [Vol.cwd, hcwd₄]; exact h.cwd_lt
    refine Spec.bind (updateWd_spec ?_ hlt₄) ?_
    · exact fun _ _ => rfl
    rintro _ V₅ ⟨now', h₅⟩
    refine Spec.pure ⟨h₅.tidy ht₄, Or.inr ⟨rfl, hlen, i, j, now, now', hfi, ⟨hj, hj2, hj16, hu⟩, hlook, ?_⟩⟩
    rw [h₅.vol, hcwd₄, hv₄, hvol₃]
    rfl

/-- `do_touch`. -/
theorem do_touch_spec (h : V.Inv) (ht : V.Tidy) {path : CString} (hok : V.TouchOk path) :
    Spec V (Fs.do_touch path) fun r V' => V'.Tidy ∧ ((r = -1 ∧ V'.toVol = V.toVol ∧ V.Refused path) ∨
      (r = 0 ∧ Touched V.toVol V'.toVol path.chars)) := by
  refine (do_touch_exact h ht hok).mono ?_
  rintro r V' ⟨ht', hno | ⟨hr, hlen, i, j, now, now', hm⟩⟩
  · exact ⟨ht', Or.inl hno⟩
  · refine ⟨ht', Or.inr ⟨hr, ?_⟩⟩
    rw [hm.vol]
    exact h.touched hm.freeInode hm.slot.two_le hm.slot.lt
      hm.slot.unused (str_strcpy_name _ hlen _ _) rfl rfl hm.fresh now
      rfl rfl rfl rfl rfl

/-! ### Making directories -/

/-- The entries `.` and `..` of a new directory. -/
def dots (ino parent : UInt32) : Bytes :=
  putDentry (putDentry (fun _ => 0) (32 * 0) ⟨(Dentry.zero.strcpy [46]).name, IT_DIR, ino⟩) (32 * 1)
    ⟨(Dentry.zero.strcpy [46, 46]).name, IT_DIR, parent⟩

theorem dots_of_le (ino parent : UInt32) {i : ℕ} (hi : 64 ≤ i) : dots ino parent i = 0 := by
  rw [dots, putDentry, if_neg (by omega), putDentry, if_neg (by omega)]

theorem ofSector_sector {m : Bytes} (hm : ∀ i, SECTOR_SIZE ≤ i → m i = 0) : ofSector (m.sector 0) = m := by
  rw [← put_eq_ofSector hm, put_sector_self]

theorem getDentry_dots (ino parent : UInt32) (y : ℕ) : getDentry (ofSector ((dots ino parent).sector 0)) (32 * y) =
    if y = 0 then ⟨(Dentry.zero.strcpy [46]).name, IT_DIR, ino⟩
    else if y = 1 then ⟨(Dentry.zero.strcpy [46, 46]).name, IT_DIR, parent⟩ else Dentry.zero := by
  rw [ofSector_sector fun i hi => dots_of_le _ _ (by unfold SECTOR_SIZE at hi; omega)]
  obtain rfl | rfl | hy : y = 0 ∨ y = 1 ∨ 2 ≤ y := by omega
  · rw [dots, getDentry_putDentry_of_disjoint _ _ (by omega), getDentry_putDentry, if_pos rfl]
  · rw [dots, getDentry_putDentry, if_neg (by omega), if_pos rfl]
  · rw [if_neg (by omega), if_neg (by omega)]
    exact getDentry_zero fun j _ => dots_of_le _ _ (by omega)

theorem writeDots_spec (hr : ∀ i, SECTOR_SIZE ≤ i → V.rbuf i = 0) {b : ℕ} (hb : b < NUM_BLOCKS) (ino parent : UInt32) :
    Spec V (Fs.writeDots ino parent (blockSector b)) fun _ V' =>
      V'.toVol = V.setBlock b ((dots ino parent).sector 0) ∧ V'.Tidy := by
  refine Does.bzeroDentry.seq
    ((Does.setDentryBuf _ _).seq ((Does.setDentryBuf _ _).seq ((Does.bwriteDentry hb).spec ?_)))
  exact ⟨rfl, fun i hi => dots_of_le _ _ (by unfold SECTOR_SIZE at hi; omega), hr⟩

theorem find_free_block_spec {b : ℕ} (h : V.freeBlock = some b) : Spec V Fs.find_free_block fun r V' =>
    r = blockSector b ∧ V'.toVol = V.takeBlock b ∧ V'.dbuf = V.dbuf ∧ V'.rbuf = fun _ => 0 :=
  (Does.find_free_block h).spec ⟨rfl, rfl, rfl, rfl⟩

theorem blockSector_ne_fail {b : ℕ} (h : b < NUM_BLOCKS) : blockSector b ≠ FAIL := by
  rw [NUM_BLOCKS_eq] at h
  rw [blockSector, DATA_eq]
  unfold FAIL
  omega

/-- What making a directory and entering it into the working directory does. -/
theorem Vol.Inv.madeDir {V : Vol} (h : V.Inv) {i b j : ℕ} (hfi : V.freeInode = some i) (hfb : V.freeBlock = some b)
    (hj : 2 ≤ j) (hj' : j < 16) (hu : (V.entry (V.dirBlock V.cwd) j).used = false) {e : Dentry}
    {name : List UInt8} (hstr : e.str = name) (htype : e.type = IT_DIR) (hino : e.ino = UInt32.ofNat i)
    (hfresh : V.look (V.dirBlock V.cwd) name = none) (now : UInt32) {I : Inode} (hblocks : I.blocks = V.wd.blocks)
    (ht : I.type = V.wd.type) (hn : I.ino = V.wd.ino) (hl : I.nlink = V.wd.nlink + 1) (hs : I.size = V.wd.size + 32) :
    MadeDir V ((((V.newDir i b now).setEntry (V.dirBlock V.cwd) j e).updWd I).setBlock b
      ((dots (UInt32.ofNat i) V.wd.ino).sector 0)) name := by
  obtain ⟨hlt, hi, -⟩ := firstClear_eq_some.mp hfi
  obtain ⟨hb, hfree, -⟩ := firstClear_eq_some.mp hfb
  have hne : ∀ {x k}, V.names.kind x = some k → x ≠ i := by
    rintro x k hx rfl
    rw [kind_eq_none.mpr hi] at hx
    cases hx
  obtain ⟨hbU, hcU, hdU⟩ := h.newDir hi hlt hb hfree now
  generalize hUdef : V.newDir i b now = U at hbU hcU hdU
  have hcwdU : U.cwd = V.cwd := by rw [← hUdef]; rfl
  have hwdU : U.wd = V.wd := by rw [← hUdef]; rfl
  have hinoU : ∀ x, x ≠ i → U.inode x = V.inode x := by
    intro x hx
    rw [← hUdef]
    exact Function.update_of_ne hx _ _
  have hselfU : U.inode i = newInode i IT_DIR 64 (sec b) now := by
    rw [← hUdef]
    exact Function.update_self ..
  have hdirU : ∀ x, V.IsDir x → U.IsDir x := by
    intro x hx
    rw [Vol.IsDir, hcU.kind, if_neg (hne hx)]
    exact hx
  have hblk : U.dirBlock U.cwd = V.dirBlock V.cwd := by rw [Vol.dirBlock, hcwdU, hinoU _ (hne h.cwd)]; rfl
  have hE := hbU.wdEntry hj' e (I := I) (by rw [hwdU]; exact hblocks) (by rw [hwdU]; exact ht) (by rw [hwdU]; exact hn)
  rw [hblk] at hE
  have hfdU : U.fdesc = V.fdesc := by rw [← hUdef]; rfl
  have himapU : U.imap = Function.update V.imap i true := by rw [← hUdef]; rfl
  have hbmapU : U.bmap = Function.update V.bmap b true := by rw [← hUdef]; rfl
  have himapW : ((U.setEntry (V.dirBlock V.cwd) j e).updWd I).imap = U.imap := rfl
  have hbmapW : ((U.setEntry (V.dirBlock V.cwd) j e).updWd I).bmap = U.bmap := rfl
  generalize (U.setEntry (V.dirBlock V.cwd) j e).updWd I = W at hE himapW hbmapW
  have hiW : W.IsDir i := by rw [Vol.IsDir, hE.kind, hcU.kind, if_pos rfl]
  have hinoW : W.inode i = newInode i IT_DIR 64 (sec b) now := by
    rw [hE.inode i (by rw [hcwdU]; exact Ne.symm (hne h.cwd)), hselfU]
  have hbW : W.dirBlock i = b := by
    rw [Vol.dirBlock, hinoW]
    exact blockOf_sec hb
  have hbase := hE.base.setBlock ((dots (UInt32.ofNat i) V.wd.ino).sector 0) hb (hbW ▸ hE.base.dirBlock_leaf hiW)
  -- The new block holds the dots; the other directories are as before.
  have hself : ∀ y, (W.setBlock b ((dots (UInt32.ofNat i) V.wd.ino).sector 0)).names.dent i y =
      getDentry (ofSector ((dots (UInt32.ofNat i) V.wd.ino).sector 0)) (32 * y) := by
    intro y
    show getDentry (ofSector (Function.update W.data b _ (W.dirBlock i))) (32 * y) = _
    rw [hbW, Function.update_self]
  have hother : ∀ x y, V.IsDir x → (W.setBlock b ((dots (UInt32.ofNat i) V.wd.ino).sector 0)).names.dent x y =
      if x = V.cwd ∧ y = j then e else V.names.dent x y := by
    intro x y hx
    have hxW : W.IsDir x := by rw [Vol.IsDir, hE.kind]; exact hdirU x hx
    have hxb : W.dirBlock x ≠ b := fun e => hne hx (hE.base.dirBlock_inj hxW hiW (e.trans hbW.symm))
    have hd : (W.setBlock b ((dots (UInt32.ofNat i) V.wd.ino).sector 0)).data (W.dirBlock x) = W.data (W.dirBlock x) :=
      Function.update_of_ne hxb _ _
    show (W.setBlock b ((dots (UInt32.ofNat i) V.wd.ino).sector 0)).entry (W.dirBlock x) y = _
    rw [entry_of_data hd]
    refine (hE.dent x y (hdirU x hx)).trans ?_
    rw [hcU.dent x y hx, hcwdU]
  have hname : name ≠ [] := by
    rintro rfl
    exact V.look_nil_ne _ hfresh
  refine ⟨hbase, ⟨i, j, e, hfi, himapW.trans himapU, ⟨h.cwd, hj, hj', hu, Names.used_of_str (by rw [hstr]; exact hname),
    by rw [hino]; exact toNat_ino hlt, htype, kind_eq_none.mpr hi, hlt, fun x => (hE.kind x).trans (hcU.kind x), hother,
    ?_, ?_, ?_, ?_⟩, hstr, ?_, ?_⟩, ⟨b, hfb, hbmapW.trans hbmapU⟩, hfresh, ⟨?_, ?_⟩, hE.fdesc.trans hfdU,
    hE.cwd.trans hcwdU⟩
  · rw [Names.child, hself, getDentry_dots, if_pos rfl]
    exact ⟨Dentry.str_strcpy Dentry.zero (by decide) (by decide), toNat_ino hlt⟩
  · rw [Names.child, hself, getDentry_dots, if_neg (by omega), if_pos rfl]
    exact ⟨Dentry.str_strcpy Dentry.zero (by decide) (by decide), rfl⟩
  · intro y hy
    rw [hself, getDentry_dots, if_neg (by omega), if_neg (by omega)]
    exact ⟨by decide, rfl⟩
  · intro x hx
    have hxi := hne hx
    have hxU : U.IsFile x := by rw [Vol.IsFile, hcU.kind, if_neg hxi]; exact hx
    exact (hE.nlink x hxU).trans (hcU.nlink x hxi)
  · exact congrArg Inode.nlink hinoW
  · exact congrArg Inode.size hinoW
  · have hw := hE.self
    rw [hcwdU] at hw
    exact ⟨(congrArg Inode.nlink hw).trans hl, (congrArg Inode.size hw).trans hs⟩
  · intro x hx _ hxc
    have hxi : W.inode x = V.inode x := by rw [hE.inode x (by rw [hcwdU]; exact hxc), hinoU x (hne hx)]
    exact ⟨congrArg Inode.nlink hxi, congrArg Inode.size hxi⟩

/-- What `do_mkdir` leaves when it succeeds. -/
structure MakesDir (V V' : Vol) (name : List UInt8) (i b j : ℕ) (now now' : UInt32) : Prop where
  freeInode : V.freeInode = some i
  freeBlock : V.freeBlock = some b
  slot : V.Slot V.cwd j
  fresh : V.look (V.dirBlock V.cwd) name = none
  vol : V' = (V.enterWd (V.newDir i b now) name IT_DIR i j now').setBlock b ((dots (UInt32.ofNat i) V.wd.ino).sector 0)

/-- `do_mkdir`, to the byte. -/
theorem do_mkdir_exact (h : V.Inv) (ht : V.Tidy) {path : CString} (hok : V.MkdirOk path) :
    Spec V (Fs.do_mkdir path) fun r V' => V'.Tidy ∧ ((r = -1 ∧ V'.toVol = V.toVol ∧ V.Refused path) ∨
      (r = 0 ∧ path.chars.length < MAX_PATHNAME_LEN ∧ ∃ i b j now now',
        MakesDir V.toVol V'.toVol path.chars i b j now now')) := by
  rw [Fs.do_mkdir]
  split
  · next hlen => exact Spec.pure ⟨ht, Or.inl ⟨rfl, rfl, Or.inl hlen⟩⟩
  next hlen =>
  have hlen : path.chars.length < MAX_PATHNAME_LEN := by omega
  obtain ⟨hb, hblk⟩ := h.wdBlock
  refine Does.wdInode.seq ((h.loadWd ht).bind fun _ V₁ ⟨hv₁, ht₁, hd₁⟩ => (Does.entries hd₁).seq ?_)
  split
  · next hany => exact Spec.pure ⟨ht₁, Or.inl ⟨rfl, hv₁, Or.inr (Or.inl ((V.any_iff_look _ _).mp hany))⟩⟩
  next hany =>
  have hlook : V.look (V.dirBlock V.cwd) path.chars = none := by
    by_contra hl
    exact hany ((V.any_iff_look _ _).mpr hl)
  cases hfi : V.freeInode with
  | none =>
    refine (Does.find_free_inode_none (hv₁ ▸ hfi)).seq ?_
    rw [if_pos rfl]
    exact Spec.pure ⟨ht₁, Or.inl ⟨rfl, hv₁, Or.inr (Or.inr hfi)⟩⟩
  | some i =>
    obtain ⟨hlt, hi, -⟩ := firstClear_eq_some.mp hfi
    obtain ⟨hfb, hfull⟩ := hok hlen hlook (by rw [hfi]; simp)
    obtain ⟨b, hfb⟩ := Option.ne_none_iff_exists'.mp hfb
    obtain ⟨hblt, hbfree, -⟩ := firstClear_eq_some.mp hfb
    refine (find_free_inode_spec (hv₁ ▸ hfi)).bind ?_
    rintro r V₂ ⟨hr, h₂⟩
    have hv₂ : V₂.toVol = V.takeInode i := by rw [h₂.vol, hv₁]
    rw [hr, if_neg (ino_ne_fail hlt)]
    refine (find_free_block_spec (b := b) (by rw [hv₂]; exact hfb)).bind ?_
    rintro r' V₃ ⟨hr', hv₃, hdb₃, hrb₃⟩
    have ht₃ : V₃.Tidy := ⟨by rw [hdb₃]; exact (h₂.tidy ht₁).dbuf, by rw [hrb₃]; exact fun _ _ => rfl⟩
    rw [hr', if_neg (blockSector_ne_fail hblt)]
    refine (createInode_spec hlt _ _ _).bind ?_
    rintro _ V₄ ⟨now, h₄⟩
    have hv₄ : V₄.toVol = V.newDir i b now := by rw [h₄.vol, hv₃, hv₂]; rfl
    obtain ⟨hb₄, hc₄, -⟩ := h.newDir hi hlt hblt hbfree now
    have hwd₄ : V₄.wd = V.wd := by rw [hv₄]; rfl
    -- The block of the working directory is read again, and is as before.
    refine Spec.bind (hwd₄ ▸ Vol.Base.loadWd (V := V₄) (hv₄ ▸ hb₄) (h₄.tidy ht₃)) ?_
    rintro _ V₅ ⟨hv₅, ht₅, hd₅⟩
    have hblk₄ : V₄.dirBlock V₄.cwd = V.dirBlock V.cwd := by
      have hne : V.cwd ≠ i := by
        rintro rfl
        have := Vol.imap_of_kind h.cwd
        rw [hi] at this
        cases this
      have hino : (V.newDir i b now).inode V.cwd = V.inode V.cwd := Function.update_of_ne hne _ _
      rw [hv₄]
      show blockOf (((V.newDir i b now).inode V.cwd).blocks 0) = _
      rw [hino]
      rfl
    have hdata₄ : V₄.data (V.dirBlock V.cwd) = V.data (V.dirBlock V.cwd) := by
      have hbc : V.dirBlock V.cwd ≠ b := by
        intro e
        have := h.bmap_dirBlock h.cwd
        rw [e, hbfree] at this
        cases this
      rw [hv₄]
      exact Function.update_of_ne hbc _ _
    rw [hblk₄, hdata₄] at hd₅
    refine (Does.entries hd₅).seq ?_
    obtain ⟨j, hj, hj2, hj16, hu⟩ := h.slot h.cwd hfull
    rw [hj, hblk]
    obtain ⟨_, V₆, hset, hwrite, hv₆, ht₆⟩ := putEntry_spec ht₅ hb hj16
      ⟨((V.entry (V.dirBlock V.cwd) j).strcpy path.chars).name, IT_DIR, UInt32.ofNat i⟩ (by rw [hd₅, hv₅, hdata₄])
    refine hset.seq (hwrite.seq ?_)
    have hwd₆ : V₆.wd = V.wd := by rw [hv₆, hv₅, hv₄]; rfl
    have hlt₆ : V₆.cwd < NUM_INODES := by rw [Vol.cwd, hwd₆]; exact h.cwd_lt
    refine Spec.bind (updateWd_spec ?_ hlt₆) ?_
    · exact fun _ _ => rfl
    rintro _ V₇ ⟨now', h₇⟩
    have hwd₇ : V₇.wd.ino = V.wd.ino := by rw [h₇.vol, ← hwd₆]; rfl
    refine Does.wdInode.seq ?_
    refine (writeDots_spec (h₇.tidy ht₆).rbuf hblt _ _).bind ?_
    rintro _ V₈ ⟨hv₈, ht₈⟩
    refine Spec.pure ⟨ht₈, Or.inr ⟨rfl, hlen, i, b, j, now, now', hfi, hfb, ⟨hj, hj2, hj16, hu⟩, hlook, ?_⟩⟩
    rw [hv₈, hwd₇, h₇.vol, hwd₆, hv₆, hv₅, hv₄]
    rfl

/-- `do_mkdir`. -/
theorem do_mkdir_spec (h : V.Inv) (ht : V.Tidy) {path : CString} (hok : V.MkdirOk path) :
    Spec V (Fs.do_mkdir path) fun r V' => V'.Tidy ∧ ((r = -1 ∧ V'.toVol = V.toVol ∧ V.Refused path) ∨
      (r = 0 ∧ MadeDir V.toVol V'.toVol path.chars)) := by
  refine (do_mkdir_exact h ht hok).mono ?_
  rintro r V' ⟨ht', hno | ⟨hr, hlen, i, b, j, now, now', hm⟩⟩
  · exact ⟨ht', Or.inl hno⟩
  · refine ⟨ht', Or.inr ⟨hr, ?_⟩⟩
    rw [hm.vol]
    exact h.madeDir hm.freeInode hm.freeBlock hm.slot.two_le
      hm.slot.lt hm.slot.unused (str_strcpy_name _ hlen _ _) rfl rfl
      hm.fresh now rfl rfl rfl rfl rfl

/-! ### Links -/

/-- Go on with the inode that a path names. -/
theorem Vol.Inv.withPath (h : V.Inv) (ht : V.Tidy) {path : CString} (hp : V.PathOk path) {β : Type} {x : FsM β}
    {k : Inode → FsM β} {Q : β → View → Prop}
    (hnone : V.find path = none → ∀ V' : View, V'.toVol = V.toVol → V'.Tidy → Spec V' x Q)
    (hsome : ∀ i, V.find path = some i → (∃ kd, V.names.kind i = some kd) →
      ∀ V' : View, V'.toVol = V.toVol → V'.Tidy → Spec V' (k (V.inode i)) Q) :
    Spec V (do
      match ← Fs.findFromWd path with
      | none => x
      | some p => do
        let I ← Fs.deref p
        k I) Q := by
  refine (h.find_inode ht hp).bind fun r V₁ hF => ?_
  cases hf : V.find path with
  | none =>
    rw [hF.none hf]
    exact hnone hf V₁ hF.vol hF.tidy
  | some i =>
    obtain ⟨hk, ⟨-, rfl, rfl⟩ | ⟨-, rfl, hib⟩⟩ := hF.some i hf
    · have hwd : V₁.wd = V.inode V.cwd := by rw [hF.vol]; exact h.wd
      have := hsome _ hf hk V₁ hF.vol hF.tidy
      rw [← hwd] at this
      exact Does.wdInode.seq this
    · have hi : V₁.ibuf (i % 8) = V.inode i := by rw [hib, Vol.loadInodes_mod]
      have := hsome _ hf hk V₁ hF.vol hF.tidy
      rw [← hi] at this
      exact (Does.inodeBuf (by omega)).seq this

/-- A path to a directory is no path to a file. -/
theorem Vol.not_isFile_of_find {V : Vol} {path : CString} {i : ℕ}
    (hi : V.find path = some i) (ht : (V.inode i).type = IT_DIR) :
    ∀ f, V.find path = some f → ¬ V.IsFile f := by
  intro f hf hfile
  obtain rfl : i = f := Option.some.inj (hi.symm.trans hf)
  exact (isFile_iff.mp hfile).2 ht

namespace Vol

/-- Where `add_file_dentry` stores an entry for a path: the directory and the name. -/
def lnTarget (V : Vol) (path : CString) : Option (ℕ × List UInt8) :=
  (Fs.parse_path path.chars).bind fun p =>
    if p.2.1 = [] then some (V.cwd, p.1)
    else (V.look (V.dirBlock V.cwd) p.1).bind fun e₁ =>
      if e₁.type ≠ IT_DIR then none
      else if p.2.2 = [] then some (e₁.ino.toNat, p.2.1)
      else (V.look (V.dirBlock e₁.ino.toNat) p.2.1).bind fun e₂ =>
        if e₂.type ≠ IT_DIR then none else some (e₂.ino.toNat, p.2.2)

/-- What `do_ln` of a file needs: a directory with room for the entry, and a name. -/
def LnOk (V : Vol) (src dst : CString) : Prop :=
  V.PathOk src ∧ ∀ f, V.find src = some f → V.IsFile f →
    ∃ w name, V.lnTarget dst = some (w, name) ∧ name ≠ [] ∧ ¬ V.Full w

variable {V : Vol} {i w : ℕ} {name : List UInt8} {e : Dentry} {path : CString}

/-- An entry marked as a directory names one. -/
theorem Inv.isDir_of_look (h : V.Inv) (hi : V.IsDir i)
    (hl : V.look (V.dirBlock i) name = some e) (ht : e.type = IT_DIR) :
    V.IsDir e.ino.toNat := by
  obtain ⟨j, -, rfl, -⟩ := look_eq_some hl
  cases hu : (V.names.dent i j).used with
  | false =>
    have h0 : (V.entry (V.dirBlock i) j).ino = 0 := h.names.vacant hi hu
    rw [h0]
    exact h.root.1
  | true =>
    have hlink : V.names.Link i j (V.entry (V.dirBlock i) j).ino.toNat := ⟨hi, hu, rfl⟩
    by_cases hj : 2 ≤ j
    · obtain ⟨-, k, hk, hc⟩ := h.names.entry hj hlink
      have hcode : k.code = IT_DIR := hc.symm.trans ht
      cases k with
      | dir => exact hk
      | file => exact absurd hcode (by decide)
    · obtain rfl | rfl : j = 0 ∨ j = 1 := by omega
      · have hdot : (V.entry (V.dirBlock i) 0).ino.toNat = i := (h.names.dot hi).2
        rw [hdot]
        exact hi
      · exact h.names.kind_dotdot hi

theorem parse_path_component {path : List UInt8} {p : List UInt8 × List UInt8 × List UInt8}
    (h : Fs.parse_path path = some p) :
    ∀ c ∈ [p.1, p.2.1, p.2.2], c.length < MAX_PATHNAME_LEN ∧ ∀ x ∈ c, x ∈ path := by
  have hfst : ∀ (l : List UInt8), ∀ x ∈ (Fs.component l).1, x ∈ l := fun l x hx => (List.takeWhile_sublist _).subset hx
  have hsnd : ∀ (l : List UInt8), ∀ x ∈ (Fs.component l).2, x ∈ l := fun l x hx =>
    ((List.tail_sublist _).trans (List.dropWhile_sublist _)).subset hx
  simp only [Fs.parse_path] at h
  split at h
  · next hlen =>
    obtain rfl := Option.some.inj h
    simp only [List.mem_cons, List.not_mem_nil, or_false]
    rintro c (rfl | rfl | rfl)
    · exact ⟨hlen.1, hfst _⟩
    · exact ⟨hlen.2.1, fun x hx => hsnd _ x (hfst _ x hx)⟩
    · exact ⟨hlen.2.2, fun x hx => hsnd _ x (hsnd _ x (hfst _ x hx))⟩
  · cases h

/-- The name under which an entry is stored fits. -/
theorem lnTarget_name (ht : V.lnTarget path = some (w, name)) : name.length < MAX_PATHNAME_LEN ∧ 0 ∉ name := by
  simp only [lnTarget, Option.bind_eq_some_iff] at ht
  obtain ⟨p, hp, ht⟩ := ht
  have hmem : name ∈ [p.1, p.2.1, p.2.2] := by
    split at ht
    · obtain ⟨-, rfl⟩ := Prod.mk.inj (Option.some.inj ht)
      simp
    · obtain ⟨e₁, -, ht⟩ := Option.bind_eq_some_iff.mp ht
      split at ht
      · cases ht
      · split at ht
        · obtain ⟨-, rfl⟩ := Prod.mk.inj (Option.some.inj ht)
          simp
        · obtain ⟨e₂, -, ht⟩ := Option.bind_eq_some_iff.mp ht
          split at ht
          · cases ht
          · obtain ⟨-, rfl⟩ := Prod.mk.inj (Option.some.inj ht)
            simp
  obtain ⟨hlen, hsub⟩ := parse_path_component hp name hmem
  exact ⟨hlen, fun h0 => path.nonzero (hsub 0 h0)⟩

end Vol

/-- `add_file_dentry` comes to the directory of `lnTarget`. -/
theorem add_file_dentry_spec (h : V.Inv) (ht : V.Tidy) {path : CString} {w : ℕ} {name : List UInt8}
    (htarget : V.lnTarget path = some (w, name)) {ino : UInt32} {Q : Unit → View → Prop}
    (hadd : V.IsDir w → ∀ V' : View,
      V'.toVol = V.toVol → V'.Tidy → Spec V' (Fs.addEntry ((V.inode w).blocks 0) name ino) Q) :
    Spec V (Fs.add_file_dentry V.wd path ino) Q := by
  simp only [Vol.lnTarget, Option.bind_eq_some_iff] at htarget
  obtain ⟨⟨dir1, dir2, dir3⟩, hp, htarget⟩ := htarget
  rw [Fs.add_file_dentry, hp]
  dsimp only at htarget ⊢
  have hwd : V.wd.blocks 0 = (V.inode V.cwd).blocks 0 := by rw [h.wd]
  rw [hwd]
  split
  · next h2 =>
    rw [if_pos h2] at htarget
    obtain ⟨rfl, rfl⟩ := Prod.mk.inj (Option.some.inj htarget)
    exact hadd h.cwd V rfl ht
  next h2 =>
  rw [if_neg h2] at htarget
  obtain ⟨e₁, hl₁, htarget⟩ := Option.bind_eq_some_iff.mp htarget
  refine (h.lookup ht h.cwd dir1).seq ?_
  rw [hl₁]
  dsimp only
  split
  · next h1 =>
    rw [if_pos h1] at htarget
    cases htarget
  next h1 =>
  rw [if_neg h1] at htarget
  have hd₁ := h.isDir_of_look h.cwd hl₁ (not_not.mp h1)
  refine (Does.loadInode (h.names.lt hd₁)).seq ?_
  dsimp only
  split
  · next h3 =>
    rw [if_pos h3] at htarget
    obtain ⟨rfl, rfl⟩ := Prod.mk.inj (Option.some.inj htarget)
    exact hadd hd₁ _ rfl ⟨(ht.setDbuf _).dbuf, ht.rbuf⟩
  next h3 =>
  rw [if_neg h3] at htarget
  obtain ⟨e₂, hl₂, htarget⟩ := Option.bind_eq_some_iff.mp htarget
  have hT : View.Tidy { V with dbuf := ofSector (V.data (V.dirBlock V.cwd)), ibuf := V.loadInodes e₁.ino.toNat } :=
    ⟨(ht.setDbuf _).dbuf, ht.rbuf⟩
  refine (Vol.Base.lookup
    (V := { V with dbuf := ofSector (V.data (V.dirBlock V.cwd)), ibuf := V.loadInodes e₁.ino.toNat })
    h.toBase hT hd₁ dir2).seq ?_
  dsimp only
  rw [hl₂]
  dsimp only
  split
  · next h1 =>
    rw [if_pos h1] at htarget
    cases htarget
  next h1 =>
  rw [if_neg h1] at htarget
  obtain ⟨rfl, rfl⟩ := Prod.mk.inj (Option.some.inj htarget)
  have hd₂ := h.isDir_of_look hd₁ hl₂ (not_not.mp h1)
  refine (Does.loadInode (h.names.lt hd₂)).seq ?_
  exact hadd hd₂ _ rfl ⟨(ht.setDbuf _).dbuf, ht.rbuf⟩

/-- `addEntry` in a directory with a free slot. -/
theorem addEntry_spec (h : V.Inv) (ht : V.Tidy) {w : ℕ} (hw : V.IsDir w) (hfull : ¬ V.Full w) (name : List UInt8)
    (ino : UInt32) : Spec V (Fs.addEntry ((V.inode w).blocks 0) name ino) fun _ V' =>
      ∃ j, 2 ≤ j ∧ j < 16 ∧ (V.entry (V.dirBlock w) j).used = false ∧ V'.Tidy ∧
        V'.toVol = V.setEntry (V.dirBlock w) j ⟨((V.entry (V.dirBlock w) j).strcpy name).name, IT_FILE, ino⟩ := by
  obtain ⟨hb, he, -⟩ := h.dirBlock hw
  obtain ⟨j, hj, hj2, hj16, hu⟩ := h.slot hw hfull
  rw [Fs.addEntry, he, toNat_sec hb]
  have hread := Does.breadDentry (V := V) hb
  rw [put_eq_ofSector ht.dbuf] at hread
  refine hread.seq ((Does.entries (U := V.toVol) rfl).seq ?_)
  rw [h.slot' hw, hj]
  obtain ⟨_, V₂, hset, hwrite, hv, ht'⟩ := putEntry_spec
    (V := { V with dbuf := ofSector (V.data (V.dirBlock w)) }) (ht.setDbuf _) hb hj16
    ⟨((V.entry (V.dirBlock w) j).strcpy name).name, IT_FILE, ino⟩ rfl
  exact hset.seq (hwrite.spec ⟨j, hj2, hj16, hu, ht', hv⟩)

/-- What `do_ln` does when it succeeds. -/
structure Linked (V V' : Vol) (f w : ℕ) (name : List UInt8) : Prop where
  base : V'.Base
  names : ∃ j e, V.names.Enter V'.names w j e f ∧ e.str = name
  dirs : ∀ x, V.IsDir x → V'.inode x = V.inode x
  fdesc : V'.fdesc = V.fdesc
  cwd : V'.cwd = V.cwd

theorem Vol.Inv.linked {V : Vol} (h : V.Inv) {f w j : ℕ} (hf : V.IsFile f) (hw : V.IsDir w) (hj : 2 ≤ j) (hj' : j < 16)
    (hu : (V.entry (V.dirBlock w) j).used = false) {e : Dentry}
    {name : List UInt8} (hstr : e.str = name) (hname : name ≠ [])
    (htype : e.type = IT_FILE) (hino : e.ino.toNat = f) :
    Linked V ((V.setEntry (V.dirBlock w) j e).setInode f { V.inode f with nlink := (V.inode f).nlink + 1 })
    f w name := by
  obtain ⟨hbE, hE⟩ := h.setEntry hw hj' e
  have hfE : Vol.IsFile (V.setEntry (V.dirBlock w) j e) f := by rw [Vol.IsFile, hE.kind]; exact hf
  obtain ⟨hb, hN⟩ := hbE.setFile (I := { V.inode f with nlink := (V.inode f).nlink + 1 }) hfE rfl rfl rfl le_rfl
  have hne : ∀ x, V.IsDir x → x ≠ f := by
    rintro x hx rfl
    rw [Vol.IsFile, hx] at hf
    cases hf
  refine ⟨hb, ⟨j, e, ⟨hw, hj, hj', hu, Names.used_of_str (by rw [hstr]; exact hname), hino, htype, Or.inr hf,
    h.names.lt hf, ?_, ?_, ?_, ?_⟩, hstr⟩, ?_, rfl, rfl⟩
  · intro x
    rw [hN.kind, hE.kind]
    split
    · next hx => rw [hx]; exact hf
    · rfl
  · intro x y hx
    rw [hN.dent, hE.dent x y hx]
  · -- The count does not overflow: a volume has fewer entries.
    rw [hN.nlink, if_pos rfl]
    have hlinks : (V.inode f).nlink.toNat = (V.names.refs f).card := h.names.links hf
    have hcard := h.names.refs_card_le hf
    show ((V.inode f).nlink + 1).toNat = _
    rw [UInt16.toNat_add, hlinks]
    unfold NUM_INODES at hcard
    exact Nat.mod_eq_of_lt (by rw [show (1 : UInt16).toNat = 1 from rfl]; omega)
  · intro x hx _
    rw [hN.nlink, if_neg hx, hE.nlink]
  · intro x hx
    rw [Vol.inode_setInode, if_neg (hne x hx)]
    rfl

/-- `do_ln`. -/
theorem do_ln_spec (h : V.Inv) (ht : V.Tidy) {src dst : CString} (hok : V.LnOk src dst) :
    Spec V (Fs.do_ln src dst) fun r V' =>
    V'.Tidy ∧ ((r = -1 ∧ V'.toVol = V.toVol ∧ ∀ f, V.find src = some f → ¬ V.IsFile f) ∨
      (r = 0 ∧ ∃ f w name, V.find src = some f ∧ V.IsFile f ∧ V.lnTarget dst = some (w, name) ∧
        Linked V.toVol V'.toVol f w name)) := by
  refine h.withPath ht hok.1
    (fun hn V₁ hv₁ ht₁ => Spec.pure ⟨ht₁, Or.inl ⟨rfl, hv₁, fun f hf => by cases hn.symm.trans hf⟩⟩) ?_
  rintro f hfind ⟨kd, hkd⟩ V₁ hv₁ ht₁
  split
  · next htype => exact Spec.pure ⟨ht₁, Or.inl ⟨rfl, hv₁, Vol.not_isFile_of_find hfind htype⟩⟩
  next htype =>
  have himap := Vol.imap_of_kind hkd
  have hf : V.IsFile f := Vol.isFile_iff.mpr ⟨himap, htype⟩
  have hino := h.ino himap
  have hlt := h.lt himap
  obtain ⟨w, name, htarget, hname, hfull⟩ := hok.2 f hfind hf
  obtain ⟨hlen, h0⟩ := Vol.lnTarget_name htarget
  have h₁ : V₁.Inv := hv₁ ▸ h
  refine Does.wdInode.seq ?_
  refine Spec.bind (P := fun _ V₃ => ∃ j,
    V.IsDir w ∧ 2 ≤ j ∧ j < 16 ∧ (V.entry (V.dirBlock w) j).used = false ∧ V₃.Tidy ∧
    V₃.toVol = V.setEntry (V.dirBlock w) j ⟨((V.entry (V.dirBlock w) j).strcpy name).name,
      IT_FILE, (V.inode f).ino⟩) ?_ ?_
  · refine add_file_dentry_spec h₁ ht₁ (by rw [hv₁]; exact htarget) fun hw V₂ hv₂ ht₂ => ?_
    rw [hv₁] at hw hv₂ ⊢
    have := addEntry_spec (V := V₂) (hv₂ ▸ h) ht₂ (hv₂ ▸ hw) (by rw [hv₂]; exact hfull) name (V.inode f).ino
    rw [hv₂] at this
    exact this.mono fun _ V' ⟨j, hq⟩ => ⟨j, hw, hq⟩
  · rintro _ V₃ ⟨j, hw, hj, hj16, hu, ht₃, hv₃⟩
    have hJ : V₃.inode (V.inode f).ino.toNat = V.inode f := by rw [hv₃, hino]; rfl
    have hlt' : (V.inode f).ino.toNat < NUM_INODES := by rw [hino]; exact hlt
    have hload := Does.loadInode (V := V₃) hlt'
    rw [hJ, hino] at hload
    refine hload.seq ?_
    rw [Fs.inodeidx2offset, inodeidx2sector_eq hlt', hino]
    refine (Does.setInodeBuf (by omega) _).seq ((Does.bwriteInode (by omega) hlt).seq ?_)
    refine Spec.pure ⟨⟨ht₃.dbuf, ht₃.rbuf⟩, Or.inr ⟨rfl, f, w, name, hfind, hf, htarget, ?_⟩⟩
    have hstore := View.storeInodes_update V₃ f { V.inode f with nlink := (V.inode f).nlink + 1 } hlt
    have hvol :
      ({ V₃.toVol with inode := Function.update V₃.inode f { V.inode f with nlink := (V.inode f).nlink + 1 } } :
        Vol) =
        (V.setEntry (V.dirBlock w) j ⟨((V.entry (V.dirBlock w) j).strcpy name).name,
          IT_FILE, (V.inode f).ino⟩).setInode f
          { V.inode f with nlink := (V.inode f).nlink + 1 } := by
      rw [hv₃]
      rfl
    have hend :=
      h.linked (e := ⟨((V.entry (V.dirBlock w) j).strcpy name).name, IT_FILE, (V.inode f).ino⟩)
        hf hw hj hj16 hu
      (Dentry.str_strcpy _ hlen h0) hname rfl hino
    rw [← hvol, ← hstore] at hend
    exact hend

end OsLab
