import OsLab.Fs.Layout
import Mathlib.Data.Finset.Prod
import Mathlib.Order.Interval.Finset.Nat

/-!
# The tree of names

What directories are for, without blocks and sectors: inodes are files or directories, a
directory has entries, and the entries of the directories, `.` and `..` aside, make the
directories a tree and give every file as many names as its link count says (`Names.Inv`).

Four steps change the tree: a file gets a name (`Enter`), a file loses one (`Remove`), a
directory is made (`MakeDir`), an empty directory is removed (`RemoveDir`); `Same` is no change.
Each keeps the invariant. A step is a relation between the tree before and after; the operations of the
file system are shown to be such steps elsewhere.
-/

namespace OsLab

/-- What an inode is. -/
inductive Kind where
  | dir
  | file
  deriving DecidableEq

/-- The type recorded in inodes and entries. -/
def Kind.code : Kind → UInt8
  | dir => IT_DIR
  | file => IT_FILE

/-- Directories and their entries. -/
structure Names where
  /-- What an inode is, if it is in use. -/
  kind : ℕ → Option Kind
  /-- The entries of a directory. -/
  dent : ℕ → ℕ → Dentry
  /-- The link count of a file. -/
  nlink : ℕ → UInt16

namespace Names

variable {N N' : Names} {w j f i c : ℕ} {e : Dentry}

/-- The inode an entry names. -/
def child (N : Names) (i j : ℕ) : ℕ := (N.dent i j).ino.toNat

/-- Entry `j` of directory `i` is used and names `c`. -/
def Link (N : Names) (i j c : ℕ) : Prop := N.kind i = some .dir ∧ (N.dent i j).used = true ∧ N.child i j = c

instance (N : Names) (i j c : ℕ) : Decidable (N.Link i j c) := inferInstanceAs (Decidable (_ ∧ _ ∧ _))

/-- The entries that name `f`. -/
def refs (N : Names) (f : ℕ) : Finset (ℕ × ℕ) :=
  (Finset.range NUM_INODES ×ˢ Finset.range NUM_DENTRIES).filter fun p => N.Link p.1 p.2 f

theorem mem_refs_iff (N : Names) (i j f : ℕ) :
    (i, j) ∈ N.refs f ↔ (i < NUM_INODES ∧ j < NUM_DENTRIES) ∧ N.Link i j f := by
  rw [refs, Finset.mem_filter, Finset.mem_product, Finset.mem_range, Finset.mem_range]

-- Membership is used through the lemma above; evaluating the set is never wanted.
attribute [irreducible] refs

/-- The inodes below the root, along entries other than `.` and `..`. -/
inductive Below (N : Names) : ℕ → Prop where
  | root : Below N 0
  | step {i j c : ℕ} : Below N i → 2 ≤ j → N.Link i j c → Below N c

/-- The tree of names is in order. -/
structure Inv (N : Names) : Prop where
  root : N.kind 0 = some .dir
  lt : ∀ {i k}, N.kind i = some k → i < NUM_INODES
  /-- The first entry of a directory is `.`. -/
  dot : ∀ {i}, N.kind i = some .dir → (N.dent i 0).str = [46] ∧ N.child i 0 = i
  /-- The second is `..`. -/
  dotdot : ∀ {i}, N.kind i = some .dir → (N.dent i 1).str = [46, 46]
  rootdots : N.child 0 1 = 0
  /-- Only the entries that fit into one sector are used. -/
  short : ∀ {i j c}, N.Link i j c → j < 16
  /-- Unused entries name no inode. -/
  vacant : ∀ {i j}, N.kind i = some .dir → (N.dent i j).used = false → (N.dent i j).ino = 0
  /-- Used entries name inodes in use, with their type. -/
  entry : ∀ {i j c}, 2 ≤ j → N.Link i j c → c ≠ 0 ∧ ∃ k, N.kind c = some k ∧ (N.dent i j).type = k.code
  /-- `..` is the directory that has the entry. -/
  parent : ∀ {i j c}, 2 ≤ j → N.Link i j c → N.kind c = some .dir → N.child c 1 = i
  /-- A directory has one entry. -/
  once : ∀ {i j i' j' c}, 2 ≤ j → 2 ≤ j' → N.Link i j c → N.Link i' j' c → N.kind c = some .dir → i = i' ∧ j = j'
  /-- Everything hangs below the root. -/
  below : ∀ {i k}, N.kind i = some k → N.Below i
  /-- The link counts of files. -/
  links : ∀ {f}, N.kind f = some .file → (N.nlink f).toNat = (N.refs f).card

theorem used_of_str {e : Dentry} (h : e.str ≠ []) : e.used = true := by
  cases hu : e.used with
  | true => rfl
  | false => exact absurd ((Dentry.used_eq_false_iff e).mp hu) h

namespace Inv

variable (h : N.Inv)

include h

theorem link_dot (hi : N.kind i = some .dir) : N.Link i 0 i :=
  ⟨hi, used_of_str (by rw [(h.dot hi).1]; simp), (h.dot hi).2⟩

theorem link_dotdot (hi : N.kind i = some .dir) : N.Link i 1 (N.child i 1) :=
  ⟨hi, used_of_str (by rw [h.dotdot hi]; simp), rfl⟩

theorem mem_refs : (i, j) ∈ N.refs f ↔ N.Link i j f := by
  rw [mem_refs_iff]
  constructor
  · rintro ⟨-, hl⟩
    exact hl
  · intro hl
    have hi := h.lt hl.1
    have hj := h.short hl
    refine ⟨⟨hi, ?_⟩, hl⟩
    show j < 128
    omega

/-- A directory other than the root has a parent. -/
theorem exists_ref {k : Kind} (hi : N.kind i = some k) (h0 : i ≠ 0) : ∃ p j, 2 ≤ j ∧ N.Link p j i := by
  cases h.below hi with
  | root => exact absurd rfl h0
  | step _ hj hl => exact ⟨_, _, hj, hl⟩

/-- `..` names a directory. -/
theorem kind_dotdot (hi : N.kind i = some .dir) : N.kind (N.child i 1) = some .dir := by
  by_cases h0 : i = 0
  · rw [h0, h.rootdots, h.root]
  · obtain ⟨p, j, hj, hl⟩ := h.exists_ref hi h0
    rw [h.parent hj hl hi]
    exact hl.1

/-- Every used entry names an inode in use. -/
theorem kind_of_link (hl : N.Link i j c) : ∃ k, N.kind c = some k := by
  obtain hj | rfl | rfl : 2 ≤ j ∨ j = 0 ∨ j = 1 := by omega
  · exact (h.entry hj hl).2.imp fun _ hk => hk.1
  · rw [← hl.2.2, (h.dot hl.1).2]
    exact ⟨_, hl.1⟩
  · rw [← hl.2.2]
    exact ⟨_, h.kind_dotdot hl.1⟩

/-- `.` and `..` name directories, so what names a file is another entry. -/
theorem two_le (hl : N.Link i j f) (hf : N.kind f = some .file) : 2 ≤ j := by
  by_contra hj
  obtain rfl | rfl : j = 0 ∨ j = 1 := by omega
  · rw [← hl.2.2, (h.dot hl.1).2, hl.1] at hf
    cases hf
  · rw [← hl.2.2, h.kind_dotdot hl.1] at hf
    cases hf

/-- A file has a name. -/
theorem refs_nonempty (hf : N.kind f = some .file) : (N.refs f).Nonempty := by
  have h0 : f ≠ 0 := by
    rintro rfl
    rw [h.root] at hf
    cases hf
  obtain ⟨p, j, -, hl⟩ := h.exists_ref hf h0
  exact ⟨(p, j), h.mem_refs.mpr hl⟩

/-- There are fewer entries than a link count can hold. -/
theorem refs_card_le (hf : N.kind f = some .file) : (N.refs f).card ≤ NUM_INODES * 14 := by
  have hsub : N.refs f ⊆ Finset.range NUM_INODES ×ˢ Finset.Ico 2 16 := by
    rintro ⟨p, j⟩ hp
    have hl := h.mem_refs.mp hp
    simp only [Finset.mem_product, Finset.mem_range, Finset.mem_Ico]
    exact ⟨h.lt hl.1, h.two_le hl hf, h.short hl⟩
  calc (N.refs f).card ≤ (Finset.range NUM_INODES ×ˢ Finset.Ico 2 16).card := Finset.card_le_card hsub
    _ = NUM_INODES * 14 := by rw [Finset.card_product, Finset.card_range, Nat.card_Ico]

/-- No directory is its own child. -/
theorem ne_child (hj : 2 ≤ j) (hl : N.Link i j c) (hc : N.kind c = some .dir) : i ≠ c := by
  rintro rfl
  -- Nothing below the root could be this directory: its only entry is its own.
  have : ∀ x, N.Below x → x ≠ i := by
    intro x hx
    induction hx with
    | root =>
      intro h0
      exact (h.entry hj hl).1 h0.symm
    | step hb hj' hl' ih =>
      rintro rfl
      exact ih (h.once hj' hj hl' hl hc).1
  exact this i (h.below hc) rfl

end Inv

/-! ### A file gets a name -/

/-- Entry `e` for file `f`, new or old, is put into the free slot `j` of directory `w`. -/
structure Enter (N N' : Names) (w j : ℕ) (e : Dentry) (f : ℕ) : Prop where
  dir : N.kind w = some .dir
  two_le : 2 ≤ j
  lt : j < 16
  free : (N.dent w j).used = false
  used : e.used = true
  ino : e.ino.toNat = f
  type : e.type = IT_FILE
  file : N.kind f = none ∨ N.kind f = some .file
  file_lt : f < NUM_INODES
  kind : ∀ x, N'.kind x = if x = f then some .file else N.kind x
  dent : ∀ x y, N.kind x = some .dir → N'.dent x y = if x = w ∧ y = j then e else N.dent x y
  count : (N'.nlink f).toNat = (N.refs f).card + 1
  nlink : ∀ x, x ≠ f → N.kind x = some .file → N'.nlink x = N.nlink x

namespace Enter

variable (s : Enter N N' w j e f)

include s

theorem kind_dir (x : ℕ) : N'.kind x = some .dir ↔ N.kind x = some .dir := by
  rw [s.kind]
  split
  · next hx =>
    subst hx
    obtain hf | hf := s.file <;> simp [hf]
  · rfl

theorem link_iff (a b c : ℕ) : N'.Link a b c ↔ (a = w ∧ b = j ∧ c = f) ∨ N.Link a b c := by
  by_cases ha : N.kind a = some .dir
  · simp only [Link, child, s.kind_dir, ha, s.dent a b ha, true_and]
    by_cases hab : a = w ∧ b = j
    · obtain ⟨rfl, rfl⟩ := hab
      simp [s.used, s.ino, s.free, eq_comm]
    · have : ¬ (a = w ∧ b = j ∧ c = f) := fun h => hab ⟨h.1, h.2.1⟩
      simp [hab, this]
  · have hw : a ≠ w := fun h => ha (h ▸ s.dir)
    simp [Link, s.kind_dir, ha, hw]

theorem inv (h : N.Inv) : N'.Inv := by
  have hf0 : f ≠ 0 := by
    rintro rfl
    obtain hf | hf := s.file <;> rw [h.root] at hf <;> cases hf
  -- The entry of a directory that was there before is the old one or the new one.
  have hkeep : ∀ x y, N.kind x = some .dir → y ≠ j → N'.dent x y = N.dent x y :=
    fun x y hx hy => by rw [s.dent x y hx, if_neg fun e => hy e.2]
  have hj := s.two_le
  have hbelow : ∀ x, N.Below x → N'.Below x := by
    intro x hx
    induction hx with
    | root => exact .root
    | step _ hj hl ih => exact .step ih hj ((s.link_iff _ _ _).mpr (Or.inr hl))
  have hshort : ∀ {a b c}, N'.Link a b c → b < 16 := by
    intro a b c hl
    obtain ⟨-, rfl, -⟩ | hl := (s.link_iff a b c).mp hl
    · exact s.lt
    · exact h.short hl
  have hlt : ∀ {i k}, N'.kind i = some k → i < NUM_INODES := by
    intro i k hi
    rw [s.kind] at hi
    split at hi
    · next hif => exact hif ▸ s.file_lt
    · exact h.lt hi
  constructor
  · exact (s.kind_dir 0).mpr h.root
  · exact hlt
  · intro i hi
    have hi := (s.kind_dir i).mp hi
    rw [child, hkeep i 0 hi (by omega)]
    exact h.dot hi
  · intro i hi
    have hi := (s.kind_dir i).mp hi
    rw [hkeep i 1 hi (by omega)]
    exact h.dotdot hi
  · rw [child, hkeep 0 1 h.root (by omega)]
    exact h.rootdots
  · exact hshort
  · intro i y hi hu
    have hi := (s.kind_dir i).mp hi
    rw [s.dent i y hi] at hu ⊢
    split
    · next hp => rw [if_pos hp, s.used] at hu; cases hu
    · next hp =>
      rw [if_neg hp] at hu
      exact h.vacant hi hu
  · intro a b c hb hl
    obtain ⟨rfl, rfl, rfl⟩ | hl := (s.link_iff a b c).mp hl
    · refine ⟨hf0, .file, by rw [s.kind, if_pos rfl], ?_⟩
      rw [s.dent a b s.dir, if_pos ⟨rfl, rfl⟩, s.type]
      rfl
    · obtain ⟨hc0, k, hk, ht⟩ := h.entry hb hl
      have hab : ¬ (a = w ∧ b = j) := by
        rintro ⟨rfl, rfl⟩
        have := hl.2.1
        rw [s.free] at this
        cases this
      refine ⟨hc0, k, ?_, by rw [s.dent a b hl.1, if_neg hab, ht]⟩
      rw [s.kind]
      split
      · next hcf =>
        subst hcf
        obtain hf | hf := s.file <;> rw [hf] at hk
        · cases hk
        · exact hk
      · exact hk
  · intro a b c hb hl hc
    have hc := (s.kind_dir c).mp hc
    rw [child, hkeep c 1 hc (by omega)]
    obtain ⟨-, -, rfl⟩ | hl := (s.link_iff a b c).mp hl
    · obtain hf | hf := s.file <;> rw [hf] at hc <;> cases hc
    · exact h.parent hb hl hc
  · intro a b a' b' c hb hb' hl hl' hc
    have hc := (s.kind_dir c).mp hc
    have hcf : c ≠ f := by
      rintro rfl
      obtain hf | hf := s.file <;> rw [hf] at hc <;> cases hc
    obtain ⟨-, -, e⟩ | hl := (s.link_iff a b c).mp hl
    · exact absurd e hcf
    · obtain ⟨-, -, e⟩ | hl' := (s.link_iff a' b' c).mp hl'
      · exact absurd e hcf
      · exact h.once hb hb' hl hl' hc
  · intro i k hi
    rw [s.kind] at hi
    split at hi
    · next hif =>
      subst hif
      exact .step (hbelow w (h.below s.dir)) s.two_le ((s.link_iff _ _ _).mpr (Or.inl ⟨rfl, rfl, rfl⟩))
    · exact hbelow i (h.below hi)
  · intro g hg
    have hmem : ∀ a b, (a, b) ∈ N'.refs g ↔ (a = w ∧ b = j ∧ g = f) ∨ (a, b) ∈ N.refs g := by
      intro a b
      rw [mem_refs_iff, mem_refs_iff, s.link_iff]
      constructor
      · rintro ⟨hlt, hp | hl⟩
        · exact Or.inl hp
        · exact Or.inr ⟨hlt, hl⟩
      · rintro (⟨rfl, rfl, rfl⟩ | ⟨hlt, hl⟩)
        · have hj := s.lt
          exact ⟨⟨h.lt s.dir, by show b < 128; omega⟩, Or.inl ⟨rfl, rfl, rfl⟩⟩
        · exact ⟨hlt, Or.inr hl⟩
    by_cases hgf : g = f
    · subst hgf
      have hnew : (w, j) ∉ N.refs g := by
        rw [mem_refs_iff]
        rintro ⟨-, -, hu, -⟩
        rw [s.free] at hu
        cases hu
      have hins : N'.refs g = insert (w, j) (N.refs g) := by
        ext ⟨a, b⟩
        rw [hmem, Finset.mem_insert, Prod.mk.injEq]
        simp
      rw [hins, Finset.card_insert_of_notMem hnew, s.count]
    · have hsame : N'.refs g = N.refs g := by
        ext ⟨a, b⟩
        rw [hmem]
        simp [hgf]
      rw [s.kind, if_neg hgf] at hg
      rw [hsame, s.nlink g hgf hg, h.links hg]

end Enter

/-! ### A file loses a name -/

/-- Slot `j` of directory `w`, which names file `f`, is cleared to `e`; the file goes with its
last name. -/
structure Remove (N N' : Names) (w j : ℕ) (e : Dentry) (f : ℕ) : Prop where
  link : N.Link w j f
  file : N.kind f = some .file
  unused : e.used = false
  ino : e.ino = 0
  kind : ∀ x, N'.kind x = if x = f ∧ (N.refs f).card = 1 then none else N.kind x
  dent : ∀ x y, N.kind x = some .dir → N'.dent x y = if x = w ∧ y = j then e else N.dent x y
  count : (N'.nlink f).toNat = (N.refs f).card - 1
  nlink : ∀ x, x ≠ f → N.kind x = some .file → N'.nlink x = N.nlink x

namespace Remove

variable (s : Remove N N' w j e f)

include s

theorem kind_dir (x : ℕ) : N'.kind x = some .dir ↔ N.kind x = some .dir := by
  rw [s.kind]
  split
  · next hx => simp [hx.1, s.file]
  · rfl

theorem link_iff (a b c : ℕ) : N'.Link a b c ↔ ¬ (a = w ∧ b = j) ∧ N.Link a b c := by
  by_cases ha : N.kind a = some .dir
  · simp only [Link, child, s.kind_dir, ha, s.dent a b ha, true_and]
    by_cases hab : a = w ∧ b = j
    · simp [hab, s.unused]
    · simp [hab]
  · simp [Link, s.kind_dir, ha]

theorem inv (h : N.Inv) : N'.Inv := by
  have hj := h.two_le s.link s.file
  have hkeep : ∀ x y, N.kind x = some .dir → y ≠ j → N'.dent x y = N.dent x y :=
    fun x y hx hy => by rw [s.dent x y hx, if_neg fun e => hy e.2]
  have hold : ∀ {a b c}, N'.Link a b c → N.Link a b c := fun hl => ((s.link_iff _ _ _).mp hl).2
  -- What is still in use still has an entry: a file that loses its last name is gone.
  have hkind : ∀ {i k}, N'.kind i = some k → N.kind i = some k := by
    intro i k hi
    rw [s.kind] at hi
    split at hi
    · cases hi
    · exact hi
  have hmem : ∀ g a b, (a, b) ∈ N'.refs g ↔ ¬ (a = w ∧ b = j) ∧ (a, b) ∈ N.refs g := by
    intro g a b
    rw [mem_refs_iff, mem_refs_iff, s.link_iff]
    tauto
  have hbelow : ∀ x, N.Below x → N.kind x = some .dir → N'.Below x := by
    intro x hx
    induction hx with
    | root => exact fun _ => .root
    | step _ hj' hl ih =>
      intro hc
      refine .step (ih hl.1) hj' ((s.link_iff _ _ _).mpr ⟨?_, hl⟩)
      rintro ⟨rfl, rfl⟩
      have := hl.2.2.symm.trans s.link.2.2
      rw [this, s.file] at hc
      cases hc
  constructor
  · exact (s.kind_dir 0).mpr h.root
  · exact fun hi => h.lt (hkind hi)
  · intro i hi
    have hi := hkind hi
    rw [child, hkeep i 0 hi (by omega)]
    exact h.dot hi
  · intro i hi
    have hi := hkind hi
    rw [hkeep i 1 hi (by omega)]
    exact h.dotdot hi
  · rw [child, hkeep 0 1 h.root (by omega)]
    exact h.rootdots
  · exact fun hl => h.short (hold hl)
  · intro i y hi hu
    have hi := hkind hi
    rw [s.dent i y hi] at hu ⊢
    split
    · exact s.ino
    · next hp =>
      rw [if_neg hp] at hu
      exact h.vacant hi hu
  · intro a b c hb hl
    obtain ⟨hab, hl'⟩ := (s.link_iff a b c).mp hl
    obtain ⟨hc0, k, hk, ht⟩ := h.entry hb hl'
    refine ⟨hc0, k, ?_, by rw [s.dent a b hl'.1, if_neg hab, ht]⟩
    rw [s.kind, if_neg, hk]
    rintro ⟨rfl, hcard⟩
    -- Two entries of one file, and only one reference.
    obtain ⟨p, hp⟩ := Finset.card_eq_one.mp hcard
    have h1 := h.mem_refs.mpr hl'
    have h2 := h.mem_refs.mpr s.link
    rw [hp, Finset.mem_singleton] at h1 h2
    have := h1.trans h2.symm
    exact hab ⟨congrArg Prod.fst this, congrArg Prod.snd this⟩
  · intro a b c hb hl hc
    have hc := hkind hc
    rw [child, hkeep c 1 hc (by omega)]
    exact h.parent hb (hold hl) hc
  · exact fun hb hb' hl hl' hc => h.once hb hb' (hold hl) (hold hl') (hkind hc)
  · intro i k hi
    cases k with
    | dir => exact hbelow i (h.below (hkind hi)) (hkind hi)
    | file =>
      have hi' := hkind hi
      obtain ⟨⟨p, y⟩, hp, hpw⟩ : ∃ p ∈ N.refs i, p ≠ (w, j) := by
        by_contra hno
        push Not at hno
        have hsub : N.refs i ⊆ {(w, j)} := fun p hp => Finset.mem_singleton.mpr (hno p hp)
        obtain ⟨q, hq⟩ := h.refs_nonempty hi'
        have hwi : N.Link w j i := h.mem_refs.mp (hno q hq ▸ hq)
        have hif : i = f := hwi.2.2.symm.trans s.link.2.2
        have hone : (N.refs i).card = 1 :=
          Nat.le_antisymm (Finset.card_le_card hsub) (Finset.card_pos.mpr ⟨q, hq⟩)
        rw [s.kind, if_pos ⟨hif, hif ▸ hone⟩] at hi
        cases hi
      have hl := h.mem_refs.mp hp
      refine .step (hbelow p (h.below hl.1) hl.1) (h.two_le hl hi') ((s.link_iff _ _ _).mpr ⟨?_, hl⟩)
      rintro ⟨rfl, rfl⟩
      exact hpw rfl
  · intro g hg
    have hg' := hkind hg
    by_cases hgf : g = f
    · subst hgf
      have her : N'.refs g = (N.refs g).erase (w, j) := by
        ext ⟨a, b⟩
        rw [hmem, Finset.mem_erase, Ne, Prod.mk.injEq]
      rw [her, Finset.card_erase_of_mem (h.mem_refs.mpr s.link), s.count]
    · have hsame : N'.refs g = N.refs g := by
        ext ⟨a, b⟩
        rw [hmem, h.mem_refs]
        refine ⟨fun hp => hp.2, fun hl => ⟨?_, hl⟩⟩
        rintro ⟨rfl, rfl⟩
        exact hgf (hl.2.2.symm.trans s.link.2.2)
      rw [hsame, s.nlink g hgf hg', h.links hg']

end Remove

/-! ### A directory is made -/

/-- The new directory `i` gets entry `e` in the free slot `j` of directory `w`, and its own
entries `.` and `..`. -/
structure MakeDir (N N' : Names) (w j : ℕ) (e : Dentry) (i : ℕ) : Prop where
  dir : N.kind w = some .dir
  two_le : 2 ≤ j
  lt : j < 16
  free : (N.dent w j).used = false
  used : e.used = true
  ino : e.ino.toNat = i
  type : e.type = IT_DIR
  new : N.kind i = none
  new_lt : i < NUM_INODES
  kind : ∀ x, N'.kind x = if x = i then some .dir else N.kind x
  dent : ∀ x y, N.kind x = some .dir → N'.dent x y = if x = w ∧ y = j then e else N.dent x y
  dot : (N'.dent i 0).str = [46] ∧ N'.child i 0 = i
  dotdot : (N'.dent i 1).str = [46, 46] ∧ N'.child i 1 = w
  empty : ∀ y, 2 ≤ y → (N'.dent i y).used = false ∧ (N'.dent i y).ino = 0
  nlink : ∀ x, N.kind x = some .file → N'.nlink x = N.nlink x

namespace MakeDir

variable (s : MakeDir N N' w j e i)

include s

theorem link_iff (a b c : ℕ) : N'.Link a b c ↔
    (a = w ∧ b = j ∧ c = i) ∨ (a = i ∧ b = 0 ∧ c = i) ∨ (a = i ∧ b = 1 ∧ c = w) ∨ N.Link a b c := by
  have hwi : w ≠ i := by
    rintro rfl
    have := s.dir
    rw [s.new] at this
    cases this
  by_cases hai : a = i
  · subst hai
    have hdir : N'.kind a = some .dir := by rw [s.kind, if_pos rfl]
    have hno : ¬ N.Link a b c := fun hl => by
      have := hl.1
      rw [s.new] at this
      cases this
    simp only [hno, Ne.symm hwi, false_and, true_and, or_false, false_or]
    obtain rfl | rfl | hb : b = 0 ∨ b = 1 ∨ 2 ≤ b := by omega
    · have hu : (N'.dent a 0).used = true := used_of_str (by rw [s.dot.1]; simp)
      simp [Link, hdir, hu, s.dot.2, eq_comm]
    · have hu : (N'.dent a 1).used = true := used_of_str (by rw [s.dotdot.1]; simp)
      simp [Link, hdir, hu, s.dotdot.2, eq_comm]
    · have : b ≠ 0 ∧ b ≠ 1 := by omega
      simp [Link, (s.empty b hb).1, this]
  · by_cases ha : N.kind a = some .dir
    · simp only [Link, child, s.kind, if_neg hai, ha, s.dent a b ha, true_and]
      by_cases hab : a = w ∧ b = j
      · obtain ⟨rfl, rfl⟩ := hab
        simp [s.used, s.ino, s.free, hai, eq_comm]
      · have : ¬ (a = w ∧ b = j ∧ c = i) := fun h => hab ⟨h.1, h.2.1⟩
        simp [hab, this, hai]
    · have haw : a ≠ w := fun h => ha (h ▸ s.dir)
      simp [Link, s.kind, hai, ha, haw]

theorem inv (h : N.Inv) : N'.Inv := by
  have hi0 : i ≠ 0 := by
    rintro rfl
    have := s.new
    rw [h.root] at this
    cases this
  have hj := s.two_le
  have hkeep : ∀ x y, N.kind x = some .dir → y ≠ j → N'.dent x y = N.dent x y :=
    fun x y hx hy => by rw [s.dent x y hx, if_neg fun e => hy e.2]
  have hold : ∀ {a b c}, 2 ≤ b → N'.Link a b c → (a = w ∧ b = j ∧ c = i) ∨ N.Link a b c := by
    intro a b c hb hl
    obtain hp | ⟨-, rfl, -⟩ | ⟨-, rfl, -⟩ | hl := (s.link_iff a b c).mp hl
    · exact Or.inl hp
    · omega
    · omega
    · exact Or.inr hl
  have hnoref : ∀ {a b}, ¬ N.Link a b i := by
    intro a b hl
    obtain ⟨k, hk⟩ := h.kind_of_link hl
    rw [s.new] at hk
    cases hk
  have hkind : ∀ {x k}, x ≠ i → N'.kind x = some k → N.kind x = some k := by
    intro x k hx hk
    rwa [s.kind, if_neg hx] at hk
  have hkind' : ∀ {x k}, N.kind x = some k → N'.kind x = some k := by
    intro x k hk
    rw [s.kind, if_neg, hk]
    rintro rfl
    rw [s.new] at hk
    cases hk
  have hbelow : ∀ x, N.Below x → N'.Below x := by
    intro x hx
    induction hx with
    | root => exact .root
    | step _ hj hl ih => exact .step ih hj ((s.link_iff _ _ _).mpr (Or.inr (Or.inr (Or.inr hl))))
  constructor
  · exact hkind' h.root
  · intro x k hx
    by_cases hxi : x = i
    · exact hxi ▸ s.new_lt
    · exact h.lt (hkind hxi hx)
  · intro x hx
    by_cases hxi : x = i
    · subst hxi
      exact s.dot
    · have hx := hkind hxi hx
      rw [child, hkeep x 0 hx (by omega)]
      exact h.dot hx
  · intro x hx
    by_cases hxi : x = i
    · subst hxi
      exact s.dotdot.1
    · have hx := hkind hxi hx
      rw [hkeep x 1 hx (by omega)]
      exact h.dotdot hx
  · rw [child, hkeep 0 1 h.root (by omega)]
    exact h.rootdots
  · intro a b c hl
    obtain ⟨-, rfl, -⟩ | ⟨-, rfl, -⟩ | ⟨-, rfl, -⟩ | hl := (s.link_iff a b c).mp hl
    · exact s.lt
    · omega
    · omega
    · exact h.short hl
  · intro x y hx hu
    by_cases hxi : x = i
    · subst hxi
      obtain rfl | rfl | hy : y = 0 ∨ y = 1 ∨ 2 ≤ y := by omega
      · rw [used_of_str (by rw [s.dot.1]; simp)] at hu
        cases hu
      · rw [used_of_str (by rw [s.dotdot.1]; simp)] at hu
        cases hu
      · exact (s.empty y hy).2
    · have hx := hkind hxi hx
      rw [s.dent x y hx] at hu ⊢
      split
      · next hp => rw [if_pos hp, s.used] at hu; cases hu
      · next hp =>
        rw [if_neg hp] at hu
        exact h.vacant hx hu
  · intro a b c hb hl
    obtain ⟨rfl, rfl, rfl⟩ | hl := hold hb hl
    · refine ⟨hi0, .dir, by rw [s.kind, if_pos rfl], ?_⟩
      rw [s.dent a b s.dir, if_pos ⟨rfl, rfl⟩, s.type]
      rfl
    · obtain ⟨hc0, k, hk, ht⟩ := h.entry hb hl
      have hab : ¬ (a = w ∧ b = j) := by
        rintro ⟨rfl, rfl⟩
        have := hl.2.1
        rw [s.free] at this
        cases this
      exact ⟨hc0, k, hkind' hk, by rw [s.dent a b hl.1, if_neg hab, ht]⟩
  · intro a b c hb hl hc
    obtain ⟨rfl, rfl, rfl⟩ | hl := hold hb hl
    · exact s.dotdot.2
    · have hci : c ≠ i := fun e => hnoref (e ▸ hl)
      have hc := hkind hci hc
      rw [child, hkeep c 1 hc (by omega)]
      exact h.parent hb hl hc
  · intro a b a' b' c hb hb' hl hl' hc
    obtain ⟨rfl, rfl, rfl⟩ | hl := hold hb hl
    · obtain ⟨rfl, rfl, -⟩ | hl' := hold hb' hl'
      · exact ⟨rfl, rfl⟩
      · exact absurd hl' hnoref
    · obtain ⟨rfl, rfl, rfl⟩ | hl' := hold hb' hl'
      · exact absurd hl hnoref
      · exact h.once hb hb' hl hl' (hkind (fun e => hnoref (e ▸ hl)) hc)
  · intro x k hx
    by_cases hxi : x = i
    · subst hxi
      exact .step (hbelow w (h.below s.dir)) s.two_le ((s.link_iff _ _ _).mpr (Or.inl ⟨rfl, rfl, rfl⟩))
    · exact hbelow x (h.below (hkind hxi hx))
  · intro g hg
    have hgi : g ≠ i := by
      rintro rfl
      rw [s.kind, if_pos rfl] at hg
      cases hg
    have hg' := hkind hgi hg
    have hgw : g ≠ w := by
      rintro rfl
      rw [s.dir] at hg'
      cases hg'
    have hsame : N'.refs g = N.refs g := by
      ext ⟨a, b⟩
      rw [mem_refs_iff, mem_refs_iff, s.link_iff]
      simp [hgi, hgw]
    rw [hsame, s.nlink g hg', h.links hg']

end MakeDir

/-! ### An empty directory is removed -/

/-- Slot `j` of directory `w`, which names the empty directory `d`, is cleared to `e`. -/
structure RemoveDir (N N' : Names) (w j : ℕ) (e : Dentry) (d : ℕ) : Prop where
  link : N.Link w j d
  two_le : 2 ≤ j
  dir : N.kind d = some .dir
  empty : ∀ y, 2 ≤ y → (N.dent d y).used = false
  unused : e.used = false
  ino : e.ino = 0
  kind : ∀ x, N'.kind x = if x = d then none else N.kind x
  dent : ∀ x y, N.kind x = some .dir → x ≠ d → N'.dent x y = if x = w ∧ y = j then e else N.dent x y
  nlink : ∀ x, N.kind x = some .file → N'.nlink x = N.nlink x

namespace RemoveDir

variable {d : ℕ} (s : RemoveDir N N' w j e d)

include s

theorem link_iff (a b c : ℕ) : N'.Link a b c ↔ a ≠ d ∧ ¬ (a = w ∧ b = j) ∧ N.Link a b c := by
  by_cases had : a = d
  · simp [Link, s.kind, had]
  · by_cases ha : N.kind a = some .dir
    · simp only [Link, child, s.kind, if_neg had, ha, s.dent a b ha had, true_and]
      by_cases hab : a = w ∧ b = j
      · simp [hab, s.unused]
      · simp [hab, had]
    · simp [Link, s.kind, had, ha]

theorem inv (h : N.Inv) : N'.Inv := by
  have hd0 : d ≠ 0 := (h.entry s.two_le s.link).1
  have hwd : w ≠ d := h.ne_child s.two_le s.link s.dir
  have hj := s.two_le
  have hkeep : ∀ x y, N.kind x = some .dir → x ≠ d → y ≠ j → N'.dent x y = N.dent x y :=
    fun x y hx hxd hy => by rw [s.dent x y hx hxd, if_neg fun e => hy e.2]
  have hold : ∀ {a b c}, N'.Link a b c → N.Link a b c := fun hl => ((s.link_iff _ _ _).mp hl).2.2
  have hkind : ∀ {i k}, N'.kind i = some k → i ≠ d ∧ N.kind i = some k := by
    intro i k hi
    rw [s.kind] at hi
    split at hi
    · cases hi
    · next hid => exact ⟨hid, hi⟩
  -- The removed directory has no children, so no path goes through it.
  have hbelow : ∀ x, N.Below x → x ≠ d → N'.Below x := by
    intro x hx
    induction hx with
    | root => exact fun _ => .root
    | @step a b c _ hb hl ih =>
      intro hcd
      have had : a ≠ d := by
        rintro rfl
        have := hl.2.1
        rw [s.empty b hb] at this
        cases this
      refine .step (ih had) hb ((s.link_iff _ _ _).mpr ⟨had, ?_, hl⟩)
      rintro ⟨rfl, rfl⟩
      exact hcd (hl.2.2.symm.trans s.link.2.2)
  constructor
  · rw [s.kind, if_neg (Ne.symm hd0)]
    exact h.root
  · exact fun hi => h.lt (hkind hi).2
  · intro i hi
    obtain ⟨hid, hi⟩ := hkind hi
    rw [child, hkeep i 0 hi hid (by omega)]
    exact h.dot hi
  · intro i hi
    obtain ⟨hid, hi⟩ := hkind hi
    rw [hkeep i 1 hi hid (by omega)]
    exact h.dotdot hi
  · rw [child, hkeep 0 1 h.root (Ne.symm hd0) (by omega)]
    exact h.rootdots
  · exact fun hl => h.short (hold hl)
  · intro i y hi hu
    obtain ⟨hid, hi⟩ := hkind hi
    rw [s.dent i y hi hid] at hu ⊢
    split
    · exact s.ino
    · next hp =>
      rw [if_neg hp] at hu
      exact h.vacant hi hu
  · intro a b c hb hl
    obtain ⟨had, hab, hl'⟩ := (s.link_iff a b c).mp hl
    obtain ⟨hc0, k, hk, ht⟩ := h.entry hb hl'
    refine ⟨hc0, k, ?_, by rw [s.dent a b hl'.1 had, if_neg hab, ht]⟩
    rw [s.kind, if_neg, hk]
    rintro rfl
    exact hab (h.once hb s.two_le hl' s.link s.dir)
  · intro a b c hb hl hc
    obtain ⟨hcd, hc⟩ := hkind hc
    rw [child, hkeep c 1 hc hcd (by omega)]
    exact h.parent hb (hold hl) hc
  · exact fun hb hb' hl hl' hc => h.once hb hb' (hold hl) (hold hl') (hkind hc).2
  · intro i k hi
    obtain ⟨hid, hi⟩ := hkind hi
    exact hbelow i (h.below hi) hid
  · intro g hg
    obtain ⟨hgd, hg⟩ := hkind hg
    have hsame : N'.refs g = N.refs g := by
      ext ⟨a, b⟩
      rw [mem_refs_iff, mem_refs_iff, s.link_iff]
      refine and_congr_right fun _ => ⟨fun hp => hp.2.2, fun hl => ⟨?_, ?_, hl⟩⟩
      · rintro rfl
        have hb := h.two_le hl hg
        have := hl.2.1
        rw [s.empty b hb] at this
        cases this
      · rintro ⟨rfl, rfl⟩
        have := hl.2.2.symm.trans s.link.2.2
        rw [this, s.dir] at hg
        cases hg
    rw [hsame, s.nlink g hg, h.links hg]

end RemoveDir

/-- Nothing that matters changes. -/
structure Same (N N' : Names) : Prop where
  kind : ∀ x, N'.kind x = N.kind x
  dent : ∀ x y, N.kind x = some .dir → N'.dent x y = N.dent x y
  nlink : ∀ x, N.kind x = some .file → N'.nlink x = N.nlink x

namespace Same

theorem refl (N : Names) : Same N N := ⟨fun _ => rfl, fun _ _ _ => rfl, fun _ _ => rfl⟩

variable (s : Same N N')

include s

theorem link_iff (a b c : ℕ) : N'.Link a b c ↔ N.Link a b c := by
  by_cases ha : N.kind a = some .dir
  · simp [Link, child, s.kind, s.dent a b ha]
  · simp [Link, s.kind, ha]

theorem inv (h : N.Inv) : N'.Inv := by
  have hbelow : ∀ x, N.Below x → N'.Below x := by
    intro x hx
    induction hx with
    | root => exact .root
    | step _ hj hl ih => exact .step ih hj ((s.link_iff _ _ _).mpr hl)
  have hrefs : ∀ g, N'.refs g = N.refs g := by
    intro g
    ext ⟨a, b⟩
    rw [mem_refs_iff, mem_refs_iff, s.link_iff]
  constructor
  · rw [s.kind]
    exact h.root
  · intro i k hi
    rw [s.kind] at hi
    exact h.lt hi
  · intro i hi
    rw [s.kind] at hi
    rw [child, s.dent i 0 hi]
    exact h.dot hi
  · intro i hi
    rw [s.kind] at hi
    rw [s.dent i 1 hi]
    exact h.dotdot hi
  · rw [child, s.dent 0 1 h.root]
    exact h.rootdots
  · exact fun hl => h.short ((s.link_iff _ _ _).mp hl)
  · intro i y hi hu
    rw [s.kind] at hi
    rw [s.dent i y hi] at hu ⊢
    exact h.vacant hi hu
  · intro a b c hb hl
    have hl := (s.link_iff _ _ _).mp hl
    rw [s.kind, s.dent a b hl.1]
    exact h.entry hb hl
  · intro a b c hb hl hc
    rw [s.kind] at hc
    rw [child, s.dent c 1 hc]
    exact h.parent hb ((s.link_iff _ _ _).mp hl) hc
  · intro a b a' b' c hb hb' hl hl' hc
    rw [s.kind] at hc
    exact h.once hb hb' ((s.link_iff _ _ _).mp hl) ((s.link_iff _ _ _).mp hl') hc
  · intro i k hi
    rw [s.kind] at hi
    exact hbelow i (h.below hi)
  · intro g hg
    rw [s.kind] at hg
    rw [hrefs, s.nlink g hg, h.links hg]

end Same

end Names

end OsLab
