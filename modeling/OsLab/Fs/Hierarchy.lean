import OsLab.Fs.Resolve

/-!
# Directories that only grow

As long as nothing is removed, inodes are taken in ascending order, so the directory that `..` names is older than the
directory it stands in (`Grown.earlier`); and it lists it (`Grown.listed`). From that alone the chain of the `..` ends
at the root, and the names found on the way lead back: one step up and down again is `Grown.climb`.

A call adds one entry for one new inode (`Adds`).
-/

namespace OsLab.Names

variable {N N' : Names} {w j i c : ℕ} {e : Dentry} {name : List UInt8} {kd : Kind}

/-- The first entry of directory `i` with a name. -/
def slotOf (N : Names) (i : ℕ) (name : List UInt8) : Option ℕ :=
  (List.range NUM_DENTRIES).find? fun j => (N.dent i j).str = name

/-- The inode that a name stands for in directory `i`. -/
def look (N : Names) (i : ℕ) (name : List UInt8) : Option ℕ := (N.slotOf i name).map (N.child i)

/-- The inode that names lead to, from directory to directory. -/
def walk (N : Names) : ℕ → List (List UInt8) → Option ℕ
  | i, [] => some i
  | i, name :: names => if N.kind i = some .dir then (N.look i name).bind fun c => N.walk c names else none

/-- The first entry of directory `i` for inode `c`. -/
def slotFor (N : Names) (i c : ℕ) : Option ℕ := (List.range NUM_DENTRIES).find? fun j => N.child i j = c

/-- The directories are in order. -/
structure Grown (N : Names) : Prop where
  root : N.kind 0 = some .dir
  /-- The second entry is `..`, and names a directory. -/
  dotdot : ∀ {i}, N.kind i = some .dir → (N.dent i 1).str = [46, 46] ∧ N.kind (N.child i 1) = some .dir
  /-- That directory is older. -/
  earlier : ∀ {i}, N.kind i = some .dir → i ≠ 0 → N.child i 1 < i
  /-- It has an entry for the directory. -/
  listed : ∀ {i}, N.kind i = some .dir → i ≠ 0 → ∃ j < NUM_DENTRIES, N.child (N.child i 1) j = i
  /-- Used entries name inodes in use. -/
  entry : ∀ {i j}, N.kind i = some .dir → j < NUM_DENTRIES → (N.dent i j).used = true → ∃ k,
    N.kind (N.child i j) = some k
  /-- Unused entries name no inode. -/
  vacant : ∀ {i j}, N.kind i = some .dir → j < NUM_DENTRIES → (N.dent i j).used = false → (N.dent i j).ino = 0
  /-- The names in a directory differ. -/
  unique : ∀ {i j j'}, N.kind i = some .dir → j < NUM_DENTRIES → j' < NUM_DENTRIES → (N.dent i j).used = true →
    (N.dent i j).str = (N.dent i j').str → j = j'
  /-- The names are components of paths. -/
  component : ∀ {i j}, N.kind i = some .dir → j < NUM_DENTRIES → (N.dent i j).used = true → IsComponent (N.dent i j).str

theorem slotOf_eq_some : N.slotOf i name = some j ↔
    j < NUM_DENTRIES ∧ (N.dent i j).str = name ∧ ∀ y < j, (N.dent i y).str ≠ name := by
  rw [slotOf, List.find?_range_eq_some]
  simp [and_left_comm]

theorem slotOf_eq_none : N.slotOf i name = none ↔ ∀ y < NUM_DENTRIES, (N.dent i y).str ≠ name := by
  rw [slotOf, List.find?_eq_none]
  simp

theorem look_eq_none : N.look i name = none ↔ ∀ y < NUM_DENTRIES, (N.dent i y).str ≠ name := by
  rw [look, Option.map_eq_none_iff, slotOf_eq_none]

/-- One more step. -/
theorem walk_concat {ns : List (List UInt8)} (hw : N.walk i ns = some w)
    (hd : N.kind w = some .dir) (hl : N.look w name = some c) :
    N.walk i (ns ++ [name]) = some c := by
  induction ns generalizing i with
  | nil =>
    obtain rfl := Option.some.inj hw
    simp [walk, hd, hl]
  | cons n ns ih =>
    rw [walk] at hw
    split at hw
    · next hi =>
      obtain ⟨u, hu, hw⟩ := Option.bind_eq_some_iff.mp hw
      rw [List.cons_append, walk, if_pos hi, hu]
      exact ih hw
    · cases hw

namespace Grown

variable (h : N.Grown)

include h

/-- An entry that names an inode other than the root is used. -/
theorem used_of_child (hi : N.kind i = some .dir) (hj : j < NUM_DENTRIES) (hc : N.child i j ≠ 0) :
    (N.dent i j).used = true := by
  by_contra hu
  rw [Bool.not_eq_true] at hu
  refine hc ?_
  rw [child, h.vacant hi hj hu]
  rfl

/-- A used entry is found by its name. -/
theorem look_of_used (hi : N.kind i = some .dir) (hj : j < NUM_DENTRIES) (hu : (N.dent i j).used = true) :
    N.look i (N.dent i j).str = some (N.child i j) := by
  have hs : N.slotOf i (N.dent i j).str = some j := by
    refine slotOf_eq_some.mpr ⟨hj, rfl, fun y hy he => ?_⟩
    have := h.unique hi hj (Nat.lt_trans hy hj) hu he.symm
    omega
  rw [look, hs, Option.map_some]

/-- What is found by a name that is not empty is in use. -/
theorem kind_of_look (hi : N.kind i = some .dir) (hn : name ≠ []) (hl : N.look i name = some c) :
    ∃ k, N.kind c = some k := by
  obtain ⟨j, hj, rfl⟩ := Option.map_eq_some_iff.mp hl
  obtain ⟨hlt, hs, -⟩ := slotOf_eq_some.mp hj
  exact h.entry hi hlt (used_of_str (by rwa [hs]))

theorem look_dotdot (hi : N.kind i = some .dir) : N.look i [46, 46] = some (N.child i 1) := by
  have hs := (h.dotdot hi).1
  have := h.look_of_used hi (j := 1) (by decide) (used_of_str (by rw [hs]; simp))
  rwa [hs] at this

/-- The directory above a directory has an entry for it, and the name of the first such entry leads back. -/
theorem climb (hi : N.kind i = some .dir) (h0 : i ≠ 0) : ∃ j, N.slotFor (N.child i 1) i = some j ∧
    N.look (N.child i 1) (N.dent (N.child i 1) j).str = some i ∧ IsComponent (N.dent (N.child i 1) j).str := by
  have hp := (h.dotdot hi).2
  obtain ⟨j₀, hj₀, hc₀⟩ := h.listed hi h0
  have hsome : (N.slotFor (N.child i 1) i).isSome := by
    rw [slotFor, List.find?_isSome]
    exact ⟨j₀, List.mem_range.mpr hj₀, by simpa using hc₀⟩
  obtain ⟨j, hj⟩ := Option.isSome_iff_exists.mp hsome
  have hlt : j < NUM_DENTRIES := List.mem_range.mp (List.mem_of_find?_eq_some hj)
  have hc : N.child (N.child i 1) j = i := by simpa using List.find?_some hj
  have hu := h.used_of_child hp hlt (by rwa [hc])
  refine ⟨j, hj, ?_, h.component hp hlt hu⟩
  rw [h.look_of_used hp hlt hu, hc]

end Grown

/-- It depends on the kinds and on the entries of directories only. -/
theorem Grown.congr (h : N.Grown) (hk : N'.kind = N.kind)
    (hd : ∀ {x}, N.kind x = some .dir → N'.dent x = N.dent x) : N'.Grown := by
  have hchild : ∀ {x}, N.kind x = some .dir → N'.child x = N.child x := by
    intro x hx
    funext y
    rw [child, hd hx, child]
  constructor
  · rw [hk]
    exact h.root
  · intro x hx
    rw [hk] at hx ⊢
    rw [hd hx, hchild hx]
    exact h.dotdot hx
  · intro x hx h0
    rw [hk] at hx
    rw [hchild hx]
    exact h.earlier hx h0
  · intro x hx h0
    rw [hk] at hx
    rw [hchild hx, hchild (h.dotdot hx).2]
    exact h.listed hx h0
  · intro x y hx hy
    rw [hk] at hx ⊢
    rw [hd hx, hchild hx]
    exact h.entry hx hy
  · intro x y hx hy
    rw [hk] at hx
    rw [hd hx]
    exact h.vacant hx hy
  · intro x y y' hx hy hy'
    rw [hk] at hx
    rw [hd hx]
    exact h.unique hx hy hy'
  · intro x y hx hy
    rw [hk] at hx
    rw [hd hx]
    exact h.component hx hy

/-! ### One entry more -/

/-- Directory `i` has the entries `.` and `..`, which names `w`, and no others. -/
structure Dots (N : Names) (i w : ℕ) : Prop where
  dot : (N.dent i 0).str = [46] ∧ N.child i 0 = i
  dotdot : (N.dent i 1).str = [46, 46] ∧ N.child i 1 = w
  rest : ∀ y, 2 ≤ y → y < NUM_DENTRIES → N.dent i y = Dentry.zero

/-- A new inode `i` is entered as `e` into the free slot `j` of directory `w`. -/
structure Adds (N N' : Names) (w j : ℕ) (e : Dentry) (i : ℕ) (kd : Kind) : Prop where
  dir : N.kind w = some .dir
  lt : j < NUM_DENTRIES
  free : (N.dent w j).used = false
  fresh : ∀ y < NUM_DENTRIES, (N.dent w y).str ≠ e.str
  component : IsComponent e.str
  ino : e.ino.toNat = i
  /-- The inode is new. -/
  above : ∀ x k, N.kind x = some k → x < i
  kind : N'.kind = Function.update N.kind i (some kd)
  dent : ∀ x y, N.kind x = some .dir → y < NUM_DENTRIES → N'.dent x y = if x = w ∧ y = j then e else N.dent x y
  dots : kd = .dir → N'.Dots i w

/-- The entries of a new directory. -/
theorem Dots.cases (hb : N.Dots i w) (hj : j < NUM_DENTRIES) : (j = 0 ∧ (N.dent i j).str = [46] ∧ N.child i j = i) ∨
    (j = 1 ∧ (N.dent i j).str = [46, 46] ∧ N.child i j = w) ∨
    (N.dent i j).used = false ∧ (N.dent i j).str = [] ∧ (N.dent i j).ino = 0 := by
  obtain rfl | rfl | h2 : j = 0 ∨ j = 1 ∨ 2 ≤ j := by omega
  · exact Or.inl ⟨rfl, hb.dot⟩
  · exact Or.inr (Or.inl ⟨rfl, hb.dotdot⟩)
  · rw [hb.rest j h2 hj]
    exact Or.inr (Or.inr ⟨by decide, by decide, rfl⟩)

theorem Dots.unique {j' : ℕ} (hb : N.Dots i w) (hj : j < NUM_DENTRIES)
    (hj' : j' < NUM_DENTRIES) (hu : (N.dent i j).used = true)
    (hs : (N.dent i j).str = (N.dent i j').str) : j = j' := by
  obtain ⟨h0, hs₁, -⟩ | ⟨h1, hs₁, -⟩ | ⟨hf, -⟩ := hb.cases hj
  · obtain ⟨h0', -⟩ | ⟨-, hs₂, -⟩ | ⟨-, hs₂, -⟩ := hb.cases hj'
    · rw [h0, h0']
    · simp [hs₁, hs₂] at hs
    · simp [hs₁, hs₂] at hs
  · obtain ⟨-, hs₂, -⟩ | ⟨h1', -⟩ | ⟨-, hs₂, -⟩ := hb.cases hj'
    · simp [hs₁, hs₂] at hs
    · rw [h1, h1']
    · simp [hs₁, hs₂] at hs
  · rw [hf] at hu
    cases hu

theorem Dots.component (hb : N.Dots i w) (hj : j < NUM_DENTRIES) (hu : (N.dent i j).used = true) :
    IsComponent (N.dent i j).str := by
  unfold IsComponent
  obtain ⟨-, hs, -⟩ | ⟨-, hs, -⟩ | ⟨hf, -⟩ := hb.cases hj
  · rw [hs]
    decide
  · rw [hs]
    decide
  · rw [hf] at hu
    cases hu

theorem Dots.vacant (hb : N.Dots i w) (hj : j < NUM_DENTRIES) (hu : (N.dent i j).used = false) :
    (N.dent i j).ino = 0 := by
  obtain ⟨-, hs, -⟩ | ⟨-, hs, -⟩ | ⟨-, -, hc⟩ := hb.cases hj
  · rw [Dentry.used_eq_false_iff, hs] at hu
    cases hu
  · rw [Dentry.used_eq_false_iff, hs] at hu
    cases hu
  · exact hc

/-- What an entry of a new directory names. -/
theorem Dots.child (hb : N.Dots i w) (hj : j < NUM_DENTRIES) (hu : (N.dent i j).used = true) :
    N.child i j = i ∨ N.child i j = w := by
  obtain ⟨-, -, hc⟩ | ⟨-, -, hc⟩ | ⟨hf, -⟩ := hb.cases hj
  · exact Or.inl hc
  · exact Or.inr hc
  · rw [hf] at hu
    cases hu

theorem Adds.grown (s : Adds N N' w j e i kd) (h : N.Grown) : N'.Grown := by
  have hused : e.used = true := used_of_str s.component.1
  have hwi : w < i := s.above w _ s.dir
  have hj1 : j ≠ 1 := by
    rintro rfl
    have := used_of_str (e := N.dent w 1) (by rw [(h.dotdot s.dir).1]; simp)
    rw [s.free] at this
    cases this
  -- Inodes that were in use still are, as what they were.
  have hkeep : ∀ {x k}, N.kind x = some k → N'.kind x = some k := by
    intro x k hx
    rw [s.kind, Function.update_of_ne (s.above x k hx).ne, hx]
  have hkind_w : N'.kind w = some .dir := hkeep s.dir
  have hkind_i : N'.kind i = some kd := by rw [s.kind, Function.update_self]
  -- A directory is one of those before, or the new one.
  have hdir : ∀ {x}, N'.kind x = some .dir → N.kind x = some .dir ∨ x = i ∧ N'.Dots i w := by
    intro x hx
    by_cases hxi : x = i
    · subst hxi
      refine Or.inr ⟨rfl, s.dots ?_⟩
      rw [hkind_i] at hx
      exact Option.some.inj hx
    · rw [s.kind, Function.update_of_ne hxi] at hx
      exact Or.inl hx
  -- An entry of an old directory is the new entry, or as before.
  have hdent : ∀ {x y}, N.kind x = some .dir → y < NUM_DENTRIES →
      (x = w ∧ y = j ∧ N'.dent x y = e) ∨ ¬ (x = w ∧ y = j) ∧ N'.dent x y = N.dent x y := by
    intro x y hx hy
    rw [s.dent x y hx hy]
    by_cases hxy : x = w ∧ y = j
    · exact Or.inl ⟨hxy.1, hxy.2, if_pos hxy⟩
    · exact Or.inr ⟨hxy, if_neg hxy⟩
  have hdent_new : N'.dent w j = e := by rw [s.dent w j s.dir s.lt, if_pos ⟨rfl, rfl⟩]
  have hup : ∀ {x}, N.kind x = some .dir → N'.dent x 1 = N.dent x 1 := by
    intro x hx
    rw [s.dent x 1 hx (by decide), if_neg fun hxy => hj1 hxy.2.symm]
  have hchild_up : ∀ {x}, N.kind x = some .dir → N'.child x 1 = N.child x 1 := fun hx => by rw [child, hup hx, child]
  constructor
  · exact hkeep h.root
  · intro x hx
    obtain hx | ⟨rfl, hb⟩ := hdir hx
    · rw [hchild_up hx, hup hx]
      exact ⟨(h.dotdot hx).1, hkeep (h.dotdot hx).2⟩
    · rw [hb.dotdot.2]
      exact ⟨hb.dotdot.1, hkind_w⟩
  · intro x hx h0
    obtain hx | ⟨rfl, hb⟩ := hdir hx
    · rw [hchild_up hx]
      exact h.earlier hx h0
    · rw [hb.dotdot.2]
      exact hwi
  · intro x hx h0
    obtain hx | ⟨rfl, hb⟩ := hdir hx
    · obtain ⟨y, hy, hc⟩ := h.listed hx h0
      refine ⟨y, hy, ?_⟩
      have hp := (h.dotdot hx).2
      rw [hchild_up hx, child, s.dent _ y hp hy, if_neg]
      · exact hc
      · -- The entry is in use, and slot `j` was free.
        rintro ⟨hpw, rfl⟩
        have := h.used_of_child hp hy (by rwa [hc])
        rw [hpw, s.free] at this
        cases this
    · refine ⟨j, s.lt, ?_⟩
      rw [hb.dotdot.2, child, hdent_new, s.ino]
  · intro x y hx hy hu
    obtain hx | ⟨rfl, hb⟩ := hdir hx
    · obtain ⟨-, -, he⟩ | ⟨-, he⟩ := hdent hx hy
      · rw [child, he, s.ino]
        exact ⟨kd, hkind_i⟩
      · rw [he] at hu
        rw [child, he]
        exact (h.entry hx hy hu).imp fun _ hk => hkeep hk
    · obtain hc | hc := hb.child hy hu
      · exact ⟨kd, by rw [hc, hkind_i]⟩
      · exact ⟨.dir, by rw [hc, hkind_w]⟩
  · intro x y hx hy hu
    obtain hx | ⟨rfl, hb⟩ := hdir hx
    · obtain ⟨-, -, he⟩ | ⟨-, he⟩ := hdent hx hy
      · rw [he, hused] at hu
        cases hu
      · rw [he] at hu ⊢
        exact h.vacant hx hy hu
    · exact hb.vacant hy hu
  · intro x y y' hx hy hy' hu hs
    obtain hx | ⟨rfl, hb⟩ := hdir hx
    · obtain ⟨hxw, hyj, he⟩ | ⟨-, he⟩ := hdent hx hy <;> obtain ⟨hxw', hyj', he'⟩ | ⟨-, he'⟩ := hdent hx hy'
      · rw [hyj, hyj']
      · rw [he, he', hxw] at hs
        exact absurd hs.symm (s.fresh y' hy')
      · rw [he, he', hxw'] at hs
        exact absurd hs (s.fresh y hy)
      · rw [he] at hu hs
        rw [he'] at hs
        exact h.unique hx hy hy' hu hs
    · exact hb.unique hy hy' hu hs
  · intro x y hx hy hu
    obtain hx | ⟨rfl, hb⟩ := hdir hx
    · obtain ⟨-, -, he⟩ | ⟨-, he⟩ := hdent hx hy
      · rw [he]
        exact s.component
      · rw [he] at hu ⊢
        exact h.component hx hy hu
    · exact hb.component hy hu

end OsLab.Names
