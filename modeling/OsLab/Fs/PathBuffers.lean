import OsLab.Fs.Check

/-!
# The buffers of `parse_path`

The copy loops of `parse_path`, byte by byte. Every byte stored is noted with its buffer and its index, also when the
index lies outside the buffer; where `Fs.parse_path` has components, the buffers hold them (`fill_parse_path`).

Of the calls that take a path, `do_ln` splits two, the second when the first leads to a file. No caller looks
at the length of a component, so the stores stay inside exactly when all components are short (`inBounds_iff`).
-/

namespace OsLab.PathBuffers

open Lib ProgM

/-- The buffers that `parse_path` fills. -/
inductive Dir where
  | dir1
  | dir2
  | dir3
  deriving DecidableEq

/-- A byte stored: `buffer[index] = value`. -/
structure Store where
  buffer : Dir
  index : ℕ
  value : UInt8
  deriving DecidableEq

/-! ### The copy loops -/

/-- `while (path[i] != '/' && path[i] != 0) { b[j] = path[i]; i++; j++; } b[j] = 0;` with the path from
`path[i]` on: the bytes stored, and the path from the new `path[i]` on. -/
def copy (b : Dir) (j : ℕ) : List UInt8 → List Store × List UInt8
  | [] => ([⟨b, j, 0⟩], [])
  | c :: cs =>
    if c = 47 then ([⟨b, j, 0⟩], c :: cs)
    else
      let (stores, rest) := copy b (j + 1) cs
      (⟨b, j, c⟩ :: stores, rest)

/-- `parse_path`: the bytes stored. -/
def parse_path (path : List UInt8) : List Store :=
  let (stores1, rest1) := copy .dir1 0 path
  match rest1 with
  | [] => stores1 ++ [⟨.dir2, 0, 0⟩, ⟨.dir3, 0, 0⟩]
  | _ :: path2 =>
    let (stores2, rest2) := copy .dir2 0 path2
    match rest2 with
    | [] => stores1 ++ stores2 ++ [⟨.dir3, 0, 0⟩]
    | _ :: path3 => stores1 ++ stores2 ++ (copy .dir3 0 path3).1

/-- The stores of a name and its terminator from index `j` on. -/
def storesOf (b : Dir) (j : ℕ) : List UInt8 → List Store
  | [] => [⟨b, j, 0⟩]
  | c :: cs => ⟨b, j, c⟩ :: storesOf b (j + 1) cs

/-- A loop copies up to the next slash. -/
theorem copy_eq (b : Dir) (j : ℕ) (path : List UInt8) :
    copy b j path = (storesOf b j (path.takeWhile (· ≠ 47)), path.dropWhile (· ≠ 47)) := by
  induction path generalizing j with
  | nil => rfl
  | cons c cs ih =>
    rw [copy]
    split
    · simp [storesOf, *]
    · simp [storesOf, *]

/-- The components that `parse_path` looks at. -/
def names (path : List UInt8) : List (List UInt8) :=
  let (dir1, rest1) := Fs.component path
  let (dir2, rest2) := Fs.component rest1
  [dir1, dir2, (Fs.component rest2).1]

/-- `parse_path` stores the first three components, one in each buffer. -/
theorem parse_path_eq (path : List UInt8) :
    parse_path path = storesOf .dir1 0 (Fs.component path).1 ++
    storesOf .dir2 0 (Fs.component (Fs.component path).2).1 ++
      storesOf .dir3 0 (Fs.component (Fs.component (Fs.component path).2).2).1 := by
  simp only [parse_path, copy_eq, Fs.component]
  cases path.dropWhile (· ≠ 47) with
  | nil => simp [storesOf]
  | cons c path2 =>
    simp only [List.tail_cons]
    cases path2.dropWhile (· ≠ 47) with
    | nil => simp [storesOf]
    | cons c path3 => rfl

/-! ### Inside the buffers -/

/-- All stores lie inside buffers of `MAX_PATHNAME_LEN` bytes. -/
def Inside (stores : List Store) : Prop := ∀ w ∈ stores, w.index < MAX_PATHNAME_LEN

/-- The components that `parse_path` looks at have less than `MAX_PATHNAME_LEN` characters. -/
def Short (path : CString) : Prop := ∀ n ∈ names path.chars, n.length < MAX_PATHNAME_LEN

instance (path : CString) : Decidable (Short path) :=
  inferInstanceAs (Decidable (∀ n ∈ names path.chars, n.length < MAX_PATHNAME_LEN))

theorem inside_storesOf (b : Dir) (j : ℕ) (n : List UInt8) :
    Inside (storesOf b j n) ↔ j + n.length < MAX_PATHNAME_LEN := by
  induction n generalizing j with
  | nil => simp [Inside, storesOf]
  | cons c cs ih =>
    have : Inside (storesOf b j (c :: cs)) ↔ j < MAX_PATHNAME_LEN ∧
      Inside (storesOf b (j + 1) cs) := by simp [Inside, storesOf]
    rw [this, ih, List.length_cons]
    omega

theorem inside_append {l m : List Store} : Inside (l ++ m) ↔ Inside l ∧ Inside m := List.forall_mem_append

/-- `parse_path` stays inside the buffers exactly for paths with short components. -/
theorem inside_parse_path (path : CString) : Inside (parse_path path.chars) ↔ Short path := by
  simp [parse_path_eq, inside_append, inside_storesOf, Short, names]

theorem parse_path_eq_some {path : CString} {p : List UInt8 × List UInt8 × List UInt8}
    (h : Fs.parse_path path.chars = some p) :
    names path.chars = [p.1, p.2.1, p.2.2] ∧ Short path := by
  rw [Fs.parse_path] at h
  dsimp only at h
  split at h
  · next hlen =>
    obtain rfl := Option.some.inj h
    exact ⟨rfl, by simpa [Short, names] using hlen⟩
  · cases h

theorem parse_path_eq_none {path : CString} (h : ¬ Short path) : Fs.parse_path path.chars = none := by
  cases hp : Fs.parse_path path.chars with
  | none => rfl
  | some p => exact absurd (parse_path_eq_some hp).2 h

/-! ### What the buffers hold -/

/-- The buffers after some stores. -/
def fill (m : Dir → ℕ → UInt8) (stores : List Store) : Dir → ℕ → UInt8 :=
  stores.foldl (fun m w => Function.update m w.buffer (Function.update (m w.buffer) w.index w.value)) m

/-- The string in a buffer. -/
def string (m : ℕ → UInt8) : List UInt8 := (List.ofFn fun k : Fin MAX_PATHNAME_LEN => m k).takeWhile (· ≠ 0)

variable {m : Dir → ℕ → UInt8} {b b' : Dir} {n : List UInt8}

theorem fill_append (m : Dir → ℕ → UInt8) (l l' : List Store) :
    fill m (l ++ l') = fill (fill m l) l' := List.foldl_append

/-- A loop leaves the other buffers alone. -/
theorem fill_storesOf_other (hb : b' ≠ b) (j : ℕ) : fill m (storesOf b j n) b' = m b' := by
  induction n generalizing m j with
  | nil => exact Function.update_of_ne hb ..
  | cons c cs ih =>
    have : fill m (storesOf b j (c :: cs)) b' = fill (Function.update m b (Function.update (m b) j c))
      (storesOf b (j + 1) cs) b' := rfl
    rw [this, ih, Function.update_of_ne hb]

theorem fill_storesOf (m : Dir → ℕ → UInt8) (b : Dir) (j i : ℕ) (n : List UInt8) :
    fill m (storesOf b j n) b i = if i < j then m b i else ((n ++ [0])[i - j]?).getD (m b i) := by
  induction n generalizing m j with
  | nil =>
    have : fill m (storesOf b j []) b i = Function.update (m b) j 0 i := congrFun (Function.update_self ..) i
    rw [this, Function.update_apply]
    grind
  | cons c cs ih =>
    have : fill m (storesOf b j (c :: cs)) b i = fill (Function.update m b (Function.update (m b) j c))
      (storesOf b (j + 1) cs) b i := rfl
    rw [this, ih, Function.update_self, Function.update_apply]
    grind

/-- A loop leaves the name as a string, like `strcpy`. -/
theorem string_storesOf (m : Dir → ℕ → UInt8) (b : Dir) (hlen : n.length < MAX_PATHNAME_LEN) (h0 : 0 ∉ n) :
    string (fill m (storesOf b 0 n) b) = n := by
  have hcopy : string (fill m (storesOf b 0 n) b) = (Dentry.strcpy ⟨fun k => m b k, 0, 0⟩ n).str := by
    rw [string, Dentry.str, Dentry.strcpy]
    congr 2
    funext k
    rw [fill_storesOf]
    grind
  rw [hcopy, Dentry.str_strcpy _ hlen h0]

/-- **The buffers hold the components**, whatever was in them before. -/
theorem fill_parse_path {path : CString} {dir1 dir2 dir3 : List UInt8}
    (h : Fs.parse_path path.chars = some (dir1, dir2, dir3))
    (m : Dir → ℕ → UInt8) :
    let m' := fill m (parse_path path.chars)
    string (m' .dir1) = dir1 ∧ string (m' .dir2) = dir2 ∧ string (m' .dir3) = dir3 := by
  obtain ⟨hnames, hshort⟩ := parse_path_eq_some h
  simp only [names, List.cons.injEq] at hnames
  obtain ⟨rfl, rfl, rfl, -⟩ := hnames
  have hlen : ∀ n ∈ names path.chars, n.length < MAX_PATHNAME_LEN := hshort
  simp only [names, List.forall_mem_cons] at hlen
  obtain ⟨h1, h2, h3, -⟩ := hlen
  have hsub (p : List UInt8) (hp : 0 ∉ p) : 0 ∉ (Fs.component p).1 ∧ 0 ∉ (Fs.component p).2 :=
    ⟨fun hm => hp (List.takeWhile_sublist _ |>.mem hm),
      fun hm => hp ((List.dropWhile_sublist _).mem (List.mem_of_mem_tail hm))⟩
  have hz1 := hsub _ path.nonzero
  have hz2 := hsub _ hz1.2
  have hz3 := hsub _ hz2.2
  simp only [parse_path_eq, fill_append]
  refine ⟨?_, ?_, string_storesOf _ _ h3 hz3.1⟩
  · rw [fill_storesOf_other (by decide), fill_storesOf_other (by decide), string_storesOf _ _ h1 hz1.1]
  · rw [fill_storesOf_other (by decide), string_storesOf _ _ h2 hz2.1]

/-! ### The entry of a link -/

/-- `add_file_dentry` up to the block that it enters the file in: the block and the name stored there. -/
def entryOf (parent : Inode) (path : CString) : FsM (Option (UInt32 × List UInt8)) :=
  match Fs.parse_path path.chars with
  | none => stop
  | some (dir1, dir2, dir3) =>
    if dir2 = [] then pure (some (parent.blocks 0, dir1))
    else do
      match ← Fs.lookup (parent.blocks 0) dir1 with
      | none => pure none
      | some e1 =>
        if e1.type ≠ IT_DIR then pure none
        else do
          let I1 ← Fs.loadInode e1.ino
          if dir3 = [] then pure (some (I1.blocks 0, dir2))
          else do
            match ← Fs.lookup (I1.blocks 0) dir2 with
            | none => pure none
            | some e2 =>
              if e2.type ≠ IT_DIR then pure none
              else do
                let I2 ← Fs.loadInode e2.ino
                pure (some (I2.blocks 0, dir3))

/-- `do_ln` up to its call of `add_file_dentry`: the inode of the file to link. -/
def sourceOf (src_path : CString) : FsM (Option Inode) := do
  match ← Fs.findFromWd src_path with
  | none => pure none
  | some p => do
    let I ← Fs.deref p
    if I.type = IT_DIR then pure none
    else pure (some I)

variable {σ : Type} {H : Handler Io Io.Res σ} {c c' : Conf Mem σ}

theorem add_file_dentry_eq (parent : Inode) (path : CString) (ino : UInt32) :
    exec H (Fs.add_file_dentry parent path ino) c =
      exec H (do
        match ← entryOf parent path with
        | none => pure ()
        | some (blk, name) => Fs.addEntry blk name ino) c := by
  rw [Fs.add_file_dentry, entryOf, exec_bind]
  cases Fs.parse_path path.chars with
  | none => rfl
  | some p =>
    dsimp only
    split
    · rfl
    · simp only [exec_bind, Option.bind_assoc]
      congr 1
      funext ⟨e1, c1⟩
      cases e1 with
      | none => rfl
      | some e1 =>
        dsimp only
        split
        · rfl
        · simp only [exec_bind, Option.bind_assoc]
          congr 1
          funext ⟨I1, c2⟩
          split
          · rfl
          · simp only [exec_bind, Option.bind_assoc]
            congr 1
            funext ⟨e2, c3⟩
            cases e2 with
            | none => rfl
            | some e2 =>
              dsimp only
              split
              · rfl
              · simp only [exec_bind, Option.bind_assoc]
                congr 1

theorem do_ln_eq (src_path dst_path : CString) :
    exec H (Fs.do_ln src_path dst_path) c =
      exec H (do
        match ← sourceOf src_path with
        | none => pure (-1)
        | some I => do
          let wd ← Fs.wdInode
          Fs.add_file_dentry wd dst_path I.ino
          let J ← Fs.loadInode I.ino
          Fs.setInodeBuf (Fs.inodeidx2offset I.ino) { J with nlink := J.nlink + 1 }
          Fs.bwrite .inode_buffer 1 (Fs.inodeidx2sector I.ino)
          pure 0) c := by
  rw [Fs.do_ln, sourceOf, exec_bind, exec_bind, exec_bind, Option.bind_assoc]
  congr 1
  funext ⟨p, c1⟩
  cases p with
  | none => rfl
  | some p =>
    simp only [exec_bind, Option.bind_assoc]
    congr 1
    funext ⟨I, c2⟩
    split
    · rfl
    · simp only [exec_bind, exec_pure, Option.bind_some]

/-- The name entered is a component of a path with short components. -/
theorem entryOf_name {parent : Inode} {path : CString} {blk : UInt32} {name : List UInt8}
    (h : exec H (entryOf parent path) c = some (some (blk, name), c')) : Short path ∧ name ∈ names path.chars := by
  rw [entryOf] at h
  cases hp : Fs.parse_path path.chars with
  | none =>
    rw [hp] at h
    cases h
  | some p =>
    obtain ⟨hnames, hshort⟩ := parse_path_eq_some hp
    simp only [hp] at h
    refine ⟨hshort, ?_⟩
    rw [hnames]
    split at h
    · simp only [exec_pure, Option.some.injEq, Prod.mk.injEq] at h
      simp [← h.1.2]
    · simp only [exec_bind, Option.bind_eq_some_iff] at h
      obtain ⟨⟨e1, c1⟩, -, h⟩ := h
      cases e1 with
      | none => cases h
      | some e1 =>
        dsimp only at h
        split at h
        · cases h
        · simp only [exec_bind, Option.bind_eq_some_iff] at h
          obtain ⟨⟨I1, c2⟩, -, h⟩ := h
          split at h
          · simp only [exec_pure, Option.some.injEq, Prod.mk.injEq] at h
            simp [← h.1.2]
          · simp only [exec_bind, Option.bind_eq_some_iff] at h
            obtain ⟨⟨e2, c3⟩, -, h⟩ := h
            cases e2 with
            | none => cases h
            | some e2 =>
              dsimp only at h
              split at h
              · cases h
              · simp only [exec_bind, Option.bind_eq_some_iff] at h
                obtain ⟨⟨I2, c4⟩, -, h⟩ := h
                simp only [exec_pure, Option.some.injEq, Prod.mk.injEq] at h
                simp [← h.1.2]

/-! ### The calls -/

/-- The system calls that take a path apart. -/
inductive Call where
  | do_cd (path : CString)
  | do_ls (path : CString) (option : ℤ)
  | do_open (path : CString) (mode : ℤ)
  | do_rm (path : CString)
  | do_rmdir (path : CString)
  | do_cat (path : CString)
  | do_ln (src_path dst_path : CString)

/-- `find_inode` takes a path apart unless it is empty. -/
def find_inode_splits (path : CString) : List CString := if path.chars = [] then [] else [path]

namespace Call

/-- The path that a call starts with. -/
def path : Call → CString
  | do_cd path => path
  | do_ls path _ => path
  | do_open path _ => path
  | do_rm path => path
  | do_rmdir path => path
  | do_cat path => path
  | do_ln src_path _ => src_path

/-- The path that a call passes to `add_file_dentry`: that of the link, when the other path leads to a file. -/
def link (H : Handler Io Io.Res σ) (c : Conf Mem σ) : Call → Option CString
  | do_ln src_path dst_path =>
    match exec H (sourceOf src_path) c with
    | some (some _, _) => some dst_path
    | _ => none
  | _ => none

/-- The paths that a call passes to `parse_path`. -/
def splits (H : Handler Io Io.Res σ) (c : Conf Mem σ) (k : Call) : List CString :=
  find_inode_splits k.path ++ (k.link H c).toList

/-- The names that `add_file_dentry` enters in a call. -/
def entered (H : Handler Io Io.Res σ) (c : Conf Mem σ) : Call → List (List UInt8)
  | do_ln src_path dst_path =>
    match exec H (sourceOf src_path) c with
    | some (some _, c') =>
      match exec H (entryOf c'.mem.wd_inode dst_path) c' with
      | some (some (_, name), _) => [name]
      | _ => []
    | _ => []
  | _ => []

/-- `parse_path` stays inside its buffers, and the names entered fit into their entries with the terminator. -/
def InBounds (H : Handler Io Io.Res σ) (c : Conf Mem σ) (k : Call) : Prop :=
  (∀ path ∈ k.splits H c, Inside (parse_path path.chars)) ∧ ∀ name ∈ k.entered H c, name.length + 1 ≤ MAX_PATHNAME_LEN

end Call

/-- The empty path has short components. -/
theorem forall_find_inode_splits (path : CString) :
    (∀ p ∈ find_inode_splits path, Inside (parse_path p.chars)) ↔ Short path := by
  rw [find_inode_splits]
  split
  · next h =>
    have hempty : Short path := by
      rw [Short, h]
      decide
    simp [hempty]
  · simp [inside_parse_path]

/-- An entered name comes from the path of the link. -/
theorem Call.entered_short {k : Call} {name : List UInt8} (h : name ∈ k.entered H c) :
    name.length + 1 ≤ MAX_PATHNAME_LEN := by
  cases k with
  | do_ln src_path dst_path =>
    simp only [entered] at h
    split at h
    · next I c' hsrc =>
      split at h
      · next blk n c'' hentry =>
        obtain ⟨hshort, hmem⟩ := entryOf_name hentry
        obtain rfl := List.mem_singleton.mp h
        exact hshort _ hmem
      · cases h
    · cases h
  | _ => cases h

/-- **When the path buffers suffice**: every path taken apart has short components. -/
theorem inBounds_iff (H : Handler Io Io.Res σ) (c : Conf Mem σ) (k : Call) :
    k.InBounds H c ↔ Short k.path ∧ ∀ path, k.link H c = some path → Short path := by
  have hentered : ∀ name ∈ k.entered H c, name.length + 1 ≤ MAX_PATHNAME_LEN := fun _ => Call.entered_short
  rw [Call.InBounds, and_iff_left hentered, Call.splits, List.forall_mem_append, forall_find_inode_splits]
  simp [inside_parse_path]

/-- `do_cd` right after `do_mkfs`, to a name of 27 characters. -/
theorem inBounds_fails : ¬ ∀ s k, Made s → Call.InBounds cached s k := by
  intro hall
  obtain ⟨s, hs⟩ := made_start
  obtain ⟨hsplits, -⟩ := hall s (.do_cd (.ofString "abcdefghijklmnopqrstuvwxyz0")) hs
  have hout := (forall_find_inode_splits _).mp fun p hp => hsplits p (List.mem_append_left _ hp)
  revert hout
  decide

end OsLab.PathBuffers
