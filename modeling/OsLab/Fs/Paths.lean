import OsLab.Fs.Invariant

/-!
# Paths

What `find_inode` finds. `Vol.find` follows up to three components of a path through the
entries of directories, as the code does; when every component before the last names a
directory (`PathOk`), `find_inode` finds exactly that inode and leaves its sector in
`inode_buffer`.

A component that is empty matches the first unused entry. Unused entries name inode 0, so it
stands for the root.
-/

namespace OsLab

open Lib ProgM Bytes

namespace Vol

/-- The first entry of block `b` with a name. -/
def look (V : Vol) (b : ℕ) (name : List UInt8) : Option Dentry :=
  ((List.range NUM_DENTRIES).find? fun j => (V.entry b j).str = name).map (V.entry b)

/-- The inode a name stands for in directory `i`. -/
def step (V : Vol) (i : ℕ) (name : List UInt8) : Option ℕ := (V.look (V.dirBlock i) name).map fun e => e.ino.toNat

/-- The inode a path stands for. -/
def find (V : Vol) (path : CString) : Option ℕ :=
  if path.chars = [] then some V.cwd
  else (Fs.parse_path path.chars).bind fun p =>
    (V.step V.cwd p.1).bind fun i₁ =>
      if p.2.1 = [] then some i₁
      else (V.step i₁ p.2.1).bind fun i₂ => if p.2.2 = [] then some i₂ else V.step i₂ p.2.2

/-- The components of a path fit their buffers, and those before the last are directories. -/
def PathOk (V : Vol) (path : CString) : Prop :=
  path.chars = [] ∨ ∃ p, Fs.parse_path path.chars = some p ∧
    (p.2.1 ≠ [] → ∀ i₁, V.step V.cwd p.1 = some i₁ →
      V.IsDir i₁ ∧ (p.2.2 ≠ [] → ∀ i₂, V.step i₁ p.2.1 = some i₂ → V.IsDir i₂))

/-- The names that a path goes through, as `parse_path` splits it. -/
def components (path : CString) : Option (List (List UInt8)) :=
  if path.chars = [] then some []
  else (Fs.parse_path path.chars).map fun p =>
    p.1 :: if p.2.1 = [] then [] else p.2.1 :: if p.2.2 = [] then [] else [p.2.2]

/-- The inode that names lead to, from directory to directory. -/
def walk (V : Vol) : ℕ → List (List UInt8) → Option ℕ
  | i, [] => some i
  | i, name :: names => if V.IsDir i then (V.step i name).bind fun c => V.walk c names else none

variable {V : Vol} {i : ℕ} {name : List UInt8}

theorem walk_append (ns ms : List (List UInt8)) : V.walk i (ns ++ ms) = (V.walk i ns).bind fun c => V.walk c ms := by
  induction ns generalizing i with
  | nil => rfl
  | cons n ns ih =>
    simp only [List.cons_append, walk, ih]
    split
    · cases V.step i n <;> rfl
    · rfl

/-- The last step of a walk. -/
theorem walk_concat {ns : List (List UInt8)} {c : ℕ} :
    V.walk i (ns ++ [name]) = some c ↔ ∃ u, V.walk i ns = some u ∧ V.IsDir u ∧ V.step u name = some c := by
  rw [walk_append, Option.bind_eq_some_iff]
  simp only [walk]
  constructor
  · rintro ⟨u, hu, hc⟩
    split at hc
    · next hd => exact ⟨u, hu, hd, by simpa using hc⟩
    · cases hc
  · rintro ⟨u, hu, hd, hc⟩
    exact ⟨u, hu, by simp [hd, hc]⟩

/-- A path whose names lead from directory to directory is followed by the code. -/
theorem find_of_walk {path : CString} {ns : List (List UInt8)} (hns : components path = some ns)
    (hw : V.walk V.cwd ns = some i) : V.PathOk path ∧ V.find path = some i := by
  rw [components] at hns
  split at hns
  · next hnil =>
    obtain rfl := Option.some.inj hns
    exact ⟨Or.inl hnil, by rw [find, if_pos hnil]; exact hw⟩
  next hnil =>
  obtain ⟨⟨dir1, dir2, dir3⟩, hparse, rfl⟩ := Option.map_eq_some_iff.mp hns
  simp only [find, PathOk, hnil, hparse, Option.bind_some, false_or]
  simp only [walk] at hw
  split at hw
  · obtain ⟨i₁, h₁, hw⟩ := Option.bind_eq_some_iff.mp hw
    by_cases h2 : dir2 = []
    · simp only [if_pos h2, walk] at hw
      exact ⟨⟨_, rfl, fun hne => absurd h2 hne⟩, by simp [h₁, h2, Option.some.inj hw]⟩
    · simp only [if_neg h2, walk] at hw
      split at hw
      · next hd₁ =>
        obtain ⟨i₂, h₂, hw⟩ := Option.bind_eq_some_iff.mp hw
        by_cases h3 : dir3 = []
        · simp only [if_pos h3, walk] at hw
          refine ⟨⟨_, rfl, fun _ i hi => ?_⟩, by simp [h₁, h2, h₂, h3, Option.some.inj hw]⟩
          obtain rfl := Option.some.inj (h₁.symm.trans hi)
          exact ⟨hd₁, fun hne => absurd h3 hne⟩
        · simp only [if_neg h3, walk] at hw
          split at hw
          · next hd₂ =>
            obtain ⟨i₃, h₃, hw⟩ := Option.bind_eq_some_iff.mp hw
            refine ⟨⟨_, rfl, fun _ i hi => ?_⟩, by simp [h₁, h2, h₂, h3, h₃, Option.some.inj hw]⟩
            obtain rfl := Option.some.inj (h₁.symm.trans hi)
            refine ⟨hd₁, fun _ i hi => ?_⟩
            obtain rfl := Option.some.inj (h₂.symm.trans hi)
            exact hd₂
          · cases hw
      · cases hw
  · cases hw

/-- And the other way round. -/
theorem walk_of_find {path : CString} (hcwd : V.IsDir V.cwd) (hp : V.PathOk path) (hf : V.find path = some i) :
    ∃ ns, components path = some ns ∧ V.walk V.cwd ns = some i := by
  rw [find] at hf
  split at hf
  · next hnil => exact ⟨[], by rw [components, if_pos hnil], hf⟩
  next hnil =>
  obtain hnil' | ⟨⟨dir1, dir2, dir3⟩, hparse, hdirs⟩ := hp
  · exact absurd hnil' hnil
  refine ⟨_, by rw [components, if_neg hnil, hparse]; rfl, ?_⟩
  rw [hparse, Option.bind_some] at hf
  obtain ⟨i₁, h₁, hf⟩ := Option.bind_eq_some_iff.mp hf
  simp only [walk, if_pos hcwd, h₁, Option.bind_some]
  by_cases h2 : dir2 = []
  · rw [if_pos h2] at hf ⊢
    exact hf
  rw [if_neg h2] at hf ⊢
  obtain ⟨hd₁, hdirs₂⟩ := hdirs h2 i₁ h₁
  obtain ⟨i₂, h₂, hf⟩ := Option.bind_eq_some_iff.mp hf
  simp only [walk, if_pos hd₁, h₂, Option.bind_some]
  by_cases h3 : dir3 = []
  · rw [if_pos h3] at hf ⊢
    exact hf
  rw [if_neg h3] at hf ⊢
  simp only [walk, if_pos (hdirs₂ h3 i₂ h₂)]
  simpa using hf

theorem look_eq_some {b : ℕ} {e : Dentry} (h : V.look b name = some e) :
    ∃ j < NUM_DENTRIES, e = V.entry b j ∧ e.str = name := by
  simp only [look, Option.map_eq_some_iff] at h
  obtain ⟨j, hj, rfl⟩ := h
  have hs := List.find?_some hj
  have hm := List.mem_of_find?_eq_some hj
  exact ⟨j, List.mem_range.mp hm, rfl, by simpa using hs⟩

/-- A name in a directory stands for an inode in use. -/
theorem Inv.step {c : ℕ} (h : V.Inv) (hi : V.IsDir i) (hs : V.step i name = some c) :
    ∃ k, V.names.kind c = some k := by
  simp only [Vol.step, Option.map_eq_some_iff] at hs
  obtain ⟨e, he, rfl⟩ := hs
  obtain ⟨j, -, rfl, -⟩ := look_eq_some he
  cases hu : (V.names.dent i j).used with
  | true => exact h.names.kind_of_link (i := i) (j := j) ⟨hi, hu, rfl⟩
  | false =>
    have h0 : (V.entry (V.dirBlock i) j).ino = 0 := h.names.vacant hi hu
    rw [h0]
    exact ⟨_, h.names.root⟩

end Vol

variable {V : View}

/-- Looking up a name in a block. -/
theorem Does.lookup (ht : V.Tidy) {b : ℕ} (hb : b < NUM_BLOCKS) (name : List UInt8) :
    Does V (Fs.lookup (sec b) name) (V.look b name) { V with dbuf := ofSector (V.data b) } := by
  rw [Fs.lookup, toNat_sec hb]
  have hread := Does.breadDentry (V := V) hb
  rw [put_eq_ofSector ht.dbuf] at hread
  exact hread.bind (Does.dentries.bind (Does.pure _))

theorem View.Tidy.setDbuf (ht : V.Tidy) (s : Sector) : View.Tidy { V with dbuf := ofSector s } :=
  ⟨fun _ hi => ofSector_of_le s hi, ht.rbuf⟩

/-- Looking up a name in a directory that is in order. -/
theorem Vol.Base.lookup (h : V.Base) (ht : V.Tidy) {i : ℕ} (hi : V.IsDir i) (name : List UInt8) :
    Does V (Fs.lookup ((V.inode i).blocks 0) name) (V.look (V.dirBlock i) name)
      { V with dbuf := ofSector (V.data (V.dirBlock i)) } := by
  obtain ⟨hb, he, -⟩ := h.dirBlock hi
  rw [he]
  exact Does.lookup ht hb name

/-- One component of a path: look the name up, load the inode, go on with `k`. -/
theorem Vol.Inv.component {U : Vol} (h : U.Inv) (hv : V.toVol = U) (ht : V.Tidy) {i : ℕ} (hi : U.IsDir i)
    {name : List UInt8} {k : Dentry → Inode → FsM (Option InodePtr)} {Q : Option InodePtr → View → Prop}
    (hnone : U.step i name = none → ∀ V', V'.toVol = U → V'.Tidy → Q none V')
    (hsome : ∀ e : Dentry, U.step i name = some e.ino.toNat → ∀ V', V'.toVol = U → V'.Tidy →
      V'.ibuf = U.loadInodes e.ino.toNat → Spec V' (k e (U.inode e.ino.toNat)) Q) :
    Spec V (do
      match ← Fs.lookup ((U.inode i).blocks 0) name with
      | none => pure none
      | some e => do
        let I ← Fs.loadInode e.ino
        k e I) Q := by
  subst hv
  have hl := h.lookup ht hi name
  refine hl.seq ?_
  cases he : V.look (V.dirBlock i) name with
  | none => exact Spec.pure (hnone (by simp [Vol.step, he]) _ rfl (ht.setDbuf _))
  | some e =>
    have hstep : V.step i name = some e.ino.toNat := by simp [Vol.step, he]
    obtain ⟨kind, hk⟩ := h.step hi hstep
    refine (Does.loadInode (h.names.lt hk)).seq ?_
    exact hsome e hstep _ rfl ⟨(ht.setDbuf _).dbuf, ht.rbuf⟩ rfl

/-- What `find_inode` leaves behind: the volume as it was, and the sector of the inode. -/
structure Found (V : View) (path : CString) (r : Option InodePtr) (V' : View) : Prop where
  vol : V'.toVol = V.toVol
  tidy : V'.Tidy
  none : V.find path = Option.none → r = Option.none
  some : ∀ i, V.find path = Option.some i → (∃ k, V.names.kind i = Option.some k) ∧
    ((path.chars = [] ∧ r = Option.some .wd ∧ i = V.cwd) ∨
      (path.chars ≠ [] ∧ r = Option.some (.buf (i % 8)) ∧ V'.ibuf = V.loadInodes i))

/-- `find_inode` from the working directory. -/
theorem Vol.Inv.find_inode (h : V.Inv) (ht : V.Tidy) {path : CString} (hp : V.PathOk path) :
    Spec V (Fs.findFromWd path) (Found V path) := by
  refine Does.wdInode.seq ?_
  by_cases hnil : path.chars = []
  · rw [Fs.find_inode, if_pos hnil]
    refine Spec.pure ⟨rfl, ht, fun hf => ?_, fun i hf => ?_⟩
    · simp [Vol.find, hnil] at hf
    · simp only [Vol.find, hnil, if_true, Option.some.injEq] at hf
      exact ⟨⟨_, hf ▸ h.cwd⟩, Or.inl ⟨hnil, rfl, hf.symm⟩⟩
  obtain hnil' | ⟨⟨dir1, dir2, dir3⟩, hparse, hdirs⟩ := hp
  · exact absurd hnil' hnil
  have hfind : V.find path = (V.step V.cwd dir1).bind fun i₁ =>
      if dir2 = [] then some i₁ else (V.step i₁ dir2).bind fun i₂ => if dir3 = [] then some i₂ else V.step i₂ dir3 := by
    simp [Vol.find, hnil, hparse]
  -- How the walk ends, at whichever component.
  have hlost : V.find path = none → ∀ V', V'.toVol = V.toVol → V'.Tidy → Found V path none V' :=
    fun hf V' hv ht' => ⟨hv, ht', fun _ => rfl, fun i hi => by rw [hf] at hi; cases hi⟩
  have hdone : ∀ i, V.find path = some i → (∃ k, V.names.kind i = some k) → ∀ V', V'.toVol = V.toVol → V'.Tidy →
      V'.ibuf = V.loadInodes i → Found V path (some (.buf (i % 8))) V' := by
    intro i hf hk V' hv ht' hib
    refine ⟨hv, ht', fun hn => ?_, fun c hc => ?_⟩
    · rw [hf] at hn
      cases hn
    obtain rfl : i = c := Option.some.inj (hf.symm.trans hc)
    exact ⟨hk, Or.inr ⟨hnil, rfl, hib⟩⟩
  simp only [Fs.find_inode, if_neg hnil, hparse]
  rw [h.wd]
  refine h.component rfl ht h.cwd (fun hn => hlost (by simp [hfind, hn])) fun e₁ h₁ V₁ hv₁ ht₁ hib₁ => ?_
  have hk₁ := h.step h.cwd h₁
  split
  · next h2 => exact Spec.pure (hdone _ (by simp [hfind, h₁, h2]) hk₁ V₁ hv₁ ht₁ hib₁)
  next h2 =>
  obtain ⟨hd₁, hdirs₂⟩ := hdirs h2 _ h₁
  refine h.component hv₁ ht₁ hd₁ (fun hn => hlost (by simp [hfind, h₁, h2, hn])) fun e₂ h₂ V₂ hv₂ ht₂ hib₂ => ?_
  have hk₂ := h.step hd₁ h₂
  split
  · next h3 => exact Spec.pure (hdone _ (by simp [hfind, h₁, h2, h₂, h3]) hk₂ V₂ hv₂ ht₂ hib₂)
  next h3 =>
  have hd₂ := hdirs₂ h3 _ h₂
  refine h.component hv₂ ht₂ hd₂ (fun hn => hlost (by simp [hfind, h₁, h2, h₂, h3, hn])) fun e₃ h₃ V₃ hv₃ ht₃ hib₃ => ?_
  exact Spec.pure (hdone _ (by simp [hfind, h₁, h2, h₂, h3, h₃]) (h.step hd₂ h₃) V₃ hv₃ ht₃ hib₃)

end OsLab
