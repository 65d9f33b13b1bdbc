import OsLab.Fs.Refusals

/-!
# How far a path is followed

`find_inode` looks at three components of a path and drops the rest, and it takes whatever lies in the
first block of an inode for entries. `seek` is what it does, over the sectors as they are; `Vol.walk` is the
law, from directory to directory and to the end of the path. They agree exactly when what lies behind the
third component leads back to where it starts and no regular file is gone through (`find_inode_iff`).
-/

namespace OsLab

open Lib ProgM Bytes

/-! ### Paths of components -/

/-- What stands between two slashes. -/
def IsComponent (n : List UInt8) : Prop := n ≠ [] ∧ 0 ∉ n ∧ 47 ∉ n ∧ n.length < MAX_PATHNAME_LEN

/-- Components, in order. -/
structure Route where
  names : List (List UInt8)
  ok : ∀ n ∈ names, IsComponent n

namespace Route

/-- The path of the components, separated by single slashes. -/
def path (ρ : Route) : CString where
  chars := [47].intercalate ρ.names
  nonzero := by
    obtain ⟨names, ok⟩ := ρ
    induction names with
    | nil => simp
    | cons n ns ih =>
      have hn := (ok n (by simp)).2.1
      have hns := ih fun m hm => ok m (by simp [hm])
      cases ns with
      | nil => simpa using hn
      | cons m ns =>
        rw [List.intercalate_cons_cons, List.mem_append, List.mem_append, not_or, not_or]
        exact ⟨⟨hn, by decide⟩, hns⟩

end Route

theorem component_alone {n : List UInt8} (h : 47 ∉ n) : Fs.component n = (n, []) := by
  have hall : ∀ x ∈ n, (decide (x ≠ 47)) = true := fun x hx => decide_eq_true fun he => h (he ▸ hx)
  rw [Fs.component, List.takeWhile_eq_self_iff.mpr hall, List.dropWhile_eq_nil_iff.mpr hall]
  rfl

theorem component_slash {n : List UInt8} (h : 47 ∉ n) (r : List UInt8) : Fs.component (n ++ [47] ++ r) = (n, r) := by
  have hall : ∀ x ∈ n, (decide (x ≠ 47)) = true := fun x hx => decide_eq_true fun he => h (he ▸ hx)
  rw [Fs.component, List.append_assoc, List.takeWhile_append_of_pos hall, List.dropWhile_append_of_pos hall]
  simp

/-- Splitting off the first component. -/
theorem component_join {ns : List (List UInt8)} (h : ∀ n ∈ ns, IsComponent n) :
    Fs.component ([47].intercalate ns) = (ns.headD [], [47].intercalate ns.tail) := by
  match ns with
  | [] => rfl
  | [n] =>
    rw [List.intercalate_singleton, component_alone (h n (by simp)).2.2.1]
    rfl
  | n :: m :: ns =>
    rw [List.intercalate_cons_cons, component_slash (h n (by simp)).2.2.1]
    rfl

theorem length_headD {ns : List (List UInt8)} (h : ∀ n ∈ ns, IsComponent n) :
    (ns.headD []).length < MAX_PATHNAME_LEN := by
  cases ns with
  | nil => decide
  | cons n ns => exact (h n (by simp)).2.2.2

/-- `parse_path` finds the first three components. -/
theorem parse_path_join {ns : List (List UInt8)} (h : ∀ n ∈ ns, IsComponent n) :
    Fs.parse_path ([47].intercalate ns) = some (ns.headD [], ns.tail.headD [], ns.tail.tail.headD []) := by
  have h₁ : ∀ n ∈ ns.tail, IsComponent n := fun n hn => h n (List.mem_of_mem_tail hn)
  have h₂ : ∀ n ∈ ns.tail.tail, IsComponent n := fun n hn => h₁ n (List.mem_of_mem_tail hn)
  rw [Fs.parse_path, component_join h]
  dsimp only
  rw [component_join h₁]
  dsimp only
  rw [component_join h₂]
  exact if_pos ⟨length_headD h, length_headD h₁, length_headD h₂⟩

/-! ### What the code looks at -/

/-- The inode `ino` as it is loaded. -/
def readInode (d : Disk) (ino : UInt32) : Inode :=
  getInode (ofSector (d (Fs.inodeidx2sector ino))) (64 * Fs.inodeidx2offset ino)

/-- Entry `j` of the block at sector `p` as it is loaded. -/
def readEntry (d : Disk) (p : UInt32) (j : ℕ) : Dentry := getDentry (ofSector (d ((p.toNat + 7) % 2 ^ 32))) (32 * j)

/-- The first entry with a name in the block at sector `p`. -/
def readLook (d : Disk) (p : UInt32) (name : List UInt8) : Option Dentry :=
  ((List.range NUM_DENTRIES).find? fun j => (readEntry d p j).str = name).map (readEntry d p)

/-- The inode that names lead to from inode `I`, through whatever lies in the first blocks. -/
def seek (d : Disk) : Inode → List (List UInt8) → Option Inode
  | I, [] => some I
  | I, name :: names => (readLook d (I.blocks 0) name).bind fun e => seek d (readInode d e.ino) names

/-- The inode at a pointer that `find_inode(path, parent)` returned. -/
def pointee (parent : Inode) (m : Mem) : InodePtr → Inode
  | .wd => parent
  | .buf k => getInode (m.buf .inode_buffer) (64 * k)

/-- A state over disk `d` in which the entries behind the first sector of `dentry_buffer` are unused. -/
structure Looking (d : Disk) (st : St) : Prop where
  dev : st.dev = d
  rest : ∀ i, SECTOR_SIZE ≤ i → st.mem.buf .dentry_buffer i = 0

variable {d : Disk} {st : St}

/-- Reading the block at sector `p`. -/
theorem Looking.bread (h : Looking d st) (p : UInt32) : Looking d (st.afterBread .dentry_buffer BLOCK_SECTORS p.toNat) ∧
    (st.afterBread .dentry_buffer BLOCK_SECTORS p.toNat).mem.dentry = readEntry d p := by
  have hbuf : (st.afterBread .dentry_buffer BLOCK_SECTORS p.toNat).mem.buf .dentry_buffer =
      ofSector (d ((p.toNat + 7) % 2 ^ 32)) := by
    rw [buf_afterBread, Disk.bread, if_neg (by decide), put_eq_ofSector h.rest, h.dev, BLOCK_SECTORS_eq]
  refine ⟨⟨h.dev, fun i hi => ?_⟩, ?_⟩
  · rw [hbuf]
    exact ofSector_of_le _ hi
  · funext j
    rw [Mem.dentry, hbuf, readEntry]

theorem Looking.lookup (h : Looking d st) (p : UInt32) (name : List UInt8) :
    Runs st (Fs.lookup p name) fun r st' => r = readLook d p name ∧ Looking d st' ∧ st'.mem.dentry = readEntry d p := by
  obtain ⟨h', hdent⟩ := h.bread p
  refine ⟨readLook d p name, st.afterBread .dentry_buffer BLOCK_SECTORS p.toNat, ?_, rfl, h', hdent⟩
  rw [Fs.lookup, exec_bind, exec_bread_any, Option.bind_some, exec_bind,
    exec_dentries, Option.bind_some, exec_pure, hdent, readLook]

theorem Looking.loadInode (h : Looking d st) (ino : UInt32) : Runs st (Fs.loadInode ino) fun I st' =>
    I = readInode d ino ∧ (Looking d st' ∧ st'.mem.dentry = st.mem.dentry) ∧
      getInode (st'.mem.buf .inode_buffer) (64 * Fs.inodeidx2offset ino) = readInode d ino := by
  have hsec : Fs.inodeidx2sector ino % 2 ^ 32 = Fs.inodeidx2sector ino := by
    rw [Fs.inodeidx2sector, Nat.mod_mod]
  have hbuf : (st.afterBread .inode_buffer 1 (Fs.inodeidx2sector ino)).mem.buf .inode_buffer =
      (st.mem.buf .inode_buffer).put 0 (d (Fs.inodeidx2sector ino)) := by
    rw [buf_afterBread, Disk.bread, if_neg (by decide), h.dev, Nat.sub_self, Nat.add_zero, hsec]
  have hlt : Fs.inodeidx2offset ino < 8 := Nat.mod_lt _ (by decide)
  have hget : getInode ((st.afterBread .inode_buffer 1 (Fs.inodeidx2sector ino)).mem.buf .inode_buffer)
    (64 * Fs.inodeidx2offset ino) =
      readInode d ino := by
    rw [hbuf, readInode]
    refine getInode_congr fun x _ hx => ?_
    have hx' : x < SECTOR_SIZE := by
      unfold SECTOR_SIZE
      omega
    rw [put_of_lt _ _ hx', ofSector, put_of_lt _ _ hx']
  refine ⟨_, st.afterBread .inode_buffer 1 (Fs.inodeidx2sector ino), ?_, hget, ⟨⟨h.dev, h.rest⟩, rfl⟩, hget⟩
  rw [Fs.loadInode, exec_bind, exec_bread_any, Option.bind_some]
  rfl

/-- Look a name up, load the inode and go on with `k`. -/
theorem Looking.component (h : Looking d st) {I : Inode} {name : List UInt8} (names : List (List UInt8))
    {k : Dentry → Inode → FsM (Option InodePtr)} {Q : Option InodePtr → St → Prop}
    (hnone : seek d I (name :: names) = none → ∀ st', Looking d st' → Q none st')
    (hsome : ∀ e : Dentry, seek d I (name :: names) = seek d (readInode d e.ino) names → ∀ st', Looking d st' →
      getInode (st'.mem.buf .inode_buffer) (64 * Fs.inodeidx2offset e.ino) = readInode d e.ino →
      Runs st' (k e (readInode d e.ino)) Q) :
    Runs st (do
      match ← Fs.lookup (I.blocks 0) name with
      | none => pure none
      | some e => do
        let I ← Fs.loadInode e.ino
        k e I) Q := by
  refine (h.lookup (I.blocks 0) name).bind (Runs.onward Q) fun r st₁ hr => ?_
  obtain ⟨rfl, h₁, -⟩ := hr
  cases hl : readLook d (I.blocks 0) name with
  | none => exact Runs.pure (hnone (by rw [seek, hl, Option.bind_none]) st₁ h₁)
  | some e =>
    refine (h₁.loadInode e.ino).bind (Runs.onward Q) fun J st₂ hJ => ?_
    obtain ⟨rfl, ⟨h₂, -⟩, hget⟩ := hJ
    exact hsome e (by rw [seek, hl, Option.bind_some]) st₂ h₂ hget

/-- `find_inode`: it seeks the first three components. -/
theorem Looking.find_inode (h : Looking d st) (ρ : Route) (parent : Inode) :
    Runs st (Fs.find_inode ρ.path parent) fun r st' =>
    r.map (pointee parent st'.mem) = seek d parent (ρ.names.take 3) := by
  obtain ⟨ns, hns⟩ := ρ
  have hparse : Fs.parse_path (Route.path ⟨ns, hns⟩).chars =
      some (ns.headD [], ns.tail.headD [], ns.tail.tail.headD []) :=
    parse_path_join hns
  have hne {n : List UInt8} (hn : n ∈ ns) : n ≠ [] := (hns n hn).1
  cases ns with
  | nil =>
    have hpath : (Route.path ⟨[], hns⟩).chars = [] := rfl
    rw [Fs.find_inode, if_pos hpath]
    exact Runs.pure rfl
  | cons n₁ ns =>
    have hpath : (Route.path ⟨n₁ :: ns, hns⟩).chars ≠ [] := by
      intro he
      rw [he] at hparse
      exact hne (List.mem_cons_self ..) (congrArg Prod.fst (Option.some.inj hparse)).symm
    rw [Fs.find_inode, if_neg hpath, hparse]
    refine h.component (ns.take 2) (fun hseek st₁ _ => ?_) fun e₁ hseek₁ st₁ h₁ hget₁ => ?_
    · exact hseek.symm
    cases ns with
    | nil =>
      have hlast : ([n₁] : List (List UInt8)).tail.headD [] = [] := rfl
      rw [if_pos hlast]
      exact Runs.pure (congrArg some hget₁ |>.trans hseek₁.symm)
    | cons n₂ ns =>
      rw [if_neg (hne (by simp))]
      refine h₁.component (ns.take 1) (fun hseek st₂ _ => ?_) fun e₂ hseek₂ st₂ h₂ hget₂ => ?_
      · exact (hseek₁.trans hseek).symm
      cases ns with
      | nil =>
        have hlast : ([n₁, n₂] : List (List UInt8)).tail.tail.headD [] = [] := rfl
        rw [if_pos hlast]
        exact Runs.pure (congrArg some hget₂ |>.trans (hseek₁.trans hseek₂).symm)
      | cons n₃ ns =>
        rw [if_neg (hne (by simp))]
        refine h₂.component [] (fun hseek st₃ _ => ?_) fun e₃ hseek₃ st₃ _ hget₃ => ?_
        · exact (hseek₁.trans (hseek₂.trans hseek)).symm
        · exact Runs.pure (congrArg some hget₃ |>.trans (hseek₁.trans (hseek₂.trans hseek₃)).symm)

/-! ### Against the law -/

section Walk

variable {V : View} (h : V.Inv) (hst : View.of st = V) {i c : ℕ} {name : List UInt8} {ns : List (List UInt8)}

include hst in
theorem readInode_eq (ino : UInt32) (hlt : ino.toNat < NUM_INODES) : readInode st.dev ino = V.inode ino.toNat := by
  rw [readInode, inodeidx2sector_eq hlt, Fs.inodeidx2offset, ← hst]
  simp only [View.of, if_pos hlt]

include h hst

theorem readEntry_eq (hi : V.IsDir i) : readEntry st.dev ((V.inode i).blocks 0) = V.entry (V.dirBlock i) := by
  obtain ⟨hb, he, -⟩ := h.dirBlock hi
  have hsec : ((sec (V.dirBlock i)).toNat + 7) % 2 ^ 32 = blockSector (V.dirBlock i) + 7 := by
    rw [toNat_sec hb, blockSector, DATA_eq]
    rw [NUM_BLOCKS_eq] at hb
    omega
  funext j
  rw [he, readEntry, hsec, Vol.entry, ← hst]
  rfl

theorem readLook_eq (hi : V.IsDir i) : readLook st.dev ((V.inode i).blocks 0) name = V.look (V.dirBlock i) name := by
  rw [readLook, readEntry_eq h hst hi, Vol.look]

/-- In a directory a name is sought as the law says. -/
theorem seek_cons (hi : V.IsDir i) :
    seek st.dev (V.inode i) (name :: ns) = (V.step i name).bind fun c => seek st.dev (V.inode c) ns := by
  rw [seek, readLook_eq h hst hi, Vol.step]
  cases hl : V.look (V.dirBlock i) name with
  | none => rfl
  | some e =>
    have hstep : V.step i name = some e.ino.toNat := by rw [Vol.step, hl, Option.map_some]
    obtain ⟨k, hk⟩ := h.step hi hstep
    simp only [Option.bind_some, Option.map_some]
    rw [readInode_eq hst e.ino (h.names.lt hk)]

/-- Where the law leads, the names are found. -/
theorem seek_of_walk (hw : V.walk i ns = some c) : seek st.dev (V.inode i) ns = some (V.inode c) := by
  induction ns generalizing i with
  | nil =>
    obtain rfl := Option.some.inj hw
    rfl
  | cons n ns ih =>
    rw [Vol.walk] at hw
    split at hw
    · next hi =>
      obtain ⟨c', hstep, hw⟩ := Option.bind_eq_some_iff.mp hw
      rw [seek_cons h hst hi, hstep, Option.bind_some]
      exact ih hw
    · cases hw

/-- Where it does not lead, they are found only through a regular file. -/
theorem seek_eq_none_iff (hi : V.IsDir i) (hw : V.walk i ns = none) :
    seek st.dev (V.inode i) ns = none ↔ ∀ m f, m < ns.length → V.walk i (ns.take m) = some f → ¬ V.IsDir f →
      seek st.dev (V.inode f) (ns.drop m) = none := by
  induction ns generalizing i with
  | nil => cases hw
  | cons n ns ih =>
    rw [Vol.walk, if_pos hi] at hw
    rw [seek_cons h hst hi]
    have hzero {f : ℕ} (hf : V.walk i ((n :: ns).take 0) = some f) (hfile : ¬ V.IsDir f) : False := by
      obtain rfl := Option.some.inj hf
      exact hfile hi
    have hsucc (m : ℕ) : V.walk i ((n :: ns).take (m + 1)) = (V.step i n).bind fun c => V.walk c (ns.take m) := by
      rw [List.take_succ_cons, Vol.walk, if_pos hi]
    cases hs : V.step i n with
    | none =>
      refine ⟨fun _ m f _ hf hfile => ?_, fun _ => rfl⟩
      cases m with
      | zero => exact (hzero hf hfile).elim
      | succ m =>
        rw [hsucc, hs] at hf
        cases hf
    | some c =>
      rw [hs, Option.bind_some] at hw
      rw [Option.bind_some]
      by_cases hc : V.IsDir c
      · rw [ih hc hw]
        constructor
        · rintro hall (_ | m) f hm hf hfile
          · exact (hzero hf hfile).elim
          · rw [hsucc, hs, Option.bind_some] at hf
            exact hall m f (Nat.lt_of_succ_lt_succ hm) hf hfile
        · intro hall m f hm hf hfile
          exact hall (m + 1) f (Nat.succ_lt_succ hm) (by rw [hsucc, hs, Option.bind_some, hf]) hfile
      · have hne : ns ≠ [] := by
          rintro rfl
          cases hw
        constructor
        · rintro hseek (_ | m) f hm hf hfile
          · exact (hzero hf hfile).elim
          · rw [hsucc, hs, Option.bind_some] at hf
            cases m with
            | zero =>
              obtain rfl := Option.some.inj hf
              exact hseek
            | succ m =>
              obtain ⟨n', ns', rfl⟩ := List.exists_cons_of_ne_nil hne
              rw [List.take_succ_cons, Vol.walk, if_neg hc] at hf
              cases hf
        · intro hall
          exact hall 1 c (by simp [List.length_pos_iff.mpr hne]) (by rw [hsucc, hs]; rfl) hc

end Walk

/-- A path along which the code and the law agree. -/
structure Followed (d : Disk) (V : Vol) (i : ℕ) (ns : List (List UInt8)) : Prop where
  /-- What lies behind the third component leads back to where it starts. -/
  rest : ∀ c, V.walk i (ns.take 3) = some c → V.walk c (ns.drop 3) = some c
  /-- Behind a regular file among the first three the names are not found. -/
  file : ∀ m f, m < (ns.take 3).length → V.walk i (ns.take m) = some f → ¬ V.IsDir f →
    seek d (V.inode f) ((ns.take 3).drop m) = none

/-- A walk that goes on has met no file. -/
theorem Vol.isDir_of_walk {V : Vol} {i c f m : ℕ} {ns : List (List UInt8)}
    (hw : V.walk i ns = some c) (hm : m < ns.length)
    (hf : V.walk i (ns.take m) = some f) : V.IsDir f := by
  rw [← List.take_append_drop m ns, Vol.walk_append, hf, Option.bind_some] at hw
  obtain ⟨n, ns', hn⟩ := List.exists_cons_of_ne_nil (l := ns.drop m) fun he => by
    rw [List.drop_eq_nil_iff] at he
    omega
  rw [hn, Vol.walk] at hw
  by_contra hno
  rw [if_neg hno] at hw
  cases hw

section Result

variable {V : View} (h : V.Inv) {i c c' : ℕ} {ns : List (List UInt8)}

include h

/-- A walk leads to an inode in use. -/
theorem Vol.Inv.walk_kind (hi : V.IsDir i) (hw : V.walk i ns = some c) : ∃ k, V.names.kind c = some k := by
  induction ns generalizing i with
  | nil =>
    obtain rfl := Option.some.inj hw
    exact ⟨_, hi⟩
  | cons n ns ih =>
    rw [Vol.walk, if_pos hi] at hw
    obtain ⟨u, hstep, hw⟩ := Option.bind_eq_some_iff.mp hw
    by_cases hu : V.IsDir u
    · exact ih hu hw
    · cases ns with
      | nil =>
        obtain rfl := Option.some.inj hw
        exact h.step hi hstep
      | cons n' ns =>
        rw [Vol.walk, if_neg hu] at hw
        cases hw

/-- Inodes in use are told apart by their numbers. -/
theorem Vol.Inv.inode_inj (hc : ∃ k, V.names.kind c = some k)
    (hc' : ∃ k, V.names.kind c' = some k) (he : V.inode c = V.inode c') :
    c = c' := by
  obtain ⟨k, hk⟩ := hc
  obtain ⟨k', hk'⟩ := hc'
  rw [← h.ino (Vol.imap_of_kind hk), ← h.ino (Vol.imap_of_kind hk'), he]

/-- What the code seeks is what the law says exactly along the paths that are followed. -/
theorem seek_take_iff (hst : View.of st = V) (hi : V.IsDir i) (ns : List (List UInt8)) :
    seek st.dev (V.inode i) (ns.take 3) = (V.walk i ns).map V.inode ↔ Followed st.dev V.toVol i ns := by
  have hsplit : V.walk i ns = (V.walk i (ns.take 3)).bind fun c => V.walk c (ns.drop 3) := by
    rw [← Vol.walk_append, List.take_append_drop]
  have htake {m : ℕ} (hm : m < (ns.take 3).length) : (ns.take 3).take m = ns.take m := by
    rw [List.length_take] at hm
    rw [List.take_take, Nat.min_eq_left (by omega)]
  rw [hsplit]
  cases hw : V.walk i (ns.take 3) with
  | none =>
    rw [Option.bind_none, Option.map_none, seek_eq_none_iff h hst hi hw]
    constructor
    · intro hall
      refine ⟨fun c hc => ?_, fun m f hm hf hfile => ?_⟩
      · rw [hw] at hc
        cases hc
      · rw [← htake hm] at hf
        exact hall m f hm hf hfile
    · intro hF m f hm hf hfile
      rw [htake hm] at hf
      exact hF.file m f hm hf hfile
  | some c =>
    rw [seek_of_walk h hst hw, Option.bind_some]
    constructor
    · intro he
      obtain ⟨c', hc', hsame⟩ := Option.map_eq_some_iff.mp he.symm
      have huse : ∃ k, V.names.kind c' = some k := h.walk_kind hi (by rw [hsplit, hw]; exact hc')
      obtain rfl := h.inode_inj huse (h.walk_kind hi hw) hsame
      refine ⟨fun d hd => ?_, fun m f hm hf hfile => ?_⟩
      · obtain rfl := Option.some.inj (hw.symm.trans hd)
        exact hc'
      · rw [← htake hm] at hf
        exact absurd (Vol.isDir_of_walk hw hm hf) hfile
    · intro hF
      rw [hF.rest c hw, Option.map_some]

end Result

/-- `find_inode`, given the path of `ρ` and directory `i`, comes back with the inode that looking the components up
one after the other gives, and with `NULL` when this gives none. -/
def Resolves (s : Sys) (i : ℕ) (ρ : Route) : Prop :=
  ∃ r s', exec cached (Fs.find_inode ρ.path (s.vol.inode i)) s = some (r, s') ∧
    r.map (pointee (s.vol.inode i) s'.mem) = (s.vol.walk i ρ.names).map s.vol.inode

theorem Sound.resolves_iff {s : Sys} (hs : Sound s) {i : ℕ} (hi : s.vol.IsDir i) (ρ : Route) :
    Resolves s i ρ ↔ Followed s.dev.logical s.vol i ρ.names := by
  have hlook : Looking s.dev.logical ⟨s.mem, s.dev.logical⟩ := ⟨by dsimp only, fun i hi => hs.tidy.dbuf i hi⟩
  obtain ⟨r, s', he, -, hr⟩ := (hlook.find_inode ρ (s.vol.inode i)).cached hs.cache
  have hiff :=
    seek_take_iff (V := s.view) hs.inv
      (show View.of ⟨s.mem, s.dev.logical⟩ = s.view by rw [Sys.view]) hi ρ.names
  dsimp only at hiff hr
  constructor
  · rintro ⟨r', s'', he', hr'⟩
    obtain ⟨rfl, rfl⟩ := Prod.mk.inj (Option.some.inj (he.symm.trans he'))
    exact hiff.mp (hr.symm.trans hr')
  · intro hF
    exact ⟨r, s', he, hr.trans (hiff.mpr hF)⟩

/-- The paths that `find_inode` resolves. -/
theorem find_inode_iff (s : Sys) (hs : Sound s) (i : ℕ) (hi : s.vol.IsDir i) (ρ : Route) :
    Resolves s i ρ ↔ Followed s.dev.logical s.vol i ρ.names := hs.resolves_iff hi ρ

/-! ### Right after `do_mkfs` -/

/-- The names on the way to `vm`. -/
def vmNames : List (List UInt8) :=
  [(CString.ofString "proc" Fs.proc_nonzero).chars,
    (CString.ofString "sys" Fs.sys_nonzero).chars, (CString.ofString "vm" Fs.vm_nonzero).chars]

/-- `proc/sys/vm`. -/
def vmRoute : Route := ⟨vmNames, by unfold IsComponent; decide⟩

/-- `proc/sys/vm/x`. -/
def pastVm : Route := ⟨vmNames ++ [[120]], by unfold IsComponent; decide⟩

theorem Made.walk_vm {s : Sys} (hs : Made s) : s.vol.walk 0 vmNames = some 3 ∧ s.vol.IsDir 0 ∧ ¬ s.vol.IsDir 3 := by
  obtain ⟨hsound, hfresh, hcwd, -, -⟩ := hs.sound
  obtain ⟨hfind, hpath⟩ := hfresh.find_vm hcwd
  obtain ⟨ns, hns, hw⟩ := Vol.walk_of_find hsound.inv.cwd hpath hfind
  have hvm : Vol.components (.ofString "proc/sys/vm") = some vmNames := by decide
  obtain rfl := Option.some.inj (hvm.symm.trans hns)
  rw [hcwd] at hw
  refine ⟨hw, hfresh.dir 0 (by decide), fun hd => ?_⟩
  cases hd.symm.trans hfresh.file

/-- `proc/sys/vm` is resolved right after `do_mkfs`. -/
theorem find_inode_vm : ∃ s, Sound s ∧ s.vol.IsDir 0 ∧ Resolves s 0 vmRoute := by
  obtain ⟨s, hs⟩ := made_start
  obtain ⟨hw, hroot, hfile⟩ := hs.walk_vm
  obtain ⟨hsound, hfresh, -⟩ := hs.sound
  refine ⟨s, hsound, hroot, (find_inode_iff s hsound 0 hroot vmRoute).mpr ⟨fun c hc => ?_, fun m f hm hf hno => ?_⟩⟩
  · obtain rfl := Option.some.inj (hw.symm.trans hc)
    rfl
  · exact absurd (Vol.isDir_of_walk hw hm hf) hno

/-- `proc/sys/vm/x` is not: `vm` is a file, and its inode is returned. -/
theorem find_inode_pastVm : ¬ ∀ (s : Sys) (i : ℕ) (ρ : Route), Sound s → s.vol.IsDir i → Resolves s i ρ := by
  intro hall
  obtain ⟨s, hs⟩ := made_start
  obtain ⟨hw, hroot, hfile⟩ := hs.walk_vm
  have hsound := hs.sound.1
  have hF := (hsound.resolves_iff hroot pastVm).mp (hall s 0 pastVm hsound hroot)
  have hback : s.vol.walk 3 [[120]] = some 3 := hF.rest 3 hw
  rw [Vol.walk, if_neg hfile] at hback
  cases hback

end OsLab
