import OsLab.Fs.Resolve

/-!
# Finding what was created

`do_mkdir` and `do_touch` enter the path they are given as it stands, and `find_inode` splits it at slashes. So
what was created is found when the name has no slash, and `do_ls` with details, which looks every entry
up by its name, comes back when no entry of the directory has one (`created_found`).
-/

namespace OsLab

open Lib ProgM Bytes

/-! ### Listing a directory -/

/-- The rule for loops over a list. -/
theorem Runs.forM {α : Type} {st : St} {l : List α} {f : α → FsM Unit} {P : St → Prop}
    (hf : ∀ j ∈ l, ∀ st, P st → Runs st (f j) fun _ st' => P st') (hP : P st) :
    Runs st (l.forM f) fun _ st' => P st' := by
  induction l generalizing st with
  | nil => exact Runs.pure hP
  | cons j l ih =>
    apply (hf j (List.mem_cons_self ..) st hP).bind (Runs.onward _)
    intro _ st' hP'
    exact ih (fun i hi => hf i (List.mem_cons_of_mem j hi)) hP'

variable {d : Disk} {st : St}

theorem parse_path_alone {n : List UInt8} (h : IsComponent n) : Fs.parse_path n = some (n, [], []) := by
  have hns : ∀ m ∈ [n], IsComponent m := fun m hm => List.mem_singleton.mp hm ▸ h
  have := parse_path_join hns
  rwa [List.intercalate_singleton] at this

/-- A name without slashes is looked up in one directory, whose entries are left in `dentry_buffer`. -/
theorem Looking.find_one (h : Looking d st) {path : CString} (hpath : IsComponent path.chars) (I : Inode) :
    Runs st (Fs.find_inode path I) fun r st' => (Looking d st' ∧ st'.mem.dentry = readEntry d (I.blocks 0)) ∧
      (r = none → readLook d (I.blocks 0) path.chars = none) := by
  rw [Fs.find_inode, if_neg hpath.1, parse_path_alone hpath]
  refine (h.lookup (I.blocks 0) path.chars).bind (Runs.onward _) fun r st₁ hr => ?_
  obtain ⟨rfl, h₁, hdent⟩ := hr
  cases hl : readLook d (I.blocks 0) path.chars with
  | none => exact Runs.pure ⟨⟨h₁, hdent⟩, fun _ => rfl⟩
  | some e =>
    refine (h₁.loadInode e.ino).bind (Runs.onward _) fun J st₂ hJ => ?_
    obtain ⟨-, ⟨h₂, hdent₂⟩, -⟩ := hJ
    rw [if_pos rfl]
    refine Runs.pure ⟨⟨h₂, hdent₂.trans hdent⟩, fun hnone => ?_⟩
    cases hnone

/-- A name in the block is found. -/
theorem readLook_ne_none {p : UInt32} {j : ℕ} (hj : j < NUM_DENTRIES) : readLook d p (readEntry d p j).str ≠ none := by
  rw [readLook, Ne, Option.map_eq_none_iff, List.find?_eq_none]
  intro hall
  exact hall j (List.mem_range.mpr hj) (decide_eq_true rfl)

/-- The loop of `do_ls` with details comes back when no entry in use has a slash in its name. -/
theorem Looking.listDetails (h : Looking d st) (I : Inode) (hdent : st.mem.dentry = readEntry d (I.blocks 0))
    (hplain : ∀ j < NUM_DENTRIES, (readEntry d (I.blocks 0) j).used = true →
      IsComponent (readEntry d (I.blocks 0) j).str) :
    Runs st ((List.range NUM_DENTRIES).forM (Fs.listDetails I)) fun _ _ => True := by
  refine Runs.mono (Runs.forM (P := fun st => Looking d st ∧ st.mem.dentry = readEntry d (I.blocks 0)) ?_ ⟨h, hdent⟩)
    fun _ _ _ => trivial
  rintro j hj st ⟨h, hdent⟩
  apply Runs.bind (P := fun r st' => r = st'.mem.dentry ∧ st' = st) ⟨_, st, exec_dentries st, rfl, rfl⟩ (Runs.onward _)
  rintro e st' ⟨rfl, rfl⟩
  rw [hdent, Fs.ifThen]
  split
  · next hu =>
    have hj' := List.mem_range.mp hj
    apply (h.find_one (show IsComponent (readEntry d (I.blocks 0) j).string.chars from hplain j hj' hu) I).bind
      (Runs.onward _)
    rintro r st₁ ⟨h₁, hr⟩
    cases r with
    | none => exact absurd (hr rfl) (readLook_ne_none hj')
    | some p => exact Runs.pure h₁
  · exact Runs.pure ⟨h, hdent⟩

/-- `do_ls` of the working directory, with details. -/
theorem Looking.do_ls (h : Looking d st) (htype : st.mem.wd_inode.type = IT_DIR)
    (hplain : ∀ j < NUM_DENTRIES, (readEntry d (st.mem.wd_inode.blocks 0) j).used = true →
      IsComponent (readEntry d (st.mem.wd_inode.blocks 0) j).str) :
    Runs st (Fs.do_ls ⟨[], List.not_mem_nil⟩ 1) fun r _ => r = 0 := by
  have hfind : exec disk (Fs.findFromWd ⟨[], List.not_mem_nil⟩) st = some (some .wd, st) := rfl
  have hderef : exec disk (Fs.deref .wd) st = some (st.mem.wd_inode, st) := rfl
  obtain ⟨h₁, hdent⟩ := h.bread (st.mem.wd_inode.blocks 0)
  apply Runs.onward _ _ _ _ _ _ _ hfind
  apply Runs.onward _ _ _ _ _ _ _ hderef
  rw [if_neg (by simp [htype])]
  apply Runs.onward _ _ _ _ _ _ _ (exec_bread_any _ _ _ _)
  have hloop := h₁.listDetails st.mem.wd_inode hdent hplain
  rw [Fs.ifThen, if_pos (by decide)]
  apply hloop.bind (Runs.onward _)
  intro _ st' _
  exact Runs.pure rfl

/-! ### After a creation -/

/-- The kind of what is created. -/
def Creation.type : Creation → UInt8
  | do_mkdir => IT_DIR
  | do_touch => IT_FILE

/-- The entries in use of the working directory have names without slashes. -/
def Vol.PlainNames (V : Vol) : Prop :=
  ∀ j < NUM_DENTRIES, (V.entry (V.dirBlock V.cwd) j).used = true → IsComponent (V.entry (V.dirBlock V.cwd) j).str

/-- What was created by a call from `s` to `s'` can be found: `find_inode` returns the inode that was taken,
with its kind, and `do_ls` of the working directory with details comes back. -/
structure CanBeFound (s s' : Sys) (call : Creation) (name : CString) : Prop where
  found : ∃ i p s₁, s.vol.freeInode = some i ∧ exec cached (Fs.findFromWd name) s' = some (some p, s₁) ∧
    pointee s'.mem.wd_inode s₁.mem p = s'.vol.inode i ∧
    (s'.vol.inode i).ino.toNat = i ∧ (s'.vol.inode i).type = call.type
  listed : ∃ s₂, exec cached (Fs.do_ls ⟨[], List.not_mem_nil⟩ 1) s' = some (0, s₂)

variable {s s' : Sys}

theorem Sound.do_ls (hs : Sound s) (hplain : s.vol.PlainNames) :
    ∃ s', exec cached (Fs.do_ls ⟨[], List.not_mem_nil⟩ 1) s = some (0, s') := by
  have hlook : Looking s.dev.logical ⟨s.mem, s.dev.logical⟩ := ⟨by dsimp only, fun i hi => hs.tidy.dbuf i hi⟩
  have hwd : s.mem.wd_inode = s.vol.inode s.vol.cwd := hs.inv.wd
  have htype : s.mem.wd_inode.type = IT_DIR := by
    rw [hwd]
    exact (Vol.isDir_iff.mp hs.inv.cwd).2
  have hentry :=
    readEntry_eq (V := s.view) hs.inv
      (show View.of ⟨s.mem, s.dev.logical⟩ = s.view by rw [Sys.view]) hs.inv.cwd
  dsimp only at hentry
  have hrun : Runs ⟨s.mem, s.dev.logical⟩ (Fs.do_ls ⟨[], List.not_mem_nil⟩ 1) fun r _ => r = 0 := by
    apply hlook.do_ls htype
    intro j hj hu
    rw [show readEntry s.dev.logical (s.mem.wd_inode.blocks 0) j =
      s.vol.entry (s.vol.dirBlock s.vol.cwd) j by rw [hwd]; exact congrFun hentry j] at hu ⊢
    exact hplain j hj hu
  obtain ⟨r, s', he, -, rfl⟩ := hrun.cached hs.cache
  exact ⟨s', he⟩

/-- The components of a path have no slash. -/
theorem notMem_of_parse_path {path n₁ n₂ n₃ : List UInt8} (h : Fs.parse_path path = some (n₁, n₂, n₃)) :
    47 ∉ n₁ ∧ 47 ∉ n₂ ∧ 47 ∉ n₃ := by
  have hcomp (p : List UInt8) : 47 ∉ (Fs.component p).1 := fun hm => by simpa using List.mem_takeWhile_imp hm
  rw [Fs.parse_path] at h
  dsimp only at h
  split at h
  · obtain ⟨rfl, hrest⟩ := Prod.mk.inj (Option.some.inj h)
    obtain ⟨rfl, rfl⟩ := Prod.mk.inj hrest
    exact ⟨hcomp _, hcomp _, hcomp _⟩
  · cases h

/-- The working directory has a new entry `j`, the first with its name, for an inode that was free. -/
structure Entered (V V' : Vol) (name : List UInt8) (j : ℕ) (e : Dentry) : Prop where
  lt : j < 16
  free : (V.names.dent V.cwd j).used = false
  used : e.used = true
  dent : ∀ x y, V.IsDir x → V'.names.dent x y = if x = V.cwd ∧ y = j then e else V.names.dent x y
  str : e.str = name
  fresh : V.look (V.dirBlock V.cwd) name = none
  cwd : V'.cwd = V.cwd
  dirs : ∀ x, V.IsDir x → V'.IsDir x
  new : V.names.kind e.ino.toNat = none

namespace Entered

variable {V V' : Vol} {name n : List UInt8} {i j : ℕ} {e : Dentry} (h : Entered V V' name j e) (hV : V.Inv)

include h hV

theorem dent_cwd (y : ℕ) : V'.names.dent V'.cwd y = if y = j then e else V.names.dent V.cwd y := by
  rw [h.cwd, h.dent _ _ hV.cwd]
  simp

theorem step : V'.step V'.cwd name = some e.ino.toNat := by
  rw [Vol.step, Vol.look_put (lt_trans h.lt (by decide)) (h.dent_cwd hV) h.str h.fresh, Option.map_some]

theorem plainNames (hplain : V.PlainNames) (hname : IsComponent name) : V'.PlainNames := by
  intro y hy hu
  have hdent : V'.entry (V'.dirBlock V'.cwd) y = if y = j then e else V.names.dent V.cwd y := h.dent_cwd hV y
  rw [hdent] at hu ⊢
  split at hu
  · next hyj =>
    rw [if_pos hyj, h.str]
    exact hname
  · next hyj =>
    rw [if_neg hyj]
    exact hplain y hy hu

/-- Other names stand for what they stood for. -/
theorem step_other (hV' : V'.Inv) (hi : V.IsDir i) (hn : n ≠ name) : V'.step i n = V.step i n := by
  by_cases hnil : n = []
  · -- The empty name stands for the root, whichever entries are unused.
    subst hnil
    rw [Vol.step_nil fun y hy => hV.names.vacant hi hy, Vol.step_nil fun y hy => hV'.names.vacant (h.dirs i hi) hy]
  have hstr (y : ℕ) : (V'.names.dent i y).str = n ↔ (V.names.dent i y).str = n := by
    rw [h.dent i y hi]
    split
    · next hj =>
      obtain ⟨rfl, rfl⟩ := hj
      rw [h.str, (Dentry.used_eq_false_iff _).mp h.free]
      exact ⟨fun he => absurd he.symm hn, fun he => absurd he.symm hnil⟩
    · rfl
  have hslot : V'.nameSlot i n = V.nameSlot i n := by
    simp only [Vol.nameSlot, hstr]
  rw [Vol.step_eq, Vol.step_eq, hslot]
  cases hs : V.nameSlot i n with
  | none => rw [Option.map_none, Option.map_none]
  | some y =>
    obtain ⟨-, hy, -⟩ := Vol.nameSlot_eq_some.mp hs
    rw [Option.map_some, Option.map_some, Names.child, Names.child, h.dent i y hi, if_neg]
    rintro ⟨rfl, rfl⟩
    rw [(Dentry.used_eq_false_iff _).mp h.free] at hy
    exact hnil hy.symm

/-- A path with a slash stands for what it stood for. -/
theorem find_slash (hV' : V'.Inv) {path : CString}
    (hpath : path.chars = name) (hslash : 47 ∈ name) (hp : V.PathOk path) :
    V'.PathOk path ∧ V'.find path = V.find path := by
  have hne : path.chars ≠ [] := by
    rw [hpath]
    exact List.ne_nil_of_mem hslash
  obtain hnil | ⟨⟨n₁, n₂, n₃⟩, hparse, hdirs⟩ := hp
  · exact absurd hnil hne
  obtain ⟨h₁, h₂, h₃⟩ := notMem_of_parse_path hparse
  have hother {m : List UInt8} (hm : 47 ∉ m) : m ≠ name := fun he => hm (he ▸ hslash)
  have hstep₁ := h.step_other hV hV' hV.cwd (hother h₁)
  have hstep₂ {i₁ : ℕ} (hi₁ : V.IsDir i₁) := h.step_other hV hV' hi₁ (hother h₂)
  have hstep₃ {i₂ : ℕ} (hi₂ : V.IsDir i₂) := h.step_other hV hV' hi₂ (hother h₃)
  constructor
  · refine Or.inr ⟨_, hparse, fun hn₂ i₁ hi₁ => ?_⟩
    rw [h.cwd, hstep₁] at hi₁
    obtain ⟨hd₁, hdirs₂⟩ := hdirs hn₂ i₁ hi₁
    refine ⟨h.dirs _ hd₁, fun hn₃ i₂ hi₂ => ?_⟩
    rw [hstep₂ hd₁] at hi₂
    exact h.dirs _ (hdirs₂ hn₃ i₂ hi₂)
  · simp only [Vol.find, if_neg hne, hparse, Option.bind_some, h.cwd, hstep₁]
    apply Option.bind_congr
    intro i₁ hi₁
    split
    · rfl
    next hn₂ =>
    obtain ⟨hd₁, hdirs₂⟩ := hdirs hn₂ i₁ hi₁
    rw [hstep₂ hd₁]
    apply Option.bind_congr
    intro i₂ hi₂
    split
    · rfl
    next hn₃ => exact hstep₃ (hdirs₂ hn₃ i₂ hi₂)

end Entered

/-- The kind of inode a creation makes. -/
def Creation.kind : Creation → Kind
  | do_mkdir => .dir
  | do_touch => .file

/-- What is created has a short name. -/
theorem length_lt_of_created {call : Creation} {name : CString} (he : exec cached (call.prog name) s = some (0, s')) :
    name.chars.length < MAX_PATHNAME_LEN := by
  by_contra hlen
  have hrun : exec cached (call.prog name) s = some (-1, s) := by
    cases call with
    | do_mkdir => rw [Creation.prog, Fs.do_mkdir, if_pos (Nat.le_of_not_lt hlen), exec_pure]
    | do_touch => rw [Creation.prog, Fs.do_touch, if_pos (Nat.le_of_not_lt hlen), exec_pure]
  have h01 : (0 : ℤ) = -1 := congrArg Prod.fst (Option.some.inj (he.symm.trans hrun))
  exact absurd h01 (by decide)

/-- What a creation that succeeds leaves. -/
theorem Sound.created (hs : Sound s) {call : Creation} {name : CString} (hroom : ¬ s.vol.Full s.vol.cwd)
    (he : exec cached (call.prog name) s = some (0, s')) :
    Sound s' ∧ ∃ i j e, s.vol.freeInode = some i ∧ e.ino.toNat = i ∧ Entered s.vol s'.vol name.chars j e ∧
      s'.vol.names.kind i = some call.kind := by
  have h01 : (0 : ℤ) ≠ -1 := by decide
  cases call with
  | do_touch =>
    have hok : SysCall.Ok s.vol (.do_touch name) := fun _ _ _ => hroom
    obtain ⟨r, s₁, he₁, hs₁, heff⟩ := hs.call hok
    obtain ⟨rfl, rfl⟩ := Prod.mk.inj (Option.some.inj (he.symm.trans he₁))
    obtain ⟨hr, -⟩ | ⟨-, ht⟩ := heff
    · exact absurd hr h01
    obtain ⟨i, j, e, hi, -, hE, hstr⟩ := ht.names
    refine ⟨hs₁, i, j, e, hi, hE.ino,
      ⟨hE.lt, hE.free, hE.used, hE.dent, hstr, ht.fresh, ht.cwd, fun x hx => (hE.kind_dir x).mpr hx, ?_⟩, ?_⟩
    · obtain ⟨-, hfree, -⟩ := firstClear_eq_some.mp hi
      rw [hE.ino]
      simp [Vol.names, hfree]
    · rw [hE.kind, if_pos rfl, Creation.kind]
  | do_mkdir =>
    have hblock : s.vol.freeBlock ≠ none := by
      intro hnone
      obtain ⟨s₁, he₁⟩ := exists_do_mkdir_fails hs.cache name hnone
      exact h01 (congrArg Prod.fst (Option.some.inj (he.symm.trans he₁)))
    have hok : SysCall.Ok s.vol (.do_mkdir name) := fun _ _ _ => ⟨hblock, hroom⟩
    obtain ⟨r, s₁, he₁, hs₁, heff⟩ := hs.call hok
    obtain ⟨rfl, rfl⟩ := Prod.mk.inj (Option.some.inj (he.symm.trans he₁))
    obtain ⟨hr, -⟩ | ⟨-, hm⟩ := heff
    · exact absurd hr h01
    obtain ⟨i, j, e, hi, -, hM, hstr, -⟩ := hm.names
    refine ⟨hs₁, i, j, e, hi, hM.ino,
      ⟨hM.lt, hM.free, hM.used, hM.dent, hstr, hm.fresh, hm.cwd, fun x hx => ?_, ?_⟩, ?_⟩
    · rw [Vol.IsDir, hM.kind]
      split
      · rfl
      · exact hx
    · rw [hM.ino]
      exact hM.new
    · rw [hM.kind, if_pos rfl, Creation.kind]

/-- What is created can be found. -/
theorem Sound.canBeFound (hs : Sound s) {call : Creation} {name : CString} (hslash : 47 ∉ name.chars)
    (hroom : ¬ s.vol.Full s.vol.cwd) (hplain : s.vol.PlainNames) (he : exec cached (call.prog name) s = some (0, s')) :
    CanBeFound s s' call name := by
  obtain ⟨hs', i, j, e, hi, rfl, hE, hkind⟩ := hs.created hroom he
  have hne : name.chars ≠ [] := by
    intro hnil
    have := (Dentry.used_eq_false_iff e).mpr (hE.str.trans hnil)
    rw [hE.used] at this
    cases this
  have hname : IsComponent name.chars := ⟨hne, name.nonzero, hslash, length_lt_of_created he⟩
  have hpath : s'.vol.PathOk name := Or.inr ⟨_, parse_path_alone hname, fun hn => absurd rfl hn⟩
  have hfind : s'.vol.find name = some e.ino.toNat := by
    rw [Vol.find, if_neg hne, parse_path_alone hname, Option.bind_some, hE.step hs.inv]
    rfl
  obtain ⟨r, s₁, he₁, -, hF⟩ := (hs'.inv.find_inode hs'.tidy hpath).cached hs'.cache
  obtain ⟨-, ⟨hnil, -⟩ | ⟨-, rfl, hib⟩⟩ := hF.some _ hfind
  · exact absurd hnil hne
  have himap := Vol.imap_of_kind hkind
  refine ⟨⟨e.ino.toNat, _, s₁, hi, he₁, ?_, hs'.inv.ino himap, ?_⟩, hs'.do_ls (hE.plainNames hs.inv hplain hname)⟩
  · have hget :
      (if e.ino.toNat % 8 < 8 then getInode (s₁.mem.buf .inode_buffer)
        (64 * (e.ino.toNat % 8)) else Inode.zero) =
        s'.vol.loadInodes e.ino.toNat (e.ino.toNat % 8) := congrFun hib _
    rw [if_pos (Nat.mod_lt _ (by decide)), Vol.loadInodes_mod] at hget
    exact hget
  · cases call with
    | do_mkdir => exact (Vol.isDir_iff.mp hkind).2
    | do_touch =>
      obtain ⟨-, hno⟩ := Vol.isFile_iff.mp hkind
      exact (hs'.inv.type himap).resolve_left hno

/-- With a slash in its name it is not, unless the name leads through a regular file. -/
theorem Sound.not_canBeFound (hs : Sound s) {call : Creation} {name : CString} (hslash : 47 ∈ name.chars)
    (hroom : ¬ s.vol.Full s.vol.cwd) (hp : s.vol.PathOk name) (he : exec cached (call.prog name) s = some (0, s')) :
    ¬ CanBeFound s s' call name := by
  rintro ⟨⟨i', p, s₁, hi', he₁, hpointee, hino, -⟩, -⟩
  obtain ⟨hs', i, j, e, hi, hei, hE, hkind⟩ := hs.created hroom he
  obtain rfl : i' = i := Option.some.inj (hi'.symm.trans hi)
  obtain ⟨hp', hfind⟩ := hE.find_slash hs.inv hs'.inv rfl hslash hp
  obtain ⟨r, s₂, he₂, -, hF⟩ := (hs'.inv.find_inode hs'.tidy hp').cached hs'.cache
  obtain ⟨rfl, rfl⟩ := Prod.mk.inj (Option.some.inj (he₁.symm.trans he₂))
  cases hf : s.vol.find name with
  | none =>
    cases hF.none (hfind.trans hf)
  | some c =>
    -- What the path stands for was in use before.
    obtain ⟨_, _, hdoes, hold⟩ := hs.inv.find_inode hs.tidy hp
    obtain ⟨⟨k, hk⟩, -⟩ := hold.some c hf
    obtain ⟨⟨k', hk'⟩, ⟨hnil, -⟩ | ⟨-, hr, hib⟩⟩ := hF.some c (hfind.trans hf)
    · rw [hnil] at hslash
      cases hslash
    · have hget : (if c % 8 < 8 then getInode (s₁.mem.buf .inode_buffer) (64 * (c % 8)) else Inode.zero) =
          s'.vol.loadInodes c (c % 8) := congrFun hib _
      rw [if_pos (Nat.mod_lt _ (by decide)), Vol.loadInodes_mod] at hget
      obtain rfl := Option.some.inj hr
      have hsame : s'.vol.inode c = s'.vol.inode i' := hget.symm.trans hpointee
      obtain rfl : c = i' := by rw [← hs'.inv.ino (Vol.imap_of_kind hk'), hsame, hino]
      have hnew := hE.new
      rw [hei] at hnew
      cases hnew.symm.trans hk

/-- What is created where there is room can be found when its name and the names around it have no slash, and cannot be
when its name has one, but through a regular file. -/
theorem created_found (s s' : Sys) (hs : Sound s) (call : Creation) (name : CString) (hroom : ¬ s.vol.Full s.vol.cwd)
    (he : exec cached (call.prog name) s = some (0, s')) :
    (47 ∉ name.chars ∧ s.vol.PlainNames → CanBeFound s s' call name) ∧
      (47 ∈ name.chars ∧ s.vol.PathOk name → ¬ CanBeFound s s' call name) :=
  ⟨fun h => hs.canBeFound h.1 hroom h.2 he, fun h => hs.not_canBeFound h.1 hroom h.2 he⟩

/-! ### Right after `do_mkfs` -/

/-- The root's entries right after `do_mkfs`. -/
theorem Made.plainNames (hs : Made s) : s.vol.PlainNames := by
  obtain ⟨hsound, hfresh, hcwd, -, -⟩ := hs.sound
  have hroot : s.vol.IsDir 0 := hfresh.dir 0 (by decide)
  obtain ⟨j₀, -, -, hstr, -, hunused⟩ := hfresh.sole 0 (by decide)
  rw [Vol.PlainNames, hcwd]
  intro j _ hu
  have hdent : s.vol.entry (s.vol.dirBlock 0) j = s.vol.names.dent 0 j := rfl
  rw [hdent] at hu ⊢
  by_cases hj : j = j₀
  · rw [hj, hstr]
    unfold IsComponent
    decide
  have hcases : j = 0 ∨ j = 1 ∨ 2 ≤ j := by omega
  obtain rfl | rfl | h2 := hcases
  · rw [(hsound.inv.names.dot hroot).1]
    unfold IsComponent
    decide
  · rw [hsound.inv.names.dotdot hroot]
    unfold IsComponent
    decide
  · rw [hunused j h2 hj] at hu
    cases hu

/-- `do_touch` of a new name right after `do_mkfs`. -/
theorem Made.exists_touch (hs : Made s) (name : CString) (hlen : name.chars.length < MAX_PATHNAME_LEN)
    (hproc : name.chars ≠ (Vol.procSys 0).chars) (h0 : name.chars ≠ [])
    (h1 : name.chars ≠ [46]) (h2 : name.chars ≠ [46, 46]) :
    ¬ s.vol.Full s.vol.cwd ∧ ∃ s', exec cached (Creation.do_touch.prog name) s = some (0, s') := by
  obtain ⟨hsound, hfresh, hcwd, -, -⟩ := hs.sound
  have hroot : s.vol.IsDir 0 := hfresh.dir 0 (by decide)
  have hroom : ¬ s.vol.Full s.vol.cwd := hs.few.not_full (by decide)
  refine ⟨hroom, ?_⟩
  have hok : SysCall.Ok s.vol (.do_touch name) := fun _ _ _ => hroom
  obtain ⟨r, s', he, -, ⟨-, -, hrefused⟩ | ⟨rfl, -⟩⟩ := hsound.call hok
  · exfalso
    obtain hlong | hlook | hfull := hrefused
    · omega
    · apply hlook
      rw [hcwd]
      exact hsound.inv.look_sole hroot (hfresh.sole 0 (by decide)) hproc h0 h1 h2
    · have himap := firstClear_eq_none.mp hfull 4 (by decide)
      have hkind := hfresh.unused 4 (by decide)
      simp [Vol.names, himap] at hkind
  · exact ⟨s', he⟩

/-- `touch x` right after `do_mkfs`. -/
theorem created_found_x : ∃ s s', Sound s ∧ exec cached (Creation.do_touch.prog (.ofString "x")) s = some (0, s') ∧
    CanBeFound s s' .do_touch (.ofString "x") := by
  obtain ⟨s, hs⟩ := made_start
  obtain ⟨hroom, s', he⟩ := hs.exists_touch (.ofString "x") (by decide) (by decide) (by decide) (by decide) (by decide)
  have hsound := hs.sound.1
  exact ⟨s, s', hsound, he, (created_found s s' hsound .do_touch _ hroom he).1 ⟨by decide, hs.plainNames⟩⟩

/-- `touch a/b` right after `do_mkfs` creates an inode that is not found. -/
theorem created_found_fails : ¬ ∀ (s s' : Sys) (call : Creation) (name : CString), Sound s →
    exec cached (call.prog name) s = some (0, s') → CanBeFound s s' call name := by
  intro hall
  obtain ⟨s, hs⟩ := made_start
  obtain ⟨hroom, s', he⟩ := hs.exists_touch (.ofString "a/b")
    (by decide) (by decide) (by decide) (by decide) (by decide)
  obtain ⟨hsound, hfresh, hcwd, -, -⟩ := hs.sound
  have hparse : Fs.parse_path (CString.ofString "a/b").chars = some ([97], [98], []) := by decide
  have hlook : s.vol.look (s.vol.dirBlock s.vol.cwd) [97] = none := by
    rw [hcwd]
    exact hsound.inv.look_sole (hfresh.dir 0 (by decide))
      (hfresh.sole 0 (by decide)) (by decide) (by decide) (by decide)
      (by decide)
  have hp : s.vol.PathOk (.ofString "a/b") := by
    refine Or.inr ⟨_, hparse, fun _ i hi => ?_⟩
    rw [Vol.step, hlook] at hi
    cases hi
  exact hsound.not_canBeFound (by decide) hroom hp he (hall s s' .do_touch _ hsound he)

end OsLab
