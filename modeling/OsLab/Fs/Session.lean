import OsLab.Fs.Runs

/-!
# Calls that succeed

`Sound.call` says what a call does that keeps the volume in order, whether it is refused or not. Here is
when `do_touch`, `do_mkdir`, `do_ln` and `do_rm` of a plain name return 0 (`Succeeds`), and what can be
relied on as long as few names have been made since `do_mkfs` (`Vol.Few`).
-/

namespace OsLab

open Lib ProgM Bytes

/-! ### Volumes with few names -/

/-- The slots in use of directory `i`, `.` and `..` aside. -/
def Names.inUse (N : Names) (i : ℕ) : Finset ℕ := (Finset.Ico 2 16).filter fun y => (N.dent i y).used = true

theorem Names.mem_inUse {N : Names} {i y : ℕ} : y ∈ N.inUse i ↔ (2 ≤ y ∧ y < 16) ∧ (N.dent i y).used = true := by
  rw [inUse, Finset.mem_filter, Finset.mem_Ico]

namespace Vol

/-- The working directory is the root, which has entries for `ns` at most, and inodes from `n` on are unused. -/
structure Few (V : Vol) (ns : List (List UInt8)) (n : ℕ) : Prop where
  inv : V.Inv
  cwd : V.cwd = 0
  names : ∀ y, 2 ≤ y → (V.names.dent 0 y).used = true → (V.names.dent 0 y).str ∈ ns
  room : (V.names.inUse 0).card ≤ ns.length
  unused : ∀ i, n ≤ i → V.names.kind i = none

variable {V V' : Vol} {ns : List (List UInt8)} {n : ℕ}

/-- What `do_mkfs` leaves. -/
theorem Fresh.few (h : V.Fresh) (hc : V.cwd = 0) : V.Few [(procSys 0).chars] 4 := by
  obtain ⟨j, -, -, hstr, -, hu⟩ := h.sole 0 (by decide)
  have honly : ∀ y, 2 ≤ y → (V.names.dent 0 y).used = true → y = j := by
    intro y hy hyu
    by_contra hyj
    rw [hu y hy hyj] at hyu
    cases hyu
  refine ⟨h.inv, hc, fun y hy hyu => ?_, ?_, fun i hi => h.unused i (by omega)⟩
  · rw [honly y hy hyu, hstr]
    exact List.mem_singleton.mpr rfl
  · calc (V.names.inUse 0).card ≤ ({j} : Finset ℕ).card := Finset.card_le_card fun y hy => by
          obtain ⟨⟨hy2, -⟩, hyu⟩ := Names.mem_inUse.mp hy
          exact Finset.mem_singleton.mpr (honly y hy2 hyu)
      _ = 1 := Finset.card_singleton j

namespace Few

variable (h : V.Few ns n)

include h

theorem look {name : List UInt8} (hn : name ∉ ns) (h0 : name ≠ []) (h1 : name ≠ [46]) (h2 : name ≠ [46, 46]) :
    V.look (V.dirBlock V.cwd) name = none := by
  rw [h.cwd]
  refine look_eq_none fun y => h.inv.str_ne h.inv.names.root h1 h2 fun hy2 => ?_
  cases hu : (V.names.dent 0 y).used with
  | false => exact str_ne_of_unused hu h0
  | true =>
    intro hs
    exact hn (hs ▸ h.names y hy2 hu)

theorem not_full (hlen : ns.length < 14) : ¬ V.Full V.cwd := by
  rw [h.cwd]
  intro hf
  have hall : V.names.inUse 0 = Finset.Ico 2 16 := by
    ext y
    rw [Names.mem_inUse, Finset.mem_Ico]
    exact ⟨And.left, fun hy => ⟨hy, hf y hy.2⟩⟩
  have hroom := h.room
  rw [hall, Nat.card_Ico] at hroom
  omega

theorem freeInode (hn : n < NUM_INODES) : ∃ i ≤ n, V.freeInode = some i := by
  have hclear : V.imap n = false := kind_eq_none.mp (h.unused n le_rfl)
  cases hi : V.freeInode with
  | none =>
    rw [firstClear_eq_none.mp hi n hn] at hclear
    cases hclear
  | some i =>
    refine ⟨i, ?_, rfl⟩
    by_contra hlt
    obtain ⟨-, -, hset⟩ := firstClear_eq_some.mp hi
    rw [hset n (by omega)] at hclear
    cases hclear

/-- A name more. -/
theorem put {j : ℕ} {e : Dentry} (hI : V'.Inv) (hcwd : V'.cwd = V.cwd)
    (hd : ∀ y, V'.names.dent 0 y = if y = j then e else V.names.dent 0 y)
    (hk : ∀ i, n < i → V'.names.kind i = none) : V'.Few (e.str :: ns) (n + 1) := by
  refine ⟨hI, hcwd.trans h.cwd, fun y hy hyu => ?_, ?_, fun i hi => hk i hi⟩
  · rw [hd] at hyu ⊢
    split at hyu
    · next hyj =>
      rw [if_pos hyj]
      exact List.mem_cons_self
    · next hyj =>
      rw [if_neg hyj]
      exact List.mem_cons_of_mem _ (h.names y hy hyu)
  · calc (V'.names.inUse 0).card ≤ (insert j (V.names.inUse 0)).card := Finset.card_le_card fun y hy => by
          obtain ⟨hr, hyu⟩ := Names.mem_inUse.mp hy
          by_cases hyj : y = j
          · exact Finset.mem_insert.mpr (Or.inl hyj)
          · rw [hd, if_neg hyj] at hyu
            exact Finset.mem_insert_of_mem (Names.mem_inUse.mpr ⟨hr, hyu⟩)
      _ ≤ (V.names.inUse 0).card + 1 := Finset.card_insert_le ..
      _ ≤ (e.str :: ns).length := Nat.succ_le_succ h.room

/-- A name less. -/
theorem clear {j : ℕ} {e : Dentry} (hI : V'.Inv) (hcwd : V'.cwd = V.cwd)
    (hd : ∀ y, V'.names.dent 0 y = if y = j then e else V.names.dent 0 y)
    (hu : e.used = false) (hk : ∀ i, V.names.kind i = none → V'.names.kind i = none) : V'.Few ns n := by
  have hkeep : ∀ y, (V'.names.dent 0 y).used = true → V'.names.dent 0 y = V.names.dent 0 y := by
    intro y hyu
    rw [hd] at hyu ⊢
    split at hyu
    · rw [hu] at hyu
      cases hyu
    · next hyj => rw [if_neg hyj]
  refine ⟨hI, hcwd.trans h.cwd, fun y hy hyu => ?_,
    (Finset.card_le_card fun y hy => ?_).trans h.room, fun i hi => hk i (h.unused i hi)⟩
  · have hold := hkeep y hyu
    rw [hold] at hyu ⊢
    exact h.names y hy hyu
  · obtain ⟨hr, hyu⟩ := Names.mem_inUse.mp hy
    rw [hkeep y hyu] at hyu
    exact Names.mem_inUse.mpr ⟨hr, hyu⟩

/-- It is found. -/
theorem find_put {path : CString} (hp : Plain path) (hnew : path.chars ∉ ns)
    {j : ℕ} {e : Dentry} (hj : j < 16) (hcwd : V'.cwd = V.cwd)
    (hd : ∀ y, V'.names.dent 0 y = if y = j then e else V.names.dent 0 y) (hstr : e.str = path.chars) :
    V'.find path = some e.ino.toNat := by
  have hl := h.look hnew hp.ne hp.dot hp.dotdot
  rw [h.cwd] at hl
  rw [hp.find, hcwd, h.cwd, step, look_put (Nat.lt_trans hj (by decide)) hd hstr hl, Option.map_some]

end Few

/-- Entry `j` of the root directory has the name `name` and is for the empty directory `i`. -/
structure EmptyDir (V : Vol) (name : List UInt8) (j i : ℕ) : Prop where
  link : V.names.Link 0 j i
  two_le : 2 ≤ j
  str : (V.names.dent 0 j).str = name
  dir : V.IsDir i
  ne : i ≠ 0
  bare : V.names.Bare i
  size : (V.inode i).size = 64

/-- It stays so when another entry of the root changes. -/
theorem EmptyDir.keep {name : List UInt8} {i j j' : ℕ} {e : Dentry}
    {k : UInt16} {z : UInt32} (h : V.EmptyDir name j i) (hc : V.cwd = 0)
    (hj : j ≠ j') (hk : ∀ x, V.IsDir x → V'.IsDir x)
    (hd : ∀ x y, V.IsDir x → V'.names.dent x y = if x = V.cwd ∧ y = j' then e else V.names.dent x y)
    (hdirs : DirsKept V V' k z) :
    V'.EmptyDir name j i := by
  have hdent : V'.names.dent 0 j = V.names.dent 0 j := by rw [hd 0 j h.link.1, if_neg fun hp => hj hp.2]
  have hother : ∀ y, V'.names.dent i y = V.names.dent i y :=
    fun y => by rw [hd i y h.dir, if_neg fun hp => h.ne (hp.1.trans hc)]
  refine ⟨⟨hk 0 h.link.1, ?_, ?_⟩, h.two_le, ?_, hk i h.dir, h.ne, h.bare.congr hother, ?_⟩
  · rw [hdent]
    exact h.link.2.1
  · rw [Names.child, hdent]
    exact h.link.2.2
  · rw [hdent]
    exact h.str
  · rw [(hdirs.dir i h.dir (hk i h.dir) fun he => h.ne (he.trans hc)).2]
    exact h.size

theorem Plain.lnTarget {path : CString} (h : Plain path) (V : Vol) : V.lnTarget path = some (V.cwd, path.chars) := by
  simp [Vol.lnTarget, h.parse]

end Vol

/-! ### Calls -/

/-- The call meets its condition and returns 0. -/
structure Succeeds (s : Sys) (call : SysCall) (s' : Sys) : Prop where
  ok : call.Ok s.vol
  exec : exec cached call.code s = some (0, s')
  sound : Sound s'

namespace Sound

variable {s : Sys} {path : CString} {ns : List (List UInt8)} {n : ℕ}

/-- `do_touch` of a new name. -/
theorem touch (hs : Sound s) (h : s.vol.Few ns n) (hp : Vol.Plain path)
    (hnew : path.chars ∉ ns) (hlen : ns.length < 14) (hn : n < NUM_INODES) :
    ∃ s', Succeeds s (.do_touch path) s' ∧ Touched s.vol s'.vol path.chars ∧ s'.vol.Few (path.chars :: ns) (n + 1) ∧
      ∃ i, s'.vol.find path = some i ∧ s'.vol.IsFile i := by
  obtain ⟨i, hin, hi⟩ := h.freeInode hn
  have hok : SysCall.Ok s.vol (.do_touch path) := fun _ _ _ => h.not_full hlen
  obtain ⟨r, s', he, hs', ⟨-, -, hlong | hlook | hfull⟩ | ⟨rfl, ht⟩⟩ := hs.call hok
  · exact absurd hp.lt (Nat.not_lt.mpr hlong)
  · exact absurd (h.look hnew hp.ne hp.dot hp.dotdot) hlook
  · cases hfull.symm.trans hi
  obtain ⟨i', j, e, hi', -, hE, hstr⟩ := ht.names
  obtain rfl : i = i' := Option.some.inj (hi.symm.trans hi')
  have hd : ∀ y, s'.vol.names.dent 0 y = if y = j then e else s.vol.names.dent 0 y := by
    intro y
    rw [hE.dent 0 y h.inv.names.root, h.cwd]
    simp
  refine ⟨s', ⟨hok, he, hs'⟩, ht, hstr ▸ h.put hs'.inv ht.cwd hd fun x hx => ?_, i, ?_, ?_⟩
  · rw [hE.kind, if_neg (by omega)]
    exact h.unused x hx.le
  · rw [h.find_put hp hnew hE.lt ht.cwd hd hstr, hE.ino]
  · rw [Vol.IsFile, hE.kind, if_pos rfl]

/-- `do_mkdir` of a new name. -/
theorem mkdir (hs : Sound s) (h : s.vol.Few ns n) (hp : Vol.Plain path)
    (hnew : path.chars ∉ ns) (hlen : ns.length < 14) (hn : n < NUM_INODES)
    (hb : s.vol.freeBlock ≠ none) :
    ∃ s', Succeeds s (.do_mkdir path) s' ∧ MadeDir s.vol s'.vol path.chars ∧ s'.vol.Few (path.chars :: ns) (n + 1) := by
  obtain ⟨i, hin, hi⟩ := h.freeInode hn
  have hok : SysCall.Ok s.vol (.do_mkdir path) := fun _ _ _ => ⟨hb, h.not_full hlen⟩
  obtain ⟨r, s', he, hs', ⟨-, -, hlong | hlook | hfull⟩ | ⟨rfl, hm⟩⟩ := hs.call hok
  · exact absurd hp.lt (Nat.not_lt.mpr hlong)
  · exact absurd (h.look hnew hp.ne hp.dot hp.dotdot) hlook
  · cases hfull.symm.trans hi
  obtain ⟨i', j, e, hi', -, hM, hstr, -⟩ := hm.names
  obtain rfl : i = i' := Option.some.inj (hi.symm.trans hi')
  have hd : ∀ y, s'.vol.names.dent 0 y = if y = j then e else s.vol.names.dent 0 y := by
    intro y
    rw [hM.dent 0 y h.inv.names.root, h.cwd]
    simp
  refine ⟨s', ⟨hok, he, hs'⟩, hm, hstr ▸ h.put hs'.inv hm.cwd hd fun x hx => ?_⟩
  rw [hM.kind, if_neg (by omega)]
  exact h.unused x hx.le

/-- `do_ln` of a file to a new name. -/
theorem ln (hs : Sound s) (h : s.vol.Few ns n) {src : CString}
    (hsrc : s.vol.PathOk src) {f : ℕ} (hfind : s.vol.find src = some f)
    (hf : s.vol.IsFile f) (hp : Vol.Plain path) (hlen : ns.length < 14) :
    ∃ s', Succeeds s (.do_ln src path) s' ∧ Linked s.vol s'.vol f 0 path.chars ∧
    s'.vol.Few (path.chars :: ns) (n + 1) := by
  have htarget := hp.lnTarget s.vol
  have hok : SysCall.Ok s.vol (.do_ln src path) :=
    ⟨hsrc, fun _ _ _ => ⟨s.vol.cwd, path.chars, htarget, hp.ne, h.not_full hlen⟩⟩
  obtain ⟨r, s', he, hs', ⟨-, -, hno⟩ | ⟨rfl, f', w, name, hf', -, hw, hl⟩⟩ := hs.call hok
  · exact absurd hf (hno f hfind)
  obtain rfl : f = f' := Option.some.inj (hfind.symm.trans hf')
  obtain ⟨rfl, rfl⟩ := Prod.mk.inj (Option.some.inj (htarget.symm.trans hw))
  rw [h.cwd] at hl
  obtain ⟨j, e, hE, hstr⟩ := hl.names
  have hfn : f < n := by
    by_contra hlt
    cases (h.unused f (by omega)).symm.trans hf
  have hd : ∀ y, s'.vol.names.dent 0 y = if y = j then e else s.vol.names.dent 0 y := by
    intro y
    rw [hE.dent 0 y h.inv.names.root]
    simp
  refine ⟨s', ⟨hok, he, hs'⟩, hl, hstr ▸ h.put hs'.inv hl.cwd hd fun x hx => ?_⟩
  rw [hE.kind, if_neg (by omega)]
  exact h.unused x hx.le

/-- `do_rm` of a name in the root directory. -/
theorem rm (hs : Sound s) (h : s.vol.Few ns n) (hp : Vol.Plain path)
    {f : ℕ} (hfind : s.vol.find path = some f) (hf : s.vol.IsFile f) :
    ∃ s', Succeeds s (.do_rm path) s' ∧ Removed s.vol s'.vol f ∧ s'.vol.Few ns n := by
  have hok : SysCall.Ok s.vol (.do_rm path) := by
    refine ⟨hp.pathOk _, fun g hg _ => ?_⟩
    rw [hp.find, Vol.step] at hg
    obtain ⟨e, he, rfl⟩ := Option.map_eq_some_iff.mp hg
    obtain ⟨j, -, rfl, hstr⟩ := Vol.look_eq_some he
    have hu : (s.vol.names.dent s.vol.cwd j).used = true := Names.used_of_str (by
      rw [show (s.vol.names.dent s.vol.cwd j).str = path.chars from hstr]
      exact hp.ne)
    exact ⟨j, h.inv.names.short ⟨h.inv.cwd, hu, rfl⟩, rfl⟩
  obtain ⟨r, s', he, hs', ⟨-, -, hno⟩ | ⟨rfl, f', hf', -, hR⟩⟩ := hs.call hok
  · exact absurd hf (hno f hfind)
  obtain rfl : f = f' := Option.some.inj (hfind.symm.trans hf')
  obtain ⟨j, e, hM⟩ := hR.names
  have hd : ∀ y, s'.vol.names.dent 0 y = if y = j then e else s.vol.names.dent 0 y := by
    intro y
    rw [hM.dent 0 y h.inv.names.root, h.cwd]
    simp
  refine ⟨s', ⟨hok, he, hs'⟩, hR, h.clear hs'.inv hR.cwd hd hM.unused fun x hx => ?_⟩
  rw [hM.kind]
  split
  · rfl
  · exact hx

end Sound

/-! ### After `do_mkfs` -/

/-- Memory when the kernel starts. -/
def Mem.start : Mem where
  buf _ _ := 0
  fdesc_array _ := ⟨0, 0, 0, 0, 0⟩
  wd_inode := Inode.zero
  root_ino := 0
  write_back_freq := 0
  clock _ := 0

/-- The state that `do_mkfs` leaves on an empty card. -/
theorem made_start : ∃ s, Made s := by
  obtain ⟨r, s, -, hs⟩ := exists_made Mem.start Bcache.blank ⟨⟨0, by decide⟩, rfl⟩
  exact ⟨s, hs⟩

namespace Made

variable {s : Sys} (hs : Made s)

include hs

theorem reach (P : Vol → SysCall → Prop) : Reach P s := ⟨s, hs, .refl⟩

theorem few : s.vol.Few [(Vol.procSys 0).chars] 4 := by
  obtain ⟨-, hfresh, hcwd, -⟩ := hs.sound
  exact hfresh.few hcwd

/-- A second name for `vm`, in the root directory. -/
theorem link (path : CString) (hp : Vol.Plain path) :
    ∃ s', Succeeds s (.do_ln (.ofString "proc/sys/vm") path) s' ∧ Linked s.vol s'.vol 3 0 path.chars ∧
      s'.vol.Few [path.chars, (Vol.procSys 0).chars] 5 := by
  obtain ⟨hsound, hfresh, hcwd, -⟩ := hs.sound
  obtain ⟨hfind, hpath⟩ := hfresh.find_vm hcwd
  exact hsound.ln hs.few hpath hfind hfresh.file hp (by decide)

/-- A second name for `vm` is made and taken away, and a file is created. -/
theorem session : ∃ s₁ s₂ s₃, Succeeds s (.do_ln (.ofString "proc/sys/vm") (.ofString "y")) s₁ ∧
    Succeeds s₁ (.do_rm (.ofString "y")) s₂ ∧
    Succeeds s₂ (.do_touch (.ofString "x")) s₃ := by
  have hx : Vol.Plain (.ofString "x") := ⟨by decide, by decide, by decide, by decide, by decide⟩
  have hy : Vol.Plain (.ofString "y") := ⟨by decide, by decide, by decide, by decide, by decide⟩
  obtain ⟨s₁, h₁, hl, hfew₁⟩ := hs.link _ hy
  obtain ⟨j, e, hE, hstr⟩ := hl.names
  have hd : ∀ y, s₁.vol.names.dent 0 y = if y = j then e else s.vol.names.dent 0 y := by
    intro y
    rw [hE.dent 0 y hE.dir]
    simp
  have hfind : s₁.vol.find (.ofString "y") = some 3 := by
    rw [hs.few.find_put hy (by decide) hE.lt hl.cwd hd hstr, hE.ino]
  have hfile : s₁.vol.IsFile 3 := by rw [Vol.IsFile, hE.kind, if_pos rfl]
  obtain ⟨s₂, h₂, -, hfew₂⟩ := h₁.sound.rm hfew₁ hy hfind hfile
  obtain ⟨s₃, h₃, -⟩ := h₂.sound.touch hfew₂ hx (by decide) (by decide) (by decide)
  exact ⟨s₁, s₂, s₃, h₁, h₂, h₃⟩

/-- A directory is made, and a file is created and removed. -/
theorem session_dir : ∃ s₁ s₂ s₃ j, ∃ i < 8,
    Succeeds s (.do_mkdir (.ofString "d")) s₁ ∧ Succeeds s₁ (.do_touch (.ofString "x")) s₂ ∧
    Succeeds s₂ (.do_rm (.ofString "x")) s₃ ∧ s₃.vol.EmptyDir (CString.ofString "d").chars j i ∧ s₃.vol.cwd = 0 := by
  have hx : Vol.Plain (.ofString "x") := ⟨by decide, by decide, by decide, by decide, by decide⟩
  have hdp : Vol.Plain (.ofString "d") := ⟨by decide, by decide, by decide, by decide, by decide⟩
  have hblock : s.vol.freeBlock ≠ none := by
    intro hb
    have h4 := (hs.vol.tree.bmap 4).mp (firstClear_eq_none.mp hb 4 (by decide))
    omega
  obtain ⟨s₁, h₁, hm, hfew₁⟩ := hs.sound.1.mkdir hs.few hdp (by decide) (by decide) (by decide) hblock
  obtain ⟨i, j, e, hi, -, hM, hstr, -, hsize⟩ := hm.names
  obtain ⟨i', hi5, hi'⟩ := hs.few.freeInode (by decide)
  obtain rfl : i = i' := Option.some.inj (hi.symm.trans hi')
  have hcwd := hs.few.cwd
  have hdir : s₁.vol.IsDir i := by rw [Vol.IsDir, hM.kind, if_pos rfl]
  have hd : s₁.vol.names.dent 0 j = e := by rw [hM.dent 0 j hs.few.inv.names.root, if_pos ⟨hcwd.symm, rfl⟩]
  have he₁ : s₁.vol.EmptyDir (CString.ofString "d").chars j i := by
    refine ⟨⟨h₁.sound.inv.names.root, ?_, ?_⟩, hM.two_le, ?_, hdir, ?_, fun y hy => (hM.empty y hy).1, hsize⟩
    · rw [hd]
      exact hM.used
    · rw [Names.child, hd]
      exact hM.ino
    · rw [hd]
      exact hstr
    · rintro rfl
      cases hM.new.symm.trans hs.few.inv.names.root
  obtain ⟨s₂, h₂, ht, hfew₂, f, hf, hfile⟩ := h₁.sound.touch hfew₁ hx (by decide) (by decide) (by decide)
  obtain ⟨f', j₂, e₂, -, -, hE, -⟩ := ht.names
  have he₂ : s₂.vol.EmptyDir (CString.ofString "d").chars j i := by
    refine he₁.keep hfew₁.cwd ?_ (fun x hx => (hE.kind_dir x).mpr hx) hE.dent ht.dirs
    rintro rfl
    have hused := he₁.link.2.1
    rw [← hfew₁.cwd, hE.free] at hused
    cases hused
  obtain ⟨s₃, h₃, hR, hfew₃⟩ := h₂.sound.rm hfew₂ hx hf hfile
  obtain ⟨j₃, e₃, hM₃⟩ := hR.names
  refine ⟨s₁, s₂, s₃, j, i, by omega, h₁, h₂, h₃, ?_, hfew₃.cwd⟩
  refine he₂.keep hfew₂.cwd ?_ (fun x hx => (hM₃.kind_dir x).mpr hx) hM₃.dent hR.dirs
  rintro rfl
  have hchild := hM₃.link.2.2
  rw [hfew₂.cwd, he₂.link.2.2] at hchild
  rw [← hchild, Vol.IsFile, he₂.dir] at hfile
  cases hfile

end Made

end OsLab
