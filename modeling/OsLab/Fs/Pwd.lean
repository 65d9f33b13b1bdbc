import OsLab.Fs.Founding
import OsLab.Fs.Trees

/-!
# The path of the working directory

`nest_pwd` climbs along the entries `..` and prints, on its way back, the name under which each directory is
listed in the one above (`Hier.nest_pwd`). These names lead from the root back to where it started
(`Hier.follow`). The recursion ends because the directories above are older.
-/

namespace OsLab

open Lib ProgM Bytes

/-- What `pwd` prints for a path of these names. -/
def printed (names : List CString) : List (List UInt8) := [47] :: names.map fun name => name.chars ++ [47]

/-- Look names up one after the other, each in what the one before has led to. -/
def follow : List CString → Inode → FsM (Option Inode)
  | [], I => pure (some I)
  | name :: names, I => do
    match ← Fs.find_inode name I with
    | none => pure none
    | some p => do
      let J ← Fs.deref p
      follow names J

namespace Whole

variable {V V' : Whole} {kind : ℕ → Option Kind} {k i c : ℕ}

theorem Hier.ino_eq_zero (h : V.Hier kind k) (hi : kind i = some .dir) : (V.inode i).ino = 0 ↔ i = 0 := by
  rw [← UInt32.toNat_inj, (h.inode hi).1, UInt32.toNat_zero]

/-- `nest_pwd` comes back, and the names it prints are a path to the directory. -/
theorem Hier.nest_pwd (h : V.Hier kind k) {fuel : ℕ} (hi : kind i = some .dir) (hf : i < fuel) :
    Goes V (Fs.nest_pwd fuel (V.inode i)) fun out V' => V.Peeks V' ∧ ∃ names : List CString, out = printed names ∧
      (∀ name ∈ names, IsComponent name.chars) ∧ (V.names kind).walk 0 (names.map CString.chars) = some i := by
  induction fuel generalizing V i with
  | zero => exact absurd hf (Nat.not_lt_zero i)
  | succ fuel ih =>
    rw [Fs.nest_pwd]
    by_cases h0 : i = 0
    · rw [if_pos ((h.ino_eq_zero hi).mpr h0)]
      exact Goes.pure ⟨Peeks.refl V, [], rfl, nofun, by rw [h0]; rfl⟩
    rw [if_neg fun he => h0 ((h.ino_eq_zero hi).mp he)]
    obtain ⟨j, hslot, hlook, hcomp⟩ := h.grown.climb hi h0
    have hp := (h.grown.dotdot hi).2
    generalize hw : (V.names kind).child i 1 = w at hslot hlook hcomp hp
    have hwi : w < i := hw ▸ h.grown.earlier hi h0
    refine (h.load hi rfl).seq (Goes.dentries.bind ?_)
    rintro d V₁ ⟨hd, rfl⟩
    have hd1 : (d 1).ino.toNat = w := by
      rw [hd 1 (by decide)]
      exact hw
    refine (Goes.loadInode (by rw [hd1]; exact Nat.lt_of_lt_of_le (h.lt hp) h.le)).bind ?_
    rintro parent V₂ ⟨hparent, hV₂⟩
    have hp₂ : V.Peeks V₂ := by
      rw [hV₂]
      exact ⟨rfl, rfl, rfl, rfl⟩
    obtain rfl : parent = V₂.inode w := by rw [hparent, hd1, hp₂.inode]
    clear hV₂ hparent
    refine (ih (hp₂.hier h) hp (Nat.lt_of_lt_of_le hwi (Nat.le_of_lt_succ hf))).bind ?_
    rintro out V₃ ⟨hp₃, names, rfl, hnames, hwalk⟩
    have hp₃ := hp₂.trans hp₃
    refine ((hp₃.hier h).load hp (by rw [hp₃.inode, hp₂.inode])).seq (Goes.dentries.bind ?_)
    rintro d V₄ ⟨hd, rfl⟩
    have hdent : ∀ y < NUM_DENTRIES, d y = (V.names kind).dent w y := by
      intro y hy
      rw [hd y hy, ← hp₃.names]
      rfl
    have hfind : (List.range NUM_DENTRIES).find? (fun y => (d y).ino = (V.inode i).ino) = some j := by
      rw [← hslot, Names.slotFor]
      refine List.find?_congr fun y hy => decide_eq_decide.mpr ?_
      rw [hdent y (List.mem_range.mp hy), ← UInt32.toNat_inj, (h.inode hi).1]
      rfl
    rw [hfind]
    have hj : j < NUM_DENTRIES := List.mem_range.mp (List.mem_of_find?_eq_some hslot)
    refine Goes.pure ⟨hp₃.trans ⟨rfl, rfl, rfl, rfl⟩, names ++ [(d j).string], ?_, ?_, ?_⟩
    · rw [printed, printed, List.map_append]
      rfl
    · intro name hn
      obtain hn | hn := List.mem_append.mp hn
      · exact hnames name hn
      · rw [List.mem_singleton.mp hn, hdent j hj]
        exact hcomp
    · rw [List.map_append]
      refine Names.walk_concat (hp₂.names kind ▸ hwalk) hp ?_
      rw [← hlook, hdent j hj]
      rfl

/-- Names that lead from directory to directory are followed. -/
theorem Hier.follow (h : V.Hier kind k) {names : List CString} (hn : ∀ name ∈ names, IsComponent name.chars)
    (hw : (V.names kind).walk i (names.map CString.chars) = some c) :
    Goes V (follow names (V.inode i)) fun r V' => V.Peeks V' ∧ r = some (V.inode c) := by
  induction names generalizing V i with
  | nil =>
    obtain rfl := Option.some.inj hw
    exact Goes.pure ⟨Peeks.refl V, rfl⟩
  | cons name names ih =>
    rw [List.map_cons, Names.walk] at hw
    split at hw
    · next hi =>
      obtain ⟨u, hu, hw⟩ := Option.bind_eq_some_iff.mp hw
      refine (h.find_inode hi rfl (hn name List.mem_cons_self)).bind ?_
      rintro r V₁ ⟨hp, hf⟩
      rw [hu] at hf
      obtain ⟨rfl, hbuf⟩ := hf
      refine (Goes.inodeBuf (Nat.mod_lt _ (by decide))).seq ?_
      rw [hbuf, ← hp.inode]
      refine (ih (hp.hier h) (fun n hn' => hn n (List.mem_cons_of_mem _ hn')) (by rwa [hp.names])).mono ?_
      rintro r V₂ ⟨hp₂, hr⟩
      exact ⟨hp.trans hp₂, by rw [hr, hp.inode]⟩
    · cases hw

end Whole

/-! ### The states that are reached -/

/-- The calls that make an entry or change the working directory. -/
inductive DirCall where
  | mkdir
  | touch
  | cd
  deriving DecidableEq

/-- What the call does. -/
def DirCall.prog : DirCall → CString → FsM ℤ
  | mkdir => Fs.do_mkdir
  | touch => Fs.do_touch
  | cd => Fs.do_cd

/-- The states after `do_mkfs`, in whatever state, and calls with one component each. -/
inductive Reached : Conf Mem Units → Prop
  | mkfs {c c' : Conf Mem Units} {r : ℤ} (he : exec units Fs.do_mkfs c = some (r, c')) : Reached c'
  | call {c c' : Conf Mem Units} {r : ℤ} (call : DirCall) (path : CString) (hp : 47 ∉ path.chars) (h : Reached c)
      (he : exec units (call.prog path) c = some (r, c')) : Reached c'

/-- A name without an end is no path. -/
theorem do_cd_long {path : CString} (hp : 47 ∉ path.chars)
    (hlen : ¬ path.chars.length < MAX_PATHNAME_LEN) (c : Conf Mem Units) :
    exec units (Fs.do_cd path) c = none := by
  have hnil : path.chars ≠ [] := by
    intro h
    rw [h] at hlen
    exact hlen (by decide)
  have hcomp : Fs.component path.chars = (path.chars, []) := by
    rw [Fs.component, List.takeWhile_eq_self_iff.mpr, List.dropWhile_eq_nil_iff.mpr, List.tail_nil]
    all_goals
      intro x hx
      simpa using fun h : x = 47 => hp (h ▸ hx)
  have hparse : Fs.parse_path path.chars = none := by
    rw [Fs.parse_path, hcomp]
    exact if_neg fun h => hlen h.1
  rw [Fs.do_cd, Fs.findFromWd]
  simp only [exec_bind, Fs.find_inode, if_neg hnil, hparse, exec_stop, Option.bind_none, Option.bind_fun_none]

/-- A call leaves the directories in order, and the working directory among them. -/
theorem Place.Settled.takes {S : Place} {call : DirCall} {path : CString} (hs : S.Settled) (hp : 47 ∉ path.chars)
    (hlen : call = .cd → path.chars.length < MAX_PATHNAME_LEN) : Takes S (call.prog path) fun _ S' => S'.Settled := by
  obtain ⟨V, wd, fd⟩ := S
  obtain ⟨kind, k, w, h, hw, hwd⟩ := hs
  dsimp only at h hwd
  subst hwd
  have hentered : ∀ {name kd} {S' : Place}, V.Enlarges kind k w name kd S' → S'.Settled := by
    rintro name kd S' ⟨hwd, ⟨hnew, -⟩ | ⟨-, k', h'⟩⟩
    · refine ⟨_, _, w, hnew.hier, ?_, hwd⟩
      rw [Function.update_of_ne (h.lt hw).ne, hw]
    · exact ⟨kind, k', w, h', hw, hwd⟩
  cases call with
  | mkdir => exact (h.do_mkdir hw hp).mono fun _ S' hS => hentered hS.2
  | touch => exact (h.do_touch hw hp).mono fun _ S' hS => hentered hS.2
  | cd =>
    refine (h.do_cd hw hp (hlen rfl)).mono ?_
    rintro _ S' ⟨hpk, -, w', hw', hwd, -⟩
    exact ⟨kind, k, w', hpk.hier h, hw', by rw [hwd, hpk.inode]⟩

theorem Reached.settled {c : Conf Mem Units} (h : Reached c) : (Place.of c).Settled := by
  induction h with
  | mkfs he => exact do_mkfs_ensures _ rfl _ _ he
  | call call path hp _ he ih =>
    by_cases hlen : call = .cd → path.chars.length < MAX_PATHNAME_LEN
    · exact (ih.takes hp hlen).of_exec rfl he
    · obtain ⟨rfl, hlong⟩ := Classical.not_imp.mp hlen
      rw [DirCall.prog, do_cd_long hp hlong] at he
      cases he

/-- More fuel changes nothing. -/
theorem nest_pwd_mono {n fuel : ℕ} {I : Inode} {c : Conf Mem Units}
    {r : List (List UInt8) × Conf Mem Units} (hn : n ≤ fuel)
    (h : exec units (Fs.nest_pwd n I) c = some r) : exec units (Fs.nest_pwd fuel I) c = some r := by
  induction n generalizing fuel I c r with
  | zero => cases h
  | succ n ih =>
    obtain ⟨fuel, rfl⟩ : ∃ m, fuel = m + 1 := ⟨fuel - 1, by omega⟩
    rw [Fs.nest_pwd] at h ⊢
    split at h
    · next h0 => rwa [if_pos h0]
    · next h0 =>
      rw [if_neg h0]
      simp only [exec_bind, Option.bind_eq_some_iff] at h ⊢
      obtain ⟨_, h₁, _, h₂, _, h₃, _, h₄, h₅⟩ := h
      exact ⟨_, h₁, _, h₂, _, h₃, _, ih (Nat.le_of_succ_le_succ hn) h₄, h₅⟩

/-- `pwd` prints a path that leads from the root to the working directory. -/
theorem nest_pwd_leads {c : Conf Mem Units} (h : Reached c) : ∃ (names : List CString) (c₁ c₂ : Conf Mem Units),
    (∀ fuel, NUM_INODES ≤ fuel → exec units (Fs.nest_pwd fuel c.mem.wd_inode) c = some (printed names, c₁)) ∧
    exec units Fs.do_pwd c = some ((0, printed names ++ [[10]]), c₁) ∧ (∀ name ∈ names, IsComponent name.chars) ∧
    exec units (do let root ← Fs.loadInode 0; follow names root) c₁ = some (some c.mem.wd_inode, c₂) := by
  obtain ⟨kind, k, w, hier, hw, hwd⟩ := h.settled
  have hwd : c.mem.wd_inode = (Whole.of c).inode w := hwd
  obtain ⟨_, c₁, he₁, hpk, names, rfl, hnames, hwalk⟩ :=
    hier.nest_pwd hw (Nat.lt_of_lt_of_le (hier.lt hw) hier.le) c rfl
  have hfollow : Goes (Whole.of c₁) (do let root ← Fs.loadInode 0; follow names root) fun r _ =>
      r = some c.mem.wd_inode := by
    refine (Goes.loadInode (by decide)).bind ?_
    rintro root V ⟨hroot, hV⟩
    have hpk' : (Whole.of c).Peeks V := by
      rw [hV]
      exact hpk.trans ⟨rfl, rfl, rfl, rfl⟩
    obtain rfl : root = V.inode 0 := by rw [hroot, hpk'.inode, hpk.inode]; rfl
    refine ((hpk'.hier hier).follow hnames (by rwa [hpk'.names])).mono ?_
    rintro r V' ⟨-, rfl⟩
    rw [hwd, hpk'.inode]
  obtain ⟨_, c₂, he₂, rfl⟩ := hfollow c₁ rfl
  have hpwd : ∀ fuel, NUM_INODES ≤ fuel →
      exec units (Fs.nest_pwd fuel c.mem.wd_inode) c = some (printed names, c₁) := by
    intro fuel hf
    rw [hwd]
    exact nest_pwd_mono hf he₁
  refine ⟨names, c₁, c₂, hpwd, ?_, hnames, he₂⟩
  have hget : exec units Fs.wdInode c = some (c.mem.wd_inode, c) := rfl
  simp only [Fs.do_pwd, exec_bind, hget, Option.bind_some, hpwd NUM_INODES le_rfl, exec_pure]

/-- The state after a call, if it comes back. -/
def Conf.after (x : FsM ℤ) (c : Conf Mem Units) : Conf Mem Units := ((exec units x c).map Prod.snd).getD c

theorem exec_after {x : FsM ℤ} {c : Conf Mem Units} {P : ℤ → Place → Prop} (h : Takes (Place.of c) x P) :
    ∃ r, exec units x c = some (r, Conf.after x c) := by
  obtain ⟨r, c', he, -⟩ := h c rfl
  exact ⟨r, by rw [Conf.after, he]; rfl⟩

/-- An empty card after `mkfs`, `mkdir a` and `cd a`. -/
def inA : Conf Mem Units :=
  Conf.after (Fs.do_cd (.ofString "a")) (Conf.after (Fs.do_mkdir (.ofString "a")) (Conf.after Fs.do_mkfs Conf.empty))

theorem nest_pwd_leads_inA : ∃ (names : List CString) (c₁ c₂ : Conf Mem Units),
    (∀ fuel, NUM_INODES ≤ fuel → exec units (Fs.nest_pwd fuel inA.mem.wd_inode) inA = some (printed names, c₁)) ∧
    exec units Fs.do_pwd inA = some ((0, printed names ++ [[10]]), c₁) ∧ (∀ name ∈ names, IsComponent name.chars) ∧
    exec units (do let root ← Fs.loadInode 0; follow names root) c₁ = some (some inA.mem.wd_inode, c₂) := by
  refine nest_pwd_leads ?_
  obtain ⟨_, he₁⟩ := exec_after (c := Conf.empty) (do_mkfs_settles ⟨⟨0, by decide⟩, rfl⟩)
  have h₁ := Reached.mkfs he₁
  have hmkdir : Takes _ (DirCall.mkdir.prog (.ofString "a")) _ := h₁.settled.takes (by decide) nofun
  obtain ⟨_, he₂⟩ := exec_after hmkdir
  have h₂ := h₁.call .mkdir _ (by decide) he₂
  have hcd : Takes _ (DirCall.cd.prog (.ofString "a")) _ := h₂.settled.takes (by decide) fun _ => by decide
  obtain ⟨_, he₃⟩ := exec_after hcd
  exact h₂.call .cd _ (by decide) he₃

end OsLab
