import OsLab.Fs.Mkfs
import OsLab.Fs.Remove
import Mathlib.Logic.Relation

/-!
# Runs

The file system as a whole: its variables over the buffer cache (`Sys`), made by `do_mkfs` and
taken from state to state by the system calls. `Run P` are the runs from a state in which every
call meets `P`, a condition on the volume before the call; `Reach P` are the states that such
runs lead to from `do_mkfs`.

What the volume is at a moment is read through the cache: `Sys.vol`. `SysCall.Ok` collects the
conditions under which the calls keep the volume in order, and `SysCall.Effect` says what each
call then does. One step lemma (`Sound.call`) says that such a call comes back and has that effect.
So in every state of such a run the volume is in order (`Reach.sound`).
-/

namespace OsLab

open Lib ProgM Relation

/-- The file system's variables and the buffer cache below it. -/
abbrev Sys := Conf Mem Bcache

/-- The volume, as the file system sees it through the cache. -/
def Sys.view (s : Sys) : View := View.of ⟨s.mem, s.dev.logical⟩

/-- The volume, as the file system sees it through the cache. -/
def Sys.vol (s : Sys) : Vol := s.view.toVol

/-- The system calls. -/
inductive SysCall where
  | do_mkdir (path : CString)
  | do_rmdir (path : CString)
  | do_touch (path : CString)
  | do_ln (src_path dst_path : CString)
  | do_rm (path : CString)
  | do_cd (path : CString)
  | do_open (path : CString) (mode : ℤ)
  | do_lseek (fd offset whence : ℤ)
  | do_read (fd length : ℤ)
  | do_write (fd : ℤ) (buff : List UInt8)
  | do_close (fd : ℤ)

namespace SysCall

/-- The code of a call. -/
def code : SysCall → FsM ℤ
  | do_mkdir path => Fs.do_mkdir path
  | do_rmdir path => Fs.do_rmdir path
  | do_touch path => Fs.do_touch path
  | do_ln src dst => Fs.do_ln src dst
  | do_rm path => Fs.do_rm path
  | do_cd path => Fs.do_cd path
  | do_open path mode => Fs.do_open path mode
  | do_lseek fd offset whence => Fs.do_lseek fd offset whence
  | do_read fd length => do
    let r ← Fs.do_read fd length
    pure r.1
  | do_write fd buff => Fs.do_write fd buff
  | do_close fd => Fs.do_close fd

/-- When a call keeps the volume in order. -/
def Ok (V : Vol) : SysCall → Prop
  | do_mkdir path => V.MkdirOk path
  | do_rmdir path => V.RmdirOk path
  | do_touch path => V.TouchOk path
  | do_ln src dst => V.LnOk src dst
  | do_rm path => V.RmOk path
  | do_cd path => V.PathOk path
  | do_open path _ => V.PathOk path
  | do_lseek fd _ _ => V.SeekOk fd
  | do_read fd _ => V.ReadOk fd
  | do_write fd buff => ∃ k, Fs.fdIndex fd = some k ∧ V.WriteOk k buff.length
  | do_close fd => ∃ k, Fs.fdIndex fd = some k

/-- What a call does then. -/
def Effect (V V' : Vol) (r : ℤ) : SysCall → Prop
  | do_mkdir path => (r = -1 ∧ V' = V ∧ V.Refused path) ∨ (r = 0 ∧ MadeDir V V' path.chars)
  | do_rmdir path => (r = -1 ∧ V' = V) ∨ (r = 0 ∧ ∃ d, V.Rmdir path d ∧ RemovedDir V V' d)
  | do_touch path => (r = -1 ∧ V' = V ∧ V.Refused path) ∨ (r = 0 ∧ Touched V V' path.chars)
  | do_ln src dst => (r = -1 ∧ V' = V ∧ ∀ f, V.find src = some f → ¬ V.IsFile f) ∨
      (r = 0 ∧ ∃ f w name, V.find src = some f ∧ V.IsFile f ∧
      V.lnTarget dst = some (w, name) ∧ Linked V V' f w name)
  | do_rm path => (r = -1 ∧ V' = V ∧ ∀ f, V.find path = some f → ¬ V.IsFile f) ∨
      (r = 0 ∧ ∃ f, V.find path = some f ∧ V.IsFile f ∧ Removed V V' f)
  | do_cd path => (r = -1 ∧ V' = V ∧ ∀ i, V.find path = some i → ¬ V.IsDir i) ∨
      (r = 0 ∧ ∃ i, V.find path = some i ∧ V.IsDir i ∧ V' = V.setWd (V.inode i))
  | do_open path mode => (r = -1 ∧ V' = V ∧ ((∀ f, V.find path = some f → ¬ V.IsFile f) ∨ ∀ k, (V.fdesc k).valid ≠ 0)) ∨
      ∃ (k : Fin NUM_FDESCS) (f : ℕ), r = (k : ℕ) ∧ V.find path = some f ∧ V.IsFile f ∧ (V.fdesc k).valid = 0 ∧
        V' = V.setFdesc k ⟨UInt8.ofInt mode, 1, (V.inode f).ino, 0, 0⟩
  | do_lseek fd _ _ => (r = -1 ∧ V' = V) ∨ ∃ (k : Fin NUM_FDESCS) (rp wp : UInt32), r = 0 ∧ Fs.fdIndex fd = some k ∧
      V' = V.setFdesc k { V.fdesc k with read_pos := rp, write_pos := wp }
  | do_read fd length => (r = -1 ∧ V' = V) ∨
      ∃ (k : Fin NUM_FDESCS) (now pos : UInt32), r = length ∧ Fs.fdIndex fd = some k ∧
      V.IsFile (V.fdesc k).ino.toNat ∧ V' = V.readBy k (V.fdesc k).ino.toNat now pos
  | do_write fd buff => ∃ k, r = buff.length ∧ Fs.fdIndex fd = some k ∧ V.IsFile (V.fdesc k).ino.toNat ∧
      Written V V' (V.fdesc k).ino.toNat (V.fdesc k).write_pos.toNat buff ∧
      ∃ w : UInt32, w.toNat = (V.fdesc k).write_pos.toNat + buff.length ∧
      V'.fdesc = Function.update V.fdesc k { V.fdesc k with write_pos := w }
  | do_close fd => ∃ k, r = 0 ∧ Fs.fdIndex fd = some k ∧ V' = V.setFdesc k { V.fdesc k with valid := 0 }

/-- Every call, over the map of sectors. -/
theorem spec {V : View} (h : V.Inv) (ht : V.Tidy) {call : SysCall} (hok : call.Ok V.toVol) :
    Spec V call.code fun r V' => V'.Tidy ∧ call.Effect V.toVol V'.toVol r := by
  cases call with
  | do_mkdir path => exact do_mkdir_spec h ht hok
  | do_rmdir path => exact do_rmdir_spec h ht hok
  | do_touch path => exact do_touch_spec h ht hok
  | do_ln src dst => exact do_ln_spec h ht hok
  | do_rm path => exact do_rm_spec h ht hok
  | do_cd path => exact do_cd_spec h ht hok
  | do_open path mode => exact do_open_spec h ht hok mode
  | do_lseek fd offset whence => exact do_lseek_spec ht hok
  | do_read fd length =>
    refine (do_read_spec _ h ht hok).bind ?_
    rintro ⟨n, cs⟩ V' ⟨ht', ⟨hr, hv, -⟩ | ⟨k, now, pos, hk, hf, hv, hr, -⟩⟩
    · exact Spec.pure ⟨ht', Or.inl ⟨congrArg Prod.fst hr, hv⟩⟩
    · exact Spec.pure ⟨ht', Or.inr ⟨k, now, pos, hr, hk, hf, hv⟩⟩
  | do_write fd buff =>
    obtain ⟨k, hk, hw⟩ := hok
    refine (do_write_spec h ht hk hw).mono ?_
    rintro r V' ⟨hr, ht', hW, hfd⟩
    exact ⟨ht', k, hr, hk, hw.file, hW, hfd⟩
  | do_close fd =>
    obtain ⟨k, hk⟩ := hok
    exact (do_close_spec ht hk).mono fun r V' ⟨hr, ht', hv⟩ => ⟨ht', k, hr, hk, hv⟩

end SysCall

/-- What a call does to the tree. -/
inductive Change (V V' : Vol) : SysCall → Prop where
  /-- Nothing. -/
  | same {call : SysCall} (base : V'.Base) (names : V.names.Same V'.names)
    (dirs : ∀ x, V.IsDir x → V'.inode x = V.inode x) :
    Change V V' call
  | madeDir {path : CString} (h : MadeDir V V' path.chars) : Change V V' (.do_mkdir path)
  | removedDir {path : CString} {d : ℕ} (hd : V.Rmdir path d) (h : RemovedDir V V' d) : Change V V' (.do_rmdir path)
  | touched {path : CString} (h : Touched V V' path.chars) : Change V V' (.do_touch path)
  | linked {src dst : CString} {f w : ℕ} {name : List UInt8} (hf : V.find src = some f) (hfile : V.IsFile f)
      (hw : V.lnTarget dst = some (w, name)) (h : Linked V V' f w name) : Change V V' (.do_ln src dst)
  | removed {path : CString} {f : ℕ} (hf : V.find path = some f) (hfile : V.IsFile f) (h : Removed V V' f) :
    Change V V' (.do_rm path)

theorem Change.refl {V : Vol} (h : V.Base) (call : SysCall) : Change V V call := .same h (.refl _) fun _ _ => rfl

theorem SysCall.Effect.change {V V' : Vol} {r : ℤ} {call : SysCall} (h : V.Inv) (he : call.Effect V V' r) :
    Change V V' call := by
  cases call with
  | do_mkdir path =>
    obtain ⟨-, rfl, -⟩ | ⟨-, hm⟩ := he
    · exact .refl h.toBase _
    · exact .madeDir hm
  | do_rmdir path =>
    obtain ⟨-, rfl⟩ | ⟨-, d, hd, hm⟩ := he
    · exact .refl h.toBase _
    · exact .removedDir hd hm
  | do_touch path =>
    obtain ⟨-, rfl, -⟩ | ⟨-, hm⟩ := he
    · exact .refl h.toBase _
    · exact .touched hm
  | do_ln src dst =>
    obtain ⟨-, rfl, -⟩ | ⟨-, f, w, name, hf, hfile, hw, hm⟩ := he
    · exact .refl h.toBase _
    · exact .linked hf hfile hw hm
  | do_rm path =>
    obtain ⟨-, rfl, -⟩ | ⟨-, f, hf, hfile, hm⟩ := he
    · exact .refl h.toBase _
    · exact .removed hf hfile hm
  | do_cd path =>
    obtain ⟨-, rfl, -⟩ | ⟨-, i, -, hi, rfl⟩ := he
    · exact .refl h.toBase _
    · exact .same (h.setWd hi).toBase (.refl _) fun _ _ => rfl
  | do_open path mode =>
    obtain ⟨-, rfl, -⟩ | ⟨k, f, -, -, -, -, rfl⟩ := he
    · exact .refl h.toBase _
    · exact .same (h.setFdesc k _).toBase (.refl _) fun _ _ => rfl
  | do_lseek fd offset whence =>
    obtain ⟨-, rfl⟩ | ⟨k, rp, wp, -, -, rfl⟩ := he
    · exact .refl h.toBase _
    · exact .same (h.setFdesc k _).toBase (.refl _) fun _ _ => rfl
  | do_read fd length =>
    obtain ⟨-, rfl⟩ | ⟨k, now, pos, -, -, hf, rfl⟩ := he
    · exact .refl h.toBase _
    · obtain ⟨hinv, hs, hd, -⟩ := h.readBy hf k now pos
      exact .same hinv.toBase hs hd
  | do_write fd buff =>
    obtain ⟨k, -, -, -, hW, -⟩ := he
    exact .same hW.base hW.names hW.dirs
  | do_close fd =>
    obtain ⟨k, -, -, rfl⟩ := he
    exact .same (h.setFdesc k _).toBase (.refl _) fun _ _ => rfl

/-- Every change keeps the volume in order. -/
theorem Change.inv {V V' : Vol} {call : SysCall} (h : V.Inv) (hc : Change V V' call) : V'.Inv := by
  cases hc with
  | same hb hs hd => exact ⟨hb, hs.inv h.names⟩
  | madeDir hm =>
    obtain ⟨i, j, e, -, -, hM, -⟩ := hm.names
    exact ⟨hm.base, hM.inv h.names⟩
  | removedDir hd hm =>
    obtain ⟨j, e, hM⟩ := hm.names
    exact ⟨hm.base, hM.inv h.names⟩
  | touched hm =>
    obtain ⟨i, j, e, -, -, hM, -⟩ := hm.names
    exact ⟨hm.base, hM.inv h.names⟩
  | linked hf hfile hw hm =>
    obtain ⟨j, e, hM, -⟩ := hm.names
    exact ⟨hm.base, hM.inv h.names⟩
  | removed hf hfile hm =>
    obtain ⟨j, e, hM⟩ := hm.names
    exact ⟨hm.base, hM.inv h.names⟩

/-! ### States and runs -/

/-- What is described over the map of sectors happens over the cache. -/
theorem Spec.cached {α : Type} {x : FsM α} {Q : α → View → Prop} {s : Sys} (h : Spec s.view x Q) (hc : s.dev.Ok) :
    ∃ (a : α) (s' : Sys), exec OsLab.cached x s = some (a, s') ∧ s'.dev.Ok ∧ Q a s'.view := by
  obtain ⟨a, V', hdoes, hQ⟩ := h
  obtain ⟨⟨m', d'⟩, he, hv⟩ := hdoes ⟨s.mem, s.dev.logical⟩ rfl
  obtain ⟨c', he', hc', hl⟩ := cached_of_disk x hc he
  refine ⟨a, ⟨m', c'⟩, he', hc', ?_⟩
  rw [Sys.view, hl, hv]
  exact hQ

theorem Runs.cached {α : Type} {x : FsM α} {Q : α → St → Prop}
    {s : Sys} (h : Runs ⟨s.mem, s.dev.logical⟩ x Q) (hc : s.dev.Ok) :
    ∃ (a : α) (s' : Sys), exec OsLab.cached x s = some (a, s') ∧ s'.dev.Ok ∧ Q a ⟨s'.mem, s'.dev.logical⟩ := by
  obtain ⟨a, ⟨m', d'⟩, he, hQ⟩ := h
  obtain ⟨c', he', hc', rfl⟩ := cached_of_disk x hc he
  exact ⟨a, ⟨m', c'⟩, he', hc', hQ⟩

/-- A state in order. -/
structure Sound (s : Sys) : Prop where
  cache : s.dev.Ok
  tidy : s.view.Tidy
  inv : s.vol.Inv

/-- The step lemma: a call that meets its condition comes back, and has its effect. -/
theorem Sound.call {s : Sys} (h : Sound s) {c : SysCall} (hok : c.Ok s.vol) :
    ∃ (r : ℤ) (s' : Sys), exec cached c.code s = some (r, s') ∧ Sound s' ∧ c.Effect s.vol s'.vol r := by
  obtain ⟨r, s', he, hc, ht, hf⟩ := (SysCall.spec h.inv h.tidy hok).cached h.cache
  exact ⟨r, s', he, ⟨hc, ht, (hf.change h.inv).inv h.inv⟩, hf⟩

/-- One call from `s` to `s'`, made on a volume that meets `P`. -/
def Step (P : Vol → SysCall → Prop) (s s' : Sys) : Prop :=
  ∃ call r, P s.vol call ∧ exec cached call.code s = some (r, s')

/-- A run of such calls. -/
abbrev Run (P : Vol → SysCall → Prop) : Sys → Sys → Prop := ReflTransGen (Step P)

/-- A state that `do_mkfs` leaves, on any card and from any memory with a free descriptor. -/
def Made (s : Sys) : Prop :=
  ∃ (m : Mem) (c : Bcache) (r : ℤ),
    (∃ k, (m.fdesc_array k).valid = 0) ∧ exec cached Fs.do_mkfs ⟨m, c.init_bcache⟩ = some (r, s)

/-- A state reached from `do_mkfs`. -/
def Reach (P : Vol → SysCall → Prop) (s : Sys) : Prop := ∃ s₀, Made s₀ ∧ Run P s₀ s

section Run

variable {P : Vol → SysCall → Prop} {s s' : Sys}

/-- Fewer conditions, more states. -/
theorem Reach.mono {P' : Vol → SysCall → Prop} (hP : ∀ V call, P V call → P' V call) (h : Reach P s) : Reach P' s := by
  obtain ⟨s₀, hm, hr⟩ := h
  refine ⟨s₀, hm, ReflTransGen.mono ?_ _ _ hr⟩
  rintro a b ⟨call, r, hp, he⟩
  exact ⟨call, r, hP _ _ hp, he⟩

/-- One call more. -/
theorem Reach.call {c : SysCall} {r : ℤ} (h : Reach P s) (hp : P s.vol c) (he : exec cached c.code s = some (r, s')) :
    Reach P s' := by
  obtain ⟨s₀, hm, hr⟩ := h
  exact ⟨s₀, hm, hr.tail ⟨c, r, hp, he⟩⟩

/-- A step is the one that the step lemma describes. -/
theorem Step.effect (hP : ∀ V call, P V call → call.Ok V) (h : Sound s) (hs : Step P s s') :
    ∃ call r, P s.vol call ∧ Sound s' ∧ call.Effect s.vol s'.vol r := by
  obtain ⟨call, r, hp, he⟩ := hs
  obtain ⟨r', t, he', ht, hf⟩ := h.call (hP _ _ hp)
  rw [he] at he'
  obtain ⟨rfl, rfl⟩ := Prod.mk.inj (Option.some.inj he')
  exact ⟨call, r, hp, ht, hf⟩

/-- The run lemma: what every effect keeps holds in every state of a run. -/
theorem Run.keeps {I : Vol → Prop} (hP : ∀ V call, P V call → call.Ok V)
    (hI : ∀ V V' call r, V.Inv → P V call → call.Effect V V' r → I V → I V')
    (h : Sound s) (h0 : I s.vol) (hr : Run P s s') : Sound s' ∧ I s'.vol := by
  induction hr with
  | refl => exact ⟨h, h0⟩
  | tail _ hs ih =>
    obtain ⟨hsound, hi⟩ := ih
    obtain ⟨call, r, hp, hsound', he⟩ := hs.effect hP hsound
    exact ⟨hsound', hI _ _ call r hsound.inv hp he hi⟩

/-- What `do_mkfs` leaves. -/
theorem Made.sound (h : Made s) : Sound s ∧ s.vol.Fresh ∧ s.vol.cwd = 0 ∧
    s.vol.leaf 3 0 ≠ none ∧ ∃ k, (s.vol.fdesc k).valid = 0 := by
  obtain ⟨m, c, r, hfree, he⟩ := h
  have hc : c.init_bcache.Ok := ⟨[], Bcache.init_bcache_inv c⟩
  obtain ⟨r', t, he', hct, -, ht, -, hm⟩ := Runs.cached (s := ⟨m, c.init_bcache⟩) (do_mkfs_runs hfree) hc
  rw [he] at he'
  obtain ⟨rfl, rfl⟩ := Prod.mk.inj (Option.some.inj he')
  obtain ⟨k, -, hk, -⟩ := hm.fdesc
  exact ⟨⟨hct, ht, hm.fresh.inv⟩, hm.fresh, hm.cwd, hm.block, k, hk⟩

theorem Made.vol (h : Made s) : s.vol.Made := by
  obtain ⟨m, c, r, hfree, he⟩ := h
  have hc : c.init_bcache.Ok := ⟨[], Bcache.init_bcache_inv c⟩
  obtain ⟨r', t, he', -, -, -, hm, -⟩ := Runs.cached (s := ⟨m, c.init_bcache⟩) (do_mkfs_runs hfree) hc
  rw [he] at he'
  obtain ⟨rfl, rfl⟩ := Prod.mk.inj (Option.some.inj he')
  exact hm

/-- `do_mkfs` comes back. -/
theorem exists_made (m : Mem) (c : Bcache) (hfree : ∃ k, (m.fdesc_array k).valid = 0) :
    ∃ r s, exec cached Fs.do_mkfs ⟨m, c.init_bcache⟩ = some (r, s) ∧ Made s := by
  have hc : c.init_bcache.Ok := ⟨[], Bcache.init_bcache_inv c⟩
  obtain ⟨r, s, he, -⟩ := Runs.cached (s := ⟨m, c.init_bcache⟩) (do_mkfs_runs hfree) hc
  exact ⟨r, s, he, m, c, r, hfree, he⟩

/-- The volume is in order in every state of a run whose calls meet their conditions. -/
theorem Reach.sound (hP : ∀ V call, P V call → call.Ok V) (h : Reach P s) : Sound s := by
  obtain ⟨s₀, hm, hr⟩ := h
  exact (Run.keeps hP (I := fun _ => True) (fun _ _ _ _ _ _ _ _ => trivial) hm.sound.1 trivial hr).1

end Run

end OsLab
