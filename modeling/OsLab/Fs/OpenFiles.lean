import OsLab.Fs.Directories

/-!
# Open files

An open descriptor belongs to a file (`Opened`), and stays with it through every call that does not close
it, as long as `do_rm` does not take away the last name of the file (`KeepsOpen`); the inode is then
not given back, so that it cannot become another file's or directory's. What is written through the
descriptor then changes no other file, and what is read through it are bytes of this file (`opened_of_run`).
-/

namespace OsLab

open Lib ProgM Bytes

/-- Descriptor `k` is open on file `f`. -/
structure Opened (V : Vol) (k : Fin NUM_FDESCS) (f : ℕ) : Prop where
  valid : (V.fdesc k).valid ≠ 0
  ino : (V.fdesc k).ino.toNat = f
  file : V.IsFile f

/-- The call does not close `fd` and does not take away the last name of `f`. -/
def KeepsOpen (fd : ℤ) (f : ℕ) (V : Vol) : SysCall → Prop
  | .do_close fd' => fd' ≠ fd
  | .do_rm path => V.find path = some f → (V.inode f).nlink ≠ 1
  | _ => True

theorem Vol.fdesc_setFdesc (V : Vol) (k : Fin NUM_FDESCS) (x : Fdesc) :
    (V.setFdesc k x).fdesc k = x := Function.update_self ..

theorem Vol.cwd_setFdesc (V : Vol) (k : Fin NUM_FDESCS) (x : Fdesc) : (V.setFdesc k x).cwd = V.cwd := rfl

theorem Vol.leaf_setFdesc (V : Vol) (k : Fin NUM_FDESCS) (x : Fdesc) (f n : ℕ) :
    (V.setFdesc k x).leaf f n = V.leaf f n := rfl

theorem fdIndex_inj {fd fd' : ℤ} {k : Fin NUM_FDESCS}
    (h : Fs.fdIndex fd = some k) (h' : Fs.fdIndex fd' = some k) : fd = fd' := by
  have hval : ∀ {x : ℤ}, Fs.fdIndex x = some k → x = (k : ℕ) := by
    intro x hx
    rw [Fs.fdIndex] at hx
    split at hx
    · next hr =>
      have := congrArg Fin.val (Option.some.inj hx)
      simp only at this
      omega
    · cases hx
  rw [hval h, hval h']

/-- A descriptor that is open is changed in its positions only. -/
theorem SysCall.Effect.fdesc {V V' : Vol} {r : ℤ} {call : SysCall}
    {fd : ℤ} {k : Fin NUM_FDESCS} (he : call.Effect V V' r)
    (hk : Fs.fdIndex fd = some k) (hvalid : (V.fdesc k).valid ≠ 0) (hclose : call ≠ .do_close fd) :
    (V'.fdesc k).valid = (V.fdesc k).valid ∧ (V'.fdesc k).ino = (V.fdesc k).ino ∧
    (V'.fdesc k).mode = (V.fdesc k).mode := by
  have hsame : ∀ {W : Vol}, W.fdesc = V.fdesc →
      (W.fdesc k).valid = (V.fdesc k).valid ∧ (W.fdesc k).ino = (V.fdesc k).ino ∧
      (W.fdesc k).mode = (V.fdesc k).mode := by
    intro W hW
    rw [hW]
    exact ⟨rfl, rfl, rfl⟩
  have hset : ∀ {g : Fin NUM_FDESCS → Fdesc} {k' : Fin NUM_FDESCS} {x : Fdesc}, g = Function.update V.fdesc k' x →
      (k' = k → x.valid = (V.fdesc k).valid ∧ x.ino = (V.fdesc k).ino ∧ x.mode = (V.fdesc k).mode) →
      (g k).valid = (V.fdesc k).valid ∧ (g k).ino = (V.fdesc k).ino ∧ (g k).mode = (V.fdesc k).mode := by
    rintro g k' x rfl hx
    by_cases hkk : k = k'
    · subst hkk
      rw [Function.update_self]
      exact hx rfl
    · rw [Function.update_of_ne hkk]
      exact ⟨rfl, rfl, rfl⟩
  cases call with
  | do_mkdir path =>
    obtain ⟨-, rfl, -⟩ | ⟨-, hm⟩ := he
    · exact hsame rfl
    · exact hsame hm.fdesc
  | do_rmdir path =>
    obtain ⟨-, rfl⟩ | ⟨-, d, -, hm⟩ := he
    · exact hsame rfl
    · exact hsame hm.fdesc
  | do_touch path =>
    obtain ⟨-, rfl, -⟩ | ⟨-, hm⟩ := he
    · exact hsame rfl
    · exact hsame hm.fdesc
  | do_ln src dst =>
    obtain ⟨-, rfl, -⟩ | ⟨-, f, w, name, -, -, -, hm⟩ := he
    · exact hsame rfl
    · exact hsame hm.fdesc
  | do_rm path =>
    obtain ⟨-, rfl, -⟩ | ⟨-, f, -, -, hm⟩ := he
    · exact hsame rfl
    · exact hsame hm.fdesc
  | do_cd path =>
    obtain ⟨-, rfl, -⟩ | ⟨-, i, -, -, rfl⟩ := he
    · exact hsame rfl
    · exact hsame rfl
  | do_open path mode =>
    obtain ⟨-, rfl, -⟩ | ⟨k', f, -, -, -, hfree, rfl⟩ := he
    · exact hsame rfl
    · exact hset rfl fun hkk => absurd (hkk ▸ hfree) hvalid
  | do_lseek fd' offset whence =>
    obtain ⟨-, rfl⟩ | ⟨k', rp, wp, -, -, rfl⟩ := he
    · exact hsame rfl
    · exact hset rfl fun hkk => by rw [hkk]; exact ⟨rfl, rfl, rfl⟩
  | do_read fd' length =>
    obtain ⟨-, rfl⟩ | ⟨k', now, pos, -, -, -, rfl⟩ := he
    · exact hsame rfl
    · exact hset rfl fun hkk => by rw [hkk]; exact ⟨rfl, rfl, rfl⟩
  | do_write fd' buff =>
    obtain ⟨k', -, -, -, -, w, -, hfd⟩ := he
    exact hset hfd fun hkk => by rw [hkk]; exact ⟨rfl, rfl, rfl⟩
  | do_close fd' =>
    obtain ⟨k', -, hk', rfl⟩ := he
    refine hset rfl fun hkk => absurd ?_ hclose
    exact congrArg SysCall.do_close (fdIndex_inj (hkk ▸ hk') hk)

/-- A file keeps its inode, unless its last name goes. -/
theorem Change.isFile {V V' : Vol} {call : SysCall} {fd : ℤ} {f : ℕ} (h : V.Inv) (hc : Change V V' call)
    (hkeep : KeepsOpen fd f V call) (hf : V.IsFile f) : V'.IsFile f := by
  rw [Vol.IsFile]
  cases hc with
  | same hb hs hd => rwa [hs.kind]
  | madeDir hm =>
    obtain ⟨i, j, e, -, -, hM, -⟩ := hm.names
    rw [hM.kind, if_neg]
    · exact hf
    · rintro rfl
      cases hM.new.symm.trans hf
  | removedDir hd hm =>
    obtain ⟨j, e, hM⟩ := hm.names
    rw [hM.kind, if_neg]
    · exact hf
    · rintro rfl
      cases hM.dir.symm.trans hf
  | touched hm =>
    obtain ⟨i, j, e, -, -, hM, -⟩ := hm.names
    rw [hM.kind]
    split
    · rfl
    · exact hf
  | linked _ _ _ hm =>
    obtain ⟨j, e, hM, -⟩ := hm.names
    rw [hM.kind]
    split
    · rfl
    · exact hf
  | removed hfind hfile hm =>
    obtain ⟨j, e, hM⟩ := hm.names
    rw [hM.kind, if_neg]
    · exact hf
    · rintro ⟨rfl, hcard⟩
      have hlinks : (V.inode f).nlink.toNat = (V.names.refs f).card := h.names.links hf
      rw [hcard] at hlinks
      exact hkeep hfind (UInt16.toNat_inj.mp hlinks)

/-- The run lemma: an open descriptor stays with its file. -/
theorem Opened.run {s s' : Sys} {fd : ℤ} {k : Fin NUM_FDESCS} {f : ℕ} (h : Sound s) (hk : Fs.fdIndex fd = some k)
    (ho : Opened s.vol k f) (hr : Run (fun V call => call.Ok V ∧ KeepsOpen fd f V call) s s') :
    Sound s' ∧ Opened s'.vol k f := by
  refine Run.keeps (I := fun V => Opened V k f) (fun _ _ hp => hp.1) ?_ h ho hr
  rintro V V' call r hI ⟨-, hkeep⟩ he ho
  have hclose : call ≠ .do_close fd := by
    rintro rfl
    exact hkeep rfl
  obtain ⟨hv, hi, -⟩ := he.fdesc hk ho.valid hclose
  exact ⟨by rw [hv]; exact ho.valid, by rw [hi]; exact ho.ino, (he.change hI).isFile hI hkeep ho.file⟩

section Stays

variable {s s₁ : Sys} {fd : ℤ}

/-- What `do_open` returned belongs to the file. -/
theorem Sound.opened (h : Sound s) {path : CString} {mode : ℤ} (hp : s.vol.PathOk path)
    (he : exec cached (Fs.do_open path mode) s = some (fd, s₁)) (hfd : fd ≠ -1) :
    ∃ k f, Fs.fdIndex fd = some k ∧ s.vol.find path = some f ∧ Sound s₁ ∧ Opened s₁.vol k f ∧
      s₁.vol = s.vol.setFdesc k ⟨UInt8.ofInt mode, 1, (s.vol.inode f).ino, 0, 0⟩ := by
  have hok : SysCall.Ok s.vol (.do_open path mode) := hp
  obtain ⟨r, t, he', ht, hE⟩ := h.call hok
  obtain ⟨rfl, rfl⟩ := Prod.mk.inj (Option.some.inj (he.symm.trans he'))
  obtain ⟨hr, -⟩ | ⟨k, f, rfl, hf, hfile, -, hv⟩ := hE
  · exact absurd hr hfd
  have hfk : s₁.vol.fdesc k = ⟨UInt8.ofInt mode, 1, (s.vol.inode f).ino, 0, 0⟩ := by rw [hv, Vol.fdesc_setFdesc]
  have hone : (1 : UInt8) ≠ 0 := by decide
  refine ⟨k, f, fdIndex_coe k, hf, ht, ⟨by rw [hfk]; exact hone, ?_, by rw [hv]; exact hfile⟩, hv⟩
  rw [hfk]
  exact h.inv.ino (Vol.imap_of_kind hfile)

/-- A write through an open descriptor changes no other file and no directory. -/
theorem Sound.write_other (h : Sound s) {k : Fin NUM_FDESCS}
    {f : ℕ} (hk : Fs.fdIndex fd = some k) (ho : Opened s.vol k f)
    {buff : List UInt8} (hok : SysCall.Ok s.vol (.do_write fd buff)) {r : ℤ}
    (he : exec cached (Fs.do_write fd buff) s = some (r, s₁)) :
    (∀ g, s.vol.IsFile g → g ≠ f → s₁.vol.file g = s.vol.file g) ∧
      ∀ i, s.vol.IsDir i → ∀ j, s₁.vol.names.dent i j = s.vol.names.dent i j := by
  obtain ⟨r', t, he', -, k', -, hk', -, hW, -⟩ := h.call hok
  obtain ⟨rfl, rfl⟩ := Prod.mk.inj (Option.some.inj (he.symm.trans he'))
  obtain rfl : k = k' := Option.some.inj (hk.symm.trans hk')
  rw [ho.ino] at hW
  exact ⟨hW.other, fun i hi j => hW.names.dent i j hi⟩

/-- A read through an open descriptor delivers the file's bytes. -/
theorem Sound.read_own (h : Sound s) {k : Fin NUM_FDESCS} {f : ℕ} (hk : Fs.fdIndex fd = some k) (ho : Opened s.vol k f)
    {length : ℤ} {r : ℤ × List UInt8} (he : exec cached (Fs.do_read fd length) s = some (r, s₁)) {j : ℕ} {c : UInt8}
    (hc : r.2[j]? = some c) :
    Delivers s.vol s.view.boot f (((s.vol.fdesc k).read_pos.toNat + j) % 2 ^ 32) c := by
  have hok : s.vol.ReadOk fd := by
    intro k' hk' _ _
    obtain rfl : k = k' := Option.some.inj (hk.symm.trans hk')
    rw [ho.ino]
    exact ho.file
  obtain ⟨r', t, he', -, -, hR⟩ := (do_read_spec (V := s.view) _ h.inv h.tidy hok).cached h.cache
  obtain ⟨rfl, rfl⟩ := Prod.mk.inj (Option.some.inj (he.symm.trans he'))
  obtain ⟨hr, -⟩ | ⟨k', now, pos, hk', -, -, -, hlen, hD⟩ := hR
  · rw [hr] at hc
    cases hc
  obtain rfl : k = k' := Option.some.inj (hk.symm.trans hk')
  have hj : j < length.toNat := by
    rw [← hlen]
    exact (List.getElem?_eq_some_iff.mp hc).1
  obtain ⟨c', hc', hd⟩ := hD j hj
  obtain rfl : c = c' := Option.some.inj (hc.symm.trans hc')
  rw [← ho.ino]
  exact hd

/-- From the moment `do_open` returned `fd` until `fd` is closed, the descriptor stays with its file
and the file with its inode, in every run that does not take away the file's last name; so writes
through `fd` change no other file, and reads deliver this file's bytes. -/
theorem opened_of_run {path : CString} {mode : ℤ} (h : Reach (fun V call => call.Ok V) s) (hp : s.vol.PathOk path)
    (he : exec cached (Fs.do_open path mode) s = some (fd, s₁)) (hfd : fd ≠ -1) :
    ∃ k f, Fs.fdIndex fd = some k ∧ s.vol.find path = some f ∧
      ∀ s₂, Run (fun V call => call.Ok V ∧ KeepsOpen fd f V call) s₁ s₂ →
        Opened s₂.vol k f ∧
        (∀ buff r (s₃ : Sys), SysCall.Ok s₂.vol (.do_write fd buff) →
          exec cached (Fs.do_write fd buff) s₂ = some (r, s₃) →
          (∀ g, s₂.vol.IsFile g → g ≠ f → s₃.vol.file g = s₂.vol.file g) ∧
            ∀ i, s₂.vol.IsDir i → ∀ j, s₃.vol.names.dent i j = s₂.vol.names.dent i j) ∧
        ∀ length r s₃, exec cached (Fs.do_read fd length) s₂ = some (r, s₃) → ∀ j c, r.2[j]? = some c →
          Delivers s₂.vol s₂.view.boot f (((s₂.vol.fdesc k).read_pos.toNat + j) % 2 ^ 32) c := by
  have hsound := h.sound fun _ _ hok => hok
  obtain ⟨k, f, hk, hf, hsound₁, ho, -⟩ := hsound.opened hp he hfd
  refine ⟨k, f, hk, hf, fun s₂ hr => ?_⟩
  obtain ⟨hsound₂, ho₂⟩ := ho.run hsound₁ hk hr
  exact ⟨ho₂, fun buff r s₃ hok he' => hsound₂.write_other hk ho₂ hok he', fun length r s₃ he' j c hc =>
    hsound₂.read_own hk ho₂ he' hc⟩

/-- `do_open` of `vm`, right after `do_mkfs`. -/
theorem Made.openVm (h : Made s) (mode : ℤ) : 
    ∃ (fd : ℤ) (s₁ : Sys), exec cached (Fs.do_open (.ofString "proc/sys/vm") mode) s = some (fd, s₁) ∧ fd ≠ -1 := by
  obtain ⟨hsound, hfresh, hcwd, -, k, hk⟩ := h.sound
  obtain ⟨hfind, hpath⟩ := hfresh.find_vm hcwd
  have hok : SysCall.Ok s.vol (.do_open (.ofString "proc/sys/vm") mode) := hpath
  obtain ⟨r, t, he, -, ⟨-, -, hno | hno⟩ | ⟨k', f, rfl, -⟩⟩ := hsound.call hok
  · exact absurd hfresh.file (hno 3 hfind)
  · exact absurd hk (hno k)
  · exact ⟨_, t, he, by omega⟩

/-- A byte written to `vm` and a byte read from it, right after `do_mkfs`. -/
theorem opened_session : ∃ (s s₁ s₂ s₃ : Sys) (fd : ℤ) (k : Fin NUM_FDESCS) (c : UInt8), Made s ∧
    exec cached (Fs.do_open (.ofString "proc/sys/vm") 3) s = some (fd, s₁) ∧ Fs.fdIndex fd = some k ∧
    exec cached (Fs.do_write fd [65]) s₁ = some (1, s₂) ∧ Opened s₂.vol k 3 ∧
    exec cached (Fs.do_read fd 1) s₂ = some ((1, [c]), s₃) ∧ Delivers s₂.vol s₂.view.boot 3 0 c := by
  obtain ⟨s, hs⟩ := made_start
  obtain ⟨hsound, hfresh, hcwd, hleaf, -⟩ := hs.sound
  obtain ⟨hfind, hpath⟩ := hfresh.find_vm hcwd
  obtain ⟨fd, s₁, he, hfd⟩ := hs.openVm 3
  obtain ⟨k, f, hk, hf, hall⟩ := opened_of_run (hs.reach _) hpath he hfd
  obtain rfl : 3 = f := Option.some.inj (hfind.symm.trans hf)
  -- What `do_open` left.
  obtain ⟨k', f', hk', hf', hsound₁, ho, hv⟩ := hsound.opened hpath he hfd
  obtain rfl : k = k' := Option.some.inj (hk.symm.trans hk')
  obtain rfl : 3 = f' := Option.some.inj (hfind.symm.trans hf')
  have hino : (s.vol.inode 3).ino = 3 := UInt32.toNat_inj.mp (hsound.inv.ino (Vol.imap_of_kind hfresh.file))
  have hfd₁ : s₁.vol.fdesc k = ⟨UInt8.ofInt 3, 1, 3, 0, 0⟩ := by rw [hv, Vol.fdesc_setFdesc, hino]
  have hfresh₁ : s₁.vol.Fresh := by rw [hv]; exact hfresh.setFdesc k _
  have hleaf₁ : s₁.vol.leaf 3 0 ≠ none := by rw [hv, Vol.leaf_setFdesc]; exact hleaf
  -- The write.
  have hw : s₁.vol.WriteOk k [(65 : UInt8)].length :=
    hfresh₁.writeOk (by rw [hfd₁]) (by decide) (by rw [hfd₁]; decide) (Or.inl hleaf₁)
  have hok : SysCall.Ok s₁.vol (.do_write fd [65]) := ⟨k, hk, hw⟩
  obtain ⟨r, s₂, he₂, hsound₂, k₂, rfl, hk₂, -, -, w, -, hfd₂⟩ := hsound₁.call hok
  obtain rfl : k = k₂ := Option.some.inj (hk.symm.trans hk₂)
  have hk₂ : s₂.vol.fdesc k = ⟨UInt8.ofInt 3, 1, 3, 0, w⟩ := by rw [hfd₂, Function.update_self, hfd₁]
  obtain ⟨ho₂, -, hread⟩ := hall s₂ (.single ⟨.do_write fd [65], _, ⟨hok, trivial⟩, he₂⟩)
  -- The read.
  have hrok : s₂.vol.ReadOk fd := by
    intro k' hk' _ _
    obtain rfl : k = k' := Option.some.inj (hk.symm.trans hk')
    rw [ho₂.ino]
    exact ho₂.file
  obtain ⟨⟨n, cs⟩, s₃, he₃, -, -, ⟨-, -, hno⟩ | ⟨k', -, -, -, -, -, hn, hlen, -⟩⟩ :=
    (do_read_spec (V := s₂.view) 1 hsound₂.inv hsound₂.tidy hrok).cached hsound₂.cache
  · have hmode : (s₂.vol.fdesc k).valid = 0 ∨ (s₂.vol.fdesc k).mode = O_WRONLY := hno k hk
    rw [hk₂] at hmode
    have hone : ¬ ((1 : UInt8) = 0 ∨ UInt8.ofInt 3 = O_WRONLY) := by decide
    exact absurd hmode hone
  obtain rfl : n = 1 := hn
  obtain ⟨c, rfl⟩ : ∃ c, cs = [c] := List.length_eq_one_iff.mp hlen
  have hdeliver := hread 1 _ s₃ he₃ 0 c rfl
  rw [hk₂] at hdeliver
  exact ⟨s, s₁, s₂, s₃, fd, k, c, hs, he, hk, he₂, ho₂, he₃, hdeliver⟩

/-- `do_cd("proc/sys")`, `do_open("vm")`, `do_rm("vm")` right after `do_mkfs`: the inode of the open
descriptor is given back. -/
theorem opened_rm_fails : ¬ ∀ (s s₁ s₂ : Sys) (path : CString) (mode fd : ℤ) (k : Fin NUM_FDESCS),
    Reach (fun _ _ => True) s →
    exec cached (Fs.do_open path mode) s = some (fd, s₁) → Fs.fdIndex fd = some k →
    Run (fun _ call => call ≠ .do_close fd) s₁ s₂ → s₂.vol.imap (s₂.vol.fdesc k).ino.toNat = true := by
  intro hall
  obtain ⟨s₀, hs⟩ := made_start
  obtain ⟨hsound₀, hfresh₀, hcwd₀, -, k₀, hk₀⟩ := hs.sound
  have hvm : Vol.Plain (.ofString "vm") := ⟨by decide, by decide, by decide, by decide, by decide⟩
  -- `do_cd`.
  obtain ⟨hsys, hsysOk⟩ := hfresh₀.find_sys hcwd₀
  have hok₀ : SysCall.Ok s₀.vol (.do_cd (.ofString "proc/sys")) := hsysOk
  obtain ⟨r, s, he₀, hsound, ⟨-, -, hno⟩ | ⟨-, i, hi, hdir, hv⟩⟩ := hsound₀.call hok₀
  · exact absurd (hfresh₀.dir 2 le_rfl) (hno 2 hsys)
  obtain rfl : 2 = i := Option.some.inj (hsys.symm.trans hi)
  have hfresh : s.vol.Fresh := by rw [hv]; exact hfresh₀.setWd hdir
  have hcwd : s.vol.cwd = 2 := by
    rw [hv, Vol.cwd_setWd]
    exact hsound₀.inv.ino (Vol.imap_of_kind hdir)
  have hfree : (s.vol.fdesc k₀).valid = 0 := by rw [hv]; exact hk₀
  have hfind : s.vol.find (.ofString "vm") = some 3 := by
    rw [hvm.find, hcwd]
    exact hfresh.inv.step_sole (hfresh.dir 2 le_rfl) hfresh.vm hvm.ne hvm.dot hvm.dotdot
  -- `do_open`.
  have hok : SysCall.Ok s.vol (.do_open (.ofString "vm") 3) := hvm.pathOk _
  obtain ⟨fd, s₁, he, hsound₁, ⟨-, -, hno | hno⟩ | ⟨k, f, rfl, hf, hfile, -, hv₁⟩⟩ := hsound.call hok
  · exact absurd hfresh.file (hno 3 hfind)
  · exact absurd hfree (hno k₀)
  obtain rfl : 3 = f := Option.some.inj (hfind.symm.trans hf)
  have hfresh₁ : s₁.vol.Fresh := by rw [hv₁]; exact hfresh.setFdesc k _
  have hcwd₁ : s₁.vol.cwd = 2 := by rw [hv₁, Vol.cwd_setFdesc, hcwd]
  have hfd₁ : (s₁.vol.fdesc k).ino.toNat = 3 := by
    rw [hv₁, Vol.fdesc_setFdesc]
    exact hsound.inv.ino (Vol.imap_of_kind hfile)
  have hfind₁ : s₁.vol.find (.ofString "vm") = some 3 := by
    rw [hvm.find, hcwd₁]
    exact hfresh₁.inv.step_sole (hfresh₁.dir 2 le_rfl) hfresh₁.vm hvm.ne hvm.dot hvm.dotdot
  -- `do_rm`.
  have hok₁ : SysCall.Ok s₁.vol (.do_rm (.ofString "vm")) := by
    refine ⟨hvm.pathOk _, fun g hg _ => ?_⟩
    obtain rfl : 3 = g := Option.some.inj (hfind₁.symm.trans hg)
    obtain ⟨j, -, hl⟩ := hfresh₁.link_vm
    exact ⟨j, hsound₁.inv.names.short hl, by rw [hcwd₁]; exact hl.2.2⟩
  obtain ⟨r₂, s₂, he₂, hsound₂, ⟨-, -, hno⟩ | ⟨-, g, hg, -, hR⟩⟩ := hsound₁.call hok₁
  · exact absurd hfresh₁.file (hno 3 hfind₁)
  obtain rfl : 3 = g := Option.some.inj (hfind₁.symm.trans hg)
  obtain ⟨j, e, hM⟩ := hR.names
  have hnone : s₂.vol.names.kind 3 = none := by rw [hM.kind, if_pos ⟨rfl, hfresh₁.card_vm⟩]
  have := hall s s₁ s₂ (.ofString "vm") 3 (k : ℕ) k ⟨s₀, hs, .single ⟨_, r, trivial, he₀⟩⟩ he (fdIndex_coe k)
    (.single ⟨.do_rm (.ofString "vm"), r₂, by simp, he₂⟩)
  rw [hR.fdesc, hfd₁, Vol.kind_eq_none.mp hnone] at this
  cases this

end Stays

end OsLab
