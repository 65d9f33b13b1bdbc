import OsLab.Fs.Model
import OsLab.Cache.Transparent

/-!
# The devices below the file system

The file system's programs run over the cache (`cached`). What they see of it is a map from
sectors to their contents: `disk` answers a `bread` and a `bwrite` by that map alone, in the
way `Bcache.bread_spec` and `Bcache.bwrite_spec` say, that is with the last sector of a run
for a read and with the first 512 bytes everywhere for a write. `disk` also insists that every
sector written lies in the file system's region; so a run over it that comes back has written
nowhere else.

`cached_of_disk` carries a run over `disk` to the cache; `logged_of_disk` also says where the
run has written.
-/

namespace OsLab

open Lib ProgM

/-- The contents of the sectors as a client of the cache sees them. -/
abbrev Disk := ℕ → Sector

/-- A sector of the file system's region. -/
def InRegion (s : ℕ) : Prop := FS_START_SECTOR ≤ s ∧ s < FS_START_SECTOR + FS_NUM_SECTORS

instance (s : ℕ) : Decidable (InRegion s) := inferInstanceAs (Decidable (_ ∧ _))

/-- The sectors `bwrite` writes. -/
def runSectors (n s : ℕ) : List ℕ := (List.range n).map fun i => (s + i) % 2 ^ 32

theorem mem_runSectors {n s x : ℕ} : x ∈ runSectors n s ↔ Bcache.InRun n s x := by
  simp only [runSectors, List.mem_map, List.mem_range, Bcache.InRun]
  exact exists_congr fun i => and_congr_right fun _ => eq_comm

/-- The cache as the device. -/
def cached : Handler Io Io.Res Bcache
  | .bread m n s, c => c.bread m n s
  | .bwrite m n s, c => (c.bwrite m n s).map fun c => ((), c)
  | .policy p, c => some ((), { c with page_cache_policy := p })

/-- The cache, and the sectors written so far. -/
def logged : Handler Io Io.Res (Bcache × List ℕ)
  | .bread m n s, (c, log) => (c.bread m n s).map fun r => (r.1, r.2, log)
  | .bwrite m n s, (c, log) => (c.bwrite m n s).map fun c => ((), c, runSectors n s ++ log)
  | .policy p, (c, log) => some ((), { c with page_cache_policy := p }, log)

/-- What `bread` reads. -/
def Disk.bread (d : Disk) (m : Bytes) (n s : ℕ) : Bytes := if n = 0 then m else m.put 0 (d ((s + (n - 1)) % 2 ^ 32))

/-- What `bwrite` writes. -/
def Disk.bwrite (d : Disk) (m : Bytes) (n s : ℕ) : Disk := fun x => if Bcache.InRun n s x then m.sector 0 else d x

/-- The sectors seen through the cache as the device. -/
def disk : Handler Io Io.Res Disk
  | .bread m n s, d => some (d.bread m n s, d)
  | .bwrite m n s, d => if ∀ x ∈ runSectors n s, InRegion x then some ((), d.bwrite m n s) else none
  | .policy _, d => some ((), d)

/-- The step lemma: the cache answers as the map of its contents does, and writes only in the
region. -/
theorem logged_step (e : Io) (d : Disk) (c : Bcache × List ℕ) (r : Io.Res e) (d' : Disk)
    (hrel : c.1.Ok ∧ c.1.logical = d ∧ ∀ x ∈ c.2, InRegion x) (he : disk e d = some (r, d')) :
    ∃ c', logged e c = some (r, c') ∧ c'.1.Ok ∧ c'.1.logical = d' ∧ ∀ x ∈ c'.2, InRegion x := by
  obtain ⟨c, log⟩ := c
  obtain ⟨hok, hd, hlog⟩ := hrel
  cases e with
  | bread m n s =>
    subst hd
    obtain ⟨c', hb, hok', hl⟩ := Bcache.bread_spec hok m n s
    simp only [disk, Option.some.injEq] at he
    obtain ⟨rfl, rfl⟩ := he
    exact ⟨(c', log), by simp [logged, hb, Disk.bread], hok', hl, hlog⟩
  | bwrite m n s =>
    subst hd
    obtain ⟨c', hb, hok', hl⟩ := Bcache.bwrite_spec hok m n s
    simp only [disk] at he
    split at he
    · next hin =>
      simp only [Option.some.injEq] at he
      obtain ⟨-, rfl⟩ := he
      refine ⟨(c', runSectors n s ++ log), by simp [logged, hb], hok', funext hl, fun x hx => ?_⟩
      obtain hx | hx := List.mem_append.mp hx
      · exact hin x hx
      · exact hlog x hx
    · cases he
  | policy p =>
    have hd' : d = d' := congrArg Prod.snd (Option.some.inj he)
    obtain ⟨hok', hl⟩ := Bcache.policy_spec hok p
    exact ⟨({ c with page_cache_policy := p }, log), rfl, hok', (hl.trans hd).trans hd', hlog⟩

variable {α : Type}

/-- The log is only a record: without it the run is the same. -/
theorem cached_of_logged (x : FsM α) {m m' : Mem} {c c' : Bcache} {log log' : List ℕ} {a : α}
    (h : exec logged x ⟨m, c, log⟩ = some (a, ⟨m', c', log'⟩)) : exec cached x ⟨m, c⟩ = some (a, ⟨m', c'⟩) := by
  obtain ⟨c'', h'', rfl⟩ := exec_sim logged cached (fun p c => p.1 = c) (fun e p c r p' hrel he => by
    obtain ⟨c, log⟩ := p
    subst hrel
    cases e with
    | bread m n s =>
      simp only [logged, Option.map_eq_some_iff] at he
      obtain ⟨⟨m', c'⟩, hb, rfl, rfl⟩ := he
      exact ⟨c', hb, rfl⟩
    | bwrite m n s =>
      simp only [logged, Option.map_eq_some_iff] at he
      obtain ⟨c', hb, -, rfl⟩ := he
      exact ⟨c', by simp [cached, hb], rfl⟩
    | policy p =>
      simp only [logged, Option.some.injEq] at he
      obtain ⟨-, rfl⟩ := he
      exact ⟨_, rfl, rfl⟩) x c rfl h
  exact h''

/-- A run over the map of sectors is a run over the cache that writes only in the region. -/
theorem logged_of_disk (x : FsM α) {m m' : Mem} {c : Bcache} (log : List ℕ) {d' : Disk} {a : α} (hok : c.Ok)
    (hlog : ∀ x ∈ log, InRegion x) (h : exec disk x ⟨m, c.logical⟩ = some (a, ⟨m', d'⟩)) :
    ∃ c' log', exec logged x ⟨m, c, log⟩ = some (a, ⟨m', c', log'⟩) ∧ c'.Ok ∧ c'.logical = d' ∧
      ∀ x ∈ log', InRegion x := by
  obtain ⟨⟨c', log'⟩, h', hrel⟩ :=
    exec_sim disk logged (fun d c => c.1.Ok ∧ c.1.logical = d ∧ ∀ x ∈ c.2, InRegion x)
      (fun e d c r d' hrel he => logged_step e d c r d' hrel he) x (c, log) ⟨hok, rfl, hlog⟩ h
  exact ⟨c', log', h', hrel⟩

theorem cached_of_disk (x : FsM α) {m m' : Mem} {c : Bcache} {d' : Disk} {a : α} (hok : c.Ok)
    (h : exec disk x ⟨m, c.logical⟩ = some (a, ⟨m', d'⟩)) :
    ∃ c', exec cached x ⟨m, c⟩ = some (a, ⟨m', c'⟩) ∧ c'.Ok ∧ c'.logical = d' := by
  obtain ⟨c', log', h', hok', hl, -⟩ := logged_of_disk x [] hok (by simp) h
  exact ⟨c', cached_of_logged x h', hok', hl⟩

end OsLab
