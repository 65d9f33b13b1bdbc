import OsLab.Cache.Invariant

/-!
# What callers of the cache see

`bwrite` and `bread` of one sector behave as if there were no cache: over any sequence of
calls, flushes and changes of policy, a read delivers the latest write, evictions included
(`cache_transparent`).

Of several sectors they do not do what their callers expect. Both loops leave `mem_va` where
it is, so `bwrite` gives every sector the first 512 bytes of the source, and `bread` leaves
in the first 512 bytes of the destination what it read last (`bwrite_spec`, `bread_spec`). A
transfer of `n` sectors is faithful exactly when the pieces of the source are all alike and
the destination already holds the rest (`transfer_iff`).
-/

namespace OsLab

namespace Bcache

/-! ### One sector at a time -/

/-- A call of the cache: one sector read or written, a flush, or a change of policy. -/
inductive Call where
  /-- `bread(m, 1, s)`. -/
  | bread (m : Bytes) (s : UInt32)
  /-- `bwrite(m, 1, s)`. -/
  | bwrite (m : Bytes) (s : UInt32)
  /-- `bflush()`. -/
  | bflush
  /-- `page_cache_policy = p`. -/
  | policy (p : Policy)

/-- What a call does to the cache. -/
def Call.exec : Call → Bcache → Option Bcache
  | .bread m s, c => (c.bread m 1 s.toNat).map Prod.snd
  | .bwrite m s, c => c.bwrite m 1 s.toNat
  | .bflush, c => c.bflush
  | .policy p, c => some { c with page_cache_policy := p }

/-- A sequence of calls. -/
def exec (calls : List Call) (c : Bcache) : Option Bcache := calls.foldlM (fun c call => call.exec c) c

/-- The bytes of the latest `bwrite` to a sector. -/
def latest (s : UInt32) : List Call → Option Sector
  | [] => none
  | .bwrite m t :: calls => (latest s calls).or (if t = s then some (m.sector 0) else none)
  | _ :: calls => latest s calls

variable {c : Bcache}

theorem toNat_mod (s : UInt32) : (s.toNat + 0) % 2 ^ 32 = s.toNat := Nat.mod_eq_of_lt s.toNat_lt

theorem bread_one (h : c.Ok) (m : Bytes) (s : UInt32) :
    ∃ c', c.bread m 1 s.toNat = some (m.put 0 (c.logical s.toNat), c') ∧ c'.Ok ∧ c'.logical = c.logical := by
  obtain ⟨c', he, h', hl⟩ := breadSector_spec h m s.toNat
  refine ⟨c', ?_, h', hl⟩
  simp only [bread, List.range_one, List.foldlM_cons, List.foldlM_nil, toNat_mod, he]
  rfl

theorem bwrite_one (h : c.Ok) (m : Bytes) (s : UInt32) :
    ∃ c', c.bwrite m 1 s.toNat = some c' ∧ c'.Ok ∧ c'.logical = Function.update c.logical s.toNat (m.sector 0) := by
  obtain ⟨c', he, h', hl⟩ := bwriteSector_spec h m s.toNat
  refine ⟨c', ?_, h', hl⟩
  simp only [bwrite, List.range_one, List.foldlM_cons, List.foldlM_nil, toNat_mod, he]
  rfl

theorem policy_spec (h : c.Ok) (p : Policy) :
    ({ c with page_cache_policy := p } : Bcache).Ok ∧
    ({ c with page_cache_policy := p } : Bcache).logical = c.logical := by
  obtain ⟨l, h⟩ := h
  have h' : ({ c with page_cache_policy := p } : Bcache).Inv l := ⟨h.ring, h.valid, h.inj, h.clean⟩
  refine ⟨⟨l, h'⟩, funext fun s => h.logical_congr (fun i hi hs => ?_) (fun hs => h'.logical_of_notMem hs)⟩
  rw [← hs]
  exact h'.logical_of_mem hi

/-- The step lemma: a call succeeds, keeps the cache in order, and changes what is seen of a
sector only by writing it. -/
theorem Call.exec_spec (h : c.Ok) (call : Call) : ∃ c', call.exec c = some c' ∧ c'.Ok ∧
    ∀ s : UInt32, c'.logical s.toNat = (latest s [call]).getD (c.logical s.toNat) := by
  cases call with
  | bread m s =>
    obtain ⟨c', he, h', hl⟩ := bread_one h m s
    exact ⟨c', by simp [Call.exec, he], h', fun t => by simp [hl, latest]⟩
  | bwrite m s =>
    obtain ⟨c', he, h', hl⟩ := bwrite_one h m s
    refine ⟨c', he, h', fun t => ?_⟩
    rw [hl, Function.update_apply]
    by_cases hts : t = s
    · simp [latest, hts]
    · have : t.toNat ≠ s.toNat := fun e => hts (UInt32.toNat_inj.mp e)
      simp [latest, this, Ne.symm hts]
  | bflush =>
    obtain ⟨c', he, h', hl, -⟩ := bflush_spec h
    exact ⟨c', he, h', fun t => by simp [hl, latest]⟩
  | policy p => exact ⟨_, rfl, (policy_spec h p).1, fun t => by rw [(policy_spec h p).2]; simp [latest]⟩

/-- The run lemma. -/
theorem exec_spec (h : c.Ok) (calls : List Call) : ∃ c', c.exec calls = some c' ∧ c'.Ok ∧
    ∀ s : UInt32, c'.logical s.toNat = (latest s calls).getD (c.logical s.toNat) := by
  induction calls generalizing c with
  | nil => exact ⟨c, rfl, h, fun s => by simp [latest]⟩
  | cons call calls ih =>
    obtain ⟨c₁, he, h₁, hl₁⟩ := call.exec_spec h
    obtain ⟨c₂, he₂, h₂, hl₂⟩ := ih h₁
    refine ⟨c₂, ?_, h₂, fun s => ?_⟩
    · simp only [exec, List.foldlM_cons, he]
      exact he₂
    · rw [hl₂, hl₁]
      cases call with
      | bwrite m t => cases hs : latest s calls <;> by_cases hts : t = s <;> simp [latest, hs, hts]
      | _ => simp [latest]

/-- `brefill` never returns the null pointer. -/
theorem brefill_ne_null (h : c.Ok) (s : ℕ) : ∃ i c', c.brefill s = some (some i, c') := by
  obtain ⟨l, h⟩ := h
  obtain ⟨i, c₁, l₁, he, h₁, hi, -⟩ := find_free_buf_spec h
  have hring : (c₁.setBuf i ⟨1, 0, s, c₁.card s⟩).links.Ring .head (l₁.map BufNode.buf) := h₁.ring
  obtain ⟨links, hu, -⟩ := hring.insertFront (a := .buf i) (by simp [hi])
  refine ⟨i, { c₁.setBuf i ⟨1, 0, s, c₁.card s⟩ with links }, ?_⟩
  simp [brefill, he, hu]

/-- **The cache is transparent.** After any sequence of calls from `init_bcache` on: a `bread`
delivers the bytes of the latest `bwrite` to the sector, or the initial contents of the card;
`brefill` does not return the null pointer; and after a `bflush` the card itself holds these
contents, so that `bflush` followed by `init_bcache` loses nothing. -/
theorem cache_transparent (c₀ : Bcache) (calls : List Call) : ∃ c, c₀.init_bcache.exec calls = some c ∧
    (∀ (s : UInt32) (m : Bytes), ∃ c',
      c.bread m 1 s.toNat = some (m.put 0 ((latest s calls).getD (c₀.card s.toNat)), c')) ∧
    (∀ s : UInt32, ∃ i c', c.brefill s.toNat = some (some i, c')) ∧
    ∃ cf, c.bflush = some cf ∧ (∀ s : UInt32, cf.card s.toNat = (latest s calls).getD (c₀.card s.toNat)) ∧
      ∀ (s : UInt32) (m : Bytes), ∃ c',
        cf.init_bcache.bread m 1 s.toNat = some (m.put 0 ((latest s calls).getD (c₀.card s.toNat)), c') := by
  obtain ⟨c, he, h, hl⟩ := exec_spec ⟨[], init_bcache_inv c₀⟩ calls
  rw [logical_init_bcache] at hl
  obtain ⟨cf, hef, hf, -, hcard⟩ := bflush_spec h
  refine ⟨c, he, fun s m => ?_, fun s => brefill_ne_null h s.toNat, cf, hef, fun s => ?_, fun s m => ?_⟩
  · obtain ⟨c', hb, -⟩ := bread_one h m s
    exact ⟨c', by rw [hb, hl]⟩
  · rw [hcard, hl]
  · obtain ⟨c', hb, -⟩ := bread_one ⟨[], init_bcache_inv cf⟩ m s
    rw [logical_init_bcache, hcard, hl] at hb
    exact ⟨c', hb⟩

/-! ### Several sectors -/

/-- Whether `x` is one of the `n` sectors from `s` on. -/
def InRun (n s x : ℕ) : Prop := ∃ i < n, x = (s + i) % 2 ^ 32

instance (n s x : ℕ) : Decidable (InRun n s x) := inferInstanceAs (Decidable (∃ i < n, x = (s + i) % 2 ^ 32))

theorem inRun_succ (n s x : ℕ) : InRun (n + 1) s x ↔ InRun n s x ∨ x = (s + n) % 2 ^ 32 := by
  simp only [InRun, Nat.lt_succ_iff_lt_or_eq, or_and_right, exists_or, exists_eq_left]

/-- `bwrite` gives every sector of the run the first 512 bytes of the source. -/
theorem bwrite_spec (h : c.Ok) (m : Bytes) (n s : ℕ) : ∃ c', c.bwrite m n s = some c' ∧ c'.Ok ∧
    ∀ x, c'.logical x = if InRun n s x then m.sector 0 else c.logical x := by
  induction n with
  | zero => exact ⟨c, rfl, h, fun x => by simp [InRun]⟩
  | succ n ih =>
    obtain ⟨c₁, he, h₁, hl₁⟩ := ih
    obtain ⟨c₂, he₂, h₂, hl₂⟩ := bwriteSector_spec h₁ m ((s + n) % 2 ^ 32)
    rw [bwrite] at he
    refine ⟨c₂, ?_, h₂, fun x => ?_⟩
    · rw [bwrite, List.range_succ, List.foldlM_append, he]
      simp only [Option.bind_eq_bind, Option.bind_some, List.foldlM_cons, List.foldlM_nil, he₂, Option.pure_def]
    · rw [hl₂, Function.update_apply, hl₁]
      simp only [inRun_succ]
      generalize (s + n) % 2 ^ 32 = y
      by_cases hx : x = y
      · simp [hx]
      · simp [hx]

/-- `bread` leaves in the first 512 bytes of the destination the last sector of the run. -/
theorem bread_spec (h : c.Ok) (m : Bytes) (n s : ℕ) : ∃ c',
    c.bread m n s = some (if n = 0 then m else m.put 0 (c.logical ((s + (n - 1)) % 2 ^ 32)), c') ∧ c'.Ok ∧
      c'.logical = c.logical := by
  induction n with
  | zero => exact ⟨c, rfl, h, rfl⟩
  | succ n ih =>
    obtain ⟨c₁, he, h₁, hl₁⟩ := ih
    rw [bread] at he
    obtain ⟨c₂, he₂, h₂, hl₂⟩ :=
      breadSector_spec h₁ (if n = 0 then m else m.put 0 (c.logical ((s + (n - 1)) % 2 ^ 32))) ((s + n) % 2 ^ 32)
    refine ⟨c₂, ?_, h₂, hl₂.trans hl₁⟩
    rw [bread, List.range_succ, List.foldlM_append, he]
    have hput : (if n = 0 then m else m.put 0 (c.logical ((s + (n - 1)) % 2 ^ 32))).put 0
        (c₁.logical ((s + n) % 2 ^ 32)) = m.put 0 (c.logical ((s + n) % 2 ^ 32)) := by
      rw [hl₁]
      split <;> simp
    rw [hput] at he₂
    simp only [Option.bind_eq_bind, Option.bind_some, List.foldlM_cons, List.foldlM_nil, he₂, Option.pure_def]
    rw [if_neg (Nat.succ_ne_zero n), Nat.add_sub_cancel]

/-- What a caller expects of `bwrite(m, n, s)` followed by `bread(m', n, s)`: the destination
gets the source back, sector `s+i` holds the `i`th piece of the source, and no other sector
has changed. -/
def Transfers (c : Bcache) (m m' : Bytes) (n s : ℕ) : Prop :=
  ∃ c₁ m'' c₂, c.bwrite m n s = some c₁ ∧ c₁.bread m' n s = some (m'', c₂) ∧
    (∀ k < SECTOR_SIZE * n, m'' k = m k) ∧
    (∀ i < n, c₁.logical ((s + i) % 2 ^ 32) = m.sector (SECTOR_SIZE * i)) ∧
    ∀ x, ¬ InRun n s x → c₁.logical x = c.logical x

/-- **Transfers of several sectors.** They are what a caller expects exactly when every piece
of the source equals the first one and the destination already agrees with the source beyond
its first 512 bytes. -/
theorem transfer_iff (h : c.Ok) (m m' : Bytes) (n s : UInt32) : c.Transfers m m' n.toNat s.toNat ↔
    (∀ i < n.toNat, m.sector (SECTOR_SIZE * i) = m.sector 0) ∧
      ∀ k, SECTOR_SIZE ≤ k → k < SECTOR_SIZE * n.toNat → m' k = m k := by
  obtain ⟨c₁, he₁, h₁, hl₁⟩ := bwrite_spec h m n.toNat s.toNat
  obtain ⟨c₂, he₂, -, -⟩ := bread_spec h₁ m' n.toNat s.toNat
  have hin : ∀ i < n.toNat, c₁.logical ((s.toNat + i) % 2 ^ 32) = m.sector 0 :=
    fun i hi => by rw [hl₁, if_pos ⟨i, hi, rfl⟩]
  constructor
  · rintro ⟨d₁, m'', d₂, hd₁, hd₂, hback, hpieces, -⟩
    obtain rfl : c₁ = d₁ := by simpa [he₁] using hd₁
    refine ⟨fun i hi => by rw [← hpieces i hi, hin i hi], fun k hk hkn => ?_⟩
    have hn : n.toNat ≠ 0 := by
      intro hn
      rw [hn] at hkn
      omega
    rw [he₂, if_neg hn] at hd₂
    simp only [Option.some.injEq, Prod.mk.injEq] at hd₂
    rw [← hback k hkn, ← hd₂.1, Bytes.put_of_le _ _ hk]
  · rintro ⟨hpieces, hrest⟩
    refine ⟨c₁, _, c₂, he₁, he₂, fun k hk => ?_, fun i hi => by rw [hin i hi, hpieces i hi], fun x hx => ?_⟩
    · have hn : n.toNat ≠ 0 := by
        intro hn
        rw [hn] at hk
        omega
      rw [if_neg hn, hin _ (by omega)]
      by_cases hk' : k < SECTOR_SIZE
      · rw [Bytes.put_of_lt _ _ hk']
        simp [Bytes.sector]
      · rw [Bytes.put_of_le _ _ (by omega), hrest k (by omega) hk]
    · rw [hl₁, if_neg hx]

/-- A cache right after `init_bcache`, over a card of zeros. -/
def blank : Bcache :=
  init_bcache ⟨fun _ => ⟨0, 0, 0, fun _ => 0⟩, ⟨fun _ => none, fun _ => none⟩, fun _ _ => 0, .writeBack⟩

theorem blank_ok : blank.Ok := ⟨[], init_bcache_inv _⟩

/-- One sector of zeros: the transfer is faithful. -/
theorem transfer_one_sector : blank.Ok ∧
    blank.Transfers (fun _ => 0) (fun _ => 7) (1 : UInt32).toNat (256 : UInt32).toNat :=
  ⟨blank_ok, (transfer_iff blank_ok (fun _ => 0) (fun _ => 7) 1 256).mpr ⟨fun _ _ => rfl, fun k hk hk' => by
    simp at hk'
    omega⟩⟩

/-- A block whose second sector differs from its first is not transferred. -/
theorem transfer_block_fails :
    ¬ ∀ (c : Bcache) (m m' : Bytes) (n s : UInt32), c.Ok → c.Transfers m m' n.toNat s.toNat := by
  intro hall
  have := hall blank (fun k => if k < 512 then 1 else 2) (fun _ => 0) 8 802 blank_ok
  have := ((transfer_iff blank_ok _ _ _ _).mp this).1 1 (by decide)
  have := congrFun this ⟨0, by decide⟩
  exact absurd this (by decide)

end Bcache

end OsLab
