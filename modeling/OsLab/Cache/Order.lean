import OsLab.Cache.Transparent

/-!
# The order of eviction

When no buffer is free, `find_free_buf` takes the last one of the ring, "use LRU" as its comment
says. `brefill` puts the buffer it fills in front, so misses keep the ring in the order of the
latest accesses. A hit does not: `search_buf` returns the buffer where it stands, and neither
`bread` nor `bwrite` moves it. The sectors are therefore evicted in the order in which they were
filled.

`evicts_lru_iff` says when this is the order of the latest accesses: as long as no access hits a
cached sector other than the one accessed last, and not beyond the first such access. From there on
misses alone lead to the eviction of a sector while one is cached that has not been accessed for
longer.

The history of a run is the list of the sectors accessed, the latest first.
-/

namespace OsLab

namespace Bcache

/-! ### Runs -/

/-- One iteration of `bread` or `bwrite`, on sector `s`. -/
def Accesses (c : Bcache) (s : UInt32) (c' : Bcache) : Prop :=
  (∃ m m', c.breadSector m s.toNat = some (m', c')) ∨ ∃ m, c.bwriteSector m s.toNat = some c'

/-- What is reached from `c₀`, with history `h₀`, by accesses that meet `P`: it is told the
history, the cache and the sector. -/
inductive Run (P : List ℕ → Bcache → ℕ → Prop) (h₀ : List ℕ) (c₀ : Bcache) : List ℕ → Bcache → Prop where
  /-- No access. -/
  | refl : Run P h₀ c₀ h₀ c₀
  /-- One access more. -/
  | step {h : List ℕ} {c c' : Bcache} {s : UInt32} :
      Run P h₀ c₀ h c → P h c s.toNat → c.Accesses s c' → Run P h₀ c₀ (s.toNat :: h) c'

namespace Run

variable {P Q : List ℕ → Bcache → ℕ → Prop} {h₀ h h' : List ℕ} {c₀ c c' : Bcache}

theorem mono (hr : Run P h₀ c₀ h c) (hpq : ∀ h c s, P h c s → Q h c s) : Run Q h₀ c₀ h c := by
  induction hr with
  | refl => exact refl
  | step _ hs ha ih => exact ih.step (hpq _ _ _ hs) ha

theorem trans (hr : Run P h₀ c₀ h c) (hr' : Run P h c h' c') : Run P h₀ c₀ h' c' := by
  induction hr' with
  | refl => exact hr
  | step _ hs ha ih => exact ih.step hs ha

/-- The sectors of a call of `n` sectors from `s` on, the latest first. -/
def sectors (s : UInt32) (n : ℕ) : List ℕ := ((List.range n).map fun i => (s.toNat + i) % 2 ^ 32).reverse

theorem sectors_succ (s : UInt32) (n : ℕ) : sectors s (n + 1) = (s + UInt32.ofNat n).toNat :: sectors s n := by
  simp [sectors, List.range_succ]

/-- A call of `bwrite` is a run over its sectors. -/
theorem bwrite {m : Bytes} {s : UInt32} {n : ℕ} (hc : c.bwrite m n s.toNat = some c') :
    Run (fun _ _ _ => True) h c (sectors s n ++ h) c' := by
  induction n generalizing c' with
  | zero =>
    obtain rfl : c = c' := by simpa [Bcache.bwrite] using hc
    exact refl
  | succ n ih =>
    rw [Bcache.bwrite, List.range_succ, List.foldlM_append] at hc
    obtain ⟨c₁, he, hc⟩ := Option.bind_eq_some_iff.mp hc
    rw [sectors_succ, List.cons_append]
    apply (ih he).step trivial
    exact Or.inr ⟨m, by simpa using hc⟩

/-- A call of `bread` is a run over its sectors. -/
theorem bread {m m' : Bytes} {s : UInt32} {n : ℕ} (hc : c.bread m n s.toNat = some (m', c')) :
    Run (fun _ _ _ => True) h c (sectors s n ++ h) c' := by
  induction n generalizing m' c' with
  | zero =>
    obtain ⟨-, rfl⟩ : m = m' ∧ c = c' := by simpa [Bcache.bread] using hc
    exact refl
  | succ n ih =>
    rw [Bcache.bread, List.range_succ, List.foldlM_append] at hc
    obtain ⟨⟨m₁, c₁⟩, he, hc⟩ := Option.bind_eq_some_iff.mp hc
    rw [sectors_succ, List.cons_append]
    apply (ih he).step trivial
    exact Or.inl ⟨m₁, m', by simpa using hc⟩

end Run

/-- Whether some buffer holds the sector. -/
def Cached (c : Bcache) (s : ℕ) : Prop := ∃ i, (c.buf i).valid = 1 ∧ (c.buf i).sectorid = s

/-- `find_free_buf` takes the buffer of sector `e`. -/
def Evicts (c : Bcache) (e : ℕ) : Prop :=
  ∃ i c', c.find_free_buf = some (some i, c') ∧ (c.buf i).valid = 1 ∧ (c.buf i).sectorid = e

/-- Since the latest access to `e`, `x` has been accessed. -/
def Since (h : List ℕ) (e x : ℕ) : Prop := ∃ recent past, h = recent ++ past ∧ x ∈ recent ∧ e ∉ recent

/-- Least recently used: of the sectors in the cache, the one evicted next is the one whose
latest access is the oldest. -/
def Lru (c : Bcache) (h : List ℕ) : Prop := ∀ e x, c.Evicts e → c.Cached x → x ≠ e → Since h e x

/-- A hit on a sector other than the one accessed last. -/
def Stale (h : List ℕ) (c : Bcache) (s : ℕ) : Prop := c.Cached s ∧ h.head? ≠ some s

/-- An access without a stale hit. -/
def Orderly (h : List ℕ) (c : Bcache) (s : ℕ) : Prop := ¬ Stale h c s

/-! ### The ring as a list of sectors -/

/-- A cache in order, whose ring holds the sectors `q`. -/
def Line (c : Bcache) (q : List ℕ) : Prop := ∃ l, c.Inv l ∧ c.sectors l = q

variable {c c' : Bcache} {q h : List ℕ}

theorem line_init (c : Bcache) : c.init_bcache.Line [] := ⟨[], init_bcache_inv c, rfl⟩

theorem Line.nodup (hq : c.Line q) : q.Nodup := by
  obtain ⟨l, hl, rfl⟩ := hq
  exact hl.nodup.map_on fun i hi j hj he => hl.inj i hi j hj he

theorem Line.length_le (hq : c.Line q) : q.length ≤ NBUF := by
  obtain ⟨l, hl, rfl⟩ := hq
  rw [sectors, List.length_map]
  exact hl.length_le

theorem Line.cached_iff (hq : c.Line q) {s : ℕ} : c.Cached s ↔ s ∈ q := by
  obtain ⟨l, hl, rfl⟩ := hq
  simp only [Cached, sectors, List.mem_map, hl.valid_iff]

/-- The sector evicted next is the last one of a full ring. -/
theorem Line.evicts_iff (hq : c.Line q) {e : ℕ} : c.Evicts e ↔ q.length = NBUF ∧ ∃ q', q = q' ++ [e] := by
  obtain ⟨l, hl, rfl⟩ := hq
  obtain ⟨i, c', l', he, -, hi, hring, -⟩ := find_free_buf_spec hl
  have hev : c.Evicts e ↔ i ∈ l ∧ (c.buf i).sectorid = e := by
    constructor
    · rintro ⟨j, d, hj, hv, hs⟩
      obtain ⟨rfl, rfl⟩ : i = j ∧ c' = d := by simpa [he] using hj
      exact ⟨(hl.valid_iff i).mp hv, hs⟩
    · rintro ⟨hv, hs⟩
      exact ⟨i, c', he, (hl.valid_iff i).mpr hv, hs⟩
  rw [hev]
  rcases hring with ⟨rfl, hlt⟩ | ⟨rfl, hlen⟩
  · have hne : (c.sectors l').length ≠ NBUF := by
      rw [sectors, List.length_map]
      exact Nat.ne_of_lt hlt
    exact ⟨fun hv => absurd hv.1 hi, fun hv => absurd hv.1 hne⟩
  · rw [sectors_concat]
    constructor
    · rintro ⟨-, rfl⟩
      exact ⟨by simpa [sectors] using hlen, c.sectors l', rfl⟩
    · rintro ⟨-, q', hq'⟩
      have := List.append_inj_right' hq' rfl
      exact ⟨by simp, by simpa using this⟩

/-- An access succeeds. -/
theorem Line.exists_access (hq : c.Line q) (s : UInt32) : ∃ c', c.Accesses s c' := by
  obtain ⟨l, hl, -⟩ := hq
  obtain ⟨c', -, he, -⟩ := breadSector_inv hl (fun _ => 0) s.toNat
  exact ⟨c', Or.inl ⟨_, _, he⟩⟩

/-- The step lemma: what an access does to the ring. -/
theorem Line.access (hq : c.Line q) {s : UInt32} (ha : c.Accesses s c') : c'.Line (refill q s.toNat) := by
  obtain ⟨l, hl, rfl⟩ := hq
  rcases ha with ⟨m, m', he⟩ | ⟨m, he⟩
  · obtain ⟨d, l', hd, hinv, hline, -⟩ := breadSector_inv hl m s.toNat
    obtain ⟨-, rfl⟩ : _ ∧ d = c' := by simpa [hd] using he
    exact ⟨l', hinv, hline⟩
  · obtain ⟨d, l', hd, hinv, hline, -⟩ := bwriteSector_inv hl m s.toNat
    obtain rfl : d = c' := by simpa [hd] using he
    exact ⟨l', hinv, hline⟩

/-! ### The order of the ring and the order of the accesses -/

/-- The sectors `q` stand in the order of their latest accesses, the latest first. -/
structure InOrder (h q : List ℕ) : Prop where
  sorted : q.Pairwise fun x e => Since h e x
  head : q.head? = h.head?

theorem Since.cons {e x s : ℕ} (hs : Since h e x) (hne : s ≠ e) : Since (s :: h) e x := by
  obtain ⟨recent, past, rfl, hx, he⟩ := hs
  exact ⟨s :: recent, past, rfl, List.mem_cons_of_mem s hx, by simp [hne.symm, he]⟩

theorem since_head {e s : ℕ} (hne : s ≠ e) : Since (s :: h) e s := ⟨[s], h, rfl, by simp, by simp [hne.symm]⟩

/-- A miss puts its sector in front of a ring in order. -/
theorem InOrder.miss (ho : InOrder h q) {s : ℕ} (hs : s ∉ q) : InOrder (s :: h) ((s :: q).take NBUF) := by
  have hne : ∀ e ∈ q, s ≠ e := fun e he hse => hs (hse ▸ he)
  refine ⟨List.Pairwise.sublist (List.take_sublist _ _) ?_, by simp [NBUF]⟩
  apply List.Pairwise.cons
  · exact fun e he => since_head (hne e he)
  · exact ho.sorted.imp_of_mem fun _ he hs => hs.cons (hne _ he)

/-- A hit on the sector accessed last leaves a ring in order. -/
theorem InOrder.hit (ho : InOrder h q) (hn : q.Nodup) {s : ℕ} (hs : q.head? = some s) : InOrder (s :: h) q := by
  cases q with
  | nil => simp at hs
  | cons x q =>
    obtain rfl : x = s := by simpa using hs
    have hne : ∀ e ∈ q, x ≠ e := fun e he hxe => (List.nodup_cons.mp hn).1 (hxe ▸ he)
    refine ⟨?_, by simp⟩
    apply List.Pairwise.cons
    · exact fun e he => since_head (hne e he)
    · exact (List.pairwise_cons.mp ho.sorted).2.imp_of_mem fun _ he hs => hs.cons (hne _ he)

/-- An access without a stale hit keeps the ring in order. -/
theorem InOrder.access (ho : InOrder h q) (hq : c.Line q) {s : ℕ} (hs : Orderly h c s) :
    InOrder (s :: h) (refill q s) := by
  unfold refill
  split
  · next hmem =>
    have hlast : h.head? = some s := by
      by_contra hne
      exact hs ⟨hq.cached_iff.mpr hmem, hne⟩
    exact ho.hit hq.nodup (ho.head.trans hlast)
  · next hmem => exact ho.miss hmem

/-- A ring in order evicts the least recently used sector. -/
theorem InOrder.lru (ho : InOrder h q) (hq : c.Line q) : c.Lru h := by
  intro e x he hx hne
  obtain ⟨-, q', rfl⟩ := hq.evicts_iff.mp he
  have hx' : x ∈ q' := by simpa [hne] using hq.cached_iff.mp hx
  exact (List.pairwise_append.mp ho.sorted).2.2 x hx' e (by simp)

/-- The run lemma: without stale hits the ring stays in order. -/
theorem Run.inOrder {h₀ : List ℕ} {c₀ : Bcache} (hr : Run Orderly h₀ c₀ h c) {q₀ : List ℕ} (hq : c₀.Line q₀)
    (ho : InOrder h₀ q₀) : ∃ q, c.Line q ∧ InOrder h q := by
  induction hr with
  | refl => exact ⟨q₀, hq, ho⟩
  | step _ hs ha ih =>
    obtain ⟨q, hq, ho⟩ := ih
    exact ⟨refill q _, hq.access ha, ho.access hq hs⟩

/-! ### After a stale hit -/

/-- A run of misses puts its sectors in front of the ring. -/
theorem Line.misses (hq : c.Line q) (h : List ℕ) {b : List ℕ} (hb : b.Nodup) (hdis : ∀ s ∈ b, s ∉ q ∧ s < 2 ^ 32) :
    ∃ c', Run Orderly h c (b ++ h) c' ∧ c'.Line ((b ++ q).take NBUF) := by
  induction b with
  | nil =>
    refine ⟨c, .refl, ?_⟩
    rwa [List.nil_append, List.take_of_length_le hq.length_le]
  | cons s b ih =>
    obtain ⟨hsb, hb⟩ := List.nodup_cons.mp hb
    obtain ⟨c₁, hr, hq₁⟩ := ih hb fun t ht => hdis t (List.mem_cons_of_mem s ht)
    obtain ⟨hsq, hlt⟩ := hdis s (by simp)
    have hmiss : s ∉ (b ++ q).take NBUF := by
      intro hs
      simpa [hsb, hsq] using List.mem_of_mem_take hs
    obtain ⟨c₂, ha⟩ := hq₁.exists_access (UInt32.ofNat s)
    have hs : (UInt32.ofNat s).toNat = s := UInt32.toNat_ofNat_of_lt' hlt
    have hline := hq₁.access ha
    have hstep := hr.step (s := UInt32.ofNat s) (by rw [hs]; exact fun hst => hmiss (hq₁.cached_iff.mp hst.1)) ha
    rw [hs] at hline hstep
    refine ⟨c₂, hstep, ?_⟩
    rw [refill, if_neg hmiss] at hline
    have htake : (s :: (b ++ q).take NBUF).take NBUF = (s :: b ++ q).take NBUF := by
      simp [NBUF, List.take_take]
    rwa [htake] at hline

/-- Behind a sector accessed before it, `s` is evicted too early once enough misses follow. -/
theorem Line.not_lru {x s : ℕ} {r b : List ℕ} (hq : c.Line (b ++ x :: r ++ [s]))
    (hlen : (b ++ x :: r ++ [s]).length = NBUF)
    (h : List ℕ) : ¬ c.Lru (b ++ s :: h) := by
  intro hlru
  have hnodup := hq.nodup
  have hxs : x ≠ s := by
    rintro rfl
    simp [List.nodup_append] at hnodup
  have hxb : x ∉ b := by
    intro hx
    simp only [List.append_assoc, List.nodup_append] at hnodup
    exact hnodup.2.2 x hx x (by simp) rfl
  obtain ⟨recent, past, he, hx, hs⟩ :=
    hlru s x (hq.evicts_iff.mpr ⟨hlen, _, rfl⟩) (hq.cached_iff.mpr (by simp)) hxs
  -- the accesses since the latest one to `s` are all in `b`, and `x` is not
  rcases List.append_eq_append_iff.mp he with ⟨a, rfl, hap⟩ | ⟨a, rfl, -⟩
  · cases a with
    | nil => exact hxb (by simpa using hx)
    | cons y a =>
      obtain ⟨rfl, -⟩ : s = y ∧ _ := by simpa using hap
      exact hs (by simp)
  · exact hxb (List.mem_append_left _ hx)

/-- There are sectors enough to fill the ring with. -/
theorem exists_fresh (hq : q.length ≤ NBUF) {n : ℕ} (hn : n ≤ NBUF) :
    ∃ b : List ℕ, b.length = n ∧ b.Nodup ∧ ∀ s ∈ b, s ∉ q ∧ s < 2 ^ 32 := by
  have hcard : n ≤ (Finset.range (2 * NBUF) \ q.toFinset).card := by
    have := Finset.le_card_sdiff q.toFinset (Finset.range (2 * NBUF))
    have := q.toFinset_card_le
    rw [Finset.card_range] at *
    omega
  obtain ⟨t, hsub, ht⟩ := Finset.exists_subset_card_eq hcard
  refine ⟨t.toList, by simpa using ht, t.nodup_toList, fun s hs => ?_⟩
  have hmem := hsub (Finset.mem_toList.mp hs)
  simp only [Finset.mem_sdiff, Finset.mem_range, List.mem_toFinset, NBUF] at hmem
  exact ⟨hmem.2, by omega⟩

/-- After a stale hit, misses lead to an eviction that is not of the least recently used sector. -/
theorem Line.stale_hit (hq : c.Line q) (ho : InOrder h q) {s : UInt32} (hs : Stale h c s.toNat) (ha : c.Accesses s c') :
    ∃ h₂ c₂, Run Orderly (s.toNat :: h) c' h₂ c₂ ∧ ¬ c₂.Lru h₂ := by
  have hmem := hq.cached_iff.mp hs.1
  have hq' := hq.access ha
  rw [refill, if_pos hmem] at hq'
  cases q with
  | nil => simp at hmem
  | cons x q =>
    have hx : s.toNat ≠ x := fun hsx => hs.2 (by rw [← ho.head, hsx, List.head?_cons])
    obtain ⟨r, r', rfl⟩ := List.append_of_mem (show s.toNat ∈ q by simpa [hx] using hmem)
    have hlen : r.length + 2 ≤ NBUF := by
      have := hq.length_le
      simp only [List.length_cons, List.length_append] at this
      omega
    obtain ⟨b, hbl, hbn, hbq⟩ := exists_fresh hq.length_le (Nat.sub_le NBUF (r.length + 2))
    obtain ⟨c₂, hr, hline⟩ := hq'.misses (s.toNat :: h) hbn hbq
    have hfull : (b ++ x :: r ++ [s.toNat]).length = NBUF := by
      simp only [List.length_append, List.length_cons, List.length_nil, hbl]
      omega
    have htake : (b ++ x :: (r ++ s.toNat :: r')).take NBUF = b ++ x :: r ++ [s.toNat] := by
      have : b ++ x :: (r ++ s.toNat :: r') = (b ++ x :: r ++ [s.toNat]) ++ r' := by simp
      rw [this, ← hfull, List.take_left]
    rw [htake] at hline
    exact ⟨_, c₂, hr, hline.not_lru hfull h⟩

/-- **Eviction is least recently used exactly until a stale hit.** After a run without stale hits
`find_free_buf` evicts the least recently used sector. It goes on doing so whatever is accessed
next without a stale hit exactly when the access at hand is no stale hit either. -/
theorem evicts_lru_iff {c₀ : Bcache} (hr : Run Orderly [] c₀.init_bcache h c) : c.Lru h ∧
    ∀ (s : UInt32) (c₁ : Bcache), c.Accesses s c₁ →
      ((∀ h₂ c₂, Run Orderly (s.toNat :: h) c₁ h₂ c₂ → c₂.Lru h₂) ↔ Orderly h c s.toNat) := by
  obtain ⟨q, hq, ho⟩ := hr.inOrder (line_init c₀) ⟨.nil, rfl⟩
  refine ⟨ho.lru hq, fun s c₁ ha => ⟨fun hall hs => ?_, fun hs h₂ c₂ hr₂ => ?_⟩⟩
  · obtain ⟨h₂, c₂, hr₂, hn⟩ := hq.stale_hit ho hs ha
    exact hn (hall h₂ c₂ hr₂)
  · obtain ⟨q₂, hq₂, ho₂⟩ := hr₂.inOrder (hq.access ha) (ho.access hq hs)
    exact ho₂.lru hq₂

/-- Every access but a stale hit may come next. -/
theorem Line.orderly_access (hq : c.Line q) {s : UInt32} (hs : s.toNat ∉ q) (h : List ℕ) :
    ∃ c', Run Orderly h c (s.toNat :: h) c' ∧ c'.Line (refill q s.toNat) := by
  obtain ⟨c', ha⟩ := hq.exists_access s
  exact ⟨c', Run.refl.step (fun hst => hs (hq.cached_iff.mp hst.1)) ha, hq.access ha⟩

/-- The sectors 0 and 1 are in the cache; a hit on 0 is stale. -/
theorem evicts_lru_two : ∃ c : Bcache, Run Orderly [] blank [1, 0] c ∧ c.Lru [1, 0] ∧
    ∀ c₁, c.Accesses 0 c₁ →
      ((∀ h₂ c₂, Run Orderly [0, 1, 0] c₁ h₂ c₂ → c₂.Lru h₂) ↔ Orderly [1, 0] c 0) := by
  obtain ⟨c₁, hr₁, hq₁⟩ := (line_init _ : blank.Line []).orderly_access (s := 0) (by simp) []
  obtain ⟨c₂, hr₂, hq₂⟩ := hq₁.orderly_access (s := 1) (by decide) [0]
  have hr : Run Orderly [] blank [1, 0] c₂ := hr₁.trans hr₂
  exact ⟨c₂, hr, (evicts_lru_iff hr).1, (evicts_lru_iff hr).2 0⟩

/-- The sectors 0 and 1 are accessed, then 0 again, and then 20478 others: the ring is full, and
the next to go is 0, although 1 has not been accessed for longer. -/
theorem evicts_after_hit : ∃ c₀ c : Bcache,
    Run (fun _ _ _ => True) [] c₀.init_bcache (List.range' 2 (NBUF - 2) ++ [0, 1, 0]) c ∧
      ¬ c.Lru (List.range' 2 (NBUF - 2) ++ [0, 1, 0]) := by
  obtain ⟨c₁, hr₁, hq₁⟩ := (line_init blank).orderly_access (s := 0) (by simp) []
  obtain ⟨c₂, hr₂, hq₂⟩ := hq₁.orderly_access (s := 1) (by decide) [0]
  have hline : c₂.Line [1, 0] := hq₂
  obtain ⟨c₃, ha⟩ := hline.exists_access 0
  have hq₃ : c₃.Line [1, 0] := hline.access ha
  have hdis : ∀ s ∈ List.range' 2 (NBUF - 2), s ∉ [1, 0] ∧ s < 2 ^ 32 := by
    intro s hs
    simp only [List.mem_range'_1, NBUF] at hs
    simp only [List.mem_cons, List.not_mem_nil, or_false]
    omega
  obtain ⟨c₄, hr₄, hq₄⟩ := hq₃.misses [0, 1, 0] List.nodup_range' hdis
  have hall : ∀ {h₀ h : List ℕ} {c₀ c : Bcache}, Run Orderly h₀ c₀ h c → Run (fun _ _ _ => True) h₀ c₀ h c :=
    fun hr => hr.mono fun _ _ _ _ => trivial
  refine ⟨blank, c₄, ((((hall hr₁).trans (hall hr₂)).step trivial ha).trans (hall hr₄)), ?_⟩
  have hfull : (List.range' 2 (NBUF - 2) ++ [1] ++ [0]).length = NBUF := by simp [NBUF]
  rw [List.take_of_length_le (by simp [NBUF])] at hq₄
  exact Line.not_lru (x := 1) (r := []) (by simpa using hq₄) hfull [1, 0]

end Bcache

end OsLab
