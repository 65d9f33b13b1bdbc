import OsLab.Mm.Effects
import OsLab.Mm.Entries

/-!
# The heap of a process

`do_sbrk` moves the break of the calling thread, and a new thread starts with a copy of its creator's break.
So the ranges that are granted to a process tile the addresses from its first break on exactly as long as each
one is granted to a thread whose break is the end of the range granted last; a thread with an older break is
given addresses that another thread has got already.

Addresses wrap around: `(a - b).toNat` is how far `a` lies behind the first break `b`.
-/

namespace OsLab.Mm

open Lib ProgM

/-! ### Ranges -/

/-- The address `a` lies in `[start, start + increment)`. -/
def InRange (g : UInt64 × UInt64) (a : UInt64) : Prop := (a - g.1).toNat < g.2.toNat

/-- Two ranges have no address in common. -/
def Apart (g g' : UInt64 × UInt64) : Prop := ∀ a, InRange g a → ¬ InRange g' a

/-- The end of the range that was granted last; the first break `b` if there is none. -/
def breakAfter (b : UInt64) (gs : List (UInt64 × UInt64)) : UInt64 :=
  match gs.getLast? with
  | none => b
  | some g => g.1 + g.2

/-- The ranges follow each other without a gap, from `o` bytes behind `b` on. -/
def Tiles (b : UInt64) : ℕ → List (UInt64 × UInt64) → Prop
  | _, [] => True
  | o, g :: gs => g.1 = b + UInt64.ofNat o ∧ 0 < g.2.toNat ∧ o + g.2.toNat < 2 ^ 64 ∧ Tiles b (o + g.2.toNat) gs

/-- The bytes in the ranges. -/
def extent (gs : List (UInt64 × UInt64)) : ℕ := (gs.map (·.2.toNat)).sum

variable {b a : UInt64} {g : UInt64 × UInt64} {gs : List (UInt64 × UInt64)} {o d : ℕ}

@[simp] theorem extent_nil : extent [] = 0 := rfl

@[simp] theorem extent_cons (g : UInt64 × UInt64) (gs : List (UInt64 × UInt64)) :
    extent (g :: gs) = g.2.toNat + extent gs := rfl

@[simp] theorem extent_append (gs gs' : List (UInt64 × UInt64)) : extent (gs ++ gs') = extent gs + extent gs' := by
  simp [extent]

theorem inRange_iff (hs : g.1 = b + UInt64.ofNat o) (h : o + g.2.toNat < 2 ^ 64) :
    InRange g a ↔ o ≤ (a - b).toNat ∧ (a - b).toNat < o + g.2.toNat := by
  have he : a - g.1 = a - b - UInt64.ofNat o := by
    rw [hs]
    grind
  have hlt := (a - b).toNat_lt
  rw [InRange, he, UInt64.toNat_sub, UInt64.toNat_ofNat', Nat.mod_eq_of_lt (by omega : o < 2 ^ 64)]
  omega

theorem tiles_append : Tiles b o (gs ++ [g]) ↔
    Tiles b o gs ∧ g.1 = b + UInt64.ofNat (o + extent gs) ∧ 0 < g.2.toNat ∧ o + extent gs + g.2.toNat < 2 ^ 64 := by
  induction gs generalizing o with
  | nil => simp [Tiles]
  | cons g' gs ih =>
    simp only [List.cons_append, Tiles, ih, extent_cons, Nat.add_assoc]
    tauto

/-- Where the addresses of the ranges lie. -/
theorem Tiles.bounds (h : Tiles b o gs) (hg : g ∈ gs) (ha : InRange g a) :
    o ≤ (a - b).toNat ∧ (a - b).toNat < o + extent gs := by
  induction gs generalizing o with
  | nil => cases hg
  | cons g' gs ih =>
    obtain ⟨hs, -, hlt, htail⟩ := h
    rw [extent_cons]
    rcases List.mem_cons.mp hg with rfl | hg
    · have := (inRange_iff hs hlt).mp ha
      omega
    · have := ih htail hg
      omega

theorem Tiles.pairwise (h : Tiles b o gs) : gs.Pairwise Apart := by
  induction gs generalizing o with
  | nil => exact List.Pairwise.nil
  | cons g gs ih =>
    obtain ⟨hs, -, hlt, htail⟩ := h
    refine List.Pairwise.cons (fun g' hg' a ha ha' => ?_) (ih htail)
    have h1 := (inRange_iff hs hlt).mp ha
    have h2 := htail.bounds hg' ha'
    omega

/-- No address is left out. -/
theorem Tiles.cover (h : Tiles b o gs) (hlo : o ≤ d) (hhi : d < o + extent gs) (hd : d < 2 ^ 64) :
    ∃ g ∈ gs, InRange g (b + UInt64.ofNat d) := by
  induction gs generalizing o with
  | nil =>
    rw [extent_nil] at hhi
    omega
  | cons g gs ih =>
    obtain ⟨hs, -, hlt, htail⟩ := h
    by_cases hin : d < o + g.2.toNat
    · refine ⟨g, List.mem_cons_self .., (inRange_iff hs hlt).mpr ?_⟩
      have he : b + UInt64.ofNat d - b = UInt64.ofNat d := by
        rw [UInt64.add_comm, UInt64.add_sub_cancel]
      rw [he, UInt64.toNat_ofNat', Nat.mod_eq_of_lt hd]
      exact ⟨hlo, hin⟩
    · rw [extent_cons] at hhi
      obtain ⟨g', hg', hr⟩ := ih htail (by omega) (by omega)
      exact ⟨g', List.mem_cons_of_mem _ hg', hr⟩

theorem Tiles.extent_lt (h : Tiles b 0 gs) : extent gs < 2 ^ 64 := by
  rcases List.eq_nil_or_concat gs with rfl | ⟨gs', g, rfl⟩
  · decide
  · rw [List.concat_eq_append] at h ⊢
    have := (tiles_append.mp h).2.2.2
    rw [extent_append, extent_cons, extent_nil]
    omega

theorem Tiles.breakAfter_eq (h : Tiles b 0 gs) : breakAfter b gs = b + UInt64.ofNat (extent gs) := by
  rcases List.eq_nil_or_concat gs with rfl | ⟨gs', g, rfl⟩
  · rw [breakAfter, List.getLast?_nil, extent_nil]
    exact (UInt64.add_zero b).symm
  · rw [List.concat_eq_append] at h ⊢
    have hs := (tiles_append.mp h).2.1
    rw [breakAfter, List.getLast?_concat, extent_append, extent_cons, extent_nil, Nat.add_zero, UInt64.ofNat_add,
      ← UInt64.add_assoc]
    simp only [hs, Nat.zero_add, UInt64.ofNat_toNat]

/-! ### Runs -/

/-- A positive `intptr_t`. -/
def Positive (increment : UInt64) : Prop := 0 < increment.toNat ∧ increment.toNat < 2 ^ 63

instance (increment : UInt64) : Decidable (Positive increment) := inferInstanceAs (Decidable (_ ∧ _))

variable {P : Int32} {s s' : Memory} {c : Slot} {t : Option Slot}

/-- The process `P` has one thread, with the break `b`, and nothing has been granted to it. -/
structure Single (P : Int32) (b : UInt64) (s : Memory) : Prop where
  main : ∃ i, (s.pcb i).exited = false ∧ (s.pcb i).pid = P
  only : ∀ i, (s.pcb i).exited = false → (s.pcb i).pid = P → (s.pcb i).brk = b
  pid : P ≤ s.process_id
  grants : s.grants P = []

/-- The threads of `P` move their breaks by `do_sbrk` with positive increments only. -/
def UsesSbrk (P : Int32) (x : Step) : Prop := ∀ c, x.task = some c → (x.before.pcb c).pid = P →
  x.call.movesBreak = true → ∃ n, x.call = .sbrk n ∧ Positive n

/-- If the step is a `do_sbrk` of `P` that succeeds, the break of the calling thread is the end of the range
granted last. -/
def Current (P : Int32) (b : UInt64) (x : Step) : Prop :=
  ∀ c n, x.task = some c → (x.before.pcb c).pid = P → x.call = .sbrk n →
  (x.before.pcb c).brk + ROUND n < USER_STACK_END → (x.before.pcb c).brk = breakAfter b (x.before.grants P)

/-- The ranges granted to `P` tile the heap, and every thread has the end of one of them as its break. -/
structure Heap (P : Int32) (b : UInt64) (s : Memory) : Prop where
  tiles : Tiles b 0 (s.grants P)
  brk : ∀ i, (s.pcb i).exited = false → (s.pcb i).pid = P → ∃ d ≤ extent (s.grants P),
    (s.pcb i).brk = b + UInt64.ofNat d
  pid : P ≤ s.process_id
  /-- Once something has been granted, the break lies below the stack, and it has not come round to `b`. -/
  top : s.grants P = [] ∨ (breakAfter b (s.grants P) < USER_STACK_END ∧
    (b ≤ breakAfter b (s.grants P) ∨ USER_STACK_END ≤ b))

theorem Single.heap (h : Single P b s) : Heap P b s := by
  refine ⟨?_, fun i hi hp => ⟨0, Nat.zero_le _, ?_⟩, h.pid, Or.inl h.grants⟩
  · rw [h.grants]
    trivial
  · rw [h.only i hi hp]
    exact (UInt64.add_zero b).symm

/-- Steps that move no break keep the heap. -/
theorem Heap.spawns (h : Heap P b s) (ht : s.live t) (hs : Spawns t s s') : Heap P b s' := by
  have hg := hs.grants P
  refine ⟨by rw [hg]; exact h.tiles, fun i hi hp => ?_, Int32.le_trans h.pid hs.process_id, by rw [hg]; exact h.top⟩
  rw [hg]
  obtain ⟨hlive, he⟩ | ⟨hlt, -⟩ | ⟨c, rfl, hpid, hbrk⟩ := hs.task i hi
  · rw [he] at hp ⊢
    exact h.brk i hlive hp
  · rw [hp] at hlt
    exact absurd (Int32.lt_of_lt_of_le hlt h.pid) Int32.lt_irrefl
  · rw [hbrk]
    exact h.brk c ht (hpid.symm.trans hp)

/-- Another process moves its break. -/
theorem Heap.other (h : Heap P b s) (hc : (s.pcb c).pid ≠ P) {s' : Memory} (hpcb : ∀ i, i ≠ c → s'.pcb i = s.pcb i)
    (hpid : (s'.pcb c).pid = (s.pcb c).pid) (hid : s'.process_id = s.process_id)
    (hg : s'.grants P = s.grants P) : Heap P b s' := by
  refine ⟨by rw [hg]; exact h.tiles, fun i hi hp => ?_, by rw [hid]; exact h.pid, by rw [hg]; exact h.top⟩
  rw [hg]
  by_cases hic : i = c
  · subst hic
    exact absurd (hpid.symm.trans hp) hc
  · rw [hpcb i hic] at hi hp ⊢
    exact h.brk i hi hp

theorem round_bounds {n : UInt64} (h : Positive n) : 0 < (ROUND n).toNat ∧ (ROUND n).toNat ≤ 2 ^ 63 := by
  obtain ⟨h1, h2⟩ := h
  rw [toNat_ROUND (by omega)]
  omega

/-- A range granted at the end of the last one stays within the address space. -/
theorem Heap.no_wrap (h : Heap P b s) {n : UInt64} (hn : 0 < n.toNat ∧ n.toNat ≤ 2 ^ 63)
    (hok : breakAfter b (s.grants P) + n < USER_STACK_END) :
    extent (s.grants P) + n.toNat < 2 ^ 64 ∧ (b ≤ breakAfter b (s.grants P) + n ∨ USER_STACK_END ≤ b) := by
  have hE := h.tiles.extent_lt
  have htop := h.tiles.breakAfter_eq
  have hend : USER_STACK_END.toNat = 0xf0000b000 := rfl
  have hb := b.toNat_lt
  simp only [UInt64.lt_iff_toNat_lt, UInt64.le_iff_toNat_le, UInt64.toNat_add, hend] at hok ⊢
  have hval : (breakAfter b (s.grants P)).toNat = (b.toNat + extent (s.grants P)) % 2 ^ 64 := by
    rw [htop, UInt64.toNat_add, UInt64.toNat_ofNat', Nat.mod_eq_of_lt hE]
  rw [hval] at hok ⊢
  rcases h.top with hnil | ⟨h1, h2⟩
  · rw [hnil, extent_nil] at hok ⊢
    omega
  · simp only [UInt64.lt_iff_toNat_lt, UInt64.le_iff_toNat_le, hend] at h1 h2
    rw [hval] at h1 h2
    omega

/-- A thread of `P` is granted a range. -/
def grantTo (s : Memory) (c : Slot) (n : UInt64) : Memory :=
  (s.putPcb c fun p => { p with brk := p.brk + n }).note (.granted (s.pcb c).pid (s.pcb c).brk n)

theorem grants_grantTo (s : Memory) (c : Slot) (n : UInt64) :
    (grantTo s c n).grants P = s.grants P ++ if (s.pcb c).pid = P then [((s.pcb c).brk, n)] else [] := by
  rw [grantTo, grants_append]
  rfl

theorem grantTo_pcb_of_ne (s : Memory) {c i : Slot} (n : UInt64) (h : i ≠ c) : (grantTo s c n).pcb i = s.pcb i := by
  rw [grantTo, Memory.note_pcb, Memory.putPcb_pcb, Function.update_of_ne h]

theorem do_sbrk_spec (n : UInt64) : Partial s (act (some c) (.sbrk n)) fun _ s' =>
    if (s.pcb c).brk + ROUND n < USER_STACK_END then s' = grantTo s c (ROUND n) else s' = s := by
  refine Partial.bind (q := fun _ s' =>
    if (s.pcb c).brk + ROUND n < USER_STACK_END then s' = grantTo s c (ROUND n) else s' = s) ?_
    fun _ s' h => Partial.pure h
  refine Partial.get_bind (Partial.ite (fun h => ?_) fun h => ?_)
  · exact Partial.modify_bind (Partial.modify_bind (Partial.pure (by rw [if_pos h]; rfl)))
  · exact Partial.pure (by rw [if_neg h])

/-- A grant at the end of the last one keeps the heap. -/
theorem Heap.grant (h : Heap P b s) (hc : (s.pcb c).exited = false) (hp : (s.pcb c).pid = P) {n : UInt64}
    (hn : 0 < n.toNat ∧ n.toNat ≤ 2 ^ 63) (hcur : (s.pcb c).brk = breakAfter b (s.grants P))
    (hok : (s.pcb c).brk + n < USER_STACK_END) : Heap P b (grantTo s c n) := by
  have hg : (grantTo s c n).grants P = s.grants P ++ [((s.pcb c).brk, n)] := by
    rw [grants_grantTo, if_pos hp]
  rw [hcur] at hok
  obtain ⟨hlt, htop⟩ := h.no_wrap hn hok
  have hbrk : (s.pcb c).brk = b + UInt64.ofNat (extent (s.grants P)) := hcur.trans h.tiles.breakAfter_eq
  have hnew : breakAfter b (s.grants P ++ [((s.pcb c).brk, n)]) = breakAfter b (s.grants P) + n := by
    rw [breakAfter, List.getLast?_concat, hcur]
  refine ⟨?_, fun i hi hpi => ?_, h.pid, Or.inr ?_⟩
  · rw [hg, tiles_append]
    exact ⟨h.tiles, by rw [Nat.zero_add]; exact hbrk, hn.1, by rw [Nat.zero_add]; exact hlt⟩
  · rw [hg, extent_append, extent_cons, extent_nil, Nat.add_zero]
    by_cases hic : i = c
    · subst hic
      refine ⟨extent (s.grants P) + n.toNat, Nat.le_refl _, ?_⟩
      simp only [grantTo, Memory.note_pcb, Memory.putPcb_pcb,
        Function.update_self, hbrk, UInt64.ofNat_add, UInt64.ofNat_toNat,
        UInt64.add_assoc]
    · rw [grantTo_pcb_of_ne s n hic] at hi hpi ⊢
      obtain ⟨d, hd, he⟩ := h.brk i hi hpi
      exact ⟨d, by omega, he⟩
  · rw [hg, hnew]
    exact ⟨hok, htop⟩

/-- A grant anywhere else meets a range granted before. -/
theorem Heap.overlap (h : Heap P b s) (hc : (s.pcb c).exited = false)
    (hp : (s.pcb c).pid = P) {n : UInt64} (hn : 0 < n.toNat)
    (hcur : (s.pcb c).brk ≠ breakAfter b (s.grants P)) : ¬ ((grantTo s c n).grants P).Pairwise Apart := by
  rw [grants_grantTo, if_pos hp]
  intro hpair
  obtain ⟨d, hd, hbrk⟩ := h.brk c hc hp
  have hlt := h.tiles.extent_lt
  have hne : d ≠ extent (s.grants P) := by
    rintro rfl
    exact hcur (hbrk.trans h.tiles.breakAfter_eq.symm)
  obtain ⟨g, hg, hin⟩ := h.tiles.cover (Nat.zero_le d) (by omega) (by omega)
  have hapart := (List.pairwise_append.mp hpair).2.2 g hg _ (List.mem_singleton.mpr rfl)
  refine hapart _ hin ?_
  rw [InRange, hbrk, UInt64.sub_self]
  exact hn

/-- What one step does to the heap of `P`: it stays tiled if the step is `Current`; otherwise two granted ranges
overlap. -/
theorem Heap.step (h : Heap P b s) (ht : s.live t) {call : Call} (huse : UsesSbrk P ⟨s, t, call⟩) :
    Partial s (act t call) fun _ s' => (Current P b ⟨s, t, call⟩ ∧ Heap P b s') ∨
      (¬ Current P b ⟨s, t, call⟩ ∧ ¬ (s'.grants P).Pairwise Apart) := by
  by_cases hmove : call.movesBreak = true
  · cases t with
    | none =>
      cases call with
      | exec => cases hmove
      | _ => exact Partial.stop
    | some c =>
      by_cases hp : (s.pcb c).pid = P
      · obtain ⟨n, rfl, hpos⟩ := huse c rfl hp hmove
        have hn := round_bounds hpos
        refine do_sbrk_spec n |>.mono fun _ s' hs' => ?_
        by_cases hok : (s.pcb c).brk + ROUND n < USER_STACK_END
        · rw [if_pos hok] at hs'
          subst hs'
          by_cases hcur : (s.pcb c).brk = breakAfter b (s.grants P)
          · refine Or.inl ⟨fun c' n' hc' _ hn' _ => ?_, h.grant ht hp hn hcur hok⟩
            obtain rfl := Option.some.inj hc'
            exact hcur
          · exact Or.inr ⟨fun hall => hcur (hall c n rfl hp rfl hok), h.overlap ht hp hn.1 hcur⟩
        · rw [if_neg hok] at hs'
          subst hs'
          refine Or.inl ⟨fun c' n' hc' _ hn' hok' => ?_, h⟩
          obtain rfl := Option.some.inj hc'
          obtain rfl : n = n' := by injection hn'
          exact absurd hok' hok
      · have hcurr : Current P b ⟨s, some c, call⟩ := by
          intro c' n' hc' hp'
          obtain rfl := Option.some.inj hc'
          exact absurd hp' hp
        refine Partial.mono ?_ fun _ s' hs' => Or.inl ⟨hcurr, hs'⟩
        cases call with
        | getbrk e =>
          exact Partial.modify (h.other hp (fun i hi => Function.update_of_ne hi ..) (by simp) rfl rfl)
        | brk addr =>
          refine (act_brk addr).mono fun _ s' hs' => ?_
          rcases hs' with rfl | rfl
          · exact h.other hp (fun i hi => Function.update_of_ne hi ..) (by simp) rfl rfl
          · exact h
        | sbrk n =>
          refine do_sbrk_spec n |>.mono fun _ s' hs' => ?_
          split at hs'
          · subst hs'
            refine h.other hp (fun i hi => Function.update_of_ne hi ..) (by simp [grantTo]) rfl ?_
            rw [grants_grantTo, if_neg hp, List.append_nil]
          · subst hs'
            exact h
        | _ => cases hmove
  · have hmove' : call.movesBreak = false := by simpa using hmove
    refine (act_spawns call hmove' s).mono fun _ s' hs => Or.inl ⟨fun c n _ _ hn _ => ?_, h.spawns ht hs⟩
    subst hn
    cases hmove'

/-- Grants are never taken back. -/
theorem grants_prefix {call : Call} : Keeps (fun s s' => s.grants P <+: s'.grants P) (act t call) := by
  intro s
  by_cases hmove : call.movesBreak = true
  · cases t with
    | none =>
      cases call with
      | exec => cases hmove
      | _ => exact Partial.stop
    | some c =>
      cases call with
      | getbrk e => exact Partial.modify (List.prefix_refl _)
      | brk addr =>
        refine (act_brk addr).mono fun _ s' hs' => ?_
        rcases hs' with rfl | rfl
        · exact List.prefix_refl _
        · exact List.prefix_refl _
      | sbrk n =>
        refine (do_sbrk_spec n).mono fun _ s' hs' => ?_
        split at hs'
        · subst hs'
          rw [grants_grantTo]
          exact List.prefix_append ..
        · subst hs'
          exact List.prefix_refl _
      | _ => cases hmove
  · refine (act_spawns call (by simpa using hmove) s).mono fun _ s' hs => ?_
    exact ⟨[], by rw [List.append_nil, hs.grants P]⟩

/-- The ranges granted to a process do not overlap exactly if every one was granted to a thread whose break was
the end of the range granted before. -/
theorem granted_apart_iff {σ : Type} {h : Handler Op Op.Res σ} {steps : List Step} {z : Conf Memory σ}
    (hrun : Run h (fun z => Single P b z.mem) steps z) (huse : ∀ x ∈ steps, UsesSbrk P x) :
    (z.mem.grants P).Pairwise Apart ↔ ∀ x ∈ steps, Current P b x := by
  have hinv : ((∀ x ∈ steps, Current P b x) ∧ Heap P b z.mem) ∨
      ((¬ ∀ x ∈ steps, Current P b x) ∧ ¬ (z.mem.grants P).Pairwise Apart) := by
    induction hrun with
    | init hs =>
      refine Or.inl ⟨fun x hx => ?_, hs.heap⟩
      cases hx
    | @step steps z z' t call _ ht he ih =>
      have hall : (∀ x ∈ steps ++ [⟨z.mem, t, call⟩], Current P b x) ↔
          (∀ x ∈ steps, Current P b x) ∧ Current P b ⟨z.mem, t, call⟩ := by
        simp [or_imp, forall_and]
      rw [hall]
      rcases ih fun x hx => huse x (List.mem_append_left _ hx) with ⟨hcur, hheap⟩ | ⟨hcur, hover⟩
      · rcases hheap.step ht (huse _ (by simp)) σ h z.dev () z' he with ⟨h1, h2⟩ | ⟨h1, h2⟩
        · exact Or.inl ⟨⟨hcur, h1⟩, h2⟩
        · exact Or.inr ⟨fun h => h1 h.2, h2⟩
      · have hpre := grants_prefix (P := P) z.mem σ h z.dev () z' he
        exact Or.inr ⟨fun h => hcur h.1, fun hp => hover (hp.sublist hpre.sublist)⟩
  rcases hinv with ⟨h1, h2⟩ | ⟨h1, h2⟩
  · exact ⟨fun _ => h1, fun _ => h2.tiles.pairwise⟩
  · exact ⟨fun h => absurd h h2, fun h => absurd h h1⟩

/-! ### Two threads -/

/-- A card that does nothing. -/
def idleCard : Handler Op Op.Res Unit
  | .sd_read .., d => some (fun _ => 0, d)
  | .sd_write .., d => some ((), d)

/-- One process, with pid 1 and one thread, whose page directory is the fifth frame. -/
def oneProcess : Memory where
  ram _ _ := 0
  kernel_bitmap := Function.update (fun _ => 0) 0 0x3f
  user_bitmap _ := 0
  kernel_page_head := [⟨none, 1, kernelFrame 4, kernelFrame 4⟩, ⟨none, 1, kernelFrame 5, kernelFrame 5⟩]
  user_page_mem_head := []
  user_page_sd_head := []
  sd_sector_end := 200
  pcb i := ⟨1, i != 0, kernelFrame 5, USER_STACK_ADDR, kernelFrame 5, 0, 0x20000⟩
  process_id := 1
  tasks := []
  shm_pages _ := ⟨0, false, 0, 0⟩
  userMemCurr := USER_STACK_ADDR
  attached := []
  log := []

theorem single_oneProcess : Single 1 0x20000 oneProcess :=
  ⟨⟨0, rfl, rfl⟩, fun _ _ _ => rfl, by decide +kernel, rfl⟩

theorem exec_sbrk {σ : Type} (h : Handler Op Op.Res σ) (d : σ)
    (n : UInt64) (hok : (s.pcb c).brk + ROUND n < USER_STACK_END) :
    exec h (act (some c) (.sbrk n)) ⟨s, d⟩ = some ((), ⟨grantTo s c (ROUND n), d⟩) := by
  simp only [act, do_sbrk, exec_bind, exec_get, Option.bind_some, if_pos hok]
  rfl

/-- The process after it has got 4096 bytes and then created a thread, in slot 1. -/
def grantedThenThread : Option (Unit × Conf Memory Unit) :=
  exec idleCard (act (some 0) (.pthread_create 1)) ⟨grantTo oneProcess 0 (ROUND 100), ()⟩

theorem grantedThenThread_eq : grantedThenThread.map (fun r =>
      (((r.2.mem.pcb 1).exited, (r.2.mem.pcb 1).pid, (r.2.mem.pcb 1).brk), r.2.mem.grants 1)) =
    some ((false, 1, 0x21000), [(0x20000, 4096)]) := by
  decide +kernel

/-- The main thread gets a range and then creates a thread, which gets the range behind it. -/
theorem granted_apart_two_threads :
    ∃ (steps : List Step) (z : Conf Memory Unit), Run idleCard (fun z => Single 1 0x20000 z.mem) steps z ∧
    steps.map (·.task) = [some 0, some 0, some 1] ∧ z.mem.grants 1 = [(0x20000, 4096), (0x21000, 8192)] ∧
    (z.mem.grants 1).Pairwise Apart := by
  obtain ⟨⟨u, s, d⟩, he, hs⟩ := Option.map_eq_some_iff.mp grantedThenThread_eq
  simp only [Prod.mk.injEq] at hs
  obtain ⟨⟨hlive, hpid, hbrk⟩, hg⟩ := hs
  have hok : (s.pcb 1).brk + ROUND 5000 < USER_STACK_END := by
    rw [hbrk]
    decide +kernel
  have hrun : Run idleCard (fun z => Single 1 0x20000 z.mem) _ _ :=
    (((Run.init (c := ⟨oneProcess, ()⟩) single_oneProcess).step
      (t := some 0) rfl (exec_sbrk idleCard () 100 (by decide +kernel))).step
      (t := some 0) rfl he).step (t := some 1) hlive (exec_sbrk idleCard d 5000 hok)
  refine ⟨_, _, hrun, rfl, ?_, (granted_apart_iff hrun ?_).mpr ?_⟩
  · rw [grants_grantTo, hg, hpid, hbrk]
    decide +kernel
  · rintro x hx c - - hm
    simp only [List.nil_append, List.cons_append, List.mem_cons, List.not_mem_nil, or_false] at hx
    rcases hx with rfl | rfl | rfl
    · exact ⟨100, rfl, by decide +kernel⟩
    · cases hm
    · exact ⟨5000, rfl, by decide +kernel⟩
  · rintro x hx c n hc - hn -
    simp only [List.nil_append, List.cons_append, List.mem_cons, List.not_mem_nil, or_false] at hx
    rcases hx with rfl | rfl | rfl
    · obtain rfl := Option.some.inj hc
      decide +kernel
    · cases hn
    · obtain rfl := Option.some.inj hc
      show (s.pcb 1).brk = breakAfter 0x20000 (s.grants 1)
      rw [hbrk, hg]
      decide +kernel

/-- The process after it has created a thread, in slot 1. -/
def twoThreads : Option (Unit × Conf Memory Unit) := exec idleCard (act (some 0) (.pthread_create 1)) ⟨oneProcess, ()⟩

theorem twoThreads_eq : twoThreads.map (fun r => (((r.2.mem.pcb 0).exited, (r.2.mem.pcb 0).pid, (r.2.mem.pcb 0).brk),
      ((r.2.mem.pcb 1).exited, (r.2.mem.pcb 1).pid, (r.2.mem.pcb 1).brk), r.2.mem.grants 1)) =
    some ((false, 1, 0x20000), (false, 1, 0x20000), []) := by
  decide +kernel

/-- The two threads of a process both ask for 4096 bytes and get the same. -/
theorem granted_apart_fails : ∃ (steps : List Step) (z : Conf Memory Unit),
    Run idleCard (fun z => Single 1 0x20000 z.mem) steps z ∧
    (∀ x ∈ steps, UsesSbrk 1 x) ∧ z.mem.grants 1 = [(0x20000, 4096), (0x20000, 4096)] ∧
    ¬ (z.mem.grants 1).Pairwise Apart := by
  obtain ⟨⟨u, s, d⟩, he, hs⟩ := Option.map_eq_some_iff.mp twoThreads_eq
  simp only [Prod.mk.injEq] at hs
  obtain ⟨⟨hl0, hp0, hb0⟩, ⟨hl1, hp1, hb1⟩, hg⟩ := hs
  have hround : ROUND 4096 = 4096 := by decide +kernel
  have hgrants : (grantTo (grantTo s 0 4096) 1 4096).grants 1 = [(0x20000, 4096), (0x20000, 4096)] := by
    rw [grants_grantTo, grants_grantTo, hg, hp0, hb0, grantTo_pcb_of_ne s 4096 (by decide), hp1, hb1]
    rfl
  have hok0 : (s.pcb 0).brk + ROUND 4096 < USER_STACK_END := by
    rw [hb0]
    decide +kernel
  have hok1 : ((grantTo s 0 (ROUND 4096)).pcb 1).brk + ROUND 4096 < USER_STACK_END := by
    rw [grantTo_pcb_of_ne s _ (by decide), hb1]
    decide +kernel
  have hlive1 : ((grantTo s 0 (ROUND 4096)).pcb 1).exited = false := by
    rw [grantTo_pcb_of_ne s _ (by decide), hl1]
  refine ⟨_, ⟨grantTo (grantTo s 0 (ROUND 4096)) 1 (ROUND 4096), d⟩,
    (((Run.init (c := ⟨oneProcess, ()⟩) single_oneProcess).step (t := some 0) rfl he).step (t := some 0) hl0
      (exec_sbrk idleCard d 4096 hok0)).step (t := some 1) hlive1 (exec_sbrk idleCard d 4096 hok1), ?_, ?_, ?_⟩
  · rintro x hx c - - hm
    simp only [List.nil_append, List.cons_append, List.mem_cons, List.not_mem_nil, or_false] at hx
    rcases hx with rfl | rfl | rfl
    · cases hm
    · exact ⟨4096, rfl, by decide +kernel⟩
    · exact ⟨4096, rfl, by decide +kernel⟩
  · rw [hround]
    exact hgrants
  · rw [hround, hgrants]
    intro hp
    have hin : InRange (0x20000, 4096) 0x20000 := by
      rw [InRange]
      decide +kernel
    exact List.rel_of_pairwise_cons hp (List.mem_singleton.mpr rfl) 0x20000 hin hin

end OsLab.Mm
