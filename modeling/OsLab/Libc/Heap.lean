import OsLab.Libc.FreeList

/-!
# The heap of a process

What `malloc` and `free` do to the whole heap: the free blocks in the ring, and the blocks that the application has.
The two kinds have no byte in common, and together they are what `morecore` has got (`Heap`). A block that is freed goes
from the one kind to the other (`Heap.freed`), a block that is taken goes back (`Heap.taken`), `morecore`
adds to the free ones (`Heap.grown`), and the bytes of the other blocks in use stay as they are.

`malloc` finds a free block if one is large enough (`FreeList.found`), or asks for more (`FreeList.missed`).
What is relied on of `sbrk` is stated apart (`Sbrk`).
-/

namespace OsLab.Libc

open Lib ProgM

variable {σ : Type} {h : Handler Op Op.Res σ} {d d' : σ}
    {base nunits fuel : ℕ} {s s' : Store} {b c : Block} {F F' : List Block}

/-! ### The loop of `malloc` -/

/-- The block at `p` is large enough. -/
def fits (nunits : ℕ) (s : Store) (p : ℕ) : Prop := nunits ≤ size s.mem p

/-- Nodes that are too small are passed. -/
theorem mallocLoop_pass {x y : ℕ} {l : List ℕ} (hl : Lib.Linked (ptr s.mem) (x :: l ++ [y]))
    (hsmall : ∀ z ∈ l, ¬ fits nunits s z ∧ z ≠ s.freep) :
    ∃ q, (x :: l).getLast? = some q ∧ ∀ fuel, exec h (mallocLoop nunits (fuel + l.length) x (ptr s.mem x)) ⟨s, d⟩ =
      exec h (mallocLoop nunits fuel q y) ⟨s, d⟩ := by
  induction l generalizing x with
  | nil => exact ⟨x, rfl, fun fuel => by rw [(linked_cons_cons.mp hl).1, List.length_nil, Nat.add_zero]⟩
  | cons z l ih =>
    obtain ⟨hz, hsmall⟩ := List.forall_mem_cons.mp hsmall
    obtain ⟨q, hq, hrun⟩ := ih hl.tail hsmall
    refine ⟨q, by simpa using hq, fun fuel => ?_⟩
    have hnext : ptr s.mem x = z := (linked_cons_cons.mp hl).1
    have hsize : ¬ size s.mem z ≥ nunits := hz.1
    rw [← hrun fuel, hnext, List.length_cons, ← Nat.add_assoc]
    simp only [mallocLoop, exec_bind, exec_get, Option.bind_some, if_neg hsize, if_neg hz.2]

/-- A node that is large enough is taken. -/
theorem mallocLoop_take {q p : ℕ} (hp : fits nunits s p) : exec h (mallocLoop nunits (fuel + 1) q p) ⟨s, d⟩ =
    some ((take nunits q p s).1, ⟨(take nunits q p s).2, d⟩) := by
  have hsize : size s.mem p ≥ nunits := hp
  simp only [mallocLoop, exec_bind, exec_get, Option.bind_some, if_pos hsize]
  rfl

/-- At `freep`, more is asked for. -/
theorem mallocLoop_morecore {q : ℕ} (hp : ¬ fits nunits s s.freep) :
    exec h (mallocLoop nunits (fuel + 1) q s.freep) ⟨s, d⟩ =
    (exec h (morecore nunits) ⟨s, d⟩).bind fun r =>
      if r.1 = 0 then some (0, r.2) else exec h (mallocLoop nunits fuel r.1 (ptr r.2.mem.mem r.1)) r.2 := by
  have hsize : ¬ size s.mem s.freep ≥ nunits := hp
  simp only [mallocLoop, exec_bind, exec_get, Option.bind_some, if_neg hsize, if_true]
  congr 1
  funext r
  split <;> simp

/-! ### The search -/

theorem FreeList.nodup (hF : FreeList base s F) : (base :: F.map Block.addr).Nodup := by
  have hlt : ((⟨base, 0⟩ :: F : List Block).map Block.addr).Pairwise (· < ·) := by
    refine List.pairwise_map.mpr (hF.sorted.imp fun hbc => ?_)
    simp only [Block.Below] at hbc
    omega
  exact hlt.imp fun h => Nat.ne_of_lt h

/-- The addresses of the ring are those of `base` and of the free blocks. -/
theorem FreeList.mem_ring (hF : FreeList base s F) {p : ℕ}
    (hp : p ∈ base :: F.map Block.addr) (hfit : fits nunits s p) (hn : 0 < nunits) :
    ∃ c ∈ F, c.addr = p ∧ nunits ≤ c.units := by
  obtain ⟨c, hc, rfl⟩ : ∃ c ∈ (⟨base, 0⟩ :: F : List Block), c.addr = p := List.mem_map.mp hp
  have hsize := hF.chain.sizes c hc
  rw [fits, hsize] at hfit
  rcases List.mem_cons.mp hc with rfl | hc
  · exact absurd hn (Nat.not_lt.mpr hfit)
  · exact ⟨c, hc, rfl, hfit⟩

/-- If a free block is large enough, `malloc` finds one, and the block before it. -/
theorem FreeList.found (hF : FreeList base s F) (hn : 0 < nunits)
    (hfit : ∃ c ∈ F, nunits ≤ c.units) (hfuel : 2 ^ 60 ≤ fuel) :
    ∃ (G : List Block) (q c : Block) (H : List Block), ⟨base, 0⟩ :: F = G ++ q :: c :: H ∧ nunits ≤ c.units ∧
      exec h (mallocLoop nunits fuel s.freep (ptr s.mem s.freep)) ⟨s, d⟩ =
        some ((take nunits q.addr c.addr s).1, ⟨(take nunits q.addr c.addr s).2, d⟩) := by
  have hring : Lib.Linked (ptr s.mem) (base :: F.map Block.addr ++ [base]) := hF.chain.linked
  have hnodup := hF.nodup
  have hlength : F.length + 1 ≤ 2 ^ 60 := hF.length_le
  obtain ⟨l, hl, hperm⟩ := hring.enter hF.freep
  have hnodup' : (s.freep :: l).Nodup := hperm.nodup_iff.mpr hnodup
  have hmem : ∀ z ∈ l ++ [s.freep], z ∈ base :: F.map Block.addr := by
    intro z hz
    refine hperm.mem_iff.mp ?_
    simp at hz ⊢
    tauto
  -- the first node that is large enough
  obtain ⟨b, hb, hbfit⟩ := hfit
  have hsome : ((l ++ [s.freep]).find? fun z => decide (nunits ≤ size s.mem z)).isSome := by
    rw [List.find?_isSome]
    refine ⟨b.addr, ?_, ?_⟩
    · have hbl : b.addr ∈ s.freep :: l := hperm.mem_iff.mpr (List.mem_cons_of_mem _ (List.mem_map_of_mem hb))
      simp at hbl ⊢
      tauto
    · rw [hF.chain.sizes b (List.mem_cons_of_mem _ hb)]
      exact decide_eq_true hbfit
  obtain ⟨y, hy⟩ := Option.isSome_iff_exists.mp hsome
  obtain ⟨hyfit, l₁, l₂, hsplit, hsmall⟩ := List.find?_eq_some_iff_append.mp hy
  have hyfit' : nunits ≤ size s.mem y := of_decide_eq_true hyfit
  have hinit : l₁ <+: l := by
    have hle : l₁ <+: l ++ [s.freep] := ⟨y :: l₂, hsplit.symm⟩
    rcases List.prefix_concat_iff.mp hle with rfl | hle
    · simp at hsplit
    · exact hle
  have hpass : ∀ z ∈ l₁, ¬ fits nunits s z ∧ z ≠ s.freep := by
    intro z hz
    refine ⟨by simpa [fits] using hsmall z hz, ?_⟩
    rintro rfl
    exact (List.nodup_cons.mp hnodup').1 (hinit.subset hz)
  have hpath : Lib.Linked (ptr s.mem) (s.freep :: l₁ ++ [y]) := by
    have hall : Lib.Linked (ptr s.mem) ((s.freep :: l₁) ++ y :: l₂) := by
      rw [List.cons_append, ← hsplit]
      exact hl
    exact hall.left
  obtain ⟨q, hq, hrun⟩ := mallocLoop_pass (h := h) (d := d) hpath hpass
  obtain ⟨c, hc, rfl, hcfit⟩ := hF.mem_ring (hmem y (hsplit ▸ by simp)) hyfit' hn
  -- the block before it in the ring is the one that the loop comes from
  obtain ⟨A, H, rfl⟩ := List.append_of_mem hc
  obtain ⟨G, q', hA⟩ : ∃ G q', (⟨base, 0⟩ :: A : List Block) = G ++ [q'] := by
    obtain ⟨G, q', hG⟩ := (List.eq_nil_or_concat (⟨base, 0⟩ :: A : List Block)).resolve_left (by simp)
    exact ⟨G, q', by rw [hG, List.concat_eq_append]⟩
  have hR : (⟨base, 0⟩ :: (A ++ c :: H) : List Block) = G ++ q' :: c :: H := by
    rw [← List.cons_append, hA, List.append_assoc, List.singleton_append]
  have hq' : ptr s.mem q'.addr = c.addr := by
    have hchain := hF.chain
    rw [hR] at hchain
    exact hchain.next
  have hqmem : q ∈ base :: (A ++ c :: H).map Block.addr := by
    refine hperm.mem_iff.mp ?_
    have hql : q ∈ s.freep :: l₁ := List.mem_of_getLast? hq
    rcases List.mem_cons.mp hql with rfl | hql
    · exact List.mem_cons_self ..
    · exact List.mem_cons_of_mem _ (hinit.subset hql)
  have hq'mem : q'.addr ∈ base :: (A ++ c :: H).map Block.addr := by
    have hq'R : q' ∈ (⟨base, 0⟩ :: (A ++ c :: H) : List Block) := hR ▸ (by simp)
    exact List.mem_map_of_mem hq'R
  obtain rfl : q = q'.addr := hring.next_inj hnodup hqmem hq'mem ((hpath.next_last hq).trans hq'.symm)
  refine ⟨G, q', c, H, hR, hcfit, ?_⟩
  have hshort : l₁.length + 1 ≤ fuel := by
    have hle := hinit.length_le
    have heq := hperm.length_eq
    simp at heq hlength
    omega
  obtain ⟨k, rfl⟩ : ∃ k, fuel = k + 1 + l₁.length := ⟨fuel - 1 - l₁.length, by omega⟩
  rw [hrun (k + 1), mallocLoop_take hyfit']

/-- If all free blocks are too small, `malloc` asks for more. -/
theorem FreeList.missed (hF : FreeList base s F) (hn : 0 < nunits)
    (hsmall : ∀ c ∈ F, c.units < nunits) (hfuel : 2 ^ 61 ≤ fuel) :
    ∃ k, 2 ^ 60 ≤ k ∧ exec h (mallocLoop nunits fuel s.freep (ptr s.mem s.freep)) ⟨s, d⟩ =
      (exec h (morecore nunits) ⟨s, d⟩).bind fun r =>
        if r.1 = 0 then some (0, r.2) else exec h (mallocLoop nunits k r.1 (ptr r.2.mem.mem r.1)) r.2 := by
  have hring : Lib.Linked (ptr s.mem) (base :: F.map Block.addr ++ [base]) := hF.chain.linked
  have hlength : F.length + 1 ≤ 2 ^ 60 := hF.length_le
  obtain ⟨l, hl, hperm⟩ := hring.enter hF.freep
  have hnodup : (s.freep :: l).Nodup := hperm.nodup_iff.mpr hF.nodup
  have hnone : ∀ z ∈ s.freep :: l, ¬ fits nunits s z := by
    intro z hz hfit
    obtain ⟨c, hc, -, hcfit⟩ := hF.mem_ring (hperm.mem_iff.mp hz) hfit hn
    exact absurd hcfit (Nat.not_le.mpr (hsmall c hc))
  obtain ⟨hlast, hpass⟩ := List.forall_mem_cons.mp hnone
  obtain ⟨q, -, hrun⟩ := mallocLoop_pass (h := h) (d := d) hl fun z hz =>
    ⟨hpass z hz, fun he => (List.nodup_cons.mp hnodup).1 (he ▸ hz)⟩
  have hshort : l.length + 1 ≤ 2 ^ 60 := by
    have heq := hperm.length_eq
    simp at heq
    omega
  obtain ⟨k, rfl⟩ : ∃ k, fuel = k + 1 + l.length := ⟨fuel - 1 - l.length, by omega⟩
  exact ⟨k, by omega, by rw [hrun (k + 1), mallocLoop_morecore hlast]⟩

/-! ### `morecore` -/

theorem morecore_none (hd : h (.sbrk (increment nunits)) d = some (none, d')) :
    exec h (morecore nunits) ⟨s, d⟩ = some (0, ⟨s, d'⟩) := by
  simp only [morecore, exec_bind, exec_perform, hd, Option.map_some, Option.bind_some, exec_pure]

/-- Only the header of the new block has been written. -/
theorem FreeList.addBlock (hF : FreeList base s F) (hb : Loose base F b) : FreeList base (s.addBlock b) F := by
  have hapart : ∀ c ∈ (⟨base, 0⟩ :: F : List Block), Apart b.addr c.addr := by
    refine List.forall_mem_cons.mpr ⟨Or.inr hb.above, fun c hc => ?_⟩
    rcases hb.clear c hc with hcb | hbc
    · exact hcb.apart.symm
    · exact hbc.apart
  have hchain : Chain base (s.addBlock b).mem (⟨base, 0⟩ :: F) := by
    rw [Store.addBlock_mem]
    exact hF.chain.congr sameBut_setSize hapart
  exact ⟨hchain, hF.sorted, hF.inside, hF.base_pos, hF.base_lt, hF.freep⟩

theorem FreeList.freep_ne_zero (hF : FreeList base s F) : s.freep ≠ 0 := by
  have hpos := hF.base_pos
  rcases List.mem_cons.mp hF.freep with he | he
  · rw [he]
    exact Nat.ne_of_gt hpos
  · obtain ⟨c, hc, he⟩ := List.mem_map.mp he
    have habove := ((List.pairwise_cons.mp hF.sorted).1 c hc).1
    simp only at habove
    omega

/-- The new block joins the free ones. -/
theorem morecore_some {p : UInt64} (hF : FreeList base s F) (hb : Loose base F ⟨p.toNat, asked nunits⟩)
    (hd : h (.sbrk (increment nunits)) d = some (some p, d')) :
    ∃ s' F', exec h (morecore nunits) ⟨s, d⟩ = some (s'.freep, ⟨s', d'⟩) ∧
      Freed base ⟨p.toNat, asked nunits⟩ (s.addBlock ⟨p.toNat, asked nunits⟩) F s' F' := by
  have hlt : asked nunits < 2 ^ 64 := by
    have := hb.good.end_lt
    simp only [Block.stop] at this
    omega
  have hsize : size (s.addBlock ⟨p.toNat, asked nunits⟩).mem p.toNat = asked nunits := by
    rw [Store.addBlock_mem, size_setSize hlt]
  obtain ⟨s', F', he, hfreed⟩ := free_spec (h := h) (d := d') (hF.addBlock hb) hb hsize
  refine ⟨s', F', ?_, hfreed⟩
  rw [morecore, exec_bind, exec_perform, hd, Option.map_some, Option.bind_some]
  rw [exec_bind, exec_modify, Option.bind_some, exec_bind, he]
  rfl

/-! ### The whole heap -/

/-- The free blocks `F` and the blocks `A` in use: together they are what `morecore` has got, below `brk`. -/
structure Heap (base brk : ℕ) (s : Store) (F A : List Block) : Prop where
  list : FreeList base s F
  used : ∀ b ∈ A, b.Good ∧ base + 16 ≤ b.addr ∧ size s.mem b.addr = b.units
  clear : ∀ i, Has F i → ¬ Has A i
  apart : A.Pairwise fun b c => ∀ i, b.Has i → ¬ c.Has i
  below : ∀ i, Has F i ∨ Has A i → i < brk
  obtained : ∀ i, Has s.obtained i ↔ Has F i ∨ Has A i

variable {A A₁ A₂ : List Block} {brk brk' : ℕ}

/-- Blocks without a common byte. -/
theorem under_or (hb : b.Good) (hc : c.Good) (hbc : ∀ i, b.Has i → ¬ c.Has i) : b.Under c ∨ c.Under b := by
  have hbpos := hb.pos
  have hcpos := hc.pos
  have h₁ := hbc b.addr
  have h₂ := hbc c.addr
  simp only [Block.Has, Block.Under, Block.stop] at h₁ h₂ ⊢
  omega

theorem Heap.loose (hH : Heap base brk s F A) (hb : b ∈ A) : Loose base F b := by
  obtain ⟨hgood, habove, -⟩ := hH.used b hb
  refine ⟨habove, hgood, fun c hc => under_or (hH.list.inside c hc) hgood fun i hci hbi => ?_⟩
  exact hH.clear i ⟨c, hc, hci⟩ ⟨b, hb, hbi⟩

theorem size_congr {m m' : ℕ → UInt8} (hb : b.Good) (hm : ∀ i, b.Has i → m' i = m i) :
    size m' b.addr = size m b.addr := by
  have hpos := hb.pos
  rw [size, size, get64_congr fun i h₁ h₂ => hm i ⟨by omega, by simp only [Block.stop]; omega⟩]

/-- The bytes of the blocks in use are above `base`. -/
theorem Heap.above (hH : Heap base brk s F A) {i : ℕ} (hi : Has A i) : base + 16 ≤ i := by
  obtain ⟨b, hb, hbi⟩ := hi
  exact Nat.le_trans (hH.used b hb).2.1 hbi.1

theorem Heap.apart_middle (hH : Heap base brk s F (A₁ ++ b :: A₂)) :
    (b :: (A₁ ++ A₂)).Pairwise fun b c => ∀ i, b.Has i → ¬ c.Has i :=
  (List.perm_middle.pairwise_iff fun hxy i hy hx => hxy i hx hy).mp hH.apart

/-- A block in use is freed. -/
theorem Heap.freed (hH : Heap base brk s F (A₁ ++ b :: A₂)) :
    ∃ s' F', exec h (free (plus b.addr 1)) ⟨s, d⟩ = some ((), ⟨s', d⟩) ∧
    Heap base brk s' F' (A₁ ++ A₂) ∧ ∀ i, Has (A₁ ++ A₂) i → s'.mem i = s.mem i := by
  have hb : b ∈ A₁ ++ b :: A₂ := by simp
  obtain ⟨s', F', he, hfreed⟩ := free_spec (h := h) (d := d) hH.list (hH.loose hb) (hH.used b hb).2.2
  have hall : ∀ i, Has (A₁ ++ b :: A₂) i ↔ b.Has i ∨ Has (A₁ ++ A₂) i := by
    intro i
    rw [has_append, has_cons, has_append, or_left_comm]
  obtain ⟨hbapart, hrest⟩ := List.pairwise_cons.mp hH.apart_middle
  have hbclear : ∀ i, b.Has i → ¬ Has (A₁ ++ A₂) i := by
    rintro i hbi ⟨c, hc, hci⟩
    exact hbapart c hc i hbi hci
  have hsame : ∀ i, Has (A₁ ++ A₂) i → s'.mem i = s.mem i := by
    intro i hi
    have hiA := (hall i).mpr (Or.inr hi)
    exact hfreed.same i (Or.inr (hH.above hiA)) (fun hbi => hbclear i hbi hi) fun hFi => hH.clear i hFi hiA
  refine ⟨s', F', he, ⟨hfreed.list, fun c hc => ?_, fun i hi hA => ?_, hrest, fun i hi => ?_, fun i => ?_⟩, hsame⟩
  · obtain ⟨hgood, habove, hsize⟩ := hH.used c (List.perm_middle.mem_iff.mpr (List.mem_cons_of_mem _ hc))
    exact ⟨hgood, habove, (size_congr hgood fun i hi => hsame i ⟨c, hc, hi⟩).trans hsize⟩
  · rcases (hfreed.has i).mp hi with hbi | hFi
    · exact hbclear i hbi hA
    · exact hH.clear i hFi ((hall i).mpr (Or.inr hA))
  · refine hH.below i ?_
    rw [hfreed.has] at hi
    rw [hall]
    rcases hi with (hbi | hFi) | hAi
    · exact Or.inr (Or.inl hbi)
    · exact Or.inl hFi
    · exact Or.inr (Or.inr hAi)
  · rw [hfreed.obtained, hH.obtained, hall, hfreed.has, or_left_comm, or_assoc]

/-- A free block, or a part of it, comes into use. -/
theorem Heap.taken (hH : Heap base brk s F A) (hT : Taken base nunits s F b s' F') :
    Heap base brk s' F' (b :: A) ∧ ∀ i, Has A i → s'.mem i = s.mem i := by
  have hsame : ∀ i, Has A i → s'.mem i = s.mem i := fun i hi =>
    hT.same i (Or.inr (hH.above hi)) fun hFi => hH.clear i hFi hi
  have hsub : ∀ i, b.Has i → Has F i := fun i hi => (hT.has i).mpr (Or.inl hi)
  refine ⟨⟨hT.list, List.forall_mem_cons.mpr ⟨⟨hT.loose.good, hT.loose.above, hT.size⟩, fun c hc => ?_⟩,
    fun i hi hA => ?_,
    List.pairwise_cons.mpr ⟨fun c hc i hbi hci => hH.clear i (hsub i hbi) ⟨c, hc, hci⟩, hH.apart⟩,
    fun i hi => ?_, fun i => ?_⟩, hsame⟩
  · obtain ⟨hgood, habove, hsize⟩ := hH.used c hc
    exact ⟨hgood, habove, (size_congr hgood fun i hi => hsame i ⟨c, hc, hi⟩).trans hsize⟩
  · rcases (has_cons ..).mp hA with hbi | hAi
    · obtain ⟨c, hc, hci⟩ := hi
      have hcb := hT.loose.clear c hc
      simp only [Block.Under, Block.Has] at hcb hbi hci
      omega
    · exact hH.clear i ((hT.has i).mpr (Or.inr hi)) hAi
  · refine hH.below i ?_
    rw [has_cons] at hi
    rw [hT.has]
    tauto
  · rw [hT.obtained, hH.obtained, hT.has, has_cons]
    tauto

/-- What `morecore` has got joins the free blocks. -/
theorem Heap.grown (hH : Heap base brk s F A)
    (hfreed : Freed base b (s.addBlock b) F s' F') (hb : b.Good) (hbrk : brk ≤ b.addr)
    (hend : b.stop ≤ brk') : Heap base brk' s' F' A ∧ ∀ i, Has A i → s'.mem i = s.mem i := by
  have hnot : ∀ i, Has F i ∨ Has A i → ¬ b.Has i := by
    intro i hi hbi
    have := hH.below i hi
    simp only [Block.Has] at hbi
    omega
  have hpos := hb.pos
  have hle : brk ≤ brk' := by
    simp only [Block.stop] at hend
    omega
  have hsame : ∀ i, Has A i → s'.mem i = s.mem i := by
    intro i hi
    have hbi := hnot i (Or.inr hi)
    rw [hfreed.same i (Or.inr (hH.above hi)) hbi fun hFi => hH.clear i hFi hi, Store.addBlock_mem]
    exact sameBut_setSize i (Block.not_header hpos hbi)
  refine ⟨⟨hfreed.list, fun c hc => ?_, fun i hi hA => ?_, hH.apart, fun i hi => ?_, fun i => ?_⟩, hsame⟩
  · obtain ⟨hgood, habove, hsize⟩ := hH.used c hc
    exact ⟨hgood, habove, (size_congr hgood fun i hi => hsame i ⟨c, hc, hi⟩).trans hsize⟩
  · rcases (hfreed.has i).mp hi with hbi | hFi
    · exact hnot i (Or.inr hA) hbi
    · exact hH.clear i hFi hA
  · rw [hfreed.has] at hi
    by_cases hbi : b.Has i
    · exact Nat.lt_of_lt_of_le hbi.2 hend
    · exact Nat.lt_of_lt_of_le (hH.below i (by tauto)) hle
  · have hobtained : s'.obtained = b :: s.obtained := hfreed.obtained.trans (by rw [Store.addBlock])
    rw [hobtained, has_cons, hH.obtained, hfreed.has]
    tauto

/-- Nothing but bytes of a block in use is written. -/
theorem Heap.store (hH : Heap base brk s F (A₁ ++ b :: A₂)) {i : ℕ} (hi : b.addr + 16 ≤ i ∧ i < b.stop) (v : UInt8) :
    Heap base brk { s with mem := Function.update s.mem i v } F (A₁ ++ b :: A₂) := by
  have hb : b ∈ A₁ ++ b :: A₂ := by simp
  have hbi : b.Has i := ⟨by omega, hi.2⟩
  have hkeep : ∀ j, j ≠ i → Function.update s.mem i v j = s.mem j := fun j hj => Function.update_of_ne hj ..
  have hchain : ∀ c ∈ (⟨base, 0⟩ :: F : List Block), ∀ j, c.addr ≤ j → j < c.addr + 16 → j ≠ i := by
    refine List.forall_mem_cons.mpr ⟨fun j _ hj => ?_, fun c hc j h₁ h₂ hji => ?_⟩
    · have := hH.above ⟨b, hb, hbi⟩
      simp only at hj
      omega
    · have hpos := (hH.list.inside c hc).pos
      refine hH.clear i ⟨c, hc, ?_⟩ ⟨b, hb, hbi⟩
      simp only [Block.Has, Block.stop]
      omega
  refine ⟨⟨⟨hH.list.chain.linked.congr fun p hp => ?_, fun c hc => ?_⟩,
    hH.list.sorted, hH.list.inside, hH.list.base_pos,
    hH.list.base_lt, hH.list.freep⟩, fun c hc => ?_, hH.clear, hH.apart, hH.below, hH.obtained⟩
  · obtain ⟨c, hc, rfl⟩ : ∃ c ∈ (⟨base, 0⟩ :: F : List Block), c.addr = p := List.mem_map.mp hp
    rw [ptr, ptr, get64_congr fun j h₁ h₂ => hkeep j (hchain c hc j h₁ (by omega))]
  · rw [← hH.list.chain.sizes c hc, size, size,
      get64_congr fun j h₁ h₂ => hkeep j (hchain c hc j (by omega) (by omega))]
  · obtain ⟨hgood, habove, hsize⟩ := hH.used c hc
    have hne : ∀ j, c.addr + 8 ≤ j → j < c.addr + 8 + 8 → j ≠ i := by
      rintro j h₁ h₂ rfl
      have hpos := hgood.pos
      have hcj : c.Has j := by
        simp only [Block.Has, Block.stop]
        omega
      rcases List.mem_cons.mp (List.perm_middle.mem_iff.mp hc) with rfl | hc
      · omega
      · exact (List.pairwise_cons.mp hH.apart_middle).1 c hc j hbi hcj
    refine ⟨hgood, habove, ?_⟩
    rw [← hsize, size, size, get64_congr fun j h₁ h₂ => hkeep j (hne j h₁ h₂)]

/-! ### `malloc` -/

/-- What is relied on of `sbrk`: it answers, it grants whole headers that begin at the break or above, and
takes the break behind them. -/
structure Sbrk (h : Handler Op Op.Res σ) (base : ℕ) (ok : σ → Prop) (brk : σ → ℕ) : Prop where
  answers : ∀ d n, ok d → n.toNat < 2 ^ 63 → ∃ r d', h (.sbrk n) d = some (r, d') ∧ ok d'
  refused : ∀ d d' n, ok d → n.toNat < 2 ^ 63 → h (.sbrk n) d = some (none, d') → brk d' = brk d
  granted : ∀ d d' n p, ok d → n.toNat < 2 ^ 63 → h (.sbrk n) d = some (some p, d') →
    brk d ≤ p.toNat ∧ 16 ∣ p.toNat ∧ p.toNat + n.toNat ≤ brk d'
  bounds : ∀ d, ok d → 0 < base ∧ base + 16 ≤ brk d ∧ brk d < 2 ^ 64

variable {ok : σ → Prop} {top : σ → ℕ}

theorem asked_le (nunits : ℕ) : nunits ≤ asked nunits := by
  rw [asked]
  split <;> omega

theorem asked_lt (hn : nunits < 2 ^ 59) : asked nunits < 2 ^ 59 ∧ (increment nunits).toNat = 16 * asked nunits := by
  have hlt : asked nunits < 2 ^ 59 := by
    rw [asked]
    split <;> omega
  refine ⟨hlt, ?_⟩
  rw [increment, UInt64.toNat_ofNat', sizeofHeader, Nat.mod_eq_of_lt (by omega), Nat.mul_comm]

/-- What `malloc` has returned, and what is in use after it: `NULL` exactly if all free blocks are too small
and `sbrk` refuses. -/
structure Served (h : Handler Op Op.Res σ) (nunits : ℕ) (d : σ)
    (F A : List Block) (p : ℕ) (A' : List Block) : Prop where
  null : p = 0 ↔ (∀ c ∈ F, c.units < nunits) ∧ ∃ d', h (.sbrk (increment nunits)) d = some (none, d')
  used : p = 0 ∧ A' = A ∨ ∃ b, p = b.addr + 16 ∧ b.units = nunits ∧ A' = b :: A

theorem hops_large : 2 ^ 61 ≤ HOPS := Nat.pow_le_pow_right (by decide) (by decide)

/-- What is behind a header. -/
theorem Block.Good.plus_one (hb : b.Good) : plus b.addr 1 = b.addr + 16 := by
  have hpos := hb.pos
  have hend := hb.end_lt
  simp only [Block.stop] at hend
  refine Nat.mod_eq_of_lt ?_
  rw [sizeofHeader]
  omega

/-- `malloc`, once the ring is there. -/
theorem Heap.malloc (hk : Sbrk h base ok top) (hd : ok d)
    (hH : Heap base (top d) s F A) (hpos : 0 < nunits) (hlt : nunits < 2 ^ 59) :
    ∃ p s' d' F' A', exec h (mallocLoop nunits HOPS s.freep (ptr s.mem s.freep)) ⟨s, d⟩ = some (p, ⟨s', d'⟩) ∧ ok d' ∧
      Heap base (top d') s' F' A' ∧ (∀ i, Has A i → s'.mem i = s.mem i) ∧ Served h nunits d F A p A' := by
  by_cases hfit : ∃ c ∈ F, nunits ≤ c.units
  · obtain ⟨G, q, c, H, hsplit, hc, he⟩ :=
      hH.list.found (h := h) (d := d) hpos hfit (Nat.le_trans (by decide) hops_large)
    obtain ⟨b, F', hp, hT⟩ := take_spec hH.list hsplit hpos hc
    obtain ⟨hheap, hsame⟩ := hH.taken hT
    refine ⟨_, _, d, F', b :: A, he, hd, hheap, hsame, ⟨iff_of_false ?_ ?_, Or.inr ⟨b, ?_, hT.units, rfl⟩⟩⟩
    · rw [hp, hT.loose.good.plus_one]
      omega
    · rintro ⟨hsmall, -⟩
      obtain ⟨c, hc, hle⟩ := hfit
      exact absurd hle (Nat.not_le.mpr (hsmall c hc))
    · rw [hp, hT.loose.good.plus_one]
  · have hsmall : ∀ c ∈ F, c.units < nunits := fun c hc => Nat.lt_of_not_le fun hle => hfit ⟨c, hc, hle⟩
    obtain ⟨k, hfuel, he⟩ := hH.list.missed (h := h) (d := d) hpos hsmall hops_large
    obtain ⟨hask, hinc⟩ := asked_lt hlt
    have hinc' : (increment nunits).toNat < 2 ^ 63 := by
      rw [hinc]
      omega
    obtain ⟨r, d', hr, hd'⟩ := hk.answers d (increment nunits) hd hinc'
    cases r with
    | none =>
      rw [morecore_none hr, Option.bind_some, if_pos rfl] at he
      refine ⟨0, s, d', F, A, he, hd', ?_, fun _ _ => rfl, ⟨iff_of_true rfl ⟨hsmall, d', hr⟩, Or.inl ⟨rfl, rfl⟩⟩⟩
      rw [hk.refused d d' _ hd hinc' hr]
      exact hH
    | some p =>
      obtain ⟨hbrk, haligned, hend⟩ := hk.granted d d' _ p hd hinc' hr
      obtain ⟨-, hbase, -⟩ := hk.bounds d hd
      obtain ⟨-, -, htop⟩ := hk.bounds d' hd'
      rw [hinc] at hend
      have hgood : (⟨p.toNat, asked nunits⟩ : Block).Good := by
        refine ⟨Nat.lt_of_lt_of_le hpos (asked_le nunits), ?_, haligned⟩
        simp only [Block.stop]
        omega
      have hloose : Loose base F ⟨p.toNat, asked nunits⟩ := by
        refine ⟨Nat.le_trans hbase hbrk, hgood, fun c hc => under_or (hH.list.inside c hc) hgood fun i hci hbi => ?_⟩
        have := hH.below i (Or.inl ⟨c, hc, hci⟩)
        simp only [Block.Has] at hbi
        omega
      obtain ⟨s₁, F₁, hmore, hfreed⟩ := morecore_some hH.list hloose hr
      obtain ⟨hheap₁, hsame₁⟩ := hH.grown hfreed hgood hbrk hend
      have hroom : ∃ c ∈ F₁, nunits ≤ c.units := by
        obtain ⟨c, hc, hle⟩ := hfreed.room
        exact ⟨c, hc, Nat.le_trans (asked_le nunits) hle⟩
      obtain ⟨G, q, c, H, hsplit, hc, he₁⟩ := hheap₁.list.found (h := h) (d := d') hpos hroom hfuel
      obtain ⟨b, F', hp, hT⟩ := take_spec hheap₁.list hsplit hpos hc
      obtain ⟨hheap, hsame⟩ := hheap₁.taken hT
      rw [hmore, Option.bind_some, if_neg hheap₁.list.freep_ne_zero, he₁] at he
      refine ⟨_, _, d', F', b :: A, he, hd', hheap, fun i hi => (hsame i hi).trans (hsame₁ i hi),
        ⟨iff_of_false ?_ ?_, Or.inr ⟨b, ?_, hT.units, rfl⟩⟩⟩
      · rw [hp, hT.loose.good.plus_one]
        omega
      · rintro ⟨-, d'', hnone⟩
        rw [hr] at hnone
        cases hnone
      · rw [hp, hT.loose.good.plus_one]

end OsLab.Libc
