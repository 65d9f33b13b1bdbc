import OsLab.Libc.Heap
import OsLab.Mm.Heap

/-!
# The heap of a process

An application that calls `malloc` and `free` as often and in whatever order it likes, and writes to the
pieces it has been given (`HeapRun`). What the calls keep is that each piece lies in a block of its own
(`HeapRun.laid`), and from it comes what an application relies on. `sbrk` is then `do_sbrk` of the kernel
(`kernel`): it has the properties that the allocator relies on (`sbrk_kernel`). The kernel grants whole
pages; the allocator makes a block of the bytes it asked for (`HeapRun.backed`).
-/

namespace OsLab.Libc

open Lib ProgM

variable {σ : Type} {h : Handler Op Op.Res σ} {ok : σ → Prop} {top : σ → ℕ}
    {base brk : ℕ} {s : Store} {d : σ} {A A₁ A₂ : List Block} {b : Block}

/-! ### Runs -/

/-- A piece of memory that the application has been given: where it begins and how many bytes it asked for. -/
structure Piece where
  ptr : ℕ
  bytes : ℕ

/-- The application calls `malloc` and `free`, and writes to its pieces. -/
inductive HeapRun (h : Handler Op Op.Res σ) (base : ℕ) (ok : σ → Prop) : List Piece → Conf Store σ → Prop where
  | start {m : ℕ → UInt8} {d : σ} : ok d → HeapRun h base ok [] ⟨⟨m, 0, []⟩, d⟩
  | malloc {l : List Piece} {z z' : Conf Store σ} {n p : ℕ} : HeapRun h base ok l z → n < 2 ^ 62 →
    exec h (malloc base n) z = some (p, z') → HeapRun h base ok (if p = 0 then l else ⟨p, n⟩ :: l) z'
  | free {l₁ l₂ : List Piece} {z z' : Conf Store σ} {x : Piece} : HeapRun h base ok (l₁ ++ x :: l₂) z →
    exec h (free x.ptr) z = some ((), z') → HeapRun h base ok (l₁ ++ l₂) z'
  | store {l : List Piece} {z : Conf Store σ} {x : Piece} {i : ℕ} (v : UInt8) :
    HeapRun h base ok l z → x ∈ l → x.ptr ≤ i →
    i < x.ptr + x.bytes → HeapRun h base ok l ⟨{ z.mem with mem := Function.update z.mem.mem i v }, z.dev⟩

/-- The piece is what lies behind the header of the block. -/
def Piece.In (x : Piece) (b : Block) : Prop := x.ptr = b.addr + 16 ∧ x.ptr + x.bytes ≤ b.stop

/-- The heap once the ring is there, and before the first call. -/
def Laid (base brk : ℕ) (s : Store) (A : List Block) : Prop :=
  s.freep = 0 ∧ s.obtained = [] ∧ A = [] ∨ ∃ F, Heap base brk s F A

theorem initRing_of_ne (hs : s.freep ≠ 0) : initRing base s = s := if_neg hs

theorem initRing_list (hs : s.freep = 0) (hpos : 0 < base) (hbase : base + 16 < 2 ^ 64) :
    FreeList base (initRing base s) [] := by
  have hstate : initRing base s = { s with mem := setSize (setPtr s.mem base base) base 0, freep := base } := if_pos hs
  have hlink : ptr (setSize (setPtr s.mem base base) base 0) base = base := by
    rw [ptr_setSize_self, ptr_setPtr (by omega)]
  have hsize : size (setSize (setPtr s.mem base base) base 0) base = 0 := size_setSize (by decide)
  rw [hstate]
  refine ⟨chain_cons.mpr ⟨hsize, hlink, ?_⟩, List.pairwise_singleton .., by simp, hpos, hbase, by simp⟩
  exact ⟨by simp, by simp⟩

theorem Laid.ring (hk : Sbrk h base ok top) (hd : ok d) (hL : Laid base (top d) s A) :
    ∃ F, Heap base (top d) (initRing base s) F A ∧ ∀ i, Has A i → (initRing base s).mem i = s.mem i := by
  rcases hL with ⟨hs, hg, rfl⟩ | ⟨F, hH⟩
  · obtain ⟨hpos, hbase, htop⟩ := hk.bounds d hd
    have hobtained : (initRing base s).obtained = [] := by
      rw [← hg, initRing, if_pos hs]
    refine ⟨[],
      ⟨initRing_list hs hpos
        (by omega), by simp, by simp, List.Pairwise.nil, by simp, by simp [hobtained]⟩, by simp⟩
  · rw [initRing_of_ne hH.list.freep_ne_zero]
    exact ⟨F, hH, fun _ _ => rfl⟩

/-- A request that is not too large. -/
theorem units_bounds {n : ℕ} (hn : n < 2 ^ 62) : 0 < units n ∧ units n < 2 ^ 59 ∧ n + 16 ≤ 16 * units n := by
  have hmod : (n + sizeofHeader - 1) % 2 ^ 64 = n + 15 := by
    rw [sizeofHeader, Nat.mod_eq_of_lt (by omega)]
    omega
  rw [units, hmod, sizeofHeader]
  omega

/-- `malloc` on a heap in order. -/
theorem Laid.malloc (hk : Sbrk h base ok top) (hd : ok d) (hL : Laid base (top d) s A) {n : ℕ} (hn : n < 2 ^ 62) :
    ∃ F p s' d' F' A', exec h (malloc base n) ⟨s, d⟩ = some (p, ⟨s', d'⟩) ∧ ok d' ∧ FreeList base (initRing base s) F ∧
      Heap base (top d') s' F' A' ∧ (∀ i, Has A i → s'.mem i = s.mem i) ∧ Served h (units n) d F A p A' := by
  obtain ⟨F, hH, hsame⟩ := hL.ring hk hd
  obtain ⟨hpos, hlt, -⟩ := units_bounds hn
  obtain ⟨p, s', d', F', A', he, hd', hheap, hkeep, hserved⟩ := hH.malloc hk hd hpos hlt
  refine ⟨F, p, s', d', F', A', ?_, hd', hH.list, hheap, fun i hi => (hkeep i hi).trans (hsame i hi), hserved⟩
  rw [Libc.malloc, exec_bind, exec_modify, Option.bind_some, exec_bind, exec_get, Option.bind_some]
  exact he

/-- A pair of lists splits where the first of them does. -/
theorem forall₂_split {α β : Type} {R : α → β → Prop} {l₁ l₂ : List α}
    {x : α} {l' : List β} (h : List.Forall₂ R (l₁ ++ x :: l₂) l') :
    ∃ l₁' b l₂', l' = l₁' ++ b :: l₂' ∧ List.Forall₂ R l₁ l₁' ∧ R x b ∧ List.Forall₂ R l₂ l₂' := by
  induction l₁ generalizing l' with
  | nil =>
    obtain ⟨b, l₂', hxb, hl₂, rfl⟩ := List.forall₂_cons_left_iff.mp h
    exact ⟨[], b, l₂', rfl, List.Forall₂.nil, hxb, hl₂⟩
  | cons y l₁ ih =>
    obtain ⟨c, l'', hyc, hl, rfl⟩ := List.forall₂_cons_left_iff.mp h
    obtain ⟨l₁', b, l₂', rfl, hl₁, hxb, hl₂⟩ := ih hl
    exact ⟨c :: l₁', b, l₂', rfl, List.Forall₂.cons hyc hl₁, hxb, hl₂⟩

/-- What every run keeps. -/
theorem HeapRun.laid (hk : Sbrk h base ok top) {l : List Piece} {z : Conf Store σ} (hr : HeapRun h base ok l z) :
    ok z.dev ∧ ∃ A, List.Forall₂ Piece.In l A ∧ Laid base (top z.dev) z.mem A := by
  induction hr with
  | start hd => exact ⟨hd, [], List.Forall₂.nil, Or.inl ⟨rfl, rfl, rfl⟩⟩
  | @malloc l z z' n p _ hn he ih =>
    obtain ⟨hd, A, hl, hL⟩ := ih
    obtain ⟨F, p', s', d', F', A', he', hd', -, hheap, -, hserved⟩ := hL.malloc hk hd hn
    obtain ⟨rfl, rfl⟩ := Prod.mk.inj (Option.some.inj (he.symm.trans he'))
    refine ⟨hd', A', ?_, Or.inr ⟨F', hheap⟩⟩
    rcases hserved.used with ⟨rfl, rfl⟩ | ⟨b, rfl, hunits, rfl⟩
    · rw [if_pos rfl]
      exact hl
    · rw [if_neg (by omega)]
      obtain ⟨-, -, hfits⟩ := units_bounds hn
      refine List.Forall₂.cons ⟨rfl, ?_⟩ hl
      simp only [Block.stop, hunits]
      omega
  | @free l₁ l₂ z z' x _ he ih =>
    obtain ⟨hd, A, hl, hL⟩ := ih
    obtain ⟨A₁, b, A₂, rfl, hl₁, hx, hl₂⟩ := forall₂_split hl
    rcases hL with ⟨-, -, hnil⟩ | ⟨F, hH⟩
    · simp at hnil
    · have hgood := (hH.used b (by simp)).1
      have hptr : x.ptr = plus b.addr 1 := by
        have hpos := hgood.pos
        have hend := hgood.end_lt
        simp only [Block.stop] at hend
        rw [hx.1, plus, sizeofHeader, Nat.mod_eq_of_lt (by omega)]
      obtain ⟨s', F', he', hheap, -⟩ := hH.freed (h := h) (d := z.dev)
      rw [hptr] at he
      obtain ⟨-, rfl⟩ := Prod.mk.inj (Option.some.inj (he.symm.trans he'))
      exact ⟨hd, A₁ ++ A₂, List.rel_append hl₁ hl₂, Or.inr ⟨F', hheap⟩⟩
  | @store l z x i v _ hx h₁ h₂ ih =>
    obtain ⟨hd, A, hl, hL⟩ := ih
    obtain ⟨l₁, l₂, rfl⟩ := List.append_of_mem hx
    obtain ⟨A₁, b, A₂, rfl, -, hxb, -⟩ := forall₂_split hl
    rcases hL with ⟨-, -, hnil⟩ | ⟨F, hH⟩
    · simp at hnil
    · have hi : b.addr + 16 ≤ i ∧ i < b.stop := ⟨hxb.1 ▸ h₁, Nat.lt_of_lt_of_le h₂ hxb.2⟩
      exact ⟨hd, _, hl, Or.inr ⟨F, hH.store hi v⟩⟩

/-! ### The kernel -/

section Kernel

variable {τ : Type} {g : Handler Mm.Op Mm.Op.Res τ} {t : Mm.Slot} {k : UInt64} {y : Conf Mm.Memory τ} {l : List Piece}
  {z : Conf Store (Conf Mm.Memory τ)} {n nunits : ℕ} {P : Int32}

/-- `sbrk` is `do_sbrk` of the kernel, for task `t`. -/
def kernel (g : Handler Mm.Op Mm.Op.Res τ) (t : Mm.Slot) : Handler Op Op.Res (Conf Mm.Memory τ)
  | .sbrk n, y => exec g (Mm.do_sbrk n t) y

/-- The break of the task. -/
def brkOf (t : Mm.Slot) (y : Conf Mm.Memory τ) : ℕ := (y.mem.pcb t).brk.toNat

/-- The break is at the start of a page, above `base` and below the stack. -/
def Ready (base : ℕ) (t : Mm.Slot) (y : Conf Mm.Memory τ) : Prop :=
  0 < base ∧ base + 16 ≤ brkOf t y ∧ 4096 ∣ brkOf t y ∧ (y.mem.pcb t).brk < Mm.USER_STACK_END

/-- There is room for the increment below the stack. -/
def Room (t : Mm.Slot) (n : UInt64) (y : Conf Mm.Memory τ) : Prop := (y.mem.pcb t).brk + Mm.ROUND n < Mm.USER_STACK_END

theorem kernel_grants (hg : Room t k y) :
    kernel g t (.sbrk k) y = some (some (y.mem.pcb t).brk, ⟨Mm.grantTo y.mem t (Mm.ROUND k), y.dev⟩) :=
    Mm.exec_heapCall_sbrk hg y.dev

theorem kernel_refuses (hg : ¬ Room t k y) : kernel g t (.sbrk k) y = some (none, y) := by
  have hg' : ¬ (y.mem.pcb t).brk + Mm.ROUND k < Mm.USER_STACK_END := hg
  simp only [kernel, Mm.do_sbrk, exec_bind, exec_get, Option.bind_some, if_neg hg', exec_pure]

theorem kernel_none_iff : (∃ y', kernel g t (.sbrk k) y = some (none, y')) ↔ ¬ Room t k y := by
  refine ⟨fun ⟨y', he⟩ hg => ?_, fun hg => ⟨y, kernel_refuses hg⟩⟩
  rw [kernel_grants hg] at he
  cases he

/-- The break after a grant. -/
theorem brkOf_grant (hk : k.toNat < 2 ^ 63) (hb : (y.mem.pcb t).brk < Mm.USER_STACK_END) :
    brkOf t ⟨Mm.grantTo y.mem t (Mm.ROUND k), y.dev⟩ = brkOf t y + (k.toNat + 4095) / 4096 * 4096 := by
  have hend : Mm.USER_STACK_END.toNat = 15728651 * 4096 := rfl
  have hlt := UInt64.lt_iff_toNat_lt.mp hb
  have hround := Mm.toNat_ROUND (a := k) (by omega)
  rw [brkOf, brkOf, Mm.grantTo, Mm.Memory.note_pcb,
    Mm.Memory.putPcb_pcb, Function.update_self, UInt64.toNat_add, hround]
  omega

/-- `do_sbrk` is what the allocator relies on. -/
theorem sbrk_kernel : Sbrk (kernel g t) base (Ready base t) (brkOf t) := by
  have hend : Mm.USER_STACK_END.toNat = 15728651 * 4096 := rfl
  refine ⟨fun y k hy hk => ?_, fun y y' k hy hk he => ?_, fun y y' k p hy hk he => ?_, fun y hy => ?_⟩
  · by_cases hg : Room t k y
    · obtain ⟨hpos, hbase, hpage, hlt⟩ := hy
      refine ⟨_, _, kernel_grants hg, hpos, ?_, ?_, ?_⟩
      · rw [brkOf_grant hk hlt]
        omega
      · rw [brkOf_grant hk hlt]
        omega
      · rw [Mm.grantTo, Mm.Memory.note_pcb, Mm.Memory.putPcb_pcb, Function.update_self]
        exact hg
    · exact ⟨_, _, kernel_refuses hg, hy⟩
  · have hg : ¬ Room t k y := kernel_none_iff.mp ⟨y', he⟩
    rw [kernel_refuses hg] at he
    obtain ⟨-, rfl⟩ := Prod.mk.inj (Option.some.inj he)
    rfl
  · have hg : Room t k y := by
      by_contra hg
      rw [kernel_refuses hg] at he
      cases he
    rw [kernel_grants hg] at he
    obtain ⟨hp, rfl⟩ := Prod.mk.inj (Option.some.inj he)
    obtain rfl := Option.some.inj hp
    obtain ⟨-, -, hpage, hlt⟩ := hy
    rw [brkOf_grant hk hlt]
    refine ⟨Nat.le_refl _, Nat.dvd_trans (by decide) hpage, ?_⟩
    rw [brkOf]
    omega
  · obtain ⟨hpos, hbase, -, hlt⟩ := hy
    have hlt' := UInt64.lt_iff_toNat_lt.mp hlt
    refine ⟨hpos, hbase, ?_⟩
    rw [brkOf]
    omega

/-- `do_getbrk` makes the task ready: the break is then behind the `.bss` section, where `base` is. -/
theorem ready_getbrk {bss_end : UInt64} (hpos : 0 < base) (hbase : base + 16 ≤ bss_end.toNat)
    (hbss : bss_end.toNat + 4096 < Mm.USER_STACK_END.toNat) :
    ∃ y', exec g (Mm.do_getbrk bss_end t) y = some ((), y') ∧ Ready base t y' := by
  have hend : Mm.USER_STACK_END.toNat = 15728651 * 4096 := rfl
  have hpage : Mm.PAGE_SIZE.toNat = 4096 := rfl
  have hfirst : (Mm.firstBreak bss_end).toNat = (bss_end.toNat + 4096) / 4096 * 4096 := by
    rw [Mm.firstBreak, Mm.toNat_ROUNDDOWN, UInt64.toNat_add, hpage, Nat.mod_eq_of_lt (by omega)]
  have hbrk : ((y.mem.putPcb t fun p => { p with brk := Mm.firstBreak bss_end }).pcb t).brk =
      Mm.firstBreak bss_end := by
    rw [Mm.Memory.putPcb_pcb, Function.update_self]
  refine ⟨⟨y.mem.putPcb t fun p => { p with brk := Mm.firstBreak bss_end }, y.dev⟩, rfl, hpos, ?_, ?_, ?_⟩
  · rw [brkOf, hbrk, hfirst]
    omega
  · rw [brkOf, hbrk, hfirst]
    omega
  · rw [hbrk, UInt64.lt_iff_toNat_lt, hfirst]
    omega

/-- The bytes of the piece are the same in both states. -/
def Piece.Kept (x : Piece) (z z' : Conf Store (Conf Mm.Memory τ)) : Prop :=
  ∀ i, x.ptr ≤ i → i < x.ptr + x.bytes → z'.mem.mem i = z.mem.mem i

theorem pairwise_of_forall₂ {α β : Type} {P : α → β → Prop}
    {R : α → α → Prop} {S : β → β → Prop} {l : List α} {l' : List β}
    (h : List.Forall₂ P l l') (hS : l'.Pairwise S) (hR : ∀ a b c d, P a c → P b d → S c d → R a b) : l.Pairwise R := by
  induction h with
  | nil => exact List.Pairwise.nil
  | @cons a c l l' hac hl ih =>
    obtain ⟨hc, hS⟩ := List.pairwise_cons.mp hS
    refine List.pairwise_cons.mpr ⟨fun b hb => ?_, ih hS⟩
    obtain ⟨i, hi, rfl⟩ := List.getElem_of_mem hb
    have hi' : i < l'.length := hl.length_eq ▸ hi
    exact hR a _ c _ hac (hl.get hi hi') (hc _ (List.getElem_mem hi'))

/-- A piece lies in a block in use. -/
theorem exists_block {A : List Block} (hl : List.Forall₂ Piece.In l A) {x : Piece} (hx : x ∈ l) : ∃ b ∈ A, x.In b := by
  obtain ⟨i, hi, rfl⟩ := List.getElem_of_mem hx
  have hi' : i < A.length := hl.length_eq ▸ hi
  exact ⟨_, List.getElem_mem hi', hl.get hi hi'⟩

theorem kept_of_same {A : List Block} {s s' : Store} {d d' : Conf Mm.Memory τ} (hl : List.Forall₂ Piece.In l A)
    (hsame : ∀ i, Has A i → s'.mem i = s.mem i) : ∀ x ∈ l, x.Kept ⟨s, d⟩ ⟨s', d'⟩ := by
  intro x hx i h₁ h₂
  obtain ⟨b, hb, hptr, hend⟩ := exists_block hl hx
  exact hsame i ⟨b, hb, by omega, by omega⟩

/-- The first piece of an application, if the break can be moved far enough. -/
theorem HeapRun.first {m : ℕ → UInt8} (hy : Ready base t y) (hn : n < 2 ^ 62) (hroom : Room t (increment (units n)) y) :
    ∃ p z, HeapRun (kernel g t) base (Ready base t) [⟨p, n⟩] z ∧ z.mem.freep ≠ 0 := by
  have hL : Laid base (brkOf t y) ⟨m, 0, []⟩ [] := Or.inl ⟨rfl, rfl, rfl⟩
  obtain ⟨F, p, s', d', F', A', he, -, -, hH, -, hserved⟩ := hL.malloc (sbrk_kernel (g := g)) hy hn
  have hp : p ≠ 0 := fun hp => kernel_none_iff.mp (hserved.null.mp hp).2 hroom
  have hrun := (HeapRun.start hy).malloc hn he
  rw [if_neg hp] at hrun
  exact ⟨p, _, hrun, hH.list.freep_ne_zero⟩

theorem ready_oneProcess : Ready 0x10000 0 (⟨Mm.oneProcess, ()⟩ : Conf Mm.Memory Unit) :=
  ⟨by decide, by decide +kernel, by decide +kernel, by decide +kernel⟩

theorem room_oneProcess : Room 0 (increment (units 100)) (⟨Mm.oneProcess, ()⟩ : Conf Mm.Memory Unit) := by
  rw [Room]
  decide +kernel

/-- **The allocator is sound.** Whatever sequence of calls and writes to its pieces an application makes:
the pieces in use do not overlap, they begin at multiples of 16 and lie below the break, and every further
`malloc` and `free` comes back and leaves the bytes of all other pieces as they are. -/
theorem heap_sound (hr : HeapRun (kernel g t) base (Ready base t) l z) :
    (l.Pairwise fun x y => x.ptr + x.bytes ≤ y.ptr ∨ y.ptr + y.bytes ≤ x.ptr) ∧
    (∀ x ∈ l, 16 ∣ x.ptr ∧ base + 16 < x.ptr ∧
      x.ptr + x.bytes ≤ brkOf t z.dev ∧ brkOf t z.dev < Mm.USER_STACK_END.toNat) ∧
    (∀ n < 2 ^ 62, ∃ p z', exec (kernel g t) (malloc base n) z = some (p, z') ∧ ∀ x ∈ l, x.Kept z z') ∧
    ∀ l₁ x l₂, l = l₁ ++ x :: l₂ → ∃ z',
    exec (kernel g t) (free x.ptr) z = some ((), z') ∧ ∀ y ∈ l₁ ++ l₂, y.Kept z z' := by
  obtain ⟨hd, A, hl, hL⟩ := hr.laid sbrk_kernel
  refine ⟨?_, fun x hx => ?_, fun n hn => ?_, fun l₁ x l₂ hsplit => ?_⟩
  · rcases hL with ⟨-, -, rfl⟩ | ⟨F, hH⟩
    · rw [List.forall₂_nil_right_iff.mp hl]
      exact List.Pairwise.nil
    · have hunder : A.Pairwise fun b c => b.Under c ∨ c.Under b :=
        hH.apart.imp_of_mem fun hb hc hbc => under_or (hH.used _ hb).1 (hH.used _ hc).1 hbc
      refine pairwise_of_forall₂ hl hunder fun x y b c hx hy hbc => ?_
      obtain ⟨hx₁, hx₂⟩ := hx
      obtain ⟨hy₁, hy₂⟩ := hy
      simp only [Block.Under] at hbc
      omega
  · obtain ⟨b, hb, hptr, hend⟩ := exists_block hl hx
    rcases hL with ⟨-, -, rfl⟩ | ⟨F, hH⟩
    · simp at hb
    · obtain ⟨hgood, habove, -⟩ := hH.used b hb
      have hpos := hgood.pos
      have haligned := hgood.aligned
      have hlast := hH.below (b.stop - 1)
        (Or.inr ⟨b, hb, by simp only [Block.stop]; omega, by simp only [Block.stop]; omega⟩)
      have hstop : 0 < b.stop := by
        simp only [Block.stop]
        omega
      refine ⟨by omega, by omega, by omega, UInt64.lt_iff_toNat_lt.mp hd.2.2.2⟩
  · obtain ⟨F, p, s', d', F', A', he, -, -, -, hsame, -⟩ := hL.malloc sbrk_kernel hd hn
    exact ⟨p, ⟨s', d'⟩, he, kept_of_same hl hsame⟩
  · subst hsplit
    obtain ⟨A₁, b, A₂, rfl, hl₁, hx, hl₂⟩ := forall₂_split hl
    rcases hL with ⟨-, -, hnil⟩ | ⟨F, hH⟩
    · simp at hnil
    · obtain ⟨s', F', he, -, hsame⟩ := hH.freed (h := kernel g t) (d := z.dev)
      rw [(hH.used b (by simp)).1.plus_one, ← hx.1] at he
      exact ⟨⟨s', z.dev⟩, he, kept_of_same (List.rel_append hl₁ hl₂) hsame⟩

/-- After `malloc(100)` there is a next piece of 200 bytes, and the first one keeps its bytes. -/
theorem heap_sound_second :
    ∃ (p : ℕ) (z : Conf Store (Conf Mm.Memory Unit)) (q : ℕ) (z' : Conf Store (Conf Mm.Memory Unit)),
    16 ∣ p ∧ p + 100 ≤ brkOf 0 z.dev ∧ exec (kernel Mm.idleCard 0) (malloc 0x10000 200) z = some (q, z') ∧
      (⟨p, 100⟩ : Piece).Kept z z' := by
  obtain ⟨p, z, hrun, -⟩ := HeapRun.first (g := Mm.idleCard)
    (m := fun _ => 0) ready_oneProcess (by decide) room_oneProcess
  obtain ⟨-, hpieces, hmalloc, -⟩ := heap_sound hrun
  obtain ⟨halign, -, hend, -⟩ := hpieces _ (List.mem_singleton.mpr rfl)
  obtain ⟨q, z', he, hkept⟩ := hmalloc 200 (by decide)
  exact ⟨p, z, q, z', halign, hend, he, hkept _ (List.mem_singleton.mpr rfl)⟩

/-- A block lies at the front of a range, which ends before the next page. -/
def Front (g : UInt64 × UInt64) (b : Block) : Prop :=
  b.addr = g.1.toNat ∧ 16 * b.units ≤ g.2.toNat ∧ g.2.toNat < 16 * b.units + 4096

/-- The blocks that `morecore` has got lie in the last ranges that the kernel has granted to process `P`,
one in each. -/
def Backed (P : Int32) (t : Mm.Slot) (z : Conf Store (Conf Mm.Memory τ)) : Prop :=
  (z.dev.mem.pcb t).pid = P ∧ ∃ gs, gs <:+ z.dev.mem.grants P ∧ List.Forall₂ Front gs.reverse z.mem.obtained

theorem Backed.same {z' : Conf Store (Conf Mm.Memory τ)} (hz : Backed P t z) (hdev : z'.dev = z.dev)
    (ho : z'.mem.obtained = z.mem.obtained) : Backed P t z' := by
  rw [Backed, hdev, ho]
  exact hz

/-- **When `malloc` returns `NULL`**: exactly if all free blocks are too small and the break cannot be moved
far enough below the stack. -/
theorem malloc_null_iff (hr : HeapRun (kernel g t) base (Ready base t) l z) (hn : n < 2 ^ 62) :
    ∃ F, FreeList base (initRing base z.mem) F ∧ ∃ p z', exec (kernel g t) (malloc base n) z = some (p, z') ∧
      (p = 0 ↔ (∀ c ∈ F, c.units < units n) ∧ ¬ Room t (increment (units n)) z.dev) := by
  obtain ⟨hd, A, hl, hL⟩ := hr.laid sbrk_kernel
  obtain ⟨F, p, s', d', F', A', he, -, hF, -, -, hserved⟩ := hL.malloc sbrk_kernel hd hn
  exact ⟨F, hF, p, ⟨s', d'⟩, he, hserved.null.trans (and_congr_right fun _ => kernel_none_iff)⟩

/-- The first `malloc(100)` does not. -/
theorem malloc_null_iff_first :
    ∃ p z', exec (kernel Mm.idleCard 0) (malloc 0x10000 100) ⟨⟨fun _ => 0, 0, []⟩, ⟨Mm.oneProcess, ()⟩⟩ =
    some (p, z') ∧ p ≠ 0 := by
  have hrun : HeapRun (kernel Mm.idleCard 0) 0x10000 (Ready 0x10000 0) [] ⟨⟨fun _ => 0, 0, []⟩, ⟨Mm.oneProcess, ()⟩⟩ :=
    HeapRun.start ready_oneProcess
  obtain ⟨F, -, p, z', he, hnull⟩ := malloc_null_iff (n := 100) hrun (by decide)
  exact ⟨p, z', he, fun hp => (hnull.mp hp).2 room_oneProcess⟩

end Kernel

end OsLab.Libc
