import OsLab.Libc.Malloc

/-!
# The ring of free blocks

`FreeList base s F`: from `base` on, the pointers lead through the blocks `F` in the order of their addresses and back
to `base`, and no block ends where the next begins. To link a block to what follows it, or to join the two, is one
operation on memory (`link`) and one on lists (`glue`). `free` does it twice (`free_spec`); `malloc` takes a
block out or cuts off its tail (`take_spec`).
-/

namespace OsLab.Libc

open Lib ProgM

variable {m m' : ℕ → UInt8} {p q v n base nunits : ℕ} {s : Store} {a b c x : Block} {F G H L : List Block}

/-! ### Words of headers -/

/-- Headers that do not overlap. -/
def Apart (p q : ℕ) : Prop := p + 16 ≤ q ∨ q + 16 ≤ p

theorem get64_put64_of_disjoint (m : ℕ → UInt8) {o o' : ℕ} (v : UInt64) (h : o + 8 ≤ o' ∨ o' + 8 ≤ o) :
    get64 (put64 m o v) o' = get64 m o' :=
  get64_congr fun i h1 h2 => put64_of_lt m v (by omega)

theorem ptr_setPtr (hv : v < 2 ^ 64) : ptr (setPtr m p v) p = v := by
  rw [ptr, setPtr, get64_put64, UInt64.toNat_ofNat', Nat.mod_eq_of_lt hv]

theorem size_setSize (hn : n < 2 ^ 64) : size (setSize m p n) p = n := by
  rw [size, setSize, get64_put64, UInt64.toNat_ofNat', Nat.mod_eq_of_lt hn]

theorem ptr_setPtr_of_apart (h : Apart p q) : ptr (setPtr m p v) q = ptr m q := by
  rw [ptr, setPtr, get64_put64_of_disjoint _ _ (by simp only [Apart] at h; omega), ptr]

theorem size_setSize_of_apart (h : Apart p q) : size (setSize m p n) q = size m q := by
  rw [size, setSize, get64_put64_of_disjoint _ _ (by simp only [Apart] at h; omega), size]

@[simp] theorem size_setPtr_self : size (setPtr m p v) p = size m p := by
  rw [size, setPtr, get64_put64_of_disjoint _ _ (by omega), size]

@[simp] theorem ptr_setSize_self : ptr (setSize m p n) p = ptr m p := by
  rw [ptr, setSize, get64_put64_of_disjoint _ _ (by omega), ptr]

theorem size_setPtr_of_apart (h : Apart p q) : size (setPtr m p v) q = size m q := by
  rw [size, setPtr, get64_put64_of_disjoint _ _ (by simp only [Apart] at h; omega), size]

theorem ptr_setSize_of_apart (h : Apart p q) : ptr (setSize m p n) q = ptr m q := by
  rw [ptr, setSize, get64_put64_of_disjoint _ _ (by simp only [Apart] at h; omega), ptr]

/-- The memories differ in the header at `p` only. -/
def SameBut (p : ℕ) (m m' : ℕ → UInt8) : Prop := ∀ i, i < p ∨ p + 16 ≤ i → m' i = m i

theorem sameBut_setPtr : SameBut p m (setPtr m p v) := fun i hi => put64_of_lt m _ (by omega)

theorem sameBut_setSize : SameBut p m (setSize m p n) := fun i hi => put64_of_lt m _ (by omega)

theorem SameBut.trans {m'' : ℕ → UInt8} (h : SameBut p m m') (h' : SameBut p m' m'') : SameBut p m m'' :=
  fun i hi => (h' i hi).trans (h i hi)

theorem SameBut.ptr_eq (h : SameBut p m m') (ha : Apart p q) : ptr m' q = ptr m q := by
  rw [ptr, ptr, get64_congr fun i h1 h2 => h i (by simp only [Apart] at ha; omega)]

theorem SameBut.size_eq (h : SameBut p m m') (ha : Apart p q) : size m' q = size m q := by
  rw [size, size, get64_congr fun i h1 h2 => h i (by simp only [Apart] at ha; omega)]

/-! ### Lists of blocks -/

/-- The byte at `i` is in the block. -/
def Block.Has (b : Block) (i : ℕ) : Prop := b.addr ≤ i ∧ i < b.stop

/-- The byte at `i` is in one of the blocks. -/
def Has (L : List Block) (i : ℕ) : Prop := ∃ b ∈ L, b.Has i

@[simp] theorem has_nil (i : ℕ) : ¬ Has [] i := by
  simp [Has]

@[simp] theorem has_cons (b : Block) (L : List Block) (i : ℕ) : Has (b :: L) i ↔ b.Has i ∨ Has L i := by
  simp [Has]

@[simp] theorem has_append (L L' : List Block) (i : ℕ) : Has (L ++ L') i ↔ Has L i ∨ Has L' i := by
  simp [Has, or_and_right, exists_or]

/-- `b` and its header come before `c`. -/
def Block.Under (b c : Block) : Prop := b.addr + 16 ≤ c.addr ∧ b.stop ≤ c.addr

/-- Moreover there is room between them. -/
def Block.Below (b c : Block) : Prop := b.addr + 16 ≤ c.addr ∧ b.stop < c.addr

theorem Block.Below.under (h : b.Below c) : b.Under c := ⟨h.1, Nat.le_of_lt h.2⟩

theorem Block.Under.apart (h : b.Under c) : Apart b.addr c.addr := Or.inl h.1

theorem Apart.symm (h : Apart p q) : Apart q p := Or.symm h

/-- Put a block before blocks that come after it, and join it with the first of them if that begins where it ends. -/
def glue (b : Block) : List Block → List Block
  | [] => [b]
  | c :: L => if b.stop = c.addr then ⟨b.addr, b.units + c.units⟩ :: L else b :: c :: L

theorem glue_cases (b : Block) (L : List Block) :
    glue b L = b :: L ∨ ∃ c H, L = c :: H ∧ b.stop = c.addr ∧ glue b L = ⟨b.addr, b.units + c.units⟩ :: H := by
  cases L with
  | nil => exact Or.inl rfl
  | cons c H =>
    by_cases h : b.stop = c.addr
    · exact Or.inr ⟨c, H, rfl, h, if_pos h⟩
    · exact Or.inl (if_neg h)

theorem has_glue (b : Block) (L : List Block) (i : ℕ) : Has (glue b L) i ↔ b.Has i ∨ Has L i := by
  rcases glue_cases b L with he | ⟨c, H, rfl, h, he⟩
  · simp [he]
  · simp only [he, has_cons, Block.Has, Block.stop, ← or_assoc] at h ⊢
    exact or_congr_left (by omega)

/-- What holds of a block whatever its size. -/
theorem forall_glue {P : Block → Prop} (hb : P b) (hL : ∀ c ∈ L, P c)
    (hjoin : ∀ c ∈ L, b.stop = c.addr → P ⟨b.addr, b.units + c.units⟩) :
    ∀ c ∈ glue b L, P c := by
  rcases glue_cases b L with he | ⟨c, H, rfl, h, he⟩
  · simpa [he] using ⟨hb, hL⟩
  · simpa [he] using ⟨hjoin c (List.mem_cons_self ..) h, (List.forall_mem_cons.mp hL).2⟩

/-- What comes before a block and those after it comes before all of them still. -/
theorem below_glue (hb : x.Below b) (hL : ∀ c ∈ L, x.Below c) : ∀ c ∈ glue b L, x.Below c :=
  forall_glue hb hL fun _ _ _ => hb

theorem under_glue (hb : x.Under b) (hL : ∀ c ∈ L, x.Under c) : ∀ c ∈ glue b L, x.Under c :=
  forall_glue hb hL fun _ _ _ => hb

/-- No two blocks touch afterwards. -/
theorem sorted_glue (hb : ∀ c ∈ L, b.Under c) (hL : L.Pairwise Block.Below) : (glue b L).Pairwise Block.Below := by
  cases L with
  | nil => simp [glue]
  | cons c H =>
    obtain ⟨hc, hH⟩ := List.pairwise_cons.mp hL
    obtain ⟨hbc, hbH⟩ := List.forall_mem_cons.mp hb
    rw [glue]
    split
    · next h =>
      refine List.pairwise_cons.mpr ⟨fun d hd => ?_, hH⟩
      have hcd := hc d hd
      simp only [Block.Below, Block.Under, Block.stop] at h hbc hcd ⊢
      omega
    · next h =>
      refine List.pairwise_cons.mpr ⟨fun d hd => ?_, hL⟩
      rcases List.mem_cons.mp hd with rfl | hd
      · exact ⟨hbc.1, Nat.lt_of_le_of_ne hbc.2 h⟩
      · have hcd := hc d hd
        simp only [Block.Below, Block.Under, Block.stop] at hbc hcd ⊢
        omega

theorem exists_mem_glue (b : Block) (L : List Block) : ∃ c ∈ glue b L, c.addr = b.addr ∧ b.units ≤ c.units := by
  rcases glue_cases b L with he | ⟨c, H, -, -, he⟩
  · simp [he]
  · simp [he]

/-! ### Linking two blocks -/

/-- Make what begins at `y` the next of the block at `p`: join the two if the block ends there, or link it to that. -/
def link (p y : ℕ) (m : ℕ → UInt8) : ℕ → UInt8 :=
  if plus p (size m p) = y then
    let m := setSize m p ((size m p + size m y) % 2 ^ 64)
    setPtr m p (ptr m y)
  else setPtr m p y

theorem link_of_eq (h : plus p (size m p) = q) : link p q m =
    setPtr (setSize m p ((size m p + size m q) % 2 ^ 64)) p (ptr (setSize m p ((size m p + size m q) % 2 ^ 64)) q) :=
    if_pos h

theorem link_of_ne (h : plus p (size m p) ≠ q) : link p q m = setPtr m p q := if_neg h

theorem joinLower_eq : joinLower p q m = link p q m := rfl

theorem joinUpper_eq (h : Apart q p) : joinUpper p q m = link q (ptr m p) m := by
  simp only [joinUpper, link, ptr_setSize_of_apart h]

/-- From the first of the blocks `L`, the pointers lead through them to `base`. -/
structure Chain (base : ℕ) (m : ℕ → UInt8) (L : List Block) : Prop where
  linked : Lib.Linked (ptr m) (L.map Block.addr ++ [base])
  sizes : ∀ b ∈ L, size m b.addr = b.units

/-- Where the chain begins. -/
def first (base : ℕ) : List Block → ℕ
  | [] => base
  | b :: _ => b.addr

theorem plus_units (h : b.stop < 2 ^ 64) : plus b.addr b.units = b.stop := Nat.mod_eq_of_lt h

theorem chain_cons : Chain base m (b :: L) ↔ size m b.addr = b.units ∧
    ptr m b.addr = first base L ∧ Chain base m L := by
  constructor
  · rintro ⟨hl, hs⟩
    obtain ⟨hb, hL⟩ := List.forall_mem_cons.mp hs
    refine ⟨hb, ?_, hl.tail, hL⟩
    cases L <;> simp_all [first]
  · rintro ⟨hb, hf, hl, hs⟩
    refine ⟨?_, List.forall_mem_cons.mpr ⟨hb, hs⟩⟩
    cases L <;> simp_all [first]

theorem Chain.congr (h : Chain base m L) (hm : SameBut p m m') (hL : ∀ c ∈ L, Apart p c.addr) : Chain base m' L := by
  refine ⟨h.linked.congr ?_, fun b hb => (hm.size_eq (hL b hb)).trans (h.sizes b hb)⟩
  intro x hx
  obtain ⟨b, hb, rfl⟩ := List.mem_map.mp hx
  exact hm.ptr_eq (hL b hb)

theorem sameBut_link : SameBut p m (link p q m) := by
  rw [link]
  split
  · exact sameBut_setSize.trans sameBut_setPtr
  · exact sameBut_setPtr

/-- The block and the chain are then one chain. -/
theorem Chain.link (h : Chain base m L) (hb : size m b.addr = b.units)
    (hL : ∀ c ∈ L, b.Under c) (hend : ∀ c ∈ b :: L, c.stop < 2 ^ 64)
    (hbase : base < 2 ^ 64) (hlast : L = [] → b.stop ≠ base) :
    Chain base (link b.addr (first base L) m) (glue b L) := by
  obtain ⟨hbend, hLend⟩ := List.forall_mem_cons.mp hend
  have happart : ∀ c ∈ L, Apart b.addr c.addr := fun c hc => (hL c hc).apart
  have hkeep := h.congr (sameBut_link (p := b.addr) (q := first base L)) happart
  cases L with
  | nil =>
    have hne : plus b.addr (size m b.addr) ≠ base := by
      rw [hb, plus_units hbend]
      exact hlast rfl
    rw [first, link_of_ne hne, glue, chain_cons]
    refine ⟨by simp [hb], ?_, by simp, by simp⟩
    rw [ptr_setPtr hbase, first]
  | cons c H =>
    obtain ⟨hbc, -⟩ := List.forall_mem_cons.mp hL
    obtain ⟨hcend, hHend⟩ := List.forall_mem_cons.mp hLend
    obtain ⟨hc, hnext, hH⟩ := chain_cons.mp h
    have hap := happart c (List.mem_cons_self ..)
    rw [first] at hkeep ⊢
    by_cases htouch : b.stop = c.addr
    · have hplus : plus b.addr (size m b.addr) = c.addr := by
        rw [hb, plus_units hbend, htouch]
      have hsum : (b.units + c.units) % 2 ^ 64 = b.units + c.units := by
        simp only [Block.stop] at htouch hcend
        omega
      have hfirst : first base H < 2 ^ 64 := by
        cases H with
        | nil => exact hbase
        | cons d H =>
          have := hHend d (List.mem_cons_self ..)
          simp only [Block.stop] at this
          simp only [first]
          omega
      have hHkeep := (chain_cons.mp hkeep).2.2
      rw [glue, if_pos htouch, chain_cons]
      refine ⟨?_, ?_, hHkeep⟩
      · rw [link_of_eq hplus, size_setPtr_self, size_setSize (Nat.mod_lt _ (by decide)), hb, hc, hsum]
      · rw [link_of_eq hplus, ptr_setSize_of_apart hap, hnext, ptr_setPtr hfirst]
    · have hplus : plus b.addr (size m b.addr) ≠ c.addr := by
        rw [hb, plus_units hbend]
        exact htouch
      have hlt : c.addr < 2 ^ 64 := by
        simp only [Block.stop] at hcend
        omega
      rw [glue, if_neg htouch, chain_cons]
      refine ⟨?_, ?_, hkeep⟩
      · rw [link_of_ne hplus, size_setPtr_self, hb]
      · rw [link_of_ne hplus, ptr_setPtr hlt, first]

/-! ### The ring -/

theorem Chain.drop (h : Chain base m (G ++ L)) : Chain base m L := by
  induction G with
  | nil => exact h
  | cons b G ih => exact ih (chain_cons.mp h).2.2

theorem Chain.next (h : Chain base m (G ++ b :: L)) : ptr m b.addr = first base L := (chain_cons.mp h.drop).2.1

/-- A block that is not empty, ends within memory and begins at a multiple of 16. -/
structure Block.Good (b : Block) : Prop where
  pos : 0 < b.units
  end_lt : b.stop < 2 ^ 64
  aligned : 16 ∣ b.addr

/-- The free blocks. The ring begins with the block of size 0 at `base`. -/
structure FreeList (base : ℕ) (s : Store) (F : List Block) : Prop where
  chain : Chain base s.mem (⟨base, 0⟩ :: F)
  sorted : (⟨base, 0⟩ :: F).Pairwise Block.Below
  inside : ∀ b ∈ F, b.Good
  base_pos : 0 < base
  base_lt : base + 16 < 2 ^ 64
  freep : s.freep ∈ (⟨base, 0⟩ :: F : List Block).map Block.addr

theorem FreeList.end_lt (h : FreeList base s F) : ∀ b ∈ ⟨base, 0⟩ :: F, b.stop < 2 ^ 64 := by
  have hbase := h.base_lt
  refine List.forall_mem_cons.mpr ⟨?_, fun b hb => (h.inside b hb).end_lt⟩
  simp only [Block.stop]
  omega

/-- Where a block belongs in a list. -/
theorem exists_place (hx : x.Under b) (hL : (x :: L).Pairwise Block.Below) (hb : ∀ c ∈ L, c.Under b ∨ b.Under c) :
    ∃ G q H, x :: L = G ++ q :: H ∧ (∀ c ∈ G ++ [q], c.Under b) ∧ ∀ c ∈ H, b.Under c := by
  induction L generalizing x with
  | nil => exact ⟨[], x, [], rfl, by simpa using hx, by simp⟩
  | cons y L ih =>
    obtain ⟨hxL, hL⟩ := List.pairwise_cons.mp hL
    obtain ⟨hby, hbL⟩ := List.forall_mem_cons.mp hb
    rcases hby with hy | hy
    · obtain ⟨G, q, H, hsplit, hG, hH⟩ := ih hy hL hbL
      exact ⟨x :: G, q, H, by rw [hsplit, List.cons_append], List.forall_mem_cons.mpr ⟨hx, hG⟩, hH⟩
    · refine ⟨[], x, y :: L, rfl, by simpa using hx, List.forall_mem_cons.mpr ⟨hy, fun c hc => ?_⟩⟩
      have hyc := (List.pairwise_cons.mp hL).1 c hc
      simp only [Block.Under, Block.Below] at hy hyc ⊢
      omega

/-- The loop of `free` stops at the block before the place and at no other. -/
theorem stopsAt_iff {q : Block} (hR : Chain base m (G ++ q :: H))
    (hsorted : (G ++ q :: H).Pairwise Block.Below) (hG : ∀ c ∈ G ++ [q], c.Under b)
    (hH : ∀ c ∈ H, b.Under c) (hb : base < b.addr) (hq : base ≤ q.addr) (hpos : ∀ c ∈ H, base < c.addr) :
    ∀ d ∈ G ++ q :: H, stopsAt m b.addr d.addr ↔ d = q := by
  have hbq : q.Under b := hG q (by simp)
  intro d hd
  rcases List.mem_append.mp hd with hd | hd
  · -- before the place, the next block is still at or before it
    obtain ⟨A, B, rfl⟩ := List.append_of_mem hd
    have hnext : ptr m d.addr = first base (B ++ q :: H) := Chain.next (G := A) (by simpa using hR)
    obtain ⟨e, he, hfirst⟩ : ∃ e ∈ B ++ [q], first base (B ++ q :: H) = e.addr := by
      cases B <;> simp [first]
    have hde : d.Below e := by
      have hdB :=
        (List.pairwise_cons.mp (List.pairwise_append.mp
          (by simpa using hsorted : (A ++ d :: (B ++ q :: H)).Pairwise Block.Below)).2.1).1
      exact hdB e (by simp at he ⊢; tauto)
    have heb : e.Under b := hG e (by simp at he ⊢; tauto)
    have hdq : d ≠ q := by
      rintro rfl
      have hself := (List.pairwise_append.mp hsorted).2.2 d (by simp) d (by simp)
      simp only [Block.Below] at hself
      omega
    rw [hfirst] at hnext
    simp only [stopsAt, hnext, Block.Below, Block.Under] at hde heb ⊢
    simp [hdq]
    omega
  · rcases List.mem_cons.mp hd with rfl | hd
    · have hnext : ptr m d.addr = first base H := hR.next
      refine iff_of_true ?_ rfl
      simp only [Block.Under] at hbq
      cases H with
      | nil => simp [stopsAt, hnext, first]; omega
      | cons r H =>
        have hr := hH r (List.mem_cons_self ..)
        simp only [Block.Under] at hr
        simp [stopsAt, hnext, first]
        omega
    · -- behind the place, the next block is further on, or `base`
      obtain ⟨A, B, rfl⟩ := List.append_of_mem hd
      have hnext : ptr m d.addr = first base B := Chain.next (G := G ++ q :: A) (by simpa using hR)
      have hbd := hH d hd
      have hdbase := hpos d hd
      have hdq : d ≠ q := by
        rintro rfl
        simp only [Block.Under] at hbq hbd
        omega
      simp only [Block.Under] at hbd
      cases B with
      | nil =>
        simp [stopsAt, hnext, first, hdq]
        omega
      | cons e B =>
        have hde : d.Below e := by
          have hdB :=
            (List.pairwise_append.mp
              (by simpa using hsorted : ((G ++ q :: A) ++ d :: e :: B).Pairwise Block.Below)).2.1
          exact (List.pairwise_cons.mp hdB).1 e (by simp)
        simp only [Block.Below] at hde
        simp [stopsAt, hnext, first, hdq]
        omega

/-- There are fewer blocks than headers fit into memory. -/
theorem length_le {N lo : ℕ} (hL : L.Pairwise Block.Below)
    (hlo : ∀ b ∈ L, lo ≤ b.addr ∧ b.addr + 16 ≤ N) (hN : lo ≤ N) :
    lo + 16 * L.length ≤ N := by
  induction L generalizing lo with
  | nil => simpa using hN
  | cons b L ih =>
    obtain ⟨hb, hL⟩ := List.pairwise_cons.mp hL
    obtain ⟨hblo, hLlo⟩ := List.forall_mem_cons.mp hlo
    have hrest := ih hL (fun c hc => ⟨(hb c hc).1, (hLlo c hc).2⟩) hblo.2
    rw [List.length_cons]
    omega

theorem FreeList.length_le (h : FreeList base s F) : (⟨base, 0⟩ :: F : List Block).length ≤ 2 ^ 60 := by
  have hbase := h.base_lt
  have hfit : ∀ b ∈ (⟨base, 0⟩ :: F : List Block), 0 ≤ b.addr ∧ b.addr + 16 ≤ 2 ^ 64 := by
    refine List.forall_mem_cons.mpr ⟨⟨Nat.zero_le _, Nat.le_of_lt hbase⟩, fun b hb => ⟨Nat.zero_le _, ?_⟩⟩
    obtain ⟨hpos, hend, -⟩ := h.inside b hb
    simp only [Block.stop] at hend
    omega
  have hle := Libc.length_le h.sorted hfit (Nat.zero_le _)
  omega

/-- `base` itself has no bytes. -/
theorem has_ring {R : List Block} (hR : ⟨base, 0⟩ :: F = R) (i : ℕ) : Has R i ↔ Has F i := by
  subst hR
  simp only [has_cons, Block.Has, Block.stop, Nat.mul_zero, Nat.add_zero, or_iff_right_iff_imp]
  omega

/-- The first blocks of a chain are kept while the others change. -/
theorem Chain.replace (h : Chain base m (G ++ L)) (hH : Chain base m' H) (hfirst : first base H = first base L)
    (hG : ∀ c ∈ G, ptr m' c.addr = ptr m c.addr ∧ size m' c.addr = size m c.addr) : Chain base m' (G ++ H) := by
  induction G with
  | nil => exact hH
  | cons b G ih =>
    obtain ⟨hsize, hptr, hrest⟩ := chain_cons.mp h
    obtain ⟨hb, hG⟩ := List.forall_mem_cons.mp hG
    refine chain_cons.mpr ⟨hb.2.trans hsize, hb.1.trans (hptr.trans ?_), ih hrest hG⟩
    cases G with
    | nil => exact hfirst.symm
    | cons c G => rfl

/-! ### `free` -/

/-- A block that lies above `base` and apart from the free blocks. -/
structure Loose (base : ℕ) (F : List Block) (b : Block) : Prop where
  above : base + 16 ≤ b.addr
  good : b.Good
  clear : ∀ c ∈ F, c.Under b ∨ b.Under c

/-- The block `b` has been added to the free blocks; no other bytes have changed. -/
structure Freed (base : ℕ) (b : Block) (s : Store) (F : List Block) (s' : Store) (F' : List Block) : Prop where
  list : FreeList base s' F'
  obtained : s'.obtained = s.obtained
  has : ∀ i, Has F' i ↔ b.Has i ∨ Has F i
  same : ∀ i, i < base ∨ base + 16 ≤ i → ¬ b.Has i → ¬ Has F i → s'.mem i = s.mem i
  room : ∃ c ∈ F', b.units ≤ c.units

theorem first_glue : first base (glue b L) = b.addr := by
  rcases glue_cases b L with he | ⟨c, H, -, -, he⟩
  all_goals rw [he, first]

/-- What links `b` in behind `q` makes of the memory. -/
theorem Chain.insert {q : Block} (hR : Chain base m (G ++ q :: H))
    (hsorted : (G ++ q :: H).Pairwise Block.Below) (hG : ∀ c ∈ G ++ [q], c.Under b)
    (hH : ∀ c ∈ H, b.Under c) (hend : ∀ c ∈ b :: (G ++ q :: H), c.stop < 2 ^ 64)
    (hb : size m b.addr = b.units) (hbase : base < b.addr)
    (hlt : base < 2 ^ 64) : Chain base (joinLower q.addr b.addr (joinUpper q.addr b.addr m)) (G ++ glue q (glue b H)) ∧
      ∀ i, (i < q.addr ∨ q.addr + 16 ≤ i) → (i < b.addr ∨ b.addr + 16 ≤ i) →
        joinLower q.addr b.addr (joinUpper q.addr b.addr m) i = m i := by
  obtain ⟨hbend, hRend⟩ := List.forall_mem_cons.mp hend
  obtain ⟨hGend, hqHend⟩ := List.forall_mem_append.mp hRend
  obtain ⟨hqend, hHend⟩ := List.forall_mem_cons.mp hqHend
  obtain ⟨hGs, hqHs, hcross⟩ := List.pairwise_append.mp hsorted
  have hqb : q.Under b := hG q (by simp)
  have hqH : ∀ c ∈ H, q.Below c := (List.pairwise_cons.mp hqHs).1
  rw [joinUpper_eq hqb.apart.symm, hR.next, joinLower_eq]
  have hupper : SameBut b.addr m (Libc.link b.addr (first base H) m) := sameBut_link
  have hlower : SameBut q.addr (Libc.link b.addr (first base H) m)
    (Libc.link q.addr b.addr (Libc.link b.addr (first base H) m)) := sameBut_link
  have hHchain : Chain base m H := (chain_cons.mp hR.drop).2.2
  have hstop : b.stop ≠ base := by
    simp only [Block.stop]
    omega
  have hone := hHchain.link hb hH (List.forall_mem_cons.mpr ⟨hbend, hHend⟩) hlt fun _ => hstop
  have hqsize : size (Libc.link b.addr (first base H) m) q.addr = q.units :=
    (hupper.size_eq hqb.apart.symm).trans (hR.drop.sizes q (List.mem_cons_self ..))
  have hglueEnd : ∀ c ∈ q :: glue b H, c.stop < 2 ^ 64 := by
    refine List.forall_mem_cons.mpr ⟨hqend, forall_glue hbend hHend fun c hc htouch => ?_⟩
    have := hHend c hc
    simp only [Block.stop] at this htouch ⊢
    omega
  have htwo := hone.link hqsize (under_glue hqb fun c hc => (hqH c hc).under) hglueEnd hlt fun hnil => by
    rcases glue_cases b H with he | ⟨c, L, -, -, he⟩
    all_goals simp [hnil] at he
  rw [first_glue] at htwo
  refine ⟨hR.replace htwo (by rw [first_glue, first]) fun c hc => ?_, fun i hq hi => (hlower i hq).trans (hupper i hi)⟩
  have hcq : Apart q.addr c.addr := (hcross c hc q (List.mem_cons_self ..)).under.apart.symm
  have hcb : Apart b.addr c.addr := (hG c (List.mem_append_left _ hc)).apart.symm
  exact ⟨(hlower.ptr_eq hcq).trans (hupper.ptr_eq hcb), (hlower.size_eq hcq).trans (hupper.size_eq hcb)⟩

/-- The blocks are then sorted again, and no two touch. -/
theorem sorted_insert {q : Block} (hsorted : (G ++ q :: H).Pairwise Block.Below)
    (hG : ∀ c ∈ G ++ [q], c.Under b) (hH : ∀ c ∈ H, b.Under c) :
    (G ++ glue q (glue b H)).Pairwise Block.Below := by
  obtain ⟨hGs, hqHs, hcross⟩ := List.pairwise_append.mp hsorted
  obtain ⟨hqH, hHs⟩ := List.pairwise_cons.mp hqHs
  have hqb : q.Under b := hG q (by simp)
  refine List.pairwise_append.mpr ⟨hGs,
    sorted_glue (under_glue hqb fun c hc => (hqH c hc).under) (sorted_glue hH hHs), fun c hc => ?_⟩
  have hcq : c.Below q := hcross c hc q (List.mem_cons_self ..)
  refine below_glue hcq (below_glue ?_ fun e he => hcross c hc e (List.mem_cons_of_mem q he))
  simp only [Block.Below, Block.Under] at hcq hqb ⊢
  omega

theorem has_insert {q : Block} (i : ℕ) : Has (G ++ glue q (glue b H)) i ↔ b.Has i ∨ Has (G ++ q :: H) i := by
  simp only [has_append, has_glue, has_cons]
  tauto

/-- `base` stays the first block of the ring. -/
theorem exists_insert {q : Block} (hR : ⟨base, 0⟩ :: F = G ++ q :: H) (hb : base < b.addr) :
    ∃ F', G ++ glue q (glue b H) = ⟨base, 0⟩ :: F' := by
  cases G with
  | nil =>
    obtain ⟨rfl, rfl⟩ := List.cons_eq_cons.mp hR
    refine ⟨glue b F, ?_⟩
    rcases glue_cases ⟨base, 0⟩ (glue b F) with he | ⟨c, L, hL, htouch, -⟩
    · exact he
    · have hc : c.addr = b.addr := by
        rw [← @first_glue base b F, hL, first]
      simp only [Block.stop, hc] at htouch
      omega
  | cons c G =>
    obtain ⟨rfl, -⟩ := List.cons_eq_cons.mp hR
    exact ⟨G ++ glue q (glue b H), rfl⟩

/-- The header of a block that is not empty is part of it. -/
theorem Block.not_header {i : ℕ} (hpos : 0 < b.units) (hi : ¬ b.Has i) : i < b.addr ∨ b.addr + 16 ≤ i := by
  simp only [Block.Has, Block.stop] at hi
  omega

theorem exists_mem_glue_of_mem (hc : c ∈ L) : ∃ c' ∈ glue b L, c.units ≤ c'.units := by
  rcases glue_cases b L with he | ⟨d, H, rfl, -, he⟩
  · exact ⟨c, by simp [he, hc], Nat.le_refl _⟩
  · rcases List.mem_cons.mp hc with rfl | hc
    · exact ⟨_, he ▸ List.mem_cons_self .., Nat.le_add_left ..⟩
    · exact ⟨c, by simp [he, hc], Nat.le_refl _⟩

/-- The header behind which `free` puts the block. -/
theorem FreeList.seek {q : Block} (hF : FreeList base s F)
    (hsplit : ⟨base, 0⟩ :: F = G ++ q :: H) (hG : ∀ c ∈ G ++ [q], c.Under b)
    (hH : ∀ c ∈ H, b.Under c) (hb : base < b.addr) :
    Lib.seek (ptr s.mem) (stopsAt s.mem b.addr) HOPS s.freep = some q.addr := by
  have hring : Lib.Linked (ptr s.mem) (base :: F.map Block.addr ++ [base]) := hF.chain.linked
  have hmem : ∀ c, c ∈ (⟨base, 0⟩ :: F : List Block) ↔ c ∈ G ++ q :: H := fun c => by rw [hsplit]
  have hq : q ∈ (⟨base, 0⟩ :: F : List Block) := (hmem q).mpr (by simp)
  have hchain : Chain base s.mem (G ++ q :: H) := hsplit ▸ hF.chain
  have hsorted : (G ++ q :: H).Pairwise Block.Below := hsplit ▸ hF.sorted
  have hqbase : base ≤ q.addr := by
    rcases List.mem_cons.mp hq with rfl | hq
    · exact Nat.le_refl _
    · exact Nat.le_trans (Nat.le_add_right _ 16) ((List.pairwise_cons.mp hF.sorted).1 q hq).1
  have hHbase : ∀ c ∈ H, base < c.addr :=
    fun c hc => Nat.lt_of_lt_of_le hb (Nat.le_trans (Nat.le_add_right _ _) (hH c hc).1)
  refine hring.seek_ring (fun z hz => ?_) (List.mem_map_of_mem hq) hF.freep ?_
  · obtain ⟨c, hc, rfl⟩ : ∃ c ∈ (⟨base, 0⟩ :: F : List Block), c.addr = z := List.mem_map.mp hz
    rw [hmem] at hc
    rw [stopsAt_iff hchain hsorted hG hH hb hqbase hHbase c hc]
    refine ⟨fun he => he ▸ rfl, fun he => ?_⟩
    by_contra hne
    have hap : Apart c.addr q.addr := by
      rcases List.mem_append.mp hc with hc | hc
      · exact ((List.pairwise_append.mp hsorted).2.2 c hc q (List.mem_cons_self ..)).under.apart
      · rcases List.mem_cons.mp hc with rfl | hc
        · exact absurd rfl hne
        · exact ((List.pairwise_cons.mp (List.pairwise_append.mp hsorted).2.1).1 c hc).under.apart.symm
    simp only [Apart] at hap
    omega
  · have hle : (F.length + 1) ≤ 2 ^ 60 := hF.length_le
    rw [List.length_cons, List.length_map]
    exact Nat.le_trans hle (by decide)

/-- A block above `base` is good. -/
theorem good_insert {q : Block} (hR : ∀ c ∈ G ++ q :: H, base < c.addr → c.Good) (hb : b.Good) (hbase : base < b.addr)
    (hbH : ∀ c ∈ H, b.Under c) :
    ∀ c ∈ G ++ glue q (glue b H), base < c.addr → c.Good := by
  obtain ⟨hG, hqH⟩ := List.forall_mem_append.mp hR
  obtain ⟨hq, hH⟩ := List.forall_mem_cons.mp hqH
  have hjoin : ∀ c d : Block,
      c.stop = d.addr → c.Good → d.stop < 2 ^ 64 → (⟨c.addr, c.units + d.units⟩ : Block).Good := by
    intro c d htouch hc hd
    refine ⟨Nat.add_pos_left hc.pos _, ?_, hc.aligned⟩
    simp only [Block.stop] at htouch hd ⊢
    omega
  have hlow : ∀ c ∈ H, base < c.addr :=
    fun c hc => Nat.lt_of_lt_of_le hbase (Nat.le_trans (Nat.le_add_right _ _) (hbH c hc).1)
  have hglue : ∀ c ∈ glue b H, c.Good :=
    forall_glue hb (fun c hc => hH c hc (hlow c hc)) fun c hc htouch => hjoin b c htouch hb (hH c hc (hlow c hc)).end_lt
  exact List.forall_mem_append.mpr ⟨hG, forall_glue hq (fun c hc _ => hglue c hc) fun c hc htouch hlt =>
    hjoin q c htouch (hq hlt) (hglue c hc).end_lt⟩

/-- The ring after `free`. -/
theorem FreeList.insert {q : Block} {s' : Store} {F' : List Block} (hF : FreeList base s F) (hb : Loose base F b)
    (hsize : size s.mem b.addr = b.units) (hsplit : ⟨base, 0⟩ :: F = G ++ q :: H) (hG : ∀ c ∈ G ++ [q], c.Under b)
    (hH : ∀ c ∈ H, b.Under c) (hF' : G ++ glue q (glue b H) = ⟨base, 0⟩ :: F')
    (hmem : s'.mem = joinLower q.addr b.addr (joinUpper q.addr b.addr s.mem))
    (hfreep : s'.freep = q.addr) (hobtained : s'.obtained = s.obtained) :
    Freed base b s F s' F' := by
  have hsame : ∀ c, c ∈ (⟨base, 0⟩ :: F : List Block) ↔ c ∈ G ++ q :: H := fun c => by rw [hsplit]
  have hsame' : ∀ c, c ∈ (⟨base, 0⟩ :: F' : List Block) ↔ c ∈ G ++ glue q (glue b H) := fun c => by rw [hF']
  have hchain : Chain base s.mem (G ++ q :: H) := hsplit ▸ hF.chain
  have hsorted : (G ++ q :: H).Pairwise Block.Below := hsplit ▸ hF.sorted
  have hbaseb : base < b.addr := Nat.lt_of_lt_of_le (Nat.lt_add_of_pos_right (by decide)) hb.above
  have hbaselt : base < 2 ^ 64 := Nat.lt_trans (Nat.lt_add_of_pos_right (by decide)) hF.base_lt
  have hend : ∀ c ∈ b :: (G ++ q :: H), c.stop < 2 ^ 64 := List.forall_mem_cons.mpr ⟨hb.good.end_lt, hsplit ▸ hF.end_lt⟩
  obtain ⟨hinsert, hframe⟩ := hchain.insert hsorted hG hH hend hsize hbaseb hbaselt
  rw [hF', ← hmem] at hinsert
  rw [← hmem] at hframe
  have hsorted' : (⟨base, 0⟩ :: F' : List Block).Pairwise Block.Below := hF' ▸ sorted_insert hsorted hG hH
  have hR : ∀ c ∈ G ++ q :: H, base < c.addr → c.Good := by
    intro c hc hlt
    rcases List.mem_cons.mp ((hsame c).mpr hc) with rfl | hc
    · exact absurd hlt (Nat.lt_irrefl _)
    · exact hF.inside c hc
  have hgood := good_insert hR hb.good hbaseb hH
  have habove : ∀ c ∈ F', base < c.addr := fun c hc =>
    Nat.lt_of_lt_of_le (Nat.lt_add_of_pos_right (by decide)) ((List.pairwise_cons.mp hsorted').1 c hc).1
  refine ⟨⟨hinsert, hsorted', fun c hc => ?_, hF.base_pos, hF.base_lt, ?_⟩,
    hobtained, fun i => ?_, fun i hi hbi hFi => ?_, ?_⟩
  · exact hgood c ((hsame' c).mp (List.mem_cons_of_mem _ hc)) (habove c hc)
  · obtain ⟨c, hc, hcq, -⟩ := exists_mem_glue q (glue b H)
    rw [hfreep, ← hF', ← hcq]
    exact List.mem_map_of_mem (List.mem_append_right G hc)
  · rw [← has_ring hF'.symm, has_insert, has_ring hsplit]
  · refine hframe i ?_ (Block.not_header hb.good.pos hbi)
    rcases List.mem_cons.mp ((hsame q).mpr (by simp)) with rfl | hq
    · exact hi
    · exact Block.not_header (hF.inside q hq).pos fun hqi => hFi ⟨q, hq, hqi⟩
  · obtain ⟨c, hc, -, hbc⟩ := exists_mem_glue b H
    obtain ⟨c', hc', hcc⟩ := exists_mem_glue_of_mem (b := q) hc
    rcases List.mem_cons.mp ((hsame' c').mpr (List.mem_append_right G hc')) with rfl | hc'
    · have hpos := hb.good.pos
      simp only at hcc
      omega
    · exact ⟨c', hc', Nat.le_trans hbc hcc⟩

variable {σ : Type} {h : Handler Op Op.Res σ} {d : σ}

theorem minus_plus (hb : b.stop < 2 ^ 64) (hpos : 0 < b.units) :
    (plus b.addr 1 + 2 ^ 64 - sizeofHeader) % 2 ^ 64 = b.addr := by
  simp only [Block.stop] at hb
  have hplus : plus b.addr 1 = b.addr + 16 := Nat.mod_eq_of_lt (by simp only [sizeofHeader]; omega)
  rw [hplus, sizeofHeader]
  omega

/-- `free` adds the block to the free ones. -/
theorem free_spec (hF : FreeList base s F) (hb : Loose base F b) (hsize : size s.mem b.addr = b.units) :
    ∃ s' F', exec h (free (plus b.addr 1)) ⟨s, d⟩ = some ((), ⟨s', d⟩) ∧ Freed base b s F s' F' := by
  have hbaseb : base < b.addr := Nat.lt_of_lt_of_le (Nat.lt_add_of_pos_right (by decide)) hb.above
  obtain ⟨G, q, H, hsplit, hG, hH⟩ := exists_place (x := ⟨base, 0⟩) ⟨hb.above, Nat.le_of_lt hbaseb⟩ hF.sorted hb.clear
  obtain ⟨F', hF'⟩ := exists_insert hsplit hbaseb
  refine ⟨{ s with mem := joinLower q.addr b.addr (joinUpper q.addr b.addr s.mem), freep := q.addr }, F', ?_, ?_⟩
  · simp only [free, exec_bind, exec_get, Option.bind_some,
      minus_plus hb.good.end_lt hb.good.pos, hF.seek hsplit hG hH hbaseb, exec_modify]
  · refine hF.insert hb hsize hsplit hG hH hF' ?_ ?_ ?_
    all_goals simp only

/-! ### Taking a block -/

/-- The block `b` of `n` headers has been taken from the free blocks; no other bytes have changed. -/
structure Taken (base n : ℕ) (s : Store) (F : List Block) (b : Block) (s' : Store) (F' : List Block) : Prop where
  list : FreeList base s' F'
  obtained : s'.obtained = s.obtained
  units : b.units = n
  size : size s'.mem b.addr = b.units
  loose : Loose base F' b
  has : ∀ i, Has F i ↔ b.Has i ∨ Has F' i
  same : ∀ i, i < base ∨ base + 16 ≤ i → ¬ Has F i → s'.mem i = s.mem i

/-- A block may lose its tail. -/
theorem sorted_shrink (h : (G ++ c :: H).Pairwise Block.Below) (ha : a.addr = c.addr) (hs : a.stop ≤ c.stop) :
    (G ++ a :: H).Pairwise Block.Below := by
  obtain ⟨hG, hcH, hcross⟩ := List.pairwise_append.mp h
  obtain ⟨hc, hH⟩ := List.pairwise_cons.mp hcH
  refine List.pairwise_append.mpr ⟨hG, List.pairwise_cons.mpr ⟨fun d hd => ?_, hH⟩, fun e he d hd => ?_⟩
  · have hcd := hc d hd
    simp only [Block.Below] at hcd ⊢
    omega
  · rcases List.mem_cons.mp hd with rfl | hd
    · have hec := hcross e he c (List.mem_cons_self ..)
      simp only [Block.Below] at hec ⊢
      omega
    · exact hcross e he d (List.mem_cons_of_mem _ hd)

/-- The whole block is taken. -/
theorem Chain.unlink {q : Block} (hR : Chain base m (G ++ q :: c :: H))
    (hsorted : (G ++ q :: c :: H).Pairwise Block.Below)
    (hlt : first base H < 2 ^ 64) : Chain base (setPtr m q.addr (ptr m c.addr)) (G ++ q :: H) := by
  obtain ⟨hGs, hqs, hcross⟩ := List.pairwise_append.mp hsorted
  obtain ⟨hqsize, hqptr, hcH⟩ := chain_cons.mp hR.drop
  obtain ⟨-, hcptr, hHchain⟩ := chain_cons.mp hcH
  have hqH : ∀ d ∈ H, Apart q.addr d.addr := fun d hd => ((List.pairwise_cons.mp hqs).1 d (by simp [hd])).under.apart
  refine hR.replace (chain_cons.mpr ⟨?_, ?_, hHchain.congr sameBut_setPtr hqH⟩) rfl fun d hd => ?_
  · rw [size_setPtr_self, hqsize]
  · rw [hcptr, ptr_setPtr hlt]
  · have hap : Apart q.addr d.addr := (hcross d hd q (List.mem_cons_self ..)).under.apart.symm
    exact ⟨ptr_setPtr_of_apart hap, size_setPtr_of_apart hap⟩

/-- The tail of the block is taken. -/
theorem Chain.shrink (hR : Chain base m (G ++ c :: H))
    (hsorted : (G ++ c :: H).Pairwise Block.Below) (hc : c.stop < 2 ^ 64)
    (ha : a.addr = c.addr) (hapos : 0 < a.units) (hb : b.addr = a.stop) (hbpos : 0 < b.units) (hbc : b.stop = c.stop) :
    Chain base (setSize (setSize m c.addr a.units) b.addr b.units) (G ++ a :: H) := by
  obtain ⟨hGs, hcs, hcross⟩ := List.pairwise_append.mp hsorted
  obtain ⟨hcsize, hcptr, hHchain⟩ := chain_cons.mp hR.drop
  have hcb : Apart b.addr c.addr := by
    simp only [Apart, Block.stop] at hb ⊢
    omega
  have hHc : ∀ d ∈ H, Apart c.addr d.addr ∧ Apart b.addr d.addr := by
    intro d hd
    have hcd := (List.pairwise_cons.mp hcs).1 d hd
    simp only [Apart, Block.Below, Block.stop] at hcd hb hbc ⊢
    omega
  have hlt : a.units < 2 ^ 64 := by
    simp only [Block.stop] at hb hbc hc
    omega
  refine hR.replace (chain_cons.mpr ⟨?_, ?_, ?_⟩) ha fun d hd => ?_
  · rw [ha, size_setSize_of_apart hcb, size_setSize hlt]
  · rw [ha, ptr_setSize_of_apart hcb, ptr_setSize_self, hcptr]
  · exact (hHchain.congr sameBut_setSize fun d hd => (hHc d hd).1).congr sameBut_setSize fun d hd => (hHc d hd).2
  · have hdc := hcross d hd c (List.mem_cons_self ..)
    have hap : Apart c.addr d.addr ∧ Apart b.addr d.addr := by
      simp only [Apart, Block.Below, Block.stop] at hdc hb ⊢
      omega
    exact ⟨by rw [ptr_setSize_of_apart hap.2, ptr_setSize_of_apart hap.1], by
      rw [size_setSize_of_apart hap.2, size_setSize_of_apart hap.1]⟩

theorem FreeList.first_lt {F' : List Block} (hF : FreeList base s F) (hsub : ∀ c ∈ F', c ∈ F) :
    first base F' < 2 ^ 64 := by
  cases F' with
  | nil =>
    have hbase := hF.base_lt
    simp only [first]
    omega
  | cons c L =>
    have hc := (hF.inside c (hsub c (List.mem_cons_self ..))).end_lt
    simp only [Block.stop] at hc
    simp only [first]
    omega

/-- `base` stays the first block when what comes after `q` changes. -/
theorem exists_tail {q : Block} (hR : ⟨base, 0⟩ :: F = G ++ q :: H) (L : List Block) :
    ∃ F', G ++ q :: L = ⟨base, 0⟩ :: F' := by
  cases G with
  | nil =>
    obtain ⟨rfl, -⟩ := List.cons_eq_cons.mp hR
    exact ⟨L, rfl⟩
  | cons c G =>
    obtain ⟨rfl, -⟩ := List.cons_eq_cons.mp hR
    exact ⟨G ++ q :: L, rfl⟩

/-- What comes after `q` is not `base`. -/
theorem mem_of_split {q : Block} (hR : x :: F = G ++ q :: H) : ∀ c ∈ H, c ∈ F := by
  intro c hc
  cases G with
  | nil =>
    obtain ⟨-, rfl⟩ := List.cons_eq_cons.mp hR
    exact hc
  | cons d G =>
    obtain ⟨-, rfl⟩ := List.cons_eq_cons.mp hR
    simp [hc]

/-- The ring after a change behind `q`. -/
theorem FreeList.after {q : Block} {s' : Store} {F' : List Block}
    (hF : FreeList base s F) (hsplit : ⟨base, 0⟩ :: F = G ++ q :: H)
    (hF' : G ++ q :: L = ⟨base, 0⟩ :: F') (hchain : Chain base s'.mem (G ++ q :: L))
    (hsorted : (G ++ q :: L).Pairwise Block.Below)
    (hL : ∀ c ∈ L, c.Good) (hfreep : s'.freep = q.addr) : FreeList base s' F' := by
  have hfreep' : s'.freep ∈ (G ++ q :: L).map Block.addr := by
    rw [hfreep]
    exact List.mem_map_of_mem (by simp)
  rw [hF'] at hchain hsorted hfreep'
  refine ⟨hchain, hsorted, fun c hc => ?_, hF.base_pos, hF.base_lt, hfreep'⟩
  have hcR : c ∈ G ++ q :: L := hF' ▸ List.mem_cons_of_mem _ hc
  have hbase : base + 16 ≤ c.addr := ((List.pairwise_cons.mp hsorted).1 c hc).1
  have hold : c ∈ G ++ [q] → c ∈ F := by
    intro hcG
    have hcF : c ∈ (⟨base, 0⟩ :: F : List Block) := by
      rw [hsplit]
      simp at hcG ⊢
      tauto
    rcases List.mem_cons.mp hcF with rfl | hcF
    · simp only at hbase
      omega
    · exact hcF
  by_cases hcL : c ∈ L
  · exact hL c hcL
  · refine hF.inside c (hold ?_)
    simp at hcR ⊢
    tauto

theorem take_whole (h : size s.mem p = nunits) :
    take nunits q p s = (plus p 1, { s with mem := setPtr s.mem q (ptr s.mem p), freep := q }) := if_pos h

theorem take_tail (h : size s.mem p ≠ nunits) : take nunits q p s =
    (plus (plus p (size (setSize s.mem p (size s.mem p - nunits)) p)) 1,
      { s with
        mem := setSize (setSize s.mem p (size s.mem p - nunits))
          (plus p (size (setSize s.mem p (size s.mem p - nunits)) p)) nunits
        freep := q }) := if_neg h

/-- What `malloc` takes when it takes the whole block. -/
theorem FreeList.whole {q : Block} {s' : Store} (hF : FreeList base s F) (hsplit : ⟨base, 0⟩ :: F = G ++ q :: c :: H)
    (hmem : s'.mem = setPtr s.mem q.addr (ptr s.mem c.addr))
    (hfreep : s'.freep = q.addr) (hobtained : s'.obtained = s.obtained) :
    ∃ F', Taken base c.units s F c s' F' := by
  have hchain : Chain base s.mem (G ++ q :: c :: H) := hsplit ▸ hF.chain
  have hsorted : (G ++ q :: c :: H).Pairwise Block.Below := hsplit ▸ hF.sorted
  obtain ⟨hcF, hHF⟩ := List.forall_mem_cons.mp (mem_of_split hsplit)
  obtain ⟨F', hF'⟩ := exists_tail hsplit H
  have hqne : Apart q.addr c.addr :=
    ((List.pairwise_cons.mp (List.pairwise_append.mp hsorted).2.1).1 c (by simp)).under.apart
  have hsorted' : (G ++ q :: H).Pairwise Block.Below := hsorted.sublist (by simp)
  have hlist : FreeList base s' F' := by
    refine hF.after hsplit hF' ?_ hsorted' (fun d hd => hF.inside d (hHF d hd)) hfreep
    rw [hmem]
    exact hchain.unlink hsorted (hF.first_lt hHF)
  have hframe : SameBut q.addr s.mem s'.mem := hmem ▸ sameBut_setPtr
  refine ⟨F', hlist, hobtained, rfl, ?_, ⟨?_, hF.inside c hcF, fun d hd => ?_⟩,
    fun i => ?_, fun i hi hFi => hframe i ?_⟩
  · rw [hframe.size_eq hqne]
    exact hchain.sizes c (by simp)
  · exact ((List.pairwise_cons.mp hF.sorted).1 c hcF).1
  · have hdR : d ∈ G ++ q :: H := hF' ▸ List.mem_cons_of_mem _ hd
    have hsorted₂ : ((G ++ [q]) ++ c :: H).Pairwise Block.Below := by simpa using hsorted
    obtain ⟨-, hcH, hcross⟩ := List.pairwise_append.mp hsorted₂
    by_cases hdH : d ∈ H
    · exact Or.inr ((List.pairwise_cons.mp hcH).1 d hdH).under
    · refine Or.inl (hcross d ?_ c (List.mem_cons_self ..)).under
      simp at hdR ⊢
      tauto
  · rw [← has_ring hsplit, ← has_ring hF'.symm]
    simp only [has_append, has_cons]
    tauto
  · have hqR : q ∈ (⟨base, 0⟩ :: F : List Block) := hsplit ▸ (by simp)
    rcases List.mem_cons.mp hqR with rfl | hqF
    · exact hi
    · exact Block.not_header (hF.inside q hqF).pos fun hqi => hFi ⟨q, hqF, hqi⟩

/-- What `malloc` takes when it takes the tail. -/
theorem FreeList.tail {q : Block} {s' : Store} (hF : FreeList base s F)
    (hsplit : ⟨base, 0⟩ :: F = G ++ q :: c :: H) (ha : a.addr = c.addr)
    (hapos : 0 < a.units) (hb : b.addr = a.stop) (hbpos : 0 < b.units) (hbc : b.stop = c.stop)
    (hmem : s'.mem = setSize (setSize s.mem c.addr a.units) b.addr b.units)
    (hfreep : s'.freep = q.addr) (hobtained : s'.obtained = s.obtained) :
    ∃ F', Taken base b.units s F b s' F' := by
  have hchain : Chain base s.mem (G ++ q :: c :: H) := hsplit ▸ hF.chain
  have hsorted : (G ++ q :: c :: H).Pairwise Block.Below := hsplit ▸ hF.sorted
  have hsorted₂ : ((G ++ [q]) ++ c :: H).Pairwise Block.Below := by simpa using hsorted
  obtain ⟨hcF, hHF⟩ := List.forall_mem_cons.mp (mem_of_split hsplit)
  obtain ⟨hcpos, hcend, hcal⟩ := hF.inside c hcF
  obtain ⟨F', hF'⟩ := exists_tail hsplit (a :: H)
  have hle : a.stop ≤ c.stop := by
    simp only [Block.stop] at hb hbc ⊢
    omega
  have hshrink : Chain base s'.mem ((G ++ [q]) ++ a :: H) := by
    rw [hmem]
    exact Chain.shrink (G := G ++ [q]) (by simpa using hchain) hsorted₂ hcend ha hapos hb hbpos hbc
  have hlist : FreeList base s' F' := by
    refine hF.after hsplit hF' (by simpa using hshrink)
      (by simpa using sorted_shrink hsorted₂ ha hle) (List.forall_mem_cons.mpr ⟨?_, ?_⟩) hfreep
    · exact ⟨hapos, Nat.lt_of_le_of_lt hle hcend, ha ▸ hcal⟩
    · exact fun d hd => hF.inside d (hHF d hd)
  have hbase := ((List.pairwise_cons.mp hF.sorted).1 c hcF).1
  have hblt : b.units < 2 ^ 64 := by
    simp only [Block.stop] at hbc hcend
    omega
  refine ⟨F', hlist, hobtained, rfl, ?_,
    ⟨?_, ⟨hbpos, hbc ▸ hcend, hb ▸ Nat.dvd_add (ha ▸ hcal) (Nat.dvd_mul_right 16 _)⟩, fun d hd => ?_⟩,
    fun i => ?_, fun i hi hFi => ?_⟩
  · rw [hmem, size_setSize hblt]
  · simp only [Block.stop] at hb hbase ⊢
    omega
  · have hdR : d ∈ G ++ q :: a :: H := hF' ▸ List.mem_cons_of_mem _ hd
    obtain ⟨-, hcH, hcross⟩ := List.pairwise_append.mp hsorted₂
    by_cases hda : d = a
    · subst hda
      refine Or.inl ?_
      simp only [Block.Under, Block.stop] at hb ⊢
      omega
    · by_cases hdH : d ∈ H
      · have hcd := (List.pairwise_cons.mp hcH).1 d hdH
        refine Or.inr ?_
        simp only [Block.Under, Block.Below, Block.stop] at hcd hbc hb ⊢
        omega
      · have hdc := hcross d (by simp at hdR ⊢; tauto) c (List.mem_cons_self ..)
        refine Or.inl ?_
        simp only [Block.Under, Block.Below, Block.stop] at hdc hb ⊢
        omega
  · have hcover : c.Has i ↔ b.Has i ∨ a.Has i := by
      simp only [Block.Has, Block.stop] at hb hbc ⊢
      omega
    rw [← has_ring hsplit, ← has_ring hF'.symm]
    simp only [has_append, has_cons, hcover]
    tauto
  · have hci : ¬ c.Has i := fun h => hFi ⟨c, hcF, h⟩
    have hnot : (i < c.addr ∨ c.addr + 16 ≤ i) ∧ (i < b.addr ∨ b.addr + 16 ≤ i) := by
      simp only [Block.Has, Block.stop] at hci hb hbc
      omega
    rw [hmem, sameBut_setSize i hnot.2, sameBut_setSize i hnot.1]

/-- `malloc` takes a block of the size it wants from one that is large enough. -/
theorem take_spec {q : Block} (hF : FreeList base s F)
    (hsplit : ⟨base, 0⟩ :: F = G ++ q :: c :: H) (hn : 0 < nunits) (hc : nunits ≤ c.units) :
    ∃ b F', (take nunits q.addr c.addr s).1 =
    plus b.addr 1 ∧ Taken base nunits s F b (take nunits q.addr c.addr s).2 F' := by
  have hchain : Chain base s.mem (G ++ q :: c :: H) := hsplit ▸ hF.chain
  have hsize : size s.mem c.addr = c.units := hchain.sizes c (by simp)
  have hcF : c ∈ F := mem_of_split hsplit c (by simp)
  have hcend := (hF.inside c hcF).end_lt
  by_cases he : c.units = nunits
  · obtain ⟨F', hF'⟩ : ∃ F', Taken base c.units s F c (take nunits q.addr c.addr s).2 F' := by
      refine hF.whole hsplit ?_ ?_ ?_
      all_goals rw [take_whole (hsize.trans he)]
    exact ⟨c, F', by rw [take_whole (hsize.trans he)], he ▸ hF'⟩
  · have hne : size s.mem c.addr ≠ nunits := fun h => he (hsize.symm.trans h)
    have hlt : c.units - nunits < 2 ^ 64 := by
      simp only [Block.stop] at hcend
      omega
    have hplus : plus c.addr (c.units - nunits) = c.addr + 16 * (c.units - nunits) := by
      refine Nat.mod_eq_of_lt ?_
      simp only [sizeofHeader, Block.stop] at hcend ⊢
      omega
    have htail := take_tail (q := q.addr) hne
    rw [hsize, size_setSize hlt, hplus] at htail
    have hrest : 0 < c.units - nunits := Nat.sub_pos_of_lt (Nat.lt_of_le_of_ne hc (Ne.symm he))
    have hend : (⟨c.addr + 16 * (c.units - nunits), nunits⟩ : Block).stop = c.stop := by
      simp only [Block.stop]
      omega
    obtain ⟨F', hF'⟩ : ∃ F', Taken base nunits s F ⟨c.addr + 16 * (c.units - nunits), nunits⟩
        (take nunits q.addr c.addr s).2 F' := by
      refine hF.tail (a := ⟨c.addr, c.units - nunits⟩) hsplit rfl hrest rfl hn hend ?_ ?_ ?_
      all_goals rw [htail]
    exact ⟨_, F', by rw [htail], hF'⟩

end OsLab.Libc
