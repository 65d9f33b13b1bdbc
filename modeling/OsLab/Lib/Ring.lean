import Mathlib.Algebra.GroupWithZero.Nat
import Mathlib.Data.List.Chain
import Mathlib.Data.List.Nodup
import Mathlib.Logic.Function.Basic

/-!
# Circular doubly linked lists

Intrusive lists as C code keeps them: every node has a `next` and a `prev` pointer, a
sentinel closes the circle, and nodes are spliced in and out by assigning pointers. The
pointers of all nodes are one value, `Links`; a null pointer is `none`.

`Ring L h l` says that following `next` from the sentinel `h` visits exactly the nodes of
`l`, in order and without repetition, before it comes back to `h`, and that `prev` is the
same circle backwards. The ways to splice (`unlink`, `insertFront`, `insertTail`, `forward`) and
the walk along `next` (`find`) are specified in terms of `l`.
-/

namespace OsLab.Lib

variable {α : Type*}

/-- The pointers of all nodes. -/
structure Links (α : Type*) where
  /-- The node a node's `next` points to. -/
  next : α → Option α
  /-- The node a node's `prev` points to. -/
  prev : α → Option α

namespace Links

/-- `b` follows `a`, in both directions. -/
def Joined (L : Links α) (a b : α) : Prop := L.next a = some b ∧ L.prev b = some a

/-- The circle through the sentinel `h` and the nodes `l`. -/
def Ring (L : Links α) (h : α) (l : List α) : Prop :=
  (h :: l).Nodup ∧ (h :: (l ++ [h])).IsChain L.Joined

section Splice

variable [DecidableEq α]

instance (L : Links α) : DecidableRel L.Joined := fun _ _ => inferInstanceAs (Decidable (_ ∧ _))

instance (L : Links α) (h : α) (l : List α) : Decidable (L.Ring h l) := inferInstanceAs (Decidable (_ ∧ _))

/-- `a->next = b`. -/
def setNext (L : Links α) (a : α) (b : Option α) : Links α := { L with next := Function.update L.next a b }

/-- `a->prev = b`. -/
def setPrev (L : Links α) (a : α) (b : Option α) : Links α := { L with prev := Function.update L.prev a b }

/-- `h->next = h->prev = h`. -/
def selfLink (L : Links α) (h : α) : Links α := (L.setNext h (some h)).setPrev h (some h)

/-- Take `a` out: `a->next->prev = a->prev`, `a->prev->next = a->next`, and both pointers of
`a` become null. -/
def unlink (L : Links α) (a : α) : Option (Links α) := do
  let n ← L.next a
  let p ← L.prev a
  some ((((L.setPrev n (some p)).setNext p (some n)).setNext a none).setPrev a none)

/-- Put `a` right after the sentinel `h`. -/
def insertFront (L : Links α) (a h : α) : Option (Links α) := do
  let n ← L.next h
  some ((((L.setNext a (some n)).setPrev a (some h)).setPrev n (some a)).setNext h (some a))

/-- Put `a` right before the sentinel `h`. -/
def insertTail (L : Links α) (a h : α) : Option (Links α) := do
  let p ← L.prev h
  some ((((L.setNext a (some h)).setPrev a (some p)).setNext p (some a)).setPrev h (some a))

/-- Let the sentinel `h` and the node after it change places: the first node becomes the last. Nothing happens on a
circle of fewer than two nodes. -/
def forward (L : Links α) (h : α) : Option (Links α) := do
  let n ← L.next h
  if n = h then some L
  else do
    let m ← L.next n
    if m = h then some L
    else do
      let p ← L.prev h
      some ((((((L.setNext h (some m)).setPrev m (some h)).setPrev h (some n)).setNext n (some h)).setPrev
        n (some p)).setNext p (some n))

/-- Walk along `next` from `a` to the first node that satisfies `p`, giving up at the
sentinel `h`. The walk stops without an answer at a null pointer and after `fuel` nodes. -/
def find (L : Links α) (h : α) (p : α → Bool) : ℕ → α → Option (Option α)
  | 0, _ => none
  | fuel + 1, a =>
    if a = h then some none
    else if p a then some (some a)
    else (L.next a).bind (find L h p fuel)

end Splice

/-- A chain of nodes depends on `next` of all but its last node and `prev` of all but its first. -/
theorem isChain_congr {L L' : Links α} {l : List α} (hc : l.IsChain L.Joined)
    (hn : ∀ x ∈ l.dropLast, L'.next x = L.next x) (hp : ∀ x ∈ l.tail, L'.prev x = L.prev x) :
    l.IsChain L'.Joined := by
  induction l with
  | nil => exact List.isChain_nil
  | cons a l ih =>
    cases l with
    | nil => exact List.isChain_singleton a
    | cons b l =>
      rw [List.isChain_cons_cons] at hc ⊢
      refine ⟨⟨(hn a (by simp)).trans hc.1.1, (hp b (by simp)).trans hc.1.2⟩, ih hc.2 ?_ ?_⟩
      · exact fun x hx => hn x (by rw [List.dropLast_cons_cons]; exact List.mem_cons_of_mem _ hx)
      · exact fun x hx => hp x (List.mem_of_mem_tail hx)

namespace Ring

variable {L L' : Links α} {h a : α} {l l₁ l₂ : List α}

theorem notMem (r : L.Ring h l) : h ∉ l := (List.nodup_cons.mp r.1).1

theorem nodup (r : L.Ring h l) : l.Nodup := (List.nodup_cons.mp r.1).2

/-- The chain from a node to the sentinel is read off the `next` pointers. -/
theorem next_unique {l' : List α} (hc : (a :: (l ++ [h])).IsChain fun x y => L.next x = some y)
    (hc' : (a :: (l' ++ [h])).IsChain fun x y => L.next x = some y) (hl : h ∉ l) (hl' : h ∉ l') : l = l' := by
  induction l generalizing a l' with
  | nil =>
    cases l' with
    | nil => rfl
    | cons b l' =>
      have h₁ : L.next a = some h := by simpa using hc
      have h₂ := (List.isChain_cons_cons.mp hc').1
      exact absurd (Option.some.inj (h₁.symm.trans h₂)) (List.ne_of_not_mem_cons hl')
  | cons b l ih =>
    rw [List.cons_append, List.isChain_cons_cons] at hc
    cases l' with
    | nil =>
      have h₁ : L.next a = some h := by simpa using hc'
      exact absurd (Option.some.inj (h₁.symm.trans hc.1)) (List.ne_of_not_mem_cons hl)
    | cons b' l' =>
      rw [List.cons_append, List.isChain_cons_cons] at hc'
      obtain rfl : b = b' := Option.some.inj (hc.1.symm.trans hc'.1)
      rw [ih hc.2 hc'.2 (List.not_mem_of_not_mem_cons hl) (List.not_mem_of_not_mem_cons hl')]

theorem next_chain (r : L.Ring h l) : (h :: (l ++ [h])).IsChain fun x y => L.next x = some y :=
  r.2.imp fun _ _ hj => hj.1

/-- The pointers hold one circle through a sentinel. -/
theorem unique {l' : List α} (r : L.Ring h l) (r' : L.Ring h l') : l = l' :=
  next_unique r.next_chain r'.next_chain r.notMem r'.notMem

/-- A chain depends on `next` of all but its last node. -/
theorem next_congr (hc : (l ++ [a]).IsChain fun x y => L.next x = some y) (hn : ∀ x ∈ l, L'.next x = L.next x) :
    (l ++ [a]).IsChain fun x y => L'.next x = some y := by
  induction l with
  | nil => exact List.isChain_singleton a
  | cons b l ih =>
    have hb := hn b (List.mem_cons_self ..)
    have hn' : ∀ x ∈ l, L'.next x = L.next x := fun x hx => hn x (List.mem_cons_of_mem _ hx)
    cases l with
    | nil =>
      have hba : L.next b = some a := by simpa using hc
      simpa using hb.trans hba
    | cons c l =>
      rw [List.cons_append, List.cons_append, List.isChain_cons_cons] at hc ⊢
      exact ⟨hb.trans hc.1, ih hc.2 hn'⟩

/-- Who leaves the circle for `U`, which `next` does not leave, does not come back to the sentinel. -/
theorem reaches {U : α → Prop} (hc : (a :: (l ++ [h])).IsChain fun x y => L.next x = some y)
    (hU : ∀ x y, U x → L.next x = some y → U y) (ha : U a) : U h := by
  induction l generalizing a with
  | nil => exact hU a h ha (by simpa using hc)
  | cons b l ih =>
    rw [List.cons_append, List.isChain_cons_cons] at hc
    exact ih hc.2 (hU a b ha hc.1)

/-- Where pointers were changed outside a circle, or into what `next` does not leave, the chain to the sentinel is the
old one. -/
theorem chain_same {U : α → Prop} (hc : (a :: (l ++ [h])).IsChain fun x y => L'.next x = some y)
    (hU : ∀ x y, U x → L'.next x = some y → U y) (hh : ¬ U h)
    (hn : ∀ x, ¬ U x → L'.next x = L.next x ∨ ∃ y, L'.next x = some y ∧ U y) :
    (a :: (l ++ [h])).IsChain fun x y => L.next x = some y := by
  have hlink : ∀ x y, ¬ U x → ¬ U y → L'.next x = some y → L.next x = some y := by
    intro x y hx hy hxy
    rcases hn x hx with he | ⟨z, hz, hUz⟩
    · rwa [he] at hxy
    · obtain rfl := Option.some.inj (hxy.symm.trans hz)
      exact absurd hUz hy
  have ha : ¬ U a := fun ha => hh (reaches hc hU ha)
  induction l generalizing a with
  | nil =>
    rw [List.nil_append, List.isChain_pair] at hc ⊢
    exact hlink a h ha hh hc
  | cons b l ih =>
    rw [List.cons_append, List.isChain_cons_cons] at hc ⊢
    have hb : ¬ U b := fun hb => hh (reaches hc.2 hU hb)
    exact ⟨hlink a b ha hb hc.1, ih hc.2 hb⟩

/-- Such pointers hold no other circle through the sentinel. -/
theorem same {l' : List α} {U : α → Prop} (r : L.Ring h l)
    (r' : L'.Ring h l') (hU : ∀ x y, U x → L'.next x = some y → U y)
    (hh : ¬ U h) (hn : ∀ x, ¬ U x → L'.next x = L.next x ∨ ∃ y, L'.next x = some y ∧ U y) : l' = l :=
  next_unique (chain_same r'.next_chain hU hh hn) r.next_chain r'.notMem r.notMem

/-- A ring depends only on the pointers of its own nodes. -/
theorem congr (r : L.Ring h l) (hn : ∀ x ∈ h :: l, L'.next x = L.next x) (hp : ∀ x ∈ h :: l, L'.prev x = L.prev x) :
    L'.Ring h l := by
  refine ⟨r.1, isChain_congr r.2 (fun x hx => hn x ?_) (fun x hx => hp x ?_)⟩
  · rwa [← List.cons_append, List.dropLast_concat] at hx
  · simp only [List.tail_cons, List.mem_append, List.mem_singleton] at hx
    rw [List.mem_cons]
    exact hx.symm

/-- The sentinel's `next` is the first node, or the sentinel itself. -/
theorem next_head (r : L.Ring h l) : L.next h = some (l.headD h) := by
  cases l with
  | nil => exact (List.isChain_pair.mp r.2).1
  | cons b l => exact (List.isChain_cons_cons.mp r.2).1.1

/-- The sentinel's `prev` is the last node, or the sentinel itself. -/
theorem prev_head (r : L.Ring h l) : L.prev h = some (l.getLastD h) := by
  rcases List.eq_nil_or_concat l with rfl | ⟨l, b, rfl⟩
  · exact (List.isChain_pair.mp r.2).2
  · have hc := r.2
    rw [List.concat_eq_append, List.append_assoc, ← List.cons_append, List.isChain_append] at hc
    simpa using (List.isChain_cons_cons.mp hc.2.1).1.2

/-- A node between `l₁` and `l₂`: its neighbours, and the two halves of the circle. -/
theorem split (r : L.Ring h (l₁ ++ a :: l₂)) :
    ∃ xs p n ys, h :: l₁ = xs ++ [p] ∧ l₂ ++ [h] = n :: ys ∧ L.prev a = some p ∧ L.next a = some n ∧
      (xs ++ [p]).IsChain L.Joined ∧ (n :: ys).IsChain L.Joined := by
  obtain ⟨xs, p, hp⟩ : ∃ xs p, h :: l₁ = xs ++ [p] :=
    ⟨(h :: l₁).dropLast, (h :: l₁).getLast (by simp), (List.dropLast_append_getLast (by simp)).symm⟩
  obtain ⟨n, ys, hn⟩ : ∃ n ys, l₂ ++ [h] = n :: ys := by cases l₂ <;> simp
  have hc := r.2
  rw [List.append_assoc, List.cons_append, ← List.cons_append, hp, hn, List.isChain_append] at hc
  have hpa := hc.2.2 p (by simp) a (by simp)
  have han := List.isChain_cons_cons.mp hc.2.1
  exact ⟨xs, p, n, ys, hp, hn, hpa.2, han.1.1, hc.1, han.2⟩

/-- `next` does not leave a circle. -/
theorem next_mem {b : α} (r : L.Ring h l) (ha : a ∈ h :: l) (hb : L.next a = some b) : b ∈ h :: l := by
  rcases List.mem_cons.mp ha with rfl | ha
  · rw [r.next_head, Option.some.injEq] at hb
    subst hb
    cases l with
    | nil => exact List.mem_cons_self ..
    | cons c l => exact List.mem_cons_of_mem _ (List.mem_cons_self ..)
  · obtain ⟨l₁, l₂, rfl⟩ := List.append_of_mem ha
    obtain ⟨xs, p, n, ys, -, hn, -, hnext, -, -⟩ := r.split
    obtain rfl := Option.some.inj (hnext.symm.trans hb)
    have hm : n ∈ l₂ ++ [h] := by
      rw [hn]
      exact List.mem_cons_self ..
    rw [List.mem_append, List.mem_singleton] at hm
    rcases hm with hm | rfl
    · exact List.mem_cons_of_mem _ (List.mem_append_right _ (List.mem_cons_of_mem _ hm))
    · exact List.mem_cons_self ..

variable [DecidableEq α]

theorem selfLink (L : Links α) (h : α) : (L.selfLink h).Ring h [] := by
  refine ⟨List.nodup_singleton h, ?_⟩
  simp [Links.selfLink, setNext, setPrev, Joined]

/-- Taking a node out of a ring. -/
theorem unlink (r : L.Ring h (l₁ ++ a :: l₂)) :
    ∃ L', L.unlink a = some L' ∧ L'.Ring h (l₁ ++ l₂) ∧
      ∀ x, x ∉ h :: (l₁ ++ a :: l₂) → L'.next x = L.next x ∧ L'.prev x = L.prev x := by
  obtain ⟨xs, p, n, ys, hp, hn, hprev, hnext, hc₁, hc₂⟩ := r.split
  have hpm : p ∈ h :: l₁ := by rw [hp]; simp
  have hnm : n ∈ l₂ ++ [h] := by rw [hn]; simp
  have hnd := r.1
  have hxs : (xs ++ [p]).Nodup := by rw [← hp]; exact hnd.sublist (by simp)
  have hys : (n :: ys).Nodup := by rw [← hn]; grind
  have hd₁ : xs ⊆ h :: l₁ := by rw [hp]; simp
  have hd₂ : ys ⊆ l₂ ++ [h] := by rw [hn]; simp
  have ht₁ : (xs ++ [p]).tail = l₁ := by rw [← hp]; rfl
  have ht₂ : (n :: ys).dropLast = l₂ := by rw [← hn]; simp
  refine ⟨(((L.setPrev n (some p)).setNext p (some n)).setNext a none).setPrev a none,
    by simp [Links.unlink, hprev, hnext], ⟨hnd.sublist (by simp), ?_⟩, ?_⟩
  · rw [List.append_assoc, hn, ← List.cons_append, hp, List.isChain_append]
    -- only `next` of `p` and `prev` of `n` are assigned: each half keeps its own pointers
    refine ⟨isChain_congr hc₁ ?_ ?_, isChain_congr hc₂ ?_ ?_, ?_⟩
    · intro x hx
      rw [List.dropLast_concat] at hx
      simp only [setPrev, setNext, Function.update_apply]
      grind
    · intro x hx
      rw [ht₁] at hx
      simp only [setPrev, setNext, Function.update_apply]
      grind
    · intro x hx
      rw [ht₂] at hx
      simp only [setPrev, setNext, Function.update_apply]
      grind
    · intro x hx
      simp only [List.tail_cons] at hx
      simp only [setPrev, setNext, Function.update_apply]
      grind
    · intro x hx y hy
      simp only [List.getLast?_append, List.getLast?_singleton, Option.some_or, Option.mem_def, Option.some.injEq,
        List.head?_cons] at hx hy
      subst hx hy
      simp only [Joined, setPrev, setNext, Function.update_apply]
      grind
  · intro x hx
    simp only [setPrev, setNext, Function.update_apply]
    grind

/-- Putting a new node right after the sentinel. -/
theorem insertFront (r : L.Ring h l) (ha : a ∉ h :: l) :
    ∃ L', L.insertFront a h = some L' ∧ L'.Ring h (a :: l) ∧
      ∀ x, x ∉ h :: a :: l → L'.next x = L.next x ∧ L'.prev x = L.prev x := by
  obtain ⟨n, ys, hn⟩ : ∃ n ys, l ++ [h] = n :: ys := by cases l <;> simp
  have hnm : n ∈ l ++ [h] := by rw [hn]; simp
  have hd : (n :: ys).dropLast = l := by rw [← hn]; simp
  have hc := r.2
  rw [hn, List.isChain_cons_cons] at hc
  have hys : (n :: ys).Nodup := by rw [← hn]; have := r.1; grind
  have hd₂ : ys ⊆ l ++ [h] := by rw [hn]; simp
  refine ⟨(((L.setNext a (some n)).setPrev a (some h)).setPrev n (some a)).setNext h (some a),
    by simp [Links.insertFront, hc.1.1], ⟨?_, ?_⟩, ?_⟩
  · have := r.1
    grind
  · rw [List.cons_append, hn, List.isChain_cons_cons, List.isChain_cons_cons]
    have hnd := r.1
    refine ⟨?_, ?_, isChain_congr hc.2 ?_ ?_⟩
    · simp only [Joined, setPrev, setNext, Function.update_apply]
      grind
    · simp only [Joined, setPrev, setNext, Function.update_apply]
      grind
    · intro x hx
      rw [hd] at hx
      simp only [setPrev, setNext, Function.update_apply]
      grind
    · intro x hx
      simp only [List.tail_cons] at hx
      simp only [setPrev, setNext, Function.update_apply]
      grind
  · intro x hx
    simp only [setPrev, setNext, Function.update_apply]
    grind

/-- Putting a new node right before the sentinel. -/
theorem insertTail (r : L.Ring h l) (ha : a ∉ h :: l) :
    ∃ L', L.insertTail a h = some L' ∧ L'.Ring h (l ++ [a]) ∧
      ∀ x, x ∉ h :: a :: l → L'.next x = L.next x ∧ L'.prev x = L.prev x := by
  obtain ⟨xs, p, hp⟩ : ∃ xs p, h :: l = xs ++ [p] :=
    ⟨(h :: l).dropLast, (h :: l).getLast (by simp), (List.dropLast_append_getLast (by simp)).symm⟩
  have hpm : p ∈ h :: l := by rw [hp]; simp
  have ht : (xs ++ [p]).tail = l := by rw [← hp]; rfl
  have hc := r.2
  rw [← List.cons_append, hp, List.isChain_append] at hc
  have hph := hc.2.2 p (by simp) h (by simp)
  have hnd := r.1
  have hxs : (xs ++ [p]).Nodup := by rw [← hp]; exact hnd
  have hd : xs ⊆ h :: l := by rw [hp]; simp
  refine ⟨(((L.setNext a (some h)).setPrev a (some p)).setNext p (some a)).setPrev h (some a),
    by simp [Links.insertTail, hph.2], ⟨by grind, ?_⟩, ?_⟩
  · rw [List.append_assoc, ← List.cons_append, hp, List.isChain_append]
    refine ⟨isChain_congr hc.1 ?_ ?_, ?_, ?_⟩
    · intro x hx
      rw [List.dropLast_concat] at hx
      simp only [setPrev, setNext, Function.update_apply]
      grind
    · intro x hx
      rw [ht] at hx
      simp only [setPrev, setNext, Function.update_apply]
      grind
    · simp only [List.cons_append, List.nil_append, List.isChain_pair, Joined, setPrev, setNext,
        Function.update_apply]
      grind
    · intro x hx y hy
      simp only [List.getLast?_append, List.getLast?_singleton, Option.some_or, Option.mem_def, Option.some.injEq,
        List.head?_cons, List.cons_append] at hx hy
      subst hx hy
      simp only [Joined, setPrev, setNext, Function.update_apply]
      grind
  · intro x hx
    simp only [setPrev, setNext, Function.update_apply]
    grind

/-- Moving the first node to the end. -/
theorem forward (r : L.Ring h (a :: l)) : ∃ L', L.forward h = some L' ∧ L'.Ring h (l ++ [a]) := by
  have hnd := r.1
  have ha : a ≠ h := by
    rintro rfl
    exact r.notMem (List.mem_cons_self ..)
  have hn : L.next h = some a := r.next_head
  cases l with
  | nil =>
    have hm : L.next a = some h := (List.isChain_cons_cons.mp (List.isChain_cons_cons.mp r.2).2).1.1
    exact ⟨L, by simp [Links.forward, hn, ha, hm], r⟩
  | cons b l =>
    have hm : L.next a = some b := (List.isChain_cons_cons.mp (List.isChain_cons_cons.mp r.2).2).1.1
    have hpa : L.prev a = some h := (List.isChain_cons_cons.mp r.2).1.2
    have hp : L.prev h = some ((a :: b :: l).getLastD h) := r.prev_head
    have hbh : b ≠ h := by
      rintro rfl
      exact r.notMem (by simp)
    -- the same pointers are assigned when the node is taken out and put in again at the end
    have r₀ : L.Ring h ([] ++ a :: b :: l) := r
    obtain ⟨L₁, h₁, r₁, -⟩ := r₀.unlink
    obtain ⟨L₂, h₂, r₂, -⟩ := r₁.insertTail (a := a) (by grind)
    refine ⟨L₂, ?_, r₂⟩
    simp only [Links.unlink, hm, hpa, Option.bind_eq_bind, Option.bind_some, Option.some.injEq] at h₁
    subst h₁
    have hp₁ : ((((L.setPrev b (some h)).setNext h (some b)).setNext a none).setPrev a none).prev h =
        some ((a :: b :: l).getLastD h) := by
      simp only [setPrev, setNext, Function.update_of_ne ha.symm, Function.update_of_ne hbh.symm]
      exact hp
    simp only [Links.insertTail, hp₁, Option.bind_eq_bind, Option.bind_some, Option.some.injEq] at h₂
    subst h₂
    simp only [Links.forward, hn, hm, hp, Option.bind_eq_bind,
      Option.bind_some, if_neg ha, if_neg hbh, Option.some.injEq]
    simp only [setPrev, setNext, Function.update_idem, Links.mk.injEq, true_and]
    exact Function.update_comm ha.symm _ _ _

/-- Walking a piece of the ring: with enough fuel the walk from the first node of `l₂` finds
what `List.find?` finds in `l₂`. -/
theorem find_suffix (p : α → Bool) (l₁ : List α) (r : L.Ring h (l₁ ++ l₂)) (fuel : ℕ) (hf : l₂.length < fuel) :
    L.find h p fuel (l₂.headD h) = some (l₂.find? p) := by
  induction l₂ generalizing l₁ fuel with
  | nil =>
    obtain ⟨fuel, rfl⟩ := Nat.exists_eq_succ_of_ne_zero (Nat.ne_of_gt hf)
    simp [Links.find]
  | cons b l₂ ih =>
    obtain ⟨fuel, rfl⟩ := Nat.exists_eq_succ_of_ne_zero (Nat.ne_of_gt (Nat.zero_lt_of_lt hf))
    have hb : b ≠ h := by
      rintro rfl
      exact r.notMem (by simp)
    obtain ⟨xs, q, n, ys, hq, hn, -, hnext, -, -⟩ := r.split
    have hn' : n = l₂.headD h := by cases l₂ <;> simp_all
    have r' : L.Ring h ((l₁ ++ [b]) ++ l₂) := by simpa using r
    have := ih (l₁ ++ [b]) r' fuel (by simpa using hf)
    rw [← hn'] at this
    by_cases hpb : p b <;> simp [Links.find, hb, hpb, hnext, this]

/-- Walking the whole ring. -/
theorem find (p : α → Bool) (r : L.Ring h l) (fuel : ℕ) (hf : l.length < fuel) :
    (L.next h).bind (L.find h p fuel) = some (l.find? p) := by
  rw [r.next_head]
  exact find_suffix p [] r fuel hf

end Ring

end Links

end OsLab.Lib
