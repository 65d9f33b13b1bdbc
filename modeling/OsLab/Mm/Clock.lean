import OsLab.Lib.Ring
import OsLab.Mm.Tables

/-!
# The clock

The loop of `swap_page_out` that chooses a page, over the pointers of the list. `forward_list_head` lets the head of the
list change places with the node after it, so that the list turns below the head while the loop clears the attributes of
the pages it passes. The loop has no counter: it ends because a page that has been passed is clean when its turn comes
again.
-/

namespace OsLab.Mm

open Lib

/-- The nodes of the list: `user_page_mem_head` and the elements of `pn_list`. -/
inductive PnNode where
  | head
  | node (i : ℕ)
  deriving DecidableEq

/-- What the loop changes. -/
structure Clock where
  links : Links PnNode
  ram : Ram

variable (pn_list : ℕ → PageNode)

/-- The loop of `swap_page_out`, for at most `fuel` tests. -/
def selectLoop : ℕ → Clock → Option Clock
  | 0, _ => none
  | fuel + 1, x => do
    match ← x.links.next .head with
    | .head => none
    | .node i =>
      let r ← (pn_list i).pte_entry
      if get_attribute (x.ram.load r) (PAGE_ACCESSED ||| PAGE_DIRTY) ≠ 0 then do
        -- `forward_list_head(&user_page_mem_head)`
        let links ← x.links.forward .head
        selectLoop fuel ⟨links, x.ram.store r (clear_attribute (x.ram.load r) (PAGE_ACCESSED ||| PAGE_DIRTY))⟩
      else some x

/-- The loop, and `delete_list_node(swapped_page)`: the page that is chosen, and what has changed. -/
def selectPage (fuel : ℕ) (x : Clock) : Option (ℕ × Clock) := do
  let x ← selectLoop pn_list fuel x
  match ← x.links.next .head with
  | .head => none
  | .node i => do
    let links ← x.links.unlink (.node i)
    some (i, { x with links := links })

/-- The page has been accessed or written. -/
def Flagged (ram : Ram) (i : ℕ) : Prop :=
  ∃ r, (pn_list i).pte_entry = some r ∧ get_attribute (ram.load r) (PAGE_ACCESSED ||| PAGE_DIRTY) ≠ 0

/-- The two attributes of the pages `l` have been cleared, and nothing else has changed. -/
def Cleared (l : List ℕ) (ram ram' : Ram) : Prop := ∀ r,
  ((∃ i ∈ l, (pn_list i).pte_entry = some r) →
    ram'.load r = clear_attribute (ram.load r) (PAGE_ACCESSED ||| PAGE_DIRTY)) ∧
  ((∀ i ∈ l, (pn_list i).pte_entry ≠ some r) → ram'.load r = ram.load r)

/-- Every page of the list has an entry, and no two have the same. -/
structure Slots (l : List ℕ) : Prop where
  entry : ∀ i ∈ l, (pn_list i).pte_entry.isSome = true
  distinct : (l.map fun i => (pn_list i).pte_entry).Nodup

variable {pn_list} {x : Clock} {l pre post : List ℕ} {i fuel : ℕ} {ram ram' ram'' : Ram} {r : Ref}

/-! ### One test -/

theorem get_attribute_clear_attribute (e bits : UInt64) : get_attribute (clear_attribute e bits) bits = 0 := by
  refine eq_of_wbit fun i hi => ?_
  simp only [get_attribute, clear_attribute, wbit_and, wbit_not, decide_eq_true hi, Bool.true_and]
  rw [wbit_eq_testBit 0, UInt64.toNat_zero, Nat.zero_testBit]
  cases wbit e i <;> cases wbit bits i <;> rfl

theorem Cleared.nil (ram : Ram) : Cleared pn_list [] ram ram := fun _ =>
  ⟨fun ⟨_, hi, _⟩ => absurd hi List.not_mem_nil, fun _ => rfl⟩

/-- One page, and then others with other entries. -/
theorem Cleared.cons (hr : (pn_list i).pte_entry = some r) (hn : ∀ j ∈ l, (pn_list j).pte_entry ≠ some r)
    (h : Cleared pn_list l (ram.store r (clear_attribute (ram.load r) (PAGE_ACCESSED ||| PAGE_DIRTY))) ram') :
    Cleared pn_list (i :: l) ram ram' := by
  intro r'
  by_cases he : r' = r
  · subst he
    have hload := (h r').2 hn
    rw [Ram.load_store] at hload
    exact ⟨fun _ => hload, fun hall => absurd hr (hall i (List.mem_cons_self ..))⟩
  · obtain ⟨h1, h2⟩ := h r'
    rw [Ram.load_store_of_ne _ _ he] at h1 h2
    refine ⟨fun ⟨j, hj, hjr⟩ => h1 ?_, fun hall => h2 fun j hj => hall j (List.mem_cons_of_mem _ hj)⟩
    rcases List.mem_cons.mp hj with rfl | hj
    · exact absurd (Option.some.inj (hjr.symm.trans hr)) he
    · exact ⟨j, hj, hjr⟩

theorem Slots.cons_iff : Slots pn_list (i :: l) ↔
    (∃ r, (pn_list i).pte_entry = some r ∧ ∀ j ∈ l, (pn_list j).pte_entry ≠ some r) ∧ Slots pn_list l := by
  constructor
  · rintro ⟨he, hd⟩
    rw [List.map_cons, List.nodup_cons] at hd
    obtain ⟨r, hr⟩ := Option.isSome_iff_exists.mp (he i (List.mem_cons_self ..))
    refine ⟨⟨r, hr, fun j hj hjr => hd.1 ?_⟩, fun j hj => he j (List.mem_cons_of_mem _ hj), hd.2⟩
    rw [hr, ← hjr]
    exact List.mem_map_of_mem hj
  · rintro ⟨⟨r, hr, hn⟩, he, hd⟩
    refine ⟨fun j hj => ?_, ?_⟩
    · rcases List.mem_cons.mp hj with rfl | hj
      · rw [hr, Option.isSome_some]
      · exact he j hj
    · rw [List.map_cons, List.nodup_cons, hr]
      refine ⟨fun hm => ?_, hd⟩
      obtain ⟨j, hj, hjr⟩ := List.mem_map.mp hm
      exact hn j hj hjr

theorem Slots.perm (h : Slots pn_list l) {l' : List ℕ} (hp : l.Perm l') : Slots pn_list l' :=
  ⟨fun i hi => h.entry i (hp.mem_iff.mpr hi), (hp.map _).nodup_iff.mp h.distinct⟩

/-- A flagged page at the front goes to the end. -/
theorem selectLoop_flagged (hx : x.links.Ring .head ((i :: l).map .node)) (hr : (pn_list i).pte_entry = some r)
    (hf : get_attribute (x.ram.load r) (PAGE_ACCESSED ||| PAGE_DIRTY) ≠ 0) :
    ∃ links, links.Ring .head ((l ++ [i]).map .node) ∧
      ∀ fuel, selectLoop pn_list (fuel + 1) x =
        selectLoop pn_list fuel ⟨links,
          x.ram.store r (clear_attribute (x.ram.load r) (PAGE_ACCESSED ||| PAGE_DIRTY))⟩ := by
  obtain ⟨links, hforward, hring⟩ := hx.forward
  refine ⟨links, by rw [List.map_append]; exact hring, fun fuel => ?_⟩
  have hnext : x.links.next .head = some (.node i) := hx.next_head
  simp only [selectLoop, hnext, hr, hforward, if_pos hf, Option.bind_eq_bind, Option.bind_some]

/-- A clean page at the front ends the loop. -/
theorem selectLoop_clean (hx : x.links.Ring .head ((i :: l).map .node)) (hr : (pn_list i).pte_entry = some r)
    (hf : get_attribute (x.ram.load r) (PAGE_ACCESSED ||| PAGE_DIRTY) = 0) :
    selectLoop pn_list (fuel + 1) x = some x := by
  have hnext : x.links.next .head = some (.node i) := hx.next_head
  simp only [selectLoop, hnext, hr, if_neg (not_not.mpr hf), Option.bind_eq_bind, Option.bind_some]

/-! ### Many tests -/

/-- Flagged pages at the front go to the end, in their order. -/
theorem selectLoop_pass (hx : x.links.Ring .head ((pre ++ post).map .node)) (hs : Slots pn_list (pre ++ post))
    (hf : ∀ i ∈ pre, Flagged pn_list x.ram i) : ∃ x' : Clock, x'.links.Ring .head ((post ++ pre).map .node) ∧
      Cleared pn_list pre x.ram x'.ram ∧
      ∀ fuel, selectLoop pn_list (fuel + pre.length) x = selectLoop pn_list fuel x' := by
  induction pre generalizing x post with
  | nil => exact ⟨x, by rwa [List.append_nil], Cleared.nil _, fun _ => rfl⟩
  | cons i pre ih =>
    rw [List.cons_append] at hx hs
    obtain ⟨⟨r, hr, hn⟩, -⟩ := Slots.cons_iff.mp hs
    obtain ⟨r', hr', hflag⟩ := hf i (List.mem_cons_self ..)
    obtain rfl := Option.some.inj (hr.symm.trans hr')
    obtain ⟨links, hring, hloop⟩ := selectLoop_flagged hx hr hflag
    have hslots : Slots pn_list (pre ++ (post ++ [i])) := by
      rw [← List.append_assoc]
      exact hs.perm (List.perm_append_singleton i (pre ++ post)).symm
    have hflags : ∀ j ∈ pre,
        Flagged pn_list (x.ram.store r (clear_attribute (x.ram.load r) (PAGE_ACCESSED ||| PAGE_DIRTY))) j := by
      intro j hj
      obtain ⟨rj, hrj, hfj⟩ := hf j (List.mem_cons_of_mem _ hj)
      refine ⟨rj, hrj, ?_⟩
      rw [Ram.load_store_of_ne]
      · exact hfj
      · rintro rfl
        exact hn j (List.mem_append_left _ hj) hrj
    rw [List.append_assoc] at hring
    obtain ⟨x', hring', hclear, hpass⟩ := ih
      (x := ⟨links, x.ram.store r (clear_attribute (x.ram.load r) (PAGE_ACCESSED ||| PAGE_DIRTY))⟩) hring hslots hflags
    refine ⟨x', ?_, hclear.cons hr fun j hj => hn j (List.mem_append_left _ hj), fun fuel => ?_⟩
    · rw [List.append_assoc] at hring'
      exact hring'
    · rw [List.length_cons, ← Nat.add_assoc, hloop, hpass]

/-- What is left of `swap_page_out`'s choice when the loop has ended at `i`. -/
theorem selectPage_of_loop {x' : Clock} (hx : x'.links.Ring .head ((i :: l).map .node)) : ∃ links : Links PnNode,
    links.Ring .head (l.map .node) ∧
      ∀ fuel, selectLoop pn_list fuel x = some x' →
      selectPage pn_list fuel x = some (i, { x' with links := links }) := by
  have hx₀ : x'.links.Ring .head ([] ++ .node i :: l.map .node) := hx
  obtain ⟨links, hunlink, hring, -⟩ := hx₀.unlink
  have hnext : x'.links.next .head = some (.node i) := hx.next_head
  refine ⟨links, hring, fun fuel hloop => ?_⟩
  simp only [selectPage, hloop, hnext, hunlink, Option.bind_eq_bind, Option.bind_some]

/-- A page that is not flagged, with flagged pages only before it. -/
theorem exists_first {P : ℕ → Prop} (h : ¬ ∀ j ∈ l, P j) :
    ∃ pre i post, l = pre ++ i :: post ∧ (∀ j ∈ pre, P j) ∧ ¬ P i := by
  classical
  cases hfind : l.find? fun j => decide (¬ P j) with
  | none => exact absurd (fun j hj => by simpa using List.find?_eq_none.mp hfind j hj) h
  | some i =>
    obtain ⟨hi, pre, post, hl, hpre⟩ := List.find?_eq_some_iff_append.mp hfind
    exact ⟨pre, i, post, hl, fun j hj => by simpa using hpre j hj, by simpa using hi⟩

/-- On a circle that is not empty the loop ends within one turn. It chooses the first page that has been neither
accessed nor written, or the first page when there is none, it clears the attributes of the pages that it passes, and it
leaves the others on the circle in their order. -/
theorem selectPage_spec (hx : x.links.Ring .head (l.map .node)) (hs : Slots pn_list l) (hne : l ≠ []) :
    ∃ i x' pre post, l = pre ++ i :: post ∧ (∀ fuel, l.length < fuel → selectPage pn_list fuel x = some (i, x')) ∧
      x'.links.Ring .head ((post ++ pre).map .node) ∧
      (((∀ j ∈ pre, Flagged pn_list x.ram j) ∧ ¬ Flagged pn_list x.ram i ∧ Cleared pn_list pre x.ram x'.ram) ∨
        (pre = [] ∧ (∀ j ∈ l, Flagged pn_list x.ram j) ∧ Cleared pn_list l x.ram x'.ram)) := by
  by_cases hall : ∀ j ∈ l, Flagged pn_list x.ram j
  · obtain ⟨i, post, rfl⟩ := List.exists_cons_of_ne_nil hne
    obtain ⟨⟨r, hr, -⟩, -⟩ := Slots.cons_iff.mp hs
    rw [← List.append_nil (i :: post)] at hx hs
    obtain ⟨x', hring, hclear, hpass⟩ := selectLoop_pass hx hs hall
    rw [List.nil_append] at hring
    -- the first page is clean now: the loop has cleared it a turn ago
    have hclean : get_attribute (x'.ram.load r) (PAGE_ACCESSED ||| PAGE_DIRTY) = 0 := by
      rw [(hclear r).1 ⟨i, List.mem_cons_self .., hr⟩, get_attribute_clear_attribute]
    have hloop : ∀ fuel, (i :: post).length < fuel → selectLoop pn_list fuel x = some x' := by
      intro fuel hfuel
      obtain ⟨d, rfl⟩ := Nat.exists_eq_add_of_lt hfuel
      rw [show (i :: post).length + d + 1 = d + 1 +
        (i :: post).length by omega, hpass, selectLoop_clean hring hr hclean]
    obtain ⟨links, hring', hsel⟩ := selectPage_of_loop hring
    exact ⟨i, { x' with links := links }, [], post, rfl,
      fun fuel hfuel => hsel fuel (hloop fuel hfuel), by rwa [List.append_nil],
      .inr ⟨rfl, hall, hclear⟩⟩
  · obtain ⟨pre, i, post, rfl, hpre, hi⟩ := exists_first hall
    obtain ⟨x', hring, hclear, hpass⟩ := selectLoop_pass hx hs hpre
    obtain ⟨⟨r, hr, hn⟩, -⟩ := Slots.cons_iff.mp (hs.perm List.perm_middle)
    have hclean : get_attribute (x'.ram.load r) (PAGE_ACCESSED ||| PAGE_DIRTY) = 0 := by
      rw [(hclear r).2 fun j hj => hn j (List.mem_append_left _ hj)]
      by_contra hf
      exact hi ⟨r, hr, hf⟩
    have hloop : ∀ fuel, (pre ++ i :: post).length < fuel → selectLoop pn_list fuel x = some x' := by
      intro fuel hfuel
      obtain ⟨d, rfl⟩ := Nat.exists_eq_add_of_lt hfuel
      rw [List.length_append,
        show pre.length + (i :: post).length + d + 1 = (i :: post).length + d + 1 + pre.length by omega, hpass,
        selectLoop_clean hring hr hclean]
    obtain ⟨links, hring', hsel⟩ := selectPage_of_loop hring
    exact ⟨i, { x' with links := links }, pre, post, rfl,
      fun fuel hfuel => hsel fuel (hloop fuel hfuel), hring', .inl ⟨hpre, hi, hclear⟩⟩

/-- Three pages on the circle. -/
def threePages : Links PnNode where
  next := fun | .head => some (.node 0) | .node 0 => some (.node 1) | .node 1 => some (.node 2) | .node _ => some .head
  prev := fun | .head => some (.node 2) | .node 0 => some .head | .node 1 => some (.node 0) | .node _ => some (.node 1)

/-- The nodes of the three pages. -/
def threeNodes (i : ℕ) : PageNode := ⟨some ⟨0, i⟩, 0, 0, 0⟩

/-- The middle page alone has not been accessed: it is taken out, and the first page, which was passed,
comes behind the last one with its attribute cleared. -/
theorem selectPage_three : ∃ x', (∀ fuel, 3 < fuel →
      selectPage threeNodes fuel ⟨threePages, fun _ j => if j = 1 then 0 else PAGE_ACCESSED⟩ = some (1, x')) ∧
    x'.links.Ring .head ([2, 0].map .node) ∧ [0, 1, 2].map (fun j => x'.ram.load ⟨0, j⟩) = [0, 0, PAGE_ACCESSED] := by
  have hslots : Slots threeNodes [0, 1, 2] := ⟨by simp [threeNodes], by simp [threeNodes]⟩
  obtain ⟨i, x', pre, post, hl, hsel, hring, hbits⟩ := @selectPage_spec threeNodes
    ⟨threePages, fun _ j => if j = 1 then 0 else PAGE_ACCESSED⟩ [0, 1, 2] (by decide) hslots (List.cons_ne_nil 0 [1, 2])
  have hpick : (selectPage threeNodes 4 ⟨threePages, fun _ j => if j = 1 then 0 else PAGE_ACCESSED⟩).map (·.1) =
    some 1 := by decide +kernel
  rw [hsel 4 (by decide), Option.map_some, Option.some.injEq] at hpick
  obtain rfl : i = 1 := hpick
  obtain ⟨rfl, rfl⟩ : pre = [0] ∧ post = [2] := by
    rcases pre with _ | ⟨a, _ | ⟨b, pre⟩⟩
    · simp at hl
    · simpa [eq_comm] using hl
    · have := congrArg List.length hl
      simp at hl this
      grind
  rcases hbits with ⟨-, -, hclear⟩ | ⟨hnil, -⟩
  · refine ⟨x', hsel, hring, ?_⟩
    have h0 := (hclear ⟨0, 0⟩).1 ⟨0, List.mem_singleton.mpr rfl, rfl⟩
    have h1 := (hclear ⟨0, 1⟩).2 (by simp [threeNodes])
    have h2 := (hclear ⟨0, 2⟩).2 (by simp [threeNodes])
    rw [List.map_cons, List.map_cons, List.map_singleton, h0, h1, h2]
    decide +kernel
  · cases hnil

/-! ### The circle and the list -/

/-- On a circle the loop does what it does on the list of the pages. -/
theorem selectLoop_secondChance (hx : x.links.Ring .head (l.map .node)) :
    (selectLoop pn_list fuel x = none ∧ secondChance fuel x.ram (l.map pn_list) = none) ∨
      ∃ i l' x', selectLoop pn_list fuel x = some x' ∧ x'.links.Ring .head ((i :: l').map .node) ∧
        secondChance fuel x.ram (l.map pn_list) = some (x'.ram, pn_list i, l'.map pn_list) := by
  induction fuel generalizing x l with
  | zero => exact .inl ⟨rfl, rfl⟩
  | succ fuel ih =>
    cases l with
    | nil =>
      have hnext : x.links.next .head = some .head := hx.next_head
      exact .inl ⟨by simp only [selectLoop, hnext, Option.bind_eq_bind, Option.bind_some], rfl⟩
    | cons i l =>
      have hnext : x.links.next .head = some (.node i) := hx.next_head
      cases hr : (pn_list i).pte_entry with
      | none =>
        refine .inl ⟨?_, ?_⟩
        · simp only [selectLoop, hnext, hr, Option.bind_eq_bind, Option.bind_some, Option.bind_none]
        · simp only [List.map_cons, secondChance, hr]
      | some r =>
        by_cases hf : get_attribute (x.ram.load r) (PAGE_ACCESSED ||| PAGE_DIRTY) = 0
        · refine .inr ⟨i, l, x, selectLoop_clean hx hr hf, hx, ?_⟩
          simp only [List.map_cons, secondChance, hr, if_neg (not_not.mpr hf)]
        · obtain ⟨links, hring, hloop⟩ := selectLoop_flagged hx hr hf
          have hchance : secondChance (fuel + 1) x.ram ((i :: l).map pn_list) = secondChance fuel
              (x.ram.store r (clear_attribute (x.ram.load r) (PAGE_ACCESSED ||| PAGE_DIRTY)))
              ((l ++ [i]).map pn_list) := by
            simp only [List.map_cons, secondChance, hr, if_pos hf, List.map_append, List.map_nil]
          rw [hloop, hchance]
          exact ih (x := ⟨links, x.ram.store r (clear_attribute (x.ram.load r) (PAGE_ACCESSED ||| PAGE_DIRTY))⟩) hring

end OsLab.Mm
