import OsLab.Mm.Break
import OsLab.Mm.Swap

/-!
# Bringing a range of pages in

`check_uva_mem` goes through the pages of a range and swaps in those that are on the card. Each swap-in may need the
frame of another page, and nothing keeps the clock from a page of the same range that the loop has passed. What is on
the card after a round is what was there, without the page that was swapped in and with the page whose frame was taken
(`swap_page_in_card`). So a node stays on the card exactly if the loop will not come to it any more
(`checkLoop_resident`), and the range is resident at the end if no swap-in costs such a page
(`check_uva_mem_resident_iff`).
-/

namespace OsLab.Mm

open Lib ProgM

variable {σ : Type} {h : Handler Op Op.Res σ} {s : Memory} {p : PageNode}
    {i : Slot} {uva_begin len last vpn : UInt64} {pid : Int32} {fuel : ℕ}

/-! ### What is on the card -/

/-- The page of a node. -/
def PageNode.key (p : PageNode) : Int32 × UInt64 := (p.pid, p.uva)

/-- The page that `alloc_user_page` swaps out when no frame is free. -/
def victim (s : Memory) : Option PageNode :=
  if (find_free_pages s.user_bitmap FREE_USER_PAGE_NUM).isSome then none
  else (secondChance (s.user_page_mem_head.length + 1) s.ram s.user_page_mem_head).map fun x => x.2.1

theorem victim_of_some {n : ℕ} (hn : find_free_pages s.user_bitmap FREE_USER_PAGE_NUM = some n) : victim s = none := by
  rw [victim, hn, if_pos Option.isSome_some]

theorem victim_of_none {ram : Ram} {ps : List PageNode} (hn : find_free_pages s.user_bitmap FREE_USER_PAGE_NUM = none)
    (hs : secondChance (s.user_page_mem_head.length + 1) s.ram s.user_page_mem_head = some (ram, p, ps)) :
    victim s = some p := by
  rw [victim, hn, if_neg (by simp), hs, Option.map_some]

theorem alloc_user_page_card : Partial s alloc_user_page fun _ s' =>
    s'.user_page_sd_head.map PageNode.key = (s.user_page_sd_head ++ (victim s).toList).map PageNode.key := by
  refine Partial.get_bind ?_
  split
  · next hn =>
    refine swap_page_out_spec.bind ?_
    rintro a s' ⟨ram, p, ps, r, hs, -, rfl, rfl⟩
    refine Partial.get_bind (Partial.modify_bind (Partial.pure ?_))
    rw [victim_of_none hn hs]
    simp [PageNode.key]
  · next n hn =>
    refine Partial.modify_bind (Partial.get_bind (Partial.modify_bind (Partial.pure ?_)))
    rw [victim_of_some hn]
    simp

/-- A swap-in takes its page from the card, and puts the page there whose frame it needs. -/
theorem swap_page_in_card : Partial s (swap_page_in p) fun _ s' =>
    s'.user_page_sd_head.map PageNode.key = (s.user_page_sd_head.erase p ++ (victim s).toList).map PageNode.key := by
  refine Partial.assert_bind fun _ => Partial.modify_bind (alloc_user_page_card.bind fun kva s₁ h₁ => ?_)
  have hv : victim { s with user_page_sd_head := s.user_page_sd_head.erase p } = victim s := by
    rw [victim, victim]
  rw [hv] at h₁
  refine Partial.perform_bind fun words => Partial.modify_bind ?_
  split
  · exact Partial.stop
  · refine Partial.modify_bind (Partial.modify ?_)
    exact h₁

/-- What holds of the pages of nodes does not depend on where the nodes are. -/
theorem forall_key {ps qs : List PageNode}
    (hk : ps.map PageNode.key = qs.map PageNode.key) (P : Int32 × UInt64 → Prop) :
    (∀ p ∈ ps, P p.key) ↔ ∀ q ∈ qs, P q.key := by
  rw [← List.forall_mem_map (f := PageNode.key), hk, List.forall_mem_map]

/-! ### The rounds of the loop -/

/-- The page belongs to the process and overlaps the range. -/
def Overlaps (uva_begin len : UInt64) (pid : Int32) (k : Int32 × UInt64) : Prop := k.1 = pid ∧
  ∃ a, uva_begin.toNat ≤ a ∧ a < uva_begin.toNat + len.toNat ∧ k.2.toNat ≤ a ∧ a < k.2.toNat + 4096

/-- No page of the process in the range is on the card. -/
def Resident (uva_begin len : UInt64) (pid : Int32) (s : Memory) : Prop :=
  ∀ q ∈ s.user_page_sd_head, ¬ Overlaps uva_begin len pid q.key

/-- The loop, at `vpn`, comes to the page. -/
def Coming (last vpn : UInt64) (k : Int32 × UInt64) : Prop := k.2.toNat % 4096 = 0 ∧ vpn ≤ k.2 ∧ k.2 ≤ last

/-- The swap-ins of the loop, each with the state before it. -/
def swapIns (h : Handler Op Op.Res σ) (last : UInt64) (i : Slot) : ℕ → UInt64 → Conf Memory σ → List (Memory × PageNode)
  | 0, _, _ => []
  | fuel + 1, vpn, c =>
    if vpn ≤ last then
      match search_list_node c.mem.user_page_sd_head vpn (c.mem.pcb i).pid with
      | none => swapIns h last i fuel (vpn + PAGE_SIZE) c
      | some p => (c.mem, p) :: match exec h (swap_page_in p) c with
        | none => []
        | some (_, c') => swapIns h last i fuel (vpn + PAGE_SIZE) c'
    else []

/-- The swap-in of `p` leaves no page of the range on the card that the loop has passed: `p` has no second
node there, and the page whose frame is needed is not in the range, or the loop will come to it. -/
structure Spares (uva_begin len last : UInt64) (pid : Int32) (s : Memory) (p : PageNode) : Prop where
  sole : ∀ q ∈ s.user_page_sd_head.erase p, Overlaps uva_begin len pid q.key → q.uva ≠ p.uva
  ahead : ∀ q, victim s = some q → Overlaps uva_begin len pid q.key → q.uva ≠ p.uva ∧ Coming last p.uva q.key

theorem exec_checkLoop_of_lt (hlt : ¬ vpn ≤ last) (c : Conf Memory σ) :
    exec h (checkLoop last i (fuel + 1) vpn) c = some ((), c) := by
  rw [checkLoop, if_neg hlt, exec_pure]

theorem exec_checkLoop_of_none (hle : vpn ≤ last) {c : Conf Memory σ}
    (hs : search_list_node c.mem.user_page_sd_head vpn (c.mem.pcb i).pid = none) :
    exec h (checkLoop last i (fuel + 1) vpn) c = exec h (checkLoop last i fuel (vpn + PAGE_SIZE)) c := by
  rw [checkLoop, if_pos hle, exec_bind, exec_get, Option.bind_some]
  dsimp only
  rw [hs]

theorem exec_checkLoop_of_some (hle : vpn ≤ last) {c : Conf Memory σ}
    (hs : search_list_node c.mem.user_page_sd_head vpn (c.mem.pcb i).pid = some p) :
    exec h (checkLoop last i (fuel + 1) vpn) c =
      (exec h (swap_page_in p) c).bind fun r => exec h (checkLoop last i fuel (vpn + PAGE_SIZE)) r.2 := by
  rw [checkLoop, if_pos hle, exec_bind, exec_get, Option.bind_some]
  dsimp only
  rw [hs, exec_bind]

theorem toNat_next (hlast : last.toNat < 2 ^ 64 - 4096) (hle : vpn ≤ last) :
    (vpn + PAGE_SIZE).toNat = vpn.toNat + 4096 := by
  have hle' : vpn.toNat ≤ last.toNat := UInt64.le_iff_toNat_le.mp hle
  have h4096 : PAGE_SIZE.toNat = 4096 := rfl
  rw [UInt64.toNat_add, h4096, Nat.mod_eq_of_lt (by omega)]

/-- In the next round the loop comes to the same pages, but one. -/
theorem coming_next (hlast : last.toNat < 2 ^ 64 - 4096)
    (hle : vpn ≤ last) (hvpn : vpn.toNat % 4096 = 0) (k : Int32 × UInt64) :
    Coming last (vpn + PAGE_SIZE) k ↔ k.2 ≠ vpn ∧ Coming last vpn k := by
  have hn := toNat_next hlast hle
  have hne : k.2 = vpn ↔ k.2.toNat = vpn.toNat := UInt64.toNat_inj.symm
  simp only [Coming, UInt64.le_iff_toNat_le, hn, Ne, hne]
  omega

theorem checkLoop_resident (hlast : last.toNat < 2 ^ 64 - 4096) (hvpn : vpn.toNat % 4096 = 0) {c c' : Conf Memory σ}
    (hpid : (c.mem.pcb i).pid = pid) (he : exec h (checkLoop last i fuel vpn) c = some ((), c')) :
    Resident uva_begin len pid c'.mem ↔
    (∀ q ∈ c.mem.user_page_sd_head, Overlaps uva_begin len pid q.key → Coming last vpn q.key) ∧
      ∀ x ∈ swapIns h last i fuel vpn c, Spares uva_begin len last pid x.1 x.2 := by
  induction fuel generalizing vpn c with
  | zero => cases he
  | succ fuel ih =>
    rw [swapIns]
    by_cases hle : vpn ≤ last
    · rw [if_pos hle, hpid]
      have hn := toNat_next hlast hle
      have hvpn' : (vpn + PAGE_SIZE).toNat % 4096 = 0 := by omega
      cases hsearch : search_list_node c.mem.user_page_sd_head vpn pid with
      | none =>
        rw [exec_checkLoop_of_none hle (by rw [hpid, hsearch])] at he
        rw [ih hvpn' hpid he]
        refine and_congr_left fun _ => forall₂_congr fun q hq => imp_congr_right fun ho => ?_
        rw [coming_next hlast hle hvpn, and_iff_right]
        intro heq
        have := List.find?_eq_none.mp hsearch q hq
        exact this (by simpa using ⟨heq, ho.1⟩)
      | some p =>
        rw [exec_checkLoop_of_some hle (by rw [hpid, hsearch]), Option.bind_eq_some_iff] at he
        obtain ⟨⟨_, c₁⟩, hin, he⟩ := he
        have hpcb : c₁.mem.pcb = c.mem.pcb := (swap_page_in_quiet p c.mem σ h c.dev _ _ hin).pcb
        have hcard := swap_page_in_card σ h c.dev _ _ hin
        rw [ih hvpn' (by rw [hpcb, hpid]) he]
        dsimp only
        rw [hin]
        dsimp only
        rw [List.forall_mem_cons, ← and_assoc]
        refine and_congr_left fun _ => ?_
        rw [forall_key hcard fun k => Overlaps uva_begin len pid k → Coming last (vpn + PAGE_SIZE) k]
        have hmem := List.mem_of_find?_eq_some hsearch
        obtain ⟨rfl, hppid⟩ : p.uva = vpn ∧ p.pid = pid := by simpa using List.find?_some hsearch
        constructor
        · intro hA
          have hstay {q : PageNode} (hq : q ∈ c.mem.user_page_sd_head.erase p) (ho : Overlaps uva_begin len pid q.key) :
              q.uva ≠ p.uva ∧ Coming last p.uva q.key :=
            (coming_next hlast hle hvpn q.key).mp (hA q (List.mem_append_left _ hq) ho)
          refine ⟨fun q hq ho => ?_, fun q hq ho => (hstay hq ho).1, fun q hq ho => ?_⟩
          · by_cases hqp : q = p
            · rw [hqp]
              exact ⟨hvpn, UInt64.le_refl _, hle⟩
            · exact (hstay ((List.mem_erase_of_ne hqp).mpr hq) ho).2
          · exact (coming_next hlast hle hvpn q.key).mp (hA q (List.mem_append_right _ (by simp [hq])) ho)
        · rintro ⟨hA, hS⟩ q hq ho
          rw [coming_next hlast hle hvpn]
          rcases List.mem_append.mp hq with hq | hq
          · exact ⟨hS.sole q hq ho, hA q (List.mem_of_mem_erase hq) ho⟩
          · exact hS.ahead q (by simpa using hq) ho
    · rw [exec_checkLoop_of_lt hle] at he
      obtain ⟨-, rfl⟩ := Prod.mk.inj (Option.some.inj he)
      rw [if_neg hle]
      simp only [List.not_mem_nil, false_implies, implies_true, and_true]
      refine forall₂_congr fun q _ => ⟨fun hn ho => absurd ho hn, fun hc ho => hle ?_⟩
      exact UInt64.le_trans (hc ho).2.1 (hc ho).2.2

/-- With a last address in the last page of all, the loop does not end. -/
theorem checkLoop_diverges (hlast : 2 ^ 64 - 4096 ≤ last.toNat) (hvpn : vpn.toNat % 4096 = 0) (c : Conf Memory σ) :
    exec h (checkLoop last i fuel vpn) c = none := by
  induction fuel generalizing vpn c with
  | zero => rfl
  | succ fuel ih =>
    have hle : vpn ≤ last := by
      rw [UInt64.le_iff_toNat_le]
      have := vpn.toNat_lt
      omega
    have hvpn' : (vpn + PAGE_SIZE).toNat % 4096 = 0 := by
      have h4096 : PAGE_SIZE.toNat = 4096 := rfl
      rw [UInt64.toNat_add, h4096]
      omega
    cases hsearch : search_list_node c.mem.user_page_sd_head vpn (c.mem.pcb i).pid with
    | none =>
      rw [exec_checkLoop_of_none hle hsearch]
      exact ih hvpn' c
    | some p =>
      rw [exec_checkLoop_of_some hle hsearch]
      cases exec h (swap_page_in p) c with
      | none => rfl
      | some r => exact ih hvpn' r.2

/-- When `check_uva_mem` comes back, the range is resident if and only if the pages of the range that were
on the card are ones the loop comes to, and no swap-in has left a page there that the loop had passed. -/
theorem check_uva_mem_resident_iff (h : Handler Op Op.Res σ) (uva_begin len : UInt64) (i : Slot) (c c' : Conf Memory σ)
    (he : exec h (check_uva_mem uva_begin len i) c = some ((), c')) : Resident uva_begin len (c.mem.pcb i).pid c'.mem ↔
      (∀ q ∈ c.mem.user_page_sd_head,
        Overlaps uva_begin len (c.mem.pcb i).pid q.key →
        Coming (uva_begin + len) (ROUNDDOWN uva_begin) q.key) ∧
        ∀ x ∈ swapIns h (uva_begin + len) i (len.toNat / 4096 + 3) (ROUNDDOWN uva_begin) c,
          Spares uva_begin len (uva_begin + len) (c.mem.pcb i).pid x.1 x.2 := by
  have hvpn : (ROUNDDOWN uva_begin).toNat % 4096 = 0 := by
    rw [toNat_ROUNDDOWN]
    omega
  by_cases hlast : (uva_begin + len).toNat < 2 ^ 64 - 4096
  · exact checkLoop_resident hlast hvpn rfl he
  · rw [check_uva_mem, checkLoop_diverges (Nat.le_of_not_lt hlast) hvpn] at he
    cases he

/-! ### A frame that is not taken -/

/-- The frame `f` is in use, and it holds no entry of a user page. -/
structure Settled (f : UInt64) (s : Memory) : Prop where
  taken : ∀ n < FREE_USER_PAGE_NUM, userFrame n = f → bit s.user_bitmap n = true
  entry : ∀ q ∈ s.user_page_mem_head ++ s.user_page_sd_head, ∀ r, q.pte_entry = some r → r.page ≠ f

variable {f : UInt64}

theorem secondChance_page (n : ℕ) {ram ram' : Ram} {qs ps : List PageNode}
    (hs : secondChance n ram qs = some (ram', p, ps))
    (he : ∀ q ∈ qs, ∀ r, q.pte_entry = some r → r.page ≠ f) : ram' f = ram f := by
  induction n generalizing ram qs with
  | zero => cases hs
  | succ n ih =>
    cases qs with
    | nil => cases hs
    | cons q qs =>
      rw [secondChance] at hs
      split at hs
      · cases hs
      · next r hr =>
        split at hs
        · have hrest : ∀ x ∈ qs ++ [q], ∀ r, x.pte_entry = some r → r.page ≠ f := by
            intro x hx
            rw [(List.perm_append_singleton q qs).mem_iff] at hx
            exact he x hx
          rw [ih hs hrest, Ram.store_page _ _ _ (he q (List.mem_cons_self ..) r hr).symm]
        · obtain ⟨rfl, -, -⟩ : ram = ram' ∧ q = p ∧ qs = ps := by simpa using hs
          rfl

/-- A frame is found that is not `f`, and nothing is written to `f`. -/
theorem alloc_user_page_frame (hs : Settled f s) (hv : ∀ q, victim s = some q → q.addr ≠ f) :
    Partial s alloc_user_page fun kva s' => kva ≠ f ∧ s'.ram f = s.ram f ∧ Settled f s' := by
  refine Partial.get_bind ?_
  split
  · next hn =>
    refine swap_page_out_spec.bind ?_
    rintro a s' ⟨ram, p, ps, r, hsc, hr, rfl, rfl⟩
    refine (handOut_spec p.addr).mono ?_
    rintro _ s' ⟨rfl, rfl⟩
    have hperm := secondChance_perm _ hsc
    have hmem : ∀ q ∈ s.user_page_mem_head, ∀ r, q.pte_entry = some r → r.page ≠ f :=
      fun q hq => hs.entry q (List.mem_append_left _ hq)
    have hpage : r.page ≠ f := hmem p (hperm.mem_iff.mpr (List.mem_cons_self ..)) r hr
    refine ⟨hv p (victim_of_none hn hsc), ?_, hs.taken, fun q hq r' hr' => ?_⟩
    · show ram.store r _ f = _
      rw [Ram.store_page _ _ _ hpage.symm, secondChance_page _ hsc hmem]
    · have hcases : q ∈ ps ∨ q ∈ s.user_page_sd_head ∨ q = { p with addr := s.sd_sector_end } := by simpa using hq
      rcases hcases with hq | hq | rfl
      · exact hmem q (hperm.mem_iff.mpr (List.mem_cons_of_mem _ hq)) r' hr'
      · exact hs.entry q (List.mem_append_right _ hq) r' hr'
      · exact hmem p (hperm.mem_iff.mpr (List.mem_cons_self ..)) r' hr'
  · next n hn =>
    obtain ⟨hlt, hb⟩ := find_free_pages_eq_some hn
    refine Partial.modify_bind ((handOut_spec _).mono ?_)
    rintro _ s' ⟨rfl, rfl⟩
    refine ⟨fun he => ?_, rfl, fun m hm he => ?_, hs.entry⟩
    · exact Bool.false_ne_true (hb.symm.trans (hs.taken n hlt he))
    · show bit (mark_page_allocated n s.user_bitmap) m = true
      rw [mark_page_allocated, bit_setBit, hs.taken m hm he, Bool.or_true]

theorem swap_page_in_frame (hs : Settled f s) (hp : p ∈ s.user_page_sd_head)
    (hv : ∀ q, victim s = some q → q.addr ≠ f) :
    Partial s (swap_page_in p) fun _ s' => s'.ram f = s.ram f ∧ Settled f s' := by
  refine Partial.assert_bind fun _ => Partial.modify_bind ?_
  have herase : Settled f { s with user_page_sd_head := s.user_page_sd_head.erase p } :=
    ⟨hs.taken, fun q hq => hs.entry q ((List.mem_append.mp hq).elim (List.mem_append_left _) fun h =>
      List.mem_append_right _ (List.mem_of_mem_erase h))⟩
  have hvictim : victim { s with user_page_sd_head := s.user_page_sd_head.erase p } = victim s := by rw [victim, victim]
  refine (alloc_user_page_frame herase (by rwa [hvictim])).bind fun kva s₁ ⟨hkva, hram, h₁⟩ => ?_
  refine Partial.perform_bind fun words => Partial.modify_bind ?_
  split
  · exact Partial.stop
  · next r hr =>
    have hpage : r.page ≠ f := hs.entry p (List.mem_append_right _ hp) r hr
    refine Partial.modify_bind (Partial.modify ⟨?_, h₁.taken, fun q hq r' hr' => ?_⟩)
    · show Ram.store _ r _ f = _
      rw [Ram.store_page _ _ _ hpage.symm]
      show Ram.fill _ kva _ _ f = _
      rw [Ram.fill_page _ _ _ hkva.symm, hram]
    · have hcases : q ∈ s₁.user_page_mem_head ∨ q = { p with addr := kva } ∨
        q ∈ s₁.user_page_sd_head := by simpa using hq
      rcases hcases with hq | rfl | hq
      · exact h₁.entry q (List.mem_append_left _ hq) r' hr'
      · exact hs.entry p (List.mem_append_right _ hp) r' hr'
      · exact h₁.entry q (List.mem_append_right _ hq) r' hr'

theorem checkLoop_frame {c c' : Conf Memory σ} (hs : Settled f c.mem)
    (hv : ∀ x ∈ swapIns h last i fuel vpn c, ∀ q, victim x.1 = some q → q.addr ≠ f)
    (he : exec h (checkLoop last i fuel vpn) c = some ((), c')) : c'.mem.ram f = c.mem.ram f ∧ Settled f c'.mem := by
  induction fuel generalizing vpn c with
  | zero => cases he
  | succ fuel ih =>
    rw [swapIns] at hv
    by_cases hle : vpn ≤ last
    · rw [if_pos hle] at hv
      cases hsearch : search_list_node c.mem.user_page_sd_head vpn (c.mem.pcb i).pid with
      | none =>
        rw [exec_checkLoop_of_none hle hsearch] at he
        rw [hsearch] at hv
        exact ih hs hv he
      | some p =>
        rw [exec_checkLoop_of_some hle hsearch, Option.bind_eq_some_iff] at he
        obtain ⟨⟨_, c₁⟩, hin, he⟩ := he
        rw [hsearch] at hv
        dsimp only at hv
        rw [hin, List.forall_mem_cons] at hv
        obtain ⟨hram, hs₁⟩ := swap_page_in_frame hs (List.mem_of_find?_eq_some hsearch) hv.1 σ h c.dev _ _ hin
        obtain ⟨hram', hs'⟩ := ih hs₁ hv.2 he
        exact ⟨hram'.trans hram, hs'⟩
    · rw [exec_checkLoop_of_lt hle] at he
      obtain ⟨-, rfl⟩ := Prod.mk.inj (Option.some.inj he)
      exact ⟨rfl, hs⟩

/-- `check_uva_mem` leaves a frame alone that no swap-in takes. -/
theorem check_uva_mem_frame {c c' : Conf Memory σ} (hs : Settled f c.mem)
    (hv : ∀ x ∈ swapIns h (uva_begin + len) i (len.toNat / 4096 + 3) (ROUNDDOWN uva_begin) c,
      ∀ q, victim x.1 = some q → q.addr ≠ f)
    (he : exec h (check_uva_mem uva_begin len i) c = some ((), c')) : c'.mem.ram f = c.mem.ram f ∧ Settled f c'.mem :=
  checkLoop_frame hs hv he

/-! ### Two pages and no free frame -/

/-- The first page, in memory. -/
def firstPage : PageNode := ⟨some ⟨kernelFrame 7, 16⟩, 1, userFrame 0, 0x10000⟩

/-- The second page, on the card. -/
def secondPage : PageNode := ⟨some ⟨kernelFrame 7, 17⟩, 1, 192, 0x11000⟩

/-- The pages of another process, in all other frames. -/
def crowd : List PageNode := (List.range (FREE_USER_PAGE_NUM - 1)).map fun n =>
  ⟨some ⟨kernelFrame (8 + n / 512), n % 512⟩, 2, userFrame (n + 1), 0x10000 + PAGE_SIZE * UInt64.ofNat n⟩

/-- All user frames are in use, and the clock stands at the first page, which has not been accessed. -/
def crowded : Memory := { oneProcess with
  user_bitmap _ := 0xff
  user_page_mem_head := firstPage :: crowd
  user_page_sd_head := [secondPage] }

theorem crowded_full : find_free_pages crowded.user_bitmap FREE_USER_PAGE_NUM = none := by
  have hlimit : FREE_USER_PAGE_NUM ≤ 8 * NPAGES2BITMAPCH FREE_USER_PAGE_NUM := by decide
  rw [find_free_pages, scan_eq hlimit, firstClear_eq_none]
  intro n _
  have hall : ∀ k < 8, (0xff : UInt8).toBitVec.getLsbD k = true := by decide
  exact hall _ (Nat.mod_lt _ (by decide))

theorem secondChance_crowded (n : ℕ) :
    secondChance (n + 1) crowded.ram (firstPage :: crowd) = some (crowded.ram, firstPage, crowd) := by
  rw [secondChance]
  rfl

/-- When no user frame is free, a page is brought in at the cost of the one that the clock chooses. -/
theorem exec_swap_page_in_full {s : Memory} {ram : Ram} {p q : PageNode} {ps : List PageNode} {r r' : Ref}
    (hfull : find_free_pages s.user_bitmap FREE_USER_PAGE_NUM = none)
    (hs : secondChance (s.user_page_mem_head.length + 1) s.ram s.user_page_mem_head = some (ram, p, ps))
    (hp : p.pte_entry = some r) (hu : p.uva ≠ 0) (hp' : q.pte_entry = some r') (hu' : q.uva ≠ 0) :
    ∃ c, exec idleCard (swap_page_in q) ⟨s, ()⟩ = some ((), c) := by
  simp only [swap_page_in, assert, if_pos hu', hp', alloc_user_page,
    swap_page_out, handOut, record, setRam, exec_bind, exec_get, exec_pure,
    exec_modify, exec_perform, Option.bind_some, hfull, hs, hp, if_pos hu,
    idleCard, Option.map_some, Option.some.injEq, Prod.mk.injEq,
    true_and, exists_eq']

theorem crowded_swap_page_in : ∃ c, exec idleCard (swap_page_in secondPage) ⟨crowded, ()⟩ = some ((), c) :=
  exec_swap_page_in_full crowded_full (secondChance_crowded _) rfl (by decide) rfl (by decide)

theorem crowded_check : ∃ c, exec idleCard (check_uva_mem 0x10000 0x1800 0) ⟨crowded, ()⟩ = some ((), c) ∧
    c.mem.user_page_sd_head.map PageNode.key = [firstPage.key] := by
  obtain ⟨c, hin⟩ := crowded_swap_page_in
  refine ⟨c, ?_, ?_⟩
  · have hsecond : search_list_node crowded.user_page_sd_head (0x10000 + PAGE_SIZE)
      (crowded.pcb 0).pid = some secondPage := by decide
    show exec idleCard (checkLoop 0x11800 0 (3 + 1) 0x10000) ⟨crowded, ()⟩ = _
    rw [exec_checkLoop_of_none (by decide) (by decide),
      exec_checkLoop_of_some (by decide) hsecond, hin, Option.bind_some,
      exec_checkLoop_of_lt (by decide)]
  · have hvictim : victim crowded = some firstPage := victim_of_none crowded_full (secondChance_crowded _)
    rw [swap_page_in_card _ _ _ _ _ hin, hvictim]
    decide

theorem crowded_not_resident {s : Memory} (hk : s.user_page_sd_head.map PageNode.key = [firstPage.key]) :
    ¬ Resident 0x10000 0x1800 1 s := by
  intro hr
  have hk' : s.user_page_sd_head.map PageNode.key = [firstPage].map PageNode.key := hk
  refine (forall_key hk' fun k => ¬ Overlaps 0x10000 0x1800 1 k).mp hr firstPage (List.mem_singleton.mpr rfl)
    ⟨rfl, 0x10000, ?_⟩
  decide

/-- Two pages of a process, and 36864 user frames, all in use: the second page is brought in at the cost of
the first. -/
theorem check_uva_mem_evicts : ∃ c c' : Conf Memory Unit, c.mem.user_page_mem_head.length = FREE_USER_PAGE_NUM ∧
    exec idleCard (check_uva_mem 0x10000 0x1800 0) c = some ((), c') ∧
    ¬ Resident 0x10000 0x1800 (c.mem.pcb 0).pid c'.mem := by
  obtain ⟨c', he, hk⟩ := crowded_check
  refine ⟨⟨crowded, ()⟩, c', ?_, he, crowded_not_resident hk⟩
  show (firstPage :: crowd).length = FREE_USER_PAGE_NUM
  rw [List.length_cons, crowd, List.length_map, List.length_range]
  rfl

/-- The two pages, when only the frame of the first is in use. -/
def roomy : Memory := { oneProcess with
  user_bitmap := Function.update (fun _ => 0) 0 1
  user_page_mem_head := [firstPage]
  user_page_sd_head := [secondPage] }

theorem roomy_check : (exec idleCard (check_uva_mem 0x10000 0x1800 0) ⟨roomy, ()⟩).map
    (fun r => r.2.mem.user_page_mem_head.map PageNode.key) =
    some [(1, 0x10000), (1, 0x11000)] := by
  decide +kernel

/-- Nobody is swapped out for the second page. -/
theorem roomy_spares : ∀ x ∈ swapIns idleCard 0x11800 0 4 0x10000 ⟨roomy, ()⟩,
    Spares 0x10000 0x1800 0x11800 1 x.1 x.2 := by
  have hall : (swapIns idleCard 0x11800 0 4 0x10000 ⟨roomy, ()⟩).all (fun x =>
      decide (x.1.user_page_sd_head.erase x.2 = [] ∧ victim x.1 = none)) = true := by decide +kernel
  intro x hx
  obtain ⟨hnil, hnone⟩ := of_decide_eq_true (List.all_eq_true.mp hall x hx)
  refine ⟨fun q hq => ?_, fun q hq => ?_⟩
  · rw [hnil] at hq
    exact absurd hq List.not_mem_nil
  · rw [hnone] at hq
    cases hq

/-- When all frames are in use the swap-in of the second page takes the frame of a page that the loop has
passed. When a frame is free both pages are in memory at the end. -/
theorem check_uva_mem_twoPages :
    (∃ x ∈ swapIns idleCard 0x11800 0 4 0x10000 ⟨crowded, ()⟩, ¬ Spares 0x10000 0x1800 0x11800 1 x.1 x.2) ∧
    ∃ c' : Conf Memory Unit, exec idleCard (check_uva_mem 0x10000 0x1800 0) ⟨roomy, ()⟩ = some ((), c') ∧
      c'.mem.user_page_mem_head.map PageNode.key = [(1, 0x10000), (1, 0x11000)] ∧ Resident 0x10000 0x1800 1 c'.mem := by
  have hcoming : Coming 0x11800 0x10000 secondPage.key := ⟨by decide, by decide, by decide⟩
  constructor
  · obtain ⟨c', he, hk⟩ := crowded_check
    by_contra hall
    push Not at hall
    refine crowded_not_resident hk
      ((check_uva_mem_resident_iff idleCard 0x10000 0x1800 0 ⟨crowded, ()⟩ c' he).mpr ⟨?_, hall⟩)
    intro q hq _
    obtain rfl := List.mem_singleton.mp hq
    exact hcoming
  · obtain ⟨⟨⟨⟩, c'⟩, he, hk⟩ := Option.map_eq_some_iff.mp roomy_check
    refine ⟨c', he, hk,
      (check_uva_mem_resident_iff idleCard 0x10000 0x1800 0 ⟨roomy, ()⟩ c' he).mpr ⟨fun q hq _ => ?_,
        roomy_spares⟩⟩
    obtain rfl := List.mem_singleton.mp hq
    exact hcoming

end OsLab.Mm
