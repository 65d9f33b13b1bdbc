import OsLab.Mm.Break

/-!
# The limits of the heap

The break of a task starts where `do_getbrk` puts it and is moved by `do_brk` and `do_sbrk`. The upper limit
always holds: both compare the new break with `USER_STACK_END`. The lower one does not: the increment of `do_sbrk` is
signed, it is added as an unsigned word, and only the upper limit is tested. `check_brk` lets the page at the break
pass, which no call has granted.
-/

namespace OsLab.Mm

open Lib ProgM

/-- A call that moves the break. -/
inductive HeapCall where
  | brk (addr : UInt64)
  | sbrk (increment : UInt64)

/-- The call of task `c`: what it returns, where `none` is -1. -/
def HeapCall.run (c : Slot) : HeapCall → MmM (Option UInt64)
  | .brk addr => do
    let ok ← do_brk addr c
    pure (if ok then some 0 else none)
  | .sbrk increment => do_sbrk increment c

/-- A call with the break before and after it and what it returned. -/
structure HeapStep where
  call : HeapCall
  before : UInt64
  result : Option UInt64
  after : UInt64

/-- Task `c` calls `do_getbrk(bss_end)` and then `do_brk` and `do_sbrk` in some order. -/
inductive HeapRun {σ : Type} (h : Handler Op Op.Res σ) (c : Slot) (bss_end : UInt64) :
    List HeapStep → Conf Memory σ → Prop where
  | getbrk {z z' : Conf Memory σ} : exec h (do_getbrk bss_end c) z = some ((), z') → HeapRun h c bss_end [] z'
  | call {steps : List HeapStep} {z z' : Conf Memory σ} {x : HeapCall} {r : Option UInt64} :
    HeapRun h c bss_end steps z →
    exec h (x.run c) z = some (r, z') →
    HeapRun h c bss_end (steps ++ [⟨x, (z.mem.pcb c).brk, r, (z'.mem.pcb c).brk⟩]) z'

/-- The break that `do_getbrk` sets. -/
def firstBreak (bss_end : UInt64) : UInt64 := ROUNDDOWN (bss_end + PAGE_SIZE)

/-- What a call promises: the break stays between `base` and the stack, a failed call leaves it, and `do_sbrk` returns
the old break and adds the increment in whole pages. -/
structure HeapStep.Kept (base : UInt64) (x : HeapStep) : Prop where
  low : base ≤ x.after
  high : x.after < USER_STACK_END
  failed : x.result = none → x.after = x.before
  grown : ∀ n v, x.call = .sbrk n → x.result = some v → v = x.before ∧ x.after = x.before + ROUND n

/-- The limits after some calls, and the test of `check_brk` for the page at `vpn`. -/
def Limited (c : Slot) (bss_end vpn : UInt64) (steps : List HeapStep) (s : Memory) : Prop :=
  firstBreak bss_end < USER_STACK_END ∧ (∀ x ∈ steps, x.Kept (firstBreak bss_end)) ∧
    (check_brk s vpn c = true ↔ (s.pcb c).brk ≤ vpn)

/-- The call does not ask `do_sbrk` for a break below `base`. -/
def HeapStep.NotBelow (base : UInt64) (x : HeapStep) : Prop :=
  ∀ n, x.call = .sbrk n → x.before + ROUND n < USER_STACK_END → base ≤ x.before + ROUND n

variable {σ : Type} {h : Handler Op Op.Res σ} {c : Slot} {bss_end vpn base : UInt64}
    {steps : List HeapStep} {s : Memory} {z : Conf Memory σ}

/-! ### One call -/

theorem ROUNDDOWN_le (a : UInt64) : ROUNDDOWN a ≤ a := by
  rw [UInt64.le_iff_toNat_le, toNat_ROUNDDOWN]
  exact Nat.div_mul_le_self ..

/-- `USER_STACK_END` is the start of a page. -/
theorem lt_USER_STACK_END {a : UInt64} (h : ROUNDDOWN a < USER_STACK_END) : a < USER_STACK_END := by
  rw [UInt64.lt_iff_toNat_lt, toNat_ROUNDDOWN, show USER_STACK_END.toNat = 15728651 * 4096 from rfl] at h
  rw [UInt64.lt_iff_toNat_lt, show USER_STACK_END.toNat = 15728651 * 4096 from rfl]
  omega

/-- What a call does to the break. -/
theorem HeapCall.run_spec (x : HeapCall) : Partial s (x.run c) fun r s' => match x with
    | .brk addr => (r = some 0 ∧ (s.pcb c).brk < ROUNDDOWN addr ∧
        ROUNDDOWN addr < USER_STACK_END ∧ (s'.pcb c).brk = addr) ∨
        (r = none ∧ (s'.pcb c).brk = (s.pcb c).brk)
    | .sbrk n => (r = some (s.pcb c).brk ∧ (s.pcb c).brk + ROUND n < USER_STACK_END ∧
        (s'.pcb c).brk = (s.pcb c).brk + ROUND n) ∨
        (r = none ∧ ¬ (s.pcb c).brk + ROUND n < USER_STACK_END ∧ (s'.pcb c).brk = (s.pcb c).brk) := by
  cases x with
  | brk addr =>
    refine (do_brk_spec addr).bind fun ok s' hs => Partial.pure ?_
    split at hs
    · next hguard =>
      obtain ⟨rfl, rfl⟩ := hs
      exact Or.inl ⟨rfl, hguard.1, hguard.2, by simp⟩
    · obtain ⟨rfl, rfl⟩ := hs
      exact Or.inr ⟨rfl, rfl⟩
  | sbrk n =>
    refine Partial.get_bind (Partial.ite (fun hok => ?_) fun hok => Partial.pure (Or.inr ⟨rfl, hok, rfl⟩))
    exact Partial.modify_bind (Partial.modify_bind (Partial.pure (Or.inl ⟨rfl, hok, by simp⟩)))

/-- A call from a break within the limits keeps them exactly if it does not ask for less than `base`. -/
theorem HeapCall.kept_iff (x : HeapCall) (hlow : base ≤ (s.pcb c).brk) (hhigh : (s.pcb c).brk < USER_STACK_END) :
    Partial s (x.run c) fun r s' => HeapStep.Kept base ⟨x, (s.pcb c).brk, r, (s'.pcb c).brk⟩ ↔
      HeapStep.NotBelow base ⟨x, (s.pcb c).brk, r, (s'.pcb c).brk⟩ := by
  refine x.run_spec.mono fun r s' hs => ?_
  cases x with
  | brk addr =>
    refine iff_of_true ?_ fun n hn => nomatch hn
    rcases hs with ⟨rfl, hlt, hend, hs⟩ | ⟨rfl, hs⟩
    · refine ⟨?_, ?_, fun hn => (nomatch hn), fun n v hn => nomatch hn⟩
      · exact UInt64.le_trans hlow (UInt64.le_trans (UInt64.le_of_lt hlt) (hs.symm ▸ ROUNDDOWN_le addr))
      · exact hs.symm ▸ lt_USER_STACK_END hend
    · exact ⟨hs.symm ▸ hlow, hs.symm ▸ hhigh, fun _ => hs, (fun _ _ hn => nomatch hn)⟩
  | sbrk n =>
    rcases hs with ⟨rfl, hend, hs⟩ | ⟨rfl, hend, hs⟩
    · constructor
      · intro hk m hm _
        obtain rfl := HeapCall.sbrk.inj hm
        exact hs ▸ hk.low
      · intro hn
        refine ⟨?_, ?_, (nomatch ·), fun m v hm hv => ?_⟩
        · exact hs.symm ▸ hn n rfl hend
        · exact hs.symm ▸ hend
        · obtain rfl := HeapCall.sbrk.inj hm
          exact ⟨(Option.some.inj hv).symm, hs⟩
    · refine iff_of_true ⟨hs.symm ▸ hlow, hs.symm ▸ hhigh, fun _ => hs, fun _ _ _ hv => ?_⟩ fun m hm hend' => ?_
      · cases hv
      · obtain rfl := HeapCall.sbrk.inj hm
        exact absurd hend' hend

/-! ### Runs -/

/-- While no call asks for less than the first break, the break is within the limits. -/
theorem HeapRun.kept_iff (hr : HeapRun h c bss_end steps z) (hb : firstBreak bss_end < USER_STACK_END) :
    ((∀ x ∈ steps, x.Kept (firstBreak bss_end)) ↔ ∀ x ∈ steps, x.NotBelow (firstBreak bss_end)) ∧
      ((∀ x ∈ steps, x.Kept (firstBreak bss_end)) →
        firstBreak bss_end ≤ (z.mem.pcb c).brk ∧ (z.mem.pcb c).brk < USER_STACK_END) := by
  induction hr with
  | @getbrk z z' he =>
    obtain ⟨-, rfl⟩ := Prod.mk.inj (Option.some.inj he)
    refine ⟨by simp, fun _ => ?_⟩
    have hbrk : ((z.mem.putPcb c fun p => { p with brk := ROUNDDOWN (bss_end + PAGE_SIZE) }).pcb c).brk =
        firstBreak bss_end := by
      simp [firstBreak]
    exact ⟨hbrk ▸ UInt64.le_refl _, hbrk ▸ hb⟩
  | @call steps z z' x r _ he ih =>
    obtain ⟨ih₁, ih₂⟩ := ih
    rw [List.forall_mem_append, List.forall_mem_append, List.forall_mem_singleton, List.forall_mem_singleton]
    have hstep := fun hk => x.kept_iff (c := c) (ih₂ hk).1 (ih₂ hk).2 σ h z.dev r z' he
    refine ⟨⟨fun hk => ⟨ih₁.mp hk.1, (hstep hk.1).mp hk.2⟩, fun hk => ?_⟩, fun hk => ⟨hk.2.low, hk.2.high⟩⟩
    have hall := ih₁.mpr hk.1
    exact ⟨hall, (hstep hall).mpr hk.2⟩

theorem check_brk_iff (hv : vpn < USER_STACK_END) :
    (check_brk s vpn c = true ↔ (s.pcb c).brk ≤ vpn) ↔ vpn ≠ (s.pcb c).brk := by
  rw [check_brk, Bool.and_eq_true, decide_eq_true_eq, decide_eq_true_eq,
    and_iff_left hv, UInt64.lt_iff_toNat_lt, UInt64.le_iff_toNat_le,
    ne_eq, ← UInt64.toNat_inj]
  omega

/-- The heap keeps its limits exactly if it starts below the stack, no `do_sbrk` asks for a break below the first one,
and the page that `check_brk` is asked about does not start at the break. -/
theorem limited_iff (hr : HeapRun h c bss_end steps z) (hv : vpn < USER_STACK_END) :
    Limited c bss_end vpn steps z.mem ↔ firstBreak bss_end < USER_STACK_END ∧
    (∀ x ∈ steps, x.NotBelow (firstBreak bss_end)) ∧
      vpn ≠ (z.mem.pcb c).brk := by
  refine and_congr_right fun hb => ?_
  rw [(hr.kept_iff hb).1, check_brk_iff hv]

/-! ### One call of `do_sbrk` -/

theorem exec_heapCall_sbrk {n : UInt64} (hok : (s.pcb c).brk + ROUND n < USER_STACK_END) (d : σ) :
    exec h ((HeapCall.sbrk n).run c) ⟨s, d⟩ = some (some (s.pcb c).brk, ⟨grantTo s c (ROUND n), d⟩) := by
  simp only [HeapCall.run, do_sbrk, exec_bind, exec_get, Option.bind_some, if_pos hok]
  rfl

/-- A call of `do_sbrk` that is granted right after `do_getbrk`. -/
theorem heapRun_sbrk {n : UInt64} (hok : firstBreak bss_end + ROUND n < USER_STACK_END) : ∃ z : Conf Memory Unit,
    HeapRun idleCard 0 bss_end
    [⟨.sbrk n, firstBreak bss_end, some (firstBreak bss_end), firstBreak bss_end + ROUND n⟩] z ∧
      (z.mem.pcb 0).brk = firstBreak bss_end + ROUND n := by
  have hbrk : ((oneProcess.putPcb 0 fun p => { p with brk := firstBreak bss_end }).pcb 0).brk = firstBreak bss_end := by
    rw [Memory.putPcb_pcb, Function.update_self]
  have hgrant : ((grantTo (oneProcess.putPcb 0 fun p => { p with brk := firstBreak bss_end }) 0 (ROUND n)).pcb 0).brk =
      firstBreak bss_end + ROUND n := by
    rw [grantTo, Memory.note_pcb, Memory.putPcb_pcb, Function.update_self, hbrk]
  have hget : exec idleCard (do_getbrk bss_end 0) ⟨oneProcess, ()⟩ =
      some ((), ⟨oneProcess.putPcb 0 fun p => { p with brk := firstBreak bss_end }, ()⟩) := rfl
  have hrun := (HeapRun.getbrk hget).call (exec_heapCall_sbrk (n := n) (by rw [hbrk]; exact hok) ())
  rw [hbrk, hgrant] at hrun
  exact ⟨_, hrun, hgrant⟩

/-- 8192 bytes are granted from `0x21000` on, and the page at `0x24000` is refused. -/
theorem limited_grow : ∃ (steps : List HeapStep) (z : Conf Memory Unit),
    HeapRun idleCard 0 0x20000 steps z ∧ steps.length = 1 ∧
    Limited 0 0x20000 0x24000 steps z.mem := by
  have hlimit : firstBreak 0x20000 + ROUND 8192 < USER_STACK_END := by decide +kernel
  obtain ⟨z, hrun, hbrk⟩ := heapRun_sbrk hlimit
  refine ⟨_, z, hrun, rfl, (limited_iff hrun (by decide +kernel)).mpr ⟨by decide +kernel, ?_, ?_⟩⟩
  · rintro x hx n hn -
    obtain rfl := List.mem_singleton.mp hx
    obtain rfl := HeapCall.sbrk.inj hn
    decide +kernel
  · rw [hbrk]
    decide +kernel

/-- `do_sbrk(-8192)` moves the break below the first one, and `check_brk` lets the page at the break pass. -/
theorem limited_fails : ∃ (steps : List HeapStep) (z : Conf Memory Unit), HeapRun idleCard 0 0x20000 steps z ∧
    (z.mem.pcb 0).brk = 0x1f000 ∧ firstBreak 0x20000 = 0x21000 ∧ check_brk z.mem 0x1f000 0 = false ∧
    ∀ vpn, ¬ Limited 0 0x20000 vpn steps z.mem := by
  have hlimit : firstBreak 0x20000 + ROUND (-8192) < USER_STACK_END := by decide +kernel
  obtain ⟨z, hrun, hbrk⟩ := heapRun_sbrk hlimit
  have hvalue : firstBreak 0x20000 + ROUND (-8192) = 0x1f000 := by decide +kernel
  refine ⟨_, z, hrun, hbrk.trans hvalue, by decide +kernel, ?_, fun vpn hl => ?_⟩
  · rw [check_brk, hbrk, hvalue]
    rfl
  · have hlow := (hl.2.1 _ (List.mem_singleton.mpr rfl)).low
    revert hlow
    decide +kernel

end OsLab.Mm
