import OsLab.Mm.Entries
import OsLab.Sched.Overflow
import OsLab.Sched.Runs

/-!
# The arguments of a new process

`do_exec` and `setup_process_stack` on the bytes of memory. The stack of a new process is one page. From its
top down it gets the word `argc`, the array of the pointers and the strings. They are written through the
kernel's address of the page, and the pointers are addresses of the process. The model of the pages stops where the
arguments do not fit the page; here the function goes on as the machine does: a length is cut to an `int`,
addresses wrap around, and every write is noted with its first address and its length.

`check_uva_mem` brings pages of the caller back from the card. That has its own model, and here it is a change of
memory in between. It leaves the new stack alone (`Spares`) unless a swap-in takes its frame (`Mm.check_uva_mem_frame`).

No test keeps the arguments inside the page. They are passed on as they should be exactly when they fit
(`do_exec_passes_iff`).
-/

namespace OsLab.Args

open Lib Sched
open Mbox (Memory)
open Mm (PAGE_SIZE USER_STACK_ADDR IsFrame)

/-! ### Writes to user memory -/

/-- Memory, and the writes to user memory so far. -/
structure Written where
  mem : Memory
  /-- The first address and the number of bytes of each write. -/
  writes : List (ℕ × ℕ)

/-- A word is assigned. -/
def Written.word (w : Written) (a v : UInt64) : Written :=
  { mem := put64 w.mem a.toNat v, writes := (a.toNat, 8) :: w.writes }

/-- `strcpy((char *) a, s)`. -/
def Written.strcpy (w : Written) (a : UInt64) (s : List UInt8) : Written :=
  { mem := Lib.strcpy w.mem a.toNat s, writes := (a.toNat, s.length + 1) :: w.writes }

/-- Memory changes, but not by one of these writes. -/
def Written.change (w : Written) (f : Memory → Memory) : Written := { w with mem := f w.mem }

/-! ### The functions -/

/-- `regs_context_t`: the fields that are assigned. -/
structure RegsContext where
  regs : ℕ → UInt64
  sstatus : UInt64
  sepc : UInt64

/-- The child as `setup_process_stack` leaves it. -/
structure Child where
  user : Written
  /-- `pcb->user_sp`. -/
  user_sp : UInt64
  /-- `pcb->kernel_sp`. -/
  kernel_sp : UInt64
  pt_regs : RegsContext
  /-- `pt_switchto->regs`. -/
  pt_switchto : ℕ → UInt64

/-- What `do_exec` gets from the functions it calls, and the addresses of the linker. -/
structure Env where
  /-- The frame that `alloc_page_helper` returns for the stack. -/
  kva : UInt64
  /-- What `check_uva_mem` changes: before the array is made, and before each string is copied. -/
  check_uva_mem : ℕ → Memory → Memory
  /-- `pcb->kernel_sp`, from `setup_process_pcb`. -/
  kernel_sp : UInt64
  /-- `&pcb[i]`. -/
  pcb : Slot → UInt64
  /-- `tasks[i].entrypoint`. -/
  entrypoint : ℕ → UInt64
  /-- The address of `ret_from_exception`. -/
  ret_from_exception : UInt64

variable (e : Env) (argc : Int32) (argv : ℕ → Mbox.CString)

/-- `user_sp_kva_uva_offset`. -/
def offset : UInt64 := e.kva + PAGE_SIZE - USER_STACK_ADDR

/-- The address of the word `argc`. -/
def argcAt : UInt64 := e.kva + PAGE_SIZE - 8

/-- `my_argv`. -/
def my_argv : UInt64 := argcAt e - 8 * argc.toInt64.toUInt64

/-- `str_len` for a string of length `n`. -/
def str_len (n : ℕ) : Int32 := Int32.ofNat (n + 1)

/-- `user_sp_kva` after round `i` of the loop. -/
def push (i : ℕ) (user_sp_kva : UInt64) : UInt64 := user_sp_kva - (str_len (argv i).1.length).toInt64.toUInt64

/-- Round `i` of the loop, which takes `user_sp_kva` to `push argv i user_sp_kva`. -/
def copyArg (i : ℕ) (user_sp_kva : UInt64) (w : Written) : Written :=
  ((w.change (e.check_uva_mem (i + 1))).word (my_argv e argc + 8 * UInt64.ofNat i)
    (push argv i user_sp_kva - offset e)).strcpy
    (push argv i user_sp_kva) (argv i)

/-- The loop over `argv`, for `n` rounds from round `i` on. -/
def copyArgs : ℕ → ℕ → UInt64 → Written → UInt64 × Written
  | 0, _, user_sp_kva, w => (user_sp_kva, w)
  | n + 1, i, user_sp_kva, w => copyArgs n (i + 1) (push argv i user_sp_kva) (copyArg e argc argv i user_sp_kva w)

/-- `ROUNDDOWN(a, 16)`. -/
def ROUNDDOWN16 (a : UInt64) : UInt64 := a &&& ~~~(16 - 1)

/-- User memory before the loop. -/
def beforeArgs (m : Memory) : Written :=
  ((⟨m, []⟩ : Written).word (argcAt e) argc.toInt64.toUInt64).change (e.check_uva_mem 0)

/-- `user_sp_kva` after the loop, and user memory. -/
def afterArgs (m : Memory) : UInt64 × Written :=
  copyArgs e argc argv argc.toInt.toNat 0 (my_argv e argc) (beforeArgs e argc m)

/-- `setup_process_stack(pcb, argc, argv)`. The kernel's stack is not user memory. -/
def setup_process_stack (pcb entry_point : UInt64) (m : Memory) : Child :=
  let argv_base := my_argv e argc - offset e
  let user_sp := ROUNDDOWN16 ((afterArgs e argc argv m).1 - offset e)
  -- `sizeof(regs_context_t)` and `sizeof(switchto_context_t)`
  let kernel_sp := e.kernel_sp - 288 - 112
  { user := (afterArgs e argc argv m).2
    user_sp := user_sp
    kernel_sp := kernel_sp
    pt_regs :=
      { regs := fun i =>
          if i = 1 then entry_point
          else if i = 2 then user_sp
          else if i = 4 then pcb
          else if i = 10 then argc.toInt64.toUInt64
          else if i = 11 then argv_base
          else 0
        -- `SR_SPIE | SR_SUM`
        sstatus := 0x20 ||| 0x40000
        sepc := entry_point }
    pt_switchto := fun i => if i = 0 then e.ret_from_exception else if i = 1 then kernel_sp else 0 }

/-- `do_exec(name, argc, argv)`, in the kernel `s`: the child, or `none` where it returns -1. The stack of the
child is set up in the memory `m`. -/
def do_exec (s : Kernel) (name : Name) (m : Memory) : Option Child :=
  match s.tasks.findIdx? (· = name) with
  | none => none
  | some taskid =>
    match get_free_pcb s.pcb with
    | none => none
    | some pcb_id => some (setup_process_stack e argc argv (e.pcb pcb_id) (e.entrypoint taskid) m)

/-! ### What is asked -/

/-- The page of the stack, as the child sees it. -/
def STACK_PAGE : UInt64 := USER_STACK_ADDR - PAGE_SIZE

/-- `n` bytes from the user address `a` on are inside the page of the stack. -/
def InStack (a : UInt64) (n : ℕ) : Prop := STACK_PAGE.toNat ≤ a.toNat ∧ a.toNat + n ≤ USER_STACK_ADDR.toNat

/-- The kernel's address of a user address inside the page of the stack. -/
def kernelAddr (a : UInt64) : ℕ := e.kva.toNat + (a.toNat - STACK_PAGE.toNat)

/-- A write stays inside the frame of the stack. -/
def Inside (q : ℕ × ℕ) : Prop := e.kva.toNat ≤ q.1 ∧ q.1 + q.2 ≤ e.kva.toNat + 4096

/-- Register `a1` of the child. -/
def Child.a1 (c : Child) : UInt64 := c.pt_regs.regs 11

/-- The `i`-th pointer of the array at `a1`. -/
def pointer (c : Child) (i : ℕ) : UInt64 := get64 c.user.mem (kernelAddr e c.a1 + 8 * i)

/-- The child has its arguments. -/
structure Passed (c : Child) : Prop where
  a0 : c.pt_regs.regs 10 = argc.toInt64.toUInt64
  array : InStack c.a1 (8 * argc.toInt.toNat)
  string : ∀ i < argc.toInt.toNat, InStack (pointer e c i) ((argv i).1.length + 1)
  copy : ∀ i < argc.toInt.toNat, strcmp c.user.mem (kernelAddr e (pointer e c i)) (argv i) = 0
  /-- The strings do not overlap. -/
  apart : ∀ i < argc.toInt.toNat, ∀ j < i, (pointer e c i).toNat + ((argv i).1.length + 1) ≤ (pointer e c j).toNat
  /-- They are below the array. -/
  below : ∀ i < argc.toInt.toNat, (pointer e c i).toNat + ((argv i).1.length + 1) ≤ c.a1.toNat
  /-- The array is below the word `argc`. -/
  count : c.a1.toNat + 8 * argc.toInt.toNat ≤ USER_STACK_ADDR.toNat - 8
  word : get64 c.user.mem (argcAt e).toNat = argc.toInt64.toUInt64
  sp : c.pt_regs.regs 2 = c.user_sp
  aligned : c.user_sp.toNat % 16 = 0
  lowest : ∀ i < argc.toInt.toNat, c.user_sp.toNat ≤ (pointer e c i).toNat
  inside : ∀ q ∈ c.user.writes, Inside e q

/-- `do_exec` returns -1, or the child has its arguments. -/
def Passes : Option Child → Prop
  | none => True
  | some c => Passed e argc argv c

/-- The bytes of the first `i` strings. -/
def used : ℕ → ℕ
  | 0 => 0
  | i + 1 => used i + ((argv i).1.length + 1)

/-- The arguments fit the page. -/
def Fits : Prop := 8 + 8 * argc.toInt.toNat + used argv argc.toInt.toNat ≤ 4096

/-- `check_uva_mem` does not take the frame of the new stack for a page of the caller. -/
def Spares : Prop := ∀ i m x, e.kva.toNat ≤ x → x < e.kva.toNat + 4096 → e.check_uva_mem i m x = m x

/-- `do_exec` finds no task of that name, or no free entry of `pcb`. -/
def Refused (s : Kernel) (name : Name) : Prop := s.tasks.findIdx? (· = name) = none ∨ get_free_pcb s.pcb = none

section Layout

variable {e argc argv} {a : UInt64} {i j k n x B : ℕ} {w w' w'' : Written} {sp sp' : UInt64} {m : Memory}

/-! ### Numbers -/

theorem used_mono (h : i ≤ j) : used argv i ≤ used argv j := by
  induction h with
  | refl => exact Nat.le_refl _
  | step _ ih => exact Nat.le_trans ih (Nat.le_add_right _ _)

theorem used_zero (B : ℕ) : B + used argv 0 = B := by rw [used, Nat.add_zero]

theorem used_succ (argv : ℕ → Mbox.CString) (i : ℕ) : used argv (i + 1) = used argv i + ((argv i).1.length + 1) := rfl

/-- An `int` that is not negative, as `uint64_t`. -/
theorem toNat_widen {v : Int32} (h : 0 ≤ v.toInt) : v.toInt64.toUInt64.toNat = v.toInt.toNat := by
  have hle : 0 ≤ v.toInt64 := by
    apply Int64.le_iff_toInt_le.mpr
    rw [Int32.toInt_toInt64]
    exact h
  rw [Int64.toNat_toUInt64_of_le hle, Int64.toNatClampNeg, Int32.toInt_toInt64]

theorem toNat_str_len (h : n + 1 < 2 ^ 31) : (str_len n).toInt64.toUInt64.toNat = n + 1 := by
  have hint : (str_len n).toInt = (n + 1 : ℕ) := Int32.toInt_ofNat_of_lt h
  rw [toNat_widen (by rw [hint]; exact Int.natCast_nonneg _), hint, Int.toNat_natCast]

theorem toNat_ROUNDDOWN16 (a : UInt64) : (ROUNDDOWN16 a).toNat = a.toNat / 16 * 16 := by
  have hmask : (16 - 1 : UInt64) = UInt64.ofNat (2 ^ 4 - 1) := by decide
  rw [ROUNDDOWN16, hmask, toNat_and_not_low (by decide)]
  rfl

/-- Where the pools are. -/
theorem frame_bounds (hk : IsFrame e.kva) : 2 ^ 38 ≤ e.kva.toNat ∧ e.kva.toNat + 8192 ≤ 2 ^ 64 := by
  obtain ⟨n, hn, he⟩ := hk
  have hn' : n < 45056 := hn
  rw [he, Mm.toNat_kernelFrame hn]
  omega

theorem toNat_argcAt (hk : IsFrame e.kva) : (argcAt e).toNat = e.kva.toNat + 4088 := by
  have := frame_bounds hk
  rw [argcAt, UInt64.toNat_sub, UInt64.toNat_add]
  simp only [PAGE_SIZE, UInt64.reduceToNat]
  omega

theorem toNat_my_argv (hk : IsFrame e.kva) (h0 : 0 ≤ argc.toInt) :
    (my_argv e argc).toNat = e.kva.toNat + 4088 - 8 * argc.toInt.toNat := by
  have := frame_bounds hk
  have hlt := argc.toInt_lt
  have hn : argc.toInt.toNat < 2 ^ 31 := by omega
  rw [my_argv, UInt64.toNat_sub, UInt64.toNat_mul, toNat_widen h0, toNat_argcAt hk]
  simp only [UInt64.reduceToNat]
  omega

/-- The user address of an address in the frame. -/
theorem toNat_sub_offset (hk : IsFrame e.kva) (hlow : e.kva.toNat ≤ a.toNat) (hhigh : a.toNat ≤ e.kva.toNat + 4096) :
    (a - offset e).toNat = a.toNat - e.kva.toNat + 0xf0000f000 := by
  have := frame_bounds hk
  have hoff : (offset e).toNat = e.kva.toNat - 0xf0000f000 := by
    rw [offset, UInt64.toNat_sub, UInt64.toNat_add]
    simp only [PAGE_SIZE, USER_STACK_ADDR, UInt64.reduceToNat]
    omega
  rw [UInt64.toNat_sub, hoff]
  omega

theorem toNat_STACK_PAGE : STACK_PAGE.toNat = 0xf0000f000 := by decide

theorem toNat_USER_STACK_ADDR : USER_STACK_ADDR.toNat = 0xf00010000 := by decide

/-- Back to the kernel's address. -/
theorem kernelAddr_sub_offset (hk : IsFrame e.kva)
    (hlow : e.kva.toNat ≤ a.toNat) (hhigh : a.toNat ≤ e.kva.toNat + 4096) :
    kernelAddr e (a - offset e) = a.toNat := by
  rw [kernelAddr, toNat_sub_offset hk hlow hhigh, toNat_STACK_PAGE]
  omega

/-! ### Copying what fits -/

/-- The rounds from `i` to `j` have taken `w` to `w'`, for an array at `B`. The bytes below the strings,
those of the rounds before and those above the last pointer are as they were. -/
structure Laid (e : Env) (argv : ℕ → Mbox.CString) (B i j : ℕ) (w w' : Written) : Prop where
  frame : ∀ x, e.kva.toNat ≤ x → x < e.kva.toNat + 4096 →
    (x + used argv j < B ∨ (B ≤ x + used argv i ∧ x < B + 8 * i) ∨ B + 8 * j ≤ x) → w'.mem x = w.mem x
  string : ∀ l, i ≤ l → l < j → ∀ y ≤ (argv l).1.length, w'.mem (B - used argv (l + 1) + y) = (argv l).1.getD y 0
  pointer : ∀ l, i ≤ l → l < j → get64 w'.mem (B + 8 * l) = UInt64.ofNat (B - used argv (l + 1)) - offset e
  inside : ∀ q ∈ w'.writes, q ∈ w.writes ∨ Inside e q

/-- There is room for `n` strings below `B` and for `n` pointers above it. -/
structure Room (e : Env) (argv : ℕ → Mbox.CString) (B n : ℕ) : Prop where
  low : e.kva.toNat + used argv n ≤ B
  high : B + 8 * n ≤ e.kva.toNat + 4096

theorem Laid.refl (e : Env) (argv : ℕ → Mbox.CString) (B i : ℕ) (w : Written) : Laid e argv B i i w w :=
  ⟨fun _ _ _ _ => rfl, fun _ h1 h2 => absurd h2 (Nat.not_lt.mpr h1),
    fun _ h1 h2 => absurd h2 (Nat.not_lt.mpr h1), fun _ hq => Or.inl hq⟩

theorem Laid.trans (h₁ : Laid e argv B i j w w') (h₂ : Laid e argv B j k w' w'')
    (hij : i ≤ j) (hjk : j ≤ k) (hr : Room e argv B k) :
    Laid e argv B i k w w'' := by
  obtain ⟨hlow, hhigh⟩ := hr
  have hmono : used argv i ≤ used argv j := used_mono hij
  have hmono' : used argv j ≤ used argv k := used_mono hjk
  refine ⟨fun x hx hx' hc => ?_, fun l hl hlk y hy => ?_, fun l hl hlk => ?_, fun q hq => ?_⟩
  · rw [h₂.frame x hx hx' (by omega), h₁.frame x hx hx' (by omega)]
  · by_cases hlj : l < j
    · -- the later rounds copy below this string
      have hsucc : used argv (l + 1) ≤ used argv j := used_mono hlj
      have hlen := used_succ argv l
      rw [h₂.frame _ (by omega) (by omega) (Or.inr (Or.inl ⟨by omega, by omega⟩)), h₁.string l hl hlj y hy]
    · exact h₂.string l (Nat.le_of_not_lt hlj) hlk y hy
  · by_cases hlj : l < j
    · rw [← h₁.pointer l hl hlj]
      exact get64_congr fun x h1 h2 => h₂.frame x (by omega) (by omega) (Or.inr (Or.inl ⟨by omega, by omega⟩))
    · exact h₂.pointer l (Nat.le_of_not_lt hlj) hlk
  · rcases h₂.inside q hq with hq | hq
    · exact h₁.inside q hq
    · exact Or.inr hq

theorem toNat_push (hr : Room e argv B n) (hk : IsFrame e.kva) (hi : i < n) (hsp : sp.toNat + used argv i = B) :
    (push argv i sp).toNat + used argv (i + 1) = B := by
  have := frame_bounds hk
  have hlow := hr.low
  have hhigh := hr.high
  have hmono : used argv (i + 1) ≤ used argv n := used_mono hi
  have hlen := used_succ argv i
  have hlt := sp.toNat_lt
  rw [push, UInt64.toNat_sub, toNat_str_len (by omega)]
  omega

/-- One round. -/
theorem copyArg_laid (hr : Room e argv B n) (hk : IsFrame e.kva)
    (hs : Spares e) (hB : (my_argv e argc).toNat = B) (hi : i < n)
    (hsp : sp.toNat + used argv i = B) : Laid e argv B i (i + 1) w (copyArg e argc argv i sp w) := by
  have hbounds := frame_bounds hk
  obtain ⟨hlow, hhigh⟩ := hr
  have hmono : used argv (i + 1) ≤ used argv n := used_mono hi
  have hlen := used_succ argv i
  have hpush : (push argv i sp).toNat = B - used argv (i + 1) := by
    have := toNat_push ⟨hlow, hhigh⟩ hk hi hsp
    omega
  have hat : (my_argv e argc + 8 * UInt64.ofNat i).toNat = B + 8 * i := by
    rw [UInt64.toNat_add, UInt64.toNat_mul, hB, UInt64.toNat_ofNat']
    simp only [UInt64.reduceToNat]
    omega
  have hmem : ∀ x, (copyArg e argc argv i sp w).mem x =
      if B - used argv (i + 1) ≤ x ∧ x < B - used argv (i + 1) + ((argv i).1.length + 1) then
        (argv i).1.getD (x - (B - used argv (i + 1))) 0
      else put64 (e.check_uva_mem (i + 1) w.mem) (B + 8 * i) (push argv i sp - offset e) x := by
    intro x
    rw [← hpush, ← hat, ← strcpy_apply]
    rfl
  refine ⟨fun x hx hx' hc => ?_, fun l hl hli y hy => ?_, fun l hl hli => ?_, fun q hq => ?_⟩
  · rw [hmem, if_neg (by omega), put64_of_lt _ _ (by omega), hs _ _ x hx hx']
  · obtain rfl : l = i := Nat.le_antisymm (Nat.le_of_lt_succ hli) hl
    rw [hmem, if_pos (by omega), Nat.add_sub_cancel_left]
  · obtain rfl : l = i := Nat.le_antisymm (Nat.le_of_lt_succ hli) hl
    have hsame : get64 (copyArg e argc argv l sp w).mem (B + 8 * l) =
        get64 (put64 (e.check_uva_mem (l + 1) w.mem) (B + 8 * l) (push argv l sp - offset e)) (B + 8 * l) :=
      get64_congr fun x h1 h2 => by rw [hmem, if_neg (by omega)]
    rw [hsame, get64_put64, ← hpush, UInt64.ofNat_toNat]
  · rcases List.mem_cons.mp hq with rfl | hq
    · refine Or.inr ⟨?_, ?_⟩
      · show e.kva.toNat ≤ (push argv i sp).toNat
        omega
      · show (push argv i sp).toNat + ((argv i).1.length + 1) ≤ _
        omega
    · rcases List.mem_cons.mp hq with rfl | hq
      · refine Or.inr ⟨?_, ?_⟩
        · show e.kva.toNat ≤ (my_argv e argc + 8 * UInt64.ofNat i).toNat
          omega
        · show (my_argv e argc + 8 * UInt64.ofNat i).toNat + 8 ≤ _
          omega
      · exact Or.inl hq

/-- The loop. -/
theorem copyArgs_laid (hk : IsFrame e.kva) (hs : Spares e)
    (hB : (my_argv e argc).toNat = B) (hr : Room e argv B (i + n))
    (hsp : sp.toNat + used argv i = B) : (copyArgs e argc argv n i sp w).1.toNat + used argv (i + n) = B ∧
      Laid e argv B i (i + n) w (copyArgs e argc argv n i sp w).2 := by
  induction n generalizing i sp w with
  | zero => exact ⟨hsp, Laid.refl e argv B i w⟩
  | succ n ih =>
    have hi : i < i + (n + 1) := by omega
    have hround := copyArg_laid (w := w) hr hk hs hB hi hsp
    have hrest : i + 1 + n = i + (n + 1) := by omega
    rw [← hrest] at hr ⊢
    obtain ⟨hend, hlaid⟩ := ih (w := copyArg e argc argv i sp w) hr (toNat_push (hrest ▸ hr) hk hi hsp)
    exact ⟨hend, hround.trans hlaid (Nat.le_succ i) (Nat.le_add_right _ _) hr⟩

/-! ### What stays inside fits -/

theorem copyArgs_writes {q : ℕ × ℕ} (hq : q ∈ w.writes) : q ∈ (copyArgs e argc argv n i sp w).2.writes := by
  induction n generalizing i sp w with
  | zero => exact hq
  | succ n ih => exact ih (List.mem_cons_of_mem _ (List.mem_cons_of_mem _ hq))

/-- A loop that writes inside the frame only has room for its strings. -/
theorem copyArgs_inside (hk : IsFrame e.kva) (hlow : e.kva.toNat ≤ sp.toNat) (hhigh : sp.toNat ≤ e.kva.toNat + 4096)
    (hsp : sp.toNat + used argv i = B) (hin : ∀ q ∈ (copyArgs e argc argv n i sp w).2.writes, Inside e q) :
    e.kva.toNat + used argv (i + n) ≤ B := by
  induction n generalizing i sp w with
  | zero =>
    rw [Nat.add_zero]
    omega
  | succ n ih =>
    have := frame_bounds hk
    have hlen := used_succ argv i
    have hwrite : ((push argv i sp).toNat, (argv i).1.length + 1) ∈ (copyArg e argc argv i sp w).writes :=
      List.mem_cons_self ..
    have hlast : ((push argv i sp).toNat, (argv i).1.length + 1) ∈
        (copyArgs e argc argv n (i + 1) (push argv i sp) (copyArg e argc argv i sp w)).2.writes :=
        copyArgs_writes hwrite
    obtain ⟨h1, h2⟩ : e.kva.toNat ≤ (push argv i sp).toNat ∧
        (push argv i sp).toNat + ((argv i).1.length + 1) ≤ e.kva.toNat + 4096 :=
      hin _ hlast
    -- the string is no longer than the page, so that neither `str_len` nor the difference wraps around
    have hpush : (push argv i sp).toNat = sp.toNat - ((argv i).1.length + 1) := by
      have hlt := sp.toNat_lt
      rw [push, UInt64.toNat_sub, toNat_str_len (by omega)]
      omega
    have hrest : i + (n + 1) = i + 1 + n := by omega
    rw [hrest]
    exact ih h1 (by omega) (by omega) hin

/-! ### The child -/

theorem fits_of_inside (hk : IsFrame e.kva) (h0 : 0 ≤ argc.toInt)
    (hin : ∀ q ∈ (afterArgs e argc argv m).2.writes, Inside e q) :
    Fits argc argv := by
  have := frame_bounds hk
  have hlt := argc.toInt_lt
  have hB := toNat_my_argv hk h0
  rw [Fits]
  by_cases hn : argc.toInt.toNat = 0
  · rw [hn, used]
    omega
  · -- the first pointer is written at `my_argv`
    have hlow : e.kva.toNat ≤ (my_argv e argc).toNat := by
      obtain ⟨r, hr⟩ := Nat.exists_eq_succ_of_ne_zero hn
      rw [afterArgs, hr] at hin
      have hwrite : ((my_argv e argc + 8 * UInt64.ofNat 0).toNat, 8) ∈
          (copyArg e argc argv 0 (my_argv e argc) (beforeArgs e argc m)).writes :=
          List.mem_cons_of_mem _ (List.mem_cons_self ..)
      have hlast : ((my_argv e argc + 8 * UInt64.ofNat 0).toNat, 8) ∈
          (copyArgs e argc argv (r + 1) 0 (my_argv e argc) (beforeArgs e argc m)).2.writes :=
        @copyArgs_writes e argc argv 1 r _ _ _ hwrite
      have hfirst : my_argv e argc + 8 * UInt64.ofNat 0 = my_argv e argc := by simp
      rw [hfirst] at hlast
      exact (hin _ hlast).1
    have hroom := copyArgs_inside hk hlow (by omega) (used_zero _) hin
    rw [Nat.zero_add] at hroom
    omega

theorem setup_process_stack_passed (hk : IsFrame e.kva) (h0 : 0 ≤ argc.toInt) (hs : Spares e) (hf : Fits argc argv)
    (pcb entry_point : UInt64) (m : Memory) :
    Passed e argc argv (setup_process_stack e argc argv pcb entry_point m) := by
  have hbounds := frame_bounds hk
  have hB := toNat_my_argv hk h0
  have hfits : 8 + 8 * argc.toInt.toNat + used argv argc.toInt.toNat ≤ 4096 := hf
  generalize hn : argc.toInt.toNat = n at hB hfits
  have hroom : Room e argv (my_argv e argc).toNat (0 + n) := by
    rw [Nat.zero_add]
    exact ⟨by omega, by omega⟩
  obtain ⟨hend, hlaid⟩ := copyArgs_laid (w := beforeArgs e argc m) hk hs rfl hroom (used_zero _)
  rw [Nat.zero_add] at hend hlaid
  generalize hc : setup_process_stack e argc argv pcb entry_point m = c
  have hafter : afterArgs e argc argv m = copyArgs e argc argv n 0 (my_argv e argc) (beforeArgs e argc m) := by
    rw [afterArgs, hn]
  have huser : c.user = (copyArgs e argc argv n 0 (my_argv e argc) (beforeArgs e argc m)).2 := by
    rw [← hc, ← hafter]; rfl
  have hsp :
      c.user_sp =
      ROUNDDOWN16 ((copyArgs e argc argv n 0 (my_argv e argc) (beforeArgs e argc m)).1 - offset e) := by
    rw [← hc, ← hafter]
    rfl
  have ha1 : c.a1 = my_argv e argc - offset e := by rw [← hc]; rfl
  have ha1' : c.a1.toNat = (my_argv e argc).toNat - e.kva.toNat + 0xf0000f000 := by
    rw [ha1]
    exact toNat_sub_offset hk (by omega) (by omega)
  have hused : ∀ i < n, used argv (i + 1) = used argv i + ((argv i).1.length + 1) ∧ used argv (i + 1) ≤ used argv n :=
    fun i hi => ⟨rfl, used_mono hi⟩
  have hpointer : ∀ i < n, pointer e c i = UInt64.ofNat ((my_argv e argc).toNat - used argv (i + 1)) - offset e := by
    intro i hi
    rw [pointer, ha1, kernelAddr_sub_offset hk (by omega) (by omega), huser]
    exact hlaid.pointer i (Nat.zero_le i) hi
  have haddr : ∀ i < n, (UInt64.ofNat ((my_argv e argc).toNat - used argv (i + 1))).toNat =
      (my_argv e argc).toNat - used argv (i + 1) := by
    intro i hi
    rw [UInt64.toNat_ofNat', Nat.mod_eq_of_lt]
    omega
  have hvalue : ∀ i < n,
      (pointer e c i).toNat = (my_argv e argc).toNat - used argv (i + 1) - e.kva.toNat + 0xf0000f000 := by
    intro i hi
    obtain ⟨-, hle⟩ := hused i hi
    have ha := haddr i hi
    rw [hpointer i hi, toNat_sub_offset hk (by omega) (by omega), ha]
  have hkernel : ∀ i < n, kernelAddr e (pointer e c i) = (my_argv e argc).toNat - used argv (i + 1) := by
    intro i hi
    obtain ⟨-, hle⟩ := hused i hi
    have ha := haddr i hi
    rw [hpointer i hi, kernelAddr_sub_offset hk (by omega) (by omega), ha]
  have huser_sp : c.user_sp.toNat = ((my_argv e argc).toNat - used argv n - e.kva.toNat + 0xf0000f000) / 16 * 16 := by
    have hlast := Nat.eq_sub_of_add_eq hend
    rw [hsp, toNat_ROUNDDOWN16, toNat_sub_offset hk (by omega) (by omega), hlast]
  refine ⟨by rw [← hc]; rfl, ?_, ?_, ?_, ?_, ?_, ?_, ?_, by rw [← hc]; rfl, ?_, ?_, ?_⟩
  any_goals rw [hn]
  · refine ⟨?_, ?_⟩
    · rw [toNat_STACK_PAGE]
      omega
    · rw [toNat_USER_STACK_ADDR]
      omega
  · intro i hi
    obtain ⟨hsucc, hle⟩ := hused i hi
    have hp := hvalue i hi
    refine ⟨?_, ?_⟩
    · rw [toNat_STACK_PAGE]
      omega
    · rw [toNat_USER_STACK_ADDR]
      omega
  · intro i hi
    refine (strcmp_eq_zero (argv i).2).mpr fun y hy => ?_
    rw [hkernel i hi, huser]
    exact hlaid.string i (Nat.zero_le i) hi y hy
  · intro i hi j hj
    obtain ⟨hsucc, hle⟩ := hused i hi
    have hp := hvalue i hi
    have hp' := hvalue j (hj.trans hi)
    have hmono : used argv (j + 1) ≤ used argv i := used_mono hj
    omega
  · intro i hi
    obtain ⟨hsucc, hle⟩ := hused i hi
    have hp := hvalue i hi
    omega
  · rw [toNat_USER_STACK_ADDR]
    omega
  · have hat := toNat_argcAt hk
    have hsame : get64 c.user.mem (argcAt e).toNat =
        get64 (put64 m (argcAt e).toNat argc.toInt64.toUInt64) (argcAt e).toNat := by
      refine get64_congr fun x h1 h2 => ?_
      rw [huser, hlaid.frame x (by omega) (by omega) (Or.inr (Or.inr (by omega)))]
      exact hs 0 _ x (by omega) (by omega)
    rw [hsame, get64_put64]
  · rw [huser_sp]
    exact Nat.mul_mod_left _ _
  · intro i hi
    obtain ⟨hsucc, hle⟩ := hused i hi
    have hp := hvalue i hi
    omega
  · intro q hq
    rw [huser] at hq
    rcases hlaid.inside q hq with hq | hq
    · have hat := toNat_argcAt hk
      rcases List.mem_singleton.mp hq with rfl
      refine ⟨?_, ?_⟩
      · show e.kva.toNat ≤ (argcAt e).toNat
        omega
      · show (argcAt e).toNat + 8 ≤ _
        omega
    · exact hq

/-! ### `do_exec` -/

variable {s : Kernel} {name : Name}

theorem do_exec_refused (hr : Refused s name) : do_exec e argc argv s name m = none := by
  rw [do_exec]
  split
  · rfl
  · next htask =>
    rw [hr.resolve_left (by rw [htask]; exact nofun)]

theorem do_exec_started (hr : ¬ Refused s name) : ∃ pcb_id taskid, do_exec e argc argv s name m =
    some (setup_process_stack e argc argv (e.pcb pcb_id) (e.entrypoint taskid) m) := by
  rw [do_exec]
  split
  · next htask => exact absurd (Or.inl htask) hr
  · next taskid _ =>
    split
    · next hpcb => exact absurd (Or.inr hpcb) hr
    · next pcb_id _ => exact ⟨pcb_id, taskid, rfl⟩

/-- The scheduler's `do_exec` fails in the same cases, and else returns the new pid. -/
theorem do_exec_returns (h : Hart) (s : Kernel) (name : Name) : ProgM.Partial s (Sched.do_exec h name) fun pid _ =>
    (Refused s name ∧ pid = -1) ∨ (¬ Refused s name ∧ pid = s.process_id + 1) := by
  refine ProgM.Partial.get_bind ?_
  split
  · next htask => exact ProgM.Partial.pure (Or.inl ⟨Or.inl htask, rfl⟩)
  · next taskid htask =>
    split
    · next hpcb => exact ProgM.Partial.pure (Or.inl ⟨Or.inr hpcb, rfl⟩)
    · next j hpcb =>
      have hstarted : ¬ Refused s name := by
        rw [Refused, htask, hpcb]
        simp
      have hany : ∀ {α : Type} (x : SchedM α) (m : Kernel), ProgM.Partial m x fun _ _ => True :=
        fun _ _ _ _ _ _ _ _ => trivial
      refine ProgM.Partial.modify_bind
          (ProgM.Partial.bind (hany _ _) fun _ _ _ => ProgM.Partial.bind (hany _ _) fun _ _ _ =>
        ProgM.Partial.bind (hany _ _) fun _ _ _ => ProgM.Partial.bind (hany _ _) fun _ _ _ =>
          ProgM.Partial.bind (hany _ _) fun _ _ _ => ?_)
      exact ProgM.Partial.pure (Or.inr ⟨hstarted, rfl⟩)

/-- Arguments that do not fit are never passed on. -/
theorem fits_of_passes (hk : IsFrame e.kva) (h0 : 0 ≤ argc.toInt)
    (hp : Passes e argc argv (do_exec e argc argv s name m)) :
    Refused s name ∨ Fits argc argv := by
  by_cases hr : Refused s name
  · exact Or.inl hr
  · obtain ⟨pcb_id, taskid, hchild⟩ := @do_exec_started e argc argv m s name hr
    rw [hchild] at hp
    exact Or.inr (fits_of_inside hk h0 hp.inside)

/-- **Arguments are passed on exactly when they fit the page.** Unless `do_exec` returns -1, the word
`argc`, the pointers and the strings must not take more than 4096 bytes. -/
theorem do_exec_passes_iff (hk : IsFrame e.kva) (h0 : 0 ≤ argc.toInt) (hs : Spares e) :
    Passes e argc argv (do_exec e argc argv s name m) ↔ Refused s name ∨ Fits argc argv := by
  constructor
  · exact fits_of_passes hk h0
  · intro hf
    by_cases hr : Refused s name
    · rw [do_exec_refused hr]
      trivial
    · obtain ⟨pcb_id, taskid, hchild⟩ := @do_exec_started e argc argv m s name hr
      rw [hchild]
      exact setup_process_stack_passed hk h0 hs (hf.resolve_left hr) _ _ _

end Layout

/-! ### A string that does not fit -/

/-- The first frame of the user pool, and no page of the caller is on the card. -/
def firstFrame : Env where
  kva := Mm.userFrame 0
  check_uva_mem := fun _ m => m
  kernel_sp := Mm.kernelFrame 1
  pcb := fun _ => 0
  entrypoint := fun _ => 0x10000
  ret_from_exception := 0

theorem started_firstFrame (argc : Int32) (argv : ℕ → Mbox.CString) (m : Memory) :
    (do_exec firstFrame argc argv Machine.start.mem ⟨[], by decide⟩ m).isSome := rfl

/-- `main` starts the shell with its name as the only argument. -/
theorem do_exec_passes_shell :
    (do_exec firstFrame 1 (fun _ => ⟨literal "shell", by decide⟩) Machine.start.mem ⟨[], by decide⟩ fun _ =>
      0).isSome ∧
    Passes firstFrame 1 (fun _ => ⟨literal "shell", by decide⟩)
      (do_exec firstFrame 1 (fun _ => ⟨literal "shell", by decide⟩) Machine.start.mem ⟨[], by decide⟩ fun _ => 0) := by
  refine ⟨started_firstFrame _ _ _,
    (do_exec_passes_iff (Mm.isFrame_userFrame (by decide)) (by decide) fun _ _ _ _ _ => rfl).mpr (Or.inr ?_)⟩
  rw [Fits]
  decide

/-- One string of 4084 characters goes beyond the page. -/
theorem do_exec_passes_fails :
    ¬ ∀ (e : Env) (argc : Int32) (argv : ℕ → Mbox.CString) (s : Kernel) (name : Name) (m : Memory),
    IsFrame e.kva → 0 ≤ argc.toInt → Passes e argc argv (do_exec e argc argv s name m) := by
  intro hall
  have hstring : (0 : UInt8) ∉ List.replicate 4084 (0x61 : UInt8) :=
    fun h => absurd (List.eq_of_mem_replicate h) (by decide)
  have hframe : IsFrame firstFrame.kva := Mm.isFrame_userFrame (by decide)
  have hp := hall firstFrame 1 (fun _ => ⟨List.replicate 4084 0x61, hstring⟩) Machine.start.mem ⟨[], by decide⟩
    (fun _ => 0) hframe (by decide)
  rcases fits_of_passes hframe (by decide) hp with hr | hf
  · have hnone := @do_exec_refused firstFrame 1 (fun _ => ⟨List.replicate 4084 0x61, hstring⟩) (fun _ => 0) _ _ hr
    have hsome := started_firstFrame 1 (fun _ => ⟨List.replicate 4084 0x61, hstring⟩) fun _ => 0
    rw [hnone] at hsome
    cases hsome
  · have hn : (1 : Int32).toInt.toNat = 1 := by decide
    rw [Fits, hn, used, used, List.length_replicate] at hf
    omega

end OsLab.Args
