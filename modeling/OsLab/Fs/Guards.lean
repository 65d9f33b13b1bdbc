import OsLab.Fs.Exhausted

/-!
# Which calls look at their descriptor

`do_read` and `do_lseek` begin with a test of the descriptor, `do_read` also of the mode it was opened with.
`do_write` and `do_close` index `fdesc_array` with whatever number they are given: a number outside the array
reaches other variables, a descriptor that is not open is written through all the same. So of the four, just
the first two refuse a bad descriptor (`refuses_iff`), in every state and for all arguments.
-/

namespace OsLab

open Lib ProgM

/-- `O_RDONLY`. -/
def O_RDONLY : UInt8 := 1

/-- The operations on a descriptor. -/
inductive FdOp where
  | do_read
  | do_write
  | do_lseek
  | do_close
  deriving DecidableEq

/-- Their arguments after the descriptor. Of the bytes at `buff` a call of `do_write` uses `length`, none when
`length` is negative. -/
inductive FdArgs : FdOp → Type where
  | do_read (length : ℤ) : FdArgs .do_read
  | do_write (buff : List UInt8) (length : ℤ) : FdArgs .do_write
  | do_lseek (offset whence : ℤ) : FdArgs .do_lseek
  | do_close : FdArgs .do_close

/-- A call: the value returned and the bytes stored at the caller's buffer. -/
def FdArgs.prog (fd : ℤ) : {op : FdOp} → FdArgs op → FsM (ℤ × List UInt8)
  | _, .do_read length => Fs.do_read fd length
  | _, .do_write buff length => do
    let _ ← Fs.do_write fd (buff.take length.toNat)
    pure (length, [])
  | _, .do_lseek offset whence => do
    let r ← Fs.do_lseek fd offset whence
    pure (r, [])
  | _, .do_close => do
    let r ← Fs.do_close fd
    pure (r, [])

/-- The descriptor is out of range, or not open, or open for the other direction only. -/
def Mem.BadFd (m : Mem) (op : FdOp) (fd : ℤ) : Prop :=
  ∀ i, Fs.fdIndex fd = some i → (m.fdesc_array i).valid = 0 ∨ op = .do_read ∧ (m.fdesc_array i).mode = O_WRONLY ∨
    op = .do_write ∧ (m.fdesc_array i).mode = O_RDONLY

/-- Every call returns -1 and leaves memory, cache and card as they are. -/
def Refuses (s : Sys) (op : FdOp) (fd : ℤ) : Prop :=
  ∀ args : FdArgs op, exec cached (args.prog fd) s = some ((-1, []), s)

variable {s : Sys} {fd : ℤ}

theorem exec_fdescs (s : Sys) : exec cached Fs.fdescs s = some (s.mem.fdesc_array, s) := rfl

theorem Mem.BadFd.read_refused (h : s.mem.BadFd .do_read fd) (length : ℤ) :
    exec cached (Fs.do_read fd length) s = some ((-1, []), s) := by
  unfold Fs.do_read
  rcases hi : Fs.fdIndex fd with _ | i
  · exact exec_pure ..
  · simp only [exec_bind, exec_fdescs, Option.bind_some]
    rcases h i hi with hvalid | ⟨-, hmode⟩ | ⟨hop, -⟩
    · rw [if_pos hvalid, exec_pure]
    · rw [if_pos hmode, ite_self, exec_pure]
    · cases hop

theorem Mem.BadFd.lseek_refused (h : s.mem.BadFd .do_lseek fd) (offset whence : ℤ) :
    exec cached (Fs.do_lseek fd offset whence) s = some (-1, s) := by
  unfold Fs.do_lseek
  rcases hi : Fs.fdIndex fd with _ | i
  · exact exec_pure ..
  · simp only [exec_bind, exec_fdescs, Option.bind_some]
    rcases h i hi with hvalid | ⟨hop, -⟩ | ⟨hop, -⟩
    · rw [if_pos hvalid, exec_pure]
    · cases hop
    · cases hop

/-- `do_close` returns 0 or reaches outside the array. -/
theorem do_close_value (s : Sys) (fd : ℤ) : Ensures cached s (Fs.do_close fd) fun r _ => r = 0 := by
  unfold Fs.do_close
  split
  · exact Ensures.stop
  · exact Ensures.last fun _ _ => Ensures.last fun _ _ => Ensures.pure rfl

/-- A call that returns something else than -1, or does not return, does not refuse. -/
theorem not_refuses {op : FdOp} (args : FdArgs op) (hval : Ensures cached s (args.prog fd) fun r _ => r.1 = 0) :
    ¬ Refuses s op fd := by
  intro h
  have : (-1 : ℤ) = 0 := hval _ _ (h args)
  omega

theorem write_not_refuses (s : Sys) (fd : ℤ) : ¬ Refuses s .do_write fd :=
  not_refuses (.do_write [] 0) <| Ensures.last fun _ _ => Ensures.pure rfl

theorem close_not_refuses (s : Sys) (fd : ℤ) : ¬ Refuses s .do_close fd :=
  not_refuses .do_close <| Ensures.bind (do_close_value s fd) fun _ _ hr => Ensures.pure hr

/-- **Which bad descriptors are refused**: in every state and for every number, those of `do_read` and `do_lseek`. -/
theorem refuses_iff (s : Sys) (op : FdOp) (fd : ℤ) :
    (s.mem.BadFd op fd → Refuses s op fd) ↔ (op = .do_write ∨ op = .do_close → ¬ s.mem.BadFd op fd) := by
  constructor
  · rintro h (rfl | rfl) hbad
    · exact write_not_refuses s fd (h hbad)
    · exact close_not_refuses s fd (h hbad)
  · intro h hbad args
    cases args with
    | do_read length => exact hbad.read_refused length
    | do_lseek offset whence =>
      simp only [FdArgs.prog, exec_bind, hbad.lseek_refused offset whence, Option.bind_some, exec_pure]
    | do_write buff length => exact absurd hbad (h (.inl rfl))
    | do_close => exact absurd hbad (h (.inr rfl))

/-- After booting no descriptor is open, and `do_close(0)` returns 0. -/
theorem do_close_unopened : ¬ ∀ (s : Sys) (op : FdOp) (fd : ℤ), s.mem.BadFd op fd → Refuses s op fd := by
  intro hall
  have hbad : Mem.start.BadFd .do_close 0 := fun i _ => Or.inl rfl
  exact close_not_refuses ⟨Mem.start, Bcache.blank⟩ 0 (hall ⟨Mem.start, Bcache.blank⟩ .do_close 0 hbad)

end OsLab
