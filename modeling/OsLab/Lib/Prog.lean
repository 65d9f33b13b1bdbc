import Mathlib.Init

/-!
# Programs over an interface

A program that acts on the outside only through the operations of an interface: `E` is the
type of operations and `R e` the type of the answer to `e`. A program either returns, performs
an operation and goes on with its answer, or stops for good (`stop`: a failed assertion, an
access outside an array, a loop that does not end). What the operations do is left to a
*handler*, so that one program can be run over different implementations of the interface;
`run_sim` says that implementations related step by step are not told apart by any program.

A program with private memory `μ` is a `ProgM μ E R`: a state transformer over `Prog`. `exec`
runs it over a handler from memory and device together, and the lemmas `exec_*` compute it.
-/

namespace OsLab.Lib

/-- Programs with operations `E` answered in `R`. -/
inductive Prog (E : Type) (R : E → Type) (α : Type) : Type where
  /-- Return. -/
  | ret (a : α)
  /-- Perform `e`, and go on with the answer. -/
  | op (e : E) (k : R e → Prog E R α)
  /-- Never come back. -/
  | stop

/-- An implementation of the operations, with state `σ`. -/
abbrev Handler (E : Type) (R : E → Type) (σ : Type) := (e : E) → σ → Option (R e × σ)

variable {E : Type} {R : E → Type} {σ σ₁ σ₂ μ α β : Type}

namespace Prog

/-- Go on with `f` after `p`. -/
def bind : Prog E R α → (α → Prog E R β) → Prog E R β
  | ret a, f => f a
  | op e k, f => op e fun r => (k r).bind f
  | stop, _ => stop

instance : Monad (Prog E R) where
  pure := ret
  bind := bind

/-- Run a program over a handler. -/
def run (h : Handler E R σ) : Prog E R α → σ → Option (α × σ)
  | ret a, s => some (a, s)
  | op e k, s => (h e s).bind fun r => run h (k r.1) r.2
  | stop, _ => none

theorem run_bind (h : Handler E R σ) (p : Prog E R α) (f : α → Prog E R β) (s : σ) :
    run h (p.bind f) s = (run h p s).bind fun r => run h (f r.1) r.2 := by
  induction p generalizing s with
  | ret a => rfl
  | op e k ih =>
    simp only [bind, run, Option.bind_assoc]
    congr 1
    funext r
    exact ih r.1 r.2
  | stop => rfl

/-- A device that answers every operation as another does, from related states to related
states, runs every program as the other does. -/
theorem run_sim {h₁ : Handler E R σ₁} {h₂ : Handler E R σ₂} (Rel : σ₁ → σ₂ → Prop)
    (hsim : ∀ e s₁ s₂ r s₁', Rel s₁ s₂ → h₁ e s₁ = some (r, s₁') → ∃ s₂', h₂ e s₂ = some (r, s₂') ∧ Rel s₁' s₂')
    (p : Prog E R α) {s₁ s₁' : σ₁} {s₂ : σ₂} {a : α} (hrel : Rel s₁ s₂) (hrun : run h₁ p s₁ = some (a, s₁')) :
    ∃ s₂', run h₂ p s₂ = some (a, s₂') ∧ Rel s₁' s₂' := by
  induction p generalizing s₁ s₂ with
  | ret b =>
    simp only [run, Option.some.injEq, Prod.mk.injEq] at hrun
    obtain ⟨rfl, rfl⟩ := hrun
    exact ⟨s₂, rfl, hrel⟩
  | op e k ih =>
    simp only [run, Option.bind_eq_some_iff] at hrun
    obtain ⟨⟨r, t₁⟩, he, hk⟩ := hrun
    obtain ⟨t₂, he₂, hrel₂⟩ := hsim e s₁ s₂ r t₁ hrel he
    obtain ⟨s₂', hrun₂, hrel'⟩ := ih r hrel₂ hk
    exact ⟨s₂', by simp [run, he₂, hrun₂], hrel'⟩
  | stop => simp [run] at hrun

end Prog

/-- Programs with private memory `μ`. -/
abbrev ProgM (μ : Type) (E : Type) (R : E → Type) := StateT μ (Prog E R)

/-- The memory of a program and the state of the device. -/
structure Conf (μ σ : Type) where
  /-- The memory. -/
  mem : μ
  /-- The device. -/
  dev : σ

namespace ProgM

/-- Perform an operation. -/
def perform (e : E) : ProgM μ E R (R e) := fun m => .op e fun r => .ret (r, m)

/-- Never come back. -/
def stop : ProgM μ E R α := fun _ => .stop

/-- Run over a handler. -/
def exec (h : Handler E R σ) (x : ProgM μ E R α) (c : Conf μ σ) : Option (α × Conf μ σ) :=
  ((x c.mem).run h c.dev).map fun r => (r.1.1, ⟨r.1.2, r.2⟩)

variable (h : Handler E R σ) (c : Conf μ σ)

@[simp] theorem exec_pure (a : α) : exec h (pure a) c = some (a, c) := rfl

@[simp] theorem exec_bind (x : ProgM μ E R α) (f : α → ProgM μ E R β) :
    exec h (x >>= f) c = (exec h x c).bind fun r => exec h (f r.1) r.2 := by
  have : (x >>= f) c.mem = (x c.mem).bind fun r => f r.1 r.2 := rfl
  simp only [exec, this, Prog.run_bind]
  cases (x c.mem).run h c.dev <;> rfl

@[simp] theorem exec_map (x : ProgM μ E R α) (f : α → β) :
    exec h (f <$> x) c = (exec h x c).map fun r => (f r.1, r.2) := by
  have : (f <$> x) c.mem = (x c.mem).bind fun r => .ret (f r.1, r.2) := rfl
  simp only [exec, this, Prog.run_bind]
  cases (x c.mem).run h c.dev <;> rfl

@[simp] theorem exec_get : exec h (get : ProgM μ E R μ) c = some (c.mem, c) := rfl

@[simp] theorem exec_modify (f : μ → μ) :
    exec h (modify f : ProgM μ E R PUnit) c = some (⟨⟩, { c with mem := f c.mem }) := rfl

@[simp] theorem exec_perform (e : E) :
    exec h (perform e : ProgM μ E R (R e)) c = (h e c.dev).map fun r => (r.1, ⟨c.mem, r.2⟩) := by
  simp only [exec, perform, Prog.run]
  cases h e c.dev <;> rfl

@[simp] theorem exec_stop : exec h (stop : ProgM μ E R α) c = none := rfl

/-- `Prog.run_sim` for programs with memory. -/
theorem exec_sim (h₁ : Handler E R σ₁) (h₂ : Handler E R σ₂) (Rel : σ₁ → σ₂ → Prop)
    (hsim : ∀ e s₁ s₂ r s₁', Rel s₁ s₂ → h₁ e s₁ = some (r, s₁') → ∃ s₂', h₂ e s₂ = some (r, s₂') ∧ Rel s₁' s₂')
    (x : ProgM μ E R α) {m m' : μ} {s₁ s₁' : σ₁} (s₂ : σ₂) {a : α} (hrel : Rel s₁ s₂)
    (hx : exec h₁ x ⟨m, s₁⟩ = some (a, ⟨m', s₁'⟩)) : ∃ s₂', exec h₂ x ⟨m, s₂⟩ = some (a, ⟨m', s₂'⟩) ∧ Rel s₁' s₂' := by
  simp only [exec, Option.map_eq_some_iff, Prod.mk.injEq, Conf.mk.injEq] at hx
  obtain ⟨⟨⟨b, n⟩, t⟩, hrun, rfl, rfl, rfl⟩ := hx
  obtain ⟨s₂', hrun₂, hrel'⟩ := Prog.run_sim Rel hsim (x m) hrel hrun
  exact ⟨s₂', by simp [exec, hrun₂], hrel'⟩

end ProgM

end OsLab.Lib
