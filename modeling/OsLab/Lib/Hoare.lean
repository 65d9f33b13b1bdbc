import Mathlib.Order.Defs.Unbundled
import OsLab.Lib.Prog

/-!
# Pre- and postconditions of programs

Judgements on a program with memory, and their rules. `Returns h c x post` is total correctness
over one handler: from `c` the program comes back, in a state that satisfies `post`. `Ensures h c x post`
is partial correctness over one handler: if it comes back, then with `post`. `Partial m x post` is
partial correctness over all handlers at once: whatever the operations do and answer, if the
program comes back from the memory `m`, the memory it leaves satisfies `post`. `Keeps r x` is the
common case that memory moves along a relation, and `Stable h P x` the case that a property of memory and device
is kept. `Shows h view w x post` is total correctness in terms of what is seen of a state.
-/

namespace OsLab.Lib.ProgM

variable {E : Type} {R : E → Type} {σ μ α β γ : Type}

/-! ### Total correctness -/

/-- From `c`, `x` comes back with `post`. -/
def Returns (h : Handler E R σ) (c : Conf μ σ) (x : ProgM μ E R α) (post : α → Conf μ σ → Prop) : Prop :=
  ∃ a c', exec h x c = some (a, c') ∧ post a c'

namespace Returns

variable {h : Handler E R σ} {c d : Conf μ σ} {x : ProgM μ E R α} {f : α → ProgM μ E R β}

theorem of_exec {a : α} {post : α → Conf μ σ → Prop} (he : exec h x c = some (a, d)) (hp : post a d) :
    Returns h c x post :=
  ⟨a, d, he, hp⟩

theorem pure {a : α} {post : α → Conf μ σ → Prop} (hp : post a c) : Returns h c (pure a) post := ⟨a, c, rfl, hp⟩

theorem bind {q : α → Conf μ σ → Prop} {post : β → Conf μ σ → Prop} (hx : Returns h c x q)
    (hf : ∀ a c', q a c' → Returns h c' (f a) post) : Returns h c (x >>= f) post := by
  obtain ⟨a, c', he, hm⟩ := hx
  obtain ⟨b, d, he', hp⟩ := hf a c' hm
  exact ⟨b, d, by simp [he, he'], hp⟩

theorem mono {post post' : α → Conf μ σ → Prop} (hx : Returns h c x post) (hp : ∀ a c', post a c' → post' a c') :
    Returns h c x post' := by
  obtain ⟨a, c', he, hm⟩ := hx
  exact ⟨a, c', he, hp a c' hm⟩

/-- After a step whose result is known. -/
theorem seq {a : α} {post : β → Conf μ σ → Prop} (he : exec h x c = some (a, d)) (hf : Returns h d (f a) post) :
    Returns h c (x >>= f) post := by
  obtain ⟨b, d', he', hp⟩ := hf
  exact ⟨b, d', by simp [he, he'], hp⟩

theorem get_bind {f : μ → ProgM μ E R β} {post : β → Conf μ σ → Prop} (hf : Returns h c (f c.mem) post) :
    Returns h c (get >>= f) post := seq rfl hf

theorem modify_bind {g : μ → μ} {f : PUnit → ProgM μ E R β} {post : β → Conf μ σ → Prop}
    (hf : Returns h { c with mem := g c.mem } (f ⟨⟩) post) : Returns h c (modify g >>= f) post := seq rfl hf

end Returns

/-! ### Partial correctness over one handler -/

/-- If `x` comes back from `c`, then with `post`. -/
def Ensures (h : Handler E R σ) (c : Conf μ σ) (x : ProgM μ E R α) (post : α → Conf μ σ → Prop) : Prop :=
  ∀ a c', exec h x c = some (a, c') → post a c'

namespace Ensures

variable {h : Handler E R σ} {c : Conf μ σ} {x : ProgM μ E R α} {f : α → ProgM μ E R β}

theorem pure {a : α} {post : α → Conf μ σ → Prop} (hp : post a c) : Ensures h c (pure a) post := by
  intro b c' he
  obtain ⟨rfl, rfl⟩ := Prod.mk.inj (Option.some.inj he)
  exact hp

theorem bind {q : α → Conf μ σ → Prop} {post : β → Conf μ σ → Prop} (hx : Ensures h c x q)
    (hf : ∀ a c', q a c' → Ensures h c' (f a) post) : Ensures h c (x >>= f) post := by
  intro b d he
  rw [exec_bind, Option.bind_eq_some_iff] at he
  obtain ⟨⟨a, c'⟩, he', he⟩ := he
  exact hf a c' (hx a c' he') b d he

theorem mono {post post' : α → Conf μ σ → Prop} (hx : Ensures h c x post) (hp : ∀ a c', post a c' → post' a c') :
    Ensures h c x post' := fun a c' he => hp a c' (hx a c' he)

theorem and {post post' : α → Conf μ σ → Prop} (hx : Ensures h c x post) (hx' : Ensures h c x post') :
    Ensures h c x fun a c' => post a c' ∧ post' a c' := fun a c' he => ⟨hx a c' he, hx' a c' he⟩

/-- After a step whose result is known. -/
theorem seq {a : α} {d : Conf μ σ} {post : β → Conf μ σ → Prop}
    (he : exec h x c = some (a, d)) (hf : Ensures h d (f a) post) :
    Ensures h c (x >>= f) post := by
  intro b c' hx
  rw [exec_bind, he, Option.bind_some] at hx
  exact hf b c' hx

theorem stop {post : α → Conf μ σ → Prop} : Ensures h c (stop : ProgM μ E R α) post := by
  intro a c' he
  cases he

theorem get_bind {f : μ → ProgM μ E R β} {post : β → Conf μ σ → Prop} (hf : Ensures h c (f c.mem) post) :
    Ensures h c (get >>= f) post := fun a c' he => hf a c' he

theorem modify_bind {g : μ → μ} {f : PUnit → ProgM μ E R β} {post : β → Conf μ σ → Prop}
    (hf : Ensures h { c with mem := g c.mem } (f ⟨⟩) post) :
    Ensures h c (modify g >>= f) post := fun a c' he => hf a c' he

theorem modify {g : μ → μ} {post : PUnit → Conf μ σ → Prop} (hp : post ⟨⟩ { c with mem := g c.mem }) :
    Ensures h c (modify g) post := by
  intro a c' he
  obtain ⟨rfl, rfl⟩ := Prod.mk.inj (Option.some.inj he)
  exact hp

/-- An operation changes the device only. -/
theorem perform {e : E} {p : R e → Conf μ σ → Prop} (hp : ∀ r d, h e c.dev = some (r, d) → p r ⟨c.mem, d⟩) :
    Ensures h c (perform e : ProgM μ E R (R e)) p := by
  intro a c' he
  rw [exec_perform, Option.map_eq_some_iff] at he
  obtain ⟨⟨r, d⟩, he', he⟩ := he
  obtain ⟨rfl, rfl⟩ := Prod.mk.inj he
  exact hp r d he'

theorem ite {p : Prop} [Decidable p] {y : ProgM μ E R α} {post : α → Conf μ σ → Prop} (hx : p → Ensures h c x post)
    (hy : ¬ p → Ensures h c y post) : Ensures h c (if p then x else y) post := by
  split
  · next hp => exact hx hp
  · next hp => exact hy hp

/-- Only the last step of a program says what it returns. -/
theorem last {post : β → Prop} (hf : ∀ a c', Ensures h c' (f a) fun b _ => post b) :
    Ensures h c (x >>= f) fun b _ => post b :=
  bind (q := fun _ _ => True) (fun _ _ _ => trivial) fun a c' _ => hf a c'

/-- What comes back at all, comes back with what is ensured. -/
theorem of_returns {post : α → Conf μ σ → Prop} (hx : Returns h c x post) : Ensures h c x post := by
  obtain ⟨a, c', he, hp⟩ := hx
  intro b d he'
  obtain ⟨rfl, rfl⟩ := Prod.mk.inj (Option.some.inj (he.symm.trans he'))
  exact hp

end Ensures

/-! ### Partial correctness -/

/-- If `x` comes back from the memory `m`, it leaves a memory with `post`. -/
def Partial (m : μ) (x : ProgM μ E R α) (post : α → μ → Prop) : Prop :=
  ∀ (σ : Type) (h : Handler E R σ) (d : σ) (a : α) (c : Conf μ σ), exec h x ⟨m, d⟩ = some (a, c) → post a c.mem

namespace Partial

variable {m : μ} {x : ProgM μ E R α} {f : α → ProgM μ E R β}

theorem pure {a : α} {post : α → μ → Prop} (hp : post a m) : Partial m (pure a : ProgM μ E R α) post := by
  intro σ h d b c he
  obtain ⟨rfl, rfl⟩ := Prod.mk.inj (Option.some.inj he)
  exact hp

theorem bind {q : α → μ → Prop} {post : β → μ → Prop} (hx : Partial m x q)
    (hf : ∀ a m', q a m' → Partial m' (f a) post) : Partial m (x >>= f) post := by
  intro σ h d b c he
  rw [exec_bind, Option.bind_eq_some_iff] at he
  obtain ⟨⟨a, c'⟩, he', he⟩ := he
  exact hf a c'.mem (hx σ h d a c' he') σ h c'.dev b c he

theorem mono {post post' : α → μ → Prop} (hx : Partial m x post) (hp : ∀ a m', post a m' → post' a m') :
    Partial m x post' := fun σ h d a c he => hp a c.mem (hx σ h d a c he)

theorem and {post post' : α → μ → Prop} (hx : Partial m x post) (hx' : Partial m x post') :
    Partial m x fun a m' => post a m' ∧ post' a m' := fun σ h d a c he => ⟨hx σ h d a c he, hx' σ h d a c he⟩

/-- A condition on the memory before. -/
theorem given {p : Prop} {post : α → μ → Prop} (hx : p → Partial m x post) : Partial m x fun a m' => p → post a m' :=
  fun σ h d a c he hp => hx hp σ h d a c he

theorem stop {post : α → μ → Prop} : Partial m (stop : ProgM μ E R α) post := by
  intro σ h d a c he
  cases he

theorem get_bind {f : μ → ProgM μ E R β} {post : β → μ → Prop} (hf : Partial m (f m) post) :
    Partial m (get >>= f) post := by
  intro σ h d b c he
  exact hf σ h d b c he

theorem modify_bind {g : μ → μ} {f : PUnit → ProgM μ E R β} {post : β → μ → Prop} (hf : Partial (g m) (f ⟨⟩) post) :
    Partial m (modify g >>= f) post := by
  intro σ h d b c he
  exact hf σ h d b c he

theorem modify {g : μ → μ} {post : PUnit → μ → Prop} (hp : post ⟨⟩ (g m)) :
    Partial m (modify g : ProgM μ E R PUnit) post := by
  intro σ h d a c he
  obtain ⟨rfl, rfl⟩ := Prod.mk.inj (Option.some.inj he)
  exact hp

/-- An operation leaves the memory alone. -/
theorem perform {e : E} {post : R e → μ → Prop} (hp : ∀ r, post r m) :
    Partial m (perform e : ProgM μ E R (R e)) post := by
  intro σ h d a c he
  rw [exec_perform, Option.map_eq_some_iff] at he
  obtain ⟨r, -, he⟩ := he
  obtain ⟨rfl, rfl⟩ := Prod.mk.inj he
  exact hp r.1

theorem perform_bind {e : E} {f : R e → ProgM μ E R β} {post : β → μ → Prop} (hf : ∀ r, Partial m (f r) post) :
    Partial m (ProgM.perform e >>= f) post :=
  bind (q := fun _ m' => m' = m) (perform fun _ => rfl) fun r m' hm => by
    subst hm
    exact hf r

theorem ite {p : Prop} [Decidable p] {y : ProgM μ E R α} {post : α → μ → Prop} (hx : p → Partial m x post)
    (hy : ¬ p → Partial m y post) : Partial m (if p then x else y) post := by
  split
  · next hp => exact hx hp
  · next hp => exact hy hp

/-- Partial correctness over all handlers gives it over each. -/
theorem ensures {h : Handler E R σ} {c : Conf μ σ} {post : α → μ → Prop} (hx : Partial c.mem x post) :
    Ensures h c x fun a c' => post a c'.mem := fun a c' he => hx σ h c.dev a c' he

end Partial

/-- Whatever the operations do, `x` takes the memory along `r`. -/
def Keeps (r : μ → μ → Prop) (x : ProgM μ E R α) : Prop := ∀ m, Partial m x fun _ m' => r m m'

namespace Keeps

variable {r r' : μ → μ → Prop} {x : ProgM μ E R α} {f : α → ProgM μ E R β}

theorem mono (hx : Keeps r x) (hr : ∀ m m', r m m' → r' m m') : Keeps r' x := fun m => (hx m).mono fun _ => hr m

theorem pure [Std.Refl r] (a : α) : Keeps r (pure a : ProgM μ E R α) := fun m => Partial.pure (Std.Refl.refl m)

theorem stop : Keeps r (stop : ProgM μ E R α) := fun _ => Partial.stop

theorem bind [IsTrans μ r] (hx : Keeps r x) (hf : ∀ a, Keeps r (f a)) : Keeps r (x >>= f) := fun m =>
  (hx m).bind fun a m' h => (hf a m').mono fun _ m'' h' => IsTrans.trans m m' m'' h h'

theorem get_bind {f : μ → ProgM μ E R β} (hf : ∀ m, Partial m (f m) fun _ m' => r m m') : Keeps r (get >>= f) :=
  fun m => Partial.get_bind (hf m)

/-- What the program reads does not matter. -/
theorem read {f : μ → ProgM μ E R β} (hf : ∀ s, Keeps r (f s)) : Keeps r (get >>= f) := get_bind fun m => hf m m

theorem modify {g : μ → μ} (hg : ∀ m, r m (g m)) : Keeps r (modify g : ProgM μ E R PUnit) :=
  fun m => Partial.modify (hg m)

theorem perform [Std.Refl r] (e : E) : Keeps r (perform e : ProgM μ E R (R e)) :=
  fun m => Partial.perform fun _ => Std.Refl.refl m

theorem ite {p : Prop} [Decidable p] {y : ProgM μ E R α} (hx : Keeps r x) (hy : Keeps r y) :
    Keeps r (if p then x else y) := by
  split
  · exact hx
  · exact hy

end Keeps

/-! ### Invariants over one handler -/

/-- If `x` comes back from a state with `P`, then in a state with `P`. -/
def Stable (h : Handler E R σ) (P : Conf μ σ → Prop) (x : ProgM μ E R α) : Prop :=
  ∀ c, P c → Ensures h c x fun _ c' => P c'

namespace Stable

variable {h : Handler E R σ} {P : Conf μ σ → Prop} {x : ProgM μ E R α} {f : α → ProgM μ E R β}

theorem pure (a : α) : Stable h P (pure a : ProgM μ E R α) := fun _ hc => Ensures.pure hc

theorem stop : Stable h P (stop : ProgM μ E R α) := fun _ _ => Ensures.stop

theorem bind (hx : Stable h P x) (hf : ∀ a, Stable h P (f a)) : Stable h P (x >>= f) :=
  fun c hc => (hx c hc).bind fun a c' hc' => hf a c' hc'

theorem read {f : μ → ProgM μ E R β} (hf : ∀ s, Stable h P (f s)) : Stable h P (get >>= f) :=
  fun c hc => Ensures.get_bind (hf c.mem c hc)

theorem modify {g : μ → μ} (hg : ∀ c, P c → P { c with mem := g c.mem }) : Stable h P (modify g : ProgM μ E R PUnit) :=
  fun c hc => Ensures.modify (hg c hc)

theorem ite {p : Prop} [Decidable p] {y : ProgM μ E R α} (hx : Stable h P x) (hy : Stable h P y) :
    Stable h P (if p then x else y) := by
  split
  · exact hx
  · exact hy

end Stable

/-! ### What is seen of a state -/

/-- From every state that is seen as `w`, `x` comes back; `post` describes the result and what is seen then. -/
def Shows {W : Type} (h : Handler E R σ) (view : Conf μ σ → W)
    (w : W) (x : ProgM μ E R α) (post : α → W → Prop) : Prop :=
  ∀ c, view c = w → Returns h c x fun a c' => post a (view c')

namespace Shows

variable {W : Type} {h : Handler E R σ} {view : Conf μ σ → W} {w w' : W} {x : ProgM μ E R α} {f : α → ProgM μ E R β}

theorem pure {a : α} {post : α → W → Prop} (hp : post a w) : Shows h view w (pure a) post := by
  rintro c rfl
  exact Returns.pure hp

theorem bind {q : α → W → Prop} {post : β → W → Prop} (hx : Shows h view w x q)
    (hf : ∀ a w', q a w' → Shows h view w' (f a) post) : Shows h view w (x >>= f) post := by
  intro c hc
  exact (hx c hc).bind fun a c' hq => hf a _ hq c' rfl

/-- After a step whose result is known. -/
theorem seq {a : α} {post : β → W → Prop} (hx : Shows h view w x fun b w'' => b = a ∧ w'' = w')
    (hf : Shows h view w' (f a) post) : Shows h view w (x >>= f) post := by
  refine hx.bind ?_
  rintro b w'' ⟨rfl, rfl⟩
  exact hf

theorem mono {post post' : α → W → Prop} (hx : Shows h view w x post) (hp : ∀ a w', post a w' → post' a w') :
    Shows h view w x post' := fun c hc => (hx c hc).mono fun a _ => hp a _

/-- What is seen after a run. -/
theorem of_exec {post : α → W → Prop} {c c' : Conf μ σ} {a : α} (hx : Shows h view w x post) (hc : view c = w)
    (he : exec h x c = some (a, c')) : post a (view c') := by
  obtain ⟨b, d, he', hp⟩ := hx c hc
  rw [he] at he'
  obtain ⟨rfl, rfl⟩ := Prod.mk.inj (Option.some.inj he')
  exact hp

end Shows

/-- From every state that is seen as `w`, `post` holds of what comes of `x`, if only that it does not come back. -/
def Yields {W : Type} (h : Handler E R σ) (view : Conf μ σ → W) (w : W) (x : ProgM μ E R α)
    (post : Option (α × Conf μ σ) → Prop) : Prop := ∀ c, view c = w → post (exec h x c)

namespace Yields

variable {W : Type} {h : Handler E R σ} {view : Conf μ σ → W} {w w' : W} {x : ProgM μ E R α} {f : α → ProgM μ E R β}
  {post : Option (β × Conf μ σ) → Prop}

theorem bind {q : α → W → Prop} (hx : Shows h view w x q) (hf : ∀ a w', q a w' → Yields h view w' (f a) post) :
    Yields h view w (x >>= f) post := by
  intro c hc
  obtain ⟨a, c', he, hq⟩ := hx c hc
  rw [exec_bind, he, Option.bind_some]
  exact hf a _ hq c' rfl

/-- After a step whose result is known. -/
theorem seq {a : α} (hx : Shows h view w x fun b w'' => b = a ∧ w'' = w') (hf : Yields h view w' (f a) post) :
    Yields h view w (x >>= f) post := by
  refine bind hx ?_
  rintro b w'' ⟨rfl, rfl⟩
  exact hf

/-- Memory is read of which no more is known than what is seen. -/
theorem read {f : μ → ProgM μ E R β} (hf : ∀ m, Yields h view w (f m) post) : Yields h view w (get >>= f) post := by
  intro c hc
  rw [exec_bind, exec_get, Option.bind_some]
  exact hf c.mem c hc

/-- Two steps taken together. -/
theorem assoc {g : β → ProgM μ E R γ} {post : Option (γ × Conf μ σ) → Prop}
    (hx : Yields h view w ((x >>= f) >>= g) post) :
    Yields h view w (x >>= fun a => f a >>= g) post := by
  intro c hc
  simpa only [exec_bind, Option.bind_assoc] using hx c hc

end Yields

end OsLab.Lib.ProgM
