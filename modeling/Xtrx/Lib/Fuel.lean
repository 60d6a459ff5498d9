import Mathlib.Data.List.Basic

/-!
# Programs with loops

A program (`Fueled`) is a function on a state. Its loops (`Fueled.loop`) turn at most `fuel` times;
a run that needs more has no result, as one that aborts has none.

* `Yields m s a s'`: with enough fuel, `m` ends from `s` in `s'` with the result `a`. A program
  yields at most one result (`Yields.unique`).
* `Yields.act`, `Yields.pure`, `Yields.bind`: the rules of sequences; `Yields.of_bind` takes a
  sequence apart.
* `LoopYields`: the same for a loop; `LoopYields.stop`, `LoopYields.again` are the rules of its
  last and its other turns. A proof about a loop is an induction over its turns with these.
* `Ensures m s Q`: whatever the fuel, if `m` ends from `s`, it ends with `Q`. `Ensures.loop` is the
  rule of a loop with an invariant.
-/

namespace Conc

/-- A program on the state `σ`, under a bound on the turns of each loop. -/
abbrev Fueled (σ α : Type) : Type := ReaderT Nat (StateT σ Option) α

namespace Fueled

variable {σ α β γ : Type}

/-- One step that always ends. -/
def act (f : σ → α × σ) : Fueled σ α := fun _ s => some (f s)

/-- The program that has no result: the process ends. -/
def abort : Fueled σ α := fun _ _ => none

/-- At most `n` turns of a loop: a turn goes on with a new value or leaves with a result. -/
def iterate (body : β → Fueled σ (β ⊕ γ)) : Nat → β → Fueled σ γ
  | 0, _ => abort
  | n + 1, x => do
    match ← body x with
    | .inl x' => iterate body n x'
    | .inr y => pure y

/-- A loop, with the fuel as the bound on its turns. -/
def loop (body : β → Fueled σ (β ⊕ γ)) (x : β) : Fueled σ γ := fun fuel =>
  iterate body fuel x fuel

/-- With enough fuel the program ends. -/
def Yields (m : Fueled σ α) (s : σ) (a : α) (s' : σ) : Prop :=
  ∃ f₀, ∀ fuel, f₀ ≤ fuel → m fuel s = some (a, s')

variable {m : Fueled σ α} {f : α → Fueled σ β} {s s' s'' : σ} {a a' : α} {b : β}

theorem Yields.unique (h : Yields m s a s') (h' : Yields m s a' s'') : a = a' ∧ s' = s'' := by
  obtain ⟨f₁, h₁⟩ := h
  obtain ⟨f₂, h₂⟩ := h'
  have he := (h₁ (max f₁ f₂) (by omega)).symm.trans (h₂ (max f₁ f₂) (by omega))
  simpa using he

theorem Yields.act (g : σ → α × σ) (s : σ) : Yields (act g) s (g s).1 (g s).2 :=
  ⟨0, fun _ _ => rfl⟩

theorem Yields.pure (a : α) (s : σ) : Yields (pure a : Fueled σ α) s a s := ⟨0, fun _ _ => rfl⟩

theorem bind_run (m : Fueled σ α) (f : α → Fueled σ β) (fuel : Nat) (s : σ) :
    (m >>= f) fuel s = (m fuel s).bind fun r => f r.1 fuel r.2 := by
  show (do let r ← m fuel s; f r.1 fuel r.2 : Option (β × σ)) = _
  cases m fuel s <;> rfl

theorem Yields.bind (h : Yields m s a s') (h' : Yields (f a) s' b s'') :
    Yields (m >>= f) s b s'' := by
  obtain ⟨f₁, h₁⟩ := h
  obtain ⟨f₂, h₂⟩ := h'
  refine ⟨max f₁ f₂, fun fuel hf => ?_⟩
  rw [bind_run, h₁ fuel (by omega)]
  exact h₂ fuel (by omega)

/-- After the result of the first part, the rest. -/
theorem Yields.of_bind (h : Yields m s a s') (h' : Yields (m >>= f) s b s'') :
    Yields (f a) s' b s'' := by
  obtain ⟨f₁, h₁⟩ := h
  obtain ⟨f₂, h₂⟩ := h'
  refine ⟨max f₁ f₂, fun fuel hf => ?_⟩
  have := h₂ fuel (by omega)
  rwa [bind_run, h₁ fuel (by omega)] at this

theorem not_yields_abort : ¬ Yields (abort : Fueled σ α) s a s' := by
  rintro ⟨f₀, h⟩
  cases h f₀ (Nat.le_refl f₀)

/-! ## Loops -/

/-- With enough turns and enough fuel the loop ends. -/
def LoopYields (body : β → Fueled σ (β ⊕ γ)) (x : β) (s : σ) (y : γ) (s' : σ) : Prop :=
  ∃ n₀ f₀, ∀ n fuel, n₀ ≤ n → f₀ ≤ fuel → iterate body n x fuel s = some (y, s')

variable {body : β → Fueled σ (β ⊕ γ)} {x x' : β} {y : γ}

/-- The last turn. -/
theorem LoopYields.stop (h : Yields (body x) s (.inr y) s') : LoopYields body x s y s' := by
  obtain ⟨f₀, h⟩ := h
  refine ⟨1, f₀, fun n fuel hn hf => ?_⟩
  obtain ⟨n, rfl⟩ : ∃ k, n = k + 1 := ⟨n - 1, by omega⟩
  rw [iterate, bind_run, h fuel hf]
  rfl

/-- A turn that goes on. -/
theorem LoopYields.again (h : Yields (body x) s (.inl x') s') (h' : LoopYields body x' s' y s'') :
    LoopYields body x s y s'' := by
  obtain ⟨f₁, h₁⟩ := h
  obtain ⟨n₀, f₂, h₂⟩ := h'
  refine ⟨n₀ + 1, max f₁ f₂, fun n fuel hn hf => ?_⟩
  obtain ⟨n, rfl⟩ : ∃ k, n = k + 1 := ⟨n - 1, by omega⟩
  rw [iterate, bind_run, h₁ fuel (by omega)]
  exact h₂ n fuel (by omega) (by omega)

theorem LoopYields.yields (h : LoopYields body x s y s') : Yields (loop body x) s y s' := by
  obtain ⟨n₀, f₀, h⟩ := h
  exact ⟨max n₀ f₀, fun fuel hf => h fuel fuel (by omega) (by omega)⟩

/-! ## Partial correctness -/

/-- A run that ends, ends with `Q`. -/
def Ensures (m : Fueled σ α) (s : σ) (Q : α → σ → Prop) : Prop :=
  ∀ fuel a s', m fuel s = some (a, s') → Q a s'

variable {Q : α → σ → Prop} {R : β → σ → Prop}

theorem Ensures.mono {Q' : α → σ → Prop} (h : Ensures m s Q) (hQ : ∀ a s', Q a s' → Q' a s') :
    Ensures m s Q' := fun fuel a s' hr => hQ a s' (h fuel a s' hr)

theorem Ensures.act (g : σ → α × σ) (s : σ) : Ensures (act g) s fun a s' => (a, s') = g s :=
  fun _ _ _ h => (Option.some.inj h).symm

theorem Ensures.pure (a : α) (s : σ) : Ensures (pure a : Fueled σ α) s fun a' s' => a' = a ∧ s' = s := by
  intro fuel a' s' h
  obtain ⟨rfl, rfl⟩ := Prod.mk.inj (Option.some.inj h)
  exact ⟨rfl, rfl⟩

theorem Ensures.bind (h : Ensures m s Q) (hf : ∀ a s', Q a s' → Ensures (f a) s' R) :
    Ensures (m >>= f) s R := by
  intro fuel b s'' hr
  rw [bind_run] at hr
  obtain ⟨⟨a, s'⟩, hm, hrest⟩ := Option.bind_eq_some_iff.mp hr
  exact hf a s' (h fuel a s' hm) fuel b s'' hrest

/-- A loop whose turns keep `I` and leave with `J`. -/
theorem Ensures.loop {I : β → σ → Prop} {J : γ → σ → Prop}
    (hbody : ∀ x s, I x s → Ensures (body x) s fun r s' => Sum.elim (I · s') (J · s') r)
    (hI : I x s) : Ensures (loop body x) s J := by
  intro fuel y s' hr
  have hturns : ∀ n x s, I x s → iterate body n x fuel s = some (y, s') → J y s' := by
    intro n
    induction n with
    | zero =>
      intro x s _ hr
      cases hr
    | succ n ih =>
      intro x s hI hr
      rw [iterate, bind_run] at hr
      obtain ⟨⟨r, t⟩, hturn, hrest⟩ := Option.bind_eq_some_iff.mp hr
      have h := hbody x s hI fuel r t hturn
      cases r with
      | inl x' => exact ih x' t h hrest
      | inr y' =>
        obtain ⟨rfl, rfl⟩ := Prod.mk.inj (Option.some.inj hrest)
        exact h
  exact hturns fuel x s hI hr

theorem Yields.ensures (h : Yields m s a s') (hQ : Ensures m s Q) : Q a s' := by
  obtain ⟨f₀, h⟩ := h
  exact hQ f₀ a s' (h f₀ (Nat.le_refl f₀))

end Fueled

end Conc
