import Mathlib.Logic.Relation
import Xtrx.Lib.Machine

/-!
# Programs of atomic calls under an environment

A program (`Prog`) is a tree of calls: it returns, or makes one call and goes on with the answer.
A world (`World`) says what a call does to the shared state, atomically, and what the environment
may do between two calls. A configuration is a program and a state; its runs are the runs of a
`Machine` whose events are environment steps and calls of the program, so a run is one
interleaving.

* `World.WP`: the weakest precondition of a program under interference. `I` holds in every state
  that the run reaches, `G` of every call of the program (the guarantee), `R` of the result. The
  environment may do any number of steps (`World.Rely`) before each call and after the return.
* `World.Stable`: an invariant that the environment keeps, and how far it moves the state;
  `Stable.call` and `Stable.ret` are the rules of a call and of a return.
* `WP.run`: a configuration with `WP` keeps it along every run. `WP.inv`, `WP.ret_post` read the
  invariant and the post-condition off; `WP.guarantee` is the guarantee of one call.
* `WP.bind`, `WP.foldlM`: sequencing, and a client that makes a list of calls one after the other.
* `Prog.Returns`: what holds of the result whatever the calls answer; no world is needed for it.
* `World.guard`: the same world for the runs whose steps meet a condition (`World.Meets`).
  `WP.along_iff` is the rule for a condition on the environment that decides a property of steps.
-/

namespace Conc

/-- A program of atomic calls `q : Q`, each with an answer in `A q`. -/
inductive Prog (Q : Type) (A : Q → Type) (α : Type) : Type where
  | ret (a : α)
  | call (q : Q) (k : A q → Prog Q A α)

namespace Prog

variable {Q : Type} {A : Q → Type} {α β γ : Type}

def bind : Prog Q A α → (α → Prog Q A β) → Prog Q A β
  | .ret a, f => f a
  | .call q k, f => .call q fun r => bind (k r) f

instance : Monad (Prog Q A) where
  pure := .ret
  bind := bind

/-- The program that makes one call and returns its answer. -/
def req (q : Q) : Prog Q A (A q) := .call q .ret

@[simp] theorem pure_eq (a : α) : (pure a : Prog Q A α) = .ret a := rfl

@[simp] theorem ret_bind (a : α) (f : α → Prog Q A β) : (Prog.ret a >>= f) = f a := rfl

@[simp] theorem call_bind (q : Q) (k : A q → Prog Q A α) (f : α → Prog Q A β) :
    (Prog.call q k >>= f) = .call q fun r => k r >>= f := rfl

theorem bind_assoc' (p : Prog Q A α) (f : α → Prog Q A β) (g : β → Prog Q A γ) :
    (p >>= f) >>= g = p >>= fun a => f a >>= g := by
  induction p with
  | ret a => rfl
  | call q k ih =>
    simp only [call_bind]
    congr 1
    funext r
    exact ih r

theorem bind_ret (p : Prog Q A α) : p >>= Prog.ret = p := by
  induction p with
  | ret a => rfl
  | call q k ih =>
    simp only [call_bind]
    congr 1
    funext r
    exact ih r

instance : LawfulMonad (Prog Q A) :=
  LawfulMonad.mk' _ bind_ret (fun _ _ => rfl) bind_assoc'

/-- `R` holds of every result of the program, whatever the answers to its calls are. -/
def Returns (R : α → Prop) : Prog Q A α → Prop
  | .ret a => R a
  | .call _ k => ∀ r, Returns R (k r)

theorem Returns.mono {R R' : α → Prop} {p : Prog Q A α} (hR : ∀ a, R a → R' a)
    (h : p.Returns R) : p.Returns R' := by
  induction p with
  | ret a => exact hR a h
  | call q k ih => exact fun r => ih r (h r)

theorem Returns.of_forall {R : α → Prop} (h : ∀ a, R a) (p : Prog Q A α) : p.Returns R := by
  induction p with
  | ret a => exact h a
  | call q k ih => exact fun r => ih r

theorem Returns.bind {S : β → Prop} {p : Prog Q A α} {f : α → Prog Q A β}
    (h : p.Returns fun a => (f a).Returns S) : (p >>= f).Returns S := by
  induction p with
  | ret a => exact h
  | call q k ih => exact fun r => ih r (h r)

/-- Every call that the program may make is in `P`. -/
def Calls (P : Q → Prop) : Prog Q A α → Prop
  | .ret _ => True
  | .call q k => P q ∧ ∀ r, Calls P (k r)

theorem Calls.req {P : Q → Prop} {q : Q} {f : A q → Prog Q A β} (h : P q)
    (hf : ∀ a, (f a).Calls P) : (Prog.req q >>= f).Calls P := ⟨h, hf⟩

/-- The program with each of its calls `q` made as the call `f q` of a larger set. -/
def embed {Q' : Type} {A' : Q' → Type} (f : Q → Q') (g : ∀ q, A' (f q) → A q) :
    Prog Q A α → Prog Q' A' α
  | .ret a => .ret a
  | .call q k => .call (f q) fun r => embed f g (k (g q r))

theorem embed_bind {Q' : Type} {A' : Q' → Type} (f : Q → Q') (g : ∀ q, A' (f q) → A q)
    (p : Prog Q A α) (h : α → Prog Q A β) :
    (p >>= h).embed f g = p.embed f g >>= fun a => (h a).embed f g := by
  induction p with
  | ret a => rfl
  | call q k ih =>
    show Prog.call _ _ = Prog.call _ _
    congr 1
    funext r
    exact ih (g q r)

end Prog

/-- What calls and the environment do to the shared state. An event of the environment or a call
that is not possible in a state has no result. The choice `ω` settles what a call leaves open. -/
structure World (Q : Type) (A : Q → Type) (σ ε ω : Type) where
  env : ε → σ → Option σ
  call : (q : Q) → ω → σ → Option (A q × σ)

/-- An event of a run: a step of the environment, or the next call of the program. -/
inductive Ev (ε ω : Type) where
  | env (e : ε)
  | thr (o : ω)
  deriving DecidableEq

def Ev.choice? {ε ω : Type} : Ev ε ω → Option ω
  | .env _ => none
  | .thr o => some o

/-- The choices of the calls of a run, in order. -/
def choices {ε ω : Type} (es : List (Ev ε ω)) : List ω := es.filterMap Ev.choice?

namespace World

variable {Q : Type} {A : Q → Type} {σ ε ω α β : Type} (W : World Q A σ ε ω)

/-- One event of a configuration. -/
def step : Prog Q A α × σ → Ev ε ω → Option (Prog Q A α × σ)
  | (p, s), .env e => (W.env e s).map fun s' => (p, s')
  | (.ret _, _), .thr _ => none
  | (.call q k, s), .thr o => (W.call q o s).map fun r => (k r.1, r.2)

/-- The machine whose runs are the interleavings of a program with the environment. -/
def machine (α : Type) : Machine (Prog Q A α × σ) (Ev ε ω) := ⟨W.step⟩

/-- The result of the program `p`, if the events `es` are a whole run of it from `s`. -/
def exec (p : Prog Q A α) (es : List (Ev ε ω)) (s : σ) : Option (α × σ) :=
  match (W.machine α).run es (p, s) with
  | some (.ret a, s') => some (a, s')
  | _ => none

/-- Any number of environment steps. -/
def Rely : σ → σ → Prop := Relation.ReflTransGen fun s s' => ∃ e, W.env e s = some s'

/-- The weakest precondition of a program under interference (module doc). -/
def WP (I : σ → Prop) (G : σ → σ → Prop) (R : α → σ → Prop) : Prog Q A α → σ → Prop
  | .ret a, s => ∀ s', W.Rely s s' → I s' ∧ R a s'
  | .call q k, s => ∀ s', W.Rely s s' → I s' ∧
      ∀ o r s'', W.call q o s' = some (r, s'') → G s' s'' ∧ WP I G R (k r) s''

variable {W} {I : σ → Prop} {G : σ → σ → Prop} {R R' : α → σ → Prop} {S : β → σ → Prop}
  {p : Prog Q A α} {s s' t : σ}

theorem Rely.refl (s : σ) : W.Rely s s := Relation.ReflTransGen.refl

theorem Rely.trans (h : W.Rely s s') (h' : W.Rely s' t) : W.Rely s t :=
  Relation.ReflTransGen.trans h h'

theorem Rely.of_env {e : ε} (h : W.env e s = some s') : W.Rely s s' :=
  Relation.ReflTransGen.single ⟨e, h⟩

/-- What every environment step keeps, the environment keeps. -/
theorem Rely.keeps {J : σ → Prop} (henv : ∀ s e s', J s → W.env e s = some s' → J s')
    (h : W.Rely s s') (hs : J s) : J s' := by
  induction h with
  | refl => exact hs
  | tail _ hst ih =>
    obtain ⟨e, he⟩ := hst
    exact henv _ e _ ih he

/-! ## Rules -/

theorem WP.rely (h : W.WP I G R p s) (hr : W.Rely s s') : W.WP I G R p s' := by
  cases p with
  | ret a => exact fun t ht => h t (hr.trans ht)
  | call q k => exact fun t ht => h t (hr.trans ht)

theorem WP.inv (h : W.WP I G R p s) : I s := by
  cases p with
  | ret a => exact (h s (Rely.refl s)).1
  | call q k => exact (h s (Rely.refl s)).1

theorem WP.ret_post {a : α} (h : W.WP I G R (.ret a) s) : R a s := (h s (Rely.refl s)).2

/-- The environment keeps the invariant `J`, and moves the state only along the relation `T`. -/
structure Stable (W : World Q A σ ε ω) (J : σ → Prop) (T : σ → σ → Prop) : Prop where
  refl : ∀ s, T s s
  trans : ∀ s s' s'', T s s' → T s' s'' → T s s''
  step : ∀ s e s', J s → W.env e s = some s' → J s' ∧ T s s'

theorem Stable.rely {J : σ → Prop} {T : σ → σ → Prop} (h : W.Stable J T) (hs : J s)
    (hr : W.Rely s s') : J s' ∧ T s s' :=
  hr.keeps (J := fun t => J t ∧ T s t)
    (fun t e t' ht he => ⟨(h.step t e t' ht.1 he).1,
      h.trans s t t' ht.2 (h.step t e t' ht.1 he).2⟩) ⟨hs, h.refl s⟩

/-- A call, when the invariant holds: the rest of the program is safe after the call in every state
that the environment may have moved to. -/
theorem Stable.call {J : σ → Prop} {T : σ → σ → Prop} {q : Q} {k : A q → Prog Q A α}
    (h : W.Stable J T) (hI : ∀ s, J s → I s) (hs : J s)
    (hk : ∀ s₁ o r s₂, J s₁ → T s s₁ → W.call q o s₁ = some (r, s₂) →
      G s₁ s₂ ∧ W.WP I G R (k r) s₂) : W.WP I G R (.call q k) s := fun s₁ hr =>
  have h₁ := h.rely hs hr
  ⟨hI s₁ h₁.1, fun o r s₂ hc => hk s₁ o r s₂ h₁.1 h₁.2 hc⟩

/-- A return, when the invariant holds. -/
theorem Stable.ret {J : σ → Prop} {T : σ → σ → Prop} {a : α} (h : W.Stable J T)
    (hI : ∀ s, J s → I s) (hs : J s) (hR : ∀ s₁, J s₁ → T s s₁ → R a s₁) :
    W.WP I G R (.ret a) s := fun s₁ hr =>
  have h₁ := h.rely hs hr
  ⟨hI s₁ h₁.1, hR s₁ h₁.1 h₁.2⟩

theorem WP.mono (hR : ∀ a s, R a s → R' a s) (h : W.WP I G R p s) : W.WP I G R' p s := by
  induction p generalizing s with
  | ret a => exact fun t ht => ⟨(h t ht).1, hR a t (h t ht).2⟩
  | call q k ih =>
    exact fun t ht => ⟨(h t ht).1, fun o r s'' hc =>
      ⟨((h t ht).2 o r s'' hc).1, ih r ((h t ht).2 o r s'' hc).2⟩⟩

theorem WP.bind {f : α → Prog Q A β} (h : W.WP I G (fun a s => W.WP I G S (f a) s) p s) :
    W.WP I G S (p >>= f) s := by
  induction p generalizing s with
  | ret a => exact h.ret_post
  | call q k ih =>
    exact fun t ht => ⟨(h t ht).1, fun o r s'' hc =>
      ⟨((h t ht).2 o r s'' hc).1, ih r ((h t ht).2 o r s'' hc).2⟩⟩

theorem WP.map {g : α → β} (h : W.WP I G (fun a => S (g a)) p s) :
    W.WP I G S (p >>= fun a => .ret (g a)) s := by
  induction p generalizing s with
  | ret a => exact h
  | call q k ih =>
    exact fun t ht => ⟨(h t ht).1, fun o r s'' hc =>
      ⟨((h t ht).2 o r s'' hc).1, ih r ((h t ht).2 o r s'' hc).2⟩⟩

/-- A client that runs the program `f a x` for each `x` of a list, one after the other: the
assertion `J` between two programs holds at the end. -/
theorem WP.foldlM {κ : Type} {f : α → κ → Prog Q A α} {J : α → σ → Prop}
    (hnil : ∀ a s, J a s → W.WP I G J (.ret a) s)
    (hf : ∀ a x s, J a s → W.WP I G J (f a x) s) (xs : List κ) {a : α} (hs : J a s) :
    W.WP I G J (xs.foldlM f a) s := by
  induction xs generalizing a s with
  | nil => exact hnil a s hs
  | cons x xs ih =>
    rw [List.foldlM_cons]
    exact WP.bind ((hf a x s hs).mono fun b t hb => ih hb)

/-! ## Runs -/

/-- One event keeps `WP`, and a call of the program meets the guarantee. -/
theorem WP.step {c : Prog Q A α × σ} {e : Ev ε ω} (h : W.WP I G R p s)
    (hs : W.step (p, s) e = some c) :
    W.WP I G R c.1 c.2 ∧ ∀ o, e = .thr o → G s c.2 := by
  cases e with
  | env e =>
    obtain ⟨s', he, rfl⟩ := Option.map_eq_some_iff.mp hs
    exact ⟨h.rely (Rely.of_env he), fun o ho => by cases ho⟩
  | thr o =>
    cases p with
    | ret a => cases hs
    | call q k =>
      obtain ⟨⟨r, s''⟩, hc, rfl⟩ := Option.map_eq_some_iff.mp hs
      have := (h s (Rely.refl s)).2 o r s'' hc
      exact ⟨this.2, fun _ _ => this.1⟩

theorem WP.run {es : List (Ev ε ω)} {c c' : Prog Q A α × σ} (h : W.WP I G R c.1 c.2)
    (hr : (W.machine α).run es c = some c') : W.WP I G R c'.1 c'.2 :=
  Machine.run_inv (I := fun c : Prog Q A α × σ => W.WP I G R c.1 c.2)
    (fun _ _ _ h hs => (WP.step h hs).1) h hr

theorem WP.exec {es : List (Ev ε ω)} {a : α} (h : W.WP I G R p s)
    (hr : W.exec p es s = some (a, s')) : I s' ∧ R a s' := by
  unfold World.exec at hr
  split at hr
  · rename_i b t hrun
    cases hr
    exact ⟨(h.run hrun).inv, (h.run hrun).ret_post⟩
  · cases hr

theorem exec_iff {es : List (Ev ε ω)} {a : α} :
    W.exec p es s = some (a, s') ↔ (W.machine α).run es (p, s) = some (.ret a, s') := by
  unfold World.exec
  split
  · rename_i b t hrun
    rw [hrun]
    simp
  · rename_i hne
    constructor
    · intro h; cases h
    · intro h; exact absurd h (hne a s')

/-- A whole run of a call: environment steps, the call with its choice, a whole run of the rest. -/
theorem exec_call {q : Q} {k : A q → Prog Q A α} {es : List (Ev ε ω)} {r : α × σ}
    (h : W.exec (.call q k) es s = some r) :
    ∃ s₁ o a s₂ fs, W.Rely s s₁ ∧ W.call q o s₁ = some (a, s₂) ∧ choices es = o :: choices fs ∧
      W.exec (k a) fs s₂ = some r := by
  induction es generalizing s with
  | nil => cases h
  | cons e es ih =>
    obtain ⟨c, hc, hrun⟩ := Machine.run_cons.mp (exec_iff.mp h)
    cases e with
    | env e =>
      obtain ⟨s', he, rfl⟩ := Option.map_eq_some_iff.mp hc
      obtain ⟨s₁, o, a, s₂, fs, hr, hcall, hes, hex⟩ := ih (exec_iff.mpr hrun)
      exact ⟨s₁, o, a, s₂, fs, (Rely.of_env he).trans hr, hcall, hes, hex⟩
    | thr o =>
      obtain ⟨⟨a, s₂⟩, hcall, rfl⟩ := Option.map_eq_some_iff.mp hc
      exact ⟨s, o, a, s₂, es, Rely.refl s, hcall, rfl, exec_iff.mpr hrun⟩

/-- A whole run of a return: environment steps. -/
theorem exec_ret {a b : α} {es : List (Ev ε ω)} (h : W.exec (.ret a) es s = some (b, s')) :
    b = a ∧ W.Rely s s' := by
  induction es generalizing s with
  | nil => cases h; exact ⟨rfl, Rely.refl _⟩
  | cons e es ih =>
    obtain ⟨c, hc, hrun⟩ := Machine.run_cons.mp (exec_iff.mp h)
    cases e with
    | env e =>
      obtain ⟨t, he, rfl⟩ := Option.map_eq_some_iff.mp hc
      obtain ⟨hb, hr⟩ := ih (exec_iff.mpr hrun)
      exact ⟨hb, (Rely.of_env he).trans hr⟩
    | thr o => cases hc

theorem run_thr {q : Q} {k : A q → Prog Q A α} {o : ω} {es : List (Ev ε ω)} :
    (W.machine α).run (.thr o :: es) (.call q k, s) =
      (W.call q o s).bind fun r => (W.machine α).run es (k r.1, r.2) := by
  simp only [machine, Machine.run, step]
  cases W.call q o s with
  | none => rfl
  | some r => rfl

theorem exec_thr {q : Q} {k : A q → Prog Q A α} {o : ω} {es : List (Ev ε ω)} :
    W.exec (.call q k) (.thr o :: es) s =
      (W.call q o s).bind fun r => W.exec (k r.1) es r.2 := by
  unfold exec
  rw [run_thr]
  cases W.call q o s with
  | none => rfl
  | some r => rfl

/-- A whole run of a call without environment steps. -/
theorem exec_thr_cases {q : Q} {k : A q → Prog Q A α} {os : List ω} {r : α × σ}
    (h : W.exec (.call q k) (os.map .thr) s = some r) :
    ∃ o os' a s', os = o :: os' ∧ W.call q o s = some (a, s') ∧
      W.exec (k a) (os'.map .thr) s' = some r := by
  cases os with
  | nil => cases h
  | cons o os =>
    rw [List.map_cons, exec_thr] at h
    obtain ⟨⟨a, s'⟩, hc, hrest⟩ := Option.bind_eq_some_iff.mp h
    exact ⟨o, os, a, s', rfl, hc, hrest⟩

/-- Without environment steps a return is over. -/
theorem exec_thr_ret {a b : α} {os : List ω}
    (h : W.exec (.ret a) (os.map .thr) s = some (b, s')) : b = a ∧ s' = s := by
  cases os with
  | nil =>
    cases h
    exact ⟨rfl, rfl⟩
  | cons o os => cases h

/-- A program whose calls are all possible with the choice `o` runs to its end. -/
theorem exists_exec {P : Q → Prop} {o : ω} (hP : ∀ q s, P q → ∃ r, W.call q o s = some r)
    (h : p.Calls P) : ∃ k r, W.exec p (List.replicate k (.thr o)) s = some r := by
  induction p generalizing s with
  | ret a => exact ⟨0, (a, s), rfl⟩
  | call q k ih =>
    obtain ⟨⟨r, s'⟩, hc⟩ := hP q s h.1
    obtain ⟨m, x, hx⟩ := ih r (s := s') (h.2 r)
    exact ⟨m + 1, x, by rw [List.replicate_succ, exec_thr, hc]; exact hx⟩

theorem exec_map {g : α → β} {es : List (Ev ε ω)} :
    W.exec (p >>= fun a => .ret (g a)) es s = (W.exec p es s).map fun r => (g r.1, r.2) := by
  induction es generalizing p s with
  | nil => cases p <;> rfl
  | cons e es ih =>
    cases e with
    | env e =>
      simp only [exec, machine, Machine.run, step]
      cases W.env e s with
      | none => rfl
      | some s' => exact ih
    | thr o =>
      cases p with
      | ret a => rfl
      | call q k =>
        simp only [exec, machine, Machine.run, Prog.call_bind, step]
        cases W.call q o s with
        | none => rfl
        | some r => exact ih

/-- A whole run of a sequence is a whole run of the first program and then one of the second. -/
theorem exec_bind {f : α → Prog Q A β} {es : List (Ev ε ω)} {r : β × σ}
    (h : W.exec (p >>= f) es s = some r) :
    ∃ es₁ es₂ a s₁, es = es₁ ++ es₂ ∧ W.exec p es₁ s = some (a, s₁) ∧
      W.exec (f a) es₂ s₁ = some r := by
  induction es generalizing p s with
  | nil =>
    cases p with
    | ret a => exact ⟨[], [], a, s, rfl, rfl, h⟩
    | call q k => cases h
  | cons e es ih =>
    cases p with
    | ret a => exact ⟨[], e :: es, a, s, rfl, rfl, h⟩
    | call q k =>
      cases e with
      | env e =>
        obtain ⟨c, hc, hrun⟩ := Machine.run_cons.mp (exec_iff.mp h)
        obtain ⟨s', he, rfl⟩ := Option.map_eq_some_iff.mp hc
        obtain ⟨es₁, es₂, a, s₁, rfl, h₁, h₂⟩ := ih (p := .call q k) (exec_iff.mpr hrun)
        refine ⟨.env e :: es₁, es₂, a, s₁, rfl, exec_iff.mpr ?_, h₂⟩
        refine Machine.run_cons.mpr ⟨_, ?_, exec_iff.mp h₁⟩
        show (W.env e s).map _ = _
        rw [he]
        rfl
      | thr o =>
        rw [Prog.call_bind, exec_thr] at h
        obtain ⟨⟨a, s'⟩, hc, hrest⟩ := Option.bind_eq_some_iff.mp h
        obtain ⟨es₁, es₂, b, s₁, rfl, h₁, h₂⟩ := ih hrest
        refine ⟨.thr o :: es₁, es₂, b, s₁, rfl, ?_, h₂⟩
        rw [exec_thr, hc]
        exact h₁

/-- A result of a run is one of the program's. -/
theorem returns_run {R : α → Prop} {es : List (Ev ε ω)}
    {c c' : Prog Q A α × σ} (h : c.1.Returns R) (hr : (W.machine α).run es c = some c') :
    c'.1.Returns R := by
  refine Machine.run_inv (I := fun c : Prog Q A α × σ => c.1.Returns R) ?_ h hr
  rintro ⟨p, s⟩ e c₁ hp hs
  cases e with
  | env e =>
    obtain ⟨s', -, rfl⟩ := Option.map_eq_some_iff.mp hs
    exact hp
  | thr o =>
    cases p with
    | ret a => cases hs
    | call q k =>
      obtain ⟨r, -, rfl⟩ := Option.map_eq_some_iff.mp hs
      exact hp r.1

theorem exec_returns {R : α → Prop} {es : List (Ev ε ω)} {a : α} (h : p.Returns R)
    (hr : W.exec p es s = some (a, s')) : R a :=
  returns_run (c := (p, s)) h (exec_iff.mp hr)

/-! ## Runs that meet a condition -/

/-- The condition `ce` on environment steps and `cc` on calls, as a condition on the events of a
configuration. -/
def Meets (ce : σ → ε → Prop) (cc : σ → Q → Prop) : Prog Q A α × σ → Ev ε ω → Prop
  | (_, s), .env e => ce s e
  | (.ret _, _), .thr _ => True
  | (.call q _, s), .thr _ => cc s q

instance decidableMeets (ce : σ → ε → Prop) (cc : σ → Q → Prop) [∀ s e, Decidable (ce s e)]
    [∀ s q, Decidable (cc s q)] : ∀ (c : Prog Q A α × σ) (e : Ev ε ω), Decidable (Meets ce cc c e)
  | (_, s), .env e => inferInstanceAs (Decidable (ce s e))
  | (.ret _, _), .thr _ => isTrue trivial
  | (.call q _, s), .thr _ => inferInstanceAs (Decidable (cc s q))

open Classical in
/-- The world without the steps that do not meet the conditions. -/
noncomputable def guard (W : World Q A σ ε ω) (ce : σ → ε → Prop) (cc : σ → Q → Prop) :
    World Q A σ ε ω where
  env e s := if ce s e then W.env e s else none
  call q o s := if cc s q then W.call q o s else none

variable {ce : σ → ε → Prop} {cc : σ → Q → Prop}

theorem guard_env {e : ε} :
    (W.guard ce cc).env e s = some s' ↔ ce s e ∧ W.env e s = some s' := by
  simp only [guard]
  split <;> simp_all

theorem guard_call {q : Q} {o : ω} {x : A q × σ} :
    (W.guard ce cc).call q o s = some x ↔ cc s q ∧ W.call q o s = some x := by
  simp only [guard]
  split <;> simp_all

/-- A step that meets the conditions is a step of the guarded world. -/
theorem guard_step {c c' : Prog Q A α × σ} {e : Ev ε ω} (hm : Meets ce cc c e)
    (hs : W.step c e = some c') : (W.guard ce cc).step c e = some c' := by
  obtain ⟨p, s⟩ := c
  cases e with
  | env e =>
    obtain ⟨s', he, rfl⟩ := Option.map_eq_some_iff.mp hs
    exact Option.map_eq_some_iff.mpr ⟨s', guard_env.mpr ⟨hm, he⟩, rfl⟩
  | thr o =>
    cases p with
    | ret a => cases hs
    | call q k =>
      obtain ⟨x, hc, rfl⟩ := Option.map_eq_some_iff.mp hs
      exact Option.map_eq_some_iff.mpr ⟨x, guard_call.mpr ⟨hm, hc⟩, rfl⟩

/-- A run whose steps meet the conditions keeps the `WP` of the guarded world. -/
theorem WP.run_along {es : List (Ev ε ω)} {c c' : Prog Q A α × σ}
    (h : (W.guard ce cc).WP I G R c.1 c.2) (ha : (W.machine α).Along (Meets ce cc) es c)
    (hr : (W.machine α).run es c = some c') : (W.guard ce cc).WP I G R c'.1 c'.2 :=
  Machine.run_inv_along (I := fun c : Prog Q A α × σ => (W.guard ce cc).WP I G R c.1 c.2)
    (fun _ _ _ h hm hs => (WP.step h (guard_step hm hs)).1) h ha hr

/-- All states of such a run meet the invariant. -/
theorem WP.always {es : List (Ev ε ω)} {c : Prog Q A α × σ}
    (h : (W.guard ce cc).WP I G R c.1 c.2) (ha : (W.machine α).Along (Meets ce cc) es c) :
    (W.machine α).Always (fun c => I c.2) es c :=
  Machine.always_of_along (I := fun c : Prog Q A α × σ => (W.guard ce cc).WP I G R c.1 c.2)
    (fun _ _ _ h hm hs => (WP.step h (guard_step hm hs)).1) (fun _ h => h.inv) h ha

/-- A whole run of this kind meets the post-condition. -/
theorem WP.exec_along {es : List (Ev ε ω)} {a : α} (h : (W.guard ce cc).WP I G R p s)
    (ha : (W.machine α).Along (Meets ce cc) es (p, s)) (hr : W.exec p es s = some (a, s')) :
    R a s' :=
  (WP.run_along (c := (p, s)) h ha (exec_iff.mp hr)).ret_post

/-- A relation between the states before and after a step, which calls meet by their guarantee and
environment steps exactly under the condition `ce`: it holds along a run exactly if the environment
meets the condition. -/
theorem WP.along_iff {es : List (Ev ε ω)} {c : Prog Q A α × σ} {D : σ → σ → Prop}
    (h : (W.guard ce fun _ _ => True).WP I G R c.1 c.2) (hG : ∀ s s', I s → G s s' → D s s')
    (henv : ∀ s e s', I s → W.env e s = some s' → (D s s' ↔ ce s e)) :
    (W.machine α).Along (fun c e => ∀ c', W.step c e = some c' → D c.2 c'.2) es c ↔
      (W.machine α).Along (Meets ce fun _ _ => True) es c := by
  refine Machine.along_iff
    (I := fun c : Prog Q A α × σ => (W.guard ce fun _ _ => True).WP I G R c.1 c.2) ?_ ?_ h
  · exact fun c e c' hc hm hs => (WP.step hc (guard_step hm hs)).1
  · rintro ⟨p, s⟩ e c' hc hs
    cases e with
    | env e =>
      obtain ⟨s', he, rfl⟩ := Option.map_eq_some_iff.mp hs
      refine ⟨fun hd => (henv s e s' hc.inv he).mp (hd _ hs), fun hm c₂ hs₂ => ?_⟩
      obtain ⟨s₂, he₂, rfl⟩ := Option.map_eq_some_iff.mp hs₂
      exact (henv s e s₂ hc.inv he₂).mpr hm
    | thr o =>
      have hm : Meets (ω := ω) ce (fun _ _ => True) (p, s) (.thr o) := by
        cases p <;> trivial
      refine ⟨fun _ => hm, fun _ c₂ hs₂ => ?_⟩
      exact hG s c₂.2 hc.inv ((WP.step hc (guard_step hm hs₂)).2 o rfl)

end World

end Conc
