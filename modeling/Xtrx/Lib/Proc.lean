import Xtrx.Lib.Prog

/-!
# Processes

A process is a program of atomic calls with a state of its own, which no other party sees or
changes: the variables of the running code. It ends normally, or abnormally with a value of `E`
(an exception, a failed assertion); its state stays as it is at that moment.

* `Proc`: the monad, with `get`, `modify`, `halt`, `sys` (one call), `attempt` (a handler).
* `World.session`: a client that runs one process after the other, as a machine; `ProcWP.session`
  is the rule of a step.
* `Proc.Returns`: what holds at every normal end, whatever the calls answer. `Proc.Ends` says
  something of the abnormal ends too; `World.session_ends` is its rule for the runs of a session.
* `World.ProcWP`: the weakest precondition of a process, with one post-condition for each way to
  end; `ProcWP.bind` is the rule of sequencing.
-/

namespace Conc

variable {Q : Type} {A : Q → Type} {S E α β : Type}

/-- A process with the state `S` and the abnormal ends `E`. -/
def Proc (Q : Type) (A : Q → Type) (S E α : Type) : Type := S → Prog Q A (Except E α × S)

namespace Proc

/-- What a process does after the end `r`. -/
def next (f : α → Proc Q A S E β) : Except E α × S → Prog Q A (Except E β × S)
  | (.ok a, x) => f a x
  | (.error e, x) => .ret (.error e, x)

instance : Monad (Proc Q A S E) where
  pure a := fun x => .ret (.ok a, x)
  bind m f := fun x => m x >>= next f

theorem bind_assoc' {γ : Type} (m : Proc Q A S E α) (f : α → Proc Q A S E β)
    (g : β → Proc Q A S E γ) : (m >>= f) >>= g = m >>= fun a => f a >>= g := by
  funext x
  show (m x >>= next f) >>= next g = m x >>= next fun a => f a >>= g
  rw [Prog.bind_assoc']
  congr 1
  funext r
  obtain ⟨e | a, x⟩ := r <;> rfl

theorem bind_pure' (m : Proc Q A S E α) : m >>= pure = m := by
  funext x
  show m x >>= next pure = m x
  have hret : (next pure : Except E α × S → Prog Q A (Except E α × S)) = .ret := by
    funext r
    obtain ⟨e | a, x⟩ := r <;> rfl
  rw [hret, Prog.bind_ret]

instance : LawfulMonad (Proc Q A S E) :=
  LawfulMonad.mk' _ bind_pure' (fun _ _ => rfl) bind_assoc'

/-- The state of the process. -/
def get : Proc Q A S E S := fun x => .ret (.ok x, x)

def modify (f : S → S) : Proc Q A S E Unit := fun x => .ret (.ok (), f x)

/-- The abnormal end `e`. -/
def halt (e : E) : Proc Q A S E α := fun x => .ret (.error e, x)

/-- One call. -/
def sys (q : Q) : Proc Q A S E (A q) := fun x => .call q fun r => .ret (.ok r, x)

/-- A process that goes on after each end of `m`. -/
def attempt (m : Proc Q A S E α) : Proc Q A S E (Except E α) := fun x =>
  m x >>= fun r => .ret (.ok r.1, r.2)

/-- A process without its value. -/
def void (m : Proc Q A S E α) : Proc Q A S E Unit := fun x =>
  m x >>= fun r => .ret (r.1.map fun _ => (), r.2)

theorem bind_apply (m : Proc Q A S E α) (f : α → Proc Q A S E β) (x : S) :
    (m >>= f) x = m x >>= next f := rfl

@[simp] theorem get_bind (f : S → Proc Q A S E β) (x : S) : (get >>= f) x = f x x := rfl

@[simp] theorem modify_bind (g : S → S) (f : Unit → Proc Q A S E β) (x : S) :
    (modify g >>= f) x = f () (g x) := rfl

@[simp] theorem sys_bind (q : Q) (f : A q → Proc Q A S E β) (x : S) :
    (sys q >>= f) x = .call q fun r => f r x := rfl

theorem ite_bind_apply (c : Prop) [Decidable c] (m m' : Proc Q A S E α) (f : α → Proc Q A S E β)
    (x : S) : ((if c then m else m') >>= f) x = if c then (m >>= f) x else (m' >>= f) x := by
  split <;> rfl

@[simp] theorem attempt_bind (m : Proc Q A S E α) (f : Except E α → Proc Q A S E β) (x : S) :
    (attempt m >>= f) x = m x >>= fun r => f r.1 r.2 := by
  show (m x >>= fun r => Prog.ret (.ok r.1, r.2)) >>= next f = _
  rw [Prog.bind_assoc']
  rfl

/-- `R` holds of the value and the state of every normal end, whatever the calls answer. -/
def Returns (R : α → S → Prop) (m : Proc Q A S E α) (x : S) : Prop :=
  (m x).Returns fun r => ∀ a, r.1 = .ok a → R a r.2

variable {R R' : α → S → Prop} {x : S}

theorem Returns.mono {m : Proc Q A S E α} (hR : ∀ a x, R a x → R' a x) (h : Returns R m x) :
    Returns R' m x :=
  Prog.Returns.mono (fun r hr a ha => hR a r.2 (hr a ha)) h

theorem Returns.of_forall (h : ∀ a x, R a x) (m : Proc Q A S E α) (x : S) : Returns R m x := by
  refine Prog.Returns.of_forall ?_ (m x)
  intro r a ha
  exact h a r.2

theorem Returns.bind {R : β → S → Prop} {m : Proc Q A S E α} {f : α → Proc Q A S E β}
    (h : Returns (fun a x => Returns R (f a) x) m x) : Returns R (m >>= f) x := by
  refine Prog.Returns.bind (Prog.Returns.mono ?_ h)
  rintro ⟨e | a, x'⟩ hr
  · intro a ha
    cases ha
  · exact hr a rfl

theorem Returns.pure {a : α} (h : R a x) : Returns R (pure a : Proc Q A S E α) x := by
  intro b hb
  cases hb
  exact h

theorem Returns.halt (e : E) : Returns R (halt e : Proc Q A S E α) x := by
  intro b hb
  cases hb

theorem Returns.get {R : S → S → Prop} (h : R x x) :
    Returns R (get : Proc Q A S E S) x := by
  intro b hb
  cases hb
  exact h

theorem Returns.modify {R : Unit → S → Prop} {f : S → S} (h : R () (f x)) :
    Returns R (modify f : Proc Q A S E Unit) x := by
  intro b hb
  cases hb
  exact h

theorem Returns.sys {q : Q} {R : A q → S → Prop} (h : ∀ r, R r x) :
    Returns R (sys q : Proc Q A S E (A q)) x := by
  intro r b hb
  cases hb
  exact h r

/-- `R` holds at every normal end and `F` at every abnormal one, whatever the calls answer. -/
def Ends (R : α → S → Prop) (F : E → S → Prop) (m : Proc Q A S E α) (x : S) : Prop :=
  (m x).Returns fun
    | (.ok a, x) => R a x
    | (.error e, x) => F e x

variable {F F' : E → S → Prop}

theorem Ends.mono {m : Proc Q A S E α} (hR : ∀ a x, R a x → R' a x) (hF : ∀ e x, F e x → F' e x)
    (h : Ends R F m x) : Ends R' F' m x := by
  refine Prog.Returns.mono ?_ h
  rintro ⟨e | a, x'⟩ hr
  · exact hF e x' hr
  · exact hR a x' hr

theorem Ends.returns {m : Proc Q A S E α} (h : Ends R F m x) : Returns R m x := by
  refine Prog.Returns.mono ?_ h
  rintro ⟨e | a, x'⟩ hr b hb
  · cases hb
  · cases hb
    exact hr

theorem Ends.bind {R : β → S → Prop} {m : Proc Q A S E α} {f : α → Proc Q A S E β}
    (h : Ends (fun a x => Ends R F (f a) x) F m x) : Ends R F (m >>= f) x := by
  refine Prog.Returns.bind (Prog.Returns.mono ?_ h)
  rintro ⟨e | a, x'⟩ hr
  · exact hr
  · exact hr

theorem Ends.pure {a : α} (h : R a x) : Ends R F (pure a : Proc Q A S E α) x := h

theorem Ends.halt {e : E} (h : F e x) : Ends R F (halt e : Proc Q A S E α) x := h

theorem Ends.get {R : S → S → Prop} (h : R x x) : Ends R F (get : Proc Q A S E S) x := h

theorem Ends.modify {R : Unit → S → Prop} {f : S → S} (h : R () (f x)) :
    Ends R F (modify f : Proc Q A S E Unit) x := h

theorem Ends.sys {q : Q} {R : A q → S → Prop} (h : ∀ r, R r x) :
    Ends R F (sys q : Proc Q A S E (A q)) x := h

theorem Ends.void {P : S → Prop} {m : Proc Q A S E α} (h : Ends (fun _ => P) F m x) :
    Ends (fun _ => P) F m.void x := by
  refine Prog.Returns.bind (Prog.Returns.mono ?_ h)
  rintro ⟨e | a, x'⟩ hr
  · exact hr
  · exact hr

end Proc

namespace World

variable {σ ε ω : Type} {W : World Q A σ ε ω} {I : σ → Prop} {G : σ → σ → Prop}
  {R : β → S → σ → Prop} {F : E → S → σ → Prop}

/-- The post-condition of an end: `R` of a normal one, `F` of an abnormal one. -/
def ends (R : α → S → σ → Prop) (F : E → S → σ → Prop) : Except E α × S → σ → Prop
  | (.ok a, x), s => R a x s
  | (.error e, x), s => F e x s

/-- The weakest precondition of a process with the state `x`. -/
abbrev ProcWP (W : World Q A σ ε ω) (I : σ → Prop) (G : σ → σ → Prop) (R : α → S → σ → Prop)
    (F : E → S → σ → Prop) (m : Proc Q A S E α) (x : S) (s : σ) : Prop :=
  W.WP I G (ends R F) (m x) s

theorem ProcWP.bind {m : Proc Q A S E α} {f : α → Proc Q A S E β} {x : S} {s : σ}
    (h : W.ProcWP I G (fun a x s => W.ProcWP I G R F (f a) x s) F m x s) :
    W.ProcWP I G R F (m >>= f) x s := by
  change W.WP I G (ends (fun a x s => W.ProcWP I G R F (f a) x s) F) (m x) s at h
  show W.WP I G (ends R F) (m x >>= Proc.next f) s
  generalize m x = p at h
  induction p generalizing s with
  | ret r =>
    obtain ⟨e | a, x⟩ := r
    · exact h
    · have hf := WP.ret_post h
      exact hf
  | call q k ih =>
    exact fun t ht => ⟨(h t ht).1, fun o r s'' hc =>
      ⟨((h t ht).2 o r s'' hc).1, ih r ((h t ht).2 o r s'' hc).2⟩⟩

/-- A handler: it goes on from every end of the process. -/
theorem ProcWP.attempt {m : Proc Q A S E α} {f : Except E α → Proc Q A S E β} {x : S} {s : σ}
    (h : W.ProcWP I G (fun a x s => W.ProcWP I G R F (f (.ok a)) x s)
      (fun e x s => W.ProcWP I G R F (f (.error e)) x s) m x s) :
    W.ProcWP I G R F (Proc.attempt m >>= f) x s := by
  show W.WP I G (ends R F) ((Proc.attempt m >>= f) x) s
  rw [Proc.attempt_bind]
  refine WP.bind (h.mono ?_)
  rintro ⟨e | a, x⟩ s hr
  · exact hr
  · exact hr

theorem ProcWP.void {m : Proc Q A S E α} {P : S → σ → Prop} {x : S} {s : σ}
    (h : W.ProcWP I G (fun _ => P) F m x s) : W.ProcWP I G (fun _ => P) F m.void x s := by
  refine WP.map (h.mono ?_)
  rintro ⟨e | a, x⟩ s hr
  · exact hr
  · exact hr

theorem exec_void {m : Proc Q A S E α} {x x' : S} {s s' : σ} {es : List (Ev ε ω)}
    {r : Except E Unit} (h : W.exec (m.void x) es s = some ((r, x'), s')) :
    ∃ r', W.exec (m x) es s = some ((r', x'), s') := by
  rw [Proc.void, exec_map] at h
  obtain ⟨⟨⟨r', y⟩, t⟩, hr, he⟩ := Option.map_eq_some_iff.mp h
  cases he
  exact ⟨r', hr⟩

/-- A sequence that ends normally: the first process does, and then the second one. -/
theorem exec_proc_bind {m : Proc Q A S E α} {f : α → Proc Q A S E β} {es : List (Ev ε ω)} {b : β}
    {x x' : S} {s s' : σ} (h : W.exec ((m >>= f) x) es s = some ((.ok b, x'), s')) :
    ∃ es₁ es₂ a x₁ s₁, es = es₁ ++ es₂ ∧ W.exec (m x) es₁ s = some ((.ok a, x₁), s₁) ∧
      W.exec (f a x₁) es₂ s₁ = some ((.ok b, x'), s') := by
  obtain ⟨es₁, es₂, ⟨e | a, x₁⟩, s₁, hes, h₁, h₂⟩ := exec_bind (p := m x) h
  · cases (exec_ret h₂).1
  · exact ⟨es₁, es₂, a, x₁, s₁, hes, h₁, h₂⟩

/-! ## Sessions -/

/-- A client that runs the processes `run c` one after the other on one state. An event is a process
with the events of its run. After an abnormal end that is not caught the client does nothing more.
-/
def session {κ : Type} (W : World Q A σ ε ω) (run : κ → Proc Q A S E Unit) (caught : E → Bool) :
    Machine (S × σ) (κ × List (Ev ε ω)) where
  step z e :=
    match W.exec (run e.1 z.1) e.2 z.2 with
    | some ((.ok _, x), s) => some (x, s)
    | some ((.error err, x), s) => if caught err then some (x, s) else none
    | none => none

theorem session_step {κ : Type} {run : κ → Proc Q A S E Unit} {caught : E → Bool} {x x' : S}
    {s s' : σ} {c : κ} {es : List (Ev ε ω)}
    (h : (W.session run caught).step (x, s) (c, es) = some (x', s')) :
    ∃ r, W.exec (run c x) es s = some ((r, x'), s') ∧ ∀ e, r = .error e → caught e = true := by
  simp only [session] at h
  split at h
  · rename_i u y t hex
    cases h
    exact ⟨_, hex, fun e he => by cases he⟩
  · rename_i e y t hex
    split at h
    · rename_i hc
      cases h
      exact ⟨_, hex, fun e' he => by cases he; exact hc⟩
    · cases h
  · cases h

/-- A session keeps what its processes keep, whatever the calls answer. -/
theorem session_ends {κ : Type} {run : κ → Proc Q A S E Unit} {caught : E → Bool} {P : S → Prop}
    (h : ∀ c x, P x → Proc.Ends (fun _ => P) (fun e x => caught e = true → P x) (run c) x)
    {es : List (κ × List (Ev ε ω))} {z z' : S × σ} (hz : P z.1)
    (hr : (W.session run caught).run es z = some z') : P z'.1 := by
  refine Machine.run_inv (I := fun z : S × σ => P z.1) ?_ hz hr
  rintro ⟨x, s⟩ ⟨c, es⟩ ⟨x', s'⟩ hx hs
  obtain ⟨r, hex, hcaught⟩ := session_step hs
  have hends := exec_returns (h c x hx) hex
  cases r with
  | ok u => exact hends
  | error e => exact hends (hcaught e rfl)

/-- What a process establishes at its normal and its caught ends, a step of the session does. -/
theorem ProcWP.session {κ : Type} {run : κ → Proc Q A S E Unit} {caught : E → Bool} {x x' : S}
    {s s' : σ} {c : κ} {es : List (Ev ε ω)} {P : S → σ → Prop}
    (h : W.ProcWP I G (fun _ => P) (fun e x s => caught e = true → P x s) (run c) x s)
    (hs : (W.session run caught).step (x, s) (c, es) = some (x', s')) : P x' s' := by
  obtain ⟨r, hex, hcaught⟩ := session_step hs
  have hpost := (WP.exec h hex).2
  cases r with
  | ok u => exact hpost
  | error e => exact hpost (hcaught e rfl)

end World

end Conc
