import Mathlib.Data.Option.Basic

/-!
# Machines and their runs

An executable transition system: a state, an event, and the state after the event if the event is
possible. A run is a list of events. The proofs about a machine are inductions over its runs, made
once here:

* `Machine.run_inv`: a property that every step keeps holds after every run. `run_inv_along` is the
  form for the runs whose steps meet a condition (`Along`).
* `Machine.always_of_along`: every state of such a run (`Always`) has the property.
* `Machine.run_length_le`, `Machine.exists_run_end`: runs under a measure end.
* `Machine.always_iff_along`, `Machine.along_iff`: a condition on the steps that decides, step by
  step, if the next state (the step) is good decides it of whole runs; `last_iff_along`: it
  decides a property of the last state that no step brings about.
-/

namespace Conc

/-- A machine: `step s e` is the state after the event `e` in `s`, if `e` is possible there. -/
structure Machine (σ ε : Type) where
  step : σ → ε → Option σ

namespace Machine

variable {σ ε : Type} (M : Machine σ ε)

/-- The state after the events `es`, if each of them is possible in its turn. -/
def run : List ε → σ → Option σ
  | [], s => some s
  | e :: es, s => (M.step s e).bind (run es)

/-- Every step of the run meets `C`. -/
def Along (C : σ → ε → Prop) : List ε → σ → Prop
  | [], _ => True
  | e :: es, s => ∀ s', M.step s e = some s' → C s e ∧ Along C es s'

/-- Every state of the run, the first one included, has `P`. -/
def Always (P : σ → Prop) : List ε → σ → Prop
  | [], s => P s
  | e :: es, s => P s ∧ ∀ s', M.step s e = some s' → Always P es s'

/-- The test for a condition along a run, step after step. -/
def alongTest (C : σ → ε → Prop) [∀ s e, Decidable (C s e)] : List ε → σ → Bool
  | [], _ => true
  | e :: es, s =>
    match M.step s e with
    | none => true
    | some s' => decide (C s e) && alongTest C es s'

theorem alongTest_iff (C : σ → ε → Prop) [∀ s e, Decidable (C s e)] (es : List ε) (s : σ) :
    M.alongTest C es s = true ↔ M.Along C es s := by
  induction es generalizing s with
  | nil => exact iff_of_true rfl trivial
  | cons e es ih =>
    unfold alongTest Along
    cases h : M.step s e with
    | none => simp
    | some s' => simp [ih]

/-- A decidable condition is decidable along a run. -/
instance decidableAlong (C : σ → ε → Prop) [∀ s e, Decidable (C s e)] (es : List ε) (s : σ) :
    Decidable (M.Along C es s) :=
  decidable_of_iff _ (M.alongTest_iff C es s)

variable {M} {s t : σ} {e : ε} {es fs : List ε}

@[simp] theorem run_nil : M.run [] s = some s := rfl

theorem run_cons : M.run (e :: es) s = some t ↔ ∃ s', M.step s e = some s' ∧ M.run es s' = some t := by
  simp [run, Option.bind_eq_some_iff]

theorem run_append : M.run (es ++ fs) s = (M.run es s).bind (M.run fs) := by
  induction es generalizing s with
  | nil => rfl
  | cons e es ih =>
    simp only [List.cons_append, run]
    cases M.step s e with
    | none => rfl
    | some s' => exact ih

theorem run_snoc : M.run (es ++ [e]) s = some t ↔ ∃ s', M.run es s = some s' ∧ M.step s' e = some t := by
  rw [run_append]
  simp [run, Option.bind_eq_some_iff]

/-- A view of the state after a run, from the run. -/
theorem view_eq {β : Type} {b : β} (hr : M.run es s = some t) (f : σ → β)
    (h : (M.run es s).map f = some b) : f t = b := by
  rw [hr] at h
  exact Option.some.inj h

/-- An event that is not possible after a run. -/
theorem step_eq_none (hr : M.run es s = some t)
    (h : (M.run es s).map (fun u => (M.step u e).isNone) = some true) : M.step t e = none :=
  Option.isNone_iff_eq_none.mp (view_eq hr (fun u => (M.step u e).isNone) h)

theorem along_mono {C C' : σ → ε → Prop} (h : ∀ s e, C s e → C' s e) (ha : M.Along C es s) :
    M.Along C' es s := by
  induction es generalizing s with
  | nil => trivial
  | cons e es ih =>
    intro s' hs
    obtain ⟨hc, hr⟩ := ha s' hs
    exact ⟨h s e hc, ih hr⟩

/-- A condition that every step meets is met along every run. -/
theorem along_of_forall {C : σ → ε → Prop} (h : ∀ s e, C s e) : M.Along C es s := by
  induction es generalizing s with
  | nil => trivial
  | cons e es ih => exact fun s' _ => ⟨h s e, ih⟩

/-- A condition on the events alone. -/
theorem along_of_mem (M : Machine σ ε) {C : ε → Prop} (h : ∀ e ∈ es, C e) :
    M.Along (fun _ e => C e) es s := by
  induction es generalizing s with
  | nil => trivial
  | cons e es ih => exact fun s' _ => ⟨h e (by simp), ih fun f hf => h f (by simp [hf])⟩

/-- The conditions of a longer run are met along its beginning. -/
theorem along_append {C : σ → ε → Prop} :
    M.Along C (es ++ fs) s ↔ M.Along C es s ∧ ∀ s', M.run es s = some s' → M.Along C fs s' := by
  induction es generalizing s with
  | nil => simp [Along]
  | cons e es ih =>
    constructor
    · intro h
      refine ⟨fun s' hs => ⟨(h s' hs).1, (ih.mp (h s' hs).2).1⟩, fun t ht => ?_⟩
      obtain ⟨s', hs, hr⟩ := run_cons.mp ht
      exact (ih.mp (h s' hs).2).2 t hr
    · rintro ⟨h, hf⟩ s' hs
      exact ⟨(h s' hs).1, ih.mpr ⟨(h s' hs).2, fun t ht => hf t (run_cons.mpr ⟨s', hs, ht⟩)⟩⟩

/-- The last step of a run that meets a condition. -/
theorem along_last {C : σ → ε → Prop} {u : σ} (h : M.Along C (es ++ [e]) s)
    (ht : M.run es s = some t) (hu : M.step t e = some u) : C t e :=
  ((along_append.mp h).2 t ht u hu).1

/-! ## Invariants -/

/-- What every step that meets `C` keeps holds after every run that meets `C`. -/
theorem run_inv_along {C : σ → ε → Prop} {I : σ → Prop}
    (hstep : ∀ s e s', I s → C s e → M.step s e = some s' → I s') (hs : I s) (ha : M.Along C es s)
    (hr : M.run es s = some t) : I t := by
  induction es generalizing s with
  | nil => cases hr; exact hs
  | cons e es ih =>
    obtain ⟨s', hst, hr'⟩ := run_cons.mp hr
    obtain ⟨hc, ha'⟩ := ha s' hst
    exact ih (hstep s e s' hs hc hst) ha' hr'

/-- A view that an event sets or leaves as it is: after a run it is what the last event that sets it
says. -/
theorem run_last {β : Type} {f : σ → β} {g : ε → Option β}
    (hstep : ∀ s e s', M.step s e = some s' → f s' = (g e).getD (f s)) (hr : M.run es s = some t) :
    f t = (es.filterMap g).getLast?.getD (f s) := by
  induction es generalizing s with
  | nil =>
    cases hr
    rfl
  | cons e es ih =>
    obtain ⟨s', hst, hr'⟩ := run_cons.mp hr
    rw [ih hr', hstep s e s' hst, List.filterMap_cons]
    cases g e with
    | none => rfl
    | some b => simp [List.getLast?_cons]

/-- What every step keeps holds after every run. -/
theorem run_inv {I : σ → Prop} (hstep : ∀ s e s', I s → M.step s e = some s' → I s') (hs : I s)
    (hr : M.run es s = some t) : I t :=
  run_inv_along (C := fun _ _ => True) (fun s e s' hi _ => hstep s e s' hi) hs
    (along_of_forall fun _ _ => trivial) hr

theorem always_of_along {C : σ → ε → Prop} {I P : σ → Prop}
    (hstep : ∀ s e s', I s → C s e → M.step s e = some s' → I s') (hP : ∀ s, I s → P s) (hs : I s)
    (ha : M.Along C es s) : M.Always P es s := by
  induction es generalizing s with
  | nil => exact hP s hs
  | cons e es ih =>
    refine ⟨hP s hs, fun s' hst => ?_⟩
    obtain ⟨hc, ha'⟩ := ha s' hst
    exact ih (hstep s e s' hs hc hst) ha'

theorem Always.head {P : σ → Prop} (h : M.Always P es s) : P s := by
  cases es with
  | nil => exact h
  | cons _ _ => exact h.1

/-- A property of the steps that the invariant and `C` imply is met along the run. -/
theorem along_of_inv {C P : σ → ε → Prop} {I : σ → Prop}
    (hstep : ∀ s e s', I s → C s e → M.step s e = some s' → I s')
    (hP : ∀ s e s', I s → C s e → M.step s e = some s' → P s e) (hs : I s)
    (ha : M.Along C es s) : M.Along P es s := by
  induction es generalizing s with
  | nil => trivial
  | cons e es ih =>
    intro s' hst
    obtain ⟨hc, ha'⟩ := ha s' hst
    exact ⟨hP s e s' hs hc hst, ih (hstep s e s' hs hc hst) ha'⟩

/-- `Always` is a statement about the states that the beginnings of the run reach. -/
theorem always_iff_prefix {P : σ → Prop} :
    M.Always P es s ↔ ∀ fs t, fs <+: es → M.run fs s = some t → P t := by
  induction es generalizing s with
  | nil =>
    simp only [Always, List.prefix_nil]
    exact ⟨fun h fs t hf hr => by subst hf; cases hr; exact h, fun h => h [] s rfl rfl⟩
  | cons e es ih =>
    constructor
    · rintro ⟨hs, h⟩ fs t hp hr
      cases fs with
      | nil => cases hr; exact hs
      | cons f fs =>
        obtain ⟨rfl, hp'⟩ := List.cons_prefix_cons.mp hp
        obtain ⟨s', hst, hr'⟩ := run_cons.mp hr
        exact ih.mp (h s' hst) fs t hp' hr'
    · intro h
      refine ⟨h [] s List.nil_prefix rfl, fun s' hst => ih.mpr fun fs t hp hr => ?_⟩
      exact h (e :: fs) t (List.cons_prefix_cons.mpr ⟨rfl, hp⟩) (run_cons.mpr ⟨s', hst, hr⟩)

/-- The last state of a run is one of its states. -/
theorem Always.run {P : σ → Prop} (h : M.Always P es s) (hr : M.run es s = some t) : P t :=
  always_iff_prefix.mp h es t (List.prefix_refl es) hr

/-! ## Conditions that decide a property of the run -/

/-- Two conditions on steps that agree in every state of the invariant agree along whole runs: the
invariant goes on as long as the second one is met. -/
theorem along_iff {C P : σ → ε → Prop} {I : σ → Prop}
    (hstep : ∀ s e s', I s → C s e → M.step s e = some s' → I s')
    (hiff : ∀ s e s', I s → M.step s e = some s' → (P s e ↔ C s e)) (hs : I s) :
    M.Along P es s ↔ M.Along C es s := by
  induction es generalizing s with
  | nil => simp [Along]
  | cons e es ih =>
    refine forall_congr' fun s' => forall_congr' fun hst => ?_
    rw [hiff s e s' hs hst]
    exact and_congr_right fun hc => ih (hstep s e s' hs hc hst)

/-- A property of states and a condition on steps: if in every state of the invariant the next
state has the property exactly when the step meets the condition, all states of a run have the
property exactly when all its steps meet the condition. -/
theorem always_iff_along {C : σ → ε → Prop} {I P : σ → Prop}
    (hstep : ∀ s e s', I s → C s e → M.step s e = some s' → I s') (hP : ∀ s, I s → P s)
    (hiff : ∀ s e s', I s → M.step s e = some s' → P s' → C s e) (hs : I s) :
    M.Always P es s ↔ M.Along C es s := by
  refine ⟨fun h => ?_, always_of_along hstep hP hs⟩
  induction es generalizing s with
  | nil => trivial
  | cons e es ih =>
    intro s' hst
    have hn : P s' := (h.2 s' hst).head
    have hc := hiff s e s' hs hst hn
    exact ⟨hc, ih (hstep s e s' hs hc hst) (h.2 s' hst)⟩

/-- All states of a run have a property of its first state if every step leads to it. -/
theorem always_iff_next (M : Machine σ ε) {P : σ → Prop} (es : List ε) (hs : P s) :
    M.Always P es s ↔ M.Along (fun s e => ∀ s', M.step s e = some s' → P s') es s := by
  induction es generalizing s with
  | nil => exact ⟨fun _ => trivial, fun _ => hs⟩
  | cons e es ih =>
    constructor
    · rintro ⟨-, h⟩ s' hst
      have hn : P s' := (h s' hst).head
      refine ⟨fun t ht => ?_, (ih hn).mp (h s' hst)⟩
      rw [show t = s' from Option.some.inj (ht.symm.trans hst)]
      exact hn
    · intro h
      exact ⟨hs, fun s' hst => (ih ((h s' hst).1 s' hst)).mpr (h s' hst).2⟩

/-- A property that no step brings about holds all along a run that it holds after. -/
theorem always_of_last {I P : σ → Prop} (hI : ∀ s e s', I s → M.step s e = some s' → I s')
    (hback : ∀ s e s', I s → M.step s e = some s' → P s' → P s) (hs : I s)
    (hr : M.run es s = some t) (ht : P t) : M.Always P es s := by
  induction es generalizing s with
  | nil =>
    cases hr
    exact ht
  | cons e es ih =>
    obtain ⟨s', hst, hr'⟩ := run_cons.mp hr
    have hrest := ih (hI s e s' hs hst) hr'
    refine ⟨hback s e s' hs hst hrest.head, fun s'' hst' => ?_⟩
    rw [hst] at hst'
    cases hst'
    exact hrest

/-- A property that the steps keep exactly if they meet a condition, and that no step brings about,
holds after a run exactly if its steps meet the condition. -/
theorem last_iff_along {C : σ → ε → Prop} {I P : σ → Prop}
    (hI : ∀ s e s', I s → M.step s e = some s' → I s')
    (hkeep : ∀ s e s', I s → P s → C s e → M.step s e = some s' → P s')
    (hback : ∀ s e s', I s → M.step s e = some s' → P s' → P s)
    (hC : ∀ s e s', M.step s e = some s' → P s' → C s e) (hs : I s) (hP : P s)
    (hr : M.run es s = some t) : P t ↔ M.Along C es s := by
  have hstep : ∀ s e s', (I s ∧ P s) → C s e → M.step s e = some s' → I s' ∧ P s' :=
    fun s e s' h hc hst => ⟨hI s e s' h.1 hst, hkeep s e s' h.1 h.2 hc hst⟩
  refine ⟨fun ht => ?_, fun ha => (run_inv_along hstep ⟨hs, hP⟩ ha hr).2⟩
  exact (always_iff_along (P := P) hstep (fun _ h => h.2) (fun s e s' _ hst => hC s e s' hst)
    ⟨hs, hP⟩).mp (always_of_last hI hback hs hr ht)

/-- A step leads to a property exactly if it held before and the step meets a condition: the last state
of a run has it exactly if all steps meet the condition. -/
theorem last_iff_of_iff {C : σ → ε → Prop} {I P : σ → Prop}
    (hI : ∀ s e s', I s → M.step s e = some s' → I s')
    (hiff : ∀ s e s', I s → M.step s e = some s' → (P s' ↔ P s ∧ C s e)) (hs : I s) (hP : P s)
    (hr : M.run es s = some t) : P t ↔ M.Along C es s := by
  have hstep : ∀ s e s', (I s ∧ P s) → C s e → M.step s e = some s' → I s' ∧ P s' :=
    fun s e s' h hc hst => ⟨hI s e s' h.1 hst, (hiff s e s' h.1 hst).mpr ⟨h.2, hc⟩⟩
  refine ⟨fun ht => ?_, fun ha => (run_inv_along hstep ⟨hs, hP⟩ ha hr).2⟩
  have hall : M.Always P es s :=
    always_of_last hI (fun s e s' h hst hp => ((hiff s e s' h hst).mp hp).1) hs hr ht
  exact (always_iff_along hstep (fun _ h => h.2)
    (fun s e s' h hst hp => ((hiff s e s' h.1 hst).mp hp).2) ⟨hs, hP⟩).mp hall

/-! ## Runs that end -/

/-- With steps that make a measure smaller a run is no longer than the measure at its start. -/
theorem run_length_le {I : σ → Prop} {μ : σ → Nat}
    (hstep : ∀ s e s', I s → M.step s e = some s' → I s' ∧ μ s' < μ s) (hs : I s)
    (hr : M.run es s = some t) : es.length ≤ μ s := by
  induction es generalizing s with
  | nil => exact Nat.zero_le _
  | cons e es ih =>
    obtain ⟨s', hst, hr'⟩ := run_cons.mp hr
    obtain ⟨hs', hlt⟩ := hstep s e s' hs hst
    have := ih hs' hr'
    rw [List.length_cons]
    omega

/-- And some run goes on to a state where no step is possible. -/
theorem exists_run_end {I : σ → Prop} {μ : σ → Nat}
    (hstep : ∀ s e s', I s → M.step s e = some s' → I s' ∧ μ s' < μ s) (hs : I s) :
    ∃ es t, M.run es s = some t ∧ ∀ e, M.step t e = none := by
  generalize hm : μ s = m
  induction m using Nat.strongRecOn generalizing s with
  | ind m ih =>
    by_cases h : ∃ e s', M.step s e = some s'
    · obtain ⟨e, s', hst⟩ := h
      obtain ⟨hs', hlt⟩ := hstep s e s' hs hst
      obtain ⟨es, t, hr, ht⟩ := ih (μ s') (hm ▸ hlt) hs' rfl
      exact ⟨e :: es, t, run_cons.mpr ⟨s', hst, hr⟩, ht⟩
    · refine ⟨[], s, rfl, fun e => ?_⟩
      rw [Option.eq_none_iff_forall_ne_some]
      exact fun s' hst => h ⟨e, s', hst⟩

/-! ## History variables -/

/-- The machine with a record of the past events, which no step reads. -/
def history {η : Type} (M : Machine σ ε) (f : η → ε → η) : Machine (σ × η) ε where
  step x e := (M.step x.1 e).map fun s' => (s', f x.2 e)

theorem run_history {η : Type} {f : η → ε → η} {h : η} :
    (M.history f).run es (s, h) = (M.run es s).map fun s' => (s', es.foldl f h) := by
  induction es generalizing s h with
  | nil => rfl
  | cons e es ih =>
    simp only [run, history, List.foldl_cons]
    cases M.step s e with
    | none => rfl
    | some s' => exact ih

/-- A property of the states does not depend on the record. -/
theorem always_history {η : Type} {f : η → ε → η} {P : σ → Prop} {h : η} :
    (M.history f).Always (fun x => P x.1) es (s, h) ↔ M.Always P es s := by
  induction es generalizing s h with
  | nil => exact Iff.rfl
  | cons e es ih =>
    refine and_congr_right fun _ => ⟨fun hn s' hs => ?_, fun hn x hx => ?_⟩
    · exact ih.mp (hn (s', f h e) (Option.map_eq_some_iff.mpr ⟨s', hs, rfl⟩))
    · obtain ⟨s', hs, rfl⟩ := Option.map_eq_some_iff.mp hx
      exact ih.mpr (hn s' hs)

end Machine

end Conc
