import Mathlib.Data.List.Basic

/-!
# Transducers

A transducer reads its input from left to right and writes any number of symbols for each.

* `Transducer.Emits s xs ys t`: over the input `xs` the state goes from `s` to `t`, with the output `ys`.
* `Emits.append`, `Emits.flatMap`: inputs one after the other.
* `Transducer.comp`: a transducer that reads the output of another one.
-/

namespace Conc

/-- A transducer with the states `σ`. -/
structure Transducer (σ ι ω : Type) where
  step : σ → ι → List ω × σ

namespace Transducer

variable {σ τ ι κ ω : Type} (T : Transducer σ ι ω)

/-- The output over an input, and the state behind it. -/
def run : σ → List ι → List ω × σ
  | s, [] => ([], s)
  | s, x :: xs => ((T.step s x).1 ++ (run (T.step s x).2 xs).1, (run (T.step s x).2 xs).2)

/-- Over the input `xs` the state goes from `s` to `t`, with the output `ys`. -/
def Emits (s : σ) (xs : List ι) (ys : List ω) (t : σ) : Prop := T.run s xs = (ys, t)

variable {T} {s t u : σ} {xs xs' : List ι} {ys ys' : List ω}

theorem Emits.nil (s : σ) : T.Emits s [] [] s := rfl

theorem Emits.one {x : ι} (h : T.step s x = (ys, t)) : T.Emits s [x] ys t := by
  simp [Emits, run, h]

theorem Emits.append (h : T.Emits s xs ys t) (h' : T.Emits t xs' ys' u) :
    T.Emits s (xs ++ xs') (ys ++ ys') u := by
  induction xs generalizing s ys with
  | nil =>
    obtain ⟨rfl, rfl⟩ := Prod.mk.inj h
    exact h'
  | cons x xs ih =>
    obtain ⟨rfl, rfl⟩ := Prod.mk.inj h
    have htail : T.run (T.step s x).2 (xs ++ xs') = _ := ih rfl
    show T.run s (x :: (xs ++ xs')) = _
    rw [run, htail, List.append_assoc]

theorem Emits.cons {x : ι} {y : List ω} (h : T.step s x = (y, t)) (h' : T.Emits t xs ys u) :
    T.Emits s (x :: xs) (y ++ ys) u :=
  (Emits.one h).append h'

/-- Pieces of input that each lead from the state `s` back to it. -/
theorem Emits.flatMap {α : Type} {f : α → List ι} {g : α → List ω} (as : List α)
    (h : ∀ a ∈ as, T.Emits s (f a) (g a) s) : T.Emits s (as.flatMap f) (as.flatMap g) s := by
  induction as with
  | nil => exact .nil s
  | cons a as ih =>
    rw [List.flatMap_cons, List.flatMap_cons]
    exact (h a (List.mem_cons_self ..)).append (ih fun b hb => h b (List.mem_cons_of_mem _ hb))

theorem run_append (s : σ) (xs xs' : List ι) :
    T.Emits s (xs ++ xs') ((T.run s xs).1 ++ (T.run (T.run s xs).2 xs').1)
      (T.run (T.run s xs).2 xs').2 :=
  Emits.append rfl rfl

/-- `T'` reads what `T` writes. -/
def comp (T' : Transducer τ ω κ) (T : Transducer σ ι ω) : Transducer (σ × τ) ι κ where
  step s x :=
    ((T'.run s.2 (T.step s.1 x).1).1, (T.step s.1 x).2, (T'.run s.2 (T.step s.1 x).1).2)

theorem Emits.comp {T' : Transducer τ ω κ} {p q : τ} {zs : List κ} (h : T.Emits s xs ys t)
    (h' : T'.Emits p ys zs q) : (T'.comp T).Emits (s, p) xs zs (t, q) := by
  induction xs generalizing s p ys zs with
  | nil =>
    obtain ⟨rfl, rfl⟩ := Prod.mk.inj h
    obtain ⟨rfl, rfl⟩ := Prod.mk.inj h'
    rfl
  | cons x xs ih =>
    obtain ⟨rfl, rfl⟩ := Prod.mk.inj h
    have hrun := run_append (T := T') p (T.step s x).1 (T.run (T.step s x).2 xs).1
    obtain ⟨rfl, rfl⟩ := Prod.mk.inj (h'.symm.trans hrun)
    exact Emits.append (Emits.one rfl) (ih rfl rfl)

end Transducer

end Conc
