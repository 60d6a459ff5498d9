import Mathlib.Data.List.Range

/-!
# Clocked circuits

The registers of a clock domain change together, at an edge, as a function of their values and of the
inputs in the cycle before it.

* `Clocked`, `Clocked.state`: the registers in each cycle, from any values in cycle 0 on.
* `cycles`, `tally`: a register that counts an event grows by the number of cycles with the event.
* `emitted`: what leaves a circuit in an interval of cycles.
-/

namespace Conc

/-- A circuit with the registers `σ` and the inputs `ι`. -/
structure Clocked (σ ι : Type) where
  edge : ι → σ → σ

namespace Clocked

variable {σ ι : Type} (c : Clocked σ ι)

/-- The registers in cycle `t`. -/
def state (s : σ) (input : Nat → ι) : Nat → σ
  | 0 => s
  | t + 1 => c.edge (input t) (state s input t)

end Clocked

/-! ## Counting -/

/-- The number of cycles `t` with `a ≤ t < b` and `p t`. -/
def cycles (p : Nat → Prop) [DecidablePred p] (a b : Nat) : Nat :=
  (List.range' a (b - a)).countP fun t => p t

section

variable {p : Nat → Prop} [DecidablePred p] {a b : Nat}

theorem cycles_succ (h : a ≤ b) : cycles p a (b + 1) = cycles p a b + if p b then 1 else 0 := by
  unfold cycles
  rw [Nat.succ_sub h, List.range'_1_concat, List.countP_append, Nat.add_sub_cancel' h]
  simp

theorem cycles_eq_zero (h : ∀ t, a ≤ t → t < b → ¬ p t) : cycles p a b = 0 := by
  refine List.countP_eq_zero.mpr fun t ht => ?_
  obtain ⟨hle, hlt⟩ := List.mem_range'_1.mp ht
  simpa using h t hle (by omega)

/-- A register of `w` bits that counts the cycles with `p`. -/
theorem tally {w : Nat} {r : Nat → BitVec w} (hab : a ≤ b)
    (h : ∀ t, a ≤ t → t < b → r (t + 1) = if p t then r t + 1 else r t) :
    r b = r a + BitVec.ofNat w (cycles p a b) := by
  induction b, hab using Nat.le_induction with
  | base => simp [cycles]
  | succ b hab ih =>
    have hb := ih fun t hle hlt => h t hle (by omega)
    rw [h b hab (Nat.lt_succ_self b), cycles_succ hab, hb]
    split
    · rw [BitVec.add_assoc, BitVec.ofNat_add]
      rfl
    · rw [Nat.add_zero]

end

/-! ## Outputs -/

/-- What leaves in the `n` cycles from cycle `a` on. -/
def emitted {α : Type} (out : Nat → Option α) (a n : Nat) : List α :=
  (List.range' a n).filterMap out

theorem emitted_add {α : Type} (out : Nat → Option α) (a m n : Nat) :
    emitted out a (m + n) = emitted out a m ++ emitted out (a + m) n := by
  unfold emitted
  rw [← List.range'_append_1, List.filterMap_append]

theorem emitted_one {α : Type} (out : Nat → Option α) (a : Nat) :
    emitted out a 1 = (out a).toList := by
  cases h : out a <;> simp [emitted, h]

theorem length_emitted_le {α : Type} (out : Nat → Option α) (a n : Nat) :
    (emitted out a n).length ≤ n :=
  (List.length_filterMap_le _ _).trans (Nat.le_of_eq List.length_range')

theorem mem_emitted {α : Type} {out : Nat → Option α} {a n : Nat} {x : α} :
    x ∈ emitted out a n ↔ ∃ t, a ≤ t ∧ t < a + n ∧ out t = some x := by
  unfold emitted
  rw [List.mem_filterMap]
  simp only [List.mem_range'_1, and_assoc]

end Conc
