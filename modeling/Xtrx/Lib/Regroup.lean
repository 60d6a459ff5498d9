import Mathlib.Logic.Function.Basic

/-!
# A stream in groups of `n`

The group `k` of a stream has its items from `k * n` on. A group is put together in memory, item by
item; memory that was allocated and not written since is `none`.

* `Regroup.Held`: the first `f` items of a group, in memory that was allocated at the item `a`. The
  items from there on were written, the ones before are not set.
* `Held.push`, `Held.alloc`: the next item is written, or all memory is allocated anew.
* `Held.of_le`, `Held.of_set`: where an item of the stream is in memory.
* `next_le_of_dvd`, `not_dvd_between`: boundaries of groups.
-/

namespace Conc
namespace Regroup

variable {α : Type} {stream : List (Option α)} {n a k f : Nat} {mem : Nat → Option α}

def Held (stream : List (Option α)) (n a k f : Nat) (mem : Nat → Option α) : Prop :=
  ∀ i, i < f → (a ≤ k * n + i → stream[k * n + i]? = some (mem i)) ∧ (k * n + i < a → mem i = none)

theorem Held.empty (stream : List (Option α)) (n a k : Nat) (mem : Nat → Option α) :
    Held stream n a k 0 mem := fun i hi => absurd hi (Nat.not_lt_zero i)

/-- An allocation behind `f` items. -/
theorem Held.alloc (stream : List (Option α)) (n k f : Nat) (h : ∀ i, mem i = none) :
    Held stream n (k * n + f) k f mem := fun i hi => ⟨fun hle => by omega, fun _ => h i⟩

/-- The next item. -/
theorem Held.push (h : Held stream n a k f mem) (ha : a ≤ k * n + f) {x : Option α}
    (hx : stream[k * n + f]? = some x) : Held stream n a k (f + 1) (Function.update mem f x) := by
  intro i hi
  rcases Nat.lt_or_eq_of_le (Nat.le_of_lt_succ hi) with hlt | rfl
  · rw [Function.update_of_ne (Nat.ne_of_lt hlt)]
    exact h i hlt
  · rw [Function.update_self]
    exact ⟨fun _ => hx, fun hlt => absurd hlt (Nat.not_lt.mpr ha)⟩

/-- With an allocation before the group all of it was written. -/
theorem Held.of_le (h : Held stream n a k f mem) (ha : a ≤ k * n) {i : Nat} (hi : i < f) :
    stream[k * n + i]? = some (mem i) := (h i hi).1 (Nat.le_add_right_of_le ha)

/-- What is set is the item of the stream. -/
theorem Held.of_set (h : Held stream n a k f mem) {i : Nat} (hi : i < f) {x : α}
    (hx : mem i = some x) : stream[k * n + i]? = some (some x) := by
  have hle : a ≤ k * n + i := by
    by_contra hlt
    cases hx.symm.trans ((h i hi).2 (Nat.not_le.mp hlt))
  rw [(h i hi).1 hle, hx]

/-- Behind the beginning of a group the next boundary is its end. -/
theorem next_le_of_dvd {r : Nat} (hr : n ∣ r) (hk : k * n < r) : (k + 1) * n ≤ r := by
  obtain ⟨t, rfl⟩ := hr
  rw [Nat.mul_comm n t] at hk ⊢
  exact Nat.mul_le_mul_right n (Nat.lt_of_mul_lt_mul_right hk)

/-- What is no boundary is in the course of a group. -/
theorem not_dvd_between {r total : Nat} (hn : 0 < n) (hr : ¬ n ∣ r) (hlt : r < total * n) :
    ∃ k, k < total ∧ k * n < r ∧ r < (k + 1) * n := by
  have hrow : r / n * n + r % n = r := Nat.div_add_mod' ..
  have hpos : 0 < r % n := Nat.pos_of_ne_zero fun hz => hr (Nat.dvd_of_mod_eq_zero hz)
  have hmod := Nat.mod_lt r hn
  refine ⟨r / n, (Nat.div_lt_iff_lt_mul hn).mpr hlt, by omega, ?_⟩
  rw [Nat.succ_mul]
  omega

end Regroup
end Conc
