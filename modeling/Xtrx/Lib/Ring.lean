import Mathlib.Logic.Function.Basic
import Mathlib.Data.Nat.ModEq

/-!
# Ring buffers

A ring of `n` slots holds a stream of blocks `D 0, D 1, …`: block `k` goes into slot `k % n`.
Two numbers less than `n` apart that share a slot are equal (`Ring.slot_inj`), so a window of at
most `n` blocks is held without a clash:

* `Ring.Window mem D lo hi`: the slots hold the blocks `lo, …, hi - 1`.
* `Window.write`: writing block `hi` moves the window's end, and its beginning to at most `n`
  blocks before the new end.
* `Window.scribble`: a change of the slot that block `hi` goes to keeps the window if it is shorter
  than the ring.
* `Numbered`: a record of the stream with the numbers `0, 1, 2, …`.
* `unwrap`: a count is known from its value modulo `m` and an old value less than `m` behind.
-/

namespace Conc
namespace Ring

variable {β : Type} {n : Nat} [NeZero n]

/-- The slot of block `k`. -/
def slot (n : Nat) [NeZero n] (k : Nat) : Fin n := Fin.ofNat n k

@[simp] theorem slot_val (k : Nat) : (slot n k).val = k % n := rfl

theorem slot_inj {a b : Nat} (h : slot n a = slot n b) (ha : a < b + n) (hb : b < a + n) : a = b := by
  have hm : a % n = b % n := congrArg Fin.val h
  rcases Nat.lt_trichotomy a b with hlt | heq | hgt
  · have := Nat.ModEq.add_le_of_lt (show a ≡ b [MOD n] from hm) hlt
    omega
  · exact heq
  · have := Nat.ModEq.add_le_of_lt (show b ≡ a [MOD n] from hm.symm) hgt
    omega

theorem slot_ne {a b : Nat} (hab : a ≠ b) (ha : a < b + n) (hb : b < a + n) :
    slot n a ≠ slot n b :=
  fun h => hab (slot_inj h ha hb)

/-- The slots hold the blocks `lo, …, hi - 1` of the stream `D`. -/
def Window (mem : Fin n → β) (D : Nat → β) (lo hi : Nat) : Prop :=
  ∀ k, lo ≤ k → k < hi → mem (slot n k) = D k

variable {mem : Fin n → β} {D : Nat → β} {lo lo' hi : Nat}

theorem Window.empty (mem : Fin n → β) (D : Nat → β) (k : Nat) : Window mem D k k :=
  fun _ h1 h2 => absurd h2 (Nat.not_lt.mpr h1)

theorem Window.mono (h : Window mem D lo hi) (hlo : lo ≤ lo') : Window mem D lo' hi :=
  fun k h1 h2 => h k (Nat.le_trans hlo h1) h2

theorem Window.scribble (h : Window mem D lo hi) (hn : hi < lo + n) (x : β) :
    Window (Function.update mem (slot n hi) x) D lo hi := by
  intro k h1 h2
  rw [Function.update_of_ne (slot_ne (by omega) (by omega) (by omega))]
  exact h k h1 h2

theorem Window.write (h : Window mem D lo hi) (hlo : lo ≤ lo') (hn : hi < lo' + n) :
    Window (Function.update mem (slot n hi) (D hi)) D lo' (hi + 1) := by
  intro k h1 h2
  by_cases hk : k = hi
  · subst hk
    exact Function.update_self _ _ _
  · exact (h.mono hlo).scribble hn (D hi) k h1 (by omega)

/-! ## Numbered records

The record of a stream: each entry has a number. In a record without gaps or repetitions the
numbers are `0, 1, 2, …`. -/

section Numbered

variable {α : Type} {num : α → Int} {log : List α}

/-- The entries have the numbers `0, 1, 2, …` in this order. -/
def Numbered (num : α → Int) (log : List α) : Prop :=
  log.map num = (List.range log.length).map Int.ofNat

theorem Numbered.nil : Numbered num [] := rfl

theorem Numbered.snoc {a : α} (h : Numbered num log) (ha : num a = log.length) :
    Numbered num (log ++ [a]) := by
  unfold Numbered at *
  rw [List.map_append, h, List.length_append, List.length_singleton, List.range_succ,
    List.map_append]
  simp [ha]

/-- The numbers of a numbered record increase strictly. -/
theorem Numbered.increasing (h : Numbered num log) : (log.map num).Pairwise (· < ·) := by
  rw [h, List.pairwise_map]
  exact List.pairwise_lt_range.imp fun hab => Int.ofNat_lt.mpr hab

/-- Every number below the length occurs exactly once in a numbered record. -/
theorem Numbered.count_eq_one (h : Numbered num log) {k : Nat} (hk : k < log.length) :
    (log.map num).count (k : Int) = 1 := by
  have hmem : (k : Int) ∈ log.map num := by
    rw [h]
    exact List.mem_map.mpr ⟨k, List.mem_range.mpr hk, rfl⟩
  have hnodup : (log.map num).Nodup := h.increasing.imp fun hab => by omega
  rw [hnodup.count, if_pos hmem]

theorem Numbered.mem_iff (h : Numbered num log) {a : α} (ha : a ∈ log) :
    ∃ k : Nat, k < log.length ∧ num a = k := by
  have hm : num a ∈ log.map num := List.mem_map_of_mem ha
  rw [h, List.mem_map] at hm
  obtain ⟨k, hk, he⟩ := hm
  exact ⟨k, List.mem_range.mp hk, he.symm⟩

end Numbered

/-! ## Counts that wrap -/

/-- The old count gives the multiple of `m`, one more if the result would be smaller. -/
theorem unwrap {m old k : Nat} (hold : old ≤ k) (hk : k < old + m) :
    k = if old / m * m + k % m < old then old / m * m + k % m + m else old / m * m + k % m := by
  have hm : 0 < m := by omega
  have hlo : old / m ≤ k / m := Nat.div_le_div_right hold
  have hhi : k / m ≤ old / m + 1 := by
    rw [← Nat.add_div_right old hm]
    exact Nat.div_le_div_right (by omega)
  have hdiv : k / m * m + k % m = k := by
    rw [Nat.mul_comm]
    exact Nat.div_add_mod k m
  have hold' : old / m * m ≤ old := Nat.div_mul_le_self old m
  by_cases hw : k / m = old / m
  · -- no wrap: the multiple is the same
    rw [if_neg (by rw [← hw, hdiv]; omega), ← hw, hdiv]
  · have hs : k / m = old / m + 1 := by omega
    rw [hs, Nat.succ_mul] at hdiv
    rw [if_pos (by omega)]
    omega

end Ring
end Conc
