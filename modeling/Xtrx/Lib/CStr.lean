import Mathlib.Algebra.Order.Ring.Int
import Mathlib.Data.List.TakeWhile

/-!
# Strings with a terminator

A string in a buffer goes from an index to the first terminator behind it. A store behind the buffer
and a string without an end are undefined (`none`).

* `store`, `strAt`: a store of one element, and the string from an index on.
* `strAt_store`: a terminator behind a text makes it a string.
* `strAt_cut`, `strAt_rest`: a terminator inside a string parts it into two.
-/

namespace Conc
namespace CStr

variable {α : Type}

def store (s : List α) (i : Nat) (c : α) : Option (List α) :=
  if i < s.length then some (s.set i c) else none

theorem store_of_lt {s : List α} {i : Nat} (h : i < s.length) (c : α) :
    store s i c = some (s.set i c) := if_pos h

theorem drop_set_add (s : List α) (i k : Nat) (c : α) :
    (s.set (i + k) c).drop i = (s.drop i).set k c := by
  rw [List.drop_set, if_neg (by omega), Nat.add_sub_cancel_left]

section

variable [DecidableEq α] (z : α)

/-- The string from index `i` on. -/
def strAt (s : List α) (i : Nat) : Option (List α) :=
  if z ∈ s.drop i then some ((s.drop i).takeWhile (· ≠ z)) else none

variable {z} {s t : List α} {i k : Nat}

/-- The string ends at the first terminator. -/
theorem takeWhile_append_cons (ys : List α) (h : z ∉ s) : (s ++ z :: ys).takeWhile (· ≠ z) = s := by
  rw [List.takeWhile_append_of_pos fun x hx => by simpa using ne_of_mem_of_not_mem hx h]
  simp

theorem strAt_eq_some :
    strAt z s i = some t ↔ z ∉ t ∧ ∃ rest, s.drop i = t ++ z :: rest := by
  constructor
  · intro h
    obtain ⟨hmem, rfl⟩ : z ∈ s.drop i ∧ (s.drop i).takeWhile (· ≠ z) = t := by
      simpa only [strAt, Option.ite_none_right_eq_some, Option.some.injEq] using h
    obtain ⟨xs, rest, hs, hz⟩ := List.eq_append_cons_of_mem hmem
    rw [hs, takeWhile_append_cons rest hz]
    exact ⟨hz, rest, rfl⟩
  · rintro ⟨hz, rest, hs⟩
    unfold strAt
    rw [hs, if_pos (by simp), takeWhile_append_cons rest hz]

/-- A terminator behind a text ends it; the string goes to the first terminator in the text. -/
theorem strAt_store (ht : s.take t.length = t) (hlen : t.length < s.length) :
    strAt z (s.set t.length z) 0 = some (t.takeWhile (· ≠ z)) := by
  have hs : s.set t.length z = t ++ z :: s.drop (t.length + 1) := by
    rw [List.set_eq_take_append_cons_drop, if_pos hlen, ht]
  unfold strAt
  rw [List.drop_zero, hs, if_pos (by simp)]
  by_cases hz : z ∈ t
  · obtain ⟨xs, rest, rfl, hxs⟩ := List.eq_append_cons_of_mem hz
    rw [List.append_assoc, List.cons_append, takeWhile_append_cons _ hxs, takeWhile_append_cons _ hxs]
  · rw [takeWhile_append_cons _ hz, List.takeWhile_eq_self_iff.mpr]
    exact fun x hx => by simpa using ne_of_mem_of_not_mem hx hz

/-- A terminator in a string cuts it. -/
theorem strAt_cut (h : strAt z s i = some t) (hk : k ≤ t.length) :
    strAt z (s.set (i + k) z) i = some (t.take k) := by
  obtain ⟨hz, rest, hs⟩ := strAt_eq_some.mp h
  refine strAt_eq_some.mpr ⟨fun hmem => hz (List.mem_of_mem_take hmem), (t ++ z :: rest).drop (k + 1), ?_⟩
  rw [drop_set_add, hs, List.set_eq_take_append_cons_drop, if_pos (by simp; omega),
    List.take_append_of_le_length hk]

/-- The string behind it is the rest. -/
theorem strAt_rest (h : strAt z s i = some t) (hk : k < t.length) :
    strAt z (s.set (i + k) z) (i + k + 1) = some (t.drop (k + 1)) := by
  obtain ⟨hz, rest, hs⟩ := strAt_eq_some.mp h
  refine strAt_eq_some.mpr ⟨fun hmem => hz (List.mem_of_mem_drop hmem), rest, ?_⟩
  rw [Nat.add_assoc i k 1, ← List.drop_drop, drop_set_add, hs, List.drop_set, if_pos (Nat.lt_succ_self k),
    List.drop_append_of_le_length hk]

end

end CStr
end Conc
