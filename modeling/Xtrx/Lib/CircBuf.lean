import Mathlib.Algebra.Order.Ring.Int
import Mathlib.Data.Nat.Bitwise

/-!
# Circular buffers with a power of two of slots

A buffer of `2 ^ k` slots with two indices, of which the head is the next slot to write and the tail
the next one to read. Indices are taken modulo the size with a mask. The buffer is empty if they are
equal, so one slot stays free.

* `CircBuf.count`, `CircBuf.room`: how many items it holds, how many more it takes.
* `CircBuf.items`: the items, in the order in which they will be read.
* `CircBuf.push`, `CircBuf.pop`: the operations; `items_push`, `items_pop` are their rules.
-/

namespace Conc

/-- The index `i` in a buffer of `2 ^ k` slots. -/
def maskIndex (k i : Nat) : Nat := i &&& (2 ^ k - 1)

theorem maskIndex_eq (k i : Nat) : maskIndex k i = i % 2 ^ k := Nat.and_two_pow_sub_one_eq_mod i k

theorem maskIndex_lt (k i : Nat) : maskIndex k i < 2 ^ k := by
  rw [maskIndex_eq]
  exact Nat.mod_lt i (Nat.two_pow_pos k)

structure CircBuf (k : Nat) (α : Type) where
  buf : Nat → α
  head : Nat
  tail : Nat
  head_lt : head < 2 ^ k
  tail_lt : tail < 2 ^ k

namespace CircBuf

variable {k : Nat} {α : Type}

/-- An empty buffer. -/
def empty (buf : Nat → α) : CircBuf k α := ⟨buf, 0, 0, Nat.two_pow_pos k, Nat.two_pow_pos k⟩

/-- The items between the tail and the head. -/
def count (c : CircBuf k α) : Nat := maskIndex k (c.head + 2 ^ k - c.tail)

/-- The slots that are free, but one. -/
def room (c : CircBuf k α) : Nat := maskIndex k (c.tail + 2 ^ k - maskIndex k (c.head + 1))

def items (c : CircBuf k α) : List α :=
  (List.range c.count).map fun j => c.buf (maskIndex k (c.tail + j))

/-- Write an item, if there is room. -/
def push (x : α) (c : CircBuf k α) : Option (CircBuf k α) :=
  if c.room = 0 then none
  else some
    { c with
      buf := fun i => if i = c.head then x else c.buf i
      head := maskIndex k (c.head + 1)
      head_lt := maskIndex_lt k _ }

/-- Read an item, if there is one. -/
def pop (c : CircBuf k α) : Option (α × CircBuf k α) :=
  if c.head = c.tail then none
  else some (c.buf c.tail, { c with tail := maskIndex k (c.tail + 1), tail_lt := maskIndex_lt k _ })

variable {c c' : CircBuf k α} {x : α}

/-- Below twice the size the mask takes off the size or nothing. -/
theorem maskIndex_cases {k i : Nat} (h : i < 2 ^ k + 2 ^ k) :
    maskIndex k i = if i < 2 ^ k then i else i - 2 ^ k := by
  rw [maskIndex_eq]
  split
  · exact Nat.mod_eq_of_lt ‹_›
  · rw [Nat.mod_eq_sub_mod (by omega), Nat.mod_eq_of_lt (by omega)]

theorem count_eq (c : CircBuf k α) :
    c.count = if c.tail ≤ c.head then c.head - c.tail else c.head + 2 ^ k - c.tail := by
  have := c.head_lt
  have := c.tail_lt
  rw [count, maskIndex_cases (by omega)]
  split <;> split <;> omega

theorem room_eq (c : CircBuf k α) : c.room = 2 ^ k - 1 - c.count := by
  have hh := c.head_lt
  have ht := c.tail_lt
  rw [count_eq, room, maskIndex_cases (i := c.head + 1) (by omega)]
  by_cases hlast : c.head + 1 < 2 ^ k
  · rw [if_pos hlast, maskIndex_cases (by omega)]
    split <;> split <;> omega
  · rw [if_neg hlast, maskIndex_cases (by omega)]
    split <;> split <;> omega

theorem count_lt (c : CircBuf k α) : c.count < 2 ^ k := maskIndex_lt k _

theorem count_eq_zero : c.count = 0 ↔ c.head = c.tail := by
  have := c.head_lt
  have := c.tail_lt
  rw [count_eq]
  split <;> omega

@[simp] theorem length_items (c : CircBuf k α) : c.items.length = c.count := by simp [items]

@[simp] theorem items_empty (buf : Nat → α) : (empty buf : CircBuf k α).items = [] := by
  rw [← List.length_eq_zero_iff, length_items, count_eq_zero]
  rfl

theorem items_eq_nil : c.items = [] ↔ c.head = c.tail := by
  rw [← List.length_eq_zero_iff, length_items, count_eq_zero]

/-- The slot of an item that is held is not the head. -/
theorem maskIndex_ne_head {j : Nat} (h : j < c.count) : maskIndex k (c.tail + j) ≠ c.head := by
  have := c.head_lt
  have := c.tail_lt
  rw [count_eq] at h
  rw [maskIndex_cases (by split at h <;> omega)]
  split at h <;> split <;> omega

/-- The slot behind the last item is the head. -/
theorem maskIndex_count (c : CircBuf k α) : maskIndex k (c.tail + c.count) = c.head := by
  have := c.head_lt
  have := c.tail_lt
  have := c.count_lt
  rw [maskIndex_cases (by omega), count_eq]
  split <;> split <;> omega

theorem push_cases (h : c.push x = some c') :
    c.count + 1 < 2 ^ k ∧ c'.count = c.count + 1 ∧ c'.tail = c.tail ∧
      c'.buf = fun i => if i = c.head then x else c.buf i := by
  have hh := c.head_lt
  have ht := c.tail_lt
  have hc := c.count_lt
  have heq := c.count_eq
  unfold push at h
  rw [room_eq] at h
  split at h
  · cases h
  · rename_i hroom
    cases h
    refine ⟨by omega, ?_, rfl, rfl⟩
    show maskIndex k (maskIndex k (c.head + 1) + 2 ^ k - c.tail) = c.count + 1
    rw [maskIndex_cases (i := c.head + 1) (by omega)]
    by_cases hlast : c.head + 1 < 2 ^ k
    · rw [if_pos hlast, maskIndex_cases (by omega)]
      split <;> split at heq <;> omega
    · rw [if_neg hlast, maskIndex_cases (by omega)]
      split <;> split at heq <;> omega

theorem pop_cases (h : c.pop = some (x, c')) :
    c.count = c'.count + 1 ∧ x = c.buf c.tail ∧ c'.tail = maskIndex k (c.tail + 1) ∧
      c'.buf = c.buf := by
  have hh := c.head_lt
  have ht := c.tail_lt
  have heq := c.count_eq
  unfold pop at h
  split at h
  · cases h
  · rename_i hne
    cases h
    refine ⟨?_, rfl, rfl, rfl⟩
    show c.count = maskIndex k (c.head + 2 ^ k - maskIndex k (c.tail + 1)) + 1
    rw [maskIndex_cases (i := c.tail + 1) (by omega)]
    by_cases hlast : c.tail + 1 < 2 ^ k
    · rw [if_pos hlast, maskIndex_cases (by omega)]
      split <;> split at heq <;> omega
    · rw [if_neg hlast, maskIndex_cases (by omega)]
      split <;> split at heq <;> omega

/-- A write appends its item. -/
theorem items_push (h : c.push x = some c') : c'.items = c.items ++ [x] := by
  obtain ⟨-, hcount, htail, hbuf⟩ := push_cases h
  unfold items
  rw [hcount, htail, hbuf, List.range_succ, List.map_append, List.map_singleton]
  congr 1
  · refine List.map_congr_left fun j hj => if_neg ?_
    exact maskIndex_ne_head (List.mem_range.mp hj)
  · exact congrArg (fun y => [y]) (if_pos (maskIndex_count c))

/-- A read takes the first item. -/
theorem items_pop (h : c.pop = some (x, c')) : c.items = x :: c'.items := by
  obtain ⟨hcount, rfl, htail, hbuf⟩ := pop_cases h
  unfold items
  rw [hcount, htail, hbuf, List.range_succ_eq_map, List.map_cons, List.map_map]
  congr 1
  · rw [Nat.add_zero, maskIndex_eq, Nat.mod_eq_of_lt c.tail_lt]
  · refine List.map_congr_left fun j _ => ?_
    simp only [Function.comp_apply, maskIndex_eq]
    rw [Nat.mod_add_mod, Nat.add_assoc, Nat.add_comm 1 j]

end CircBuf

end Conc
