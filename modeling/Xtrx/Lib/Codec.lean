import Mathlib.Algebra.Order.Ring.Int
import Mathlib.Data.List.Basic

/-!
# Values of a fixed size in bytes

A codec writes a value as a fixed number of bytes and reads it back. A list of values is written one
after the other (`encode`); the value at index `i` is read from the bytes from `i * size` on.
-/

namespace Conc

/-- A format with `size` bytes for each value. -/
structure Codec (T B : Type) where
  size : Nat
  pos : 0 < size
  toBytes : T → List B
  length_toBytes : ∀ x, (toBytes x).length = size
  ofBytes : List B → T
  ofBytes_toBytes : ∀ x, ofBytes (toBytes x) = x

namespace Codec

variable {T B : Type} (c : Codec T B)

/-- The bytes of the values, one after the other. -/
def encode (xs : List T) : List B := xs.flatMap c.toBytes

/-- The value in the bytes from index `i * size` on. -/
def read (bytes : List B) (i : Nat) : T := c.ofBytes ((bytes.drop (i * c.size)).take c.size)

@[simp] theorem encode_nil : c.encode [] = [] := rfl

theorem encode_cons (x : T) (xs : List T) : c.encode (x :: xs) = c.toBytes x ++ c.encode xs :=
  List.flatMap_cons

theorem encode_append (xs ys : List T) : c.encode (xs ++ ys) = c.encode xs ++ c.encode ys :=
  List.flatMap_append

theorem length_encode (xs : List T) : (c.encode xs).length = xs.length * c.size := by
  induction xs with
  | nil => simp
  | cons x xs ih =>
    rw [encode_cons, List.length_append, c.length_toBytes, ih, List.length_cons, Nat.succ_mul,
      Nat.add_comm]

/-- Behind the bytes of the first `k` values come those of the others. -/
theorem drop_encode (xs : List T) (k : Nat) :
    (c.encode xs).drop (k * c.size) = c.encode (xs.drop k) := by
  induction k generalizing xs with
  | zero => simp
  | succ k ih =>
    cases xs with
    | nil => simp
    | cons x xs =>
      rw [encode_cons, Nat.succ_mul, Nat.add_comm, ← List.drop_drop, List.drop_left' (c.length_toBytes x),
        ih, List.drop_succ_cons]

/-- The value at an index is read back. -/
theorem read_encode {xs : List T} {i : Nat} {x : T} (h : xs[i]? = some x) :
    c.read (c.encode xs) i = x := by
  obtain ⟨rest, hrest⟩ : ∃ rest, xs.drop i = x :: rest := by
    obtain ⟨hi, rfl⟩ := List.getElem?_eq_some_iff.mp h
    exact ⟨_, List.drop_eq_getElem_cons hi⟩
  rw [read, drop_encode, hrest, encode_cons, List.take_left' (c.length_toBytes x), c.ofBytes_toBytes]

end Codec

end Conc
