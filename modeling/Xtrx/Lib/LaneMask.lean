import Mathlib.Algebra.Order.Ring.Int
import Mathlib.Data.Nat.Bitwise

/-!
# Words with equal lanes

A word has lanes of `p` bits, of which a mask keeps the low `w`.

* `laneMask`: the mask of `n` lanes.
* `laneDiff`: if two words that agree in the bits of the mask can be a given number apart; it is
  decided lane by lane (`laneDiff_of_land_eq`).
-/

namespace Conc

/-- The mask of `n` lanes. -/
def laneMask (p w : Nat) : Nat → Nat
  | 0 => 0
  | n + 1 => (2 ^ w - 1) + 2 ^ p * laneMask p w n

/-- The difference `v` of two words of `n` lanes that agree under the mask. In each lane it may be
carried into the next one. -/
def laneDiff (p w : Nat) : Nat → Nat → Bool
  | 0, v => v = 0
  | n + 1, v => v % 2 ^ w = 0 &&
    (laneDiff p w n (v / 2 ^ p) || v % 2 ^ p ≠ 0 && laneDiff p w n (v / 2 ^ p + 1))

variable {p w : Nat}

/-- What a mask leaves of the lowest lane and of the others. -/
theorem land_laneMask (h : w ≤ p) (n x : Nat) : (x &&& laneMask p w (n + 1)) % 2 ^ p = x % 2 ^ w ∧
    (x &&& laneMask p w (n + 1)) / 2 ^ p = x / 2 ^ p &&& laneMask p w n := by
  have hlt : 2 ^ w - 1 < 2 ^ p :=
    (Nat.sub_lt (Nat.two_pow_pos w) Nat.one_pos).trans_le (Nat.pow_le_pow_right (by decide) h)
  have hmod : laneMask p w (n + 1) % 2 ^ p = 2 ^ w - 1 := by
    rw [laneMask, Nat.add_mul_mod_self_left, Nat.mod_eq_of_lt hlt]
  have hdiv : laneMask p w (n + 1) / 2 ^ p = laneMask p w n := by
    rw [laneMask, Nat.add_mul_div_left _ _ (Nat.two_pow_pos p), Nat.div_eq_of_lt hlt, Nat.zero_add]
  constructor
  · rw [Nat.and_mod_two_pow, hmod, Nat.and_two_pow_sub_one_eq_mod,
      Nat.mod_mod_of_dvd _ (Nat.pow_dvd_pow 2 h)]
  · rw [Nat.and_div_two_pow, hdiv]

/-- Two words that agree under the mask. -/
theorem laneDiff_of_land_eq (h : w ≤ p) (n : Nat) {x y : Nat} (hx : x < 2 ^ (p * n))
    (hy : y < 2 ^ (p * n)) (hxy : x ≤ y) (heq : x &&& laneMask p w n = y &&& laneMask p w n) :
    laneDiff p w n (y - x) = true := by
  induction n generalizing x y with
  | zero =>
    rw [Nat.mul_zero, Nat.pow_zero] at hx hy
    simp [laneDiff]
    omega
  | succ n ih =>
    obtain ⟨hxlow, hxhigh⟩ := land_laneMask h n x
    obtain ⟨hylow, hyhigh⟩ := land_laneMask h n y
    have hlow : x % 2 ^ w = y % 2 ^ w := by rw [← hxlow, ← hylow, heq]
    have hhigh : x / 2 ^ p &&& laneMask p w n = y / 2 ^ p &&& laneMask p w n := by
      rw [← hxhigh, ← hyhigh, heq]
    have hpow : 2 ^ (p * (n + 1)) = 2 ^ p * 2 ^ (p * n) := by
      rw [Nat.mul_succ, Nat.add_comm, Nat.pow_add]
    rw [hpow] at hx hy
    have hle : x / 2 ^ p ≤ y / 2 ^ p := Nat.div_le_div_right hxy
    have hrest := ih (Nat.div_lt_of_lt_mul hx) (Nat.div_lt_of_lt_mul hy) hle hhigh
    have hzero : (y - x) % 2 ^ w = 0 := Nat.sub_mod_eq_zero_of_mod_eq hlow.symm
    have hxsplit := Nat.div_add_mod x (2 ^ p)
    have hysplit := Nat.div_add_mod y (2 ^ p)
    have hxmod := Nat.mod_lt x (Nat.two_pow_pos p)
    have hymod := Nat.mod_lt y (Nat.two_pow_pos p)
    obtain ⟨k, hk⟩ := Nat.exists_eq_add_of_le hle
    rw [hk, Nat.mul_add] at hysplit
    rw [hk, Nat.add_sub_cancel_left] at hrest
    by_cases hcarry : x % 2 ^ p ≤ y % 2 ^ p
    · have hsub : y - x = (y % 2 ^ p - x % 2 ^ p) + 2 ^ p * k := by omega
      have hdiv : (y - x) / 2 ^ p = k := by
        rw [hsub, Nat.add_mul_div_left _ _ (Nat.two_pow_pos p), Nat.div_eq_of_lt (by omega),
          Nat.zero_add]
      simp [laneDiff, hzero, hdiv, hrest]
    · -- the lane of `x` is the larger one, so it borrows from the next
      obtain ⟨j, rfl⟩ : ∃ j, k = j + 1 := Nat.exists_eq_add_one_of_ne_zero (by
        rintro rfl
        omega)
      rw [Nat.mul_succ] at hysplit
      have hsub : y - x = (2 ^ p + y % 2 ^ p - x % 2 ^ p) + 2 ^ p * j := by omega
      have hdiv : (y - x) / 2 ^ p = j := by
        rw [hsub, Nat.add_mul_div_left _ _ (Nat.two_pow_pos p), Nat.div_eq_of_lt (by omega),
          Nat.zero_add]
      have hmod : (y - x) % 2 ^ p ≠ 0 := by
        rw [hsub, Nat.add_mul_mod_self_left, Nat.mod_eq_of_lt (by omega)]
        omega
      simp [laneDiff, hzero, hdiv, hmod, hrest]

theorem laneDiff_dvd {n v : Nat} (h : laneDiff p w (n + 1) v = true) : 2 ^ w ∣ v := by
  simp only [laneDiff, Bool.and_eq_true, decide_eq_true_eq] at h
  exact Nat.dvd_of_mod_eq_zero h.1

/-- A mask that keeps all bits. -/
theorem laneDiff_self {n v : Nat} (h : laneDiff p p n v = true) : v = 0 := by
  induction n generalizing v with
  | zero => simpa [laneDiff] using h
  | succ n ih =>
    have hdvd := laneDiff_dvd h
    have hmod := Nat.mod_eq_zero_of_dvd hdvd
    simp only [laneDiff, hmod, ne_eq, not_true_eq_false, decide_false, decide_true, Bool.false_and,
      Bool.or_false, Bool.true_and] at h
    exact Nat.eq_zero_of_dvd_of_div_eq_zero hdvd (ih h)

end Conc
