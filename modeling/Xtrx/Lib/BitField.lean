import Mathlib.Algebra.Order.Ring.Int
import Mathlib.Logic.Function.Basic

/-!
# Fields of registers

Registers of `w` bits at addresses, and fields of them that are read and written by shifts and masks.

* `BitField.get`, `BitField.set`: a field's value, and a read-modify-write of it.
* `BitField.getLsbD_set`: what a write does to each bit of each register.
* `Fields`: fields without a common bit, by keys. They are independent variables:
  `Fields.get_writes` reads a field after any writes, `Fields.getLsbD_writes` a bit in no field.
* `lastWrite`: the last value that was written to a key.
-/

namespace Conc

/-- The registers, by their addresses. -/
abbrev Registers (w : Nat) : Type := Nat → BitVec w

/-- The lowest `k` bits, as `(1 << k) - 1`. -/
def lowBits (w k : Nat) : BitVec w := (1#w <<< k) - 1#w

theorem getLsbD_lowBits {w k : Nat} (h : k ≤ w) (i : Nat) :
    (lowBits w k).getLsbD i = decide (i < k) := by
  have hnat : lowBits w k = BitVec.ofNat w (2 ^ k - 1) := by
    have hpos : 0 < 2 ^ k := Nat.two_pow_pos k
    have hone : (1#w <<< k) = BitVec.ofNat w (2 ^ k) := by
      apply BitVec.eq_of_toNat_eq
      rw [BitVec.toNat_shiftLeft, BitVec.toNat_ofNat, BitVec.toNat_ofNat, Nat.shiftLeft_eq,
        Nat.mod_mul_mod, Nat.one_mul]
    rw [lowBits, hone, eq_comm, BitVec.eq_sub_iff_add_eq, ← BitVec.ofNat_add,
      Nat.sub_add_cancel hpos]
  rw [hnat, BitVec.getLsbD_ofNat, Nat.testBit_two_pow_sub_one]
  simp only [Bool.and_eq_right_iff_imp, decide_eq_true_eq]
  omega

/-- A field: `size` bits from the bit `offset` on of the register at `addr`. -/
structure BitField (w : Nat) where
  addr : Nat
  offset : Nat
  size : Nat
  fits : offset + size ≤ w

namespace BitField

variable {w : Nat} (f g : BitField w) {v : BitVec w} {b : Registers w}

def mask : BitVec w := lowBits w f.size <<< f.offset

def get (b : Registers w) : BitVec w := (b f.addr >>> f.offset) &&& lowBits w f.size

def set (v : BitVec w) (b : Registers w) : Registers w :=
  Function.update b f.addr ((b f.addr &&& ~~~f.mask) ||| (v <<< f.offset))

/-- The bit `i` of the register at `addr` is in the field. -/
def Covers (addr i : Nat) : Prop := addr = f.addr ∧ f.offset ≤ i ∧ i < f.offset + f.size

/-- The values of the field. -/
def Fits (v : BitVec w) : Prop := v.toNat < 2 ^ f.size

/-- No bit is in both fields. -/
def Separate : Prop := ∀ addr i, f.Covers addr i → ¬ g.Covers addr i

variable {f g}

theorem getLsbD_get (i : Nat) :
    (f.get b).getLsbD i = ((b f.addr).getLsbD (f.offset + i) && decide (i < f.size)) := by
  have hsize : f.size ≤ w := Nat.le_trans (Nat.le_add_left _ _) f.fits
  rw [get, BitVec.getLsbD_and, BitVec.getLsbD_ushiftRight, getLsbD_lowBits hsize]

theorem getLsbD_mask (i : Nat) :
    f.mask.getLsbD i = decide (f.offset ≤ i ∧ i < f.offset + f.size) := by
  have hsize : f.size ≤ w := Nat.le_trans (Nat.le_add_left _ _) f.fits
  have hfits := f.fits
  rw [mask, BitVec.getLsbD_shiftLeft, getLsbD_lowBits hsize, Bool.eq_iff_iff]
  simp only [Bool.and_eq_true, Bool.not_eq_true', decide_eq_true_eq, decide_eq_false_iff_not]
  omega

theorem Fits.getLsbD (h : f.Fits v) {i : Nat} (hi : f.size ≤ i) : v.getLsbD i = false := by
  refine Nat.testBit_lt_two_pow (Nat.lt_of_lt_of_le h ?_)
  exact Nat.pow_le_pow_right (by decide) hi

/-- A write changes the bits of the field and no other bit. -/
theorem getLsbD_set (h : f.Fits v) (addr i : Nat) [Decidable (f.Covers addr i)] :
    (f.set v b addr).getLsbD i =
      if f.Covers addr i then v.getLsbD (i - f.offset) else (b addr).getLsbD i := by
  have hfits := f.fits
  by_cases haddr : addr = f.addr
  · subst haddr
    rw [set, Function.update_self, BitVec.getLsbD_or, BitVec.getLsbD_and, BitVec.getLsbD_not,
      BitVec.getLsbD_shiftLeft, getLsbD_mask]
    split
    · rename_i hc
      obtain ⟨-, hle, hlt⟩ := hc
      have hw : i < w := by omega
      simp [hle, hlt, hw]
    · rename_i hc
      have hout : ¬ (f.offset ≤ i ∧ i < f.offset + f.size) := fun hin => hc ⟨rfl, hin⟩
      have hv : (!decide (i < f.offset) && v.getLsbD (i - f.offset)) = false := by
        by_cases hlt : i < f.offset
        · simp [hlt]
        · rw [h.getLsbD (by omega), Bool.and_false]
      by_cases hw : i < w
      · simp only [hout, hw, hv, decide_false, Bool.not_false, decide_true,
          Bool.and_true, Bool.true_and, Bool.or_false]
      · rw [BitVec.getLsbD_of_ge _ _ (Nat.le_of_not_lt hw)]
        simp [hw]
  · rw [set, Function.update_of_ne haddr, if_neg fun hc => haddr hc.1]

theorem get_set (h : f.Fits v) : f.get (f.set v b) = v := by
  classical
  apply BitVec.eq_of_getLsbD_eq
  intro i hi
  rw [getLsbD_get, getLsbD_set h]
  by_cases hs : i < f.size
  · rw [if_pos ⟨rfl, by omega, by omega⟩, Nat.add_sub_cancel_left]
    simp [hs]
  · rw [h.getLsbD (Nat.le_of_not_lt hs)]
    simp [hs]

theorem get_set_of_separate (h : f.Fits v) (hs : g.Separate f) :
    g.get (f.set v b) = g.get b := by
  classical
  apply BitVec.eq_of_getLsbD_eq
  intro i hi
  rw [getLsbD_get, getLsbD_get, getLsbD_set h]
  by_cases hsize : i < g.size
  · rw [if_neg (hs g.addr (g.offset + i) ⟨rfl, by omega, by omega⟩)]
  · simp [hsize]

/-- A field of one bit is tested with the bit's mask. -/
theorem get_eq_zero_of_bit (h : f.size = 1) :
    b f.addr &&& (1#w <<< f.offset) = 0#w ↔ f.get b = 0#w := by
  have hfits := f.fits
  have hw : f.offset < w := by omega
  have hbit : ∀ i, (b f.addr &&& (1#w <<< f.offset)).getLsbD i =
      (decide (i = f.offset) && (b f.addr).getLsbD f.offset) := by
    intro i
    rw [BitVec.getLsbD_and, BitVec.getLsbD_shiftLeft, BitVec.getLsbD_one]
    by_cases hi : i = f.offset
    · subst hi
      have hpos : 0 < w := by omega
      simp [hw, hpos]
    · have hout : ¬ (f.offset ≤ i ∧ i - f.offset = 0) := by omega
      simp only [hi, decide_false, Bool.false_and, Bool.and_eq_false_imp, Bool.and_eq_true,
        Bool.not_eq_true', decide_eq_true_eq, decide_eq_false_iff_not]
      omega
  have hget : ∀ i, (f.get b).getLsbD i =
      (decide (i = 0) && (b f.addr).getLsbD f.offset) := by
    intro i
    rw [getLsbD_get, h]
    rcases Nat.eq_zero_or_pos i with rfl | hpos
    · simp
    · have hne : ¬ i < 1 := Nat.not_lt.mpr hpos
      simp [hne, Nat.ne_of_gt hpos]
  constructor
  · intro hzero
    have h0 := hbit f.offset
    rw [hzero] at h0
    refine BitVec.eq_of_getLsbD_eq fun i _ => ?_
    rw [hget]
    simpa using fun _ => h0.symm
  · intro hzero
    have h0 := hget 0
    rw [hzero] at h0
    refine BitVec.eq_of_getLsbD_eq fun i _ => ?_
    rw [hbit]
    simpa using fun _ => h0.symm

end BitField

/-! ## Independent variables -/

/-- The last value that was written to the key `key`. -/
def lastWrite {K V : Type} [DecidableEq K] (key : K) : List (K × V) → Option V
  | [] => none
  | c :: cs => (lastWrite key cs).or (if c.1 = key then some c.2 else none)

theorem lastWrite_map {K V V' : Type} [DecidableEq K] (key : K) (f : K → V → V')
    (cs : List (K × V)) :
    lastWrite key (cs.map fun c => (c.1, f c.1 c.2)) = (lastWrite key cs).map (f key) := by
  induction cs with
  | nil => rfl
  | cons c cs ih =>
    simp only [List.map_cons, lastWrite, ih]
    cases lastWrite key cs with
    | some v => rfl
    | none =>
      by_cases hk : c.1 = key
      · subst hk
        rw [if_pos rfl, if_pos rfl]
        rfl
      · rw [if_neg hk, if_neg hk]
        rfl

theorem lastWrite_mem {K V : Type} [DecidableEq K] {key : K} {v : V} {cs : List (K × V)}
    (h : lastWrite key cs = some v) : (key, v) ∈ cs := by
  induction cs with
  | nil => cases h
  | cons c cs ih =>
    rcases Option.or_eq_some_iff.mp h with hlast | ⟨-, hfirst⟩
    · exact List.mem_cons_of_mem _ (ih hlast)
    · split at hfirst
      · rename_i hk
        cases hfirst
        subst hk
        exact List.mem_cons_self
      · cases hfirst

/-- Fields without a common bit. -/
structure Fields (K : Type) (w : Nat) where
  field : K → BitField w
  separate : ∀ k k', k ≠ k' → (field k).Separate (field k')

namespace Fields

variable {K : Type} {w : Nat} (F : Fields K w)

/-- The registers after writes, one after the other. -/
def writes (cs : List (K × BitVec w)) (b : Registers w) : Registers w :=
  cs.foldl (fun b c => (F.field c.1).set c.2 b) b

variable {F} {cs : List (K × BitVec w)} {b : Registers w}

/-- A field has the value that was written to it last. -/
theorem get_writes [DecidableEq K] (h : ∀ c ∈ cs, (F.field c.1).Fits c.2) (key : K) :
    (F.field key).get (F.writes cs b) = (lastWrite key cs).getD ((F.field key).get b) := by
  induction cs generalizing b with
  | nil => rfl
  | cons c cs ih =>
    have hc := h c List.mem_cons_self
    refine (ih fun c' hc' => h c' (List.mem_cons_of_mem _ hc')).trans ?_
    rw [lastWrite]
    cases lastWrite key cs with
    | some v => rfl
    | none =>
      by_cases hk : c.1 = key
      · subst hk
        rw [if_pos rfl]
        exact BitField.get_set hc
      · rw [if_neg hk]
        exact BitField.get_set_of_separate hc (F.separate _ _ (Ne.symm hk))

/-- A bit that is in no field stays as it is. -/
theorem getLsbD_writes (h : ∀ c ∈ cs, (F.field c.1).Fits c.2) {addr i : Nat}
    (hout : ∀ key, ¬ (F.field key).Covers addr i) :
    (F.writes cs b addr).getLsbD i = (b addr).getLsbD i := by
  classical
  induction cs generalizing b with
  | nil => rfl
  | cons c cs ih =>
    refine (ih fun c' hc' => h c' (List.mem_cons_of_mem _ hc')).trans ?_
    rw [BitField.getLsbD_set (h c List.mem_cons_self), if_neg (hout c.1)]

end Fields

end Conc
