import Xtrx.Gateware.Lms7002m

/-!
# The pattern and its check

The generator sends the bits of a 24-bit count in the two lanes of a word; the checker compares each
word with the one before it.

- **`word24_lanes`**: what the generator packs, the checker unpacks.
- **`word24_data_succ`**, **`errors_succ`**: an edge of the generator, and of the checker, while they
  are enabled.
- **`pattern_checked`**: the register `errors` counts the words that do not follow the word before
  them, and there is none in the pattern, however long it takes to come back.
-/

namespace Xtrx
namespace Gateware

open Conc

/-! ## Packing -/

theorem word24_lanes (count : BitVec 24) : word24 (lanes count) = count := by
  have hhigh : (lanes count).extractLsb' 16 12 = count.extractLsb' 12 12 := by
    rw [lanes, BitVec.extractLsb'_append_eq_of_le (by decide)]
    apply (BitVec.extractLsb'_setWidth_of_le (by omega)).trans
    apply BitVec.extractLsb'_eq_self
  have hlow : (lanes count).extractLsb' 0 12 = count.extractLsb' 0 12 := by
    rw [lanes, BitVec.extractLsb'_append_eq_of_add_le (by omega)]
    apply (BitVec.extractLsb'_setWidth_of_le (by omega)).trans
    apply BitVec.extractLsb'_eq_self
  have hjoin : count.extractLsb' 12 12 ++ count.extractLsb' 0 12 = count.extractLsb' 0 (12 + 12) :=
    BitVec.extractLsb'_append_extractLsb'_eq_extractLsb' rfl
  rw [word24, hhigh, hlow]
  exact hjoin.trans BitVec.extractLsb'_eq_self

/-- The checker keeps the 24 bits that it compares. -/
theorem RXPatternChecker.count_edge (enable : Bool) (data : BitVec 32) (s : RXPatternChecker) :
    (s.edge enable data).count = word24 data := by
  rw [RXPatternChecker.edge, word24, BitVec.setWidth_extractLsb'_of_le (by omega),
    BitVec.setWidth_extractLsb'_of_le (by omega)]

/-! ## Edges -/

section

variable {σ : Type} {up : UpConverter σ} {s : LMS7002M σ} {input : Nat → Cycle} {t : Nat}

/-- The registers in a cycle. -/
abbrev regs (up : UpConverter σ) (s : LMS7002M σ) (input : Nat → Cycle) (t : Nat) : LMS7002M σ :=
  (lms7002m up).state s input t

/-- While the generator is enabled, each word follows the word before it. -/
theorem word24_data_succ (hen : (input t).txPatternEnable = true) :
    word24 (regs up s input (t + 2)).txPattern.data =
      word24 (regs up s input (t + 1)).txPattern.data + 1 := by
  have hdata : ∀ t, word24 (regs up s input (t + 1)).txPattern.data =
      (regs up s input t).txPattern.count := fun t => word24_lanes _
  have hcount : (regs up s input (t + 1)).txPattern.count =
      (regs up s input t).txPattern.count + 1 := by
    show (if !(input t).txPatternEnable then 0 else (regs up s input t).txPattern.count + 1) = _
    rw [hen]
    rfl
  rw [hdata, hdata, hcount]

/-- A word does not follow the word before it. -/
abbrev Wrong (input : Nat → Cycle) (t : Nat) : Prop :=
  word24 (input t).rxData ≠ word24 (input (t - 1)).rxData + 1

/-- From the second cycle on, the checker compares a word with the word before it. -/
theorem errors_succ (hen : (input t).rxPatternEnable = true)
    (hen' : (input (t + 1)).rxPatternEnable = true) :
    (regs up s input (t + 2)).rxPattern.errors =
      if Wrong input (t + 1) then (regs up s input (t + 1)).rxPattern.errors + 1
      else (regs up s input (t + 1)).rxPattern.errors := by
  have hsink : ∀ t, (input t).rxPatternEnable = true →
      ((regs up s input t).rx (input t)).patternData = (input t).rxData := by
    intro t ht
    rw [LMS7002M.rx, rxMux, if_pos ht]
  have hcount : (regs up s input (t + 1)).rxPattern.count = word24 (input t).rxData := by
    rw [← hsink t hen]
    exact RXPatternChecker.count_edge _ _ _
  show (if !(input (t + 1)).rxPatternEnable then 0
    else if RXPatternChecker.countError ((regs up s input (t + 1)).rx (input (t + 1))).patternData
      (regs up s input (t + 1)).rxPattern then _ else _) = _
  rw [hen', hsink (t + 1) hen']
  unfold RXPatternChecker.countError
  rw [hcount]
  simp [Wrong]

end

/-! ## Runs -/

variable {σ : Type}

/-- From the second cycle `a` on after the checker was enabled in cycle `t₀`, `errors` grows by the
number of wrong words; it does not grow if the words are those of the generator, enabled in cycle
`g₀`, with a delay of `d` cycles. -/
theorem pattern_checked (up : UpConverter σ) (s : LMS7002M σ) (input : Nat → Cycle) (t₀ a b : Nat)
    (hen : ∀ t, t₀ ≤ t → t < b → (input t).rxPatternEnable = true) (ha : t₀ + 1 ≤ a)
    (hab : a ≤ b) :
    (regs up s input b).rxPattern.errors - (regs up s input a).rxPattern.errors =
        BitVec.ofNat 32 (cycles (Wrong input) a b) ∧
      ∀ d g₀, (∀ t, g₀ ≤ t → t + d < b → (input t).txPatternEnable = true) → g₀ + d + 2 ≤ a →
        (∀ t, g₀ < t → t + d < b → (input (t + d)).rxData = (regs up s input t).txPattern.data) →
        (regs up s input b).rxPattern.errors = (regs up s input a).rxPattern.errors := by
  have htally : (regs up s input b).rxPattern.errors = (regs up s input a).rxPattern.errors +
      BitVec.ofNat 32 (cycles (Wrong input) a b) := by
    refine tally (r := fun t => (regs up s input t).rxPattern.errors) hab fun t hle hlt => ?_
    obtain ⟨t, rfl⟩ : ∃ u, t = u + 1 := ⟨t - 1, by omega⟩
    exact errors_succ (hen t (by omega) (by omega)) (hen (t + 1) (by omega) hlt)
  constructor
  · rw [htally, BitVec.add_comm]
    apply BitVec.add_sub_cancel
  · intro d g₀ hgen hg₀ hdelay
    have hnone : cycles (Wrong input) a b = 0 := by
      refine cycles_eq_zero fun t hle hlt => not_not.mpr ?_
      obtain ⟨u, rfl⟩ : ∃ u, t = u + 2 + d := ⟨t - d - 2, by omega⟩
      rw [show u + 2 + d - 1 = u + 1 + d by omega, hdelay (u + 2) (by omega) hlt,
        hdelay (u + 1) (by omega) (by omega)]
      exact word24_data_succ (hgen u (by omega) (by omega))
    rw [htally, hnone]
    apply BitVec.add_zero

/-- The pattern around the end of the count, back after one cycle. -/
def wrapCycle (t : Nat) : Cycle where
  txPatternEnable := true
  rxPatternEnable := true
  txInhibit := false
  txRxLoopbackEnable := false
  txConvLast := false
  txConvData := 0
  rxFrame := 0
  rxData := lanes (0xfffffd + BitVec.ofNat 24 t - 2)

def wrapStart : LMS7002M Unit := ⟨⟨false, 0xfffffd, 0⟩, ⟨0, 7⟩, ()⟩

/-- No error is found where the count begins again. -/
theorem pattern_checked_wrap :
    (regs ⟨fun _ _ _ => ((), none)⟩ wrapStart wrapCycle 5).txPattern.count = 2 ∧
      (regs ⟨fun _ _ _ => ((), none)⟩ wrapStart wrapCycle 8).rxPattern.errors =
        (regs ⟨fun _ _ _ => ((), none)⟩ wrapStart wrapCycle 3).rxPattern.errors := by
  have hback : ∀ t < 7, 0 < t → (wrapCycle (t + 1)).rxData =
      (regs ⟨fun _ _ _ => ((), none)⟩ wrapStart wrapCycle t).txPattern.data := by
    decide
  exact ⟨by decide, (pattern_checked ⟨fun _ _ _ => ((), none)⟩ wrapStart wrapCycle 0 3 8
    (fun _ _ _ => rfl) (by decide) (by decide)).2 1 0 (fun _ _ _ => rfl) (by decide)
    fun t hpos hlt => hback t (by omega) hpos⟩

end Gateware
end Xtrx
