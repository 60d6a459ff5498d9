import Xtrx.Lib.LaneMask
import Xtrx.Kernel.Device
import Mathlib.Data.Finset.Card
import Mathlib.Data.Finset.Range
import Mathlib.Data.Int.ModEq
import Mathlib.Tactic.IntervalCases

/-!
# The DMA loopback test (`dma_test` in `litepcie_util.c`)

The test writes a pattern to each write buffer and compares each read buffer with it. Which buffers
there are, and when, is left to the events. Messages, the speed and the smallest number of errors, which
is only printed, are left out. A shift by the width of its operand or more, and one into the sign, is
undefined (`none`).

- **Functions**: the pattern, `write_pn_data`, `check_pn_data`, and the loop of `dma_test` by events.
- **The pattern** (`pn`): two rotations of it are the same in few words (`coincide_le_margin`).
- **`findDelay_right`**: the search accepts the delay of the loopback, and no other one.
- **`dmaTest_errors`**: the errors of a run are the words that are wrong at this delay.
-/

namespace Xtrx
namespace User
namespace DmaTest

open Conc Kernel

abbrev Word := BitVec 32

/-- `DMA_BUFFER_SIZE / sizeof(uint32_t)`. -/
abbrev dmaWords : Nat := dmaBufferSize / 4

/-! ## The pattern -/

/-- `add_mod_int`. -/
def addModInt (a b m : Int) : Int :=
  let a := a + b
  if a ≥ m then a - m else a

/-- `seed_to_data`. -/
def seedToData (seed : Word) : Word := seed * 69069 + 1

/-- The loop of `get_next_pow2`, with a bound on its turns. -/
def nextPow2 (dataWidth : Nat) : Nat → Nat → Nat
  | 0, x => x
  | n + 1, x => if x < dataWidth then nextPow2 dataWidth n (x <<< 1) else x

/-- `get_next_pow2`. -/
def getNextPow2 (dataWidth : Nat) : Nat := nextPow2 dataWidth dataWidth 1

/-- `x << n` of an `uint32_t`. -/
def shl (x : Word) (n : Nat) : Option Word := if n < 32 then some (x <<< n) else none

/-- `(1 << data_width) - 1` of an `int`. -/
def ones (dataWidth : Nat) : Option Word :=
  if dataWidth < 31 then some ((1 <<< dataWidth) - 1) else none

/-- `get_data_mask`. -/
def getDataMask (dataWidth : Nat) : Option Word :=
  (List.range (32 / getNextPow2 dataWidth)).foldlM (fun mask _ => do
    let mask ← shl mask (getNextPow2 dataWidth)
    return mask ||| (← ones dataWidth)) 0

/-- The step of the seed in the two loops below. -/
def nextSeed (seed : Word) : Word := BitVec.ofInt 32 (addModInt seed.toNat 1 dmaWords)

/-- The loop of `write_pn_data` over `count` words: these, and the seed behind them. -/
def writePnData (mask : Word) : Nat → Word → List Word × Word
  | 0, seed => ([], seed)
  | count + 1, seed =>
    let r := writePnData mask count (nextSeed seed)
    ((seedToData seed &&& mask) :: r.1, r.2)

/-- The loop of `check_pn_data`: the errors, and the seed behind the buffer. -/
def checkPnData (mask : Word) : List Word → Word → Nat × Word
  | [], seed => (0, seed)
  | x :: buf, seed =>
    let r := checkPnData mask buf (nextSeed seed)
    ((if x ≠ seedToData seed &&& mask then 1 else 0) + r.1, r.2)

/-! ## The loop -/

/-- The variables of `dma_test`. Recorded for the proofs: the buffers that were written. -/
structure Vars where
  seedWr : Word
  seedRd : Word
  run : Bool
  errors : BitVec 32
  ended : Bool
  written : List (List Word)

/-- The loop over the delays. -/
def findDelay (mask : Word) (buf : List Word) : List Nat → Vars → Vars
  | [], s => s
  | delay :: delays, s =>
    let (errors, seed) := checkPnData mask buf (BitVec.ofNat 32 delay)
    let s := { s with seedRd := seed, errors := BitVec.ofNat 32 errors }
    if errors < dmaWords / 2 then { s with run := true } else findDelay mask buf delays s

/-- What the loop of `dma_test` meets: a write buffer, a read buffer with the hardware count, and the
end of 200 ms. -/
inductive Event where
  | write
  | read (buf : List Word) (writerHwCount : Int)
  | statistics

/-- A write buffer, and the seed behind it. -/
def Vars.wrote (s : Vars) (r : List Word × Word) : Vars :=
  { s with seedWr := r.2, written := s.written ++ [r.1] }

def step (mask : Word) (s : Vars) : Event → Vars
  | .write => s.wrote (writePnData mask dmaWords s.seedWr)
  | .read buf writerHwCount =>
    -- skip the first 128 DMA loops
    if writerHwCount < 128 * dmaBufferCount then s
    else if s.run then
      let (errors, seed) := checkPnData mask buf s.seedRd
      { s with errors := s.errors + BitVec.ofNat 32 errors, seedRd := seed }
    else
      let s := findDelay mask buf (List.range dmaWords) s
      if s.run then s else { s with ended := true }
  | .statistics => if s.run then { s with errors := 0 } else s

/-- `dma_test` over the events of a run. There is no result either if the program exits. -/
def dmaTest (dataWidth : Nat) (autoRxDelay : Bool) (events : List Event) : Option Vars := do
  if dataWidth > 32 ∨ dataWidth < 1 then
    none
  let mask ← getDataMask dataWidth
  return events.foldl (fun s e => if s.ended then s else step mask s e)
    ⟨0, 0, !autoRxDelay, 0, false, []⟩

/-! ## What is written and checked -/

/-- The word at place `k` of the pattern. -/
def pn (mask : Word) (k : Nat) : Word := seedToData (BitVec.ofNat 32 (k % dmaWords)) &&& mask

/-- The words that are not those of the pattern from place `k` on. -/
def wrong (mask : Word) : Nat → List Word → Nat
  | _, [] => 0
  | k, x :: buf => (if x ≠ pn mask k then 1 else 0) + wrong mask (k + 1) buf

section

variable (mask : Word)

theorem toNat_seed (k : Nat) : (BitVec.ofNat 32 (k % dmaWords)).toNat = k % dmaWords := by
  have hlt : k % dmaWords < dmaWords := Nat.mod_lt k (by decide)
  rw [BitVec.toNat_ofNat, Nat.mod_eq_of_lt (hlt.trans (by decide))]

theorem nextSeed_eq (k : Nat) :
    nextSeed (BitVec.ofNat 32 (k % dmaWords)) = BitVec.ofNat 32 ((k + 1) % dmaWords) := by
  have hN : dmaWords = 16384 := rfl
  unfold nextSeed addModInt
  rw [toNat_seed, ← BitVec.ofInt_natCast]
  rw [hN]
  congr 1
  dsimp only
  split
  · omega
  · omega

theorem writePnData_eq (count k : Nat) : writePnData mask count (BitVec.ofNat 32 (k % dmaWords)) =
    ((List.range' k count).map (pn mask), BitVec.ofNat 32 ((k + count) % dmaWords)) := by
  induction count generalizing k with
  | zero => rfl
  | succ count ih =>
    rw [writePnData, nextSeed_eq, ih, List.range'_succ, Nat.add_assoc, Nat.add_comm 1]
    rfl

theorem checkPnData_eq (buf : List Word) (k : Nat) :
    checkPnData mask buf (BitVec.ofNat 32 (k % dmaWords)) =
      (wrong mask k buf, BitVec.ofNat 32 ((k + buf.length) % dmaWords)) := by
  induction buf generalizing k with
  | nil => rfl
  | cons x buf ih =>
    rw [checkPnData, nextSeed_eq, ih, List.length_cons, Nat.add_assoc, Nat.add_comm 1]
    rfl

/-- A turn of the search. -/
theorem findDelay_cons {buf : List Word} (hbuf : buf.length = dmaWords) {d : Nat} (hd : d < dmaWords)
    (ds : List Nat) (s : Vars) : findDelay mask buf (d :: ds) s =
      if wrong mask d buf < dmaWords / 2 then { s with
        seedRd := BitVec.ofNat 32 d, errors := BitVec.ofNat 32 (wrong mask d buf), run := true }
      else findDelay mask buf ds { s with
        seedRd := BitVec.ofNat 32 d, errors := BitVec.ofNat 32 (wrong mask d buf) } := by
  have hcheck := checkPnData_eq mask buf d
  rw [hbuf, Nat.add_mod_right, Nat.mod_eq_of_lt hd] at hcheck
  rw [findDelay, hcheck]

/-- The search stops at the first delay at which less than half of the words are wrong. -/
theorem findDelay_eq {buf : List Word} (hbuf : buf.length = dmaWords) {d n m : Nat} (hn : n < m)
    (hm : d + m ≤ dmaWords) (hbefore : ∀ e, d ≤ e → e < d + n → dmaWords / 2 ≤ wrong mask e buf)
    (hfound : wrong mask (d + n) buf < dmaWords / 2) (s : Vars) :
    findDelay mask buf (List.range' d m) s = { s with
      seedRd := BitVec.ofNat 32 (d + n), errors := BitVec.ofNat 32 (wrong mask (d + n) buf),
      run := true } := by
  induction n generalizing d m s with
  | zero =>
    obtain ⟨m, rfl⟩ := Nat.exists_eq_add_one_of_ne_zero (Nat.ne_of_gt hn)
    rw [Nat.add_zero] at hfound
    rw [List.range'_succ, findDelay_cons mask hbuf (by omega), if_pos hfound, Nat.add_zero]
  | succ n ih =>
    obtain ⟨m, rfl⟩ := Nat.exists_eq_add_one_of_ne_zero (Nat.ne_zero_of_lt hn)
    have hnot : ¬ wrong mask d buf < dmaWords / 2 :=
      Nat.not_lt.mpr (hbefore d (Nat.le_refl d) (by omega))
    have hnext : d + (n + 1) = d + 1 + n := by omega
    rw [hnext] at hfound ⊢
    rw [List.range'_succ, findDelay_cons mask hbuf (by omega), if_neg hnot,
      ih (by omega) (by omega) (fun e hle hlt => hbefore e (by omega) (by omega)) hfound]

/-! ## The distances at which the pattern repeats -/

/-- How many of `n` words of two rotations of the pattern are the same. -/
def coincide (mask : Word) : Nat → Nat → Nat → Nat
  | _, _, 0 => 0
  | d, e, n + 1 => (if pn mask d = pn mask e then 1 else 0) + coincide mask (d + 1) (e + 1) n

/-- A word can be right at two delays only where the pattern is the same. -/
theorem length_le_wrong (buf : List Word) (d e : Nat) :
    buf.length ≤ wrong mask d buf + wrong mask e buf + coincide mask d e buf.length := by
  induction buf generalizing d e with
  | nil => exact Nat.zero_le _
  | cons x buf ih =>
    have hrest := ih (d + 1) (e + 1)
    have hone : 1 ≤ (if x ≠ pn mask d then 1 else 0) + (if x ≠ pn mask e then 1 else 0) +
        if pn mask d = pn mask e then 1 else 0 := by
      by_cases hd : x = pn mask d
      · by_cases he : x = pn mask e
        · simp [hd ▸ he]
        · simp [he]
          omega
      · simp [hd]
        omega
    rw [List.length_cons, wrong, wrong, coincide]
    omega

theorem coincide_eq (d e n : Nat) : coincide mask d e n =
    ((Finset.range n).filter fun i => pn mask (d + i) = pn mask (e + i)).card := by
  have hlist : ((Finset.range n).filter fun i => pn mask (d + i) = pn mask (e + i)).card =
      (List.range n).countP fun i => pn mask (d + i) = pn mask (e + i) :=
    List.countP_eq_length_filter.symm
  rw [hlist]
  clear hlist
  induction n generalizing d e with
  | zero => rfl
  | succ n ih =>
    rw [coincide, ih, List.range_succ_eq_map, List.countP_cons, List.countP_map, Nat.add_comm]
    simp [Function.comp_def, Nat.add_assoc, Nat.add_comm 1]

/-- The word at place `a` as a number, under the mask `m`. No seed makes it overflow. -/
def value (m a : Nat) : Nat := (69069 * a + 1) &&& m

theorem pn_eq_iff (j k : Nat) : pn mask j = pn mask k ↔
    value mask.toNat (j % dmaWords) = value mask.toNat (k % dmaWords) := by
  have hval (k : Nat) : (pn mask k).toNat = value mask.toNat (k % dmaWords) := by
    have hlt : k % dmaWords < 16384 := Nat.mod_lt k (by decide)
    unfold pn seedToData value
    rw [BitVec.toNat_and, BitVec.toNat_add, BitVec.toNat_mul, toNat_seed]
    congr 1
    simp
    omega
  rw [← BitVec.toNat_inj, hval, hval]

/-- How often the words at the distance `x` are the same. -/
def repeats (m x : Nat) : Nat :=
  (List.range (dmaWords - x)).countP fun a => value m a = value m (a + x)

theorem repeats_eq_card (m x : Nat) : repeats m x =
    ((Finset.range (dmaWords - x)).filter fun a => value m a = value m (a + x)).card :=
  List.countP_eq_length_filter

/-- Two rotations are the same at the places where the pattern repeats at their distance, forwards or
around the end. -/
theorem coincide_le {d e : Nat} (hd : d < dmaWords) (he : e < dmaWords) (hde : d ≠ e) : ∃ x, 0 < x ∧
    x < dmaWords ∧ coincide mask d e dmaWords ≤
      repeats mask.toNat x + repeats mask.toNat (dmaWords - x) := by
  rw [coincide_eq]
  simp only [repeats_eq_card, pn_eq_iff]
  generalize dmaWords = n at *
  generalize mask.toNat = m
  obtain ⟨x, hx0, hlt, hx⟩ : ∃ x, 0 < x ∧ x < n ∧ (e = d + x ∨ e + n = d + x) := by
    by_cases h : d < e
    · exact ⟨e - d, by omega, by omega, .inl (by omega)⟩
    · exact ⟨e + n - d, by omega, by omega, .inr (by omega)⟩
  -- the place in the second rotation, from that in the first one
  have hplace (i : Nat) : (e + i) % n = ((d + i) % n + x) % n := by
    rw [Nat.mod_add_mod]
    rcases hx with rfl | hx
    · congr 1
      omega
    · rw [← Nat.add_mod_right (e + i)]
      congr 1
      omega
  have hinj : ∀ i < n, ∀ j < n, (d + i) % n = (d + j) % n → i = j := by
    intro i hi j hj hij
    have hmod := Nat.ModEq.add_left_cancel' d hij
    rwa [Nat.ModEq, Nat.mod_eq_of_lt hi, Nat.mod_eq_of_lt hj] at hmod
  refine ⟨x, hx0, hlt, ?_⟩
  rw [← Finset.card_filter_add_card_filter_not fun i => (d + i) % n + x < n]
  refine Nat.add_le_add ?_ ?_
  · refine Finset.card_le_card_of_injOn (fun i => (d + i) % n) (fun i hi => ?_) fun i hi j hj hij => ?_
    · simp only [Finset.coe_filter, Finset.mem_filter, Finset.mem_range, Set.mem_ofPred_eq] at hi ⊢
      obtain ⟨⟨hi, hval⟩, hfits⟩ := hi
      rw [hplace, Nat.mod_eq_of_lt hfits] at hval
      exact ⟨by omega, hval⟩
    · simp only [Finset.coe_filter, Finset.mem_filter, Finset.mem_range, Set.mem_ofPred_eq] at hi hj
      exact hinj i hi.1.1 j hj.1.1 hij
  · refine Finset.card_le_card_of_injOn (fun i => (d + i) % n + x - n) (fun i hi => ?_)
      fun i hi j hj hij => ?_
    · simp only [Finset.coe_filter, Finset.mem_filter, Finset.mem_range, Set.mem_ofPred_eq] at hi ⊢
      obtain ⟨⟨hi, hval⟩, hwraps⟩ := hi
      have hmod : (d + i) % n < n := Nat.mod_lt _ (by omega)
      have hsum : ((d + i) % n + x) % n = (d + i) % n + x - n := by
        rw [Nat.mod_eq_sub_mod (by omega), Nat.mod_eq_of_lt (by omega)]
      have hagain : (d + i) % n + x - n + (n - x) = (d + i) % n := by omega
      rw [hplace, hsum] at hval
      exact ⟨by omega, by rw [hagain, hval]⟩
    · simp only [Finset.coe_filter, Finset.mem_filter, Finset.mem_range, Set.mem_ofPred_eq] at hi hj
      dsimp only at hij
      exact hinj i hi.1.1 j hj.1.1 (by omega)

/-- Where the words of the pattern cannot be the same under a mask. -/
theorem repeats_eq_zero {p w n x : Nat} (h : w ≤ p) (hn : p * n = 32) (hx : x ≤ dmaWords)
    (hdiff : laneDiff p w n (69069 * x) = false) : repeats (laneMask p w n) x = 0 := by
  refine List.countP_eq_zero.mpr fun a ha heq => ?_
  have ha' := List.mem_range.mp ha
  have hlt : ∀ b ≤ dmaWords, 69069 * b + 1 < 2 ^ (p * n) := by
    intro b hb
    have hN : dmaWords = 16384 := rfl
    rw [hn]
    omega
  have hsame := laneDiff_of_land_eq h n (hlt a (by omega)) (hlt (a + x) (by omega)) (by omega)
    (of_decide_eq_true heq)
  have hsub : 69069 * (a + x) + 1 - (69069 * a + 1) = 69069 * x := by omega
  rw [hsub, hdiff] at hsame
  cases hsame

/-- The distances at which the pattern repeats. -/
def Repeating (dataWidth x : Nat) : Prop :=
  (dataWidth = 5 ∧ (x = 7712 ∨ x = 15424)) ∨ (dataWidth = 6 ∧ x = 15424)

instance (dataWidth x : Nat) : Decidable (Repeating dataWidth x) := by
  unfold Repeating
  infer_instance

/-- For how many words it does. -/
def margin (dataWidth : Nat) : Nat := if dataWidth = 5 then 3033 else if dataWidth = 6 then 59 else 0

theorem getDataMask_eq : ∀ w ≤ 16, 1 ≤ w → w ≤ getNextPow2 w ∧
    getNextPow2 w * (32 / getNextPow2 w) = 32 ∧
      laneMask (getNextPow2 w) w (32 / getNextPow2 w) < 2 ^ 32 ∧
      getDataMask w = some (BitVec.ofNat 32 (laneMask (getNextPow2 w) w (32 / getNextPow2 w))) := by
  decide +kernel

/-- No other distance up to `dmaWords` is one at which words of the width `w` agree; only the multiples
of `2 ^ w` are tried. -/
def farCheck (p w n : Nat) : Bool := (List.range (2 ^ (14 - w))).all fun j =>
  j = 0 || Repeating w (2 ^ w * j) || !laneDiff p w n (69069 * (2 ^ w * j))

theorem farCheck_three : farCheck 4 3 8 = true := by decide +kernel

theorem farCheck_eight : ∀ w ≤ 7, 5 ≤ w → farCheck 8 w 4 = true := by decide +kernel

theorem farCheck_sixteen : ∀ w ≤ 15, 9 ≤ w → farCheck 16 w 2 = true := by decide +kernel

theorem laneDiff_far {w x : Nat} (hw : 1 ≤ w) (hw' : w ≤ 16) (hx : 0 < x) (hx' : x < dmaWords)
    (hrep : ¬ Repeating w x) :
    laneDiff (getNextPow2 w) w (32 / getNextPow2 w) (69069 * x) = false := by
  refine Bool.eq_false_iff.mpr fun hdiff => ?_
  have hN : dmaWords = 16384 := rfl
  have hcheck {p n : Nat} (hcheck : farCheck p w (n + 1) = true)
      (hdiff : laneDiff p w (n + 1) (69069 * x) = true) : False := by
    -- `69069` is odd
    have hcop : Nat.Coprime (2 ^ w) 69069 := Nat.Coprime.pow_left w (by decide)
    obtain ⟨j, rfl⟩ := hcop.dvd_of_dvd_mul_left (laneDiff_dvd hdiff)
    have hj0 : j ≠ 0 := by
      rintro rfl
      simp at hx
    have hj : j < 2 ^ (14 - w) := by
      rw [hN] at hx'
      interval_cases w <;> omega
    have hone := List.all_eq_true.mp hcheck j (List.mem_range.mpr hj)
    simp [hj0, hrep, hdiff] at hone
  have hself {n : Nat} (hdiff : laneDiff w w n (69069 * x) = true) : False := by
    have hzero := laneDiff_self hdiff
    omega
  interval_cases w
  · exact hself hdiff
  · exact hself hdiff
  · exact hcheck farCheck_three hdiff
  · exact hself hdiff
  · exact hcheck (farCheck_eight 5 (by decide) (by decide)) hdiff
  · exact hcheck (farCheck_eight 6 (by decide) (by decide)) hdiff
  · exact hcheck (farCheck_eight 7 (by decide) (by decide)) hdiff
  · exact hself hdiff
  · exact hcheck (farCheck_sixteen 9 (by decide) (by decide)) hdiff
  · exact hcheck (farCheck_sixteen 10 (by decide) (by decide)) hdiff
  · exact hcheck (farCheck_sixteen 11 (by decide) (by decide)) hdiff
  · exact hcheck (farCheck_sixteen 12 (by decide) (by decide)) hdiff
  · exact hcheck (farCheck_sixteen 13 (by decide) (by decide)) hdiff
  · exact hcheck (farCheck_sixteen 14 (by decide) (by decide)) hdiff
  · exact hcheck (farCheck_sixteen 15 (by decide) (by decide)) hdiff
  · exact hself hdiff

theorem repeats_five : repeats (laneMask 8 5 4) 7712 ≤ 3033 ∧ repeats (laneMask 8 5 4) 15424 ≤ 3033 := by
  decide +kernel

theorem repeats_six : repeats (laneMask 8 6 4) 15424 ≤ 59 := by decide +kernel

/-- Two rotations are the same in at most `margin` words. -/
theorem coincide_le_margin {w : Nat} (hw : 1 ≤ w) (hw' : w ≤ 16) (hmask : getDataMask w = some mask)
    {d e : Nat} (hd : d < dmaWords) (he : e < dmaWords) (hde : d ≠ e) :
    coincide mask d e dmaWords ≤ margin w := by
  obtain ⟨hle, hn, hlt, hdata⟩ := getDataMask_eq w hw' hw
  obtain ⟨x, hx, hx', hcount⟩ := coincide_le mask hd he hde
  have hmaskNat : mask.toNat = laneMask (getNextPow2 w) w (32 / getNextPow2 w) := by
    obtain rfl : _ = mask := Option.some.inj (hdata.symm.trans hmask)
    rw [BitVec.toNat_ofNat, Nat.mod_eq_of_lt hlt]
  rw [hmaskNat] at hcount
  have hzero {y : Nat} (hy : 0 < y) (hy' : y < dmaWords) (hrep : ¬ Repeating w y) :
      repeats (laneMask (getNextPow2 w) w (32 / getNextPow2 w)) y = 0 :=
    repeats_eq_zero hle hn hy'.le (laneDiff_far hw hw' hy hy' hrep)
  have hbound {y : Nat} (hrep : Repeating w y) :
      repeats (laneMask (getNextPow2 w) w (32 / getNextPow2 w)) y ≤ margin w := by
    rcases hrep with ⟨rfl, rfl | rfl⟩ | ⟨rfl, rfl⟩
    · exact repeats_five.1
    · exact repeats_five.2
    · exact repeats_six
  -- the two distances add up to the whole pattern, so not both are among those of `Repeating`
  by_cases hrep : Repeating w x
  · have hother : ¬ Repeating w (dmaWords - x) := by
      rcases hrep with ⟨rfl, rfl | rfl⟩ | ⟨rfl, rfl⟩ <;> decide
    have hback := hzero (by omega) (by omega) hother
    have hforth := hbound hrep
    omega
  · have hforth := hzero hx hx' hrep
    by_cases hother : Repeating w (dmaWords - x)
    · have hback := hbound hother
      omega
    · have hback := hzero (by omega) (by omega) hother
      omega

end

/-! ## The delay -/

section

variable {mask : Word} {w d : Nat} {buf : List Word}

/-- If at a delay less than half of the words are wrong, by the margin, no other delay is accepted. -/
theorem wrong_other (hw : 1 ≤ w) (hw' : w ≤ 16) (hmask : getDataMask w = some mask)
    (hbuf : buf.length = dmaWords) (hd : d < dmaWords)
    (hright : wrong mask d buf + margin w < dmaWords / 2) {e : Nat} (he : e < dmaWords) (hde : d ≠ e) :
    dmaWords / 2 ≤ wrong mask e buf := by
  have hlen := length_le_wrong mask buf d e
  have hmargin := coincide_le_margin mask hw hw' hmask hd he hde
  have hN : dmaWords = 16384 := rfl
  rw [hbuf] at hlen
  omega

/-- The search finds the delay. -/
theorem findDelay_right (hw : 1 ≤ w) (hw' : w ≤ 16) (hmask : getDataMask w = some mask)
    (hbuf : buf.length = dmaWords) (hd : d < dmaWords)
    (hright : wrong mask d buf + margin w < dmaWords / 2) (s : Vars) :
    findDelay mask buf (List.range dmaWords) s = { s with
      seedRd := BitVec.ofNat 32 d, errors := BitVec.ofNat 32 (wrong mask d buf), run := true } := by
  have hfirst := findDelay_eq mask hbuf (d := 0) (n := d) hd (by omega)
    (fun e _ he => wrong_other hw hw' hmask hbuf hd hright (by omega) (by omega))
    (by rw [Nat.zero_add]; omega) s
  rwa [Nat.zero_add, ← List.range_eq_range'] at hfirst

end

/-! ## Runs -/

/-- The buffer that an event checks. -/
def Event.checked : Event → Option (List Word)
  | .read buf writerHwCount => if writerHwCount < 128 * dmaBufferCount then none else some buf
  | _ => none

/-- The errors since the last statistics, if the delay is `d`. -/
def counted (mask : Word) (d n : Nat) : Event → Nat
  | .statistics => 0
  | e => n + (e.checked.elim 0 (wrong mask d))

/-- The words of a buffer from place `d` of the pattern on. -/
def pattern (mask : Word) (d : Nat) : List Word := (List.range' d dmaWords).map (pn mask)

/-- What holds before and after the search. -/
structure Writing (mask : Word) (s : Vars) : Prop where
  ended : s.ended = false
  seedWr : s.seedWr = BitVec.ofNat 32 0
  written : ∀ buf ∈ s.written, buf = pattern mask 0

structure Checking (mask : Word) (d n : Nat) (s : Vars) : Prop extends Writing mask s where
  run : s.run = true
  seedRd : s.seedRd = BitVec.ofNat 32 d
  errors : s.errors = BitVec.ofNat 32 n

section

variable {mask : Word} {w d n : Nat} {s : Vars}

theorem writePnData_pattern (mask : Word) :
    writePnData mask dmaWords (BitVec.ofNat 32 0) = (pattern mask 0, BitVec.ofNat 32 0) := by
  have hbuf := writePnData_eq mask dmaWords 0
  rw [Nat.zero_mod, Nat.zero_add, Nat.mod_self] at hbuf
  exact hbuf

/-- A round of the test with a write buffer. -/
theorem step_write (h : s.seedWr = BitVec.ofNat 32 0) : step mask s .write =
    { s with seedWr := BitVec.ofNat 32 0, written := s.written ++ [pattern mask 0] } := by
  show s.wrote (writePnData mask dmaWords s.seedWr) = _
  rw [h, writePnData_pattern]
  rfl

theorem Writing.write (h : Writing mask s) : Writing mask (step mask s .write) := by
  rw [step_write h.seedWr]
  refine ⟨h.ended, rfl, fun buf hmem => ?_⟩
  rcases List.mem_append.mp hmem with hmem | hmem
  · exact h.written buf hmem
  · exact List.mem_singleton.mp hmem

theorem Checking.step (hd : d < dmaWords) (h : Checking mask d n s) (e : Event)
    (hbuf : ∀ buf, e.checked = some buf → buf.length = dmaWords) :
    Checking mask d (counted mask d n e) (DmaTest.step mask s e) := by
  cases e with
  | write =>
    have hwrite := h.toWriting.write
    rw [step_write h.seedWr] at hwrite ⊢
    exact ⟨hwrite, h.run, h.seedRd, h.errors⟩
  | statistics =>
    unfold DmaTest.step
    dsimp only
    rw [if_pos h.run]
    exact ⟨⟨h.ended, h.seedWr, h.written⟩, h.run, h.seedRd, rfl⟩
  | read buf writerHwCount =>
    unfold DmaTest.step counted Event.checked
    dsimp only
    by_cases hskip : writerHwCount < 128 * dmaBufferCount
    · rw [if_pos hskip, if_pos hskip]
      exact h
    · have hlen := hbuf buf (if_neg hskip)
      have hcheck := checkPnData_eq mask buf d
      rw [hlen, Nat.add_mod_right, Nat.mod_eq_of_lt hd] at hcheck
      rw [if_neg hskip, if_neg hskip, if_pos h.run, h.seedRd, hcheck]
      refine ⟨⟨h.ended, h.seedWr, h.written⟩, h.run, rfl, ?_⟩
      dsimp only
      rw [h.errors, ← BitVec.ofNat_add]
      rfl

/-- A turn of the loop of `dma_test`. -/
def turn (mask : Word) (s : Vars) (e : Event) : Vars := if s.ended then s else step mask s e

theorem Checking.run_events (hd : d < dmaWords) (events : List Event) (h : Checking mask d n s)
    (hbuf : ∀ e ∈ events, ∀ buf, e.checked = some buf → buf.length = dmaWords) :
    Checking mask d (events.foldl (counted mask d) n) (events.foldl (turn mask) s) := by
  induction events generalizing n s with
  | nil => exact h
  | cons e events ih =>
    have hstep := h.step hd e (hbuf e (List.mem_cons_self ..))
    have hturn : turn mask s e = DmaTest.step mask s e := if_neg (by simp [h.ended])
    rw [List.foldl_cons, List.foldl_cons, hturn]
    exact ih hstep fun e' he' => hbuf e' (List.mem_cons_of_mem _ he')

/-- The first buffer that is read is searched, and then it is checked. -/
theorem Writing.first_check (hw : 1 ≤ w) (hw' : w ≤ 16) (hmask : getDataMask w = some mask)
    (hd : d < dmaWords) {buf : List Word} {writerHwCount : Int} (h : Writing mask s)
    (hrun : s.run = false) (hskip : ¬ writerHwCount < 128 * dmaBufferCount)
    (hlen : buf.length = dmaWords) (hright : wrong mask d buf + margin w < dmaWords / 2) :
    Checking mask d (wrong mask d buf) (step mask s (.read buf writerHwCount)) := by
  have hfind := findDelay_right hw hw' hmask hlen hd hright s
  unfold step
  dsimp only
  rw [if_neg hskip, hrun, if_neg Bool.false_ne_true, hfind, if_pos rfl]
  exact ⟨⟨h.ended, h.seedWr, h.written⟩, rfl, rfl, rfl⟩

/-- The loop before the search: there is nothing to count. -/
theorem searching_run (hw : 1 ≤ w) (hw' : w ≤ 16) (hmask : getDataMask w = some mask)
    (hd : d < dmaWords) (events : List Event) (h : Writing mask s) (hrun : s.run = false)
    (herrors : s.errors = 0)
    (hbuf : ∀ e ∈ events, ∀ buf, e.checked = some buf → buf.length = dmaWords)
    (hright : ∀ buf, events.findSome? Event.checked = some buf →
      wrong mask d buf + margin w < dmaWords / 2) :
    (events.foldl (turn mask) s).errors = BitVec.ofNat 32 (events.foldl (counted mask d) 0) ∧
      Writing mask (events.foldl (turn mask) s) ∧
      ((events.foldl (turn mask) s).run = true →
        (events.foldl (turn mask) s).seedRd = BitVec.ofNat 32 d) := by
  induction events generalizing s with
  | nil => exact ⟨herrors, h, fun ht => by rw [List.foldl_nil, hrun] at ht; cases ht⟩
  | cons e events ih =>
    have hturn : turn mask s e = step mask s e := if_neg (by simp [h.ended])
    have hbuf' := fun e' he' => hbuf e' (List.mem_cons_of_mem e he')
    rw [List.foldl_cons, List.foldl_cons, hturn]
    rw [List.findSome?_cons] at hright
    cases e with
    | write =>
      have hwrite := h.write
      rw [step_write h.seedWr] at hwrite ⊢
      exact ih hwrite hrun herrors hbuf' hright
    | statistics =>
      have hsame : step mask s .statistics = s := if_neg (by simp [hrun])
      rw [hsame]
      exact ih h hrun herrors hbuf' hright
    | read buf writerHwCount =>
      by_cases hskip : writerHwCount < 128 * dmaBufferCount
      · have hnone : (Event.read buf writerHwCount).checked = none := if_pos hskip
        have hsame : step mask s (.read buf writerHwCount) = s := if_pos hskip
        have hcounted : counted mask d 0 (.read buf writerHwCount) = 0 := by
          show 0 + (Event.read buf writerHwCount).checked.elim 0 (wrong mask d) = 0
          rw [hnone]
          rfl
        rw [hnone] at hright
        rw [hsame, hcounted]
        exact ih h hrun herrors hbuf' hright
      · have hsome : (Event.read buf writerHwCount).checked = some buf := if_neg hskip
        rw [hsome] at hright
        have hlen := hbuf _ (List.mem_cons_self ..) buf hsome
        have hstep := h.first_check hw hw' hmask hd hrun hskip hlen (hright buf rfl)
        have hcounted : counted mask d 0 (.read buf writerHwCount) = wrong mask d buf := by
          show 0 + (Event.read buf writerHwCount).checked.elim 0 (wrong mask d) = _
          rw [hsome]
          exact Nat.zero_add _
        have hall := hstep.run_events hd events hbuf'
        rw [hcounted]
        exact ⟨hall.errors, hall.toWriting, fun _ => hall.seedRd⟩

end

/-- A run of the test against a board that returns the pattern with the delay `d`, changed in any words:
with the automatic delay the first buffer that is checked has to be right, by the margin, in half of its
words. Each write buffer is the pattern, the delay is found, and the errors are the words that were
wrong since the last statistics. -/
theorem dmaTest_errors {w d : Nat} {mask : Word} (hw : 1 ≤ w) (hw' : w ≤ 16)
    (hmask : getDataMask w = some mask) (hd : d < dmaWords) (autoRxDelay : Bool) (events : List Event)
    (hbuf : ∀ e ∈ events, ∀ buf, e.checked = some buf → buf.length = dmaWords)
    (hauto : autoRxDelay = true → ∀ buf, events.findSome? Event.checked = some buf →
      wrong mask d buf + margin w < dmaWords / 2)
    (hnone : autoRxDelay = false → d = 0) :
    ∃ s, dmaTest w autoRxDelay events = some s ∧ s.ended = false ∧
      (∀ buf ∈ s.written, buf = pattern mask 0) ∧ (s.run = true → s.seedRd = BitVec.ofNat 32 d) ∧
      s.errors = BitVec.ofNat 32 (events.foldl (counted mask d) 0) := by
  have hrun : dmaTest w autoRxDelay events =
      some (events.foldl (turn mask) ⟨0, 0, !autoRxDelay, 0, false, []⟩) := by
    unfold dmaTest
    rw [if_neg (by omega), hmask]
    rfl
  refine ⟨_, hrun, ?_⟩
  have hstart (run : Bool) : Writing mask ⟨0, 0, run, 0, false, []⟩ :=
    ⟨rfl, rfl, fun buf hmem => by cases hmem⟩
  cases autoRxDelay with
  | true =>
    obtain ⟨herrors, hall, hseed⟩ :=
      searching_run hw hw' hmask hd events (hstart false) rfl rfl hbuf (hauto rfl)
    exact ⟨hall.ended, hall.written, hseed, herrors⟩
  | false =>
    obtain rfl := hnone rfl
    have hall := Checking.run_events hd events ⟨hstart true, rfl, rfl, rfl⟩ hbuf
    exact ⟨hall.ended, hall.written, fun _ => hall.seedRd, hall.errors⟩

theorem wrong_pn (mask : Word) (n k : Nat) : wrong mask k ((List.range' k n).map (pn mask)) = 0 := by
  induction n generalizing k with
  | zero => rfl
  | succ n ih =>
    rw [List.range'_succ, List.map_cons, wrong, ih, if_neg (not_not_intro rfl)]

/-- A buffer that comes back five words late. -/
theorem dmaTest_errors_late :
    ∃ s, dmaTest 16 true [.write, .read (pattern 0xffffffff 5) 40000] = some s ∧ s.ended = false ∧
      (∀ buf ∈ s.written, buf = pattern 0xffffffff 0) ∧ (s.run = true → s.seedRd = BitVec.ofNat 32 5) ∧
      s.errors = BitVec.ofNat 32
        ([.write, .read (pattern 0xffffffff 5) 40000].foldl (counted 0xffffffff 5) 0) := by
  have hchecked (buf : List Word) : (Event.read buf 40000).checked = some buf := by
    unfold Event.checked
    exact if_neg (by decide)
  have hlen : (pattern 0xffffffff 5).length = dmaWords := by
    rw [pattern, List.length_map, List.length_range']
  have hwrong : wrong 0xffffffff 5 (pattern 0xffffffff 5) = 0 := wrong_pn 0xffffffff dmaWords 5
  refine dmaTest_errors (by decide) (by decide) (by decide) (by decide) true
    [.write, .read (pattern 0xffffffff 5) 40000] ?_ ?_ (fun h => by cases h)
  · intro e he buf hbuf
    rcases List.mem_cons.mp he with rfl | he
    · cases hbuf
    · obtain rfl := List.mem_singleton.mp he
      obtain rfl := Option.some.inj ((hchecked (pattern 0xffffffff 5)).symm.trans hbuf)
      exact hlen
  · intro _ buf hbuf
    rw [List.findSome?_cons, List.findSome?_cons, hchecked] at hbuf
    obtain rfl := Option.some.inj hbuf
    rw [hwrong]
    decide

end DmaTest
end User
end Xtrx
