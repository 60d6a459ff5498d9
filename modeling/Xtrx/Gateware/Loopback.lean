import Mathlib.Data.Nat.Find
import Xtrx.Gateware.Lms7002m

/-!
# The TX-RX loopback of 64-bit words

The loopback is on, the TX pattern and `tx_inhibit` are off, and the words `W 0`, `W 1`, … arrive at
the 64-to-32 converter without a gap: it gives the low half of `W k` in cycle `2 * k` and the high
half in cycle `2 * k + 1`. The 32-to-64 converter takes the masked halves, but where its words begin
depends on `rx_frame`, which comes from the LMS7002M.

- **`Splits`**, **`Packs`**: what the converters do, as documented.
- **`conv_first`**, **`conv_second`**, **`conv_early`**: a cycle of the 32-to-64 converter.
- **`Preserves`**: from some cycle on, the masked words leave in order.
- **`loopback_preserves_iff`**: all word sequences are preserved exactly if from some word on
  `rx_frame` is 0 with each low half, and the converter is empty by then. `loopback_shifts` is a frame
  sequence that shifts the words by one half.
-/

namespace Xtrx
namespace Gateware

open Conc

/-! ## The converters -/

/-- The halves of a word. -/
def lowHalf (w : BitVec 64) : BitVec 32 := w.extractLsb' 0 32
def highHalf (w : BitVec 64) : BitVec 32 := w.extractLsb' 32 32

/-- `stream.Converter(64, 32)` gives the low half of a word, then the high half with `last`. -/
def Splits (down : (Nat → BitVec 64) → Nat → Bool × BitVec 32) : Prop :=
  ∀ W k, down W (2 * k) = (false, lowHalf (W k)) ∧ down W (2 * k + 1) = (true, highHalf (W k))

variable {σ : Type}

/-- `stream.Converter(32, 64)` packs two successive words, and completes a word early when `last` is
set; `waiting` is the first word that it has. -/
structure Packs (up : UpConverter σ) (waiting : σ → Option (BitVec 32)) : Prop where
  first : ∀ s data, waiting s = none →
    waiting (up.step false data s).1 = some data ∧ (up.step false data s).2 = none
  second : ∀ s lo last data, waiting s = some lo →
    waiting (up.step last data s).1 = none ∧ (up.step last data s).2 = some (data ++ lo)
  early : ∀ s data, waiting s = none →
    waiting (up.step true data s).1 = none ∧
      ∃ w, (up.step true data s).2 = some w ∧ lowHalf w = data

/-! ## The loopback -/

/-- What the LMS7002M delivers, and if the RX pattern checker is enabled. -/
structure RxInput where
  frame : Nat → BitVec 2
  data : Nat → BitVec 32
  patternEnable : Bool

/-- The inputs in a cycle: the loopback is on. -/
def loopbackCycle (down : (Nat → BitVec 64) → Nat → Bool × BitVec 32) (rx : RxInput)
    (W : Nat → BitVec 64) (t : Nat) : Cycle where
  txPatternEnable := false
  rxPatternEnable := rx.patternEnable
  txInhibit := false
  txRxLoopbackEnable := true
  txConvLast := (down W t).1
  txConvData := (down W t).2
  rxFrame := rx.frame t
  rxData := rx.data t

/-- The words that leave the 32-to-64 converter. -/
def loopbackOut (up : UpConverter σ) (down : (Nat → BitVec 64) → Nat → Bool × BitVec 32)
    (s : LMS7002M σ) (rx : RxInput) (W : Nat → BitVec 64) (t : Nat) : Option (BitVec 64) :=
  rxConvOut up (loopbackCycle down rx W t) ((lms7002m up).state s (loopbackCycle down rx W) t)

/-- After an initial transient the words leave in order, with the masked bits. -/
def Preserves (W : Nat → BitVec 64) (out : Nat → Option (BitVec 64)) : Prop :=
  ∃ T q, ∀ m, ∃ n, emitted out T n =
    (List.range' q m).map fun k => W k &&& 0x0fff0fff0fff0fff

section

variable {W : Nat → BitVec 64} {out : Nat → Option (BitVec 64)}

/-- A preserved sequence has a word. -/
theorem Preserves.exists_word (h : Preserves W out) : ∃ t w, out t = some w := by
  obtain ⟨T, q, h⟩ := h
  obtain ⟨n, hn⟩ := h 1
  have hmem : W q &&& 0x0fff0fff0fff0fff ∈ emitted out T n := by
    rw [hn]
    exact List.mem_map.mpr ⟨q, by simp, rfl⟩
  obtain ⟨t, -, -, ht⟩ := mem_emitted.mp hmem
  exact ⟨t, _, ht⟩

/-- From some cycle on all words that leave are words of the sequence. -/
theorem Preserves.mem (h : Preserves W out) :
    ∃ T, ∀ t, T ≤ t → ∀ w, out t = some w → ∃ k, w = W k &&& 0x0fff0fff0fff0fff := by
  obtain ⟨T, q, h⟩ := h
  refine ⟨T, fun t ht w hw => ?_⟩
  obtain ⟨n, hn⟩ := h (t - T + 1)
  -- as many cycles as words
  have hlen := length_emitted_le out T n
  rw [hn, List.length_map, List.length_range'] at hlen
  have hmem : w ∈ emitted out T n := mem_emitted.mpr ⟨t, ht, by omega, hw⟩
  rw [hn] at hmem
  obtain ⟨k, -, rfl⟩ := List.mem_map.mp hmem
  exact ⟨k, rfl⟩

end

/-- The mask acts on both halves. -/
theorem mask_halves (w : BitVec 64) :
    (highHalf w &&& 0x0fff0fff) ++ (lowHalf w &&& 0x0fff0fff) = w &&& 0x0fff0fff0fff0fff := by
  have hw : highHalf w ++ lowHalf w = w := by
    have h : w.extractLsb' 32 32 ++ w.extractLsb' 0 32 = w.extractLsb' 0 (32 + 32) :=
      BitVec.extractLsb'_append_extractLsb'_eq_extractLsb' rfl
    exact h.trans BitVec.extractLsb'_eq_self
  have hmask : ((0x0fff0fff : BitVec 32) ++ (0x0fff0fff : BitVec 32) : BitVec 64) =
      0x0fff0fff0fff0fff := rfl
  calc (highHalf w &&& 0x0fff0fff) ++ (lowHalf w &&& 0x0fff0fff)
      = (highHalf w ++ lowHalf w) &&& ((0x0fff0fff : BitVec 32) ++ (0x0fff0fff : BitVec 32)) :=
        BitVec.and_append.symm
    _ = w &&& 0x0fff0fff0fff0fff := by rw [hw, hmask]

/-! ## Cycles -/

section

variable {up : UpConverter σ} {waiting : σ → Option (BitVec 32)}
  {down : (Nat → BitVec 64) → Nat → Bool × BitVec 32} {s : LMS7002M σ} {rx : RxInput}
  {W : Nat → BitVec 64} {t : Nat}

/-- The masked half in a cycle. -/
def half (down : (Nat → BitVec 64) → Nat → Bool × BitVec 32) (W : Nat → BitVec 64) (t : Nat) :
    BitVec 32 :=
  (down W t).2 &&& 0x0fff0fff

/-- The half that the 32-to-64 converter has at the beginning of a cycle. -/
def waitingAt (up : UpConverter σ) (waiting : σ → Option (BitVec 32))
    (down : (Nat → BitVec 64) → Nat → Bool × BitVec 32) (s : LMS7002M σ) (rx : RxInput)
    (W : Nat → BitVec 64) (t : Nat) : Option (BitVec 32) :=
  waiting ((lms7002m up).state s (loopbackCycle down rx W) t).rxConv

/-- A cycle without the RX pattern. -/
theorem conv_step (up : UpConverter σ) (down : (Nat → BitVec 64) → Nat → Bool × BitVec 32)
    (s : LMS7002M σ) (W : Nat → BitVec 64) (hrx : rx.patternEnable = false) (t : Nat) :
    ((lms7002m up).state s (loopbackCycle down rx W) (t + 1)).rxConv =
        (up.step (rx.frame t != 0) (half down W t)
          ((lms7002m up).state s (loopbackCycle down rx W) t).rxConv).1 ∧
      loopbackOut up down s rx W t = (up.step (rx.frame t != 0) (half down W t)
          ((lms7002m up).state s (loopbackCycle down rx W) t).rxConv).2 := by
  have hconv : ∀ x : LMS7002M σ, (x.rx (loopbackCycle down rx W t)).conv =
      some (rx.frame t != 0, half down W t) := by
    intro x
    rw [LMS7002M.rx, rxMux, if_neg (by rw [loopbackCycle, hrx]; simp)]
    rfl
  constructor
  · exact rxConv_edge (hconv _)
  · rw [loopbackOut, rxConvOut, hconv]
    rfl

variable (hup : Packs up waiting) (hrx : rx.patternEnable = false)

include hup hrx

theorem conv_first (hw : waitingAt up waiting down s rx W t = none) (hf : rx.frame t = 0) :
    waitingAt up waiting down s rx W (t + 1) = some (half down W t) ∧
      loopbackOut up down s rx W t = none := by
  obtain ⟨hnext, hout⟩ := conv_step up down s W hrx t
  have hlast : (rx.frame t != 0) = false := by rw [hf]; rfl
  rw [waitingAt, hnext, hout, hlast]
  exact hup.first _ _ hw

theorem conv_second {lo : BitVec 32} (hw : waitingAt up waiting down s rx W t = some lo) :
    waitingAt up waiting down s rx W (t + 1) = none ∧
      loopbackOut up down s rx W t = some (half down W t ++ lo) := by
  obtain ⟨hnext, hout⟩ := conv_step up down s W hrx t
  rw [waitingAt, hnext, hout]
  exact hup.second _ lo _ _ hw

theorem conv_early (hw : waitingAt up waiting down s rx W t = none) (hf : rx.frame t ≠ 0) :
    waitingAt up waiting down s rx W (t + 1) = none ∧
      ∃ w, loopbackOut up down s rx W t = some w ∧ lowHalf w = half down W t := by
  obtain ⟨hnext, hout⟩ := conv_step up down s W hrx t
  have hlast : (rx.frame t != 0) = true := bne_iff_ne.mpr hf
  rw [waitingAt, hnext, hout, hlast]
  exact hup.early _ _ hw

/-- A half waits only if it has just come without `last`. -/
theorem waitingAt_succ {lo : BitVec 32} (hw : waitingAt up waiting down s rx W (t + 1) = some lo) :
    lo = half down W t ∧ waitingAt up waiting down s rx W t = none ∧ rx.frame t = 0 := by
  cases h : waitingAt up waiting down s rx W t with
  | some lo' =>
    rw [(conv_second hup hrx h).1] at hw
    cases hw
  | none =>
    by_cases hf : rx.frame t = 0
    · rw [(conv_first hup hrx h hf).1] at hw
      cases hw
      exact ⟨rfl, rfl, hf⟩
    · rw [(conv_early hup hrx h hf).1] at hw
      cases hw

/-- After a cycle with `last` no half waits. -/
theorem waitingAt_last (hf : rx.frame t ≠ 0) : waitingAt up waiting down s rx W (t + 1) = none := by
  cases h : waitingAt up waiting down s rx W t with
  | some lo => exact (conv_second hup hrx h).1
  | none => exact (conv_early hup hrx h hf).1

/-! ## Words in phase -/

/-- From word `K` on, no half waits when a low half comes, and it comes without `last`. -/
structure InPhase (up : UpConverter σ) (waiting : σ → Option (BitVec 32))
    (down : (Nat → BitVec 64) → Nat → Bool × BitVec 32) (s : LMS7002M σ) (rx : RxInput)
    (W : Nat → BitVec 64) (K : Nat) : Prop where
  empty : waitingAt up waiting down s rx W (2 * K) = none
  frame : ∀ k, K ≤ k → rx.frame (2 * k) = 0

variable {K : Nat}

/-- A word in phase leaves with its high half. -/
theorem InPhase.word (h : InPhase up waiting down s rx W K) (hdown : Splits down) :
    InPhase up waiting down s rx W (K + 1) ∧ loopbackOut up down s rx W (2 * K) = none ∧
      loopbackOut up down s rx W (2 * K + 1) = some (W K &&& 0x0fff0fff0fff0fff) := by
  obtain ⟨hlow, hhigh⟩ := hdown W K
  obtain ⟨hwait, hnone⟩ := conv_first hup hrx h.empty (h.frame K (Nat.le_refl K))
  obtain ⟨hempty, hword⟩ := conv_second hup hrx hwait
  refine ⟨⟨hempty, fun k hk => h.frame k (by omega)⟩, hnone, ?_⟩
  rw [hword, half, half, hlow, hhigh, mask_halves]

/-- The words in phase leave in order. -/
theorem InPhase.emitted (h : InPhase up waiting down s rx W K) (hdown : Splits down) (m : Nat) :
    emitted (loopbackOut up down s rx W) (2 * K) (2 * m) =
      (List.range' K m).map fun k => W k &&& 0x0fff0fff0fff0fff := by
  induction m generalizing K with
  | zero => rfl
  | succ m ih =>
    obtain ⟨hnext, hnone, hword⟩ := h.word hup hrx hdown
    rw [show 2 * (m + 1) = 1 + (1 + 2 * m) by omega, emitted_add, emitted_add, emitted_one,
      emitted_one, hnone, hword, List.range'_succ, List.map_cons, ← ih hnext]
    rfl

/-- A sequence with a word in phase began with the converter empty, or has been brought in phase by a
`last`. -/
theorem InPhase.cause (h : InPhase up waiting down s rx W K) :
    ∃ K, (∀ k, K ≤ k → rx.frame (2 * k) = 0) ∧
      ((K = 0 ∧ waiting s.rxConv = none) ∨ (0 < K ∧ rx.frame (2 * K - 1) ≠ 0)) := by
  induction K with
  | zero => exact ⟨0, h.frame, .inl ⟨rfl, h.empty⟩⟩
  | succ K ih =>
    by_cases hf : rx.frame (2 * K + 1) = 0
    · -- without `last` only a whole word leaves the converter empty
      cases hw : waitingAt up waiting down s rx W (2 * K + 1) with
      | none =>
        have hempty := h.empty
        rw [show 2 * (K + 1) = 2 * K + 1 + 1 by omega, (conv_first hup hrx hw hf).1] at hempty
        cases hempty
      | some lo =>
        obtain ⟨-, hempty, hzero⟩ := waitingAt_succ hup hrx hw
        refine ih ⟨hempty, fun k hk => ?_⟩
        rcases Nat.eq_or_lt_of_le hk with rfl | hlt
        · exact hzero
        · exact h.frame k hlt
    · exact ⟨K + 1, h.frame, .inr ⟨Nat.succ_pos K, hf⟩⟩

/-- The other direction: the cause brings the words in phase, whatever they are. -/
theorem InPhase.of_cause (hframe : ∀ k, K ≤ k → rx.frame (2 * k) = 0)
    (hcause : (K = 0 ∧ waiting s.rxConv = none) ∨ (0 < K ∧ rx.frame (2 * K - 1) ≠ 0)) :
    InPhase up waiting down s rx W K := by
  refine ⟨?_, hframe⟩
  rcases hcause with ⟨rfl, hempty⟩ | ⟨hpos, hlast⟩
  · exact hempty
  · have h : waitingAt up waiting down s rx W (2 * K - 1 + 1) = none :=
      waitingAt_last hup hrx hlast
    rwa [Nat.sub_add_cancel (by omega)] at h

/-! ## Words out of phase -/

/-- Words whose low half is 0 and whose high half is 1. -/
def tagged : Nat → BitVec 64 := fun _ => 1 <<< 32

/-- If all words that leave from cycle `T` on have the low half of a tagged word, the words get in
phase. -/
theorem inPhase_of_tagged (hdown : Splits down) {T : Nat}
    (hT : ∀ t, T ≤ t → ∀ w, loopbackOut up down s rx tagged t = some w → lowHalf w = 0) :
    InPhase up waiting down s rx tagged (T + 1) := by
  have hhigh : ∀ k, half down tagged (2 * k + 1) = 1 := by
    intro k
    rw [half, (hdown tagged k).2]
    show highHalf (1 <<< 32) &&& 0x0fff0fff = 1
    decide
  -- a high half never waits for a low half
  have hempty : ∀ k, T ≤ k → waitingAt up waiting down s rx tagged (2 * (k + 1)) = none := by
    intro k hk
    rw [Option.eq_none_iff_forall_ne_some]
    intro lo hw
    obtain ⟨rfl, -⟩ := waitingAt_succ hup hrx hw
    have hlow := hT _ (by omega) _ (conv_second hup hrx hw).2
    rw [lowHalf, BitVec.extractLsb'_append_eq_right] at hlow
    exact absurd ((hhigh k).symm.trans hlow) (by decide)
  refine ⟨hempty T (Nat.le_refl T), fun k hk => ?_⟩
  obtain ⟨k, rfl⟩ : ∃ j, k = j + 1 := ⟨k - 1, by omega⟩
  by_contra hf
  have hnone := (conv_early hup hrx (hempty k (by omega)) hf).1
  by_cases hf' : rx.frame (2 * (k + 1) + 1) = 0
  · -- the high half waits for the next low half
    have hwait := (conv_first hup hrx hnone hf').1
    rw [show 2 * (k + 1) + 1 + 1 = 2 * (k + 1 + 1) by omega, hempty (k + 1) (by omega)] at hwait
    cases hwait
  · -- the high half leaves as a word
    obtain ⟨-, w, hw, hlow⟩ := conv_early hup hrx hnone hf'
    exact absurd ((hhigh (k + 1)).symm.trans (hlow.symm.trans (hT _ (by omega) w hw))) (by decide)

end

/-! ## The result -/

/-- With the loopback on, the TX pattern and `tx_inhibit` off: every sequence of words is preserved
exactly if the RX pattern checker is disabled, and from some word `K` on `rx_frame` is 0 with each
low half, where the converter is empty when word `K` comes: it was from the beginning, or `rx_frame`
is not 0 in the cycle before. -/
theorem loopback_preserves_iff (up : UpConverter σ) (waiting : σ → Option (BitVec 32))
    (down : (Nat → BitVec 64) → Nat → Bool × BitVec 32) (hup : Packs up waiting)
    (hdown : Splits down) (s : LMS7002M σ) (rx : RxInput) :
    (∀ W, Preserves W (loopbackOut up down s rx W)) ↔
      rx.patternEnable = false ∧ ∃ K, (∀ k, K ≤ k → rx.frame (2 * k) = 0) ∧
        ((K = 0 ∧ waiting s.rxConv = none) ∨ (0 < K ∧ rx.frame (2 * K - 1) ≠ 0)) := by
  constructor
  · intro h
    have hrx : rx.patternEnable = false := by
      by_contra hne
      obtain ⟨t, w, hw⟩ := (h tagged).exists_word
      have hen : (loopbackCycle down rx tagged t).rxPatternEnable = true := eq_true_of_ne_false hne
      rw [loopbackOut, rxConvOut, LMS7002M.rx, rxMux, if_pos hen] at hw
      cases hw
    obtain ⟨T, hT⟩ := (h tagged).mem
    have hlow : ∀ t, T ≤ t → ∀ w, loopbackOut up down s rx tagged t = some w → lowHalf w = 0 := by
      intro t ht w hw
      obtain ⟨k, rfl⟩ := hT t ht w hw
      show lowHalf ((1 <<< 32) &&& 0x0fff0fff0fff0fff) = 0
      decide
    exact ⟨hrx, (inPhase_of_tagged hup hrx hdown hlow).cause hup hrx⟩
  · rintro ⟨hrx, K, hframe, hcause⟩ W
    refine ⟨2 * K, K, fun m => ⟨2 * m, ?_⟩⟩
    exact (InPhase.of_cause hup hrx hframe hcause).emitted hup hrx hdown m

/-- A 64-to-32 converter. -/
def downConverter (W : Nat → BitVec 64) (t : Nat) : Bool × BitVec 32 :=
  if t % 2 = 0 then (false, lowHalf (W (t / 2))) else (true, highHalf (W (t / 2)))

theorem splits_downConverter : Splits downConverter := by
  intro W k
  constructor
  · rw [downConverter, if_pos (by omega), show 2 * k / 2 = k by omega]
  · rw [downConverter, if_neg (by omega), show (2 * k + 1) / 2 = k by omega]

/-- A 32-to-64 converter; its registers are the low half, while it waits, and the last high half. -/
def upConverter : UpConverter (Option (BitVec 32) × BitVec 32) where
  step last data s :=
    match s.1 with
    | some lo => ((none, data), some (data ++ lo))
    | none => if last then ((none, s.2), some (s.2 ++ data)) else ((some data, s.2), none)

theorem packs_upConverter : Packs upConverter Prod.fst where
  first s data h := by
    obtain ⟨lo, hi⟩ := s
    cases h
    exact ⟨rfl, rfl⟩
  second s lo last data h := by
    obtain ⟨lo', hi⟩ := s
    cases h
    exact ⟨rfl, rfl⟩
  early s data h := by
    obtain ⟨lo, hi⟩ := s
    cases h
    exact ⟨rfl, hi ++ data, rfl, BitVec.extractLsb'_append_eq_right⟩

/-- The registers after reset. -/
def afterReset : LMS7002M (Option (BitVec 32) × BitVec 32) := ⟨⟨false, 0, 0⟩, ⟨0, 0⟩, (none, 0)⟩

/-- `rx_frame` is set with the high halves, and in cycle 0. -/
theorem loopback_preserves_iff_aligned :
    Preserves (BitVec.ofNat 64) (loopbackOut upConverter downConverter afterReset
      ⟨fun t => if t % 2 = 1 ∨ t = 0 then 3 else 0, fun _ => 0, false⟩ (BitVec.ofNat 64)) := by
  refine (loopback_preserves_iff upConverter Prod.fst downConverter packs_upConverter
    splits_downConverter afterReset _).mpr ⟨rfl, 1, fun k hk => ?_, .inr ⟨by decide, by decide⟩⟩ _
  exact if_neg (by omega)

/-- `rx_frame` is set with the low halves: each word that leaves has a high half in its low half. -/
theorem loopback_shifts :
    ¬ ∀ frame W, Preserves W (loopbackOut upConverter downConverter afterReset
      ⟨frame, fun _ => 0, false⟩ W) := by
  intro h
  have hframe : ∀ t : Nat, (if t % 2 = 0 then (3 : BitVec 2) else 0) = 0 ↔ t % 2 = 1 := by
    intro t
    split
    · exact ⟨fun h => absurd h (by decide), fun h => by omega⟩
    · exact ⟨fun _ => by omega, fun _ => rfl⟩
  obtain ⟨T, hT⟩ := (h (fun t => if t % 2 = 0 then 3 else 0) tagged).mem
  have hup := packs_upConverter
  have hnone : waitingAt upConverter Prod.fst downConverter afterReset
      ⟨fun t => if t % 2 = 0 then 3 else 0, fun _ => 0, false⟩ tagged (2 * T + 1) = none := by
    refine waitingAt_last hup rfl fun h0 => ?_
    have := (hframe (2 * T)).mp h0
    omega
  have hwait := (conv_first hup rfl hnone ((hframe (2 * T + 1)).mpr (by omega))).1
  obtain ⟨k, hk⟩ := hT _ (by omega) _ (conv_second hup rfl hwait).2
  have hlow := congrArg lowHalf hk
  rw [lowHalf, BitVec.extractLsb'_append_eq_right, half, (splits_downConverter tagged T).2] at hlow
  revert hlow
  show ¬ highHalf (1 <<< 32) &&& 0x0fff0fff = lowHalf ((1 <<< 32) &&& 0x0fff0fff0fff0fff)
  decide

end Gateware
end Xtrx
