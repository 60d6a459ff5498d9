import Xtrx.Lib.Clocked

/-!
# RX frame alignment (`gateware/lms7002m.py`, `RX Data/Frame alignment`)

The pins deliver half samples, two in each `rfic` cycle, and each half sample comes with a frame
bit. The two of a pair have the same bit, and the next pair has the other one. The deserializers
(`IDDR`) present two half samples that follow each other, which are a pair or not: this is their
phase.

- **`rxAlign`**: the registers behind the deserializers, with `rx_aligned` in front of them.
- **`state_rxAlign`**: what an edge registers, in either phase.
- **`rxAlign_pairs`**: in either phase each edge registers the next pair, from the second one on;
  the two phases give the same stream.
-/

namespace Xtrx
namespace Gateware

open Conc

/-! ## The circuit -/

/-- `rx_frame0`, `rx_frame1`, `rx_data0`, `rx_data1` in a cycle. -/
structure Iddr where
  frame0 : Bool
  frame1 : Bool
  data0 : BitVec 16
  data1 : BitVec 16

/-- `rx_aligned`. -/
def Iddr.rxAligned (i : Iddr) : Bool := i.frame0 == i.frame1

/-- The registers `rx_frame1_d`, `rx_data1_d`, `rx_frame`, `rx_data`. -/
structure RxAlign where
  frame1D : Bool
  data1D : BitVec 16
  rxFrame : BitVec 2
  rxData : BitVec 32

/-- `rx_frame` with the bits 0 and 1. -/
def frameBits (bit0 bit1 : Bool) : BitVec 2 := BitVec.ofBool bit1 ++ BitVec.ofBool bit0

def rxAlign : Clocked RxAlign Iddr where
  edge i s :=
    { frame1D := i.frame1
      data1D := i.data1
      rxFrame := if i.rxAligned then frameBits i.frame0 i.frame1 else frameBits s.frame1D i.frame0
      rxData := if i.rxAligned then i.data1 ++ i.data0 else i.data0 ++ s.data1D }

/-! ## The samples -/

/-- What the pins deliver at an edge of their clock. -/
structure HalfSample where
  frame : Bool
  data : BitVec 12

/-- A pair has one frame bit, and the next pair has the other one. -/
structure Framed (h : Nat → HalfSample) : Prop where
  same : ∀ m, (h (2 * m + 1)).frame = (h (2 * m)).frame
  alternate : ∀ m, (h (2 * (m + 1))).frame = !(h (2 * m)).frame

/-- What the deserializers present in cycle `t`, in the phase `p`. -/
def presented (h : Nat → HalfSample) (p : Fin 2) (t : Nat) : Iddr where
  frame0 := (h (2 * t + p)).frame
  frame1 := (h (2 * t + 1 + p)).frame
  data0 := (h (2 * t + p)).data.setWidth 16
  data1 := (h (2 * t + 1 + p)).data.setWidth 16

/-- The pair `m` as `rx_data`: its first half sample in the low lane. -/
def pairData (h : Nat → HalfSample) (m : Nat) : BitVec 32 :=
  (h (2 * m + 1)).data.setWidth 16 ++ (h (2 * m)).data.setWidth 16

/-- The pair's frame bit, in both bits of `rx_frame`. -/
def pairFrame (h : Nat → HalfSample) (m : Nat) : BitVec 2 :=
  frameBits (h (2 * m)).frame (h (2 * m)).frame

/-! ## Alignment -/

section

variable {h : Nat → HalfSample}

/-- In the phase 0 the deserializers present pairs, in the phase 1 they never do. -/
theorem rxAligned_presented (hf : Framed h) (p : Fin 2) (t : Nat) :
    (presented h p t).rxAligned = decide (p = 0) := by
  match p with
  | 0 =>
    show ((h (2 * t)).frame == (h (2 * t + 1)).frame) = true
    rw [hf.same]
    apply beq_self_eq_true
  | 1 =>
    show ((h (2 * t + 1)).frame == (h (2 * (t + 1))).frame) = false
    rw [hf.same, hf.alternate]
    cases (h (2 * t)).frame <;> rfl

/-- The registered pair `m`. -/
def Holds (h : Nat → HalfSample) (m : Nat) (s : RxAlign) : Prop :=
  s.rxFrame = pairFrame h m ∧ s.rxData = pairData h m

/-- An edge in the phase 0 registers the pair that is presented. -/
theorem edge_aligned (hf : Framed h) (t : Nat) (s : RxAlign) :
    Holds h t (rxAlign.edge (presented h 0 t) s) := by
  have haligned : (presented h 0 t).rxAligned = true := rxAligned_presented hf 0 t
  simp only [Holds, rxAlign, haligned, if_true]
  refine ⟨?_, rfl⟩
  show frameBits _ (h (2 * t + 1)).frame = _
  rw [hf.same]
  rfl

/-- An edge in the phase 1 registers the pair whose first half was presented in the cycle before. -/
theorem edge_shifted (hf : Framed h) (t : Nat) (s : RxAlign) :
    Holds h (t + 1) (rxAlign.edge (presented h 1 (t + 1))
      (rxAlign.edge (presented h 1 t) s)) := by
  have haligned : (presented h 1 (t + 1)).rxAligned = false := rxAligned_presented hf 1 (t + 1)
  simp only [Holds, rxAlign, haligned, Bool.false_eq_true, if_false]
  refine ⟨?_, rfl⟩
  show frameBits (h (2 * (t + 1))).frame (h (2 * (t + 1) + 1)).frame = _
  rw [hf.same]
  rfl

/-- The registers after the edge at the end of cycle `t`; the phase 1 misses the first half of the
first pair. -/
theorem state_rxAlign (hf : Framed h) (p : Fin 2) (s : RxAlign) {t : Nat} (hp : p ≤ t) :
    Holds h t (rxAlign.state s (presented h p) (t + 1)) := by
  match p with
  | 0 => exact edge_aligned hf t _
  | 1 =>
    obtain ⟨t, rfl⟩ := Nat.exists_eq_add_of_le' hp
    exact edge_shifted hf t _

/-- From the second cycle on, the edge at the end of each cycle `t` registers the pair `t`, in
either phase and with any registers at the start: `rx_data` is its two half samples, and both bits
of `rx_frame` are its frame bit. So the two phases give the same stream. -/
theorem rxAlign_pairs (h : Nat → HalfSample) (hf : Framed h) :
    (∀ (p : Fin 2) (s : RxAlign) (t : Nat), 1 ≤ t →
      (rxAlign.state s (presented h p) (t + 1)).rxData =
          (h (2 * t + 1)).data.setWidth 16 ++ (h (2 * t)).data.setWidth 16 ∧
        (rxAlign.state s (presented h p) (t + 1)).rxFrame =
          frameBits (h (2 * t)).frame (h (2 * t)).frame) ∧
    ∀ (s s' : RxAlign) (t : Nat), 1 ≤ t →
      (rxAlign.state s (presented h 0) (t + 1)).rxData =
          (rxAlign.state s' (presented h 1) (t + 1)).rxData ∧
        (rxAlign.state s (presented h 0) (t + 1)).rxFrame =
          (rxAlign.state s' (presented h 1) (t + 1)).rxFrame := by
  constructor
  · intro p s t ht
    have hpair := state_rxAlign hf p s (t := t) (by omega)
    exact ⟨hpair.2, hpair.1⟩
  · intro s s' t ht
    have hpair := state_rxAlign hf 0 s (t := t) (Nat.zero_le t)
    have hpair' := state_rxAlign hf 1 s' (t := t) ht
    exact ⟨hpair.2.trans hpair'.2.symm, hpair.1.trans hpair'.1.symm⟩

/-- Half samples that count, in frames that alternate. -/
def counting (k : Nat) : HalfSample := ⟨k / 2 % 2 = 1, BitVec.ofNat 12 k⟩

theorem rxAlign_pairs_counting :
    (rxAlign.state ⟨true, 0xffff, 0, 0⟩ (presented counting 0) 2).rxData = 0x00030002 ∧
      (rxAlign.state ⟨true, 0xffff, 0, 0⟩ (presented counting 1) 2).rxData = 0x00030002 := by
  have hf : Framed counting := by
    constructor
    · intro m
      simp only [counting, decide_eq_decide]
      omega
    · intro m
      simp only [counting, ← decide_not, decide_eq_decide]
      omega
  have hpairs := (rxAlign_pairs counting hf).1
  exact ⟨(hpairs 0 _ 1 (Nat.le_refl 1)).1, (hpairs 1 _ 1 (Nat.le_refl 1)).1⟩

end

end Gateware
end Xtrx
