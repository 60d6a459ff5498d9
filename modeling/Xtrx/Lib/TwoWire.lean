import Xtrx.Lib.Transducer
import Mathlib.Data.BitVec

/-!
# The two wire bus

What a monitor of the lines SCL and SDA sees. SDA is changed while SCL is low; if it changes while SCL
is high that is a start or a stop. A bit is the level of SDA in a pulse of SCL that is neither; nine
bits are a byte and its acknowledgement.

- **Marks** (`lineMonitor`): the start and stop conditions and the bits on the lines.
- **Items** (`byteMonitor`): the bytes of the marks; what is left of a byte at a start or a stop is dropped.
-/

namespace Conc
namespace TwoWire

/-- The master sets SCL, and SDA if it drives it, or finds the level of SDA. -/
inductive Line where
  | set (driven scl sda : Bool)
  | sample (sda : Bool)
  deriving DecidableEq

/-- A bit carries who drove SDA: the master or a device. -/
inductive Mark where
  | start
  | stop
  | bit (byMaster value : Bool)
  deriving DecidableEq

inductive Item where
  | start
  | stop
  | byte (bits : List (Bool × Bool)) (ack : Bool × Bool)
  deriving DecidableEq

/-- SCL. While it is high: the level of SDA, and the bit of this pulse. -/
inductive Scl where
  | low
  | high (sda : Bool) (pulse : Option (Bool × Bool))
  deriving DecidableEq

def pulseMark : Option (Bool × Bool) → List Mark
  | some (byMaster, value) => [.bit byMaster value]
  | none => []

/-- SDA is pulled up where the master does not drive it. -/
def sdaLevel (driven sda : Bool) : Bool := !driven || sda

def lineStep : Scl → Line → List Mark × Scl
  | .low, .set _ false _ => ([], .low)
  | .low, .set driven true sda =>
    ([], .high (sdaLevel driven sda) (some (driven, sdaLevel driven sda)))
  | .high _ pulse, .set _ false _ => (pulseMark pulse, .low)
  | .high old pulse, .set driven true sda =>
    match old, sdaLevel driven sda with
    | true, false => ([.start], .high false none)
    | false, true => ([.stop], .high true none)
    | _, _ => ([], .high old pulse)
  | .low, .sample _ => ([], .low)
  -- in a pulse of the devices the bit is theirs
  | .high old pulse, .sample sda =>
    ([], .high old (pulse.map fun p => (p.1, if p.1 then p.2 else sda)))

def lineMonitor : Transducer Scl Line Mark := ⟨lineStep⟩

/-- The bits before `m` are `bits`. -/
def byteStep (bits : List (Bool × Bool)) : Mark → List Item × List (Bool × Bool)
  | .start => ([.start], [])
  | .stop => ([.stop], [])
  | .bit byMaster value =>
    if bits.length = 8 then
      ([.byte bits (byMaster, value)], [])
    else
      ([], bits ++ [(byMaster, value)])

def byteMonitor : Transducer (List (Bool × Bool)) Mark Item := ⟨byteStep⟩

/-- What is on the lines, as bytes. -/
def monitor : Transducer (Scl × List (Bool × Bool)) Line Item := byteMonitor.comp lineMonitor

/-- No transfer is under way. -/
abbrev idle : Scl × List (Bool × Bool) := (.high true none, [])

/-- The eight bits of a byte, most significant bit first, as driven by the master or by a device. -/
def byteBits (byMaster : Bool) (data : BitVec 8) : List (Bool × Bool) :=
  (List.range 8).map fun i => (byMaster, data.getLsbD (7 - i))

def bitMarks (bits : List (Bool × Bool)) : List Mark := bits.map fun p => .bit p.1 p.2

/-- A byte of the master; a device acknowledges it by a low SDA. -/
def Item.sent (data : BitVec 8) (sda : Bool) : Item := .byte (byteBits true data) (false, sda)

/-- A byte of a device; the master acknowledges it by a low SDA. -/
def Item.got (data : BitVec 8) (sda : Bool) : Item := .byte (byteBits false data) (true, sda)

/-- The marks of an item. -/
def Item.marks : Item → List Mark
  | .start => [.start]
  | .stop => [.stop]
  | .byte bits ack => bitMarks bits ++ [.bit ack.1 ack.2]

/-- A byte of the master that is not acknowledged. -/
def Item.refused : Item → Bool
  | .byte _ ack => !ack.1 && ack.2
  | _ => false

/-- A byte of the master that is acknowledged. -/
def Item.taken : Item → Bool
  | .byte _ ack => !ack.1 && !ack.2
  | _ => false

/-- The byte of a device. -/
def Item.data : Item → Option (BitVec 8)
  | .byte bits (true, _) => some (bits.foldl (fun data b =>
      (data <<< 1) ||| (BitVec.ofBool b.2).setWidth 8) 0)
  | _ => none

/-- A byte of the item has eight bits. -/
def Item.Whole : Item → Prop
  | .byte bits _ => bits.length = 8
  | _ => True

theorem length_byteBits (byMaster : Bool) (data : BitVec 8) : (byteBits byMaster data).length = 8 := by
  simp [byteBits]

@[simp] theorem refused_start : Item.start.refused = false := rfl

@[simp] theorem refused_stop : Item.stop.refused = false := rfl

@[simp] theorem taken_start : Item.start.taken = false := rfl

@[simp] theorem taken_stop : Item.stop.taken = false := rfl

@[simp] theorem data_start : Item.start.data = none := rfl

@[simp] theorem data_stop : Item.stop.data = none := rfl

@[simp] theorem refused_sent (data : BitVec 8) (sda : Bool) : (Item.sent data sda).refused = sda := rfl

@[simp] theorem refused_got (data : BitVec 8) (sda : Bool) : (Item.got data sda).refused = false := rfl

@[simp] theorem taken_sent (data : BitVec 8) (sda : Bool) : (Item.sent data sda).taken = !sda := rfl

@[simp] theorem data_sent (data : BitVec 8) (sda : Bool) : (Item.sent data sda).data = none := rfl

@[simp] theorem data_got (data : BitVec 8) (sda : Bool) : (Item.got data sda).data = some data := by
  revert data sda
  decide +kernel

@[simp] theorem whole_start : Item.start.Whole := trivial

@[simp] theorem whole_stop : Item.stop.Whole := trivial

@[simp] theorem whole_sent (data : BitVec 8) (sda : Bool) : (Item.sent data sda).Whole := length_byteBits _ _

@[simp] theorem whole_got (data : BitVec 8) (sda : Bool) : (Item.got data sda).Whole := length_byteBits _ _

/-- Bits are collected until there are eight. -/
theorem emits_bitMarks (bits more : List (Bool × Bool)) (h : bits.length + more.length ≤ 8) :
    byteMonitor.Emits bits (bitMarks more) [] (bits ++ more) := by
  induction more generalizing bits with
  | nil => simpa [bitMarks] using Transducer.Emits.nil (T := byteMonitor) bits
  | cons p more ih =>
    rw [List.length_cons] at h
    have hstep : byteMonitor.step bits (.bit p.1 p.2) = ([], bits ++ [p]) := if_neg (by omega)
    have htail := ih (bits ++ [p]) (by simp; omega)
    rw [List.append_assoc] at htail
    exact .cons hstep htail

/-- The marks of whole items are read back as these items. -/
theorem emits_marks (items : List Item) (h : ∀ i ∈ items, i.Whole) :
    byteMonitor.Emits [] (items.flatMap Item.marks) items [] := by
  have hone : ∀ i ∈ items, byteMonitor.Emits [] i.marks [i] [] := by
    intro i hi
    cases i with
    | start => exact .one rfl
    | stop => exact .one rfl
    | byte bits ack =>
      have hlen : bits.length = 8 := h _ hi
      exact (emits_bitMarks [] bits (by simp [hlen])).append (.one (if_pos hlen))
  simpa using Transducer.Emits.flatMap (g := fun i => [i]) items hone

/-- A start is not read where there is none. -/
theorem start_not_mem_run (bits : List (Bool × Bool)) {ms : List Mark} (h : .start ∉ ms) :
    .start ∉ (byteMonitor.run bits ms).1 := by
  induction ms generalizing bits with
  | nil => exact List.not_mem_nil
  | cons m ms ih =>
    obtain ⟨hm, hms⟩ := not_or.mp (List.mem_cons.not.mp h)
    refine List.mem_append.not.mpr (not_or.mpr ⟨?_, ih _ hms⟩)
    cases m with
    | start => exact absurd rfl hm
    | stop => exact List.mem_singleton.not.mpr Item.noConfusion
    | bit byMaster value =>
      show Item.start ∉ (if bits.length = 8 then ([Item.byte bits (byMaster, value)], [])
        else ([], bits ++ [(byMaster, value)])).1
      split
      · exact List.mem_singleton.not.mpr Item.noConfusion
      · exact List.not_mem_nil

end TwoWire
end Conc
