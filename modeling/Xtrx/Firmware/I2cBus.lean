import Xtrx.Lib.TwoWire
import Xtrx.Firmware.XtrxInit

/-!
# The transfers on the I2C buses

What a monitor of the lines sees of the firmware's transfers.

- **Functions** (`i2cReset`).
- **Marks** (`Speaks`): for each function, the marks it leaves on the lines and what it reads from them.
- **Transfers** (`Transfer.frame`): the bytes of a transfer, up to the first one that is refused, and
  its result as the monitor reads it.
-/

namespace Xtrx
namespace Firmware

open Conc TwoWire

/-- `i2c?_reset`. -/
def i2cReset (bus : I2cBus) : Fw Unit := do
  oeSclSda bus true true true
  (List.range 9).forM fun _ => do
    oeSclSda bus true false true
    oeSclSda bus true true true
  oeSclSda bus false false true
  i2cStop bus
  oeSclSda bus false true true

/-! ## Frames -/

/-- The bytes of the master, up to the first one that is refused. -/
def sentItems (p : Nat → Bool) : Nat → List Byte → List Item
  | _, [] => []
  | i, byte :: bytes => .sent byte (p i) :: if p i then [] else sentItems p (i + 1) bytes

/-- The bytes of a device: the master acknowledges all but the last one. -/
def gotItems (p : Nat → Bool) : Nat → Nat → List Item
  | _, 0 => []
  | i, n + 1 => .got (byteOf p i) (!decide (n ≠ 0)) :: gotItems p (i + 8) n

/-- The transfers of the firmware. `present` is that of `board_get_revision`. -/
inductive Transfer where
  | write (slaveAddr addr : Byte) (data : List Byte)
  | read (slaveAddr addr : Byte) (data : List Byte) (sendStop : Bool)
  | poll (slaveAddr : Byte)
  | present (slaveAddr : Byte)

/-- What a transfer is on the bus, for the samples `p`. -/
def Transfer.frame (p : Nat → Bool) : Transfer → List Item
  | .write slaveAddr addr data => .start :: sentItems p 0 (addrWr slaveAddr :: addr :: data) ++ [.stop]
  | .read slaveAddr addr data sendStop =>
    .start :: sentItems p 0 [addrWr slaveAddr, addr] ++
      if acked p 0 2 then
        (if sendStop then [.stop] else []) ++ .start :: .sent (addrRd slaveAddr) (p 2) ::
          if p 2 then [.stop] else gotItems p 3 data.length ++ [.stop]
      else [.stop]
  | .poll slaveAddr => [.start, .sent (addrWr slaveAddr) (p 0), .sent (addrRd slaveAddr) (p 1), .stop]
  | .present slaveAddr => [.start, .sent (addrRd slaveAddr) (p 0), .stop]

/-- The result and the data behind a transfer, as they are read from the bus. -/
def Transfer.outcome (items : List Item) : Transfer → Bool × List Byte
  | .write _ _ data => (!items.any Item.refused, data)
  | .read _ _ data _ => if items.any Item.refused then (false, data) else (true, items.filterMap Item.data)
  | .poll _ => (items.any Item.taken, [])
  | .present _ => (items.any Item.taken, [])

/-! ## Marks -/

def Wire.line : Wire → Line
  | .lines oe scl sda => .set oe scl sda
  | .sample sda => .sample sda

/-- In the transfer with the samples `p`, from the `i`-th sample on: the program `m` leaves the marks
`ms` on the lines of `bus`, its result is `a`, and the next sample is the `j`-th. -/
def Speaks {α : Type} (bus : I2cBus) (p : Nat → Bool) (m : Fw α) (s : Scl) (i : Nat) (a : α)
    (ms : List Mark) (t : Scl) (j : Nat) : Prop :=
  ∀ b : Board, b.pattern b.transfer = p → b.pos = i → ∃ w : List Wire,
    m b = (a, { b with pos := j, wire := b.wire ++ w.map fun x => (bus, x) }) ∧
      lineMonitor.Emits s (w.map Wire.line) ms t

section

variable {α β : Type} {bus : I2cBus} {p : Nat → Bool} {s t u : Scl} {i j k : Nat}
  {ms ms' : List Mark}

theorem Speaks.pure (a : α) : Speaks bus p (pure a) s i a [] s i := fun b _ hi => by
  subst hi
  exact ⟨[], by simp, .nil s⟩

theorem Speaks.bind {m : Fw α} {f : α → Fw β} {x : α} {a : β} (hm : Speaks bus p m s i x ms t j)
    (hf : Speaks bus p (f x) t j a ms' u k) : Speaks bus p (m >>= f) s i a (ms ++ ms') u k := by
  intro b hp hi
  obtain ⟨w, hw, hms⟩ := hm b hp hi
  obtain ⟨w', hw', hms'⟩ := hf { b with pos := j, wire := b.wire ++ w.map fun x => (bus, x) } hp rfl
  refine ⟨w ++ w', ?_, ?_⟩
  · rw [fw_bind, hw, hw', List.append_assoc, List.map_append]
  · rw [List.map_append]
    exact hms.append hms'

theorem Speaks.map {m : Fw α} {x : α} (hm : Speaks bus p m s i x ms t j) (f : α → β) :
    Speaks bus p (m >>= fun x => Pure.pure (f x)) s i (f x) ms t j :=
  List.append_nil ms ▸ .bind hm (.pure (f x))

theorem Speaks.set {oe scl sda : Bool} (h : lineStep s (.set oe scl sda) = (ms, t)) :
    Speaks bus p (oeSclSda bus oe scl sda) s i () ms t i := by
  rintro b - rfl
  exact ⟨[.lines oe scl sda], rfl, .one h⟩

theorem Speaks.sample (h : lineStep s (.sample (p i)) = (ms, t)) :
    Speaks bus p (rRead bus) s i (p i) ms t (i + 1) := by
  rintro b rfl rfl
  exact ⟨[.sample (b.pattern b.transfer b.pos)], rfl, .one h⟩

theorem speaks_i2cStart_idle :
    Speaks bus p (i2cStart bus) (.high true none) i () [.start] .low i :=
  .bind (.set rfl) (.bind (.set rfl) (.set rfl))

theorem speaks_i2cStart_low : Speaks bus p (i2cStart bus) .low i () [.start] .low i :=
  .bind (.set rfl) (.bind (.set rfl) (.set rfl))

theorem speaks_i2cStop : Speaks bus p (i2cStop bus) .low i () [.stop] (.high true none) i :=
  .bind (.set rfl) (.bind (.set rfl) (.bind (.set rfl) (.set rfl)))

theorem speaks_transmitBit (value : Bool) :
    Speaks bus p (transmitBit bus value) .low i () [.bit true value] .low i :=
  .bind (.set rfl) (.bind (.set rfl) (.bind (.set rfl) (.set rfl)))

theorem speaks_receiveBit :
    Speaks bus p (receiveBit bus) .low i (p i) [.bit false (p i)] .low (i + 1) :=
  .bind (.set rfl) (.bind (.set rfl) (.bind (.sample rfl) (.bind (.set rfl) (.pure _))))

/-- The loop of `transmitByte`. The induction is on the bits that are left. -/
theorem speaks_sendBits (is : List Nat) (data : Byte) :
    Speaks bus p (is.foldlM (fun (data : Byte) _ => do
      transmitBit bus (data &&& (1 <<< 7) ≠ 0)
      return data <<< 1) data : Fw Byte) .low i (data <<< is.length)
      ((List.range is.length).map fun k => .bit true ((data <<< k).getLsbD 7)) .low i := by
  induction is generalizing data with
  | nil => simpa using @Speaks.pure _ bus p .low i data
  | cons k is ih =>
    have hbit : Speaks bus p (do transmitBit bus (data &&& (1 <<< 7) ≠ 0); return data <<< 1 : Fw Byte)
        .low i (data <<< 1) [.bit true (data.getLsbD 7)] .low i :=
      msb_eq data ▸ .bind (speaks_transmitBit _) (.pure _)
    have hmarks : ((List.range (k :: is).length).map fun k => Mark.bit true ((data <<< k).getLsbD 7)) =
        [.bit true (data.getLsbD 7)] ++
          (List.range is.length).map fun k => .bit true ((data <<< 1 <<< k).getLsbD 7) := by
      simp [List.range_succ_eq_map, Function.comp_def, ← BitVec.shiftLeft_add, Nat.add_comm 1]
    rw [List.foldlM_cons, hmarks, List.length_cons, Nat.add_comm, BitVec.shiftLeft_add]
    exact .bind hbit (ih _)

theorem bitMarks_byteBits (byMaster : Bool) (data : Byte) : bitMarks (byteBits byMaster data) =
    (List.range 8).map fun k => .bit byMaster (data.getLsbD (7 - k)) := by
  simp [bitMarks, byteBits, Function.comp_def]

theorem speaks_transmitByte (data : Byte) :
    Speaks bus p (transmitByte bus data) .low i (!p i) (Item.sent data (p i)).marks .low (i + 1) := by
  have hbits := @speaks_sendBits bus p i (List.range 8) data
  have hmarks : ((List.range 8).map fun k => Mark.bit true ((data <<< k).getLsbD 7)) =
      bitMarks (byteBits true data) := by
    rw [bitMarks_byteBits]
    refine List.map_congr_left fun k hk => ?_
    have hlt := List.mem_range.mp hk
    rw [BitVec.getLsbD_shiftLeft, decide_eq_false (Nat.not_lt.mpr (Nat.le_of_lt_succ hlt))]
    rfl
  rw [List.length_range, hmarks] at hbits
  have hall : Speaks bus p (transmitByte bus data) .low i (p i == false) _ .low (i + 1) :=
    .bind (.set rfl) (.bind hbits (.bind speaks_receiveBit (.pure _)))
  cases h : p i <;> simpa [h, Item.marks, Item.sent] using hall

/-- The loop of `receiveByte`. -/
theorem speaks_takeBits (is : List Nat) (data : Byte) :
    Speaks bus p (is.foldlM (fun (data : Byte) _ => do
      return (data <<< 1) ||| (BitVec.ofBool (← receiveBit bus)).setWidth 8) data : Fw Byte) .low i
      ((List.range is.length).foldl (fun (data : Byte) k => (data <<< 1) |||
        (BitVec.ofBool (p (i + k))).setWidth 8) data)
      ((List.range is.length).map fun k => .bit false (p (i + k))) .low (i + is.length) := by
  induction is generalizing data i with
  | nil => simpa using @Speaks.pure _ bus p .low i data
  | cons k is ih =>
    have hbit : Speaks bus p
        (do return (data <<< 1) ||| (BitVec.ofBool (← receiveBit bus)).setWidth 8 : Fw Byte) .low i
        ((data <<< 1) ||| (BitVec.ofBool (p i)).setWidth 8) [.bit false (p i)] .low (i + 1) :=
      .bind speaks_receiveBit (.pure _)
    have hmarks : ((List.range (k :: is).length).map fun k => Mark.bit false (p (i + k))) =
        [.bit false (p i)] ++ (List.range is.length).map fun k => .bit false (p (i + 1 + k)) := by
      simp [List.range_succ_eq_map, Function.comp_def, Nat.add_assoc, Nat.add_comm 1]
    have hdata : (List.range (k :: is).length).foldl (fun (data : Byte) k =>
        (data <<< 1) ||| (BitVec.ofBool (p (i + k))).setWidth 8) data =
        (List.range is.length).foldl (fun (data : Byte) k =>
          (data <<< 1) ||| (BitVec.ofBool (p (i + 1 + k))).setWidth 8)
          ((data <<< 1) ||| (BitVec.ofBool (p i)).setWidth 8) := by
      simp [List.range_succ_eq_map, List.foldl_map, Nat.add_assoc, Nat.add_comm 1]
    rw [List.foldlM_cons, hmarks, hdata, List.length_cons, Nat.add_comm is.length, ← Nat.add_assoc]
    exact .bind hbit (ih _)

/-- The bits of the byte of eight samples are the samples. -/
theorem byteBits_byteOf (byMaster : Bool) :
    byteBits byMaster (byteOf p i) = (List.range 8).map fun k => (byMaster, p (i + k)) := by
  have hall : ∀ b₀ b₁ b₂ b₃ b₄ b₅ b₆ b₇ : Bool,
      byteBits byMaster ([b₀, b₁, b₂, b₃, b₄, b₅, b₆, b₇].foldl (fun (data : Byte) b =>
        (data <<< 1) ||| (BitVec.ofBool b).setWidth 8) 0) =
        [b₀, b₁, b₂, b₃, b₄, b₅, b₆, b₇].map fun b => (byMaster, b) := by
    cases byMaster <;> decide +kernel
  exact hall (p (i + 0)) (p (i + 1)) (p (i + 2)) (p (i + 3)) (p (i + 4)) (p (i + 5)) (p (i + 6))
    (p (i + 7))

theorem speaks_receiveByte (ack : Bool) :
    Speaks bus p (receiveByte bus ack) .low i (byteOf p i) (Item.got (byteOf p i) (!ack)).marks .low
      (i + 8) := by
  have hbits := @speaks_takeBits bus p i (List.range 8) 0
  have hall : Speaks bus p (receiveByte bus ack) .low i (byteOf p i) _ .low (i + 8) :=
    .bind hbits (.bind (speaks_transmitBit (!ack)) (.pure _))
  have hmarks : (Item.got (byteOf p i) (!ack)).marks =
      ((List.range 8).map fun k => .bit false (p (i + k))) ++ [.bit true (!ack)] := by
    simp [Item.got, Item.marks, byteBits_byteOf, bitMarks, Function.comp_def]
  rw [hmarks]
  exact hall

theorem speaks_transmitBytes (bytes : List Byte) : ∃ j, Speaks bus p (transmitBytes bus bytes) .low i
    (acked p i bytes.length) ((sentItems p i bytes).flatMap Item.marks) .low j := by
  induction bytes generalizing i with
  | nil => exact ⟨i, .pure true⟩
  | cons byte bytes ih =>
    have hbyte := @speaks_transmitByte bus p i byte
    simp only [sentItems, List.flatMap_cons, List.length_cons, acked_succ]
    cases hack : p i with
    | true =>
      rw [hack] at hbyte
      exact ⟨_, .bind hbyte (.pure false)⟩
    | false =>
      obtain ⟨j, hrest⟩ := ih (i := i + 1)
      rw [hack] at hbyte
      exact ⟨j, .bind hbyte hrest⟩

theorem speaks_receiveBytes (n : Nat) : Speaks bus p (receiveBytes bus n) .low i
    ((List.range n).map fun k => byteOf p (i + 8 * k)) ((gotItems p i n).flatMap Item.marks) .low
    (i + 8 * n) := by
  induction n generalizing i with
  | zero => exact .pure []
  | succ n ih =>
    have hbytes : ((List.range (n + 1)).map fun k => byteOf p (i + 8 * k)) =
        byteOf p i :: (List.range n).map fun k => byteOf p (i + 8 + 8 * k) := by
      simp [List.range_succ_eq_map, Function.comp_def, Nat.mul_add, Nat.add_assoc, Nat.add_comm 8]
    have hend : i + 8 * (n + 1) = i + 8 + 8 * n := by omega
    rw [hbytes, hend]
    exact .bind (speaks_receiveByte _) (.map ih _)

/-- From the `i`-th sample on: the rest of a transfer is `items`, and its result is `a`. -/
def Ends (bus : I2cBus) (p : Nat → Bool) (m : Fw α) (s : Scl) (i : Nat) (a : α) (items : List Item) :
    Prop :=
  ∃ j, Speaks bus p m s i a (items.flatMap Item.marks) (.high true none) j

theorem Ends.bind {m : Fw α} {f : α → Fw β} {x : α} {a : β} {before items : List Item}
    (hm : Speaks bus p m s i x (before.flatMap Item.marks) t j) (hf : Ends bus p (f x) t j a items) :
    Ends bus p (m >>= f) s i a (before ++ items) := by
  obtain ⟨k, hf⟩ := hf
  refine ⟨k, ?_⟩
  rw [List.flatMap_append]
  exact .bind hm hf

theorem Ends.item {m : Fw α} {f : α → Fw β} {x : α} {a : β} {item : Item} {items : List Item}
    (hm : Speaks bus p m s i x item.marks t j) (hf : Ends bus p (f x) t j a items) :
    Ends bus p (m >>= f) s i a (item :: items) := by
  rw [← List.append_nil item.marks, ← List.flatMap_nil, ← List.flatMap_cons] at hm
  exact .bind hm hf

theorem Ends.stop (a : α) : Ends bus p (i2cStop bus >>= fun _ => Pure.pure a) .low i a [.stop] :=
  ⟨i, .bind speaks_i2cStop (.pure a)⟩

/-- A byte: if it is refused the transfer ends with `x`, else it goes on with `f`. -/
theorem Ends.byte {f : Fw α} {x a : α} {items : List Item} (data : Byte)
    (hx : p i = true → x = a ∧ items = [.stop])
    (hf : p i = false → Ends bus p f .low (i + 1) a items) :
    Ends bus p (transmitByte bus data >>= fun r =>
      if (!r) = true then i2cStop bus >>= fun _ => Pure.pure x else f) .low i a
      (.sent data (p i) :: items) := by
  refine .item (speaks_transmitByte data) ?_
  cases hack : p i with
  | true =>
    obtain ⟨rfl, rfl⟩ := hx hack
    simpa using Ends.stop x
  | false => simpa using hf hack

/-! ## Transfers -/

def Transfer.run (bus : I2cBus) : Transfer → Fw (Bool × List Byte)
  | .write slaveAddr addr data => do return (← i2cWrite bus slaveAddr addr data, data)
  | .read slaveAddr addr data sendStop => i2cRead bus slaveAddr addr data sendStop
  | .poll slaveAddr => do return (← i2cPoll bus slaveAddr, [])
  | .present slaveAddr => do
    return (← recorded (.poll bus slaveAddr) do
      i2cStart bus
      let ack ← transmitByte bus (addrRd slaveAddr)
      i2cStop bus
      return ack, [])

/-- What is recorded of a transfer with the result `r`. -/
def Transfer.action (bus : I2cBus) (r : Bool × List Byte) : Transfer → Action
  | .write slaveAddr addr data => .write bus slaveAddr addr data r.1
  | .read slaveAddr addr _ _ => .read bus slaveAddr addr r.2 r.1
  | .poll slaveAddr => .poll bus slaveAddr r.1
  | .present slaveAddr => .poll bus slaveAddr r.1

theorem refused_sentItems (i : Nat) (bytes : List Byte) :
    (sentItems p i bytes).any Item.refused = !acked p i bytes.length := by
  induction bytes generalizing i with
  | nil => rfl
  | cons byte bytes ih =>
    rw [sentItems, List.any_cons, refused_sent, List.length_cons, acked_succ]
    cases p i with
    | true => rfl
    | false => simpa using ih (i + 1)

theorem data_sentItems (i : Nat) (bytes : List Byte) :
    (sentItems p i bytes).filterMap Item.data = [] := by
  induction bytes generalizing i with
  | nil => rfl
  | cons byte bytes ih =>
    rw [sentItems, List.filterMap_cons, data_sent]
    cases p i with
    | true => rfl
    | false => exact ih (i + 1)

theorem refused_gotItems (i n : Nat) : (gotItems p i n).any Item.refused = false := by
  induction n generalizing i with
  | zero => rfl
  | succ n ih => rw [gotItems, List.any_cons, refused_got, ih, Bool.or_false]

theorem data_gotItems (i n : Nat) : (gotItems p i n).filterMap Item.data =
    (List.range n).map fun k => byteOf p (i + 8 * k) := by
  induction n generalizing i with
  | zero => rfl
  | succ n ih =>
    rw [gotItems, List.filterMap_cons, data_got, ih]
    simp [List.range_succ_eq_map, Function.comp_def, Nat.mul_add, Nat.add_assoc, Nat.add_comm 8]

theorem sentItems_append (i : Nat) (xs ys : List Byte) : sentItems p i (xs ++ ys) =
    sentItems p i xs ++ if acked p i xs.length then sentItems p (i + xs.length) ys else [] := by
  induction xs generalizing i with
  | nil => rfl
  | cons x xs ih =>
    rw [List.cons_append, sentItems, sentItems, List.length_cons, acked_succ]
    cases p i with
    | true => rfl
    | false => simp [ih (i + 1), Nat.add_assoc, Nat.add_comm 1]

/-- The beginning of a transfer: the addresses of the slave and of the register. -/
theorem Ends.header {f : Fw α} {x a : α} {rest : List Item} (slave addr : Byte)
    (hx : acked p 0 2 = false → x = a ∧ rest = [.stop])
    (hf : acked p 0 2 = true → Ends bus p f .low 2 a rest) :
    Ends bus p (i2cStart bus >>= fun _ => transmitByte bus slave >>= fun r =>
      if (!r) = true then i2cStop bus >>= fun _ => Pure.pure x
      else transmitByte bus addr >>= fun r =>
        if (!r) = true then i2cStop bus >>= fun _ => Pure.pure x else f) (.high true none) 0 a
      (.start :: sentItems p 0 [slave, addr] ++ rest) := by
  refine .item speaks_i2cStart_idle ?_
  refine .byte slave (fun h₀ => ?_) fun h₀ => ?_
  · obtain ⟨rfl, rfl⟩ := hx (by simp [acked_succ, h₀])
    simp [h₀]
  rw [if_neg (by simp [h₀])]
  refine .byte addr (fun h₁ => ?_) fun h₁ => ?_
  · obtain ⟨rfl, rfl⟩ := hx (by simp [acked_succ, h₁])
    simp [h₁]
  · simpa [h₁, sentItems] using hf (by simp [acked_succ, acked_zero, h₀, h₁])

/-- What is on the lines of a bus. -/
def linesOn (bus : I2cBus) (w : List (I2cBus × Wire)) : List Line :=
  w.filterMap fun x => if x.1 = bus then some x.2.line else none

/-- The transfers `ts` on a bus, from the transfer `k` on. -/
def framesOn (bus : I2cBus) (p : Nat → Nat → Bool) : Nat → List (I2cBus × Transfer) → List Item
  | _, [] => []
  | k, t :: ts => (if t.1 = bus then t.2.frame (p k) else []) ++ framesOn bus p (k + 1) ts

def outcomes (p : Nat → Nat → Bool) : Nat → List (I2cBus × Transfer) → List (Bool × List Byte)
  | _, [] => []
  | k, t :: ts => t.2.outcome (t.2.frame (p k)) :: outcomes p (k + 1) ts

def actions (p : Nat → Nat → Bool) : Nat → List (I2cBus × Transfer) → List Action
  | _, [] => []
  | k, t :: ts => t.2.action t.1 (t.2.outcome (t.2.frame (p k))) :: actions p (k + 1) ts

def Action.isTransfer : Action → Bool
  | .write .. | .read .. | .poll .. => true
  | _ => false

/-- From `b` to `b'` the transfers `ts` were made, and these are what is on the buses and in the
record. -/
structure Monitored (b b' : Board) (ts : List (I2cBus × Transfer)) : Prop where
  pattern : b'.pattern = b.pattern
  transfer : b'.transfer = b.transfer + ts.length
  log : b'.log.filter Action.isTransfer =
    b.log.filter Action.isTransfer ++ actions b.pattern b.transfer ts
  wire : ∃ w, b'.wire = b.wire ++ w ∧ ∀ bus, monitor.Emits idle (linesOn bus w)
    (framesOn bus b.pattern b.transfer ts) idle

theorem whole_sentItems (i : Nat) (bytes : List Byte) : ∀ x ∈ sentItems p i bytes, x.Whole := by
  induction bytes generalizing i with
  | nil => simp [sentItems]
  | cons byte bytes ih =>
    rw [sentItems, List.forall_mem_cons]
    refine ⟨whole_sent _ _, fun x hx => ?_⟩
    split at hx
    · cases hx
    · exact ih (i + 1) x hx

theorem whole_gotItems (i n : Nat) : ∀ x ∈ gotItems p i n, x.Whole := by
  induction n generalizing i with
  | zero => simp [gotItems]
  | succ n ih =>
    rw [gotItems, List.forall_mem_cons]
    exact ⟨whole_got _ _, ih (i + 8)⟩

theorem whole_frame (t : Transfer) : ∀ x ∈ t.frame p, x.Whole := by
  cases t with
  | write slaveAddr addr data =>
    simp only [Transfer.frame, List.forall_mem_append, List.forall_mem_cons]
    exact ⟨⟨whole_start, whole_sentItems 0 _⟩, whole_stop, by simp⟩
  | read slaveAddr addr data sendStop =>
    simp only [Transfer.frame, List.forall_mem_append, List.forall_mem_cons]
    refine ⟨⟨whole_start, whole_sentItems 0 _⟩, ?_⟩
    split
    · refine List.forall_mem_append.mpr ⟨by cases sendStop <;> simp, ?_⟩
      refine List.forall_mem_cons.mpr ⟨whole_start, List.forall_mem_cons.mpr ⟨whole_sent _ _, ?_⟩⟩
      split
      · simp
      · exact List.forall_mem_append.mpr ⟨whole_gotItems 3 _, by simp⟩
    · simp
  | poll slaveAddr => simp [Transfer.frame]
  | present slaveAddr => simp [Transfer.frame]

/-- A transfer of which the marks are known. -/
theorem recorded_monitored {action : α → Action} {m : Fw α} {a : α} (t : Transfer) (b : Board)
    (hm : Ends bus (b.pattern b.transfer) m (.high true none) 0 a (t.frame (b.pattern b.transfer)))
    (ha : action a = t.action bus (t.outcome (t.frame (b.pattern b.transfer))))
    (htransfer : (action a).isTransfer = true) :
    (recorded action m b).1 = a ∧ Monitored b (recorded action m b).2 [(bus, t)] := by
  obtain ⟨j, hm⟩ := hm
  obtain ⟨w, hw, hms⟩ := hm { b with pos := 0 } rfl rfl
  have hrec : recorded action m b = (a, { b with
      pos := j, wire := b.wire ++ w.map fun x => (bus, x), transfer := b.transfer + 1,
      log := b.log ++ [action a] }) := by
    show (fun r : α × Board => (r.1, { r.2 with
      transfer := r.2.transfer + 1, log := r.2.log ++ [action r.1] })) (m { b with pos := 0 }) = _
    rw [hw]
  rw [hrec]
  refine ⟨rfl, rfl, rfl, ?_, _, rfl, fun bus' => ?_⟩
  · simp [actions, ← ha, htransfer]
  · rcases eq_or_ne bus bus' with rfl | hne
    · have hlines : linesOn bus (w.map fun x => (bus, x)) = w.map Wire.line := by
        simp [linesOn, List.filterMap_map]
      rw [hlines]
      have hall : monitor.Emits idle (w.map Wire.line)
          (t.frame (b.pattern b.transfer)) idle :=
        hms.comp (emits_marks _ (whole_frame t))
      simpa [framesOn] using hall
    · have hlines : linesOn bus' (w.map fun x => (bus, x)) = [] := by
        simp [linesOn, hne]
      rw [hlines]
      simpa [framesOn, hne] using Transducer.Emits.nil (T := monitor) idle

theorem Monitored.refl (b : Board) : Monitored b b [] :=
  ⟨rfl, rfl, by simp [actions], [], by simp, fun _ => .nil _⟩

theorem framesOn_append (p : Nat → Nat → Bool) (k : Nat) (ts ts' : List (I2cBus × Transfer)) :
    framesOn bus p k (ts ++ ts') = framesOn bus p k ts ++ framesOn bus p (k + ts.length) ts' := by
  induction ts generalizing k with
  | nil => rfl
  | cons t ts ih =>
    simp only [List.cons_append, framesOn, ih, List.append_assoc, List.length_cons, Nat.add_assoc,
      Nat.add_comm 1]

theorem actions_append (p : Nat → Nat → Bool) (k : Nat) (ts ts' : List (I2cBus × Transfer)) :
    actions p k (ts ++ ts') = actions p k ts ++ actions p (k + ts.length) ts' := by
  induction ts generalizing k with
  | nil => rfl
  | cons t ts ih =>
    simp only [List.cons_append, actions, ih, List.length_cons, Nat.add_assoc, Nat.add_comm 1]

theorem Monitored.trans {b b' b'' : Board} {ts ts' : List (I2cBus × Transfer)}
    (h : Monitored b b' ts) (h' : Monitored b' b'' ts') : Monitored b b'' (ts ++ ts') := by
  obtain ⟨w, hw, hon⟩ := h.wire
  obtain ⟨w', hw', hon'⟩ := h'.wire
  refine ⟨h'.pattern.trans h.pattern, ?_, ?_, w ++ w', ?_, fun bus => ?_⟩
  · rw [h'.transfer, h.transfer, List.length_append, Nat.add_assoc]
  · rw [h'.log, h.log, h.pattern, h.transfer, actions_append, List.append_assoc]
  · rw [hw', hw, List.append_assoc]
  · have hlines : linesOn bus (w ++ w') = linesOn bus w ++ linesOn bus w' := List.filterMap_append
    have hnext := hon' bus
    rw [h.pattern, h.transfer] at hnext
    rw [hlines, framesOn_append]
    exact (hon bus).append hnext

/-- The result of each transfer is that of its acknowledgements. -/
@[simp] theorem outcome_write (p : Nat → Bool) (slaveAddr addr : Byte) (data : List Byte) :
    (Transfer.write slaveAddr addr data).outcome ((Transfer.write slaveAddr addr data).frame p) =
      (acked p 0 (2 + data.length), data) := by
  simp [Transfer.outcome, Transfer.frame, refused_sentItems, Nat.add_comm 2]

@[simp] theorem outcome_read (p : Nat → Bool) (slaveAddr addr : Byte) (data : List Byte)
    (sendStop : Bool) :
    (Transfer.read slaveAddr addr data sendStop).outcome
      ((Transfer.read slaveAddr addr data sendStop).frame p) = if acked p 0 3 then
        (true, (List.range data.length).map fun k => byteOf p (3 + 8 * k)) else (false, data) := by
  rw [acked_add p 0 2 1]
  cases h : acked p 0 2 with
  | false => simp [Transfer.outcome, Transfer.frame, refused_sentItems, h]
  | true =>
    cases h₂ : p 2 with
    | true => cases sendStop <;>
      simp [Transfer.outcome, Transfer.frame, refused_sentItems, h, h₂, acked_succ]
    | false => cases sendStop <;>
      simp [Transfer.outcome, Transfer.frame, refused_sentItems, List.filterMap_cons, data_sentItems,
        refused_gotItems, data_gotItems, h, h₂, acked_succ, acked_zero]

@[simp] theorem outcome_poll (p : Nat → Bool) (slaveAddr : Byte) :
    (Transfer.poll slaveAddr).outcome ((Transfer.poll slaveAddr).frame p) = (!p 0 || !p 1, []) := by
  simp [Transfer.outcome, Transfer.frame]

@[simp] theorem outcome_present (p : Nat → Bool) (slaveAddr : Byte) :
    (Transfer.present slaveAddr).outcome ((Transfer.present slaveAddr).frame p) = (!p 0, []) := by
  simp [Transfer.outcome, Transfer.frame]

theorem write_monitored (bus : I2cBus) (slaveAddr addr : Byte) (data : List Byte) (b : Board) :
    (i2cWrite bus slaveAddr addr data b).1 = acked (b.pattern b.transfer) 0 (2 + data.length) ∧
      Monitored b (i2cWrite bus slaveAddr addr data b).2 [(bus, .write slaveAddr addr data)] := by
  have hframe (p : Nat → Bool) : (Transfer.write slaveAddr addr data).frame p =
      .start :: sentItems p 0 [addrWr slaveAddr, addr] ++
        ((if acked p 0 2 then sentItems p 2 data else []) ++ [.stop]) := by
    show .start :: sentItems p 0 ([addrWr slaveAddr, addr] ++ data) ++ [.stop] = _
    rw [sentItems_append]
    simp
  refine recorded_monitored (.write slaveAddr addr data) b ?_ (by rw [outcome_write]; rfl) rfl
  rw [hframe, acked_add]
  refine .header _ _ (fun h => by simp [h]) fun h => ?_
  obtain ⟨j, hdata⟩ := @speaks_transmitBytes bus (b.pattern b.transfer) 2 data
  rw [if_pos h, h, Bool.true_and]
  refine .bind hdata ?_
  cases acked (b.pattern b.transfer) 2 data.length with
  | true => exact .stop true
  | false => exact .stop false

theorem read_monitored (bus : I2cBus) (slaveAddr addr : Byte) (data : List Byte) (sendStop : Bool)
    (b : Board) :
    (i2cRead bus slaveAddr addr data sendStop b).1 =
      (Transfer.read slaveAddr addr data sendStop).outcome
        ((Transfer.read slaveAddr addr data sendStop).frame (b.pattern b.transfer)) ∧
      Monitored b (i2cRead bus slaveAddr addr data sendStop b).2
        [(bus, .read slaveAddr addr data sendStop)] := by
  refine recorded_monitored (.read slaveAddr addr data sendStop) b ?_ rfl rfl
  generalize b.pattern b.transfer = p
  rw [outcome_read, acked_add p 0 2 1]
  refine .header _ _ (fun h => by simp [h]) fun h => ?_
  rw [if_pos h, h, Bool.true_and]
  -- the second half begins with or without a stop
  have hread : ∀ s, Speaks bus p (i2cStart bus) s 2 () [.start] .low 2 →
      Ends bus p (i2cStart bus >>= fun _ => transmitByte bus (addrRd slaveAddr) >>= fun r =>
        if (!r) = true then i2cStop bus >>= fun _ => Pure.pure (false, data)
        else receiveBytes bus data.length >>= fun data => i2cStop bus >>= fun _ =>
          Pure.pure (true, data)) s 2
        (if acked p (0 + 2) 1 then
          (true, (List.range data.length).map fun k => byteOf p (3 + 8 * k)) else (false, data))
        (.start :: .sent (addrRd slaveAddr) (p 2) ::
          if p 2 then [.stop] else gotItems p 3 data.length ++ [.stop]) := by
    intro s hs
    refine .item hs (.byte _ (fun h₂ => by simp [acked, h₂]) fun h₂ => ?_)
    rw [if_pos (show acked p (0 + 2) 1 = true by simp [acked, h₂]), if_neg (by simp [h₂])]
    refine .bind (speaks_receiveBytes data.length) ?_
    exact .stop _
  cases sendStop with
  | true => exact .item speaks_i2cStop (hread _ speaks_i2cStart_idle)
  | false => exact hread _ speaks_i2cStart_low

theorem poll_monitored (bus : I2cBus) (slaveAddr : Byte) (b : Board) :
    (i2cPoll bus slaveAddr b).1 = (!b.pattern b.transfer 0 || !b.pattern b.transfer 1) ∧
      Monitored b (i2cPoll bus slaveAddr b).2 [(bus, .poll slaveAddr)] := by
  refine recorded_monitored (.poll slaveAddr) b ?_ (by rw [outcome_poll]; rfl) rfl
  generalize b.pattern b.transfer = p
  exact .item speaks_i2cStart_idle
    (.item (speaks_transmitByte _) (.item (speaks_transmitByte _) (.stop _)))

/-- The poll of `board_get_revision`. -/
theorem present_monitored (bus : I2cBus) (slaveAddr : Byte) (b : Board) :
    (recorded (.poll bus slaveAddr) (do
        i2cStart bus
        let ack ← transmitByte bus (addrRd slaveAddr)
        i2cStop bus
        return ack) b).1 = (!b.pattern b.transfer 0) ∧
      Monitored b (recorded (.poll bus slaveAddr) (do
        i2cStart bus
        let ack ← transmitByte bus (addrRd slaveAddr)
        i2cStop bus
        return ack) b).2 [(bus, .present slaveAddr)] := by
  refine recorded_monitored (.present slaveAddr) b ?_ (by rw [outcome_present]; rfl) rfl
  exact .item speaks_i2cStart_idle (.item (speaks_transmitByte _) (.stop _))

theorem transfer_monitored (t : I2cBus × Transfer) (b : Board) :
    (t.2.run t.1 b).1 = t.2.outcome (t.2.frame (b.pattern b.transfer)) ∧
      Monitored b (t.2.run t.1 b).2 [t] := by
  obtain ⟨bus, t⟩ := t
  cases t with
  | write slaveAddr addr data =>
    obtain ⟨hval, hmon⟩ := write_monitored bus slaveAddr addr data b
    simp only [Transfer.run, fw_bind, fw_pure, outcome_write, hval]
    exact ⟨trivial, hmon⟩
  | read slaveAddr addr data sendStop => exact read_monitored bus slaveAddr addr data sendStop b
  | poll slaveAddr =>
    obtain ⟨hval, hmon⟩ := poll_monitored bus slaveAddr b
    simp only [Transfer.run, fw_bind, fw_pure, outcome_poll, hval]
    exact ⟨trivial, hmon⟩
  | present slaveAddr =>
    obtain ⟨hval, hmon⟩ := present_monitored bus slaveAddr b
    rw [outcome_present, ← hval]
    exact ⟨rfl, hmon⟩

/-! ## Runs -/

/-- What the monitor of a bus has seen, and its state. -/
def Board.seen (bus : I2cBus) (b : Board) : List Item × Scl × List (Bool × Bool) :=
  monitor.run idle (linesOn bus b.wire)

theorem Monitored.seen {b b' : Board} {ts : List (I2cBus × Transfer)} (h : Monitored b b' ts)
    {bus : I2cBus} (hb : (b.seen bus).2 = idle) :
    b'.seen bus = ((b.seen bus).1 ++ framesOn bus b.pattern b.transfer ts, idle) := by
  obtain ⟨w, hw, hon⟩ := h.wire
  have hbefore : monitor.Emits idle (linesOn bus b.wire) (b.seen bus).1
      idle := Prod.ext rfl hb
  have hlines : linesOn bus b'.wire = linesOn bus b.wire ++ linesOn bus w := by
    rw [hw]
    exact List.filterMap_append
  unfold Board.seen
  rw [hlines]
  exact hbefore.append (hon bus)

/-- Any list of transfers. -/
def runTransfers (ts : List (I2cBus × Transfer)) : Fw (List (Bool × List Byte)) :=
  ts.mapM fun t => t.2.run t.1

theorem runTransfers_monitored (ts : List (I2cBus × Transfer)) (b : Board) :
    (runTransfers ts b).1 = outcomes b.pattern b.transfer ts ∧
      Monitored b (runTransfers ts b).2 ts := by
  induction ts generalizing b with
  | nil => exact ⟨rfl, .refl b⟩
  | cons t ts ih =>
    obtain ⟨hval, hmon⟩ := transfer_monitored t b
    obtain ⟨hvals, hmons⟩ := ih (t.2.run t.1 b).2
    have hrun : runTransfers (t :: ts) = do
        let r ← t.2.run t.1
        let rs ← runTransfers ts
        return r :: rs := List.mapM_cons
    rw [hmon.pattern, hmon.transfer] at hvals
    simp only [hrun, fw_bind, fw_pure, hval, hvals]
    exact ⟨rfl, hmon.trans hmons⟩

/-- The monitor of each bus reads the transfers on it, one after the other, and from them the results. -/
theorem seen_transfers (ts : List (I2cBus × Transfer)) (b : Board)
    (hb : ∀ bus, (b.seen bus).2 = idle) :
    (runTransfers ts b).1 = outcomes b.pattern b.transfer ts ∧
      ∀ bus, (runTransfers ts b).2.seen bus =
        ((b.seen bus).1 ++ framesOn bus b.pattern b.transfer ts, idle) :=
  ⟨(runTransfers_monitored ts b).1, fun bus => (runTransfers_monitored ts b).2.seen (hb bus)⟩

/-- A refused write, and a read in two halves behind it on the other bus. -/
theorem seen_transfers_refused :
    (runTransfers [(.i2c0, .write 0x60 0x04 [0x88, 0x99]), (.i2c1, .read 0x4a 0x00 [0x11] false)]
        (.start fun k i => k = 0 && i = 2)).1 = [(false, [0x88, 0x99]), (true, [0x00])] ∧
      (runTransfers [(.i2c0, .write 0x60 0x04 [0x88, 0x99]), (.i2c1, .read 0x4a 0x00 [0x11] false)]
        (.start fun k i => k = 0 && i = 2)).2.seen .i2c0 =
        ([.start, .sent 0xc0 false, .sent 0x04 false, .sent 0x88 true, .stop], idle) ∧
      (runTransfers [(.i2c0, .write 0x60 0x04 [0x88, 0x99]), (.i2c1, .read 0x4a 0x00 [0x11] false)]
        (.start fun k i => k = 0 && i = 2)).2.seen .i2c1 =
        ([.start, .sent 0x94 false, .sent 0x00 false, .start, .sent 0x95 false, .got 0x00 true, .stop],
          idle) := by
  obtain ⟨hval, hseen⟩ := seen_transfers
    [(.i2c0, .write 0x60 0x04 [0x88, 0x99]), (.i2c1, .read 0x4a 0x00 [0x11] false)]
    (.start fun k i => k = 0 && i = 2) fun _ => rfl
  refine ⟨hval.trans (by decide), (hseen .i2c0).trans (by decide), (hseen .i2c1).trans (by decide)⟩

/-! ## The board -/

/-- All that the program does on the buses are transfers. -/
def Framed (m : Fw α) : Prop := ∀ b, ∃ ts, Monitored b (m b).2 ts

theorem Framed.bind {m : Fw α} {f : α → Fw β} (hm : Framed m) (hf : ∀ a, Framed (f a)) :
    Framed (m >>= f) := fun b => by
  obtain ⟨ts, h⟩ := hm b
  obtain ⟨ts', h'⟩ := hf (m b).1 (m b).2
  exact ⟨ts ++ ts', h.trans h'⟩

theorem Framed.pure (a : α) : Framed (pure a : Fw α) := fun b => ⟨[], .refl b⟩

theorem Framed.forM {κ : Type} {f : κ → Fw Unit} (hf : ∀ x, Framed (f x)) (xs : List κ) :
    Framed (xs.forM f) := by
  induction xs with
  | nil => exact .pure _
  | cons x xs ih => exact .bind (hf x) fun _ => ih

/-- A step that leaves the buses alone. -/
theorem Framed.silent {m : Fw α} (hp : ∀ b, (m b).2.pattern = b.pattern)
    (ht : ∀ b, (m b).2.transfer = b.transfer) (hw : ∀ b, (m b).2.wire = b.wire)
    (hl : ∀ b, (m b).2.log.filter Action.isTransfer = b.log.filter Action.isTransfer) :
    Framed m := fun b =>
  ⟨[], hp b, ht b, by rw [hl b]; simp [actions], [], by rw [hw b, List.append_nil], fun _ => .nil _⟩

theorem framed_i2cWrite (bus : I2cBus) (slaveAddr addr : Byte) (data : List Byte) :
    Framed (i2cWrite bus slaveAddr addr data) :=
  fun b => ⟨_, (write_monitored bus slaveAddr addr data b).2⟩

theorem framed_i2cRead (bus : I2cBus) (slaveAddr addr : Byte) (data : List Byte) (sendStop : Bool) :
    Framed (i2cRead bus slaveAddr addr data sendStop) :=
  fun b => ⟨_, (read_monitored bus slaveAddr addr data sendStop b).2⟩

theorem framed_pmicRead (bus : I2cBus) (adr dat : Byte) : Framed (pmicRead bus adr dat) :=
  .bind (framed_i2cRead _ _ _ _ _) fun _ => .pure _

theorem framed_pmicWrite (bus : I2cBus) (adr dat : Byte) : Framed (pmicWrite bus adr dat) :=
  .bind (framed_i2cWrite _ _ _ _) fun _ => .pure _

theorem framed_i2cScan (bus : I2cBus) : Framed (i2cScan bus) :=
  .forM (fun _ => .bind (fun b => ⟨_, (poll_monitored bus _ b).2⟩) fun _ => .pure _) _

theorem framed_pmicWrites (ws : List (I2cBus × Byte × Byte)) : Framed (pmicWrites ws) :=
  .forM (fun _ => framed_pmicWrite _ _ _) ws

theorem framed_vctcxoControlWrite (v : BitVec 32) : Framed (vctcxoControlWrite v) :=
  .silent (fun _ => rfl) (fun _ => rfl) (fun _ => rfl) fun b => by
    show (b.log ++ [Action.vctcxoControl v]).filter Action.isTransfer = _
    simp [Action.isTransfer]

theorem framed_lms7002mControlWrite (v : BitVec 32) : Framed (lms7002mControlWrite v) :=
  .silent (fun _ => rfl) (fun _ => rfl) (fun _ => rfl) fun b => by
    show (b.log ++ [Action.lms7002mControl v]).filter Action.isTransfer = _
    simp [Action.isTransfer]

theorem framed_boardGetRevision : Framed boardGetRevision := by
  refine .bind (fun b => ⟨_, (present_monitored .i2c1 mcp4725I2cAddr b).2⟩) fun ack => ?_
  cases ack with
  | true => exact .bind (.silent (fun _ => rfl) (fun _ => rfl) (fun _ => rfl) fun _ => rfl) fun _ => .pure _
  | false => exact .bind (.silent (fun _ => rfl) (fun _ => rfl) (fun _ => rfl) fun _ => rfl) fun _ => .pure _

theorem framed_get : Framed (get : Fw Board) :=
  .silent (fun _ => rfl) (fun _ => rfl) (fun _ => rfl) fun _ => rfl

theorem framed_dacInit (dat : Byte × Byte) : Framed (dacInit dat) := by
  refine .bind framed_get fun b => ?_
  split
  · exact .bind (framed_i2cRead _ _ _ _ _) fun _ => .bind (framed_i2cWrite _ _ _ _) fun _ => .pure _
  · exact .pure _

theorem framed_vctcxoDacSet (value : BitVec 32) : Framed (vctcxoDacSet value) := by
  refine .bind framed_get fun b => ?_
  split
  · exact .bind (framed_i2cWrite _ _ _ _) fun _ => .pure _
  · exact .bind (framed_i2cWrite _ _ _ _) fun _ => .pure _

theorem framed_boardInit (stack : Stack) : Framed (boardInit stack) := by
  refine .bind framed_boardGetRevision fun _ => ?_
  refine .bind (.silent (fun _ => rfl) (fun _ => rfl) (fun _ => rfl) fun _ => rfl) fun _ => ?_
  refine .bind (framed_dacInit _) fun _ => .bind (framed_vctcxoControlWrite _) fun _ => ?_
  refine .bind (framed_lms7002mControlWrite _) fun _ => .bind (framed_lms7002mControlWrite _) fun _ => ?_
  refine .bind (framed_lms7002mControlWrite _) fun _ => ?_
  refine .bind (.bind (framed_i2cScan _) fun _ => framed_i2cScan _) fun _ => ?_
  refine .bind (.bind (framed_i2cRead _ _ _ _ _) fun _ => .pure _) fun _ => ?_
  exact .bind (framed_vctcxoControlWrite _) fun _ => .forM (fun _ => framed_vctcxoDacSet _) _

theorem framed_xtrxInit (stack : Stack) : Framed (xtrxInit stack) := by
  refine .bind (framed_pmicRead _ _ _) fun dat => ?_
  split
  · exact .pure _
  refine .bind ?_ fun dat => .bind (framed_pmicRead _ _ _) fun dat => ?_
  · rw [lmsConfigure_eq]
    exact .bind (framed_pmicWrites _) fun _ => .pure _
  split
  · exact .pure _
  refine .bind ?_ fun _ => .bind (framed_boardInit stack) fun _ => .pure _
  rw [lmsEnable_eq]
  exact framed_pmicWrites _

/-! ## The reset -/

/-- A pulse of `i2c?_reset` ends the one before it. -/
theorem speaks_pulse (q : Option (Bool × Bool)) : Speaks bus p (do
      oeSclSda bus true false true
      oeSclSda bus true true true) (.high true q) i () (pulseMark q) (.high true (some (true, true))) i := by
  have hall : Speaks bus p (do
      oeSclSda bus true false true
      oeSclSda bus true true true) (.high true q) i () (pulseMark q ++ []) _ i :=
    .bind (.set rfl) (.set rfl)
  rwa [List.append_nil] at hall

theorem speaks_pulses (xs : List Nat) : Speaks bus p (xs.forM fun _ => do
      oeSclSda bus true false true
      oeSclSda bus true true true) (.high true (some (true, true))) i ()
    (List.replicate xs.length (.bit true true)) (.high true (some (true, true))) i := by
  induction xs with
  | nil => exact .pure ()
  | cons x xs ih =>
    rw [List.length_cons, List.replicate_succ]
    exact .bind (speaks_pulse _) ih

/-- From any state of the lines there are nine bits with a high SDA and a stop; before them is at most
one mark. -/
theorem speaks_i2cReset (s : Scl) : ∃ before : List Mark, before.length ≤ 1 ∧ .start ∉ before ∧
    Speaks bus p (i2cReset bus) s i ()
      (before ++ (List.replicate 9 (.bit true true) ++ [.stop])) (.high true none) i := by
  -- the first line ends what is under way, and SCL and SDA are high
  have hfirst : ∃ ms q, ms.length + (pulseMark q).length ≤ 1 ∧ .start ∉ ms ++ pulseMark q ∧
      lineStep s (.set true true true) = (ms, .high true q) := by
    cases s with
    | low => exact ⟨[], some (true, true), by simp [pulseMark], by simp [pulseMark], rfl⟩
    | high sda q =>
      cases sda with
      | false => exact ⟨[.stop], none, by simp [pulseMark], by simp [pulseMark], rfl⟩
      | true => exact ⟨[], q, by cases q <;> simp [pulseMark], by cases q <;> simp [pulseMark], rfl⟩
  obtain ⟨ms, q, hlen, hstart, hset⟩ := hfirst
  refine ⟨ms ++ pulseMark q, by simpa using hlen, hstart, ?_⟩
  have hpulses : Speaks bus p ((List.range 9).forM fun _ => do
      oeSclSda bus true false true
      oeSclSda bus true true true) (.high true q) i ()
      (pulseMark q ++ List.replicate 8 (.bit true true)) (.high true (some (true, true))) i :=
    .bind (speaks_pulse q) (speaks_pulses [1, 2, 3, 4, 5, 6, 7, 8])
  have hall : Speaks bus p (i2cReset bus) s i () (ms ++ ((pulseMark q ++
      List.replicate 8 (.bit true true)) ++ ([.bit true true] ++ ([.stop] ++ [])))) (.high true none) i :=
    .bind (.set hset) (.bind hpulses (.bind (.set rfl) (.bind speaks_i2cStop (.set rfl))))
  simpa [List.replicate_succ] using hall

/-- What a reset of `bus` does to what is seen: the bus is idle, whatever was on it. -/
theorem seen_i2cReset (bus : I2cBus) (b : Board) :
    (∃ items, .start ∉ items ∧ (i2cReset bus b).2.seen bus =
        ((b.seen bus).1 ++ (items ++ [.stop]), idle)) ∧
      (∀ bus', bus' ≠ bus → (i2cReset bus b).2.seen bus' = b.seen bus') ∧
      (i2cReset bus b).2.pattern = b.pattern ∧ (i2cReset bus b).2.transfer = b.transfer := by
  obtain ⟨before, -, hstart, hspeaks⟩ :=
    @speaks_i2cReset bus (b.pattern b.transfer) b.pos (b.seen bus).2.1
  obtain ⟨w, hw, hms⟩ := hspeaks b rfl rfl
  rw [hw]
  refine ⟨?_, fun bus' hne => ?_, rfl, rfl⟩
  · have hbits : .start ∉ before ++ List.replicate 9 (.bit true true) := by simp [hstart]
    have hitems := byteMonitor.run_append (b.seen bus).2.2
      (before ++ List.replicate 9 (.bit true true)) [.stop]
    rw [List.append_assoc] at hitems
    have hlines : linesOn bus (b.wire ++ w.map fun x => (bus, x)) =
        linesOn bus b.wire ++ w.map Wire.line := by
      simp [linesOn, List.filterMap_map]
    have hbefore : monitor.Emits idle (linesOn bus b.wire) (b.seen bus).1
        (b.seen bus).2 := rfl
    refine ⟨_, start_not_mem_run (b.seen bus).2.2 hbits, ?_⟩
    unfold Board.seen
    rw [hlines]
    exact hbefore.append (hms.comp hitems)
  · have hlines : linesOn bus' (b.wire ++ w.map fun x => (bus, x)) = linesOn bus' b.wire := by
      simp [linesOn, hne.symm]
    unfold Board.seen
    rw [hlines]

/-- After both buses are reset, from any board, the transfers are read as before. -/
theorem seen_reset_transfers (ts : List (I2cBus × Transfer)) (b : Board) :
    ((do i2cReset .i2c0; i2cReset .i2c1; runTransfers ts) b).1 = outcomes b.pattern b.transfer ts ∧
      ∀ bus, ∃ items, .start ∉ items ∧ ((do i2cReset .i2c0; i2cReset .i2c1; runTransfers ts) b).2.seen bus =
        ((b.seen bus).1 ++ (items ++ .stop :: framesOn bus b.pattern b.transfer ts),
          idle) := by
  obtain ⟨⟨items₀, hstart₀, hseen₀⟩, hother₀, hp₀, ht₀⟩ := seen_i2cReset .i2c0 b
  obtain ⟨⟨items₁, hstart₁, hseen₁⟩, hother₁, hp₁, ht₁⟩ := seen_i2cReset .i2c1 (i2cReset .i2c0 b).2
  rw [hother₀ .i2c1 (by decide)] at hseen₁
  rw [← hother₁ .i2c0 (by decide)] at hseen₀
  simp only [fw_bind]
  generalize (i2cReset .i2c1 (i2cReset .i2c0 b).2).2 = c at *
  have hidle : ∀ bus, (c.seen bus).2 = idle := by
    rintro (_ | _)
    · rw [hseen₀]
    · rw [hseen₁]
  obtain ⟨hval, hmon⟩ := runTransfers_monitored ts c
  have hseen := fun bus => hmon.seen (hidle bus)
  rw [hp₁, hp₀, ht₁, ht₀] at hval hseen
  refine ⟨hval, ?_⟩
  rintro (_ | _)
  · exact ⟨items₀, hstart₀, by rw [hseen, hseen₀]; simp⟩
  · exact ⟨items₁, hstart₁, by rw [hseen, hseen₁]; simp⟩

end

end Firmware
end Xtrx
