import Mathlib.Data.List.Basic

/-!
# The I2C masters of the firmware (`i2c0.c`, `i2c1.c`)

The two files differ in the bus only. The firmware sets the lines of a bus in software and reads
SDA back; what it reads is given by the devices: `pattern k i` is the `i`-th sample in the `k`-th
transfer, so a pattern has each way to refuse a byte and all data. Waiting times are left out.

- **Functions** (`i2cWrite`, `i2cRead`, `i2cPoll` and what is under them), as programs on the `Board`.
- **Samples** (`transmitByte_eq`, `receiveByte_eq`): what a byte puts on the wire, and the result.
- **Transfers** (`i2cWrite_after`, `i2cRead_after`): a transfer is recorded, with the acknowledgement
  that the pattern gives.
-/

namespace Xtrx
namespace Firmware

abbrev Byte := BitVec 8

inductive I2cBus where
  | i2c0
  | i2c1
  deriving DecidableEq

/-- An access to the registers of a bus: the lines are set, or SDA is read. -/
inductive Wire where
  | lines (oe scl sda : Bool)
  | sample (sda : Bool)
  deriving DecidableEq

/-- What the firmware did: a transfer with its result (the data is that after the transfer), or a
write of a control register. -/
inductive Action where
  | write (bus : I2cBus) (slaveAddr addr : Byte) (data : List Byte) (ack : Bool)
  | read (bus : I2cBus) (slaveAddr addr : Byte) (data : List Byte) (ack : Bool)
  | poll (bus : I2cBus) (slaveAddr : Byte) (ack : Bool)
  | vctcxoControl (v : BitVec 32)
  | lms7002mControl (v : BitVec 32)
  deriving DecidableEq

/-- The devices (`pattern`, and the place in it), the global variables of the firmware. Recorded for
the proofs: what is on the wires, and what was done. -/
structure Board where
  pattern : Nat → Nat → Bool
  transfer : Nat
  pos : Nat
  wire : List (I2cBus × Wire)
  log : List Action
  boardRevision : Int
  dacAddr : Byte

abbrev Fw := StateM Board

/-! ## The lines -/

def oeSclSda (bus : I2cBus) (oe scl sda : Bool) : Fw Unit :=
  modify fun b => { b with wire := b.wire ++ [(bus, .lines oe scl sda)] }

/-- `i2c?_r_read() & 1`. -/
def rRead (bus : I2cBus) : Fw Bool := fun b =>
  (b.pattern b.transfer b.pos,
    { b with pos := b.pos + 1, wire := b.wire ++ [(bus, .sample (b.pattern b.transfer b.pos))] })

def i2cStart (bus : I2cBus) : Fw Unit := do
  oeSclSda bus true true true
  oeSclSda bus true true false
  oeSclSda bus true false false

def i2cStop (bus : I2cBus) : Fw Unit := do
  oeSclSda bus true false false
  oeSclSda bus true true false
  oeSclSda bus true true true
  oeSclSda bus false true true

def transmitBit (bus : I2cBus) (value : Bool) : Fw Unit := do
  oeSclSda bus true false value
  oeSclSda bus true true value
  oeSclSda bus true false value
  -- release line
  oeSclSda bus false false false

def receiveBit (bus : I2cBus) : Fw Bool := do
  oeSclSda bus false false false
  oeSclSda bus false true false
  -- read in the middle of SCL high
  let value ← rRead bus
  oeSclSda bus false false false
  return value

/-- The result is if the slave sends ACK. -/
def transmitByte (bus : I2cBus) (data : Byte) : Fw Bool := do
  oeSclSda bus false false false
  let _ ← (List.range 8).foldlM (fun (data : Byte) _ => do
    -- MSB first
    transmitBit bus (data &&& (1 <<< 7) ≠ 0)
    return data <<< 1) data
  let ack ← receiveBit bus
  -- 0 from slave means ack
  return ack == false

def receiveByte (bus : I2cBus) (ack : Bool) : Fw Byte := do
  let data ← (List.range 8).foldlM (fun (data : Byte) _ => do
    return (data <<< 1) ||| (BitVec.ofBool (← receiveBit bus)).setWidth 8) 0
  transmitBit bus (!ack)
  return data

/-! ## Transfers -/

/-- A transfer begins the devices' next samples, and is recorded with its result. -/
def recorded {α : Type} (action : α → Action) (m : Fw α) : Fw α := do
  modify fun b => { b with pos := 0 }
  let a ← m
  modify fun b => { b with transfer := b.transfer + 1, log := b.log ++ [action a] }
  return a

/-- `I2C?_ADDR_WR`. -/
def addrWr (addr : Byte) : Byte := addr <<< 1

/-- `I2C?_ADDR_RD`. -/
def addrRd (addr : Byte) : Byte := (addr <<< 1) ||| 1

/-- The loop over the data of a write. -/
def transmitBytes (bus : I2cBus) : List Byte → Fw Bool
  | [] => return true
  | byte :: data => do
    if !(← transmitByte bus byte) then
      return false
    transmitBytes bus data

/-- The loop over the data of a read of `n` bytes: the last one is not acknowledged. -/
def receiveBytes (bus : I2cBus) : Nat → Fw (List Byte)
  | 0 => return []
  | n + 1 => do
    let byte ← receiveByte bus (n ≠ 0)
    return byte :: (← receiveBytes bus n)

/-- `i2c?_read`: the result, and what is in `data` after it. -/
def i2cRead (bus : I2cBus) (slaveAddr addr : Byte) (data : List Byte) (sendStop : Bool) :
    Fw (Bool × List Byte) :=
  recorded (fun r => .read bus slaveAddr addr r.2 r.1) do
    i2cStart bus
    if !(← transmitByte bus (addrWr slaveAddr)) then
      i2cStop bus
      return (false, data)
    if !(← transmitByte bus addr) then
      i2cStop bus
      return (false, data)
    if sendStop then
      i2cStop bus
    i2cStart bus
    if !(← transmitByte bus (addrRd slaveAddr)) then
      i2cStop bus
      return (false, data)
    let data ← receiveBytes bus data.length
    i2cStop bus
    return (true, data)

/-- `i2c?_write`. -/
def i2cWrite (bus : I2cBus) (slaveAddr addr : Byte) (data : List Byte) : Fw Bool :=
  recorded (.write bus slaveAddr addr data) do
    i2cStart bus
    if !(← transmitByte bus (addrWr slaveAddr)) then
      i2cStop bus
      return false
    if !(← transmitByte bus addr) then
      i2cStop bus
      return false
    if !(← transmitBytes bus data) then
      i2cStop bus
      return false
    i2cStop bus
    return true

/-- `i2c?_poll`. -/
def i2cPoll (bus : I2cBus) (slaveAddr : Byte) : Fw Bool :=
  recorded (.poll bus slaveAddr) do
    i2cStart bus
    let result ← transmitByte bus (addrWr slaveAddr)
    let result' ← transmitByte bus (addrRd slaveAddr)
    i2cStop bus
    return result || result'

/-- `i2c?_scan`. -/
def i2cScan (bus : I2cBus) : Fw Unit :=
  (List.range 0x80).forM fun slaveAddr => do
    let _ ← i2cPoll bus (BitVec.ofNat 8 slaveAddr)

/-! ## Samples -/

/-- The board after accesses `w` to the wires, `n` of them samples. -/
def Board.wired (w : List (I2cBus × Wire)) (n : Nat) (b : Board) : Board :=
  { b with pos := b.pos + n, wire := b.wire ++ w }

section

variable (b : Board) (bus : I2cBus) (w w' : List (I2cBus × Wire)) (n n' : Nat)

@[simp] theorem wired_pattern : (b.wired w n).pattern = b.pattern := rfl

@[simp] theorem wired_transfer : (b.wired w n).transfer = b.transfer := rfl

@[simp] theorem wired_pos : (b.wired w n).pos = b.pos + n := rfl

@[simp] theorem wired_log : (b.wired w n).log = b.log := rfl

@[simp] theorem wired_wired : (b.wired w n).wired w' n' = b.wired (w ++ w') (n + n') := by
  simp [Board.wired, Nat.add_assoc]

theorem oeSclSda_eq (oe scl sda : Bool) :
    oeSclSda bus oe scl sda b = ((), b.wired [(bus, .lines oe scl sda)] 0) := rfl

theorem rRead_eq : rRead bus b =
    (b.pattern b.transfer b.pos, b.wired [(bus, .sample (b.pattern b.transfer b.pos))] 1) := rfl

/-- The next sample. -/
abbrev Board.next (b : Board) : Bool := b.pattern b.transfer b.pos

/-- A bit on the wire: SDA has the value before SCL is high and until it is low again. -/
def bitWire (bus : I2cBus) (value : Bool) : List (I2cBus × Wire) :=
  [(bus, .lines true false value), (bus, .lines true true value), (bus, .lines true false value),
    (bus, .lines false false false)]

/-- The bits of a byte, most significant bit first. -/
def bitsWire (bus : I2cBus) (data : Byte) (n : Nat) : List (I2cBus × Wire) :=
  (List.range n).flatMap fun i => bitWire bus (data.getLsbD (7 - i))

@[simp] theorem fw_bind {α β : Type} (m : Fw α) (f : α → Fw β) : (m >>= f) b = f (m b).1 (m b).2 := rfl

@[simp] theorem fw_pure {α : Type} (a : α) : (pure a : Fw α) b = (a, b) := rfl

theorem i2cStart_eq : ∃ w, i2cStart bus b = ((), b.wired w 0) := by
  simp only [i2cStart, fw_bind, oeSclSda_eq, wired_wired]
  exact ⟨_, rfl⟩

theorem i2cStop_eq : ∃ w, i2cStop bus b = ((), b.wired w 0) := by
  simp only [i2cStop, fw_bind, oeSclSda_eq, wired_wired]
  exact ⟨_, rfl⟩

theorem transmitBit_eq (value : Bool) :
    transmitBit bus value b = ((), b.wired (bitWire bus value) 0) := by
  simp only [transmitBit, fw_bind, oeSclSda_eq, wired_wired]
  rfl

theorem receiveBit_eq : ∃ w, receiveBit bus b = (b.next, b.wired w 1) := by
  simp only [receiveBit, fw_bind, fw_pure, oeSclSda_eq, rRead_eq, wired_wired]
  exact ⟨_, rfl⟩

theorem msb_eq (data : Byte) : decide (data &&& (1 <<< 7) ≠ 0) = data.getLsbD 7 := by
  revert data
  decide +kernel

/-- The loop of `transmitByte`. The induction is on the bits that are left. -/
theorem sendBits_eq (is : List Nat) (data : Byte) (b : Board) :
    (is.foldlM (fun (data : Byte) _ => do
      transmitBit bus (data &&& (1 <<< 7) ≠ 0)
      return data <<< 1) data : Fw Byte) b =
      (data <<< is.length, b.wired ((List.range is.length).flatMap fun i =>
        bitWire bus ((data <<< i).getLsbD 7)) 0) := by
  induction is generalizing data b with
  | nil => simp [Board.wired]
  | cons i is ih =>
    rw [List.foldlM_cons, fw_bind, fw_bind, transmitBit_eq, fw_pure, ih, wired_wired, msb_eq]
    simp only [List.length_cons, List.range_succ_eq_map, List.flatMap_cons, List.flatMap_map,
      BitVec.shiftLeft_zero, ← BitVec.shiftLeft_add, Nat.add_comm 1, Nat.add_zero, Nat.succ_eq_add_one]

theorem bitsWire_eq (data : Byte) :
    ((List.range 8).flatMap fun i => bitWire bus ((data <<< i).getLsbD 7)) =
      bitsWire bus data 8 := by
  unfold bitsWire
  refine List.flatMap_congr fun i hi => ?_
  have hle : ¬ 7 < i := by
    have hlt := List.mem_range.mp hi
    omega
  rw [BitVec.getLsbD_shiftLeft, decide_eq_false hle]
  rfl

/-- `transmitByte` sends the bits of the byte and then takes the acknowledgement. -/
theorem transmitByte_eq (data : Byte) : ∃ w w', transmitByte bus data b =
    (!b.next, b.wired (w ++ bitsWire bus data 8 ++ w') 1) := by
  obtain ⟨w, hw⟩ := receiveBit_eq
    (b.wired ([(bus, .lines false false false)] ++ bitsWire bus data 8) (0 + 0)) bus
  refine ⟨[(bus, .lines false false false)], w, ?_⟩
  simp only [transmitByte, fw_bind, fw_pure, oeSclSda_eq, sendBits_eq, List.length_range,
    bitsWire_eq, wired_wired]
  rw [hw, wired_wired]
  simp [Board.next]

theorem transmitByte_wired (data : Byte) : ∃ w, transmitByte bus data b =
    (!b.next, b.wired w 1) := by
  obtain ⟨w, w', h⟩ := transmitByte_eq b bus data
  exact ⟨_, h⟩

/-- The byte of eight samples, most significant bit first. -/
def byteOf (p : Nat → Bool) (i : Nat) : Byte :=
  (List.range 8).foldl (fun data j => (data <<< 1) ||| (BitVec.ofBool (p (i + j))).setWidth 8) 0

/-- The loop of `receiveByte`. -/
theorem takeBits_eq (is : List Nat) (data : Byte) (b : Board) :
    ∃ w, (is.foldlM (fun (data : Byte) _ => do
      return (data <<< 1) ||| (BitVec.ofBool (← receiveBit bus)).setWidth 8) data : Fw Byte) b =
      ((List.range is.length).foldl (fun (data : Byte) j => (data <<< 1) |||
        (BitVec.ofBool (b.pattern b.transfer (b.pos + j))).setWidth 8) data, b.wired w is.length) := by
  induction is generalizing data b with
  | nil => exact ⟨[], by simp [Board.wired]⟩
  | cons i is ih =>
    obtain ⟨w, hw⟩ := receiveBit_eq b bus
    rw [List.foldlM_cons, fw_bind, fw_bind, fw_pure, hw]
    obtain ⟨w', hw'⟩ := ih ((data <<< 1) ||| (BitVec.ofBool b.next).setWidth 8) (b.wired w 1)
    rw [hw', wired_wired]
    refine ⟨w ++ w', ?_⟩
    simp only [List.length_cons, List.range_succ_eq_map, List.foldl_cons, List.foldl_map,
      wired_pattern, wired_transfer, wired_pos, Nat.add_zero, Nat.succ_eq_add_one, Nat.add_assoc,
      Nat.add_comm 1]

theorem receiveByte_eq (ack : Bool) : ∃ w, receiveByte bus ack b =
    (byteOf (b.pattern b.transfer) b.pos, b.wired w 8) := by
  obtain ⟨w, hw⟩ := takeBits_eq bus (List.range 8) 0 b
  rw [List.length_range] at hw
  refine ⟨w ++ bitWire bus (!ack), ?_⟩
  simp only [receiveByte, fw_bind, fw_pure, hw, transmitBit_eq, wired_wired]
  rfl

/-! ## Transfers -/

/-- From `b` the transfers and writes `done` were made. -/
structure After (b b' : Board) (done : List Action) : Prop where
  pattern : b'.pattern = b.pattern
  log : b'.log = b.log ++ done

theorem After.refl (b : Board) : After b b [] := ⟨rfl, by simp⟩

theorem After.trans {b b' b'' : Board} {done done' : List Action} (h : After b b' done)
    (h' : After b' b'' done') : After b b'' (done ++ done') :=
  ⟨h'.pattern.trans h.pattern, by rw [h'.log, h.log, List.append_assoc]⟩

/-- The samples from `i` on acknowledge `n` bytes. -/
def acked (p : Nat → Bool) (i n : Nat) : Bool := (List.range n).all fun j => !p (i + j)

theorem acked_zero (p : Nat → Bool) (i : Nat) : acked p i 0 = true := rfl

theorem acked_succ (p : Nat → Bool) (i n : Nat) : acked p i (n + 1) = (!p i && acked p (i + 1) n) := by
  simp [acked, List.range_succ_eq_map, List.all_map, Function.comp_def, Nat.add_assoc,
    Nat.add_comm 1]

theorem transmitBytes_eq (data : List Byte) (b : Board) : ∃ w n, transmitBytes bus data b =
    (acked (b.pattern b.transfer) b.pos data.length, b.wired w n) := by
  induction data generalizing b with
  | nil => exact ⟨[], 0, by simp [transmitBytes, acked, Board.wired]⟩
  | cons byte data ih =>
    obtain ⟨w, hw⟩ := transmitByte_wired b bus byte
    simp only [transmitBytes, fw_bind, hw, List.length_cons, acked_succ]
    cases hack : b.next with
    | true => exact ⟨w, 1, by simp [hack]⟩
    | false =>
      obtain ⟨w', n, hw'⟩ := ih (b.wired w 1)
      refine ⟨w ++ w', 1 + n, ?_⟩
      simp [hw', hack]

theorem receiveBytes_eq (n : Nat) (b : Board) : ∃ w, receiveBytes bus n b =
    ((List.range n).map fun i => byteOf (b.pattern b.transfer) (b.pos + 8 * i), b.wired w (8 * n)) := by
  induction n generalizing b with
  | zero => exact ⟨[], by simp [receiveBytes, Board.wired]⟩
  | succ n ih =>
    obtain ⟨w, hw⟩ := receiveByte_eq b bus (n ≠ 0)
    obtain ⟨w', hw'⟩ := ih (b.wired w 8)
    refine ⟨w ++ w', ?_⟩
    simp only [receiveBytes, fw_bind, fw_pure, hw, hw', wired_wired]
    simp [List.range_succ_eq_map, Function.comp_def, Nat.mul_add, Nat.add_assoc, Nat.add_comm 8]

/-- From `b` the program only uses the wires, and its result is `a`. -/
def Gives {α : Type} (m : Fw α) (b : Board) (a : α) : Prop := ∃ w n, m b = (a, b.wired w n)

theorem Gives.pure {α : Type} (a : α) : Gives (pure a) b a := ⟨[], 0, by simp [Board.wired]⟩

theorem Gives.bind {α β : Type} {m : Fw α} {f : α → Fw β} {x : α} {a : β} {b : Board}
    {w : List (I2cBus × Wire)} {n : Nat} (hm : m b = (x, b.wired w n))
    (hf : Gives (f x) (b.wired w n) a) : Gives (m >>= f) b a := by
  obtain ⟨w', n', hf⟩ := hf
  exact ⟨w ++ w', n + n', by rw [fw_bind, hm, hf, wired_wired]⟩

/-- What stands after a refused byte. -/
theorem Gives.stop {α : Type} (a : α) : Gives (i2cStop bus >>= fun _ => Pure.pure a) b a := by
  obtain ⟨w, hw⟩ := i2cStop_eq b bus
  exact .bind hw (.pure _ a)

/-- A byte: if it is refused the transfer ends with `x`, else it goes on with `f`. -/
theorem Gives.byte {α : Type} {f : Fw α} {x a : α} {b : Board} (data : Byte)
    (hx : b.next = true → x = a) (hf : b.next = false → ∀ w, Gives f (b.wired w 1) a) :
    Gives (transmitByte bus data >>= fun r =>
      if (!r) = true then i2cStop bus >>= fun _ => Pure.pure x else f) b a := by
  obtain ⟨w, hw⟩ := transmitByte_wired b bus data
  refine .bind hw ?_
  cases hack : b.next with
  | true => simpa [hx hack] using Gives.stop _ bus a
  | false => simpa using hf hack w

theorem recorded_after {α : Type} {action : α → Action} {m : Fw α} {a : α}
    (h : Gives m { b with pos := 0 } a) :
    (recorded action m b).1 = a ∧ After b (recorded action m b).2 [action a] ∧
      (recorded action m b).2.transfer = b.transfer + 1 := by
  obtain ⟨w, n, hm⟩ := h
  have hrec : recorded action m b =
      (a, { Board.wired w n { b with pos := 0 } with
        transfer := b.transfer + 1, log := b.log ++ [action a] }) := by
    show (fun r : α × Board => (r.1, { r.2 with
      transfer := r.2.transfer + 1, log := r.2.log ++ [action r.1] })) (m { b with pos := 0 }) = _
    rw [hm]
    rfl
  rw [hrec]
  exact ⟨rfl, ⟨rfl, rfl⟩, rfl⟩

/-- The beginning of a transfer: the addresses of the slave and of the register. Behind it two
samples are taken. -/
theorem Gives.header {α : Type} {f : Fw α} {x a : α} (slave addr : Byte)
    (hx : acked (b.pattern b.transfer) 0 2 = false → x = a)
    (hf : acked (b.pattern b.transfer) 0 2 = true → ∀ c : Board, c.pattern = b.pattern →
      c.transfer = b.transfer → c.pos = 2 → Gives f c a) :
    Gives (i2cStart bus >>= fun _ => transmitByte bus slave >>= fun r =>
      if (!r) = true then i2cStop bus >>= fun _ => Pure.pure x
      else transmitByte bus addr >>= fun r =>
        if (!r) = true then i2cStop bus >>= fun _ => Pure.pure x else f) { b with pos := 0 } a := by
  obtain ⟨w, hw⟩ := i2cStart_eq { b with pos := 0 } bus
  refine .bind hw ?_
  refine .byte bus _ (fun (h₀ : b.pattern b.transfer 0 = true) => ?_)
    fun (h₀ : b.pattern b.transfer 0 = false) w₀ => ?_
  · exact hx (by simp [acked_succ, h₀])
  refine .byte bus _ (fun (h₁ : b.pattern b.transfer 1 = true) => ?_)
    fun (h₁ : b.pattern b.transfer 1 = false) w₁ => ?_
  · exact hx (by simp [acked_succ, h₁])
  exact hf (by simp [acked_succ, acked_zero, h₀, h₁]) _ rfl rfl rfl

theorem acked_add (p : Nat → Bool) (i m n : Nat) :
    acked p i (m + n) = (acked p i m && acked p (i + m) n) := by
  simp [acked, List.range_add, List.all_map, Function.comp_def, Nat.add_assoc]

/-- A write: it is acknowledged if all bytes are. -/
theorem i2cWrite_after (slaveAddr addr : Byte) (data : List Byte) {ack : Bool}
    (hack : ack = acked (b.pattern b.transfer) 0 (2 + data.length)) :
    (i2cWrite bus slaveAddr addr data b).1 = ack ∧
      After b (i2cWrite bus slaveAddr addr data b).2 [.write bus slaveAddr addr data ack] ∧
      (i2cWrite bus slaveAddr addr data b).2.transfer = b.transfer + 1 := by
  rw [acked_add] at hack
  refine recorded_after b (.header b bus _ _ (fun h => by simp [hack, h]) fun h c hp ht hpos => ?_)
  obtain ⟨w, n, hw⟩ := transmitBytes_eq bus data c
  refine .bind hw ?_
  rw [hp, ht, hpos, show acked (b.pattern b.transfer) 2 data.length = ack by simp [hack, h]]
  cases ack with
  | true => exact .stop _ bus true
  | false => exact .stop _ bus false

/-- A read: the data is that of the samples behind the three acknowledgements. -/
theorem i2cRead_after (slaveAddr addr : Byte) (data : List Byte) (sendStop : Bool)
    {ack : Bool} {res : List Byte} (hack : ack = acked (b.pattern b.transfer) 0 3)
    (hres : res = if ack then
      (List.range data.length).map fun i => byteOf (b.pattern b.transfer) (3 + 8 * i) else data) :
    (i2cRead bus slaveAddr addr data sendStop b).1 = (ack, res) ∧
      After b (i2cRead bus slaveAddr addr data sendStop b).2 [.read bus slaveAddr addr res ack] ∧
      (i2cRead bus slaveAddr addr data sendStop b).2.transfer = b.transfer + 1 := by
  rw [acked_add _ 0 2 1] at hack
  refine recorded_after (a := (ack, res)) b
    (.header b bus _ _ (fun h => by simp [hres, hack, h]) fun h c hp ht hpos => ?_)
  -- the second half begins with or without a stop
  have hread : ∀ c : Board, c.pattern = b.pattern → c.transfer = b.transfer → c.pos = 2 →
      Gives (i2cStart bus >>= fun _ => transmitByte bus (addrRd slaveAddr) >>= fun r =>
        if (!r) = true then i2cStop bus >>= fun _ => Pure.pure (false, data)
        else receiveBytes bus data.length >>= fun data => i2cStop bus >>= fun _ =>
          Pure.pure (true, data)) c (ack, res) := by
    intro c hp ht hpos
    obtain ⟨w, hw⟩ := i2cStart_eq c bus
    refine .bind hw ?_
    have hnext : (c.wired w 0).next = b.pattern b.transfer 2 := by simp [Board.next, hp, ht, hpos]
    refine .byte bus _ (fun h₂ => ?_) fun h₂ w₃ => ?_
    · simp [hres, hack, acked, hnext.symm.trans h₂]
    · obtain ⟨w₄, hw₄⟩ := receiveBytes_eq bus data.length ((c.wired w 0).wired w₃ 1)
      refine .bind hw₄ ?_
      have hall : ack = true := by
        rw [hack, h]
        simp [acked, hnext.symm.trans h₂]
      have hpos' : c.pos + 0 + 1 = 3 := by omega
      simp only [wired_pattern, wired_transfer, wired_pos, hp, ht, hpos', hall, hres, if_true]
      exact .stop _ bus _
  cases sendStop with
  | true =>
    obtain ⟨w, hw⟩ := i2cStop_eq c bus
    exact .bind hw (hread _ hp ht hpos)
  | false => exact hread _ hp ht hpos

/-- The program only uses the wires. -/
def Wires {α : Type} (m : Fw α) : Prop := ∀ b, ∃ a, Gives m b a

theorem Wires.bind {α β : Type} {m : Fw α} {f : α → Fw β} (hm : Wires m) (hf : ∀ a, Wires (f a)) :
    Wires (m >>= f) := fun b => by
  obtain ⟨a, w, n, hm⟩ := hm b
  obtain ⟨a', hf⟩ := hf a (b.wired w n)
  exact ⟨a', .bind hm hf⟩

theorem wires_i2cStart (bus : I2cBus) : Wires (i2cStart bus) := fun b =>
  ⟨(), (i2cStart_eq b bus).imp fun _ h => ⟨0, h⟩⟩

theorem wires_transmitByte (bus : I2cBus) (data : Byte) : Wires (transmitByte bus data) := fun b =>
  ⟨_, (transmitByte_wired b bus data).imp fun _ h => ⟨1, h⟩⟩

theorem Wires.recorded {α : Type} {m : Fw α} (h : Wires m) (action : α → Action) (b : Board) :
    ∃ a, After b (recorded action m b).2 [action a] := by
  obtain ⟨a, ha⟩ := h { b with pos := 0 }
  exact ⟨a, (recorded_after b ha).2.1⟩

theorem i2cPoll_after (bus : I2cBus) (slaveAddr : Byte) (b : Board) :
    ∃ ack, After b (i2cPoll bus slaveAddr b).2 [.poll bus slaveAddr ack] :=
  ((wires_i2cStart bus).bind fun _ => (wires_transmitByte bus _).bind fun _ =>
    (wires_transmitByte bus _).bind fun _ b => ⟨_, .stop b bus _⟩).recorded _ b

end

end Firmware
end Xtrx
