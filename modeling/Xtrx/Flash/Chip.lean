import Xtrx.Lib.Nor

/-!
# The flash chip and its SPI core

What the board does with the SPI words of `litepcie_flash.c`.

* **Chip** (`Chip`): a serial NOR flash behind its chip-select. It exchanges bytes while it is
  selected (`Chip.exchange`) and carries a command out when it is deselected (`Chip.execute`). While
  an operation is in progress (`wip`) it answers status reads only. How long each operation takes,
  which bits it leaves unprogrammed and if it leaves the write enable latch set, is open
  (`Outcome`).
* **Core** (`Board`): the SPI master sends the upper bits of its 40-bit word, most significant bit
  first, and shifts what it receives into `miso`. The chip-select is driven by the register
  `CSR_FLASH_CS_N_OUT`, which then reads back as written, or by the core around each transfer
  (`ChipSelect`).
* `Chip.transaction` is what a sequence of bytes between two edges of the chip-select does; the
  `transaction_…` lemmas say it for each command.
-/

namespace Xtrx
namespace Flash

open Nor

abbrev Byte := BitVec 8

def flashRead : Byte := 0x03
def flashWren : Byte := 0x06
def flashWrdi : Byte := 0x04
def flashPp : Byte := 0x02
def flashSe : Byte := 0xD8
def flashRdsr : Byte := 0x05

/-- `FLASH_WIP`. -/
def flashWip : Byte := 0x01

/-! ## The chip -/

/-- What an erase or a program leaves open: the number of status reads that see it in progress, the
write enable latch after it, the bits that a program leaves as they are. -/
structure Outcome where
  wip : Nat
  wel : Bool
  unprogrammed : Mem

/-- The chip: its contents, the write enable latch, the status reads that still see an operation in
progress, the number of operations so far, and the outcomes of all of them. -/
structure Chip where
  mem : Mem
  wel : Bool
  wip : Nat
  ops : Nat
  outcome : Nat → Outcome

/-- The 24-bit address after an opcode. -/
def addrOf (args : List Byte) : Nat :=
  (args.getD 0 0).toNat * 65536 + (args.getD 1 0).toNat * 256 + (args.getD 2 0).toNat

namespace Chip

def status (c : Chip) : Byte := (if c.wip = 0 then 0 else flashWip) ||| (if c.wel then 0x02 else 0)

/-- The byte that the chip sends after it received `bs`. -/
def output (c : Chip) : List Byte → Byte
  | [] => 0xff
  | op :: args =>
    if op = flashRdsr then c.status
    else if op = flashRead ∧ c.wip = 0 ∧ 3 ≤ args.length then
      c.mem ((addrOf args + (args.length - 3)) % 2 ^ 24)
    else 0xff

/-- A status byte that was sent: the operation comes closer to its end. -/
def sent (c : Chip) (bs : List Byte) : Chip :=
  if bs.head? = some flashRdsr then { c with wip := c.wip - 1 } else c

/-- An operation starts; it turns the contents into `mem`. -/
def start (c : Chip) (mem : Mem) : Chip :=
  { c with mem := mem, wip := (c.outcome c.ops).wip, wel := (c.outcome c.ops).wel, ops := c.ops + 1 }

/-- The command of the bytes received; a page program has at most 256 data bytes. -/
def execute (c : Chip) : List Byte → Chip
  | [] => c
  | op :: args =>
    if c.wip ≠ 0 then c
    else if op = flashWren ∧ args = [] then { c with wel := true }
    else if op = flashWrdi ∧ args = [] then { c with wel := false }
    else if op = flashSe ∧ args.length = 3 ∧ c.wel then c.start (erase (addrOf args) c.mem)
    else if op = flashPp ∧ 3 < args.length ∧ c.wel then
      c.start (program (addrOf args) (args.length - 3) (fun k => args.getD (k + 3) 0)
        (c.outcome c.ops).unprogrammed c.mem)
    else c

end Chip

/-- The chip behind its chip-select, with the bytes received since it was selected. -/
structure Port where
  chip : Chip
  rx : Option (List Byte)

namespace Port

/-- The falling edge of the chip-select. -/
def select (p : Port) : Port := if p.rx.isNone then { p with rx := some [] } else p

/-- The rising edge: the command is carried out. -/
def deselect (p : Port) : Port :=
  match p.rx with
  | none => p
  | some bs => { chip := p.chip.execute bs, rx := none }

/-- The chip receives the byte `b` and sends one. -/
def exchange (p : Port) (b : Byte) : Byte × Port :=
  match p.rx with
  | none => (0xff, p)
  | some bs => (p.chip.output bs, { chip := p.chip.sent bs, rx := some (bs ++ [b]) })

/-- The bytes `bs` one after the other: what the chip sends. -/
def exchanges : List Byte → Port → List Byte × Port
  | [], p => ([], p)
  | b :: bs, p =>
    let (out, p) := p.exchange b
    let (outs, p) := exchanges bs p
    (out :: outs, p)

theorem exchanges_append (bs bs' : List Byte) (p : Port) :
    exchanges (bs ++ bs') p =
      ((exchanges bs p).1 ++ (exchanges bs' (exchanges bs p).2).1,
        (exchanges bs' (exchanges bs p).2).2) := by
  induction bs generalizing p with
  | nil => rfl
  | cons b bs ih =>
    simp only [List.cons_append, exchanges]
    rw [ih]

@[simp] theorem length_exchanges (bs : List Byte) (p : Port) : (exchanges bs p).1.length = bs.length := by
  induction bs generalizing p with
  | nil => rfl
  | cons b bs ih => simp [exchanges, ih]

/-- Bytes that are no status read: the chip collects them. -/
theorem exchanges_rx {c : Chip} {op : Byte} (hop : op ≠ flashRdsr) (as bs : List Byte) :
    (exchanges bs ⟨c, some (op :: as)⟩).2 = ⟨c, some (op :: (as ++ bs))⟩ := by
  induction bs generalizing as with
  | nil => simp [exchanges]
  | cons b bs ih =>
    have hx : exchange ⟨c, some (op :: as)⟩ b = (c.output (op :: as), ⟨c, some (op :: (as ++ [b]))⟩) := by
      simp [exchange, Chip.sent, hop]
    simp only [exchanges, hx]
    rw [ih]
    simp

/-- The first bytes of a command. -/
theorem exchanges_command {c : Chip} {op : Byte} (hop : op ≠ flashRdsr) (args : List Byte) :
    (exchanges (op :: args) ⟨c, some []⟩).2 = ⟨c, some (op :: args)⟩ := by
  have hx : exchange ⟨c, some []⟩ op = (0xff, ⟨c, some [op]⟩) := by
    simp [exchange, Chip.output, Chip.sent]
  simp only [exchanges, hx]
  exact exchanges_rx hop [] args

end Port

/-! ## Transactions -/

namespace Chip

/-- The bytes `bs` between two edges of the chip-select. -/
def transaction (c : Chip) (bs : List Byte) : List Byte × Chip :=
  let (outs, p) := Port.exchanges bs ⟨c, some []⟩
  (outs, p.deselect.chip)

/-- The chip executes a command other than a status read when it has all of its bytes. -/
theorem transaction_snd (c : Chip) {op : Byte} (hop : op ≠ flashRdsr) (args : List Byte) :
    (c.transaction (op :: args)).2 = c.execute (op :: args) := by
  simp only [transaction, Port.exchanges_command hop, Port.deselect]

/-- `flash_read_id` of register 0. -/
theorem transaction_readId (c : Chip) (args : List Byte) : (c.transaction (0 :: args)).2 = c := by
  rw [transaction_snd c (by decide), execute]
  simp [flashWren, flashWrdi, flashSe, flashPp]

theorem transaction_writeEnable {c : Chip} (hw : c.wip = 0) :
    (c.transaction [flashWren]).2 = { c with wel := true } := by
  rw [transaction_snd c (by decide), execute]
  simp [hw]

theorem transaction_writeDisable (c : Chip) :
    (c.transaction [flashWrdi]).2 = { c with wel := if c.wip = 0 then false else c.wel } := by
  rw [transaction_snd c (by decide), execute]
  by_cases hw : c.wip = 0 <;> simp [hw, flashWren, flashWrdi]

theorem transaction_erase {c : Chip} (hw : c.wip = 0) (hl : c.wel = true) {args : List Byte}
    (ha : args.length = 3) :
    (c.transaction (flashSe :: args)).2 = c.start (erase (addrOf args) c.mem) := by
  rw [transaction_snd c (by decide), execute]
  simp [hw, hl, ha, flashWren, flashWrdi, flashSe]

theorem transaction_program {c : Chip} (hw : c.wip = 0) (hl : c.wel = true) {args : List Byte}
    (ha : 3 < args.length) :
    (c.transaction (flashPp :: args)).2 =
      c.start (program (addrOf args) (args.length - 3) (fun k => args.getD (k + 3) 0)
        (c.outcome c.ops).unprogrammed c.mem) := by
  rw [transaction_snd c (by decide), execute]
  simp [hw, hl, ha, flashWren, flashWrdi, flashSe, flashPp]

/-- A status read, which sees the operation in progress once less. -/
theorem transaction_status (c : Chip) (b : Byte) :
    c.transaction [flashRdsr, b] = ([0xff, c.status], { c with wip := c.wip - 1 }) := by
  simp [transaction, Port.exchanges, Port.exchange, Port.deselect, output, sent, execute, status,
    flashWren, flashWrdi, flashSe, flashPp, flashRdsr]

/-- The data bytes of a read, after the chip received the opcode, the address and more. -/
theorem exchanges_read {c : Chip} (hw : c.wip = 0) {args : List Byte} (ha : 3 ≤ args.length)
    (bs : List Byte) :
    (Port.exchanges bs ⟨c, some (flashRead :: args)⟩).1 =
      (List.range bs.length).map fun j => c.mem ((addrOf args + (args.length - 3 + j)) % 2 ^ 24) := by
  induction bs generalizing args with
  | nil => rfl
  | cons b bs ih =>
    have hx : Port.exchange ⟨c, some (flashRead :: args)⟩ b =
        (c.mem ((addrOf args + (args.length - 3)) % 2 ^ 24), ⟨c, some (flashRead :: (args ++ [b]))⟩) := by
      simp [Port.exchange, output, sent, hw, ha, flashRead, flashRdsr]
    have haddr : addrOf (args ++ [b]) = addrOf args := by
      unfold addrOf
      simp only [List.getD_eq_getElem?_getD, List.getElem?_append_left (show 0 < args.length by omega),
        List.getElem?_append_left (show 1 < args.length by omega),
        List.getElem?_append_left (show 2 < args.length by omega)]
    simp only [Port.exchanges, hx]
    rw [ih (by simp; omega), haddr]
    simp only [List.length_cons, List.range_succ_eq_map, List.map_cons, List.map_map, Nat.add_zero]
    refine List.cons_eq_cons.mpr ⟨rfl, List.map_congr_left fun j _ => ?_⟩
    have hj : (args ++ [b]).length - 3 + j = args.length - 3 + j.succ := by
      rw [List.length_append, List.length_singleton]
      omega
    rw [Function.comp_apply, hj]

theorem transaction_read {c : Chip} (hw : c.wip = 0) (args : List Byte) (ha : args.length = 3)
    (bs : List Byte) :
    (c.transaction (flashRead :: (args ++ bs))).1.drop 4 =
        ((List.range bs.length).map fun j => c.mem ((addrOf args + j) % 2 ^ 24)) ∧
      (c.transaction (flashRead :: (args ++ bs))).2 = c := by
  constructor
  · have hlen : (Port.exchanges (flashRead :: args) ⟨c, some []⟩).1.length = 4 := by simp [ha]
    simp only [transaction]
    rw [← List.cons_append, Port.exchanges_append]
    dsimp only
    rw [List.drop_append_of_le_length (by omega), List.drop_of_length_le (by omega), List.nil_append,
      Port.exchanges_command (by decide), exchanges_read hw (by omega), ha]
    simp
  · rw [transaction_snd c (by decide), execute]
    simp [hw, flashWren, flashWrdi, flashSe, flashPp, flashRead]

end Chip
end Flash
end Xtrx
