import Xtrx.Flash.Chip
import Xtrx.Lib.Fuel

/-!
# Access to the flash (`litepcie_flash.c`, `litepcie_flash_spi` of the driver)

- **Board** (`Board`): the chip behind its chip-select, the register `CSR_FLASH_CS_N_OUT`, the SPI
  core. The core sends the upper bits of its 40-bit word, most significant bit first, and shifts
  what it receives into `miso`; all transfers are of whole bytes. It is done before the driver's
  loop on its status register gives up.
- **Functions**: those of `litepcie_flash.c`, as programs on the board. A failed ioctl ends the
  process (`Fueled.abort`). Progress messages and waiting times are left out.
- **`Does`**: from a board whose chip is deselected, a function is a transaction of the chip,
  whoever drives the chip-select. One lemma for each function says which (`does_…`).
-/

namespace Xtrx
namespace Flash

open Nor Conc

/-- `FLASH_RETRIES`. -/
def flashRetries : Nat := 16

/-- Who drives the chip-select: the register `CSR_FLASH_CS_N_OUT`, which reads back as written, or
the SPI core around each transfer. Then the register has no effect, and after a write of `v` it
reads as `read v`, not as written. -/
inductive ChipSelect where
  | software
  | hardware (read : BitVec 32 → BitVec 32)
      (notAsWritten : ¬ (read 0 &&& 1 = 0 ∧ read 1 &&& 1 = 1))

structure Board where
  port : Port
  csN : BitVec 32
  miso : BitVec 40
  select : ChipSelect

/-! ## The SPI core and the driver -/

/-- One transfer of the SPI core. -/
def Board.transfer (bs : List Byte) (b : Board) : List Byte × Board :=
  match b.select with
  | .software =>
    let (outs, p) := Port.exchanges bs b.port
    (outs, { b with port := p })
  | .hardware .. =>
    let (outs, p) := Port.exchanges bs b.port.select
    (outs, { b with port := p.deselect })

/-- The first `k` bytes that the core sends of the 40-bit word in `txData`. -/
def mosiBytes (txData : BitVec 64) (k : Nat) : List Byte :=
  (List.range k).map fun j => txData.extractLsb' (32 - 8 * j) 8

/-- `miso` after the core received `outs`. -/
def misoAfter (miso : BitVec 40) (outs : List Byte) : BitVec 40 :=
  outs.foldl (fun m o => (m <<< 8) ||| o.setWidth 40) miso

def eInval : Int := 22

/-- `litepcie_flash_spi`: the return value and `rx_data`. -/
def litepcieFlashSpi (txLen : Nat) (txData : BitVec 64) (b : Board) : (Int × BitVec 64) × Board :=
  if txLen < 8 ∨ 40 < txLen then
    ((-eInval, 0), b)
  else
    let (outs, b) := b.transfer (mosiBytes txData (txLen / 8))
    let miso := misoAfter b.miso outs
    ((0, miso.setWidth 64), { b with miso := miso })

/-! ## The library -/

/-- `litepcie_writel(fd, CSR_FLASH_CS_N_OUT_ADDR, val)`. -/
def writelCsN (val : BitVec 32) : Fueled Board Unit := Fueled.act fun b =>
  ((), { b with
    csN := val
    port := match b.select with
      | .software => if val &&& 1 = 0 then b.port.select else b.port.deselect
      | .hardware .. => b.port })

/-- `litepcie_readl(fd, CSR_FLASH_CS_N_OUT_ADDR)`. -/
def readlCsN : Fueled Board (BitVec 32) := Fueled.act fun b =>
  (match b.select with
    | .software => b.csN &&& 1
    | .hardware read _ => read b.csN, b)

/-- `checked_ioctl(fd, LITEPCIE_IOCTL_FLASH, &m)`. -/
def flashIoctl (txLen : Nat) (txData : BitVec 64) : Fueled Board (BitVec 64) := do
  let (ret, rxData) ← Fueled.act (litepcieFlashSpi txLen txData)
  if ret ≠ 0 then
    Fueled.abort
  else
    return rxData

/-- `flash_spi_cs`. -/
def flashSpiCs (csN : Byte) : Fueled Board Unit := writelCsN (csN.setWidth 32)

/-- `flash_spi`. -/
def flashSpi (txLen : Nat) (cmd : Byte) (txData : BitVec 32) : Fueled Board (BitVec 64) := do
  flashSpiCs 0
  let rxData ← flashIoctl txLen (txData.setWidth 64 ||| (cmd.setWidth 64 <<< 32))
  flashSpiCs 1
  return rxData

/-- `flash_read_id`. -/
def flashReadId (reg : Byte) : Fueled Board (BitVec 32) := do
  return ((← flashSpi 32 reg 0) &&& 0xffffff).setWidth 32

/-- `flash_write_enable`. -/
def flashWriteEnable : Fueled Board Unit := do
  let _ ← flashSpi 8 flashWren 0

/-- `flash_write_disable`. -/
def flashWriteDisable : Fueled Board Unit := do
  let _ ← flashSpi 8 flashWrdi 0

/-- `flash_read_status`. -/
def flashReadStatus : Fueled Board Byte := do
  return ((← flashSpi 16 flashRdsr 0) &&& 0xff).setWidth 8

/-- `flash_erase_sector`. -/
def flashEraseSector (addr : BitVec 32) : Fueled Board Unit := do
  let _ ← flashSpi 32 flashSe (addr <<< 8)

/-- `flash_write`. -/
def flashWrite (addr : BitVec 32) (byte : Byte) : Fueled Board Unit := do
  let _ ← flashSpi 40 flashPp ((addr <<< 8) ||| byte.setWidth 32)

/-- `flash_write_buffer`. -/
def flashWriteBuffer (addr : BitVec 32) (buf : Nat → Byte) (size : Nat) : Fueled Board Unit := do
  if size = 1 then
    flashWrite addr (buf 0)
  else
    -- set cs_n
    flashSpiCs 0
    -- send cmd
    let _ ← flashIoctl 32 ((flashPp.setWidth 64 <<< 32) ||| (addr.setWidth 64 <<< 8))
    -- send bytes
    (List.range size).forM fun i => do
      let _ ← flashIoctl 8 ((buf i).setWidth 64 <<< 32)
    -- release cs_n
    flashSpiCs 1

/-- `litepcie_flash_read`. -/
def litepcieFlashRead (addr : BitVec 32) : Fueled Board Byte := do
  return ((← flashSpi 40 flashRead (addr <<< 8)) &&& 0xff).setWidth 8

/-- `litepcie_flash_read_buffer`: the bytes of `buf`. -/
def litepcieFlashReadBuffer (addr : BitVec 32) (size : Nat) : Fueled Board (List Byte) := do
  if size = 1 then
    return [← litepcieFlashRead addr]
  else
    -- set cs_n
    flashSpiCs 0
    -- send cmd
    let txData := (flashRead.setWidth 64 <<< 32) ||| (addr.setWidth 64 <<< 8)
    let _ ← flashIoctl 32 txData
    -- read bytes
    let buf ← (List.range size).mapM fun _ => do
      return (← flashIoctl 8 txData).setWidth 8
    -- release cs_n
    flashSpiCs 1
    return buf

/-- `litepcie_flash_get_erase_block_size`. -/
def litepcieFlashGetEraseBlockSize : Nat := sectorSize

/-- `litepcie_flash_get_flash_program_size`. -/
def litepcieFlashGetFlashProgramSize : Fueled Board Nat := do
  -- if software cs control, program in blocks to speed up update
  writelCsN 0
  let zero ← readlCsN
  writelCsN 1
  let one ← readlCsN
  if zero &&& 1 = 0 ∧ one &&& 1 = 1 then
    return 256
  else
    return 1

/-- `while (flash_read_status(fd) & FLASH_WIP) usleep(…)`. -/
def waitReady : Fueled Board Unit := Fueled.loop (fun _ => do
  let status ← flashReadStatus
  if status &&& flashWip ≠ 0 then
    return .inl ()
  else
    return .inr ()) ()

/-- The turns of the erase loop of `litepcie_flash_write`. -/
def eraseTurn (base size : Nat) (i : Nat) : Fueled Board (Nat ⊕ Unit) := do
  if i < size then
    flashWriteEnable
    flashEraseSector (BitVec.ofNat 32 (base + i))
    waitReady
    return .inl (i + sectorSize)
  else
    return .inr ()

/-- The turns of the write loop of `litepcie_flash_write`: `i` and `retries`. -/
def writeTurn (flashProgramSize : Nat) (buf : Nat → Byte) (base size : Nat) :
    Nat × Nat → Fueled Board ((Nat × Nat) ⊕ Int)
  | (i, retries) => do
    if i < size then
      -- wait flash to be ready
      waitReady
      -- write flash page
      flashWriteEnable
      flashWriteBuffer (BitVec.ofNat 32 (base + i)) (fun j => buf (i + j)) flashProgramSize
      flashWriteDisable
      -- wait flash to be ready
      waitReady
      -- verify flash page
      let cmpBuf ← litepcieFlashReadBuffer (BitVec.ofNat 32 (base + i)) flashProgramSize
      let (i, retries) :=
        if (List.range flashProgramSize).map (fun j => buf (i + j)) ≠ cmpBuf then (i, retries + 1)
        else (i + flashProgramSize, 0)
      if retries > flashRetries then
        return .inr 1
      else
        return .inl (i, retries)
    else
      return .inr 0

/-- `litepcie_flash_write`. -/
def litepcieFlashWrite (buf : Nat → Byte) (base size : Nat) : Fueled Board Int := do
  let flashProgramSize ← litepcieFlashGetFlashProgramSize
  -- dummy command because in some case the first erase does not work
  let _ ← flashReadId 0
  -- disable write protection
  flashWriteEnable
  -- erase
  Fueled.loop (eraseTurn base size) 0
  flashWriteDisable
  Fueled.loop (writeTurn flashProgramSize buf base size) (0, 0)

/-! ## What the functions do to the chip -/

/-- From a board whose chip `c` is deselected, `m` ends with the result `a` and leaves the chip `c'`
deselected. -/
def Does {α : Type} (cs : ChipSelect) (m : Fueled Board α) (c : Chip) (a : α) (c' : Chip) : Prop :=
  ∀ b, b.select = cs → b.port = ⟨c, none⟩ →
    ∃ b', Fueled.Yields m b a b' ∧ b'.select = cs ∧ b'.port = ⟨c', none⟩

section

variable {α β : Type} {cs : ChipSelect} {c c' c'' : Chip} {a : α} {x : β}

theorem Does.pure (a : α) (c : Chip) : Does cs (pure a) c a c := fun b hs hp =>
  ⟨b, Fueled.Yields.pure a b, hs, hp⟩

theorem Does.bind {m : Fueled Board α} {f : α → Fueled Board β} (h : Does cs m c a c')
    (hf : Does cs (f a) c' x c'') : Does cs (m >>= f) c x c'' := by
  intro b hs hp
  obtain ⟨b₁, h₁, hs₁, hp₁⟩ := h b hs hp
  obtain ⟨b₂, h₂, hs₂, hp₂⟩ := hf b₁ hs₁ hp₁
  exact ⟨b₂, h₁.bind h₂, hs₂, hp₂⟩

/-- The same for a loop. -/
def DoesLoop {γ : Type} (cs : ChipSelect) (body : β → Fueled Board (β ⊕ γ)) (x : β) (c : Chip) (y : γ)
    (c' : Chip) : Prop :=
  ∀ b, b.select = cs → b.port = ⟨c, none⟩ →
    ∃ b', Fueled.LoopYields body x b y b' ∧ b'.select = cs ∧ b'.port = ⟨c', none⟩

section

variable {γ : Type} {body : β → Fueled Board (β ⊕ γ)} {x' : β} {y : γ}

theorem DoesLoop.stop (h : Does cs (body x) c (.inr y) c') : DoesLoop cs body x c y c' := by
  intro b hs hp
  obtain ⟨b', hy, hs', hp'⟩ := h b hs hp
  exact ⟨b', .stop hy, hs', hp'⟩

theorem DoesLoop.again (h : Does cs (body x) c (.inl x') c') (h' : DoesLoop cs body x' c' y c'') :
    DoesLoop cs body x c y c'' := by
  intro b hs hp
  obtain ⟨b₁, hy, hs₁, hp₁⟩ := h b hs hp
  obtain ⟨b₂, hy', hs₂, hp₂⟩ := h' b₁ hs₁ hp₁
  exact ⟨b₂, .again hy hy', hs₂, hp₂⟩

theorem DoesLoop.does (h : DoesLoop cs body x c y c') : Does cs (Fueled.loop body x) c y c' := by
  intro b hs hp
  obtain ⟨b', hy, hs', hp'⟩ := h b hs hp
  exact ⟨b', hy.yields, hs', hp'⟩

end

/-! ### Words and bytes -/

/-- The bytes of a word that `flash_spi` sends. -/
def spiBytes (cmd : Byte) (d : BitVec 32) (k : Nat) : List Byte :=
  mosiBytes (d.setWidth 64 ||| (cmd.setWidth 64 <<< 32)) k

theorem extract_cmd (d : BitVec 32) (cmd : Byte) :
    (d.setWidth 64 ||| (cmd.setWidth 64 <<< 32)).extractLsb' 32 8 = cmd := by
  grind

theorem extract_data (d : BitVec 32) (cmd : Byte) {s : Nat} (hs : s + 8 ≤ 32) :
    (d.setWidth 64 ||| (cmd.setWidth 64 <<< 32)).extractLsb' s 8 = d.extractLsb' s 8 := by
  grind

theorem spiBytes_one (cmd : Byte) (d : BitVec 32) : spiBytes cmd d 1 = [cmd] := by
  simp [spiBytes, mosiBytes, List.range_succ, extract_cmd]

theorem spiBytes_two (cmd : Byte) (d : BitVec 32) :
    spiBytes cmd d 2 = [cmd, d.extractLsb' 24 8] := by
  simp [spiBytes, mosiBytes, List.range_succ, extract_cmd, extract_data]

theorem spiBytes_four (cmd : Byte) (d : BitVec 32) :
    spiBytes cmd d 4 = cmd :: [d.extractLsb' 24 8, d.extractLsb' 16 8, d.extractLsb' 8 8] := by
  simp [spiBytes, mosiBytes, List.range_succ, extract_cmd, extract_data]

theorem spiBytes_five (cmd : Byte) (d : BitVec 32) :
    spiBytes cmd d 5 =
      cmd :: ([d.extractLsb' 24 8, d.extractLsb' 16 8, d.extractLsb' 8 8] ++ [d.extractLsb' 0 8]) := by
  simp [spiBytes, mosiBytes, List.range_succ, extract_cmd, extract_data]

/-- The address bytes of a word. -/
def addrBytes (addr : BitVec 32) : List Byte :=
  [addr.extractLsb' 16 8, addr.extractLsb' 8 8, addr.extractLsb' 0 8]

theorem addrBytes_shift (addr : BitVec 32) (byte : Byte) :
    [((addr <<< 8) ||| byte.setWidth 32).extractLsb' 24 8,
      ((addr <<< 8) ||| byte.setWidth 32).extractLsb' 16 8,
      ((addr <<< 8) ||| byte.setWidth 32).extractLsb' 8 8] = addrBytes addr := by
  unfold addrBytes
  congr 1
  · grind
  · congr 1
    · grind
    · congr 1
      grind

theorem extract_byte (addr : BitVec 32) (byte : Byte) :
    ((addr <<< 8) ||| byte.setWidth 32).extractLsb' 0 8 = byte := by
  grind

theorem addrOf_addrBytes (addr : BitVec 32) : addrOf (addrBytes addr) = addr.toNat % 2 ^ 24 := by
  simp only [addrOf, addrBytes, List.getD_cons_zero, List.getD_cons_succ, BitVec.extractLsb'_toNat,
    Nat.shiftRight_eq_div_pow]
  omega

/-- The lower byte of `rx_data` is the last one received. -/
theorem misoAfter_low (miso : BitVec 40) (outs : List Byte) (o : Byte) :
    (misoAfter miso (outs ++ [o])).setWidth 8 = o := by
  simp only [misoAfter, List.foldl_append, List.foldl_cons, List.foldl_nil]
  generalize outs.foldl _ miso = m
  grind

/-! ### One transaction -/

theorem Port.deselect_eq (p : Port) : p.deselect = ⟨p.deselect.chip, none⟩ := by
  rcases p with ⟨c, _ | bs⟩ <;> rfl

/-- A transfer of a length that the driver accepts. -/
theorem flashIoctl_yields (txLen : Nat) (h8 : 8 ≤ txLen) (h40 : txLen ≤ 40) (d : BitVec 64)
    (b : Board) {outs : List Byte} {b' : Board}
    (ht : b.transfer (mosiBytes d (txLen / 8)) = (outs, b')) :
    Fueled.Yields (flashIoctl txLen d) b ((misoAfter b'.miso outs).setWidth 64)
      { b' with miso := misoAfter b'.miso outs } := by
  have hspi : litepcieFlashSpi txLen d b =
      ((0, (misoAfter b'.miso outs).setWidth 64), { b' with miso := misoAfter b'.miso outs }) := by
    unfold litepcieFlashSpi
    rw [if_neg (by omega), ht]
  have hact := Fueled.Yields.act (litepcieFlashSpi txLen d) b
  rw [hspi] at hact
  exact hact.bind (Fueled.Yields.pure _ _)

/-- `flash_spi` is one transaction, and the lower byte that it returns is the last one received. -/
theorem flashSpi_spec {k : Nat} (hk : 1 ≤ k) (hk' : k ≤ 5) (cmd : Byte) (d : BitVec 32) {b : Board}
    (hs : b.select = cs) (hp : b.port = ⟨c, none⟩) :
    ∃ rx b', Fueled.Yields (flashSpi (8 * k) cmd d) b rx b' ∧ b'.select = cs ∧
      b'.port = ⟨(c.transaction (spiBytes cmd d k)).2, none⟩ ∧
      ∀ outs o, (c.transaction (spiBytes cmd d k)).1 = outs ++ [o] → rx.setWidth 8 = o := by
  obtain ⟨port, csN, miso, select⟩ := b
  obtain rfl : select = cs := hs
  obtain rfl : port = ⟨c, none⟩ := hp
  have hlow : ∀ miso' outs o, (c.transaction (spiBytes cmd d k)).1 = outs ++ [o] →
      ((misoAfter miso' (c.transaction (spiBytes cmd d k)).1).setWidth 64).setWidth 8 = o := by
    intro miso' outs o ho
    rw [ho, BitVec.setWidth_setWidth_of_le _ (by omega)]
    exact misoAfter_low miso' outs o
  have hbytes : mosiBytes (d.setWidth 64 ||| (cmd.setWidth 64 <<< 32)) (8 * k / 8) =
      spiBytes cmd d k := by
    rw [Nat.mul_div_cancel_left k (by omega)]
    rfl
  -- the chip-select goes low at the register's write or at the start of the transfer
  cases select with
  | software =>
    have hio := flashIoctl_yields (8 * k) (by omega) (by omega)
      (d.setWidth 64 ||| (cmd.setWidth 64 <<< 32)) ⟨⟨c, some []⟩, 0, miso, .software⟩ rfl
    refine ⟨_, _, (Fueled.Yields.act _ _).bind (hio.bind ((Fueled.Yields.act _ _).bind
      (Fueled.Yields.pure _ _))), rfl, ?_, ?_⟩
    · rw [hbytes]
      exact Port.deselect_eq _
    · rw [hbytes]
      exact hlow _
  | hardware read h =>
    have hio := flashIoctl_yields (8 * k) (by omega) (by omega)
      (d.setWidth 64 ||| (cmd.setWidth 64 <<< 32)) ⟨⟨c, none⟩, 0, miso, .hardware read h⟩ rfl
    refine ⟨_, _, (Fueled.Yields.act _ _).bind (hio.bind ((Fueled.Yields.act _ _).bind
      (Fueled.Yields.pure _ _))), rfl, ?_, ?_⟩
    · rw [hbytes]
      exact Port.deselect_eq _
    · rw [hbytes]
      exact hlow _

/-- A command without an answer. -/
theorem does_command {k : Nat} (hk : 1 ≤ k) (hk' : k ≤ 5) (cmd : Byte) (d : BitVec 32) :
    Does cs (do let _ ← flashSpi (8 * k) cmd d) c () (c.transaction (spiBytes cmd d k)).2 := by
  intro b hs hp
  obtain ⟨rx, b', hy, hs', hp', -⟩ := flashSpi_spec hk hk' cmd d hs hp
  exact ⟨b', hy.bind (Fueled.Yields.pure _ _), hs', hp'⟩

/-- A command that answers with a byte. -/
theorem does_query {k : Nat} (hk : 1 ≤ k) (hk' : k ≤ 5) (cmd : Byte) (d : BitVec 32)
    (outs : List Byte) {o : Byte} (ho : (c.transaction (spiBytes cmd d k)).1 = outs ++ [o]) :
    Does cs (do return ((← flashSpi (8 * k) cmd d) &&& 0xff).setWidth 8) c o
      (c.transaction (spiBytes cmd d k)).2 := by
  intro b hs hp
  obtain ⟨rx, b', hy, hs', hp', hlow⟩ := flashSpi_spec hk hk' cmd d hs hp
  refine ⟨b', ?_, hs', hp'⟩
  have hrx : (rx &&& 0xff).setWidth 8 = o := by
    rw [← hlow outs o ho, BitVec.setWidth_and]
    exact BitVec.and_allOnes
  rw [← hrx]
  exact hy.bind (Fueled.Yields.pure _ _)

/-- The dummy command. -/
theorem does_flashReadId {f : BitVec 32 → Fueled Board β} (hf : ∀ id, Does cs (f id) c x c') :
    Does cs (flashReadId 0 >>= f) c x c' := by
  intro b hs hp
  obtain ⟨rx, b₁, hy, hs₁, hp₁, -⟩ := flashSpi_spec (k := 4) (by omega) (by omega) 0 0 hs hp
  rw [spiBytes_four, Chip.transaction_readId] at hp₁
  obtain ⟨b₂, h₂, hs₂, hp₂⟩ := hf ((rx &&& 0xffffff).setWidth 32) b₁ hs₁ hp₁
  have hid : Fueled.Yields (flashReadId 0) b ((rx &&& 0xffffff).setWidth 32) b₁ :=
    hy.bind (Fueled.Yields.pure _ _)
  exact ⟨b₂, hid.bind h₂, hs₂, hp₂⟩

theorem does_flashWriteEnable (hw : c.wip = 0) :
    Does cs flashWriteEnable c () { c with wel := true } := by
  have h : Does cs _ c _ _ := does_command (k := 1) (by omega) (by omega) flashWren 0
  rwa [spiBytes_one, Chip.transaction_writeEnable hw] at h

theorem does_flashWriteDisable :
    Does cs flashWriteDisable c () { c with wel := if c.wip = 0 then false else c.wel } := by
  have h : Does cs _ c _ _ := does_command (k := 1) (by omega) (by omega) flashWrdi 0
  rwa [spiBytes_one, Chip.transaction_writeDisable] at h

theorem does_flashReadStatus : Does cs flashReadStatus c c.status { c with wip := c.wip - 1 } := by
  have ht := Chip.transaction_status c ((0 : BitVec 32).extractLsb' 24 8)
  rw [← spiBytes_two] at ht
  have h : Does cs _ c c.status _ :=
    does_query (k := 2) (by omega) (by omega) flashRdsr 0 [0xff] (by rw [ht]; rfl)
  rwa [ht] at h

/-- The bytes of a command with an address. -/
theorem spiBytes_addr (cmd : Byte) (addr : BitVec 32) :
    spiBytes cmd (addr <<< 8) 4 = cmd :: addrBytes addr := by
  have h := addrBytes_shift addr 0
  rw [show (0 : Byte).setWidth 32 = 0#32 from rfl, BitVec.or_zero] at h
  rw [spiBytes_four, h]

/-- The bytes of a command with an address and a byte. -/
theorem spiBytes_addr_byte (cmd : Byte) (addr : BitVec 32) (byte : Byte) :
    spiBytes cmd ((addr <<< 8) ||| byte.setWidth 32) 5 = cmd :: (addrBytes addr ++ [byte]) := by
  rw [spiBytes_five, addrBytes_shift, extract_byte]

theorem does_flashEraseSector {addr : BitVec 32} (ha : addr.toNat < 2 ^ 24) (hw : c.wip = 0)
    (hl : c.wel = true) :
    Does cs (flashEraseSector addr) c () (c.start (erase addr.toNat c.mem)) := by
  have h : Does cs _ c _ _ := does_command (k := 4) (by omega) (by omega) flashSe (addr <<< 8)
  rwa [spiBytes_addr, Chip.transaction_erase hw hl rfl, addrOf_addrBytes, Nat.mod_eq_of_lt ha] at h

/-- Status reads until the operation is over. -/
theorem does_waitReady : Does cs waitReady c () { c with wip := 0 } := by
  refine DoesLoop.does ?_
  generalize hk : c.wip = k
  induction k generalizing c with
  | zero =>
    have hst : ¬ (c.status &&& flashWip ≠ 0) := by
      unfold Chip.status
      rw [if_pos hk]
      cases c.wel <;> decide
    have hread : Does cs flashReadStatus c c.status { c with wip := 0 } := by
      have h : Does cs _ c _ _ := does_flashReadStatus
      rwa [hk] at h
    refine .stop (hread.bind ?_)
    rw [if_neg hst]
    exact Does.pure _ _
  | succ k ih =>
    have hst : c.status &&& flashWip ≠ 0 := by
      unfold Chip.status
      rw [if_neg (by omega)]
      cases c.wel <;> decide
    refine .again (does_flashReadStatus.bind ?_) (ih (c := { c with wip := c.wip - 1 }) (by simp [hk]))
    rw [if_pos hst]
    exact Does.pure _ _

/-! ### Pages -/

/-- The register selects the chip and deselects it. -/
theorem flashSpiCs_software {b : Board} (hs : b.select = .software) :
    Fueled.Yields (flashSpiCs 0) b () { b with csN := 0, port := b.port.select } ∧
      Fueled.Yields (flashSpiCs 1) b () { b with csN := 1, port := b.port.deselect } := by
  obtain ⟨port, csN, miso, select⟩ := b
  obtain rfl : select = .software := hs
  exact ⟨Fueled.Yields.act _ _, Fueled.Yields.act _ _⟩

/-- A byte of a page, with the chip-select held by the register. -/
theorem flashIoctl_byte (d : BitVec 64) {b : Board} (hs : b.select = .software) :
    ∃ rx b', Fueled.Yields (flashIoctl 8 d) b rx b' ∧ b'.select = .software ∧
      b'.port = (b.port.exchange (d.extractLsb' 32 8)).2 ∧
      rx.setWidth 8 = (b.port.exchange (d.extractLsb' 32 8)).1 := by
  obtain ⟨port, csN, miso, select⟩ := b
  obtain rfl : select = .software := hs
  refine ⟨_, _, flashIoctl_yields 8 (by omega) (by omega) d _ rfl, rfl, rfl, ?_⟩
  rw [BitVec.setWidth_setWidth_of_le _ (by omega)]
  exact misoAfter_low miso [] _

/-- The loop of `flash_write_buffer`. -/
theorem sendBytes (buf : Nat → Byte) (is : List Nat) {b : Board} (hs : b.select = .software) :
    ∃ b', Fueled.Yields (is.forM fun i => do let _ ← flashIoctl 8 ((buf i).setWidth 64 <<< 32)) b ⟨⟩ b' ∧
      b'.select = .software ∧ b'.port = (Port.exchanges (is.map buf) b.port).2 := by
  induction is generalizing b with
  | nil => exact ⟨b, Fueled.Yields.pure _ b, hs, rfl⟩
  | cons i is ih =>
    obtain ⟨rx, b₁, hy, hs₁, hp₁, -⟩ := flashIoctl_byte ((buf i).setWidth 64 <<< 32) hs
    obtain ⟨b', hy', hs', hp'⟩ := ih hs₁
    have hbyte : ((buf i).setWidth 64 <<< 32).extractLsb' 32 8 = buf i := by grind
    have hfirst : Fueled.Yields (do let _ ← flashIoctl 8 ((buf i).setWidth 64 <<< 32)) b () b₁ :=
      hy.bind (Fueled.Yields.pure _ _)
    refine ⟨b', hfirst.bind hy', hs', ?_⟩
    rw [hp', hp₁, hbyte]
    rfl

/-- The loop of `litepcie_flash_read_buffer`. -/
theorem receiveBytes (d : BitVec 64) (is : List Nat) {b : Board} (hs : b.select = .software) :
    ∃ b', Fueled.Yields (is.mapM fun _ => do return (← flashIoctl 8 d).setWidth 8) b
        (Port.exchanges (is.map fun _ => d.extractLsb' 32 8) b.port).1 b' ∧
      b'.select = .software ∧
      b'.port = (Port.exchanges (is.map fun _ => d.extractLsb' 32 8) b.port).2 := by
  induction is generalizing b with
  | nil => exact ⟨b, Fueled.Yields.pure _ b, hs, rfl⟩
  | cons i is ih =>
    obtain ⟨rx, b₁, hy, hs₁, hp₁, hrx⟩ := flashIoctl_byte d hs
    obtain ⟨b', hy', hs', hp'⟩ := ih hs₁
    rw [hp₁] at hy' hp'
    refine ⟨b', ?_, hs', hp'⟩
    have hfirst : Fueled.Yields (do return (← flashIoctl 8 d).setWidth 8) b (rx.setWidth 8) b₁ :=
      hy.bind (Fueled.Yields.pure _ _)
    rw [List.mapM_cons]
    refine hfirst.bind (hy'.bind ?_)
    rw [hrx]
    exact Fueled.Yields.pure _ _

/-- The header of a page command: the opcode and the address. -/
theorem headerBytes (cmd : Byte) {addr : BitVec 32} (ha : addr.toNat < 2 ^ 24) :
    mosiBytes ((cmd.setWidth 64 <<< 32) ||| (addr.setWidth 64 <<< 8)) (32 / 8) =
      cmd :: addrBytes addr := by
  have hcmd : ((cmd.setWidth 64 <<< 32) ||| (addr.setWidth 64 <<< 8)).extractLsb' 32 8 = cmd := by
    have hz : ∀ i, 24 ≤ i → addr.getLsbD i = false := fun i hi =>
      Nat.testBit_lt_two_pow (lt_of_lt_of_le ha (Nat.pow_le_pow_right (by decide) hi))
    grind
  have hrest : ∀ s, s + 8 ≤ 24 →
      ((cmd.setWidth 64 <<< 32) ||| (addr.setWidth 64 <<< 8)).extractLsb' (s + 8) 8 =
        addr.extractLsb' s 8 := by
    intro s hs
    grind
  simp [mosiBytes, List.range_succ, addrBytes, hcmd, ← hrest]

/-- The chip receives the header of a page command. -/
theorem sendHeader (cmd : Byte) (hcmd : cmd ≠ flashRdsr) {addr : BitVec 32} (ha : addr.toNat < 2 ^ 24)
    (c : Chip) (miso : BitVec 40) :
    ∃ rx miso', Fueled.Yields (flashIoctl 32 ((cmd.setWidth 64 <<< 32) ||| (addr.setWidth 64 <<< 8)))
      ⟨⟨c, some []⟩, 0, miso, .software⟩ rx ⟨⟨c, some (cmd :: addrBytes addr)⟩, 0, miso', .software⟩ := by
  have ht : Board.transfer
      (mosiBytes ((cmd.setWidth 64 <<< 32) ||| (addr.setWidth 64 <<< 8)) (32 / 8))
      ⟨⟨c, some []⟩, 0, miso, .software⟩ = ((Port.exchanges (cmd :: addrBytes addr) ⟨c, some []⟩).1,
        ⟨⟨c, some (cmd :: addrBytes addr)⟩, 0, miso, .software⟩) := by
    rw [headerBytes cmd ha]
    simp only [Board.transfer, Port.exchanges_command hcmd]
  exact ⟨_, _, flashIoctl_yields 32 (by omega) (by omega) _ _ ht⟩

/-- The bytes of a page program are those of the buffer. -/
theorem program_pageBytes (addr : BitVec 32) (ha : addr.toNat < 2 ^ 24) (buf : Nat → Byte) (n : Nat)
    (u m : Mem) :
    program (addrOf (addrBytes addr ++ (List.range n).map buf))
      ((addrBytes addr ++ (List.range n).map buf).length - 3)
      (fun k => (addrBytes addr ++ (List.range n).map buf).getD (k + 3) 0) u m =
        program addr.toNat n buf u m := by
  have haddr : addrOf (addrBytes addr ++ (List.range n).map buf) = addr.toNat := by
    rw [← Nat.mod_eq_of_lt ha, ← addrOf_addrBytes]
    rfl
  have hlen : (addrBytes addr ++ (List.range n).map buf).length - 3 = n := by
    simp [addrBytes]
  rw [haddr, hlen]
  refine program_congr (fun k hk => ?_) u m
  simp [addrBytes, hk]

/-- One byte, or a page while the register holds the chip-select. -/
theorem does_flashWriteBuffer {n : Nat} (hn : n = 1 ∨ cs = .software ∧ 0 < n) {addr : BitVec 32}
    (ha : addr.toNat < 2 ^ 24) (hw : c.wip = 0) (hl : c.wel = true) (buf : Nat → Byte) :
    Does cs (flashWriteBuffer addr buf n) c ()
      (c.start (program addr.toNat n buf (c.outcome c.ops).unprogrammed c.mem)) := by
  by_cases h1 : n = 1
  · subst h1
    have h : Does cs _ c _ _ := does_command (k := 5) (by omega) (by omega) flashPp
      ((addr <<< 8) ||| (buf 0).setWidth 32)
    rw [spiBytes_addr_byte, Chip.transaction_program hw hl (by simp [addrBytes])] at h
    have hp := program_pageBytes addr ha buf 1 (c.outcome c.ops).unprogrammed c.mem
    simp only [List.range_one, List.map_cons, List.map_nil] at hp
    rw [hp] at h
    exact h
  · obtain ⟨rfl, hpos⟩ := hn.resolve_left h1
    intro b hs hp
    obtain ⟨port, csN, miso, select⟩ := b
    obtain rfl : select = .software := hs
    obtain rfl : port = ⟨c, none⟩ := hp
    obtain ⟨rx, miso', hheader⟩ := sendHeader flashPp (by decide) ha c miso
    obtain ⟨b₁, hsend, hs₁, hp₁⟩ := sendBytes buf (List.range n)
      (b := ⟨⟨c, some (flashPp :: addrBytes addr)⟩, 0, miso', .software⟩) rfl
    dsimp only at hp₁
    rw [Port.exchanges_rx (by decide)] at hp₁
    have hexec : (c.execute (flashPp :: (addrBytes addr ++ (List.range n).map buf))) =
        c.start (program addr.toNat n buf (c.outcome c.ops).unprogrammed c.mem) := by
      rw [← Chip.transaction_snd c (by decide), Chip.transaction_program hw hl,
        program_pageBytes addr ha]
      simp [addrBytes, hpos]
    refine ⟨{ b₁ with csN := 1, port := b₁.port.deselect }, ?_, hs₁, ?_⟩
    · unfold flashWriteBuffer
      rw [if_neg h1]
      exact (flashSpiCs_software rfl).1.bind (hheader.bind (hsend.bind (flashSpiCs_software hs₁).2))
    · show b₁.port.deselect = _
      rw [hp₁, ← hexec]
      rfl

/-- The bytes that are read back; the chip stays as it is. -/
theorem does_litepcieFlashReadBuffer {n : Nat} (hn : n = 1 ∨ cs = .software) {addr : BitVec 32}
    (ha : addr.toNat < 2 ^ 24) (hw : c.wip = 0) :
    Does cs (litepcieFlashReadBuffer addr n) c
      ((List.range n).map fun j => c.mem ((addr.toNat + j) % 2 ^ 24)) c := by
  have haddr : addrOf (addrBytes addr) = addr.toNat := by
    rw [addrOf_addrBytes, Nat.mod_eq_of_lt ha]
  by_cases h1 : n = 1
  · subst h1
    have hbytes : spiBytes flashRead (addr <<< 8) 5 = flashRead :: (addrBytes addr ++ [0]) := by
      have h := spiBytes_addr_byte flashRead addr 0
      rwa [show (0 : Byte).setWidth 32 = 0#32 from rfl, BitVec.or_zero] at h
    obtain ⟨hout, hchip⟩ := Chip.transaction_read hw (addrBytes addr) rfl [0]
    rw [haddr, ← hbytes] at hout
    rw [← hbytes] at hchip
    let outs := (c.transaction (spiBytes flashRead (addr <<< 8) 5)).1
    have houts : outs = outs.take 4 ++ [c.mem (addr.toNat % 2 ^ 24)] := by
      conv => lhs; rw [← List.take_append_drop 4 outs]
      rw [hout]
      rfl
    have h : Does cs _ c _ _ :=
      does_query (k := 5) (by omega) (by omega) flashRead (addr <<< 8) (outs.take 4) houts
    rw [hchip] at h
    exact h.bind (Does.pure _ c)
  · obtain rfl := hn.resolve_left h1
    intro b hs hp
    obtain ⟨port, csN, miso, select⟩ := b
    obtain rfl : select = .software := hs
    obtain rfl : port = ⟨c, none⟩ := hp
    let d : BitVec 64 := (flashRead.setWidth 64 <<< 32) ||| (addr.setWidth 64 <<< 8)
    obtain ⟨rx, miso', hheader⟩ := sendHeader flashRead (by decide) ha c miso
    obtain ⟨b₁, hrecv, hs₁, hp₁⟩ := receiveBytes d (List.range n)
      (b := ⟨⟨c, some (flashRead :: addrBytes addr)⟩, 0, miso', .software⟩) rfl
    dsimp only at hp₁ hrecv
    rw [Port.exchanges_rx (by decide)] at hp₁
    rw [Chip.exchanges_read hw (by simp [addrBytes])] at hrecv
    have hdata : ((List.range ((List.range n).map fun _ => d.extractLsb' 32 8).length).map fun j =>
        c.mem ((addrOf (addrBytes addr) + ((addrBytes addr).length - 3 + j)) % 2 ^ 24)) =
          (List.range n).map fun j => c.mem ((addr.toNat + j) % 2 ^ 24) := by
      simp [addrBytes, ← haddr]
    rw [hdata] at hrecv
    refine ⟨{ b₁ with csN := 1, port := b₁.port.deselect }, ?_, hs₁, ?_⟩
    · unfold litepcieFlashReadBuffer
      rw [if_neg h1]
      exact (flashSpiCs_software rfl).1.bind (hheader.bind (hrecv.bind
        ((flashSpiCs_software hs₁).2.bind (Fueled.Yields.pure _ _))))
    · show b₁.port.deselect = _
      rw [hp₁]
      show (⟨c.execute _, none⟩ : Port) = _
      rw [← Chip.transaction_snd c (by decide), (Chip.transaction_read hw _ rfl _).2]

/-- The program size is a page exactly if the register drives the chip-select. -/
theorem does_litepcieFlashGetFlashProgramSize :
    Does cs litepcieFlashGetFlashProgramSize c
      (match cs with | .software => 256 | .hardware .. => 1) c := by
  intro b hs hp
  obtain ⟨port, csN, miso, select⟩ := b
  obtain rfl : select = cs := hs
  obtain rfl : port = ⟨c, none⟩ := hp
  cases select with
  | software =>
    refine ⟨⟨⟨c, none⟩, 1, miso, .software⟩, ?_, rfl, rfl⟩
    refine (Fueled.Yields.act _ _).bind ((Fueled.Yields.act _ _).bind ((Fueled.Yields.act _ _).bind
      ((Fueled.Yields.act _ _).bind ?_)))
    dsimp only
    rw [if_pos ⟨rfl, rfl⟩]
    exact Fueled.Yields.pure _ _
  | hardware read h =>
    refine ⟨⟨⟨c, none⟩, 1, miso, .hardware read h⟩, ?_, rfl, rfl⟩
    refine (Fueled.Yields.act _ _).bind ((Fueled.Yields.act _ _).bind ((Fueled.Yields.act _ _).bind
      ((Fueled.Yields.act _ _).bind ?_)))
    dsimp only
    rw [if_neg h]
    exact Fueled.Yields.pure _ _

end

end Flash
end Xtrx
