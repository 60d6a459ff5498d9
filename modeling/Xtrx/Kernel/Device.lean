import Mathlib.Algebra.Order.Ring.Int
import Mathlib.Data.Fintype.Basic
import Mathlib.Logic.Function.Basic

/-!
# The kernel driver's device (`litepcie-kernel-module/main.c`, `config.h`, `csr.h`, `soc.h`)

The state of one probed board and the driver functions that program its DMA engines.

* `DmaDir`: the fields of `struct litepcie_dma_chan` that exist once for the reader (TX) and once
  for the writer (RX). `LitepcieDmaChan` has both, and `LitepcieDevice.dir s i d` is direction `d`
  of channel `i`. The reader and the writer functions of the source differ only in the registers
  and fields of their direction: each is one definition in `d` (`dmaStart`, `dmaStop`) applied to
  its direction.
* `bar0`: the 32-bit registers behind BAR0, as storage (`readl`, `writel`). Addresses are without
  `CSR_BASE`, which `csr.h` adds and `litepcie_readl` and `litepcie_writel` take off again.
* A buffer address (`DmaDir.addr`) is the number of its allocation, `none` for `NULL`: two
  allocations that get the same memory one after the other stay different.

Counters are integers: the source's `int64_t` does not overflow below `2 ^ 63` buffers.
-/

namespace Xtrx
namespace Kernel

/-- For the channel 0 of a board with one channel, `0 : Fin 1`. -/
instance neZeroOne : NeZero 1 := ⟨Nat.one_ne_zero⟩

/-! ## Constants -/

/-- `DMA_BUFFER_COUNT`. -/
abbrev dmaBufferCount : Nat := 256

/-- `DMA_BUFFER_SIZE`. -/
abbrev dmaBufferSize : Nat := 65536

/-- `DMA_BUFFER_PER_IRQ`. -/
abbrev dmaBufferPerIrq : Nat := 32

/-- `DMA_BUFFER_TOTAL_SIZE`. -/
abbrev dmaBufferTotalSize : Nat := dmaBufferCount * dmaBufferSize

def dmaIrqDisable : BitVec 32 := 1#32 <<< 24
def dmaLastDisable : BitVec 32 := 1#32 <<< 25

def csrPcieMsiEnableAddr : Nat := 0x5800
def csrPcieMsiClearAddr : Nat := 0x5804
def csrPcieMsiVectorAddr : Nat := 0x5808
def csrPcieDma0Base : Nat := 0x6000

def pcieDmaLoopbackEnableOffset : Nat := 0x0040

def pcieDma0ReaderInterrupt : Nat := 0
def pcieDma0WriterInterrupt : Nat := 1

/-- A direction of a DMA channel: the reader engine reads host memory (TX), the writer engine
writes it (RX). -/
inductive Dir where
  | reader
  | writer
  deriving DecidableEq, Repr

namespace Dir

/-- `PCIE_DMA_WRITER_ENABLE_OFFSET`, `PCIE_DMA_READER_ENABLE_OFFSET`: the first register of the
direction; the others follow at the same distances. -/
def enableOffset : Dir → Nat
  | .writer => 0x0000
  | .reader => 0x0020

def tableValueOffset (d : Dir) : Nat := d.enableOffset + 0x04
def tableWeOffset (d : Dir) : Nat := d.enableOffset + 0x0c
def tableLoopProgNOffset (d : Dir) : Nat := d.enableOffset + 0x10
def tableLoopStatusOffset (d : Dir) : Nat := d.enableOffset + 0x14
def tableFlushOffset (d : Dir) : Nat := d.enableOffset + 0x1c

end Dir

/-! ## State -/

/-- The fields of `struct litepcie_dma_chan` for one direction. -/
structure DmaDir where
  interrupt : Nat
  handle : Fin dmaBufferCount → BitVec 64
  addr : Fin dmaBufferCount → Option Nat
  hwCount : Int
  hwCountLast : Int
  swCount : Int
  enable : UInt8
  lock : Bool

namespace DmaDir

/-- `hw_count = 0; hw_count_last = 0; sw_count = 0`. -/
def clearCounters (c : DmaDir) : DmaDir := { c with hwCount := 0, hwCountLast := 0, swCount := 0 }

/-- The mask of `hw_count &= …`: `((~(DMA_BUFFER_COUNT - 1) << 16) & 0xffffffffffff0000)`. -/
def hwCountMask : BitVec 64 := (~~~(255#64) <<< 16) &&& 0xffffffffffff0000#64

/-- The update of `hw_count` from the `LOOP_STATUS` register in `litepcie_interrupt`. -/
def setHwCount (c : DmaDir) (loopStatus : BitVec 32) : DmaDir :=
  let kept := BitVec.ofInt 64 c.hwCount &&& hwCountMask
  let hw := (kept ||| ((loopStatus >>> 16) * 256#32 + (loopStatus &&& 0xffff#32)).setWidth 64).toInt
  let hw := if c.hwCountLast > hw then hw + 2 ^ 24 else hw
  { c with hwCount := hw, hwCountLast := hw }

end DmaDir

/-- `struct litepcie_dma_chan`. -/
structure LitepcieDmaChan where
  base : Nat
  reader : DmaDir
  writer : DmaDir

namespace LitepcieDmaChan

def dir (c : LitepcieDmaChan) : Dir → DmaDir
  | .reader => c.reader
  | .writer => c.writer

def modDir (c : LitepcieDmaChan) (d : Dir) (f : DmaDir → DmaDir) : LitepcieDmaChan :=
  match d with
  | .reader => { c with reader := f c.reader }
  | .writer => { c with writer := f c.writer }

@[simp] theorem dir_reader (c : LitepcieDmaChan) : c.dir .reader = c.reader := rfl
@[simp] theorem dir_writer (c : LitepcieDmaChan) : c.dir .writer = c.writer := rfl

@[simp] theorem base_modDir (c : LitepcieDmaChan) (d : Dir) (f : DmaDir → DmaDir) :
    (c.modDir d f).base = c.base := by
  cases d <;> rfl

theorem dir_modDir (c : LitepcieDmaChan) (d e : Dir) (f : DmaDir → DmaDir) :
    (c.modDir d f).dir e = if e = d then f (c.dir d) else c.dir e := by
  cases d <;> cases e <;> rfl

end LitepcieDmaChan

/-- `struct litepcie_device`, with the registers of the board. `chan i` is `chan[i].dma`. -/
structure LitepcieDevice (n : Nat) where
  bar0 : Nat → BitVec 32
  chan : Fin n → LitepcieDmaChan

namespace LitepcieDevice

variable {n : Nat}

/-- Direction `d` of channel `i`. -/
def dir (s : LitepcieDevice n) (i : Fin n) (d : Dir) : DmaDir := (s.chan i).dir d

/-- The device with direction `d` of channel `i` changed. -/
def modDir (s : LitepcieDevice n) (i : Fin n) (d : Dir) (f : DmaDir → DmaDir) : LitepcieDevice n :=
  { s with chan := Function.update s.chan i ((s.chan i).modDir d f) }

@[simp] theorem bar0_modDir (s : LitepcieDevice n) (i : Fin n) (d : Dir) (f : DmaDir → DmaDir) :
    (s.modDir i d f).bar0 = s.bar0 := rfl

@[simp] theorem base_modDir (s : LitepcieDevice n) (i j : Fin n) (d : Dir) (f : DmaDir → DmaDir) :
    ((s.modDir i d f).chan j).base = (s.chan j).base := by
  by_cases h : j = i
  · subst h; simp [modDir]
  · simp [modDir, h]

theorem dir_modDir (s : LitepcieDevice n) (i j : Fin n) (d e : Dir) (f : DmaDir → DmaDir) :
    (s.modDir i d f).dir j e = if j = i ∧ e = d then f (s.dir i d) else s.dir j e := by
  by_cases h : j = i
  · subst h
    simp [modDir, dir, LitepcieDmaChan.dir_modDir]
  · simp [modDir, dir, h]

@[simp] theorem dir_modDir_self (s : LitepcieDevice n) (i : Fin n) (d : Dir) (f : DmaDir → DmaDir) :
    (s.modDir i d f).dir i d = f (s.dir i d) := by
  rw [dir_modDir, if_pos ⟨rfl, rfl⟩]

theorem dir_modDir_ne {s : LitepcieDevice n} {i j : Fin n} {d e : Dir} {f : DmaDir → DmaDir}
    (h : ¬ (j = i ∧ e = d)) : (s.modDir i d f).dir j e = s.dir j e := by
  rw [dir_modDir, if_neg h]

/-- What the change of a direction keeps, it keeps in every direction. -/
theorem dir_modDir_keeps {γ : Type} {f : DmaDir → γ} {g : DmaDir → DmaDir} (h : ∀ c, f (g c) = f c)
    (s : LitepcieDevice n) (i j : Fin n) (d e : Dir) :
    f ((s.modDir i d g).dir j e) = f (s.dir j e) := by
  rw [dir_modDir]
  split
  · rename_i hj
    rw [h, hj.1, hj.2]
  · rfl

/-- A change of a direction that leaves it as it is. -/
theorem modDir_id {s : LitepcieDevice n} {i : Fin n} {d : Dir} {f : DmaDir → DmaDir}
    (h : f (s.dir i d) = s.dir i d) : s.modDir i d f = s := by
  have hc : (s.chan i).modDir d f = s.chan i := by
    cases d
    · exact congrArg (fun r => { s.chan i with reader := r }) h
    · exact congrArg (fun r => { s.chan i with writer := r }) h
  simp [modDir, hc]

/-! ## Registers -/

/-- `litepcie_readl`. -/
def litepcieReadl (s : LitepcieDevice n) (addr : Nat) : BitVec 32 := s.bar0 addr

/-- `litepcie_writel`. -/
def litepcieWritel (s : LitepcieDevice n) (addr : Nat) (val : BitVec 32) : LitepcieDevice n :=
  { s with bar0 := Function.update s.bar0 addr val }

@[simp] theorem chan_writel (s : LitepcieDevice n) (a : Nat) (v : BitVec 32) :
    (s.litepcieWritel a v).chan = s.chan := rfl

@[simp] theorem dir_writel (s : LitepcieDevice n) (a : Nat) (v : BitVec 32) (i : Fin n) (d : Dir) :
    (s.litepcieWritel a v).dir i d = s.dir i d := rfl

@[simp] theorem readl_writel_self (s : LitepcieDevice n) (a : Nat) (v : BitVec 32) :
    (s.litepcieWritel a v).litepcieReadl a = v := by
  simp [litepcieReadl, litepcieWritel]

theorem readl_writel_ne {s : LitepcieDevice n} {a b : Nat} {v : BitVec 32} (h : b ≠ a) :
    (s.litepcieWritel a v).litepcieReadl b = s.litepcieReadl b := by
  simp [litepcieReadl, litepcieWritel, h]

@[simp] theorem readl_modDir (s : LitepcieDevice n) (i : Fin n) (d : Dir) (f : DmaDir → DmaDir)
    (a : Nat) : (s.modDir i d f).litepcieReadl a = s.litepcieReadl a := rfl

/-- `litepcie_enable_interrupt`. -/
def litepcieEnableInterrupt (s : LitepcieDevice n) (irqNum : Nat) : LitepcieDevice n :=
  let v := s.litepcieReadl csrPcieMsiEnableAddr
  s.litepcieWritel csrPcieMsiEnableAddr (v ||| (1#32 <<< irqNum))

/-- `litepcie_disable_interrupt`. -/
def litepcieDisableInterrupt (s : LitepcieDevice n) (irqNum : Nat) : LitepcieDevice n :=
  let v := s.litepcieReadl csrPcieMsiEnableAddr
  s.litepcieWritel csrPcieMsiEnableAddr (v &&& ~~~(1#32 <<< irqNum))

@[simp] theorem dir_enableInterrupt (s : LitepcieDevice n) (k : Nat) (i : Fin n) (d : Dir) :
    (s.litepcieEnableInterrupt k).dir i d = s.dir i d := rfl

@[simp] theorem dir_disableInterrupt (s : LitepcieDevice n) (k : Nat) (i : Fin n) (d : Dir) :
    (s.litepcieDisableInterrupt k).dir i d = s.dir i d := rfl

@[simp] theorem chan_enableInterrupt (s : LitepcieDevice n) (k : Nat) :
    (s.litepcieEnableInterrupt k).chan = s.chan := rfl

@[simp] theorem chan_disableInterrupt (s : LitepcieDevice n) (k : Nat) :
    (s.litepcieDisableInterrupt k).chan = s.chan := rfl

/-! ## Start and stop -/

/-- One iteration of the descriptor loop of `litepcie_dma_writer_start` and
`litepcie_dma_reader_start`. -/
def fillDescriptor (d : Dir) (dmachan : LitepcieDmaChan) (s : LitepcieDevice n)
    (i : Fin dmaBufferCount) : LitepcieDevice n :=
  let irqDisable := if i.val % dmaBufferPerIrq = 0 then 0#32 else dmaIrqDisable
  let handle := (dmachan.dir d).handle i
  -- fill buffer size + parameters
  let s := s.litepcieWritel (dmachan.base + d.tableValueOffset)
    (dmaLastDisable ||| irqDisable ||| BitVec.ofNat 32 dmaBufferSize)
  -- fill 32-bit Address LSB
  let s := s.litepcieWritel (dmachan.base + d.tableValueOffset + 4) (handle.setWidth 32)
  -- write descriptor (and fill 32-bit Address MSB for 64-bit mode)
  s.litepcieWritel (dmachan.base + d.tableWeOffset) ((handle >>> 32).setWidth 32)

/-- `litepcie_dma_writer_start` and `litepcie_dma_reader_start`. -/
def dmaStart (d : Dir) (s : LitepcieDevice n) (chanNum : Fin n) : LitepcieDevice n :=
  let dmachan := s.chan chanNum
  let s := s.litepcieWritel (dmachan.base + d.enableOffset) 0
  let s := s.litepcieWritel (dmachan.base + d.tableFlushOffset) 1
  let s := s.litepcieWritel (dmachan.base + d.tableLoopProgNOffset) 0
  let s := (List.finRange dmaBufferCount).foldl (fillDescriptor d dmachan) s
  let s := s.litepcieWritel (dmachan.base + d.tableLoopProgNOffset) 1
  let s := s.modDir chanNum d DmaDir.clearCounters
  s.litepcieWritel (dmachan.base + d.enableOffset) 1

/-- `litepcie_dma_writer_stop` and `litepcie_dma_reader_stop`. -/
def dmaStop (d : Dir) (s : LitepcieDevice n) (chanNum : Fin n) : LitepcieDevice n :=
  let dmachan := s.chan chanNum
  let s := s.litepcieWritel (dmachan.base + d.tableLoopProgNOffset) 0
  let s := s.litepcieWritel (dmachan.base + d.tableFlushOffset) 1
  let s := s.litepcieWritel (dmachan.base + d.enableOffset) 0
  let s := s.litepcieWritel (dmachan.base + d.tableFlushOffset) 1
  s.modDir chanNum d DmaDir.clearCounters

def litepcieDmaWriterStart (s : LitepcieDevice n) (chanNum : Fin n) : LitepcieDevice n :=
  dmaStart .writer s chanNum

def litepcieDmaReaderStart (s : LitepcieDevice n) (chanNum : Fin n) : LitepcieDevice n :=
  dmaStart .reader s chanNum

def litepcieDmaWriterStop (s : LitepcieDevice n) (chanNum : Fin n) : LitepcieDevice n :=
  dmaStop .writer s chanNum

def litepcieDmaReaderStop (s : LitepcieDevice n) (chanNum : Fin n) : LitepcieDevice n :=
  dmaStop .reader s chanNum

@[simp] theorem chan_fillDescriptors (d : Dir) (c : LitepcieDmaChan)
    (is : List (Fin dmaBufferCount)) (s : LitepcieDevice n) :
    (is.foldl (fillDescriptor d c) s).chan = s.chan := by
  induction is generalizing s with
  | nil => rfl
  | cons i is ih => exact ih (fillDescriptor d c s i)

/-- The descriptor loop writes the three table registers of its direction. -/
theorem readl_fillDescriptors {d : Dir} {c : LitepcieDmaChan} {a : Nat}
    (h1 : a ≠ c.base + d.tableValueOffset) (h2 : a ≠ c.base + d.tableValueOffset + 4)
    (h3 : a ≠ c.base + d.tableWeOffset) (is : List (Fin dmaBufferCount)) (s : LitepcieDevice n) :
    (is.foldl (fillDescriptor d c) s).litepcieReadl a = s.litepcieReadl a := by
  induction is generalizing s with
  | nil => rfl
  | cons i is ih =>
    rw [List.foldl_cons, ih, fillDescriptor, readl_writel_ne h3, readl_writel_ne h2,
      readl_writel_ne h1]

theorem dir_dmaStart (d e : Dir) (s : LitepcieDevice n) (i j : Fin n) :
    (dmaStart d s i).dir j e = if j = i ∧ e = d then (s.dir i d).clearCounters else s.dir j e := by
  simp only [dmaStart, dir_writel, dir_modDir]
  simp only [dir, chan_fillDescriptors, chan_writel]

theorem dir_dmaStop (d e : Dir) (s : LitepcieDevice n) (i j : Fin n) :
    (dmaStop d s i).dir j e = if j = i ∧ e = d then (s.dir i d).clearCounters else s.dir j e := by
  simp only [dmaStop, dir_modDir, dir_writel]

theorem base_dmaStart (d : Dir) (s : LitepcieDevice n) (i j : Fin n) :
    ((dmaStart d s i).chan j).base = (s.chan j).base := by
  simp only [dmaStart, chan_writel, base_modDir, chan_fillDescriptors]

theorem base_dmaStop (d : Dir) (s : LitepcieDevice n) (i j : Fin n) :
    ((dmaStop d s i).chan j).base = (s.chan j).base := by
  simp only [dmaStop, chan_writel, base_modDir]

/-- After a start the engine's `ENABLE` register is 1. -/
@[simp] theorem readl_dmaStart (d : Dir) (s : LitepcieDevice n) (i : Fin n) :
    (dmaStart d s i).litepcieReadl ((s.chan i).base + d.enableOffset) = 1 := by
  simp only [dmaStart, readl_writel_self]

/-- After a stop the engine's `ENABLE` register is 0. -/
@[simp] theorem readl_dmaStop (d : Dir) (s : LitepcieDevice n) (i : Fin n) :
    (dmaStop d s i).litepcieReadl ((s.chan i).base + d.enableOffset) = 0 := by
  have h : (s.chan i).base + d.enableOffset ≠ (s.chan i).base + d.tableFlushOffset := by
    simp [Dir.tableFlushOffset]
  simp only [dmaStop, readl_modDir, readl_writel_ne h, readl_writel_self]

/-- A start writes no register outside the eight of its direction. -/
theorem readl_dmaStart_ne {d : Dir} {s : LitepcieDevice n} {i : Fin n} {a : Nat}
    (h : a < (s.chan i).base + d.enableOffset ∨ (s.chan i).base + d.enableOffset + 0x20 ≤ a) :
    (dmaStart d s i).litepcieReadl a = s.litepcieReadl a := by
  simp only [dmaStart]
  rw [readl_writel_ne (by omega), readl_modDir,
    readl_writel_ne (by unfold Dir.tableLoopProgNOffset; omega),
    readl_fillDescriptors (by unfold Dir.tableValueOffset; omega)
      (by unfold Dir.tableValueOffset; omega) (by unfold Dir.tableWeOffset; omega),
    readl_writel_ne (by unfold Dir.tableLoopProgNOffset; omega),
    readl_writel_ne (by unfold Dir.tableFlushOffset; omega), readl_writel_ne (by omega)]

/-- A stop writes no register outside the eight of its direction. -/
theorem readl_dmaStop_ne {d : Dir} {s : LitepcieDevice n} {i : Fin n} {a : Nat}
    (h : a < (s.chan i).base + d.enableOffset ∨ (s.chan i).base + d.enableOffset + 0x20 ≤ a) :
    (dmaStop d s i).litepcieReadl a = s.litepcieReadl a := by
  simp only [dmaStop, readl_modDir]
  rw [readl_writel_ne (by unfold Dir.tableFlushOffset; omega), readl_writel_ne (by omega),
    readl_writel_ne (by unfold Dir.tableFlushOffset; omega),
    readl_writel_ne (by unfold Dir.tableLoopProgNOffset; omega)]

/-! ## Interrupts -/

/-- The part of `litepcie_interrupt` for direction `d` of channel `i`, with the clear mask. -/
def interruptDir (irqVector : BitVec 32) (d : Dir) (i : Fin n) (x : LitepcieDevice n × BitVec 32) :
    LitepcieDevice n × BitVec 32 :=
  let (s, clearMask) := x
  let irq := (s.dir i d).interrupt
  if irqVector &&& (1#32 <<< irq) ≠ 0 then
    let loopStatus := s.litepcieReadl ((s.chan i).base + d.tableLoopStatusOffset)
    (s.modDir i d fun c => c.setHwCount loopStatus, clearMask ||| (1#32 <<< irq))
  else
    (s, clearMask)

/-- `litepcie_interrupt`: the reader, then the writer of every channel. -/
def litepcieInterrupt (s : LitepcieDevice n) : LitepcieDevice n :=
  let irqVector := s.litepcieReadl csrPcieMsiVectorAddr &&& s.litepcieReadl csrPcieMsiEnableAddr
  let (s, clearMask) := (List.finRange n).foldl
    (fun x i => interruptDir irqVector .writer i (interruptDir irqVector .reader i x)) (s, 0#32)
  s.litepcieWritel csrPcieMsiClearAddr clearMask

end LitepcieDevice

/-! ## The probed device -/

/-- A direction after `litepcie_pci_probe`: the zeroed structure with its interrupt number. -/
def DmaDir.probed (interrupt : Nat) : DmaDir where
  interrupt := interrupt
  handle := fun _ => 0
  addr := fun _ => none
  hwCount := 0
  hwCountLast := 0
  swCount := 0
  enable := 0
  lock := false

/-- A channel after `litepcie_pci_probe` (the `default` case of its `switch`). -/
def LitepcieDmaChan.probed : LitepcieDmaChan where
  base := csrPcieDma0Base
  reader := DmaDir.probed pcieDma0ReaderInterrupt
  writer := DmaDir.probed pcieDma0WriterInterrupt

/-- The device after `litepcie_pci_probe`, with the registers in any state. -/
def LitepcieDevice.probed {n : Nat} (bar0 : Nat → BitVec 32) : LitepcieDevice n where
  bar0 := bar0
  chan := fun _ => LitepcieDmaChan.probed

end Kernel
end Xtrx
