import Xtrx.Lib.Prog
import Xtrx.Kernel.Driver

/-!
# `litepcie_read` and `litepcie_write` (`litepcie-kernel-module/main.c`)

The two copying file operations as programs (`Conc.Prog`) whose calls are the accesses to the
channel: interrupts and the hardware may come between any two of them, since the driver takes no
lock here. `ChanReq` lists the accesses. Three of them are not accesses of the source: `enter`,
`countLost` and `devErr` mark the entry, the increment of the local counter `overflows` or
`underflows`, and the report, so that a world can record them.

The loops recurse on `left`, the number of whole buffers in `len`: `len >= DMA_BUFFER_SIZE` is
`left ≠ 0` (`left_sub`).
-/

namespace Xtrx
namespace Kernel

open Conc

/-- The accesses of `litepcie_read` and `litepcie_write` to the channel and to user memory. -/
inductive ChanReq where
  | enter (data : Nat)
  /-- `wait_event_interruptible` with the condition on `hw_count` and `sw_count`. -/
  | waitEvent (d : Dir) (cond : Int → Int → Bool)
  | hwCount (d : Dir)
  | swCount (d : Dir)
  | setSwCount (d : Dir) (v : Int)
  /-- `copy_to_user` from buffer `idx` of the writer to the user address `dst`. -/
  | copyToUser (dst : Nat) (idx : Int)
  /-- `copy_from_user` to buffer `idx` of the reader from the user address `src`. -/
  | copyFromUser (idx : Int) (src : Nat)
  | countLost (d : Dir) (addr : Nat)
  | devErr (msg : String) (lost : Nat)

/-- The answers: 0 or `-ERESTARTSYS`; a counter; the number of bytes that were not copied. -/
def ChanReq.Ans : ChanReq → Type
  | .waitEvent .. | .hwCount _ | .swCount _ => Int
  | .copyToUser .. | .copyFromUser .. => Nat
  | _ => Unit

abbrev ChanProg := Prog ChanReq ChanReq.Ans

namespace ChanProg

def enter (data : Nat) : ChanProg Unit := Prog.req (ChanReq.enter data)
def waitEvent (d : Dir) (cond : Int → Int → Bool) : ChanProg Int := Prog.req (ChanReq.waitEvent d cond)
def hwCount (d : Dir) : ChanProg Int := Prog.req (ChanReq.hwCount d)
def swCount (d : Dir) : ChanProg Int := Prog.req (ChanReq.swCount d)
def setSwCount (d : Dir) (v : Int) : ChanProg Unit := Prog.req (ChanReq.setSwCount d v)
def copyToUser (dst : Nat) (idx : Int) : ChanProg Nat := Prog.req (ChanReq.copyToUser dst idx)
def copyFromUser (idx : Int) (src : Nat) : ChanProg Nat := Prog.req (ChanReq.copyFromUser idx src)
def countLost (d : Dir) (addr : Nat) : ChanProg Unit := Prog.req (ChanReq.countLost d addr)
def devErr (msg : String) (lost : Nat) : ChanProg Unit := Prog.req (ChanReq.devErr msg lost)

end ChanProg

open ChanProg

/-- `data + (chan->block_size * i)`: the product is one of 32-bit unsigned integers. -/
def blockAddr (data i : Nat) : Nat := data + dmaBufferSize * i % 2 ^ 32

/-- The end of `litepcie_read`. -/
def readEnd (size len overflows : Nat) : ChanProg Int := do
  if overflows ≠ 0 then
    devErr "Reading too late, %d buffers lost\n" overflows
  return (size - len : Nat)

/-- The copy loop of `litepcie_read`. -/
def readLoop (data size : Nat) : (left len i overflows : Nat) → ChanProg Int
  | 0, len, _, overflows => readEnd size len overflows
  | left + 1, len, i, overflows => do
    let hw ← hwCount .writer
    let sw ← swCount .writer
    if hw - sw > 0 then
      let hw ← hwCount .writer
      let sw ← swCount .writer
      if hw - sw > (dmaBufferCount / 2 : Nat) then
        countLost .writer (blockAddr data i)
        let sw ← swCount .writer
        setSwCount .writer (sw + 1)
        readLoop data size left (len - dmaBufferSize) (i + 1) (overflows + 1)
      else
        let sw ← swCount .writer
        let ret ← copyToUser (blockAddr data i) (sw.tmod dmaBufferCount)
        if ret ≠ 0 then
          return -eFault
        else
          let sw ← swCount .writer
          setSwCount .writer (sw + 1)
          readLoop data size left (len - dmaBufferSize) (i + 1) overflows
    else
      readEnd size len overflows

/-- `litepcie_read`. -/
def litepcieRead (nonblock : Bool) (data size : Nat) : ChanProg Int := do
  enter data
  let ret ←
    if nonblock then do
      let hw ← hwCount .writer
      let sw ← swCount .writer
      pure (if hw = sw then -eAgain else 0)
    else
      waitEvent .writer fun hw sw => decide (hw - sw > 0)
  if ret < 0 then
    return ret
  else
    readLoop data size (size / dmaBufferSize) size 0 0

/-- The end of `litepcie_write`. -/
def writeEnd (size len underflows : Nat) : ChanProg Int := do
  if underflows ≠ 0 then
    devErr "Writing too late, %d buffers lost\n" underflows
  return (size - len : Nat)

/-- The copy loop of `litepcie_write`. -/
def writeLoop (data size : Nat) : (left len i underflows : Nat) → ChanProg Int
  | 0, len, _, underflows => writeEnd size len underflows
  | left + 1, len, i, underflows => do
    let sw ← swCount .reader
    let hw ← hwCount .reader
    if sw - hw < (dmaBufferCount / 2 : Nat) then
      let sw ← swCount .reader
      let hw ← hwCount .reader
      if sw - hw < 0 then
        countLost .reader (blockAddr data i)
        let sw ← swCount .reader
        setSwCount .reader (sw + 1)
        writeLoop data size left (len - dmaBufferSize) (i + 1) (underflows + 1)
      else
        let sw ← swCount .reader
        let ret ← copyFromUser (sw.tmod dmaBufferCount) (blockAddr data i)
        if ret ≠ 0 then
          return -eFault
        else
          let sw ← swCount .reader
          setSwCount .reader (sw + 1)
          writeLoop data size left (len - dmaBufferSize) (i + 1) underflows
    else
      writeEnd size len underflows

/-- `litepcie_write`. -/
def litepcieWrite (nonblock : Bool) (data size : Nat) : ChanProg Int := do
  enter data
  let ret ←
    if nonblock then do
      let hw ← hwCount .reader
      let sw ← swCount .reader
      pure (if hw = sw then -eAgain else 0)
    else
      waitEvent .reader fun hw sw => decide (sw - hw < (dmaBufferCount / 2 : Nat))
  if ret < 0 then
    return ret
  else
    writeLoop data size (size / dmaBufferSize) size 0 0

/-- The recursion of the loops: `left` stays the number of whole buffers in `len`. -/
theorem left_sub {left len : Nat} (h : len / dmaBufferSize = left + 1) :
    dmaBufferSize ≤ len ∧ (len - dmaBufferSize) / dmaBufferSize = left := by
  unfold dmaBufferSize at *
  omega

/-- `MAX_RW_COUNT`: the kernel calls `read` and `write` with at most this size. -/
def maxRwCount : Nat := 0x7ffff000

/-- Up to `MAX_RW_COUNT` bytes, block `i` of the user's buffer is at byte `65536 * i`. -/
theorem blockAddr_eq {data size i : Nat} (hs : size ≤ maxRwCount) (hi : i < size / dmaBufferSize) :
    blockAddr data i = data + dmaBufferSize * i := by
  unfold blockAddr
  unfold maxRwCount at hs
  unfold dmaBufferSize at *
  have : 65536 * i < 2 ^ 32 := by omega
  rw [Nat.mod_eq_of_lt this]

end Kernel
end Xtrx
