import Mathlib.Data.Int.Init
import Xtrx.User.Syscall

/-!
# The SoapySDR driver's streams (`soapysdr-xtrx/Streaming.cpp`, `XTRXDevice.hpp`)

The two streams of `SoapyLiteXXTRX` and the functions on them, as library calls (`User.Lib`) whose
state is the device object.

- **State**: `Stream` (`hw_count`, `sw_count`, `user_count`, the remainder of a buffer that
  `readStream` has begun), `SoapyLiteXXTRX`. The counters have no value before they are set the
  first time; a device object starts with any. `SoapyLiteXXTRX.log` records what `readStream` does
  with the buffers: it is a record for the proofs, no function reads it.
- **Life cycle**: `setupStream`, `closeStream`, `activateStream`, `deactivateStream`.
- **Direct buffer API**: `acquireReadBuffer`, `releaseReadBuffer`, `acquireWriteBuffer`,
  `releaseWriteBuffer`. A buffer address is its byte offset in the stream's mapping.
- **Stream API**: `deinterleave`, `readStream`. What they write to the user's buffers is part of
  the result, as a list of `Store`s.

A handle is an integer; `-1` stands for `(size_t)-1`.
-/

namespace Xtrx
namespace Soapy

open Conc Kernel User

/-! ## Constants -/

def soapySdrTx : Int := 0
def soapySdrRx : Int := 1

def soapySdrTimeout : Int := -1
def soapySdrStreamError : Int := -2
def soapySdrOverflow : Int := -4
def soapySdrNotSupported : Int := -5
def soapySdrUnderflow : Int := -7

/-- `SOAPY_SDR_END_ABRUPT`. -/
def soapySdrEndAbrupt : Nat := 8

/-- `SOAPY_SDR_CS16`. -/
def soapySdrCs16 : String := "CS16"

/-- `BYTES_PER_SAMPLE`. -/
abbrev bytesPerSample : Nat := 2

/-- `DETECT_EVERY_OVERFLOW`. -/
def detectEveryOverflow : Bool := true

/-- `DETECT_EVERY_UNDERFLOW`. -/
def detectEveryUnderflow : Bool := true

/-- The conversion of a 64-bit value to a 32-bit `int`. -/
def toInt32 (z : Int) : Int := z.bmod (2 ^ 32)

theorem toInt32_zero : toInt32 0 = 0 := rfl

theorem toInt32_eq {z : Int} (h : -2 ^ 31 ≤ z) (h' : z < 2 ^ 31) : toInt32 z = z :=
  Int.bmod_eq_of_le (by omega) (by omega)

/-! ## State -/

/-- `SoapyLiteXXTRX::Stream`. -/
structure Stream where
  opened : Bool
  hwCount : Int
  swCount : Int
  userCount : Int
  remainderHandle : Int
  remainderSamps : Nat
  remainderOffset : Nat
  remainderBuff : Nat
  format : String
  channels : List Nat

/-- The stream after its constructor, with any counters. -/
def Stream.new (hwCount swCount userCount : Int) : Stream where
  opened := false
  hwCount := hwCount
  swCount := swCount
  userCount := userCount
  remainderHandle := -1
  remainderSamps := 0
  remainderOffset := 0
  remainderBuff := 0
  format := ""
  channels := []

/-- A record of `SoapyLiteXXTRX.log`. -/
inductive ReadRec where
  /-- `activateStream` returned; the engine had counted `hwCount` buffers. -/
  | activated (d : Dir) (hwCount : Int)
  /-- `readStream` got the buffer `handle` from `acquireReadBuffer`. -/
  | acquired (handle : Int)
  /-- `readStream` passed `handle` to `releaseReadBuffer`. -/
  | released (handle : Int)
  /-- `readStream` returned `n` samples of the buffer `handle`, from the offset `src` on. -/
  | read (handle : Int) (src n : Nat)
  deriving DecidableEq

/-- The streams of the device object. -/
structure SoapyLiteXXTRX where
  rxStream : Stream
  txStream : Stream
  log : List ReadRec

/-- `RX_STREAM`, `TX_STREAM`, or any other pointer. -/
inductive StreamPtr where
  | rx
  | tx
  | other
  deriving DecidableEq

namespace SoapyLiteXXTRX

/-- The stream of an engine: RX for the writer, TX for the reader. -/
def stream (x : SoapyLiteXXTRX) : Dir → Stream
  | .writer => x.rxStream
  | .reader => x.txStream

def modStream (d : Dir) (f : Stream → Stream) (x : SoapyLiteXXTRX) : SoapyLiteXXTRX :=
  match d with
  | .writer => { x with rxStream := f x.rxStream }
  | .reader => { x with txStream := f x.txStream }

theorem stream_modStream (d e : Dir) (f : Stream → Stream) (x : SoapyLiteXXTRX) :
    (x.modStream d f).stream e = if e = d then f (x.stream e) else x.stream e := by
  cases d <;> cases e <;> rfl

/-- An entry of the record. -/
def addRecord (r : ReadRec) (x : SoapyLiteXXTRX) : SoapyLiteXXTRX := { x with log := x.log ++ [r] }

theorem stream_addRecord (r : ReadRec) (d : Dir) (x : SoapyLiteXXTRX) :
    (x.addRecord r).stream d = x.stream d := by
  cases d <;> rfl

/-- The mapped buffers' size and number (`_dma_mmap_info`): the constructor gets them by
`LITEPCIE_IOCTL_MMAP_DMA_INFO`. -/
def dmaBufSize : Dir → Nat
  | .writer => Driver.mmapDmaInfo.dmaRxBufSize
  | .reader => Driver.mmapDmaInfo.dmaTxBufSize

def dmaBufCount : Dir → Nat
  | .writer => Driver.mmapDmaInfo.dmaRxBufCount
  | .reader => Driver.mmapDmaInfo.dmaTxBufCount

end SoapyLiteXXTRX

open SoapyLiteXXTRX

variable {n : Nat}

/-- A function of the device object. -/
abbrev Dev (n : Nat) (α : Type) := Lib n SoapyLiteXXTRX α

def record (r : ReadRec) : Dev n Unit := Proc.modify (addRecord r)

/-- `litepcie_dma_writer` or `litepcie_dma_reader` with the stream's counters as destination. -/
def dmaCounts (d : Dir) (enable : UInt8) : Dev n Unit := do
  let (hwCount, swCount) ← match d with
    | .writer => litepcieDmaWriter enable
    | .reader => litepcieDmaReader enable
  Proc.modify (modStream d fun st => { st with hwCount := hwCount, swCount := swCount })

/-- The ioctl of `dmaCounts`. -/
def dmaIoctl (d : Dir) (enable : UInt8) : Driver.Ioctl n :=
  match d with
  | .writer => .dmaWriter enable
  | .reader => .dmaReader enable

/-- The counts in the answer of `dmaIoctl`. -/
def dmaResp {d : Dir} {enable : UInt8} (r : Option (dmaIoctl d enable : Driver.Ioctl n).Resp) :
    Int × Int :=
  match d, r with
  | .writer, r => counts r
  | .reader, r => counts r

theorem dmaCounts_bind {β : Type} (d : Dir) (enable : UInt8) (f : Unit → Dev n β)
    (x : SoapyLiteXXTRX) :
    (dmaCounts d enable >>= f) x = .call (.ioctl (dmaIoctl d enable)) fun r =>
      if r.1 ≠ 0 then .ret (.error .abort, x)
      else f () (x.modStream d fun st =>
        { st with hwCount := (dmaResp r.2).1, swCount := (dmaResp r.2).2 }) := by
  cases d with
  | writer =>
    show ((litepcieDmaWriter enable >>= _) >>= f) x = _
    unfold litepcieDmaWriter
    rw [bind_assoc, bind_assoc, checkedIoctl_bind]
    rfl
  | reader =>
    show ((litepcieDmaReader enable >>= _) >>= f) x = _
    unfold litepcieDmaReader
    rw [bind_assoc, bind_assoc, checkedIoctl_bind]
    rfl

/-- Its rule in any world: a call that aborts where the driver answers with an error. -/
theorem procWP_dmaCounts {σ ε ω β : Type} {W : World (Sysc n) Sysc.Ans σ ε ω} {I : σ → Prop}
    {G : σ → σ → Prop} {R : β → SoapyLiteXXTRX → σ → Prop} {F : Halt → SoapyLiteXXTRX → σ → Prop}
    {d : Dir} {enable : UInt8} {f : Unit → Dev n β} {x : SoapyLiteXXTRX} {s : σ}
    (h : W.ProcWP I G R F (Proc.sys (Sysc.ioctl (dmaIoctl d enable)) >>= fun r =>
      if r.1 ≠ 0 then Proc.halt .abort
      else Proc.modify (modStream d fun st =>
        { st with hwCount := (dmaResp r.2).1, swCount := (dmaResp r.2).2 }) >>= f) x s) :
    W.ProcWP I G R F (dmaCounts d enable >>= f) x s := by
  have hcall : (dmaCounts d enable >>= f) x = (Proc.sys (Sysc.ioctl (dmaIoctl d enable)) >>= fun r =>
      if r.1 ≠ 0 then Proc.halt .abort
      else Proc.modify (modStream d fun st =>
        { st with hwCount := (dmaResp r.2).1, swCount := (dmaResp r.2).2 }) >>= f) x := by
    rw [dmaCounts_bind, Proc.sys_bind]
    congr 1
    funext r
    split <;> rfl
  show W.WP I G _ ((dmaCounts d enable >>= f) x) s
  rw [hcall]
  exact h

/-- `DMA_WRITER` and `DMA_READER` on an open file descriptor answer with the counts after it. -/
theorem kernelCall_dma {fd : Nat} {p : ChanPriv n} {k k' : Driver n} {o : Choice} {d : Dir}
    {enable : UInt8} {r : Int × Option (dmaIoctl d enable : Driver.Ioctl n).Resp}
    (hf : k.files fd = some p) (h : kernelCall fd (.ioctl (dmaIoctl d enable)) o k = some (r, k')) :
    r.1 = 0 ∧ r.2.isSome ∧ dmaResp r.2 = (Driver.ioctlDma d p.chan enable k.dev).1 ∧
      k' = { k with dev := (Driver.ioctlDma d p.chan enable k.dev).2 } := by
  rw [kernelCall_ioctl hf, litepcieIoctl_none] at h
  cases d <;> cases h <;> exact ⟨rfl, rfl, rfl, rfl⟩

/-! ## Life cycle -/

/-- `setupStream` for one direction. -/
def setupDir (d : Dir) (opened : String) (s : StreamPtr) (format : String) (channels : List Nat) :
    Dev n StreamPtr := do
  if ((← Proc.get).stream d).opened then
    Proc.halt (.throw opened)
  else
    -- initialize the DMA engine
    let available ← litepcieRequestDma (d = .reader) (d = .writer)
    if ¬ available then
      Proc.halt (.throw "DMA not available")
    else
      -- mmap the DMA buffers
      let mapped ← mmap d
      if ¬ mapped then
        Proc.halt (.throw "MMAP failed")
      else
        -- make sure the DMA is disabled, or counters could be in a bad state
        dmaCounts d 0
        Proc.modify (modStream d fun st =>
          { st with opened := true, format := format
                    channels := if channels.isEmpty then [0, 1] else channels })
        return s

/-- `setupStream`. -/
def setupStream (direction : Int) (format : String) (channels : List Nat) : Dev n StreamPtr :=
  if direction = soapySdrRx then
    setupDir .writer "RX stream already opened" .rx format channels
  else if direction = soapySdrTx then
    setupDir .reader "TX stream already opened" .tx format channels
  else
    Proc.halt (.throw "Invalid direction")

/-- `closeStream`. -/
def closeStream : StreamPtr → Dev n Unit
  | .rx => do
    -- release the DMA engine
    litepcieReleaseDma false true
    munmap .writer
    Proc.modify (modStream .writer fun st => { st with opened := false })
  | .tx => do
    -- release the DMA engine
    litepcieReleaseDma true false
    munmap .reader
    Proc.modify (modStream .reader fun st => { st with opened := false })
  | .other => pure ()

/-- `activateStream`. -/
def activateStream : StreamPtr → Dev n Int
  | .rx => do
    -- enable the DMA engine
    dmaCounts .writer 1
    Proc.modify (modStream .writer fun st => { st with userCount := 0 })
    record (.activated .writer (← Proc.get).rxStream.hwCount)
    return 0
  | .tx => do
    -- enable the DMA engine
    dmaCounts .reader 1
    Proc.modify (modStream .reader fun st => { st with userCount := 0 })
    record (.activated .reader (← Proc.get).txStream.hwCount)
    return 0
  | .other => return 0

/-- `deactivateStream`; for TX too it is to disable the DMA engine. -/
def deactivateStream : StreamPtr → Dev n Int
  | .rx => do
    dmaCounts .writer 0
    return 0
  | .tx => do
    dmaCounts .reader 1
    return 0
  | .other => return 0

/-! ## Direct buffer API -/

/-- `getStreamMTU`: each sample is two complex 16-bit integers. -/
def getStreamMTU (d : Dir) : Nat := dmaBufSize d / (2 * 2 * 2)

/-- `getDirectAccessBufferAddrs`: the offset of a buffer in the mapping. -/
def getDirectAccessBufferAddrs (d : Dir) (handle : Int) : Int := handle * dmaBufSize d

/-- What `acquireReadBuffer` and `acquireWriteBuffer` return and assign: the return value, `handle`,
`buffs[0]`, and the bits added to `flags`. -/
structure Acquired where
  ret : Int
  handle : Option Int
  buff : Option Int
  flags : Nat
  deriving DecidableEq

/-- A return that assigns nothing. -/
def Acquired.code (ret : Int) : Acquired := { ret := ret, handle := none, buff := none, flags := 0 }

/-- The buffer at `user_count`, which is counted; the return value is `ret`. -/
def takeBuffer (d : Dir) (ret : Int) : Dev n Acquired := do
  let st := (← Proc.get).stream d
  let bufOffset := st.userCount % dmaBufCount d
  -- update the DMA counters
  Proc.modify (modStream d fun st => { st with userCount := st.userCount + 1 })
  return { ret := ret, handle := some st.userCount
           buff := some (getDirectAccessBufferAddrs d bufOffset), flags := 0 }

/-- The detection of overflows at the end of `acquireReadBuffer`. -/
def finishRead : Dev n Acquired := do
  let st := (← Proc.get).rxStream
  if st.hwCount - st.swCount > (dmaBufCount .writer / 2 : Nat) then
    -- drain all buffers to get out of the overflow quicker
    let _ ← checkedIoctl (.mmapDmaWriterUpdate st.hwCount)
    Proc.modify (modStream .writer fun st =>
      { st with userCount := st.hwCount, swCount := st.hwCount })
    return { ret := soapySdrOverflow, handle := some (-1), buff := none, flags := soapySdrEndAbrupt }
  else
    -- get the buffer
    takeBuffer .writer (getStreamMTU .writer)

/-- The wait for new buffers in `acquireReadBuffer`, after the first look at the counts. -/
def waitRead (timeoutUs : Int) : Dev n Acquired := do
  let st := (← Proc.get).rxStream
  let buffersAvailable := toInt32 (st.hwCount - st.userCount)
  -- if not, wait for new buffers to arrive
  if buffersAvailable = 0 then
    if timeoutUs = 0 then
      return .code soapySdrTimeout
    else
      let ret ← poll .writer (timeoutUs.tdiv 1000)
      if ret < 0 then
        Proc.halt (.throw "SoapyLiteXXTRX::acquireReadBuffer(): poll failed, ")
      else if ret = 0 then
        return .code soapySdrTimeout
      else
        -- get new DMA counters
        dmaCounts .writer 1
        let st := (← Proc.get).rxStream
        assert (toInt32 (st.hwCount - st.userCount) > 0)
        finishRead
  else
    finishRead

/-- `acquireReadBuffer`. -/
def acquireReadBuffer (stream : StreamPtr) (timeoutUs : Int) : Dev n Acquired := do
  if stream ≠ .rx then
    return .code soapySdrStreamError
  else
    -- check if there are buffers available
    let st := (← Proc.get).rxStream
    let buffersAvailable := toInt32 (st.hwCount - st.userCount)
    assert (buffersAvailable ≥ 0)
    -- if not, check with the DMA engine
    if buffersAvailable = 0 ∨ detectEveryOverflow then
      dmaCounts .writer 1
    waitRead timeoutUs

/-- `releaseReadBuffer`. -/
def releaseReadBuffer (handle : Int) : Dev n Unit := do
  assert (handle ≠ -1)
  -- update the DMA counters
  let _ ← checkedIoctl (.mmapDmaWriterUpdate (handle + 1))

/-- The buffer and the detection of underflows at the end of `acquireWriteBuffer`. -/
def finishWrite (buffersPending : Int) : Dev n Acquired :=
  takeBuffer .reader (if buffersPending < 0 then soapySdrUnderflow else getStreamMTU .reader)

/-- The wait for new buffers in `acquireWriteBuffer`, after the first look at the counts. -/
def waitWrite (timeoutUs : Int) : Dev n Acquired := do
  let st := (← Proc.get).txStream
  let buffersPending := toInt32 (st.userCount - st.hwCount)
  -- if not, wait for new buffers to become available
  if buffersPending = dmaBufCount .reader then
    if timeoutUs = 0 then
      return .code soapySdrTimeout
    else
      let ret ← poll .reader (timeoutUs.tdiv 1000)
      if ret < 0 then
        Proc.halt (.throw "SoapyLiteXXTRX::acquireWriteBuffer(): poll failed, ")
      else if ret = 0 then
        return .code soapySdrTimeout
      else
        -- get new DMA counters
        dmaCounts .reader 1
        let st := (← Proc.get).txStream
        let buffersPending := toInt32 (st.userCount - st.hwCount)
        assert (buffersPending < dmaBufCount .reader)
        finishWrite buffersPending
  else
    finishWrite buffersPending

/-- `acquireWriteBuffer`. -/
def acquireWriteBuffer (stream : StreamPtr) (timeoutUs : Int) : Dev n Acquired := do
  if stream ≠ .tx then
    return .code soapySdrStreamError
  else
    -- check if there are buffers available
    let st := (← Proc.get).txStream
    let buffersPending := toInt32 (st.userCount - st.hwCount)
    assert (buffersPending ≤ dmaBufCount .reader)
    -- if not, check with the DMA engine
    if buffersPending = dmaBufCount .reader ∨ detectEveryUnderflow then
      dmaCounts .reader 1
    waitWrite timeoutUs

/-- `releaseWriteBuffer`. -/
def releaseWriteBuffer (handle : Int) : Dev n Unit := do
  -- update the DMA counters so that the engine can submit this buffer
  let _ ← checkedIoctl (.mmapDmaReaderUpdate (handle + 1))

/-! ## Stream API -/

/-- A 16-bit value that `readStream` writes to `buffs[buff][index]`. -/
structure Store where
  buff : Nat
  index : Nat
  value : BitVec 16
  deriving DecidableEq

/-- The values of `i` in the loop of `deinterleave`. -/
def deinterleaveIndices (len offset : Nat) : List Nat :=
  List.range' offset ((len + 1 - offset) / 2) 2

/-- `deinterleave` into `buffs[buff]`. -/
def deinterleave (src : Nat → BitVec 8) (buff len : Nat) (format : String) (offset : Nat) :
    List Store :=
  if format = soapySdrCs16 then
    (deinterleaveIndices len offset).flatMap fun i =>
      let dst := offset * bytesPerSample
      [{ buff := buff, index := dst + i * bytesPerSample
         value := (src (i * bytesPerSample)).signExtend 16 <<< 8 },
       { buff := buff, index := dst + i * bytesPerSample + 1
         value := (src (i * bytesPerSample + 1)).signExtend 16 <<< 8 }]
  else
    []

/-- What `readStream` returns: the return value, the bits added to `flags`, and what it has written
to the user's buffers. -/
structure ReadResult where
  ret : Int
  flags : Nat
  stores : List Store
  deriving DecidableEq

/-- "Read out channels": `len` elements from the offset `src` of the mapping on, for each channel,
with the offset `base` plus its number. -/
def readOut (src len base : Nat) (format : String) : List (Nat × Nat) → Dev n (List Store)
  | [] => return []
  | (channel, i) :: cs => do
    let m ← load .writer
    let stores ← readOut src len base format cs
    return deinterleave (fun j => m (src + j)) i len format (base + channel) ++ stores

/-- `n` samples of the remainder are read; it is released when none is left. -/
def consume {m : Nat} (n : Nat) : Dev m Unit := do
  Proc.modify (modStream .writer fun st =>
    { st with remainderSamps := st.remainderSamps - n, remainderOffset := st.remainderOffset + n })
  let st := (← Proc.get).rxStream
  if st.remainderSamps = 0 then
    record (.released st.remainderHandle)
    releaseReadBuffer st.remainderHandle
    Proc.modify (modStream .writer fun st => { st with remainderHandle := -1, remainderOffset := 0 })

/-- The rest of `readStream` after the remainder: `sampAvail` elements and the values `stores` are
there. -/
def readFresh (returnedElems sampAvail : Nat) (stores : List Store) (timeoutUs : Int) :
    Dev n ReadResult := do
  let a ← acquireReadBuffer .rx timeoutUs
  if a.ret < 0 then
    if a.ret = soapySdrTimeout ∧ sampAvail > 0 then
      return { ret := sampAvail, flags := a.flags, stores := stores }
    else
      return { ret := a.ret, flags := a.flags, stores := stores }
  else
    let handle := a.handle.getD 0
    record (.acquired handle)
    Proc.modify (modStream .writer fun st =>
      { st with remainderBuff := (a.buff.getD 0).toNat, remainderHandle := toInt32 handle
                remainderSamps := a.ret.toNat })
    let st := (← Proc.get).rxStream
    let n := min (returnedElems - sampAvail) st.remainderSamps
    record (.read st.remainderHandle st.remainderBuff n)
    let stores' ← readOut st.remainderBuff n sampAvail st.format st.channels.zipIdx
    consume n
    return { ret := returnedElems, flags := a.flags, stores := stores ++ stores' }

/-- `readStream`. -/
def readStream (stream : StreamPtr) (numElems : Nat) (timeoutUs : Int) : Dev n ReadResult := do
  if stream ≠ .rx then
    return { ret := soapySdrNotSupported, flags := 0, stores := [] }
  else
    let returnedElems := min numElems (getStreamMTU .writer)
    let st := (← Proc.get).rxStream
    if st.remainderHandle ≥ 0 then
      let n := min st.remainderSamps returnedElems
      let sampAvail := if n < returnedElems then n else 0
      let src := st.remainderBuff + st.remainderOffset * bytesPerSample
      record (.read st.remainderHandle src n)
      let stores ← readOut src (n / 2) 0 st.format st.channels.zipIdx
      consume n
      if n = returnedElems then
        return { ret := returnedElems, flags := 0, stores := stores }
      else
        readFresh returnedElems sampAvail stores timeoutUs
    else
      readFresh returnedElems 0 [] timeoutUs

/-! ## The calls of `acquireReadBuffer` and `acquireWriteBuffer` -/

/-- `DETECT_EVERY_OVERFLOW` is set: each call of `acquireReadBuffer` reads the counts. -/
theorem acquireReadBuffer_rx_apply (timeoutUs : Int) (x : SoapyLiteXXTRX) :
    (acquireReadBuffer .rx timeoutUs : Dev n Acquired) x =
      if toInt32 (x.rxStream.hwCount - x.rxStream.userCount) ≥ 0 then
        (dmaCounts .writer 1 >>= fun _ => waitRead timeoutUs) x
      else .ret (.error .assertFail, x) := by
  unfold acquireReadBuffer
  rw [if_neg (by simp)]
  show (assert _ >>= _) x = _
  rw [assert_bind]
  have hdetect : toInt32 (x.rxStream.hwCount - x.rxStream.userCount) = 0 ∨
      detectEveryOverflow = true := Or.inr rfl
  rw [if_pos hdetect]

/-- `DETECT_EVERY_UNDERFLOW` is set: each call of `acquireWriteBuffer` reads the counts. -/
theorem acquireWriteBuffer_tx_apply (timeoutUs : Int) (x : SoapyLiteXXTRX) :
    (acquireWriteBuffer .tx timeoutUs : Dev n Acquired) x =
      if toInt32 (x.txStream.userCount - x.txStream.hwCount) ≤ dmaBufCount .reader then
        (dmaCounts .reader 1 >>= fun _ => waitWrite timeoutUs) x
      else .ret (.error .assertFail, x) := by
  unfold acquireWriteBuffer
  rw [if_neg (by simp)]
  show (assert _ >>= _) x = _
  rw [assert_bind]
  have hdetect : toInt32 (x.txStream.userCount - x.txStream.hwCount) = dmaBufCount .reader ∨
      detectEveryUnderflow = true := Or.inr rfl
  rw [if_pos hdetect]

end Soapy
end Xtrx
