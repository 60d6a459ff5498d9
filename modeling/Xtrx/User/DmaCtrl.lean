import Xtrx.Kernel.Transfer
import Xtrx.User.Syscall

/-!
# The DMA control structure of the library (`liblitepcie/litepcie_dma.c`)

- **`LitepcieDmaCtrl`**: `struct litepcie_dma_ctrl`. Its fields come in pairs, one for each direction
  (`CtrlDir`): the `writer_…`, `…_read` and `buf_rd` fields are those of the writer.
- **`litepcieDmaInit`, `litepcieDmaProcess`, `litepcieDmaNextReadBuffer`,
  `litepcieDmaNextWriteBuffer`**.
- **`CtrlCall`**: the calls that these functions make besides those of `Sysc`: `open`, `calloc`, a
  `poll` for both directions, `read` and `write`. `ctrlWorld` is the driver under them, with one
  process that has the device open; between two calls interrupts raise the hardware counts.
-/

namespace Xtrx
namespace User

open Conc Kernel

variable {n : Nat}

/-- `POLLIN` and `POLLOUT`. -/
structure Events where
  pollin : Bool
  pollout : Bool
  deriving DecidableEq

/-- The event of a direction. -/
def Events.get (e : Events) : Dir → Bool
  | .writer => e.pollin
  | .reader => e.pollout

/-- Where a pointer points to: `NULL`, `MAP_FAILED`, the mapping of the buffers of a direction, or
memory that was allocated for it. -/
inductive Region where
  | null
  | failed
  | mapping (d : Dir)
  | heap (d : Dir)
  deriving DecidableEq

structure Ptr where
  region : Region
  offset : Nat
  deriving DecidableEq

def Ptr.add (p : Ptr) (k : Nat) : Ptr := { p with offset := p.offset + k }

/-- The fields of `struct litepcie_dma_ctrl` for one direction. -/
structure CtrlDir where
  use : UInt8
  buf : Ptr
  hwCount : Int
  swCount : Int
  buffersAvailable : BitVec 32
  usrBufOffset : BitVec 32

/-- `struct litepcie_dma_ctrl`. -/
structure LitepcieDmaCtrl where
  reader : CtrlDir
  writer : CtrlDir
  loopback : UInt8
  zeroCopy : UInt8
  fd : Int
  events : Events
  revents : Events
  mmapDmaInfo : Driver.MmapDmaInfo
  mmapDmaUpdate : Int

namespace LitepcieDmaCtrl

def dir (x : LitepcieDmaCtrl) : Dir → CtrlDir
  | .reader => x.reader
  | .writer => x.writer

def modDir (d : Dir) (f : CtrlDir → CtrlDir) (x : LitepcieDmaCtrl) : LitepcieDmaCtrl :=
  match d with
  | .reader => { x with reader := f x.reader }
  | .writer => { x with writer := f x.writer }

theorem dir_modDir (d e : Dir) (f : CtrlDir → CtrlDir) (x : LitepcieDmaCtrl) :
    (x.modDir d f).dir e = if e = d then f (x.dir e) else x.dir e := by
  cases d <;> cases e <;> rfl

/-- The structure that the callers declare: all fields are zero but the ones that are given. -/
def initial (useReader useWriter loopback : UInt8) : LitepcieDmaCtrl where
  reader := ⟨useReader, ⟨.null, 0⟩, 0, 0, 0, 0⟩
  writer := ⟨useWriter, ⟨.null, 0⟩, 0, 0, 0, 0⟩
  loopback := loopback
  zeroCopy := 0
  fd := 0
  events := ⟨false, false⟩
  revents := ⟨false, false⟩
  mmapDmaInfo := ⟨0, 0, 0, 0, 0, 0⟩
  mmapDmaUpdate := 0

end LitepcieDmaCtrl

/-! ## Calls -/

/-- The calls of the library. `transfer` is `read` for the writer, `write` for the reader. -/
inductive CtrlCall (n : Nat) where
  | sysc (q : Sysc n)
  | openDev
  | calloc
  | poll (events : Events) (timeoutMs : Int)
  | transfer (d : Dir) (size : Nat)

/-- The answers: the file descriptor; if there is memory; the return value of `poll`, and `revents`
if it was written; the length. -/
def CtrlCall.Ans : CtrlCall n → Type
  | .sysc q => q.Ans
  | .openDev => Int
  | .calloc => Bool
  | .poll .. => Int × Option Events
  | .transfer .. => Int

/-- A function of the library on the structure. -/
abbrev CtrlProc (n : Nat) (α : Type) := Proc (CtrlCall n) CtrlCall.Ans LitepcieDmaCtrl Halt α

/-- A function that makes system calls of `Sysc` only. -/
def sysc {α : Type} (m : Lib n LitepcieDmaCtrl α) : CtrlProc n α := fun x =>
  (m x).embed CtrlCall.sysc fun _ r => r

def openDev : CtrlProc n Int := Proc.sys CtrlCall.openDev
def calloc : CtrlProc n Bool := Proc.sys CtrlCall.calloc
def pollEvents (events : Events) (timeoutMs : Int) : CtrlProc n (Int × Option Events) :=
  Proc.sys (CtrlCall.poll events timeoutMs)
def transfer (d : Dir) (size : Nat) : CtrlProc n Int := Proc.sys (CtrlCall.transfer d size)

/-! ## `litepcie_dma_init` -/

/-- The offset of a direction's buffers for `mmap`. -/
def bufOffset (m : Driver.MmapDmaInfo) : Dir → Nat
  | .writer => m.dmaRxBufOffset
  | .reader => m.dmaTxBufOffset

/-- The buffers that `litepcie_mmap` maps for an offset. -/
def litepcieMmap (offset : Nat) : Option Dir :=
  if offset = 0 then some .reader
  else if offset = dmaBufferTotalSize then some .writer
  else none

/-- `mmap` of the buffers at an offset. -/
def mmapBuffers (offset : Nat) : CtrlProc n Ptr :=
  match litepcieMmap offset with
  | some d => do
    let mapped ← sysc (mmap d)
    return if mapped then ⟨.mapping d, 0⟩ else ⟨.failed, 0⟩
  | none => pure ⟨.failed, 0⟩

/-- The buffers of a direction, if it is used: from the kernel, or allocated; `false` if that
fails. -/
def getBuffers (d : Dir) : CtrlProc n Bool := do
  let x ← Proc.get
  if (x.dir d).use = 0 then
    return true
  else if x.zeroCopy ≠ 0 then
    -- if mmap: get it from the kernel
    let buf ← mmapBuffers (bufOffset x.mmapDmaInfo d)
    Proc.modify (.modDir d fun c => { c with buf })
    return buf.region ≠ .failed
  else
    -- else: allocate it
    let allocated ← calloc
    Proc.modify (.modDir d fun c => { c with buf := ⟨if allocated then .heap d else .null, 0⟩ })
    return allocated

/-- The structure at the beginning of `litepcie_dma_init`. -/
def LitepcieDmaCtrl.begin (zeroCopy : UInt8) (x : LitepcieDmaCtrl) : LitepcieDmaCtrl where
  reader := { x.reader with hwCount := 0, swCount := 0 }
  writer := { x.writer with hwCount := 0, swCount := 0 }
  loopback := x.loopback
  zeroCopy := zeroCopy
  fd := x.fd
  events := ⟨x.events.pollin || x.writer.use ≠ 0, x.events.pollout || x.reader.use ≠ 0⟩
  revents := x.revents
  mmapDmaInfo := x.mmapDmaInfo
  mmapDmaUpdate := x.mmapDmaUpdate

/-- The answer of `LITEPCIE_IOCTL_MMAP_DMA_INFO`; one that succeeds has it. -/
def bufInfo : Option Driver.MmapDmaInfo → Driver.MmapDmaInfo
  | some m => m
  | none => ⟨0, 0, 0, 0, 0, 0⟩

/-- `litepcie_dma_init`; `out` are the allocations of `LITEPCIE_IOCTL_DMA_INIT`. -/
def litepcieDmaInit (out : Driver.AllocOutcome n) (zeroCopy : UInt8) : CtrlProc n Int := do
  Proc.modify (.begin zeroCopy)
  let fd ← openDev
  Proc.modify fun x => { x with fd }
  if fd < 0 then
    return -1
  else
    let _ ← sysc (checkedIoctl (.dmaInit out))
    -- request dma reader and writer
    let x ← Proc.get
    let status ← sysc (litepcieRequestDma (x.reader.use > 0) (x.writer.use > 0))
    if ¬ status then
      return -1
    else
      -- litepcie_dma_set_loopback
      let _ ← sysc (checkedIoctl (.dma x.loopback))
      if zeroCopy ≠ 0 then
        let info ← sysc (checkedIoctl .mmapDmaInfo)
        Proc.modify fun x => { x with mmapDmaInfo := bufInfo info }
        if ¬ (← getBuffers .writer) then
          return -1
        else if ¬ (← getBuffers .reader) then
          return -1
        else
          return 0
      else if ¬ (← getBuffers .writer) then
        return -1
      else if ¬ (← getBuffers .reader) then
        return -1
      else
        return 0

/-! ## `litepcie_dma_process` -/

/-- Set and get one direction, if it is used: `litepcie_dma_writer` or `litepcie_dma_reader`. -/
def dmaCounts (d : Dir) : CtrlProc n Unit := do
  if ((← Proc.get).dir d).use = 0 then
    return ()
  else
    let (hwCount, swCount) ← sysc (match d with
      | .writer => litepcieDmaWriter 1
      | .reader => litepcieDmaReader 1)
    Proc.modify (.modDir d fun c => { c with hwCount, swCount })

/-- The buffers between the counts. -/
def batch (d : Dir) (c : CtrlDir) : Int :=
  match d with
  | .writer => c.hwCount - c.swCount
  | .reader => (dmaBufferCount / 2 : Nat) - (c.swCount - c.hwCount)

/-- Count the available buffers. -/
def countAvailable (d : Dir) (c : CtrlDir) : CtrlDir :=
  { c with
    buffersAvailable := BitVec.ofInt 32 (batch d c)
    usrBufOffset := BitVec.ofInt 32 (c.swCount.tmod dmaBufferCount) }

/-- The read event for the writer, the write event for the reader. -/
def dmaEvent (d : Dir) : CtrlProc n Unit := do
  let x ← Proc.get
  if ¬ x.revents.get d then
    Proc.modify (.modDir d fun c => { c with buffersAvailable := 0 })
  else if x.zeroCopy ≠ 0 then
    Proc.modify (.modDir d (countAvailable d))
    -- update dma sw_count
    let c := (← Proc.get).dir d
    let swCount := c.swCount + c.buffersAvailable.toNat
    Proc.modify fun x => { x with mmapDmaUpdate := swCount }
    let _ ← sysc (match d with
      | .writer => do let _ ← checkedIoctl (.mmapDmaWriterUpdate swCount)
      | .reader => do let _ ← checkedIoctl (.mmapDmaReaderUpdate swCount))
  else
    let len ← transfer d dmaBufferTotalSize
    if len < 0 then
      Proc.halt .abort
    else
      Proc.modify (.modDir d fun c =>
        { c with buffersAvailable := BitVec.ofInt 32 (len / dmaBufferSize), usrBufOffset := 0 })

/-- `litepcie_dma_process`. -/
def litepcieDmaProcess : CtrlProc n Unit := do
  -- set / get dma
  dmaCounts .writer
  dmaCounts .reader
  -- polling
  let (ret, revents) ← pollEvents (← Proc.get).events 100
  Proc.modify fun x => { x with revents := revents.getD x.revents }
  -- `poll < 0` compares the address of the function: an error goes on like an event
  if ret = 0 then
    return ()
  else
    dmaEvent .writer
    dmaEvent .reader

/-! ## The next buffers -/

/-- `litepcie_dma_next_read_buffer` for the writer, `litepcie_dma_next_write_buffer` for the reader;
`none` is `NULL`. -/
def nextBuffer (d : Dir) (x : LitepcieDmaCtrl) : Option Ptr × LitepcieDmaCtrl :=
  let c := x.dir d
  if c.buffersAvailable = 0 then (none, x)
  else
    (some (c.buf.add (c.usrBufOffset * BitVec.ofNat 32 dmaBufferSize).toNat),
      x.modDir d fun c =>
        { c with
          buffersAvailable := c.buffersAvailable - 1
          usrBufOffset := (c.usrBufOffset + 1) % BitVec.ofNat 32 dmaBufferCount })

def litepcieDmaNextReadBuffer : LitepcieDmaCtrl → Option Ptr × LitepcieDmaCtrl := nextBuffer .writer

def litepcieDmaNextWriteBuffer : LitepcieDmaCtrl → Option Ptr × LitepcieDmaCtrl := nextBuffer .reader

/-! ## The world -/

/-- `litepcie_read` or `litepcie_write` without interrupts in it. -/
def runTransfer {α : Type} : ChanProg α → LitepcieDmaChan → Option (α × LitepcieDmaChan)
  | .ret a, c => some (a, c)
  | .call (.waitEvent d cond) f, c =>
    if cond (c.dir d).hwCount (c.dir d).swCount then runTransfer (f (0 : Int)) c else none
  | .call (.hwCount d) f, c => runTransfer (f (c.dir d).hwCount) c
  | .call (.swCount d) f, c => runTransfer (f (c.dir d).swCount) c
  | .call (.setSwCount d v) f, c => runTransfer (f ()) (c.modDir d fun e => e.setSwCount v)
  | .call (.copyToUser _ _) f, c => runTransfer (f (0 : Nat)) c
  | .call (.copyFromUser _ _) f, c => runTransfer (f (0 : Nat)) c
  | .call (.enter _) f, c => runTransfer (f ()) c
  | .call (.countLost _ _) f, c => runTransfer (f ()) c
  | .call (.devErr _ _) f, c => runTransfer (f ()) c

/-- The events that are ready. -/
def readyEvents (events : Events) (c : LitepcieDmaChan) : Events :=
  ⟨events.pollin && pollReady .writer c, events.pollout && pollReady .reader c⟩

/-- A call on the file descriptor `fd`, which `open` returns for channel `i`. -/
def ctrlCall (i : Fin n) (fd : Nat) : (q : CtrlCall n) → Choice → Driver n → Option (q.Ans × Driver n)
  | .sysc q, o, k => kernelCall fd q o k
  | .openDev, o, k =>
    match o with
    | .error => some ((-1 : Int), k)
    | _ => if (k.files fd).isNone then some ((fd : Int), k.litepcieOpen fd i) else none
  | .calloc, o, k =>
    match o with
    | .error => some (false, k)
    | _ => some (true, k)
  | .poll events timeoutMs, o, k =>
    match k.files fd with
    -- `POLLNVAL`
    | none => some (((1 : Int), some ⟨false, false⟩), k)
    | some p =>
      let ready := readyEvents events (k.dev.chan p.chan)
      match o with
      | .ready => if ready.pollin || ready.pollout then some (((1 : Int), some ready), k) else none
      | .timeout =>
        if (ready.pollin || ready.pollout) ∨ timeoutMs < 0 then none
        else some (((0 : Int), some ⟨false, false⟩), k)
      | _ => some (((-1 : Int), none), k)
  | .transfer d size, _, k =>
    match k.files fd with
    | none => some (-eBadf, k)
    | some p =>
      (runTransfer (match d with
        | .writer => litepcieRead false 0 size
        | .reader => litepcieWrite false 0 size) (k.dev.chan p.chan)).map fun r =>
        (r.1, { k with dev := { k.dev with chan := Function.update k.dev.chan p.chan r.2 } })

/-- The driver with one process; interrupts raise the hardware counts between its calls. -/
def ctrlWorld (i : Fin n) (fd : Nat) :
    World (CtrlCall n) CtrlCall.Ans (Driver n) (Irq n) Choice where
  env e k := some { k with dev := e.raise k.dev }
  call := ctrlCall i fd

end User
end Xtrx
