import Mathlib.Data.Finset.Insert
import Xtrx.Kernel.Device

/-!
# The file operations of the driver (`litepcie-kernel-module/main.c`)

`Driver` is the device with its open file handles (`struct litepcie_chan_priv`, by number) and the
DMA memory. The file operations are functions on it:

* **DMA memory** (`DmaHeap`): the live allocations. `litepcieDmaInitCpu` allocates the buffers of
  all channels and stops at the first failure, `litepcieDmaDeinitCpu` frees them. What each
  allocation returns is an argument (`AllocOutcome`).
* **`open`, `release`, `poll`**: `litepcieOpen`, `litepcieRelease`, `litepciePoll`.
* **`ioctl`**: `litepcieIoctl` dispatches on the command (`Ioctl`), whose answer (`Ioctl.Resp`) is
  what the driver writes back into the caller's structure. `Fault` says if the copy from or to the
  caller's memory faults. The flash and ICAP commands are not part of this file.

`Driver.log` records what is freed and which buffers are copied, each with a flag that says if the
memory was live: it is a record for the proofs, no operation reads it.
-/

namespace Xtrx
namespace Kernel

/-! ## Error numbers -/

def eAgain : Int := 11
def eNoMem : Int := 12
def eFault : Int := 14
def eRestartSys : Int := 512

/-! ## DMA memory -/

/-- The DMA allocations: `next` is the number of the next one. -/
structure DmaHeap where
  next : Nat
  live : Finset Nat

namespace DmaHeap

/-- `addr` is an allocation that is live. -/
def isLive (h : DmaHeap) (addr : Option Nat) : Bool := addr.any (· ∈ h.live)

def alloc (h : DmaHeap) : DmaHeap := { next := h.next + 1, live := insert h.next h.live }

/-- `dma_free_coherent`: `NULL` is ignored. -/
def free (h : DmaHeap) (addr : Option Nat) : DmaHeap :=
  match addr with
  | none => h
  | some a => { h with live := h.live.erase a }

@[simp] theorem isLive_none (h : DmaHeap) : h.isLive none = false := rfl

@[simp] theorem isLive_some (h : DmaHeap) (a : Nat) : h.isLive (some a) = decide (a ∈ h.live) := rfl

end DmaHeap

/-- A use of DMA memory: a buffer address that `litepcie_dma_deinit_cpu` frees, or a copy from or
to a buffer of a direction; `live` says if the address (all buffers of the direction) was live. -/
inductive Use (n : Nat) where
  | free (addr : Option Nat) (live : Bool)
  | copy (i : Fin n) (d : Dir) (live : Bool)

/-- The use is of live memory; to free `NULL` is no use. -/
def Use.ok {n : Nat} : Use n → Bool
  | .free addr l => addr.isNone || l
  | .copy _ _ l => l

@[simp] theorem Use.ok_copy {n : Nat} (i : Fin n) (d : Dir) (l : Bool) : (Use.copy i d l).ok = l := rfl

/-! ## State -/

/-- `struct litepcie_chan_priv`. -/
structure ChanPriv (n : Nat) where
  chan : Fin n
  reader : Bool
  writer : Bool
  deriving DecidableEq

namespace ChanPriv

variable {n : Nat}

/-- The ownership flag of direction `d`. -/
def owns (p : ChanPriv n) : Dir → Bool
  | .reader => p.reader
  | .writer => p.writer

def setOwns (p : ChanPriv n) (d : Dir) (b : Bool) : ChanPriv n :=
  match d with
  | .reader => { p with reader := b }
  | .writer => { p with writer := b }

@[simp] theorem chan_setOwns (p : ChanPriv n) (d : Dir) (b : Bool) : (p.setOwns d b).chan = p.chan := by
  cases d <;> rfl

@[simp] theorem setOwns_setOwns (p : ChanPriv n) (d : Dir) (b b' : Bool) :
    (p.setOwns d b).setOwns d b' = p.setOwns d b' := by
  cases d <;> rfl

@[simp] theorem setOwns_self (p : ChanPriv n) (d : Dir) : p.setOwns d (p.owns d) = p := by
  cases d <;> rfl

end ChanPriv

/-- The driver: the device, the DMA memory, the open file handles, the record of uses. -/
structure Driver (n : Nat) where
  dev : LitepcieDevice n
  heap : DmaHeap
  files : Nat → Option (ChanPriv n)
  log : List (Use n)

namespace DmaDir

def setAddr (c : DmaDir) (j : Fin dmaBufferCount) (a : Option Nat) : DmaDir :=
  { c with addr := Function.update c.addr j a }

def setHandle (c : DmaDir) (j : Fin dmaBufferCount) (h : BitVec 64) : DmaDir :=
  { c with handle := Function.update c.handle j h }

def setEnable (c : DmaDir) (e : UInt8) : DmaDir := { c with enable := e }

def setLock (c : DmaDir) (b : Bool) : DmaDir := { c with lock := b }

def setSwCount (c : DmaDir) (v : Int) : DmaDir := { c with swCount := v }

@[simp] theorem setLock_setLock (c : DmaDir) (b b' : Bool) : (c.setLock b).setLock b' = c.setLock b' :=
  rfl

/-- A direction after its owner's handle is closed. -/
def released (c : DmaDir) : DmaDir := (c.clearCounters.setLock false).setEnable 0

end DmaDir

namespace Driver

variable {n : Nat}

/-- The driver after `litepcie_pci_probe`. -/
def probed (bar0 : Nat → BitVec 32) : Driver n where
  dev := LitepcieDevice.probed bar0
  heap := { next := 0, live := ∅ }
  files := fun _ => none
  log := []

def setFile (k : Driver n) (h : Nat) (p : Option (ChanPriv n)) : Driver n :=
  { k with files := Function.update k.files h p }

/-- All buffers of direction `d` of channel `i` are live allocations. -/
def buffersLive (k : Driver n) (i : Fin n) (d : Dir) : Bool :=
  decide (∀ j, k.heap.isLive ((k.dev.dir i d).addr j))

/-! ## Buffers -/

/-- The channels and buffers in the order of the nested loops of `litepcie_dma_init_cpu`. -/
def buffers (n : Nat) : List (Fin n × Fin dmaBufferCount) :=
  (List.finRange n).flatMap fun i => (List.finRange dmaBufferCount).map fun j => (i, j)

/-- What each allocation returns: a bus address, or `NULL`. -/
abbrev AllocOutcome (n : Nat) := Fin n → Fin dmaBufferCount → Dir → Option (BitVec 64)

/-- `dmachan->reader_addr[j] = dmam_alloc_coherent(…, &dmachan->reader_handle[j], …)`, or the same
for the writer. -/
def dmamAllocCoherent (d : Dir) (i : Fin n) (j : Fin dmaBufferCount) (r : Option (BitVec 64))
    (k : Driver n) : Driver n :=
  match r with
  | none => { k with dev := k.dev.modDir i d fun c => c.setAddr j none }
  | some h =>
    { k with
      dev := k.dev.modDir i d fun c => (c.setAddr j (some k.heap.next)).setHandle j h
      heap := k.heap.alloc }

/-- The loops of `litepcie_dma_init_cpu` over the buffers `bs`. -/
def initLoop (out : AllocOutcome n) : List (Fin n × Fin dmaBufferCount) → Driver n → Int × Driver n
  | [], k => (0, k)
  | (i, j) :: bs, k =>
    let k := dmamAllocCoherent .reader i j (out i j .reader) k
    let k := dmamAllocCoherent .writer i j (out i j .writer) k
    if ((k.dev.dir i .writer).addr j).isNone || ((k.dev.dir i .reader).addr j).isNone then
      (-eNoMem, k)
    else
      initLoop out bs k

/-- `litepcie_dma_init_cpu`. -/
def litepcieDmaInitCpu (out : AllocOutcome n) (k : Driver n) : Int × Driver n :=
  initLoop out (buffers n) k

/-- `dma_free_coherent(…, dmachan->reader_addr[j], …)`, or the same for the writer. -/
def dmaFreeCoherent (d : Dir) (i : Fin n) (j : Fin dmaBufferCount) (k : Driver n) : Driver n :=
  let addr := (k.dev.dir i d).addr j
  { k with heap := k.heap.free addr, log := k.log ++ [.free addr (k.heap.isLive addr)] }

/-- `litepcie_dma_deinit_cpu`. -/
def litepcieDmaDeinitCpu (k : Driver n) : Driver n :=
  (buffers n).foldl (fun k b => dmaFreeCoherent .writer b.1 b.2 (dmaFreeCoherent .reader b.1 b.2 k)) k

/-! ## Open, release, poll -/

/-- `litepcie_open`: the counters of a direction are cleared only if it is disabled. -/
def litepcieOpen (h : Nat) (i : Fin n) (k : Driver n) : Driver n :=
  let clear (d : Dir) (s : LitepcieDevice n) : LitepcieDevice n :=
    if (s.dir i d).enable = 0 then s.modDir i d DmaDir.clearCounters else s
  { k with dev := clear .writer (clear .reader k.dev) }.setFile h
    (some { chan := i, reader := false, writer := false })

/-- The part of `litepcie_release` for one direction. -/
def releaseDir (d : Dir) (p : ChanPriv n) (s : LitepcieDevice n) : LitepcieDevice n :=
  if p.owns d then
    -- disable interrupt
    let s := s.litepcieDisableInterrupt (s.dir p.chan d).interrupt
    -- disable DMA
    let s := LitepcieDevice.dmaStop d s p.chan
    let s := s.modDir p.chan d fun c => c.setLock false
    s.modDir p.chan d fun c => c.setEnable 0
  else
    s

/-- `litepcie_release` of the handle `h` with the private data `p`. -/
def litepcieRelease (h : Nat) (p : ChanPriv n) (k : Driver n) : Driver n :=
  let k := { k with dev := releaseDir .writer p (releaseDir .reader p k.dev) }
  -- free DMA sources
  (litepcieDmaDeinitCpu k).setFile h none

/-- `litepcie_poll`: `POLLIN | POLLRDNORM` and `POLLOUT | POLLWRNORM`. -/
def litepciePoll (c : LitepcieDmaChan) : Bool × Bool :=
  (decide (c.writer.hwCount - c.writer.swCount > 2),
    decide (c.reader.swCount - c.reader.hwCount < (dmaBufferCount / 2 : Nat)))

/-! ## Ioctl -/

/-- The request fields of `struct litepcie_ioctl_lock`. -/
structure LockRequest where
  dmaReaderRequest : Bool
  dmaWriterRequest : Bool
  dmaReaderRelease : Bool
  dmaWriterRelease : Bool
  deriving DecidableEq

namespace LockRequest

def request (m : LockRequest) : Dir → Bool
  | .reader => m.dmaReaderRequest
  | .writer => m.dmaWriterRequest

def release (m : LockRequest) : Dir → Bool
  | .reader => m.dmaReaderRelease
  | .writer => m.dmaWriterRelease

end LockRequest

/-- `struct litepcie_ioctl_mmap_dma_info`. -/
structure MmapDmaInfo where
  dmaTxBufOffset : Nat
  dmaTxBufSize : Nat
  dmaTxBufCount : Nat
  dmaRxBufOffset : Nat
  dmaRxBufSize : Nat
  dmaRxBufCount : Nat
  deriving DecidableEq

/-- The buffer layout that `LITEPCIE_IOCTL_MMAP_DMA_INFO` reports. -/
def mmapDmaInfo : MmapDmaInfo where
  dmaTxBufOffset := 0
  dmaTxBufSize := dmaBufferSize
  dmaTxBufCount := dmaBufferCount
  dmaRxBufOffset := dmaBufferTotalSize
  dmaRxBufSize := dmaBufferSize
  dmaRxBufCount := dmaBufferCount

/-- The ioctl commands, with the structure that the caller passes. -/
inductive Ioctl (n : Nat) where
  /-- `LITEPCIE_IOCTL_REG`. -/
  | reg (isWrite : Bool) (addr : Nat) (val : BitVec 32)
  /-- `LITEPCIE_IOCTL_DMA_INIT`. -/
  | dmaInit (out : AllocOutcome n)
  /-- `LITEPCIE_IOCTL_DMA`. -/
  | dma (loopbackEnable : UInt8)
  /-- `LITEPCIE_IOCTL_DMA_WRITER`. -/
  | dmaWriter (enable : UInt8)
  /-- `LITEPCIE_IOCTL_DMA_READER`. -/
  | dmaReader (enable : UInt8)
  /-- `LITEPCIE_IOCTL_MMAP_DMA_INFO`. -/
  | mmapDmaInfo
  /-- `LITEPCIE_IOCTL_MMAP_DMA_WRITER_UPDATE`. -/
  | mmapDmaWriterUpdate (swCount : Int)
  /-- `LITEPCIE_IOCTL_MMAP_DMA_READER_UPDATE`. -/
  | mmapDmaReaderUpdate (swCount : Int)
  /-- `LITEPCIE_IOCTL_LOCK`. -/
  | lock (m : LockRequest)

/-- What the driver writes back: the register value; the hardware and the software count; the
buffer layout; the reader's and the writer's lock status. -/
def Ioctl.Resp : Ioctl n → Type
  | .reg .. => BitVec 32
  | .dmaWriter _ | .dmaReader _ => Int × Int
  | .mmapDmaInfo => MmapDmaInfo
  | .lock _ => Bool × Bool
  | _ => Unit

/-- The copy of the caller's structure: both directions succeed, or one of them faults. -/
inductive Fault where
  | none
  | fromUser
  | toUser
  deriving DecidableEq

/-- `LITEPCIE_IOCTL_DMA_WRITER` and `LITEPCIE_IOCTL_DMA_READER`: the engine is started or stopped if
the enable value changes; the answer is the two counters. -/
def ioctlDma (d : Dir) (i : Fin n) (enable : UInt8) (s : LitepcieDevice n) :
    (Int × Int) × LitepcieDevice n :=
  let s :=
    if enable ≠ (s.dir i d).enable then
      if enable ≠ 0 then
        let s := LitepcieDevice.dmaStart d s i
        s.litepcieEnableInterrupt (s.dir i d).interrupt
      else
        let s := s.litepcieDisableInterrupt (s.dir i d).interrupt
        LitepcieDevice.dmaStop d s i
    else s
  let s := s.modDir i d fun c => c.setEnable enable
  (((s.dir i d).hwCount, (s.dir i d).swCount), s)

/-- The part of `LITEPCIE_IOCTL_LOCK` for one direction: the status, the private data, the
device. -/
def ioctlLockDir (d : Dir) (m : LockRequest) (p : ChanPriv n) (s : LitepcieDevice n) :
    Bool × ChanPriv n × LitepcieDevice n :=
  let (status, p, s) :=
    if m.request d then
      if (s.dir p.chan d).lock then (false, p, s)
      else (true, p.setOwns d true, s.modDir p.chan d fun c => c.setLock true)
    else (true, p, s)
  if m.release d then
    (status, p.setOwns d false, s.modDir p.chan d fun c => c.setLock false)
  else (status, p, s)

/-- `LITEPCIE_IOCTL_LOCK` of the handle `h` with the private data `p`. -/
def ioctlLock (m : LockRequest) (h : Nat) (p : ChanPriv n) (k : Driver n) :
    (Bool × Bool) × Driver n :=
  let (readerStatus, p, s) := ioctlLockDir .reader m p k.dev
  let (writerStatus, p, s) := ioctlLockDir .writer m p s
  ((readerStatus, writerStatus), { k with dev := s }.setFile h (some p))

/-- The commands of `litepcie_ioctl` after the copy from the caller: the return value, the answer,
the driver. -/
def ioctlBody (h : Nat) (p : ChanPriv n) (k : Driver n) : (c : Ioctl n) → Int × c.Resp × Driver n
  | .reg isWrite addr val =>
    if isWrite then (0, val, { k with dev := k.dev.litepcieWritel addr val })
    else (0, k.dev.litepcieReadl addr, k)
  | .dmaInit out =>
    let (ret, k) := litepcieDmaInitCpu out k
    (ret, (), k)
  | .dma loopbackEnable =>
    let addr := (k.dev.chan p.chan).base + pcieDmaLoopbackEnableOffset
    (0, (), { k with dev := k.dev.litepcieWritel addr (BitVec.ofNat 32 loopbackEnable.toNat) })
  | .dmaWriter enable =>
    let (counts, s) := ioctlDma .writer p.chan enable k.dev
    (0, counts, { k with dev := s })
  | .dmaReader enable =>
    let (counts, s) := ioctlDma .reader p.chan enable k.dev
    (0, counts, { k with dev := s })
  | .mmapDmaInfo => (0, Driver.mmapDmaInfo, k)
  | .mmapDmaWriterUpdate swCount =>
    (0, (), { k with dev := k.dev.modDir p.chan .writer fun c => c.setSwCount swCount })
  | .mmapDmaReaderUpdate swCount =>
    (0, (), { k with dev := k.dev.modDir p.chan .reader fun c => c.setSwCount swCount })
  | .lock m =>
    let (status, k) := ioctlLock m h p k
    (0, status, k)

/-- The commands that copy the caller's structure in. -/
def Ioctl.copiesIn : Ioctl n → Bool
  | .mmapDmaInfo => false
  | _ => true

/-- The commands that copy the structure back out. -/
def Ioctl.copiesOut : Ioctl n → Bool
  | .reg .. | .dmaWriter _ | .dmaReader _ | .mmapDmaInfo | .lock _ => true
  | _ => false

/-- `litepcie_ioctl`: a copy that faults gives `-EFAULT`, before the command or after it. -/
def litepcieIoctl (h : Nat) (p : ChanPriv n) (c : Ioctl n) (f : Fault) (k : Driver n) :
    Int × Option c.Resp × Driver n :=
  if f = .fromUser ∧ c.copiesIn then
    (-eFault, none, k)
  else
    let (ret, resp, k) := ioctlBody h p k c
    if f = .toUser ∧ c.copiesOut then (-eFault, none, k) else (ret, some resp, k)

/-- The driver after an ioctl: a copy that faults on the way back leaves the changes. -/
theorem driver_litepcieIoctl (h : Nat) (p : ChanPriv n) (c : Ioctl n) (f : Fault) (k : Driver n) :
    (litepcieIoctl h p c f k).2.2 =
      if f = .fromUser ∧ c.copiesIn then k else (ioctlBody h p k c).2.2 := by
  unfold litepcieIoctl
  split
  · rfl
  · dsimp only
    split <;> rfl

/-! ## What the operations change

One lemma for each operation says what it does to a direction of a channel (`dir_…`) or to the
handles (`files_…`); the proofs about runs use these and unfold no operation. -/

@[simp] theorem dev_setFile (k : Driver n) (h : Nat) (p : Option (ChanPriv n)) :
    (k.setFile h p).dev = k.dev := rfl

theorem files_setFile (k : Driver n) (h g : Nat) (p : Option (ChanPriv n)) :
    (k.setFile h p).files g = if g = h then p else k.files g := by
  simp [setFile, Function.update_apply]

theorem dir_litepcieOpen (h : Nat) (i j : Fin n) (e : Dir) (k : Driver n) :
    (litepcieOpen h i k).dev.dir j e =
      if j = i ∧ (k.dev.dir i e).enable = 0 then (k.dev.dir j e).clearCounters
      else k.dev.dir j e := by
  by_cases hj : j = i
  · subst hj
    by_cases hr : (k.dev.dir j .reader).enable = 0 <;>
      by_cases hw : (k.dev.dir j .writer).enable = 0 <;>
      cases e <;> simp [litepcieOpen, LitepcieDevice.dir_modDir, hr, hw]
  · have hne : ∀ d : Dir, ¬ (j = i ∧ e = d) := fun d h => hj h.1
    simp only [litepcieOpen, dev_setFile, hj, false_and, if_false]
    split <;> split <;> simp [LitepcieDevice.dir_modDir_ne, hj]

theorem dir_releaseDir (d e : Dir) (p : ChanPriv n) (s : LitepcieDevice n) (j : Fin n) :
    (releaseDir d p s).dir j e =
      if p.owns d ∧ j = p.chan ∧ e = d then (s.dir j e).released else s.dir j e := by
  by_cases ho : p.owns d
  · by_cases hj : j = p.chan ∧ e = d
    · obtain ⟨rfl, rfl⟩ := hj
      simp [releaseDir, ho, LitepcieDevice.dir_dmaStop, DmaDir.released]
    · rw [if_neg fun h => hj h.2]
      simp only [releaseDir, ho, if_true]
      rw [LitepcieDevice.dir_modDir_ne hj, LitepcieDevice.dir_modDir_ne hj,
        LitepcieDevice.dir_dmaStop, if_neg hj, LitepcieDevice.dir_disableInterrupt]
  · simp [releaseDir, ho]

/-- The release of a direction writes the interrupt enable register and the direction's own. -/
theorem readl_releaseDir {d : Dir} {p : ChanPriv n} {s : LitepcieDevice n} {a : Nat}
    (hmsi : a ≠ csrPcieMsiEnableAddr)
    (ha : p.owns d = true → a < (s.chan p.chan).base + d.enableOffset ∨
      (s.chan p.chan).base + d.enableOffset + 0x20 ≤ a) :
    (releaseDir d p s).litepcieReadl a = s.litepcieReadl a := by
  unfold releaseDir
  split
  · rename_i ho
    rw [LitepcieDevice.readl_modDir, LitepcieDevice.readl_modDir,
      LitepcieDevice.readl_dmaStop_ne (by rw [LitepcieDevice.chan_disableInterrupt]; exact ha ho)]
    exact LitepcieDevice.readl_writel_ne hmsi
  · rfl

/-- `litepcie_dma_deinit_cpu` leaves the device and the handles as they are: the freed addresses
stay in the channels. -/
theorem litepcieDmaDeinitCpu_frame (k : Driver n) :
    (litepcieDmaDeinitCpu k).dev = k.dev ∧ (litepcieDmaDeinitCpu k).files = k.files := by
  unfold litepcieDmaDeinitCpu
  induction buffers n generalizing k with
  | nil => exact ⟨rfl, rfl⟩
  | cons b bs ih => exact ih _

theorem dir_litepcieRelease (h : Nat) (p : ChanPriv n) (k : Driver n) (j : Fin n) (e : Dir) :
    (litepcieRelease h p k).dev.dir j e =
      if p.owns e ∧ j = p.chan then (k.dev.dir j e).released else k.dev.dir j e := by
  simp only [litepcieRelease, dev_setFile, (litepcieDmaDeinitCpu_frame _).1, dir_releaseDir]
  cases e <;> simp

theorem files_litepcieRelease (h g : Nat) (p : ChanPriv n) (k : Driver n) :
    (litepcieRelease h p k).files g = if g = h then none else k.files g := by
  simp only [litepcieRelease, files_setFile, (litepcieDmaDeinitCpu_frame _).2]

theorem files_litepcieOpen (h g : Nat) (i : Fin n) (k : Driver n) :
    (litepcieOpen h i k).files g =
      if g = h then some { chan := i, reader := false, writer := false } else k.files g := by
  simp only [litepcieOpen, files_setFile]

theorem dir_ioctlDma (d e : Dir) (i j : Fin n) (enable : UInt8) (s : LitepcieDevice n) :
    (ioctlDma d i enable s).2.dir j e =
      if j = i ∧ e = d then
        (if enable ≠ (s.dir i d).enable then (s.dir i d).clearCounters
          else s.dir i d).setEnable enable
      else s.dir j e := by
  simp only [ioctlDma, LitepcieDevice.dir_modDir]
  by_cases hne : enable ≠ (s.dir i d).enable
  · rw [if_pos hne, if_pos hne]
    by_cases h0 : enable ≠ 0
    · rw [if_pos h0]
      simp only [LitepcieDevice.dir_enableInterrupt, LitepcieDevice.dir_dmaStart]
      by_cases hj : j = i ∧ e = d
      · rw [if_pos hj, if_pos hj, if_pos ⟨trivial, trivial⟩]
      · rw [if_neg hj, if_neg hj, if_neg hj]
    · rw [if_neg h0]
      simp only [LitepcieDevice.dir_dmaStop, LitepcieDevice.dir_disableInterrupt]
      by_cases hj : j = i ∧ e = d
      · rw [if_pos hj, if_pos hj, if_pos ⟨trivial, trivial⟩]
      · rw [if_neg hj, if_neg hj, if_neg hj]
  · rw [if_neg hne, if_neg hne]

/-- With the enable value that the engine has, the ioctl only reads the counts. -/
theorem ioctlDma_same {d : Dir} {i : Fin n} {enable : UInt8} {s : LitepcieDevice n}
    (h : (s.dir i d).enable = enable) :
    ioctlDma d i enable s = (((s.dir i d).hwCount, (s.dir i d).swCount), s) := by
  have hset : (s.dir i d).setEnable enable = s.dir i d := by
    subst h
    rfl
  simp only [ioctlDma]
  rw [if_neg (fun hne => hne h.symm), LitepcieDevice.modDir_id hset]

/-- The answer of the ioctl is the counts after it. -/
theorem counts_ioctlDma (d : Dir) (i : Fin n) (enable : UInt8) (s : LitepcieDevice n) :
    (ioctlDma d i enable s).1 =
      (((ioctlDma d i enable s).2.dir i d).hwCount, ((ioctlDma d i enable s).2.dir i d).swCount) := rfl

/-- The lock of a direction after `LITEPCIE_IOCTL_LOCK`, and if the handle owns it; `lock` and
`owns` are the values before. -/
def lockAfter (m : LockRequest) (d : Dir) (lock : Bool) : Bool :=
  !m.release d && (lock || m.request d)

def ownsAfter (m : LockRequest) (d : Dir) (lock owns : Bool) : Bool :=
  !m.release d && (owns || (m.request d && !lock))

/-- A request of a locked direction is refused. -/
theorem status_ioctlLockDir (d : Dir) (m : LockRequest) (p : ChanPriv n) (s : LitepcieDevice n) :
    (ioctlLockDir d m p s).1 = !(m.request d && (s.dir p.chan d).lock) := by
  unfold ioctlLockDir
  cases m.request d <;> cases m.release d <;> cases (s.dir p.chan d).lock <;> simp

theorem priv_ioctlLockDir (d : Dir) (m : LockRequest) (p : ChanPriv n) (s : LitepcieDevice n) :
    (ioctlLockDir d m p s).2.1 = p.setOwns d (ownsAfter m d (s.dir p.chan d).lock (p.owns d)) := by
  unfold ioctlLockDir ownsAfter
  cases m.request d <;> cases m.release d <;> cases (s.dir p.chan d).lock <;> simp

theorem dir_ioctlLockDir (d e : Dir) (m : LockRequest) (p : ChanPriv n) (s : LitepcieDevice n)
    (j : Fin n) :
    (ioctlLockDir d m p s).2.2.dir j e =
      if j = p.chan ∧ e = d then (s.dir j e).setLock (lockAfter m d (s.dir p.chan d).lock)
      else s.dir j e := by
  by_cases hj : j = p.chan ∧ e = d
  · rw [if_pos hj, hj.1, hj.2]
    have hself : (s.dir p.chan d).setLock (s.dir p.chan d).lock = s.dir p.chan d := rfl
    unfold ioctlLockDir lockAfter
    cases hl : (s.dir p.chan d).lock <;> rw [hl] at hself <;>
      cases m.request d <;> cases m.release d <;> simp [hself]
  · rw [if_neg hj]
    unfold ioctlLockDir
    cases m.request d <;> cases m.release d <;> cases (s.dir p.chan d).lock <;>
      simp [LitepcieDevice.dir_modDir_ne hj]

theorem dir_ioctlLock (m : LockRequest) (h : Nat) (p : ChanPriv n) (k : Driver n) (j : Fin n)
    (e : Dir) :
    (ioctlLock m h p k).2.dev.dir j e =
      if j = p.chan then (k.dev.dir j e).setLock (lockAfter m e (k.dev.dir j e).lock)
      else k.dev.dir j e := by
  simp only [ioctlLock, dev_setFile, dir_ioctlLockDir, priv_ioctlLockDir, ChanPriv.chan_setOwns]
  by_cases hj : j = p.chan
  · subst hj
    cases e <;> simp
  · simp [hj]

theorem files_ioctlLock (m : LockRequest) (h g : Nat) (p : ChanPriv n) (k : Driver n) :
    (ioctlLock m h p k).2.files g =
      if g = h then
        some { chan := p.chan
               reader := ownsAfter m .reader (k.dev.dir p.chan .reader).lock p.reader
               writer := ownsAfter m .writer (k.dev.dir p.chan .writer).lock p.writer }
      else k.files g := by
  simp only [ioctlLock, files_setFile, priv_ioctlLockDir, dir_ioctlLockDir, ChanPriv.chan_setOwns]
  simp [ChanPriv.setOwns, ChanPriv.owns]

/-- What every update of a hardware count and every register write keeps, an interrupt keeps. -/
theorem litepcieInterrupt_keeps {γ : Type} {f : LitepcieDevice n → γ}
    (hmod : ∀ s i d v, f (s.modDir i d fun c => c.setHwCount v) = f s)
    (hwrite : ∀ s a v, f (s.litepcieWritel a v) = f s) (s : LitepcieDevice n) :
    f s.litepcieInterrupt = f s := by
  have hdir : ∀ irqVector d i (x : LitepcieDevice n × BitVec 32),
      f (LitepcieDevice.interruptDir irqVector d i x).1 = f x.1 := by
    intro irqVector d i x
    unfold LitepcieDevice.interruptDir
    dsimp only
    split
    · exact hmod _ _ _ _
    · rfl
  have hfold : ∀ irqVector (is : List (Fin n)) (x : LitepcieDevice n × BitVec 32),
      f (is.foldl (fun x i => LitepcieDevice.interruptDir irqVector .writer i
        (LitepcieDevice.interruptDir irqVector .reader i x)) x).1 = f x.1 := by
    intro irqVector is
    induction is with
    | nil => exact fun x => rfl
    | cons i is ih =>
      intro x
      rw [List.foldl_cons, ih, hdir, hdir]
  unfold LitepcieDevice.litepcieInterrupt
  rw [hwrite]
  exact hfold _ _ (s, 0#32)

theorem base_releaseDir (d : Dir) (p : ChanPriv n) (s : LitepcieDevice n) (j : Fin n) :
    ((releaseDir d p s).chan j).base = (s.chan j).base := by
  unfold releaseDir
  split
  · simp [LitepcieDevice.base_dmaStop]
  · rfl

theorem base_ioctlDma (d : Dir) (i j : Fin n) (enable : UInt8) (s : LitepcieDevice n) :
    ((ioctlDma d i enable s).2.chan j).base = (s.chan j).base := by
  simp only [ioctlDma, LitepcieDevice.base_modDir]
  split
  · split
    · simp [LitepcieDevice.base_dmaStart]
    · simp [LitepcieDevice.base_dmaStop]
  · rfl

theorem base_ioctlLockDir (d : Dir) (m : LockRequest) (p : ChanPriv n) (s : LitepcieDevice n)
    (j : Fin n) : ((ioctlLockDir d m p s).2.2.chan j).base = (s.chan j).base := by
  unfold ioctlLockDir
  cases m.request d <;> cases m.release d <;> cases (s.dir p.chan d).lock <;> simp

theorem base_litepcieOpen (h : Nat) (i j : Fin n) (k : Driver n) :
    ((litepcieOpen h i k).dev.chan j).base = (k.dev.chan j).base := by
  simp only [litepcieOpen, dev_setFile]
  split <;> split <;> simp

theorem base_litepcieRelease (h : Nat) (p : ChanPriv n) (k : Driver n) (j : Fin n) :
    ((litepcieRelease h p k).dev.chan j).base = (k.dev.chan j).base := by
  simp only [litepcieRelease, dev_setFile, (litepcieDmaDeinitCpu_frame _).1, base_releaseDir]

/-- What every allocation keeps, `litepcie_dma_init_cpu` keeps. -/
theorem initLoop_keeps {γ : Type} {f : Driver n → γ}
    (h : ∀ d i b r k, f (dmamAllocCoherent d i b r k) = f k) (out : AllocOutcome n)
    (bs : List (Fin n × Fin dmaBufferCount)) (k : Driver n) : f (initLoop out bs k).2 = f k := by
  induction bs generalizing k with
  | nil => rfl
  | cons b bs ih =>
    unfold initLoop
    dsimp only
    split
    · rw [h, h]
    · rw [ih, h, h]

end Driver
end Kernel
end Xtrx
