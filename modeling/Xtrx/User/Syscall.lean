import Xtrx.Lib.Proc
import Xtrx.Kernel.Driver

/-!
# The user library over the driver (`litepcie-user-library/liblitepcie`)

A process that has the device open makes system calls on its file descriptor (`Sysc`). `kernelCall`
says what the driver does for each of them, and `kernelWorld` makes a world of it: between two
calls, interrupts raise the hardware counts (`Irq`).

- **`poll`** returns when `litepcie_poll` reports the direction ready, when the time is over and it
  is not ready, or with an error (`Choice`). A negative timeout waits without end.
- **`load`** reads the mapped buffers of a direction; any contents are possible.
- **The library** (`Lib`): processes with the state `S` of their caller, which end abnormally by an
  exception, `abort`, or a failed assertion (`Halt`). The functions of `litepcie_dma.c` follow.
-/

namespace Xtrx
namespace User

open Conc Kernel

variable {n : Nat}

/-- A mark that a client sets before and after a call of its library (`Sysc.note`). -/
inductive Mark where
  | enter
  /-- The call returned `ret`, with the handle `handle` if it assigned one. -/
  | left (ret : Int) (handle : Option Int)
  deriving DecidableEq

/-- The system calls on the device's file descriptor. `note` is no system call: it lets a client
mark a point of its run. -/
inductive Sysc (n : Nat) where
  | ioctl (c : Driver.Ioctl n)
  | poll (d : Dir) (timeoutMs : Int)
  | mmap (d : Dir)
  | munmap (d : Dir)
  | load (d : Dir)
  | note (m : Mark)

/-- The answers: the return value and the structure of an ioctl; the return value of `poll`; if
`mmap` succeeded; the mapped bytes. -/
def Sysc.Ans : Sysc n → Type
  | .ioctl c => Int × Option c.Resp
  | .poll .. => Int
  | .mmap _ => Bool
  | .load _ => Nat → BitVec 8
  | _ => Unit

/-- What a system call leaves open: how `poll` ends, if `mmap` fails, the mapped bytes. -/
inductive Choice where
  | ready
  | timeout
  | error
  | bytes (m : Nat → BitVec 8)

def eBadf : Int := 9

/-- The events of a stream: `POLLIN` for the writer, `POLLOUT` for the reader. -/
def pollReady (d : Dir) (c : LitepcieDmaChan) : Bool :=
  match d with
  | .writer => (Driver.litepciePoll c).1
  | .reader => (Driver.litepciePoll c).2

/-- A system call on the file descriptor `fd`. -/
def kernelCall (fd : Nat) : (q : Sysc n) → Choice → Driver n → Option (q.Ans × Driver n)
  | .ioctl c, _, k =>
    match k.files fd with
    | none => some ((-eBadf, none), k)
    | some p =>
      let (ret, resp, k) := Driver.litepcieIoctl fd p c .none k
      some ((ret, resp), k)
  | .poll d timeoutMs, o, k =>
    match k.files fd with
    | none => some ((-1 : Int), k)
    | some p =>
      match o with
      | .ready => if pollReady d (k.dev.chan p.chan) then some ((1 : Int), k) else none
      | .timeout =>
        if pollReady d (k.dev.chan p.chan) ∨ timeoutMs < 0 then none else some ((0 : Int), k)
      | _ => some ((-1 : Int), k)
  | .mmap _, o, k =>
    match o with
    | .error => some (false, k)
    | _ => some (true, k)
  | .munmap _, _, k => some ((), k)
  | .load _, o, k =>
    match o with
    | .bytes m => some (m, k)
    | _ => none
  | .note _, _, k => some ((), k)

/-- Interrupts that raise a hardware count by `k`. -/
structure Irq (n : Nat) where
  chan : Fin n
  dir : Dir
  k : Nat

def Irq.raise (e : Irq n) (s : LitepcieDevice n) : LitepcieDevice n :=
  s.modDir e.chan e.dir fun c =>
    { c with hwCount := c.hwCount + e.k, hwCountLast := c.hwCount + e.k }

/-- An interrupt changes nothing but its hardware count. -/
theorem Irq.dir_raise (e : Irq n) (s : LitepcieDevice n) (i : Fin n) (d : Dir) :
    ((e.raise s).dir i d).hwCount =
        (s.dir i d).hwCount + (if i = e.chan ∧ d = e.dir then (e.k : Int) else 0) ∧
      ((e.raise s).dir i d).swCount = (s.dir i d).swCount ∧
      ((e.raise s).dir i d).enable = (s.dir i d).enable ∧
      ((e.raise s).dir i d).lock = (s.dir i d).lock := by
  unfold Irq.raise
  rw [LitepcieDevice.dir_modDir]
  by_cases he : i = e.chan ∧ d = e.dir
  · rw [if_pos he, if_pos he, he.1, he.2]
    exact ⟨rfl, rfl, rfl, rfl⟩
  · rw [if_neg he, if_neg he, Int.add_zero]
    exact ⟨rfl, rfl, rfl, rfl⟩

/-- The driver as the world of a process with the file descriptor `fd`. -/
def kernelWorld (n fd : Nat) : World (Sysc n) Sysc.Ans (Driver n) (Irq n) Choice where
  env e k := some { k with dev := e.raise k.dev }
  call := kernelCall fd

/-! ## The library -/

/-- How a library call ends abnormally: by a C++ exception, by `abort` after a failed ioctl, by a
failed assertion. -/
inductive Halt where
  | throw (msg : String)
  | abort
  | assertFail
  deriving DecidableEq

/-- An exception ends one call; a failed ioctl or assertion ends the client. -/
def Halt.caught : Halt → Bool
  | .throw _ => true
  | _ => false

abbrev Lib (n : Nat) (S α : Type) := Proc (Sysc n) Sysc.Ans S Halt α

variable {S : Type}

/-- `assert`. -/
def assert (p : Prop) [Decidable p] : Lib n S Unit := if p then pure () else Proc.halt .assertFail

def poll (d : Dir) (timeoutMs : Int) : Lib n S Int := Proc.sys (Sysc.poll d timeoutMs)
def mmap (d : Dir) : Lib n S Bool := Proc.sys (Sysc.mmap d)
def munmap (d : Dir) : Lib n S Unit := Proc.sys (Sysc.munmap d)
def load (d : Dir) : Lib n S (Nat → BitVec 8) := Proc.sys (Sysc.load d)
def note (m : Mark) : Lib n S Unit := Proc.sys (Sysc.note m)

/-- `checked_ioctl`: the structure that the driver wrote back. -/
def checkedIoctl (c : Driver.Ioctl n) : Lib n S (Option c.Resp) := do
  let (status, resp) ← Proc.sys (Sysc.ioctl c)
  if status ≠ 0 then
    Proc.halt .abort
  else
    return resp

theorem assert_bind {β : Type} {p : Prop} [Decidable p] (f : Unit → Lib n S β) (x : S) :
    (assert p >>= f) x = if p then f () x else .ret (.error .assertFail, x) := by
  unfold assert
  rw [Proc.ite_bind_apply]
  rfl

theorem mmap_bind {β : Type} (d : Dir) (f : Bool → Lib n S β) (x : S) :
    (mmap d >>= f) x = .call (.mmap d) fun mapped => f mapped x := rfl

theorem checkedIoctl_bind {β : Type} {c : Driver.Ioctl n} (f : Option c.Resp → Lib n S β) (x : S) :
    (checkedIoctl c >>= f) x = .call (.ioctl c) fun r =>
      if r.1 ≠ 0 then .ret (.error .abort, x) else f r.2 x := by
  unfold checkedIoctl
  rw [bind_assoc, Proc.sys_bind]
  congr 1
  funext r
  exact Proc.ite_bind_apply _ _ _ f x

/-! ### Their rules in any world -/

section

variable {σ ε ω β : Type} {W : World (Sysc n) Sysc.Ans σ ε ω} {I : σ → Prop} {G : σ → σ → Prop}
  {R : β → S → σ → Prop} {F : Halt → S → σ → Prop} {x : S} {s : σ}

theorem procWP_assert {p : Prop} [Decidable p] {f : Unit → Lib n S β}
    (h : p → W.ProcWP I G R F (f ()) x s)
    (hn : ¬ p → W.ProcWP I G R F (Proc.halt .assertFail : Lib n S β) x s) :
    W.ProcWP I G R F (assert p >>= f) x s := by
  show W.WP I G _ ((assert p >>= f) x) s
  rw [assert_bind]
  split
  · exact h ‹_›
  · exact hn ‹_›

/-- A checked ioctl is a call that aborts where the driver answers with an error. -/
theorem procWP_checkedIoctl {c : Driver.Ioctl n} {f : Option c.Resp → Lib n S β}
    (h : W.ProcWP I G R F (Proc.sys (Sysc.ioctl c) >>= fun r =>
      if r.1 ≠ 0 then Proc.halt .abort else f r.2) x s) :
    W.ProcWP I G R F (checkedIoctl c >>= f) x s := by
  have hcall : (checkedIoctl c >>= f) x = (Proc.sys (Sysc.ioctl c) >>= fun r =>
      if r.1 ≠ 0 then Proc.halt .abort else f r.2) x := by
    rw [checkedIoctl_bind, Proc.sys_bind]
    congr 1
    funext r
    split <;> rfl
  show W.WP I G _ ((checkedIoctl c >>= f) x) s
  rw [hcall]
  exact h

end

/-- The two counts of a `DMA_WRITER` or `DMA_READER` ioctl; one that succeeds has them. -/
def counts : Option (Int × Int) → Int × Int
  | some c => c
  | none => (0, 0)

/-- `litepcie_dma_writer`. -/
def litepcieDmaWriter (enable : UInt8) : Lib n S (Int × Int) := do
  return counts (← checkedIoctl (.dmaWriter enable))

/-- `litepcie_dma_reader`. -/
def litepcieDmaReader (enable : UInt8) : Lib n S (Int × Int) := do
  return counts (← checkedIoctl (.dmaReader enable))

/-- `litepcie_request_dma`: the status that it returns is the reader's. -/
def litepcieRequestDma (reader writer : Bool) : Lib n S Bool := do
  let resp ← checkedIoctl (.lock ⟨reader, writer, false, false⟩)
  match resp with
  | some (readerStatus, _) => return readerStatus
  | none => return false

/-- `litepcie_release_dma`. -/
def litepcieReleaseDma (reader writer : Bool) : Lib n S Unit := do
  let _ ← checkedIoctl (.lock ⟨false, false, reader, writer⟩)

/-! ## The calls of an open file descriptor -/

section

variable {fd : Nat} {p : ChanPriv n} {k k' : Driver n} {o : Choice}

theorem kernelCall_ioctl (hf : k.files fd = some p) (c : Driver.Ioctl n) :
    kernelCall fd (.ioctl c) o k =
      some (((Driver.litepcieIoctl fd p c .none k).1, (Driver.litepcieIoctl fd p c .none k).2.1),
        (Driver.litepcieIoctl fd p c .none k).2.2) := by
  simp only [kernelCall, hf]
  rfl

theorem litepcieIoctl_none (h : Nat) (c : Driver.Ioctl n) :
    Driver.litepcieIoctl h p c .none k =
      ((Driver.ioctlBody h p k c).1, some (Driver.ioctlBody h p k c).2.1,
        (Driver.ioctlBody h p k c).2.2) := by
  simp [Driver.litepcieIoctl]

/-- `mmap` changes nothing, and fails by choice. -/
theorem kernelCall_mmap {d : Dir} {mapped : Bool}
    (h : kernelCall fd (.mmap d) o k = some (mapped, k')) :
    k' = k ∧ mapped = (match o with | .error => false | _ => true) := by
  cases o <;> cases h <;> exact ⟨rfl, rfl⟩

/-- `poll` changes nothing, and is ready only when `litepcie_poll` says so. -/
theorem kernelCall_poll {d : Dir} {t r : Int} (hf : k.files fd = some p)
    (h : kernelCall fd (.poll d t) o k = some (r, k')) :
    k' = k ∧ (0 < r → pollReady d (k.dev.chan p.chan) = true) := by
  simp only [kernelCall, hf] at h
  cases o with
  | ready =>
    dsimp only at h
    split at h
    · rename_i hready
      cases h
      exact ⟨rfl, fun _ => hready⟩
    · cases h
  | timeout =>
    dsimp only at h
    split at h
    · cases h
    · cases h
      exact ⟨rfl, fun hr => absurd hr (by decide)⟩
  | error =>
    cases h
    exact ⟨rfl, fun hr => absurd hr (by decide)⟩
  | bytes m =>
    cases h
    exact ⟨rfl, fun hr => absurd hr (by decide)⟩

end

end User
end Xtrx
