import Xtrx.Kernel.Transfer

/-!
# The driver with its clients

The runs of one board: any number of file handles, in any order of file operations.

- **State** (`Sys`): the driver, and the `read` and `write` calls that are not over. Each is a
  program on the channel of its handle (`Call`).
- **Events** (`SysEv`): `open`, `ioctl`, the start of a `read` or `write`, the next access of one
  of these calls, `close`, an interrupt. A handle is closed when no call on it is open, as the
  kernel keeps the file until then.
- **Grain**: `read` and `write` go on access by access. `open`, `ioctl`, `close` and an interrupt are
  one event each, although the driver takes no lock in them: the runs have no two of them at the same
  time. `Xtrx.User.Clients` has the overlapping lock requests.
- **Accesses** (`chanCall`): a copy is recorded in `Driver.log` with the state of the buffers.
-/

namespace Xtrx
namespace Kernel

open Conc Driver

variable {n : Nat}

/-- An access of a call on channel `i`. The choice `o`: a wait is ended by a signal (`o ≠ 0`); the
number of bytes that a copy does not copy. -/
def chanCall (i : Fin n) : (q : ChanReq) → (o : Nat) → Driver n → Option (q.Ans × Driver n)
  | .enter _, _, k => some ((), k)
  | .waitEvent d cond, o, k =>
    let c := k.dev.dir i d
    if o ≠ 0 then some (-eRestartSys, k)
    else if cond c.hwCount c.swCount then some ((0 : Int), k) else none
  | .hwCount d, _, k => some ((k.dev.dir i d).hwCount, k)
  | .swCount d, _, k => some ((k.dev.dir i d).swCount, k)
  | .setSwCount d v, _, k => some ((), { k with dev := k.dev.modDir i d fun c => c.setSwCount v })
  | .copyToUser _ _, o, k =>
    some (o, { k with log := k.log ++ [.copy i .writer (k.buffersLive i .writer)] })
  | .copyFromUser _ _, o, k =>
    some (o, { k with log := k.log ++ [.copy i .reader (k.buffersLive i .reader)] })
  | .countLost _ _, _, k => some ((), k)
  | .devErr _ _, _, k => some ((), k)

/-- A `read` or `write` call that is not over: its handle, the channel, what is left to do. -/
structure Call (n : Nat) where
  file : Nat
  chan : Fin n
  prog : ChanProg Int

structure Sys (n : Nat) where
  drv : Driver n
  calls : List (Call n)

/-- An event of the board's runs; `access t o` is the next access of the call at position `t`. -/
inductive SysEv (n : Nat) where
  | openFile (h : Nat) (i : Fin n)
  | ioctl (h : Nat) (c : Ioctl n) (f : Fault)
  | read (h : Nat) (nonblock : Bool) (data size : Nat)
  | write (h : Nat) (nonblock : Bool) (data size : Nat)
  | access (t : Nat) (o : Nat)
  | close (h : Nat)
  | interrupt (regs : Nat → BitVec 32)

/-- The hardware sets the interrupt vector and the loop status registers. -/
def LitepcieDevice.setStatus (regs : Nat → BitVec 32) (s : LitepcieDevice n) : LitepcieDevice n :=
  { s with
    bar0 := fun a =>
      if a = csrPcieMsiVectorAddr ∨ ∃ i, a = (s.chan i).base + Dir.reader.tableLoopStatusOffset ∨
          a = (s.chan i).base + Dir.writer.tableLoopStatusOffset then regs a
      else s.bar0 a }

namespace Sys

/-- The board after `litepcie_pci_probe`. -/
def probed (bar0 : Nat → BitVec 32) : Sys n where
  drv := Driver.probed bar0
  calls := []

/-- Start a call on the handle `h`. -/
def begin (h : Nat) (prog : ChanProg Int) (s : Sys n) : Option (Sys n) :=
  (s.drv.files h).map fun p =>
    { s with calls := s.calls ++ [{ file := h, chan := p.chan, prog := prog }] }

/-- One event. -/
def step (s : Sys n) : SysEv n → Option (Sys n)
  | .openFile h i =>
    if (s.drv.files h).isNone then some { s with drv := s.drv.litepcieOpen h i } else none
  | .ioctl h c f =>
    (s.drv.files h).map fun p => { s with drv := (Driver.litepcieIoctl h p c f s.drv).2.2 }
  | .read h nonblock data size => s.begin h (litepcieRead nonblock data size)
  | .write h nonblock data size => s.begin h (litepcieWrite nonblock data size)
  | .access t o =>
    match s.calls[t]? with
    | none => none
    | some { prog := .ret _, .. } => some { s with calls := s.calls.eraseIdx t }
    | some { file := h, chan := i, prog := .call q k } =>
      (chanCall i q o s.drv).map fun r =>
        { drv := r.2, calls := s.calls.set t { file := h, chan := i, prog := k r.1 } }
  | .close h =>
    if s.calls.all fun c => c.file ≠ h then
      (s.drv.files h).map fun p => { s with drv := s.drv.litepcieRelease h p }
    else none
  | .interrupt regs =>
    some { s with drv := { s.drv with dev := (s.drv.dev.setStatus regs).litepcieInterrupt } }

/-- The runs of the board. -/
def machine (n : Nat) : Machine (Sys n) (SysEv n) := ⟨step⟩

/-- What an event does to the driver. -/
def DrvStep (s : Sys n) (k : Driver n) : SysEv n → Prop
  | .openFile h i => s.drv.files h = none ∧ k = s.drv.litepcieOpen h i
  | .ioctl h c f => ∃ p, s.drv.files h = some p ∧ k = (litepcieIoctl h p c f s.drv).2.2
  | .read .. | .write .. => k = s.drv
  | .access t o => (k = s.drv ∧ ∃ h i a, s.calls[t]? = some ⟨h, i, .ret a⟩) ∨
      ∃ h i q g r, s.calls[t]? = some ⟨h, i, .call q g⟩ ∧ chanCall i q o s.drv = some (r, k)
  | .close h => ∃ p, s.drv.files h = some p ∧ k = s.drv.litepcieRelease h p
  | .interrupt regs => k = { s.drv with dev := (s.drv.dev.setStatus regs).litepcieInterrupt }

theorem step_drv {s s' : Sys n} {e : SysEv n} (h : s.step e = some s') : DrvStep s s'.drv e := by
  cases e with
  | openFile h i =>
    simp only [step] at h
    split at h
    · cases h
      exact ⟨Option.isNone_iff_eq_none.mp ‹_›, rfl⟩
    · cases h
  | ioctl h c f =>
    obtain ⟨p, hp, rfl⟩ := Option.map_eq_some_iff.mp h
    exact ⟨p, hp, rfl⟩
  | read h b a z =>
    obtain ⟨p, hp, rfl⟩ := Option.map_eq_some_iff.mp h
    rfl
  | write h b a z =>
    obtain ⟨p, hp, rfl⟩ := Option.map_eq_some_iff.mp h
    rfl
  | access t o =>
    simp only [step] at h
    split at h
    · cases h
    · rename_i hc
      cases h
      exact .inl ⟨rfl, _, _, _, hc⟩
    · rename_i hc
      obtain ⟨⟨r, k⟩, hk, rfl⟩ := Option.map_eq_some_iff.mp h
      exact .inr ⟨_, _, _, _, r, hc, hk⟩
  | close h =>
    simp only [step] at h
    split at h
    · obtain ⟨p, hp, rfl⟩ := Option.map_eq_some_iff.mp h
      exact ⟨p, hp, rfl⟩
    · cases h
  | interrupt regs =>
    cases h
    rfl

/-- A call leaves the device as it is or sets a software count. -/
theorem chanCall_dev {i : Fin n} {q : ChanReq} {o : Nat} {k k' : Driver n} {r : q.Ans}
    (h : chanCall i q o k = some (r, k')) :
    k'.files = k.files ∧ k'.heap = k.heap ∧
      (k'.dev = k.dev ∨ ∃ d v, k'.dev = k.dev.modDir i d fun c => c.setSwCount v) := by
  cases q with
  | waitEvent d cond =>
    simp only [chanCall] at h
    split at h
    · cases h
      exact ⟨rfl, rfl, .inl rfl⟩
    · split at h
      · cases h
        exact ⟨rfl, rfl, .inl rfl⟩
      · cases h
  | setSwCount d v =>
    cases h
    exact ⟨rfl, rfl, .inr ⟨d, v, rfl⟩⟩
  | _ =>
    cases h
    exact ⟨rfl, rfl, .inl rfl⟩

end Sys
end Kernel
end Xtrx
