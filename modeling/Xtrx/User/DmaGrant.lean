import Xtrx.Lib.TestSet
import Xtrx.User.Syscall

/-!
# Grants of the DMA engines (`liblitepcie/litepcie_dma.c`)

`litepcie_request_dma` asks the driver for the reader, the writer, or both (`litepcie_dma_init`,
`setupStream`), and the caller takes a status that is not 0 for a grant of all that it asked for.
Any number of processes do so on one channel, each with a handle of its own. The driver takes no
lock in `LITEPCIE_IOCTL_LOCK` and in `close`, so the processes interleave inside them.

- **Accesses** (`lockAccess`): the test of a lock, the set, the clearing. Three in a row are the part
  of `ioctlLock` for a direction (`lockAccess_iterate`).
- **Clients** (`Clients`): the driver, the calls that are not over, and what each process takes
  itself to hold. With no other process in between, a request is `litepcie_request_dma` on the
  driver (`request_alone`), and a `close` is `litepcie_release` (`close_alone`).
- **Exclusion** (`Exclusive`): no two processes hold the same direction.
- **Honest failure** (`FailureTakesNothing`): a request that reports failure has taken no lock.
- The test and the set are apart, and the status that `litepcie_request_dma` returns is the
  reader's. A run has both properties if no process tests a free lock that another one is about to
  set (`TestsAlone`), and the two statuses of a request of the writer agree (`StatusAgrees`):
  `grants_exclusive`.
-/

namespace Xtrx
namespace User

open Conc Kernel Driver

variable {n N : Nat}

/-! ## Accesses -/

/-- Where a call of `LITEPCIE_IOCTL_LOCK` is in its part for one direction. -/
inductive LockStage where
  /-- Before `if (m.dma_…_request)` and the test of the lock. -/
  | test
  /-- Before `…_lock = 1`. -/
  | set
  /-- Before `if (m.dma_…_release)`, with the status. -/
  | release (status : Bool)
  | ended (status : Bool)
  deriving DecidableEq

namespace LockStage

/-- The status of the direction, once it is settled. -/
def status? : LockStage → Option Bool
  | .release b | .ended b => some b
  | _ => none

def isEnded : LockStage → Bool
  | .ended _ => true
  | _ => false

end LockStage

/-- The next access of the part for direction `d`. -/
def lockAccess (d : Dir) (m : LockRequest) :
    LockStage × ChanPriv n × LitepcieDevice n → LockStage × ChanPriv n × LitepcieDevice n
  | (.test, p, s) =>
    if m.request d then
      if (s.dir p.chan d).lock then (.release false, p, s) else (.set, p, s)
    else (.release true, p, s)
  | (.set, p, s) => (.release true, p.setOwns d true, s.modDir p.chan d fun c => c.setLock true)
  | (.release status, p, s) =>
    if m.release d then
      (.ended status, p.setOwns d false, s.modDir p.chan d fun c => c.setLock false)
    else (.ended status, p, s)
  | (.ended status, p, s) => (.ended status, p, s)

/-- The accesses in a row are the part of `LITEPCIE_IOCTL_LOCK` for the direction. -/
theorem lockAccess_iterate (d : Dir) (m : LockRequest) (p : ChanPriv n) (s : LitepcieDevice n) :
    (lockAccess d m)^[3] (.test, p, s) =
      (.ended (ioctlLockDir d m p s).1, (ioctlLockDir d m p s).2) := by
  unfold ioctlLockDir
  cases hq : m.request d <;> cases hr : m.release d <;> cases hl : (s.dir p.chan d).lock <;>
    simp [lockAccess, hq, hr, hl]

/-! ## Clients -/

/-- A call of `LITEPCIE_IOCTL_LOCK`; `took d` says that the lock of `d` was free before one of its
accesses and set after it. -/
structure LockCall where
  m : LockRequest
  stage : Dir → LockStage
  took : Dir → Bool

namespace LockCall

def start (m : LockRequest) : LockCall where
  m := m
  stage := fun _ => .test
  took := fun _ => false

/-- The direction whose part is next; the reader's is the first. -/
def next (c : LockCall) : Option Dir :=
  if (c.stage .reader).isEnded then
    if (c.stage .writer).isEnded then none else some .writer
  else some .reader

/-- What `litepcie_request_dma` returns: `m.dma_reader_status`. -/
def granted (c : LockCall) : Bool := (c.stage .reader).status? = some true

/-- The call after an access of its part for direction `d`. -/
def after (c : LockCall) (d : Dir) (g : LockStage) (took : Dir → Bool) : LockCall :=
  { c with stage := Function.update c.stage d g, took := took }

end LockCall

/-- A call that is not over: `LITEPCIE_IOCTL_LOCK`, or `close` with the directions that
`litepcie_release` has not looked at. -/
inductive Pending where
  | lock (c : LockCall)
  | close (left : List Dir)

/-- The driver with its client processes. `holds h d` says that a request of direction `d` by the
process with the handle `h` reported success and was not released. -/
structure Clients (n N : Nat) where
  drv : Driver n
  calls : Fin N → Option Pending
  holds : Fin N → Dir → Bool

/-- What a process does: `open`, the start of `litepcie_request_dma`, `litepcie_release_dma` and
`close`, and the next access of one of these calls. -/
inductive ClientEv (N : Nat) where
  | openFile (h : Fin N)
  | request (h : Fin N) (reader writer : Bool)
  | release (h : Fin N) (reader writer : Bool)
  | close (h : Fin N)
  | access (h : Fin N)

namespace Clients

def probed (bar0 : Nat → BitVec 32) : Clients n N where
  drv := Driver.probed bar0
  calls := fun _ => none
  holds := fun _ _ => false

/-- The call of the process `h` becomes `q`. -/
def setCall (s : Clients n N) (h : Fin N) (q : Option Pending) : Clients n N :=
  { s with calls := Function.update s.calls h q }

/-- The holdings of the process `h` become `f`. -/
def setHolds (s : Clients n N) (h : Fin N) (f : Dir → Bool) : Clients n N :=
  { s with holds := Function.update s.holds h f }

/-- An access of the call `c` in its part for direction `d`. -/
def lockStep (i : Fin n) (s : Clients n N) (h : Fin N) (p : ChanPriv n) (c : LockCall) (d : Dir) :
    Clients n N :=
  let (g, p, dev) := lockAccess d c.m (c.stage d, p, s.drv.dev)
  let took e := c.took e || (!(s.drv.dev.dir i e).lock && (dev.dir i e).lock)
  { s with drv := { s.drv with dev := dev }.setFile h (some p) }.setCall h
    (some (.lock (c.after d g took)))

/-- The next access of the call `q` of the process `h`, or its return. -/
def access (i : Fin n) (s : Clients n N) (h : Fin N) (p : ChanPriv n) : Pending → Clients n N
  | .lock c =>
    match c.next with
    | some d => s.lockStep i h p c d
    | none =>
      (s.setCall h none).setHolds h fun d => s.holds h d || (c.granted && c.m.request d)
  | .close (d :: ds) =>
    { s with drv := { s.drv with dev := releaseDir d p s.drv.dev } }.setCall h (some (.close ds))
  | .close [] =>
    -- free DMA sources
    { s with drv := (litepcieDmaDeinitCpu s.drv).setFile h none }.setCall h none

/-- One event on channel `i`. A process makes one call at a time, and releases only what its
requests were granted. -/
def step (i : Fin n) (s : Clients n N) : ClientEv N → Option (Clients n N)
  | .openFile h =>
    if (s.drv.files h).isNone then some { s with drv := s.drv.litepcieOpen h i } else none
  | .request h reader writer =>
    if (s.drv.files h).isSome ∧ (s.calls h).isNone then
      some (s.setCall h (some (.lock (.start ⟨reader, writer, false, false⟩))))
    else none
  | .release h reader writer =>
    let m : LockRequest := ⟨false, false, reader, writer⟩
    if (s.drv.files h).isSome ∧ (s.calls h).isNone ∧ (reader → s.holds h .reader) ∧
        (writer → s.holds h .writer) then
      some ((s.setCall h (some (.lock (.start m)))).setHolds h fun d => s.holds h d && !m.release d)
    else none
  | .close h =>
    if (s.drv.files h).isSome ∧ (s.calls h).isNone then
      some ((s.setCall h (some (.close [.reader, .writer]))).setHolds h fun _ => false)
    else none
  | .access h =>
    match s.calls h, s.drv.files h with
    | some q, some p => some (s.access i h p q)
    | _, _ => none

/-- The runs of all processes on channel `i`. -/
def machine (n N : Nat) (i : Fin n) : Machine (Clients n N) (ClientEv N) := ⟨step i⟩

/-- No two processes have a successful, unreleased request of one direction. -/
def Exclusive (s : Clients n N) : Prop :=
  ∀ d h h', s.holds h d = true → s.holds h' d = true → h = h'

/-- A call that returns failure has taken no lock. -/
def FailureTakesNothing (s : Clients n N) : ClientEv N → Prop
  | .access h => ∀ c, s.calls h = some (.lock c) → c.next = none → c.granted = false →
      ∀ d, c.took d = false
  | _ => True

/-- The process `h` is between its test of the lock of `d`, which was free, and its set. -/
def inWindow (s : Clients n N) (h : Fin N) (d : Dir) : Bool :=
  (s.calls h).any fun q =>
    match q with
    | .lock c => c.stage d = .set
    | .close _ => false

/-- The direction that a request of `h` is about to test. -/
def testing (s : Clients n N) (h : Fin N) : Option (LockCall × Dir) :=
  match s.calls h with
  | some (.lock c) =>
    c.next.bind fun d => if c.stage d = .test ∧ c.m.request d then some (c, d) else none
  | _ => none

/-- No other process is about to set a lock that a process finds free. -/
def TestsAlone (i : Fin n) (s : Clients n N) : ClientEv N → Prop
  | .access h => ∀ x ∈ s.testing h, (s.drv.dev.dir i x.2).lock = false →
      ∀ g, s.inWindow g x.2 = false
  | _ => True

/-- The driver will answer for the writer as it did for the reader: if it has refused the reader,
the writer is locked as well; else the writer is free, or the process holds it already. -/
def StatusAgrees (i : Fin n) (s : Clients n N) : ClientEv N → Prop
  | .access h => ∀ x ∈ s.testing h, x.2 = .writer →
      if x.1.granted then (s.drv.dev.dir i .writer).lock = false ∨ s.holds h .writer = true
      else (s.drv.dev.dir i .writer).lock = true
  | _ => True

end Clients

/-! ## A request alone -/

/-- One library call of the process with the file descriptor `fd`: its result, if the call ends
normally. -/
def callLib {α : Type} (fd : Nat) (m : Lib n Unit α) (k : Driver n) : Option (α × Driver n) :=
  match (kernelWorld n fd).exec (m ()) [.thr .ready] k with
  | some ((.ok a, _), k') => some (a, k')
  | _ => none

/-- A request asks the driver for both locks and returns the status of the reader. -/
theorem callLib_request {fd : Nat} {p : ChanPriv n} {k : Driver n} (hf : k.files fd = some p)
    (reader writer : Bool) :
    callLib fd (litepcieRequestDma reader writer) k =
      some ((ioctlLock ⟨reader, writer, false, false⟩ fd p k).1.1,
        (ioctlLock ⟨reader, writer, false, false⟩ fd p k).2) := by
  simp only [callLib, World.exec, World.machine, Machine.run, litepcieRequestDma, checkedIoctl,
    bind_assoc, Proc.sys_bind, World.step, kernelWorld, kernelCall_ioctl hf, litepcieIoctl_none]
  rfl

namespace Clients

variable {i : Fin n} {s t : Clients n N} {h : Fin N} {p : ChanPriv n} {c : LockCall} {d : Dir}

/-- Accesses of the process `h` in a row. -/
def accesses (h : Fin N) (k : Nat) : List (ClientEv N) := List.replicate k (.access h)

theorem step_access (hf : s.drv.files h = some p) (hc : s.calls h = some (.lock c)) :
    step i s (.access h) = some (s.access i h p (.lock c)) := by
  simp only [step, hc, hf]

/-- The accesses of the part for a direction, in a row. -/
theorem run_part {k : Nat} {g : LockStage} {p' : ChanPriv n} {dev : LitepcieDevice n}
    (hf : s.drv.files h = some p) (hc : s.calls h = some (.lock c))
    (hfirst : d = .writer → (c.stage .reader).isEnded = true)
    (hr : (lockAccess d c.m)^[k] (c.stage d, p, s.drv.dev) = (g, p', dev)) :
    ∃ j t took, (machine n N i).run (accesses h j) s = some t ∧
      t.drv = { s.drv with dev := dev }.setFile h (some p') ∧
      t.calls = Function.update s.calls h (some (.lock (c.after d g took))) ∧
      t.holds = s.holds := by
  induction k generalizing s c p with
  | zero =>
    cases hr
    refine ⟨0, s, c.took, rfl, ?_, ?_, rfl⟩
    · simp [setFile, ← hf]
    · simp [LockCall.after, ← hc]
  | succ k ih =>
    cases hended : (c.stage d).isEnded with
    | true =>
      obtain ⟨b, hb⟩ : ∃ b, c.stage d = .ended b := by
        cases hg : c.stage d <;> simp_all [LockStage.isEnded]
      refine ih hf hc hfirst ?_
      rw [Function.iterate_succ_apply, hb] at hr
      rw [hb]
      exact hr
    | false =>
      have hn : c.next = some d := by
        unfold LockCall.next
        cases d with
        | reader => simp [hended]
        | writer => simp [hended, hfirst rfl]
      obtain ⟨⟨g₁, p₁, dev₁⟩, hg⟩ : ∃ r, lockAccess d c.m (c.stage d, p, s.drv.dev) = r := ⟨_, rfl⟩
      rw [Function.iterate_succ_apply, hg] at hr
      -- the state after the first access
      obtain ⟨took₁, hs₁⟩ : ∃ took₁, s.access i h p (.lock c) =
          { s with drv := { s.drv with dev := dev₁ }.setFile h (some p₁) }.setCall h
            (some (.lock (c.after d g₁ took₁))) := by
        simp only [access, hn, lockStep, hg]
        exact ⟨_, rfl⟩
      obtain ⟨j, t, took, hrun, hdrv, hcalls, hholds⟩ :=
        ih (s := s.access i h p (.lock c)) (c := c.after d g₁ took₁) (p := p₁)
          (by rw [hs₁]; simp [setCall, setFile]) (by rw [hs₁]; simp [setCall])
          (fun hd => by subst hd; simpa [LockCall.after] using hfirst rfl)
          (by rw [hs₁]; simpa [LockCall.after, setCall, setFile] using hr)
      refine ⟨j + 1, t, took, ?_, ?_, ?_, ?_⟩
      · exact Machine.run_cons.mpr ⟨_, step_access hf hc, hrun⟩
      · rw [hdrv, hs₁]
        simp [setCall, setFile]
      · rw [hcalls, hs₁]
        simp [setCall, LockCall.after]
      · rw [hholds, hs₁]
        rfl

/-- A part of a call that begins with its test is `ioctlLockDir`. -/
theorem run_dir (hf : s.drv.files h = some p) (hc : s.calls h = some (.lock c))
    (hg : c.stage d = .test) (hfirst : d = .writer → (c.stage .reader).isEnded = true) :
    ∃ j t took, (machine n N i).run (accesses h j) s = some t ∧
      t.drv = { s.drv with dev := (ioctlLockDir d c.m p s.drv.dev).2.2 }.setFile h
        (some (ioctlLockDir d c.m p s.drv.dev).2.1) ∧
      t.calls = Function.update s.calls h
        (some (.lock (c.after d (.ended (ioctlLockDir d c.m p s.drv.dev).1) took))) ∧
      t.holds = s.holds := by
  refine run_part (k := 3) hf hc hfirst ?_
  rw [hg]
  exact lockAccess_iterate d c.m p s.drv.dev

theorem step_return (hf : s.drv.files h = some p) (hc : s.calls h = some (.lock c))
    (hn : c.next = none) :
    ∃ t, step i s (.access h) = some t ∧ t.drv = s.drv ∧ t.calls = Function.update s.calls h none ∧
      t.holds = Function.update s.holds h fun d => s.holds h d || (c.granted && c.m.request d) := by
  rw [step_access hf hc]
  simp only [access, hn]
  exact ⟨_, rfl, rfl, rfl, rfl⟩

/-- With no other process in between, a call of `LITEPCIE_IOCTL_LOCK` is `ioctlLock`. -/
theorem run_lock_alone {m : LockRequest} (hf : s.drv.files h = some p)
    (hc : s.calls h = some (.lock (.start m))) :
    ∃ j t, (machine n N i).run (accesses h j) s = some t ∧
      t.drv = (ioctlLock m h p s.drv).2 ∧ t.calls = Function.update s.calls h none ∧
      t.holds = Function.update s.holds h fun d =>
        s.holds h d || ((ioctlLock m h p s.drv).1.1 && m.request d) := by
  -- the reader's part, then the writer's
  obtain ⟨j₁, s₁, took₁, hrun₁, hdrv₁, hcalls₁, hholds₁⟩ :=
    run_dir (i := i) (d := .reader) hf hc rfl (fun hd => by cases hd)
  have hf₁ : s₁.drv.files h = some (ioctlLockDir .reader m p s.drv.dev).2.1 := by
    rw [hdrv₁, files_setFile, if_pos rfl]
    rfl
  obtain ⟨j₂, s₂, took₂, hrun₂, hdrv₂, hcalls₂, hholds₂⟩ :=
    run_dir (i := i) (d := .writer) hf₁ (by rw [hcalls₁, Function.update_self])
      (by simp [LockCall.after, LockCall.start]) (fun _ => by simp [LockCall.after, LockStage.isEnded])
  have hf₂ := congrFun (congrArg Driver.files hdrv₂) h
  rw [files_setFile, if_pos rfl] at hf₂
  have hc₂ := congrFun hcalls₂ h
  rw [Function.update_self] at hc₂
  -- the return
  obtain ⟨t, hret, hdrv, hcalls, hholds⟩ := step_return (i := i) hf₂ hc₂
    (by simp [LockCall.next, LockCall.after, LockStage.isEnded])
  refine ⟨j₁ + (j₂ + 1), t, ?_, ?_, ?_, ?_⟩
  · have hacc : (accesses h (j₁ + (j₂ + 1)) : List (ClientEv N)) =
        accesses h j₁ ++ (accesses h j₂ ++ [.access h]) := by
      simp [accesses, List.replicate_add]
    rw [hacc, Machine.run_append, hrun₁]
    exact Machine.run_snoc.mpr ⟨s₂, hrun₂, hret⟩
  · rw [hdrv, hdrv₂, hdrv₁]
    simp [ioctlLock, setFile, LockCall.after, LockCall.start]
  · rw [hcalls, hcalls₂, hcalls₁]
    simp
  · rw [hholds, hholds₂, hholds₁]
    simp [ioctlLock, LockCall.granted, LockCall.after, LockCall.start, LockStage.status?]

/-- With no other process in between, a request is a call of `litepcie_request_dma`. -/
theorem request_alone (hf : s.drv.files h = some p) (hc : s.calls h = none) (reader writer : Bool) :
    ∃ j t b, (machine n N i).run (.request h reader writer :: accesses h j) s = some t ∧
      callLib h (litepcieRequestDma reader writer) s.drv = some (b, t.drv) ∧ t.calls = s.calls ∧
      t.holds = Function.update s.holds h fun d =>
        s.holds h d || (b && LockRequest.request ⟨reader, writer, false, false⟩ d) := by
  let m : LockRequest := ⟨reader, writer, false, false⟩
  obtain ⟨j, t, hrun, hdrv, hcalls, hholds⟩ :=
    run_lock_alone (i := i) (s := s.setCall h (some (.lock (.start m)))) (m := m) hf
      (by simp [setCall])
  refine ⟨j, t, (ioctlLock m h p s.drv).1.1, ?_, ?_, ?_, hholds⟩
  · exact Machine.run_cons.mpr ⟨_, by simp [machine, step, hf, hc, m], hrun⟩
  · rw [callLib_request hf, hdrv]
    rfl
  · rw [hcalls]
    simp [setCall, ← hc]

/-- With no other process in between, a `close` is `litepcieRelease`. -/
theorem close_alone (hf : s.drv.files h = some p) (hc : s.calls h = none) :
    (machine n N i).run (.close h :: accesses h 3) s =
      some ({ s with drv := s.drv.litepcieRelease h p }.setHolds h fun _ => false) := by
  have hcall : Function.update s.calls h none = s.calls := by
    rw [← hc, Function.update_eq_self]
  simp [accesses, List.replicate, Machine.run, machine, step, setCall, setHolds, hf, hc, access,
    litepcieRelease, hcall]

end Clients

/-! ## One call -/

/-- What an access does, by the stage. -/
theorem lockAccess_cases {d : Dir} {m : LockRequest} {g : LockStage} {p : ChanPriv n}
    {dev : LitepcieDevice n} {r : LockStage × ChanPriv n × LitepcieDevice n}
    (hended : g.isEnded = false) (h : lockAccess d m (g, p, dev) = r) :
    (g = .test ∧ m.request d = true ∧ (dev.dir p.chan d).lock = true ∧ r = (.release false, p, dev)) ∨
    (g = .test ∧ m.request d = true ∧ (dev.dir p.chan d).lock = false ∧ r = (.set, p, dev)) ∨
    (g = .test ∧ m.request d = false ∧ r = (.release true, p, dev)) ∨
    (g = .set ∧ r = (.release true, p.setOwns d true, dev.modDir p.chan d fun c => c.setLock true)) ∨
    (∃ b, g = .release b ∧ m.release d = true ∧
      r = (.ended b, p.setOwns d false, dev.modDir p.chan d fun c => c.setLock false)) ∨
    ∃ b, g = .release b ∧ m.release d = false ∧ r = (.ended b, p, dev) := by
  subst h
  cases g with
  | test =>
    simp only [lockAccess]
    cases m.request d <;> cases (dev.dir p.chan d).lock <;> simp
  | set => simp [lockAccess]
  | release b =>
    simp only [lockAccess]
    cases m.release d <;> simp
  | ended b => cases hended

/-- What a call of `LITEPCIE_IOCTL_LOCK` has done so far; `own` and `hold` are what the process owns
and holds. -/
structure CallOk (own hold : Dir → Bool) (c : LockCall) : Prop where
  /-- The writer's part comes after the reader's. -/
  order : c.stage .writer ≠ .test → (c.stage .reader).isEnded = true
  /-- The library requests or releases. -/
  kind : (∀ d, c.m.release d = false) ∨ ∀ d, c.m.request d = false
  set : ∀ d, c.stage d = .set → c.m.request d = true
  took : ∀ d, c.took d = true → c.m.request d = true ∧ (c.stage d).status? = some true
  owns : ∀ d, c.m.request d = true → (c.stage d).status? = some true → own d = true
  /-- A process that is refused the writer and not the reader owns it already. -/
  refused : c.m.request .writer = true → (c.stage .reader).status? = some true →
    (c.stage .writer).status? = some false → own .writer = true
  /-- A process that is refused the reader does not get the writer. -/
  failed : c.m.request .writer = true → (c.stage .reader).status? = some false →
    c.stage .writer ≠ .set ∧ (c.stage .writer).status? ≠ some true
  release : ∀ d, c.m.release d = true → (c.stage d).isEnded = false → own d = true ∧ hold d = false

/-- The part that is next is not over, and the reader's is the first. -/
theorem LockCall.next_eq {c : LockCall} {d : Dir} (h : c.next = some d) :
    (c.stage d).isEnded = false ∧ (d = .writer → (c.stage .reader).isEnded = true) := by
  unfold LockCall.next at h
  split at h
  · rename_i hr
    split at h
    · cases h
    · cases h
      exact ⟨Bool.eq_false_iff.mpr ‹_›, fun _ => hr⟩
  · cases h
    exact ⟨Bool.eq_false_iff.mpr ‹_›, fun hd => by cases hd⟩

/-- At the return both parts are over. -/
theorem LockCall.next_eq_none {c : LockCall} (h : c.next = none) :
    ∃ b b', c.stage .reader = .ended b ∧ c.stage .writer = .ended b' := by
  unfold LockCall.next at h
  cases hr : c.stage .reader <;> cases hw : c.stage .writer <;>
    simp [hr, hw, LockStage.isEnded] at h ⊢

section

variable {own hold : Dir → Bool} {c : LockCall} {d : Dir}

theorem CallOk.start_request (reader writer : Bool) :
    CallOk own hold (.start ⟨reader, writer, false, false⟩) := by
  constructor <;> simp [LockCall.start, LockStage.status?, LockRequest.release]
  · exact .inl fun d => by cases d <;> rfl
  · exact fun d hd => by cases d <;> cases hd

theorem CallOk.start_release {reader writer : Bool}
    (hown : ∀ d, LockRequest.release ⟨false, false, reader, writer⟩ d = true →
      own d = true ∧ hold d = false) : CallOk own hold (.start ⟨false, false, reader, writer⟩) := by
  constructor <;> simp [LockCall.start, LockStage.status?, LockRequest.request]
  · exact .inr fun d => by cases d <;> rfl
  · exact fun d hd _ => hown d hd

/-- The lock is taken: a process that was granted the reader must own the writer already. -/
theorem CallOk.test_locked (hok : CallOk own hold c) (hn : c.next = some d) (hg : c.stage d = .test)
    (hq : c.m.request d = true) (hagree : d = .writer → c.granted = true → own .writer = true) :
    CallOk own hold (c.after d (.release false) c.took) := by
  obtain ⟨-, hfirst⟩ := LockCall.next_eq hn
  obtain ⟨h1, h2, h3, h4, h5, h6, h7, h8⟩ := hok
  simp only [LockCall.granted] at hagree
  constructor <;> simp only [LockCall.after] <;> cases d <;>
    grind [LockStage.status?, LockStage.isEnded]

/-- The lock is free: the process was not refused the reader. -/
theorem CallOk.test_free (hok : CallOk own hold c) (hn : c.next = some d) (hg : c.stage d = .test)
    (hq : c.m.request d = true) (hagree : d = .writer → c.granted = true) :
    CallOk own hold (c.after d .set c.took) := by
  obtain ⟨-, hfirst⟩ := LockCall.next_eq hn
  obtain ⟨h1, h2, h3, h4, h5, h6, h7, h8⟩ := hok
  simp only [LockCall.granted] at hagree
  constructor <;> simp only [LockCall.after] <;> cases d <;>
    grind [LockStage.status?, LockStage.isEnded]

theorem CallOk.test_none (hok : CallOk own hold c) (hn : c.next = some d) (hg : c.stage d = .test)
    (hq : c.m.request d = false) : CallOk own hold (c.after d (.release true) c.took) := by
  obtain ⟨-, hfirst⟩ := LockCall.next_eq hn
  obtain ⟨h1, h2, h3, h4, h5, h6, h7, h8⟩ := hok
  constructor <;> simp only [LockCall.after] <;> cases d <;>
    grind [LockStage.status?, LockStage.isEnded]

theorem CallOk.set_lock (hok : CallOk own hold c) (hn : c.next = some d) (hg : c.stage d = .set) :
    CallOk (Function.update own d true) hold
      (c.after d (.release true) (Function.update c.took d true)) := by
  obtain ⟨-, hfirst⟩ := LockCall.next_eq hn
  obtain ⟨h1, h2, h3, h4, h5, h6, h7, h8⟩ := hok
  constructor <;> simp only [LockCall.after] <;> cases d <;>
    grind [LockStage.status?, LockStage.isEnded]

theorem CallOk.release_lock {b : Bool} (hok : CallOk own hold c) (hn : c.next = some d)
    (hg : c.stage d = .release b) (hr : c.m.release d = true) :
    CallOk (Function.update own d false) hold (c.after d (.ended b) c.took) := by
  obtain ⟨-, hfirst⟩ := LockCall.next_eq hn
  obtain ⟨h1, h2, h3, h4, h5, h6, h7, h8⟩ := hok
  constructor <;> simp only [LockCall.after] <;> cases d <;>
    grind [LockStage.status?, LockStage.isEnded]

theorem CallOk.release_none {b : Bool} (hok : CallOk own hold c) (hn : c.next = some d)
    (hg : c.stage d = .release b) (hr : c.m.release d = false) :
    CallOk own hold (c.after d (.ended b) c.took) := by
  obtain ⟨-, hfirst⟩ := LockCall.next_eq hn
  obtain ⟨h1, h2, h3, h4, h5, h6, h7, h8⟩ := hok
  constructor <;> simp only [LockCall.after] <;> cases d <;>
    grind [LockStage.status?, LockStage.isEnded]

/-- A call that returns success has what it requested. -/
theorem CallOk.success (hok : CallOk own hold c) (hn : c.next = none) (hs : c.granted = true)
    (hq : c.m.request d = true) : own d = true := by
  obtain ⟨b, b', hr, hw⟩ := LockCall.next_eq_none hn
  have hb : b = true := by simpa [LockCall.granted, hr, LockStage.status?] using hs
  subst hb
  cases d with
  | reader => exact hok.owns .reader hq (by rw [hr]; rfl)
  | writer =>
    cases b' with
    | true => exact hok.owns .writer hq (by rw [hw]; rfl)
    | false => exact hok.refused hq (by rw [hr]; rfl) (by rw [hw]; rfl)

/-- A call that returns failure has taken nothing. -/
theorem CallOk.failure (hok : CallOk own hold c) (hn : c.next = none) (hs : c.granted = false)
    (d : Dir) : c.took d = false := by
  obtain ⟨b, b', hr, hw⟩ := LockCall.next_eq_none hn
  have hb : b = false := by simpa [LockCall.granted, hr, LockStage.status?] using hs
  subst hb
  by_contra ht
  obtain ⟨hq, hst⟩ := hok.took d (Bool.eq_true_of_not_eq_false ht)
  cases d with
  | reader =>
    rw [hr] at hst
    cases hst
  | writer => exact (hok.failed hq (by rw [hr]; rfl)).2 hst

end

/-! ## The invariant -/

namespace Clients

/-- The driver has the process `h` own direction `d`: its flag is set, and no `close` has cleared
the lock. -/
def owner (s : Clients n N) (h : Fin N) (d : Dir) : Bool :=
  (s.drv.files h).any fun p => p.owns d && (s.calls h).all fun q =>
    match q with
    | .lock _ => true
    | .close ds => decide (d ∈ ds)

/-- The lock of direction `d` with its clients. -/
def view (s : Clients n N) (i : Fin n) (d : Dir) : TestSet (Fin N) where
  lock := (s.drv.dev.dir i d).lock
  owner h := s.owner h d
  window h := s.inWindow h d

/-- What is true of a call that is not over. -/
def PendingOk (own hold : Dir → Bool) : Pending → Prop
  | .lock c => CallOk own hold c
  | .close ds => ds.Nodup ∧ ∀ d, hold d = false

structure Inv (i : Fin n) (s : Clients n N) : Prop where
  chan : ∀ h : Fin N, ∀ p, s.drv.files h = some p → p.chan = i
  sound : ∀ d, (s.view i d).Sound
  holds : ∀ h d, s.holds h d = true → s.owner h d = true
  call : ∀ h q, s.calls h = some q →
    (s.drv.files h).isSome = true ∧ PendingOk (s.owner h) (s.holds h) q

variable {i : Fin n} {s t : Clients n N} {h : Fin N}

theorem Inv.exclusive (hs : Inv i s) : Exclusive s := by
  intro d g g' hg hg'
  exact (hs.sound d).unique g g' (hs.holds g d hg) (hs.holds g' d hg')

theorem Inv.probed (i : Fin n) (bar0 : Nat → BitVec 32) :
    Inv i (Clients.probed bar0 : Clients n N) := by
  have howner : ∀ h d, (Clients.probed bar0 : Clients n N).owner h d = false := fun h d => rfl
  have hwindow : ∀ h d, (Clients.probed bar0 : Clients n N).inWindow h d = false := fun h d => rfl
  refine ⟨fun h p hp => (by cases hp), fun d => ⟨?_, ?_, ?_, ?_⟩, fun h d hh => (by cases hh),
    fun h q hq => (by cases hq)⟩
  · have hl : ((Clients.probed bar0 : Clients n N).view i d).lock = false := by cases d <;> rfl
    rw [hl]
    refine ⟨fun h => (by cases h), ?_⟩
    rintro ⟨h, hh⟩
    cases (howner h d).symm.trans hh
  · intro g g' hg
    cases (howner g d).symm.trans hg
  · intro g hg
    cases (hwindow g d).symm.trans hg
  · intro g g' hg
    cases (hwindow g d).symm.trans hg

/-- A step of the process `h` leaves the others alone. -/
structure OnlyMoves (h : Fin N) (s t : Clients n N) : Prop where
  files : ∀ g : Fin N, g ≠ h → t.drv.files g = s.drv.files g
  calls : ∀ g, g ≠ h → t.calls g = s.calls g
  holds : ∀ g, g ≠ h → t.holds g = s.holds g

/-- A lock after a step of the process `h`. -/
theorem OnlyMoves.view (hm : OnlyMoves h s t) (d : Dir) :
    t.view i d = (s.view i d).put h (t.drv.dev.dir i d).lock (t.owner h d) (t.inWindow h d) := by
  have howner : (t.view i d).owner = Function.update (s.view i d).owner h (t.owner h d) := by
    funext g
    by_cases hg : g = h
    · simp [hg, Clients.view]
    · simp [hg, Clients.view, Clients.owner, hm.files g hg, hm.calls g hg]
  have hwindow : (t.view i d).window = Function.update (s.view i d).window h (t.inWindow h d) := by
    funext g
    by_cases hg : g = h
    · simp [hg, Clients.view]
    · simp [hg, Clients.view, inWindow, hm.calls g hg]
  unfold TestSet.put
  rw [← howner, ← hwindow]
  rfl

/-- A step of `h` keeps the invariant if it does so for `h` and the locks. -/
theorem Inv.moves (hs : Inv i s) (hm : OnlyMoves h s t)
    (hchan : ∀ p, t.drv.files h = some p → p.chan = i) (hsound : ∀ d, (t.view i d).Sound)
    (hholds : ∀ d, t.holds h d = true → t.owner h d = true)
    (hcall : ∀ q, t.calls h = some q →
      (t.drv.files h).isSome = true ∧ PendingOk (t.owner h) (t.holds h) q) : Inv i t := by
  have hother : ∀ g, g ≠ h → t.owner g = s.owner g := by
    intro g hg
    funext d
    simp only [owner, hm.files g hg, hm.calls g hg]
  refine ⟨fun g p hp => ?_, hsound, fun g d hh => ?_, fun g q hq => ?_⟩ <;> by_cases hg : g = h
  · subst hg
    exact hchan p hp
  · rw [hm.files g hg] at hp
    exact hs.chan g p hp
  · subst hg
    exact hholds d hh
  · rw [hm.holds g hg] at hh
    rw [hother g hg]
    exact hs.holds g d hh
  · subst hg
    exact hcall q hq
  · rw [hm.calls g hg] at hq
    rw [hm.files g hg, hother g hg, hm.holds g hg]
    exact hs.call g q hq

/-! ## Steps -/

section

variable {p : ChanPriv n} {c : LockCall} {d : Dir}

theorem owner_of_lock (hp : s.drv.files h = some p) (hc : s.calls h = some (.lock c)) :
    s.owner h = p.owns := by
  funext e
  simp [owner, hp, hc]

theorem inWindow_of_lock (hc : s.calls h = some (.lock c)) (e : Dir) :
    s.inWindow h e = decide (c.stage e = .set) := by
  simp [inWindow, hc]

/-- A lock that an access leaves alone. -/
theorem view_same (hp : s.drv.files h = some p) (hc : s.calls h = some (.lock c)) (e : Dir) :
    (s.view i e).put h (s.drv.dev.dir i e).lock (p.owns e) (decide (c.stage e = .set)) =
      s.view i e := by
  rw [← owner_of_lock hp hc, ← inWindow_of_lock hc]
  exact TestSet.put_self (s.view i e) h

theorem owns_setOwns (p : ChanPriv n) (d : Dir) (b : Bool) :
    (p.setOwns d b).owns = Function.update p.owns d b := by
  funext e
  cases d <;> cases e <;> rfl

theorem lock_modDir (dev : LitepcieDevice n) (i : Fin n) (d e : Dir) (b : Bool) :
    ((dev.modDir i d fun c => c.setLock b).dir i e).lock =
      Function.update (fun e => (dev.dir i e).lock) d b e := by
  rw [LitepcieDevice.dir_modDir]
  by_cases he : e = d <;> simp [he, DmaDir.setLock]

/-- An access of a lock call keeps the invariant if it does so for the locks and the call. -/
theorem Inv.lockStep {g : LockStage} {p' : ChanPriv n} {dev : LitepcieDevice n} {took : Dir → Bool}
    (hs : Inv i s) (hr : lockAccess d c.m (c.stage d, p, s.drv.dev) = (g, p', dev))
    (hchan : p'.chan = i)
    (htook : (fun e => c.took e || (!(s.drv.dev.dir i e).lock && (dev.dir i e).lock)) = took)
    (hsound : ∀ e, ((s.view i e).put h (dev.dir i e).lock (p'.owns e)
      (decide (Function.update c.stage d g e = .set))).Sound)
    (hholds : ∀ e, s.holds h e = true → p'.owns e = true)
    (hok : CallOk p'.owns (s.holds h) (c.after d g took)) : Inv i (s.lockStep i h p c d) := by
  have ht : s.lockStep i h p c d =
      ({ s with drv := { s.drv with dev := dev }.setFile h (some p') }.setCall h
        (some (.lock (c.after d g took)))) := by
    simp only [Clients.lockStep, hr, htook]
  have hfile : (s.lockStep i h p c d).drv.files h = some p' := by
    rw [ht]
    simp [setCall, setFile]
  have hcall : (s.lockStep i h p c d).calls h = some (.lock (c.after d g took)) := by
    rw [ht]
    simp [setCall]
  have hown := owner_of_lock hfile hcall
  have hmoves : OnlyMoves h s (s.lockStep i h p c d) := by
    rw [ht]
    constructor
    · intro f hf
      simp [setCall, setFile, Fin.val_ne_of_ne hf]
    · intro f hf
      simp [setCall, hf]
    · exact fun f hf => rfl
  refine hs.moves hmoves ?_ (fun e => ?_) (fun e he => ?_) fun q hq => ?_
  · intro q hq
    rw [hfile] at hq
    cases hq
    exact hchan
  · rw [hmoves.view, hown, inWindow_of_lock hcall]
    have hdev : (s.lockStep i h p c d).drv.dev = dev := by
      rw [ht]
      rfl
    rw [hdev]
    exact hsound e
  · rw [hown]
    refine hholds e ?_
    rw [ht] at he
    exact he
  · rw [hcall] at hq
    cases hq
    refine ⟨by rw [hfile]; rfl, ?_⟩
    rw [hown, ht]
    exact hok

/-- An access that changes neither the locks nor the flags, and does not enter the window. -/
theorem Inv.lockStep_same {g : LockStage} (hs : Inv i s) (hp : s.drv.files h = some p)
    (hc : s.calls h = some (.lock c))
    (hr : lockAccess d c.m (c.stage d, p, s.drv.dev) = (g, p, s.drv.dev))
    (hd : c.stage d ≠ .set) (hg : g ≠ .set)
    (hok : CallOk (s.owner h) (s.holds h) (c.after d g c.took)) :
    Inv i (s.lockStep i h p c d) := by
  have hown := owner_of_lock hp hc
  refine hs.lockStep hr (hs.chan h p hp) ?_ (fun e => ?_) (fun e he => ?_) (hown ▸ hok)
  · funext e
    simp
  · have hset : decide (Function.update c.stage d g e = .set) = decide (c.stage e = .set) := by
      by_cases he : e = d
      · subst he
        simp [hg, hd]
      · simp [he]
    rw [hset, view_same hp hc]
    exact hs.sound e
  · rw [← hown]
    exact hs.holds h e he

/-- The lock of a direction whose part is not next. -/
theorem Inv.sound_ne (hs : Inv i s) (hp : s.drv.files h = some p)
    (hc : s.calls h = some (.lock c)) (g : LockStage) {e : Dir} (he : e ≠ d) :
    ((s.view i e).put h (s.drv.dev.dir i e).lock (p.owns e)
      (decide (Function.update c.stage d g e = .set))).Sound := by
  rw [Function.update_of_ne he, view_same hp hc]
  exact hs.sound e

/-- The test of a free lock: the process enters the window. -/
theorem Inv.lock_enter (hs : Inv i s) (hp : s.drv.files h = some p)
    (hc : s.calls h = some (.lock c))
    (hr : lockAccess d c.m (c.stage d, p, s.drv.dev) = (.set, p, s.drv.dev))
    (hl : (s.drv.dev.dir i d).lock = false) (halone : ∀ g, s.inWindow g d = false)
    (hok : CallOk (s.owner h) (s.holds h) (c.after d .set c.took)) :
    Inv i (s.lockStep i h p c d) := by
  have hown := owner_of_lock hp hc
  refine hs.lockStep hr (hs.chan h p hp) (by simp) (fun e => ?_) (fun e he => ?_) (hown ▸ hok)
  · by_cases he : e = d
    · subst he
      rw [← hown, Function.update_self]
      exact (hs.sound e).enter hl halone
    · exact hs.sound_ne hp hc .set he
  · rw [← hown]
    exact hs.holds h e he

/-- The set: the process becomes the owner. -/
theorem Inv.lock_set (hs : Inv i s) (hp : s.drv.files h = some p)
    (hc : s.calls h = some (.lock c)) (hg : c.stage d = .set)
    (hr : lockAccess d c.m (c.stage d, p, s.drv.dev) =
      (.release true, p.setOwns d true, s.drv.dev.modDir i d fun c => c.setLock true))
    (hok : CallOk (Function.update (s.owner h) d true) (s.holds h)
      (c.after d (.release true) (Function.update c.took d true))) :
    Inv i (s.lockStep i h p c d) := by
  have hown := owner_of_lock hp hc
  have hw : s.inWindow h d = true := by
    rw [inWindow_of_lock hc, hg]
    rfl
  have hl : (s.drv.dev.dir i d).lock = false := (hs.sound d).free h hw
  refine hs.lockStep hr (by simp [hs.chan h p hp]) ?_ (fun e => ?_) (fun e he => ?_)
    (by rw [owns_setOwns, ← hown]; exact hok)
  · funext e
    rw [lock_modDir]
    by_cases he : e = d
    · subst he
      simp [hl]
    · simp [he]
  · rw [lock_modDir, owns_setOwns]
    by_cases he : e = d
    · subst he
      simp only [Function.update_self]
      exact (hs.sound e).set hw
    · rw [Function.update_of_ne he, Function.update_of_ne he]
      exact hs.sound_ne hp hc _ he
  · rw [owns_setOwns, ← hown]
    by_cases he' : e = d
    · simp [he']
    · rw [Function.update_of_ne he']
      exact hs.holds h e he

/-- The release bit: the owner clears the lock. -/
theorem Inv.lock_clear {b : Bool} (hs : Inv i s) (hp : s.drv.files h = some p)
    (hc : s.calls h = some (.lock c)) (hg : c.stage d = .release b)
    (hr : lockAccess d c.m (c.stage d, p, s.drv.dev) =
      (.ended b, p.setOwns d false, s.drv.dev.modDir i d fun c => c.setLock false))
    (ho : s.owner h d = true) (hno : s.holds h d = false)
    (hok : CallOk (Function.update (s.owner h) d false) (s.holds h)
      (c.after d (.ended b) c.took)) : Inv i (s.lockStep i h p c d) := by
  have hown := owner_of_lock hp hc
  refine hs.lockStep hr (by simp [hs.chan h p hp]) ?_ (fun e => ?_) (fun e he => ?_)
    (by rw [owns_setOwns, ← hown]; exact hok)
  · funext e
    rw [lock_modDir]
    by_cases he : e = d
    · subst he
      simp
    · simp [he]
  · rw [lock_modDir, owns_setOwns]
    by_cases he : e = d
    · subst he
      have hw : (s.view i e).window h = false := by
        show s.inWindow h e = false
        rw [inWindow_of_lock hc, hg]
        rfl
      have := (hs.sound e).release ho
      simp only [Function.update_self]
      unfold TestSet.release at this
      rw [hw] at this
      exact this
    · rw [Function.update_of_ne he, Function.update_of_ne he]
      exact hs.sound_ne hp hc _ he
  · rw [owns_setOwns, ← hown]
    by_cases he' : e = d
    · subst he'
      rw [hno] at he
      cases he
    · rw [Function.update_of_ne he']
      exact hs.holds h e he

/-- An access of the part for direction `d` of a lock call. -/
theorem Inv.lock (hs : Inv i s) (hp : s.drv.files h = some p) (hc : s.calls h = some (.lock c))
    (hn : c.next = some d) (ha : TestsAlone i s (.access h)) (hst : StatusAgrees i s (.access h)) :
    Inv i (s.lockStep i h p c d) := by
  have hok : CallOk (s.owner h) (s.holds h) c := (hs.call h _ hc).2
  have hpc := hs.chan h p hp
  have htesting : c.stage d = .test → c.m.request d = true → (c, d) ∈ s.testing h := by
    intro hg hq
    simp [testing, hc, hn, hg, hq]
  obtain ⟨r, hr⟩ : ∃ r, lockAccess d c.m (c.stage d, p, s.drv.dev) = r := ⟨_, rfl⟩
  obtain ⟨hg, hq, hl, rfl⟩ | ⟨hg, hq, hl, rfl⟩ | ⟨hg, hq, rfl⟩ | ⟨hg, rfl⟩ | ⟨b, hg, hrel, rfl⟩ |
    ⟨b, hg, hrel, rfl⟩ := lockAccess_cases (LockCall.next_eq hn).1 hr
  · -- refused: if the reader was granted, the process holds the writer already
    rw [hpc] at hl
    refine hs.lockStep_same hp hc hr (by simp [hg]) (by simp) (hok.test_locked hn hg hq ?_)
    rintro rfl hgr
    have := hst _ (htesting hg hq) rfl
    rw [if_pos hgr, hl] at this
    exact hs.holds h .writer (this.resolve_left (by simp))
  · rw [hpc] at hl
    refine hs.lock_enter hp hc hr hl (ha _ (htesting hg hq) hl) (hok.test_free hn hg hq ?_)
    rintro rfl
    have := hst _ (htesting hg hq) rfl
    by_contra hgr
    rw [if_neg hgr, hl] at this
    cases this
  · exact hs.lockStep_same hp hc hr (by simp [hg]) (by simp) (hok.test_none hn hg hq)
  · rw [hpc] at hr
    exact hs.lock_set hp hc hg hr (hok.set_lock hn hg)
  · rw [hpc] at hr
    obtain ⟨ho, hno⟩ := hok.release d hrel (by rw [hg]; rfl)
    exact hs.lock_clear hp hc hg hr ho hno (hok.release_lock hn hg hrel)
  · exact hs.lockStep_same hp hc hr (by simp [hg]) (by simp) (hok.release_none hn hg hrel)

end

/-- A step of `h` that changes neither a lock nor what `h` owns: the start of a call, its return. -/
theorem Inv.quiet (hs : Inv i s) (hm : OnlyMoves h s t)
    (hchan : ∀ p, t.drv.files h = some p → p.chan = i)
    (hlock : ∀ d, (t.drv.dev.dir i d).lock = (s.drv.dev.dir i d).lock)
    (hown : t.owner h = s.owner h) (hwin : t.inWindow h = s.inWindow h)
    (hholds : ∀ d, t.holds h d = true → s.owner h d = true)
    (hcall : ∀ q, t.calls h = some q →
      (t.drv.files h).isSome = true ∧ PendingOk (s.owner h) (t.holds h) q) : Inv i t := by
  refine hs.moves hm hchan (fun d => ?_) (fun d hd => ?_) fun q hq => ?_
  · rw [hm.view, hlock, hown, hwin]
    show ((s.view i d).put h (s.view i d).lock ((s.view i d).owner h) ((s.view i d).window h)).Sound
    rw [TestSet.put_self]
    exact hs.sound d
  · rw [hown]
    exact hholds d hd
  · rw [hown]
    exact hcall q hq

/-- The start of a call. -/
theorem Inv.start {q : Pending} {f : Dir → Bool} (hs : Inv i s) (hf : (s.drv.files h).isSome = true)
    (hholds : ∀ d, f d = true → s.holds h d = true)
    (hown : ((s.setCall h (some q)).setHolds h f).owner h = s.owner h)
    (hwin : ((s.setCall h (some q)).setHolds h f).inWindow h = s.inWindow h)
    (hok : PendingOk (s.owner h) f q) : Inv i ((s.setCall h (some q)).setHolds h f) := by
  refine hs.quiet ⟨fun g hg => rfl, fun g hg => ?_, fun g hg => ?_⟩ (fun p hp => hs.chan h p hp)
    (fun d => rfl) hown hwin (fun d hd => ?_) fun q' hq => ?_
  · simp [setCall, setHolds, hg]
  · simp [setCall, setHolds, hg]
  · exact hs.holds h d (hholds d (by simpa [setCall, setHolds] using hd))
  · simp only [setCall, setHolds, Function.update_self, Option.some.injEq] at hq ⊢
    subst hq
    exact ⟨hf, hok⟩

theorem setHolds_self (s : Clients n N) (h : Fin N) : s.setHolds h (s.holds h) = s := by
  simp [setHolds]

/-- The start of a call of `LITEPCIE_IOCTL_LOCK`. -/
theorem Inv.startLock {m : LockRequest} {f : Dir → Bool} (hs : Inv i s)
    (hf : (s.drv.files h).isSome = true) (hc : s.calls h = none)
    (hholds : ∀ d, f d = true → s.holds h d = true) (hok : CallOk (s.owner h) f (.start m)) :
    Inv i ((s.setCall h (some (.lock (.start m)))).setHolds h f) := by
  refine hs.start hf hholds ?_ ?_ hok
  · funext d
    simp [owner, setCall, setHolds, hc]
  · funext d
    simp [inWindow, setCall, setHolds, hc, LockCall.start]

/-- A new handle owns nothing. -/
theorem Inv.openFile (hs : Inv i s) (hf : s.drv.files h = none) :
    Inv i { s with drv := s.drv.litepcieOpen h i } := by
  have hcall : s.calls h = none := by
    cases hc : s.calls h with
    | none => rfl
    | some q =>
      have := (hs.call h q hc).1
      rw [hf] at this
      cases this
  have hown : s.owner h = fun _ => false := by
    funext d
    simp [owner, hf]
  refine hs.quiet (h := h) ⟨fun g hg => ?_, fun g hg => rfl, fun g hg => rfl⟩ (fun p hp => ?_)
    (fun d => ?_) ?_ rfl (fun d hd => hs.holds h d hd) fun q hq => ?_
  · simp [files_litepcieOpen, Fin.val_ne_of_ne hg]
  · rw [files_litepcieOpen, if_pos rfl] at hp
    cases hp
    rfl
  · rw [dir_litepcieOpen]
    split <;> rfl
  · rw [hown]
    funext d
    cases d <;> simp [owner, files_litepcieOpen, ChanPriv.owns]
  · cases hcall.symm.trans hq

/-- The return of a lock call: the process holds what was granted. -/
theorem Inv.lockReturn {p : ChanPriv n} {c : LockCall} (hs : Inv i s) (hp : s.drv.files h = some p)
    (hc : s.calls h = some (.lock c)) (hn : c.next = none) :
    Inv i ((s.setCall h none).setHolds h fun d => s.holds h d || (c.granted && c.m.request d)) := by
  have hok : CallOk (s.owner h) (s.holds h) c := (hs.call h _ hc).2
  obtain ⟨b, b', hr, hw⟩ := LockCall.next_eq_none hn
  refine hs.quiet (h := h) ⟨fun g hg => rfl, fun g hg => ?_, fun g hg => ?_⟩
    (fun q hq => hs.chan h q hq) (fun d => rfl) ?_ ?_ (fun d hd => ?_) fun q hq => ?_
  · simp [setCall, setHolds, hg]
  · simp [setCall, setHolds, hg]
  · funext d
    simp [owner, setCall, setHolds, hp, hc]
  · funext d
    rw [inWindow_of_lock hc]
    cases d <;> simp [inWindow, setCall, setHolds, hr, hw]
  · simp only [setHolds, Function.update_self, Bool.or_eq_true, Bool.and_eq_true] at hd
    rcases hd with hd | ⟨hg, hq⟩
    · exact hs.holds h d hd
    · exact hok.success hn hg hq
  · simp [setCall, setHolds] at hq

section

variable {p : ChanPriv n} {d : Dir} {ds : List Dir}

theorem owner_of_close (hp : s.drv.files h = some p) (hc : s.calls h = some (.close ds)) (e : Dir) :
    s.owner h e = (p.owns e && decide (e ∈ ds)) := by
  simp [owner, hp, hc]

theorem inWindow_of_close (hc : s.calls h = some (.close ds)) (e : Dir) : s.inWindow h e = false := by
  simp [inWindow, hc]

/-- The part of a `close` for one direction clears its lock, if the process owns it. -/
theorem Inv.sound_close (hs : Inv i s) (hp : s.drv.files h = some p)
    (hc : s.calls h = some (.close (d :: ds))) (hd : d ∉ ds) (e : Dir) :
    ((s.view i e).put h
      (if p.owns d ∧ i = p.chan ∧ e = d then (s.drv.dev.dir i e).released
        else s.drv.dev.dir i e).lock (p.owns e && decide (e ∈ ds)) false).Sound := by
  by_cases hed : e = d ∧ p.owns d = true
  · obtain ⟨rfl, hpo⟩ := hed
    have hrel : ((s.view i e).release h).Sound := by
      refine (hs.sound e).release ?_
      show s.owner h e = true
      simp [owner_of_close hp hc, hpo]
    unfold TestSet.release at hrel
    rw [show (s.view i e).window h = false from inWindow_of_close hc e] at hrel
    rw [if_pos ⟨hpo, (hs.chan h p hp).symm, rfl⟩]
    simpa [hd, DmaDir.released, DmaDir.setEnable, DmaDir.setLock] using hrel
  · have hsame : (p.owns e && decide (e ∈ ds)) = s.owner h e := by
      rw [owner_of_close hp hc]
      by_cases he : e = d
      · subst he
        simp [Bool.eq_false_iff.mpr fun hx => hed ⟨rfl, hx⟩]
      · simp [he]
    rw [if_neg fun hx => hed ⟨hx.2.2, hx.1⟩, hsame, ← inWindow_of_close hc e]
    show ((s.view i e).put h (s.view i e).lock ((s.view i e).owner h)
      ((s.view i e).window h)).Sound
    rw [TestSet.put_self]
    exact hs.sound e

/-- `litepcie_release` looks at a direction: it clears the lock of an owner. -/
theorem Inv.closeDir (hs : Inv i s) (hp : s.drv.files h = some p)
    (hc : s.calls h = some (.close (d :: ds)))
    (ht : t = { s with drv := { s.drv with dev := releaseDir d p s.drv.dev } }.setCall h
      (some (.close ds))) : Inv i t := by
  obtain ⟨hnodup, hno⟩ := (hs.call h _ hc).2
  obtain ⟨hd, hds⟩ := List.nodup_cons.mp hnodup
  have htp : t.drv.files h = some p := by
    rw [ht]
    exact hp
  have htc : t.calls h = some (.close ds) := by
    rw [ht]
    simp [setCall]
  have hth : t.holds = s.holds := by
    rw [ht]
    rfl
  have hm : OnlyMoves h s t := by
    rw [ht]
    exact ⟨fun g hg => rfl, fun g hg => by simp [setCall, hg], fun g hg => rfl⟩
  refine hs.moves hm (fun q hq => ?_) (fun e => ?_) (fun e he => ?_) fun q hq => ?_
  · rw [htp] at hq
    cases hq
    exact hs.chan h p hp
  · have hlock : (t.drv.dev.dir i e).lock =
        (if p.owns d ∧ i = p.chan ∧ e = d then (s.drv.dev.dir i e).released
          else s.drv.dev.dir i e).lock := by
      rw [← dir_releaseDir, ht]
      rfl
    rw [hm.view, owner_of_close htp htc, inWindow_of_close htc, hlock]
    exact hs.sound_close hp hc hd e
  · rw [hth, hno] at he
    cases he
  · rw [htc] at hq
    cases hq
    refine ⟨by rw [htp]; rfl, hds, ?_⟩
    rw [hth]
    exact hno

/-- The end of `close`: the handle is gone. -/
theorem Inv.closeEnd (hs : Inv i s) (hp : s.drv.files h = some p)
    (hc : s.calls h = some (.close [])) :
    Inv i ({ s with drv := (litepcieDmaDeinitCpu s.drv).setFile h none }.setCall h none) := by
  obtain ⟨hdev, hfiles⟩ := litepcieDmaDeinitCpu_frame s.drv
  obtain ⟨-, hno⟩ := (hs.call h _ hc).2
  have hnone : ((litepcieDmaDeinitCpu s.drv).setFile h none).files h = none := by
    simp [setFile]
  refine hs.quiet (h := h) ⟨fun g hg => ?_, fun g hg => ?_, fun g hg => rfl⟩ (fun q hq => ?_)
    (fun d => ?_) ?_ ?_ (fun d hd => ?_) fun q hq => ?_
  · simp [setCall, setFile, hfiles, Fin.val_ne_of_ne hg]
  · simp [setCall, hg]
  · cases hnone.symm.trans hq
  · simp [setCall, hdev]
  · funext e
    simp [owner, setCall, hnone, hp, hc]
  · funext e
    rw [inWindow_of_close hc]
    simp [inWindow, setCall]
  · cases (hno d).symm.trans hd
  · simp [setCall] at hq

end

theorem Inv.access {p : ChanPriv n} {q : Pending} (hs : Inv i s) (hp : s.drv.files h = some p)
    (hc : s.calls h = some q) (ha : TestsAlone i s (.access h)) (hst : StatusAgrees i s (.access h)) :
    Inv i (s.access i h p q) := by
  cases q with
  | lock c =>
    simp only [Clients.access]
    cases hn : c.next with
    | some d => exact hs.lock hp hc hn ha hst
    | none => exact hs.lockReturn hp hc hn
  | close ds =>
    cases ds with
    | nil => exact hs.closeEnd hp hc
    | cons d ds => exact hs.closeDir hp hc rfl

theorem Inv.step {e : ClientEv N} (hs : Inv i s) (ha : TestsAlone i s e) (hst : StatusAgrees i s e)
    (h : step i s e = some t) : Inv i t := by
  cases e with
  | openFile g =>
    simp only [Clients.step] at h
    split at h
    · cases h
      exact hs.openFile (Option.isNone_iff_eq_none.mp ‹_›)
    · cases h
  | request g reader writer =>
    simp only [Clients.step] at h
    split at h
    · rename_i hfc
      obtain ⟨hf, hc⟩ := hfc
      rw [Option.isNone_iff_eq_none] at hc
      cases h
      rw [← setHolds_self (s.setCall g _) g]
      exact hs.startLock hf hc (fun d hd => hd) (CallOk.start_request reader writer)
    · cases h
  | release g reader writer =>
    simp only [Clients.step] at h
    split at h
    · rename_i hfc
      obtain ⟨hf, hc, hr, hw⟩ := hfc
      rw [Option.isNone_iff_eq_none] at hc
      cases h
      refine hs.startLock hf hc (fun d hd => (Bool.and_eq_true _ _ ▸ hd).1)
        (CallOk.start_release fun d hd => ⟨hs.holds g d ?_, by simp [hd]⟩)
      cases d
      · exact hr hd
      · exact hw hd
    · cases h
  | close g =>
    simp only [Clients.step] at h
    split at h
    · rename_i hfc
      obtain ⟨hf, hc⟩ := hfc
      rw [Option.isNone_iff_eq_none] at hc
      cases h
      refine hs.start hf (fun d hd => by cases hd) ?_ ?_ ⟨by decide, fun d => rfl⟩
      · funext d
        cases d <;> simp [owner, setCall, setHolds, hc]
      · funext d
        simp [inWindow, setCall, setHolds, hc]
    · cases h
  | access g =>
    simp only [Clients.step] at h
    split at h
    · rename_i q p hc hp
      cases h
      exact hs.access hp hc ha hst
    · cases h

/-! ## Runs -/

/-- In every run whose tests are alone and whose statuses agree, two processes never hold one
direction, and no failed request takes a lock. -/
theorem grants_exclusive (i : Fin n) (bar0 : Nat → BitVec 32) (es : List (ClientEv N))
    (hes : (machine n N i).Along (fun s e => TestsAlone i s e ∧ StatusAgrees i s e) es
      (Clients.probed bar0)) :
    (machine n N i).Always Exclusive es (Clients.probed bar0) ∧
      (machine n N i).Along FailureTakesNothing es (Clients.probed bar0) := by
  have hstep : ∀ s e s', Inv i s → TestsAlone i s e ∧ StatusAgrees i s e →
      (machine n N i).step s e = some s' → Inv i s' :=
    fun s e s' hs hc h => hs.step hc.1 hc.2 h
  have hinv : Inv i (Clients.probed bar0 : Clients n N) := Inv.probed i bar0
  refine ⟨Machine.always_of_along hstep (fun s hs => hs.exclusive) hinv hes,
    Machine.along_of_inv hstep (fun s e s' hs hc h => ?_) hinv hes⟩
  cases e with
  | access g => exact fun c hcall hn hg => CallOk.failure (hs.call g _ hcall).2 hn hg
  | _ => trivial

instance (i : Fin n) (s : Clients n N) : ∀ e, Decidable (TestsAlone i s e)
  | .access _ => inferInstanceAs (Decidable (∀ _ ∈ _, _ → ∀ _, _))
  | .openFile _ | .request .. | .release .. | .close _ => isTrue trivial

instance (i : Fin n) (s : Clients n N) : ∀ e, Decidable (StatusAgrees i s e)
  | .access _ => inferInstanceAs (Decidable (∀ _ ∈ _, _ → ite _ _ _))
  | .openFile _ | .request .. | .release .. | .close _ => isTrue trivial

/-- Three processes: the requests of 0 and 1 overlap, and 1 is refused; 2 gets the writer that 0
releases, and 1 the reader when 0 closes its handle. -/
def threeProcesses : List (ClientEv 3) :=
  [.openFile 0, .openFile 1, .openFile 2, .request 0 true true, .request 1 true true] ++
    accesses 0 2 ++ accesses 1 1 ++ accesses 0 3 ++ accesses 1 2 ++ accesses 0 2 ++ accesses 1 2 ++
    [.release 0 false true, .request 2 false true] ++ accesses 0 2 ++ accesses 2 2 ++ accesses 0 3 ++
    accesses 2 4 ++ [.close 0, .request 1 true false] ++ accesses 0 1 ++ accesses 1 3 ++
    accesses 0 2 ++ accesses 1 3

theorem grants_exclusive_three :
    (((machine 1 3 0).run threeProcesses (probed fun _ => 0)).map fun t =>
        (List.finRange 3).map fun h => (t.holds h .reader, t.holds h .writer)) =
      some [(false, false), (true, false), (false, true)] ∧
    (machine 1 3 0).Always Exclusive threeProcesses (probed fun _ => 0) ∧
      (machine 1 3 0).Along FailureTakesNothing threeProcesses (probed fun _ => 0) :=
  ⟨by decide +kernel, grants_exclusive 0 _ _ (by decide +kernel)⟩

/-- Two processes open an RX stream, one after the other: both requests of the writer report
success. -/
theorem writer_granted_twice :
    ¬ (machine 1 2 0).Always Exclusive
      ([.openFile 0, .openFile 1, .request 0 false true] ++ accesses 0 6 ++
        [.request 1 false true] ++ accesses 1 5) (probed fun _ => 0) := by
  intro h
  obtain ⟨t, ht, h0, h1⟩ : ∃ t, (machine 1 2 0).run
      ([.openFile 0, .openFile 1, .request 0 false true] ++ accesses 0 6 ++
        [.request 1 false true] ++ accesses 1 5) (probed fun _ => 0) = some t ∧
      t.holds 0 .writer = true ∧ t.holds 1 .writer = true :=
    ⟨_, rfl, by decide +kernel, by decide +kernel⟩
  exact absurd (h.run ht .writer 0 1 h0 h1) (by decide)

/-- Two requests of the reader that overlap: both processes test the lock before one of them sets
it. -/
theorem reader_granted_twice :
    ¬ (machine 1 2 0).Always Exclusive
      ([.openFile 0, .openFile 1, .request 0 true false, .request 1 true false] ++ accesses 0 1 ++
        accesses 1 1 ++ accesses 0 5 ++ accesses 1 5) (probed fun _ => 0) := by
  intro h
  obtain ⟨t, ht, h0, h1⟩ : ∃ t, (machine 1 2 0).run
      ([.openFile 0, .openFile 1, .request 0 true false, .request 1 true false] ++ accesses 0 1 ++
        accesses 1 1 ++ accesses 0 5 ++ accesses 1 5) (probed fun _ => 0) = some t ∧
      t.holds 0 .reader = true ∧ t.holds 1 .reader = true :=
    ⟨_, rfl, by decide +kernel, by decide +kernel⟩
  exact absurd (h.run ht .reader 0 1 h0 h1) (by decide)

end Clients
end User
end Xtrx
