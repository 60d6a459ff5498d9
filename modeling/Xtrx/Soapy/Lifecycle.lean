import Xtrx.Soapy.Rules

/-!
# The life cycle of the streams and the DMA engines

One client calls `setupStream`, `activateStream`, the direct buffer API, `deactivateStream` and
`closeStream` on both streams, in any order (`StreamCall`); interrupts come during the calls. A call
that throws is over, a call that aborts or fails an assertion is the last one.

- **`Engines`**: the values of `enable` of both engines. The rules `wp_…` of this file say what a
  library call does to them: only `DMA_WRITER` and `DMA_READER` change one, and each query of the
  counts is such an ioctl.
- **`setup_engines`**: a run of `setupStream` stops the engine of its stream, unless it throws
  before.
- **`engines_follow_iff`**: after each call, an engine is enabled exactly if the last call that
  starts or ends the stream's activity was `activateStream`, exactly if the calls meet `Follows`.
  `deactivate_tx_enables`: `deactivateStream` of the TX stream leaves its engine enabled.
-/

namespace Xtrx
namespace Soapy

open Conc Kernel User SoapyLiteXXTRX

variable {n : Nat} {fd : Nat} {i : Fin n}

/-- The calls of a client. -/
inductive StreamCall where
  | setupStream (direction : Int) (format : String) (channels : List Nat)
  | closeStream (stream : StreamPtr)
  | activateStream (stream : StreamPtr)
  | deactivateStream (stream : StreamPtr)
  | acquireReadBuffer (stream : StreamPtr) (timeoutUs : Int)
  | releaseReadBuffer (handle : Int)
  | acquireWriteBuffer (stream : StreamPtr) (timeoutUs : Int)
  | releaseWriteBuffer (handle : Int)

/-- A call without its result. -/
def StreamCall.run : StreamCall → Dev n Unit
  | .setupStream direction format channels => (Soapy.setupStream direction format channels).void
  | .closeStream s => Soapy.closeStream s
  | .activateStream s => (Soapy.activateStream s).void
  | .deactivateStream s => (Soapy.deactivateStream s).void
  | .acquireReadBuffer s t => (Soapy.acquireReadBuffer s t).void
  | .releaseReadBuffer h => Soapy.releaseReadBuffer h
  | .acquireWriteBuffer s t => (Soapy.acquireWriteBuffer s t).void
  | .releaseWriteBuffer h => Soapy.releaseWriteBuffer h

/-- The calls of one client on the file descriptor `fd`. -/
def streamMachine (n fd : Nat) :
    Machine (SoapyLiteXXTRX × Driver n) (StreamCall × List (Ev (Irq n) Choice)) :=
  (kernelWorld n fd).session StreamCall.run Halt.caught

/-- The engine of a stream. -/
def StreamPtr.dir? : StreamPtr → Option Dir
  | .rx => some .writer
  | .tx => some .reader
  | .other => none

/-- If the last call of `activateStream`, `deactivateStream` or `closeStream` on the stream of an
engine was `activateStream`. -/
def activeAfter (act : Dir → Bool) : StreamCall → Dir → Bool
  | .activateStream s => fun d => if s.dir? = some d then true else act d
  | .deactivateStream s | .closeStream s => fun d => if s.dir? = some d then false else act d
  | _ => act

/-! ## The enable values -/

/-- The file descriptor is open on channel `i`, whose engines have the values `en` of `enable`. -/
structure Engines (fd : Nat) (i : Fin n) (en : Dir → UInt8) (k : Driver n) : Prop where
  file : ∃ p, k.files fd = some p ∧ p.chan = i
  enable : ∀ d, (k.dev.dir i d).enable = en d

section

variable {en : Dir → UInt8} {k k' : Driver n} {o : Choice}

/-- Interrupts leave the engines alone. -/
theorem engines_stable :
    (kernelWorld n fd).Stable (Engines fd i en) fun _ _ => True where
  refl _ := trivial
  trans _ _ _ _ _ := trivial
  step k e k' h he := by
    cases he
    exact ⟨⟨h.file, fun d => (e.dir_raise k.dev i d).2.2.1.trans (h.enable d)⟩, trivial⟩

/-- The values after `DMA_WRITER` or `DMA_READER`. -/
def setEnable (d : Dir) (enable : UInt8) (en : Dir → UInt8) (e : Dir) : UInt8 :=
  if e = d then enable else en e

theorem setEnable_same {d : Dir} {enable : UInt8} (h : en d = enable) :
    setEnable d enable en = en := by
  funext e
  unfold setEnable
  split
  · rename_i he
    rw [he, h]
  · rfl

/-- `DMA_WRITER` and `DMA_READER` set the value of their engine. -/
theorem Engines.dma {d : Dir} {enable : UInt8}
    {r : Int × Option (dmaIoctl d enable : Driver.Ioctl n).Resp} (h : Engines fd i en k)
    (hc : kernelCall fd (.ioctl (dmaIoctl d enable)) o k = some (r, k')) :
    r.1 = 0 ∧ Engines fd i (setEnable d enable en) k' := by
  obtain ⟨p, hp, rfl⟩ := h.file
  obtain ⟨h0, -, -, rfl⟩ := kernelCall_dma hp hc
  refine ⟨h0, ⟨p, hp, rfl⟩, fun e => ?_⟩
  rw [Driver.dir_ioctlDma, setEnable]
  by_cases he : e = d
  · rw [if_pos ⟨rfl, he⟩, if_pos he]
    rfl
  · rw [if_neg (fun hh => he hh.2), if_neg he]
    exact h.enable e

/-- The updates of the software counts leave the engines alone. -/
theorem Engines.update {d : Dir} {v : Int}
    {r : Int × Option (updateIoctl d v : Driver.Ioctl n).Resp} (h : Engines fd i en k)
    (hc : kernelCall fd (.ioctl (updateIoctl d v)) o k = some (r, k')) : Engines fd i en k' := by
  obtain ⟨p, hp, rfl⟩ := h.file
  rw [kernelCall_ioctl hp, litepcieIoctl_none] at hc
  have hk : ∀ e, ((k.dev.modDir p.chan d fun c => c.setSwCount v).dir p.chan e).enable = en e := by
    intro e
    rw [← h.enable e]
    exact LitepcieDevice.dir_modDir_keeps (f := DmaDir.enable) (by intro c; rfl) k.dev _ p.chan _ e
  cases d <;> cases hc <;> exact ⟨⟨p, hp, rfl⟩, hk⟩

/-- `LOCK` leaves the engines alone; the reader's status says if its lock was free. -/
theorem Engines.lock {m : Driver.LockRequest}
    {r : Int × Option (Driver.Ioctl.lock m : Driver.Ioctl n).Resp} (h : Engines fd i en k)
    (hc : kernelCall fd (.ioctl (.lock m)) o k = some (r, k')) :
    r.1 = 0 ∧ Engines fd i en k' ∧
      ∃ w, r.2 = some (!(m.dmaReaderRequest && (k.dev.dir i .reader).lock), w) := by
  obtain ⟨p, hp, rfl⟩ := h.file
  rw [kernelCall_ioctl hp, litepcieIoctl_none] at hc
  cases hc
  refine ⟨rfl, ⟨⟨_, (Driver.files_ioctlLock m fd fd p k).trans (if_pos rfl), rfl⟩, fun d => ?_⟩,
    (Driver.ioctlLock m fd p k).1.2, ?_⟩
  · show ((Driver.ioctlLock m fd p k).2.dev.dir p.chan d).enable = en d
    rw [Driver.dir_ioctlLock, if_pos rfl, ← h.enable d]
    rfl
  · have hstatus : (Driver.ioctlLock m fd p k).1.1 =
        !(m.dmaReaderRequest && (k.dev.dir p.chan .reader).lock) :=
      Driver.status_ioctlLockDir .reader m p k.dev
    exact congrArg (fun b => some (b, (Driver.ioctlLock m fd p k).1.2)) hstatus

end

/-! ## The rules -/

section

variable {en en' : Dir → UInt8} {α β : Type} {x : SoapyLiteXXTRX} {k : Driver n}

/-- A call that ends normally or by an exception leaves the engines with the values `en'`. -/
abbrev Leaves (fd : Nat) (i : Fin n) (en' : Dir → UInt8) (m : Dev n α) (x : SoapyLiteXXTRX)
    (k : Driver n) : Prop :=
  (kernelWorld n fd).ProcWP (fun _ => True) (fun _ _ => True) (fun _ _ k => Engines fd i en' k)
    (fun e _ k => e.caught = true → Engines fd i en' k) m x k

theorem leaves_call {q : Sysc n} {g : q.Ans → Dev n α} (h : Engines fd i en k)
    (hk : ∀ k₁ o r k₂, Engines fd i en k₁ → kernelCall fd q o k₁ = some (r, k₂) →
      Leaves fd i en' (g r) x k₂) : Leaves fd i en' (Proc.sys q >>= g) x k :=
  drv_call engines_stable h hk

theorem leaves_pure {a : α} (h : Engines fd i en k) :
    Leaves fd i en (pure a : Dev n α) x k :=
  drv_ret engines_stable h fun _ h₁ => h₁

theorem leaves_halt {e : Halt} (h : e.caught = true → Engines fd i en k) :
    Leaves fd i en (Proc.halt e : Dev n α) x k := by
  by_cases he : e.caught = true
  · exact drv_halt engines_stable (h he) fun _ h₁ _ => h₁
  · exact fun k' _ => ⟨trivial, fun hc => absurd hc he⟩

theorem leaves_assert {p : Prop} [Decidable p] {f : Unit → Dev n α}
    (h : p → Leaves fd i en' (f ()) x k) : Leaves fd i en' (assert p >>= f) x k :=
  procWP_assert h fun _ => leaves_halt fun hc => by cases hc

theorem leaves_dmaCounts {d : Dir} {enable : UInt8} {f : Unit → Dev n α} (h : Engines fd i en k)
    (hk : ∀ x' k', Engines fd i (setEnable d enable en) k' →
      Leaves fd i en' (f ()) x' k') : Leaves fd i en' (dmaCounts d enable >>= f) x k := by
  refine drv_dmaCounts engines_stable h fun k₁ o r k₂ h₁ hc => ?_
  obtain ⟨h0, h₂⟩ := h₁.dma (o := o) hc
  exact ⟨h0, fun x' => hk x' k₂ h₂⟩

theorem leaves_checkedIoctl {c : Driver.Ioctl n} {f : Option c.Resp → Dev n α}
    (h : Engines fd i en k)
    (hk : ∀ k₁ o r k₂, Engines fd i en k₁ → kernelCall fd (.ioctl c) o k₁ = some (r, k₂) →
      Leaves fd i en' (f r.2) x k₂) :
    Leaves fd i en' (checkedIoctl c >>= f) x k := by
  refine procWP_checkedIoctl (leaves_call h fun k₁ o r k₂ h₁ hc => ?_)
  split
  · exact leaves_halt fun hc => by cases hc
  · exact hk k₁ o r k₂ h₁ hc

theorem leaves_get {f : SoapyLiteXXTRX → Dev n α} (h : Leaves fd i en' (f x) x k) :
    Leaves fd i en' (Proc.get >>= f) x k := h

theorem leaves_modify {g : SoapyLiteXXTRX → SoapyLiteXXTRX} {f : Unit → Dev n α}
    (h : Leaves fd i en' (f ()) (g x) k) : Leaves fd i en' (Proc.modify g >>= f) x k := h

/-! ## The calls -/

/-- Reading the counts of an enabled engine. -/
theorem leaves_counts {d : Dir} {f : Unit → Dev n α} (h : Engines fd i en k) (hen : en d = 1)
    (hk : ∀ x' k', Engines fd i en k' → Leaves fd i en' (f ()) x' k') :
    Leaves fd i en' (dmaCounts d 1 >>= f) x k :=
  leaves_dmaCounts h fun x' k' h' => hk x' k' (setEnable_same hen ▸ h')

theorem finishRead_engines (h : Engines fd i en k) : Leaves fd i en finishRead x k := by
  refine leaves_get ?_
  dsimp only
  split
  · refine leaves_checkedIoctl h fun k₁ o r k₂ h₁ hc => ?_
    exact leaves_modify (leaves_pure (h₁.update (d := .writer) hc))
  · exact leaves_get (leaves_modify (leaves_pure h))

theorem waitRead_engines (h : Engines fd i en k) (hen : en .writer = 1) (t : Int) :
    Leaves fd i en (waitRead t) x k := by
  refine leaves_get ?_
  dsimp only
  split
  · split
    · exact leaves_pure h
    · refine leaves_call h fun k₁ o r k₂ h₁ hc => ?_
      change Int at r
      obtain ⟨p, hp, rfl⟩ := h₁.file
      obtain ⟨rfl, -⟩ := kernelCall_poll hp hc
      split
      · exact leaves_halt fun _ => h₁
      · split
        · exact leaves_pure h₁
        · refine leaves_counts h₁ hen fun x₃ k₃ h₃ => leaves_get ?_
          exact leaves_assert fun _ => finishRead_engines h₃
  · exact finishRead_engines h

/-- `acquireReadBuffer` enables the writer. -/
theorem acquireReadBuffer_engines (h : Engines fd i en k) (t : Int) :
    Leaves fd i (setEnable .writer 1 en) (acquireReadBuffer .rx t) x k := by
  show World.WP _ _ _ _ _ k
  rw [acquireReadBuffer_rx_apply]
  split
  · exact leaves_dmaCounts h fun x' k' h' => waitRead_engines h' rfl t
  · exact leaves_halt (α := Acquired) fun hc => by cases hc

theorem waitWrite_engines (h : Engines fd i en k) (hen : en .reader = 1) (t : Int) :
    Leaves fd i en (waitWrite t) x k := by
  have hfinish : ∀ (pending : Int) {x : SoapyLiteXXTRX} {k : Driver n}, Engines fd i en k →
      Leaves fd i en (finishWrite pending) x k := fun pending x k h =>
    leaves_get (leaves_modify (leaves_pure h))
  refine leaves_get ?_
  dsimp only
  split
  · split
    · exact leaves_pure h
    · refine leaves_call h fun k₁ o r k₂ h₁ hc => ?_
      change Int at r
      obtain ⟨p, hp, rfl⟩ := h₁.file
      obtain ⟨rfl, -⟩ := kernelCall_poll hp hc
      split
      · exact leaves_halt fun _ => h₁
      · split
        · exact leaves_pure h₁
        · refine leaves_counts h₁ hen fun x₃ k₃ h₃ => leaves_get ?_
          exact leaves_assert fun _ => hfinish _ h₃
  · exact hfinish _ h

/-- `acquireWriteBuffer` enables the reader. -/
theorem acquireWriteBuffer_engines (h : Engines fd i en k) (t : Int) :
    Leaves fd i (setEnable .reader 1 en) (acquireWriteBuffer .tx t) x k := by
  show World.WP _ _ _ _ _ k
  rw [acquireWriteBuffer_tx_apply]
  split
  · exact leaves_dmaCounts h fun x' k' h' => waitWrite_engines h' rfl t
  · exact leaves_halt (α := Acquired) fun hc => by cases hc

/-- Releasing the DMA and unmapping the buffers leave the engines alone. -/
theorem closeStream_engines (h : Engines fd i en k) (s : StreamPtr) :
    Leaves fd i en (closeStream s) x k := by
  have hclose : ∀ (reader writer : Bool) (d : Dir) (g : SoapyLiteXXTRX → SoapyLiteXXTRX),
      Leaves fd i en (litepcieReleaseDma reader writer >>= fun _ => munmap d >>= fun _ =>
        (Proc.modify g : Dev n Unit)) x k := by
    intro reader writer d g
    unfold litepcieReleaseDma
    rw [bind_assoc]
    refine leaves_checkedIoctl h fun k₁ o r k₂ h₁ hc => ?_
    refine leaves_call (h₁.lock hc).2.1 fun k₃ o r k₄ h₃ hc => ?_
    cases hc
    exact leaves_pure (α := Unit) (x := g x) h₃
  cases s with
  | rx => exact hclose _ _ _ _
  | tx => exact hclose _ _ _ _
  | other => exact leaves_pure h

/-! ## `setupStream` -/

/-- The second system call of a run of `setupStream` is `mmap`. -/
def mmapFails (es : List (Ev (Irq n) Choice)) : Bool :=
  match choices es with
  | _ :: .error :: _ => true
  | _ => false

/-- A `setupStream` that gets as far as to disable the engine: the stream is not opened, `mmap`
succeeds, and for TX the DMA is not locked. For RX the library looks at the status of the reader,
which was not requested. -/
def SetupStops (i : Fin n) (d : Dir) (x : SoapyLiteXXTRX) (k : Driver n)
    (es : List (Ev (Irq n) Choice)) : Prop :=
  (x.stream d).opened = false ∧ (d = .reader → (k.dev.dir i .reader).lock = false) ∧
    mmapFails es = false

instance (i : Fin n) (d : Dir) (x : SoapyLiteXXTRX) (k : Driver n)
    (es : List (Ev (Irq n) Choice)) : Decidable (SetupStops i d x k es) :=
  inferInstanceAs (Decidable (_ ∧ _ ∧ _))

/-- The status that `litepcie_request_dma` reads in the answer of `LOCK`. -/
def lockStatus : Option (Bool × Bool) → Bool
  | some (status, _) => status
  | none => false

theorem litepcieRequestDma_bind {f : Bool → Dev n α} (reader writer : Bool) (x : SoapyLiteXXTRX) :
    (litepcieRequestDma reader writer >>= f) x =
      .call (.ioctl (.lock ⟨reader, writer, false, false⟩)) fun r =>
        if r.1 ≠ 0 then .ret (.error .abort, x)
        else f (lockStatus r.2) x := by
  unfold litepcieRequestDma
  rw [bind_assoc, checkedIoctl_bind]
  congr 1
  funext r
  split
  · rfl
  · obtain ⟨ret, resp⟩ := r
    cases resp <;> rfl

/-- Interrupts leave the engines and the locks alone. -/
theorem Engines.rely (h : Engines fd i en k) (hr : (kernelWorld n fd).Rely k k') :
    Engines fd i en k' ∧ (k'.dev.dir i .reader).lock = (k.dev.dir i .reader).lock := by
  refine ⟨(engines_stable.rely h hr).1, ?_⟩
  refine hr.keeps (J := fun k' => (k'.dev.dir i .reader).lock = (k.dev.dir i .reader).lock) ?_ rfl
  intro k₁ e k₂ h₁ he
  cases he
  exact (e.dir_raise k₁.dev i .reader).2.2.2.trans h₁

/-- The request of `setupStream` for the direction `d`. -/
abbrev setupRequest (d : Dir) : Driver.LockRequest := ⟨d = .reader, d = .writer, false, false⟩

/-- How a run of `setupStream` for one direction ends, once `LOCK` has answered `a` and left the
driver in the state `k₂`. -/
inductive SetupLocked (fd : Nat) (d : Dir) (s : StreamPtr) (x : SoapyLiteXXTRX)
    (es : List (Ev (Irq n) Choice)) (a : Int × Option (Bool × Bool)) (k₂ : Driver n) :
    Except Halt StreamPtr → SoapyLiteXXTRX → Driver n → Prop
  | aborted (k' : Driver n) (h : a.1 ≠ 0) : SetupLocked fd d s x es a k₂ (.error .abort) x k'
  | denied (k' : Driver n) (h0 : a.1 = 0) (h : lockStatus a.2 = false)
      (hr : (kernelWorld n fd).Rely k₂ k') :
      SetupLocked fd d s x es a k₂ (.error (.throw "DMA not available")) x k'
  | unmapped (k' : Driver n) (h0 : a.1 = 0) (h : lockStatus a.2 = true) (hm : mmapFails es = true)
      (hr : (kernelWorld n fd).Rely k₂ k') :
      SetupLocked fd d s x es a k₂ (.error (.throw "MMAP failed")) x k'
  | mapped (h0 : a.1 = 0) (h : lockStatus a.2 = true) (hm : mmapFails es = false)
      {r : Except Halt StreamPtr} {x' : SoapyLiteXXTRX} {k₃ k₄ k' : Driver n} {o : Choice}
      {b : Int × Option (dmaIoctl d 0 : Driver.Ioctl n).Resp} (hr : (kernelWorld n fd).Rely k₂ k₃)
      (hc : kernelCall fd (.ioctl (dmaIoctl d 0)) o k₃ = some (b, k₄))
      (hend : b.1 = 0 → r = .ok s) (hr' : (kernelWorld n fd).Rely k₄ k') :
      SetupLocked fd d s x es a k₂ r x' k'

/-- A run of `setupStream` for one direction, call by call. -/
theorem setup_run {d : Dir} {opened : String} {s : StreamPtr} {format : String}
    {channels : List Nat} {es : List (Ev (Irq n) Choice)} {r : Except Halt StreamPtr}
    {x' : SoapyLiteXXTRX}
    (hx : (kernelWorld n fd).exec (setupDir d opened s format channels x) es k =
      some ((r, x'), k')) :
    ((x.stream d).opened = true ∧ r = .error (.throw opened) ∧ x' = x ∧
      (kernelWorld n fd).Rely k k') ∨
    ((x.stream d).opened = false ∧ ∃ k₁ o a k₂, (kernelWorld n fd).Rely k k₁ ∧
      kernelCall fd (.ioctl (.lock (setupRequest d))) o k₁ = some (a, k₂) ∧
      SetupLocked fd d s x es a k₂ r x' k') := by
  change (kernelWorld n fd).exec ((Proc.get >>= _) x) es k = _ at hx
  rw [Proc.get_bind] at hx
  by_cases hopened : (x.stream d).opened = true
  · rw [if_pos hopened] at hx
    obtain ⟨he, hr⟩ := World.exec_ret hx
    cases he
    exact .inl ⟨hopened, rfl, rfl, hr⟩
  · rw [if_neg hopened, litepcieRequestDma_bind] at hx
    obtain ⟨k₁, o₁, a, k₂, fs, hr₁, hc₁, hes, hx₁⟩ := World.exec_call hx
    refine .inr ⟨by simpa using hopened, k₁, o₁, a, k₂, hr₁, hc₁, ?_⟩
    change Int × Option (Bool × Bool) at a
    by_cases h0 : a.1 = 0
    · rw [if_neg (not_not_intro h0)] at hx₁
      by_cases hstatus : lockStatus a.2 = true
      · rw [if_neg (not_not_intro hstatus), mmap_bind] at hx₁
        obtain ⟨k₃, o₃, mapped, k₄, fs', hr₃, hc₃, hfs, hx₃⟩ := World.exec_call hx₁
        change Bool at mapped
        obtain ⟨rfl, hmapped⟩ := @kernelCall_mmap n fd _ _ _ d _ hc₃
        have hfails : mmapFails es = !mapped := by
          unfold mmapFails
          rw [hes, hfs]
          cases o₃ <;> simp_all
        by_cases hm : mapped = true
        · rw [if_neg (not_not_intro hm), dmaCounts_bind] at hx₃
          obtain ⟨k₅, o₅, b, k₆, fs₅, hr₅, hc₅, -, hx₅⟩ := World.exec_call hx₃
          have hend : (b.1 = 0 → r = .ok s) ∧ (kernelWorld n fd).Rely k₆ k' := by
            by_cases hb : b.1 = 0
            · rw [if_neg (not_not_intro hb)] at hx₅
              obtain ⟨he, hr⟩ := World.exec_ret hx₅
              cases he
              exact ⟨fun _ => rfl, hr⟩
            · rw [if_pos hb] at hx₅
              exact ⟨fun h => absurd h hb, (World.exec_ret hx₅).2⟩
          have hmapped : mmapFails es = false := by
            rw [hfails, hm]
            rfl
          exact .mapped h0 hstatus hmapped (hr₃.trans hr₅) (o := o₅) hc₅ hend.1 hend.2
        · rw [if_pos hm] at hx₃
          obtain ⟨he, hr⟩ := World.exec_ret hx₃
          cases he
          exact .unmapped _ h0 hstatus (by simpa [hm] using hfails) (hr₃.trans hr)
      · rw [if_pos hstatus] at hx₁
        obtain ⟨he, hr⟩ := World.exec_ret hx₁
        cases he
        exact .denied _ h0 (by simpa using hstatus) hr
    · rw [if_pos h0] at hx₁
      cases (World.exec_ret hx₁).1
      exact .aborted _ h0

/-- A run of `setupStream` for one direction. -/
theorem setup_engines {d : Dir} {opened : String} {s : StreamPtr} {format : String}
    {channels : List Nat} {es : List (Ev (Irq n) Choice)} {r : Except Halt StreamPtr}
    {x' : SoapyLiteXXTRX} (h : Engines fd i en k)
    (hx : (kernelWorld n fd).exec (setupDir d opened s format channels x) es k =
      some ((r, x'), k')) :
    Engines fd i (if SetupStops i d x k es then setEnable d 0 en else en) k' := by
  rcases setup_run hx with ⟨hopened, -, -, hr⟩ | ⟨hopened, k₁, o, a, k₂, hr₁, hc₁, hrest⟩
  · rw [if_neg fun hs => by simpa [hopened] using hs.1]
    exact (h.rely hr).1
  · obtain ⟨h₁, hlock⟩ := h.rely hr₁
    obtain ⟨h0, h₂, w, hw⟩ := h₁.lock (o := o) hc₁
    have hstatus : lockStatus a.2 = !(decide (d = .reader) && (k.dev.dir i .reader).lock) := by
      rw [hw, hlock]
      rfl
    cases hrest with
    | aborted _ hne => exact absurd h0 hne
    | denied _ _ hdenied hr =>
      have hstops : ¬ SetupStops i d x k es := by
        rintro ⟨-, hl, -⟩
        rw [hstatus] at hdenied
        cases d with
        | writer => cases hdenied
        | reader => simp [hl rfl] at hdenied
      rw [if_neg hstops]
      exact (h₂.rely hr).1
    | unmapped _ _ _ hm hr =>
      rw [if_neg fun hs => by simpa [hm] using hs.2.2]
      exact (h₂.rely hr).1
    | mapped _ hgranted hm hr₃ hc₅ _ hr₆ =>
      have hl : d = .reader → (k.dev.dir i .reader).lock = false := by
        rintro rfl
        simpa [hstatus] using hgranted
      rw [if_pos ⟨hopened, hl, hm⟩]
      exact (((h₂.rely hr₃).1.dma hc₅).2.rely hr₆).1

/-! ## One call -/

/-- The engine of a `setupStream` direction. -/
def directionDir? (direction : Int) : Option Dir :=
  if direction = soapySdrRx then some .writer
  else if direction = soapySdrTx then some .reader
  else none

/-- The enable values after a call. -/
def enableAfter (i : Fin n) (x : SoapyLiteXXTRX) (k : Driver n) (es : List (Ev (Irq n) Choice))
    (en : Dir → UInt8) : StreamCall → Dir → UInt8
  | .setupStream direction _ _ =>
    match directionDir? direction with
    | some d => if SetupStops i d x k es then setEnable d 0 en else en
    | none => en
  | .activateStream .rx | .acquireReadBuffer .rx _ => setEnable .writer 1 en
  | .activateStream .tx | .acquireWriteBuffer .tx _ | .deactivateStream .tx =>
    setEnable .reader 1 en
  | .deactivateStream .rx => setEnable .writer 0 en
  | _ => en

/-- A step of the client. -/
theorem Engines.step {x' : SoapyLiteXXTRX} {c : StreamCall} {es : List (Ev (Irq n) Choice)}
    (h : Engines fd i en k) (hs : (streamMachine n fd).step (x, k) (c, es) = some (x', k')) :
    Engines fd i (enableAfter i x k es en c) k' := by
  have hleaves : ∀ {en' : Dir → UInt8}, Leaves fd i en' c.run x k → Engines fd i en' k' :=
    fun hl => hl.session (P := fun _ k => Engines fd i _ k) hs
  cases c with
  | setupStream direction format channels =>
    obtain ⟨r, hex, -⟩ := World.session_step hs
    obtain ⟨r', hex⟩ := World.exec_void hex
    unfold setupStream at hex
    by_cases hrx : direction = soapySdrRx
    · rw [if_pos hrx] at hex
      have hdir : directionDir? direction = some .writer := if_pos hrx
      simp only [enableAfter, hdir]
      exact setup_engines h hex
    · rw [if_neg hrx] at hex
      by_cases htx : direction = soapySdrTx
      · rw [if_pos htx] at hex
        have hdir : directionDir? direction = some .reader := (if_neg hrx).trans (if_pos htx)
        simp only [enableAfter, hdir]
        exact setup_engines h hex
      · rw [if_neg htx] at hex
        have hdir : directionDir? direction = none := (if_neg hrx).trans (if_neg htx)
        simp only [enableAfter, hdir]
        exact (h.rely (World.exec_ret hex).2).1
  | closeStream s => exact hleaves (closeStream_engines h s)
  | activateStream s =>
    refine hleaves (World.ProcWP.void ?_)
    cases s with
    | rx => exact leaves_dmaCounts h fun x' k' h' => leaves_pure h'
    | tx => exact leaves_dmaCounts h fun x' k' h' => leaves_pure h'
    | other => exact leaves_pure h
  | deactivateStream s =>
    refine hleaves (World.ProcWP.void ?_)
    cases s with
    | rx => exact leaves_dmaCounts h fun x' k' h' => leaves_pure h'
    | tx => exact leaves_dmaCounts h fun x' k' h' => leaves_pure h'
    | other => exact leaves_pure h
  | acquireReadBuffer s t =>
    refine hleaves (World.ProcWP.void ?_)
    cases s with
    | rx => exact acquireReadBuffer_engines h t
    | tx => exact leaves_pure h
    | other => exact leaves_pure h
  | releaseReadBuffer handle =>
    refine hleaves (leaves_assert fun _ => ?_)
    exact leaves_checkedIoctl h fun k₁ o r k₂ h₁ hc => leaves_pure (h₁.update (d := .writer) hc)
  | acquireWriteBuffer s t =>
    refine hleaves (World.ProcWP.void ?_)
    cases s with
    | tx => exact acquireWriteBuffer_engines h t
    | rx => exact leaves_pure h
    | other => exact leaves_pure h
  | releaseWriteBuffer handle =>
    refine hleaves ?_
    exact leaves_checkedIoctl h fun k₁ o r k₂ h₁ hc => leaves_pure (h₁.update (d := .reader) hc)

end

/-! ## Runs -/

/-- Each engine is enabled exactly if its stream is active; `act` says which are. -/
def EnginesFollow (i : Fin n) (s : (SoapyLiteXXTRX × Driver n) × (Dir → Bool)) : Prop :=
  ∀ d, (s.1.2.dev.dir i d).enable ≠ 0 ↔ s.2 d = true

/-- `deactivateStream` is not called for TX; a stream is closed with its engine stopped and buffers
are acquired with it enabled; and a `setupStream` that stops an engine finds it stopped. -/
def Follows (i : Fin n) (s : (SoapyLiteXXTRX × Driver n) × (Dir → Bool))
    (e : StreamCall × List (Ev (Irq n) Choice)) : Prop :=
  match e.1 with
  | .setupStream direction _ _ =>
    ∀ d, directionDir? direction = some d → SetupStops i d s.1.1 s.1.2 e.2 →
      (s.1.2.dev.dir i d).enable = 0
  | .closeStream p => ∀ d, p.dir? = some d → (s.1.2.dev.dir i d).enable = 0
  | .deactivateStream p => p ≠ .tx
  | .acquireReadBuffer p _ => p = .rx → (s.1.2.dev.dir i .writer).enable ≠ 0
  | .acquireWriteBuffer p _ => p = .tx → (s.1.2.dev.dir i .reader).enable ≠ 0
  | .activateStream _ | .releaseReadBuffer _ | .releaseWriteBuffer _ => True

instance (i : Fin n) (s : (SoapyLiteXXTRX × Driver n) × (Dir → Bool)) :
    ∀ e, Decidable (Follows i s e)
  | (.setupStream .., _) => inferInstanceAs (Decidable (∀ _, _ → _ → _))
  | (.closeStream _, _) => inferInstanceAs (Decidable (∀ _, _ → _))
  | (.deactivateStream _, _) => inferInstanceAs (Decidable (_ ≠ _))
  | (.acquireReadBuffer .., _) | (.acquireWriteBuffer .., _) =>
    inferInstanceAs (Decidable (_ → _))
  | (.activateStream _, _) | (.releaseReadBuffer _, _) | (.releaseWriteBuffer _, _) =>
    inferInstanceAs (Decidable True)

/-- A call changes the value and the activity of at most one engine. -/
theorem follow_at {en en' : Dir → UInt8} {act act' : Dir → Bool} (d : Dir)
    (hact : ∀ e, en e ≠ 0 ↔ act e = true) (hen : ∀ e, e ≠ d → en' e = en e)
    (hact' : ∀ e, e ≠ d → act' e = act e) :
    (∀ e, en' e ≠ 0 ↔ act' e = true) ↔ (en' d ≠ 0 ↔ act' d = true) := by
  refine ⟨fun h => h d, fun h e => ?_⟩
  by_cases he : e = d
  · rw [he]
    exact h
  · rw [hen e he, hact' e he]
    exact hact e

theorem setEnable_ne {d e : Dir} {enable : UInt8} {en : Dir → UInt8} (h : e ≠ d) :
    setEnable d enable en e = en e := if_neg h

theorem setEnable_self {d : Dir} {enable : UInt8} {en : Dir → UInt8} :
    setEnable d enable en d = enable := if_pos rfl

section

variable {en : Dir → UInt8} {act act' : Dir → Bool}

/-- An ioctl for the engine `d`. -/
theorem follows_setEnable {d : Dir} {v : UInt8} {b : Bool} (hact : ∀ e, en e ≠ 0 ↔ act e = true)
    (hb : act' d = b) (hne : ∀ e, e ≠ d → act' e = act e) :
    (∀ e, setEnable d v en e ≠ 0 ↔ act' e = true) ↔ (v ≠ 0 ↔ b = true) := by
  rw [follow_at d hact (fun e he => setEnable_ne he) hne, setEnable_self, hb]

/-- Closing the stream of the engine `d` leaves the engine as it is. -/
theorem follows_close {k : Driver n} (h : Engines fd i en k) (hact : ∀ e, en e ≠ 0 ↔ act e = true)
    (d : Dir) : (∀ e, en e ≠ 0 ↔ (if some d = some e then false else act e) = true) ↔
      ∀ e, some d = some e → (k.dev.dir i e).enable = 0 := by
  rw [follow_at d hact (fun _ _ => rfl) fun e he => if_neg fun hh => he (Option.some.inj hh).symm,
    if_pos rfl, ← h.enable d]
  simp

/-- `activateStream` and `deactivateStream` of the stream of the engine `d`. -/
theorem follows_switch {d : Dir} {v : UInt8} {b : Bool} (hact : ∀ e, en e ≠ 0 ↔ act e = true) :
    (∀ e, setEnable d v en e ≠ 0 ↔ (if some d = some e then b else act e) = true) ↔
      (v ≠ 0 ↔ b = true) :=
  follows_setEnable hact (if_pos rfl) fun _ he => if_neg fun hh => he (Option.some.inj hh).symm

end

/-- The enable values after a call follow the activity exactly if the call meets `Follows`. -/
theorem enableAfter_follows {en : Dir → UInt8} {act : Dir → Bool} {x : SoapyLiteXXTRX}
    {k : Driver n} (h : Engines fd i en k) (hact : ∀ d, en d ≠ 0 ↔ act d = true) (c : StreamCall)
    (es : List (Ev (Irq n) Choice)) :
    (∀ d, enableAfter i x k es en c d ≠ 0 ↔ activeAfter act c d = true) ↔
      Follows i ((x, k), act) (c, es) := by
  have hsame : (∀ d, en d ≠ 0 ↔ act d = true) ↔ True := ⟨fun _ => trivial, fun _ => hact⟩
  cases c with
  | setupStream direction format channels =>
    simp only [enableAfter, activeAfter, Follows]
    cases hdir : directionDir? direction with
    | none => simpa using hact
    | some d =>
      dsimp only
      by_cases hstops : SetupStops i d x k es
      · rw [if_pos hstops, follows_setEnable hact rfl fun _ _ => rfl, ← hact d, ← h.enable d]
        simp [hstops]
      · rw [if_neg hstops, hsame]
        simp [hstops]
  | closeStream s =>
    cases s with
    | other => simpa [enableAfter, activeAfter, Follows, StreamPtr.dir?] using hact
    | rx => exact follows_close h hact .writer
    | tx => exact follows_close h hact .reader
  | activateStream s =>
    cases s with
    | other => simpa [enableAfter, activeAfter, Follows, StreamPtr.dir?] using hact
    | rx => exact (follows_switch hact).trans (by simp [Follows])
    | tx => exact (follows_switch hact).trans (by simp [Follows])
  | deactivateStream s =>
    cases s with
    | other => simpa [enableAfter, activeAfter, Follows, StreamPtr.dir?] using hact
    | rx => exact (follows_switch hact).trans (by simp [Follows])
    | tx => exact (follows_switch hact).trans (by simp [Follows])
  | acquireReadBuffer s t =>
    cases s with
    | rx =>
      refine (follows_setEnable hact rfl fun _ _ => rfl).trans ?_
      rw [← hact .writer, ← h.enable .writer]
      simp [Follows]
    | tx => simpa [enableAfter, activeAfter, Follows] using hact
    | other => simpa [enableAfter, activeAfter, Follows] using hact
  | acquireWriteBuffer s t =>
    cases s with
    | tx =>
      refine (follows_setEnable hact rfl fun _ _ => rfl).trans ?_
      rw [← hact .reader, ← h.enable .reader]
      simp [Follows]
    | rx => simpa [enableAfter, activeAfter, Follows] using hact
    | other => simpa [enableAfter, activeAfter, Follows] using hact
  | releaseReadBuffer handle => exact hsame
  | releaseWriteBuffer handle => exact hsame

/-- The client with the record of its calls. -/
abbrev followMachine (n fd : Nat) :
    Machine ((SoapyLiteXXTRX × Driver n) × (Dir → Bool))
      (StreamCall × List (Ev (Irq n) Choice)) :=
  (streamMachine n fd).history fun act e => activeAfter act e.1

/-- After each call of a run, each engine is enabled exactly if the last `activateStream`,
`deactivateStream` or `closeStream` on its stream was `activateStream`: exactly if the calls meet
`Follows`. -/
theorem engines_follow_iff (x : SoapyLiteXXTRX) (k : Driver n) (hk : Engines fd i (fun _ => 0) k)
    (es : List (StreamCall × List (Ev (Irq n) Choice))) :
    (followMachine n fd).Always (EnginesFollow i) es ((x, k), fun _ => false) ↔
      (followMachine n fd).Along (Follows i) es ((x, k), fun _ => false) := by
  have hstep : ∀ (s : (SoapyLiteXXTRX × Driver n) × (Dir → Bool)) e s',
      (∃ en, Engines fd i en s.1.2 ∧ ∀ d, en d ≠ 0 ↔ s.2 d = true) →
      (followMachine n fd).step s e = some s' →
      (EnginesFollow i s' ↔ Follows i s e) ∧ ∃ en', Engines fd i en' s'.1.2 := by
    rintro ⟨⟨x, k⟩, act⟩ ⟨c, es⟩ s' ⟨en, h, hact⟩ hs
    obtain ⟨⟨x', k'⟩, hst, rfl⟩ := Option.map_eq_some_iff.mp hs
    have h' := Engines.step h hst
    refine ⟨?_, _, h'⟩
    rw [← enableAfter_follows h hact c es]
    exact forall_congr' fun d => by rw [h'.enable d]
  refine Machine.always_iff_along
    (I := fun s => ∃ en, Engines fd i en s.1.2 ∧ ∀ d, en d ≠ 0 ↔ s.2 d = true) ?_ ?_ ?_
    ⟨_, hk, fun d => by simp⟩
  · intro s e s' hs hc hstp
    obtain ⟨hiff, en', h'⟩ := hstep s e s' hs hstp
    exact ⟨en', h', fun d => by rw [← h'.enable d]; exact hiff.mpr hc d⟩
  · rintro s ⟨en, h, hact⟩ d
    rw [h.enable d]
    exact hact d
  · intro s e s' hs hstp hP
    exact (hstep s e s' hs hstp).1.mp hP

/-- The TX stream is activated and deactivated. -/
def deactivateTx : List (StreamCall × List (Ev (Irq 1) Choice)) :=
  [(.activateStream .tx, [.thr .ready]), (.deactivateStream .tx, [.thr .ready])]

/-- Then its engine is still enabled. -/
theorem deactivate_tx_enables :
    ¬ (followMachine 1 3).Always (EnginesFollow 0) deactivateTx
      ((newDevice, oneOpen), fun _ => false) := by
  intro h
  have hlast : ((followMachine 1 3).run deactivateTx ((newDevice, oneOpen), fun _ => false)).map
      (fun s => ((s.1.2.dev.dir 0 .reader).enable, s.2 .reader)) = some (1, false) := by
    decide +kernel
  obtain ⟨s, hs, hv⟩ := Option.map_eq_some_iff.mp hlast
  obtain ⟨hen, hact⟩ := Prod.mk.inj hv
  have := (h.run hs .reader).mp (by rw [hen]; decide)
  rw [hact] at this
  cases this

theorem engines_follow_iff_oneRound :
    (followMachine 1 3).Always (EnginesFollow 0)
      [(.setupStream soapySdrRx soapySdrCs16 [], [.thr .ready, .thr .ready, .thr .ready]),
        (.activateStream .rx, [.thr .ready]), (.deactivateStream .rx, [.thr .ready]),
        (.closeStream .rx, [.thr .ready, .thr .ready])]
      ((newDevice, oneOpen), fun _ => false) :=
  (engines_follow_iff (i := 0) newDevice oneOpen
    ⟨⟨_, rfl, rfl⟩, fun d => by cases d <;> rfl⟩ _).mpr (by decide +kernel)

end Soapy
end Xtrx
