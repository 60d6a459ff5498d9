import Xtrx.Soapy.Lifecycle

/-!
# Re-activation of the RX stream

One client calls `setupStream`, `activateStream`, `readStream`, `deactivateStream` and
`closeStream` on the RX stream, in any order (`RxCall`); interrupts come during the calls. The
device object's record says what `readStream` does with the buffers (`ReadRec`).

- **`Fresh`**: what holds after an `activateStream`: the first samples come from the beginning of
  buffer 0, the handles that are read and released were acquired since then, and while the
  activation goes on `writer_sw_count` is at most `writer_hw_count`. `FreshDuring` says it of a call
  of `readStream` that has not ended, or not normally.
- **`Began`**, **`RxCounts`**: the invariant. `Began` is about the device object (its record and the
  remainder of a buffer), `RxCounts` about the counts.
- **`reactivation_fresh`**: the calls that meet `StartsFresh` keep it. `reactivation_stale`: a buffer
  that is read in part before a re-activation is read on and released after it.
-/

namespace Xtrx
namespace Soapy

open Conc Kernel User SoapyLiteXXTRX

variable {n : Nat} {fd : Nat} {i : Fin n}

/-! ## Calls and their record -/

/-- The calls on the RX stream. -/
inductive RxCall where
  | setupStream (format : String) (channels : List Nat)
  | activateStream
  | readStream (numElems : Nat) (timeoutUs : Int)
  | deactivateStream
  | closeStream
  deriving DecidableEq

/-- A call without its result. -/
def RxCall.run : RxCall → Dev n Unit
  | .setupStream format channels => (Soapy.setupStream soapySdrRx format channels).void
  | .activateStream => (Soapy.activateStream .rx).void
  | .readStream numElems t => (Soapy.readStream .rx numElems t).void
  | .deactivateStream => (Soapy.deactivateStream .rx).void
  | .closeStream => Soapy.closeStream .rx

/-- If an activation goes on after a call that takes the device object from `x` to `x'`: a
`setupStream` that opens the stream has stopped the engine. -/
def onAfter (x x' : SoapyLiteXXTRX) (on : Bool) : RxCall → Bool
  | .setupStream .. => on && (x.rxStream.opened || !x'.rxStream.opened)
  | .activateStream => true
  | .readStream .. => on
  | .deactivateStream | .closeStream => false

/-- The calls of one client, with a flag that says if an activation goes on. -/
def readMachine (n fd : Nat) :
    Machine ((SoapyLiteXXTRX × Driver n) × Bool) (RxCall × List (Ev (Irq n) Choice)) where
  step s e := (((kernelWorld n fd).session RxCall.run Halt.caught).step s.1 e).map fun t =>
    (t, onAfter s.1.1 t.1 s.2 e.1)

/-- The last activation, if there was one: the hardware count at its end, and the record since. -/
def sinceActivation (log : List ReadRec) : Option (Int × List ReadRec) :=
  log.foldl (fun a r =>
    match r with
    | .activated .writer hwCount => some (hwCount, [])
    | r => a.map fun a => (a.1, a.2 ++ [r])) none

/-- The handle and the offset of the first samples that were read. -/
def firstRead (rs : List ReadRec) : Option (Int × Nat) :=
  rs.findSome? fun
    | .read handle src n => if 0 < n then some (handle, src) else none
    | _ => none

/-- The handles that were acquired. -/
def acquiredHandles (rs : List ReadRec) : List Int :=
  rs.filterMap fun
    | .acquired handle => some handle
    | _ => none

/-- The handle was acquired, perhaps with more than 32 bits. -/
def Own (rs : List ReadRec) (handle : Int) : Prop := ∃ h ∈ acquiredHandles rs, toInt32 h = handle

/-- An entry that reads or releases a buffer does so with a handle that was acquired before. -/
def OwnEntry (rs : List ReadRec) : ReadRec → Prop
  | .read handle _ _ | .released handle => Own rs handle
  | _ => True

/-- All entries do. -/
def OwnHandles (rs : List ReadRec) : Prop := ∀ as r bs, rs = as ++ r :: bs → OwnEntry as r

/-- `P` holds of the last activation, if there was one, and of the RX stream. -/
def Since (P : Int → List ReadRec → Stream → Prop) (x : SoapyLiteXXTRX) : Prop :=
  ∀ hwCount rs, sinceActivation x.log = some (hwCount, rs) → P hwCount rs x.rxStream

/-- The first samples come from buffer 0, of an engine that had filled none at the activation; and
the handles that are read and released were acquired since. -/
def FreshReads (hwCount : Int) (rs : List ReadRec) (_ : Stream) : Prop :=
  (∀ p, firstRead rs = some p → hwCount = 0 ∧ p = (0, 0)) ∧ OwnHandles rs

/-- `writer_sw_count` is at most `writer_hw_count`. -/
def SwLeHw (i : Fin n) (k : Driver n) : Prop :=
  (k.dev.dir i .writer).swCount ≤ (k.dev.dir i .writer).hwCount

/-- What holds after an activation between two calls; `s.2` says if it goes on. -/
def Fresh (i : Fin n) (s : (SoapyLiteXXTRX × Driver n) × Bool) : Prop :=
  Since FreshReads s.1.1 ∧ (s.2 = true → SwLeHw i s.1.2)

/-! ## The condition -/

/-- No buffer was acquired since the last activation. -/
def NoneAcquired (log : List ReadRec) : Prop :=
  (sinceActivation log).map (fun a => acquiredHandles a.2) = some []

instance (log : List ReadRec) : Decidable (NoneAcquired log) := inferInstanceAs (Decidable (_ = _))

/-- The condition on the state when a call reads the counts. `activateStream` finds the engine
stopped, or with nothing counted yet; `readStream` finds no overflow as long as the activation's
first buffer is not acquired. -/
def QueryOk (i : Fin n) (c : RxCall) (x : SoapyLiteXXTRX) (k : Driver n) : Sysc n → Prop
  | .ioctl (.dmaWriter _) =>
    let dma := k.dev.dir i .writer
    match c with
    | .activateStream => dma.enable ≠ 1 ∨ dma.hwCount = 0 ∧ dma.swCount ≤ 0
    | .readStream .. =>
      NoneAcquired x.log → dma.hwCount - dma.swCount ≤ (dmaBufferCount / 2 : Nat)
    | _ => True
  | _ => True

instance (i : Fin n) (c : RxCall) (x : SoapyLiteXXTRX) (k : Driver n) (q : Sysc n) :
    Decidable (QueryOk i c x k q) := by
  unfold QueryOk
  split
  · cases c <;> exact inferInstance
  · exact inferInstance

/-- The calls meet `QueryOk`, and `activateStream` finds no buffer that is read in part. -/
def StartsFresh (fd : Nat) (i : Fin n) (s : (SoapyLiteXXTRX × Driver n) × Bool)
    (e : RxCall × List (Ev (Irq n) Choice)) : Prop :=
  (e.1 = .activateStream →
    s.1.1.rxStream.remainderHandle < 0 ∧ s.1.1.rxStream.remainderOffset = 0) ∧
  ((kernelWorld n fd).machine _).Along (World.Meets (fun _ _ => True) (QueryOk i e.1 s.1.1)) e.2
    (e.1.run s.1.1, s.1.2)

instance (s : (SoapyLiteXXTRX × Driver n) × Bool) (e : RxCall × List (Ev (Irq n) Choice)) :
    Decidable (StartsFresh fd i s e) := inferInstanceAs (Decidable ((_ → _) ∧ _))

/-- What holds of a call of `readStream` that meets the condition: `writer_sw_count` is at most
`writer_hw_count` in every state of it, if the activation goes on; and its reads are fresh, however
it ends. -/
def FreshDuring (fd : Nat) (i : Fin n) (s : (SoapyLiteXXTRX × Driver n) × Bool) : Prop :=
  ∀ numElems t fs, StartsFresh fd i s (.readStream numElems t, fs) →
    ((kernelWorld n fd).machine _).Always (fun c => s.2 = true → SwLeHw i c.2) fs
      ((RxCall.readStream numElems t).run s.1.1, s.1.2) ∧
    ∀ r x' k', (kernelWorld n fd).exec ((RxCall.readStream numElems t).run s.1.1) fs s.1.2 =
      some ((r, x'), k') → Since FreshReads x'

/-! ## The record -/

section

variable {rs : List ReadRec} {r : ReadRec} {x : SoapyLiteXXTRX}
  {P P' : Int → List ReadRec → Stream → Prop}

theorem sinceActivation_activated (log : List ReadRec) (hwCount : Int) :
    sinceActivation (log ++ [.activated .writer hwCount]) = some (hwCount, []) := by
  simp [sinceActivation]

theorem sinceActivation_append (log : List ReadRec) (hr : ∀ hw, r ≠ .activated .writer hw) :
    sinceActivation (log ++ [r]) = (sinceActivation log).map fun a => (a.1, a.2 ++ [r]) := by
  unfold sinceActivation
  rw [List.foldl_append]
  cases r with
  | activated d hw =>
    cases d with
    | writer => exact absurd rfl (hr hw)
    | reader => rfl
  | acquired _ => rfl
  | released _ => rfl
  | read _ _ _ => rfl

theorem acquiredHandles_append (as bs : List ReadRec) :
    acquiredHandles (as ++ bs) = acquiredHandles as ++ acquiredHandles bs :=
  List.filterMap_append

theorem Own.append {handle : Int} (h : Own rs handle) (bs : List ReadRec) :
    Own (rs ++ bs) handle := by
  obtain ⟨a, ha, he⟩ := h
  exact ⟨a, by rw [acquiredHandles_append]; exact List.mem_append_left _ ha, he⟩

theorem firstRead_append (as bs : List ReadRec) :
    firstRead (as ++ bs) = (firstRead as).or (firstRead bs) :=
  List.findSome?_append

theorem OwnHandles.append (h : OwnHandles rs) (hr : OwnEntry rs r) : OwnHandles (rs ++ [r]) := by
  intro as b bs he
  rcases List.eq_nil_or_concat bs with rfl | ⟨bs', c, rfl⟩
  · obtain ⟨rfl, hb⟩ := List.append_inj' he rfl
    cases hb
    exact hr
  · rw [List.concat_eq_append, ← List.cons_append, ← List.append_assoc] at he
    exact h as b bs' (List.append_inj' he rfl).1

/-- An entry of the record. -/
theorem Since.record (h : Since P x) (hr : ∀ hw, r ≠ .activated .writer hw)
    (hP : ∀ hw rs st, P hw rs st → P' hw (rs ++ [r]) st) : Since P' (x.addRecord r) := by
  intro hw rs' hs
  rw [addRecord, sinceActivation_append _ hr] at hs
  obtain ⟨⟨hw₀, rs₀⟩, hs₀, he⟩ := Option.map_eq_some_iff.mp hs
  cases he
  exact hP hw₀ rs₀ _ (h hw₀ rs₀ hs₀)

theorem Since.modify {f : Stream → Stream} (h : Since P x)
    (hP : ∀ hw rs, P hw rs x.rxStream → P' hw rs (f x.rxStream)) :
    Since P' (x.modStream .writer f) := fun hw rs hs => hP hw rs (h hw rs hs)

theorem Since.mono (h : Since P x) (hP : ∀ hw rs, P hw rs x.rxStream → P' hw rs x.rxStream) :
    Since P' x := fun hw rs hs => hP hw rs (h hw rs hs)

end

/-! ## The counts -/

/-- The counts of an activation that goes on. -/
structure Live (i : Fin n) (x : SoapyLiteXXTRX) (k : Driver n) : Prop where
  enable : (k.dev.dir i .writer).enable = 1
  cached : x.rxStream.hwCount ≤ (k.dev.dir i .writer).hwCount
  user : 0 ≤ x.rxStream.userCount ∧ x.rxStream.userCount ≤ x.rxStream.hwCount
  sw : SwLeHw i k
  acquired : ∃ hw rs, sinceActivation x.log = some (hw, rs) ∧
    ∀ h ∈ acquiredHandles rs, 0 ≤ h ∧ h < (k.dev.dir i .writer).hwCount

/-- The driver under the client: the file descriptor is open; `on` says that an activation goes on.
-/
structure RxCounts (fd : Nat) (i : Fin n) (on : Prop) (x : SoapyLiteXXTRX) (k : Driver n) :
    Prop where
  engines : ∃ en, Engines fd i en k
  live : on → Live i x k

section

variable {on : Prop} {cc : Driver n → Sysc n → Prop} {x : SoapyLiteXXTRX} {k k' : Driver n}
  {o : Choice}

theorem RxCounts.sw_le (h : RxCounts fd i on x k) : on → SwLeHw i k := fun hon => (h.live hon).sw

/-- A stopped activation asks for nothing but the open file descriptor. -/
theorem RxCounts.off (h : RxCounts fd i on x k) (x' : SoapyLiteXXTRX) : RxCounts fd i False x' k :=
  ⟨h.engines, False.elim⟩

theorem RxCounts.imp {on' : Prop} (h : RxCounts fd i on x k) (hon : on' → on) :
    RxCounts fd i on' x k := ⟨h.engines, fun h' => h.live (hon h')⟩

/-- The counts do not depend on the rest of the stream. -/
theorem RxCounts.modify {f : Stream → Stream} (h : RxCounts fd i on x k)
    (hf : ∀ st, (f st).hwCount = st.hwCount ∧ (f st).userCount = st.userCount) :
    RxCounts fd i on (x.modStream .writer f) k := by
  refine ⟨h.engines, fun hon => ?_⟩
  have hl := h.live hon
  obtain ⟨hhw, huser⟩ := hf x.rxStream
  exact ⟨hl.enable, hhw.trans_le hl.cached, by
    show 0 ≤ (f x.rxStream).userCount ∧ (f x.rxStream).userCount ≤ (f x.rxStream).hwCount
    rw [hhw, huser]
    exact hl.user, hl.sw, hl.acquired⟩

/-- An entry of the record: a handle that is acquired is counted. -/
theorem RxCounts.record {r : ReadRec} (h : RxCounts fd i on x k)
    (hr : ∀ hw, r ≠ .activated .writer hw)
    (ha : on → ∀ a ∈ acquiredHandles [r], 0 ≤ a ∧ a < x.rxStream.hwCount) :
    RxCounts fd i on (x.addRecord r) k := by
  refine ⟨h.engines, fun hon => ?_⟩
  have hl := h.live hon
  obtain ⟨hw, rs, hrs, hacq⟩ := hl.acquired
  refine ⟨hl.enable, hl.cached, hl.user, hl.sw, hw, rs ++ [r], ?_, fun a hmem => ?_⟩
  · rw [addRecord, sinceActivation_append _ hr, hrs]
    rfl
  · rw [acquiredHandles_append] at hmem
    rcases List.mem_append.mp hmem with hmem | hmem
    · exact hacq a hmem
    · exact ⟨(ha hon a hmem).1, (ha hon a hmem).2.trans_le hl.cached⟩

/-- Interrupts keep the counts. -/
theorem rxCounts_stable :
    ((kernelWorld n fd).guard (fun _ _ => True) cc).Stable (RxCounts fd i on x) fun _ _ => True where
  refl _ := trivial
  trans _ _ _ _ _ := trivial
  step k e k' h he := by
    obtain ⟨-, he⟩ := World.guard_env.mp he
    obtain ⟨en, hen⟩ := h.engines
    refine ⟨⟨⟨en, (engines_stable.step k e k' hen he).1⟩, fun hon => ?_⟩, trivial⟩
    have hl := h.live hon
    cases he
    obtain ⟨hhw, hsw, hen, -⟩ := e.dir_raise k.dev i .writer
    have hle : (k.dev.dir i .writer).hwCount ≤ ((e.raise k.dev).dir i .writer).hwCount := by
      rw [hhw]
      split <;> omega
    obtain ⟨hw, rs, hrs, hacq⟩ := hl.acquired
    exact ⟨hen.trans hl.enable, hl.cached.trans hle, hl.user, (hsw.trans_le hl.sw).trans hle,
      hw, rs, hrs, fun a ha => ⟨(hacq a ha).1, (hacq a ha).2.trans_le hle⟩⟩

/-- `DMA_WRITER`: the library gets the counts, and no more of a difference than there was. -/
theorem RxCounts.dma {enable : UInt8}
    {r : Int × Option (dmaIoctl .writer enable : Driver.Ioctl n).Resp} (h : RxCounts fd i on x k)
    (hen : on → enable = 1)
    (hc : kernelCall fd (.ioctl (dmaIoctl .writer enable)) o k = some (r, k')) :
    r.1 = 0 ∧
      RxCounts fd i on (x.modStream .writer fun st =>
        { st with hwCount := (dmaResp r.2).1, swCount := (dmaResp r.2).2 }) k' ∧
      ((k.dev.dir i .writer).hwCount - (k.dev.dir i .writer).swCount ≤ (dmaBufferCount / 2 : Nat) →
        (dmaResp r.2).1 - (dmaResp r.2).2 ≤ (dmaBufferCount / 2 : Nat)) := by
  obtain ⟨en, he⟩ := h.engines
  obtain ⟨h0, he'⟩ := he.dma (o := o) hc
  obtain ⟨p, hp, rfl⟩ := he.file
  obtain ⟨-, -, hr, rfl⟩ := kernelCall_dma hp hc
  refine ⟨h0, ⟨⟨_, he'⟩, fun hon => ?_⟩, fun hno => ?_⟩
  · have hl := h.live hon
    obtain rfl := hen hon
    rw [Driver.ioctlDma_same hl.enable] at hr ⊢
    rw [hr]
    exact ⟨hl.enable, Int.le_refl _, ⟨hl.user.1, hl.user.2.trans hl.cached⟩, hl.sw, hl.acquired⟩
  · rw [hr, Driver.counts_ioctlDma, Driver.dir_ioctlDma, if_pos ⟨rfl, rfl⟩]
    dsimp only
    split
    · show (0 : Int) - 0 ≤ _
      decide
    · exact hno

/-- `DMA_WRITER` with 1, on an engine that is not running or has counted nothing. -/
theorem RxCounts.start {r : Int × Option (dmaIoctl .writer 1 : Driver.Ioctl n).Resp}
    (h : RxCounts fd i on x k)
    (hq : (k.dev.dir i .writer).enable ≠ 1 ∨
      (k.dev.dir i .writer).hwCount = 0 ∧ (k.dev.dir i .writer).swCount ≤ 0)
    (hc : kernelCall fd (.ioctl (dmaIoctl .writer 1)) o k = some (r, k')) :
    r.1 = 0 ∧ (dmaResp r.2).1 = 0 ∧ (∃ en, Engines fd i en k') ∧
      (k'.dev.dir i .writer).enable = 1 ∧ (k'.dev.dir i .writer).hwCount = 0 ∧
      (k'.dev.dir i .writer).swCount ≤ 0 := by
  obtain ⟨en, he⟩ := h.engines
  obtain ⟨h0, he'⟩ := he.dma (o := o) hc
  obtain ⟨p, hp, rfl⟩ := he.file
  obtain ⟨-, -, hr, rfl⟩ := kernelCall_dma hp hc
  have hcounts : ((Driver.ioctlDma .writer p.chan 1 k.dev).2.dir p.chan .writer).hwCount = 0 ∧
      ((Driver.ioctlDma .writer p.chan 1 k.dev).2.dir p.chan .writer).swCount ≤ 0 := by
    rw [Driver.dir_ioctlDma, if_pos ⟨rfl, rfl⟩]
    split
    · exact ⟨rfl, Int.le_refl 0⟩
    · rename_i hsame
      exact hq.resolve_left fun hne => hsame fun h1 => hne h1.symm
  refine ⟨h0, ?_, ⟨_, he'⟩, he'.enable .writer, hcounts⟩
  rw [hr, Driver.counts_ioctlDma]
  exact hcounts.1

/-- The update of `writer_sw_count`. -/
theorem RxCounts.update {v : Int} {r : Int × Option (updateIoctl .writer v : Driver.Ioctl n).Resp}
    (h : RxCounts fd i on x k) (hv : on → v ≤ (k.dev.dir i .writer).hwCount)
    (hc : kernelCall fd (.ioctl (updateIoctl .writer v)) o k = some (r, k')) :
    RxCounts fd i on x k' := by
  obtain ⟨en, hen⟩ := h.engines
  have hen' := hen.update (o := o) hc
  obtain ⟨p, hp, rfl⟩ := hen.file
  rw [kernelCall_ioctl hp, litepcieIoctl_none] at hc
  cases hc
  refine ⟨⟨_, hen'⟩, fun hon => ?_⟩
  have hl := h.live hon
  have hd : (k.dev.modDir p.chan .writer fun c => c.setSwCount v).dir p.chan .writer =
      (k.dev.dir p.chan .writer).setSwCount v := LitepcieDevice.dir_modDir_self ..
  have hhw := congrArg DmaDir.hwCount hd
  obtain ⟨hw, rs, hrs, hacq⟩ := hl.acquired
  exact ⟨(congrArg DmaDir.enable hd).trans hl.enable, hl.cached.trans_eq hhw.symm, hl.user,
    (congrArg DmaDir.swCount hd).trans_le ((hv hon).trans_eq hhw.symm), hw, rs, hrs,
    fun a ha => ⟨(hacq a ha).1, (hacq a ha).2.trans_eq hhw.symm⟩⟩

/-- `LOCK` keeps the counts. A request for the writer alone has the status 1 for the reader, which is
the one that the library looks at. -/
theorem RxCounts.lock {m : Driver.LockRequest}
    {r : Int × Option (Driver.Ioctl.lock m : Driver.Ioctl n).Resp} (h : RxCounts fd i on x k)
    (hc : kernelCall fd (.ioctl (.lock m)) o k = some (r, k')) :
    r.1 = 0 ∧ RxCounts fd i on x k' ∧
      (m.dmaReaderRequest = false → ∃ w, r.2 = some (true, w)) := by
  obtain ⟨en, hen⟩ := h.engines
  obtain ⟨h0, hen', w, hw⟩ := hen.lock (o := o) hc
  obtain ⟨p, hp, rfl⟩ := hen.file
  rw [kernelCall_ioctl hp, litepcieIoctl_none] at hc
  cases hc
  have hd : (Driver.ioctlLock m fd p k).2.dev.dir p.chan .writer =
      (k.dev.dir p.chan .writer).setLock
        (Driver.lockAfter m .writer (k.dev.dir p.chan .writer).lock) := by
    rw [Driver.dir_ioctlLock, if_pos rfl]
  refine ⟨h0, ⟨⟨en, hen'⟩, fun hon => ?_⟩, fun hm => ⟨w, by rw [hw, hm]; rfl⟩⟩
  have hl := h.live hon
  have hhw := congrArg DmaDir.hwCount hd
  obtain ⟨hwc, rs, hrs, hacq⟩ := hl.acquired
  exact ⟨(congrArg DmaDir.enable hd).trans hl.enable, hl.cached.trans_eq hhw.symm, hl.user,
    ((congrArg DmaDir.swCount hd).trans_le hl.sw).trans_eq hhw.symm, hwc, rs, hrs,
    fun a ha => ⟨(hacq a ha).1, (hacq a ha).2.trans_eq hhw.symm⟩⟩

end

/-! ## The rules -/

section

variable {on N : Prop} {cc : Driver n → Sysc n → Prop} {x : SoapyLiteXXTRX} {k : Driver n}
  {α β : Type} {φ : α → SoapyLiteXXTRX → Prop} {φ' : β → SoapyLiteXXTRX → Prop}
  {ψ : SoapyLiteXXTRX → Prop}

/-- A call whose system calls meet `cc` keeps the counts, and establishes `φ` at a normal end and `ψ`
at any other. -/
abbrev ReadsWP (fd : Nat) (i : Fin n) (on : Prop) (cc : Driver n → Sysc n → Prop)
    (φ : α → SoapyLiteXXTRX → Prop) (ψ : SoapyLiteXXTRX → Prop) (m : Dev n α) (x : SoapyLiteXXTRX)
    (k : Driver n) : Prop :=
  ((kernelWorld n fd).guard (fun _ _ => True) cc).ProcWP (fun k => on → SwLeHw i k) (fun _ _ => True)
    (fun a x k => RxCounts fd i on x k ∧ φ a x) (fun _ x k => RxCounts fd i on x k ∧ ψ x) m x k

/-- If `N` holds, no query of the counts finds an overflow. -/
def NoOverflow (i : Fin n) (N : Prop) (cc : Driver n → Sysc n → Prop) : Prop :=
  ∀ k enable, cc k (.ioctl (.dmaWriter enable)) → N →
    (k.dev.dir i .writer).hwCount - (k.dev.dir i .writer).swCount ≤ (dmaBufferCount / 2 : Nat)

theorem reads_pure {a : α} (h : RxCounts fd i on x k) (hφ : φ a x) :
    ReadsWP fd i on cc φ ψ (pure a) x k :=
  rxCounts_stable.ret (fun _ h => h.sw_le) h fun _ h₁ _ => ⟨h₁, hφ⟩

theorem reads_halt {e : Halt} (h : RxCounts fd i on x k) (hψ : ψ x) :
    ReadsWP fd i on cc φ ψ (Proc.halt e) x k :=
  rxCounts_stable.ret (fun _ h => h.sw_le) h fun _ h₁ _ => ⟨h₁, hψ⟩

theorem reads_bind {m : Dev n β} {f : β → Dev n α} (hm : ReadsWP fd i on cc φ' ψ m x k)
    (hf : ∀ b x' k', RxCounts fd i on x' k' → φ' b x' → ReadsWP fd i on cc φ ψ (f b) x' k') :
    ReadsWP fd i on cc φ ψ (m >>= f) x k := by
  refine World.ProcWP.bind (hm.mono ?_)
  rintro ⟨e | b, x'⟩ k' h
  · exact h
  · exact hf b x' k' h.1 h.2

theorem reads_get {f : SoapyLiteXXTRX → Dev n α} (h : ReadsWP fd i on cc φ ψ (f x) x k) :
    ReadsWP fd i on cc φ ψ (Proc.get >>= f) x k := h

theorem reads_modify {g : SoapyLiteXXTRX → SoapyLiteXXTRX} {f : Unit → Dev n α}
    (h : ReadsWP fd i on cc φ ψ (f ()) (g x) k) :
    ReadsWP fd i on cc φ ψ (Proc.modify g >>= f) x k := h

/-- A call that meets `cc`. -/
theorem reads_guarded {q : Sysc n} {g : q.Ans → Dev n α} (h : RxCounts fd i on x k)
    (hk : ∀ k₁ o r k₂, RxCounts fd i on x k₁ → cc k₁ q → kernelCall fd q o k₁ = some (r, k₂) →
      ReadsWP fd i on cc φ ψ (g r) x k₂) :
    ReadsWP fd i on cc φ ψ (Proc.sys q >>= g) x k := by
  refine rxCounts_stable.call (fun _ h => h.sw_le) h fun k₁ o r k₂ h₁ _ hc => ⟨trivial, ?_⟩
  obtain ⟨hq, hc⟩ := World.guard_call.mp hc
  exact hk k₁ o r k₂ h₁ hq hc

theorem reads_call {q : Sysc n} {g : q.Ans → Dev n α} (h : RxCounts fd i on x k)
    (hk : ∀ k₁ o r k₂, RxCounts fd i on x k₁ → kernelCall fd q o k₁ = some (r, k₂) →
      ReadsWP fd i on cc φ ψ (g r) x k₂) :
    ReadsWP fd i on cc φ ψ (Proc.sys q >>= g) x k :=
  reads_guarded h fun k₁ o r k₂ h₁ _ hc => hk k₁ o r k₂ h₁ hc

theorem reads_assert {p : Prop} [Decidable p] {f : Unit → Dev n α} (hx : RxCounts fd i on x k)
    (hψ : ψ x) (h : p → ReadsWP fd i on cc φ ψ (f ()) x k) :
    ReadsWP fd i on cc φ ψ (assert p >>= f) x k :=
  procWP_assert h fun _ => reads_halt hx hψ

theorem reads_dmaCounts {enable : UInt8} {f : Unit → Dev n α} (h : RxCounts fd i on x k)
    (hen : on → enable = 1) (hcc : NoOverflow i N cc)
    (hk : ∀ hw sw k',
      RxCounts fd i on (x.modStream .writer fun st => { st with hwCount := hw, swCount := sw }) k' →
      (N → hw - sw ≤ (dmaBufferCount / 2 : Nat)) →
      ReadsWP fd i on cc φ ψ (f ())
        (x.modStream .writer fun st => { st with hwCount := hw, swCount := sw }) k') :
    ReadsWP fd i on cc φ ψ (dmaCounts .writer enable >>= f) x k := by
  refine procWP_dmaCounts (reads_guarded h fun k₁ o r k₂ h₁ hq hc => ?_)
  obtain ⟨h0, h₂, hle⟩ := h₁.dma (o := o) hen hc
  rw [if_neg (by rw [h0]; simp)]
  exact hk _ _ k₂ h₂ fun hN => hle (hcc k₁ enable hq hN)

theorem reads_checkedIoctl {c : Driver.Ioctl n} {f : Option c.Resp → Dev n α}
    (h : RxCounts fd i on x k) (hψ : ψ x)
    (hk : ∀ k₁ o r k₂, RxCounts fd i on x k₁ → kernelCall fd (.ioctl c) o k₁ = some (r, k₂) →
      RxCounts fd i on x k₂ ∧ ReadsWP fd i on cc φ ψ (f r.2) x k₂) :
    ReadsWP fd i on cc φ ψ (checkedIoctl c >>= f) x k := by
  refine procWP_checkedIoctl (reads_call h fun k₁ o r k₂ h₁ hc => ?_)
  obtain ⟨h₂, hf⟩ := hk k₁ o r k₂ h₁ hc
  split
  · exact reads_halt h₂ hψ
  · exact hf

theorem reads_update {v : Int}
    {f : Option (Driver.Ioctl.mmapDmaWriterUpdate v : Driver.Ioctl n).Resp → Dev n α}
    (h : RxCounts fd i on x k) (hψ : ψ x)
    (hv : ∀ k, RxCounts fd i on x k → on → v ≤ (k.dev.dir i .writer).hwCount)
    (hk : ∀ r k', RxCounts fd i on x k' → ReadsWP fd i on cc φ ψ (f r) x k') :
    ReadsWP fd i on cc φ ψ (checkedIoctl (.mmapDmaWriterUpdate v) >>= f) x k := by
  refine reads_checkedIoctl h hψ fun k₁ o r k₂ h₁ hc => ?_
  have h₂ := h₁.update (o := o) (hv k₁ h₁) hc
  exact ⟨h₂, hk r.2 k₂ h₂⟩

/-! ## `acquireReadBuffer` -/

/-- The device object has changed at most in the counts of the RX stream. -/
def SameButCounts (x x' : SoapyLiteXXTRX) : Prop :=
  x'.log = x.log ∧ ∃ hw sw user,
    x'.rxStream = { x.rxStream with hwCount := hw, swCount := sw, userCount := user }

theorem SameButCounts.modStream {x x' : SoapyLiteXXTRX} (h : SameButCounts x x')
    {f : Stream → Stream}
    (hf : ∀ st, ∃ hw sw user, f st = { st with hwCount := hw, swCount := sw, userCount := user }) :
    SameButCounts x (x'.modStream .writer f) := by
  obtain ⟨hlog, _, _, _, hst⟩ := h
  obtain ⟨hw, sw, user, hx⟩ := hf x'.rxStream
  refine ⟨hlog, hw, sw, user, ?_⟩
  show f x'.rxStream = _
  rw [hx, hst]

/-- The device object in a call of `acquireReadBuffer` before a buffer is taken. -/
def Unmoved (x x' : SoapyLiteXXTRX) : Prop :=
  SameButCounts x x' ∧ x'.rxStream.userCount = x.rxStream.userCount

theorem Unmoved.refl (x : SoapyLiteXXTRX) : Unmoved x x := ⟨⟨rfl, _, _, _, rfl⟩, rfl⟩

theorem Unmoved.counts {x x' : SoapyLiteXXTRX} (h : Unmoved x x') (hw sw : Int) :
    Unmoved x (x'.modStream .writer fun st => { st with hwCount := hw, swCount := sw }) :=
  ⟨h.1.modStream fun st => ⟨hw, sw, st.userCount, rfl⟩, h.2⟩

/-- What a call of `acquireReadBuffer` returns: an error, and the next buffer is the same one unless
an overflow was found; or the next buffer. -/
def AcquireResult (N : Prop) (x : SoapyLiteXXTRX) (a : Acquired) (x' : SoapyLiteXXTRX) : Prop :=
  SameButCounts x x' ∧
    ((a.ret < 0 ∧ (N → x'.rxStream.userCount = x.rxStream.userCount)) ∨
      (a.ret = getStreamMTU .writer ∧ a.handle = some x.rxStream.userCount ∧
        a.buff = some (getDirectAccessBufferAddrs .writer
          (x.rxStream.userCount % dmaBufCount .writer)) ∧
        x'.rxStream.userCount = x.rxStream.userCount + 1))

variable {x₀ : SoapyLiteXXTRX}

theorem finishRead_reads (hx : Unmoved x₀ x) (h : RxCounts fd i on x k)
    (hlt : on → x.rxStream.userCount < x.rxStream.hwCount)
    (hno : N → x.rxStream.hwCount - x.rxStream.swCount ≤ (dmaBufferCount / 2 : Nat)) :
    ReadsWP fd i on cc (AcquireResult N x₀) (Unmoved x₀) finishRead x k := by
  refine reads_get ?_
  dsimp only
  by_cases hov : x.rxStream.hwCount - x.rxStream.swCount > (dmaBufCount .writer / 2 : Nat)
  · rw [if_pos hov]
    have hN : ¬ N := fun hN => absurd (hno hN) (Int.not_le.mpr hov)
    refine reads_update h hx (fun k hk hon => (hk.live hon).cached) fun r k' h' => reads_modify ?_
    refine reads_pure ⟨h'.engines, fun hon => ?_⟩ ⟨hx.1.modStream fun st => ⟨_, _, _, rfl⟩,
      .inl ⟨by decide, fun hN' => absurd hN' hN⟩⟩
    have hl := h'.live hon
    exact ⟨hl.enable, hl.cached, ⟨hl.user.1.trans hl.user.2, Int.le_refl _⟩, hl.sw, hl.acquired⟩
  · rw [if_neg hov]
    refine reads_get (reads_modify (reads_pure ⟨h.engines, fun hon => ?_⟩
      ⟨hx.1.modStream fun st => ⟨st.hwCount, st.swCount, st.userCount + 1, rfl⟩, .inr ?_⟩))
    · have hl := h.live hon
      have h0 := hl.user.1
      have hlt := hlt hon
      refine ⟨hl.enable, hl.cached, ⟨?_, ?_⟩, hl.sw, hl.acquired⟩
      · show 0 ≤ x.rxStream.userCount + 1
        omega
      · show x.rxStream.userCount + 1 ≤ x.rxStream.hwCount
        omega
    · rw [← hx.2]
      exact ⟨rfl, rfl, rfl, rfl⟩

/-- A difference of the counts that is not 0 is positive. -/
theorem user_lt_hwCount (h : RxCounts fd i on x k)
    (hne : toInt32 (x.rxStream.hwCount - x.rxStream.userCount) ≠ 0) (hon : on) :
    x.rxStream.userCount < x.rxStream.hwCount := by
  refine (h.live hon).user.2.lt_of_ne fun he => hne ?_
  rw [he, Int.sub_self, toInt32_zero]

theorem waitRead_reads (hcc : NoOverflow i N cc) (hx : Unmoved x₀ x) (h : RxCounts fd i on x k)
    (hno : N → x.rxStream.hwCount - x.rxStream.swCount ≤ (dmaBufferCount / 2 : Nat)) (t : Int) :
    ReadsWP fd i on cc (AcquireResult N x₀) (Unmoved x₀) (waitRead t) x k := by
  have htimeout : AcquireResult N x₀ (.code soapySdrTimeout) x :=
    ⟨hx.1, .inl ⟨by decide, fun _ => hx.2⟩⟩
  refine reads_get ?_
  dsimp only
  split
  · split
    · exact reads_pure h htimeout
    · refine reads_call h fun k₁ o r k₂ h₁ hc => ?_
      change Int at r
      obtain ⟨en, hen⟩ := h₁.engines
      obtain ⟨p, hp, -⟩ := hen.file
      obtain ⟨rfl, -⟩ := kernelCall_poll hp hc
      split
      · exact reads_halt h₁ hx
      · split
        · exact reads_pure h₁ htimeout
        · refine reads_dmaCounts h₁ (fun _ => rfl) hcc fun hw sw k₃ h₃ hle => reads_get ?_
          refine reads_assert h₃ (hx.counts hw sw) fun hpos => ?_
          exact finishRead_reads (hx.counts hw sw) h₃ (user_lt_hwCount h₃ hpos.ne') hle
  · rename_i hne
    exact finishRead_reads hx h (user_lt_hwCount h hne) hno

theorem acquireReadBuffer_reads (hcc : NoOverflow i N cc) (h : RxCounts fd i on x k) (t : Int) :
    ReadsWP fd i on cc (AcquireResult N x) (Unmoved x) (acquireReadBuffer .rx t) x k := by
  show World.WP _ _ _ _ _ k
  rw [acquireReadBuffer_rx_apply]
  split
  · exact reads_dmaCounts h (fun _ => rfl) hcc fun hw sw k' h' hle =>
      waitRead_reads hcc ((Unmoved.refl x).counts hw sw) h' hle t
  · exact reads_halt (φ := AcquireResult N x) h (Unmoved.refl x)

/-! ## The record and the remainder -/

/-- Before the first samples of an activation are read: nothing was acquired, and no remainder is
there; or buffer 0 is the remainder, and still whole. -/
def AtStart (rs : List ReadRec) (st : Stream) : Prop :=
  (acquiredHandles rs = [] ∧ st.userCount = 0 ∧ st.remainderHandle < 0 ∧ st.remainderOffset = 0) ∨
    (st.remainderHandle = 0 ∧ st.remainderBuff = 0 ∧ st.remainderOffset = 0 ∧
      0 < st.remainderSamps)

/-- The stream and the record since an activation. -/
structure Began (hwCount : Int) (rs : List ReadRec) (st : Stream) : Prop where
  base : hwCount = 0
  first : ∀ p, firstRead rs = some p → p = (0, 0)
  own : OwnHandles rs
  remainder : 0 ≤ st.remainderHandle → Own rs st.remainderHandle
  start : firstRead rs = none → AtStart rs st

/-- The counters of the library are no part of it, once samples were read. -/
theorem Began.congr {hw : Int} {rs : List ReadRec} {st st' : Stream} (h : Began hw rs st)
    (huser : firstRead rs = none → st.userCount = 0 → st'.userCount = 0)
    (hrem : st'.remainderHandle = st.remainderHandle ∧ st'.remainderBuff = st.remainderBuff ∧
      st'.remainderOffset = st.remainderOffset ∧ st'.remainderSamps = st.remainderSamps) :
    Began hw rs st' := by
  obtain ⟨hh, hb, ho, hs⟩ := hrem
  refine ⟨h.base, h.first, h.own, by rw [hh]; exact h.remainder, fun h0 => ?_⟩
  unfold AtStart
  rw [hh, hb, ho, hs]
  exact (h.start h0).imp_left fun ⟨hacq, hu, hlt⟩ => ⟨hacq, huser h0 hu, hlt⟩

/-- A part of the buffer `remainderHandle` was just read: `n` samples of it. -/
structure Reading (n : Nat) (hwCount : Int) (rs : List ReadRec) (st : Stream) : Prop where
  base : hwCount = 0
  first : ∀ p, firstRead rs = some p → p = (0, 0)
  own : OwnHandles rs
  remainder : Own rs st.remainderHandle
  start : firstRead rs = none → n = 0 ∧ st.remainderHandle = 0 ∧ st.remainderBuff = 0 ∧
    st.remainderOffset = 0 ∧ 0 < st.remainderSamps

theorem toInt32_le {z : Int} (h : 0 ≤ z) : toInt32 z ≤ z := by
  by_cases hz : z < 2 ^ 31
  · exact (toInt32_eq (by omega) hz).le
  · have : toInt32 z < (2 ^ 32 + 1) / 2 := Int.bmod_lt (by decide)
    omega

/-- The handles of an activation that goes on were counted. -/
theorem RxCounts.own_lt {handle : Int} (h : RxCounts fd i on x k)
    (hown : Since (fun _ rs _ => Own rs handle) x) (hon : on) :
    handle + 1 ≤ (k.dev.dir i .writer).hwCount := by
  obtain ⟨hw, rs, hrs, hacq⟩ := (h.live hon).acquired
  obtain ⟨a, ha, rfl⟩ := hown hw rs hrs
  have hle := toInt32_le (hacq a ha).1
  have hlt := (hacq a ha).2
  omega

/-- The mapped bytes are read. -/
theorem readOut_reads (h : RxCounts fd i on x k) (src len base : Nat) (format : String)
    (cs : List (Nat × Nat)) :
    ReadsWP fd i on cc (fun _ x' => x' = x) ψ (readOut src len base format cs) x k := by
  induction cs generalizing k with
  | nil => exact reads_pure h rfl
  | cons c cs ih =>
    refine reads_call h fun k₁ o r k₂ h₁ hc => ?_
    have hk : k₂ = k₁ := by
      cases o <;> cases hc
      rfl
    subst hk
    refine reads_bind (ih h₁) fun stores x' k' h' hx' => ?_
    exact reads_pure h' hx'

/-- The release of a buffer whose samples were read. -/
theorem release_reads {C : Prop} (h : RxCounts fd i on x k) (hb : Since Began x)
    (hown : Since (fun _ rs st => Own rs st.remainderHandle ∧ firstRead rs ≠ none) x) :
    ReadsWP fd i on cc (fun _ x' => Since Began x' ∧
        Since (fun _ rs _ => firstRead rs = none → C) x' ∧ x'.rxStream.remainderHandle < 0)
      (Since Began)
      (do
        record (.released x.rxStream.remainderHandle)
        releaseReadBuffer x.rxStream.remainderHandle
        Proc.modify (modStream .writer fun st =>
          { st with remainderHandle := -1, remainderOffset := 0 })) x k := by
  have hrec : ∀ hw, ReadRec.released x.rxStream.remainderHandle ≠ .activated .writer hw := by simp
  have hfirst : ∀ rs, firstRead (rs ++ [.released x.rxStream.remainderHandle]) = firstRead rs := by
    intro rs
    rw [firstRead_append]
    exact Option.or_none
  have hrx : Since (fun hw rs st => Began hw rs st ∧ Own rs x.rxStream.remainderHandle ∧
      firstRead rs ≠ none) x := fun hw rs hs => ⟨hb hw rs hs, hown hw rs hs⟩
  have hy : Since (fun hw rs st => Began hw rs st ∧ Own rs x.rxStream.remainderHandle ∧
      firstRead rs ≠ none) (x.addRecord (.released x.rxStream.remainderHandle)) := by
    refine hrx.record hrec fun hw rs st ⟨hbegan, ho, hne⟩ => ⟨?_, ho.append _, by rwa [hfirst]⟩
    refine ⟨hbegan.base, by rw [hfirst]; exact hbegan.first, hbegan.own.append ho,
      fun hpos => (hbegan.remainder hpos).append _, fun h0 => absurd ((hfirst rs).symm.trans h0) hne⟩
  have h₁ : RxCounts fd i on (x.addRecord (.released x.rxStream.remainderHandle)) k :=
    h.record hrec fun _ a ha => by cases ha
  refine reads_modify ?_
  unfold releaseReadBuffer
  rw [bind_assoc]
  have hψ : Since Began (x.addRecord (.released x.rxStream.remainderHandle)) :=
    hy.mono fun hw rs h => h.1
  refine reads_assert h₁ hψ fun _ => ?_
  rw [bind_assoc]
  refine reads_update h₁ hψ (fun k hk hon => hk.own_lt (hy.mono fun _ _ h => h.2.1) hon)
    fun r k' h' => ?_
  have hneg : (-1 : Int) < 0 := by decide
  refine reads_modify (reads_pure (a := ()) (h'.modify fun _ => ⟨rfl, rfl⟩)
    ⟨hy.modify fun hw rs hr => ?_, hy.modify fun hw rs hr h0 => absurd h0 hr.2.2, hneg⟩)
  exact ⟨hr.1.base, hr.1.first, hr.1.own, fun hpos => absurd hpos hneg.not_ge,
    fun h0 => absurd h0 hr.2.2⟩

/-- The end of a read: the buffer is released if nothing of it is left. -/
theorem consume_reads {len : Nat} {C : Prop} (h : RxCounts fd i on x k)
    (hb : Since (Reading len) x) (hC : Since (fun _ rs _ => firstRead rs = none → C) x) :
    ReadsWP fd i on cc (fun _ x' => Since Began x' ∧
        Since (fun _ rs _ => firstRead rs = none → C) x' ∧
          (x.rxStream.remainderSamps ≤ len → x'.rxStream.remainderHandle < 0))
      (Since Began) (consume len) x k := by
  refine reads_modify (reads_get ?_)
  have h₁ := h.modify (f := fun st =>
    { st with remainderSamps := st.remainderSamps - len
              remainderOffset := st.remainderOffset + len }) fun _ => ⟨rfl, rfl⟩
  by_cases h0 : x.rxStream.remainderSamps - len = 0
  · have hne : ∀ hw rs, Reading len hw rs x.rxStream → firstRead rs ≠ none := by
      intro hw rs hr hnone
      obtain ⟨rfl, -, -, -, hs⟩ := hr.start hnone
      omega
    refine (if_pos h0).symm ▸ (release_reads (C := C) h₁ (hb.modify fun hw rs hr => ?_)
      (hb.modify fun hw rs hr => ⟨hr.remainder, hne hw rs hr⟩)).mono ?_
    · exact ⟨hr.base, hr.first, hr.own, fun _ => hr.remainder, fun hnone =>
        absurd hnone (hne hw rs hr)⟩
    · rintro ⟨e | u, x'⟩ k' ⟨hk, hx⟩
      · exact ⟨hk, hx⟩
      · exact ⟨hk, hx.1, hx.2.1, fun _ => hx.2.2⟩
  · refine (if_neg h0).symm ▸ reads_pure h₁ ⟨hb.modify fun hw rs hr => ?_, hC,
      fun hle => absurd (Nat.sub_eq_zero_of_le hle) h0⟩
    refine ⟨hr.base, hr.first, hr.own, fun _ => hr.remainder, fun hnone => .inr ?_⟩
    obtain ⟨rfl, hh, hbuff, hoff, hs⟩ := hr.start hnone
    exact ⟨hh, hbuff, hoff, hs⟩

/-- A read of the buffer `remainderHandle` from the offset `src` on is possible: the first one of an
activation starts at the beginning of buffer 0. -/
structure Readable (src : Nat) (hwCount : Int) (rs : List ReadRec) (st : Stream) : Prop where
  base : hwCount = 0
  first : ∀ p, firstRead rs = some p → p = (0, 0)
  own : OwnHandles rs
  remainder : Own rs st.remainderHandle
  start : firstRead rs = none → st.remainderHandle = 0 ∧ st.remainderBuff = 0 ∧
    st.remainderOffset = 0 ∧ 0 < st.remainderSamps ∧ src = 0

theorem firstRead_read (rs : List ReadRec) (handle : Int) (src len : Nat) :
    firstRead (rs ++ [.read handle src len]) =
      (firstRead rs).or (if 0 < len then some (handle, src) else none) := by
  rw [firstRead_append]
  simp [firstRead]

theorem firstRead_read_none {rs : List ReadRec} {handle : Int} {src len : Nat}
    (h : firstRead (rs ++ [.read handle src len]) = none) : firstRead rs = none ∧ len = 0 := by
  rw [firstRead_read, Option.or_eq_none_iff] at h
  refine ⟨h.1, ?_⟩
  by_contra hlen
  rw [if_pos (Nat.pos_of_ne_zero hlen)] at h
  cases h.2

theorem Readable.read {hw : Int} {rs : List ReadRec} {st : Stream} {src : Nat}
    (h : Readable src hw rs st) (len : Nat) :
    Reading len hw (rs ++ [.read st.remainderHandle src len]) st := by
  refine ⟨h.base, fun p hp => ?_, h.own.append h.remainder, h.remainder.append _, fun hnone => ?_⟩
  · rw [firstRead_read] at hp
    cases hr : firstRead rs with
    | some q =>
      rw [hr, Option.some_or] at hp
      cases hp
      exact h.first _ hr
    | none =>
      obtain ⟨hh, -, -, -, hsrc⟩ := h.start hr
      rw [hr, Option.none_or, hh, hsrc] at hp
      split at hp
      · cases hp
        rfl
      · cases hp
  · obtain ⟨hnone, hlen⟩ := firstRead_read_none hnone
    obtain ⟨hh, hbuff, hoff, hs, -⟩ := h.start hnone
    exact ⟨hlen, hh, hbuff, hoff, hs⟩

/-- `len` samples of the buffer `remainderHandle` are read, and counted. -/
theorem reads_read {src len base : Nat} {C : Prop} {l : Nat} {format : String}
    {cs : List (Nat × Nat)} {f : List Store → Dev n α} (h : RxCounts fd i on x k)
    (hb : Since (Readable src) x)
    (hC : Since (fun _ rs _ => firstRead rs = none → len = 0 → C) x)
    (hk : ∀ stores x' k', RxCounts fd i on x' k' → Since Began x' →
      Since (fun _ rs _ => firstRead rs = none → C) x' →
      (x.rxStream.remainderSamps ≤ len → x'.rxStream.remainderHandle < 0) →
      ReadsWP fd i on cc φ (Since Began) (f stores) x' k') :
    ReadsWP fd i on cc φ (Since Began)
      (do
        record (.read x.rxStream.remainderHandle src len)
        let stores ← readOut src l base format cs
        consume len
        f stores) x k := by
  have hrec : ∀ hw, ReadRec.read x.rxStream.remainderHandle src len ≠ .activated .writer hw := by
    simp
  have hx : Since (fun hw rs st => Readable src hw rs st ∧
      st.remainderHandle = x.rxStream.remainderHandle ∧ (firstRead rs = none → len = 0 → C)) x :=
    fun hw rs hs => ⟨hb hw rs hs, rfl, hC hw rs hs⟩
  refine reads_modify ?_
  have h₁ : RxCounts fd i on (x.addRecord (.read x.rxStream.remainderHandle src len)) k :=
    h.record hrec fun _ a ha => by cases ha
  refine reads_bind (readOut_reads h₁ src l base format cs) fun stores x' k' h' hx' => ?_
  subst hx'
  refine reads_bind (consume_reads (C := C) h' (hx.record hrec fun hw rs st hr => ?_)
    (hx.record hrec fun hw rs st hr hnone => ?_)) fun u x₂ k₂ h₂ hx₂ => ?_
  · rw [← hr.2.1]
    exact hr.1.read len
  · obtain ⟨hnone, hlen⟩ := firstRead_read_none hnone
    exact hr.2.2 hnone hlen
  · exact hk stores x₂ k₂ h₂ hx₂.1 hx₂.2.1 hx₂.2.2

/-! ## `readStream` -/

/-- A buffer that was acquired is the next remainder. -/
theorem Began.acquired {hw : Int} {rs : List ReadRec} {st st' : Stream} (h : Began hw rs st)
    (hlt : st.remainderHandle < 0) (hh : st'.remainderHandle = toInt32 st.userCount)
    (hbuff : st'.remainderBuff =
      (getDirectAccessBufferAddrs .writer (st.userCount % dmaBufCount .writer)).toNat)
    (hoff : st'.remainderOffset = st.remainderOffset) (hs : 0 < st'.remainderSamps) :
    Readable st'.remainderBuff hw (rs ++ [.acquired st.userCount]) st' := by
  have hfirst : firstRead (rs ++ [.acquired st.userCount]) = firstRead rs := by
    rw [firstRead_append]
    exact Option.or_none
  refine ⟨h.base, by rw [hfirst]; exact h.first, h.own.append trivial,
    ⟨st.userCount, ?_, hh.symm⟩, fun hnone => ?_⟩
  · rw [acquiredHandles_append]
    exact List.mem_append_right _ List.mem_cons_self
  · rcases h.start (hfirst ▸ hnone) with ⟨-, huser, -, ho⟩ | ⟨h0, -⟩
    · rw [hh, hbuff, hoff, huser]
      exact ⟨rfl, rfl, ho, hs, rfl⟩
    · omega

theorem readFresh_reads (hcc : NoOverflow i N cc) (h : RxCounts fd i on x k) (hb : Since Began x)
    (hlt : x.rxStream.remainderHandle < 0)
    (hN : Since (fun _ rs _ => firstRead rs = none → N) x) (returnedElems sampAvail : Nat)
    (stores : List Store) (t : Int) :
    ReadsWP fd i on cc (fun _ => Since Began) (Since Began)
      (readFresh returnedElems sampAvail stores t) x k := by
  -- before the first buffer is acquired, the next handle stays the same
  have hsame : ∀ {x'}, SameButCounts x x' → (N → x'.rxStream.userCount = x.rxStream.userCount) →
      Since Began x' := by
    rintro x' ⟨hlog, hw, sw, user, hst⟩ huser hwc rs hrs
    rw [hlog] at hrs
    refine (hb hwc rs hrs).congr (fun hnone h0 => (huser (hN hwc rs hrs hnone)).trans h0) ?_
    rw [hst]
    exact ⟨rfl, rfl, rfl, rfl⟩
  refine World.ProcWP.bind ((acquireReadBuffer_reads hcc h t).mono ?_)
  rintro ⟨e | a, x₁⟩ k₁ ⟨h₁, ha⟩
  · exact ⟨h₁, hsame ha.1 fun _ => ha.2⟩
  · show ReadsWP fd i on cc _ _ (if a.ret < 0 then _ else _) x₁ k₁
    obtain ⟨hx₁, ⟨hret, huser⟩ | ⟨hret, hhandle, hbuff, huser⟩⟩ := ha
    · rw [if_pos hret]
      split
      · exact reads_pure h₁ (hsame hx₁ huser)
      · exact reads_pure h₁ (hsame hx₁ huser)
    · rw [if_neg (by rw [hret]; decide), hhandle, hbuff, hret]
      have hacq : ∀ hw, ReadRec.acquired x.rxStream.userCount ≠ .activated .writer hw := by simp
      have h₂ : RxCounts fd i on (x₁.addRecord (.acquired x.rxStream.userCount)) k₁ := by
        refine h₁.record hacq fun hon a ha => ?_
        cases List.mem_singleton.mp ha
        have := (h₁.live hon).user.2
        exact ⟨(h.live hon).user.1, by omega⟩
      have hb₂ : Since (fun hw rs st => ∃ rs₀, rs = rs₀ ++ [.acquired x.rxStream.userCount] ∧
          Began hw rs₀ x.rxStream ∧ st.remainderOffset = x.rxStream.remainderOffset)
          (x₁.addRecord (.acquired x.rxStream.userCount)) := by
        obtain ⟨hlog, hw, sw, user, hst⟩ := hx₁
        refine Since.record (P := fun hw rs st => Began hw rs x.rxStream ∧
          st.remainderOffset = x.rxStream.remainderOffset) (fun hw rs hrs => ?_) hacq
          fun hw rs st h => ⟨rs, rfl, h⟩
        rw [hlog] at hrs
        exact ⟨hb hw rs hrs, by rw [hst]⟩
      have hpos : 0 < (getStreamMTU .writer : Int).toNat := by decide
      refine reads_modify (reads_modify (reads_get ?_))
      refine reads_read (C := True) (h₂.modify fun _ => ⟨rfl, rfl⟩)
        (hb₂.modify fun hw rs hr => ?_) (fun _ _ _ _ _ => trivial)
        fun stores' x' k' h' hb' _ _ => reads_pure h' hb'
      obtain ⟨rs₀, rfl, hbegan, hoff⟩ := hr
      exact hbegan.acquired hlt rfl rfl hoff hpos

/-- A call of `readStream`; no query of the counts finds an overflow before the activation's first
buffer is acquired. -/
theorem readStream_reads (hcc : NoOverflow i (NoneAcquired x.log) cc) (h : RxCounts fd i on x k)
    (hb : Since Began x) (numElems : Nat) (t : Int) :
    ReadsWP fd i on cc (fun _ => Since Began) (Since Began) (readStream .rx numElems t) x k := by
  unfold readStream
  rw [if_neg (by simp)]
  refine reads_get ?_
  dsimp only
  split
  · rename_i hpos
    refine reads_read
      (C := min x.rxStream.remainderSamps (min numElems (getStreamMTU .writer)) =
        min numElems (getStreamMTU .writer)) h
      (hb.mono fun hw rs hr => ⟨hr.base, hr.first, hr.own, hr.remainder hpos, fun hnone => ?_⟩)
      (hb.mono fun hw rs hr hnone hlen => ?_) fun stores x₁ k₁ h₁ hb₁ hC hrel => ?_
    · rcases hr.start hnone with ⟨-, -, hneg, -⟩ | ⟨h0, hbuff, hoff, hs⟩
      · omega
      · exact ⟨h0, hbuff, hoff, hs, by rw [hbuff, hoff]; rfl⟩
    · rcases hr.start hnone with ⟨-, -, hneg, -⟩ | ⟨-, -, -, hs⟩
      · omega
      · omega
    · split
      · exact reads_pure h₁ hb₁
      · rename_i hne
        refine readFresh_reads hcc h₁ hb₁ (hrel (by omega)) ?_ _ _ _ _
        exact fun hw rs hrs hnone => absurd (hC hw rs hrs hnone) hne
  · rename_i hneg
    refine readFresh_reads hcc h hb (by omega) (fun hw rs hrs hnone => ?_) _ _ _ _
    rcases (hb hw rs hrs).start hnone with ⟨hacq, -⟩ | ⟨h0, -⟩
    · unfold NoneAcquired
      rw [hrs, Option.map_some, hacq]
    · omega

/-! ## The other calls -/

/-- `DMA_WRITER` with 0, and the end of the call. -/
theorem deactivateStream_reads (h : RxCounts fd i on x k) (hb : Since Began x) :
    ReadsWP fd i False cc (fun _ => Since Began) (Since Began) (deactivateStream .rx) x k :=
  reads_dmaCounts (N := False) (h.off x) False.elim (fun _ _ _ => False.elim)
    fun _ _ _ h' _ => reads_pure h' (hb.modify fun _ _ hr =>
      hr.congr (fun _ => id) ⟨rfl, rfl, rfl, rfl⟩)

theorem closeStream_reads (h : RxCounts fd i on x k) (hb : Since Began x) :
    ReadsWP fd i False cc (fun _ => Since Began) (Since Began) (closeStream .rx) x k := by
  show ReadsWP fd i False cc _ _ (litepcieReleaseDma false true >>= fun _ => _) x k
  unfold litepcieReleaseDma
  rw [bind_assoc]
  refine reads_checkedIoctl (h.off x) hb fun k₁ o r k₂ h₁ hc => ?_
  have h₂ := (h₁.lock (o := o) hc).2.1
  refine ⟨h₂, reads_call h₂ fun k₃ o r k₄ h₃ hc => ?_⟩
  cases hc
  exact reads_pure (a := ()) (h₃.modify fun _ => ⟨rfl, rfl⟩)
    (hb.modify fun hw rs hr => hr.congr (fun _ => id) ⟨rfl, rfl, rfl, rfl⟩)

/-- `activateStream` starts the counts, if it finds no remainder. -/
theorem activateStream_reads (h : RxCounts fd i on x k) (hrem : x.rxStream.remainderHandle < 0)
    (hoff : x.rxStream.remainderOffset = 0) :
    ((kernelWorld n fd).guard (fun _ _ => True) (QueryOk i .activateStream x)).ProcWP
      (fun _ => True) (fun _ _ => True) (fun _ x' k' => RxCounts fd i True x' k' ∧ Since Began x')
      (fun _ _ _ => False) (activateStream .rx) x k := by
  show World.WP _ _ _ _ ((dmaCounts .writer 1 >>= _) x) k
  rw [dmaCounts_bind]
  refine rxCounts_stable.call (fun _ _ => trivial) h fun k₁ o r k₂ h₁ _ hc => ⟨trivial, ?_⟩
  obtain ⟨hq, hc⟩ := World.guard_call.mp hc
  obtain ⟨h0, hr, hen, hen1, hhw, hsw⟩ := h₁.start (o := o) hq hc
  rw [if_neg (by rw [h0]; simp), hr]
  have h₂ : RxCounts fd i True (addRecord (.activated .writer 0) (x.modStream .writer fun st =>
      { st with hwCount := 0, swCount := (dmaResp r.2).2, userCount := 0 })) k₂ := by
    refine ⟨hen, fun _ => ⟨hen1, hhw.ge, ⟨Int.le_refl 0, Int.le_refl 0⟩, hsw.trans_eq hhw.symm, 0,
      [], sinceActivation_activated _ _, fun a ha => by cases ha⟩⟩
  refine rxCounts_stable.ret (fun _ _ => trivial) h₂ fun k₃ h₃ _ => ⟨h₃, fun hw rs hrs => ?_⟩
  cases (sinceActivation_activated _ _).symm.trans hrs
  refine ⟨rfl, fun p hp => (by cases hp), fun as r bs he => ?_, fun hpos => ?_, fun _ => .inl ?_⟩
  · cases as <;> cases he
  · exact absurd hpos hrem.not_ge
  · exact ⟨rfl, rfl, hrem, hoff⟩

/-- `setupStream` opens the stream and stops the engine, or throws and leaves both alone. -/
theorem setupDir_reads (h : RxCounts fd i on x k) (hb : Since Began x) (opened : String)
    (s : StreamPtr) (format : String) (channels : List Nat) :
    ((kernelWorld n fd).guard (fun _ _ => True) cc).ProcWP (fun _ => True) (fun _ _ => True)
      (fun _ x' k' => RxCounts fd i False x' k' ∧ Since Began x' ∧ x.rxStream.opened = false ∧
        x'.rxStream.opened = true)
      (fun _ x' k' => RxCounts fd i on x' k' ∧ Since Began x')
      (setupDir .writer opened s format channels) x k := by
  show World.WP _ _ _ _ ((Proc.get >>= _) x) k
  rw [Proc.get_bind]
  by_cases hopened : (x.stream .writer).opened = true
  · rw [if_pos hopened]
    exact rxCounts_stable.ret (fun _ _ => trivial) h fun _ h₁ _ => ⟨h₁, hb⟩
  · rw [if_neg hopened, litepcieRequestDma_bind]
    refine rxCounts_stable.call (fun _ _ => trivial) h fun k₁ o r k₂ h₁ _ hc => ⟨trivial, ?_⟩
    obtain ⟨h0, h₂, hw⟩ := h₁.lock (o := o) (World.guard_call.mp hc).2
    obtain ⟨w, hw⟩ := hw rfl
    rw [if_neg (by rw [h0]; simp), hw, if_neg (by simp [lockStatus]), mmap_bind]
    refine rxCounts_stable.call (fun _ _ => trivial) h₂ fun k₃ o mapped k₄ h₃ _ hc => ⟨trivial, ?_⟩
    change Bool at mapped
    obtain ⟨rfl, -⟩ := @kernelCall_mmap n fd _ _ _ .writer _ (World.guard_call.mp hc).2
    split
    · exact rxCounts_stable.ret (fun _ _ => trivial) h₃ fun _ h₄ _ => ⟨h₄, hb⟩
    · rw [dmaCounts_bind]
      refine rxCounts_stable.call (fun _ _ => trivial) h₃ fun k₅ o r k₆ h₅ _ hc => ⟨trivial, ?_⟩
      obtain ⟨h0, h₆, -⟩ := (h₅.off x).dma (o := o) False.elim (World.guard_call.mp hc).2
      rw [if_neg (by rw [h0]; simp)]
      refine rxCounts_stable.ret (fun _ _ => trivial) h₆
        fun _ h₇ _ => ⟨h₇.off _, ?_, Bool.eq_false_of_not_eq_true hopened, rfl⟩
      exact Since.modify (P := Began) (hb.modify fun hw rs hr =>
        hr.congr (fun _ => id) ⟨rfl, rfl, rfl, rfl⟩) fun hw rs hr =>
          hr.congr (fun _ => id) ⟨rfl, rfl, rfl, rfl⟩

end

/-! ## Runs -/

/-- The invariant between two calls. -/
def Kept (fd : Nat) (i : Fin n) (s : (SoapyLiteXXTRX × Driver n) × Bool) : Prop :=
  RxCounts fd i (s.2 = true) s.1.1 s.1.2 ∧ Since Began s.1.1

theorem noOverflow_readStream (numElems : Nat) (t : Int) (x : SoapyLiteXXTRX) :
    NoOverflow i (NoneAcquired x.log) (QueryOk i (.readStream numElems t) x) := fun _ _ hq => hq

section

variable {s s' : (SoapyLiteXXTRX × Driver n) × Bool}

/-- A call keeps the invariant. -/
theorem Kept.step {e : RxCall × List (Ev (Irq n) Choice)} (h : Kept fd i s)
    (hc : StartsFresh fd i s e) (hs : (readMachine n fd).step s e = some s') : Kept fd i s' := by
  obtain ⟨⟨x, k⟩, on⟩ := s
  obtain ⟨c, es⟩ := e
  obtain ⟨⟨x', k'⟩, hst, rfl⟩ := Option.map_eq_some_iff.mp hs
  obtain ⟨r, hex, -⟩ := World.session_step hst
  obtain ⟨hk, hb⟩ := h
  obtain ⟨hrem, ha⟩ := hc
  have hends : ∀ {P : SoapyLiteXXTRX → Driver n → Prop},
      World.ends (fun _ : Unit => P) (fun _ : Halt => P) (r, x') k' → P x' k' := by
    intro P hP
    cases r with
    | ok _ => exact hP
    | error _ => exact hP
  cases c with
  | setupStream format channels =>
    have hpost := (World.ProcWP.void (setupDir_reads hk hb _ _ format channels)).exec_along ha hex
    cases r with
    | ok _ =>
      obtain ⟨hk', hb', hx, hx'⟩ := hpost
      change x.rxStream.opened = false at hx
      refine ⟨hk'.imp fun hon => ?_, hb'⟩
      simp [onAfter, hx, hx'] at hon
    | error _ => exact ⟨hpost.1.imp fun hon => (Bool.and_eq_true_iff.mp hon).1, hpost.2⟩
  | activateStream =>
    have hpost := (World.ProcWP.void
      (activateStream_reads hk (hrem rfl).1 (hrem rfl).2)).exec_along ha hex
    cases r with
    | ok _ => exact ⟨hpost.1.imp fun _ => trivial, hpost.2⟩
    | error _ => exact hpost.elim
  | readStream numElems t =>
    exact hends ((World.ProcWP.void
      (readStream_reads (noOverflow_readStream numElems t x) hk hb numElems t)).exec_along ha hex)
  | deactivateStream =>
    obtain ⟨hk', hb'⟩ := hends
      ((World.ProcWP.void (deactivateStream_reads hk hb)).exec_along ha hex)
    exact ⟨hk'.imp fun hon => (by cases hon), hb'⟩
  | closeStream =>
    obtain ⟨hk', hb'⟩ := hends ((closeStream_reads hk hb).exec_along ha hex)
    exact ⟨hk'.imp fun hon => (by cases hon), hb'⟩

theorem Since.fresh {x : SoapyLiteXXTRX} (h : Since Began x) : Since FreshReads x :=
  h.mono fun _ _ hb => ⟨fun p hp => ⟨hb.base, hb.first p hp⟩, hb.own⟩

theorem Kept.fresh (h : Kept fd i s) : Fresh i s := ⟨h.2.fresh, h.1.sw_le⟩

theorem Kept.freshDuring (h : Kept fd i s) : FreshDuring fd i s := by
  intro numElems t fs hc
  have hwp := World.ProcWP.void (readStream_reads
    (noOverflow_readStream numElems t s.1.1) h.1 h.2 numElems t)
  refine ⟨hwp.always hc.2, fun r x' k' hex => ?_⟩
  have hpost := hwp.exec_along hc.2 hex
  cases r with
  | ok _ => exact hpost.2.fresh
  | error _ => exact hpost.2.fresh

end

/-- Re-activation starts fresh along every run that meets the condition, from a state without an
activation. -/
theorem reactivation_fresh (x : SoapyLiteXXTRX) (k : Driver n) (hx : sinceActivation x.log = none)
    (hk : ∃ p, k.files fd = some p ∧ p.chan = i)
    (es : List (RxCall × List (Ev (Irq n) Choice)))
    (ha : (readMachine n fd).Along (StartsFresh fd i) es ((x, k), false)) :
    (readMachine n fd).Always (fun s => Fresh i s ∧ FreshDuring fd i s) es ((x, k), false) := by
  refine Machine.always_of_along (fun s e s' h hc hs => Kept.step h hc hs)
    (fun s h => ⟨h.fresh, h.freshDuring⟩) ⟨⟨⟨_, hk, fun d => rfl⟩, fun hon => by cases hon⟩, ?_⟩ ha
  intro hw rs hrs
  rw [hx] at hrs
  cases hrs

/-- The stream is set up, started, and reads `numElems` elements of the first buffer; then it is
stopped and started again, and reads `numElems'` elements. -/
def restartRun (numElems numElems' : Nat) (es es' : List (Ev (Irq 1) Choice)) :
    List (RxCall × List (Ev (Irq 1) Choice)) :=
  [(.setupStream soapySdrCs16 [], [.thr .ready, .thr .ready, .thr .ready]),
    (.activateStream, [.thr .ready]),
    (.readStream numElems 0, .env ⟨0, .writer, 1⟩ :: .thr .ready :: es),
    (.deactivateStream, [.thr .ready]),
    (.activateStream, [.thr .ready]),
    (.readStream numElems' 0, es')]

/-- Two loads, one for each channel. -/
def loads : List (Ev (Irq 1) Choice) := [.thr (.bytes fun _ => 0), .thr (.bytes fun _ => 0)]

/-- The first buffer is read whole. -/
theorem reactivation_fresh_whole :
    (readMachine 1 3).Always (fun s => Fresh 0 s ∧ FreshDuring 3 0 s)
      (restartRun 8192 192 (loads ++ [.thr .ready]) (.env ⟨0, .writer, 1⟩ :: .thr .ready :: loads))
      ((newDevice, oneOpen), false) := by
  have ha : (readMachine 1 3).Along (StartsFresh 3 0) (restartRun 8192 192 (loads ++ [.thr .ready])
      (.env ⟨0, .writer, 1⟩ :: .thr .ready :: loads)) ((newDevice, oneOpen), false) := by
    decide +kernel
  have hk : ∃ p, oneOpen.files 3 = some p ∧ p.chan = 0 := ⟨_, rfl, rfl⟩
  exact reactivation_fresh newDevice oneOpen rfl hk _ ha

/-- The first buffer is read in part: its rest is returned in the new activation, and the buffer
released, which leaves `writer_sw_count` at 1 and `writer_hw_count` at 0. -/
theorem reactivation_stale :
    ¬ (readMachine 1 3).Always (Fresh 0) (restartRun 8000 192 loads (loads ++ [.thr .ready]))
      ((newDevice, oneOpen), false) := by
  intro h
  have hlast : ((readMachine 1 3).run (restartRun 8000 192 loads (loads ++ [.thr .ready]))
      ((newDevice, oneOpen), false)).map (fun s => (sinceActivation s.1.1.log, s.2,
        (s.1.2.dev.dir 0 .writer).swCount, (s.1.2.dev.dir 0 .writer).hwCount)) =
      some (some (0, [.read 0 16000 192, .released 0]), true, 1, 0) := by
    decide +kernel
  obtain ⟨s, hs, hv⟩ := Option.map_eq_some_iff.mp hlast
  obtain ⟨hlog, -⟩ := Prod.mk.inj hv
  have hfirst := ((h.run hs).1 _ _ hlog).1 (0, 16000) rfl
  exact absurd hfirst.2 (by decide)

end Soapy
end Xtrx
