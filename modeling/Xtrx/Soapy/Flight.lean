import Xtrx.Soapy.Streaming

/-!
# Buffers in flight

A client of the direct buffer API activates a stream and then acquires buffers, one call after the
other; it releases the buffers it has at any time, also while an acquire call waits (another thread
may do it). The world of such a client is the driver with a record of the buffers in flight:

- **`Flight`**: `held` lists the handles that were acquired and not released, each with a flag that
  an overflow drain has discarded it. `user` is the next handle to hand out, `released` the one behind
  the last handle released, `fetched` the hardware count at the library's last `DMA_WRITER` or
  `DMA_READER` ioctl, `log` what the acquire calls returned. No call reads the record.
- **`flightWorld`**: interrupts, releases of held buffers, and the system calls of the library.
- **`acquireAll`**: the client. It marks the beginning and the end of each acquire call
  (`Sysc.note`), catches the exceptions, and ends at a failed assertion.

The rules of the library's calls (`wp_…`) hold for every guard of the world, and for every
assertion about the device object and the state that the environment keeps.
-/

namespace Xtrx
namespace Soapy

open Conc Kernel User SoapyLiteXXTRX

variable {n : Nat}

/-- A buffer that an acquire call handed out. -/
structure Held where
  handle : Int
  discarded : Bool
  deriving DecidableEq

/-- What an acquire call returned: the return value, the handle, and the hardware count at its last
ioctl for the counts. -/
structure Left where
  ret : Int
  handle : Int
  fetched : Int
  deriving DecidableEq

/-- The driver and the buffers in flight (module doc). -/
structure Flight (n : Nat) where
  drv : Driver n
  held : List Held
  user : Int
  released : Int
  fetched : Int
  log : List Left

namespace Flight

/-- The counts of direction `d` of channel `i`. -/
def hw (s : Flight n) (i : Fin n) (d : Dir) : Int := (s.drv.dev.dir i d).hwCount

def sw (s : Flight n) (i : Fin n) (d : Dir) : Int := (s.drv.dev.dir i d).swCount

/-- The end of an acquire call: a drain leaves the next handle at the hardware count; else the
handle is held. -/
def left (s : Flight n) (ret : Int) : Option Int → Flight n
  | none => s
  | some h =>
    if ret = soapySdrOverflow then { s with user := s.fetched }
    else
      { s with held := s.held ++ [⟨h, false⟩], user := h + 1
               log := s.log ++ [⟨ret, h, s.fetched⟩] }

/-- The record after a call of the library. -/
def record (s : Flight n) : (q : Sysc n) → q.Ans → Flight n
  | .ioctl (.dmaWriter _), (_, some c) => { s with fetched := c.1 }
  | .ioctl (.dmaReader _), (_, some c) => { s with fetched := c.1 }
  | .ioctl (.mmapDmaWriterUpdate _), _ =>
    { s with held := s.held.map fun b => { b with discarded := true } }
  | .note (.left ret handle), _ => s.left ret handle
  | _, _ => s

end Flight

/-- `LITEPCIE_IOCTL_MMAP_DMA_WRITER_UPDATE` or `LITEPCIE_IOCTL_MMAP_DMA_READER_UPDATE`. -/
def updateIoctl (d : Dir) (swCount : Int) : Driver.Ioctl n :=
  match d with
  | .writer => .mmapDmaWriterUpdate swCount
  | .reader => .mmapDmaReaderUpdate swCount

/-- The environment of the library: interrupts, and releases of held buffers. -/
inductive FlightEv (n : Nat) where
  | irq (e : Irq n)
  | release (handle : Int)

/-- The buffers in flight of the stream of direction `d`. A release is the one call of
`releaseReadBuffer` or `releaseWriteBuffer`. -/
def flightWorld (n fd : Nat) (d : Dir) : World (Sysc n) Sysc.Ans (Flight n) (FlightEv n) Choice where
  env
    | .irq e, s => some { s with drv := { s.drv with dev := e.raise s.drv.dev } }
    | .release h, s =>
      if s.held.any fun b => b.handle = h then
        (kernelCall fd (.ioctl (updateIoctl d (h + 1))) .ready s.drv).map fun r =>
          { s with drv := r.2, held := s.held.eraseP (fun b => b.handle = h), released := h + 1 }
      else none
  call q o s := (kernelCall fd q o s.drv).map fun r => (r.1, { s with drv := r.2 }.record q r.1)

/-- A client that acquires once for each timeout. -/
def acquireAll (acquire : Int → Dev n Acquired) : List Int → Dev n Unit
  | [] => pure ()
  | timeoutUs :: ts => do
    note .enter
    match ← Proc.attempt (acquire timeoutUs) with
    | .ok a =>
      note (.left a.ret a.handle)
      acquireAll acquire ts
    | .error (.throw _) => acquireAll acquire ts
    | .error e => Proc.halt e

/-- The client has ended at a failed assertion. -/
def assertFailed {α : Type} : Prog (Sysc n) Sysc.Ans (Except Halt α × SoapyLiteXXTRX) → Bool
  | .ret (.error .assertFail, _) => true
  | _ => false

/-- The stream of an engine. -/
def StreamPtr.of : Dir → StreamPtr
  | .writer => .rx
  | .reader => .tx

/-- The device object and the driver at the beginning of an activation: `activateStream` has just
returned, and it found the engine in the state `enable`. The file descriptor is open on channel `i`.
An engine that was running keeps the counts of the activation before; `deactivateStream` leaves the one
of the TX stream running. -/
def ActivatedFrom (enable : UInt8) (fd : Nat) (i : Fin n) (d : Dir) (x : SoapyLiteXXTRX)
    (k : Driver n) : Prop :=
  ∃ x₀ k₀ p, k₀.files fd = some p ∧ p.chan = i ∧ (k₀.dev.dir i d).enable = enable ∧
    (kernelWorld n fd).exec (activateStream (StreamPtr.of d) x₀) [.thr .ready] k₀ =
      some ((.ok 0, x), k)

/-- The engine was stopped, so all counts are 0. -/
abbrev Activated (fd : Nat) (i : Fin n) (d : Dir) (x : SoapyLiteXXTRX) (k : Driver n) : Prop :=
  ActivatedFrom 0 fd i d x k

/-- No buffer is in flight at the beginning of an activation. -/
def Flight.start (fetched : Int) (k : Driver n) : Flight n where
  drv := k
  held := []
  user := 0
  released := 0
  fetched := fetched
  log := []

/-! ## Events -/

/-- The environment raises the hardware count and leaves the record of the calls alone. -/
structure Moves (i : Fin n) (d : Dir) (s s' : Flight n) : Prop where
  hw : s.hw i d ≤ s'.hw i d
  user : s'.user = s.user
  fetched : s'.fetched = s.fetched

/-- The file descriptor is open on channel `i`, and the engine of direction `d` is enabled. -/
structure Active (fd : Nat) (i : Fin n) (d : Dir) (k : Driver n) : Prop where
  file : ∃ p, k.files fd = some p ∧ p.chan = i
  enable : (k.dev.dir i d).enable = 1

section

variable {fd : Nat} {i : Fin n} {d : Dir} {s s' : Flight n}

theorem Moves.refl (s : Flight n) : Moves i d s s := ⟨Int.le_refl _, rfl, rfl⟩

theorem Moves.trans {s s' s'' : Flight n} (h : Moves i d s s') (h' : Moves i d s' s'') :
    Moves i d s s'' :=
  ⟨Int.le_trans h.hw h'.hw, h'.user.trans h.user, h'.fetched.trans h.fetched⟩

/-- `activateStream` is one ioctl. -/
theorem exec_activateStream {k : Driver n} {p : ChanPriv n} (hp : k.files fd = some p) (d : Dir)
    (x : SoapyLiteXXTRX) :
    (kernelWorld n fd).exec (activateStream (StreamPtr.of d) x) [.thr .ready] k =
      some ((.ok 0, (x.modStream d fun st =>
        { st with hwCount := (Driver.ioctlDma d p.chan 1 k.dev).1.1
                  swCount := (Driver.ioctlDma d p.chan 1 k.dev).1.2
                  userCount := 0 }).addRecord
            (.activated d (Driver.ioctlDma d p.chan 1 k.dev).1.1)),
        { k with dev := (Driver.ioctlDma d p.chan 1 k.dev).2 }) := by
  have hact : activateStream (StreamPtr.of d) x = (dmaCounts d 1 >>= fun _ =>
      Proc.modify (modStream d fun st => { st with userCount := 0 }) >>= fun _ =>
        Proc.get >>= fun x => record (.activated d (x.stream d).hwCount) >>= fun _ =>
          pure 0 : Dev n Int) x := by
    cases d <;> rfl
  rw [hact, dmaCounts_bind, World.exec_iff]
  refine Machine.run_cons.mpr ⟨_, Option.map_eq_some_iff.mpr
    ⟨_, kernelCall_ioctl (o := .ready) hp _, rfl⟩, ?_⟩
  rw [litepcieIoctl_none]
  cases d <;> rfl

/-- An activation begins with an enabled engine, its hardware count fetched, and no buffer acquired.
-/
theorem ActivatedFrom.start {enable : UInt8} {x : SoapyLiteXXTRX} {k : Driver n}
    (h : ActivatedFrom enable fd i d x k) :
    Active fd i d k ∧ (x.stream d).hwCount = (k.dev.dir i d).hwCount ∧
      (x.stream d).userCount = 0 := by
  obtain ⟨x₀, k₀, p, hp, rfl, -, hx⟩ := h
  rw [exec_activateStream hp] at hx
  cases hx
  rw [Driver.counts_ioctlDma, stream_addRecord, stream_modStream, if_pos rfl]
  refine ⟨⟨⟨p, hp, rfl⟩, ?_⟩, rfl, rfl⟩
  rw [Driver.dir_ioctlDma, if_pos ⟨rfl, rfl⟩]
  rfl

theorem Activated.counts {x : SoapyLiteXXTRX} {k : Driver n} (h : Activated fd i d x k) :
    (k.dev.dir i d).hwCount = 0 ∧ (k.dev.dir i d).swCount = 0 := by
  obtain ⟨x₀, k₀, p, hp, rfl, hen, hx⟩ := h
  rw [exec_activateStream hp] at hx
  cases hx
  have hdir : (Driver.ioctlDma d p.chan 1 k₀.dev).2.dir p.chan d =
      (k₀.dev.dir p.chan d).clearCounters.setEnable 1 := by
    rw [Driver.dir_ioctlDma, if_pos ⟨rfl, rfl⟩, hen]
    rfl
  rw [hdir]
  exact ⟨rfl, rfl⟩

/-- The examples' device object, and their driver: one channel, probed and open as file 3. Then both
after the start of the engine of direction `d`. -/
def newDevice : SoapyLiteXXTRX := ⟨Stream.new 0 0 0, Stream.new 0 0 0, []⟩

def oneOpen : Driver 1 := Driver.litepcieOpen 3 0 (Driver.probed fun _ => 0)

def newStarted (d : Dir) : SoapyLiteXXTRX := newDevice.addRecord (.activated d 0)

def oneStarted (d : Dir) : Driver 1 :=
  { oneOpen with dev := (Driver.ioctlDma d 0 1 oneOpen.dev).2 }

theorem activated_oneStarted (d : Dir) : Activated 3 0 d (newStarted d) (oneStarted d) := by
  have hp : oneOpen.files 3 = some ⟨0, false, false⟩ := rfl
  have hen : (oneOpen.dev.dir 0 d).enable = 0 := by cases d <;> rfl
  refine ⟨newDevice, oneOpen, _, hp, rfl, hen, ?_⟩
  rw [exec_activateStream hp, Driver.counts_ioctlDma, Driver.dir_ioctlDma, if_pos ⟨rfl, rfl⟩, hen]
  cases d <;> rfl

/-- An update of the software count. -/
theorem kernelCall_update {k k' : Driver n} {o : Choice} {v : Int}
    {r : Int × Option (updateIoctl d v : Driver.Ioctl n).Resp} (hA : Active fd i d k)
    (h : kernelCall fd (.ioctl (updateIoctl d v)) o k = some (r, k')) :
    r.1 = 0 ∧ k' = { k with dev := k.dev.modDir i d fun c => c.setSwCount v } := by
  obtain ⟨⟨p, hp, rfl⟩, -⟩ := hA
  rw [kernelCall_ioctl hp, litepcieIoctl_none] at h
  cases d <;> cases h <;> exact ⟨rfl, rfl⟩

theorem Active.update {k : Driver n} (hA : Active fd i d k) (v : Int) :
    Active fd i d { k with dev := k.dev.modDir i d fun c => c.setSwCount v } := by
  refine ⟨hA.file, ?_⟩
  rw [LitepcieDevice.dir_modDir_self]
  exact hA.enable

/-- An interrupt raises the hardware count, by 0 if it is one of another direction. -/
theorem flight_irq {e : Irq n} (h : (flightWorld n fd d).env (.irq e) s = some s')
    (hA : Active fd i d s.drv) :
    Active fd i d s'.drv ∧
      s'.hw i d = s.hw i d + (if i = e.chan ∧ d = e.dir then (e.k : Int) else 0) ∧
      s'.sw i d = s.sw i d ∧ s'.held = s.held ∧ s'.user = s.user ∧ s'.fetched = s.fetched ∧
      s'.log = s.log := by
  cases h
  obtain ⟨hhw, hsw, hen, -⟩ := e.dir_raise s.drv.dev i d
  exact ⟨⟨hA.file, hen.trans hA.enable⟩, hhw, hsw, rfl, rfl, rfl, rfl⟩

theorem released_env {e : FlightEv n} (h : (flightWorld n fd d).env e s = some s') :
    s'.released = match e with
      | .irq _ => s.released
      | .release h => h + 1 := by
  cases e with
  | irq e =>
    cases h
    rfl
  | release h' =>
    simp only [flightWorld] at h
    split at h
    · obtain ⟨r, -, rfl⟩ := Option.map_eq_some_iff.mp h
      rfl
    · cases h

/-- A release sets the software count behind the handle. -/
theorem flight_release {h : Int} (he : (flightWorld n fd d).env (.release h) s = some s')
    (hA : Active fd i d s.drv) :
    (∃ b ∈ s.held, b.handle = h) ∧ Active fd i d s'.drv ∧ s'.hw i d = s.hw i d ∧
      s'.sw i d = h + 1 ∧ s'.held = s.held.eraseP (fun b => b.handle = h) ∧ s'.user = s.user ∧
      s'.fetched = s.fetched ∧ s'.log = s.log := by
  simp only [flightWorld] at he
  split at he
  · rename_i hany
    obtain ⟨⟨r, k'⟩, hk, rfl⟩ := Option.map_eq_some_iff.mp he
    obtain ⟨-, hk'⟩ := kernelCall_update hA hk
    refine ⟨by simpa using hany, ?_⟩
    have hd : (k'.dev.dir i d) = (s.drv.dev.dir i d).setSwCount (h + 1) := by
      rw [hk']
      exact LitepcieDevice.dir_modDir_self ..
    unfold Flight.hw Flight.sw
    rw [hd]
    exact ⟨hk' ▸ hA.update (h + 1), rfl, rfl, rfl, rfl, rfl, rfl⟩
  · cases he

end

/-! ## Rules -/

/-- A client whose post-condition excludes a failed assertion. -/
theorem not_assertFailed {W : World (Sysc n) Sysc.Ans (Flight n) (FlightEv n) Choice} {α : Type}
    {I : Flight n → Prop} {G : Flight n → Flight n → Prop}
    {R : α → SoapyLiteXXTRX → Flight n → Prop} {F : Halt → SoapyLiteXXTRX → Flight n → Prop}
    {p : Prog (Sysc n) Sysc.Ans (Except Halt α × SoapyLiteXXTRX)} {s : Flight n}
    (h : W.WP I G (World.ends R F) p s) (hF : ∀ x s, ¬ F .assertFail x s) :
    assertFailed p = false := by
  unfold assertFailed
  split
  · exact absurd h.ret_post (hF _ _)
  · rfl

theorem record_dma {s : Flight n} {d : Dir} {enable : UInt8}
    {r : Int × Option (dmaIoctl d enable : Driver.Ioctl n).Resp} (h : r.2.isSome) :
    s.record (.ioctl (dmaIoctl d enable)) r = { s with fetched := (dmaResp r.2).1 } := by
  obtain ⟨status, resp⟩ := r
  cases d <;> cases resp with
  | none => cases h
  | some c => rfl

section

variable {fd : Nat} {i : Fin n} {d : Dir} {ce : Flight n → FlightEv n → Prop}
  {cc : Flight n → Sysc n → Prop} {J I : Flight n → Prop} {T G : Flight n → Flight n → Prop}
  {R : Unit → SoapyLiteXXTRX → Flight n → Prop} {F : Halt → SoapyLiteXXTRX → Flight n → Prop}
  {β : Type} {S : β → SoapyLiteXXTRX → Flight n → Prop} {x : SoapyLiteXXTRX} {s : Flight n}

/-- A system call of the library in the guarded world. -/
theorem wp_call {q : Sysc n} {g : q.Ans → Prog (Sysc n) Sysc.Ans (Except Halt β × SoapyLiteXXTRX)}
    (hst : ((flightWorld n fd d).guard ce cc).Stable J T) (hI : ∀ s, J s → I s) (hs : J s)
    (hk : ∀ s₁ o r k', J s₁ → T s s₁ → cc s₁ q → kernelCall fd q o s₁.drv = some (r, k') →
      G s₁ ({ s₁ with drv := k' }.record q r) ∧
        ((flightWorld n fd d).guard ce cc).WP I G (World.ends S F) (g r)
          ({ s₁ with drv := k' }.record q r)) :
    ((flightWorld n fd d).guard ce cc).WP I G (World.ends S F) (.call q g) s := by
  refine hst.call hI hs ?_
  intro s₁ o r s₂ h₁ hT hc
  obtain ⟨hcc, hc⟩ := World.guard_call.mp hc
  obtain ⟨⟨r', k'⟩, hk', he⟩ := Option.map_eq_some_iff.mp hc
  cases he
  exact hk s₁ o r' k' h₁ hT hcc hk'

/-- Reading the counts of an enabled engine changes nothing but the record. -/
theorem wp_dmaCounts {f : Unit → Dev n β}
    (hst : ((flightWorld n fd d).guard ce cc).Stable J T) (hI : ∀ s, J s → I s) (hs : J s)
    (hA : ∀ s, J s → Active fd i d s.drv)
    (hk : ∀ s₁, J s₁ → T s s₁ →
      G s₁ { s₁ with fetched := (s₁.drv.dev.dir i d).hwCount } ∧
        ((flightWorld n fd d).guard ce cc).ProcWP I G S F (f ())
          (x.modStream d fun st =>
            { st with hwCount := (s₁.drv.dev.dir i d).hwCount
                      swCount := (s₁.drv.dev.dir i d).swCount })
          { s₁ with fetched := (s₁.drv.dev.dir i d).hwCount }) :
    ((flightWorld n fd d).guard ce cc).ProcWP I G S F (dmaCounts d 1 >>= f) x s := by
  show World.WP _ _ _ _ ((dmaCounts d 1 >>= f) x) s
  rw [dmaCounts_bind]
  refine wp_call hst hI hs ?_
  intro s₁ o r k' h₁ hT _ hc
  obtain ⟨⟨p, hp, rfl⟩, hen⟩ := hA s₁ h₁
  obtain ⟨h0, hsome, hr, hk'⟩ := kernelCall_dma hp hc
  rw [Driver.ioctlDma_same hen] at hr hk'
  rw [record_dma hsome, if_neg (by rw [h0]; simp), hr, hk']
  exact hk s₁ h₁ hT

/-- A `poll` that is ready finds the stream ready. -/
theorem wp_poll {t : Int} {f : Int → Dev n β}
    (hst : ((flightWorld n fd d).guard ce cc).Stable J T) (hI : ∀ s, J s → I s) (hs : J s)
    (hA : ∀ s, J s → Active fd i d s.drv)
    (hk : ∀ s₁ r, J s₁ → T s s₁ → cc s₁ (.poll d t) →
      (0 < r → pollReady d (s₁.drv.dev.chan i) = true) →
      G s₁ s₁ ∧ ((flightWorld n fd d).guard ce cc).ProcWP I G S F (f r) x s₁) :
    ((flightWorld n fd d).guard ce cc).ProcWP I G S F (poll d t >>= f) x s := by
  refine wp_call hst hI hs ?_
  intro s₁ o r k' h₁ hT hcc hc
  obtain ⟨⟨p, hp, rfl⟩, -⟩ := hA s₁ h₁
  obtain ⟨rfl, hr⟩ := kernelCall_poll hp hc
  exact hk s₁ r h₁ hT hcc hr

/-- A mark of the client. -/
theorem wp_note {m : Mark} {f : Unit → Dev n β}
    (hst : ((flightWorld n fd d).guard ce cc).Stable J T) (hI : ∀ s, J s → I s) (hs : J s)
    (hk : ∀ s₁, J s₁ → T s s₁ → cc s₁ (.note m) →
      G s₁ (s₁.record (.note m) ()) ∧ ((flightWorld n fd d).guard ce cc).ProcWP I G S F (f ()) x
        (s₁.record (.note m) ())) :
    ((flightWorld n fd d).guard ce cc).ProcWP I G S F (note m >>= f) x s := by
  refine wp_call hst hI hs ?_
  intro s₁ o r k' h₁ hT hcc hc
  cases hc
  exact hk s₁ h₁ hT hcc

theorem wp_ret {a : β} (hst : ((flightWorld n fd d).guard ce cc).Stable J T) (hI : ∀ s, J s → I s)
    (hs : J s) (hS : ∀ s₁, J s₁ → T s s₁ → S a x s₁) :
    ((flightWorld n fd d).guard ce cc).WP I G (World.ends S F) (.ret (.ok a, x)) s :=
  hst.ret hI hs hS

theorem wp_halt {e : Halt} (hst : ((flightWorld n fd d).guard ce cc).Stable J T)
    (hI : ∀ s, J s → I s) (hs : J s) (hF : ∀ s₁, J s₁ → T s s₁ → F e x s₁) :
    ((flightWorld n fd d).guard ce cc).WP I G (World.ends S F) (.ret (.error e, x)) s :=
  hst.ret hI hs hF

/-- The client: `B` holds between two acquire calls, `Pre` at the beginning of one, `Post` at its
end; it ends abnormally only with an end that is `ok`. -/
theorem wp_acquireAll {acquire : Int → Dev n Acquired} {B Pre : SoapyLiteXXTRX → Flight n → Prop}
    {Post : Acquired → SoapyLiteXXTRX → Flight n → Prop} {ok : Halt → Prop}
    (hst : ∀ x, ((flightWorld n fd d).guard ce cc).Stable (B x) T)
    (hstP : ∀ a x, ((flightWorld n fd d).guard ce cc).Stable (Post a x) T)
    (hI : ∀ x s, B x s → I s) (hIP : ∀ a x s, Post a x s → I s)
    (henter : ∀ x s, B x s → cc s (.note .enter) → G s s ∧ Pre x s)
    (hacq : ∀ t x s, Pre x s → ((flightWorld n fd d).guard ce cc).ProcWP I G Post
      (fun e x s => B x s ∧ ok e) (acquire t) x s)
    (hleft : ∀ a x s, Post a x s → cc s (.note (.left a.ret a.handle)) →
      G s (s.left a.ret a.handle) ∧ B x (s.left a.ret a.handle))
    (ts : List Int) {x : SoapyLiteXXTRX} {s : Flight n} (hs : B x s) :
    ((flightWorld n fd d).guard ce cc).ProcWP I G (fun _ x s => B x s)
      (fun e x s => B x s ∧ ok e) (acquireAll acquire ts) x s := by
  induction ts generalizing x s with
  | nil => exact wp_ret (hst x) (hI x) hs fun s₁ h₁ _ => h₁
  | cons t ts ih =>
    unfold acquireAll
    refine wp_note (hst x) (hI x) hs fun s₁ h₁ _ hcc => ?_
    obtain ⟨hG, hpre⟩ := henter x s₁ h₁ hcc
    refine ⟨hG, World.ProcWP.attempt ((hacq t x s₁ hpre).mono ?_)⟩
    rintro ⟨e | a, x₂⟩ s₂ h₂
    · obtain ⟨h₂, hok⟩ := h₂
      cases e with
      | throw msg => exact ih h₂
      | abort => exact wp_halt (G := G) (hst x₂) (hI x₂) h₂ fun s₃ h₃ _ => ⟨h₃, hok⟩
      | assertFail => exact wp_halt (G := G) (hst x₂) (hI x₂) h₂ fun s₃ h₃ _ => ⟨h₃, hok⟩
    · refine wp_note (hstP a x₂) (hIP a x₂) h₂ fun s₃ h₃ _ hcc => ?_
      obtain ⟨hG, hB⟩ := hleft a x₂ s₃ h₃ hcc
      exact ⟨hG, ih hB⟩

end

end Soapy
end Xtrx
