import Xtrx.Soapy.Lifecycle

/-!
# `setupStream` that throws (`soapysdr-xtrx/Streaming.cpp`)

`setupStream` takes the lock of its direction in the kernel, maps the buffers and opens the stream,
in this order, and throws where one of the steps fails.

- **`SameLocks`**: the lock flags of all channels and the ownership flags of all handles.
- **`CauseGone`**: how the state that a throw left looks when its cause is gone: the stream was
  closed, the lock was released, or nothing else has changed than what `mmap` answers.
- **`AllOrNothing`**: a throw changes neither the locks nor the streams, and the same call succeeds
  once the cause is gone.
- **`setupStream_allOrNothing_iff`**: it is so unless the call gets a free lock and `mmap` fails:
  the lock is not given back. `setupStream_leaks` is such a call; the next one is refused.
-/

namespace Xtrx
namespace Soapy

open Conc Kernel User SoapyLiteXXTRX

variable {n : Nat} {fd : Nat}

/-! ## The locks -/

/-- The lock flags and the ownership flags are as before. -/
structure SameLocks (k k' : Driver n) : Prop where
  lock : ∀ j d, (k'.dev.dir j d).lock = (k.dev.dir j d).lock
  files : k'.files = k.files

section

variable {k k' k₂ : Driver n} {p : ChanPriv n}

theorem SameLocks.trans (h : SameLocks k k') (h' : SameLocks k' k₂) : SameLocks k k₂ :=
  ⟨fun j d => (h'.lock j d).trans (h.lock j d), h'.files.trans h.files⟩

/-- Interrupts leave the locks alone. -/
theorem SameLocks.of_rely (hr : (kernelWorld n fd).Rely k k') : SameLocks k k' := by
  refine hr.keeps (J := SameLocks k) ?_ ⟨fun _ _ => rfl, rfl⟩
  intro k₁ e k₂ h₁ he
  cases he
  exact ⟨fun j d => (e.dir_raise k₁.dev j d).2.2.2.trans (h₁.lock j d), h₁.files⟩

/-- The request of `setupStream`: the status is the reader's. A lock that is not free stays as it
is, with its owner. -/
theorem lock_setupRequest {d : Dir} {o : Choice} {a : Int × Option (Bool × Bool)}
    (hp : k.files fd = some p)
    (hc : kernelCall fd (.ioctl (.lock (setupRequest d))) o k = some (a, k')) :
    a.1 = 0 ∧ lockStatus a.2 = !(decide (d = .reader) && (k.dev.dir p.chan .reader).lock) ∧
      (k'.files fd).isSome ∧ (k'.dev.dir p.chan d).lock = true ∧
      ((k.dev.dir p.chan d).lock = true → SameLocks k k') := by
  rw [kernelCall_ioctl hp, litepcieIoctl_none] at hc
  cases hc
  have hfile := Driver.files_ioctlLock (setupRequest d) fd fd p k
  rw [if_pos rfl] at hfile
  have hlock := fun j e => congrArg DmaDir.lock (Driver.dir_ioctlLock (setupRequest d) fd p k j e)
  refine ⟨rfl, Driver.status_ioctlLockDir .reader (setupRequest d) p k.dev, ?_, ?_, fun hheld => ?_⟩
  · exact (congrArg Option.isSome hfile).trans rfl
  · refine (hlock p.chan d).trans ?_
    rw [if_pos rfl]
    show (!(setupRequest d).release d && (_ || (setupRequest d).request d)) = true
    cases d <;> simp [Driver.LockRequest.release, Driver.LockRequest.request]
  · refine ⟨fun j e => (hlock j e).trans ?_, funext fun g => ?_⟩
    · split
      · rename_i hj
        subst hj
        show Driver.lockAfter (setupRequest d) e (k.dev.dir p.chan e).lock = _
        cases d <;> cases e <;> simp_all [Driver.lockAfter, Driver.LockRequest.release,
          Driver.LockRequest.request]
      · rfl
    · refine (Driver.files_ioctlLock (setupRequest d) fd g p k).trans ?_
      split
      · rename_i hg
        rw [hg, hp]
        cases d <;> simp [Driver.ownsAfter, Driver.LockRequest.release,
          Driver.LockRequest.request, hheld]
      · rfl

/-- `LOCK` with a release frees the lock. -/
theorem lock_release {d : Dir} {m : Driver.LockRequest} {o : Choice}
    {a : Int × Option (Bool × Bool)} (hm : m.release d = true) (hp : k.files fd = some p)
    (hc : kernelCall fd (.ioctl (.lock m)) o k = some (a, k')) :
    (k'.dev.dir p.chan d).lock = false ∧ ∃ q, k'.files fd = some q ∧ q.chan = p.chan := by
  rw [kernelCall_ioctl hp, litepcieIoctl_none] at hc
  cases hc
  refine ⟨(congrArg DmaDir.lock (Driver.dir_ioctlLock m fd p k p.chan d)).trans ?_, ?_⟩
  · rw [if_pos rfl]
    show Driver.lockAfter m d _ = false
    simp [Driver.lockAfter, hm]
  · exact ⟨_, (Driver.files_ioctlLock m fd fd p k).trans (if_pos rfl), rfl⟩

end

/-! ## Runs of one direction -/

section

variable {d : Dir} {opened : String} {s : StreamPtr} {format : String} {channels : List Nat}
  {es : List (Ev (Irq n) Choice)} {r : Except Halt StreamPtr} {x x' : SoapyLiteXXTRX}
  {k k' : Driver n}

/-- A call on a stream that is not opened, with a free lock, succeeds if `mmap` does. For RX the
status of the lock is not looked at. -/
theorem setupDir_ok {p : ChanPriv n} (hp : k.files fd = some p) (hx : (x.stream d).opened = false)
    (hlock : d = .reader → (k.dev.dir p.chan .reader).lock = false) (hm : mmapFails es = false)
    (hr : (kernelWorld n fd).exec (setupDir d opened s format channels x) es k =
      some ((r, x'), k')) : r = .ok s := by
  rcases setup_run hr with ⟨hopened, -⟩ | ⟨-, k₁, o, a, k₂, hr₁, hc₁, hrest⟩
  · rw [hx] at hopened
    cases hopened
  · have hsame := SameLocks.of_rely hr₁
    obtain ⟨h0, hstatus, hfile, -, -⟩ := lock_setupRequest (o := o) (hsame.files ▸ hp) hc₁
    cases hrest with
    | aborted _ hne => exact absurd h0 hne
    | denied _ _ hdenied _ =>
      rw [hstatus, hsame.lock] at hdenied
      cases d with
      | writer => cases hdenied
      | reader => simp [hlock rfl] at hdenied
    | unmapped _ _ _ hfails _ =>
      rw [hm] at hfails
      cases hfails
    | mapped _ _ _ hr₃ hc hend _ =>
      obtain ⟨q, hq⟩ := Option.isSome_iff_exists.mp hfile
      exact hend (kernelCall_dma ((SameLocks.of_rely hr₃).files ▸ hq) hc).1

/-- What `closeStream` leaves: the stream is not opened, and its lock is free. -/
theorem closeStream_run {u : Unit} (hs : s.dir? = some d)
    (hr : (kernelWorld n fd).exec (closeStream s x) es k = some ((.ok u, x'), k')) :
    (x'.stream d).opened = false ∧ ∃ p, k'.files fd = some p ∧
      (k'.dev.dir p.chan d).lock = false := by
  have hclose : ∀ m : Driver.LockRequest, m.release d = true →
      (kernelWorld n fd).exec ((checkedIoctl (.lock m) >>= fun _ => munmap d >>= fun _ =>
        (Proc.modify (modStream d fun st => { st with opened := false }) : Dev n Unit)) x) es k =
        some ((.ok u, x'), k') →
      (x'.stream d).opened = false ∧ ∃ p, k'.files fd = some p ∧
        (k'.dev.dir p.chan d).lock = false := by
    intro m hm hr
    rw [checkedIoctl_bind] at hr
    obtain ⟨k₁, o₁, a, k₂, fs, -, hc₁, -, hrest⟩ := World.exec_call hr
    by_cases h0 : a.1 = 0
    · rw [if_neg (not_not_intro h0)] at hrest
      obtain ⟨k₃, o₃, v, k₄, fs', hr₃, hc₃, -, hend⟩ := World.exec_call hrest
      cases hc₃
      obtain ⟨he, hr₄⟩ := World.exec_ret hend
      cases he
      cases hp : k₁.files fd with
      | none =>
        have hbadf : a = (-eBadf, none) := by
          simp only [kernelWorld, kernelCall, hp] at hc₁
          cases hc₁
          rfl
        rw [hbadf] at h0
        exact absurd (show -eBadf = 0 from h0) (by decide)
      | some p =>
        obtain ⟨hlock, q, hq, hchan⟩ := lock_release (o := o₁) hm hp hc₁
        have hsame := (SameLocks.of_rely hr₃).trans (SameLocks.of_rely hr₄)
        refine ⟨?_, q, hsame.files ▸ hq, ?_⟩
        · rw [stream_modStream, if_pos rfl]
        · rw [hchan, hsame.lock]
          exact hlock
    · rw [if_pos h0] at hrest
      cases (World.exec_ret hrest).1
  cases s with
  | rx =>
    cases hs
    refine hclose ⟨false, false, false, true⟩ rfl ?_
    rw [← hr]
    simp only [closeStream, litepcieReleaseDma, bind_assoc, pure_bind]
  | tx =>
    cases hs
    refine hclose ⟨false, false, true, false⟩ rfl ?_
    rw [← hr]
    simp only [closeStream, litepcieReleaseDma, bind_assoc, pure_bind]
  | other => cases hs

end

/-! ## All or nothing -/

/-- The states in which the cause of a throw is gone: `d` is the direction of the call, `msg` the
text of the exception, and `x` and `k` are what the call left. -/
inductive CauseGone (fd : Nat) (d : Dir) (x : SoapyLiteXXTRX) (k : Driver n) :
    String → SoapyLiteXXTRX → Driver n → Prop
  /-- The stream was closed. -/
  | closed {s : StreamPtr} {es : List (Ev (Irq n) Choice)} {x' : SoapyLiteXXTRX} {k' : Driver n}
      (msg : String) (hs : s.dir? = some d)
      (hr : (kernelWorld n fd).exec (closeStream s x) es k = some ((.ok (), x'), k')) :
      CauseGone fd d x k msg x' k'
  /-- The owner of the lock has released it. -/
  | unlocked {p : ChanPriv n} {k' : Driver n} (hp : k'.files fd = some p)
      (hlock : (k'.dev.dir p.chan d).lock = false) : CauseGone fd d x k "DMA not available" x k'
  /-- Memory can be mapped again. -/
  | mapped : CauseGone fd d x k "MMAP failed" x k

/-- A call of `setupStream` from `x` and `k` that threw `msg` and left `x'` and `k'`. -/
structure AllOrNothing (fd : Nat) (direction : Int) (format : String) (channels : List Nat)
    (msg : String) (x x' : SoapyLiteXXTRX) (k k' : Driver n) : Prop where
  locks : SameLocks k k'
  opened : ∀ d, (x'.stream d).opened = (x.stream d).opened
  again : ∀ d x₁ k₁ es r x₂ k₂, directionDir? direction = some d →
    CauseGone fd d x' k' msg x₁ k₁ → mmapFails es = false →
    (kernelWorld n fd).exec (setupStream direction format channels x₁) es k₁ =
      some ((r, x₂), k₂) → ∃ s, r = .ok s

/-- The call gets a lock that was free, and `mmap` fails. -/
def LeaksLock (fd : Nat) (direction : Int) (x : SoapyLiteXXTRX) (k : Driver n)
    (es : List (Ev (Irq n) Choice)) : Prop :=
  ∃ d p, directionDir? direction = some d ∧ k.files fd = some p ∧ (x.stream d).opened = false ∧
    (k.dev.dir p.chan d).lock = false ∧ mmapFails es = true

/-- A call in a valid direction. -/
theorem setupStream_dir {direction : Int} {d : Dir} (h : directionDir? direction = some d) :
    ∃ opened s, opened ≠ "DMA not available" ∧ opened ≠ "MMAP failed" ∧
      ∀ format channels, (setupStream direction format channels : Dev n StreamPtr) =
        setupDir d opened s format channels := by
  unfold directionDir? at h
  split at h
  · rename_i hrx
    cases h
    refine ⟨_, _, ?_, ?_, fun format channels => by unfold setupStream; rw [if_pos hrx]⟩ <;> decide
  · rename_i hrx
    split at h
    · rename_i htx
      cases h
      refine ⟨_, _, ?_, ?_, fun format channels => by
        unfold setupStream
        rw [if_neg hrx, if_pos htx]⟩ <;> decide
    · cases h

theorem setupStream_invalid {direction : Int} (h : directionDir? direction = none)
    (format : String) (channels : List Nat) :
    (setupStream direction format channels : Dev n StreamPtr) =
      Proc.halt (.throw "Invalid direction") := by
  unfold directionDir? at h
  unfold setupStream
  split at h
  · cases h
  · rename_i hrx
    split at h
    · cases h
    · rename_i htx
      rw [if_neg hrx, if_neg htx]

section

variable {d : Dir} {direction : Int} {format : String} {channels : List Nat} {msg : String}
  {x x' : SoapyLiteXXTRX} {k k' : Driver n}

/-- A throw that leaves the streams and the locks alone. The same call succeeds later, if it does so
when the lock is released (`hunlocked`) or memory can be mapped (`hmapped`). -/
theorem AllOrNothing.of_same (hd : directionDir? direction = some d) (hx : x' = x)
    (hlocks : SameLocks k k')
    (hunlocked : msg = "DMA not available" → (x.stream d).opened = false)
    (hmapped : msg = "MMAP failed" → (x.stream d).opened = false ∧
      ∃ p, k'.files fd = some p ∧ (d = .reader → (k'.dev.dir p.chan .reader).lock = false)) :
    AllOrNothing fd direction format channels msg x x' k k' := by
  subst hx
  refine ⟨hlocks, fun _ => rfl, fun d' x₁ k₁ es r x₂ k₂ hd' hgone hm hr => ?_⟩
  rw [hd] at hd'
  cases hd'
  obtain ⟨opened, s, -, -, hsetup⟩ := setupStream_dir (n := n) hd
  rw [hsetup] at hr
  cases hgone with
  | closed _ hs hclose =>
    obtain ⟨hopened, p, hp, hlock⟩ := closeStream_run hs hclose
    exact ⟨s, setupDir_ok hp hopened (fun h => h ▸ hlock) hm hr⟩
  | unlocked hp hlock =>
    exact ⟨s, setupDir_ok hp (hunlocked rfl) (fun h => h ▸ hlock) hm hr⟩
  | mapped =>
    obtain ⟨hopened, p, hp, hlock⟩ := hmapped rfl
    exact ⟨s, setupDir_ok hp hopened hlock hm hr⟩

/-- The rest of a call on an open file descriptor, after `LOCK`. -/
theorem setupLocked_iff {p : ChanPriv n} {s : StreamPtr} {es : List (Ev (Irq n) Choice)}
    {r : Except Halt StreamPtr} {k₁ k₂ : Driver n} {o : Choice} {a : Int × Option (Bool × Bool)}
    (hd : directionDir? direction = some d) (hp : k.files fd = some p)
    (hopened : (x.stream d).opened = false) (hr : (kernelWorld n fd).Rely k k₁)
    (hc : kernelCall fd (.ioctl (.lock (setupRequest d))) o k₁ = some (a, k₂))
    (hrest : SetupLocked fd d s x es a k₂ r x' k') :
    (∀ msg, r = .error (.throw msg) →
        AllOrNothing fd direction format channels msg x x' k k') ↔
      ¬ ((k.dev.dir p.chan d).lock = false ∧ mmapFails es = true) := by
  have hsame := SameLocks.of_rely hr
  obtain ⟨h0, hstatus, hfile, hgot, hkept⟩ := lock_setupRequest (o := o) (hsame.files ▸ hp) hc
  rw [hsame.lock] at hstatus hkept
  cases hrest with
  | aborted _ hne => exact absurd h0 hne
  | denied _ _ hdenied hr₂ =>
    have hlocked : d = .reader ∧ (k.dev.dir p.chan .reader).lock = true := by
      rw [hstatus] at hdenied
      simpa using hdenied
    obtain ⟨rfl, hlocked⟩ := hlocked
    have hlocks := hsame.trans ((hkept hlocked).trans (SameLocks.of_rely hr₂))
    constructor
    · rintro - ⟨hfree, -⟩
      rw [hlocked] at hfree
      cases hfree
    · rintro - msg he
      cases he
      exact AllOrNothing.of_same hd rfl hlocks (fun _ => hopened) fun h => absurd h (by decide)
  | unmapped _ _ hgranted hm hr₂ =>
    cases hlock : (k.dev.dir p.chan d).lock with
    | false =>
      -- the lock is taken, and it stays so
      constructor
      · intro h _
        have hafter := (h _ rfl).locks.lock p.chan d
        rw [(SameLocks.of_rely hr₂).lock, hgot, hlock] at hafter
        cases hafter
      · intro h
        exact absurd ⟨rfl, hm⟩ h
    | true =>
      have hlocks := hsame.trans ((hkept hlock).trans (SameLocks.of_rely hr₂))
      have hwriter : d ≠ .reader := by
        rintro rfl
        rw [hstatus, hlock] at hgranted
        cases hgranted
      constructor
      · rintro - ⟨hfree, -⟩
        cases hfree
      · rintro - msg he
        cases he
        exact AllOrNothing.of_same hd rfl hlocks (fun _ => hopened) fun _ =>
          ⟨hopened, p, hlocks.files ▸ hp, fun h => absurd h hwriter⟩
  | mapped _ _ hm hr₃ hc hend _ =>
    obtain ⟨q, hq⟩ := Option.isSome_iff_exists.mp hfile
    have hok := hend (kernelCall_dma ((SameLocks.of_rely hr₃).files ▸ hq) hc).1
    subst hok
    constructor
    · rintro - ⟨-, hfails⟩
      rw [hm] at hfails
      cases hfails
    · rintro - msg he
      cases he

/-- Without an open file descriptor a call does not get as far as to throw. -/
theorem setupLocked_aborts {s : StreamPtr} {es : List (Ev (Irq n) Choice)}
    {r : Except Halt StreamPtr} {k₁ k₂ : Driver n} {o : Choice} {a : Int × Option (Bool × Bool)}
    (hp : k₁.files fd = none)
    (hc : kernelCall fd (.ioctl (.lock (setupRequest d))) o k₁ = some (a, k₂))
    (hrest : SetupLocked fd d s x es a k₂ r x' k') : r = .error .abort := by
  have hbadf : a = (-eBadf, none) := by
    simp only [kernelCall, hp] at hc
    cases hc
    rfl
  have hstatus : a.1 ≠ 0 := by
    rw [hbadf]
    show -eBadf ≠ 0
    decide
  cases hrest with
  | aborted => rfl
  | denied _ h0 _ _ => exact absurd h0 hstatus
  | unmapped _ h0 _ _ _ => exact absurd h0 hstatus
  | mapped h0 _ _ _ _ _ _ => exact absurd h0 hstatus

end

/-- For every state of the device object and of the driver, all arguments and every run: a throw of
`setupStream` changes nothing, and the same call succeeds once its cause is gone, if and only if the
call does not fail to map the buffers behind a lock that it has just got. -/
theorem setupStream_allOrNothing_iff (fd : Nat) (direction : Int) (format : String)
    (channels : List Nat) (x x' : SoapyLiteXXTRX) (k k' : Driver n)
    (es : List (Ev (Irq n) Choice)) (r : Except Halt StreamPtr)
    (hr : (kernelWorld n fd).exec (setupStream direction format channels x) es k =
      some ((r, x'), k')) :
    (∀ msg, r = .error (.throw msg) →
        AllOrNothing fd direction format channels msg x x' k k') ↔
      ¬ LeaksLock fd direction x k es := by
  cases hd : directionDir? direction with
  | none =>
    rw [setupStream_invalid hd] at hr
    obtain ⟨he, hrely⟩ := World.exec_ret hr
    cases he
    constructor
    · rintro - ⟨d, p, hsome, -⟩
      rw [hd] at hsome
      cases hsome
    · rintro - msg -
      refine ⟨SameLocks.of_rely hrely, fun _ => rfl, fun d x₁ k₁ es r x₂ k₂ hsome => ?_⟩
      rw [hd] at hsome
      cases hsome
  | some d =>
    obtain ⟨opened, s, hne, hne', hsetup⟩ := setupStream_dir (n := n) hd
    rw [hsetup] at hr
    have hleaks : LeaksLock fd direction x k es ↔ ∃ p, k.files fd = some p ∧
        (x.stream d).opened = false ∧ (k.dev.dir p.chan d).lock = false ∧ mmapFails es = true := by
      unfold LeaksLock
      rw [hd]
      simp
    rw [hleaks]
    rcases setup_run hr with ⟨hopened, rfl, rfl, hrely⟩ | ⟨hopened, k₁, o, a, k₂, hr₁, hc₁, hrest⟩
    · constructor
      · rintro - ⟨p, -, hclosed, -⟩
        rw [hopened] at hclosed
        cases hclosed
      · rintro - msg he
        cases he
        exact AllOrNothing.of_same hd rfl (SameLocks.of_rely hrely) (fun h => absurd h hne)
          fun h => absurd h hne'
    · cases hp : k.files fd with
      | none =>
        have hr := setupLocked_aborts (o := o) ((SameLocks.of_rely hr₁).files ▸ hp) hc₁ hrest
        constructor
        · rintro - ⟨p, hsome, -⟩
          cases hsome
        · rintro - msg he
          rw [hr] at he
          cases he
      | some p =>
        rw [setupLocked_iff (o := o) hd hp hopened hr₁ hc₁ hrest]
        simp [hopened]

/-- The TX lock is held by another handle: the call is refused. -/
theorem setupStream_allOrNothing_iff_refused :
    ∃ x' k', (kernelWorld 1 3).exec (setupStream soapySdrTx soapySdrCs16 [0, 1] newDevice)
        [.thr .ready] (Driver.ioctlLock (setupRequest .reader) 4 ⟨0, false, false⟩ oneOpen).2 =
          some ((.error (.throw "DMA not available"), x'), k') ∧
      AllOrNothing 3 soapySdrTx soapySdrCs16 [0, 1] "DMA not available" newDevice x'
        (Driver.ioctlLock (setupRequest .reader) 4 ⟨0, false, false⟩ oneOpen).2 k' := by
  refine ⟨_, _, rfl, ?_⟩
  refine (setupStream_allOrNothing_iff 3 soapySdrTx soapySdrCs16 [0, 1] newDevice _ _ _
    [.thr .ready] _ rfl).mpr ?_ _ rfl
  rintro ⟨d, p, -, -, -, -, hm⟩
  cases hm

/-- `mmap` fails: the TX lock is left taken, and when memory can be mapped again the same call is
refused. -/
theorem setupStream_leaks :
    ∃ x' k', (kernelWorld 1 3).exec (setupStream soapySdrTx soapySdrCs16 [0, 1] newDevice)
        [.thr .ready, .thr .error] oneOpen = some ((.error (.throw "MMAP failed"), x'), k') ∧
      (oneOpen.dev.dir 0 .reader).lock = false ∧ (k'.dev.dir 0 .reader).lock = true ∧
      ∃ x'' k'', (kernelWorld 1 3).exec (setupStream soapySdrTx soapySdrCs16 [0, 1] x')
        [.thr .ready] k' = some ((.error (.throw "DMA not available"), x''), k'') :=
  ⟨_, _, rfl, rfl, rfl, _, _, rfl⟩

end Soapy
end Xtrx
