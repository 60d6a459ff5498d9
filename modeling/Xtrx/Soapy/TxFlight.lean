import Xtrx.Soapy.Flight

/-!
# The TX buffers in flight

`acquireWriteBuffer` lets the client be a whole ring ahead of the hardware, by its own `user_count`;
the kernel's `POLLOUT` is set while `reader_sw_count` is less than half a ring ahead of
`reader_hw_count`. The client releases handles in the order of acquisition, one or several at once,
and never has more than half a ring acquired beyond the last released one.

An activation may find the engine running, with any counts. Until the first release `reader_sw_count`
is then one of the activation before.

- **`TxCore`**: the invariant: `user_count` is at most half a ring ahead of the releases and at most a
  ring ahead of the hardware count as last fetched.
- **`acquireWriteBuffer_tx`**: the rule of a call.
- **`acquireWriteBuffer_ring_safe`**: the runs.
-/

namespace Xtrx
namespace Soapy

open Conc Kernel User SoapyLiteXXTRX

variable {n : Nat} {fd : Nat} {i : Fin n}

/-! ## Conditions on the client -/

/-- A release is behind no earlier one, and an interrupt leaves the hardware count less than
`2 ^ 31` ahead of the buffers handed out. -/
def ReleasesInOrder (i : Fin n) (s : Flight n) : FlightEv n → Prop
  | .irq e => i = e.chan ∧ .reader = e.dir → s.hw i .reader + e.k < s.user + 2 ^ 31
  | .release h => s.released ≤ h

instance (i : Fin n) (s : Flight n) : ∀ e, Decidable (ReleasesInOrder i s e)
  | .irq _ => inferInstanceAs (Decidable (_ → _))
  | .release _ => inferInstanceAs (Decidable (_ ≤ _))

/-- With the handle that an acquire call returns, at most half a ring is acquired beyond the last
released one. -/
def HalfRing (s : Flight n) : Sysc n → Prop
  | .note (.left _ (some h)) => h + 1 - s.released ≤ (dmaBufferCount / 2 : Nat)
  | _ => True

instance (s : Flight n) : ∀ q, Decidable (HalfRing s q)
  | .note (.left _ (some _)) => inferInstanceAs (Decidable (_ ≤ _))
  | .note (.left _ none) | .note .enter => inferInstanceAs (Decidable True)
  | .ioctl _ | .poll .. | .mmap _ | .munmap _ | .load _ => inferInstanceAs (Decidable True)

/-! ## The invariant -/

/-- What an acquire call may have returned: the slot's last occupant is consumed, and
`SOAPY_SDR_UNDERFLOW` says that the buffer is too late. -/
def TxSafe (l : Left) : Prop :=
  l.handle - dmaBufferCount < l.fetched ∧ (l.ret = soapySdrUnderflow ↔ l.handle < l.fetched)

/-- The invariant of an activation; `hwCount` is the library's copy of the hardware count. -/
structure TxCore (fd : Nat) (i : Fin n) (hwCount : Int) (s : Flight n) : Prop where
  active : Active fd i .reader s.drv
  cached : hwCount = s.fetched
  fetched_le : s.fetched ≤ s.hw i .reader
  nonneg : 0 ≤ s.hw i .reader
  bounded : s.hw i .reader < s.user + 2 ^ 31
  ring : s.user ≤ s.fetched + dmaBufferCount
  ahead : s.user - s.released ≤ (dmaBufferCount / 2 : Nat)
  /-- No buffer is released, or the last one. -/
  sw : s.released = 0 ∨ s.sw i .reader = s.released
  log : ∀ l ∈ s.log, TxSafe l ∧ l.fetched ≤ s.hw i .reader
  handles : s.log.map Left.handle = (List.range s.log.length).map fun j : Nat => (j : Int)
  user : s.user = s.log.length

/-- Between two acquire calls, and in one before it takes a buffer. -/
def TxIdle (fd : Nat) (i : Fin n) (x : SoapyLiteXXTRX) (s : Flight n) : Prop :=
  TxCore fd i x.txStream.hwCount s ∧ x.txStream.userCount = s.user

/-- At the end of an acquire call: nothing, or the next buffer. -/
def TxLeft (fd : Nat) (i : Fin n) (a : Acquired) (x : SoapyLiteXXTRX) (s : Flight n) : Prop :=
  match a.handle with
  | none => TxIdle fd i x s
  | some h =>
    TxCore fd i x.txStream.hwCount s ∧ x.txStream.userCount = h + 1 ∧ s.user = h ∧
      a.ret ≠ soapySdrOverflow ∧ TxSafe ⟨a.ret, h, s.fetched⟩

section

variable {hwCount : Int} {x : SoapyLiteXXTRX} {s s' : Flight n}

/-- The environment keeps the invariant. -/
theorem TxCore.env {e : FlightEv n} (h : TxCore fd i hwCount s) (hce : ReleasesInOrder i s e)
    (he : (flightWorld n fd .reader).env e s = some s') :
    TxCore fd i hwCount s' ∧ Moves i .reader s s' := by
  have hahead := h.ahead
  cases e with
  | irq e =>
    obtain ⟨hact, hhw, hsw, -, huser, hfetched, hlog⟩ := flight_irq he h.active
    have hreleased : s'.released = s.released := released_env he
    have hk : s.hw i .reader ≤ s'.hw i .reader := by
      rw [hhw]
      split <;> omega
    have hfetched_le := h.fetched_le
    have hnonneg := h.nonneg
    refine ⟨⟨hact, by rw [hfetched]; exact h.cached, by omega, by omega, ?_,
      by rw [huser, hfetched]; exact h.ring, by rw [huser, hreleased]; exact hahead,
      by rw [hreleased, hsw]; exact h.sw, fun l hl => ?_, by rw [hlog]; exact h.handles,
      by rw [huser, hlog]; exact h.user⟩, ⟨hk, huser, hfetched⟩⟩
    · have hbefore := h.bounded
      rw [hhw, huser]
      split
      · rename_i hown
        exact hce hown
      · omega
    · have hl' := h.log l (hlog ▸ hl)
      exact ⟨hl'.1, Int.le_trans hl'.2 hk⟩
  | release k =>
    obtain ⟨-, hact, hhw, hsw, -, huser, hfetched, hlog⟩ := flight_release he h.active
    have hreleased : s'.released = k + 1 := released_env he
    have hk : s.released ≤ k := hce
    exact ⟨⟨hact, by rw [hfetched]; exact h.cached, by rw [hfetched, hhw]; exact h.fetched_le,
      by rw [hhw]; exact h.nonneg, by rw [hhw, huser]; exact h.bounded,
      by rw [huser, hfetched]; exact h.ring, by omega, .inr (hsw.trans hreleased.symm),
      by rw [hlog, hhw]; exact h.log, by rw [hlog]; exact h.handles,
      by rw [huser, hlog]; exact h.user⟩, ⟨Int.le_of_eq hhw.symm, huser, hfetched⟩⟩

/-- The 32-bit difference of `acquireWriteBuffer`. -/
theorem TxIdle.pending (h : TxIdle fd i x s) :
    toInt32 (x.txStream.userCount - x.txStream.hwCount) = s.user - s.fetched := by
  obtain ⟨hcore, huser⟩ := h
  have hbound := hcore.bounded
  have hfetched := hcore.fetched_le
  have hring := hcore.ring
  unfold dmaBufferCount at hring
  rw [huser, hcore.cached]
  exact toInt32_eq (by omega) (by omega)

/-- The end of an acquire call. -/
theorem TxLeft.left {a : Acquired} (h : TxLeft fd i a x s)
    (hcc : HalfRing s (.note (.left a.ret a.handle))) :
    TxIdle fd i x (s.left a.ret a.handle) := by
  unfold TxLeft at h
  obtain ⟨ret, handle, buff, flags⟩ := a
  cases handle with
  | none => exact h
  | some k =>
    obtain ⟨hcore, hx, rfl, hret, hsafe⟩ := h
    have hhalf : s.user + 1 - s.released ≤ (dmaBufferCount / 2 : Nat) := hcc
    have hring := hsafe.1
    dsimp only at hring
    simp only [Flight.left, if_neg hret]
    refine ⟨⟨hcore.active, hcore.cached, hcore.fetched_le, hcore.nonneg, ?_, ?_, hhalf, hcore.sw,
      fun l hl => ?_, ?_, ?_⟩, hx⟩
    · have := hcore.bounded
      show s.hw i .reader < s.user + 1 + 2 ^ 31
      omega
    · show s.user + 1 ≤ s.fetched + dmaBufferCount
      omega
    · rcases List.mem_append.mp hl with hl | hl
      · exact hcore.log l hl
      · cases List.mem_singleton.mp hl
        exact ⟨hsafe, hcore.fetched_le⟩
    · rw [List.map_append, hcore.handles, List.length_append, List.length_singleton,
        List.range_succ, List.map_append]
      simp [hcore.user]
    · show s.user + 1 = ((s.log ++ [_]).length : Int)
      rw [hcore.user]
      simp

end

/-! ## The rule of `acquireWriteBuffer` -/

/-- `World.ProcWP` of the TX stream. -/
abbrev TxWP {α : Type} (fd : Nat) (i : Fin n) (R : α → SoapyLiteXXTRX → Flight n → Prop)
    (m : Dev n α) (x : SoapyLiteXXTRX) (s : Flight n) : Prop :=
  ((flightWorld n fd .reader).guard (ReleasesInOrder i) HalfRing).ProcWP
    (fun s => ∃ c, TxCore fd i c s) (fun _ _ => True) R
    (fun e x s => TxIdle fd i x s ∧ e ≠ .assertFail) m x s

section

variable {x : SoapyLiteXXTRX} {s : Flight n}

theorem TxCore.stable {c : Int} {K : Flight n → Prop}
    (hK : ∀ s s', K s → Moves i .reader s s' → K s') :
    ((flightWorld n fd .reader).guard (ReleasesInOrder i) HalfRing).Stable
      (fun s => TxCore fd i c s ∧ K s) (Moves i .reader) where
  refl := Moves.refl
  trans _ _ _ := Moves.trans
  step s e s' h he := by
    obtain ⟨hce, he⟩ := World.guard_env.mp he
    obtain ⟨h', hm⟩ := h.1.env hce he
    exact ⟨⟨h', hK s s' h.2 hm⟩, hm⟩

theorem TxIdle.stable_and {K : Flight n → Prop} (hK : ∀ s s', K s → Moves i .reader s s' → K s')
    (x : SoapyLiteXXTRX) :
    ((flightWorld n fd .reader).guard (ReleasesInOrder i) HalfRing).Stable
      (fun s => TxIdle fd i x s ∧ K s) (Moves i .reader) := by
  have h := @TxCore.stable n fd i x.txStream.hwCount
    (fun s => x.txStream.userCount = s.user ∧ K s)
    fun s s' h hm => ⟨by rw [hm.user]; exact h.1, hK s s' h.2 hm⟩
  simpa only [TxIdle, and_assoc] using h

theorem TxIdle.stable (x : SoapyLiteXXTRX) :
    ((flightWorld n fd .reader).guard (ReleasesInOrder i) HalfRing).Stable
      (TxIdle fd i x) (Moves i .reader) := by
  simpa only [and_true] using TxIdle.stable_and (K := fun _ => True) (fun _ _ _ _ => trivial) x

theorem TxLeft.stable (a : Acquired) (x : SoapyLiteXXTRX) :
    ((flightWorld n fd .reader).guard (ReleasesInOrder i) HalfRing).Stable
      (TxLeft fd i a x) (Moves i .reader) := by
  unfold TxLeft
  cases a.handle with
  | none => exact TxIdle.stable x
  | some h =>
    exact TxCore.stable (K := fun s => x.txStream.userCount = h + 1 ∧ s.user = h ∧
      a.ret ≠ soapySdrOverflow ∧ TxSafe ⟨a.ret, h, s.fetched⟩)
      fun s s' h hm => by rw [hm.user, hm.fetched]; exact h

/-- Taking the buffer: `buffers_pending` tells a late one. -/
theorem finishWrite_tx (h : TxIdle fd i x s ∧ s.user - s.fetched < dmaBufferCount) :
    TxWP fd i (TxLeft fd i)
      (finishWrite (toInt32 (x.txStream.userCount - x.txStream.hwCount))) x s := by
  have hst := @TxIdle.stable_and n fd i (fun s => s.user - s.fetched < dmaBufferCount)
    (fun s s' h hm => by rw [hm.fetched, hm.user]; exact h) x
  refine wp_ret hst (fun s h => ⟨_, h.1.1⟩) h ?_
  rintro s₁ ⟨hidle, hlt⟩ -
  have hpending := hidle.pending
  obtain ⟨hcore, huser⟩ := hidle
  have hret : (if toInt32 (x.txStream.userCount - x.txStream.hwCount) < 0 then soapySdrUnderflow
      else (getStreamMTU .reader : Int)) = soapySdrUnderflow ↔ s₁.user < s₁.fetched := by
    rw [hpending]
    by_cases hneg : s₁.user - s₁.fetched < 0
    · rw [if_pos hneg]
      exact ⟨fun _ => by omega, fun _ => rfl⟩
    · rw [if_neg hneg]
      exact ⟨fun h => absurd h (by decide), fun h => absurd h (by omega)⟩
  refine ⟨hcore, rfl, huser.symm, ?_, ?_, ?_⟩
  · show ite _ _ _ ≠ _
    split <;> decide
  · show x.txStream.userCount - dmaBufferCount < s₁.fetched
    omega
  · show ite _ _ _ = _ ↔ x.txStream.userCount < s₁.fetched
    rw [hret, huser]

/-- Reading the counts; where `C` says so, the client was less than a ring ahead before. -/
theorem dmaCounts_tx {C : Prop} {β : Type} {R : β → SoapyLiteXXTRX → Flight n → Prop}
    {f : Unit → Dev n β}
    (h : TxIdle fd i x s ∧ (C → s.user - s.hw i .reader < dmaBufferCount))
    (hk : ∀ x' s', TxIdle fd i x' s' → (C → s'.user - s'.fetched < dmaBufferCount) →
      TxWP fd i R (f ()) x' s') :
    TxWP fd i R (dmaCounts .reader 1 >>= f) x s := by
  have hst := @TxIdle.stable_and n fd i (fun s => C → s.user - s.hw i .reader < dmaBufferCount)
    (fun s s' h hm c => by have := h c; have := hm.hw; rw [hm.user]; omega) x
  refine wp_dmaCounts hst (fun s h => ⟨_, h.1.1⟩) h (fun s h => h.1.1.active) ?_
  rintro s₁ ⟨⟨hcore, huser⟩, hlt⟩ -
  have hring := hcore.ring
  have hfetched := hcore.fetched_le
  refine ⟨trivial, hk _ _ ⟨⟨hcore.active, rfl, Int.le_refl _, hcore.nonneg, hcore.bounded, ?_,
    hcore.ahead, hcore.sw, hcore.log, hcore.handles, hcore.user⟩, huser⟩ hlt⟩
  show s₁.user ≤ s₁.hw i .reader + dmaBufferCount
  omega

/-- The wait of `acquireWriteBuffer`. -/
theorem waitWrite_tx (t : Int) (h : TxIdle fd i x s) :
    TxWP fd i (TxLeft fd i) (waitWrite t) x s := by
  have hst := @TxIdle.stable n fd i
  have hinv : ∀ x s, TxIdle fd i x s → ∃ c, TxCore fd i c s := fun x s h => ⟨_, h.1⟩
  have hring := h.1.ring
  show World.WP _ _ _ _ ((Proc.get >>= _) x) s
  rw [Proc.get_bind]
  by_cases hfull : toInt32 (x.txStream.userCount - x.txStream.hwCount) = dmaBufCount .reader
  · rw [if_pos hfull]
    by_cases ht : t = 0
    · rw [if_pos ht]
      exact wp_ret (hst x) (hinv x) h fun s₁ h₁ _ => h₁
    · rw [if_neg ht]
      refine wp_poll (hst x) (hinv x) h (fun s h => h.1.active) ?_
      intro s₁ r h₁ _ _ hready
      refine ⟨trivial, ?_⟩
      by_cases hneg : r < 0
      · rw [if_pos hneg]
        exact wp_halt (hst x) (hinv x) h₁ fun s₂ h₂ _ => ⟨h₂, by simp⟩
      · rw [if_neg hneg]
        by_cases hz : r = 0
        · rw [if_pos hz]
          exact wp_ret (hst x) (hinv x) h₁ fun s₂ h₂ _ => h₂
        · rw [if_neg hz]
          -- half a ring of acquired buffers, and less than half a ring of released ones; before the
          -- first release half a ring is all that is acquired
          have hroom : s₁.user - s₁.hw i .reader < dmaBufferCount := by
            have hout : s₁.sw i .reader - s₁.hw i .reader < (dmaBufferCount / 2 : Nat) :=
              of_decide_eq_true (hready (by omega))
            have hahead := h₁.1.ahead
            have hnonneg := h₁.1.nonneg
            have hsw := h₁.1.sw
            unfold dmaBufferCount at *
            omega
          refine dmaCounts_tx (C := True) ⟨h₁, fun _ => hroom⟩ fun x' s' h' hlt => ?_
          show World.WP _ _ _ _ ((Proc.get >>= _) x') s'
          rw [Proc.get_bind]
          refine procWP_assert (fun _ => finishWrite_tx ⟨h', hlt trivial⟩) fun hneg => absurd ?_ hneg
          rw [h'.pending]
          exact hlt trivial
  · rw [if_neg hfull]
    rw [h.pending] at hfull
    have hcount : (dmaBufCount .reader : Int) = dmaBufferCount := rfl
    exact finishWrite_tx ⟨h, by omega⟩

/-- A call of `acquireWriteBuffer` while the environment moves. -/
theorem acquireWriteBuffer_tx (t : Int) (h : TxIdle fd i x s) :
    TxWP fd i (TxLeft fd i) (acquireWriteBuffer .tx t) x s := by
  have hcount : (dmaBufCount .reader : Int) = dmaBufferCount := rfl
  have hring := h.1.ring
  show World.WP _ _ _ _ _ s
  rw [acquireWriteBuffer_tx_apply, if_pos (by rw [h.pending]; omega)]
  exact dmaCounts_tx (C := False) ⟨h, False.elim⟩ fun x' s' h' _ => waitWrite_tx t h'

/-- The client of the TX stream. -/
theorem acquireAll_tx (timeouts : List Int) (h : TxIdle fd i x s) :
    TxWP fd i (fun _ => TxIdle fd i) (acquireAll (acquireWriteBuffer .tx) timeouts) x s := by
  refine wp_acquireAll TxIdle.stable TxLeft.stable (fun x s h => ⟨_, h.1⟩)
    (fun a x s h => ?_) (fun x s h _ => (⟨trivial, h⟩ : True ∧ TxIdle fd i x s))
    (fun t x s h => acquireWriteBuffer_tx t h)
    (fun a x s h hcc => ⟨trivial, h.left hcc⟩) timeouts h
  unfold TxLeft at h
  split at h
  · exact ⟨_, h.1⟩
  · exact ⟨_, h.1⟩

end

/-! ## Runs -/

/-- An activation begins with no buffer in flight. -/
theorem TxIdle.start {enable : UInt8} {x : SoapyLiteXXTRX} {k : Driver n}
    (h : ActivatedFrom enable fd i .reader x k) (hnonneg : 0 ≤ (k.dev.dir i .reader).hwCount)
    (hbounded : (k.dev.dir i .reader).hwCount < 2 ^ 31) :
    TxIdle fd i x (Flight.start x.txStream.hwCount k) := by
  obtain ⟨hact, hx, hu⟩ := h.start
  have hx : x.txStream.hwCount = (k.dev.dir i .reader).hwCount := hx
  refine ⟨⟨hact, rfl, Int.le_of_eq hx, hnonneg, ?_, ?_, ?_, .inl rfl, fun l hl => ?_, rfl, rfl⟩, hu⟩
  · show (k.dev.dir i .reader).hwCount < 0 + 2 ^ 31
    omega
  · show 0 ≤ x.txStream.hwCount + dmaBufferCount
    omega
  · show (0 : Int) - 0 ≤ _
    decide
  · cases hl

/-- The client of the TX stream and its buffers at the beginning of an activation. -/
abbrev txClient (timeouts : List Int) (x : SoapyLiteXXTRX) (k : Driver n) :
    Prog (Sysc n) Sysc.Ans (Except Halt Unit × SoapyLiteXXTRX) × Flight n :=
  (acquireAll (acquireWriteBuffer .tx) timeouts x, Flight.start x.txStream.hwCount k)

/-- In an activation with releases in the order of acquisition, and at most half a ring acquired
beyond the last released handle, no assertion of `acquireWriteBuffer` fails; the slot of every
handle is free when it is handed out, the handles are 0, 1, 2, …, and `SOAPY_SDR_UNDERFLOW` says
that the hardware, as last fetched, is past the handle. The activation found the engine stopped or
running. -/
theorem acquireWriteBuffer_ring_safe (timeouts : List Int) (enable : UInt8) (x : SoapyLiteXXTRX)
    (k : Driver n) (hk : ActivatedFrom enable fd i .reader x k)
    (hnonneg : 0 ≤ (k.dev.dir i .reader).hwCount)
    (hbounded : (k.dev.dir i .reader).hwCount < 2 ^ 31) (es : List (Ev (FlightEv n) Choice))
    (c : Prog (Sysc n) Sysc.Ans (Except Halt Unit × SoapyLiteXXTRX) × Flight n)
    (hc : ((flightWorld n fd .reader).machine _).Along
      (World.Meets (ReleasesInOrder i) HalfRing) es (txClient timeouts x k))
    (hr : ((flightWorld n fd .reader).machine _).run es (txClient timeouts x k) = some c) :
    assertFailed c.1 = false ∧
      (∀ l ∈ c.2.log, l.handle - dmaBufferCount < l.fetched ∧ l.fetched ≤ c.2.hw i .reader ∧
        (l.ret = soapySdrUnderflow ↔ l.handle < l.fetched)) ∧
      c.2.log.map Left.handle = (List.range c.2.log.length).map fun j : Nat => (j : Int) := by
  have hrun := World.WP.run_along (c := txClient timeouts x k)
    (acquireAll_tx timeouts (TxIdle.start hk hnonneg hbounded)) hc hr
  obtain ⟨hw, hcore⟩ := hrun.inv
  refine ⟨not_assertFailed hrun fun y s h => h.2 rfl, fun l hl => ?_, hcore.handles⟩
  obtain ⟨⟨hring, hlate⟩, hle⟩ := hcore.log l hl
  exact ⟨hring, hle, hlate⟩

/-- The driver after an activation that the client ended with 200 buffers released, of which the hardware
had passed two. `deactivateStream` left the engine running. -/
def oneRunning : Driver 1 :=
  { oneStarted .reader with
    dev := ((⟨0, .reader, 2⟩ : Irq 1).raise (oneStarted .reader).dev).modDir 0 .reader fun c =>
      c.setSwCount 200 }

/-- The device object after the next `activateStream`. -/
def restarted : SoapyLiteXXTRX :=
  (newDevice.modStream .reader fun st => { st with hwCount := 2, swCount := 200 }).addRecord
    (.activated .reader 2)

theorem activatedFrom_oneRunning : ActivatedFrom 1 3 0 .reader restarted oneRunning := by
  have hp : oneRunning.files 3 = some ⟨0, false, false⟩ := rfl
  have hen : (oneRunning.dev.dir 0 .reader).enable = 1 := rfl
  refine ⟨newDevice, oneRunning, _, hp, rfl, hen, ?_⟩
  rw [exec_activateStream hp, Driver.ioctlDma_same hen]
  rfl

/-- Two buffers are acquired late, and the first one is released. The client acquires the next one and
releases both; the hardware passes it, so that the fourth one is late again. -/
def acquireLate : List (Ev (FlightEv 1) Choice) :=
  List.replicate 6 (.thr .ready) ++ [.env (.release 0)] ++ List.replicate 3 (.thr .ready) ++
    [.env (.release 2), .env (.irq ⟨0, .reader, 2⟩)] ++ List.replicate 3 (.thr .ready)

theorem acquireWriteBuffer_ring_safe_late :
    ∃ c, ((flightWorld 1 3 .reader).machine _).run acquireLate
        (txClient [0, 1000, -1, 0] restarted oneRunning) = some c ∧
      c.2.log = [⟨soapySdrUnderflow, 0, 2⟩, ⟨soapySdrUnderflow, 1, 2⟩, ⟨8192, 2, 2⟩,
        ⟨soapySdrUnderflow, 3, 4⟩] ∧
      assertFailed c.1 = false ∧
      (∀ l ∈ c.2.log, l.handle - dmaBufferCount < l.fetched ∧ l.fetched ≤ c.2.hw 0 .reader ∧
        (l.ret = soapySdrUnderflow ↔ l.handle < l.fetched)) ∧
      c.2.log.map Left.handle = (List.range c.2.log.length).map fun j : Nat => (j : Int) := by
  have hlog : (((flightWorld 1 3 .reader).machine _).run acquireLate
      (txClient [0, 1000, -1, 0] restarted oneRunning)).map (fun c => c.2.log) =
        some [⟨soapySdrUnderflow, 0, 2⟩, ⟨soapySdrUnderflow, 1, 2⟩, ⟨8192, 2, 2⟩,
          ⟨soapySdrUnderflow, 3, 4⟩] := by
    decide +kernel
  obtain ⟨c, hc, hl⟩ := Option.map_eq_some_iff.mp hlog
  exact ⟨c, hc, hl, acquireWriteBuffer_ring_safe _ 1 _ _ activatedFrom_oneRunning (by decide)
    (by decide) _ c (by decide +kernel) hc⟩

end Soapy
end Xtrx
