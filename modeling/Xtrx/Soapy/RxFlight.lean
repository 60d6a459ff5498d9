import Xtrx.Soapy.Flight

/-!
# The RX buffers in flight

`acquireReadBuffer` tests the counts that it has from the driver against its own `user_count`,
waits on the kernel's `POLLIN`, which tests `writer_hw_count` against `writer_sw_count`, and
`releaseReadBuffer` sets `writer_sw_count` behind whatever handle it gets. The client acquires any
number of times with any timeouts; interrupts and releases come at any moment.

- **`RxCore`**: the invariant. Where releases retire the oldest buffer (`A`), `Retire` relates
  `writer_sw_count` to the buffers in flight; where the counts are bounded (`B`), the 32-bit
  differences are the true ones.
- **`acquireReadBuffer_rx`**: the rule of a call.
- **`acquireReadBuffer_filled`**: in a run in which no call polls with more than two buffers
  unretired and none filled, no assertion fails. `acquireReadBuffer_assert`: with three buffers held
  the fourth call polls, returns at once, and its assertion fails.
- **`retirement_iff`**: `writer_sw_count` never decreases and never passes a buffer in use exactly
  if each release is one of the oldest buffer in use. `retirement_backwards`: the release of a
  newer buffer retires an older one, whose release then sets the count back.
-/

namespace Xtrx
namespace Soapy

open Conc Kernel User SoapyLiteXXTRX

variable {n : Nat} {fd : Nat} {i : Fin n}

/-! ## Conditions on the environment -/

/-- A release is one of the oldest buffer in use: those that a drain discarded are not in use. -/
def ReleasesOldest (s : Flight n) : FlightEv n → Prop
  | .irq _ => True
  | .release h =>
    (∃ b ∈ s.held, b.handle = h ∧ b.discarded = false) ∧
      ∀ b ∈ s.held, b.discarded = false → h ≤ b.handle

instance (s : Flight n) : ∀ e, Decidable (ReleasesOldest s e)
  | .irq _ => inferInstanceAs (Decidable True)
  | .release _ => inferInstanceAs (Decidable (_ ∧ _))

/-- An interrupt leaves the hardware count less than `2 ^ 31` ahead of the buffers handed out. -/
def CountsBounded (i : Fin n) (s : Flight n) : FlightEv n → Prop
  | .irq e => i = e.chan ∧ .writer = e.dir → s.hw i .writer + e.k < s.user + 2 ^ 31
  | .release _ => True

instance (i : Fin n) (s : Flight n) : ∀ e, Decidable (CountsBounded i s e)
  | .irq _ => inferInstanceAs (Decidable (_ → _))
  | .release _ => inferInstanceAs (Decidable True)

/-- A `poll` finds a filled buffer that was not handed out, or at most two buffers that were handed
out and not retired. -/
def PollsAhead (i : Fin n) (s : Flight n) : Sysc n → Prop
  | .poll .. => s.user - s.sw i .writer ≤ 2 ∨ s.user < s.hw i .writer
  | _ => True

instance (i : Fin n) (s : Flight n) : ∀ q, Decidable (PollsAhead i s q)
  | .poll .. => inferInstanceAs (Decidable (_ ∨ _))
  | .ioctl _ | .mmap _ | .munmap _ | .load _ | .note _ => inferInstanceAs (Decidable True)

/-! ## The invariant -/

/-- `writer_sw_count` is behind every buffer in use and ahead of every discarded one; `m` bounds it
from above. The buffers are held in the order of their handles. -/
structure Retire (i : Fin n) (m : Int) (s : Flight n) : Prop where
  sw_le : s.sw i .writer ≤ m
  order : s.held.Pairwise fun b c => b.handle < c.handle
  handed : ∀ b ∈ s.held, b.handle < s.user
  inUse : ∀ b ∈ s.held, b.discarded = false → s.sw i .writer ≤ b.handle
  gone : ∀ b ∈ s.held, b.discarded = true → b.handle + 1 < s.sw i .writer

/-- The invariant of an activation; `hwCount` is the library's copy of the hardware count. -/
structure RxCore (fd : Nat) (i : Fin n) (A B : Prop) (m hwCount : Int) (s : Flight n) : Prop where
  active : Active fd i .writer s.drv
  cached : hwCount = s.fetched
  fetched_le : s.fetched ≤ s.hw i .writer
  bounded : B → s.hw i .writer < s.user + 2 ^ 31
  log : ∀ l ∈ s.log, l.handle < l.fetched ∧ l.fetched ≤ s.hw i .writer
  user_le : s.user ≤ m
  retire : A → Retire i m s

/-- Between two acquire calls, and in one before it takes a buffer. -/
def RxIdle (fd : Nat) (i : Fin n) (A B : Prop) (x : SoapyLiteXXTRX) (s : Flight n) : Prop :=
  RxCore fd i A B x.rxStream.userCount x.rxStream.hwCount s ∧
    x.rxStream.userCount = s.user ∧ s.user ≤ s.fetched

/-- At the end of an acquire call: nothing, a drain, or the next buffer. -/
def RxLeft (fd : Nat) (i : Fin n) (A B : Prop) (a : Acquired) (x : SoapyLiteXXTRX) (s : Flight n) :
    Prop :=
  match a.handle with
  | none => RxIdle fd i A B x s
  | some h =>
    if a.ret = soapySdrOverflow then
      RxCore fd i A B x.rxStream.userCount x.rxStream.hwCount s ∧ x.rxStream.userCount = s.fetched
    else
      RxCore fd i A B h x.rxStream.hwCount s ∧
        x.rxStream.userCount = h + 1 ∧ s.user = h ∧ h < s.fetched

/-- The count never goes back and is behind every buffer in use. -/
def Retires (i : Fin n) (s s' : Flight n) : Prop :=
  s.sw i .writer ≤ s'.sw i .writer ∧
    ∀ b ∈ s'.held, b.discarded = false → s'.sw i .writer ≤ b.handle

section

variable {A B : Prop} {m hwCount : Int} {s s' : Flight n}

/-- After a release no held buffer has the handle. -/
theorem ne_of_mem_eraseP {bs : List Held} {h : Int}
    (ho : bs.Pairwise fun b c => b.handle < c.handle) :
    ∀ b ∈ bs.eraseP fun b => b.handle = h, b.handle ≠ h := by
  induction ho with
  | nil => intro b hb; cases hb
  | @cons c cs hc ho ih =>
    intro b hb
    by_cases he : c.handle = h
    · rw [List.eraseP_cons_of_pos (by simpa using he)] at hb
      have := hc b hb
      omega
    · rw [List.eraseP_cons_of_neg (by simpa using he)] at hb
      rcases List.mem_cons.mp hb with rfl | hb
      · exact he
      · exact ih b hb

/-- The release of the oldest buffer in use. -/
theorem Retire.release {h : Int} (hr : Retire i m s) (hm : s.user ≤ m)
    (ho : ReleasesOldest s (.release h)) (hsw : s'.sw i .writer = h + 1)
    (hheld : s'.held = s.held.eraseP fun b => b.handle = h) (huser : s'.user = s.user) :
    Retire i m s' := by
  obtain ⟨⟨c, hc, rfl, hcu⟩, hmin⟩ := ho
  have hmem : ∀ b ∈ s'.held, b ∈ s.held := fun b hb =>
    List.mem_of_mem_eraseP (hheld ▸ hb)
  have hne : ∀ b ∈ s'.held, b.handle ≠ c.handle := fun b hb =>
    ne_of_mem_eraseP hr.order b (hheld ▸ hb)
  have hlt := hr.handed c hc
  have hswc := hr.inUse c hc hcu
  refine ⟨by omega, ?_, fun b hb => ?_, fun b hb hbu => ?_, fun b hb hbg => ?_⟩
  · rw [hheld]
    exact hr.order.sublist List.eraseP_sublist
  · rw [huser]
    exact hr.handed b (hmem b hb)
  · have := hmin b (hmem b hb) hbu
    have := hne b hb
    omega
  · have := hr.gone b (hmem b hb) hbg
    omega

/-- A drain retires all buffers that were filled at the last ioctl, and discards the held ones. -/
theorem RxCore.drain (h : RxCore fd i A B s.user hwCount s) (hlt : s.user < s.fetched)
    (hact : Active fd i .writer s'.drv) (hhw : s'.hw i .writer = s.hw i .writer)
    (hsw : s'.sw i .writer = s.fetched)
    (hheld : s'.held = s.held.map fun b => { b with discarded := true })
    (huser : s'.user = s.user) (hfetched : s'.fetched = s.fetched) (hlog : s'.log = s.log) :
    RxCore fd i A B hwCount hwCount s' ∧ (A → Retires i s s') := by
  have hcached := h.cached
  have hold : ∀ b ∈ s'.held, b.discarded = true ∧ ∃ c ∈ s.held, c.handle = b.handle := by
    rw [hheld]
    intro b hb
    obtain ⟨c, hc, rfl⟩ := List.mem_map.mp hb
    exact ⟨rfl, c, hc, rfl⟩
  refine ⟨⟨hact, by rw [hfetched]; exact h.cached, by rw [hfetched, hhw]; exact h.fetched_le,
    by rw [hhw, huser]; exact h.bounded, by rw [hlog, hhw]; exact h.log, by omega, fun a => ?_⟩,
    fun a => ⟨?_, fun b hb hbu => ?_⟩⟩
  · have hr := h.retire a
    refine ⟨by omega, ?_, fun b hb => ?_, fun b hb hbu => ?_, fun b hb _ => ?_⟩
    · rw [hheld]
      exact List.pairwise_map.mpr hr.order
    · obtain ⟨-, c, hc, he⟩ := hold b hb
      have := hr.handed c hc
      omega
    · rw [(hold b hb).1] at hbu
      cases hbu
    · obtain ⟨-, c, hc, he⟩ := hold b hb
      have := hr.handed c hc
      omega
  · have := (h.retire a).sw_le
    omega
  · rw [(hold b hb).1] at hbu
    cases hbu

/-- The environment keeps the invariant. -/
theorem RxCore.env {e : FlightEv n} (h : RxCore fd i A B m hwCount s)
    (hA : A → ReleasesOldest s e) (hB : B → CountsBounded i s e)
    (he : (flightWorld n fd .writer).env e s = some s') :
    RxCore fd i A B m hwCount s' ∧ Moves i .writer s s' := by
  cases e with
  | irq e =>
    obtain ⟨hact, hhw, hsw, hheld, huser, hfetched, hlog⟩ := flight_irq he h.active
    have hk : s.hw i .writer ≤ s'.hw i .writer := by
      rw [hhw]
      split <;> omega
    refine ⟨⟨hact, by rw [hfetched]; exact h.cached, ?_, fun b => ?_, fun l hl => ?_, ?_,
      fun a => ?_⟩, ⟨hk, huser, hfetched⟩⟩
    · have := h.fetched_le
      omega
    · have hbefore := h.bounded b
      rw [hhw, huser]
      split
      · rename_i hown
        exact hB b hown
      · omega
    · have := h.log l (hlog ▸ hl)
      omega
    · rw [huser]
      exact h.user_le
    · have hr := h.retire a
      exact ⟨hsw ▸ hr.sw_le, hheld ▸ hr.order, by rw [hheld, huser]; exact hr.handed,
        by rw [hheld, hsw]; exact hr.inUse, by rw [hheld, hsw]; exact hr.gone⟩
  | release k =>
    obtain ⟨-, hact, hhw, hsw, hheld, huser, hfetched, hlog⟩ := flight_release he h.active
    refine ⟨⟨hact, by rw [hfetched]; exact h.cached, by rw [hfetched, hhw]; exact h.fetched_le,
      by rw [hhw, huser]; exact h.bounded, by rw [hlog, hhw]; exact h.log,
      by rw [huser]; exact h.user_le, fun a => ?_⟩, ⟨Int.le_of_eq hhw.symm, huser, hfetched⟩⟩
    exact (h.retire a).release h.user_le (hA a) hsw hheld huser

end

theorem RxLeft.core {A B : Prop} {a : Acquired} {x : SoapyLiteXXTRX} {s : Flight n}
    (h : RxLeft fd i A B a x s) : ∃ m c, RxCore fd i A B m c s := by
  unfold RxLeft at h
  split at h
  · exact ⟨_, _, h.1⟩
  · split at h
    · exact ⟨_, _, h.1⟩
    · exact ⟨_, _, h.1⟩

/-- The end of an acquire call. -/
theorem RxLeft.left {A B : Prop} {a : Acquired} {x : SoapyLiteXXTRX} {s : Flight n}
    (h : RxLeft fd i A B a x s) :
    (A → Retires i s (s.left a.ret a.handle)) ∧ RxIdle fd i A B x (s.left a.ret a.handle) := by
  unfold RxLeft at h
  obtain ⟨ret, handle, buff, flags⟩ := a
  cases handle with
  | none => exact ⟨fun a => ⟨Int.le_refl _, (h.1.retire a).inUse⟩, h⟩
  | some k =>
    dsimp only at h
    by_cases hret : ret = soapySdrOverflow
    · rw [if_pos hret] at h
      obtain ⟨hcore, huser⟩ := h
      have hle := hcore.user_le
      simp only [Flight.left, if_pos hret]
      refine ⟨fun a => ⟨Int.le_refl _, (hcore.retire a).inUse⟩, ⟨hcore.active, hcore.cached,
        hcore.fetched_le, fun b => ?_, hcore.log, Int.le_of_eq huser.symm, fun a => ?_⟩, huser,
        Int.le_refl _⟩
      · have hb : s.hw i .writer < s.user + 2 ^ 31 := hcore.bounded b
        show s.hw i .writer < s.fetched + 2 ^ 31
        omega
      · have hr := hcore.retire a
        refine ⟨hr.sw_le, hr.order, fun b hb => ?_, hr.inUse, hr.gone⟩
        have := hr.handed b hb
        show b.handle < s.fetched
        omega
    · rw [if_neg hret] at h
      obtain ⟨hcore, hx, rfl, hlt⟩ := h
      simp only [Flight.left, if_neg hret]
      have hheld : ∀ b ∈ s.held ++ [⟨s.user, false⟩], b ∈ s.held ∨ b = ⟨s.user, false⟩ :=
        fun b hb => by simpa using hb
      have hinUse : A → ∀ b ∈ s.held ++ [⟨s.user, false⟩], b.discarded = false →
          s.sw i .writer ≤ b.handle := by
        intro a b hb hbu
        rcases hheld b hb with hb | rfl
        · exact (hcore.retire a).inUse b hb hbu
        · exact (hcore.retire a).sw_le
      refine ⟨fun a => ⟨Int.le_refl _, hinUse a⟩, ⟨hcore.active, hcore.cached, hcore.fetched_le,
        fun b => ?_, fun l hl => ?_, Int.le_of_eq hx.symm, fun a => ?_⟩, hx, ?_⟩
      · have hb : s.hw i .writer < s.user + 2 ^ 31 := hcore.bounded b
        show s.hw i .writer < s.user + 1 + 2 ^ 31
        omega
      · rcases List.mem_append.mp hl with hl | hl
        · exact hcore.log l hl
        · cases List.mem_singleton.mp hl
          exact ⟨hlt, hcore.fetched_le⟩
      · have hr := hcore.retire a
        have hsw := hr.sw_le
        refine ⟨?_, ?_, fun b hb => ?_, hinUse a, fun b hb hbg => ?_⟩
        · show s.sw i .writer ≤ x.rxStream.userCount
          omega
        · refine List.pairwise_append.mpr ⟨hr.order, List.pairwise_singleton _ _, ?_⟩
          intro b hb c hc
          cases List.mem_singleton.mp hc
          exact hr.handed b hb
        · show b.handle < s.user + 1
          rcases hheld b hb with hb | rfl
          · have := hr.handed b hb
            omega
          · exact Int.lt_succ _
        · rcases hheld b hb with hb | rfl
          · exact hr.gone b hb hbg
          · cases hbg
      · show s.user + 1 ≤ s.fetched
        omega

/-- The 32-bit difference of `acquireReadBuffer`, where the counts are bounded. -/
theorem RxIdle.available {A B : Prop} {x : SoapyLiteXXTRX} {s : Flight n} (h : RxIdle fd i A B x s)
    (hb : B) : toInt32 (x.rxStream.hwCount - x.rxStream.userCount) =
      x.rxStream.hwCount - x.rxStream.userCount := by
  obtain ⟨hcore, huser, hle⟩ := h
  have hbound := hcore.bounded hb
  have hfetched := hcore.fetched_le
  have hcached := hcore.cached
  exact toInt32_eq (by omega) (by omega)

theorem RxIdle.lt_of_ne {A B : Prop} {x : SoapyLiteXXTRX} {s : Flight n} (h : RxIdle fd i A B x s)
    (hne : toInt32 (x.rxStream.hwCount - x.rxStream.userCount) ≠ 0) : s.user < s.fetched := by
  obtain ⟨hcore, huser, hle⟩ := h
  have hcached := hcore.cached
  by_contra hlt
  rw [show x.rxStream.hwCount - x.rxStream.userCount = 0 by omega] at hne
  exact hne toInt32_zero

/-! ## The rule of `acquireReadBuffer` -/

section

variable {A B : Prop} {ce : Flight n → FlightEv n → Prop} {cc : Flight n → Sysc n → Prop}
  (hA : A → ∀ s e, ce s e → ReleasesOldest s e) (hB : B → ∀ s e, ce s e → CountsBounded i s e)
  (hP : B → ∀ s q, cc s q → PollsAhead i s q)

/-- `World.ProcWP` of the RX stream. -/
abbrev RxWP {α : Type} (fd : Nat) (i : Fin n) (A B : Prop) (ce : Flight n → FlightEv n → Prop)
    (cc : Flight n → Sysc n → Prop) (R : α → SoapyLiteXXTRX → Flight n → Prop) (m : Dev n α)
    (x : SoapyLiteXXTRX) (s : Flight n) : Prop :=
  ((flightWorld n fd .writer).guard ce cc).ProcWP (fun s => ∃ m c, RxCore fd i A B m c s)
    (fun s s' => A → Retires i s s') R
    (fun e x s => RxIdle fd i A B x s ∧ (B → e ≠ .assertFail)) m x s

include hA hB

theorem RxCore.stable {m c : Int} {K : Flight n → Prop}
    (hK : ∀ s s', K s → Moves i .writer s s' → K s') :
    ((flightWorld n fd .writer).guard ce cc).Stable (fun s => RxCore fd i A B m c s ∧ K s)
      (Moves i .writer) where
  refl := Moves.refl
  trans _ _ _ := Moves.trans
  step s e s' h he := by
    obtain ⟨hce, he⟩ := World.guard_env.mp he
    obtain ⟨h', hm⟩ := h.1.env (fun a => hA a s e hce) (fun b => hB b s e hce) he
    exact ⟨⟨h', hK s s' h.2 hm⟩, hm⟩

theorem RxIdle.stable_and {K : Flight n → Prop} (hK : ∀ s s', K s → Moves i .writer s s' → K s')
    (x : SoapyLiteXXTRX) :
    ((flightWorld n fd .writer).guard ce cc).Stable (fun s => RxIdle fd i A B x s ∧ K s)
      (Moves i .writer) where
  refl := Moves.refl
  trans _ _ _ := Moves.trans
  step s e s' h he := by
    obtain ⟨h', hm⟩ := (RxCore.stable hA hB (K := fun s =>
      (x.rxStream.userCount = s.user ∧ s.user ≤ s.fetched) ∧ K s) fun s s' h hm =>
        ⟨by rw [hm.user, hm.fetched]; exact h.1, hK s s' h.2 hm⟩).step s e s'
          ⟨h.1.1, h.1.2, h.2⟩ he
    exact ⟨⟨⟨h'.1, h'.2.1⟩, h'.2.2⟩, hm⟩

theorem RxIdle.stable (x : SoapyLiteXXTRX) :
    ((flightWorld n fd .writer).guard ce cc).Stable (RxIdle fd i A B x) (Moves i .writer) := by
  simpa only [and_true] using
    RxIdle.stable_and hA hB (K := fun _ => True) (fun _ _ _ _ => trivial) x

theorem RxLeft.stable (a : Acquired) (x : SoapyLiteXXTRX) :
    ((flightWorld n fd .writer).guard ce cc).Stable (RxLeft fd i A B a x) (Moves i .writer) where
  refl := Moves.refl
  trans _ _ _ := Moves.trans
  step s e s' h he := by
    unfold RxLeft at h ⊢
    split at h
    · exact (RxIdle.stable hA hB x).step s e s' h he
    · rename_i k _
      by_cases hret : a.ret = soapySdrOverflow
      · rw [if_pos hret] at h ⊢
        exact (RxCore.stable hA hB (K := fun s => x.rxStream.userCount = s.fetched)
          fun s s' h hm => by rw [hm.fetched]; exact h).step s e s' h he
      · rw [if_neg hret] at h ⊢
        exact (RxCore.stable hA hB
          (K := fun s => x.rxStream.userCount = k + 1 ∧ s.user = k ∧ k < s.fetched)
          fun s s' h hm => by rw [hm.fetched, hm.user]; exact h).step s e s' h he

theorem finishRead_rx {x : SoapyLiteXXTRX} {s : Flight n}
    (h : RxIdle fd i A B x s ∧ s.user < s.fetched) :
    RxWP fd i A B ce cc (RxLeft fd i A B) finishRead x s := by
  have hst := @RxIdle.stable_and n fd i A B ce cc hA hB (fun s => s.user < s.fetched)
    (fun s s' h hm => by rw [hm.fetched, hm.user]; exact h) x
  show World.WP _ _ _ _ ((Proc.get >>= _) x) s
  rw [Proc.get_bind]
  by_cases hov : x.rxStream.hwCount - x.rxStream.swCount > (dmaBufCount .writer / 2 : Nat)
  · rw [if_pos hov, checkedIoctl_bind]
    refine wp_call hst (fun s h => ⟨_, _, h.1.1⟩) h ?_
    intro s₁ o r k' h₁ _ _ hc
    obtain ⟨⟨hcore, huser, -⟩, hlt⟩ := h₁
    obtain ⟨h0, rfl⟩ := kernelCall_update (d := .writer) hcore.active hc
    rw [if_neg (by rw [h0]; simp)]
    rw [huser] at hcore
    have hdir := LitepcieDevice.dir_modDir_self s₁.drv.dev i .writer
      (fun c => c.setSwCount x.rxStream.hwCount)
    obtain ⟨hcore', hret⟩ := @RxCore.drain n fd i A B _ s₁ { s₁ with
        drv := { s₁.drv with
          dev := s₁.drv.dev.modDir i .writer fun c => c.setSwCount x.rxStream.hwCount }
        held := s₁.held.map fun b => { b with discarded := true } }
      hcore hlt (hcore.active.update _)
      (by unfold Flight.hw; rw [hdir]; rfl)
      (by unfold Flight.sw; rw [hdir]; exact hcore.cached) rfl rfl rfl rfl
    refine ⟨hret, wp_ret (RxLeft.stable hA hB _ _) ?_ ?_ fun s₂ h₂ _ => h₂⟩
    · intro s₂ h₂
      exact ⟨_, _, h₂.1⟩
    · exact ⟨hcore', hcore.cached⟩
  · rw [if_neg hov]
    refine wp_ret hst (fun s h => ⟨_, _, h.1.1⟩) h ?_
    rintro s₁ ⟨⟨hcore, huser, -⟩, hlt⟩ -
    exact ⟨hcore, rfl, huser.symm, huser ▸ hlt⟩

/-- Reading the counts: a buffer that was filled before the call is filled at the ioctl. -/
theorem dmaCounts_rx {C : Prop} {β : Type} {R : β → SoapyLiteXXTRX → Flight n → Prop}
    {f : Unit → Dev n β} {x : SoapyLiteXXTRX} {s : Flight n}
    (h : RxIdle fd i A B x s ∧ (C → s.user < s.hw i .writer))
    (hk : ∀ x' s', RxIdle fd i A B x' s' → (C → s'.user < s'.fetched) →
      RxWP fd i A B ce cc R (f ()) x' s') :
    RxWP fd i A B ce cc R (dmaCounts .writer 1 >>= f) x s := by
  have hst := @RxIdle.stable_and n fd i A B ce cc hA hB (fun s => C → s.user < s.hw i .writer)
    (fun s s' h hm c => by rw [hm.user]; exact Int.lt_of_lt_of_le (h c) hm.hw) x
  refine wp_dmaCounts hst (fun s h => ⟨_, _, h.1.1⟩) h (fun s h => h.1.1.active) ?_
  rintro s₁ ⟨⟨hcore, huser, hle⟩, hlt⟩ -
  have hfetched := hcore.fetched_le
  have hidle : RxIdle fd i A B
      (x.modStream .writer fun st =>
        { st with hwCount := (s₁.drv.dev.dir i .writer).hwCount
                  swCount := (s₁.drv.dev.dir i .writer).swCount })
      { s₁ with fetched := (s₁.drv.dev.dir i .writer).hwCount } := by
    refine ⟨⟨hcore.active, rfl, Int.le_refl _, hcore.bounded, hcore.log, hcore.user_le,
      fun a => ?_⟩, huser, Int.le_trans hle hfetched⟩
    have hr := hcore.retire a
    exact ⟨hr.sw_le, hr.order, hr.handed, hr.inUse, hr.gone⟩
  exact ⟨fun a => ⟨Int.le_refl _, (hcore.retire a).inUse⟩, hk _ _ hidle hlt⟩

/-- The wait of `acquireReadBuffer`. -/
theorem waitRead_rx (hP : B → ∀ s q, cc s q → PollsAhead i s q) (t : Int) {x : SoapyLiteXXTRX}
    {s : Flight n} (h : RxIdle fd i A B x s) :
    RxWP fd i A B ce cc (RxLeft fd i A B) (waitRead t) x s := by
  have hst := @RxIdle.stable n fd i A B ce cc hA hB
  have hinv : ∀ x s, RxIdle fd i A B x s → ∃ m c, RxCore fd i A B m c s := fun x s h => ⟨_, _, h.1⟩
  show World.WP _ _ _ _ ((Proc.get >>= _) x) s
  rw [Proc.get_bind]
  by_cases hav : toInt32 (x.rxStream.hwCount - x.rxStream.userCount) = 0
  · rw [if_pos hav]
    by_cases ht : t = 0
    · rw [if_pos ht]
      exact wp_ret (hst x) (hinv x) h fun s₁ h₁ _ => h₁
    · rw [if_neg ht]
      refine wp_poll (hst x) (hinv x) h (fun s h => h.1.active) ?_
      intro s₁ r h₁ _ hcc hready
      refine ⟨fun a => ⟨Int.le_refl _, (h₁.1.retire a).inUse⟩, ?_⟩
      by_cases hneg : r < 0
      · rw [if_pos hneg]
        exact wp_halt (hst x) (hinv x) h₁ fun s₂ h₂ _ => ⟨h₂, fun _ => by simp⟩
      · rw [if_neg hneg]
        by_cases hz : r = 0
        · rw [if_pos hz]
          exact wp_ret (hst x) (hinv x) h₁ fun s₂ h₂ _ => h₂
        · rw [if_neg hz]
          -- `POLLIN` is set, so a filled buffer is there
          have hfilled : B → s₁.user < s₁.hw i .writer := by
            intro b
            have hahead : s₁.user - s₁.sw i .writer ≤ 2 ∨ s₁.user < s₁.hw i .writer :=
              hP b s₁ _ hcc
            have hin : s₁.hw i .writer - s₁.sw i .writer > 2 := by
              exact of_decide_eq_true (hready (by omega))
            omega
          refine dmaCounts_rx hA hB ⟨h₁, hfilled⟩ fun x' s' h' hlt => ?_
          show World.WP _ _ _ _ ((Proc.get >>= _) x') s'
          rw [Proc.get_bind]
          refine procWP_assert (fun hpos => ?_) fun hpos => ?_
          · exact finishRead_rx hA hB ⟨h', h'.lt_of_ne (by omega)⟩
          · refine wp_halt (hst x') (hinv x') h' fun s₂ h₂ _ => ⟨h₂, fun b => ?_⟩
            have hlt := hlt b
            rw [h'.available b] at hpos
            have := h'.1.cached
            have := h'.2.1
            omega
  · rw [if_neg hav]
    exact finishRead_rx hA hB ⟨h, h.lt_of_ne hav⟩

/-- A call of `acquireReadBuffer` while the environment moves. -/
theorem acquireReadBuffer_rx (hP : B → ∀ s q, cc s q → PollsAhead i s q) (t : Int)
    {x : SoapyLiteXXTRX} {s : Flight n} (h : RxIdle fd i A B x s) :
    RxWP fd i A B ce cc (RxLeft fd i A B) (acquireReadBuffer .rx t) x s := by
  show World.WP _ _ _ _ _ s
  rw [acquireReadBuffer_rx_apply]
  by_cases hass : toInt32 (x.rxStream.hwCount - x.rxStream.userCount) ≥ 0
  · rw [if_pos hass]
    exact dmaCounts_rx (C := False) hA hB ⟨h, False.elim⟩ fun x' s' h' _ =>
      waitRead_rx hA hB hP t h'
  · rw [if_neg hass]
    refine wp_halt (RxIdle.stable hA hB x) (fun s h => ⟨_, _, h.1⟩) h
      fun s₁ h₁ _ => ⟨h₁, fun b => ?_⟩
    rw [h.available b] at hass
    have := h.1.cached
    have := h.2
    omega

/-- The client of the RX stream. -/
theorem acquireAll_rx (hP : B → ∀ s q, cc s q → PollsAhead i s q) (timeouts : List Int)
    {x : SoapyLiteXXTRX} {s : Flight n} (h : RxIdle fd i A B x s) :
    RxWP fd i A B ce cc (fun _ => RxIdle fd i A B) (acquireAll (acquireReadBuffer .rx) timeouts)
      x s := by
  refine wp_acquireAll (RxIdle.stable hA hB) (RxLeft.stable hA hB)
    (fun x s h => ⟨_, _, h.1⟩) (fun a x s h => h.core)
    (fun x s h _ => (⟨fun a => ?_, h⟩ : (A → Retires i s s) ∧ RxIdle fd i A B x s))
    (fun t x s h => acquireReadBuffer_rx hA hB hP t h) (fun a x s h _ => h.left) timeouts h
  exact ⟨Int.le_refl _, (h.1.retire a).inUse⟩

end

/-! ## Runs -/

/-- An activation begins with no buffer in flight. -/
theorem RxIdle.start {A B : Prop} {x : SoapyLiteXXTRX} {k : Driver n}
    (h : Activated fd i .writer x k) : RxIdle fd i A B x (Flight.start x.rxStream.hwCount k) := by
  obtain ⟨hact, hx, hu⟩ := h.start
  obtain ⟨hhw, hsw⟩ := h.counts
  refine ⟨⟨hact, rfl, Int.le_of_eq hx, fun _ => ?_, fun l hl => ?_, Int.le_of_eq hu.symm,
    fun _ => ?_⟩, hu, Int.le_of_eq (hx.trans hhw).symm⟩
  · show (k.dev.dir i .writer).hwCount < 0 + 2 ^ 31
    rw [hhw]
    decide
  · cases hl
  · refine ⟨Int.le_of_eq (hsw.trans hu.symm), List.Pairwise.nil, ?_, ?_, ?_⟩ <;> intro b hb <;>
      cases hb

/-- The client of the RX stream and its buffers at the beginning of an activation. -/
abbrev rxClient (timeouts : List Int) (x : SoapyLiteXXTRX) (k : Driver n) :
    Prog (Sysc n) Sysc.Ans (Except Halt Unit × SoapyLiteXXTRX) × Flight n :=
  (acquireAll (acquireReadBuffer .rx) timeouts x, Flight.start x.rxStream.hwCount k)

/-- In an activation in which `acquireReadBuffer` polls only with a filled buffer or at most two
unretired ones, it never hands out a buffer that the hardware has not filled, and none of its
assertions fails. The activation found the engine stopped: `deactivateStream` stops the one of the RX
stream, and a second `activateStream` without it is no activation of its own. -/
theorem acquireReadBuffer_filled (timeouts : List Int) (x : SoapyLiteXXTRX) (k : Driver n)
    (hk : Activated fd i .writer x k) (es : List (Ev (FlightEv n) Choice))
    (c : Prog (Sysc n) Sysc.Ans (Except Halt Unit × SoapyLiteXXTRX) × Flight n)
    (hc : ((flightWorld n fd .writer).machine _).Along
      (World.Meets (CountsBounded i) (PollsAhead i)) es (rxClient timeouts x k))
    (hr : ((flightWorld n fd .writer).machine _).run es (rxClient timeouts x k) = some c) :
    (∀ l ∈ c.2.log, l.handle < l.fetched ∧ l.fetched ≤ c.2.hw i .writer) ∧
      assertFailed c.1 = false := by
  have hwp := @acquireAll_rx n fd i False True (CountsBounded i) (PollsAhead i)
    (fun h => h.elim) (fun _ _ _ h => h) (fun _ _ _ h => h) timeouts _ _ (RxIdle.start hk)
  have hrun := World.WP.run_along (c := rxClient timeouts x k) hwp hc hr
  obtain ⟨m, hw, hcore⟩ := hrun.inv
  exact ⟨hcore.log, not_assertFailed hrun fun y s h => h.2 trivial rfl⟩

/-- Three buffers are filled, and the client acquires `k` of them. -/
def acquireFilled (k : Nat) : List (Ev (FlightEv 1) Choice) :=
  .env (.irq ⟨0, .writer, 3⟩) :: List.replicate (3 * k) (.thr .ready)

/-- The first call polls, until three buffers are filled; the second one finds a filled buffer. -/
def acquirePolled : List (Ev (FlightEv 1) Choice) :=
  List.replicate 2 (.thr .ready) ++ .env (.irq ⟨0, .writer, 3⟩) :: List.replicate 6 (.thr .ready)

theorem acquireReadBuffer_filled_polled :
    ∃ c, ((flightWorld 1 3 .writer).machine _).run acquirePolled
        (rxClient [1000, 0] (newStarted .writer) (oneStarted .writer)) = some c ∧
      c.2.log = [⟨8192, 0, 3⟩, ⟨8192, 1, 3⟩] ∧
      (∀ l ∈ c.2.log, l.handle < l.fetched ∧ l.fetched ≤ c.2.hw 0 .writer) ∧
        assertFailed c.1 = false := by
  have hlog : (((flightWorld 1 3 .writer).machine _).run acquirePolled
      (rxClient [1000, 0] (newStarted .writer) (oneStarted .writer))).map (fun c => c.2.log) =
        some [⟨8192, 0, 3⟩, ⟨8192, 1, 3⟩] := by
    decide +kernel
  obtain ⟨c, hc, hl⟩ := Option.map_eq_some_iff.mp hlog
  exact ⟨c, hc, hl, acquireReadBuffer_filled _ _ _ (activated_oneStarted .writer) _ c
    (by decide +kernel) hc⟩

/-- With three buffers held, the fourth call finds none and polls; `POLLIN` is set at once, for the
three are not retired, and the assertion after the `poll` fails. -/
theorem acquireReadBuffer_assert :
    ¬ ∀ (timeouts : List Int) (es : List (Ev (FlightEv 1) Choice))
        (c : Prog (Sysc 1) Sysc.Ans (Except Halt Unit × SoapyLiteXXTRX) × Flight 1),
      ((flightWorld 1 3 .writer).machine _).Along (World.Meets (CountsBounded 0) fun _ _ => True)
        es (rxClient timeouts (newStarted .writer) (oneStarted .writer)) →
      ((flightWorld 1 3 .writer).machine _).run es
        (rxClient timeouts (newStarted .writer) (oneStarted .writer)) = some c →
      assertFailed c.1 = false := by
  intro h
  have hfail : (((flightWorld 1 3 .writer).machine _).run
      (acquireFilled 3 ++ List.replicate 4 (.thr .ready))
      (rxClient [0, 0, 0, 1000] (newStarted .writer) (oneStarted .writer))).map
        (fun c => assertFailed c.1) = some true := by
    decide +kernel
  obtain ⟨c, hc, hf⟩ := Option.map_eq_some_iff.mp hfail
  rw [h _ _ c (by decide +kernel) hc] at hf
  cases hf

/-- In an activation that found the engine stopped, `writer_sw_count` never decreases and never passes
a buffer that is in use, exactly if every release is one of the oldest buffer in use, and none of a
discarded one. -/
theorem retirement_iff (timeouts : List Int) (x : SoapyLiteXXTRX) (k : Driver n)
    (hk : Activated fd i .writer x k) (es : List (Ev (FlightEv n) Choice)) :
    ((flightWorld n fd .writer).machine _).Along
        (fun c e => ∀ c', (flightWorld n fd .writer).step c e = some c' → Retires i c.2 c'.2)
        es (rxClient timeouts x k) ↔
      ((flightWorld n fd .writer).machine _).Along
        (World.Meets ReleasesOldest fun _ _ => True) es (rxClient timeouts x k) := by
  have hwp := @acquireAll_rx n fd i True False ReleasesOldest (fun _ _ => True)
    (fun _ _ _ h => h) (fun h => h.elim) (fun h => h.elim) timeouts _ _ (RxIdle.start hk)
  refine World.WP.along_iff (c := rxClient timeouts x k) hwp (fun s s' _ h => h trivial) ?_
  rintro s e s' ⟨m, hw, hcore⟩ he
  have hr := hcore.retire trivial
  cases e with
  | irq e =>
    obtain ⟨-, -, hsw, hheld, -⟩ := flight_irq he hcore.active
    refine ⟨fun _ => trivial, fun _ => ⟨Int.le_of_eq hsw.symm, ?_⟩⟩
    rw [hheld, hsw]
    exact hr.inUse
  | release h =>
    obtain ⟨⟨b, hb, rfl⟩, -, -, hsw, hheld, huser, -⟩ := flight_release he hcore.active
    constructor
    · rintro ⟨hmono, huse⟩
      refine ⟨⟨b, hb, rfl, ?_⟩, fun c hc hcu => ?_⟩
      · by_contra hbg
        have := hr.gone b hb (by simpa using hbg)
        omega
      · by_cases hcb : c.handle = b.handle
        · omega
        · have hmem : c ∈ s'.held := by
            rw [hheld]
            exact (List.mem_eraseP_of_neg (by simpa using hcb)).mpr hc
          have := huse c hmem hcu
          omega
    · intro hold
      have hr' := hr.release hcore.user_le hold hsw hheld huser
      obtain ⟨⟨c, hc, hcb, hcu⟩, -⟩ := hold
      have := hr.inUse c hc hcu
      exact ⟨by omega, hr'.inUse⟩

theorem retirement_iff_inOrder :
    ((flightWorld 1 3 .writer).machine _).Along
        (fun c e => ∀ c', (flightWorld 1 3 .writer).step c e = some c' → Retires 0 c.2 c'.2)
        (acquireFilled 2 ++ [.env (.release 0), .env (.release 1)])
        (rxClient [0, 0] (newStarted .writer) (oneStarted .writer)) :=
  (retirement_iff _ _ _ (activated_oneStarted .writer) _).mpr (by decide +kernel)

/-- Buffer 1 is released before buffer 0. Then the count is past buffer 0, which is in use; the
release of buffer 0 sets it back. -/
theorem retirement_backwards :
    (¬ ∀ es, ((flightWorld 1 3 .writer).machine _).Along
      (fun c e => ∀ c', (flightWorld 1 3 .writer).step c e = some c' →
        ∀ b ∈ c'.2.held, b.discarded = false → c'.2.sw 0 .writer ≤ b.handle)
      es (rxClient [0, 0] (newStarted .writer) (oneStarted .writer))) ∧
    ¬ ∀ es, ((flightWorld 1 3 .writer).machine _).Along
      (fun c e => ∀ c', (flightWorld 1 3 .writer).step c e = some c' →
        c.2.sw 0 .writer ≤ c'.2.sw 0 .writer)
      es (rxClient [0, 0] (newStarted .writer) (oneStarted .writer)) := by
  have hpast : (((flightWorld 1 3 .writer).machine _).run
      (acquireFilled 2 ++ [.env (.release 1)])
      (rxClient [0, 0] (newStarted .writer) (oneStarted .writer))).map
        (fun c => (c.2.held, c.2.sw 0 .writer)) = some ([⟨0, false⟩], 2) := by
    decide +kernel
  have hback : (((flightWorld 1 3 .writer).machine _).run
      (acquireFilled 2 ++ [.env (.release 1)] ++ [.env (.release 0)])
      (rxClient [0, 0] (newStarted .writer) (oneStarted .writer))).map
        (fun c => c.2.sw 0 .writer) = some 1 := by
    decide +kernel
  obtain ⟨c', hc', hv⟩ := Option.map_eq_some_iff.mp hpast
  obtain ⟨hheld, hsw⟩ := Prod.mk.inj hv
  obtain ⟨c'', hc'', hsw'⟩ := Option.map_eq_some_iff.mp hback
  obtain ⟨c, hc, hs⟩ := Machine.run_snoc.mp hc'
  obtain ⟨c₁, hc₁, hs'⟩ := Machine.run_snoc.mp hc''
  cases hc'.symm.trans hc₁
  refine ⟨fun h => ?_, fun h => ?_⟩
  · have hle := Machine.along_last (h _) hc hs c' hs ⟨0, false⟩ (by rw [hheld]; simp) rfl
    rw [hsw] at hle
    exact absurd hle (by decide)
  · have hle := Machine.along_last (h _) hc' hs' c'' hs'
    rw [hsw, hsw'] at hle
    exact absurd hle (by decide)

end Soapy
end Xtrx
