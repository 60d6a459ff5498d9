import Xtrx.Soapy.Activation
import Xtrx.Soapy.ReadStream

/-!
# The buffer accounting of `readStream`

A client calls `readStream` on the RX stream of an activation any number of times, with any numbers
of elements. A call that ends with an exception is a call too. The record of the device object says
which handles `acquireReadBuffer` gave and which `readStream` passed to `releaseReadBuffer`.

- **`Accounts`**: what the remainder of the stream says about the record, at the end of a call.
- **`Small`**: every handle of the record fits `remainderHandle`, an `int32_t`. Handles are 64 bits
  wide where they come from and where they go to.
- **`consume_accounts`**, **`readFresh_accounts`**, **`readStream_accounts`**: one step of the
  invariant for each function, whatever the driver answers.
- **`accounts_of_small`**: the accounting holds as long as the handles are small. `accounts_large`
  is a run with the handle `2 ^ 31`.
-/

namespace Xtrx
namespace Soapy

open Conc Kernel User SoapyLiteXXTRX

variable {n : Nat}

/-! ## The record -/

/-- The handles that were passed to `releaseReadBuffer`. -/
def releasedHandles (log : List ReadRec) : List Int :=
  log.filterMap fun | .released h => some h | _ => none

/-- At each moment the released handles are the acquired ones in their order, but for the last of
these. -/
def InTurn (log : List ReadRec) : Prop :=
  ∀ l, l <+: log → ∃ o : Option Int, acquiredHandles l = releasedHandles l ++ o.toList

/-- The accounting at the end of a call. -/
structure Accounts (x : SoapyLiteXXTRX) : Prop where
  /-- A buffer is partly consumed: it is the one that is not released. -/
  held : 0 ≤ x.rxStream.remainderHandle → 0 < x.rxStream.remainderSamps ∧
    x.rxStream.remainderOffset + x.rxStream.remainderSamps = getStreamMTU .writer ∧
    acquiredHandles x.log = releasedHandles x.log ++ [x.rxStream.remainderHandle]
  /-- No buffer is partly consumed: all are released. -/
  free : x.rxStream.remainderHandle < 0 → x.rxStream.remainderSamps = 0 ∧
    x.rxStream.remainderOffset = 0 ∧ acquiredHandles x.log = releasedHandles x.log
  inTurn : InTurn x.log

/-- Every handle that `acquireReadBuffer` gave is below `2 ^ 31`. -/
def Small (x : SoapyLiteXXTRX) : Prop := ∀ h, ReadRec.acquired h ∈ x.log → 0 ≤ h ∧ h < 2 ^ 31

section

variable {log : List ReadRec} {x x' : SoapyLiteXXTRX}

theorem releasedHandles_append (log log' : List ReadRec) :
    releasedHandles (log ++ log') = releasedHandles log ++ releasedHandles log' :=
  List.filterMap_append

theorem InTurn.snoc (h : InTurn log) {r : ReadRec} (o : Option Int)
    (ho : acquiredHandles (log ++ [r]) = releasedHandles (log ++ [r]) ++ o.toList) :
    InTurn (log ++ [r]) := by
  intro l hl
  rcases List.prefix_concat_iff.mp hl with rfl | hl
  · exact ⟨o, ho⟩
  · exact h l hl

theorem Small.mono (h : Small x') (hlog : x.log <+: x'.log) : Small x := fun v hv =>
  h v (hlog.subset hv)

/-- What the accounting depends on. -/
structure SameAccount (x x' : SoapyLiteXXTRX) : Prop where
  log : x'.log = x.log
  handle : x'.rxStream.remainderHandle = x.rxStream.remainderHandle
  samps : x'.rxStream.remainderSamps = x.rxStream.remainderSamps
  offset : x'.rxStream.remainderOffset = x.rxStream.remainderOffset

theorem SameAccount.refl (x : SoapyLiteXXTRX) : SameAccount x x := ⟨rfl, rfl, rfl, rfl⟩

theorem SameAccount.trans {y : SoapyLiteXXTRX} (h : SameAccount x y) (h' : SameAccount y x') :
    SameAccount x x' :=
  ⟨h'.log.trans h.log, h'.handle.trans h.handle, h'.samps.trans h.samps, h'.offset.trans h.offset⟩

theorem SameAccount.accounts (h : SameAccount x x') (ha : Accounts x) : Accounts x' := by
  obtain ⟨hlog, hh, hs, ho⟩ := h
  constructor
  · rw [hh, hs, ho, hlog]
    exact ha.held
  · rw [hh, hs, ho, hlog]
    exact ha.free
  · rw [hlog]
    exact ha.inTurn

theorem SameAccount.small (h : SameAccount x x') : Small x' ↔ Small x := by
  unfold Small
  rw [h.log]

end

/-! ## Steps -/

/-- The accounting, as long as the handles are small. -/
def Accounted (x : SoapyLiteXXTRX) : Prop := Small x → Accounts x

/-- `R` holds at the normal ends, `Accounted` at the caught ones, whatever the driver answers. -/
abbrev Keeps {α : Type} (R : α → SoapyLiteXXTRX → Prop) (m : Dev n α) (x : SoapyLiteXXTRX) : Prop :=
  Proc.Ends R (fun e x => e.caught = true → Accounted x) m x

section

variable {x : SoapyLiteXXTRX} {F : Halt → SoapyLiteXXTRX → Prop}

theorem ends_checkedIoctl {c : Driver.Ioctl n} {R : Option c.Resp → SoapyLiteXXTRX → Prop}
    (h : ∀ r, R r x) (hF : F .abort x) : Proc.Ends R F (checkedIoctl c) x := by
  apply Proc.Ends.bind
  apply Proc.Ends.sys
  rintro ⟨status, resp⟩
  dsimp only
  split
  · exact Proc.Ends.halt hF
  · exact Proc.Ends.pure (h resp)

theorem ends_assert {p : Prop} [Decidable p] {R : Unit → SoapyLiteXXTRX → Prop} (h : p → R () x)
    (hF : F .assertFail x) : Proc.Ends R F (assert p : Dev n Unit) x := by
  unfold assert
  split
  · rename_i hp
    exact Proc.Ends.pure (h hp)
  · exact Proc.Ends.halt hF

/-! ### `acquireReadBuffer` -/

/-- `acquireReadBuffer` leaves the account alone. -/
abbrev Acquires (x : SoapyLiteXXTRX) (m : Dev n Acquired) (x' : SoapyLiteXXTRX) : Prop :=
  Proc.Ends (fun a x'' => SameAccount x x'' ∧ AcquireRet a) (fun _ x'' => SameAccount x x'') m x'

variable {x' : SoapyLiteXXTRX}

theorem ends_dmaCounts {R : Unit → SoapyLiteXXTRX → Prop} {enable : UInt8}
    (h : SameAccount x x') (hR : ∀ x'', SameAccount x x'' → R () x'') :
    Proc.Ends R (fun _ x'' => SameAccount x x'') (dmaCounts .writer enable : Dev n Unit) x' := by
  apply Proc.Ends.bind
  apply Proc.Ends.bind
  refine ends_checkedIoctl (fun r => ?_) h
  apply Proc.Ends.pure
  apply Proc.Ends.modify
  exact hR _ (h.trans ⟨rfl, rfl, rfl, rfl⟩)

theorem acquires_finishRead (h : SameAccount x x') :
    Acquires x (finishRead : Dev n Acquired) x' := by
  refine Proc.Ends.bind (Proc.Ends.get ?_)
  dsimp only
  split
  · refine Proc.Ends.bind (ends_checkedIoctl (fun r => ?_) h)
    refine Proc.Ends.bind (Proc.Ends.modify (Proc.Ends.pure ?_))
    exact ⟨h.trans ⟨rfl, rfl, rfl, rfl⟩, .inr (.inl rfl)⟩
  · refine Proc.Ends.bind (Proc.Ends.get ?_)
    refine Proc.Ends.bind (Proc.Ends.modify (Proc.Ends.pure ?_))
    exact ⟨h.trans ⟨rfl, rfl, rfl, rfl⟩, .inr (.inr rfl)⟩

theorem acquires_waitRead (h : SameAccount x x') (t : Int) :
    Acquires x (waitRead t : Dev n Acquired) x' := by
  refine Proc.Ends.bind (Proc.Ends.get ?_)
  dsimp only
  split
  · split
    · exact Proc.Ends.pure ⟨h, .inl rfl⟩
    · refine Proc.Ends.bind (Proc.Ends.sys fun ret => ?_)
      change Int at ret
      split
      · exact Proc.Ends.halt h
      · split
        · exact Proc.Ends.pure ⟨h, .inl rfl⟩
        · refine Proc.Ends.bind (ends_dmaCounts h fun y hy => ?_)
          refine Proc.Ends.bind (Proc.Ends.get ?_)
          exact Proc.Ends.bind (ends_assert (fun _ => acquires_finishRead hy) hy)
  · exact acquires_finishRead h

theorem acquires_acquireReadBuffer (x : SoapyLiteXXTRX) (t : Int) :
    Acquires x (acquireReadBuffer .rx t : Dev n Acquired) x := by
  have hrefl := SameAccount.refl x
  unfold Acquires Proc.Ends
  rw [acquireReadBuffer_rx_apply]
  split
  · exact Proc.Ends.bind (m := dmaCounts .writer 1) (f := fun _ => waitRead t)
      (ends_dmaCounts hrefl fun y hy => acquires_waitRead hy t)
  · exact hrefl

/-! ### `readStream` -/

theorem keeps_readOut {R : List Store → SoapyLiteXXTRX → Prop} (h : ∀ stores, R stores x)
    (src len base : Nat) (format : String) (cs : List (Nat × Nat)) :
    Keeps R (readOut src len base format cs : Dev n (List Store)) x := by
  induction cs generalizing R with
  | nil => exact Proc.Ends.pure (h [])
  | cons c cs ih =>
    obtain ⟨channel, i⟩ := c
    refine Proc.Ends.bind (Proc.Ends.sys fun m => Proc.Ends.bind ?_)
    exact ih fun stores => Proc.Ends.pure (h _)

/-- The remainder is accounted, and `k` of its elements are still there. -/
structure HasRemainder (k : Nat) (x : SoapyLiteXXTRX) : Prop where
  accounts : Accounts x
  handle : 0 ≤ x.rxStream.remainderHandle
  le : k ≤ x.rxStream.remainderSamps

/-- The step of `consume`: the buffer is released when its last element is consumed. -/
theorem consume_accounts {k : Nat} (h : Small x → HasRemainder k x) :
    Keeps (fun _ x' => Accounted x' ∧
        (k = x.rxStream.remainderSamps → x'.rxStream.remainderHandle < 0))
      (consume k : Dev n Unit) x := by
  refine Proc.Ends.bind (Proc.Ends.modify (Proc.Ends.bind (Proc.Ends.get ?_)))
  dsimp only
  split
  · rename_i hzero
    change x.rxStream.remainderSamps - k = 0 at hzero
    have hneg : (-1 : Int) < 0 := by decide
    refine Proc.Ends.bind (Proc.Ends.modify (Proc.Ends.bind ?_))
    refine Proc.Ends.bind (ends_assert (fun _ => ?_) (by nofun))
    refine Proc.Ends.bind (ends_checkedIoctl (fun r => ?_) (by nofun))
    refine Proc.Ends.pure (Proc.Ends.modify ⟨fun hs => ?_, fun _ => hneg⟩)
    obtain ⟨ha, hhandle, -⟩ := h (hs.mono (List.prefix_append _ _))
    obtain ⟨-, -, hlog⟩ := ha.held hhandle
    have hreleased : acquiredHandles (x.log ++ [.released x.rxStream.remainderHandle]) =
        releasedHandles (x.log ++ [.released x.rxStream.remainderHandle]) := by
      rw [acquiredHandles_append, releasedHandles_append, hlog]
      exact List.append_nil _
    refine ⟨fun h0 => absurd hneg (Int.not_lt.mpr h0), fun _ => ⟨hzero, rfl, hreleased⟩, ?_⟩
    exact ha.inTurn.snoc none (hreleased.trans (List.append_nil _).symm)
  · rename_i hzero
    change ¬ x.rxStream.remainderSamps - k = 0 at hzero
    refine Proc.Ends.pure ⟨fun hs => ?_, fun hk => by omega⟩
    obtain ⟨ha, hhandle, hle⟩ := h hs
    obtain ⟨-, hsum, hlog⟩ := ha.held hhandle
    refine ⟨fun _ => ⟨Nat.pos_of_ne_zero hzero, ?_, hlog⟩, fun h0 => ?_, ha.inTurn⟩
    · show x.rxStream.remainderOffset + k + (x.rxStream.remainderSamps - k) = _
      omega
    · exact absurd hhandle (Int.not_le.mpr h0)

/-- A buffer that has just been acquired is all remainder. -/
theorem Accounts.acquire (ha : Accounts x) (hfree : x.rxStream.remainderHandle < 0) {h : Int}
    (h0 : 0 ≤ h) (hlt : h < 2 ^ 31) (buff : Nat) {samps : Nat}
    (hsamps : samps = getStreamMTU .writer) :
    Accounts ((x.addRecord (.acquired h)).modStream .writer fun st =>
      { st with
        remainderBuff := buff, remainderHandle := toInt32 h, remainderSamps := samps }) := by
  obtain ⟨-, hoffset, hall⟩ := ha.free hfree
  have hint : toInt32 h = h := toInt32_eq (by omega) hlt
  have hnew : acquiredHandles (x.log ++ [.acquired h]) =
      releasedHandles (x.log ++ [.acquired h]) ++ [h] := by
    rw [acquiredHandles_append, releasedHandles_append, hall]
    simp [acquiredHandles, releasedHandles]
  refine ⟨fun _ => ⟨?_, ?_, ?_⟩, fun hneg => absurd hneg ?_, ha.inTurn.snoc (some h) hnew⟩
  · show 0 < samps
    rw [hsamps]
    decide
  · show x.rxStream.remainderOffset + samps = _
    rw [hoffset, hsamps, Nat.zero_add]
  · show _ = _ ++ [toInt32 h]
    rw [hint]
    exact hnew
  · show ¬ toInt32 h < 0
    rw [hint]
    exact Int.not_lt.mpr h0

/-- Reading elements is no event of the account. -/
theorem Accounts.read (ha : Accounts x) (handle : Int) (src k : Nat) :
    Accounts (x.addRecord (.read handle src k)) := by
  have hacq : acquiredHandles (x.log ++ [.read handle src k]) = acquiredHandles x.log := by
    rw [acquiredHandles_append]
    exact List.append_nil _
  have hrel : releasedHandles (x.log ++ [.read handle src k]) = releasedHandles x.log := by
    rw [releasedHandles_append]
    exact List.append_nil _
  have hin : InTurn (x.log ++ [.read handle src k]) := by
    obtain ⟨o, ho⟩ := ha.inTurn x.log (List.prefix_refl _)
    exact ha.inTurn.snoc o (by rw [hacq, hrel, ho])
  refine ⟨fun h => ?_, fun h => ?_, hin⟩
  · show _ ∧ _ ∧ acquiredHandles (x.log ++ _) = releasedHandles (x.log ++ _) ++ _
    rw [hacq, hrel]
    exact ha.held h
  · show _ ∧ _ ∧ acquiredHandles (x.log ++ _) = releasedHandles (x.log ++ _)
    rw [hacq, hrel]
    exact ha.free h

/-- The step of the rest of `readStream`, which begins without a remainder. -/
theorem readFresh_accounts (ha : Small x → Accounts x ∧ x.rxStream.remainderHandle < 0)
    (returnedElems sampAvail : Nat) (stores : List Store) (t : Int) :
    Keeps (fun _ x' => Accounted x')
      (readFresh returnedElems sampAvail stores t : Dev n ReadResult) x := by
  have hsame : ∀ x', SameAccount x x' → Accounted x' := fun x' h hs =>
    h.accounts (ha (h.small.mp hs)).1
  refine Proc.Ends.bind ((acquires_acquireReadBuffer x t).mono ?_ fun e x' h _ => hsame x' h)
  rintro a x₁ ⟨h₁, hret⟩
  dsimp only
  split
  · split
    · exact Proc.Ends.pure (hsame x₁ h₁)
    · exact Proc.Ends.pure (hsame x₁ h₁)
  · rename_i hpos
    have hmtu : a.ret.toNat = getStreamMTU .writer := by
      rcases hret with h | h | h
      · exact absurd (h ▸ hpos) (by decide)
      · exact absurd (h ▸ hpos) (by decide)
      · rw [h, Int.toNat_natCast]
    refine Proc.Ends.bind (Proc.Ends.modify (Proc.Ends.bind (Proc.Ends.modify ?_)))
    refine Proc.Ends.bind (Proc.Ends.get (Proc.Ends.bind (Proc.Ends.modify ?_)))
    refine Proc.Ends.bind (keeps_readOut (fun stores' => ?_) _ _ _ _ _)
    refine Proc.Ends.bind ((consume_accounts fun hs => ?_).mono ?_ fun _ _ h => h)
    · have hs₁ : Small x₁ := hs.mono ((List.prefix_append _ _).trans (List.prefix_append _ _))
      obtain ⟨ha₁, hfree⟩ := ha (h₁.small.mp hs₁)
      obtain ⟨h0, hlt⟩ := hs (a.handle.getD 0)
        (List.mem_append_left _ (List.mem_append_right _ (List.mem_singleton.mpr rfl)))
      have hacc := (h₁.accounts ha₁).acquire (h₁.handle ▸ hfree) h0 hlt (a.buff.getD 0).toNat hmtu
      refine ⟨hacc.read _ _ _, ?_, Nat.min_le_right _ _⟩
      show 0 ≤ toInt32 (a.handle.getD 0)
      rw [toInt32_eq (by omega) hlt]
      exact h0
    · rintro - x₂ ⟨h₂, -⟩
      exact Proc.Ends.pure h₂

/-- The step of `readStream`. -/
theorem readStream_accounts (ha : Accounted x) (numElems : Nat) (t : Int) :
    Keeps (fun _ x' => Accounted x') (readStream .rx numElems t : Dev n ReadResult) x := by
  unfold readStream
  rw [if_neg (by simp)]
  refine Proc.Ends.bind (Proc.Ends.get ?_)
  dsimp only
  split
  · rename_i hhandle
    refine Proc.Ends.bind (Proc.Ends.modify (Proc.Ends.bind ?_))
    refine keeps_readOut (fun stores => ?_) _ _ _ _ _
    refine Proc.Ends.bind ((consume_accounts fun hs => ?_).mono ?_ fun _ _ h => h)
    · have hsmall : Small x := hs.mono (List.prefix_append _ _)
      exact ⟨(ha hsmall).read _ _ _, hhandle, Nat.min_le_left _ _⟩
    · rintro - x₁ ⟨h₁, hall⟩
      split
      · exact Proc.Ends.pure h₁
      · refine readFresh_accounts (fun hs => ⟨h₁ hs, hall ?_⟩) _ _ _ _
        show _ = x.rxStream.remainderSamps
        omega
  · rename_i hhandle
    exact readFresh_accounts (fun hs => ⟨ha hs, by omega⟩) _ _ _ _

end

/-! ## Runs -/

/-- A client that calls `readStream` with numbers of elements and timeouts. -/
def readSession (n fd : Nat) :
    Machine (SoapyLiteXXTRX × Driver n) ((Nat × Int) × List (Ev (Irq n) Choice)) :=
  (kernelWorld n fd).session (fun c => (readStream .rx c.1 c.2).void) Halt.caught

/-- From any accounted state on, such as the beginning of the first activation, the accounting holds
as long as the handles are small. -/
theorem accounts_of_small (fd : Nat) (calls : List ((Nat × Int) × List (Ev (Irq n) Choice)))
    (x x' : SoapyLiteXXTRX) (k k' : Driver n) (hx : Accounts x)
    (hr : (readSession n fd).run calls (x, k) = some (x', k')) (hs : Small x') : Accounts x' :=
  World.session_ends (P := Accounted)
    (fun c _ h => (Proc.Ends.void ((readStream_accounts h c.1 c.2).mono
      (fun _ _ h => h) fun _ _ h => h)))
    (fun _ => hx) hr hs

/-- The stream of `newReading` has no remainder. -/
theorem accounts_newReading : Accounts newReading := by
  refine ⟨fun h => absurd h (by decide), fun _ => ⟨rfl, rfl, rfl⟩, fun l hl => ⟨none, ?_⟩⟩
  have hlog : acquiredHandles newReading.log = [] ∧ releasedHandles newReading.log = [] :=
    ⟨rfl, rfl⟩
  obtain ⟨l', hl'⟩ := hl
  rw [← hl', acquiredHandles_append, releasedHandles_append] at hlog
  rw [(List.append_eq_nil_iff.mp hlog.1).1, (List.append_eq_nil_iff.mp hlog.2).1]
  rfl

/-- A call of `readStream` without timeout: the engine has filled `k` buffers, and the driver
answers `ioctls` ioctls before the mapping is read. -/
def readDuring (numElems k ioctls loads : Nat) : (Nat × Int) × List (Ev (Irq 1) Choice) :=
  ((numElems, 0), .env ⟨0, .writer, k⟩ :: (List.replicate ioctls (.thr .ready) ++
    List.replicate loads (.thr (.bytes fun _ => 0))))

/-- The remainder and the record after the calls. -/
def accountAfter (calls : List ((Nat × Int) × List (Ev (Irq 1) Choice))) :
    Option (Int × Nat × List ReadRec) :=
  ((readSession 1 3).run calls (newReading, oneStarted .writer)).map fun z =>
    (z.1.rxStream.remainderHandle, z.1.rxStream.remainderSamps, z.1.log)

theorem accountAfter_run (calls : List ((Nat × Int) × List (Ev (Irq 1) Choice))) (handle : Int)
    (samps : Nat) (log : List ReadRec) (h : accountAfter calls = some (handle, samps, log)) :
    ∃ x' k', (readSession 1 3).run calls (newReading, oneStarted .writer) = some (x', k') ∧
      x'.rxStream.remainderHandle = handle ∧ x'.rxStream.remainderSamps = samps ∧ x'.log = log := by
  obtain ⟨⟨x', k'⟩, hr, he⟩ := Option.map_eq_some_iff.mp h
  cases he
  exact ⟨x', k', hr, rfl, rfl, rfl⟩

/-- The handle `2 ^ 31 - 1`, after an overflow: the buffer is read to its end in two calls. -/
theorem accounts_of_small_last :
    ∃ x' k', (readSession 1 3).run
        [readDuring 1 (2 ^ 31 - 1) 2 0, readDuring 1 1 1 2, readDuring 8191 1 0 3]
        (newReading, oneStarted .writer) = some (x', k') ∧
      releasedHandles x'.log = [2 ^ 31 - 1] ∧ Accounts x' := by
  obtain ⟨x', k', hr, -, -, hlog⟩ := accountAfter_run
    [readDuring 1 (2 ^ 31 - 1) 2 0, readDuring 1 1 1 2, readDuring 8191 1 0 3] (-1) 0
    [.activated .writer 0, .acquired (2 ^ 31 - 1), .read (2 ^ 31 - 1) 16711680 1,
      .read (2 ^ 31 - 1) 16711682 8191, .released (2 ^ 31 - 1)]
    (by decide +kernel)
  refine ⟨x', k', hr, by rw [hlog]; rfl, ?_⟩
  refine accounts_of_small 3 _ newReading x' _ k' accounts_newReading hr ?_
  unfold Small
  rw [hlog]
  intro h hh
  simp only [List.mem_cons, ReadRec.acquired.injEq, reduceCtorEq, false_or, List.not_mem_nil,
    or_false] at hh
  subst hh
  decide

/-- The handle `2 ^ 31`: one element is consumed, but `remainderHandle` is negative. -/
theorem accounts_large :
    ¬ ∀ calls x' k', (readSession 1 3).run calls (newReading, oneStarted .writer) = some (x', k') →
      Accounts x' := by
  intro h
  obtain ⟨x', k', hr, hhandle, hsamps, -⟩ := accountAfter_run
    [readDuring 1 (2 ^ 30) 2 0, readDuring 1 (2 ^ 30) 2 0, readDuring 1 1 1 2] (-2 ^ 31) 8191
    [.activated .writer 0, .acquired (2 ^ 31), .read (-2 ^ 31) 0 1]
    (by decide +kernel)
  have hfree := ((h _ x' k' hr).free (by rw [hhandle]; decide)).1
  rw [hsamps] at hfree
  exact absurd hfree (by decide)

end Soapy
end Xtrx
