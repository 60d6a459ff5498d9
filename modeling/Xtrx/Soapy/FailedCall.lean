import Xtrx.Soapy.ReadAccount
import Xtrx.Soapy.WriteStream

/-!
# Failed calls of `readStream` and `writeStream`

Both functions first take samples from the remainder, if there is one, and then call
`acquireReadBuffer` or `acquireWriteBuffer`. A call fails when it returns a negative code.

- **`readToAcquire`**, **`writeToAcquire`**: the functions up to the return of the acquire call;
  `readAfter` and `writeAfter` are what follows. `AcquireOutcome` is the outcome of the acquire call
  in a run, in any world: the answers to the system calls are arbitrary.
- **`FailsClean`**: a call that fails has left the remainder as it was and has released no buffer,
  and samples that were taken before the acquire call failed are returned as a count.
- **`Drops`**: the acquire call fails behind a remainder, in another way than by a timeout with
  samples to return. `failedCall_clean_iff`: these are the calls that do not fail cleanly.

What `acquireReadBuffer` drains itself when it reports an overflow is its own loss, whatever
`readStream` does: it is part of the outcome.
-/

namespace Xtrx
namespace Soapy

open Conc Kernel User SoapyLiteXXTRX

variable {n : Nat}

/-! ## The property -/

/-- The remainder of a stream is as before. -/
structure SameRemainder (st st' : Stream) : Prop where
  handle : st'.remainderHandle = st.remainderHandle
  samps : st'.remainderSamps = st.remainderSamps
  offset : st'.remainderOffset = st.remainderOffset

theorem SameRemainder.refl (st : Stream) : SameRemainder st st := ⟨rfl, rfl, rfl⟩

/-- The samples that a call for `returnedElems` takes from the remainder. -/
def Stream.taken (st : Stream) (returnedElems : Nat) : Nat :=
  if 0 ≤ st.remainderHandle then min st.remainderSamps returnedElems else 0

/-- A call from `st` to `st'` that returns `ret`, with the outcome `o` of its acquire call (none if
it makes none); `kept` says that it released no buffer. -/
structure FailsClean (st st' : Stream) (kept : Prop) (returnedElems : Nat) (o : Option Acquired)
    (ret : Int) : Prop where
  untouched : ret < 0 → SameRemainder st st' ∧ kept
  reported : ∀ a, o = some a → a.ret < 0 → 0 < st.taken returnedElems →
    ret = st.taken returnedElems

/-- The acquire call fails when the remainder has been taken, and it is no timeout with samples to
return. -/
def Drops (st : Stream) (o : Option Acquired) : Prop :=
  0 ≤ st.remainderHandle ∧
    ∃ a, o = some a ∧ a.ret < 0 ∧ ¬ (a.ret = soapySdrTimeout ∧ 0 < st.remainderSamps)

/-- A call up to the return of its acquire call: its result, if it has returned before, or the
number of elements that it has taken, what it keeps of them, and the outcome. -/
abbrev ToAcquire (ρ κ : Type) := ρ ⊕ (Nat × κ × Acquired)

namespace ToAcquire

variable {ρ κ : Type}

def outcome : ToAcquire ρ κ → Option Acquired
  | .inl _ => none
  | .inr c => some c.2.2

/-- Where a call from `st` to `st'` stands after its acquire call: it has taken `sampAvail` elements.
-/
structure Reached (st st' : Stream) (kept : Prop) (returnedElems sampAvail : Nat) : Prop where
  free : st.remainderHandle < 0 → sampAvail = 0 ∧ SameRemainder st st' ∧ kept
  drained : 0 ≤ st.remainderHandle → st.remainderSamps < returnedElems ∧
    sampAvail = st.remainderSamps ∧ st'.remainderHandle < 0

end ToAcquire

/-- What a call returns when its acquire call failed with `ret`. -/
def failedRet (sampAvail : Nat) (ret : Int) : Int :=
  if ret = soapySdrTimeout ∧ sampAvail > 0 then sampAvail else ret

section

variable {st st' : Stream} {kept : Prop} {returnedElems : Nat} {ret : Int}

/-- A call that makes no acquire call fails only before it does anything. -/
theorem failsClean_iff_of_none (h : ret < 0 → SameRemainder st st' ∧ kept) :
    FailsClean st st' kept returnedElems none ret ↔ ¬ Drops st none := by
  constructor
  · rintro - ⟨-, a, ha, -⟩
    cases ha
  · intro _
    exact ⟨h, fun a ha => by cases ha⟩

/-- A call whose acquire call succeeded does not fail. -/
theorem failsClean_iff_of_acquired {a : Acquired} (ha : ¬ a.ret < 0) (h : 0 ≤ ret) :
    FailsClean st st' kept returnedElems (some a) ret ↔ ¬ Drops st (some a) := by
  constructor
  · rintro - ⟨-, b, hb, hneg, -⟩
    cases hb
    exact ha hneg
  · intro _
    refine ⟨fun hneg => absurd hneg (Int.not_lt.mpr h), fun b hb hneg => ?_⟩
    cases hb
    exact absurd hneg ha

/-- The return of a call whose acquire call failed. -/
theorem failsClean_iff_of_failed {sampAvail : Nat} {a : Acquired}
    (hc : ToAcquire.Reached st st' kept returnedElems sampAvail) (hneg : a.ret < 0) :
    FailsClean st st' kept returnedElems (some a) (failedRet sampAvail a.ret) ↔
      ¬ Drops st (some a) := by
  rcases Int.lt_or_le st.remainderHandle 0 with hfree | hheld
  · -- without a remainder nothing was taken
    obtain ⟨rfl, hsame, hkept⟩ := hc.free hfree
    have hnone : st.taken returnedElems = 0 := if_neg (by omega)
    constructor
    · rintro - ⟨hheld, -⟩
      omega
    · intro _
      refine ⟨fun _ => ⟨hsame, hkept⟩, fun b _ _ hpos => ?_⟩
      rw [hnone] at hpos
      exact absurd hpos (by decide)
  · obtain ⟨hlt, rfl, hdrained⟩ := hc.drained hheld
    have htaken : st.taken returnedElems = st.remainderSamps := by
      unfold Stream.taken
      rw [if_pos hheld]
      omega
    by_cases htimeout : a.ret = soapySdrTimeout ∧ 0 < st.remainderSamps
    · have hret : failedRet st.remainderSamps a.ret = st.remainderSamps := if_pos htimeout
      rw [hret]
      constructor
      · rintro - ⟨-, b, hb, -, hother⟩
        cases hb
        exact hother htimeout
      · intro _
        exact ⟨fun h => by omega, fun b _ _ _ => by rw [htaken]⟩
    · have hret : failedRet st.remainderSamps a.ret = a.ret := if_neg htimeout
      rw [hret]
      constructor
      · intro h
        have hsame := (h.untouched hneg).1.handle
        omega
      · intro h
        exact absurd ⟨hheld, a, rfl, hneg, htimeout⟩ h

end

/-! ## `readStream` -/

/-- `readStream` up to the return of `acquireReadBuffer`. -/
def readToAcquire (stream : StreamPtr) (numElems : Nat) (timeoutUs : Int) :
    Dev n (ToAcquire ReadResult (List Store)) := do
  if stream ≠ .rx then
    return .inl { ret := soapySdrNotSupported, flags := 0, stores := [] }
  else
    let returnedElems := min numElems (getStreamMTU .writer)
    let st := (← Proc.get).rxStream
    if st.remainderHandle ≥ 0 then
      let n := min st.remainderSamps returnedElems
      let sampAvail := if n < returnedElems then n else 0
      let src := st.remainderBuff + st.remainderOffset * bytesPerSample
      record (.read st.remainderHandle src n)
      let stores ← readOut src (n / 2) 0 st.format st.channels.zipIdx
      consume n
      if n = returnedElems then
        return .inl { ret := returnedElems, flags := 0, stores := stores }
      else
        let a ← acquireReadBuffer .rx timeoutUs
        return .inr (sampAvail, stores, a)
    else
      let a ← acquireReadBuffer .rx timeoutUs
      return .inr (0, [], a)

/-- `readStream` after that. -/
def readAfter (returnedElems : Nat) : ToAcquire ReadResult (List Store) → Dev n ReadResult
  | .inl r => return r
  | .inr (sampAvail, stores, a) => do
    if a.ret < 0 then
      return { ret := failedRet sampAvail a.ret, flags := a.flags, stores := stores }
    else
      let handle := a.handle.getD 0
      record (.acquired handle)
      Proc.modify (modStream .writer fun st =>
        { st with remainderBuff := (a.buff.getD 0).toNat, remainderHandle := toInt32 handle
                  remainderSamps := a.ret.toNat })
      let st := (← Proc.get).rxStream
      let n := min (returnedElems - sampAvail) st.remainderSamps
      record (.read st.remainderHandle st.remainderBuff n)
      let stores' ← readOut st.remainderBuff n sampAvail st.format st.channels.zipIdx
      consume n
      return { ret := returnedElems, flags := a.flags, stores := stores ++ stores' }

theorem readFresh_eq (returnedElems sampAvail : Nat) (stores : List Store) (t : Int) :
    (readFresh returnedElems sampAvail stores t : Dev n ReadResult) =
      acquireReadBuffer .rx t >>= fun a =>
        readAfter returnedElems (.inr (sampAvail, stores, a)) := by
  unfold readFresh
  congr 1
  funext a
  simp only [readAfter, failedRet]
  split
  · split <;> rfl
  · rfl

theorem readStream_eq (stream : StreamPtr) (numElems : Nat) (t : Int) :
    (readStream stream numElems t : Dev n ReadResult) =
      readToAcquire stream numElems t >>= readAfter (min numElems (getStreamMTU .writer)) := by
  unfold readStream readToAcquire
  split
  · rfl
  · simp only [bind_assoc]
    congr 1
    funext x
    split
    · simp only [bind_assoc]
      congr 1
      funext _
      congr 1
      funext stores
      congr 1
      funext _
      split
      · rfl
      · rw [bind_assoc]
        exact readFresh_eq _ _ _ _
    · rw [bind_assoc]
      exact readFresh_eq _ _ _ _

/-- The remainder and the released buffers of the record. -/
abbrev ReadKeeps (x x' : SoapyLiteXXTRX) : Prop := releasedHandles x'.log = releasedHandles x.log

theorem SameAccount.sameRemainder {x x' : SoapyLiteXXTRX} (h : SameAccount x x') :
    SameRemainder x.rxStream x'.rxStream := ⟨h.handle, h.samps, h.offset⟩

section

variable {x : SoapyLiteXXTRX}

theorem returns_acquire_same (t : Int) : Proc.Returns (fun _ x' => SameAccount x x')
    (acquireReadBuffer .rx t : Dev n Acquired) x :=
  (acquires_acquireReadBuffer x t).returns.mono fun _ _ h => h.1

/-- Reading out leaves the device object as it is. -/
theorem returns_readOut_same {R : List Store → SoapyLiteXXTRX → Prop} (h : ∀ stores, R stores x)
    (src len base : Nat) (format : String) (cs : List (Nat × Nat)) :
    Proc.Returns R (readOut src len base format cs : Dev n (List Store)) x :=
  (keeps_readOut h src len base format cs).returns

/-- The buffer is released with its last sample. -/
theorem returns_consume_all {k : Nat} (hk : x.rxStream.remainderSamps ≤ k) :
    Proc.Returns (fun _ x' => x'.rxStream.remainderHandle < 0) (consume k : Dev n Unit) x := by
  refine Proc.Returns.bind (Proc.Returns.modify (Proc.Returns.bind (Proc.Returns.get ?_)))
  dsimp only
  have hzero : (x.modStream .writer fun st =>
      { st with remainderSamps := st.remainderSamps - k
                remainderOffset := st.remainderOffset + k }).rxStream.remainderSamps = 0 :=
    Nat.sub_eq_zero_of_le hk
  rw [if_pos hzero]
  refine Proc.Returns.bind (Proc.Returns.modify (Proc.Returns.bind ?_))
  refine Proc.Returns.bind (returns_assert (Proc.Returns.bind (returns_checkedIoctl fun r => ?_)))
  refine Proc.Returns.pure (Proc.Returns.modify ?_)
  show (-1 : Int) < 0
  decide

/-- Where `readStream` stands after `acquireReadBuffer`. -/
theorem returns_readToAcquire (stream : StreamPtr) (numElems : Nat) (t : Int) :
    Proc.Returns (fun c x' => match c with
      | .inl r => r.ret < 0 → SameRemainder x.rxStream x'.rxStream ∧ ReadKeeps x x'
      | .inr c => ToAcquire.Reached x.rxStream x'.rxStream (ReadKeeps x x')
          (min numElems (getStreamMTU .writer)) c.1)
      (readToAcquire stream numElems t : Dev n _) x := by
  unfold readToAcquire
  split
  · exact Proc.Returns.pure fun _ => ⟨SameRemainder.refl _, rfl⟩
  · refine Proc.Returns.bind (Proc.Returns.get ?_)
    dsimp only
    split
    · rename_i hheld
      refine Proc.Returns.bind (Proc.Returns.modify (Proc.Returns.bind ?_))
      refine returns_readOut_same (fun stores => ?_) _ _ _ _ _
      split
      · refine Proc.Returns.bind (Proc.Returns.of_forall (fun _ x' => ?_) _ _)
        refine Proc.Returns.pure fun hneg => ?_
        dsimp only at hneg
        omega
      · rename_i hmore
        refine Proc.Returns.bind ((returns_consume_all ?_).mono fun _ x₁ h₁ => ?_)
        · show x.rxStream.remainderSamps ≤ _
          omega
        · refine Proc.Returns.bind ((returns_acquire_same t).mono fun a x₂ h₂ => ?_)
          refine Proc.Returns.pure ⟨fun hfree => by omega, fun _ => ⟨by omega, ?_, ?_⟩⟩
          · split <;> omega
          · rw [h₂.handle]
            exact h₁
    · refine Proc.Returns.bind ((returns_acquire_same t).mono fun a x₂ h₂ => ?_)
      refine Proc.Returns.pure ⟨fun _ => ⟨rfl, h₂.sameRemainder, ?_⟩, fun hheld => by omega⟩
      unfold ReadKeeps
      rw [h₂.log]

/-- `readStream` after `acquireReadBuffer`. -/
theorem returns_readAfter {x₁ : SoapyLiteXXTRX} {returnedElems : Nat}
    (c : ToAcquire ReadResult (List Store))
    (hc : match c with
      | .inl r => r.ret < 0 → SameRemainder x.rxStream x₁.rxStream ∧ ReadKeeps x x₁
      | .inr c => ToAcquire.Reached x.rxStream x₁.rxStream (ReadKeeps x x₁) returnedElems c.1) :
    Proc.Returns (fun r x' => FailsClean x.rxStream x'.rxStream (ReadKeeps x x') returnedElems
        c.outcome r.ret ↔ ¬ Drops x.rxStream c.outcome)
      (readAfter returnedElems c : Dev n ReadResult) x₁ := by
  cases c with
  | inl r => exact Proc.Returns.pure (failsClean_iff_of_none hc)
  | inr c =>
    obtain ⟨sampAvail, stores, a⟩ := c
    simp only [readAfter]
    split
    · rename_i hneg
      exact Proc.Returns.pure (failsClean_iff_of_failed hc hneg)
    · rename_i hpos
      refine Proc.Returns.bind (Proc.Returns.of_forall (fun _ _ => ?_) _ _)
      refine Proc.Returns.bind (Proc.Returns.of_forall (fun _ _ => ?_) _ _)
      refine Proc.Returns.bind (Proc.Returns.of_forall (fun _ _ => ?_) _ _)
      refine Proc.Returns.bind (Proc.Returns.of_forall (fun _ _ => ?_) _ _)
      refine Proc.Returns.bind (Proc.Returns.of_forall (fun _ _ => ?_) _ _)
      refine Proc.Returns.bind (Proc.Returns.of_forall (fun _ _ => ?_) _ _)
      exact Proc.Returns.pure (failsClean_iff_of_acquired hpos (Int.natCast_nonneg _))

end

/-! ## `writeStream` -/

/-- `writeStream` up to the return of `acquireWriteBuffer`. -/
def writeToAcquire (stream : StreamPtr) (buffs : Nat → Nat → BitVec 16) (numElems : Nat)
    (timeoutUs : Int) : Dev n (ToAcquire WriteResult (List WriteEv)) := do
  if stream ≠ .tx then
    return .inl { ret := soapySdrNotSupported, log := [] }
  else
    let returnedElems := min numElems (getStreamMTU .reader)
    let st := (← Proc.get).txStream
    if st.remainderHandle ≥ 0 then
      let n := min st.remainderSamps returnedElems
      let sampAvail := if n < returnedElems then n else 0
      let dst := st.remainderBuff + st.remainderOffset * bytesPerSample
      let written := writeOut buffs dst (n / 2) 0 st.format st.channels.zipIdx
      let released ← produce n
      if n = returnedElems then
        return .inl { ret := returnedElems, log := written ++ released }
      else
        let a ← acquireWriteBuffer .tx timeoutUs
        return .inr (sampAvail, written ++ released, a)
    else
      let a ← acquireWriteBuffer .tx timeoutUs
      return .inr (0, [], a)

/-- `writeStream` after that. -/
def writeAfter (buffs : Nat → Nat → BitVec 16) (returnedElems : Nat) :
    ToAcquire WriteResult (List WriteEv) → Dev n WriteResult
  | .inl r => return r
  | .inr (sampAvail, log, a) => do
    Proc.modify (modStream .reader fun st =>
      { st with remainderBuff := (a.buff.getD st.remainderBuff).toNat })
    if a.ret < 0 then
      return { ret := failedRet sampAvail a.ret, log := log }
    else
      let handle := a.handle.getD 0
      Proc.modify (modStream .reader fun st =>
        { st with remainderHandle := toInt32 handle, remainderSamps := a.ret.toNat })
      let st := (← Proc.get).txStream
      let n := min (returnedElems - sampAvail) st.remainderSamps
      let written := writeOut buffs st.remainderBuff n sampAvail st.format st.channels.zipIdx
      let released ← produce n
      return { ret := returnedElems, log := log ++ .acquired handle :: written ++ released }

theorem writeFresh_eq (buffs : Nat → Nat → BitVec 16) (returnedElems sampAvail : Nat)
    (log : List WriteEv) (t : Int) :
    (writeFresh buffs returnedElems sampAvail log t : Dev n WriteResult) =
      acquireWriteBuffer .tx t >>= fun a =>
        writeAfter buffs returnedElems (.inr (sampAvail, log, a)) := by
  unfold writeFresh
  congr 1
  funext a
  simp only [writeAfter, failedRet]
  congr 1
  funext _
  split
  · split <;> rfl
  · rfl

theorem writeStream_eq (stream : StreamPtr) (buffs : Nat → Nat → BitVec 16) (numElems : Nat)
    (t : Int) :
    (writeStream stream buffs numElems t : Dev n WriteResult) =
      writeToAcquire stream buffs numElems t >>=
        writeAfter buffs (min numElems (getStreamMTU .reader)) := by
  unfold writeStream writeToAcquire
  split
  · rfl
  · simp only [bind_assoc]
    congr 1
    funext x
    split
    · simp only [bind_assoc]
      congr 1
      funext released
      split
      · rfl
      · rw [bind_assoc]
        exact writeFresh_eq _ _ _ _ _
    · rw [bind_assoc]
      exact writeFresh_eq _ _ _ _ _

section

variable {x : SoapyLiteXXTRX}

theorem returns_finishWrite_same (pending : Int) :
    Proc.Returns (fun _ x' => SameRemainder x.txStream x'.txStream)
      (finishWrite pending : Dev n Acquired) x := by
  refine Proc.Returns.bind (Proc.Returns.get ?_)
  exact Proc.Returns.bind (Proc.Returns.modify (Proc.Returns.pure ⟨rfl, rfl, rfl⟩))

theorem returns_waitWrite_same (t : Int) :
    Proc.Returns (fun _ x' => SameRemainder x.txStream x'.txStream)
      (waitWrite t : Dev n Acquired) x := by
  refine Proc.Returns.bind (Proc.Returns.get ?_)
  dsimp only
  split
  · split
    · exact Proc.Returns.pure (SameRemainder.refl _)
    · refine Proc.Returns.bind (Proc.Returns.sys fun ret => ?_)
      change Int at ret
      split
      · exact Proc.Returns.halt _
      · split
        · exact Proc.Returns.pure (SameRemainder.refl _)
        · refine Proc.Returns.bind (returns_dmaCounts fun hw sw => ?_)
          refine Proc.Returns.bind (Proc.Returns.get ?_)
          refine Proc.Returns.bind (returns_assert ?_)
          exact (returns_finishWrite_same _).mono fun a x' h => ⟨h.handle, h.samps, h.offset⟩
  · exact returns_finishWrite_same _

/-- `acquireWriteBuffer` leaves the remainder alone. -/
theorem returns_acquireWrite_same (t : Int) :
    Proc.Returns (fun _ x' => SameRemainder x.txStream x'.txStream)
      (acquireWriteBuffer .tx t : Dev n Acquired) x := by
  unfold Proc.Returns
  rw [acquireWriteBuffer_tx_apply]
  split
  · show Proc.Returns (fun _ x' => SameRemainder x.txStream x'.txStream)
      (dmaCounts .reader 1 >>= fun _ => waitWrite t) x
    refine Proc.Returns.bind (returns_dmaCounts fun hw sw => ?_)
    exact (returns_waitWrite_same t).mono fun a x' h => ⟨h.handle, h.samps, h.offset⟩
  · intro a ha
    cases ha

/-- The buffer is released with its last sample. -/
theorem returns_produce_all {k : Nat} (hk : x.txStream.remainderSamps ≤ k) :
    Proc.Returns (fun _ x' => x'.txStream.remainderHandle < 0)
      (produce k : Dev n (List WriteEv)) x := by
  refine Proc.Returns.bind (Proc.Returns.modify (Proc.Returns.bind (Proc.Returns.get ?_)))
  dsimp only
  have hzero : (x.modStream .reader fun st =>
      { st with remainderSamps := st.remainderSamps - k
                remainderOffset := st.remainderOffset + k }).txStream.remainderSamps = 0 :=
    Nat.sub_eq_zero_of_le hk
  rw [if_pos hzero]
  refine Proc.Returns.bind (Proc.Returns.bind (returns_checkedIoctl fun r => ?_))
  refine Proc.Returns.pure (Proc.Returns.bind (Proc.Returns.modify (Proc.Returns.pure ?_)))
  show (-1 : Int) < 0
  decide

/-- No buffer is released. -/
abbrev WriteKeeps (log : List WriteEv) : Prop := ∀ handle, .released handle ∉ log

/-- Where `writeStream` stands after `acquireWriteBuffer`. -/
theorem returns_writeToAcquire (stream : StreamPtr) (buffs : Nat → Nat → BitVec 16)
    (numElems : Nat) (t : Int) :
    Proc.Returns (fun c x' => match c with
      | .inl r => r.ret < 0 → SameRemainder x.txStream x'.txStream ∧ WriteKeeps r.log
      | .inr c => ToAcquire.Reached x.txStream x'.txStream (WriteKeeps c.2.1)
          (min numElems (getStreamMTU .reader)) c.1)
      (writeToAcquire stream buffs numElems t : Dev n _) x := by
  have hnone : WriteKeeps [] := fun handle hmem => by cases hmem
  unfold writeToAcquire
  split
  · exact Proc.Returns.pure fun _ => ⟨SameRemainder.refl _, hnone⟩
  · refine Proc.Returns.bind (Proc.Returns.get ?_)
    dsimp only
    split
    · rename_i hheld
      split
      · refine Proc.Returns.bind (Proc.Returns.of_forall (fun _ x' => ?_) _ _)
        refine Proc.Returns.pure fun hneg => ?_
        dsimp only at hneg
        omega
      · rename_i hmore
        refine Proc.Returns.bind ((returns_produce_all (by omega)).mono fun released x₁ h₁ => ?_)
        refine Proc.Returns.bind ((returns_acquireWrite_same t).mono fun a x₂ h₂ => ?_)
        refine Proc.Returns.pure ⟨fun hfree => by omega, fun _ => ⟨by omega, ?_, ?_⟩⟩
        · split <;> omega
        · rw [h₂.handle]
          exact h₁
    · refine Proc.Returns.bind ((returns_acquireWrite_same t).mono fun a x₂ h₂ => ?_)
      exact Proc.Returns.pure ⟨fun _ => ⟨rfl, h₂, hnone⟩, fun hheld => by omega⟩

/-- `writeStream` after `acquireWriteBuffer`. -/
theorem returns_writeAfter {x₁ : SoapyLiteXXTRX} {returnedElems : Nat}
    (buffs : Nat → Nat → BitVec 16) (c : ToAcquire WriteResult (List WriteEv))
    (hc : match c with
      | .inl r => r.ret < 0 → SameRemainder x.txStream x₁.txStream ∧ WriteKeeps r.log
      | .inr c => ToAcquire.Reached x.txStream x₁.txStream (WriteKeeps c.2.1) returnedElems c.1) :
    Proc.Returns (fun r x' => FailsClean x.txStream x'.txStream (WriteKeeps r.log) returnedElems
        c.outcome r.ret ↔ ¬ Drops x.txStream c.outcome)
      (writeAfter buffs returnedElems c : Dev n WriteResult) x₁ := by
  cases c with
  | inl r => exact Proc.Returns.pure (failsClean_iff_of_none hc)
  | inr c =>
    obtain ⟨sampAvail, log, a⟩ := c
    unfold writeAfter
    refine Proc.Returns.bind (Proc.Returns.modify ?_)
    split
    · rename_i hneg
      refine Proc.Returns.pure (failsClean_iff_of_failed ⟨fun h => ?_, hc.drained⟩ hneg)
      obtain ⟨h0, hsame, hkept⟩ := hc.free h
      exact ⟨h0, ⟨hsame.handle, hsame.samps, hsame.offset⟩, hkept⟩
    · rename_i hpos
      refine Proc.Returns.bind (Proc.Returns.of_forall (fun _ _ => ?_) _ _)
      refine Proc.Returns.bind (Proc.Returns.of_forall (fun _ _ => ?_) _ _)
      refine Proc.Returns.bind (Proc.Returns.of_forall (fun _ _ => ?_) _ _)
      exact Proc.Returns.pure (failsClean_iff_of_acquired hpos (Int.natCast_nonneg _))

end

/-! ## Runs -/

section

variable {σ ε ω : Type}

/-- `o` is the outcome of the acquire call in a run of a call, of which `toAcquire` is the part up
to that: the events of the run begin with a run of this part. -/
def AcquireOutcome {ρ κ : Type} (W : World (Sysc n) Sysc.Ans σ ε ω)
    (toAcquire : Dev n (ToAcquire ρ κ)) (x : SoapyLiteXXTRX) (es : List (Ev ε ω)) (s : σ)
    (o : Option Acquired) : Prop :=
  ∃ es₁ es₂ c x₁ s₁, es = es₁ ++ es₂ ∧
    W.exec (toAcquire x) es₁ s = some ((.ok c, x₁), s₁) ∧ o = c.outcome

/-- In any state of the device object, for any arguments, whatever the system calls answer: a call
fails cleanly if and only if its acquire call does not fail behind a remainder. -/
theorem failedCall_clean_iff (W : World (Sysc n) Sysc.Ans σ ε ω) (stream : StreamPtr)
    (numElems : Nat) (timeoutUs : Int) (x x' : SoapyLiteXXTRX) (es : List (Ev ε ω)) (s s' : σ) :
    (∀ r, W.exec (readStream stream numElems timeoutUs x) es s = some ((.ok r, x'), s') →
      ∃ o, AcquireOutcome W (readToAcquire stream numElems timeoutUs) x es s o ∧
        (FailsClean x.rxStream x'.rxStream (releasedHandles x'.log = releasedHandles x.log)
          (min numElems (getStreamMTU .writer)) o r.ret ↔ ¬ Drops x.rxStream o)) ∧
    ∀ buffs r,
      W.exec (writeStream stream buffs numElems timeoutUs x) es s = some ((.ok r, x'), s') →
      ∃ o, AcquireOutcome W (writeToAcquire stream buffs numElems timeoutUs) x es s o ∧
        (FailsClean x.txStream x'.txStream (∀ handle, .released handle ∉ r.log)
          (min numElems (getStreamMTU .reader)) o r.ret ↔ ¬ Drops x.txStream o) := by
  constructor
  · intro r hr
    rw [readStream_eq] at hr
    obtain ⟨es₁, es₂, c, x₁, s₁, rfl, h₁, h₂⟩ := World.exec_proc_bind hr
    refine ⟨c.outcome, ⟨es₁, es₂, c, x₁, s₁, rfl, h₁, rfl⟩, ?_⟩
    have hc := World.exec_returns (returns_readToAcquire stream numElems timeoutUs) h₁ c rfl
    exact World.exec_returns (returns_readAfter c hc) h₂ r rfl
  · intro buffs r hr
    rw [writeStream_eq] at hr
    obtain ⟨es₁, es₂, c, x₁, s₁, rfl, h₁, h₂⟩ := World.exec_proc_bind hr
    refine ⟨c.outcome, ⟨es₁, es₂, c, x₁, s₁, rfl, h₁, rfl⟩, ?_⟩
    have hc := World.exec_returns (returns_writeToAcquire stream buffs numElems timeoutUs) h₁ c rfl
    exact World.exec_returns (returns_writeAfter buffs c hc) h₂ r rfl

end

/-! ## A call behind a remainder -/

/-- The events of a call that reads out the remainder for two channels and releases its buffer, when
the engine has filled `k` more buffers and the driver answers `ioctls` ioctls. -/
def drainDuring (k ioctls : Nat) : List (Ev (Irq 1) Choice) :=
  .env ⟨0, .writer, k⟩ :: (List.replicate 2 (.thr (.bytes fun _ => 0)) ++
    List.replicate ioctls (.thr .ready))

/-- A call for one sample, and one for 8192 with the events of `drainDuring`: the remainder and the
released buffers between them and at the end, and the return value of the second one. -/
def drained (k ioctls : Nat) : Option ((Int × List Int) × (Int × List Int) × Int) :=
  ((readSession 1 3).run [readDuring 1 1 1 2] (newReading, oneStarted .writer)).bind fun z =>
    match (kernelWorld 1 3).exec (readStream .rx 8192 0 z.1) (drainDuring k ioctls) z.2 with
    | some ((.ok r, x'), _) =>
      some ((z.1.rxStream.remainderHandle, releasedHandles z.1.log),
        (x'.rxStream.remainderHandle, releasedHandles x'.log), r.ret)
    | _ => none

theorem drained_run (k ioctls : Nat) (a b : Int × List Int) (ret : Int)
    (h : drained k ioctls = some (a, b, ret)) :
    ∃ x s r x' s', (readSession 1 3).run [readDuring 1 1 1 2] (newReading, oneStarted .writer) =
        some (x, s) ∧
      (kernelWorld 1 3).exec (readStream .rx 8192 0 x) (drainDuring k ioctls) s =
        some ((.ok r, x'), s') ∧
      (x.rxStream.remainderHandle, releasedHandles x.log) = a ∧
      (x'.rxStream.remainderHandle, releasedHandles x'.log) = b ∧ r.ret = ret := by
  obtain ⟨⟨x, s⟩, hrun, hcall⟩ := Option.bind_eq_some_iff.mp h
  dsimp only at hcall
  split at hcall
  · rename_i r x' s' hex
    cases hcall
    exact ⟨x, s, r, x', s', hrun, hex, rfl, rfl, rfl⟩
  · cases hcall

/-- The ring is empty behind the remainder: its samples are returned. -/
theorem failedCall_clean_iff_timeout :
    ∃ x s r x' s', (kernelWorld 1 3).exec (readStream .rx 8192 0 x) (drainDuring 0 2) s =
        some ((.ok r, x'), s') ∧ r.ret = 8191 ∧
      ∃ o, AcquireOutcome (kernelWorld 1 3) (readToAcquire .rx 8192 0) x (drainDuring 0 2) s o ∧
        (FailsClean x.rxStream x'.rxStream (releasedHandles x'.log = releasedHandles x.log)
          (min 8192 (getStreamMTU .writer)) o r.ret ↔ ¬ Drops x.rxStream o) := by
  obtain ⟨x, s, r, x', s', -, hex, -, -, hret⟩ := drained_run 0 2 (0, []) (-1, [0]) 8191
    (by decide +kernel)
  exact ⟨x, s, r, x', s', hex, hret,
    (failedCall_clean_iff (kernelWorld 1 3) .rx 8192 0 x x' _ s s').1 r hex⟩

/-- The ring overflows behind the remainder: `readStream` returns `SOAPY_SDR_OVERFLOW`, and the 8191
samples of the remainder, which it has taken and released, are not returned. -/
theorem failedCall_drops :
    ∃ x s r x' s', (readSession 1 3).run [readDuring 1 1 1 2] (newReading, oneStarted .writer) =
        some (x, s) ∧
      (kernelWorld 1 3).exec (readStream .rx 8192 0 x) (drainDuring 200 3) s =
        some ((.ok r, x'), s') ∧
      r.ret = soapySdrOverflow ∧
      ¬ (r.ret < 0 → SameRemainder x.rxStream x'.rxStream ∧
        releasedHandles x'.log = releasedHandles x.log) := by
  obtain ⟨x, s, r, x', s', hrun, hex, ha, hb, hret⟩ := drained_run 200 3 (0, []) (-1, [0])
    soapySdrOverflow (by decide +kernel)
  refine ⟨x, s, r, x', s', hrun, hex, hret, fun h => ?_⟩
  have hsame := (h (by rw [hret]; decide)).1.handle
  rw [(Prod.mk.inj ha).1, (Prod.mk.inj hb).1] at hsame
  exact absurd hsame (by decide)

end Soapy
end Xtrx
