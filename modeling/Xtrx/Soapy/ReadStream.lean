import Xtrx.Soapy.Flight

/-!
# What `readStream` delivers

A client calls `readStream` on an RX stream of the format CS16 with the channels 0 and 1, any number
of times with any numbers of elements. Element `e` of `buffs[c]` is the two 16-bit values at `2 * e`
and `2 * e + 1`.

- **`Delivers`**: each call that returns elements has written them and nothing else, and what the
  calls returned together is the channel's samples of the acquired buffers in order. Which values of
  a buffer are the samples of a channel is a parameter.
- **`readStream_returns`**: what one call does, whatever the driver answers. The loop of
  `deinterleave` adds the channel number to the index of its destination twice, so it never writes
  the first two elements of `buffs[1]`.
- **`readStream_delivers_iff`**: the calls deliver exactly if none asks for an element.
  `readStream_skips` is a run with one call.
-/

namespace Xtrx
namespace Soapy

open Conc Kernel User SoapyLiteXXTRX

variable {n : Nat}

/-! ## Delivery -/

/-- A call that returns elements has written these of each channel, and no others. -/
def WritesReturned (r : ReadResult) : Prop :=
  0 < r.ret → ∀ c < 2, ∀ j : Nat,
    (∃ s ∈ r.stores, s.buff = c ∧ s.index = j) ↔ (j : Int) < 2 * r.ret

/-- What channel `c` received by a call: the values at the returned elements. -/
def received (c : Nat) (r : ReadResult) : List (Option (BitVec 16)) :=
  (List.range (2 * r.ret.toNat)).map fun j =>
    (r.stores.reverse.find? fun s => s.buff = c ∧ s.index = j).map Store.value

/-- The calls deliver the samples; `samp c k` are those of channel `c` in the `k`-th acquired
buffer. -/
def Delivers (samp : Nat → Nat → List (BitVec 16)) (rs : List ReadResult) : Prop :=
  (∀ r ∈ rs, WritesReturned r) ∧
    ∀ c < 2, ∃ m, rs.flatMap (received c) <+: ((List.range m).flatMap (samp c)).map some

/-- A client that calls `readStream` with numbers of elements and timeouts. -/
def readAll : List (Nat × Int) → Dev n (List ReadResult)
  | [] => return []
  | (numElems, timeoutUs) :: calls => do
    let r ← readStream .rx numElems timeoutUs
    let rs ← readAll calls
    return r :: rs

/-- The stream is set up for CS16 and the channels 0 and 1. -/
def Cs16 (x : SoapyLiteXXTRX) : Prop :=
  x.rxStream.format = soapySdrCs16 ∧ x.rxStream.channels = [0, 1]

/-! ## One call -/

theorem mem_deinterleaveIndices {len offset i : Nat} (h : i ∈ deinterleaveIndices len offset) :
    offset ≤ i ∧ i < len := by
  unfold deinterleaveIndices at h
  obtain ⟨j, hj, rfl⟩ := List.mem_range'.mp h
  omega

/-- The offset counts twice: once in the destination, once in the index. -/
theorem mem_deinterleave {src : Nat → BitVec 8} {buff len offset : Nat} {format : String}
    {s : Store} (h : s ∈ deinterleave src buff len format offset) :
    s.buff = buff ∧ 4 * offset ≤ s.index ∧ offset < len := by
  unfold deinterleave at h
  split at h
  · obtain ⟨i, hi, hs⟩ := List.mem_flatMap.mp h
    obtain ⟨hle, hlt⟩ := mem_deinterleaveIndices hi
    unfold bytesPerSample at hs
    rcases List.mem_cons.mp hs with rfl | hs
    · exact ⟨rfl, by dsimp only; omega, by omega⟩
    · cases List.mem_singleton.mp hs
      exact ⟨rfl, by dsimp only; omega, by omega⟩
  · cases h

section

variable {x : SoapyLiteXXTRX}

theorem returns_checkedIoctl {c : Driver.Ioctl n} {R : Option c.Resp → SoapyLiteXXTRX → Prop}
    (h : ∀ r, R r x) : Proc.Returns R (checkedIoctl c) x := by
  refine Proc.Returns.bind (Proc.Returns.sys fun r => ?_)
  obtain ⟨status, resp⟩ := r
  dsimp only
  split
  · exact Proc.Returns.halt _
  · exact Proc.Returns.pure (h resp)

theorem returns_assert {p : Prop} [Decidable p] {R : Unit → SoapyLiteXXTRX → Prop} (h : R () x) :
    Proc.Returns R (assert p : Dev n Unit) x := by
  unfold assert
  split
  · exact Proc.Returns.pure h
  · exact Proc.Returns.halt _

theorem Cs16.modStream (hx : Cs16 x) {f : Stream → Stream}
    (hf : ∀ st, (f st).format = st.format ∧ (f st).channels = st.channels) (d : Dir) :
    Cs16 (x.modStream d f) := by
  cases d with
  | writer => exact ⟨(hf _).1.trans hx.1, (hf _).2.trans hx.2⟩
  | reader => exact hx

theorem Cs16.addRecord (hx : Cs16 x) (r : ReadRec) : Cs16 (x.addRecord r) := hx

theorem returns_dmaCounts {R : Unit → SoapyLiteXXTRX → Prop} {d : Dir} {enable : UInt8}
    (h : ∀ hwCount swCount,
      R () (x.modStream d fun st => { st with hwCount := hwCount, swCount := swCount })) :
    Proc.Returns R (dmaCounts d enable : Dev n Unit) x := by
  cases d with
  | writer =>
    refine Proc.Returns.bind (Proc.Returns.bind (returns_checkedIoctl fun r => ?_))
    exact Proc.Returns.pure (Proc.Returns.modify (h _ _))
  | reader =>
    refine Proc.Returns.bind (Proc.Returns.bind (returns_checkedIoctl fun r => ?_))
    exact Proc.Returns.pure (Proc.Returns.modify (h _ _))

theorem Cs16.counts (hx : Cs16 x) (hwCount swCount : Int) :
    Cs16 (x.modStream .writer fun st => { st with hwCount := hwCount, swCount := swCount }) :=
  hx.modStream (fun _ => ⟨rfl, rfl⟩) .writer

/-- The return values of `acquireReadBuffer`. -/
def AcquireRet (a : Acquired) : Prop :=
  a.ret = soapySdrTimeout ∨ a.ret = soapySdrOverflow ∨ a.ret = getStreamMTU .writer

theorem returns_finishRead (hx : Cs16 x) :
    Proc.Returns (fun a x' => Cs16 x' ∧ AcquireRet a) (finishRead : Dev n Acquired) x := by
  refine Proc.Returns.bind (Proc.Returns.get ?_)
  dsimp only
  split
  · refine Proc.Returns.bind (returns_checkedIoctl fun r => ?_)
    refine Proc.Returns.bind (Proc.Returns.modify (Proc.Returns.pure ?_))
    exact ⟨hx.modStream (fun _ => ⟨rfl, rfl⟩) .writer, .inr (.inl rfl)⟩
  · refine Proc.Returns.bind (Proc.Returns.get ?_)
    refine Proc.Returns.bind (Proc.Returns.modify (Proc.Returns.pure ?_))
    exact ⟨hx.modStream (fun _ => ⟨rfl, rfl⟩) .writer, .inr (.inr rfl)⟩

theorem returns_waitRead (hx : Cs16 x) (t : Int) :
    Proc.Returns (fun a x' => Cs16 x' ∧ AcquireRet a) (waitRead t : Dev n Acquired) x := by
  refine Proc.Returns.bind (Proc.Returns.get ?_)
  dsimp only
  split
  · split
    · exact Proc.Returns.pure ⟨hx, .inl rfl⟩
    · refine Proc.Returns.bind (Proc.Returns.sys fun ret => ?_)
      change Int at ret
      split
      · exact Proc.Returns.halt _
      · split
        · exact Proc.Returns.pure ⟨hx, .inl rfl⟩
        · refine Proc.Returns.bind (returns_dmaCounts fun hw sw => ?_)
          refine Proc.Returns.bind (Proc.Returns.get ?_)
          exact Proc.Returns.bind (returns_assert (returns_finishRead (hx.counts hw sw)))
  · exact returns_finishRead hx

theorem returns_acquireReadBuffer (hx : Cs16 x) (t : Int) :
    Proc.Returns (fun a x' => Cs16 x' ∧ AcquireRet a) (acquireReadBuffer .rx t : Dev n Acquired) x
    := by
  unfold Proc.Returns
  rw [acquireReadBuffer_rx_apply]
  split
  · exact Proc.Returns.bind (m := dmaCounts .writer 1) (f := fun _ => waitRead t)
      (returns_dmaCounts fun hw sw => returns_waitRead (hx.counts hw sw) t)
  · intro a ha
    cases ha

/-- Nothing is written to the first element of `buffs[1]`. -/
def SkipsFirst (stores : List Store) : Prop := ∀ s ∈ stores, s.buff = 1 → s.index ≠ 0

theorem SkipsFirst.append {stores stores' : List Store} (h : SkipsFirst stores)
    (h' : SkipsFirst stores') : SkipsFirst (stores ++ stores') := fun s hs =>
  (List.mem_append.mp hs).elim (h s) (h' s)

theorem returns_readOut (hx : Cs16 x) (src len base : Nat) (format : String)
    (cs : List (Nat × Nat)) (hcs : ∀ c ∈ cs, c.2 = 1 → 1 ≤ c.1) :
    Proc.Returns (fun stores x' => Cs16 x' ∧ SkipsFirst stores)
      (readOut src len base format cs : Dev n (List Store)) x := by
  induction cs with
  | nil => exact Proc.Returns.pure ⟨hx, fun s hs => by cases hs⟩
  | cons c cs ih =>
    obtain ⟨channel, i⟩ := c
    refine Proc.Returns.bind (Proc.Returns.sys fun m => Proc.Returns.bind ?_)
    refine (ih fun c hc => hcs c (List.mem_cons_of_mem _ hc)).mono fun stores x' h => ?_
    refine Proc.Returns.pure ⟨h.1, SkipsFirst.append (fun s hs hbuff => ?_) h.2⟩
    obtain ⟨hb, hle, -⟩ := mem_deinterleave hs
    have := hcs (channel, i) List.mem_cons_self (hb.symm.trans hbuff)
    dsimp only at this
    omega

theorem Cs16.channels (hx : Cs16 x) : ∀ c ∈ x.rxStream.channels.zipIdx, c.2 = 1 → 1 ≤ c.1 := by
  rw [hx.2]
  decide

theorem returns_consume (hx : Cs16 x) (k : Nat) :
    Proc.Returns (fun _ x' => Cs16 x') (consume k : Dev n Unit) x := by
  refine Proc.Returns.bind (Proc.Returns.modify ?_)
  have hx₁ : Cs16 _ := hx.modStream (f := fun st =>
    { st with remainderSamps := st.remainderSamps - k
              remainderOffset := st.remainderOffset + k }) (fun _ => ⟨rfl, rfl⟩) .writer
  refine Proc.Returns.bind (Proc.Returns.get ?_)
  dsimp only
  split
  · refine Proc.Returns.bind (Proc.Returns.modify (Proc.Returns.bind ?_))
    refine Proc.Returns.bind (returns_assert (Proc.Returns.bind (returns_checkedIoctl fun r => ?_)))
    exact Proc.Returns.pure (Proc.Returns.modify (hx₁.modStream (fun _ => ⟨rfl, rfl⟩) .writer))
  · exact Proc.Returns.pure hx₁

/-- What is known of a result of `readStream` for `numElems` elements. -/
structure ReadSpec (numElems : Nat) (r : ReadResult) : Prop where
  skips : SkipsFirst r.stores
  none : numElems = 0 → r.ret ≤ 0
  some : 0 < numElems → r.ret = soapySdrTimeout ∨ r.ret = soapySdrOverflow ∨ 0 < r.ret

theorem returns_readFresh (hx : Cs16 x) {numElems sampAvail : Nat} {stores : List Store}
    (havail : numElems = 0 → sampAvail = 0) (hs : SkipsFirst stores) (t : Int) :
    Proc.Returns (fun r x' => Cs16 x' ∧ ReadSpec numElems r)
      (readFresh (min numElems (getStreamMTU .writer)) sampAvail stores t : Dev n ReadResult) x := by
  have hmtu : 0 < getStreamMTU .writer := by decide
  refine Proc.Returns.bind ((returns_acquireReadBuffer hx t).mono fun a x₁ h => ?_)
  obtain ⟨hx₁, ha⟩ := h
  split
  · rename_i hneg
    split
    · rename_i hpart
      refine Proc.Returns.pure ⟨hx₁, hs, fun h0 => ?_, fun _ => ?_⟩
      · have := havail h0
        omega
      · have hpos := hpart.2
        exact .inr (.inr (Int.natCast_pos.mpr hpos))
    · refine Proc.Returns.pure ⟨hx₁, hs, fun _ => ?_, fun _ => ?_⟩
      · show a.ret ≤ 0
        omega
      · rcases ha with ha | ha | ha
        · exact .inl ha
        · exact .inr (.inl ha)
        · omega
  · refine Proc.Returns.bind (Proc.Returns.modify (Proc.Returns.bind (Proc.Returns.modify ?_)))
    have hx₂ := (hx₁.addRecord (.acquired (a.handle.getD 0))).modStream (f := fun st =>
      { st with remainderBuff := (a.buff.getD 0).toNat
                remainderHandle := toInt32 (a.handle.getD 0)
                remainderSamps := a.ret.toNat }) (fun _ => ⟨rfl, rfl⟩) .writer
    refine Proc.Returns.bind (Proc.Returns.get (Proc.Returns.bind (Proc.Returns.modify ?_)))
    refine Proc.Returns.bind ((returns_readOut (hx₂.addRecord _) _ _ _ _ _ hx₂.channels).mono
      fun stores' x₃ h => ?_)
    obtain ⟨hx₃, hs'⟩ := h
    refine Proc.Returns.bind ((returns_consume hx₃ _).mono fun _ x₄ hx₄ => ?_)
    refine Proc.Returns.pure ⟨hx₄, hs.append hs', fun h0 => ?_, fun hpos => ?_⟩
    · subst h0
      simp
    · refine .inr (.inr (Int.natCast_pos.mpr ?_))
      omega

/-- A call of `readStream`, whatever the driver answers. -/
theorem readStream_returns (hx : Cs16 x) (numElems : Nat) (t : Int) :
    Proc.Returns (fun r x' => Cs16 x' ∧ ReadSpec numElems r)
      (readStream .rx numElems t : Dev n ReadResult) x := by
  have hnil : SkipsFirst [] := fun s hs => by cases hs
  have hmtu : 0 < getStreamMTU .writer := by decide
  unfold readStream
  rw [if_neg (by simp)]
  refine Proc.Returns.bind (Proc.Returns.get ?_)
  dsimp only
  split
  · refine Proc.Returns.bind (Proc.Returns.modify (Proc.Returns.bind ?_))
    refine (returns_readOut (hx.addRecord _) _ _ _ _ _ hx.channels).mono fun stores x₂ h => ?_
    obtain ⟨hx₂, hs⟩ := h
    refine Proc.Returns.bind ((returns_consume hx₂ _).mono fun _ x₃ hx₃ => ?_)
    split
    · refine Proc.Returns.pure ⟨hx₃, hs, fun h0 => ?_, fun hpos => ?_⟩
      · subst h0
        simp
      · refine .inr (.inr (Int.natCast_pos.mpr ?_))
        omega
    · refine returns_readFresh hx₃ (fun h0 => ?_) hs t
      subst h0
      simp
  · exact returns_readFresh hx (fun _ => rfl) hnil t

theorem returns_readAll (hx : Cs16 x) (calls : List (Nat × Int)) :
    Proc.Returns (fun rs _ => (∀ c ∈ calls, ∃ r ∈ rs, ReadSpec c.1 r) ∧
        ∀ r ∈ rs, ∃ c ∈ calls, ReadSpec c.1 r)
      (readAll calls : Dev n (List ReadResult)) x := by
  induction calls generalizing x with
  | nil =>
    refine Proc.Returns.pure ⟨?_, ?_⟩
    · simp
    · simp
  | cons c calls ih =>
    obtain ⟨numElems, t⟩ := c
    refine Proc.Returns.bind ((readStream_returns hx numElems t).mono fun r x₁ h => ?_)
    refine Proc.Returns.bind ((ih h.1).mono fun rs x₂ hrs => Proc.Returns.pure ⟨?_, ?_⟩)
    · refine List.forall_mem_cons.mpr ⟨⟨r, List.mem_cons_self, h.2⟩, fun c hc => ?_⟩
      obtain ⟨r', hr', hs⟩ := hrs.1 c hc
      exact ⟨r', List.mem_cons_of_mem _ hr', hs⟩
    · refine List.forall_mem_cons.mpr ⟨⟨(numElems, t), List.mem_cons_self, h.2⟩, fun r hr => ?_⟩
      obtain ⟨c, hc, hs⟩ := hrs.2 r hr
      exact ⟨c, List.mem_cons_of_mem _ hc, hs⟩

end

/-! ## Runs -/

/-- The calls deliver the samples, however they lie in the buffers, exactly if none asks for an
element. -/
theorem readStream_delivers_iff (samp : Nat → Nat → List (BitVec 16)) (fd : Nat)
    (calls : List (Nat × Int)) (x x' : SoapyLiteXXTRX) (k k' : Driver n)
    (es : List (Ev (Irq n) Choice)) (rs : List ReadResult) (hx : Cs16 x)
    (hr : (kernelWorld n fd).exec (readAll calls x) es k = some ((.ok rs, x'), k'))
    (hok : ∀ r ∈ rs, r.ret ≠ soapySdrTimeout ∧ r.ret ≠ soapySdrOverflow) :
    Delivers samp rs ↔ ∀ c ∈ calls, c.1 = 0 := by
  obtain ⟨hcalls, hresults⟩ := World.exec_returns (returns_readAll hx calls) hr rs rfl
  constructor
  · rintro ⟨hwrites, -⟩ c hc
    by_contra h0
    obtain ⟨r, hmem, hcr⟩ := hcalls c hc
    have hpos : 0 < r.ret := by
      rcases hcr.some (Nat.pos_of_ne_zero h0) with h | h | h
      · exact absurd h (hok r hmem).1
      · exact absurd h (hok r hmem).2
      · exact h
    obtain ⟨s, hs, hbuff, hindex⟩ := (hwrites r hmem hpos 1 (by decide) 0).mpr (by omega)
    exact hcr.skips s hs hbuff hindex
  · intro h0
    have hret : ∀ r ∈ rs, r.ret ≤ 0 := by
      intro r hr
      obtain ⟨c, hc, hcr⟩ := hresults r hr
      exact hcr.none (h0 c hc)
    refine ⟨fun r hr hpos => absurd (hret r hr) (by omega), fun c _ => ⟨0, ?_⟩⟩
    have hnil : rs.flatMap (received c) = [] := by
      refine List.flatMap_eq_nil_iff.mpr fun r hr => ?_
      have := hret r hr
      rw [received, show r.ret.toNat = 0 by omega]
      rfl
    rw [hnil]
    exact List.nil_prefix

/-- A device object with the stream set up and started. -/
def newReading : SoapyLiteXXTRX :=
  (newStarted .writer).modStream .writer fun st =>
    { st with opened := true, format := soapySdrCs16, channels := [0, 1] }

/-- One buffer is filled, and a call of `readStream` reads it out for both channels. -/
def readOnce : List (Ev (Irq 1) Choice) :=
  .env ⟨0, .writer, 1⟩ :: [.thr .ready, .thr (.bytes fun _ => 0), .thr (.bytes fun _ => 0)]

/-- A second call reads out more of the buffer. -/
def readTwice : List (Ev (Irq 1) Choice) :=
  readOnce ++ [.thr (.bytes fun _ => 0), .thr (.bytes fun _ => 0)]

/-- The results of a client. -/
def readResults (es : List (Ev (Irq 1) Choice)) (calls : List (Nat × Int)) :
    Option (List ReadResult) :=
  ((kernelWorld 1 3).exec (readAll calls newReading) es (oneStarted .writer)).bind
    fun r => r.1.1.toOption

theorem readResults_exec (es : List (Ev (Irq 1) Choice)) (calls : List (Nat × Int))
    (rs : List ReadResult) (h : readResults es calls = some rs) :
    ∃ x' k', (kernelWorld 1 3).exec (readAll calls newReading) es (oneStarted .writer) =
      some ((.ok rs, x'), k') := by
  obtain ⟨⟨⟨e | rs', x'⟩, k'⟩, hr, hrs⟩ := Option.bind_eq_some_iff.mp h
  · cases hrs
  · cases hrs
    exact ⟨x', k', hr⟩

/-- A call for no elements delivers, and one for none and then for four does not. -/
theorem readStream_delivers_iff_four :
    Delivers (fun _ _ => []) [⟨0, 0, []⟩] ∧
      ∀ samp, ¬ Delivers samp
        [⟨0, 0, []⟩, ⟨4, 0, [⟨0, 0, 0⟩, ⟨0, 1, 0⟩, ⟨1, 4, 0⟩, ⟨1, 5, 0⟩]⟩] := by
  obtain ⟨x, k, hr⟩ := readResults_exec readOnce [(0, 0)] [⟨0, 0, []⟩] (by decide +kernel)
  obtain ⟨x', k', hr'⟩ := readResults_exec readTwice [(0, 0), (4, 0)]
    [⟨0, 0, []⟩, ⟨4, 0, [⟨0, 0, 0⟩, ⟨0, 1, 0⟩, ⟨1, 4, 0⟩, ⟨1, 5, 0⟩]⟩] (by decide +kernel)
  constructor
  · exact (readStream_delivers_iff _ 3 _ newReading x (oneStarted .writer) k readOnce _ ⟨rfl, rfl⟩
      hr (by decide)).mpr (by decide)
  · intro samp hdelivers
    have hnone := (readStream_delivers_iff samp 3 _ newReading x' (oneStarted .writer) k' readTwice _
      ⟨rfl, rfl⟩ hr' (by decide)).mp hdelivers
    exact absurd hnone (by decide)

/-- A call for four elements: `buffs[0]` gets the elements 0 and 2, `buffs[1]` gets 2 and 4. -/
theorem readStream_skips :
    ¬ ∃ samp, ∀ calls es rs x' k',
      (kernelWorld 1 3).exec (readAll calls newReading) es (oneStarted .writer) =
        some ((.ok rs, x'), k') →
      (∀ r ∈ rs, r.ret ≠ soapySdrTimeout ∧ r.ret ≠ soapySdrOverflow) → Delivers samp rs := by
  rintro ⟨samp, h⟩
  obtain ⟨x', k', hr⟩ := readResults_exec readOnce [(4, 0)]
    [⟨4, 0, [⟨0, 0, 0⟩, ⟨0, 1, 0⟩, ⟨0, 4, 0⟩, ⟨0, 5, 0⟩, ⟨1, 4, 0⟩, ⟨1, 5, 0⟩, ⟨1, 8, 0⟩,
      ⟨1, 9, 0⟩]⟩] (by decide +kernel)
  have hwrites := (h _ _ _ _ _ hr (by decide)).1 _ List.mem_cons_self (by decide) 1 (by decide) 0
  exact absurd (hwrites.mpr (by decide)) (by decide)

end Soapy
end Xtrx
