import Mathlib.Data.List.Perm.Subperm
import Xtrx.Soapy.ReadStream

/-!
# What `writeStream` transmits (`soapysdr-xtrx/Streaming.cpp`)

A client sets up a TX stream of the format CS16 with the channels 0 and 1, activates it, and calls
`writeStream` any number of times with any numbers of elements. Element `e` of `buffs[c]` is the two
16-bit values at `2 * e` and `2 * e + 1`.

- **`interleave`**, **`writeStream`**: what they read of the user's buffers and write to the mapping,
  and the buffers that are acquired and released, is part of the result, as a list of `WriteEv`s.
- **`Transmits`**: a buffer that is released was written over its whole length since it was acquired,
  the released buffers hold the samples of the calls in order (what is missing at the end is less
  than a buffer), and nothing is read past the elements of a call. Which bytes of a buffer are the
  samples of a channel, and how they encode them, are parameters.
- **`writeStream_transmits_iff`**: `interleave` writes two bytes for an element of both channels, and
  a buffer is released after as many elements as it has room for with eight bytes each. So no
  released buffer is ever written over its whole length. `writeStream_stale` is a run with one call.
-/

namespace Xtrx
namespace Soapy

open Conc Kernel User SoapyLiteXXTRX

variable {n : Nat}

/-! ## The functions -/

/-- What `writeStream` does with buffers. -/
inductive WriteEv where
  /-- It got the buffer `handle` from `acquireWriteBuffer`. -/
  | acquired (handle : Int)
  /-- It read `buffs[buff][index]`, a 16-bit value. -/
  | load (buff index : Nat)
  /-- It wrote a byte at the offset `addr` of the mapping. -/
  | store (addr : Nat) (value : BitVec 8)
  /-- It passed `handle` to `releaseWriteBuffer`. -/
  | released (handle : Int)
  deriving DecidableEq

/-- `interleave` from `buffs[buff]`, to the offset `dst` of the mapping; the loop is that of
`deinterleave`. -/
def interleave (src : Nat → BitVec 16) (buff dst len : Nat) (format : String) (offset : Nat) :
    List WriteEv :=
  if format = soapySdrCs16 then
    (deinterleaveIndices len offset).flatMap fun i =>
      let samples := offset * bytesPerSample
      [.load buff (samples + i * bytesPerSample),
       .store (dst + i * bytesPerSample)
        (((src (samples + i * bytesPerSample)).sshiftRight 8).setWidth 8),
       .load buff (samples + i * bytesPerSample + 1),
       .store (dst + i * bytesPerSample + 1)
        (((src (samples + i * bytesPerSample + 1)).sshiftRight 8).setWidth 8)]
  else
    []

/-- "Write out channels": `len` elements to the offset `dst` of the mapping, for each channel, with
the offset `base` plus its number. -/
def writeOut (buffs : Nat → Nat → BitVec 16) (dst len base : Nat) (format : String)
    (cs : List (Nat × Nat)) : List WriteEv :=
  cs.flatMap fun (channel, i) => interleave (buffs i) i dst len format (base + channel)

/-- `n` samples of the remainder are written; it is released when it is full. -/
def produce {m : Nat} (n : Nat) : Dev m (List WriteEv) := do
  Proc.modify (modStream .reader fun st =>
    { st with remainderSamps := st.remainderSamps - n, remainderOffset := st.remainderOffset + n })
  let st := (← Proc.get).txStream
  if st.remainderSamps = 0 then
    releaseWriteBuffer st.remainderHandle
    Proc.modify (modStream .reader fun st => { st with remainderHandle := -1, remainderOffset := 0 })
    return [.released st.remainderHandle]
  else
    return []

/-- What `writeStream` returns, and what it has done. -/
structure WriteResult where
  ret : Int
  log : List WriteEv
  deriving DecidableEq

/-- The rest of `writeStream` after the remainder: `sampAvail` elements are written. -/
def writeFresh (buffs : Nat → Nat → BitVec 16) (returnedElems sampAvail : Nat) (log : List WriteEv)
    (timeoutUs : Int) : Dev n WriteResult := do
  let a ← acquireWriteBuffer .tx timeoutUs
  -- the address is assigned also when the return value says underflow
  Proc.modify (modStream .reader fun st =>
    { st with remainderBuff := (a.buff.getD st.remainderBuff).toNat })
  if a.ret < 0 then
    if a.ret = soapySdrTimeout ∧ sampAvail > 0 then
      return { ret := sampAvail, log := log }
    else
      return { ret := a.ret, log := log }
  else
    let handle := a.handle.getD 0
    Proc.modify (modStream .reader fun st =>
      { st with remainderHandle := toInt32 handle, remainderSamps := a.ret.toNat })
    let st := (← Proc.get).txStream
    let n := min (returnedElems - sampAvail) st.remainderSamps
    let written := writeOut buffs st.remainderBuff n sampAvail st.format st.channels.zipIdx
    let released ← produce n
    return { ret := returnedElems, log := log ++ .acquired handle :: written ++ released }

/-- `writeStream`. -/
def writeStream (stream : StreamPtr) (buffs : Nat → Nat → BitVec 16) (numElems : Nat)
    (timeoutUs : Int) : Dev n WriteResult := do
  if stream ≠ .tx then
    return { ret := soapySdrNotSupported, log := [] }
  else
    let returnedElems := min numElems (getStreamMTU .reader)
    let st := (← Proc.get).txStream
    if st.remainderHandle ≥ 0 then
      let n := min st.remainderSamps returnedElems
      let sampAvail := if n < returnedElems then n else 0
      let dst := st.remainderBuff + st.remainderOffset * bytesPerSample
      let written := writeOut buffs dst (n / 2) 0 st.format st.channels.zipIdx
      let released ← produce n
      if n = returnedElems then
        return { ret := returnedElems, log := written ++ released }
      else
        writeFresh buffs returnedElems sampAvail (written ++ released) timeoutUs
    else
      writeFresh buffs returnedElems 0 [] timeoutUs

/-! ## Transmission -/

/-- A call of `writeStream`: `buffs c` are the 16-bit values of `buffs[c]`. -/
structure WriteCall where
  buffs : Nat → Nat → BitVec 16
  numElems : Nat
  timeoutUs : Int

/-- A client that calls `writeStream` over and over. -/
def writeAll (s : StreamPtr) : List WriteCall → Dev n (List WriteResult)
  | [] => return []
  | c :: calls => do
    let r ← writeStream s c.buffs c.numElems c.timeoutUs
    let rs ← writeAll s calls
    return r :: rs

/-- The client sets up the stream and activates it before. -/
def writeClient (calls : List WriteCall) : Dev n (List WriteResult) := do
  let s ← setupStream soapySdrTx soapySdrCs16 [0, 1]
  let _ ← activateStream s
  writeAll s calls

/-- What the calls have done. -/
def logOf (ts : List (WriteCall × WriteResult)) : List WriteEv := ts.flatMap fun t => t.2.log

/-- The byte at `addr` that an event stores. -/
def WriteEv.storedAt? (addr : Nat) : WriteEv → Option (BitVec 8)
  | .store a v => if a = addr then some v else none
  | _ => none

/-- The offset of a buffer in the mapping. -/
def bufferAddr (handle : Int) : Nat :=
  (getDirectAccessBufferAddrs .reader (handle % dmaBufCount .reader)).toNat

/-- Byte `j` of the buffer `handle`, if it was written since the buffer was acquired. -/
def contents (handle : Int) (log : List WriteEv) (j : Nat) : Option (BitVec 8) :=
  (log.reverse.takeWhile (· ≠ .acquired handle)).findSome?
    (WriteEv.storedAt? (bufferAddr handle + j))

/-- What `read` finds in the released buffers, one after the other. -/
def sent {α : Type} (read : (Nat → Option (BitVec 8)) → List α) (log : List WriteEv) : List α :=
  (List.range log.length).flatMap fun i =>
    match log[i]? with
    | some (WriteEv.released handle) => read (contents handle (log.take i))
    | _ => []

/-- The elements of `buffs[c]` that a call has returned. -/
def given (c : Nat) (t : WriteCall × WriteResult) : List (BitVec 16 × BitVec 16) :=
  (List.range t.2.ret.toNat).map fun e => (t.1.buffs c (2 * e), t.1.buffs c (2 * e + 1))

/-- The calls transmit their samples: `layout c` reads those of channel `c` in the bytes of a buffer,
and `elem` is what it finds for an element. -/
structure Transmits {α : Type} (layout : Nat → (Nat → Option (BitVec 8)) → List α)
    (elem : BitVec 16 × BitVec 16 → α) (ts : List (WriteCall × WriteResult)) : Prop where
  /-- No stale byte is sent. -/
  whole : ∀ i handle, (logOf ts)[i]? = some (.released handle) → ∀ j < dmaBufSize .reader,
    (contents handle ((logOf ts).take i) j).isSome
  order : ∀ c < 2, ∃ rest, sent (layout c) (logOf ts) ++ rest = (ts.flatMap (given c)).map elem ∧
    rest.length < getStreamMTU .reader
  inBounds : ∀ t ∈ ts, ∀ c index, .load c index ∈ t.2.log → index < 2 * t.1.numElems

/-! ## Stores and loads -/

/-- The offset that an event stores to. -/
def WriteEv.storedAddr? : WriteEv → Option Nat
  | .store a _ => some a
  | _ => none

def stores (log : List WriteEv) : List Nat := log.filterMap WriteEv.storedAddr?

@[simp] theorem stores_append (log log' : List WriteEv) :
    stores (log ++ log') = stores log ++ stores log' := List.filterMap_append

theorem mem_stores {a : Nat} {v : BitVec 8} {log : List WriteEv} (h : .store a v ∈ log) :
    a ∈ stores log := List.mem_filterMap.mpr ⟨_, h, rfl⟩

theorem mem_contents {handle : Int} {log : List WriteEv} {j : Nat}
    (h : (contents handle log j).isSome) : bufferAddr handle + j ∈ stores log := by
  obtain ⟨e, he, hsome⟩ := List.findSome?_isSome_iff.mp h
  have hmem : e ∈ log := List.mem_reverse.mp ((List.takeWhile_sublist _).subset he)
  cases e with
  | store a v =>
    simp only [WriteEv.storedAt?, Option.isSome_ite] at hsome
    rw [← hsome]
    exact mem_stores hmem
  | acquired h => cases hsome
  | load c i => cases hsome
  | released h => cases hsome

/-- A buffer that is written over its whole length has as many stores. -/
theorem size_le_stores {handle : Int} {log : List WriteEv}
    (h : ∀ j < dmaBufSize .reader, (contents handle log j).isSome) :
    dmaBufSize .reader ≤ (stores log).length := by
  have hnodup : ((List.range (dmaBufSize .reader)).map (bufferAddr handle + ·)).Nodup :=
    List.Nodup.map (fun a b hab => Nat.add_left_cancel hab) List.nodup_range
  have hsub : (List.range (dmaBufSize .reader)).map (bufferAddr handle + ·) ⊆ stores log := by
    intro a ha
    obtain ⟨j, hj, rfl⟩ := List.mem_map.mp ha
    exact mem_contents (h j (List.mem_range.mp hj))
  have hle := (hnodup.subperm hsub).length_le
  rwa [List.length_map, List.length_range] at hle

theorem mem_interleave {src : Nat → BitVec 16} {buff dst len offset : Nat} {format : String}
    {e : WriteEv} (h : e ∈ interleave src buff dst len format offset) :
    (∃ i ∈ deinterleaveIndices len offset, ∃ b < 2, e = .load buff (2 * (offset + i) + b)) ∨
      ∃ a v, e = .store a v := by
  unfold interleave at h
  split at h
  · obtain ⟨i, hi, he⟩ := List.mem_flatMap.mp h
    simp only [List.mem_cons, List.not_mem_nil, or_false] at he
    rcases he with rfl | rfl | rfl | rfl
    · exact .inl ⟨i, hi, 0, by decide, by congr 1; unfold bytesPerSample; omega⟩
    · exact .inr ⟨_, _, rfl⟩
    · exact .inl ⟨i, hi, 1, by decide, by congr 1; unfold bytesPerSample; omega⟩
    · exact .inr ⟨_, _, rfl⟩
  · cases h

theorem length_stores_interleave (src : Nat → BitVec 16) (buff dst len offset : Nat)
    (format : String) :
    (stores (interleave src buff dst len format offset)).length ≤ 2 * ((len + 1 - offset) / 2) := by
  unfold interleave
  split
  · have hlen : (deinterleaveIndices len offset).length = (len + 1 - offset) / 2 :=
      List.length_range'
    rw [← hlen]
    generalize deinterleaveIndices len offset = is
    induction is with
    | nil => simp [stores]
    | cons i is ih =>
      rw [List.flatMap_cons, stores_append, List.length_append]
      simp only [stores, List.filterMap_cons, WriteEv.storedAddr?, List.filterMap_nil,
        List.length_cons, List.length_nil] at ih ⊢
      omega
  · simp [stores]

/-- The channels of the client's stream, with their numbers. -/
theorem zipIdx_channels : ([0, 1] : List Nat).zipIdx = [(0, 0), (1, 1)] := rfl

section

variable {buffs : Nat → Nat → BitVec 16} {dst len base : Nat} {format : String}

theorem length_stores_writeOut (buffs : Nat → Nat → BitVec 16) (dst len base : Nat)
    (format : String) :
    (stores (writeOut buffs dst len base format [(0, 0), (1, 1)])).length ≤ 2 * len := by
  have h₀ := length_stores_interleave (buffs 0) 0 dst len (base + 0) format
  have h₁ := length_stores_interleave (buffs 1) 1 dst len (base + 1) format
  simp only [writeOut, List.flatMap_cons, List.flatMap_nil, List.append_nil, stores_append,
    List.length_append]
  omega

theorem mem_writeOut {e : WriteEv}
    (h : e ∈ writeOut buffs dst len base format [(0, 0), (1, 1)]) :
    (∃ c < 2, ∃ i ∈ deinterleaveIndices len (base + c), ∃ b < 2,
        e = .load c (2 * (base + c + i) + b)) ∨ ∃ a v, e = .store a v := by
  obtain ⟨⟨channel, i⟩, hc, he⟩ := List.mem_flatMap.mp h
  have hchan : channel = i ∧ i < 2 := by
    simp only [List.mem_cons, Prod.mk.injEq, List.not_mem_nil, or_false] at hc
    omega
  obtain ⟨rfl, hi⟩ := hchan
  rcases mem_interleave he with ⟨k, hk, b, hb, rfl⟩ | hstore
  · exact .inl ⟨channel, hi, k, hk, b, hb, rfl⟩
  · exact .inr hstore

theorem released_notMem_writeOut {handle : Int} :
    .released handle ∉ writeOut buffs dst len base format [(0, 0), (1, 1)] := by
  intro h
  rcases mem_writeOut h with ⟨c, -, i, -, b, -, he⟩ | ⟨a, v, he⟩
  · cases he
  · cases he

end

/-! ## The log of a call -/

/-- A buffer is released after `k` stores at most. -/
def Releases (k : Nat) (log : List WriteEv) : Prop :=
  ∃ pre handle post, log = pre ++ .released handle :: post ∧ (stores pre).length ≤ k

theorem Releases.append {k : Nat} {log : List WriteEv} (h : Releases k log) (post : List WriteEv) :
    Releases k (log ++ post) := by
  obtain ⟨pre, handle, post', rfl, hle⟩ := h
  exact ⟨pre, handle, post' ++ post, by simp, hle⟩

theorem Releases.cons_append {k m : Nat} {log : List WriteEv} (h : Releases k log)
    (front : List WriteEv) (hm : (stores front).length + k ≤ m) : Releases m (front ++ log) := by
  obtain ⟨pre, handle, post, rfl, hle⟩ := h
  refine ⟨front ++ pre, handle, post, by simp, ?_⟩
  rw [stores_append, List.length_append]
  omega

/-- A buffer with fewer stores than bytes is not written over its whole length. -/
theorem Releases.not_whole {log : List WriteEv} {k : Nat} (h : Releases k log)
    (hk : k < dmaBufSize .reader) :
    ¬ ∀ i handle, log[i]? = some (.released handle) → ∀ j < dmaBufSize .reader,
      (contents handle (log.take i) j).isSome := by
  intro hwhole
  obtain ⟨pre, handle, post, rfl, hle⟩ := h
  have hat : (pre ++ .released handle :: post)[pre.length]? = some (.released handle) := by simp
  have hsize := size_le_stores (hwhole _ _ hat)
  rw [List.take_left] at hsize
  omega

/-- A call returns all its elements, releases nothing, and reads none of the values past its
elements. -/
structure Plain (t : WriteCall × WriteResult) : Prop where
  ret : t.2.ret = t.1.numElems
  holds : ∀ handle, .released handle ∉ t.2.log
  inBounds : ∀ c index, .load c index ∈ t.2.log → index < 2 * t.1.numElems

section

variable {α : Type} {layout : Nat → (Nat → Option (BitVec 8)) → List α}
  {elem : BitVec 16 × BitVec 16 → α} {ts : List (WriteCall × WriteResult)}

theorem sent_eq_nil {read : (Nat → Option (BitVec 8)) → List α} {log : List WriteEv}
    (h : ∀ handle, .released handle ∉ log) : sent read log = [] := by
  refine List.flatMap_eq_nil_iff.mpr fun i _ => ?_
  split
  · rename_i handle hi
    exact absurd (List.mem_of_getElem? hi) (h handle)
  · rfl

theorem length_given {c : Nat} (h : ∀ t ∈ ts, Plain t) :
    (ts.flatMap (given c)).length = (ts.map fun t => t.1.numElems).sum := by
  induction ts with
  | nil => rfl
  | cons t ts ih =>
    have ht := h t List.mem_cons_self
    rw [List.flatMap_cons, List.length_append, List.map_cons, List.sum_cons,
      ih fun t' ht' => h t' (List.mem_cons_of_mem _ ht')]
    simp [given, ht.ret]

/-- Calls that release nothing transmit what they are given, as long as it is less than a buffer. -/
theorem Transmits.of_plain (h : ∀ t ∈ ts, Plain t)
    (hsum : (ts.map fun t => t.1.numElems).sum < getStreamMTU .reader) :
    Transmits layout elem ts := by
  have hholds : ∀ handle, .released handle ∉ logOf ts := by
    intro handle hmem
    obtain ⟨t, ht, hlog⟩ := List.mem_flatMap.mp hmem
    exact (h t ht).holds handle hlog
  refine ⟨fun i handle hi => absurd (List.mem_of_getElem? hi) (hholds handle), fun c _ => ?_,
    fun t ht => (h t ht).inBounds⟩
  refine ⟨(ts.flatMap (given c)).map elem, ?_, ?_⟩
  · rw [sent_eq_nil hholds, List.nil_append]
  · rw [List.length_map, length_given h]
    exact hsum

end

/-! ## One call -/

/-- The stream's format and channels. -/
def Cs16Stream (st : Stream) : Prop := st.format = soapySdrCs16 ∧ st.channels = [0, 1]

/-- What `acquireWriteBuffer` returns for the stream `st`, and the stream after it. -/
structure AcquiredWrite (st : Stream) (a : Acquired) (st' : Stream) : Prop where
  ret : a.ret = soapySdrTimeout ∨ a.ret = soapySdrUnderflow ∨
    a.ret = getStreamMTU .reader ∧ a.handle = some st.userCount
  format : st'.format = st.format
  channels : st'.channels = st.channels

/-- What `produce k` returns, and the stream after it. -/
structure Produced (st : Stream) (k : Nat) (log : List WriteEv) (st' : Stream) : Prop where
  full : st.remainderSamps ≤ k → log = [.released st.remainderHandle]
  part : k < st.remainderSamps → log = [] ∧ st'.remainderHandle = st.remainderHandle ∧
    st'.remainderSamps = st.remainderSamps - k
  format : st'.format = st.format
  channels : st'.channels = st.channels

/-- The result of `writeFresh` with the log `log` before it, and the stream after it. -/
inductive FreshResult (buffs : Nat → Nat → BitVec 16) (returnedElems sampAvail : Nat) (log : List WriteEv)
    (st : Stream) (r : WriteResult) (st' : Stream) : Prop where
  | failed (hlog : r.log = log)
      (hret : sampAvail = 0 → r.ret = soapySdrTimeout ∨ r.ret = soapySdrUnderflow)
  | wrote (st₁ : Stream) (released : List WriteEv) (hret : r.ret = returnedElems)
      (hhandle : st₁.remainderHandle = toInt32 st.userCount)
      (hsamps : st₁.remainderSamps = getStreamMTU .reader)
      (hproduced : Produced st₁ (min (returnedElems - sampAvail) (getStreamMTU .reader)) released st')
      (hlog : r.log = log ++ .acquired st.userCount ::
        writeOut buffs st₁.remainderBuff (min (returnedElems - sampAvail) (getStreamMTU .reader))
          sampAvail soapySdrCs16 [(0, 0), (1, 1)] ++ released)

section

variable {x : SoapyLiteXXTRX}

theorem returns_finishWrite (pending : Int) :
    Proc.Returns (fun a x' => AcquiredWrite x.txStream a x'.txStream)
      (finishWrite pending : Dev n Acquired) x := by
  refine Proc.Returns.bind (Proc.Returns.get ?_)
  refine Proc.Returns.bind (Proc.Returns.modify (Proc.Returns.pure ⟨?_, rfl, rfl⟩))
  dsimp only
  split
  · exact .inr (.inl rfl)
  · exact .inr (.inr ⟨rfl, rfl⟩)

theorem returns_waitWrite (t : Int) :
    Proc.Returns (fun a x' => AcquiredWrite x.txStream a x'.txStream)
      (waitWrite t : Dev n Acquired) x := by
  refine Proc.Returns.bind (Proc.Returns.get ?_)
  dsimp only
  split
  · split
    · exact Proc.Returns.pure ⟨.inl rfl, rfl, rfl⟩
    · refine Proc.Returns.bind (Proc.Returns.sys fun ret => ?_)
      change Int at ret
      split
      · exact Proc.Returns.halt _
      · split
        · exact Proc.Returns.pure ⟨.inl rfl, rfl, rfl⟩
        · refine Proc.Returns.bind (returns_dmaCounts fun hw sw => ?_)
          refine Proc.Returns.bind (Proc.Returns.get ?_)
          refine Proc.Returns.bind (returns_assert ((returns_finishWrite _).mono fun a x' h => ?_))
          exact ⟨h.ret, h.format, h.channels⟩
  · exact returns_finishWrite _

theorem returns_acquireWriteBuffer (t : Int) :
    Proc.Returns (fun a x' => AcquiredWrite x.txStream a x'.txStream)
      (acquireWriteBuffer .tx t : Dev n Acquired) x := by
  unfold Proc.Returns
  rw [acquireWriteBuffer_tx_apply]
  split
  · show Proc.Returns (fun a x' => AcquiredWrite x.txStream a x'.txStream)
      (dmaCounts .reader 1 >>= fun _ => waitWrite t) x
    refine Proc.Returns.bind (returns_dmaCounts fun hw sw => ?_)
    exact (returns_waitWrite t).mono fun a x' h => ⟨h.ret, h.format, h.channels⟩
  · intro a ha
    cases ha

theorem returns_produce (k : Nat) :
    Proc.Returns (fun log x' => Produced x.txStream k log x'.txStream)
      (produce k : Dev n (List WriteEv)) x := by
  refine Proc.Returns.bind (Proc.Returns.modify (Proc.Returns.bind (Proc.Returns.get ?_)))
  dsimp only
  split
  · rename_i hzero
    change x.txStream.remainderSamps - k = 0 at hzero
    refine Proc.Returns.bind (Proc.Returns.bind (returns_checkedIoctl fun r => ?_))
    refine Proc.Returns.pure (Proc.Returns.bind (Proc.Returns.modify (Proc.Returns.pure ?_)))
    exact ⟨fun _ => rfl, fun h => by omega, rfl, rfl⟩
  · rename_i hsome
    change ¬ x.txStream.remainderSamps - k = 0 at hsome
    exact Proc.Returns.pure ⟨fun h => by omega, fun _ => ⟨rfl, rfl, rfl⟩, rfl, rfl⟩

theorem returns_writeFresh (hx : Cs16Stream x.txStream) (buffs : Nat → Nat → BitVec 16)
    (returnedElems sampAvail : Nat) (log : List WriteEv) (t : Int) :
    Proc.Returns (fun r x' => FreshResult buffs returnedElems sampAvail log x.txStream r x'.txStream ∧
        Cs16Stream x'.txStream)
      (writeFresh buffs returnedElems sampAvail log t : Dev n WriteResult) x := by
  refine Proc.Returns.bind ((returns_acquireWriteBuffer t).mono fun a x₁ ha => ?_)
  have hx₁ : Cs16Stream x₁.txStream := ⟨ha.format.trans hx.1, ha.channels.trans hx.2⟩
  refine Proc.Returns.bind (Proc.Returns.modify ?_)
  split
  · rename_i hneg
    split
    · rename_i hpart
      exact Proc.Returns.pure ⟨.failed rfl fun h0 => absurd hpart.2 (by omega), hx₁⟩
    · refine Proc.Returns.pure ⟨.failed rfl fun _ => ?_, hx₁⟩
      rcases ha.ret with hr | hr | hr
      · exact .inl hr
      · exact .inr hr
      · omega
  · rename_i hok
    have hacq : a.ret = getStreamMTU .reader ∧ a.handle = some x.txStream.userCount := by
      rcases ha.ret with hr | hr | hr
      · exact absurd (by rw [hr]; decide) hok
      · exact absurd (by rw [hr]; decide) hok
      · exact hr
    obtain ⟨hret, hhandle⟩ := hacq
    refine Proc.Returns.bind (Proc.Returns.modify (Proc.Returns.bind (Proc.Returns.get ?_)))
    refine Proc.Returns.bind ((returns_produce _).mono fun released x₂ hp => Proc.Returns.pure ?_)
    have hsamps : a.ret.toNat = getStreamMTU .reader := by rw [hret, Int.toNat_natCast]
    change Produced _ (min (returnedElems - sampAvail) a.ret.toNat) _ _ at hp
    rw [hsamps] at hp
    refine ⟨.wrote _ released rfl ?_ rfl hp ?_, hp.format.trans hx₁.1, hp.channels.trans hx₁.2⟩
    · show toInt32 (a.handle.getD 0) = _
      rw [hhandle]
      rfl
    · dsimp only
      rw [hhandle]
      show _ ++ .acquired _ :: writeOut _ _ (min _ a.ret.toNat) _ x₁.txStream.format
        x₁.txStream.channels.zipIdx ++ _ = _
      rw [hx₁.1, hx₁.2, hsamps]
      rfl

theorem mem_deinterleaveIndices_iff {len offset i : Nat} :
    i ∈ deinterleaveIndices len offset ↔ offset ≤ i ∧ i < len ∧ (i - offset) % 2 = 0 := by
  unfold deinterleaveIndices
  rw [List.mem_range']
  constructor
  · rintro ⟨j, hj, rfl⟩
    omega
  · rintro ⟨hle, hlt, heven⟩
    exact ⟨(i - offset) / 2, by omega, by omega⟩

/-- A call for less than the rest of the remainder. -/
theorem writeStream_part (hx : Cs16Stream x.txStream) (hrem : 0 ≤ x.txStream.remainderHandle)
    (c : WriteCall) (hc : c.numElems < x.txStream.remainderSamps)
    (hle : x.txStream.remainderSamps ≤ getStreamMTU .reader) :
    Proc.Returns (fun r x' => Plain (c, r) ∧ (stores r.log).length ≤ c.numElems ∧
        Cs16Stream x'.txStream ∧ x'.txStream.remainderHandle = x.txStream.remainderHandle ∧
        x'.txStream.remainderSamps = x.txStream.remainderSamps - c.numElems)
      (writeStream .tx c.buffs c.numElems c.timeoutUs : Dev n WriteResult) x := by
  have hret : min c.numElems (getStreamMTU .reader) = c.numElems := by omega
  have hn : min x.txStream.remainderSamps c.numElems = c.numElems := by omega
  unfold writeStream
  rw [if_neg (by simp)]
  refine Proc.Returns.bind (Proc.Returns.get ?_)
  dsimp only
  rw [if_pos hrem, hret, hn, hx.1, hx.2, zipIdx_channels]
  refine Proc.Returns.bind ((returns_produce _).mono fun released x' hp => ?_)
  obtain ⟨rfl, hhandle, hsamps⟩ := hp.part hc
  rw [if_pos rfl, List.append_nil]
  refine Proc.Returns.pure ⟨⟨rfl, fun _ => released_notMem_writeOut, fun ch index hmem => ?_⟩, ?_,
    ⟨hp.format.trans hx.1, hp.channels.trans hx.2⟩, hhandle, hsamps⟩
  · rcases mem_writeOut hmem with ⟨ch', hch, i, hi, b, hb, he⟩ | ⟨a, v, he⟩
    · cases he
      have := mem_deinterleaveIndices_iff.mp hi
      show _ < 2 * c.numElems
      omega
    · cases he
  · have := length_stores_writeOut c.buffs (x.txStream.remainderBuff +
      x.txStream.remainderOffset * bytesPerSample) (c.numElems / 2) 0 soapySdrCs16
    show (stores (writeOut _ _ _ _ _ _)).length ≤ _
    omega

/-- A call for the rest of the remainder, or more. -/
theorem writeStream_full (hx : Cs16Stream x.txStream) (hrem : 0 ≤ x.txStream.remainderHandle)
    (c : WriteCall) (hc : x.txStream.remainderSamps ≤ c.numElems)
    (hle : x.txStream.remainderSamps ≤ getStreamMTU .reader) :
    Proc.Returns (fun r _ => Releases x.txStream.remainderSamps r.log)
      (writeStream .tx c.buffs c.numElems c.timeoutUs : Dev n WriteResult) x := by
  unfold writeStream
  rw [if_neg (by simp)]
  refine Proc.Returns.bind (Proc.Returns.get ?_)
  dsimp only
  have hn : min x.txStream.remainderSamps (min c.numElems (getStreamMTU .reader)) =
      x.txStream.remainderSamps := by omega
  rw [if_pos hrem, hn, hx.1, hx.2, zipIdx_channels]
  refine Proc.Returns.bind ((returns_produce _).mono fun released x' hp => ?_)
  rw [hp.full (Nat.le_refl _)]
  have hreleases : Releases x.txStream.remainderSamps
      (writeOut c.buffs (x.txStream.remainderBuff + x.txStream.remainderOffset * bytesPerSample)
        (x.txStream.remainderSamps / 2) 0 soapySdrCs16 [(0, 0), (1, 1)] ++
          [.released x.txStream.remainderHandle]) := by
    have := length_stores_writeOut c.buffs (x.txStream.remainderBuff +
      x.txStream.remainderOffset * bytesPerSample) (x.txStream.remainderSamps / 2) 0 soapySdrCs16
    exact ⟨_, _, [], rfl, by omega⟩
  split
  · exact Proc.Returns.pure hreleases
  · refine (returns_writeFresh ⟨hp.format.trans hx.1, hp.channels.trans hx.2⟩ _ _ _ _ _).mono
      fun r x'' h => ?_
    cases h.1 with
    | failed hlog hret =>
      rw [hlog]
      exact hreleases
    | wrote st₁ released' hret hhandle hsamps hproduced hlog =>
      rw [hlog, List.append_assoc]
      exact hreleases.append _

/-- A call on an activated stream without a remainder: for a whole buffer or more, or for less. -/
inductive FirstCall (c : WriteCall) (r : WriteResult) (st' : Stream) : Prop where
  | whole (hbig : getStreamMTU .reader ≤ c.numElems)
      (hreleases : Releases (2 * getStreamMTU .reader) r.log)
  | part (buff : Nat) (hsmall : c.numElems < getStreamMTU .reader) (hret : r.ret = c.numElems)
      (hlog : r.log = .acquired 0 :: writeOut c.buffs buff c.numElems 0 soapySdrCs16 [(0, 0), (1, 1)])
      (hhandle : st'.remainderHandle = 0)
      (hsamps : st'.remainderSamps = getStreamMTU .reader - c.numElems)

theorem writeStream_first (hx : Cs16Stream x.txStream) (hrem : x.txStream.remainderHandle < 0)
    (huser : x.txStream.userCount = 0) (c : WriteCall) :
    Proc.Returns (fun r x' => (r.ret = soapySdrTimeout ∨ r.ret = soapySdrUnderflow ∨
        FirstCall c r x'.txStream) ∧ Cs16Stream x'.txStream)
      (writeStream .tx c.buffs c.numElems c.timeoutUs : Dev n WriteResult) x := by
  unfold writeStream
  rw [if_neg (by simp)]
  refine Proc.Returns.bind (Proc.Returns.get ?_)
  dsimp only
  rw [if_neg (by omega)]
  refine (returns_writeFresh hx _ _ _ _ _).mono fun r x' h => ⟨?_, h.2⟩
  cases h.1 with
  | failed hlog hret =>
    rcases hret rfl with h | h
    · exact .inl h
    · exact .inr (.inl h)
  | wrote st₁ released hret hhandle hsamps hp hlog =>
    rw [huser] at hhandle hlog
    rw [Nat.sub_zero] at hlog hp
    by_cases hbig : getStreamMTU .reader ≤ c.numElems
    · have hn : min (min c.numElems (getStreamMTU .reader)) (getStreamMTU .reader) =
          getStreamMTU .reader := by omega
      rw [hn] at hlog hp
      rw [hp.full (by omega)] at hlog
      refine .inr (.inr (.whole hbig ⟨_, _, [], hlog, ?_⟩))
      exact length_stores_writeOut c.buffs st₁.remainderBuff (getStreamMTU .reader) 0 soapySdrCs16
    · have hn : min (min c.numElems (getStreamMTU .reader)) (getStreamMTU .reader) = c.numElems := by
        omega
      rw [hn] at hlog hp
      obtain ⟨rfl, hhandle', hsamps'⟩ := hp.part (by omega)
      rw [List.append_nil, List.nil_append] at hlog
      refine .inr (.inr (.part st₁.remainderBuff (by omega) ?_ hlog ?_ ?_))
      · rw [hret]
        omega
      · rw [hhandle', hhandle, toInt32_zero]
      · rw [hsamps', hsamps]

end

section

variable {c : WriteCall} {r : WriteResult} {buff : Nat}

/-- A first call for an odd number of elements reads only these. -/
theorem plain_of_odd (hret : r.ret = c.numElems)
    (hlog : r.log = .acquired 0 :: writeOut c.buffs buff c.numElems 0 soapySdrCs16 [(0, 0), (1, 1)])
    (hodd : c.numElems = 0 ∨ c.numElems % 2 = 1) : Plain (c, r) := by
  refine ⟨hret, fun handle hmem => ?_, fun ch index hmem => ?_⟩
  · dsimp only at hmem
    rw [hlog] at hmem
    rcases List.mem_cons.mp hmem with h | h
    · cases h
    · exact released_notMem_writeOut h
  · dsimp only at hmem ⊢
    rw [hlog] at hmem
    rcases List.mem_cons.mp hmem with h | h
    · cases h
    · rcases mem_writeOut h with ⟨ch', hch, i, hi, b, hb, he⟩ | ⟨a, v, he⟩
      · cases he
        have := mem_deinterleaveIndices_iff.mp hi
        omega
      · cases he

/-- For an even number of elements, the element of `buffs[1]` after them is read. -/
theorem load_of_even
    (hlog : r.log = .acquired 0 :: writeOut c.buffs buff c.numElems 0 soapySdrCs16 [(0, 0), (1, 1)])
    (h0 : c.numElems ≠ 0) (heven : c.numElems % 2 = 0) : .load 1 (2 * c.numElems) ∈ r.log := by
  rw [hlog]
  refine List.mem_cons_of_mem _ (List.mem_flatMap.mpr ⟨(1, 1), by simp, ?_⟩)
  refine List.mem_flatMap.mpr ⟨c.numElems - 1, ?_, ?_⟩
  · exact mem_deinterleaveIndices_iff.mpr ⟨by omega, by omega, by omega⟩
  · have hindex : 2 * c.numElems =
        (0 + 1) * bytesPerSample + (c.numElems - 1) * bytesPerSample := by
      unfold bytesPerSample
      omega
    rw [hindex]
    exact List.mem_cons_self

end

/-! ## Runs -/

theorem logOf_zip_cons (c : WriteCall) (calls : List WriteCall) (r : WriteResult)
    (rs : List WriteResult) :
    logOf ((c :: calls).zip (r :: rs)) = r.log ++ logOf (calls.zip rs) := rfl

theorem returns_length_writeAll (s : StreamPtr) (calls : List WriteCall) (x : SoapyLiteXXTRX) :
    Proc.Returns (fun rs _ => rs.length = calls.length)
      (writeAll s calls : Dev n (List WriteResult)) x := by
  induction calls generalizing x with
  | nil => exact Proc.Returns.pure rfl
  | cons c calls ih =>
    refine Proc.Returns.bind (Proc.Returns.of_forall (fun r x₁ => Proc.Returns.bind ?_) _ x)
    exact (ih x₁).mono fun rs x₂ h => Proc.Returns.pure (congrArg Nat.succ h)

/-- The calls on a stream with a remainder are plain, or a buffer is released. -/
def RestOutcome (st : Stream) (calls : List WriteCall) (rs : List WriteResult) : Prop :=
  ((calls.map WriteCall.numElems).sum < st.remainderSamps → ∀ t ∈ calls.zip rs, Plain t) ∧
    (st.remainderSamps ≤ (calls.map WriteCall.numElems).sum →
      Releases st.remainderSamps (logOf (calls.zip rs)))

theorem returns_writeRest {x : SoapyLiteXXTRX} (hx : Cs16Stream x.txStream)
    (hrem : 0 ≤ x.txStream.remainderHandle) (hpos : 0 < x.txStream.remainderSamps)
    (hle : x.txStream.remainderSamps ≤ getStreamMTU .reader) (calls : List WriteCall) :
    Proc.Returns (fun rs _ => RestOutcome x.txStream calls rs)
      (writeAll .tx calls : Dev n (List WriteResult)) x := by
  induction calls generalizing x with
  | nil =>
    refine Proc.Returns.pure ⟨fun _ t ht => absurd ht List.not_mem_nil, fun h => ?_⟩
    exact absurd h (Nat.not_le_of_lt hpos)
  | cons c calls ih =>
    unfold RestOutcome
    rw [List.map_cons, List.sum_cons]
    by_cases hc : c.numElems < x.txStream.remainderSamps
    · refine Proc.Returns.bind ((writeStream_part hx hrem c hc hle).mono fun r x₁ h => ?_)
      obtain ⟨hplain, hstores, hx₁, hhandle, hsamps⟩ := h
      refine Proc.Returns.bind ((ih hx₁ (by omega) (by omega) (by omega)).mono fun rs x₂ h => ?_)
      unfold RestOutcome at h
      rw [hsamps] at h
      refine Proc.Returns.pure ⟨fun hsum => ?_, fun hsum => ?_⟩
      · exact List.forall_mem_cons.mpr ⟨hplain, h.1 (by omega)⟩
      · rw [logOf_zip_cons]
        exact (h.2 (by omega)).cons_append r.log (by omega)
    · refine Proc.Returns.bind ((writeStream_full hx hrem c (by omega) hle).mono fun r x₁ h => ?_)
      refine Proc.Returns.bind (Proc.Returns.of_forall (fun rs x₂ => Proc.Returns.pure ?_) _ x₁)
      refine ⟨fun hsum => ?_, fun _ => ?_⟩
      · omega
      · rw [logOf_zip_cons]
        exact h.append _

/-- The calls fit in the current buffer, a whole one if there is no remainder; then the first call is
for no element or for an odd number of elements. -/
def Fits (st : Stream) (calls : List WriteCall) : Prop :=
  (calls.map WriteCall.numElems).sum <
      (if st.remainderHandle < 0 then getStreamMTU .reader else st.remainderSamps) ∧
    (st.remainderHandle < 0 → ∀ c ∈ calls.head?, c.numElems = 0 ∨ c.numElems % 2 = 1)

/-- The remainder of a stream: part of a buffer, unless there is none. -/
structure Remainder (st : Stream) : Prop where
  pos : 0 ≤ st.remainderHandle → 0 < st.remainderSamps
  le : st.remainderSamps ≤ getStreamMTU .reader

/-- The calls do as they should, or a buffer is released with stale bytes, or a value past the
elements is read. -/
def Outcome (st : Stream) (calls : List WriteCall) (rs : List WriteResult) : Prop :=
  (Fits st calls → ∀ t ∈ calls.zip rs, Plain t) ∧
    (¬ Fits st calls → Releases (2 * getStreamMTU .reader) (logOf (calls.zip rs)) ∨
      ∃ t ∈ calls.zip rs, .load 1 (2 * t.1.numElems) ∈ t.2.log)

theorem returns_writeAll {x : SoapyLiteXXTRX} (hx : Cs16Stream x.txStream)
    (hrem : Remainder x.txStream) (huser : x.txStream.userCount = 0) (calls : List WriteCall) :
    Proc.Returns (fun rs _ => (∀ r ∈ rs, r.ret ≠ soapySdrTimeout ∧ r.ret ≠ soapySdrUnderflow) →
        Outcome x.txStream calls rs)
      (writeAll .tx calls : Dev n (List WriteResult)) x := by
  have hmtu : 0 < getStreamMTU .reader := by decide
  unfold Outcome Fits
  by_cases hneg : x.txStream.remainderHandle < 0
  · rw [if_pos hneg]
    cases calls with
    | nil =>
      refine Proc.Returns.pure fun _ => ⟨fun _ t ht => absurd ht List.not_mem_nil, fun h => ?_⟩
      exact absurd ⟨hmtu, fun _ c hc => by cases hc⟩ h
    | cons c calls =>
      refine Proc.Returns.bind ((writeStream_first hx hneg huser c).mono fun r x₁ h => ?_)
      obtain ⟨hfirst, hx₁⟩ := h
      rw [List.map_cons, List.sum_cons]
      rcases hfirst with h | h | hfirst
      · refine Proc.Returns.bind (Proc.Returns.of_forall (fun rs x₂ => Proc.Returns.pure ?_) _ x₁)
        exact fun hok => absurd h (hok r List.mem_cons_self).1
      · refine Proc.Returns.bind (Proc.Returns.of_forall (fun rs x₂ => Proc.Returns.pure ?_) _ x₁)
        exact fun hok => absurd h (hok r List.mem_cons_self).2
      · cases hfirst with
        | whole hbig hreleases =>
          refine Proc.Returns.bind (Proc.Returns.of_forall (fun rs x₂ => Proc.Returns.pure ?_) _ x₁)
          rw [logOf_zip_cons]
          exact fun _ => ⟨fun h => by omega, fun _ => .inl (hreleases.append _)⟩
        | part buff hsmall hret hlog hhandle hsamps =>
          have hrest := returns_writeRest (n := n) hx₁ (by omega) (by omega) (by omega) calls
          refine Proc.Returns.bind (hrest.mono fun rs x₂ h => Proc.Returns.pure fun _ => ?_)
          obtain ⟨hplain, hreleases⟩ := h
          rw [hsamps] at hplain hreleases
          rw [logOf_zip_cons]
          refine ⟨fun hfits => ?_, fun hnot => ?_⟩
          · have hodd := hfits.2 hneg c rfl
            exact List.forall_mem_cons.mpr ⟨plain_of_odd hret hlog hodd, hplain (by omega)⟩
          · by_cases heven : c.numElems ≠ 0 ∧ c.numElems % 2 = 0
            · exact .inr ⟨(c, r), List.mem_cons_self, load_of_even hlog heven.1 heven.2⟩
            · have hodd : c.numElems = 0 ∨ c.numElems % 2 = 1 := by omega
              have hsum : getStreamMTU .reader - c.numElems ≤
                  (calls.map WriteCall.numElems).sum := by
                by_contra hlt
                exact hnot ⟨by omega, fun _ c' hc' => by cases hc'; exact hodd⟩
              have hstores := length_stores_writeOut c.buffs buff c.numElems 0 soapySdrCs16
              have hlen : (stores r.log).length ≤ 2 * c.numElems := by
                rw [hlog]
                exact hstores
              exact .inl ((hreleases hsum).cons_append r.log (by omega))
  · rw [if_neg hneg]
    have hle := hrem.le
    refine (returns_writeRest hx (by omega) (hrem.pos (by omega)) hle calls).mono fun rs x' h _ => ?_
    refine ⟨fun hfits => h.1 hfits.1, fun hnot => .inl ?_⟩
    have hsum : x.txStream.remainderSamps ≤ (calls.map WriteCall.numElems).sum := by
      by_contra hlt
      exact hnot ⟨by omega, fun h => absurd h hneg⟩
    exact (h.2 hsum).cons_append [] (by simp only [stores, List.filterMap_nil, List.length_nil]; omega)

/-- `setupStream` and `activateStream` set the format and the channels, start the count of buffers,
and keep the remainder. -/
structure Started (st st' : Stream) : Prop where
  cs16 : Cs16Stream st'
  user : st'.userCount = 0
  handle : st'.remainderHandle = st.remainderHandle
  samps : st'.remainderSamps = st.remainderSamps

theorem returns_litepcieRequestDma {x : SoapyLiteXXTRX} {reader writer : Bool}
    {R : Bool → SoapyLiteXXTRX → Prop} (h : ∀ available, R available x) :
    Proc.Returns R (litepcieRequestDma reader writer : Dev n Bool) x := by
  refine Proc.Returns.bind (returns_checkedIoctl fun resp => ?_)
  cases resp with
  | none => exact Proc.Returns.pure (h false)
  | some status => exact Proc.Returns.pure (h status.1)

theorem returns_writeClient {x : SoapyLiteXXTRX} {calls : List WriteCall}
    {R : List WriteResult → SoapyLiteXXTRX → Prop}
    (h : ∀ x', Started x.txStream x'.txStream →
      Proc.Returns R (writeAll .tx calls : Dev n (List WriteResult)) x') :
    Proc.Returns R (writeClient calls : Dev n (List WriteResult)) x := by
  unfold writeClient setupStream
  rw [if_neg (by decide), if_pos rfl]
  refine Proc.Returns.bind (Proc.Returns.bind (Proc.Returns.get ?_))
  split
  · exact Proc.Returns.halt _
  refine Proc.Returns.bind (returns_litepcieRequestDma fun available => ?_)
  split
  · exact Proc.Returns.halt _
  refine Proc.Returns.bind (Proc.Returns.sys fun mapped => ?_)
  change Bool at mapped
  split
  · exact Proc.Returns.halt _
  refine Proc.Returns.bind (returns_dmaCounts fun hw sw => ?_)
  refine Proc.Returns.bind (Proc.Returns.modify (Proc.Returns.pure ?_))
  refine Proc.Returns.bind (Proc.Returns.bind (returns_dmaCounts fun hw' sw' => ?_))
  refine Proc.Returns.bind (Proc.Returns.modify (Proc.Returns.bind (Proc.Returns.get ?_)))
  refine Proc.Returns.bind (Proc.Returns.modify (Proc.Returns.pure (h _ ?_)))
  exact ⟨⟨rfl, rfl⟩, rfl, rfl, rfl⟩

/-- A run of the client. -/
theorem outcome_writeClient {fd : Nat} {calls : List WriteCall} {x x' : SoapyLiteXXTRX}
    {k k' : Driver n} {es : List (Ev (Irq n) Choice)} {rs : List WriteResult}
    (hrem : Remainder x.txStream)
    (hr : (kernelWorld n fd).exec (writeClient calls x) es k = some ((.ok rs, x'), k'))
    (hok : ∀ r ∈ rs, r.ret ≠ soapySdrTimeout ∧ r.ret ≠ soapySdrUnderflow) :
    Outcome x.txStream calls rs := by
  refine World.exec_returns (returns_writeClient
    (R := fun rs _ => (∀ r ∈ rs, r.ret ≠ soapySdrTimeout ∧ r.ret ≠ soapySdrUnderflow) →
      Outcome x.txStream calls rs) fun x₁ hs => ?_) hr rs rfl hok
  have hrem₁ : Remainder x₁.txStream := by
    refine ⟨fun hpos => ?_, ?_⟩
    · rw [hs.handle] at hpos
      rw [hs.samps]
      exact hrem.pos hpos
    · rw [hs.samps]
      exact hrem.le
  have hfits : Fits x₁.txStream calls ↔ Fits x.txStream calls := by
    unfold Fits
    rw [hs.handle, hs.samps]
  refine (returns_writeAll hs.cs16 hrem₁ hs.user calls).mono fun rs x₂ h hok => ?_
  obtain ⟨hplain, hnot⟩ := h hok
  exact ⟨fun hf => hplain (hfits.mpr hf), fun hf => hnot (mt hfits.mp hf)⟩

theorem Outcome.not_transmits {α : Type} {layout : Nat → (Nat → Option (BitVec 8)) → List α}
    {elem : BitVec 16 × BitVec 16 → α} {st : Stream} {calls : List WriteCall}
    {rs : List WriteResult} (h : Outcome st calls rs) (hfits : ¬ Fits st calls) :
    ¬ Transmits layout elem (calls.zip rs) := by
  intro htrans
  rcases h.2 hfits with hreleases | ⟨t, ht, hload⟩
  · exact hreleases.not_whole (by decide) htrans.whole
  · exact absurd (htrans.inBounds t ht 1 _ hload) (by omega)

/-- The calls transmit their samples, however these lie in the buffers, exactly if they fit in the
buffer that is acquired first and the first of them is for no element or for an odd number. -/
theorem writeStream_transmits_iff {α : Type} (layout : Nat → (Nat → Option (BitVec 8)) → List α)
    (elem : BitVec 16 × BitVec 16 → α) (fd : Nat) (calls : List WriteCall) (x x' : SoapyLiteXXTRX)
    (k k' : Driver n) (es : List (Ev (Irq n) Choice)) (rs : List WriteResult)
    (hrem : Remainder x.txStream)
    (hr : (kernelWorld n fd).exec (writeClient calls x) es k = some ((.ok rs, x'), k'))
    (hok : ∀ r ∈ rs, r.ret ≠ soapySdrTimeout ∧ r.ret ≠ soapySdrUnderflow) :
    Transmits layout elem (calls.zip rs) ↔ Fits x.txStream calls := by
  have hlen : rs.length = calls.length :=
    World.exec_returns (returns_writeClient fun x₁ _ => returns_length_writeAll .tx calls x₁) hr rs rfl
  have hout := outcome_writeClient hrem hr hok
  refine ⟨fun htrans => by_contra fun hfits => hout.not_transmits hfits htrans, fun hfits => ?_⟩
  refine Transmits.of_plain (hout.1 hfits) ?_
  have hsum : ((calls.zip rs).map fun t => t.1.numElems) = calls.map WriteCall.numElems := by
    have hfst : (calls.zip rs).map Prod.fst = calls := List.map_fst_zip (by omega)
    conv_rhs => rw [← hfst, List.map_map]
    rfl
  rw [hsum]
  refine Nat.lt_of_lt_of_le hfits.1 ?_
  split
  · exact Nat.le_refl _
  · exact hrem.le

theorem remainder_new (hwCount swCount userCount : Int) :
    Remainder (Stream.new hwCount swCount userCount) :=
  ⟨fun h => absurd h (by show ¬ (0 : Int) ≤ -1; decide), Nat.zero_le _⟩

/-- The results of the client on a new device object, after `m` system calls. -/
def writeResults (m : Nat) (calls : List WriteCall) : Option (List WriteResult) :=
  ((kernelWorld 1 3).exec (writeClient calls newDevice) (List.replicate m (.thr .ready)) oneOpen).bind
    fun r => r.1.1.toOption

theorem writeResults_exec (m : Nat) (calls : List WriteCall) (rs : List WriteResult)
    (h : writeResults m calls = some rs) :
    ∃ x' k', (kernelWorld 1 3).exec (writeClient calls newDevice)
      (List.replicate m (.thr .ready)) oneOpen = some ((.ok rs, x'), k') := by
  obtain ⟨⟨⟨e | rs', x'⟩, k'⟩, hr, hrs⟩ := Option.bind_eq_some_iff.mp h
  · cases hrs
  · cases hrs
    exact ⟨x', k', hr⟩

theorem writeStream_transmits_iff_three :
    Transmits (fun _ _ => []) (fun e => e)
        ([⟨fun _ _ => 0, 1, 0⟩, ⟨fun _ _ => 0, 2, 0⟩].zip
          [⟨1, [.acquired 0, .load 0 0, .store 0 0, .load 0 1, .store 1 0]⟩,
            ⟨2, [.load 0 0, .store 2 0, .load 0 1, .store 3 0]⟩]) ↔
      Fits newDevice.txStream [⟨fun _ _ => 0, 1, 0⟩, ⟨fun _ _ => 0, 2, 0⟩] := by
  obtain ⟨x', k', hr⟩ := writeResults_exec 5 [⟨fun _ _ => 0, 1, 0⟩, ⟨fun _ _ => 0, 2, 0⟩]
    [⟨1, [.acquired 0, .load 0 0, .store 0 0, .load 0 1, .store 1 0]⟩,
      ⟨2, [.load 0 0, .store 2 0, .load 0 1, .store 3 0]⟩] (by decide +kernel)
  exact writeStream_transmits_iff _ _ 3 _ newDevice x' oneOpen k' _ _
    (remainder_new 0 0 0) hr (by decide)

/-- A call for a whole buffer: three quarters of it are stale when it is released. -/
theorem writeStream_stale :
    ¬ ∃ (α : Type) (layout : Nat → (Nat → Option (BitVec 8)) → List α)
        (elem : BitVec 16 × BitVec 16 → α), ∀ calls es rs x' k',
      (kernelWorld 1 3).exec (writeClient calls newDevice) es oneOpen =
        some ((.ok rs, x'), k') →
      (∀ r ∈ rs, r.ret ≠ soapySdrTimeout ∧ r.ret ≠ soapySdrUnderflow) →
      Transmits layout elem (calls.zip rs) := by
  rintro ⟨α, layout, elem, h⟩
  have hrets : (writeResults 6 [⟨fun _ _ => 0, 8192, 0⟩]).map (List.map WriteResult.ret) =
      some [8192] := by
    decide +kernel
  obtain ⟨rs, hrs, hret⟩ := Option.map_eq_some_iff.mp hrets
  obtain ⟨x', k', hr⟩ := writeResults_exec 6 _ rs hrs
  have hok : ∀ r ∈ rs, r.ret ≠ soapySdrTimeout ∧ r.ret ≠ soapySdrUnderflow := by
    intro r hmem
    have hr : r.ret ∈ [(8192 : Int)] := hret ▸ List.mem_map_of_mem hmem
    rw [List.mem_singleton.mp hr]
    decide
  refine (outcome_writeClient (remainder_new 0 0 0) hr hok).not_transmits ?_ (h _ _ _ _ _ hr hok)
  exact fun hfits => absurd hfits.1 (by decide)

end Soapy
end Xtrx
