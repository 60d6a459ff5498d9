import Xtrx.Lib.Machine
import Xtrx.User.DmaCtrl

/-!
# The test program (`litepcie-user-library/litepcie_test.c`)

`litepcie_record` and `litepcie_play` have the same loop: each turn calls `litepcie_dma_process` and
then takes buffers until there is none left; what is done with a buffer may ask the loop to stop.
Their statistics are left out.

- **`testLoop`**: the loop as a machine. What `litepcie_dma_process` leaves in the structure is given
  by a `Board`: the driver (`driverBoard`) or any other, so the batches are arbitrary. The loop
  records the buffers that it takes (`Turn`), whatever is done with them.
- **`recordBuffer`**, **`record_prefix`**: the recorded file is the beginning of what was handed out,
  `size` bytes of it, and then the loop ends.
- **`playBuffer`**, **`play_cyclic_iff`**: the end of the file is handled once in a buffer. A buffer
  of which the file's bytes run out twice keeps bytes from before; `play_stale` is one.
-/

namespace Xtrx
namespace User

open Conc Kernel

variable {n : Nat}

/-! ## The loop -/

/-- What is under the loop: `litepcie_dma_process` with the events `π` on a board in a state `τ`. -/
structure Board (π τ : Type) where
  process : π → LitepcieDmaCtrl × τ → Option (LitepcieDmaCtrl × τ)

/-- The driver. -/
def driverBoard (i : Fin n) (fd : Nat) : Board (List (Ev (Irq n) Choice)) (Driver n) where
  process es z :=
    match (ctrlWorld i fd).exec (litepcieDmaProcess z.1) es z.2 with
    | some ((.ok _, dma), k) => some (dma, k)
    | _ => none

/-- A board that leaves anything in the structure. -/
def anyBoard : Board LitepcieDmaCtrl Unit where
  process dma z := some (dma, z.2)

/-- A turn of the inner loop: what the event says of the buffer, where it is, and the state of the
program before and after. -/
structure Turn (ι σ : Type) where
  input : ι
  buf : Ptr
  before : σ
  after : σ

/-- The program: `keep_running`, if it is in the inner loop, and what it does with the buffers.
Recorded for the proofs: the buffers that were taken. -/
structure TestState (τ ι σ : Type) where
  dma : LitepcieDmaCtrl
  board : τ
  keepRunning : Bool
  inner : Bool
  io : σ
  turns : List (Turn ι σ)

inductive TestEv (π ι : Type) where
  /-- A new turn: `litepcie_dma_process`. -/
  | process (es : π)
  /-- The next buffer. -/
  | next (i : ι)
  /-- `intHandler`. -/
  | sigint

/-- The loop: `body` takes a buffer, and its answer is if the loop is to stop. -/
def testLoop {π τ ι σ : Type} (B : Board π τ) (d : Dir) (body : ι → Ptr → σ → Bool × σ) :
    Machine (TestState τ ι σ) (TestEv π ι) where
  step
    | s, .process es =>
      if s.inner ∨ ¬ s.keepRunning then none
      else (B.process es (s.dma, s.board)).map fun z =>
        { s with dma := z.1, board := z.2, inner := true }
    | s, .next i =>
      if ¬ s.inner then none
      else match nextBuffer d s.dma with
        -- break when no buffer is available
        | (none, dma) => some { s with dma := dma, inner := false }
        | (some buf, dma) =>
          let (stop, io) := body i buf s.io
          some
            { s with
              dma := dma
              io := io
              keepRunning := s.keepRunning && !stop
              turns := s.turns ++ [⟨i, buf, s.io, io⟩] }
    | s, .sigint => some { s with keepRunning := false }

/-- The beginning, with `litepcie_dma_init` done. -/
def TestState.start {τ ι σ : Type} (dma : LitepcieDmaCtrl) (board : τ) (io : σ) :
    TestState τ ι σ where
  dma := dma
  board := board
  keepRunning := true
  inner := false
  io := io
  turns := []

section

variable {π τ ι σ : Type} {B : Board π τ} {d : Dir} {body : ι → Ptr → σ → Bool × σ}
  {s s' : TestState τ ι σ}

/-- A step takes a buffer, or leaves what was done with the buffers as it is. -/
theorem testLoop_step {e : TestEv π ι} (h : (testLoop B d body).step s e = some s') :
    (s'.io = s.io ∧ s'.turns = s.turns ∧ (s'.keepRunning = true → s.keepRunning = true)) ∨
      ∃ i buf, s'.io = (body i buf s.io).2 ∧
        s'.turns = s.turns ++ [⟨i, buf, s.io, (body i buf s.io).2⟩] ∧
        s'.keepRunning = (s.keepRunning && !(body i buf s.io).1) := by
  cases e with
  | process es =>
    simp only [testLoop] at h
    split at h
    · cases h
    · obtain ⟨z, -, rfl⟩ := Option.map_eq_some_iff.mp h
      exact .inl ⟨rfl, rfl, id⟩
  | next i =>
    simp only [testLoop] at h
    split at h
    · cases h
    · split at h
      · cases h
        exact .inl ⟨rfl, rfl, id⟩
      · rename_i buf dma _
        cases h
        exact .inr ⟨i, buf, rfl, rfl, rfl⟩
  | sigint =>
    cases h
    exact .inl ⟨rfl, rfl, fun h => by cases h⟩

/-- What the body keeps of its state and of the buffers taken, the loop keeps. -/
theorem testLoop_inv {P : Bool → List (Turn ι σ) → σ → Prop} {es : List (TestEv π ι)}
    (hstop : ∀ ts x, P true ts x → P false ts x)
    (hbody : ∀ keep ts i buf x, P keep ts x →
      P (keep && !(body i buf x).1) (ts ++ [⟨i, buf, x, (body i buf x).2⟩]) (body i buf x).2)
    (hs : P s.keepRunning s.turns s.io) (hr : (testLoop B d body).run es s = some s') :
    P s'.keepRunning s'.turns s'.io := by
  refine Machine.run_inv (I := fun s : TestState τ ι σ => P s.keepRunning s.turns s.io) ?_ hs hr
  intro s₁ e s₂ h₁ hstep
  rcases testLoop_step hstep with ⟨hio, hturns, hkeep⟩ | ⟨i, buf, hio, hturns, hkeep⟩
  · rw [hio, hturns]
    cases hk : s₂.keepRunning with
    | true => exact hkeep hk ▸ h₁
    | false =>
      cases hk₁ : s₁.keepRunning with
      | true => exact hstop _ _ (hk₁ ▸ h₁)
      | false => exact hk₁ ▸ h₁
  · rw [hio, hturns, hkeep]
    exact hbody _ _ _ _ _ h₁

/-- Without `keep_running` there is no further turn. -/
theorem testLoop_over (h : s.keepRunning = false) (es : π) :
    (testLoop B d body).step s (.process es) = none := by
  simp [testLoop, h]

end

/-! ## `litepcie_record` -/

/-- `fo` (no file without a name) and `total_len`. -/
structure Record where
  fo : Option (List (BitVec 8))
  totalLen : BitVec 64

def Record.start (fo : Option (List (BitVec 8))) : Record := ⟨fo, 0⟩

/-- `fmin` of a length and the size of a buffer. The rounding of the first to a `double` does not
change the result. -/
def fmin (len : BitVec 64) (size : Nat) : Nat := min len.toNat size

/-- The bytes of a buffer. -/
def bufferBytes (mem : Ptr → BitVec 8) (buf : Ptr) : List (BitVec 8) :=
  (List.range dmaBufferSize).map fun j => mem (buf.add j)

/-- What `litepcie_record` does with a buffer; `mem` is the memory at this time. -/
def recordBuffer (size : BitVec 32) (mem : Ptr → BitVec 8) (buf : Ptr) (s : Record) :
    Bool × Record :=
  -- copy read data to file
  let s := match s.fo with
    | some file =>
      let len := fmin (size.setWidth 64 - s.totalLen) dmaBufferSize
      { s with
        fo := some (file ++ (bufferBytes mem buf).take len)
        totalLen := s.totalLen + BitVec.ofNat 64 len }
    | none => s
  -- stop when specified size is reached
  (size > 0 ∧ s.totalLen ≥ size.setWidth 64, s)

/-- The machine of `litepcie_record`. -/
abbrev recordLoop {π τ : Type} (B : Board π τ) (size : BitVec 32) :
    Machine (TestState τ (Ptr → BitVec 8) Record) (TestEv π (Ptr → BitVec 8)) :=
  testLoop B .writer (recordBuffer size)

/-- The contents of a buffer when the loop took it. -/
def Turn.contents (t : Turn (Ptr → BitVec 8) Record) : List (BitVec 8) := bufferBytes t.input t.buf

/-- The bytes that were handed out. -/
def handed (ts : List (Turn (Ptr → BitVec 8) Record)) : List (BitVec 8) :=
  (ts.map Turn.contents).flatten

theorem handed_append (ts : List (Turn (Ptr → BitVec 8) Record)) (t : Turn (Ptr → BitVec 8) Record) :
    handed (ts ++ [t]) = handed ts ++ t.contents := by
  simp [handed]

theorem length_bufferBytes (mem : Ptr → BitVec 8) (buf : Ptr) :
    (bufferBytes mem buf).length = dmaBufferSize := by
  simp [bufferBytes]

theorem take_append_min {α : Type} {xs ys : List α} {k t : Nat} (ht : t = min k xs.length) :
    (xs ++ ys).take k = xs.take k ++ ys.take (min (k - t) ys.length) := by
  have hys : ys.take (k - xs.length) = ys.take (min (k - t) ys.length) := by
    rw [List.take_eq_take_iff]
    omega
  rw [List.take_append, hys]

/-- The file has the beginning of what was handed out, and `total_len` is its length. -/
structure Recorded (size : BitVec 32) (keep : Bool) (ts : List (Turn (Ptr → BitVec 8) Record))
    (s : Record) : Prop where
  file : s.fo = some ((handed ts).take size.toNat)
  total : s.totalLen.toNat = ((handed ts).take size.toNat).length
  le : ∀ t ∈ ts, t.before.totalLen.toNat ≤ size.toNat
  stop : keep = true → s.totalLen.toNat < size.toNat

/-- One buffer. -/
theorem recordBuffer_recorded {size : BitVec 32} {keep : Bool}
    {ts : List (Turn (Ptr → BitVec 8) Record)} {s : Record} (h : Recorded size keep ts s)
    (mem : Ptr → BitVec 8) (buf : Ptr) :
    Recorded size (keep && !(recordBuffer size mem buf s).1)
      (ts ++ [⟨mem, buf, s, (recordBuffer size mem buf s).2⟩]) (recordBuffer size mem buf s).2 := by
  have hsize : size.toNat < 2 ^ 32 := size.isLt
  have hbytes := length_bufferBytes mem buf
  have htotal := h.total
  rw [List.length_take] at htotal
  have hsub : (size.setWidth 64 - s.totalLen).toNat = size.toNat - s.totalLen.toNat := by
    rw [BitVec.toNat_sub, BitVec.toNat_setWidth_of_le (by decide)]
    omega
  have hlen : fmin (size.setWidth 64 - s.totalLen) dmaBufferSize =
      min (size.toNat - s.totalLen.toNat) dmaBufferSize := by
    rw [fmin, hsub]
  have htake : (handed ts ++ bufferBytes mem buf).take size.toNat =
      (handed ts).take size.toNat ++
        (bufferBytes mem buf).take (min (size.toNat - s.totalLen.toNat) dmaBufferSize) := by
    rw [← hbytes]
    exact take_append_min htotal
  have hnew : (s.totalLen + BitVec.ofNat 64 (min (size.toNat - s.totalLen.toNat)
      dmaBufferSize)).toNat = s.totalLen.toNat + min (size.toNat - s.totalLen.toNat) dmaBufferSize := by
    rw [BitVec.toNat_add, BitVec.toNat_ofNat]
    omega
  have hbody : (recordBuffer size mem buf s).2 =
      ⟨some ((handed ts).take size.toNat ++
        (bufferBytes mem buf).take (min (size.toNat - s.totalLen.toNat) dmaBufferSize)),
        s.totalLen + BitVec.ofNat 64 (min (size.toNat - s.totalLen.toNat) dmaBufferSize)⟩ := by
    simp only [recordBuffer, h.file, hlen]
  refine ⟨?_, ?_, ?_, ?_⟩
  · rw [handed_append, Turn.contents, htake, hbody]
  · rw [handed_append, Turn.contents, htake, hbody]
    show (s.totalLen + _).toNat = _
    rw [hnew, List.length_append, h.total, List.length_take, List.length_take, hbytes]
    omega
  · intro t ht
    rcases List.mem_append.mp ht with hold | hlast
    · exact h.le t hold
    · rw [List.mem_singleton.mp hlast]
      show s.totalLen.toNat ≤ size.toNat
      omega
  · intro hkeep
    simp only [recordBuffer, h.file, Bool.and_eq_true, Bool.not_eq_true', decide_eq_false_iff_not,
      not_and, ge_iff_le, BitVec.not_le, BitVec.lt_def,
      BitVec.toNat_setWidth_of_le (show 32 ≤ 64 by decide)] at hkeep
    have hpos := h.stop hkeep.1
    have hgt : 0 < size.toNat := by omega
    simp only [recordBuffer, h.file]
    exact hkeep.2 hgt

/-- A run of `litepcie_record` with a size. The file is the first `min(size, total)` bytes of what
was handed out, `size - total_len` does not wrap at any buffer, and with `size` bytes in the file
there is no further turn. -/
theorem record_prefix {π τ : Type} (B : Board π τ) {size : BitVec 32} (hsize : 0 < size.toNat)
    (dma : LitepcieDmaCtrl) (board : τ) (es : List (TestEv π (Ptr → BitVec 8)))
    (s : TestState τ (Ptr → BitVec 8) Record)
    (hr : (recordLoop B size).run es (.start dma board (.start (some []))) = some s) :
    s.io.fo = some ((handed s.turns).take (min size.toNat (handed s.turns).length)) ∧
      (∀ t ∈ s.turns, t.before.totalLen.toNat ≤ size.toNat) ∧
      (∀ file, s.io.fo = some file → file.length = size.toNat →
        ∀ e, (recordLoop B size).step s (.process e) = none) := by
  have hrec : Recorded size s.keepRunning s.turns s.io := by
    refine testLoop_inv (fun ts x hx => { hx with stop := fun hf => by cases hf }) ?_ ?_ hr
    · intro keep ts mem buf x hx
      exact recordBuffer_recorded hx mem buf
    · exact ⟨by simp [handed, Record.start, TestState.start],
        by simp [handed, Record.start, TestState.start], nofun, fun _ => hsize⟩
  refine ⟨?_, hrec.le, fun file hf hlen e => ?_⟩
  · rw [hrec.file, List.take_eq_take_min]
  · refine testLoop_over ?_ e
    by_contra hkeep
    have hlt := hrec.stop (by simpa using hkeep)
    rw [hrec.total, ← Option.some.inj (hf.symm.trans hrec.file), hlen] at hlt
    exact Nat.lt_irrefl _ hlt

/-- Three buffers for a size of 65538: the file has the ones of the first and two bytes of the
second. -/
theorem record_prefix_ones :
    ∃ s, (recordLoop anyBoard 65538).run
        [.process ((LitepcieDmaCtrl.initial 0 1 0).modDir .writer
            fun c => { c with buffersAvailable := 3 }),
          .next fun _ => 1, .next fun _ => 2, .next fun _ => 3, .next fun _ => 4]
        (.start (.initial 0 1 0) () (.start (some []))) = some s ∧
      handed s.turns =
        List.replicate 65536 1 ++ (List.replicate 65536 2 ++ List.replicate 65536 3) ∧
      s.io.fo = some (List.replicate 65536 1 ++ [2, 2]) ∧
      (recordLoop anyBoard 65538).step s (.process (.initial 0 1 0)) = none := by
  obtain ⟨s, hs, p, q, r, hturns⟩ : ∃ s, (recordLoop anyBoard 65538).run
      [.process ((LitepcieDmaCtrl.initial 0 1 0).modDir .writer
          fun c => { c with buffersAvailable := 3 }),
        .next fun _ => 1, .next fun _ => 2, .next fun _ => 3, .next fun _ => 4]
      (.start (.initial 0 1 0) () (.start (some []))) = some s ∧
      ∃ p q r, s.turns.map Turn.contents =
        [bufferBytes (fun _ => 1) p, bufferBytes (fun _ => 2) q, bufferBytes (fun _ => 3) r] :=
    ⟨_, rfl, _, _, _, rfl⟩
  have hsame : ∀ (x : BitVec 8) (p : Ptr),
      bufferBytes (fun _ => x) p = List.replicate 65536 x := by
    intro x p
    exact List.map_const'.trans (congrArg (List.replicate · x) List.length_range)
  have hhanded : handed s.turns =
      List.replicate 65536 1 ++ (List.replicate 65536 2 ++ List.replicate 65536 3) := by
    rw [handed, hturns, hsame, hsame, hsame]
    simp only [List.flatten_cons, List.flatten_nil, List.append_nil]
  obtain ⟨hfile, -, hover⟩ := record_prefix anyBoard (by decide) _ _ _ _ hs
  have hbytes : s.io.fo = some (List.replicate 65536 1 ++ [2, 2]) := by
    have hend : ∀ k (xs : List (BitVec 8)),
        (List.replicate k 1 ++ xs).take (k + 2) = List.replicate k 1 ++ xs.take 2 := by
      intro k xs
      have h : (List.replicate k 1 ++ xs).take ((List.replicate k (1 : BitVec 8)).length + 2) = _ :=
        List.take_length_add_append 2
      rwa [List.length_replicate] at h
    rw [hfile, hhanded]
    simp only [List.length_append, List.length_replicate]
    exact congrArg some (hend 65536 _)
  refine ⟨s, hs, hhanded, hbytes, hover _ hbytes ?_ _⟩
  rw [List.length_append, List.length_replicate]
  rfl

/-! ## `litepcie_play` -/

/-- The position in `fo` and its end-of-file indicator, the memory, and `current_loop`. Recorded for
the proofs: where `fread` has stored bytes, and how many. -/
structure Play where
  pos : Nat
  eof : Bool
  mem : Ptr → BitVec 8
  currentLoop : BitVec 32
  stores : List (Ptr × Nat)

def Play.start (mem : Ptr → BitVec 8) : Play := ⟨0, false, mem, 0, []⟩

/-- The bytes from `dst` on are replaced. -/
def store (bytes : List (BitVec 8)) (dst : Ptr) (mem : Ptr → BitVec 8) : Ptr → BitVec 8 := fun p =>
  if p.region = dst.region ∧ dst.offset ≤ p.offset then (bytes[p.offset - dst.offset]?).getD (mem p)
  else mem p

/-- `fread(dst, 1, n, fo)`. A short read sets the end-of-file indicator. -/
def Play.fread (file : List (BitVec 8)) (dst : Ptr) (n : Nat) (s : Play) : Nat × Play :=
  let bytes := (file.drop s.pos).take n
  (bytes.length,
    { s with
      pos := s.pos + bytes.length
      eof := s.eof || bytes.length < n
      mem := store bytes dst s.mem
      stores := s.stores ++ [(dst, bytes.length)] })

/-- `rewind` clears the end-of-file indicator. -/
def Play.rewind (s : Play) : Play := { s with pos := 0, eof := false }

/-- What `litepcie_play` does with a buffer. -/
def playBuffer (file : List (BitVec 8)) (loops : BitVec 32) (_ : Unit) (buf : Ptr) (s : Play) :
    Bool × Play :=
  let (len, s) := s.fread file buf dmaBufferSize
  if s.eof then
    -- rewind on end of file
    let s := { s with currentLoop := s.currentLoop + 1 }
    let stop := s.currentLoop ≥ loops
    let (_, s) := s.rewind.fread file (buf.add len) (dmaBufferSize - len)
    (stop, s)
  else (false, s)

/-- The machine of `litepcie_play`. -/
abbrev playLoop {π τ : Type} (B : Board π τ) (file : List (BitVec 8)) (loops : BitVec 32) :
    Machine (TestState τ Unit Play) (TestEv π Unit) :=
  testLoop B .reader (playBuffer file loops)

/-- The byte `i` of a buffer after its turn. -/
def Turn.byte (t : Turn Unit Play) (i : Nat) : BitVec 8 := t.after.mem (t.buf.add i)

/-- The byte `i` of a buffer was stored in its turn. -/
def Turn.Stored (t : Turn Unit Play) (i : Nat) : Prop :=
  ∃ p ∈ t.after.stores.drop t.before.stores.length,
    p.1.region = t.buf.region ∧ p.1.offset ≤ t.buf.offset + i ∧ t.buf.offset + i < p.1.offset + p.2

/-- The `k`-th buffer has the file's bytes from its place in the repeated file on, and each byte of
it was stored by `fread`. -/
structure Turn.Cyclic (file : List (BitVec 8)) (k : Nat) (t : Turn Unit Play) : Prop where
  stored : ∀ i, i < dmaBufferSize → t.Stored i
  bytes : ∀ i, i < dmaBufferSize →
    file[(dmaBufferSize * k + i) % file.length]? = some (t.byte i)

section

variable {file : List (BitVec 8)} {s : Play}

theorem store_add_of_lt {bytes : List (BitVec 8)} (mem : Ptr → BitVec 8) (dst : Ptr) {j : Nat}
    (h : j < bytes.length) : bytes[j]? = some (store bytes dst mem (dst.add j)) := by
  simp [store, Ptr.add, h]

theorem store_before {bytes : List (BitVec 8)} {mem : Ptr → BitVec 8} {buf : Ptr} {j len : Nat}
    (h : j < len) : store bytes (buf.add len) mem (buf.add j) = mem (buf.add j) := by
  have hbefore : ¬ buf.offset + len ≤ buf.offset + j := by omega
  simp only [store, Ptr.add, hbefore, and_false, if_false]

theorem fread_len (file : List (BitVec 8)) (s : Play) (dst : Ptr) (n : Nat) :
    (s.fread file dst n).1 = min n (file.length - s.pos) := by
  simp [Play.fread]

theorem fread_pos (file : List (BitVec 8)) (s : Play) (dst : Ptr) (n : Nat) :
    (s.fread file dst n).2.pos = s.pos + min n (file.length - s.pos) := by
  simp [Play.fread]

theorem fread_eof (file : List (BitVec 8)) (s : Play) (dst : Ptr) (n : Nat) :
    (s.fread file dst n).2.eof = (s.eof || decide (file.length - s.pos < n)) := by
  simp [Play.fread]

theorem fread_stores (file : List (BitVec 8)) (s : Play) (dst : Ptr) (n : Nat) :
    (s.fread file dst n).2.stores = s.stores ++ [(dst, min n (file.length - s.pos))] := by
  simp [Play.fread]

theorem fread_mem (dst : Ptr) {n j : Nat} (h : j < min n (file.length - s.pos)) :
    file[s.pos + j]? = some ((s.fread file dst n).2.mem (dst.add j)) := by
  have hlen : j < ((file.drop s.pos).take n).length := by simpa using h
  have hj := store_add_of_lt s.mem dst hlen
  rw [List.getElem?_take_of_lt (by omega), List.getElem?_drop] at hj
  exact hj

/-- The buffer that a turn takes. -/
abbrev playTurn (file : List (BitVec 8)) (loops : BitVec 32) (buf : Ptr) (s : Play) : Turn Unit Play :=
  ⟨(), buf, s, (playBuffer file loops () buf s).2⟩

theorem Turn.stored_iff {t : Turn Unit Play} {ps : List (Ptr × Nat)} {i : Nat}
    (h : t.after.stores = t.before.stores ++ ps) :
    t.Stored i ↔ ∃ p ∈ ps, p.1.region = t.buf.region ∧ p.1.offset ≤ t.buf.offset + i ∧
      t.buf.offset + i < p.1.offset + p.2 := by
  rw [Turn.Stored, h, List.drop_left]

/-- A buffer with bytes of one piece of the file. -/
theorem playBuffer_whole (loops : BitVec 32) (buf : Ptr) (heof : s.eof = false)
    (hfit : dmaBufferSize ≤ file.length - s.pos) :
    ∃ t, (playBuffer file loops () buf s).2 = t ∧ t.pos = s.pos + dmaBufferSize ∧ t.eof = false ∧
      (∀ i, i < dmaBufferSize → (playTurn file loops buf s).Stored i) ∧
      ∀ i, i < dmaBufferSize → file[s.pos + i]? = some (t.mem (buf.add i)) := by
  have hmin : min dmaBufferSize (file.length - s.pos) = dmaBufferSize := Nat.min_eq_left hfit
  have heof' : (s.fread file buf dmaBufferSize).2.eof = false := by
    rw [fread_eof, heof, decide_eq_false (Nat.not_lt.mpr hfit), Bool.false_or]
  have hplay : (playBuffer file loops () buf s).2 = (s.fread file buf dmaBufferSize).2 := by
    simp only [playBuffer, heof', Bool.false_eq_true, if_false]
  have hstores : (playBuffer file loops () buf s).2.stores = s.stores ++ [(buf, dmaBufferSize)] := by
    rw [hplay, fread_stores, hmin]
  refine ⟨_, hplay, ?_, heof', fun i hi => ?_, fun i hi => ?_⟩
  · exact (fread_pos file s buf dmaBufferSize).trans (by rw [hmin])
  · rw [Turn.stored_iff hstores]
    exact ⟨_, List.mem_singleton_self _, rfl, Nat.le_add_right _ _, Nat.add_lt_add_left hi _⟩
  · exact fread_mem buf (hmin.symm ▸ hi)

/-- What is between the two `fread`. -/
def Play.again (s : Play) : Play := { s with currentLoop := s.currentLoop + 1 }.rewind

theorem playBuffer_eof (loops : BitVec 32) {buf : Ptr} {len : Nat}
    (hlen : (s.fread file buf dmaBufferSize).1 = len)
    (heof : (s.fread file buf dmaBufferSize).2.eof = true) :
    (playBuffer file loops () buf s).2 =
      ((s.fread file buf dmaBufferSize).2.again.fread file (buf.add len) (dmaBufferSize - len)).2 := by
  subst hlen
  exact congrArg Prod.snd (if_pos heof)

/-- A buffer in which the file ends: it has the end of the file and then the beginning. -/
theorem playBuffer_wrap (loops : BitVec 32) (buf : Ptr) {len more : Nat}
    (hlen : len = file.length - s.pos) (hend : len < dmaBufferSize)
    (hmore : more = min (dmaBufferSize - len) file.length) :
    ∃ t, (playBuffer file loops () buf s).2 = t ∧ t.pos = more ∧
      t.eof = decide (file.length < dmaBufferSize - len) ∧
      (∀ i, (playTurn file loops buf s).Stored i ↔ i < len + more) ∧
      (∀ i, i < len → file[s.pos + i]? = some (t.mem (buf.add i))) ∧
      ∀ j, j < more → file[j]? = some (t.mem (buf.add (len + j))) := by
  have hmin : min dmaBufferSize (file.length - s.pos) = len := by
    rw [← hlen]
    exact Nat.min_eq_right hend.le
  have heof : (s.fread file buf dmaBufferSize).2.eof = true := by
    rw [fread_eof, decide_eq_true (hlen ▸ hend), Bool.or_true]
  have hfirst : (s.fread file buf dmaBufferSize).1 = len := (fread_len file s buf dmaBufferSize).trans hmin
  have hplay := playBuffer_eof loops hfirst heof
  have hsecond : min (dmaBufferSize - len) (file.length - 0) = more := by rw [hmore, Nat.sub_zero]
  have hstores : (playBuffer file loops () buf s).2.stores =
      s.stores ++ [(buf, len), (buf.add len, more)] := by
    rw [hplay, fread_stores]
    show (s.fread file buf dmaBufferSize).2.stores ++ [(_, min _ (file.length - 0))] = _
    rw [fread_stores, hmin, hsecond, List.append_assoc]
    rfl
  refine ⟨_, hplay, ?_, ?_, fun i => ?_, fun i hi => ?_, fun j hj => ?_⟩
  · exact ((fread_pos _ _ (buf.add len) _).trans (Nat.zero_add _)).trans hsecond
  · exact fread_eof file (s.fread file buf dmaBufferSize).2.again (buf.add len) (dmaBufferSize - len)
  · rw [Turn.stored_iff hstores]
    simp only [List.mem_cons, List.not_mem_nil, or_false, exists_eq_or_imp, exists_eq_left, Ptr.add,
      true_and]
    omega
  · -- the second `fread` stores behind
    refine (fread_mem buf (hmin.symm ▸ hi)).trans (congrArg some ?_)
    exact (store_before hi).symm
  · have hstored : file[0 + j]? = _ := fread_mem (s := (s.fread file buf dmaBufferSize).2.again)
      (buf.add len) (hsecond.symm ▸ hj)
    refine (congrArg (file[·]?) (Nat.zero_add j).symm).trans (hstored.trans (congrArg some ?_))
    simp only [Ptr.add, Nat.add_assoc]

/-- All buffers are right until now: the position is the one in the repeated file. In a file shorter
than a buffer it is `dmaBufferSize - file.length` further with each buffer. -/
structure Played (file : List (BitVec 8)) (ts : List (Turn Unit Play)) (s : Play) : Prop where
  cyclic : ∀ k t, ts[k]? = some t → Turn.Cyclic file k t
  eof : s.eof = false
  pos : s.pos ≤ file.length
  wraps : ∃ r, dmaBufferSize * ts.length = file.length * r + s.pos
  short : file.length < dmaBufferSize →
    s.pos + ts.length * file.length = dmaBufferSize * ts.length

section

variable {ts : List (Turn Unit Play)}

/-- The bytes at a place of the repeated file. -/
theorem Played.at (h : Played file ts s) (i : Nat) :
    (dmaBufferSize * ts.length + i) % file.length = (s.pos + i) % file.length := by
  obtain ⟨r, hr⟩ := h.wraps
  rw [hr, Nat.add_assoc, Nat.mul_add_mod]

theorem Played.cyclic_append (h : Played file ts s) {t : Turn Unit Play}
    (ht : t.Cyclic file ts.length) :
    ∀ k t', (ts ++ [t])[k]? = some t' → Turn.Cyclic file k t' := by
  intro k t' hk
  rcases Nat.lt_trichotomy k ts.length with hlt | rfl | hgt
  · exact h.cyclic k t' (by rwa [List.getElem?_append_left hlt] at hk)
  · rw [List.getElem?_concat_length] at hk
    exact Option.some.inj hk ▸ ht
  · rw [List.getElem?_eq_none (by simpa [Nat.succ_le_iff] using hgt)] at hk
    cases hk

/-- With the file long enough for one buffer more, this buffer is right. -/
theorem playBuffer_played (loops : BitVec 32) (buf : Ptr) (h : Played file ts s)
    (hlong : dmaBufferSize * (ts.length + 1) ≤ (ts.length + 1 + 1) * file.length) :
    Played file (ts ++ [playTurn file loops buf s]) (playBuffer file loops () buf s).2 := by
  have hpos := h.pos
  have hshort := h.short
  have hlength : (ts ++ [playTurn file loops buf s]).length = ts.length + 1 := by simp
  obtain ⟨r, hr⟩ := h.wraps
  rw [Nat.mul_add_one dmaBufferSize, Nat.add_one_mul (ts.length + 1),
    Nat.add_one_mul ts.length] at hlong
  by_cases hfit : dmaBufferSize ≤ file.length - s.pos
  · obtain ⟨t, ht, htpos, hteof, hstored, hbytes⟩ := playBuffer_whole loops buf h.eof hfit
    have hcyclic : (playTurn file loops buf s).Cyclic file ts.length := by
      refine ⟨hstored, fun i hi => ?_⟩
      rw [h.at, Nat.mod_eq_of_lt (by omega), Turn.byte, playTurn, ht]
      exact hbytes i hi
    refine ⟨h.cyclic_append hcyclic, ht ▸ hteof, ?_, ⟨r, ?_⟩, fun hlt => ?_⟩
    · rw [ht]
      omega
    · rw [hlength, ht, Nat.mul_add_one]
      omega
    · omega
  · obtain ⟨t, ht, htpos, hteof, hstored, hend, hbegin⟩ :=
      playBuffer_wrap loops buf rfl (Nat.not_le.mp hfit) rfl
    -- the beginning has enough bytes for the rest of the buffer
    have hrest : dmaBufferSize - (file.length - s.pos) ≤ file.length := by omega
    rw [Nat.min_eq_left hrest] at hstored htpos hbegin
    have hcyclic : (playTurn file loops buf s).Cyclic file ts.length := by
      refine ⟨fun i hi => (hstored i).mpr (by omega), fun i hi => ?_⟩
      rw [h.at, Turn.byte, playTurn, ht]
      by_cases hi' : i < file.length - s.pos
      · rw [Nat.mod_eq_of_lt (by omega)]
        exact hend i hi'
      · obtain ⟨j, rfl⟩ := Nat.exists_eq_add_of_le (Nat.not_lt.mp hi')
        have hj : s.pos + (file.length - s.pos + j) = file.length + j := by omega
        rw [hj, Nat.add_mod_left, Nat.mod_eq_of_lt (by omega)]
        exact hbegin j (by omega)
    refine ⟨h.cyclic_append hcyclic, ?_, ?_, ⟨r + 1, ?_⟩, fun hlt => ?_⟩
    · rw [ht, hteof, decide_eq_false (Nat.not_lt.mpr hrest)]
    · rw [ht]
      omega
    · rw [hlength, ht, Nat.mul_add_one, Nat.mul_add_one]
      omega
    · rw [hlength, ht, Nat.mul_add_one, Nat.add_one_mul ts.length]
      have hplace := hshort hlt
      omega

/-- With a shorter file, some bytes of it are not stored. -/
theorem playBuffer_stale (loops : BitVec 32) (buf : Ptr) (h : Played file ts s)
    (hstale : (ts.length + 1 + 1) * file.length < dmaBufferSize * (ts.length + 1)) :
    ∃ i, i < dmaBufferSize ∧ ¬ (playTurn file loops buf s).Stored i := by
  have hpos := h.pos
  rw [Nat.mul_add_one dmaBufferSize, Nat.add_one_mul (ts.length + 1),
    Nat.add_one_mul ts.length] at hstale
  have hlt : file.length < dmaBufferSize := by
    by_contra hle
    have hmul : dmaBufferSize * ts.length ≤ ts.length * file.length := by
      rw [Nat.mul_comm]
      exact Nat.mul_le_mul_left _ (Nat.not_lt.mp hle)
    omega
  have hshort := h.short hlt
  obtain ⟨t, -, -, -, hstored, -⟩ :=
    playBuffer_wrap (s := s) loops buf rfl (show file.length - s.pos < dmaBufferSize by omega) rfl
  rw [Nat.min_eq_right (by omega)] at hstored
  refine ⟨file.length - s.pos + file.length, by omega, fun hi => ?_⟩
  exact Nat.lt_irrefl _ ((hstored _).mp hi)

/-- What holds of the buffers of a run: they are right as long as the file is long enough for their
number, and then one of them is not. -/
def PlayInv (file : List (BitVec 8)) (ts : List (Turn Unit Play)) (s : Play) : Prop :=
  if dmaBufferSize * ts.length ≤ (ts.length + 1) * file.length then Played file ts s
  else ∃ t ∈ ts, ∃ i, i < dmaBufferSize ∧ ¬ t.Stored i

theorem playInv_start (file : List (BitVec 8)) (mem : Ptr → BitVec 8) :
    PlayInv file [] (.start mem) := by
  have hnone : dmaBufferSize * ([] : List (Turn Unit Play)).length ≤
      (([] : List (Turn Unit Play)).length + 1) * file.length := Nat.zero_le _
  rw [PlayInv, if_pos hnone]
  exact ⟨nofun, rfl, Nat.zero_le _, ⟨0, rfl⟩, fun _ => by simp [Play.start]⟩

theorem playBuffer_inv (loops : BitVec 32) (buf : Ptr) (h : PlayInv file ts s) :
    PlayInv file (ts ++ [playTurn file loops buf s]) (playBuffer file loops () buf s).2 := by
  unfold PlayInv at h ⊢
  rw [List.length_append, List.length_singleton]
  have hmul : dmaBufferSize * (ts.length + 1) ≤ (ts.length + 1 + 1) * file.length →
      dmaBufferSize * ts.length ≤ (ts.length + 1) * file.length := by
    intro hle
    rw [Nat.mul_add_one dmaBufferSize, Nat.add_one_mul (ts.length + 1),
      Nat.add_one_mul ts.length] at hle
    rw [Nat.add_one_mul ts.length]
    by_cases hlt : file.length < dmaBufferSize
    · omega
    · have hle' := Nat.mul_le_mul_left ts.length (Nat.not_lt.mp hlt)
      rw [Nat.mul_comm] at hle'
      omega
  split at h
  · split
    · rename_i hlong
      exact playBuffer_played loops buf h hlong
    · rename_i hstale
      obtain ⟨i, hi, hnot⟩ := playBuffer_stale loops buf h (Nat.not_le.mp hstale)
      exact ⟨_, List.mem_append_right _ (List.mem_singleton_self _), i, hi, hnot⟩
  · rename_i hover
    rw [if_neg fun hle => hover (hmul hle)]
    obtain ⟨t, hmem, hnot⟩ := h
    exact ⟨t, List.mem_append_left _ hmem, hnot⟩

end

end

/-- A run of `litepcie_play` with `n` buffers: all of them have the bytes of the repeated file if and
only if `65536 * n ≤ (n + 1) * L`. This is each number of buffers for `L ≥ 65536`, and none for
`L < 32768`. -/
theorem play_cyclic_iff {π τ : Type} (B : Board π τ) (file : List (BitVec 8)) (loops : BitVec 32)
    (dma : LitepcieDmaCtrl) (board : τ) (mem : Ptr → BitVec 8) (es : List (TestEv π Unit))
    (s : TestState τ Unit Play)
    (hr : (playLoop B file loops).run es (.start dma board (.start mem)) = some s) :
    (∀ k t, s.turns[k]? = some t → Turn.Cyclic file k t) ↔
      dmaBufferSize * s.turns.length ≤ (s.turns.length + 1) * file.length := by
  have hinv : PlayInv file s.turns s.io := by
    refine testLoop_inv (P := fun _ ts x => PlayInv file ts x) (fun _ _ h => h) ?_ ?_ hr
    · intro _ ts _ buf x hx
      exact playBuffer_inv loops buf hx
    · exact playInv_start file mem
  unfold PlayInv at hinv
  split at hinv
  · rename_i hlong
    exact ⟨fun _ => hlong, fun _ => hinv.cyclic⟩
  · rename_i hshort
    obtain ⟨t, hmem, i, hi, hnot⟩ := hinv
    obtain ⟨k, hk⟩ := List.mem_iff_getElem?.mp hmem
    exact ⟨fun hall => absurd ((hall k t hk).stored i hi) hnot, fun h => absurd h hshort⟩

/-- A file of 70000 bytes, which ends in the second buffer: behind its last byte there is its first. -/
theorem play_cyclic_iff_once :
    ∃ s, (playLoop anyBoard ((List.range 70000).map (BitVec.ofNat 8)) 9).run
        [.process ((LitepcieDmaCtrl.initial 1 0 0).modDir .reader
          fun c => { c with buffersAvailable := 2 }), .next (), .next ()]
        (.start (.initial 1 0 0) () (.start fun _ => 5)) = some s ∧
      s.turns.length = 2 ∧
      (∀ k t, s.turns[k]? = some t →
        Turn.Cyclic ((List.range 70000).map (BitVec.ofNat 8)) k t) ∧
      ∃ t, s.turns[1]? = some t ∧ t.byte 4463 = 69999 ∧ t.byte 4464 = 0 := by
  have hruns : ∀ file : List (BitVec 8), ∃ s, (playLoop anyBoard file 9).run
      [.process ((LitepcieDmaCtrl.initial 1 0 0).modDir .reader
        fun c => { c with buffersAvailable := 2 }), .next (), .next ()]
      (.start (.initial 1 0 0) () (.start fun _ => 5)) = some s ∧
      ∃ t u, s.turns = [t, u] := fun file => ⟨_, rfl, _, _, rfl⟩
  obtain ⟨s, hs, t, u, hturns⟩ := hruns ((List.range 70000).map (BitVec.ofNat 8))
  have hlength : ((List.range 70000).map (BitVec.ofNat 8)).length = 70000 := by
    rw [List.length_map, List.length_range]
  have hcyclic := (play_cyclic_iff anyBoard _ 9 _ _ _ _ s hs).mpr (by
    rw [hturns, hlength, List.length_cons, List.length_singleton]
    decide)
  have hsecond : s.turns[1]? = some u := by rw [hturns]; rfl
  have hbyte : ∀ i, i < dmaBufferSize →
      some (BitVec.ofNat 8 ((dmaBufferSize * 1 + i) % 70000)) = some (u.byte i) := by
    intro i hi
    have h := (hcyclic 1 u hsecond).bytes i hi
    rwa [hlength, List.getElem?_map, List.getElem?_range (Nat.mod_lt _ (by decide))] at h
  refine ⟨s, hs, by rw [hturns]; rfl, hcyclic, u, hsecond, ?_, ?_⟩
  · exact (Option.some.inj (hbyte 4463 (by decide))).symm
  · exact (Option.some.inj (hbyte 4464 (by decide))).symm

/-- A file of one byte: the third byte of the first buffer is what was in the memory. -/
theorem play_stale :
    ∃ s, (playLoop anyBoard [7] 0).run
        [.process ((LitepcieDmaCtrl.initial 1 0 0).modDir .reader
          fun c => { c with buffersAvailable := 1 }), .next ()]
        (.start (.initial 1 0 0) () (.start fun _ => 5)) = some s ∧
      ∃ t, s.turns[0]? = some t ∧ t.byte 2 = 5 ∧
        ([7] : List (BitVec 8))[(dmaBufferSize * 0 + 2) % 1]? = some 7 :=
  ⟨_, rfl, _, rfl, rfl, rfl⟩

end User
end Xtrx
