import Mathlib.Order.Fin.Basic
import Xtrx.Lib.Codec
import Xtrx.Sigflow.PassThrough

/-!
# `stream_data` to files and back (`libsigflow.jl`)

- **`Save`**: the thread of `stream_data(paths, in)` and a source that puts the matrices to `in` and
  closes it. The thread appends every column of a matrix to its file.
- **`Load`**: `generate_stream` with the function of `stream_data(paths, T)`, and a consumer. A matrix
  is filled file by file; the first file without enough bytes ends the stream.
- **`disk_round_trip_iff`**: both always end; the consumer receives the rows of all matrices in blocks
  of `chunk_size` if and only if the loop of `consume_channel`, when it has found its channel empty
  and finds it closed, leaves no rows behind that would complete a block. Without a capacity it
  leaves none (`Save.inTime_of_unbuffered`).
-/

namespace Xtrx
namespace Sigflow

open Conc

abbrev Byte := BitVec 8

/-- A matrix of samples with its rows. -/
structure Samples (T : Type) where
  cols : Nat
  rows : List (Fin cols → T)

variable {α T : Type} {C n : Nat}

/-- `data[:, idx]` -/
def Samples.col (data : Samples T) (idx : Fin data.cols) : List T := data.rows.map fun row => row idx

/-! ## The source -/

/-- A step of a source that puts its items to a channel and closes it. -/
def Source.step (source : Source α) (c : Channel α) : Option (Source α × Channel α) :=
  match source with
  | put [] => some (closed, c.close)
  | put (x :: rest) => (c.put x).map fun c => (putting rest, c)
  | putting rest => if c.PutDone then some (put rest, c) else none
  | closed => none

/-- What a step of a source does. -/
inductive Source.Effect : Source α → Channel α → Source α → Channel α → Prop
  | close {c} : Effect (put []) c closed c.close
  | put {x rest c c'} (hp : c.Puts x c') : Effect (put (x :: rest)) c (putting rest) c'
  | putDone {rest c} (hd : c.PutDone) : Effect (putting rest) c (put rest) c

/-- A channel that a source puts its items to. -/
structure Source.Feeds (source : Source α) (input : List α) (c : Channel α) : Prop where
  sent : input = c.sent ++ source.rest
  putDone : ¬ source.Putting → c.PutDone
  isOpen : c.isOpen = false ↔ source = .closed

namespace Source

variable {source source' : Source α} {input : List α} {c c' : Channel α}

theorem step_effect (h : source.step c = some (source', c')) : Effect source c source' c' := by
  unfold step at h
  split at h
  · cases h
    exact .close
  · obtain ⟨d, hd, he⟩ := Option.map_eq_some_iff.mp h
    cases he
    exact .put (Channel.puts_of_put hd)
  · split at h
    · cases h
      exact .putDone ‹_›
    · cases h
  · cases h

theorem feeds_start (cap : Nat) (input : List α) : (put input).Feeds input (.new cap) :=
  ⟨rfl, fun _ _ => rfl, ⟨nofun, nofun⟩⟩

theorem Effect.byPutter (he : Effect source c source' c') : c.ByPutter c' := by
  cases he with
  | close => exact Channel.byPutter_close
  | put hp => exact hp.byPutter
  | putDone => exact .refl c

theorem Feeds.step (h : source.Feeds input c) (he : Effect source c source' c') :
    source'.Feeds input c' := by
  cases he with
  | close => exact ⟨h.sent, fun _ => h.putDone fun ⟨_, hr⟩ => (nomatch hr), fun _ => rfl, fun _ => rfl⟩
  | @put x rest c c' hp =>
    refine ⟨?_, fun hn => absurd ⟨rest, rfl⟩ hn, ?_⟩
    · rw [hp.sent, List.append_assoc]
      exact h.sent
    · rw [hp.isOpen, hp.wasOpen]
      exact ⟨nofun, nofun⟩
  | putDone hd =>
    refine ⟨h.sent, fun _ => hd, ?_⟩
    rw [h.isOpen]
    exact ⟨nofun, nofun⟩

/-- Items that are taken do not matter to the source. -/
theorem Feeds.byTaker (h : source.Feeds input c) (ht : c.ByTaker c') : source.Feeds input c' := by
  refine ⟨?_, fun hn => ht.putDone (h.putDone hn), ?_⟩
  · rw [ht.sent]
    exact h.sent
  · rw [ht.isOpen]
    exact h.isOpen

/-- A source waits at a channel with items only. -/
theorem Feeds.closed (h : source.Feeds input c) (hw : source.step c = none) (hd : c.data = []) :
    c.isOpen = false := by
  rw [h.isOpen]
  cases source with
  | put rest =>
    cases rest with
    | nil => cases hw
    | cons x rest =>
      have ho : c.isOpen = true := by
        rw [← Bool.not_eq_false, h.isOpen]
        exact nofun
      obtain ⟨c', hc⟩ := Channel.exists_put ho hd x
      simp [Source.step, hc] at hw
  | putting rest =>
    have hp : c.PutDone := fun _ => hd
    simp [Source.step, hp] at hw
  | closed => rfl

/-- Where the source waits, the loop on the other side does not. -/
theorem Feeds.step_ne_none {β : Type} {enter : α → β} {l : Consume β} (h : source.Feeds input c)
    (hw : source.step c = none) (hl : l.Looking) : l.step enter c ≠ none := by
  intro hn
  obtain ⟨ho, hd⟩ := Consume.step_eq_none hl hn
  have hc := h.closed hw hd
  rw [ho] at hc
  cases hc

/-- A closed channel holds what is not taken of the items. -/
theorem Feeds.input_eq (h : source.Feeds input c) (hc : c.isOpen = false) : input = c.sent := by
  have := h.sent
  rw [h.isOpen.mp hc] at this
  exact this.trans (List.append_nil _)

/-- Without a capacity nothing is in it. -/
theorem Feeds.closed_empty (h : source.Feeds input c) (hc : c.isOpen = false) (hcap : c.cap = 0) :
    c.data = [] :=
  h.putDone (fun ⟨_, hr⟩ => nomatch (h.isOpen.mp hc).symm.trans hr) hcap

end Source

/-! ## From a channel to files -/

/-- Where the thread of `stream_data(paths, in)` is; `failed` after its `ArgumentError`. -/
inductive SavePc (T : Type) where
  | loop (l : Consume (Samples T))
  | done
  | failed

/-- The source, the channel, the thread and the files at the paths. -/
structure Save (T : Type) (paths : Nat) where
  source : Source (Samples T)
  chan : Channel (Samples T)
  pc : SavePc T
  fds : Fin paths → List Byte

/-- Whose step comes next. -/
inductive SaveEv where
  | source
  | thread
deriving DecidableEq

/-- The body of the loop: `write(fd, data[:, idx])` for every file, or the `ArgumentError`. -/
def writeColumns (bits : Codec T Byte) (data : Samples T) (fds : Fin n → List Byte) :
    Option (Fin n → List Byte) :=
  if h : data.cols = n then
    some fun idx => fds idx ++ bits.encode (data.col (idx.cast h.symm))
  else none

namespace Save

def step (bits : Codec T Byte) (s : Save T n) : SaveEv → Option (Save T n)
  | .source => (s.source.step s.chan).map fun r => { s with source := r.1, chan := r.2 }
  | .thread =>
    match s.pc with
    | .loop (.body data) =>
      match writeColumns bits data s.fds with
      | some fds => some { s with fds, pc := .loop .isempty }
      | none => some { s with pc := .failed }
    | .loop .left => some { s with pc := .done }
    | .loop l => (l.step id s.chan).map fun r => { s with chan := r.2, pc := .loop r.1 }
    | .done => none
    | .failed => none

def machine (bits : Codec T Byte) (n : Nat) : Machine (Save T n) SaveEv := ⟨step bits⟩

/-- A matrix with `C` columns. -/
def matrix (rows : List (Fin C → T)) : Samples T := ⟨C, rows⟩

/-- Fresh files and a channel of the capacity `cap`. -/
def start (cap : Nat) (input : List (List (Fin C → T))) : Save T C :=
  ⟨.put (input.map matrix), .new cap, .loop .isempty, fun _ => []⟩

/-- What a step does. -/
inductive Effect (bits : Codec T Byte) (s : Save T n) : SaveEv → Save T n → Prop
  | source {source chan} (he : Source.Effect s.source s.chan source chan) :
    Effect bits s .source { s with source, chan }
  | look {l l'} (hpc : s.pc = .loop l) (hs : l.step id s.chan = some (l', s.chan))
    (hl : l.Looking) (hl' : l'.Looking) : Effect bits s .thread { s with pc := .loop l' }
  | leave (hpc : s.pc = .loop .isopen) (hc : s.chan.isOpen = false) :
    Effect bits s .thread { s with pc := .loop .left }
  | take {x chan} (hpc : s.pc = .loop .take) (ht : s.chan.Takes x chan) :
    Effect bits s .thread { s with chan, pc := .loop (.body x) }
  | write {data} (h : data.cols = n) (hpc : s.pc = .loop (.body data)) :
    Effect bits s .thread { s with
      fds := fun idx => s.fds idx ++ bits.encode (data.col (idx.cast h.symm))
      pc := .loop .isempty }
  | fail {data} (h : data.cols ≠ n) (hpc : s.pc = .loop (.body data)) :
    Effect bits s .thread { s with pc := .failed }
  | done (hpc : s.pc = .loop .left) : Effect bits s .thread { s with pc := .done }

variable {bits : Codec T Byte} {s s' : Save T n} {e : SaveEv}

theorem step_effect (h : s.step bits e = some s') : Effect bits s e s' := by
  cases e with
  | source =>
    obtain ⟨⟨source, chan⟩, hs, rfl⟩ := Option.map_eq_some_iff.mp h
    exact .source (Source.step_effect hs)
  | thread =>
    unfold step at h
    dsimp only at h
    split at h
    · rename_i data hpc
      split at h
      · rename_i fds hw
        cases h
        unfold writeColumns at hw
        split at hw
        · cases hw
          exact .write ‹_› hpc
        · cases hw
      · rename_i hw
        cases h
        unfold writeColumns at hw
        split at hw
        · cases hw
        · exact .fail ‹_› hpc
    · rename_i hpc
      cases h
      exact .done hpc
    · rename_i l hbody hleft hpc
      obtain ⟨⟨l', c'⟩, hs, rfl⟩ := Option.map_eq_some_iff.mp h
      obtain ⟨hl, ⟨x, ht, rfl, rfl⟩ | ⟨rfl, hl' | ⟨rfl, hc, rfl⟩⟩⟩ := Consume.step_cases hs
      · exact .take hpc (Channel.takes_of_take ht)
      · exact .look hpc hs hl hl'
      · exact .leave hpc hc
    · cases h
    · cases h

end Save

/-! ### Steps that are left -/

/-- The steps of a source, and ten more for each item that it will put. -/
def Source.work : Source α → Nat
  | put rest => 13 * rest.length + 1
  | putting rest => 13 * rest.length + 2
  | closed => 0

/-- The steps of the loop of `consume_channel` to the next item or to its end: a closed channel
makes a `take!` throw once. -/
def Consume.work {β : Type} (c : Channel α) : Consume β → Nat
  | isempty => if c.isOpen then 8 else 3
  | isopen => if c.isOpen then 7 else 2
  | take => if c.isOpen then 6 else if c.data.isEmpty then 4 else 2
  | body _ => 9
  | left => 1

def SavePc.work (c : Channel (Samples T)) : SavePc T → Nat
  | loop l => l.work c
  | done => 0
  | failed => 0

def Save.work (s : Save T n) : Nat := s.source.work + 10 * s.chan.data.length + s.pc.work s.chan

section

variable {β : Type} {enter : α → β} {l l' : Consume β} {c c' : Channel α}

/-- A step of the test, or a `take!` that throws. -/
theorem Consume.work_lt (h : l.step enter c = some (l', c)) (hl : l.Looking) (hl' : l'.Looking) :
    l'.work c < l.work c := by
  cases hl with
  | isempty =>
    cases h
    cases ho : c.isOpen <;> cases hd : c.data.isEmpty <;> simp [work, ho, hd]
  | isopen =>
    cases ho : c.isOpen with
    | true =>
      simp only [step, ho] at h
      cases h
      simp [work, ho]
    | false =>
      simp only [step, ho] at h
      cases h
      cases hl'
  | take =>
    obtain ⟨-, ⟨x, -, -, rfl⟩ | ⟨-, -⟩⟩ := Consume.step_cases h
    · cases hl'
    · unfold step at h
      cases ht : c.take with
      | some r =>
        rw [ht] at h
        cases h
        cases hl'
      | none =>
        have hd := Channel.take_eq_none.mp ht
        cases ho : c.isOpen with
        | true =>
          rw [ht, ho] at h
          cases h
        | false =>
          rw [ht, ho] at h
          cases h
          simp [work, ho, hd]

/-- The side that puts does not make the loop of the other side longer. -/
theorem Consume.work_le (l : Consume β) (h : c.ByPutter c') : l.work c' ≤ l.work c := by
  cases ho : c.isOpen with
  | false => rw [h.closed ho]
  | true =>
    cases ho' : c'.isOpen <;> cases l <;> cases hd : c'.data.isEmpty <;> simp [work, ho, ho', hd]

theorem Consume.two_le_work (hl : l.Looking) : 2 ≤ l.work c := by
  cases hl <;> cases ho : c.isOpen <;> cases hd : c.data.isEmpty <;> simp [work, ho, hd]

theorem Source.Effect.work_lt {source source' : Source α} (he : Effect source c source' c') :
    source'.work + 10 * c'.data.length < source.work + 10 * c.data.length := by
  cases he with
  | close =>
    simp only [Source.work, Channel.close, List.length_nil]
    omega
  | put hp =>
    simp only [Source.work, hp.data, List.length_append, List.length_cons, List.length_nil]
    omega
  | putDone =>
    simp only [Source.work]
    omega

end

namespace Save

/-- Every step leaves fewer. -/
theorem Effect.work_lt {bits : Codec T Byte} {s s' : Save T n} {e : SaveEv} (he : Effect bits s e s') :
    s'.work < s.work := by
  unfold work
  cases he with
  | @source source chan he =>
    have hs := he.work_lt
    have hl : s.pc.work chan ≤ s.pc.work s.chan := by
      cases hpc : s.pc with
      | loop l => exact l.work_le he.byPutter
      | done => exact Nat.le_refl _
      | failed => exact Nat.le_refl _
    dsimp only
    omega
  | look hpc hs hl hl' =>
    rw [hpc]
    exact Nat.add_lt_add_left (Consume.work_lt hs hl hl') _
  | leave hpc hc =>
    rw [hpc]
    simp [SavePc.work, Consume.work, hc]
  | take hpc ht =>
    have h₂ := Consume.two_le_work (c := s.chan) (Consume.Looking.take (β := Samples T))
    rw [hpc, ht.data, List.length_cons]
    simp only [SavePc.work, Consume.work] at h₂ ⊢
    omega
  | write h hpc =>
    rw [hpc]
    simp only [SavePc.work, Consume.work]
    split <;> omega
  | fail h hpc =>
    rw [hpc]
    simp only [SavePc.work, Consume.work]
    omega
  | done hpc =>
    rw [hpc]
    simp only [SavePc.work, Consume.work]
    omega

end Save

/-! ### The files -/

/-- The matrix that is taken and not written. -/
def SavePc.hand : SavePc T → List (Samples T)
  | loop (.body data) => [data]
  | _ => []

/-- The thread has left its loop. -/
def SavePc.Past : SavePc T → Prop
  | loop .left => True
  | loop _ => False
  | done => True
  | failed => False

theorem SavePc.hand_looking {l : Consume (Samples T)} (hl : l.Looking) : (loop l).hand = [] := by
  cases hl <;> rfl

theorem SavePc.not_past_looking {l : Consume (Samples T)} (hl : l.Looking) : ¬ (loop l).Past := by
  cases hl <;> exact id

namespace Save

/-- The files hold the columns of what is written. -/
structure Inv (bits : Codec T Byte) (cap : Nat) (input : List (List (Fin C → T))) (s : Save T C) :
    Prop where
  feeds : s.source.Feeds (input.map matrix) s.chan
  cap : s.chan.cap = cap
  written : ∃ w : List (List (Fin C → T)), s.chan.taken = w.map matrix ++ s.pc.hand ∧
    ∀ idx, s.fds idx = bits.encode (w.flatten.map fun row => row idx)
  closed : s.pc.Past → s.chan.isOpen = false
  notFailed : s.pc ≠ .failed

variable {bits : Codec T Byte} {cap : Nat} {input : List (List (Fin C → T))} {s s' : Save T C}
  {e : SaveEv}

theorem inv_start (bits : Codec T Byte) (cap : Nat) (input : List (List (Fin C → T))) :
    (start cap input).Inv bits cap input where
  feeds := Source.feeds_start cap _
  cap := rfl
  written := ⟨[], rfl, fun _ => rfl⟩
  closed := nofun
  notFailed := nofun

/-- What is taken are matrices of the input. -/
theorem Inv.taken_eq (h : s.Inv bits cap input) : ∃ rows, rows <+: input ∧
    s.chan.taken = rows.map matrix := by
  obtain ⟨rest, hrest⟩ := s.chan.taken_prefix_sent.trans ⟨_, h.feeds.sent.symm⟩
  obtain ⟨rows, rows', rfl, htaken, -⟩ := List.map_eq_append_iff.mp hrest.symm
  exact ⟨rows, List.prefix_append .., htaken.symm⟩

theorem Inv.hand_eq (h : s.Inv bits cap input) {data : Samples T} (hpc : s.pc = .loop (.body data)) :
    ∃ rows, data = matrix (C := C) rows := by
  obtain ⟨rows, -, htaken⟩ := h.taken_eq
  obtain ⟨w, hw, -⟩ := h.written
  have hmem : data ∈ rows.map matrix := by
    rw [← htaken, hw, hpc]
    exact List.mem_append_right _ (List.mem_singleton.mpr rfl)
  obtain ⟨x, -, rfl⟩ := List.mem_map.mp hmem
  exact ⟨x, rfl⟩

theorem Inv.step (h : s.Inv bits cap input) (he : Effect bits s e s') : s'.Inv bits cap input := by
  obtain ⟨w, hw, hfds⟩ := h.written
  cases he with
  | source he =>
    have hput := he.byPutter
    refine ⟨h.feeds.step he, hput.cap.trans h.cap, ⟨w, hput.taken.trans hw, hfds⟩, fun hp => ?_,
      h.notFailed⟩
    have hc := h.closed hp
    rwa [hput.closed hc]
  | look hpc hs hl hl' =>
    rw [hpc, SavePc.hand_looking hl] at hw
    refine ⟨h.feeds, h.cap, ⟨w, ?_, hfds⟩, fun hp => absurd hp (SavePc.not_past_looking hl'), nofun⟩
    rw [SavePc.hand_looking hl']
    exact hw
  | leave hpc hc =>
    rw [hpc] at hw
    exact ⟨h.feeds, h.cap, ⟨w, hw, hfds⟩, fun _ => hc, nofun⟩
  | @take x chan hpc ht =>
    rw [hpc] at hw
    refine ⟨h.feeds.byTaker ht.byTaker, ht.cap.trans h.cap, ⟨w, ?_, hfds⟩, nofun, nofun⟩
    rw [ht.taken, hw, SavePc.hand_looking .take, List.append_nil]
    rfl
  | @write data hcols hpc =>
    obtain ⟨rows, rfl⟩ := h.hand_eq hpc
    rw [hpc] at hw
    refine ⟨h.feeds, h.cap, ⟨w ++ [rows], ?_, fun idx => ?_⟩, nofun, nofun⟩
    · rw [List.map_append, SavePc.hand_looking .isempty, List.append_nil]
      exact hw
    · rw [List.flatten_append, List.flatten_singleton, List.map_append, bits.encode_append, ← hfds]
      rfl
  | fail hcols hpc =>
    obtain ⟨rows, rfl⟩ := h.hand_eq hpc
    exact absurd rfl hcols
  | done hpc =>
    rw [hpc] at hw
    exact ⟨h.feeds, h.cap, ⟨w, hw, hfds⟩, fun _ => h.closed (by rw [hpc]; trivial), nofun⟩

/-- When no step is possible the thread is done. -/
theorem Inv.done (h : s.Inv bits cap input) (hend : ∀ e, s.step bits e = none) : s.pc = .done := by
  have hsource : s.source.step s.chan = none := Option.map_eq_none_iff.mp (hend .source)
  have hthread := hend .thread
  unfold Save.step at hthread
  dsimp only at hthread
  split at hthread
  · split at hthread
    · cases hthread
    · cases hthread
  · cases hthread
  · rename_i l hbody hleft hpc
    have hlook : l.Looking := Consume.looking_of_ne hbody hleft
    exact absurd (Option.map_eq_none_iff.mp hthread) (h.feeds.step_ne_none hsource hlook)
  · assumption
  · rename_i hpc
    exact absurd hpc h.notFailed

/-- What the files hold when the thread is done: the rows that were taken. -/
theorem Inv.fds_eq (h : s.Inv bits cap input) (hd : s.pc = .done) :
    ∃ rows rest : List (List (Fin C → T)), input = rows ++ rest ∧ s.chan.taken = rows.map matrix ∧
      ∀ idx, s.fds idx = bits.encode (rows.flatten.map fun row => row idx) := by
  obtain ⟨w, hw, hfds⟩ := h.written
  rw [hd, show (SavePc.done : SavePc T).hand = [] from rfl, List.append_nil] at hw
  obtain ⟨rows, ⟨rest, hrest⟩, htaken⟩ := h.taken_eq
  have hinj : Function.Injective (matrix : List (Fin C → T) → Samples T) := fun a b hab => by
    cases hab
    rfl
  obtain rfl : w = rows := List.map_injective_iff.mpr hinj (hw.symm.trans htaken)
  exact ⟨w, rest, hrest.symm, hw, hfds⟩

end Save

/-! ## From files to a channel -/

/-- `read!(fd, view(buff, :, idx))`: the column, the rest of the file, and if there were enough
bytes. An element without all of its bytes keeps its value. -/
def readColumn (bits : Codec T Byte) (fd : List Byte) (col : Fin n → T) :
    (Fin n → T) × List Byte × Bool :=
  (fun i => if (i + 1) * bits.size ≤ fd.length then bits.read fd i else col i,
    fd.drop (n * bits.size), n * bits.size ≤ fd.length)

/-- `gen_buff!` of `stream_data(paths, T)`: the files are read in their order, up to the first
`EOFError`. -/
def genBuff (bits : Codec T Byte) :
    List (Fin C) → (Fin C → List Byte) → (Fin n → Fin C → T) →
      Bool × (Fin C → List Byte) × (Fin n → Fin C → T)
  | [], fds, buff => (true, fds, buff)
  | idx :: rest, fds, buff =>
    let r := readColumn bits (fds idx) fun i => buff i idx
    let fds := Function.update fds idx r.2.1
    let buff := fun i c => if c = idx then r.1 i else buff i c
    if r.2.2 then genBuff bits rest fds buff else (false, fds, buff)

/-- Where the thread of `generate_stream` is. -/
inductive LoadPc where
  | generate
  | put
  | putting
  | close
  | done
deriving DecidableEq

/-- The files, the variable `buff`, the thread and its channel. -/
structure Load (T : Type) (n C : Nat) where
  fds : Fin C → List Byte
  buff : Fin n → Fin C → T
  pc : LoadPc
  chan : Channel (Fin n → Fin C → T)

inductive LoadEv where
  | thread
  | consume
deriving DecidableEq

namespace Load

/-- A step of the thread or of the consumer; `put!` gets a copy of `buff`. -/
def step (bits : Codec T Byte) (s : Load T n C) : LoadEv → Option (Load T n C)
  | .thread =>
    match s.pc with
    | .generate =>
      let r := genBuff bits (List.finRange C) s.fds s.buff
      some { s with fds := r.2.1, buff := r.2.2, pc := if r.1 then .put else .close }
    | .put => (s.chan.put s.buff).map fun chan => { s with chan, pc := .putting }
    | .putting => if s.chan.PutDone then some { s with pc := .generate } else none
    | .close => some { s with chan := s.chan.close, pc := .done }
    | .done => none
  | .consume => s.chan.take.map fun r => { s with chan := r.2 }

def machine (bits : Codec T Byte) (n C : Nat) : Machine (Load T n C) LoadEv := ⟨step bits⟩

/-- `Matrix{T}(undef, chunk_size, num_channels)` holds anything; the channel has room for one. -/
def start (fds : Fin C → List Byte) (buff : Fin n → Fin C → T) : Load T n C :=
  ⟨fds, buff, .generate, .new 1⟩

end Load

section

variable {bits : Codec T Byte} {fds : Fin C → List Byte} {buff : Fin n → Fin C → T}
  {xs : Fin C → List T} {l : List (Fin C)}

/-- Files with enough samples give a column each. -/
theorem genBuff_full (buff : Fin n → Fin C → T) (hl : l.Nodup) (hfds : ∀ c ∈ l, fds c = bits.encode (xs c))
    (hn : ∀ c ∈ l, n ≤ (xs c).length) :
    ∃ fds' buff', genBuff bits l fds buff = (true, fds', buff') ∧
      (∀ c, fds' c = if c ∈ l then bits.encode ((xs c).drop n) else fds c) ∧
      (∀ i c, c ∈ l → (xs c)[i.val]? = some (buff' i c)) ∧
      ∀ i c, c ∉ l → buff' i c = buff i c := by
  induction l generalizing fds buff with
  | nil => exact ⟨fds, buff, rfl, fun c => rfl, fun i c hc => (nomatch hc), fun _ _ _ => rfl⟩
  | cons idx rest ih =>
    obtain ⟨hidx, hrest⟩ := List.nodup_cons.mp hl
    have hfd := hfds idx (List.mem_cons_self ..)
    have hlen := hn idx (List.mem_cons_self ..)
    have hbytes : (bits.encode (xs idx)).length = (xs idx).length * bits.size := bits.length_encode _
    have henough : n * bits.size ≤ (bits.encode (xs idx)).length := by
      rw [hbytes]
      exact Nat.mul_le_mul_right _ hlen
    rw [genBuff]
    simp only [readColumn, hfd, henough, decide_true, if_true, bits.drop_encode]
    have hne : ∀ c ∈ rest, c ≠ idx := fun c hc he => hidx (he ▸ hc)
    obtain ⟨fds', buff', hgen, hfds', hin, hout⟩ := ih
      (fun i c => if c = idx then
        (if (i + 1) * bits.size ≤ (bits.encode (xs idx)).length then bits.read (bits.encode (xs idx)) i
          else buff i idx) else buff i c) hrest
      (fun c hc => (Function.update_of_ne (hne c hc) (bits.encode ((xs idx).drop n)) fds).trans
        (hfds c (List.mem_cons_of_mem _ hc)))
      (fun c hc => hn c (List.mem_cons_of_mem _ hc))
    refine ⟨fds', buff', hgen, fun c => ?_, fun i c hc => ?_, fun i c hc => ?_⟩
    · rw [hfds' c]
      by_cases hc : c = idx
      · subst hc
        rw [if_neg hidx, if_pos (List.mem_cons_self ..), Function.update_self]
      · rw [Function.update_of_ne hc]
        simp only [List.mem_cons, hc, false_or]
    · rcases List.mem_cons.mp hc with rfl | hc
      · have hi : i.val < (xs c).length := lt_of_lt_of_le i.isLt hlen
        have hib : (i.val + 1) * bits.size ≤ (bits.encode (xs c)).length := by
          rw [hbytes]
          exact Nat.mul_le_mul_right _ hi
        rw [hout i c hidx, if_pos rfl, if_pos hib,
          bits.read_encode (List.getElem?_eq_getElem hi), List.getElem?_eq_getElem hi]
      · exact hin i c hc
    · rw [List.mem_cons, not_or] at hc
      rw [hout i c hc.2, if_neg hc.1]

/-- A file without enough samples ends the stream. -/
theorem genBuff_eof {idx : Fin C} {rest : List (Fin C)} {col : List T}
    (hfd : fds idx = bits.encode col) (hn : col.length < n) : (genBuff bits (idx :: rest) fds buff).1 = false := by
  have hshort : ¬ n * bits.size ≤ (bits.encode col).length := by
    rw [bits.length_encode, not_le]
    exact Nat.mul_lt_mul_of_pos_right hn bits.pos
  rw [genBuff]
  simp [readColumn, hfd, hshort]

end

def LoadPc.work : LoadPc → Nat
  | generate => 2
  | put => 7
  | putting => 4
  | close => 1
  | done => 0

namespace Load

/-- The matrices that are put or about to be. -/
def generated (s : Load T n C) : List (Fin n → Fin C → T) :=
  s.chan.sent ++ if s.pc = .put then [s.buff] else []

/-- The matrices are the blocks of `n` rows, in order, and the files hold the rows behind them. -/
structure Inv (bits : Codec T Byte) (rows : List (Fin C → T)) (s : Load T n C) : Prop where
  fds : s.pc ≠ .close → s.pc ≠ .done → ∀ c,
    s.fds c = bits.encode ((rows.drop (s.generated.length * n)).map fun row => row c)
  full : s.generated.length * n ≤ rows.length
  blocks : ∀ i m, s.generated[i]? = some m → List.ofFn m = (rows.drop (i * n)).take n
  ended : s.pc = .close ∨ s.pc = .done → rows.length < (s.generated.length + 1) * n
  isOpen : s.chan.isOpen = false ↔ s.pc = .done

variable {bits : Codec T Byte} {rows : List (Fin C → T)} {s s' : Load T n C} {e : LoadEv}

theorem inv_start (rows : List (Fin C → T)) {fds : Fin C → List Byte}
    (hfds : ∀ c, fds c = bits.encode (rows.map fun row => row c)) (buff : Fin n → Fin C → T) :
    (start fds buff).Inv bits rows where
  fds := fun _ _ c => by
    show fds c = bits.encode ((rows.drop (0 * n)).map fun row => row c)
    rw [Nat.zero_mul, List.drop_zero, hfds]
  full := by
    show 0 * n ≤ rows.length
    omega
  blocks := fun i m h => by
    cases h
  ended := fun h => by
    rcases h with h | h <;> cases h
  isOpen := ⟨nofun, nofun⟩

/-- A step that puts no matrix and reads no files. -/
theorem Inv.move (h : s.Inv bits rows) (hgen : s'.generated = s.generated) (hfds : s'.fds = s.fds)
    (hpc : s'.pc = .close ∨ s'.pc = .done ↔ s.pc = .close ∨ s.pc = .done)
    (hopen : s'.chan.isOpen = false ↔ s'.pc = .done) : s'.Inv bits rows where
  fds := fun hc hd => by
    have hn : ¬ (s.pc = .close ∨ s.pc = .done) := fun h => (hpc.mpr h).elim hc hd
    rw [hgen, hfds]
    exact h.fds (fun h => hn (.inl h)) fun h => hn (.inr h)
  full := by
    rw [hgen]
    exact h.full
  blocks := by
    rw [hgen]
    exact h.blocks
  ended := fun he => by
    rw [hgen]
    exact h.ended (hpc.mp he)
  isOpen := hopen

/-- The columns of `n` rows, read from the files, are these rows. -/
theorem ofFn_eq_take {m : Fin n → Fin C → T} (hlen : n ≤ rows.length)
    (hm : ∀ i c, (rows.map fun row => row c)[i.val]? = some (m i c)) : List.ofFn m = rows.take n := by
  refine List.ext_getElem (by simp [hlen]) fun i h h' => ?_
  rw [List.getElem_ofFn, List.getElem_take]
  funext c
  rw [List.length_ofFn] at h
  have := hm ⟨i, h⟩ c
  rw [List.getElem?_map, List.getElem?_eq_getElem (by omega)] at this
  exact (Option.some.inj this).symm

/-- A matrix is filled: the next block. -/
theorem Inv.generate (h : s.Inv bits rows) (hC : 0 < C) (hpc : s.pc = .generate)
    {ok : Bool} {fds : Fin C → List Byte} {buff : Fin n → Fin C → T}
    (hg : genBuff bits (List.finRange C) s.fds s.buff = (ok, fds, buff)) :
    { s with fds, buff, pc := if ok then .put else .close }.Inv bits rows := by
  have hopen : s.chan.isOpen ≠ false := fun ho => nomatch hpc.symm.trans (h.isOpen.mp ho)
  have hgen : s.generated = s.chan.sent := by simp [generated, hpc]
  have hfds := h.fds (by rw [hpc]; exact nofun) (by rw [hpc]; exact nofun)
  have hfull := h.full
  have hblocks := h.blocks
  rw [hgen] at hfds hfull hblocks
  rcases Nat.lt_or_ge (rows.drop (s.chan.sent.length * n)).length n with hshort | hlong
  · obtain ⟨idx, rest, hrange⟩ : ∃ idx rest, List.finRange C = idx :: rest :=
      List.exists_cons_of_length_pos (by simpa using hC)
    obtain rfl : ok = false := by
      have : (genBuff bits (idx :: rest) s.fds s.buff).1 = false :=
        genBuff_eof (hfds idx) (by simpa using hshort)
      rw [← hrange, hg] at this
      exact this
    rw [List.length_drop] at hshort
    refine ⟨fun hc => absurd rfl hc, ?_, ?_, fun _ => ?_, ⟨fun ho => absurd ho hopen, nofun⟩⟩ <;>
      simp only [generated, Bool.false_eq_true, if_false, reduceCtorEq, List.append_nil]
    · exact hfull
    · exact hblocks
    · rw [Nat.succ_mul]
      omega
  · obtain ⟨fds', buff', hgen', hfds', hbuff, -⟩ := genBuff_full s.buff
      (List.nodup_finRange C) (fun c _ => hfds c) (fun c _ => by simpa using hlong)
    rw [hg] at hgen'
    cases hgen'
    have hlen : (s.chan.sent ++ [buff]).length = s.chan.sent.length + 1 := by simp
    refine ⟨fun _ _ c => ?_, ?_, fun i m hi => ?_, ?_, ⟨fun ho => absurd ho hopen, nofun⟩⟩
    · show fds c = bits.encode ((rows.drop ((s.chan.sent ++ [buff]).length * n)).map _)
      rw [hfds' c, if_pos (List.mem_finRange c), ← List.map_drop, List.drop_drop, hlen, Nat.succ_mul]
    · show (s.chan.sent ++ [buff]).length * n ≤ rows.length
      rw [List.length_drop] at hlong
      rw [hlen, Nat.succ_mul]
      omega
    · have hi : (s.chan.sent ++ [buff])[i]? = some m := hi
      rcases Nat.lt_or_ge i s.chan.sent.length with hlt | hge
      · rw [List.getElem?_append_left hlt] at hi
        exact hblocks i m hi
      · rw [List.getElem?_append_right hge, List.getElem?_singleton] at hi
        split at hi
        · cases hi
          obtain rfl : i = s.chan.sent.length := by omega
          exact ofFn_eq_take hlong fun i c => hbuff i c (List.mem_finRange c)
        · cases hi
    · rintro (hc | hd)
      · cases hc
      · cases hd

/-- A bound on the steps that are left. -/
def work (length : Nat) (s : Load T n C) : Nat :=
  10 * (length / n - s.generated.length) + s.chan.data.length + s.pc.work

/-- A matrix that is filled is one block less to fill. -/
theorem work_generate (hn : 0 < n) (hpc : s.pc = .generate) {ok : Bool} {fds : Fin C → List Byte}
    {buff : Fin n → Fin C → T}
    (hi : { s with fds, buff, pc := if ok then .put else .close }.Inv bits rows) :
    { s with fds, buff, pc := if ok then .put else .close }.work rows.length < s.work rows.length := by
  have hfull := hi.full
  have hgen : s.generated = s.chan.sent := by simp [generated, hpc]
  unfold work
  rw [hgen, hpc]
  cases ok with
  | false => simp [generated, LoadPc.work]
  | true =>
    simp only [generated, if_true, List.length_append, List.length_cons, List.length_nil,
      LoadPc.work] at hfull ⊢
    have := (Nat.le_div_iff_mul_le hn).mpr hfull
    omega

theorem Inv.step (h : s.Inv bits rows) (hC : 0 < C) (hn : 0 < n) (hs : s.step bits e = some s') :
    s'.Inv bits rows ∧ s'.work rows.length < s.work rows.length := by
  cases e with
  | consume =>
    obtain ⟨⟨m, chan⟩, ht, rfl⟩ := Option.map_eq_some_iff.mp hs
    have htakes := Channel.takes_of_take ht
    have hgen : generated { s with chan } = s.generated := by
      unfold generated
      rw [htakes.sent]
    refine ⟨h.move hgen rfl Iff.rfl ?_, ?_⟩
    · rw [htakes.isOpen]
      exact h.isOpen
    · unfold work
      rw [hgen, htakes.data, List.length_cons]
      dsimp only
      omega
  | thread =>
    unfold Load.step at hs
    dsimp only at hs
    split at hs
    · rename_i hpc
      cases hs
      have hi := h.generate hC hpc rfl
      exact ⟨hi, work_generate hn hpc hi⟩
    · rename_i hpc
      obtain ⟨chan, hp, rfl⟩ := Option.map_eq_some_iff.mp hs
      have hputs := Channel.puts_of_put hp
      have hgen : generated { s with chan, pc := .putting } = s.generated := by
        simp [generated, hpc, hputs.sent]
      refine ⟨h.move hgen rfl ?_ ?_, ?_⟩
      · simp [hpc]
      · rw [hputs.isOpen, hputs.wasOpen]
        exact ⟨nofun, nofun⟩
      · unfold work
        rw [hgen, hputs.data, hpc, List.length_append]
        simp only [LoadPc.work, List.length_cons, List.length_nil]
        omega
    · rename_i hpc
      split at hs
      · cases hs
        have hgen : generated { s with pc := .generate } = s.generated := by simp [generated, hpc]
        refine ⟨h.move hgen rfl ?_ ?_, ?_⟩
        · simp [hpc]
        · rw [h.isOpen, hpc]
          exact ⟨nofun, nofun⟩
        · unfold work
          rw [hgen, hpc]
          simp only [LoadPc.work]
          omega
      · cases hs
    · rename_i hpc
      cases hs
      have hgen : generated { s with chan := s.chan.close, pc := .done } = s.generated := by
        simp [generated, hpc]
      refine ⟨h.move hgen rfl ?_ ⟨fun _ => rfl, fun _ => rfl⟩, ?_⟩
      · simp [hpc]
      · unfold work
        rw [hgen, hpc]
        simp only [LoadPc.work, Channel.close]
        omega
    · cases hs

/-- When no step is possible the channel is closed and all matrices are taken. -/
theorem Inv.end (h : s.Inv bits rows) (hend : ∀ e, s.step bits e = none) :
    s.pc = .done ∧ s.chan.data = [] := by
  have hd : s.chan.data = [] := Channel.take_eq_none.mp (Option.map_eq_none_iff.mp (hend .consume))
  refine ⟨?_, hd⟩
  have hthread := hend .thread
  unfold Load.step at hthread
  cases hpc : s.pc with
  | put =>
    have ho : s.chan.isOpen = true := by
      rw [← Bool.not_eq_false, h.isOpen, hpc]
      exact nofun
    obtain ⟨chan, hc⟩ := Channel.exists_put ho hd s.buff
    simp [hpc, hc] at hthread
  | putting =>
    have hp : s.chan.PutDone := fun _ => hd
    simp [hpc, hp] at hthread
  | done => rfl
  | _ => simp [hpc] at hthread

end Load

/-! ## The round trip -/

section

variable {bits : Codec T Byte} {rows rest : List (Fin C → T)} {fds : Fin C → List Byte}

/-- What a run from files with these rows has put when no step is possible. -/
theorem Load.result_eq (hC : 0 < C) (hn : 0 < n)
    (hfds : ∀ c, fds c = bits.encode (rows.map fun row => row c)) {buff : Fin n → Fin C → T}
    {es : List LoadEv} {s : Load T n C} (hr : (machine bits n C).run es (start fds buff) = some s)
    (hend : ∀ e, s.step bits e = none) :
    s.chan.isOpen = false ∧ s.chan.taken.length = rows.length / n ∧
      ∀ i m, s.chan.taken[i]? = some m → List.ofFn m = (rows.drop (i * n)).take n := by
  have hi : s.Inv bits rows :=
    Machine.run_inv (fun _ _ _ h hs => (h.step hC hn hs).1) (inv_start rows hfds buff) hr
  obtain ⟨hd, hempty⟩ := hi.end hend
  have hgen : s.generated = s.chan.taken := by
    rw [generated, hd, Channel.taken_eq_sent hempty]
    exact List.append_nil _
  have hfull := hi.full
  have hended := hi.ended (.inr hd)
  rw [hgen] at hfull hended
  refine ⟨hi.isOpen.mpr hd, ?_, ?_⟩
  · exact (Nat.div_eq_of_lt_le hfull hended).symm
  · rw [← hgen]
    exact hi.blocks

/-- `stream_data(paths, T; chunk_size)` yields the full blocks of `n` rows, and closes: under every
schedule, after a bounded number of steps. -/
structure Load.Delivers (bits : Codec T Byte) (rows : List (Fin C → T)) (fds : Fin C → List Byte)
    (buff : Fin n → Fin C → T) : Prop where
  ends : ∃ k, ∀ es s, (machine bits n C).run es (start fds buff) = some s → es.length ≤ k
  result : ∀ es s, (machine bits n C).run es (start fds buff) = some s →
    (∀ e, s.step bits e = none) → s.chan.isOpen = false ∧ s.chan.taken.length = rows.length / n ∧
      ∀ i m, s.chan.taken[i]? = some m → List.ofFn m = (rows.drop (i * n)).take n

/-- From files with the beginning of the rows all blocks come exactly if none ends behind it. -/
theorem Load.delivers_iff (rest : List (Fin C → T)) (hC : 0 < C) (hn : 0 < n)
    (hfds : ∀ c, fds c = bits.encode (rows.map fun row => row c)) (buff : Fin n → Fin C → T) :
    Delivers bits (rows ++ rest) fds buff ↔ rows.length / n = (rows ++ rest).length / n := by
  have hstep : ∀ (s : Load T n C) e s', s.Inv bits rows → (machine bits n C).step s e = some s' →
      s'.Inv bits rows ∧ s'.work rows.length < s.work rows.length := fun _ _ _ h hs =>
    h.step hC hn hs
  have hstart := inv_start rows hfds buff
  constructor
  · intro h
    obtain ⟨es, s, hr, hend⟩ := Machine.exists_run_end hstep hstart
    rw [← (result_eq hC hn hfds hr hend).2.1]
    exact (h.result es s hr hend).2.1
  · intro hlen
    refine ⟨⟨_, fun es s hr => Machine.run_length_le hstep hstart hr⟩, fun es s hr hend => ?_⟩
    obtain ⟨hclosed, htaken, hblocks⟩ := result_eq hC hn hfds hr hend
    refine ⟨hclosed, htaken.trans hlen, fun i m hm => ?_⟩
    have hi : i < rows.length / n := htaken ▸ (List.getElem?_eq_some_iff.mp hm).1
    have hfull : (i + 1) * n ≤ rows.length := (Nat.le_div_iff_mul_le hn).mp hi
    rw [Nat.succ_mul] at hfull
    rw [hblocks i m hm, List.drop_append_of_le_length (by omega),
      List.take_append_of_le_length (by rw [List.length_drop]; omega)]

end

namespace Save

/-- The number of rows of some matrices. -/
def rowCount (l : List (Samples T)) : Nat := (l.map fun data => data.rows.length).sum

/-- When the loop has found the channel empty and reads `isopen`, the channel is open, or no block
of `n` rows ends in the matrices that are in it by now. -/
def InTime (n : Nat) (s : Save T C) (e : SaveEv) : Prop :=
  e = .thread → s.pc = .loop .isopen → s.chan.isOpen = true ∨
    rowCount s.chan.taken / n = rowCount s.chan.sent / n

instance (n : Nat) (s : Save T C) : ∀ e, Decidable (s.InTime n e)
  | .source => isTrue nofun
  | .thread =>
    match h : s.pc with
    | .loop .isopen => decidable_of_iff (s.chan.isOpen = true ∨
        rowCount s.chan.taken / n = rowCount s.chan.sent / n) ⟨fun ht _ _ => ht, fun ht => ht rfl h⟩
    | .loop .isempty | .loop .take | .loop (.body _) | .loop .left | .done | .failed =>
      isTrue fun _ hl => nomatch h.symm.trans hl

/-- A thread that has left its loop has taken all blocks. -/
def Kept (n : Nat) (s : Save T C) : Prop :=
  s.pc.Past → rowCount s.chan.taken / n = rowCount s.chan.sent / n

variable {bits : Codec T Byte} {cap : Nat} {input : List (List (Fin C → T))} {s s' : Save T C}
  {e : SaveEv}

theorem Inv.kept (h : s.Inv bits cap input) (hk : s.Kept n) (ht : s.InTime n e)
    (he : Effect bits s e s') : s'.Kept n := by
  intro hp
  cases he with
  | source he =>
    rw [he.byPutter.closed (h.closed hp)]
    exact hk hp
  | look hpc hs hl hl' => exact absurd hp (SavePc.not_past_looking hl')
  | leave hpc hc =>
    refine (ht rfl hpc).resolve_left fun ho => ?_
    rw [hc] at ho
    cases ho
  | take => exact hp.elim
  | write => exact hp.elim
  | fail hcols hpc =>
    obtain ⟨rows, rfl⟩ := h.hand_eq hpc
    exact absurd rfl hcols
  | done hpc => exact hk (by rw [hpc]; trivial)

/-- What is left behind stays behind. -/
theorem Inv.kept_back (h : s.Inv bits cap input) (he : Effect bits s e s') (hk : s'.Kept n) :
    s.Kept n := by
  intro hp
  cases he with
  | source he =>
    have := hk hp
    rwa [he.byPutter.closed (h.closed hp)] at this
  | look hpc hs hl hl' =>
    rw [hpc] at hp
    exact absurd hp (SavePc.not_past_looking hl)
  | leave hpc hc =>
    rw [hpc] at hp
    exact hp.elim
  | take hpc ht =>
    rw [hpc] at hp
    exact hp.elim
  | write hcols hpc =>
    rw [hpc] at hp
    exact hp.elim
  | fail hcols hpc =>
    rw [hpc] at hp
    exact hp.elim
  | done hpc => exact hk trivial

/-- A test that comes too late leaves blocks behind. -/
theorem inTime_of_kept (he : Effect bits s e s') (hk : s'.Kept n) : s.InTime n e := by
  rintro rfl hpc
  cases he with
  | leave _ hc => exact .inr (hk trivial)
  | look hpc' hs hl hl' =>
    cases hpc.symm.trans hpc'
    cases ho : s.chan.isOpen with
    | true => exact .inl rfl
    | false =>
      simp only [Consume.step, ho] at hs
      cases hs
      cases hl'
  | take hpc' => cases hpc.symm.trans hpc'
  | write _ hpc' => cases hpc.symm.trans hpc'
  | fail _ hpc' => cases hpc.symm.trans hpc'
  | done hpc' => cases hpc.symm.trans hpc'

/-- After a run that has ended all blocks are taken exactly if all tests were in time. -/
theorem kept_iff_along {es : List SaveEv}
    (hr : (machine bits C).run es (start cap input) = some s) :
    s.Kept n ↔ (machine bits C).Along (InTime n) es (start cap input) := by
  refine Machine.last_iff_along (I := Inv bits cap input) (P := Kept n) ?_ ?_ ?_ ?_
    (inv_start bits cap input) (fun hp => hp.elim) hr
  · exact fun s e s' h hs => h.step (step_effect hs)
  · exact fun s e s' h hk ht hs => h.kept hk ht (step_effect hs)
  · exact fun s e s' h hs => h.kept_back (step_effect hs)
  · exact fun s e s' hs => inTime_of_kept (step_effect hs)

/-- Without a capacity all tests are in time. -/
theorem inTime_of_unbuffered (bits : Codec T Byte) (n : Nat) (input : List (List (Fin C → T)))
    (es : List SaveEv) : (machine bits C).Along (InTime n) es (start 0 input) := by
  refine Machine.along_of_inv (C := fun _ _ => True) (I := Inv bits 0 input)
    (fun _ _ _ h _ hs => h.step (step_effect hs)) (fun s e s' h _ hs => ?_) (inv_start bits 0 input)
    (Machine.along_of_forall fun _ _ => trivial)
  rintro - -
  cases ho : s.chan.isOpen with
  | true => exact .inl rfl
  | false =>
    refine .inr ?_
    rw [Channel.taken_eq_sent (h.feeds.closed_empty ho h.cap)]

theorem rowCount_map_matrix (l : List (List (Fin C → T))) :
    rowCount (l.map matrix) = l.flatten.length := by
  rw [rowCount, List.map_map, List.length_flatten]
  rfl

/-- What a run that has ended leaves on disk comes back in blocks exactly if all tests were in
time. -/
theorem delivers_iff_along (hC : 0 < C) (hn : 0 < n) {es : List SaveEv}
    (hr : (machine bits C).run es (start cap input) = some s)
    (hend : ∀ e, s.step bits e = none) (buff : Fin n → Fin C → T) :
    Load.Delivers bits input.flatten s.fds buff ↔
      (machine bits C).Along (InTime n) es (start cap input) := by
  have hi : s.Inv bits cap input :=
    Machine.run_inv (fun s e s' h hs => h.step (step_effect hs)) (inv_start bits cap input) hr
  have hd := hi.done hend
  have hsent := hi.feeds.input_eq (hi.closed (by rw [hd]; trivial))
  obtain ⟨rows, rest, rfl, htaken, hfds⟩ := hi.fds_eq hd
  rw [← kept_iff_along hr, List.flatten_append, Load.delivers_iff _ hC hn hfds buff, Kept, hd, htaken,
    ← hsent, rowCount_map_matrix, rowCount_map_matrix, List.flatten_append]
  exact ⟨fun h _ => h, fun h => h trivial⟩

end Save

/-- Writing a finite sequence of matrices to files always ends, and so does reading them. The rows
come back in blocks of `n` exactly if every test of the writer's loop is in time. -/
theorem disk_round_trip_iff (bits : Codec T Byte) (cap n C : Nat) (input : List (List (Fin C → T)))
    (hC : 0 < C) (hn : 0 < n) :
    (∃ k, ∀ es s, (Save.machine bits C).run es (Save.start cap input) = some s → es.length ≤ k) ∧
      ∀ es s, (Save.machine bits C).run es (Save.start cap input) = some s →
        (∀ e, s.step bits e = none) → s.pc = .done ∧
          ((∀ buff : Fin n → Fin C → T, Load.Delivers bits input.flatten s.fds buff) ↔
            (Save.machine bits C).Along (Save.InTime n) es (Save.start cap input)) := by
  have hstart := Save.inv_start bits cap input
  refine ⟨⟨(Save.start cap input).work, fun es s hr => ?_⟩, fun es s hr hend => ⟨?_, ?_⟩⟩
  · exact Machine.run_length_le (M := Save.machine bits C) (fun s e s' h hs =>
      ⟨h.step (Save.step_effect hs), (Save.step_effect hs).work_lt⟩) hstart hr
  · exact (Machine.run_inv (M := Save.machine bits C) (fun s e s' h hs => h.step (Save.step_effect hs))
      hstart hr).done hend
  · constructor
    · exact fun h => (Save.delivers_iff_along hC hn hr hend fun _ _ => bits.ofBytes []).mp (h _)
    · exact fun ht buff => (Save.delivers_iff_along hC hn hr hend buff).mpr ht

/-- The raw bit format of `Complex{Int16}`: real part and imaginary part, the low byte first. -/
def complexInt16 : Codec (BitVec 16 × BitVec 16) Byte where
  size := 4
  pos := by decide
  toBytes x := [x.1.extractLsb' 0 8, x.1.extractLsb' 8 8, x.2.extractLsb' 0 8, x.2.extractLsb' 8 8]
  length_toBytes _ := rfl
  ofBytes
    | [a, b, c, d] => (b ++ a, d ++ c)
    | _ => (0, 0)
  ofBytes_toBytes x := by
    have h : ∀ y : BitVec 16, y.extractLsb' 8 8 ++ y.extractLsb' 0 8 = y := by
      intro y
      rw [BitVec.extractLsb'_append_extractLsb'_eq_extractLsb' (by decide)]
      exact BitVec.extractLsb'_eq_self
    exact Prod.ext (h x.1) (h x.2)

/-- Five rows of two channels in two matrices. -/
def samples : List (List (Fin 2 → BitVec 16 × BitVec 16)) :=
  let row (t : Nat) : Fin 2 → BitVec 16 × BitVec 16 := fun idx =>
    (.ofNat 16 (300 * t + idx), .ofNat 16 (300 * t + 100 + idx))
  [[row 0, row 1, row 2], [row 3, row 4]]

/-- The second matrix is put while the thread has the first one in hand; the channel is closed before
the thread takes the second. -/
def saveRun : List SaveEv :=
  [.source, .source, .thread, .thread, .source, .source, .source, .thread, .thread, .thread, .thread,
    .thread, .thread, .thread]

/-- Two blocks of two rows come back from the files, and the fifth row is left. -/
theorem disk_round_trip_iff_blocks :
    ∃ s, (Save.machine complexInt16 2).run saveRun (Save.start 1 samples) = some s ∧ s.pc = .done ∧
      ∀ buff : Fin 2 → Fin 2 → BitVec 16 × BitVec 16,
        Load.Delivers complexInt16 samples.flatten s.fds buff := by
  obtain ⟨s, hs⟩ := Option.isSome_iff_exists.mp (show ((Save.machine complexInt16 2).run saveRun
    (Save.start 1 samples)).isSome = true by decide +kernel)
  have hend : ∀ e, s.step complexInt16 e = none := fun e =>
    Machine.step_eq_none hs (by cases e <;> decide +kernel)
  obtain ⟨hdone, hiff⟩ := (disk_round_trip_iff complexInt16 1 2 2 samples (by decide) (by decide)).2
    saveRun s hs hend
  exact ⟨s, hs, hdone, hiff.mpr (by decide +kernel)⟩

/-- The thread finds the buffered channel empty; then it gets the only matrix and is closed; then the
thread finds it closed. -/
def lateRun : List SaveEv := [.thread, .source, .source, .source, .thread, .thread]

/-- The block of one row does not come back. -/
theorem disk_round_trip_loses :
    ∃ s : Save (BitVec 16 × BitVec 16) 1, (Save.machine complexInt16 1).run lateRun
        (Save.start 1 [[fun _ => (1, 2)]]) = some s ∧
      (∀ e, s.step complexInt16 e = none) ∧
      ¬ ∀ buff : Fin 1 → Fin 1 → BitVec 16 × BitVec 16,
        Load.Delivers complexInt16 [fun _ => (1, 2)] s.fds buff := by
  obtain ⟨s, hs⟩ := Option.isSome_iff_exists.mp (show ((Save.machine complexInt16 1).run lateRun
    (Save.start 1 [[fun _ => (1, 2)]])).isSome = true by decide)
  refine ⟨s, hs, fun e => Machine.step_eq_none hs (by cases e <;> decide), fun h => ?_⟩
  have hfds : ∀ c, s.fds c = complexInt16.encode (([] : List (Fin 1 → _)).map fun row => row c) :=
    fun c => Machine.view_eq hs (fun s => s.fds c) (by revert c; decide)
  have := (Load.delivers_iff [fun _ => (1, 2)] (by decide) (by decide) hfds
    fun _ _ => (0, 0)).mp (h _)
  cases this

end Sigflow
end Xtrx
