import Xtrx.Sigflow.Disk
import Xtrx.Sigflow.RechunkContent

/-!
# What `rechunk` puts on its output (`libsigflow.jl`)

- **`Rechunking`**: a source that puts matrices to the input of `rechunk` and closes it, the task of
  `rechunk` with the loop of `consume_channel`, and a task that takes the chunks.
- **`blocks`**: the blocks of `chunk_size` consecutive rows of a stream; the rest is dropped.
- **`rechunk_exact_iff`**: all runs end; what has been put, with its contents at the put, are the
  first blocks of the input. In the end they are all blocks if and only if the loop, when it has
  found its channel empty and finds it closed, leaves no rows behind that would complete a block.
-/

namespace Xtrx
namespace Sigflow

open Conc

variable {ρ : Type}

/-! ## Blocks of rows -/

/-- The blocks of `n` rows, without the last incomplete one. -/
def blocks (n : Nat) (rows : List ρ) : List (List ρ) :=
  (List.range (rows.length / n)).map fun j => (rows.drop (j * n)).take n

@[simp] theorem length_blocks (n : Nat) (rows : List ρ) :
    (blocks n rows).length = rows.length / n := by
  simp [blocks]

/-- A full block of the beginning of the rows is one of them. -/
theorem getElem?_blocks_append {n j : Nat} {rows : List ρ} (hn : 0 < n)
    (hj : (j + 1) * n ≤ rows.length) (rest : List ρ) :
    (blocks n (rows ++ rest))[j]? = some ((rows.drop (j * n)).take n) := by
  have hall : j < (rows ++ rest).length / n := by
    rw [Nat.lt_iff_add_one_le, Nat.le_div_iff_mul_le hn, List.length_append]
    omega
  rw [Nat.succ_mul] at hj
  rw [blocks, List.getElem?_map, List.getElem?_range hall, Option.map_some,
    List.drop_append_of_le_length (by omega),
    List.take_append_of_le_length (by rw [List.length_drop]; omega)]

/-- The rows of a chunk when it was put. -/
def Item.rows (chunkSize : Nat) (item : Item ρ) : List ρ := (List.range chunkSize).map item.contents

/-- They are a block if each of them is in its place. -/
theorem Item.rows_eq {chunkSize k : Nat} {item : Item ρ} {stream : List ρ}
    (h : ∀ i, i < chunkSize → stream[k + i]? = some (item.contents i)) :
    item.rows chunkSize = (stream.drop k).take chunkSize := by
  refine List.ext_getElem? fun i => ?_
  rw [rows, List.getElem?_map]
  by_cases hi : i < chunkSize
  · rw [List.getElem?_range hi, List.getElem?_take_of_lt hi, List.getElem?_drop, h i hi]
    rfl
  · have hi : chunkSize ≤ i := Nat.le_of_not_lt hi
    rw [List.getElem?_eq_none (by simpa using hi), List.getElem?_take_eq_none hi]
    rfl

/-! ## The tasks -/

/-- The body of the loop has a matrix in hand; where it is in the body, `view` says. `view.task` has
no matrices of its own. -/
structure Rechunking (ρ : Type) where
  source : Source (Matrix ρ)
  chan : Channel (Matrix ρ)
  loop : Consume (Matrix ρ)
  view : RechunkView ρ

/-- Whose step comes next; `consume` is one of the task that takes the chunks. -/
inductive RechunkingEv where
  | source
  | rechunk
  | consume

/-- The loop after a step of its body. -/
def RechunkPc.loopAfter (data : Matrix ρ) : RechunkPc ρ → Consume (Matrix ρ)
  | take => .isempty
  | _ => .body data

/-- The body starts with the matrix that the loop has taken. -/
def RechunkView.enter (v : RechunkView ρ) : Consume (Matrix ρ) → RechunkView ρ
  | .body data => { v with task := { v.task with pc := .loop data } }
  | _ => v

namespace Rechunking

def step (chunkSize : Nat) (s : Rechunking ρ) : RechunkingEv → Option (Rechunking ρ)
  | .source => (s.source.step s.chan).map fun r => { s with source := r.1, chan := r.2 }
  | .rechunk =>
    match s.loop with
    | .body data => (Rechunk.step chunkSize s.view).map fun view =>
        { s with view, loop := view.task.pc.loopAfter data }
    -- the end of the function given to `spawn_channel_thread`, then its `close(out)`
    | .left => (Rechunk.step chunkSize s.view).map fun view => { s with view }
    | l => (l.step id s.chan).map fun r =>
        { s with loop := r.1, chan := r.2, view := s.view.enter r.1 }
  | .consume => s.view.out.take.map fun r => { s with view := { s.view with out := r.2 } }

def machine (ρ : Type) (chunkSize : Nat) : Machine (Rechunking ρ) RechunkingEv := ⟨step chunkSize⟩

/-- An input of the capacity `cap`, and any contents of the chunks. -/
def start (cap : Nat) (input : List (Matrix ρ)) (mem : Chunks ρ) : Rechunking ρ :=
  ⟨.put input, .new cap, .isempty, ⟨.start [], mem, .new 0⟩⟩

/-- What has been put, each chunk with the rows that it had then. -/
def puts (chunkSize : Nat) (s : Rechunking ρ) : List (List ρ) :=
  s.view.out.sent.map (Item.rows chunkSize)

/-- What a step does. -/
inductive Effect (chunkSize : Nat) (s : Rechunking ρ) : RechunkingEv → Rechunking ρ → Prop
  | source {source chan} (he : Source.Effect s.source s.chan source chan) :
    Effect chunkSize s .source { s with source, chan }
  | look {l l'} (hloop : s.loop = l) (hs : l.step id s.chan = some (l', s.chan)) (hl : l.Looking)
    (hl' : l'.Looking) : Effect chunkSize s .rechunk { s with loop := l' }
  | leave (hloop : s.loop = .isopen) (hc : s.chan.isOpen = false) :
    Effect chunkSize s .rechunk { s with loop := .left }
  | take {data chan} (hloop : s.loop = .take) (ht : s.chan.Takes data chan) :
    Effect chunkSize s .rechunk { s with
      chan, loop := .body data, view := s.view.enter (.body data) }
  | body {data view} (hloop : s.loop = .body data) (he : Rechunk.Effect chunkSize s.view view) :
    Effect chunkSize s .rechunk { s with view, loop := view.task.pc.loopAfter data }
  | finish {view} (hloop : s.loop = .left) (he : Rechunk.Effect chunkSize s.view view) :
    Effect chunkSize s .rechunk { s with view }
  | consume {item out} (ht : s.view.out.Takes item out) :
    Effect chunkSize s .consume { s with view := { s.view with out } }

variable {chunkSize : Nat} {s s' : Rechunking ρ} {e : RechunkingEv}

theorem step_effect (h : s.step chunkSize e = some s') : Effect chunkSize s e s' := by
  cases e with
  | source =>
    obtain ⟨⟨source, chan⟩, hs, rfl⟩ := Option.map_eq_some_iff.mp h
    exact .source (Source.step_effect hs)
  | rechunk =>
    unfold step at h
    dsimp only at h
    split at h
    · rename_i data hloop
      obtain ⟨view, hs, rfl⟩ := Option.map_eq_some_iff.mp h
      exact .body hloop (Rechunk.step_effect hs)
    · rename_i hloop
      obtain ⟨view, hs, rfl⟩ := Option.map_eq_some_iff.mp h
      exact .finish hloop (Rechunk.step_effect hs)
    · rename_i hbody hleft
      obtain ⟨⟨l', c'⟩, hs, rfl⟩ := Option.map_eq_some_iff.mp h
      obtain ⟨hl, ⟨data, ht, hloop, rfl⟩ | ⟨rfl, hl' | ⟨hloop, hc, rfl⟩⟩⟩ := Consume.step_cases hs
      · exact .take hloop (Channel.takes_of_take ht)
      · have hview : s.view.enter l' = s.view := by cases hl' <;> rfl
        rw [hview]
        exact .look rfl hs hl hl'
      · exact .leave hloop hc
  | consume =>
    obtain ⟨⟨item, out⟩, ht, rfl⟩ := Option.map_eq_some_iff.mp h
    exact .consume (Channel.takes_of_take ht)

end Rechunking

/-! ## The contents of the chunks that are put -/

section

variable {stream : List ρ} {chunkSize cols : Nat} {v v' : RechunkView ρ}

/-- Between two matrices the stream goes on with the rows of the next one. -/
theorem Content.enter (h : Content stream chunkSize cols v) (hsize : 0 < chunkSize)
    (hcols : 0 < cols) (hpc : v.task.pc = .take) (hin : v.task.input = []) {data : Matrix ρ}
    (hdata : data.cols = cols) :
    Content (stream ++ data.rows) chunkSize cols (v.enter (.body data)) := by
  -- the list of `task` stands for the channel: `next` is the step that takes from it
  have hnext : Content (stream ++ data.rows) chunkSize cols
      { v with task := { v.task with input := [data] } } := by
    obtain ⟨⟨input, pc, chunkFilled, chunkIdx, numChannels, alloc⟩, mem, out⟩ := v
    obtain rfl : pc = _ := hpc
    obtain rfl : input = _ := hin
    obtain ⟨copied, hlen, hstream⟩ := h.copied
    have hcopied : copied = stream := by
      rw [← hstream]
      exact (List.append_nil _).symm
    refine ⟨⟨h.order.cap, h.order.putDone, h.order.idx, h.order.idxPutting, h.order.sent⟩, h.isOpen,
      ⟨copied, hlen, ?_⟩, h.filled, h.allocated, h.sent, ?_, nofun, nofun, fun g hg hw => ?_⟩
    · rw [hcopied]
      show stream ++ ([] ++ [data].flatMap Matrix.rows) = _
      simp
    · intro d hd
      rw [List.mem_singleton.mp hd]
      exact hdata
    · have hlt : g < stream.length := by
        rw [← hcopied, hlen]
        exact hg
      rw [List.getElem?_append_left hlt]
      exact h.mem g hg hw
  have := hnext.step hsize hcols (.next hpc rfl)
  rwa [← hin] at this

/-- A chunk that is put holds the next block of the stream. -/
theorem Content.put (h : Content stream chunkSize cols v) {rest : Matrix ρ}
    (hpc : v.task.pc = .put rest) {i : Nat} (hi : i < chunkSize) :
    stream[v.out.sent.length * chunkSize + i]? = some (v.mem v.task.ref i) := by
  have hfilled : v.task.chunkFilled = chunkSize := by
    have := h.filled
    rwa [Rechunk.Filled, hpc] at this
  have hnumber : v.number = v.out.sent.length := by rw [RechunkView.number, hpc]
  have hwritten : v.written chunkSize = v.out.sent.length * chunkSize + chunkSize := by
    rw [RechunkView.written, hnumber, hfilled, hpc]
    rfl
  have hne : ∀ pc : RechunkPc ρ, .put rest ≠ pc → v.task.pc ≠ pc := fun _ h hc => h (hpc.symm.trans hc)
  have halloc := h.allocated.of_busy (hne _ (by simp)) (fun _ => hne _ (by simp)) (hne _ (by simp))
    (hne _ (by simp))
  have hrow := h.mem (v.out.sent.length * chunkSize + i) (by omega) (by omega)
  rw [place_row hi, ← hnumber, ← h.idx, hnumber] at hrow
  rw [hrow, Rechunk.ref, halloc.1]

/-- The chunks that were put hold the first blocks of the stream. -/
def Blocks (stream : List ρ) (chunkSize : Nat) (out : Channel (Item ρ)) : Prop :=
  ∀ j item, out.sent[j]? = some item → ∀ i, i < chunkSize →
    stream[j * chunkSize + i]? = some (item.contents i)

/-- A longer stream has them too. -/
theorem Blocks.append {out : Channel (Item ρ)} (h : Blocks stream chunkSize out) (rows : List ρ) :
    Blocks (stream ++ rows) chunkSize out := by
  intro j item hj i hi
  have hrow := h j item hj i hi
  rw [List.getElem?_append_left (List.getElem?_eq_some_iff.mp hrow).1]
  exact hrow

theorem Blocks.step (hb : Blocks stream chunkSize v.out) (h : Content stream chunkSize cols v)
    (he : Rechunk.Effect chunkSize v v') : Blocks stream chunkSize v'.out := by
  cases he with
  | put hpc hp =>
    intro j item hj i hi
    rcases (Channel.puts_of_put hp).sent_cases hj with hold | ⟨rfl, rfl⟩
    · exact hb j item hold i hi
    · exact h.put hpc hi
  | _ => exact hb

end

namespace Rechunking

/-- The rows taken from the input so far. -/
def takenRows (s : Rechunking ρ) : List ρ := s.chan.taken.flatMap Matrix.rows

/-- The loop and the place in its body belong together. -/
def At : Consume (Matrix ρ) → RechunkPc ρ → Prop
  | .body _, pc => pc ≠ .take ∧ pc ≠ .close ∧ pc ≠ .done
  | .left, pc => pc = .take ∨ pc = .close ∨ pc = .done
  | _, pc => pc = .take

/-- What is taken is copied or in hand, and every chunk that was put had its rows in place. -/
structure Inv (cap chunkSize cols : Nat) (input : List (Matrix ρ)) (s : Rechunking ρ) : Prop where
  feeds : s.source.Feeds input s.chan
  cap : s.chan.cap = cap
  content : Content s.takenRows chunkSize cols s.view
  puts : Blocks s.takenRows chunkSize s.view.out
  noInput : s.view.task.input = []
  at_ : At s.loop s.view.task.pc
  closed : s.loop = .left → s.chan.isOpen = false

theorem At.looking {l : Consume (Matrix ρ)} {pc : RechunkPc ρ} (hl : l.Looking) :
    At l pc ↔ pc = .take := by
  cases hl <;> exact Iff.rfl

variable {cap chunkSize cols : Nat} {input : List (Matrix ρ)} {s s' : Rechunking ρ}
  {e : RechunkingEv}

theorem inv_start (cap : Nat) (hsize : 0 < chunkSize) (input : List (Matrix ρ)) (mem : Chunks ρ) :
    (start cap input mem).Inv cap chunkSize cols input where
  feeds := Source.feeds_start cap input
  cap := rfl
  content := content_start [] mem hsize nofun
  puts := nofun
  noInput := rfl
  at_ := rfl
  closed := nofun

/-- What is taken is a beginning of the input. -/
theorem Inv.taken_prefix (h : s.Inv cap chunkSize cols input) : s.chan.taken <+: input :=
  s.chan.taken_prefix_sent.trans ⟨_, h.feeds.sent.symm⟩

theorem Inv.stream_eq (h : s.Inv cap chunkSize cols input) :
    ∃ rest, input.flatMap Matrix.rows = s.takenRows ++ rest := by
  obtain ⟨rest, rfl⟩ := h.taken_prefix
  exact ⟨_, List.flatMap_append⟩

/-- A matrix that is taken is one of the input. -/
theorem Inv.cols_eq (h : s.Inv cap chunkSize cols input)
    (hinput : ∀ data ∈ input, data.cols = cols) {data : Matrix ρ} {chan : Channel (Matrix ρ)}
    (ht : s.chan.Takes data chan) : data.cols = cols := by
  refine hinput data ?_
  rw [h.feeds.sent, Channel.sent, ht.data]
  simp

/-- After a step of the body the loop is at its test, or still in the body. -/
theorem at_loopAfter (data : Matrix ρ) {v v' : RechunkView ρ} (he : Rechunk.Effect chunkSize v v')
    (hpc : v.task.pc ≠ .take ∧ v.task.pc ≠ .close ∧ v.task.pc ≠ .done) :
    At (v'.task.pc.loopAfter data) v'.task.pc := by
  cases he with
  | finish h => exact absurd h hpc.1
  | next h => exact absurd h hpc.1
  | close h => exact absurd h hpc.2.1
  | skip => exact rfl
  | _ => exact ⟨nofun, nofun, nofun⟩

/-- After its loop `rechunk` closes its output and is done. -/
theorem at_left {v v' : RechunkView ρ} (he : Rechunk.Effect chunkSize v v')
    (hin : v.task.input = []) (hpc : At (.left : Consume (Matrix ρ)) v.task.pc) :
    At (.left : Consume (Matrix ρ)) v'.task.pc := by
  cases he with
  | finish => exact .inr (.inl rfl)
  | close => exact .inr (.inr rfl)
  | next _ hn => cases hin.symm.trans hn
  | _ h => simp [At, h] at hpc

/-- No step of `rechunk` itself brings matrices. -/
theorem noInput_effect {v v' : RechunkView ρ} (he : Rechunk.Effect chunkSize v v')
    (hin : v.task.input = []) : v'.task.input = [] := by
  cases he with
  | next _ hn => cases hin.symm.trans hn
  | turn => exact (Rechunk.makeChunks_input _ _).trans hin
  | _ => exact hin

theorem Inv.step (h : s.Inv cap chunkSize cols input) (hsize : 0 < chunkSize) (hcols : 0 < cols)
    (hinput : ∀ data ∈ input, data.cols = cols) (he : Effect chunkSize s e s') :
    s'.Inv cap chunkSize cols input := by
  cases he with
  | @source source chan he =>
    have hput := he.byPutter
    have hrows : takenRows { s with source, chan } = s.takenRows := by
      rw [takenRows, hput.taken]
      rfl
    refine ⟨h.feeds.step he, hput.cap.trans h.cap, ?_, ?_, h.noInput, h.at_, fun hl => ?_⟩
    · rw [hrows]
      exact h.content
    · rw [hrows]
      exact h.puts
    · have hc := h.closed hl
      show chan.isOpen = false
      rw [hput.closed hc, hc]
  | look hloop hs hl hl' =>
    have hpc : s.view.task.pc = .take := (At.looking hl).mp (hloop ▸ h.at_)
    refine ⟨h.feeds, h.cap, h.content, h.puts, h.noInput, (At.looking hl').mpr hpc, ?_⟩
    rintro rfl
    cases hl'
  | leave hloop hc =>
    have hpc : s.view.task.pc = .take := (At.looking .isopen).mp (hloop ▸ h.at_)
    exact ⟨h.feeds, h.cap, h.content, h.puts, h.noInput, .inl hpc, fun _ => hc⟩
  | @take data chan hloop ht =>
    have hpc : s.view.task.pc = .take := (At.looking .take).mp (hloop ▸ h.at_)
    have hrows : chan.taken.flatMap Matrix.rows = s.takenRows ++ data.rows := by
      rw [ht.taken, List.flatMap_append, List.flatMap_singleton]
      rfl
    refine ⟨h.feeds.byTaker ht.byTaker, ht.cap.trans h.cap, ?_, ?_, h.noInput,
      ⟨nofun, nofun, nofun⟩, nofun⟩
    · show Content (chan.taken.flatMap Matrix.rows) _ _ _
      rw [hrows]
      exact h.content.enter hsize hcols hpc h.noInput (h.cols_eq hinput ht)
    · show Blocks (chan.taken.flatMap Matrix.rows) _ _
      rw [hrows]
      exact h.puts.append data.rows
  | @body data view hloop he =>
    have hpc := h.at_
    rw [hloop] at hpc
    refine ⟨h.feeds, h.cap, h.content.step hsize hcols he, h.puts.step h.content he,
      noInput_effect he h.noInput, at_loopAfter data he hpc, fun hl => ?_⟩
    cases hv : view.task.pc <;> simp [RechunkPc.loopAfter, hv] at hl
  | finish hloop he =>
    have hpc := h.at_
    rw [hloop] at hpc
    refine ⟨h.feeds, h.cap, h.content.step hsize hcols he, h.puts.step h.content he,
      noInput_effect he h.noInput, ?_, h.closed⟩
    show At s.loop _
    rw [hloop]
    exact at_left he h.noInput hpc
  | consume ht =>
    refine ⟨h.feeds, h.cap, h.content.others ht.byTaker, ?_, h.noInput, h.at_, h.closed⟩
    show Blocks _ _ _
    rw [Blocks, ht.sent]
    exact h.puts

/-- For its output a step of the source or of `rechunk` is one of the putting side. -/
theorem Effect.byPutter (he : Effect chunkSize s e s') (hev : e ≠ .consume) :
    s.view.out.ByPutter s'.view.out := by
  cases he with
  | body _ he => exact he.byPutter
  | finish _ he => exact he.byPutter
  | consume => exact absurd rfl hev
  | _ => exact .refl _

/-- When `rechunk` is done the source and `rechunk` leave the chunks and the output alone. -/
theorem Inv.view_of_done (h : s.Inv cap chunkSize cols input) (hd : s.view.task.pc = .done)
    (he : Effect chunkSize s e s') (hev : e ≠ .consume) : s'.view = s.view := by
  cases he with
  | take hloop =>
    have hpc : s.view.task.pc = .take := (At.looking .take).mp (hloop ▸ h.at_)
    cases hd.symm.trans hpc
  | body _ he => exact absurd hd he.ne_done
  | finish _ he => exact absurd hd he.ne_done
  | consume => exact absurd rfl hev
  | _ => rfl

/-! ## The ends of the runs -/

/-- What is left to do with an input of `total` rows: a row that is not taken is worth as much as
one in hand. -/
def work (total : Nat) (s : Rechunking ρ) : Nat :=
  s.source.work + 10 * s.chan.data.length + s.loop.work s.chan +
    40 * (total - s.takenRows.length) + (s.view.task.work + 15 * s.view.out.data.length)

theorem loopAfter_work_le (data : Matrix ρ) (pc : RechunkPc ρ) (c : Channel (Matrix ρ)) :
    (pc.loopAfter data).work c ≤ 9 := by
  unfold RechunkPc.loopAfter
  split
  · simp only [Consume.work]
    split <;> omega
  · exact Nat.le_refl 9

/-- Every step leaves less to do. -/
theorem Inv.work_lt (h : s.Inv cap chunkSize cols input) (hsize : 0 < chunkSize) (hcols : 0 < cols)
    (hinput : ∀ data ∈ input, data.cols = cols) (he : Effect chunkSize s e s') :
    s'.work (input.flatMap Matrix.rows).length < s.work (input.flatMap Matrix.rows).length := by
  have h' := h.step hsize hcols hinput he
  unfold work
  cases he with
  | @source source chan he =>
    have hs := he.work_lt
    have hl := s.loop.work_le he.byPutter
    have hrows : takenRows { s with source, chan } = s.takenRows := by
      rw [takenRows, he.byPutter.taken]
      rfl
    rw [hrows]
    dsimp only
    omega
  | look hloop hs hl hl' =>
    have hlt := Consume.work_lt hs hl hl'
    rw [hloop]
    simp only [takenRows]
    omega
  | leave hloop hc =>
    simp only [hloop, hc, takenRows, Consume.work]
    simp
  | @take data chan hloop ht =>
    have hpc : s.view.task.pc = .take := (At.looking .take).mp (hloop ▸ h.at_)
    have hl := Consume.two_le_work (c := s.chan) (Consume.Looking.take (β := Matrix ρ))
    -- the rows are counted with the body's from now on
    have hrows : (chan.taken.flatMap Matrix.rows).length =
        s.takenRows.length + data.rows.length := by
      rw [ht.taken, List.flatMap_append, List.flatMap_singleton, List.length_append]
      rfl
    have hle : (chan.taken.flatMap Matrix.rows).length ≤ (input.flatMap Matrix.rows).length := by
      obtain ⟨rest, hrest⟩ := h'.stream_eq
      rw [hrest, List.length_append]
      exact Nat.le_add_right _ _
    simp only [takenRows, hloop, ht.data, List.length_cons, RechunkView.enter, Rechunk.work, hpc,
      h.noInput] at hrows hl ⊢
    simp only [Consume.work] at hl ⊢
    omega
  | @body data view hloop he =>
    have hlt := h.content.work_lt he
    have hl := loopAfter_work_le data view.task.pc s.chan
    have hbody : (Consume.body data : Consume (Matrix ρ)).work s.chan = 9 := rfl
    rw [hloop, hbody]
    simp only [takenRows]
    omega
  | finish hloop he =>
    have hlt := h.content.work_lt he
    simp only [takenRows]
    omega
  | @consume item out ht =>
    simp only [takenRows, ht.data, List.length_cons]
    omega

/-- Where the source and `rechunk` make no step and all chunks are taken `rechunk` is done. -/
theorem Inv.done_of_taken (h : s.Inv cap chunkSize cols input)
    (hsource : s.step chunkSize .source = none) (hrechunk : s.step chunkSize .rechunk = none)
    (hempty : s.view.out.data = []) : s.loop = .left ∧ s.view.task.pc = .done := by
  have hsource : s.source.step s.chan = none := Option.map_eq_none_iff.mp hsource
  -- in its body and after its loop `rechunk` waits at an output with items only
  have hview : Rechunk.step chunkSize s.view = none → s.view.task.pc = .done := by
    intro hn
    by_contra hpc
    refine Rechunk.step_ne_none ?_ hempty hpc hn
    rw [← Bool.not_eq_false, h.content.isOpen]
    exact hpc
  have hat := h.at_
  unfold Rechunking.step at hrechunk
  dsimp only at hrechunk
  split at hrechunk
  · rename_i data hloop
    rw [hloop] at hat
    exact absurd (hview (Option.map_eq_none_iff.mp hrechunk)) hat.2.2
  · rename_i hloop
    exact ⟨hloop, hview (Option.map_eq_none_iff.mp hrechunk)⟩
  · rename_i hbody hleft
    have hlook : s.loop.Looking := Consume.looking_of_ne hbody hleft
    exact absurd (Option.map_eq_none_iff.mp hrechunk) (h.feeds.step_ne_none hsource hlook)

/-- Where no step is possible `rechunk` has closed its output and everything is taken from it. -/
theorem Inv.done (h : s.Inv cap chunkSize cols input) (hend : ∀ e, s.step chunkSize e = none) :
    s.loop = .left ∧ s.view.task.pc = .done :=
  h.done_of_taken (hend .source) (hend .rechunk)
    (Channel.take_eq_none.mp (Option.map_eq_none_iff.mp (hend .consume)))

/-- What has been put are the first blocks of the input. -/
theorem Inv.puts_eq (h : s.Inv cap chunkSize cols input) (hsize : 0 < chunkSize) :
    s.puts chunkSize =
      (blocks chunkSize (input.flatMap Matrix.rows)).take s.view.out.sent.length := by
  obtain ⟨rest, hrest⟩ := h.stream_eq
  refine List.ext_getElem? fun j => ?_
  rw [Rechunking.puts, List.getElem?_map]
  cases hj : s.view.out.sent[j]? with
  | none =>
    have hlen := List.getElem?_eq_none_iff.mp hj
    rw [List.getElem?_take_eq_none hlen]
    rfl
  | some item =>
    have hlt := (List.getElem?_eq_some_iff.mp hj).1
    have hrows := h.puts j item hj
    -- the last row of the chunk is one of the stream
    have hfull : (j + 1) * chunkSize ≤ s.takenRows.length := by
      have := (List.getElem?_eq_some_iff.mp (hrows (chunkSize - 1) (by omega))).1
      rw [Nat.succ_mul]
      omega
    rw [List.getElem?_take_of_lt hlt, hrest, getElem?_blocks_append hsize hfull, Option.map_some,
      Item.rows_eq hrows]

/-- In the end all blocks have been put exactly if no block ends in the rows that are not taken. -/
theorem Inv.puts_iff (h : s.Inv cap chunkSize cols input) (hsize : 0 < chunkSize)
    (hd : s.view.task.pc = .done) :
    s.puts chunkSize = blocks chunkSize (input.flatMap Matrix.rows) ↔
      s.takenRows.length / chunkSize = (input.flatMap Matrix.rows).length / chunkSize := by
  obtain ⟨-, hsent, -⟩ := h.content.done hd
  rw [h.puts_eq hsize, List.take_eq_self_iff, length_blocks, hsent]
  obtain ⟨rest, hrest⟩ := h.stream_eq
  have hle : s.takenRows.length / chunkSize ≤ (input.flatMap Matrix.rows).length / chunkSize := by
    rw [hrest, List.length_append]
    exact Nat.div_le_div_right (Nat.le_add_right _ _)
  omega

/-! ## Tests in time -/

/-- No block of `n` rows ends in the matrices that are in the input channel. -/
def NoBlockLeft (n : Nat) (s : Rechunking ρ) : Prop :=
  s.takenRows.length / n = (s.chan.sent.flatMap Matrix.rows).length / n

/-- When the loop has found the channel empty and reads `isopen`, the channel is open, or no block
ends in the matrices that are in it by now. -/
def InTime (n : Nat) (s : Rechunking ρ) (e : RechunkingEv) : Prop :=
  e = .rechunk → s.loop = .isopen → s.chan.isOpen = true ∨ s.NoBlockLeft n

instance (n : Nat) (s : Rechunking ρ) : Decidable (s.NoBlockLeft n) :=
  inferInstanceAs (Decidable (_ = _))

instance (n : Nat) (s : Rechunking ρ) : ∀ e, Decidable (s.InTime n e)
  | .source | .consume => isTrue nofun
  | .rechunk =>
    match h : s.loop with
    | .isopen => decidable_of_iff (s.chan.isOpen = true ∨ s.NoBlockLeft n)
        ⟨fun hi _ _ => hi, fun hi => hi rfl h⟩
    | .isempty | .take | .body _ | .left => isTrue fun _ hl => nomatch h.symm.trans hl

/-- Without a capacity every test is in time: a closed channel is empty. -/
theorem Inv.inTime {n : Nat} (h : s.Inv 0 chunkSize cols input) : s.InTime n e := by
  rintro - -
  cases ho : s.chan.isOpen with
  | true => exact .inl rfl
  | false =>
    refine .inr ?_
    rw [NoBlockLeft, takenRows, Channel.taken_eq_sent (h.feeds.closed_empty ho h.cap)]

/-- A loop that has been left has taken all blocks. -/
def Kept (n : Nat) (s : Rechunking ρ) : Prop := s.loop = .left → s.NoBlockLeft n

/-- After the loop the input channel stays as it is. -/
theorem Inv.left (h : s.Inv cap chunkSize cols input) (he : Effect chunkSize s e s')
    (hl : s.loop = .left) : s'.loop = .left ∧ s'.chan = s.chan := by
  cases he with
  | source he => exact ⟨hl, he.byPutter.closed (h.closed hl)⟩
  | look hloop _ hlook =>
    cases hloop.symm.trans hl
    cases hlook
  | leave hloop => cases hloop.symm.trans hl
  | take hloop => cases hloop.symm.trans hl
  | body hloop => cases hloop.symm.trans hl
  | finish => exact ⟨hl, rfl⟩
  | consume => exact ⟨hl, rfl⟩

/-- The loop is left where it reads that the channel is closed. -/
theorem Effect.left (he : Effect chunkSize s e s') (hl : s'.loop = .left) :
    s.loop = .left ∨
      e = .rechunk ∧ s.loop = .isopen ∧ s.chan.isOpen = false ∧ s'.chan = s.chan := by
  cases he with
  | source => exact .inl hl
  | look _ _ _ hlook =>
    cases hl
    cases hlook
  | leave hloop hc => exact .inr ⟨rfl, hloop, hc, rfl⟩
  | take => cases hl
  | @body data view =>
    cases hv : view.task.pc <;> simp [RechunkPc.loopAfter, hv] at hl
  | finish hloop => exact .inl hloop
  | consume => exact .inl hl

theorem NoBlockLeft.congr {n : Nat} (hc : s'.chan = s.chan) :
    s'.NoBlockLeft n ↔ s.NoBlockLeft n := by
  rw [NoBlockLeft, NoBlockLeft, takenRows, takenRows, hc]

theorem Inv.kept {n : Nat} (h : s.Inv cap chunkSize cols input) (hk : s.Kept n) (ht : s.InTime n e)
    (he : Effect chunkSize s e s') : s'.Kept n := by
  intro hl
  rcases he.left hl with hleft | ⟨hev, hloop, hc, hchan⟩
  · exact (NoBlockLeft.congr (h.left he hleft).2).mpr (hk hleft)
  · refine (NoBlockLeft.congr hchan).mpr ((ht hev hloop).resolve_left fun ho => ?_)
    rw [hc] at ho
    cases ho

/-- What is left behind stays behind. -/
theorem Inv.kept_back {n : Nat} (h : s.Inv cap chunkSize cols input)
    (he : Effect chunkSize s e s') (hk : s'.Kept n) : s.Kept n := by
  intro hl
  obtain ⟨hl', hchan⟩ := h.left he hl
  exact (NoBlockLeft.congr hchan).mp (hk hl')

/-- A test that comes too late leaves blocks behind. -/
theorem inTime_of_kept {n : Nat} (hs : s.step chunkSize e = some s') (hk : s'.Kept n) :
    s.InTime n e := by
  rintro rfl hloop
  cases ho : s.chan.isOpen with
  | true => exact .inl rfl
  | false =>
    simp only [step, hloop, Consume.step, ho] at hs
    cases hs
    exact .inr (hk rfl)

section

variable {es : List RechunkingEv} {mem : Chunks ρ}

/-- The invariant after a run. -/
theorem inv_run (hsize : 0 < chunkSize) (hcols : 0 < cols)
    (hinput : ∀ data ∈ input, data.cols = cols)
    (hr : (machine ρ chunkSize).run es (start cap input mem) = some s) :
    s.Inv cap chunkSize cols input :=
  Machine.run_inv (fun _ _ _ h hs => h.step hsize hcols hinput (step_effect hs))
    (inv_start cap hsize input mem) hr

/-- After a run all blocks have been taken exactly if all tests were in time. -/
theorem kept_iff_along (hsize : 0 < chunkSize) (hcols : 0 < cols)
    (hinput : ∀ data ∈ input, data.cols = cols)
    (hr : (machine ρ chunkSize).run es (start cap input mem) = some s) :
    s.Kept chunkSize ↔ (machine ρ chunkSize).Along (InTime chunkSize) es (start cap input mem) := by
  refine Machine.last_iff_along (I := Inv cap chunkSize cols input) (P := Kept chunkSize) ?_ ?_ ?_ ?_
    (inv_start cap hsize input mem) nofun hr
  · exact fun s e s' h hs => h.step hsize hcols hinput (step_effect hs)
  · exact fun s e s' h hk ht hs => h.kept hk ht (step_effect hs)
  · exact fun s e s' h hs => h.kept_back (step_effect hs)
  · exact fun s e s' hs => inTime_of_kept hs

/-- Without a capacity all tests are in time. -/
theorem inTime_of_unbuffered (hsize : 0 < chunkSize) (hcols : 0 < cols)
    (hinput : ∀ data ∈ input, data.cols = cols) (es : List RechunkingEv) :
    (machine ρ chunkSize).Along (InTime chunkSize) es (start 0 input mem) :=
  Machine.along_of_inv (C := fun _ _ => True) (I := Inv 0 chunkSize cols input)
    (fun _ _ _ h _ hs => h.step hsize hcols hinput (step_effect hs)) (fun _ _ _ h _ _ => h.inTime)
    (inv_start 0 hsize input mem) (Machine.along_of_forall fun _ _ => trivial)

end

/-- `rechunk` always ends with its output closed. At every moment it has put the first blocks of
its input; in the end all of them exactly if every test of the loop was in time. -/
theorem rechunk_exact_iff (cap chunkSize cols : Nat) (input : List (Matrix ρ)) (mem : Chunks ρ)
    (hsize : 0 < chunkSize) (hcols : 0 < cols) (hinput : ∀ data ∈ input, data.cols = cols) :
    (∃ k, ∀ es s, (machine ρ chunkSize).run es (start cap input mem) = some s → es.length ≤ k) ∧
      ∀ es s, (machine ρ chunkSize).run es (start cap input mem) = some s →
        s.puts chunkSize <+: blocks chunkSize (input.flatMap Matrix.rows) ∧
        ((∀ e, s.step chunkSize e = none) →
          s.view.task.pc = .done ∧ s.view.out.isOpen = false ∧
          (s.puts chunkSize = blocks chunkSize (input.flatMap Matrix.rows) ↔
            (machine ρ chunkSize).Along (InTime chunkSize) es (start cap input mem))) := by
  constructor
  · refine ⟨(start cap input mem).work (input.flatMap Matrix.rows).length, fun es s hr => ?_⟩
    refine Machine.run_length_le (M := machine ρ chunkSize) (I := Inv cap chunkSize cols input)
      (fun s e s' h hs => ?_) (inv_start cap hsize input mem) hr
    have he := step_effect hs
    exact ⟨h.step hsize hcols hinput he, h.work_lt hsize hcols hinput he⟩
  · intro es s hr
    have h := inv_run hsize hcols hinput hr
    refine ⟨?_, fun hend => ?_⟩
    · rw [h.puts_eq hsize]
      exact List.take_prefix _ _
    · obtain ⟨hl, hd⟩ := h.done hend
      refine ⟨hd, h.content.isOpen.mpr hd, ?_⟩
      rw [h.puts_iff hsize hd, ← kept_iff_along hsize hcols hinput hr, Kept, NoBlockLeft,
        ← h.feeds.input_eq (h.closed hl)]
      exact ⟨fun hk _ => hk, fun hk => hk hl⟩

/-- A run with matrices of one and of two rows, and chunks of two rows. -/
def twoRun : List RechunkingEv :=
  [.rechunk, .rechunk, .source, .rechunk, .rechunk, .rechunk, .rechunk, .rechunk, .rechunk,
    .rechunk, .source, .source, .rechunk, .rechunk, .rechunk, .rechunk, .rechunk, .source, .source,
    .consume, .rechunk, .rechunk, .rechunk, .rechunk, .rechunk, .rechunk, .rechunk, .rechunk,
    .rechunk]

theorem rechunk_exact_iff_two :
    ∃ s, (machine Nat 2).run twoRun (start 0 [⟨1, [7]⟩, ⟨1, [8, 9]⟩] fun _ _ => 0) = some s ∧
      s.puts 2 = [[7, 8]] := by
  obtain ⟨s, hs⟩ := Option.isSome_iff_exists.mp (show ((machine Nat 2).run twoRun
    (start 0 [⟨1, [7]⟩, ⟨1, [8, 9]⟩] fun _ _ => 0)).isSome = true by decide)
  have hend : ∀ e, s.step 2 e = none := fun e => Machine.step_eq_none hs (by cases e <;> decide)
  obtain ⟨-, -, hiff⟩ := ((rechunk_exact_iff 0 2 1 [⟨1, [7]⟩, ⟨1, [8, 9]⟩] (fun _ _ => 0)
    (by decide) (by decide) (by decide)).2 twoRun s hs).2 hend
  exact ⟨s, hs, hiff.mpr (inTime_of_unbuffered (by decide) Nat.one_pos (by decide) twoRun)⟩

/-- The loop finds the buffered input empty; then it gets the only matrix and is closed; then the
loop finds it closed. -/
def lateRun : List RechunkingEv :=
  [.rechunk, .source, .source, .source, .rechunk, .rechunk, .rechunk]

/-- The only block is not put. -/
theorem rechunk_exact_loses :
    ∃ s, (machine Nat 1).run lateRun (start 1 [⟨1, [7]⟩] fun _ _ => 0) = some s ∧
      (∀ e, s.step 1 e = none) ∧ s.puts 1 ≠ blocks 1 ([⟨1, [7]⟩].flatMap Matrix.rows) := by
  obtain ⟨s, hs⟩ := Option.isSome_iff_exists.mp (show ((machine Nat 1).run lateRun
    (start 1 [⟨1, [7]⟩] fun _ _ => 0)).isSome = true by decide)
  refine ⟨s, hs, fun e => Machine.step_eq_none hs (by cases e <;> decide), ?_⟩
  rw [Machine.view_eq hs (puts 1) (show _ = some [] by decide)]
  decide

end Rechunking

end Sigflow
end Xtrx
