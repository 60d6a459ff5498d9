import Xtrx.Lib.Machine
import Xtrx.Sigflow.Task

/-!
# `rechunk` and its three chunks (`libsigflow.jl`)

- **`Rechunk`**: the task of `rechunk`. It copies the rows of its input into one of three chunks, row
  by row, and puts a reference to a full chunk to its output. The input channel is the list of the
  matrices that it delivers before it closes: that the loop of `consume_channel` takes them all is
  an assumption here, which `Rechunking` and `Collect` do not make.
- **Chunks** (`Chunks`): the contents of all chunks, by allocation and index. An allocation leaves
  whatever the new chunks hold.
- **`Pipe`**: `rechunk`, one pass-through task and a consumer that reads a chunk before it takes the
  next one, all channels without capacity. `chunk_stable`: a chunk that the consumer reads has the
  contents of its put.
-/

namespace Xtrx
namespace Sigflow

open Conc

/-- A matrix of samples with its rows. -/
structure Matrix (ρ : Type) where
  cols : Nat
  rows : List ρ

/-- `isempty` of a matrix. -/
def Matrix.isEmpty {ρ : Type} (m : Matrix ρ) : Bool := m.rows.isEmpty || m.cols == 0

/-- The contents of the chunks by allocation and `chunk_idx`. -/
abbrev Chunks (ρ : Type) : Type := Nat × Nat → Nat → ρ

/-- A reference to a chunk, with a record of the contents that it had when it was put. -/
structure Item (ρ : Type) where
  ref : Nat × Nat
  contents : Nat → ρ

/-- Where `rechunk` is: `loop` is the test of its `while`; `copy` has the rows that are still to be
copied in this turn, the number of those that are, and the view of the rest. -/
inductive RechunkPc (ρ : Type) where
  | take
  | loop (data : Matrix ρ)
  | copy (todo : List ρ) (row : Nat) (rest : Matrix ρ)
  | put (rest : Matrix ρ)
  | putting (rest : Matrix ρ)
  | close
  | done

/-- The variables of `rechunk`; `numChannels` is `size(chunks[1], 2)`. -/
structure Rechunk (ρ : Type) where
  input : List (Matrix ρ)
  pc : RechunkPc ρ
  chunkFilled : Nat
  chunkIdx : Nat
  numChannels : Nat
  alloc : Nat

/-- The task, the chunks and the output. -/
structure RechunkView (ρ : Type) where
  task : Rechunk ρ
  mem : Chunks ρ
  out : Channel (Item ρ)

variable {ρ : Type}

/-- `mod1`. -/
def mod1 (x y : Nat) : Nat := (x - 1) % y + 1

/-- `make_chunks!`; its assignments to `chunk_filled` and `chunk_idx` are to globals, not to the
variables of `rechunk`. -/
def Rechunk.makeChunks (numChannels : Nat) (t : Rechunk ρ) : Rechunk ρ :=
  if t.numChannels ≠ numChannels then { t with numChannels, alloc := t.alloc + 1 } else t

/-- The chunk that is filled. -/
def Rechunk.ref (t : Rechunk ρ) : Nat × Nat := (t.alloc, t.chunkIdx)

def Rechunk.start (input : List (Matrix ρ)) : Rechunk ρ := ⟨input, .take, 0, 1, 0, 0⟩

/-- One row of a chunk is written. -/
def Chunks.write (mem : Chunks ρ) (ref : Nat × Nat) (row : Nat) (x : ρ) : Chunks ρ :=
  Function.update mem ref (Function.update (mem ref) row x)

/-- A step of `rechunk`, if it does not wait. -/
def Rechunk.step (chunkSize : Nat) (v : RechunkView ρ) : Option (RechunkView ρ) :=
  let t := v.task
  match t.pc with
  | .take =>
    match t.input with
    | [] => some { v with task := { t with pc := .close } }
    | data :: input => some { v with task := { t with input, pc := .loop data } }
  | .loop data =>
    if data.isEmpty then
      some { v with task := { t with pc := .take } }
    else
      let samplesWanted := chunkSize - t.chunkFilled
      let samplesTaken := min data.rows.length samplesWanted
      some { v with task := { t.makeChunks data.cols with
        pc := .copy (data.rows.take samplesTaken) 0 { data with rows := data.rows.drop samplesTaken } } }
  | .copy (x :: todo) row rest => some { v with
      mem := v.mem.write t.ref (t.chunkFilled + row) x
      task := { t with pc := .copy todo (row + 1) rest } }
  | .copy [] row rest =>
    let chunkFilled := t.chunkFilled + row
    some { v with task := { t with
      chunkFilled, pc := if chunkFilled ≥ chunkSize then .put rest else .loop rest } }
  | .put rest =>
    (v.out.put ⟨t.ref, v.mem t.ref⟩).map fun out => { v with out, task := { t with pc := .putting rest } }
  | .putting rest =>
    if v.out.PutDone then
      some { v with task := { t with
        chunkIdx := mod1 (t.chunkIdx + 1) 3, chunkFilled := 0, pc := .loop rest } }
    else none
  | .close => some { v with out := v.out.close, task := { t with pc := .done } }
  | .done => none

/-- What a step of `rechunk` does. -/
inductive Rechunk.Effect (chunkSize : Nat) (v : RechunkView ρ) : RechunkView ρ → Prop
  | finish (hpc : v.task.pc = .take) (hin : v.task.input = []) :
    Effect chunkSize v { v with task := { v.task with pc := .close } }
  | next {data input} (hpc : v.task.pc = .take) (hin : v.task.input = data :: input) :
    Effect chunkSize v { v with task := { v.task with input, pc := .loop data } }
  | skip {data} (hpc : v.task.pc = .loop data) (he : data.isEmpty = true) :
    Effect chunkSize v { v with task := { v.task with pc := .take } }
  | turn {data} (hpc : v.task.pc = .loop data) (he : data.isEmpty = false) :
    Effect chunkSize v { v with task := { v.task.makeChunks data.cols with
      pc := .copy (data.rows.take (min data.rows.length (chunkSize - v.task.chunkFilled))) 0
        { data with
          rows := data.rows.drop (min data.rows.length (chunkSize - v.task.chunkFilled)) } } }
  | write {x todo row rest} (hpc : v.task.pc = .copy (x :: todo) row rest) :
    Effect chunkSize v { v with
      mem := v.mem.write v.task.ref (v.task.chunkFilled + row) x
      task := { v.task with pc := .copy todo (row + 1) rest } }
  | full {row rest} (hpc : v.task.pc = .copy [] row rest) (hf : chunkSize ≤ v.task.chunkFilled + row) :
    Effect chunkSize v { v with task := { v.task with
      chunkFilled := v.task.chunkFilled + row, pc := .put rest } }
  | partly {row rest} (hpc : v.task.pc = .copy [] row rest)
    (hf : v.task.chunkFilled + row < chunkSize) :
    Effect chunkSize v { v with task := { v.task with
      chunkFilled := v.task.chunkFilled + row, pc := .loop rest } }
  | put {rest out} (hpc : v.task.pc = .put rest)
    (hp : v.out.put ⟨v.task.ref, v.mem v.task.ref⟩ = some out) :
    Effect chunkSize v { v with out, task := { v.task with pc := .putting rest } }
  | putDone {rest} (hpc : v.task.pc = .putting rest) (hd : v.out.PutDone) :
    Effect chunkSize v { v with task := { v.task with
      chunkIdx := mod1 (v.task.chunkIdx + 1) 3, chunkFilled := 0, pc := .loop rest } }
  | close (hpc : v.task.pc = .close) :
    Effect chunkSize v { v with out := v.out.close, task := { v.task with pc := .done } }

/-- The steps of `rechunk` are those of the list. -/
theorem Rechunk.step_effect {chunkSize : Nat} {v v' : RechunkView ρ}
    (h : Rechunk.step chunkSize v = some v') : Rechunk.Effect chunkSize v v' := by
  unfold Rechunk.step at h
  dsimp only at h
  split at h
  · rename_i hpc
    split at h
    · rename_i hin
      cases h
      exact .finish hpc hin
    · rename_i hin
      cases h
      exact .next hpc hin
  · rename_i data hpc
    split at h
    · rename_i he
      cases h
      exact .skip hpc he
    · rename_i he
      cases h
      exact .turn hpc (Bool.eq_false_iff.mpr he)
  · rename_i hpc
    cases h
    exact .write hpc
  · rename_i row rest hpc
    cases h
    by_cases hf : chunkSize ≤ v.task.chunkFilled + row
    · rw [if_pos hf]
      exact .full hpc hf
    · rw [if_neg hf]
      exact .partly hpc (Nat.lt_of_not_le hf)
  · rename_i hpc
    obtain ⟨out, hp, rfl⟩ := Option.map_eq_some_iff.mp h
    exact .put hpc hp
  · rename_i hpc
    split at h
    · rename_i hd
      cases h
      exact .putDone hpc hd
    · cases h
  · rename_i hpc
    cases h
    exact .close hpc
  · cases h

/-- A step of `rechunk` is one of the putting side for its output. -/
theorem Rechunk.Effect.byPutter {chunkSize : Nat} {v v' : RechunkView ρ}
    (h : Rechunk.Effect chunkSize v v') : v.out.ByPutter v'.out := by
  cases h with
  | put _ hp => exact (Channel.puts_of_put hp).byPutter
  | close => exact Channel.byPutter_close
  | _ => exact .refl _

/-! ## The order of the chunks -/

/-- In a `put!`. -/
def Rechunk.Putting (t : Rechunk ρ) : Prop := ∃ rest, t.pc = .putting rest

/-- The chunks are put in turn: the `j`-th put is of the chunk `j % 3 + 1`, and `rechunk` fills the
next one, or it is in the put of the last one. -/
structure Rechunk.Order (t : Rechunk ρ) (out : Channel (Item ρ)) : Prop where
  cap : out.cap = 0
  putDone : ¬ t.Putting → out.PutDone
  idx : ¬ t.Putting → t.chunkIdx = out.sent.length % 3 + 1
  idxPutting : t.Putting → ∃ m, out.sent.length = m + 1 ∧ t.chunkIdx = m % 3 + 1
  sent : ∀ j item, out.sent[j]? = some item → item.ref.2 = j % 3 + 1

theorem Rechunk.order_start (input : List (Matrix ρ)) :
    (Rechunk.start input).Order (Channel.new 0) where
  cap := rfl
  putDone := fun _ _ => rfl
  idx := fun _ => rfl
  idxPutting := fun ⟨_, hr⟩ => by cases hr
  sent := fun _ _ hj => by cases hj

/-- The task that takes keeps the order. -/
theorem Rechunk.Order.others {t : Rechunk ρ} {out out' : Channel (Item ρ)} (h : t.Order out)
    (ho : out.ByTaker out') : t.Order out' where
  cap := ho.cap.trans h.cap
  putDone := fun hp => ho.putDone (h.putDone hp)
  idx := fun hp => by rw [ho.sent, h.idx hp]
  idxPutting := fun hp => by
    rw [ho.sent]
    exact h.idxPutting hp
  sent := by
    rw [ho.sent]
    exact h.sent

/-- A step that neither puts nor goes on to the next chunk. -/
theorem Rechunk.Order.move {t t' : Rechunk ρ} {out out' : Channel (Item ρ)} (h : t.Order out)
    (hp : ¬ t.Putting) (hp' : ¬ t'.Putting) (hidx : t'.chunkIdx = t.chunkIdx)
    (hdata : out'.data = out.data) (hcap : out'.cap = out.cap) (htaken : out'.taken = out.taken) :
    t'.Order out' := by
  have hsent : out'.sent = out.sent := by rw [Channel.sent, Channel.sent, hdata, htaken]
  refine ⟨hcap.trans h.cap, fun _ _ => ?_, fun _ => ?_, fun hn => absurd hn hp', ?_⟩
  · rw [hdata]
    exact h.putDone hp h.cap
  · rw [hidx, hsent, h.idx hp]
  · rw [hsent]
    exact h.sent

/-- A step of `rechunk` keeps the order. -/
theorem Rechunk.Order.step {chunkSize : Nat} {v v' : RechunkView ρ} (h : v.task.Order v.out)
    (he : Rechunk.Effect chunkSize v v') : v'.task.Order v'.out := by
  have hno : ∀ {t : Rechunk ρ} {pc : RechunkPc ρ}, t.pc = pc → (∀ rest, pc ≠ .putting rest) →
      ¬ t.Putting := by
    rintro t pc rfl hne ⟨rest, hr⟩
    exact hne rest hr
  cases he with
  | finish hpc => exact h.move (hno hpc nofun) (hno rfl nofun) rfl rfl rfl rfl
  | next hpc => exact h.move (hno hpc nofun) (hno rfl nofun) rfl rfl rfl rfl
  | skip hpc => exact h.move (hno hpc nofun) (hno rfl nofun) rfl rfl rfl rfl
  | turn hpc =>
    refine h.move (hno hpc nofun) (hno rfl nofun) ?_ rfl rfl rfl
    unfold Rechunk.makeChunks
    split <;> rfl
  | write hpc => exact h.move (hno hpc nofun) (hno rfl nofun) rfl rfl rfl rfl
  | full hpc => exact h.move (hno hpc nofun) (hno rfl nofun) rfl rfl rfl rfl
  | partly hpc => exact h.move (hno hpc nofun) (hno rfl nofun) rfl rfl rfl rfl
  | @put rest out hpc hp =>
    have hputs := Channel.puts_of_put hp
    have hidx := h.idx (hno hpc nofun)
    refine ⟨hputs.cap.trans h.cap, fun hn => absurd ⟨rest, rfl⟩ hn, fun hn => absurd ⟨rest, rfl⟩ hn,
      fun _ => ⟨v.out.sent.length, ?_, hidx⟩, fun j item hj => ?_⟩
    · rw [hputs.sent, List.length_append]
      rfl
    · rcases hputs.sent_cases hj with hold | ⟨rfl, rfl⟩
      · exact h.sent j item hold
      · exact hidx
  | @putDone rest hpc hd =>
    obtain ⟨m, hm, hidx⟩ := h.idxPutting ⟨rest, hpc⟩
    refine ⟨h.cap, fun _ => hd, fun _ => ?_, fun hn => absurd hn (hno rfl nofun), h.sent⟩
    rw [hm]
    show mod1 (v.task.chunkIdx + 1) 3 = _
    rw [hidx, mod1]
    omega
  | close hpc => exact h.move (hno hpc nofun) (hno rfl nofun) rfl rfl rfl rfl

/-! ## One intermediary and a consumer -/

/-- The pass-through tasks without a buffer of their own. -/
inductive Intermediary where
  | flowgate (ctl : Nat)
  | tripwire (ctl : Nat)
  | logStreamXfer

def Intermediary.task : Intermediary → Task
  | flowgate ctl => .flowgate ctl
  | tripwire ctl => .tripwire ctl
  | logStreamXfer => .logStreamXfer

theorem Intermediary.hasOut {k : Intermediary} {b : Bool} (h : k.task.HasOut b) : b = false :=
  h.resolve_right (by cases k <;> exact nofun)

theorem Intermediary.capacity (k : Intermediary) : k.task.capacity = 0 := by
  cases k <;> rfl

/-- The consumer takes a chunk or reads the rows of one, up to row `row` so far. -/
inductive Reader (ρ : Type) where
  | taking
  | reading (item : Item ρ) (row : Nat)

structure Pipe (ρ : Type) where
  rechunk : Rechunk ρ
  mem : Chunks ρ
  first : Channel (Item ρ)
  stage : Pc (Item ρ)
  events : Nat → Bool
  second : Channel (Item ρ)
  consumer : Reader ρ

/-- Whose step comes next; `notify` is one of an event, by other tasks. -/
inductive PipeEv where
  | rechunk
  | stage
  | consumer
  | notify (ctl : Nat)

namespace Pipe

/-- What `rechunk` sees. -/
def rechunkView (s : Pipe ρ) : RechunkView ρ := ⟨s.rechunk, s.mem, s.first⟩

/-- What the intermediary sees; it has one output. -/
def stageView (s : Pipe ρ) : View (Item ρ) := ⟨s.first, fun _ => s.second, s.events, s.stage⟩

/-- A step of the consumer: it takes the next chunk only when it has read all rows. -/
def consumerStep (chunkSize : Nat) (s : Pipe ρ) : Option (Pipe ρ) :=
  match s.consumer with
  | .taking => s.second.take.map fun r => { s with second := r.2, consumer := .reading r.1 0 }
  | .reading item row =>
    if row < chunkSize then some { s with consumer := .reading item (row + 1) }
    else some { s with consumer := .taking }

def step (chunkSize : Nat) (k : Intermediary) (s : Pipe ρ) : PipeEv → Option (Pipe ρ)
  | .rechunk => (Rechunk.step chunkSize s.rechunkView).map fun v =>
      { s with rechunk := v.task, mem := v.mem, first := v.out }
  | .stage => (k.task.step s.stageView).map fun v =>
      { s with first := v.inp, stage := v.pc, events := v.events, second := v.out false }
  | .consumer => s.consumerStep chunkSize
  | .notify ctl => some { s with events := Function.update s.events ctl true }

/-- Before the first step, with any contents of the chunks. -/
def start (input : List (Matrix ρ)) (mem : Chunks ρ) (events : Nat → Bool) : Pipe ρ :=
  ⟨.start input, mem, .new 0, .loop .isempty, events, .new 0, .taking⟩

/-- The chunks on their way from `rechunk` to the end of the consumer's reading are as they were
put. -/
structure Inv (k : Intermediary) (s : Pipe ρ) : Prop where
  order : s.rechunk.Order s.first
  stage : k.task.Inv s.stageView
  reading : ∀ item row, s.consumer = .reading item row → ∃ items, s.second.taken = items ++ [item]
  intact : ∀ j item, s.first.sent[j]? = some item → s.second.taken.length ≤ j + 1 →
    s.mem item.ref = item.contents

variable {k : Intermediary} {s s' : Pipe ρ}

theorem inv_start (k : Intermediary) (input : List (Matrix ρ)) (mem : Chunks ρ)
    (events : Nat → Bool) : Inv k (start input mem events) where
  order := Rechunk.order_start input
  stage := by
    have h := k.task.inv_start (Channel.new 0 : Channel (Item ρ)) events rfl
    rw [k.capacity] at h
    exact h
  reading := nofun
  intact := fun _ _ hj => by cases hj

/-- The chunks that the consumer took are the first ones put. -/
theorem Inv.taken_prefix (h : s.Inv k) : s.second.taken <+: s.first.sent := by
  have hs : s.first.taken = s.second.sent ++ s.stage.owes false := h.stage.sent false (.inl rfl)
  have hp : s.second.sent <+: s.first.taken := hs ▸ List.prefix_append ..
  exact s.second.taken_prefix_sent.trans (hp.trans s.first.taken_prefix_sent)

/-- At most one chunk that has been taken from `rechunk` has not reached the consumer. -/
theorem Inv.taken_length (h : s.Inv k) : s.first.taken.length ≤ s.second.taken.length + 1 := by
  have hs : s.first.taken = s.second.sent ++ s.stage.owes false := h.stage.sent false (.inl rfl)
  have hlen := congrArg List.length hs
  rw [List.length_append, Channel.sent, List.length_append] at hlen
  obtain ⟨hdata, hnone⟩ := h.stage.data_length k.capacity (.inl rfl : k.task.HasOut false)
  have hdata : s.second.data.length ≤ 1 := hdata
  by_cases hp : s.stage.Putting false
  · -- the chunk that is offered to the consumer
    obtain ⟨x, hx⟩ := hp
    have howes : (s.stage.owes false).length = 0 := by
      rw [hx]
      rfl
    omega
  · have hd : s.second.data.length = 0 := congrArg List.length (hnone hp)
    have howes := s.stage.owes_length
    omega

/-- The chunk that is written is none of those on their way. -/
theorem Inv.write_ne (h : s.Inv k) (hp : ¬ s.rechunk.Putting) {j : Nat} {item : Item ρ}
    (hj : s.first.sent[j]? = some item) (hl : s.second.taken.length ≤ j + 1) :
    item.ref ≠ s.rechunk.ref := by
  intro he
  have hidx := h.order.idx hp
  have href := h.order.sent j item hj
  have hlt : j < s.first.sent.length := (List.getElem?_eq_some_iff.mp hj).1
  have hall : s.first.taken = s.first.sent := Channel.taken_eq_sent (h.order.putDone hp h.order.cap)
  have hone := h.taken_length
  rw [hall] at hone
  rw [he] at href
  have : s.rechunk.chunkIdx = j % 3 + 1 := href
  omega

/-- A step of `rechunk` keeps the invariant. -/
theorem Inv.rechunk {chunkSize : Nat} (h : s.Inv k) {v : RechunkView ρ}
    (he : Rechunk.Effect chunkSize s.rechunkView v) :
    Inv k { s with rechunk := v.task, mem := v.mem, first := v.out } := by
  have horder := Rechunk.Order.step h.order he
  have hput : s.first.ByPutter v.out := he.byPutter
  refine ⟨horder, h.stage.others rfl hput fun _ _ => .refl _, h.reading, fun j item hj hl => ?_⟩
  cases he with
  | write hpc =>
    have hne := h.write_ne (fun ⟨_, hr⟩ => nomatch hpc.symm.trans hr) hj hl
    show Function.update s.mem s.rechunk.ref _ item.ref = _
    rw [Function.update_of_ne hne]
    exact h.intact j item hj hl
  | put hpc hp =>
    rcases (Channel.puts_of_put hp).sent_cases hj with hold | ⟨-, rfl⟩
    · exact h.intact j item hold hl
    · rfl
  | _ => exact h.intact j item hj hl

/-- A step of the intermediary keeps the invariant. -/
theorem Inv.stageStep (h : s.Inv k) {v : View (Item ρ)} (he : k.task.Effect s.stageView v) :
    Inv k { s with first := v.inp, stage := v.pc, events := v.events, second := v.out false } := by
  have htake : s.first.ByTaker v.inp := he.byTaker
  have hput : s.second.ByPutter (v.out false) := he.byPutter false
  refine ⟨h.order.others htake, (h.stage.step he).others rfl (.refl _) fun b hb => ?_,
    fun item row hr => ?_, fun j item hj hl => h.intact j item (htake.sent ▸ hj) (hput.taken ▸ hl)⟩
  · rw [Intermediary.hasOut hb]
    exact .refl _
  · show ∃ items, (v.out false).taken = items ++ [item]
    rw [hput.taken]
    exact h.reading item row hr

/-- A step of the consumer keeps the invariant. -/
theorem Inv.consumerStep {chunkSize : Nat} (h : s.Inv k) (hs : s.consumerStep chunkSize = some s') :
    s'.Inv k := by
  unfold Pipe.consumerStep at hs
  split at hs
  · obtain ⟨⟨x, c⟩, ht, rfl⟩ := Option.map_eq_some_iff.mp hs
    have htakes := Channel.takes_of_take ht
    refine ⟨h.order, h.stage.others rfl (.refl _) fun _ _ => htakes.byTaker, fun item row hr => ?_,
      fun j item hj hl => h.intact j item hj ?_⟩
    · cases hr
      exact ⟨s.second.taken, htakes.taken⟩
    · have hl : c.taken.length ≤ j + 1 := hl
      rw [htakes.taken, List.length_append] at hl
      omega
  · rename_i item row hr
    split at hs
    · cases hs
      refine ⟨h.order, h.stage, fun item' row' hr' => ?_, h.intact⟩
      cases hr'
      exact h.reading item row hr
    · cases hs
      exact ⟨h.order, h.stage, nofun, h.intact⟩

theorem Inv.step {chunkSize : Nat} {e : PipeEv} (h : s.Inv k)
    (hs : s.step chunkSize k e = some s') : s'.Inv k := by
  cases e with
  | rechunk =>
    obtain ⟨v, hv, rfl⟩ := Option.map_eq_some_iff.mp hs
    exact h.rechunk (Rechunk.step_effect hv)
  | stage =>
    obtain ⟨v, hv, rfl⟩ := Option.map_eq_some_iff.mp hs
    exact h.stageStep (Task.step_effect hv)
  | consumer => exact h.consumerStep hs
  | notify ctl =>
    cases hs
    exact ⟨h.order, h.stage.others rfl (.refl _) fun _ _ => .refl _, h.reading, h.intact⟩

/-- The chunk that the consumer reads is as it was put. -/
theorem Inv.read (h : s.Inv k) {item : Item ρ} {row : Nat} (hr : s.consumer = .reading item row) :
    s.mem item.ref = item.contents := by
  obtain ⟨items, hi⟩ := h.reading item row hr
  obtain ⟨rest, hrest⟩ := h.taken_prefix
  refine h.intact items.length item ?_ ?_
  · rw [← hrest, hi, List.append_assoc, List.getElem?_append_right (Nat.le_refl _), Nat.sub_self]
    rfl
  · rw [hi, List.length_append]
    exact Nat.le_refl _

/-- The three tasks as one machine. -/
def machine (chunkSize : Nat) (k : Intermediary) : Machine (Pipe ρ) PipeEv :=
  ⟨fun s e => s.step chunkSize k e⟩

/-- In every state of every run, a chunk that the consumer reads has the contents that it had when
`rechunk` put it. -/
theorem chunk_stable (chunkSize : Nat) (k : Intermediary) (input : List (Matrix ρ)) (mem : Chunks ρ)
    (events : Nat → Bool) (es : List PipeEv) :
    (machine chunkSize k).Always
      (fun s => ∀ item row, s.consumer = .reading item row → s.mem item.ref = item.contents)
      es (start input mem events) :=
  Machine.always_of_along (C := fun _ _ => True) (I := Inv k) (fun _ _ _ hi _ hs => hi.step hs)
    (fun _ hi _ _ hr => hi.read hr) (inv_start k input mem events)
    (Machine.along_of_forall fun _ _ => trivial)

end Pipe

end Sigflow
end Xtrx
