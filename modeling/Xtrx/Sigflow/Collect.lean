import Xtrx.Sigflow.RechunkExact

/-!
# `collect_buffers` of `rechunk` (`libsigflow.jl`)

- **`Collect`**: a source, `rechunk` with the loop of `consume_channel`, and `collect_buffers` at its
  output. `collect_buffers` keeps the references that it takes and concatenates the chunks when the
  channel is closed.
- **`Collect.Inv.returned`**: what is returned is, for each row of the full chunks, what its place
  holds at the end.
- **`collect_rechunk_iff`**: every run ends, and what is returned are the rows of the stream up to
  the last full chunk if and only if the loop of `rechunk` leaves no block behind and every row that
  `rechunk` was given is the same as the one `3 * chunk_size` rows later. Without a capacity no block
  is left behind (`Collect.inTime_of_unbuffered`).
-/

namespace Xtrx
namespace Sigflow

open Conc

variable {ρ : Type}

/-! ## The tasks -/

/-- The source and `rechunk`, with `collect_buffers`: the states of the latter's body are the
buffers taken, and `result` is how it ends. -/
structure Collect (ρ : Type) where
  rechunking : Rechunking ρ
  loop : Consume (Item ρ)
  buffs : List (Item ρ)
  result : Option (Option (List ρ))

inductive CollectEv where
  | source
  | rechunk
  | collect

/-- `collect_buffers` is the task that takes the chunks. -/
def CollectEv.rechunking : CollectEv → RechunkingEv
  | source => .source
  | rechunk => .rechunk
  | collect => .consume

/-- `cat(buffs...; dims=1)`, of the chunks as they are now; without buffers it throws. -/
def cat (chunkSize : Nat) (mem : Chunks ρ) (buffs : List (Item ρ)) : Option (List ρ) :=
  if buffs.isEmpty then none
  else some (buffs.flatMap fun buff => (List.range chunkSize).map (mem buff.ref))

namespace Collect

/-- The output of `rechunk`. -/
def chan (s : Collect ρ) : Channel (Item ρ) := s.rechunking.view.out

def mem (s : Collect ρ) : Chunks ρ := s.rechunking.view.mem

/-- The state after the output of `rechunk` has become `chan`. -/
def setChan (s : Collect ρ) (chan : Channel (Item ρ)) : Collect ρ :=
  { s with rechunking := { s.rechunking with view := { s.rechunking.view with out := chan } } }

/-- A step of `collect_buffers`. -/
def collectStep (chunkSize maxBuffers : Nat) (s : Collect ρ) : Option (Collect ρ) :=
  match s.loop with
  | .body buff => some { s with
      buffs := if s.buffs.length < maxBuffers then s.buffs ++ [buff] else s.buffs
      loop := .isempty }
  | .left =>
    match s.result with
    | none => some { s with result := some (cat chunkSize s.mem s.buffs) }
    | some _ => none
  | l => (l.step id s.chan).map fun r => { s.setChan r.2 with loop := r.1 }

def step (chunkSize maxBuffers : Nat) (s : Collect ρ) : CollectEv → Option (Collect ρ)
  | .source => (s.rechunking.step chunkSize .source).map fun r => { s with rechunking := r }
  | .rechunk => (s.rechunking.step chunkSize .rechunk).map fun r => { s with rechunking := r }
  | .collect => s.collectStep chunkSize maxBuffers

def machine (ρ : Type) (chunkSize maxBuffers : Nat) : Machine (Collect ρ) CollectEv :=
  ⟨fun s e => s.step chunkSize maxBuffers e⟩

/-- An input of the capacity `cap`, and any contents of the chunks. -/
def start (cap : Nat) (input : List (Matrix ρ)) (mem : Chunks ρ) : Collect ρ :=
  ⟨.start cap input mem, .isempty, [], none⟩

/-- The item in hand. -/
def hand : Consume (Item ρ) → List (Item ρ)
  | .body buff => [buff]
  | _ => []

structure Inv (cap chunkSize maxBuffers cols : Nat) (input : List (Matrix ρ)) (s : Collect ρ) :
    Prop where
  rechunking : s.rechunking.Inv cap chunkSize cols input
  buffs : ∃ done, s.chan.taken = done ++ hand s.loop ∧ s.buffs = done.take maxBuffers
  left : s.loop = .left → s.rechunking.view.task.pc = .done
  result : ∀ r, s.result = some r → s.loop = .left ∧ r = cat chunkSize s.mem s.buffs

/-- What a step of `collect_buffers` does. -/
inductive Effect (chunkSize maxBuffers : Nat) (s : Collect ρ) : Collect ρ → Prop
  | look {l} (hl : s.loop.Looking) (hs : s.loop.step id s.chan = some (l, s.chan)) (hl' : l.Looking) :
    Effect chunkSize maxBuffers s { s with loop := l }
  | leave (hl : s.loop = .isopen) (hc : s.chan.isOpen = false) :
    Effect chunkSize maxBuffers s { s with loop := .left }
  | take {buff chan} (hl : s.loop = .take) (ht : s.chan.take = some (buff, chan)) :
    Effect chunkSize maxBuffers s { s.setChan chan with loop := .body buff }
  | push {buff} (hl : s.loop = .body buff) : Effect chunkSize maxBuffers s { s with
      buffs := if s.buffs.length < maxBuffers then s.buffs ++ [buff] else s.buffs
      loop := .isempty }
  | cat (hl : s.loop = .left) (hr : s.result = none) : Effect chunkSize maxBuffers s { s with
      result := some (cat chunkSize s.mem s.buffs) }

variable {cap chunkSize maxBuffers cols : Nat} {input : List (Matrix ρ)} {s s' : Collect ρ}
  {e : CollectEv}

theorem collectStep_effect (h : s.collectStep chunkSize maxBuffers = some s') :
    Effect chunkSize maxBuffers s s' := by
  unfold collectStep at h
  split at h
  · rename_i buff hl
    cases h
    exact .push hl
  · rename_i hl
    split at h
    · rename_i hr
      cases h
      exact .cat hl hr
    · cases h
  · obtain ⟨⟨l, c⟩, hs, rfl⟩ := Option.map_eq_some_iff.mp h
    obtain ⟨hl, ⟨buff, ht, hloop, rfl⟩ | ⟨rfl, hl' | ⟨hloop, hc, rfl⟩⟩⟩ := Consume.step_cases hs
    · exact .take hloop ht
    · exact .look hl hs hl'
    · exact .leave hloop hc

/-- The source and `rechunk` keep the invariant. -/
theorem Inv.others {ev : RechunkingEv} {r : Rechunking ρ}
    (h : s.Inv cap chunkSize maxBuffers cols input) (hsize : 0 < chunkSize) (hcols : 0 < cols)
    (hinput : ∀ data ∈ input, data.cols = cols) (he : Rechunking.Effect chunkSize s.rechunking ev r)
    (hev : ev ≠ .consume) :
    Inv cap chunkSize maxBuffers cols input { s with rechunking := r } := by
  -- after the loop `rechunk` is done, and nothing happens to the chunks
  have hview : s.loop = .left → r.view = s.rechunking.view := fun hl =>
    h.rechunking.view_of_done (h.left hl) he hev
  refine ⟨h.rechunking.step hsize hcols hinput he, ?_, fun hl => ?_, fun rows hr => ?_⟩
  · show ∃ done, r.view.out.taken = _ ∧ _
    rw [(he.byPutter hev).taken]
    exact h.buffs
  · show r.view.task.pc = .done
    rw [hview hl]
    exact h.left hl
  · obtain ⟨hl, hrows⟩ := h.result rows hr
    refine ⟨hl, hrows.trans ?_⟩
    show _ = cat chunkSize r.view.mem s.buffs
    rw [hview hl]
    rfl

/-- A step of `collect_buffers` keeps the invariant. -/
theorem Inv.collect (h : s.Inv cap chunkSize maxBuffers cols input) (hsize : 0 < chunkSize)
    (hcols : 0 < cols) (hinput : ∀ data ∈ input, data.cols = cols)
    (he : Effect chunkSize maxBuffers s s') : s'.Inv cap chunkSize maxBuffers cols input := by
  obtain ⟨done, htaken, hbuffs⟩ := h.buffs
  have hnone : s.loop ≠ .left → ∀ r, s.result ≠ some r := fun hl r hr => hl (h.result r hr).1
  cases he with
  | @look l hl hs hl' =>
    have hhand : ∀ {l : Consume (Item ρ)}, l.Looking → hand l = [] := by
      intro l hl
      cases hl <;> rfl
    rw [hhand hl] at htaken
    refine ⟨h.rechunking, ⟨done, (hhand hl').symm ▸ htaken, hbuffs⟩, ?_, fun r hr => ?_⟩
    · rintro rfl
      cases hl'
    · exact absurd hr (hnone (by rintro hc; rw [hc] at hl; cases hl) r)
  | leave hl hc =>
    rw [hl] at htaken
    exact ⟨h.rechunking, ⟨done, htaken, hbuffs⟩, fun _ => h.rechunking.content.isOpen.mp hc,
      fun r hr => absurd hr (hnone (by simp [hl]) r)⟩
  | @take buff chan hl ht =>
    have htakes := Channel.takes_of_take ht
    rw [hl] at htaken
    refine ⟨h.rechunking.step hsize hcols hinput (.consume htakes), ⟨done, ?_, hbuffs⟩, nofun,
      fun r hr => absurd hr (hnone (by simp [hl]) r)⟩
    show chan.taken = _
    rw [htakes.taken, htaken]
    exact congrArg (· ++ [buff]) (List.append_nil done)
  | @push buff hl =>
    rw [hl] at htaken
    refine ⟨h.rechunking, ⟨done ++ [buff], ?_, ?_⟩, nofun,
      fun r hr => absurd hr (hnone (by simp [hl]) r)⟩
    · show s.chan.taken = _
      rw [htaken]
      exact (List.append_nil _).symm
    · by_cases hlt : done.length < maxBuffers
      · rw [if_pos (by rw [hbuffs, List.length_take]; omega), hbuffs, List.take_of_length_le hlt.le,
          List.take_of_length_le (by rw [List.length_append]; exact hlt)]
      · rw [if_neg (by rw [hbuffs, List.length_take]; omega), hbuffs,
          List.take_append_of_le_length (by omega)]
  | cat hl hr =>
    refine ⟨h.rechunking, ⟨done, htaken, hbuffs⟩, h.left, fun r hr' => ?_⟩
    cases hr'
    exact ⟨hl, rfl⟩

/-- What is left to do with an input of `total` rows. -/
def work (total : Nat) (s : Collect ρ) : Nat :=
  s.rechunking.work total + s.loop.work s.chan + if s.result.isSome then 0 else 1

/-- A step of the source or of `rechunk` leaves less to do. -/
theorem Inv.others_work {ev : RechunkingEv} {r : Rechunking ρ}
    (h : s.Inv cap chunkSize maxBuffers cols input) (hsize : 0 < chunkSize) (hcols : 0 < cols)
    (hinput : ∀ data ∈ input, data.cols = cols) (he : Rechunking.Effect chunkSize s.rechunking ev r)
    (hev : ev ≠ .consume) :
    work (input.flatMap Matrix.rows).length { s with rechunking := r } <
      s.work (input.flatMap Matrix.rows).length := by
  have hlt := h.rechunking.work_lt hsize hcols hinput he
  have hle := s.loop.work_le (he.byPutter hev)
  simp only [work, chan] at hle ⊢
  omega

/-- And so does one of `collect_buffers`. -/
theorem Effect.work_lt (he : Effect chunkSize maxBuffers s s') (total : Nat) :
    s'.work total < s.work total := by
  cases he with
  | look hl hs hl' =>
    have := Consume.work_lt hs hl hl'
    simp only [work, chan] at this ⊢
    omega
  | leave hl hc =>
    simp only [work, hl, Consume.work, hc]
    simp
  | @take buff chan hl ht =>
    have hdata := (Channel.takes_of_take ht).data
    have h2 := Consume.two_le_work (c := s.chan) (Consume.Looking.take (β := Item ρ))
    rw [Collect.chan] at hdata
    simp only [work, hl, setChan, Rechunking.work, Rechunking.takenRows, hdata, List.length_cons,
      Consume.work] at h2 ⊢
    omega
  | push hl =>
    have h8 : (Consume.isempty : Consume (Item ρ)).work s.chan ≤ 8 := by
      simp only [Consume.work]
      split <;> omega
    simp only [work, hl, chan] at h8 ⊢
    simp only [Consume.work] at h8 ⊢
    omega
  | cat hl hr =>
    simp [work, hr, hl, chan]

theorem Inv.step (h : s.Inv cap chunkSize maxBuffers cols input) (hsize : 0 < chunkSize)
    (hcols : 0 < cols) (hinput : ∀ data ∈ input, data.cols = cols)
    (hs : s.step chunkSize maxBuffers e = some s') :
    s'.Inv cap chunkSize maxBuffers cols input ∧
      s'.work (input.flatMap Matrix.rows).length < s.work (input.flatMap Matrix.rows).length := by
  cases e with
  | collect =>
    have he := collectStep_effect hs
    exact ⟨h.collect hsize hcols hinput he, he.work_lt _⟩
  | source =>
    obtain ⟨r, hr, rfl⟩ := Option.map_eq_some_iff.mp hs
    have he := Rechunking.step_effect hr
    exact ⟨h.others hsize hcols hinput he nofun, h.others_work hsize hcols hinput he nofun⟩
  | rechunk =>
    obtain ⟨r, hr, rfl⟩ := Option.map_eq_some_iff.mp hs
    have he := Rechunking.step_effect hr
    exact ⟨h.others hsize hcols hinput he nofun, h.others_work hsize hcols hinput he nofun⟩

theorem inv_start (cap : Nat) (input : List (Matrix ρ)) (mem : Chunks ρ) (maxBuffers : Nat)
    (hsize : 0 < chunkSize) : Inv cap chunkSize maxBuffers cols input (start cap input mem) where
  rechunking := Rechunking.inv_start cap hsize input mem
  buffs := ⟨[], rfl, List.take_nil.symm⟩
  left := nofun
  result := nofun

/-- Where no step is possible `rechunk` is done and `collect_buffers` has returned. -/
theorem Inv.end (h : s.Inv cap chunkSize maxBuffers cols input)
    (hend : ∀ e, s.step chunkSize maxBuffers e = none) :
    s.rechunking.loop = .left ∧ s.rechunking.view.task.pc = .done ∧
      s.result = some (cat chunkSize s.mem s.buffs) := by
  have hsource := Option.map_eq_none_iff.mp (hend .source)
  have hrechunk := Option.map_eq_none_iff.mp (hend .rechunk)
  have hcollect : s.collectStep chunkSize maxBuffers = none := hend .collect
  -- the loop of `collect_buffers` does not wait: `rechunk` would go on
  have hleft : s.loop = .left := by
    by_contra hne
    unfold collectStep at hcollect
    split at hcollect
    · cases hcollect
    · rename_i hl
      exact hne hl
    · rename_i hbody _
      have hlook : s.loop.Looking := Consume.looking_of_ne hbody hne
      obtain ⟨ho, hd⟩ := Consume.step_eq_none hlook (Option.map_eq_none_iff.mp hcollect)
      have hdone := (h.rechunking.done_of_taken hsource hrechunk hd).2
      have hc : s.chan.isOpen = false := h.rechunking.content.isOpen.mpr hdone
      rw [ho] at hc
      cases hc
  have hdone := h.left hleft
  have hempty : s.chan.data = [] := (h.rechunking.content.done hdone).1
  refine ⟨(h.rechunking.done_of_taken hsource hrechunk hempty).1, hdone, ?_⟩
  rw [collectStep, hleft] at hcollect
  cases hr : s.result with
  | none =>
    rw [hr] at hcollect
    cases hcollect
  | some rows => exact congrArg some (h.result rows hr).2

/-! ## What is returned -/

/-- The chunks of `n` buffers in a row, from the places of their rows. -/
theorem flatMap_range_rows {α : Type} (size n : Nat) (f : Nat → Nat → α) :
    ((List.range n).flatMap fun j => (List.range size).map (f j)) =
      (List.range (n * size)).map fun r => f (r / size) (r % size) := by
  induction n with
  | zero => simp
  | succ n ih =>
    rw [List.range_succ, List.flatMap_append, ih, Nat.succ_mul, List.range_add, List.map_append,
      List.map_map]
    congr 1
    simp only [List.flatMap_cons, List.flatMap_nil, List.append_nil]
    refine List.map_congr_left fun i hi => ?_
    have hi := List.mem_range.mp hi
    rw [Function.comp, Nat.mul_comm, Nat.mul_add_div (by omega), Nat.mul_add_mod,
      Nat.div_eq_of_lt hi, Nat.mod_eq_of_lt hi]
    rfl

/-- The buffers are references to the full chunks, in turn. -/
theorem Inv.buffs_eq (h : s.Inv cap chunkSize maxBuffers cols input)
    (hd : s.rechunking.view.task.pc = .done) (hl : s.loop = .left)
    (hmax : s.rechunking.takenRows.length / chunkSize ≤ maxBuffers) :
    s.buffs.map Item.ref = (List.range (s.rechunking.takenRows.length / chunkSize)).map fun j =>
      (1, j % 3 + 1) := by
  obtain ⟨hdata, hlen, -⟩ := h.rechunking.content.done hd
  have hdata : s.chan.data = [] := hdata
  have hlen : s.chan.sent.length = s.rechunking.takenRows.length / chunkSize := hlen
  obtain ⟨done, htaken, hbuffs⟩ := h.buffs
  have hsent : s.buffs = s.chan.sent := by
    rw [hl] at htaken
    have hdone : done = s.chan.sent := by
      rw [← Channel.taken_eq_sent hdata]
      exact (htaken.trans (List.append_nil _)).symm
    rw [hbuffs, hdone, List.take_of_length_le (by omega)]
  rw [hsent, ← hlen]
  refine List.ext_getElem (by simp) fun j h₁ h₂ => ?_
  have hj : j < s.chan.sent.length := by simpa using h₁
  have hone := h.rechunking.content.sent s.chan.sent[j] (List.getElem_mem hj)
  have hidx := h.rechunking.content.order.sent j s.chan.sent[j] (List.getElem?_eq_getElem hj)
  rw [List.getElem_map, List.getElem_map, List.getElem_range]
  exact Prod.ext hone hidx

/-- What is returned: the rows of the full chunks, each from its place as it is at the end. -/
theorem Inv.returned (h : s.Inv cap chunkSize maxBuffers cols input)
    (hd : s.rechunking.view.task.pc = .done) (hl : s.loop = .left)
    (hmax : s.rechunking.takenRows.length / chunkSize ≤ maxBuffers) :
    cat chunkSize s.mem s.buffs =
      if s.rechunking.takenRows.length / chunkSize = 0 then none
      else some ((List.range (s.rechunking.takenRows.length / chunkSize * chunkSize)).map fun r =>
        s.mem (place chunkSize r).1 (place chunkSize r).2) := by
  have hrefs := h.buffs_eq hd hl hmax
  have hlen := congrArg List.length hrefs
  rw [List.length_map, List.length_map, List.length_range] at hlen
  have hempty : s.buffs.isEmpty = true ↔ s.rechunking.takenRows.length / chunkSize = 0 := by
    rw [List.isEmpty_iff_length_eq_zero, hlen]
  refine ite_congr (propext hempty) (fun _ => rfl) fun _ => ?_
  have hcat : (s.buffs.flatMap fun buff => (List.range chunkSize).map (s.mem buff.ref)) =
      (s.buffs.map Item.ref).flatMap fun ref => (List.range chunkSize).map (s.mem ref) := by
    rw [List.flatMap_map]
  rw [hcat, hrefs, List.flatMap_map]
  exact congrArg some (flatMap_range_rows chunkSize _ fun j i => s.mem (1, j % 3 + 1) i)

end Collect

/-! ## Streams that survive -/

/-- Every row is the same as the one `period` rows later. -/
def Periodic (period : Nat) (stream : List ρ) : Prop :=
  ∀ i, i + period < stream.length → stream[i]? = stream[i + period]?

theorem Periodic.add_mul {period : Nat} {stream : List ρ} (h : Periodic period stream) (i t : Nat)
    (hi : i + t * period < stream.length) : stream[i]? = stream[i + t * period]? := by
  induction t with
  | zero => simp
  | succ t ih =>
    rw [Nat.succ_mul, ← Nat.add_assoc] at hi ⊢
    rw [ih (by omega), h (i + t * period) hi]

/-- The last row with the place of row `r`. -/
theorem exists_last {size length r : Nat} (hsize : 0 < size) (hr : r < length) :
    ∃ t, r + t * (3 * size) < length ∧ length ≤ r + t * (3 * size) + 3 * size := by
  refine ⟨(length - 1 - r) / (3 * size), ?_, ?_⟩
  · have := Nat.div_mul_le_self (length - 1 - r) (3 * size)
    omega
  · have := Nat.lt_div_mul_add (a := length - 1 - r) (b := 3 * size) (by omega)
    omega

/-- The row that is found at the end in the place of row `r` is the same for the rows of a stream
exactly if the stream is periodic. -/
theorem rows_survive_iff {size : Nat} (hsize : 0 < size) (stream : List ρ) (row : (Nat × Nat) × Nat → ρ)
    (hrow : ∀ g, g < stream.length → stream.length ≤ g + 3 * size →
      stream[g]? = some (row (place size g))) :
    ((List.range (stream.length / size * size)).map fun r => row (place size r)) =
      stream.take (stream.length / size * size) ↔ Periodic (3 * size) stream := by
  have hfull : stream.length / size * size ≤ stream.length := Nat.div_mul_le_self ..
  have hrest : stream.length < stream.length / size * size + size := Nat.lt_div_mul_add hsize
  have hplace : ∀ r t, place size (r + t * (3 * size)) = place size r := by
    intro r t
    rw [place_eq_iff, Nat.mul_comm size 3, Nat.add_mul_mod_self_right]
  -- the list equality, row by row
  have hiff : ((List.range (stream.length / size * size)).map fun r => row (place size r)) =
      stream.take (stream.length / size * size) ↔
      ∀ r, r < stream.length / size * size → stream[r]? = some (row (place size r)) := by
    constructor
    · intro he r hr
      have hget := congrArg (·[r]?) he
      simp only [List.getElem?_map, List.getElem?_range hr, List.getElem?_take_of_lt hr] at hget
      exact hget.symm
    · intro h
      refine List.ext_getElem? fun r => ?_
      by_cases hr : r < stream.length / size * size
      · rw [List.getElem?_take_of_lt hr, List.getElem?_map, List.getElem?_range hr, h r hr]
        rfl
      · rw [List.getElem?_eq_none (by simpa using hr), List.getElem?_take_eq_none (by omega)]
  rw [hiff]
  constructor
  · intro h i hi
    have hlater : stream[i + 3 * size]? = some (row (place size (i + 3 * size))) := by
      by_cases hf : i + 3 * size < stream.length / size * size
      · exact h _ hf
      · exact hrow _ hi (by omega)
    have hsame := hplace i 1
    rw [Nat.one_mul] at hsame
    rw [h i (by omega), hlater, hsame]
  · intro h r hr
    obtain ⟨t, hlt, hlast⟩ := exists_last hsize (lt_of_lt_of_le hr hfull)
    rw [h.add_mul r t hlt, hrow _ hlt hlast, hplace]

namespace Collect

variable {cap chunkSize maxBuffers cols : Nat} {input : List (Matrix ρ)} {mem : Chunks ρ}
  {s s' : Collect ρ} {e : CollectEv} {es : List CollectEv}

/-! ## Tests in time -/

/-- The test of the loop of `rechunk` is in time. -/
def InTime (n : Nat) (s : Collect ρ) (e : CollectEv) : Prop :=
  s.rechunking.InTime n e.rechunking

/-- A step is one of the source, of `rechunk` or of a task that takes the chunks, or `collect_buffers`
does not touch the channel. -/
theorem step_rechunking (h : s.step chunkSize maxBuffers e = some s') :
    s.rechunking.step chunkSize e.rechunking = some s'.rechunking ∨
      e = .collect ∧ s'.rechunking = s.rechunking := by
  cases e with
  | source =>
    obtain ⟨r, hr, rfl⟩ := Option.map_eq_some_iff.mp h
    exact .inl hr
  | rechunk =>
    obtain ⟨r, hr, rfl⟩ := Option.map_eq_some_iff.mp h
    exact .inl hr
  | collect =>
    cases collectStep_effect h with
    | take hl ht => exact .inl (Option.map_eq_some_iff.mpr ⟨_, ht, rfl⟩)
    | _ => exact .inr ⟨rfl, rfl⟩

/-- The invariant after a run. -/
theorem inv_run (hsize : 0 < chunkSize) (hcols : 0 < cols)
    (hinput : ∀ data ∈ input, data.cols = cols)
    (hr : (machine ρ chunkSize maxBuffers).run es (start cap input mem) = some s) :
    s.Inv cap chunkSize maxBuffers cols input :=
  Machine.run_inv (fun _ _ _ hi hs => (hi.step hsize hcols hinput hs).1)
    (inv_start cap input mem maxBuffers hsize) hr

/-- After a run all blocks have been taken exactly if all tests were in time. -/
theorem kept_iff_along (hsize : 0 < chunkSize) (hcols : 0 < cols)
    (hinput : ∀ data ∈ input, data.cols = cols)
    (hr : (machine ρ chunkSize maxBuffers).run es (start cap input mem) = some s) :
    s.rechunking.Kept chunkSize ↔
      (machine ρ chunkSize maxBuffers).Along (InTime chunkSize) es (start cap input mem) := by
  refine Machine.last_iff_along (I := Inv cap chunkSize maxBuffers cols input)
    (P := fun s => s.rechunking.Kept chunkSize)
    (fun _ _ _ h hs => (h.step hsize hcols hinput hs).1) (fun s e s' h hk ht hs => ?_)
    (fun s e s' h hs hk => ?_) (fun s e s' hs hk => ?_)
    (inv_start cap input mem maxBuffers hsize) nofun hr
  · rcases step_rechunking hs with hr | ⟨-, hsame⟩
    · exact h.rechunking.kept hk ht (Rechunking.step_effect hr)
    · rw [hsame]
      exact hk
  · rcases step_rechunking hs with hr | ⟨-, hsame⟩
    · exact h.rechunking.kept_back (Rechunking.step_effect hr) hk
    · rw [hsame] at hk
      exact hk
  · rcases step_rechunking hs with hr | ⟨rfl, -⟩
    · exact Rechunking.inTime_of_kept hr hk
    · exact nofun

/-- Without a capacity all tests are in time. -/
theorem inTime_of_unbuffered (hsize : 0 < chunkSize) (hcols : 0 < cols)
    (hinput : ∀ data ∈ input, data.cols = cols) (es : List CollectEv) :
    (machine ρ chunkSize maxBuffers).Along (InTime chunkSize) es (start 0 input mem) :=
  Machine.along_of_inv (C := fun _ _ => True) (I := Inv 0 chunkSize maxBuffers cols input)
    (fun _ _ _ h _ hs => (h.step hsize hcols hinput hs).1) (fun _ _ _ h _ _ => h.rechunking.inTime)
    (inv_start 0 input mem maxBuffers hsize) (Machine.along_of_forall fun _ _ => trivial)

/-- `collect_buffers` of `rechunk` always ends. It has returned the rows of the input up to the last
full chunk if and only if every test of the loop of `rechunk` was in time and every row that `rechunk`
was given is the same as the one three chunks later. -/
theorem collect_rechunk_iff (cap chunkSize maxBuffers cols : Nat) (input : List (Matrix ρ))
    (mem : Chunks ρ) (hsize : 0 < chunkSize) (hcols : 0 < cols)
    (hinput : ∀ data ∈ input, data.cols = cols)
    (hfull : 1 ≤ (input.flatMap Matrix.rows).length / chunkSize)
    (hmax : (input.flatMap Matrix.rows).length / chunkSize ≤ maxBuffers) :
    (∃ k, ∀ es s, (machine ρ chunkSize maxBuffers).run es (start cap input mem) = some s →
        es.length ≤ k) ∧
      ∀ es s, (machine ρ chunkSize maxBuffers).run es (start cap input mem) = some s →
        (∀ e, s.step chunkSize maxBuffers e = none) →
        (s.result = some (some ((input.flatMap Matrix.rows).take
            ((input.flatMap Matrix.rows).length / chunkSize * chunkSize))) ↔
          (machine ρ chunkSize maxBuffers).Along (InTime chunkSize) es (start cap input mem) ∧
            ∀ i, i + 3 * chunkSize < s.rechunking.takenRows.length →
              s.rechunking.takenRows[i]? = s.rechunking.takenRows[i + 3 * chunkSize]?) := by
  constructor
  · refine ⟨(start cap input mem).work (input.flatMap Matrix.rows).length, fun es s hr => ?_⟩
    exact Machine.run_length_le (M := machine ρ chunkSize maxBuffers)
      (fun _ _ _ hi hs => hi.step hsize hcols hinput hs) (inv_start cap input mem maxBuffers hsize) hr
  · intro es s hr hend
    have hi := inv_run hsize hcols hinput hr
    obtain ⟨hloop, hd, hres⟩ := hi.end hend
    have hl := (hi.result _ hres).1
    obtain ⟨rest, hrest⟩ := hi.rechunking.stream_eq
    have hle : s.rechunking.takenRows.length / chunkSize ≤
        (input.flatMap Matrix.rows).length / chunkSize := by
      rw [hrest, List.length_append]
      exact Nat.div_le_div_right (Nat.le_add_right _ _)
    -- what is left behind
    have hkept : s.rechunking.Kept chunkSize ↔ s.rechunking.takenRows.length / chunkSize =
        (input.flatMap Matrix.rows).length / chunkSize := by
      rw [Rechunking.Kept, Rechunking.NoBlockLeft,
        ← hi.rechunking.feeds.input_eq (hi.rechunking.closed hloop)]
      exact ⟨fun hk => hk hloop, fun hk _ => hk⟩
    rw [← kept_iff_along hsize hcols hinput hr, hkept, hres, Option.some_inj,
      hi.returned hd hl (hle.trans hmax)]
    -- what is overwritten
    have hsurvive := rows_survive_iff hsize s.rechunking.takenRows (fun p => s.mem p.1 p.2)
      fun g hg hlast => by
        have hw := (hi.rechunking.content.done hd).2.2
        exact hi.rechunking.content.mem g (hw.symm ▸ hg) (hw.symm ▸ hlast)
    by_cases hblocks : s.rechunking.takenRows.length / chunkSize =
        (input.flatMap Matrix.rows).length / chunkSize
    · have htake : (input.flatMap Matrix.rows).take
          (s.rechunking.takenRows.length / chunkSize * chunkSize) =
          s.rechunking.takenRows.take (s.rechunking.takenRows.length / chunkSize * chunkSize) := by
        rw [hrest, List.take_append_of_le_length (Nat.div_mul_le_self ..)]
      rw [← hblocks, if_neg (by omega), Option.some_inj, htake, hsurvive]
      exact (and_iff_right rfl).symm
    · refine iff_of_false (fun h => ?_) fun h => hblocks h.1
      split at h
      · cases h
      · -- the lengths differ
        have hlen := congrArg List.length (Option.some.inj h)
        rw [List.length_map, List.length_range, List.length_take,
          Nat.min_eq_left (Nat.div_mul_le_self ..)] at hlen
        exact hblocks (Nat.eq_of_mul_eq_mul_right hsize hlen)

/-- Steps of the same task in a row. -/
def inRow (turns : List (Nat × CollectEv)) : List CollectEv :=
  turns.flatMap fun turn => List.replicate turn.1 turn.2

instance (n : Nat) (s : Collect ρ) (e : CollectEv) : Decidable (s.InTime n e) :=
  inferInstanceAs (Decidable (s.rechunking.InTime n e.rechunking))

/-- The first two chunks are used twice, each time for the same row. -/
def twiceRun : List CollectEv :=
  inRow [(2, .rechunk), (1, .source), (5, .rechunk), (3, .source), (2, .collect), (5, .rechunk),
    (3, .collect), (8, .rechunk), (3, .source), (3, .collect), (8, .rechunk), (3, .collect),
    (5, .rechunk), (3, .collect), (6, .rechunk), (4, .collect)]

theorem collect_rechunk_iff_twice :
    ∃ s, (machine Nat 1 4000).run twiceRun
        (start 1 [⟨1, [7, 8]⟩, ⟨1, [9]⟩, ⟨1, [7, 8]⟩] fun _ _ => 0) = some s ∧
      (∀ e, s.step 1 4000 e = none) ∧ s.result = some (some [7, 8, 9, 7, 8]) := by
  obtain ⟨s, hs⟩ := Option.isSome_iff_exists.mp (show ((machine Nat 1 4000).run twiceRun
    (start 1 [⟨1, [7, 8]⟩, ⟨1, [9]⟩, ⟨1, [7, 8]⟩] fun _ _ => 0)).isSome = true by decide +kernel)
  have hend : ∀ e, s.step 1 4000 e = none := fun e =>
    Machine.step_eq_none hs (by cases e <;> decide +kernel)
  have hiff := (collect_rechunk_iff 1 1 4000 1 [⟨1, [7, 8]⟩, ⟨1, [9]⟩, ⟨1, [7, 8]⟩] (fun _ _ => 0)
    (by decide) (by decide) (by decide) (by decide) (by decide)).2 twiceRun s hs hend
  refine ⟨s, hs, hend, hiff.mpr ⟨by decide +kernel, ?_⟩⟩
  rw [Machine.view_eq hs (fun s => s.rechunking.takenRows)
    (show _ = some [7, 8, 9, 7, 8] by decide +kernel)]
  intro i hi
  obtain rfl | rfl : i = 0 ∨ i = 1 := by
    simp only [List.length_cons, List.length_nil] at hi
    omega
  · rfl
  · rfl

/-- Four rows of one sample: the first one is overwritten by the last one. -/
def overwriteRun : List CollectEv :=
  inRow [(2, .collect), (1, .source), (2, .rechunk), (2, .source), (4, .rechunk), (4, .collect),
    (5, .rechunk), (4, .collect), (5, .rechunk), (4, .collect), (5, .rechunk), (4, .collect),
    (6, .rechunk), (4, .collect)]

theorem collect_rechunk_overwritten :
    ∃ s, (machine Nat 1 4000).run overwriteRun (start 0 [⟨1, [1, 2, 3, 4]⟩] fun _ _ => 0) = some s ∧
      (∀ e, s.step 1 4000 e = none) ∧ s.result = some (some [4, 2, 3, 4]) := by
  obtain ⟨s, hs⟩ := Option.isSome_iff_exists.mp (show ((machine Nat 1 4000).run overwriteRun
    (start 0 [⟨1, [1, 2, 3, 4]⟩] fun _ _ => 0)).isSome = true by decide +kernel)
  exact ⟨s, hs, fun e => Machine.step_eq_none hs (by cases e <;> decide +kernel),
    Machine.view_eq hs result (by decide +kernel)⟩

end Collect

end Sigflow
end Xtrx
