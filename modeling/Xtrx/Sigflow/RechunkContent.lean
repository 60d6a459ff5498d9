import Xtrx.Sigflow.Rechunk

/-!
# The contents of the chunks of `rechunk` (`libsigflow.jl`)

- **`Content`**: what the chunks hold while `rechunk` runs: of the rows copied so far the last
  `3 * chunk_size` ones, in the order in which the chunks are filled (`Content.step`).
- **`place`**: the chunk and the row in it where a row of the stream is written.
- **`Rechunk.work`**: every step leaves `rechunk` less to do (`Content.work_lt`).
-/

namespace Xtrx
namespace Sigflow

open Conc

variable {ρ : Type}

/-! ## The contents of the chunks -/

/-- The rows in hand that are not copied yet. -/
def RechunkPc.rows : RechunkPc ρ → List ρ
  | loop data => data.rows
  | copy todo _ rest => todo ++ rest.rows
  | put rest => rest.rows
  | putting rest => rest.rows
  | _ => []

/-- The rows copied in this turn. -/
def RechunkPc.row : RechunkPc ρ → Nat
  | copy _ row _ => row
  | _ => 0

/-- The view of the rest. -/
def RechunkPc.data? : RechunkPc ρ → Option (Matrix ρ)
  | loop data => some data
  | copy _ _ rest => some rest
  | put rest => some rest
  | putting rest => some rest
  | _ => none

/-- The rows that are not copied yet. -/
def Rechunk.left (t : Rechunk ρ) : List ρ := t.pc.rows ++ t.input.flatMap Matrix.rows

/-- The number of the chunk that is filled or in its put. -/
def RechunkView.number (v : RechunkView ρ) : Nat :=
  match v.task.pc with
  | .putting _ => v.out.sent.length - 1
  | _ => v.out.sent.length

/-- The number of rows copied so far. -/
def RechunkView.written (chunkSize : Nat) (v : RechunkView ρ) : Nat :=
  v.number * chunkSize + (v.task.chunkFilled + v.task.pc.row)

/-- How full the current chunk is. -/
def Rechunk.Filled (chunkSize : Nat) (t : Rechunk ρ) : Prop :=
  match t.pc with
  | .copy todo row _ => t.chunkFilled + row + todo.length ≤ chunkSize
  | .put _ => t.chunkFilled = chunkSize
  | .putting _ => t.chunkFilled = chunkSize
  | _ => t.chunkFilled < chunkSize

/-- The chunks are allocated, or `rechunk` has seen no rows. -/
def Rechunk.Allocated (cols : Nat) (t : Rechunk ρ) : Prop :=
  t.alloc = 1 ∧ t.numChannels = cols ∨
    t.alloc = 0 ∧ t.numChannels = 0 ∧ t.chunkFilled = 0 ∧
      (t.pc = .take ∨ (∃ data, t.pc = .loop data) ∨ t.pc = .close ∨ t.pc = .done)

/-- Row `g` of the stream has its place in the chunks. -/
def place (chunkSize g : Nat) : (Nat × Nat) × Nat := ((1, g / chunkSize % 3 + 1), g % chunkSize)

/-- The rows of `stream` up to the one that is copied next, in the chunks. -/
structure Content (stream : List ρ) (chunkSize cols : Nat) (v : RechunkView ρ) : Prop where
  order : v.task.Order v.out
  isOpen : v.out.isOpen = false ↔ v.task.pc = .done
  copied : ∃ copied, copied.length = v.written chunkSize ∧ copied ++ v.task.left = stream
  filled : v.task.Filled chunkSize
  allocated : v.task.Allocated cols
  sent : ∀ item ∈ v.out.sent, item.ref.1 = 1
  input : ∀ data ∈ v.task.input, data.cols = cols
  data : ∀ data ∈ v.task.pc.data?, data.cols = cols
  ended : v.task.pc = .close ∨ v.task.pc = .done → v.task.input = []
  mem : ∀ g, g < v.written chunkSize → v.written chunkSize ≤ g + 3 * chunkSize →
    stream[g]? = some (v.mem (place chunkSize g).1 (place chunkSize g).2)

/-- The rows of a chunk are in its places. -/
theorem place_row {chunkSize i : Nat} (hi : i < chunkSize) (n : Nat) :
    place chunkSize (n * chunkSize + i) = ((1, n % 3 + 1), i) := by
  unfold place
  rw [Nat.mul_comm, Nat.mul_add_div (by omega), Nat.mul_add_mod, Nat.div_eq_of_lt hi,
    Nat.mod_eq_of_lt hi]
  rfl

/-- Two rows have the same place only if their distance is a multiple of the size of all chunks. -/
theorem place_eq_iff {chunkSize g g' : Nat} :
    place chunkSize g = place chunkSize g' ↔ g % (chunkSize * 3) = g' % (chunkSize * 3) := by
  unfold place
  rw [Nat.mod_mul, Nat.mod_mul]
  simp only [Prod.mk.injEq, true_and, Nat.add_right_cancel_iff]
  constructor
  · rintro ⟨h, h'⟩
    rw [h, h']
  · intro h
    have hpos : chunkSize = 0 ∨ 0 < chunkSize := Nat.eq_zero_or_pos _
    rcases hpos with rfl | hpos
    · simpa using h
    · have h₁ : g % chunkSize = g' % chunkSize := by
        have := congrArg (· % chunkSize) h
        simpa using this
      rw [h₁] at h
      exact ⟨Nat.eq_of_mul_eq_mul_left hpos (Nat.add_left_cancel h), h₁⟩

/-- Rows that are less than the size of all chunks apart have different places. -/
theorem place_ne {chunkSize g w : Nat} (hg : g < w) (hw : w < g + 3 * chunkSize) :
    place chunkSize g ≠ place chunkSize w := by
  rw [Ne, place_eq_iff]
  intro h
  have hd : chunkSize * 3 ∣ w - g := Nat.dvd_of_mod_eq_zero (Nat.sub_mod_eq_zero_of_mod_eq h.symm)
  have := Nat.le_of_dvd (by omega) hd
  omega

section

variable {stream : List ρ} {chunkSize cols : Nat} {v v' : RechunkView ρ}

/-- The current chunk is the one of its number. -/
theorem Content.idx (h : Content stream chunkSize cols v) :
    v.task.chunkIdx = v.number % 3 + 1 := by
  by_cases hp : v.task.Putting
  · obtain ⟨m, hm, hidx⟩ := h.order.idxPutting hp
    obtain ⟨rest, hr⟩ := hp
    rw [hidx, RechunkView.number, hr, hm]
    rfl
  · rw [h.order.idx hp, RechunkView.number]
    split
    · rename_i rest hr
      exact absurd ⟨rest, hr⟩ hp
    · rfl

/-- A step that leaves the chunks and the output as they are. -/
theorem Content.move (h : Content stream chunkSize cols v) (horder : v'.task.Order v'.out)
    (hpc : v.task.pc ≠ .done) (hpc' : v'.task.pc ≠ .done) (hout : v'.out = v.out)
    (hmem : v'.mem = v.mem) (hwritten : v'.written chunkSize = v.written chunkSize)
    (hleft : v'.task.left = v.task.left) (hfilled : v'.task.Filled chunkSize)
    (halloc : v'.task.Allocated cols)
    (hinput : ∀ data ∈ v'.task.input, data.cols = cols)
    (hdata : ∀ data ∈ v'.task.pc.data?, data.cols = cols)
    (hended : v'.task.pc = .close ∨ v'.task.pc = .done → v'.task.input = []) :
    Content stream chunkSize cols v' where
  order := horder
  isOpen := by
    rw [hout, h.isOpen]
    exact iff_of_false hpc hpc'
  copied := by
    rw [hwritten, hleft]
    exact h.copied
  filled := hfilled
  allocated := halloc
  sent := by
    rw [hout]
    exact h.sent
  input := hinput
  data := hdata
  ended := hended
  mem := by
    rw [hwritten, hmem]
    exact h.mem

/-- The chunks are allocated when rows are copied. -/
theorem Rechunk.Allocated.makeChunks {t : Rechunk ρ} (h : t.Allocated cols) (hcols : 0 < cols) :
    (t.makeChunks cols).alloc = 1 ∧ (t.makeChunks cols).numChannels = cols := by
  unfold Rechunk.makeChunks
  rcases h with ⟨ha, hn⟩ | ⟨ha, hn, -⟩
  · rw [if_neg (not_not.mpr hn)]
    exact ⟨ha, hn⟩
  · rw [if_pos (by omega)]
    exact ⟨by rw [ha], rfl⟩

@[simp] theorem Rechunk.makeChunks_chunkFilled (t : Rechunk ρ) (n : Nat) :
    (t.makeChunks n).chunkFilled = t.chunkFilled := by
  unfold Rechunk.makeChunks
  split <;> rfl

@[simp] theorem Rechunk.makeChunks_input (t : Rechunk ρ) (n : Nat) :
    (t.makeChunks n).input = t.input := by
  unfold Rechunk.makeChunks
  split <;> rfl

/-- While rows are copied or a chunk is put the chunks are allocated. -/
theorem Rechunk.Allocated.of_busy {t : Rechunk ρ} (h : t.Allocated cols) (htake : t.pc ≠ .take)
    (hloop : ∀ data, t.pc ≠ .loop data) (hclose : t.pc ≠ .close) (hdone : t.pc ≠ .done) :
    t.alloc = 1 ∧ t.numChannels = cols := by
  rcases h with h | ⟨-, -, -, hpc | ⟨data, hpc⟩ | hpc | hpc⟩
  · exact h
  · exact absurd hpc htake
  · exact absurd hpc (hloop data)
  · exact absurd hpc hclose
  · exact absurd hpc hdone

theorem Chunks.write_apply (mem : Chunks ρ) (ref : Nat × Nat) (row : Nat) (x : ρ)
    (p : (Nat × Nat) × Nat) :
    mem.write ref row x p.1 p.2 = if p = (ref, row) then x else mem p.1 p.2 := by
  obtain ⟨r, i⟩ := p
  unfold Chunks.write
  by_cases hr : r = ref
  · subst hr
    rw [Function.update_self]
    by_cases hi : i = row
    · subst hi
      rw [Function.update_self, if_pos rfl]
    · rw [Function.update_of_ne hi, if_neg fun he => hi (congrArg Prod.snd he)]
  · rw [Function.update_of_ne hr, if_neg fun he => hr (congrArg Prod.fst he)]

/-- Before the first rows the chunks are allocated or not, as before. -/
theorem Rechunk.Allocated.idle {t t' : Rechunk ρ} (h : t.Allocated cols) (ha : t'.alloc = t.alloc)
    (hn : t'.numChannels = t.numChannels) (hf : t'.chunkFilled = t.chunkFilled)
    (hpc : t'.pc = .take ∨ (∃ data, t'.pc = .loop data) ∨ t'.pc = .close ∨ t'.pc = .done) :
    t'.Allocated cols := by
  rcases h with ⟨ha', hn'⟩ | ⟨ha', hn', hf', -⟩
  · exact .inl ⟨ha.trans ha', hn.trans hn'⟩
  · exact .inr ⟨ha.trans ha', hn.trans hn', hf.trans hf', hpc⟩

/-- A turn begins with the rows that have room in the chunk. -/
theorem Content.turn (h : Content stream chunkSize cols v) (hcols : 0 < cols) {data : Matrix ρ}
    (hpc : v.task.pc = .loop data) (hempty : data.isEmpty = false) :
    Content stream chunkSize cols { v with task := { v.task.makeChunks data.cols with
      pc := .copy (data.rows.take (min data.rows.length (chunkSize - v.task.chunkFilled))) 0
        { data with
          rows := data.rows.drop (min data.rows.length (chunkSize - v.task.chunkFilled)) } } } := by
  have horder := Rechunk.Order.step h.order (show Rechunk.Effect chunkSize v _ from .turn hpc hempty)
  obtain ⟨⟨input, pc, chunkFilled, chunkIdx, numChannels, alloc⟩, mem, out⟩ := v
  obtain rfl : pc = _ := hpc
  obtain rfl : data.cols = cols := h.data data rfl
  have hf : chunkFilled < chunkSize := h.filled
  refine h.move horder nofun nofun rfl rfl ?_ ?_ ?_ (.inl (h.allocated.makeChunks hcols)) ?_
    (fun d hd => ?_) nofun
  · show out.sent.length * chunkSize + ((Rechunk.makeChunks data.cols _).chunkFilled + 0) = _
    rw [Rechunk.makeChunks_chunkFilled]
    rfl
  · show (data.rows.take _ ++ data.rows.drop _) ++
      (Rechunk.makeChunks data.cols _).input.flatMap Matrix.rows = _
    rw [List.take_append_drop, Rechunk.makeChunks_input]
    rfl
  · show (Rechunk.makeChunks data.cols _).chunkFilled + 0 + (data.rows.take _).length ≤ chunkSize
    rw [Rechunk.makeChunks_chunkFilled, List.length_take]
    show chunkFilled + 0 + min (min data.rows.length (chunkSize - chunkFilled)) _ ≤ chunkSize
    omega
  · show ∀ d ∈ (Rechunk.makeChunks data.cols _).input, _
    rw [Rechunk.makeChunks_input]
    exact h.input
  · cases hd
    rfl

/-- The next row is written to its place; the one that is lost there is `3 * chunkSize` rows older. -/
theorem Content.write (h : Content stream chunkSize cols v) {x : ρ} {todo : List ρ} {row : Nat}
    {rest : Matrix ρ} (hpc : v.task.pc = .copy (x :: todo) row rest) :
    Content stream chunkSize cols { v with
      mem := v.mem.write v.task.ref (v.task.chunkFilled + row) x
      task := { v.task with pc := .copy todo (row + 1) rest } } := by
  have horder := Rechunk.Order.step h.order (show Rechunk.Effect chunkSize v _ from .write hpc)
  obtain ⟨⟨input, pc, chunkFilled, chunkIdx, numChannels, alloc⟩, mem, out⟩ := v
  obtain rfl : pc = _ := hpc
  have hf : chunkFilled + row + (todo.length + 1) ≤ chunkSize := h.filled
  obtain ⟨rfl, hn⟩ := h.allocated.of_busy nofun nofun nofun nofun
  obtain ⟨copied, hlen, hstream⟩ := h.copied
  have hidx : chunkIdx = out.sent.length % 3 + 1 := h.idx
  let w := out.sent.length * chunkSize + (chunkFilled + row)
  have hplace : place chunkSize w = ((1, chunkIdx), chunkFilled + row) := by
    rw [hidx]
    exact place_row (by omega) _
  have hlen : copied.length = w := hlen
  refine ⟨horder, ⟨fun hc => (nomatch h.isOpen.mp hc), nofun⟩, ⟨copied ++ [x], ?_, ?_⟩, ?_,
    .inl ⟨rfl, hn⟩, h.sent, h.input, h.data, nofun, fun g hg hw => ?_⟩
  · rw [List.length_append, hlen]
    rfl
  · rw [List.append_assoc]
    exact hstream
  · show chunkFilled + (row + 1) + todo.length ≤ chunkSize
    omega
  · have hg : g < w + 1 := hg
    have hw : w + 1 ≤ g + 3 * chunkSize := hw
    show stream[g]? = some (Chunks.write mem (1, chunkIdx) (chunkFilled + row) x _ _)
    rw [Chunks.write_apply, ← hplace]
    rcases Nat.lt_or_eq_of_le (Nat.le_of_lt_succ hg) with hlt | rfl
    · rw [if_neg (place_ne hlt (by omega))]
      exact h.mem g hlt (by show w ≤ _; omega)
    · rw [if_pos rfl, ← hstream, List.getElem?_append_right hlen.le, hlen, Nat.sub_self]
      rfl

/-- A chunk that is put is still the one with the number of the chunks put before. -/
theorem Content.offer (h : Content stream chunkSize cols v) {rest : Matrix ρ}
    {out : Channel (Item ρ)} (hpc : v.task.pc = .put rest)
    (hp : v.out.put ⟨v.task.ref, v.mem v.task.ref⟩ = some out) :
    Content stream chunkSize cols { v with out, task := { v.task with pc := .putting rest } } := by
  have horder := Rechunk.Order.step h.order (show Rechunk.Effect chunkSize v _ from .put hpc hp)
  have hputs := Channel.puts_of_put hp
  obtain ⟨⟨input, pc, chunkFilled, chunkIdx, numChannels, alloc⟩, mem, out₀⟩ := v
  obtain rfl : pc = _ := hpc
  obtain ⟨rfl, hn⟩ := h.allocated.of_busy nofun nofun nofun nofun
  have hnum : out.sent.length - 1 = out₀.sent.length := by
    rw [hputs.sent, List.length_append]
    rfl
  have hw : (out.sent.length - 1) * chunkSize + (chunkFilled + 0) =
      out₀.sent.length * chunkSize + (chunkFilled + 0) := by rw [hnum]
  refine ⟨horder, ⟨fun hc => ?_, nofun⟩, ?_, h.filled, .inl ⟨rfl, hn⟩, fun item hi => ?_,
    h.input, h.data, nofun, ?_⟩
  · have hc : out.isOpen = false := hc
    rw [hputs.isOpen, hputs.wasOpen] at hc
    cases hc
  · show ∃ copied : List ρ,
      copied.length = (out.sent.length - 1) * chunkSize + (chunkFilled + 0) ∧ _
    rw [hw]
    exact h.copied
  · have hi : item ∈ out.sent := hi
    rw [hputs.sent, List.mem_append, List.mem_singleton] at hi
    rcases hi with hold | rfl
    · exact h.sent item hold
    · rfl
  · show ∀ g, g < (out.sent.length - 1) * chunkSize + (chunkFilled + 0) →
      (out.sent.length - 1) * chunkSize + (chunkFilled + 0) ≤ _ → _
    rw [hw]
    exact h.mem

/-- A step of `rechunk` keeps the contents. -/
theorem Content.step (h : Content stream chunkSize cols v) (hsize : 0 < chunkSize) (hcols : 0 < cols)
    (he : Rechunk.Effect chunkSize v v') : Content stream chunkSize cols v' := by
  have horder := Rechunk.Order.step h.order he
  obtain ⟨⟨input, pc, chunkFilled, chunkIdx, numChannels, alloc⟩, mem, out⟩ := v
  cases he with
  | finish hpc hin =>
    obtain rfl : pc = _ := hpc
    obtain rfl : input = _ := hin
    refine h.move horder nofun nofun rfl rfl rfl rfl h.filled ?_ h.input nofun fun _ => rfl
    exact h.allocated.idle rfl rfl rfl (.inr (.inr (.inl rfl)))
  | @next data input' hpc hin =>
    obtain rfl : pc = _ := hpc
    obtain rfl : input = _ := hin
    refine h.move horder nofun nofun rfl rfl rfl rfl h.filled ?_
      (fun d hd => h.input d (List.mem_cons_of_mem _ hd)) (fun d hd => ?_) nofun
    · exact h.allocated.idle rfl rfl rfl (.inr (.inl ⟨data, rfl⟩))
    · cases hd
      exact h.input data (List.mem_cons_self ..)
  | @skip data hpc hempty =>
    obtain rfl : pc = _ := hpc
    have hrows : data.rows = [] := by
      have hc := h.data data rfl
      simp only [Matrix.isEmpty, Bool.or_eq_true, List.isEmpty_iff, beq_iff_eq] at hempty
      exact hempty.resolve_right (by omega)
    refine h.move horder nofun nofun rfl rfl rfl ?_ h.filled ?_ h.input nofun nofun
    · show [] ++ _ = data.rows ++ _
      rw [hrows]
    · exact h.allocated.idle rfl rfl rfl (.inl rfl)
  | turn hpc hempty => exact h.turn hcols hpc hempty
  | write hpc => exact h.write hpc
  | @full row rest hpc hfull =>
    obtain rfl : pc = _ := hpc
    have hf : chunkFilled + row + 0 ≤ chunkSize := h.filled
    exact h.move horder nofun nofun rfl rfl rfl rfl (Nat.le_antisymm hf hfull)
      (.inl (h.allocated.of_busy nofun nofun nofun nofun)) h.input h.data nofun
  | partly hpc hpart =>
    obtain rfl : pc = _ := hpc
    exact h.move horder nofun nofun rfl rfl rfl rfl hpart
      (.inl (h.allocated.of_busy nofun nofun nofun nofun)) h.input h.data nofun
  | put hpc hp => exact h.offer hpc hp
  | @putDone rest hpc hd =>
    obtain rfl : pc = _ := hpc
    obtain ⟨m, hm, -⟩ := h.order.idxPutting ⟨rest, rfl⟩
    have hf : chunkFilled = chunkSize := h.filled
    refine h.move horder nofun nofun rfl rfl ?_ rfl hsize
      (.inl (h.allocated.of_busy nofun nofun nofun nofun)) h.input h.data nofun
    have hm : out.sent.length = m + 1 := hm
    show out.sent.length * chunkSize + (0 + 0) =
      (out.sent.length - 1) * chunkSize + (chunkFilled + 0)
    rw [hm, hf, Nat.succ_mul]
    rfl
  | close hpc =>
    obtain rfl : pc = _ := hpc
    exact ⟨horder, ⟨fun _ => rfl, fun _ => rfl⟩, h.copied, h.filled,
      h.allocated.idle rfl rfl rfl (.inr (.inr (.inr rfl))), h.sent, h.input, nofun,
      fun _ => h.ended (.inl rfl), h.mem⟩

/-- Before the first step. -/
theorem content_start (input : List (Matrix ρ)) (mem : Chunks ρ) (hsize : 0 < chunkSize)
    (hinput : ∀ data ∈ input, data.cols = cols) :
    Content (input.flatMap Matrix.rows) chunkSize cols ⟨.start input, mem, .new 0⟩ where
  order := Rechunk.order_start input
  isOpen := ⟨nofun, nofun⟩
  copied := ⟨[], by
    show 0 = 0 * chunkSize + (0 + 0)
    omega, rfl⟩
  filled := hsize
  allocated := .inr ⟨rfl, rfl, rfl, .inl rfl⟩
  sent := nofun
  input := hinput
  data := nofun
  ended := nofun
  mem := fun g hg => by
    have hg : g < 0 * chunkSize + (0 + 0) := hg
    omega

/-- The task that takes keeps the contents. -/
theorem Content.others (h : Content stream chunkSize cols v) {out : Channel (Item ρ)}
    (ho : v.out.ByTaker out) : Content stream chunkSize cols { v with out } := by
  have hwritten : RechunkView.written chunkSize { v with out } = v.written chunkSize := by
    simp only [RechunkView.written, RechunkView.number, ho.sent]
  refine ⟨h.order.others ho, ?_, ?_, h.filled, h.allocated, ?_, h.input, h.data, h.ended, ?_⟩
  · rw [ho.isOpen]
    exact h.isOpen
  · rw [hwritten]
    exact h.copied
  · rw [ho.sent]
    exact h.sent
  · rw [hwritten]
    exact h.mem

/-- At the end nothing is on its way, and as many chunks are put as are full. -/
theorem Content.done (h : Content stream chunkSize cols v) (hd : v.task.pc = .done) :
    v.out.data = [] ∧ v.out.sent.length = stream.length / chunkSize ∧
      v.written chunkSize = stream.length := by
  have hput : ¬ v.task.Putting := fun ⟨_, hr⟩ => nomatch hd.symm.trans hr
  have hf : v.task.chunkFilled < chunkSize := by
    have := h.filled
    rwa [Rechunk.Filled, hd] at this
  have hw : v.written chunkSize = v.out.sent.length * chunkSize + v.task.chunkFilled := by
    rw [RechunkView.written, RechunkView.number, hd]
    rfl
  obtain ⟨copied, hlen, rfl⟩ := h.copied
  have hleft : v.task.left = [] := by
    rw [Rechunk.left, hd, h.ended (.inr hd)]
    rfl
  refine ⟨h.order.putDone hput h.order.cap, ?_, ?_⟩
  · rw [hleft, List.append_nil, hlen, hw, Nat.mul_comm, Nat.mul_add_div (by omega),
      Nat.div_eq_of_lt hf, Nat.add_zero]
  · rw [hleft, List.append_nil, hlen]

/-- After its end `rechunk` makes no step. -/
theorem Rechunk.Effect.ne_done (he : Rechunk.Effect chunkSize v v') : v.task.pc ≠ .done := by
  intro hd
  cases he <;> simp_all only [reduceCtorEq]

/-- `rechunk` waits at an output with items only. -/
theorem Rechunk.step_ne_none (ho : v.out.isOpen = true) (hd : v.out.data = [])
    (hpc : v.task.pc ≠ .done) : Rechunk.step chunkSize v ≠ none := by
  obtain ⟨⟨input, pc, chunkFilled, chunkIdx, numChannels, alloc⟩, mem, out⟩ := v
  unfold Rechunk.step
  cases pc with
  | take => cases input <;> exact nofun
  | loop data =>
    dsimp only
    split <;> exact nofun
  | copy todo row rest => cases todo <;> exact nofun
  | put rest =>
    obtain ⟨c, hc⟩ := Channel.exists_put ho hd ⟨(alloc, chunkIdx), mem (alloc, chunkIdx)⟩
    simp [Rechunk.ref, hc]
  | putting rest =>
    have hput : out.PutDone := fun _ => hd
    simp [hput]
  | close => exact nofun
  | done => exact absurd rfl hpc

/-- What is left to do for `rechunk`: a row is worth a put, an item and what is done with it. -/
def Rechunk.work (t : Rechunk ρ) : Nat :=
  4 * t.input.length + 40 * (t.input.flatMap Matrix.rows).length +
    match t.pc with
    | .done => 0
    | .close => 1
    | .take => 2
    | .loop data => 3 + 40 * data.rows.length
    | .putting rest => 4 + 40 * rest.rows.length
    | .put rest => 20 + 40 * rest.rows.length
    | .copy todo _ rest => 21 + 20 * todo.length + 40 * rest.rows.length

/-- Every step of `rechunk` leaves less to do, counting the items in the channel. -/
theorem Content.work_lt (h : Content stream chunkSize cols v) (he : Rechunk.Effect chunkSize v v') :
    v'.task.work + 15 * v'.out.data.length < v.task.work + 15 * v.out.data.length := by
  obtain ⟨⟨input, pc, chunkFilled, chunkIdx, numChannels, alloc⟩, mem, out⟩ := v
  cases he with
  | finish hpc =>
    obtain rfl : pc = _ := hpc
    simp [Rechunk.work]
  | @next data input' hpc hin =>
    obtain rfl : pc = _ := hpc
    obtain rfl : input = _ := hin
    simp only [Rechunk.work, List.length_cons, List.flatMap_cons, List.length_append]
    omega
  | skip hpc =>
    obtain rfl : pc = _ := hpc
    simp only [Rechunk.work]
    omega
  | @turn data hpc hempty =>
    obtain rfl : pc = _ := hpc
    have hf : chunkFilled < chunkSize := h.filled
    have hrows : data.rows.length ≠ 0 := by
      simp only [Matrix.isEmpty, Bool.or_eq_false_iff, List.isEmpty_eq_false_iff] at hempty
      exact mt List.length_eq_zero_iff.mp hempty.1
    simp only [Rechunk.work, Rechunk.makeChunks_input, List.length_take, List.length_drop]
    omega
  | write hpc =>
    obtain rfl : pc = _ := hpc
    simp only [Rechunk.work, List.length_cons]
    omega
  | full hpc =>
    obtain rfl : pc = _ := hpc
    simp only [Rechunk.work, List.length_nil]
    omega
  | partly hpc =>
    obtain rfl : pc = _ := hpc
    simp only [Rechunk.work, List.length_nil]
    omega
  | put hpc hp =>
    obtain rfl : pc = _ := hpc
    have hdata := (Channel.puts_of_put hp).data
    simp only at hdata
    simp only [Rechunk.work, hdata, List.length_append, List.length_singleton]
    omega
  | putDone hpc =>
    obtain rfl : pc = _ := hpc
    simp only [Rechunk.work]
    omega
  | close hpc =>
    obtain rfl : pc = _ := hpc
    simp only [Rechunk.work, Channel.close]
    omega

end

end Sigflow
end Xtrx
