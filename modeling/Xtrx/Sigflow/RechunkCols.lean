import Mathlib.Data.Nat.Find
import Xtrx.Lib.Regroup
import Xtrx.Sigflow.RechunkContent

/-!
# `rechunk` when the number of columns changes (`libsigflow.jl`)

- **`labelled`**: each row carries the index of its matrix, and what an allocation leaves in a chunk
  is `none`. So the contents of a chunk say which rows were copied to it since it was allocated, and
  from where.
- **`OneRun`**: a chunk holds consecutive rows of one maximal run of matrices with the same number of
  columns.
- **`Ragged`**: what the chunks hold in the course of `rechunk`. An allocation in a part-filled chunk
  leaves the rows before it unset.
- **`rechunk_cols_iff`**: all chunks are of one run if and only if the number of columns changes
  behind full chunks only. It speaks of the matrices that the input channel delivers and of the
  chunks that are put: matrices that the loop of `consume_channel` leaves behind do not count.
-/

namespace Xtrx
namespace Sigflow

open Conc Regroup

variable {ρ : Type}

/-! ## The rows of the input -/

/-- The rows that are copied; a matrix without columns is empty. -/
def Matrix.copied (m : Matrix ρ) : List ρ := if m.cols = 0 then [] else m.rows

/-- The number of rows that are copied from the matrices before the one at `p`. -/
def rowsBefore (input : List (Matrix ρ)) (p : Nat) : Nat :=
  ((input.take p).flatMap Matrix.copied).length

/-- The number of columns changes between two inputs. -/
def ColsChange (input : List (Matrix ρ)) (m : Nat) : Prop :=
  ∃ a b, input[m]? = some a ∧ input[m + 1]? = some b ∧ a.cols ≠ b.cols

section

variable {input : List (Matrix ρ)} {m : Matrix ρ} {p q c : Nat}

theorem rowsBefore_zero (input : List (Matrix ρ)) : rowsBefore input 0 = 0 := rfl

theorem rowsBefore_succ (h : input[p]? = some m) :
    rowsBefore input (p + 1) = rowsBefore input p + m.copied.length := by
  rw [rowsBefore, rowsBefore, List.take_add_one, h, List.flatMap_append, List.length_append]
  simp

theorem rowsBefore_mono (h : p ≤ q) : rowsBefore input p ≤ rowsBefore input q := by
  rw [rowsBefore, rowsBefore, ← List.take_append_drop p (input.take q), List.take_take,
    Nat.min_eq_left h, List.flatMap_append, List.length_append]
  exact Nat.le_add_right ..

theorem rowsBefore_all (h : input.length ≤ p) :
    rowsBefore input p = (input.flatMap Matrix.copied).length := by
  rw [rowsBefore, List.take_of_length_le h]

/-- A row of the matrix at `p`. -/
theorem copied_at (h : input[p]? = some m) (hc : c < m.copied.length) :
    (input.flatMap Matrix.copied)[rowsBefore input p + c]? = m.copied[c]? := by
  obtain ⟨hp, rfl⟩ := List.getElem?_eq_some_iff.mp h
  have hsplit : input = input.take p ++ input[p] :: input.drop (p + 1) := by
    rw [List.getElem_cons_drop, List.take_append_drop]
  have hflat : input.flatMap Matrix.copied = (input.take p).flatMap Matrix.copied ++
      (input[p].copied ++ (input.drop (p + 1)).flatMap Matrix.copied) := by
    conv_lhs => rw [hsplit]
    rw [List.flatMap_append, List.flatMap_cons]
  rw [hflat, rowsBefore, List.getElem?_append_right (Nat.le_add_right ..), Nat.add_sub_cancel_left,
    List.getElem?_append_left hc]

/-- Between matrices with different numbers of columns there is a change. -/
theorem exists_colsChange {a b : Matrix ρ} (ha : input[q]? = some a) (hb : input[p]? = some b)
    (hqp : q ≤ p) (hne : a.cols ≠ b.cols) : ∃ m, q ≤ m ∧ m < p ∧ ColsChange input m := by
  induction p, hqp using Nat.le_induction generalizing b with
  | base => exact absurd (congrArg Matrix.cols (Option.some.inj (ha.symm.trans hb))) hne
  | succ p hqp ih =>
    have hp : p < input.length := Nat.lt_of_succ_lt (List.getElem?_eq_some_iff.mp hb).1
    by_cases hcols : a.cols = (input[p]).cols
    · exact ⟨p, hqp, Nat.lt_succ_self p, input[p], b, List.getElem?_eq_getElem hp, hb, hcols ▸ hne⟩
    · obtain ⟨m, hqm, hmp, hm⟩ := ih (List.getElem?_eq_getElem hp) hcols
      exact ⟨m, hqm, Nat.lt_succ_of_lt hmp, hm⟩

end

/-! ## The contents of the chunks -/

/-- Whose step comes next: `rechunk`, or the task that takes the chunks. -/
inductive RechunkEv where
  | rechunk
  | take

def RechunkView.step (chunkSize : Nat) (v : RechunkView ρ) : RechunkEv → Option (RechunkView ρ)
  | .rechunk => Rechunk.step chunkSize v
  | .take => v.out.take.map fun r => { v with out := r.2 }

def RechunkView.machine (ρ : Type) (chunkSize : Nat) : Machine (RechunkView ρ) RechunkEv :=
  ⟨RechunkView.step chunkSize⟩

/-- An allocation at row `a`: the first one, or one at a change of the number of columns. -/
def AllocAt (input : List (Matrix ρ)) (a : Nat) : Prop :=
  a = 0 ∨ ∃ m, ColsChange input m ∧ rowsBefore input (m + 1) = a

/-- The task is behind `c` rows of the matrix at `p`, or takes this one next. From its first turn on
the chunks have its columns. -/
def Rechunk.At (input : List (Matrix ρ)) (p c : Nat) (t : Rechunk ρ) : Prop :=
  match t.pc.data? with
  | none => t.input = input.drop p ∧ c = 0
  | some data => ∃ m, input[p]? = some m ∧ t.input = input.drop (p + 1) ∧ data.cols = m.cols ∧
      c ≤ m.rows.length ∧ m.rows.drop c = t.pc.rows ∧
      ((∃ d, t.pc = .loop d) ∧ (m.cols = 0 → c = 0) ∨ m.cols ≠ 0 ∧ t.numChannels = m.cols)

/-- Behind the first turn of a matrix only the place in the loop changes. -/
theorem Rechunk.At.go {input : List (Matrix ρ)} {p c : Nat} {t t' : Rechunk ρ} {data : Matrix ρ}
    (h : t.At input p c) (hinput : t'.input = t.input) (hdata : t.pc.data? = some data)
    (hdata' : t'.pc.data? = some data) (hrows : t'.pc.rows = t.pc.rows)
    (hnum : t'.numChannels = t.numChannels) (hloop : ∀ d, t.pc ≠ .loop d) : t'.At input p c := by
  simp only [Rechunk.At, hdata, hdata', hinput, hrows, hnum] at h ⊢
  obtain ⟨m, hm, hin, hcols, hc, hdrop, hl⟩ := h
  exact ⟨m, hm, hin, hcols, hc, hdrop, .inr (hl.resolve_left fun ⟨⟨d, hd⟩, _⟩ => hloop d hd)⟩

/-- The chunks have the columns of the last matrix with rows, if there was one. -/
def Rechunk.Recent (input : List (Matrix ρ)) (p c : Nat) (t : Rechunk ρ) : Prop :=
  t.numChannels = 0 ∧ rowsBefore input p + c = 0 ∨
    ∃ q m, input[q]? = some m ∧ t.numChannels = m.cols ∧
      (q = p ∨ q < p ∧ c = 0 ∧ rowsBefore input (q + 1) = rowsBefore input p)

/-- What the chunks hold. -/
structure Ragged (input : List (Matrix (Option ρ))) (chunkSize : Nat)
    (v : RechunkView (Option ρ)) : Prop where
  order : v.task.Order v.out
  filled : v.task.Filled chunkSize
  place : ∃ p c, v.written chunkSize = rowsBefore input p + c ∧ v.task.At input p c ∧
    v.task.Recent input p c
  current : ∃ a, AllocAt input a ∧ a ≤ v.written chunkSize ∧ a < (v.number + 1) * chunkSize ∧
    Held (input.flatMap Matrix.copied) chunkSize a v.number (v.task.chunkFilled + v.task.pc.row)
      (v.mem v.task.ref)
  fresh : ∀ alloc idx i, v.task.alloc < alloc → v.mem (alloc, idx) i = none
  sent : ∀ (k : Nat) (item : Item (Option ρ)), v.out.sent[k]? = some item →
    ∃ a, AllocAt input a ∧ a < (k + 1) * chunkSize ∧
      Held (input.flatMap Matrix.copied) chunkSize a k chunkSize item.contents
  ended : v.task.pc = .close ∨ v.task.pc = .done → v.task.input = []

section

variable {input : List (Matrix (Option ρ))} {chunkSize : Nat} {v v' : RechunkView (Option ρ)}

theorem ragged_start (input : List (Matrix (Option ρ))) (hsize : 0 < chunkSize) :
    Ragged input chunkSize ⟨.start input, fun _ _ => none, .new 0⟩ where
  order := Rechunk.order_start input
  filled := hsize
  place := ⟨0, 0, by
    show 0 * chunkSize + (0 + 0) = _
    rw [rowsBefore_zero]
    omega, ⟨rfl, rfl⟩, .inl ⟨rfl, rfl⟩⟩
  current := ⟨0, .inl rfl, Nat.zero_le _, by
    show 0 < (0 + 1) * chunkSize
    omega, .empty _ _ _ _ _⟩
  fresh := fun _ _ _ _ => rfl
  sent := nofun
  ended := nofun

/-- The task that takes changes nothing of it. -/
theorem Ragged.others (h : Ragged input chunkSize v) {out : Channel (Item (Option ρ))}
    (ho : v.out.ByTaker out) : Ragged input chunkSize { v with out } := by
  have hnumber : RechunkView.number { v with out } = v.number := by
    simp only [RechunkView.number, ho.sent]
  have hwritten : RechunkView.written chunkSize { v with out } = v.written chunkSize := by
    simp only [RechunkView.written, hnumber]
  refine ⟨h.order.others ho, h.filled, ?_, ?_, h.fresh, ?_, h.ended⟩
  · rw [hwritten]
    exact h.place
  · rw [hwritten, hnumber]
    exact h.current
  · rw [ho.sent]
    exact h.sent

/-- A step that leaves the chunks and the output as they are. -/
theorem Ragged.move (h : Ragged input chunkSize v) (horder : v'.task.Order v'.out)
    (hout : v'.out = v.out) (hmem : v'.mem = v.mem) (hnumber : v'.number = v.number)
    (href : v'.task.ref = v.task.ref)
    (hfill : v'.task.chunkFilled + v'.task.pc.row = v.task.chunkFilled + v.task.pc.row)
    (hfilled : v'.task.Filled chunkSize)
    (hplace : ∃ p c, v.written chunkSize = rowsBefore input p + c ∧ v'.task.At input p c ∧
      v'.task.Recent input p c)
    (hended : v'.task.pc = .close ∨ v'.task.pc = .done → v'.task.input = []) :
    Ragged input chunkSize v' where
  order := horder
  filled := hfilled
  place := by
    rw [RechunkView.written, hnumber, hfill]
    exact hplace
  current := by
    rw [RechunkView.written, hnumber, hfill, hmem, href]
    exact h.current
  fresh := by
    rw [hmem, (Prod.mk.inj href).1]
    exact h.fresh
  sent := by
    rw [hout]
    exact h.sent
  ended := hended

/-- An allocation is at a change of the number of columns. -/
theorem allocAt_of_recent {t : Rechunk (Option ρ)} {p c : Nat} {m : Matrix (Option ρ)}
    (hr : t.Recent input p c) (hm : input[p]? = some m) (hne : t.numChannels ≠ m.cols) :
    AllocAt input (rowsBefore input p + c) := by
  rcases hr with ⟨-, hzero⟩ | ⟨q, m', hq, hcols, rfl | ⟨hqp, rfl, hrows⟩⟩
  · exact .inl hzero
  · exact absurd (hcols.trans (congrArg Matrix.cols (Option.some.inj (hq.symm.trans hm)))) hne
  · obtain ⟨k, hqk, hkp, hk⟩ := exists_colsChange hq hm hqp.le (hcols ▸ hne)
    have hlow : rowsBefore input (q + 1) ≤ rowsBefore input (k + 1) :=
      rowsBefore_mono (Nat.succ_le_succ hqk)
    have hhigh : rowsBefore input (k + 1) ≤ rowsBefore input p := rowsBefore_mono hkp
    exact .inr ⟨k, hk, by omega⟩

/-- A task that has a matrix is not at its end. -/
theorem not_ended_of_data {pc : RechunkPc ρ} {data : Matrix ρ} {P : Prop} (hd : pc.data? = some data)
    (h : pc = .close ∨ pc = .done) : P := by
  rcases h with rfl | rfl
  · cases hd
  · cases hd

theorem makeChunks_same {t : Rechunk ρ} {cols : Nat} (h : t.numChannels = cols) :
    t.makeChunks cols = t := if_neg (not_not_intro h)

theorem makeChunks_other {t : Rechunk ρ} {cols : Nat} (h : t.numChannels ≠ cols) :
    t.makeChunks cols = { t with numChannels := cols, alloc := t.alloc + 1 } := if_pos h

/-- The rows of this turn, before the first one is copied. -/
def turnPc (chunkSize chunkFilled : Nat) (data : Matrix ρ) : RechunkPc ρ :=
  .copy (data.rows.take (min data.rows.length (chunkSize - chunkFilled))) 0
    { data with rows := data.rows.drop (min data.rows.length (chunkSize - chunkFilled)) }

theorem Ragged.turn (h : Ragged input chunkSize v) {data : Matrix (Option ρ)}
    (hpc : v.task.pc = .loop data) (hempty : data.isEmpty = false) :
    Ragged input chunkSize { v with task := { v.task.makeChunks data.cols with
      pc := turnPc chunkSize v.task.chunkFilled data } } := by
  have horder := Rechunk.Order.step h.order (show Rechunk.Effect chunkSize v _ from .turn hpc hempty)
  obtain ⟨p, c, hwritten, hat, hrecent⟩ := h.place
  have hlt := h.filled
  simp only [Rechunk.At, Rechunk.Filled, hpc] at hat hlt
  obtain ⟨m, hm, hinput, hcols, hc, hrows, -⟩ := hat
  have hne : m.cols ≠ 0 := by
    intro hzero
    simp [Matrix.isEmpty, hcols, hzero] at hempty
  have hfilled : v.task.chunkFilled + 0 + (data.rows.take
      (min data.rows.length (chunkSize - v.task.chunkFilled))).length ≤ chunkSize := by
    rw [List.length_take]
    omega
  have hrows : m.rows.drop c = (turnPc chunkSize v.task.chunkFilled data).rows :=
    hrows.trans (List.take_append_drop ..).symm
  by_cases hsame : v.task.numChannels = data.cols
  · rw [makeChunks_same hsame] at horder ⊢
    obtain ⟨⟨task, pc, chunkFilled, chunkIdx, numChannels, alloc⟩, mem, out⟩ := v
    obtain rfl : pc = _ := hpc
    have hnum : numChannels = m.cols := hsame.trans hcols
    exact h.move horder rfl rfl rfl rfl rfl hfilled ⟨p, c, hwritten,
      ⟨m, hm, hinput, hcols, hc, hrows, .inr ⟨hne, hnum⟩⟩, .inr ⟨p, m, hm, hnum, .inl rfl⟩⟩ (not_ended_of_data rfl)
  · rw [makeChunks_other hsame] at horder ⊢
    obtain ⟨⟨task, pc, chunkFilled, chunkIdx, numChannels, alloc⟩, mem, out⟩ := v
    obtain rfl : pc = _ := hpc
    refine ⟨horder, hfilled, ⟨p, c, hwritten, ⟨m, hm, hinput, hcols, hc, hrows, .inr ⟨hne, hcols⟩⟩,
      .inr ⟨p, m, hm, hcols, .inl rfl⟩⟩, ?_,
      fun k idx i hk => h.fresh k idx i (Nat.lt_of_succ_lt hk), h.sent, not_ended_of_data rfl⟩
    -- all rows of the chunk that was filled in part are before the allocation
    have hbefore : out.sent.length * chunkSize + (chunkFilled + 0) < (out.sent.length + 1) * chunkSize := by
      rw [Nat.succ_mul]
      exact Nat.add_lt_add_left hlt _
    exact ⟨_, hwritten ▸ allocAt_of_recent hrecent hm (hcols ▸ hsame), Nat.le_refl _, hbefore,
      .alloc _ _ out.sent.length (chunkFilled + 0) fun i =>
        h.fresh (alloc + 1) chunkIdx i (Nat.lt_succ_self _)⟩

theorem Ragged.write (h : Ragged input chunkSize v) {x : Option ρ} {todo : List (Option ρ)} {row : Nat}
    {rest : Matrix (Option ρ)} (hpc : v.task.pc = .copy (x :: todo) row rest) :
    Ragged input chunkSize { v with
      mem := v.mem.write v.task.ref (v.task.chunkFilled + row) x
      task := { v.task with pc := .copy todo (row + 1) rest } } := by
  have horder := Rechunk.Order.step h.order (show Rechunk.Effect chunkSize v _ from .write hpc)
  obtain ⟨⟨task, pc, chunkFilled, chunkIdx, numChannels, alloc⟩, mem, out⟩ := v
  obtain rfl : pc = _ := hpc
  obtain ⟨p, c, hwritten, ⟨m, hm, hinput, hcols, -, hrows, hloop⟩, -⟩ := h.place
  obtain ⟨hne, hnum⟩ : m.cols ≠ 0 ∧ numChannels = m.cols := hloop.resolve_left fun hl => by
    obtain ⟨_, hd⟩ := hl.1
    cases hd
  obtain ⟨a, ha, hle, hbefore, hheld⟩ := h.current
  have hfilled : chunkFilled + row + (todo.length + 1) ≤ chunkSize := h.filled
  have hcopied : m.copied = m.rows := if_neg hne
  have hrows : m.rows.drop c = x :: (todo ++ rest.rows) := hrows
  have hx : m.copied[c]? = some x := by
    rw [hcopied, ← List.head?_drop, hrows]
    rfl
  -- the place of the row in the stream
  let w := out.sent.length * chunkSize + (chunkFilled + row)
  have hw : w = rowsBefore input p + c := hwritten
  have hstream : (input.flatMap Matrix.copied)[w]? = some x := by
    rw [hw, copied_at hm (List.getElem?_eq_some_iff.mp hx).1, hx]
  have hc : c < m.rows.length := hcopied ▸ (List.getElem?_eq_some_iff.mp hx).1
  refine ⟨horder, ?_, ⟨p, c + 1, ?_, ⟨m, hm, hinput, hcols, hc, ?_, .inr ⟨hne, hnum⟩⟩,
    .inr ⟨p, m, hm, hnum, .inl rfl⟩⟩, ⟨a, ha, Nat.le_succ_of_le hle, hbefore, ?_⟩,
    fun k idx i hk => ?_, h.sent, not_ended_of_data rfl⟩
  · show chunkFilled + (row + 1) + todo.length ≤ chunkSize
    omega
  · show out.sent.length * chunkSize + (chunkFilled + (row + 1)) = _
    omega
  · rw [← List.drop_drop, hrows]
    rfl
  · show Held _ chunkSize a out.sent.length (chunkFilled + row + 1)
      (Chunks.write mem (alloc, chunkIdx) (chunkFilled + row) x (alloc, chunkIdx))
    rw [Chunks.write, Function.update_self]
    exact hheld.push hle hstream
  · have hk : alloc < k := hk
    show Chunks.write mem (alloc, chunkIdx) (chunkFilled + row) x (k, idx) i = none
    rw [Chunks.write, Function.update_of_ne fun he => absurd (Prod.mk.inj he).1 (Nat.ne_of_gt hk)]
    exact h.fresh k idx i hk

theorem Ragged.put (h : Ragged input chunkSize v) {rest : Matrix (Option ρ)}
    {out : Channel (Item (Option ρ))} (hpc : v.task.pc = .put rest)
    (hp : v.out.put ⟨v.task.ref, v.mem v.task.ref⟩ = some out) :
    Ragged input chunkSize { v with out, task := { v.task with pc := .putting rest } } := by
  have horder := Rechunk.Order.step h.order (show Rechunk.Effect chunkSize v _ from .put hpc hp)
  have hputs := Channel.puts_of_put hp
  obtain ⟨⟨task, pc, chunkFilled, chunkIdx, numChannels, alloc⟩, mem, out₀⟩ := v
  obtain rfl : pc = _ := hpc
  have hnumber : out.sent.length - 1 = out₀.sent.length := by
    rw [hputs.sent, List.length_append]
    rfl
  have hfull : chunkFilled = chunkSize := h.filled
  obtain ⟨a, ha, hle, hbefore, hheld⟩ := h.current
  refine ⟨horder, h.filled, ?_, ⟨a, ha, ?_, ?_, ?_⟩, h.fresh, fun k item hk => ?_, not_ended_of_data rfl⟩
  · obtain ⟨p, c, hwritten, hat, hrecent⟩ := h.place
    refine ⟨p, c, ?_, hat.go rfl rfl rfl rfl rfl (fun _ hd => by cases hd), hrecent⟩
    show (out.sent.length - 1) * chunkSize + (chunkFilled + 0) = _
    rw [hnumber]
    exact hwritten
  · show a ≤ (out.sent.length - 1) * chunkSize + (chunkFilled + 0)
    rw [hnumber]
    exact hle
  · show a < (out.sent.length - 1 + 1) * chunkSize
    rw [hnumber]
    exact hbefore
  · show Held _ chunkSize a (out.sent.length - 1) _ _
    rw [hnumber]
    exact hheld
  · rcases hputs.sent_cases hk with hold | ⟨rfl, rfl⟩
    · exact h.sent k item hold
    · exact ⟨a, ha, hbefore, hfull ▸ hheld⟩

/-- The next matrix is taken from the input. -/
theorem Ragged.next (h : Ragged input chunkSize v) {data : Matrix (Option ρ)}
    {rest : List (Matrix (Option ρ))} (hpc : v.task.pc = .take) (hin : v.task.input = data :: rest) :
    Ragged input chunkSize { v with task := { v.task with input := rest, pc := .loop data } } := by
  have horder := Rechunk.Order.step h.order (show Rechunk.Effect chunkSize v _ from .next hpc hin)
  obtain ⟨⟨task, pc, chunkFilled, chunkIdx, numChannels, alloc⟩, mem, out⟩ := v
  obtain rfl : pc = _ := hpc
  obtain rfl : task = _ := hin
  obtain ⟨p, c, hwritten, ⟨hdrop, rfl⟩, hrecent⟩ := h.place
  have hdrop : data :: rest = input.drop p := hdrop
  have hp : p < input.length := by
    by_contra hge
    rw [List.drop_eq_nil_of_le (Nat.not_lt.mp hge)] at hdrop
    cases hdrop
  rw [List.drop_eq_getElem_cons hp] at hdrop
  obtain ⟨rfl, rfl⟩ := List.cons.inj hdrop
  exact h.move horder rfl rfl rfl rfl rfl h.filled ⟨p, 0, hwritten, ⟨_, List.getElem?_eq_getElem hp,
    rfl, rfl, Nat.zero_le _, rfl, .inl ⟨⟨_, rfl⟩, fun _ => rfl⟩⟩, hrecent⟩ (not_ended_of_data rfl)

/-- The task is through with a matrix: all its rows are before the next one. -/
theorem rowsBefore_skip {t : Rechunk (Option ρ)} {data : Matrix (Option ρ)} {p c : Nat}
    (hat : t.At input p c) (hpc : t.pc = .loop data) (hempty : data.isEmpty = true) :
    rowsBefore input (p + 1) = rowsBefore input p + c := by
  simp only [Rechunk.At, hpc] at hat
  obtain ⟨m, hm, -, hcols, hc, hrows, hloop⟩ := hat
  rw [rowsBefore_succ hm]
  by_cases hz : m.cols = 0
  · have hzero : c = 0 := hloop.elim (fun hl => hl.2 hz) fun hr => absurd hz hr.1
    rw [Matrix.copied, if_pos hz, hzero]
    rfl
  · have hnil : m.rows.drop c = [] := by
      rw [hrows, RechunkPc.rows]
      simpa [Matrix.isEmpty, hcols, hz] using hempty
    have hge := List.drop_eq_nil_iff.mp hnil
    rw [Matrix.copied, if_neg hz]
    omega

theorem Ragged.skip (h : Ragged input chunkSize v) {data : Matrix (Option ρ)}
    (hpc : v.task.pc = .loop data) (hempty : data.isEmpty = true) :
    Ragged input chunkSize { v with task := { v.task with pc := .take } } := by
  have horder := Rechunk.Order.step h.order (show Rechunk.Effect chunkSize v _ from .skip hpc hempty)
  obtain ⟨p, c, hwritten, hat, hrecent⟩ := h.place
  have hall := rowsBefore_skip hat hpc hempty
  obtain ⟨⟨task, pc, chunkFilled, chunkIdx, numChannels, alloc⟩, mem, out⟩ := v
  obtain rfl : pc = _ := hpc
  obtain ⟨m, hm, hinput, -⟩ := hat
  refine h.move horder rfl rfl rfl rfl rfl h.filled
    ⟨p + 1, 0, hwritten.trans hall.symm, ⟨hinput, rfl⟩, ?_⟩ fun hc => by rcases hc with hc | hc <;> cases hc
  rcases hrecent with ⟨hn, hz⟩ | ⟨q, m', hq, hnum, rfl | ⟨hqp, rfl, hr⟩⟩
  · exact .inl ⟨hn, hall.trans hz⟩
  · exact .inr ⟨q, m', hq, hnum, .inr ⟨Nat.lt_succ_self q, rfl, rfl⟩⟩
  · exact .inr ⟨q, m', hq, hnum, .inr ⟨Nat.lt_succ_of_lt hqp, rfl, hr.trans hall.symm⟩⟩

/-- Behind the rows of a turn the chunk is full, or the next turn begins. -/
theorem Ragged.copied (h : Ragged input chunkSize v) {row : Nat} {rest : Matrix (Option ρ)}
    {pc : RechunkPc (Option ρ)} (hcopy : v.task.pc = .copy [] row rest)
    (hpc : pc = .put rest ∨ pc = .loop rest)
    (horder : Rechunk.Order { v.task with chunkFilled := v.task.chunkFilled + row, pc } v.out)
    (hfilled : Rechunk.Filled chunkSize { v.task with chunkFilled := v.task.chunkFilled + row, pc }) :
    Ragged input chunkSize { v with
      task := { v.task with chunkFilled := v.task.chunkFilled + row, pc } } := by
  obtain ⟨⟨task, pc₀, chunkFilled, chunkIdx, numChannels, alloc⟩, mem, out⟩ := v
  obtain rfl : pc₀ = _ := hcopy
  obtain ⟨p, c, hwritten, hat, hrecent⟩ := h.place
  rcases hpc with rfl | rfl
  all_goals
    exact h.move horder rfl rfl rfl rfl rfl hfilled
      ⟨p, c, hwritten, hat.go rfl rfl rfl rfl rfl (fun _ hd => by cases hd), hrecent⟩
      (not_ended_of_data rfl)

/-- The next chunk is the one that is filled. -/
theorem Ragged.putDone (h : Ragged input chunkSize v) (hsize : 0 < chunkSize)
    {rest : Matrix (Option ρ)} (hpc : v.task.pc = .putting rest) (hd : v.out.PutDone) :
    Ragged input chunkSize { v with task := { v.task with
      chunkIdx := mod1 (v.task.chunkIdx + 1) 3, chunkFilled := 0, pc := .loop rest } } := by
  have horder := Rechunk.Order.step h.order (show Rechunk.Effect chunkSize v _ from .putDone hpc hd)
  obtain ⟨⟨task, pc, chunkFilled, chunkIdx, numChannels, alloc⟩, mem, out⟩ := v
  obtain rfl : pc = _ := hpc
  obtain ⟨m, hm, -⟩ := h.order.idxPutting ⟨rest, rfl⟩
  have hm : out.sent.length = m + 1 := hm
  have hfull : chunkFilled = chunkSize := h.filled
  have hwritten : (out.sent.length - 1) * chunkSize + (chunkFilled + 0) =
      out.sent.length * chunkSize + (0 + 0) := by
    rw [hm, hfull, Nat.succ_mul]
    rfl
  obtain ⟨p, c, hw, hat, hrecent⟩ := h.place
  obtain ⟨a, ha, hle, -⟩ := h.current
  have hle : a ≤ out.sent.length * chunkSize + (0 + 0) := hle.trans_eq hwritten
  have hbefore : a < (out.sent.length + 1) * chunkSize := by
    rw [Nat.succ_mul]
    omega
  exact ⟨horder, hsize,
    ⟨p, c, hwritten.symm.trans hw, hat.go rfl rfl rfl rfl rfl (fun _ hd => by cases hd), hrecent⟩,
    ⟨a, ha, hle, hbefore, .empty _ _ _ _ _⟩, h.fresh, h.sent, not_ended_of_data rfl⟩

/-- A step of `rechunk` keeps it. -/
theorem Ragged.step (h : Ragged input chunkSize v) (hsize : 0 < chunkSize)
    (he : Rechunk.Effect chunkSize v v') : Ragged input chunkSize v' := by
  have horder := Rechunk.Order.step h.order he
  cases he with
  | next hpc hin => exact h.next hpc hin
  | skip hpc hempty => exact h.skip hpc hempty
  | turn hpc hempty => exact h.turn hpc hempty
  | write hpc => exact h.write hpc
  | full hpc hf =>
    have hle := h.filled
    simp only [Rechunk.Filled, hpc] at hle
    exact h.copied hpc (.inl rfl) horder (Nat.le_antisymm hle hf)
  | partly hpc hf => exact h.copied hpc (.inr rfl) horder hf
  | put hpc hp => exact h.put hpc hp
  | putDone hpc hd => exact h.putDone hsize hpc hd
  | finish hpc hin =>
    obtain ⟨⟨task, pc, chunkFilled, chunkIdx, numChannels, alloc⟩, mem, out⟩ := v
    obtain rfl : pc = _ := hpc
    exact h.move horder rfl rfl rfl rfl rfl h.filled h.place fun _ => hin
  | close hpc =>
    obtain ⟨⟨task, pc, chunkFilled, chunkIdx, numChannels, alloc⟩, mem, out⟩ := v
    obtain rfl : pc = _ := hpc
    exact ⟨horder, h.filled, h.place, h.current, h.fresh, h.sent, fun _ => h.ended (.inl rfl)⟩

theorem Ragged.run (hsize : 0 < chunkSize) {es : List RechunkEv} (h : Ragged input chunkSize v)
    (hr : (RechunkView.machine (Option ρ) chunkSize).run es v = some v') :
    Ragged input chunkSize v' := by
  refine Machine.run_inv (I := Ragged input chunkSize) ?_ h hr
  intro v₁ e v₂ h₁ hstep
  cases e with
  | rechunk => exact h₁.step hsize (Rechunk.step_effect hstep)
  | take =>
    obtain ⟨⟨item, out⟩, ht, rfl⟩ := Option.map_eq_some_iff.mp hstep
    exact h₁.others (Channel.takes_of_take ht).byTaker

/-- At the end as many chunks are put as are full. -/
theorem Ragged.done (h : Ragged input chunkSize v) (hd : v.task.pc = .done) :
    v.out.sent.length = (input.flatMap Matrix.copied).length / chunkSize := by
  obtain ⟨p, c, hwritten, hat, -⟩ := h.place
  have hfilled := h.filled
  have hnil := h.ended (.inr hd)
  simp only [Rechunk.At, hd, RechunkPc.data?, hnil, Rechunk.Filled] at hat hfilled
  obtain ⟨hdrop, rfl⟩ := hat
  rw [RechunkView.written, RechunkView.number, hd] at hwritten
  rw [← rowsBefore_all (List.drop_eq_nil_iff.mp hdrop.symm)]
  have hw : rowsBefore input p = chunkSize * v.out.sent.length + v.task.chunkFilled := by
    rw [Nat.mul_comm]
    exact hwritten.symm
  rw [hw, Nat.mul_add_div (by omega), Nat.div_eq_of_lt hfilled]
  rfl

end

/-! ## Runs of matrices -/

/-- The number of columns of the input at `i`. -/
def colsAt (input : List (Matrix ρ)) (i : Nat) : Option Nat := (input[i]?).map Matrix.cols

/-- A maximal run of matrices with the same number of columns: from `a` to before `b`. -/
structure IsRun (input : List (Matrix ρ)) (cols a b : Nat) : Prop where
  nonempty : a < b
  inside : ∀ i, a ≤ i → i < b → colsAt input i = some cols
  left : ∀ i, i + 1 = a → colsAt input i ≠ some cols
  right : colsAt input b ≠ some cols

/-- Each row with the index of its matrix. -/
def labelled (input : List (Matrix ρ)) : List (Matrix (Option (Nat × ρ))) :=
  input.mapIdx fun i m => ⟨m.cols, m.rows.map fun x => some (i, x)⟩

/-- The chunk holds `chunkSize` consecutive rows of one maximal run. -/
def OneRun (input : List (Matrix ρ)) (chunkSize : Nat) (item : Item (Option (Nat × ρ))) : Prop :=
  ∃ cols a b, IsRun input cols a b ∧ ∃ o, ∀ i, i < chunkSize →
    ((((labelled input).take b).drop a).flatMap Matrix.rows)[o + i]? = some (item.contents i)

section

variable {input : List (Matrix ρ)} {chunkSize cols a b : Nat}

theorem labelled_at (input : List (Matrix ρ)) (i : Nat) : (labelled input)[i]? =
    (input[i]?).map fun m => ⟨m.cols, m.rows.map fun x => some (i, x)⟩ := by
  simp [labelled, List.getElem?_mapIdx]

theorem colsAt_labelled (input : List (Matrix ρ)) (i : Nat) :
    colsAt (labelled input) i = colsAt input i := by
  rw [colsAt, labelled_at, colsAt, Option.map_map]
  rfl

theorem colsChange_iff {m : Nat} : ColsChange input m ↔
    ∃ c d, colsAt input m = some c ∧ colsAt input (m + 1) = some d ∧ c ≠ d := by
  constructor
  · rintro ⟨x, y, hx, hy, hne⟩
    exact ⟨x.cols, y.cols, congrArg (Option.map Matrix.cols) hx, congrArg (Option.map Matrix.cols) hy,
      hne⟩
  · rintro ⟨c, d, hc, hd, hne⟩
    obtain ⟨x, hx, rfl⟩ := Option.map_eq_some_iff.mp hc
    obtain ⟨y, hy, rfl⟩ := Option.map_eq_some_iff.mp hd
    exact ⟨x, y, hx, hy, hne⟩

theorem colsChange_labelled {m : Nat} : ColsChange (labelled input) m ↔ ColsChange input m := by
  simp only [colsChange_iff, colsAt_labelled]

theorem rowsBefore_labelled (input : List (Matrix ρ)) (p : Nat) :
    rowsBefore (labelled input) p = rowsBefore input p := by
  induction p with
  | zero => rfl
  | succ p ih =>
    cases hm : input[p]? with
    | none =>
      have hlen := List.getElem?_eq_none_iff.mp hm
      have hlen' : (labelled input).length ≤ p := by simpa [labelled] using hlen
      rw [rowsBefore_all (Nat.le_succ_of_le hlen), rowsBefore_all (Nat.le_succ_of_le hlen'),
        ← rowsBefore_all hlen, ← rowsBefore_all hlen', ih]
    | some m =>
      have hl : (labelled input)[p]? = some ⟨m.cols, m.rows.map fun x => some (p, x)⟩ := by
        rw [labelled_at, hm]
        rfl
      rw [rowsBefore_succ hm, rowsBefore_succ hl, ih]
      by_cases hz : m.cols = 0
      · simp [Matrix.copied, hz]
      · simp [Matrix.copied, hz]

/-- Each row that is copied is one of a matrix. -/
theorem exists_matrix {g : Nat} (h : g < (input.flatMap Matrix.copied).length) :
    ∃ p m c, input[p]? = some m ∧ c < m.copied.length ∧ g = rowsBefore input p + c := by
  induction input generalizing g with
  | nil => simp at h
  | cons m input ih =>
    by_cases hg : g < m.copied.length
    · exact ⟨0, m, g, rfl, hg, by rw [rowsBefore_zero, Nat.zero_add]⟩
    · rw [List.flatMap_cons, List.length_append] at h
      obtain ⟨p, m', c, hp, hc, hgc⟩ := ih (show g - m.copied.length < _ by omega)
      refine ⟨p + 1, m', c, hp, hc, ?_⟩
      have hsucc : rowsBefore (m :: input) (p + 1) = m.copied.length + rowsBefore input p := by
        simp [rowsBefore]
      omega

/-- Around each matrix there is a maximal run. -/
theorem exists_isRun {i : Nat} (h : colsAt input i = some cols) :
    ∃ a b, IsRun input cols a b ∧ a ≤ i ∧ i < b := by
  classical
  have hright : ∃ b, i < b ∧ colsAt input b ≠ some cols := by
    refine ⟨max (i + 1) input.length, by omega, ?_⟩
    rw [colsAt, List.getElem?_eq_none (Nat.le_max_right ..)]
    exact nofun
  have hleft : ∃ a, a ≤ i ∧ ∀ j, a ≤ j → j ≤ i → colsAt input j = some cols :=
    ⟨i, Nat.le_refl i, fun j h₁ h₂ => Nat.le_antisymm h₂ h₁ ▸ h⟩
  obtain ⟨hib, hb⟩ := Nat.find_spec hright
  obtain ⟨hai, ha⟩ := Nat.find_spec hleft
  refine ⟨Nat.find hleft, Nat.find hright, ⟨Nat.lt_of_le_of_lt hai hib, fun j h₁ h₂ => ?_,
    fun j hj hcols => ?_, hb⟩, hai, hib⟩
  · rcases Nat.lt_or_ge i j with hij | hji
    swap
    · exact ha j h₁ hji
    · have hmin := Nat.find_min hright h₂
      by_contra hne
      exact hmin ⟨hij, hne⟩
  · refine Nat.find_min hleft (show j < Nat.find hleft by omega) ⟨by omega, fun k h₁ h₂ => ?_⟩
    rcases Nat.lt_or_eq_of_le h₁ with hlt | rfl
    · exact ha k (by omega) h₂
    · exact hcols

/-- A row of the stream carries the index of the matrix in which it is. -/
theorem label_of_stream {g i : Nat} {x : ρ}
    (h : ((labelled input).flatMap Matrix.copied)[g]? = some (some (i, x))) :
    rowsBefore input i ≤ g ∧ g < rowsBefore input (i + 1) := by
  obtain ⟨p, m, c, hm, hc, rfl⟩ := exists_matrix (List.getElem?_eq_some_iff.mp h).1
  rw [copied_at hm hc] at h
  have hsucc := rowsBefore_succ hm
  rw [labelled_at] at hm
  obtain ⟨m', hm', rfl⟩ := Option.map_eq_some_iff.mp hm
  have hi : i = p := by
    have hmem := List.mem_of_getElem? h
    unfold Matrix.copied at hmem
    split at hmem
    · cases hmem
    · obtain ⟨y, -, hy⟩ := List.mem_map.mp hmem
      exact (Prod.mk.inj (Option.some.inj hy)).1.symm
  subst hi
  rw [rowsBefore_labelled] at hsucc ⊢
  rw [rowsBefore_labelled] at hsucc
  omega

/-- A row of a run of matrices is set, and carries the index of one of them. -/
theorem label_of_run {y : Option (Nat × ρ)}
    (h : y ∈ (((labelled input).take b).drop a).flatMap Matrix.rows) :
    ∃ i x, y = some (i, x) ∧ a ≤ i ∧ i < b := by
  obtain ⟨m, hm, hy⟩ := List.mem_flatMap.mp h
  obtain ⟨j, hj⟩ := List.mem_iff_getElem?.mp hm
  rw [List.getElem?_drop] at hj
  have hlt : a + j < b := by
    by_contra hge
    rw [List.getElem?_take_eq_none (Nat.not_lt.mp hge)] at hj
    cases hj
  rw [List.getElem?_take_of_lt hlt, labelled_at] at hj
  obtain ⟨m', -, rfl⟩ := Option.map_eq_some_iff.mp hj
  obtain ⟨x, -, rfl⟩ := List.mem_map.mp hy
  exact ⟨a + j, x, rfl, Nat.le_add_right .., hlt⟩

/-- The rows of a run with columns are a part of the stream. -/
theorem run_rows (hrun : IsRun input cols a b) (hcols : cols ≠ 0) {g : Nat}
    (ha : rowsBefore input a ≤ g) (hb : g < rowsBefore input b) :
    ((((labelled input).take b).drop a).flatMap Matrix.rows)[g - rowsBefore input a]? =
      ((labelled input).flatMap Matrix.copied)[g]? := by
  have hcopied : (((labelled input).take b).drop a).flatMap Matrix.rows =
      (((labelled input).take b).drop a).flatMap Matrix.copied := by
    refine List.flatMap_congr fun m hm => ?_
    obtain ⟨j, hj⟩ := List.mem_iff_getElem?.mp hm
    rw [List.getElem?_drop] at hj
    have hlt : a + j < b := by
      by_contra hge
      rw [List.getElem?_take_eq_none (Nat.not_lt.mp hge)] at hj
      cases hj
    rw [List.getElem?_take_of_lt hlt] at hj
    have hc := hrun.inside (a + j) (Nat.le_add_right ..) hlt
    rw [← colsAt_labelled, colsAt, hj] at hc
    rw [Matrix.copied, if_neg ((Option.some.inj hc).symm ▸ hcols)]
  have hsplit : ∀ n, ((labelled input).flatMap Matrix.copied) =
      ((labelled input).take n).flatMap Matrix.copied ++
        ((labelled input).drop n).flatMap Matrix.copied := fun n => by
    rw [← List.flatMap_append, List.take_append_drop]
  have htake : ((labelled input).take b).flatMap Matrix.copied =
      ((labelled input).take a).flatMap Matrix.copied ++
        (((labelled input).take b).drop a).flatMap Matrix.copied := by
    rw [← List.flatMap_append]
    congr 1
    conv_lhs => rw [← List.take_append_drop a ((labelled input).take b)]
    rw [List.take_take, Nat.min_eq_left hrun.nonempty.le]
  have hlena := rowsBefore_labelled input a
  have hlenb := rowsBefore_labelled input b
  rw [rowsBefore] at hlena hlenb
  rw [hcopied, hsplit b, List.getElem?_append_left (by omega), htake,
    List.getElem?_append_right (by omega), hlena]

/-- A chunk without a change of the number of columns in it is of one run. -/
theorem oneRun_of_rows (hsize : 0 < chunkSize) {k : Nat} {item : Item (Option (Nat × ρ))}
    (hrows : ∀ i, i < chunkSize →
      ((labelled input).flatMap Matrix.copied)[k * chunkSize + i]? = some (item.contents i))
    (hchange : ∀ m, ColsChange input m → k * chunkSize < rowsBefore input (m + 1) →
      (k + 1) * chunkSize ≤ rowsBefore input (m + 1)) : OneRun input chunkSize item := by
  have hfirst := hrows 0 hsize
  have hlast := hrows (chunkSize - 1) (by omega)
  obtain ⟨p, m, c, hm, hc, hg⟩ := exists_matrix (List.getElem?_eq_some_iff.mp hfirst).1
  have hsucc := rowsBefore_succ hm
  rw [rowsBefore_labelled] at hg hsucc
  rw [rowsBefore_labelled] at hsucc
  have hcols : colsAt input p = some m.cols := by
    rw [← colsAt_labelled, colsAt, hm]
    rfl
  have hne : m.cols ≠ 0 := by
    intro hz
    rw [Matrix.copied, if_pos hz] at hc
    exact absurd hc (Nat.not_lt_zero c)
  obtain ⟨a, b, hrun, hap, hpb⟩ := exists_isRun hcols
  have hpb' : rowsBefore input (p + 1) ≤ rowsBefore input b := rowsBefore_mono hpb
  have hap' : rowsBefore input a ≤ rowsBefore input p := rowsBefore_mono hap
  -- the run ends behind the chunk
  have hend : (k + 1) * chunkSize ≤ rowsBefore input b := by
    cases hb : colsAt input b with
    | none =>
      have hlen : input.length ≤ b := by
        rw [colsAt, Option.map_eq_none_iff] at hb
        exact List.getElem?_eq_none_iff.mp hb
      have hall := (List.getElem?_eq_some_iff.mp hlast).1
      have hlen' : (labelled input).length ≤ b := by simpa [labelled] using hlen
      rw [← rowsBefore_all hlen', rowsBefore_labelled] at hall
      rw [Nat.succ_mul]
      omega
    | some d =>
      obtain ⟨j, rfl⟩ : ∃ j, b = j + 1 := ⟨b - 1, by omega⟩
      have hj := hrun.inside j (by omega) (Nat.lt_succ_self j)
      refine hchange j (colsChange_iff.mpr ⟨_, d, hj, hb, fun he => hrun.right ?_⟩) (by omega)
      rw [hb, he]
  refine ⟨m.cols, a, b, hrun, k * chunkSize - rowsBefore input a, fun i hi => ?_⟩
  rw [Nat.succ_mul] at hend
  have hoff : k * chunkSize - rowsBefore input a + i = k * chunkSize + i - rowsBefore input a := by omega
  rw [hoff, run_rows hrun hne (by omega) (by omega)]
  exact hrows i hi

/-- In a chunk of one run there is no change of the number of columns. -/
theorem no_change_of_oneRun (hsize : 0 < chunkSize) {k alloc : Nat} {item : Item (Option (Nat × ρ))}
    (hheld : Held ((labelled input).flatMap Matrix.copied) chunkSize alloc k chunkSize item.contents)
    (hone : OneRun input chunkSize item) {m : Nat} (hm : ColsChange input m)
    (hlow : k * chunkSize < rowsBefore input (m + 1)) :
    (k + 1) * chunkSize ≤ rowsBefore input (m + 1) := by
  obtain ⟨cols, a, b, hrun, o, ho⟩ := hone
  -- each row is set, so it is the one of the stream, and it is in the run
  have hrow : ∀ i, i < chunkSize → ∃ j, a ≤ j ∧ j < b ∧ rowsBefore input j ≤ k * chunkSize + i ∧
      k * chunkSize + i < rowsBefore input (j + 1) := by
    intro i hi
    obtain ⟨j, x, hx, haj, hjb⟩ := label_of_run (List.mem_of_getElem? (ho i hi))
    exact ⟨j, haj, hjb, label_of_stream (hheld.of_set hi hx)⟩
  by_contra hhigh
  rw [Nat.succ_mul] at hhigh
  obtain ⟨i₀, ha₀, -, hle₀, -⟩ := hrow 0 hsize
  obtain ⟨i₁, -, hb₁, -, hlt₁⟩ := hrow (chunkSize - 1) (by omega)
  have h₀ : i₀ ≤ m := by
    by_contra hgt
    have hmono : rowsBefore input (m + 1) ≤ rowsBefore input i₀ := rowsBefore_mono (by omega)
    omega
  have h₁ : m + 1 ≤ i₁ := by
    by_contra hgt
    have hmono : rowsBefore input (i₁ + 1) ≤ rowsBefore input (m + 1) := rowsBefore_mono (by omega)
    omega
  obtain ⟨c, d, hc, hd, hne⟩ := colsChange_iff.mp hm
  rw [hrun.inside m (by omega) (by omega)] at hc
  rw [hrun.inside (m + 1) (by omega) (by omega)] at hd
  exact hne ((Option.some.inj hc).symm.trans (Option.some.inj hd))

end

/-- `rechunk` before its first step; nothing is copied to the chunks. -/
def RechunkView.start (input : List (Matrix ρ)) : RechunkView (Option (Nat × ρ)) :=
  ⟨.start (labelled input), fun _ _ => none, .new 0⟩

/-- A run of `rechunk`: all chunks that were put are of one run of the input if and only if the number
of columns changes only behind a number of rows that is a multiple of `chunkSize`, as far as these
chunks go. At the end these are as many as the rows fill. -/
theorem rechunk_cols_iff (chunkSize : Nat) (hsize : 0 < chunkSize) (input : List (Matrix ρ))
    (es : List RechunkEv) (v : RechunkView (Option (Nat × ρ)))
    (hr : (RechunkView.machine (Option (Nat × ρ)) chunkSize).run es (.start input) = some v) :
    ((∀ item ∈ v.out.sent, OneRun input chunkSize item) ↔
      ∀ m, ColsChange input m → rowsBefore input (m + 1) < v.out.sent.length * chunkSize →
        chunkSize ∣ rowsBefore input (m + 1)) ∧
      (v.task.pc = .done → v.out.sent.length = (input.flatMap Matrix.copied).length / chunkSize) := by
  have h : Ragged (labelled input) chunkSize v := (ragged_start _ hsize).run hsize hr
  refine ⟨⟨fun hall m hm hlt => ?_, fun hcond item hitem => ?_⟩, fun hd => ?_⟩
  · by_contra hdvd
    obtain ⟨k, hk, hlow, hhigh⟩ := not_dvd_between hsize hdvd hlt
    obtain ⟨a, -, -, hheld⟩ := h.sent k _ (List.getElem?_eq_getElem hk)
    have hle := no_change_of_oneRun hsize hheld (hall _ (List.getElem_mem hk)) hm hlow
    exact absurd hhigh (Nat.not_lt.mpr hle)
  · obtain ⟨k, hk⟩ := List.mem_iff_getElem?.mp hitem
    obtain ⟨a, ha, hbefore, hheld⟩ := h.sent k item hk
    have hlast : (k + 1) * chunkSize ≤ v.out.sent.length * chunkSize :=
      Nat.mul_le_mul_right _ (List.getElem?_eq_some_iff.mp hk).1
    have hchange : ∀ m, ColsChange input m → k * chunkSize < rowsBefore input (m + 1) →
        (k + 1) * chunkSize ≤ rowsBefore input (m + 1) := by
      intro m hm hlow
      by_contra hhigh
      exact hhigh (next_le_of_dvd (hcond m hm (by omega)) hlow)
    -- so the allocation was not in the course of the chunk
    have halloc : a ≤ k * chunkSize := by
      rcases ha with rfl | ⟨m, hm, rfl⟩
      · exact Nat.zero_le _
      · rw [colsChange_labelled] at hm
        rw [rowsBefore_labelled] at hbefore ⊢
        by_contra hlow
        exact absurd (hchange m hm (Nat.not_le.mp hlow)) (Nat.not_le.mpr hbefore)
    exact oneRun_of_rows hsize (fun i hi => hheld.of_le halloc hi) hchange
  · rw [h.done hd, ← rowsBefore_all (Nat.le_refl _), rowsBefore_labelled,
      ← rowsBefore_all (show input.length ≤ (labelled input).length by simp [labelled])]

/-- The second matrix has more columns, behind a full chunk. -/
theorem rechunk_cols_iff_boundary :
    ∃ v, (RechunkView.machine (Option (Nat × Nat)) 2).run
        (List.replicate 6 .rechunk ++ .take :: List.replicate 8 .rechunk)
        (.start [⟨1, [10, 11]⟩, ⟨2, [20, 21]⟩]) = some v ∧
      v.out.sent.length = 2 ∧
      ∀ item ∈ v.out.sent, OneRun [⟨1, [10, 11]⟩, ⟨2, [20, 21]⟩] 2 item := by
  obtain ⟨v, hv, htwo⟩ : ∃ v, (RechunkView.machine (Option (Nat × Nat)) 2).run
      (List.replicate 6 .rechunk ++ .take :: List.replicate 8 .rechunk)
      (.start [⟨1, [10, 11]⟩, ⟨2, [20, 21]⟩]) = some v ∧ v.out.sent.length = 2 := ⟨_, rfl, rfl⟩
  refine ⟨v, hv, htwo, (rechunk_cols_iff 2 (by decide) _ _ v hv).1.mpr fun m hm _ => ?_⟩
  obtain ⟨_, _, -, hb, -⟩ := hm
  have hlt : m + 1 < 2 := (List.getElem?_eq_some_iff.mp hb).1
  obtain rfl : m = 0 := by omega
  decide

/-- The second matrix has more columns, behind half a chunk: the first row of the chunk is not set. -/
theorem rechunk_cols_unset :
    ∃ v, (RechunkView.machine (Option (Nat × Nat)) 2).run (List.replicate 10 .rechunk)
        (.start [⟨1, [10]⟩, ⟨2, [20]⟩]) = some v ∧
      ∃ item ∈ v.out.sent, item.contents 0 = none ∧ ¬ OneRun [⟨1, [10]⟩, ⟨2, [20]⟩] 2 item := by
  obtain ⟨v, hv, item, hitem, hnone⟩ : ∃ v, (RechunkView.machine (Option (Nat × Nat)) 2).run
      (List.replicate 10 .rechunk) (.start [⟨1, [10]⟩, ⟨2, [20]⟩]) = some v ∧
      ∃ item, v.out.sent = [item] ∧ item.contents 0 = none := ⟨_, rfl, _, rfl, rfl⟩
  refine ⟨v, hv, item, hitem ▸ List.mem_singleton_self item, hnone, ?_⟩
  rintro ⟨_, _, _, -, o, ho⟩
  obtain ⟨i, x, hx, -⟩ := label_of_run (List.mem_of_getElem? (ho 0 (by decide)))
  cases hnone.symm.trans hx

end Sigflow
end Xtrx
