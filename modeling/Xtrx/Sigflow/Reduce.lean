import Xtrx.Lib.Machine
import Xtrx.Lib.Regroup
import Xtrx.Sigflow.Rechunk

/-!
# `reduce` when the size of the buffers changes (`libsigflow.jl`)

- **`Reduce`**: the task of `reduce`. Each slice of `acc` carries the index of the buffer that was
  copied to it; a slice that was not written since the allocation is `none`. The record `calls` has
  the arrays that `reductor` was called with. The input channel is the list of the buffers that it
  delivers before it closes; what the loop of `consume_channel` leaves behind is no part of it.
- **`Intact`**: each call gets consecutive buffers in order, and no buffer is in two calls.
- **`Grouped`**: what `acc` holds in the course of `reduce`. `make_acc!` does not reset `buff_idx`, so
  an allocation in the course of a group leaves the slices before it unset.
- **`reduce_iff`**: all calls are intact if and only if the size changes behind full groups only.
-/

namespace Xtrx
namespace Sigflow

open Conc Regroup

variable {ρ : Type}

/-! ## The task -/

/-- `size`. -/
def Matrix.size (m : Matrix ρ) : Nat × Nat := (m.rows.length, m.cols)

/-- A slice of `acc`: the buffer that was copied to it, with its index. -/
abbrev Slice (ρ : Type) : Type := Option (Nat × Matrix ρ)

/-- `acc`: its size, the last number of it in `slices`, and what is in the slices from 1 on. -/
structure Acc (ρ : Type) where
  size : Nat × Nat
  slices : Nat
  slice : Nat → Slice ρ

/-- Where `reduce` is; `failed` is behind an exception. -/
inductive ReducePc (ρ : Type) where
  | take
  | reductor
  | put (x : Matrix ρ)
  | putting
  | close
  | closeFailed
  | done
  | failed

/-- The variables of `reduce`, the buffers that its input delivers, and the record of the calls. -/
structure Reduce (ρ : Type) where
  input : List (Nat × Matrix ρ)
  pc : ReducePc ρ
  buffIdx : Nat
  acc : Acc ρ
  calls : List (Acc ρ)

/-- The task and its output. -/
structure ReduceView (ρ : Type) where
  task : Reduce ρ
  out : Channel (Matrix ρ)

/-- Whose step comes next: `reduce`, or the task that takes the results. The result of `reductor`, and
what it leaves in the slices, are of the event. -/
inductive ReduceEv (ρ : Type) where
  | reduce
  | reductor (x : Matrix ρ) (left : Nat → Slice ρ)
  | take

/-- `make_acc!`. -/
def Reduce.makeAcc (reductionFactor : Nat) (buff : Matrix ρ) (t : Reduce ρ) : Reduce ρ :=
  if t.acc.size ≠ buff.size then { t with acc := ⟨buff.size, reductionFactor, fun _ => none⟩ } else t

/-- The body up to the call; an index behind the last slice is a `BoundsError`. -/
def Reduce.body (reductionFactor : Nat) (buff : Nat × Matrix ρ) (t : Reduce ρ) : Reduce ρ :=
  let t := t.makeAcc reductionFactor buff.2
  if t.buffIdx ≤ t.acc.slices then
    { t with
      acc := { t.acc with slice := Function.update t.acc.slice t.buffIdx (some buff) }
      buffIdx := t.buffIdx + 1
      pc := if t.buffIdx + 1 > reductionFactor then .reductor else .take }
  else { t with pc := .closeFailed }

def ReduceView.step (reductionFactor : Nat) (v : ReduceView ρ) : ReduceEv ρ → Option (ReduceView ρ)
  | .reduce =>
    let t := v.task
    match t.pc with
    | .take =>
      match t.input with
      | [] => some { v with task := { t with pc := .close } }
      | buff :: input => some { v with task := { t with input }.body reductionFactor buff }
    | .reductor => none
    | .put x => (v.out.put x).map fun out => { v with out, task := { t with pc := .putting } }
    | .putting =>
      if v.out.PutDone then some { v with task := { t with buffIdx := 1, pc := .take } } else none
    | .close => some { v with out := v.out.close, task := { t with pc := .done } }
    | .closeFailed => some { v with out := v.out.close, task := { t with pc := .failed } }
    | .done => none
    | .failed => none
  | .reductor x left =>
    match v.task.pc with
    | .reductor => some { v with task := { v.task with
        pc := .put x
        acc := { v.task.acc with slice := left }
        calls := v.task.calls ++ [v.task.acc] } }
    | _ => none
  | .take => v.out.take.map fun r => { v with out := r.2 }

def ReduceView.machine (ρ : Type) (reductionFactor : Nat) : Machine (ReduceView ρ) (ReduceEv ρ) :=
  ⟨ReduceView.step reductionFactor⟩

/-- The buffers with their indices. -/
def indexed (input : List (Matrix ρ)) : List (Nat × Matrix ρ) := input.mapIdx fun i m => (i, m)

/-- `reduce` before its first step; `acc` is 0×0×0. -/
def ReduceView.start (input : List (Matrix ρ)) : ReduceView ρ :=
  ⟨⟨indexed input, .take, 1, ⟨(0, 0), 0, fun _ => none⟩, []⟩, .new 0⟩

/-! ## The calls -/

/-- The slices of the array are the buffers from `first` on. -/
structure Slices (input : List (Matrix ρ)) (reductionFactor first : Nat) (acc : Acc ρ) : Prop where
  slices : acc.slices = reductionFactor
  slice : ∀ i, i < reductionFactor → ∃ m, input[first + i]? = some m ∧ m.size = acc.size ∧
    acc.slice (i + 1) = some (first + i, m)

/-- Each call gets consecutive buffers in order, and no buffer is in two calls. -/
def Intact (input : List (Matrix ρ)) (reductionFactor : Nat) (calls : List (Acc ρ)) : Prop :=
  ∃ first : Nat → Nat,
    (∀ k acc, calls[k]? = some acc → Slices input reductionFactor (first k) acc) ∧
    ∀ j k, j < calls.length → k < calls.length → j ≠ k →
      ∀ i i', i < reductionFactor → i' < reductionFactor → first j + i ≠ first k + i'

/-- The size changes between two inputs. -/
def SizeChange (input : List (Matrix ρ)) (m : Nat) : Prop :=
  ∃ a b, input[m]? = some a ∧ input[m + 1]? = some b ∧ a.size ≠ b.size

/-- Each change of the size is behind full groups, or in the group that is not filled at the end. -/
def ChangesAtGroups (input : List (Matrix ρ)) (reductionFactor : Nat) : Prop :=
  ∀ m, SizeChange input m → m + 1 < input.length / reductionFactor * reductionFactor →
    reductionFactor ∣ m + 1

/-- The first buffer has the size that `acc` has at first. -/
def StartsEmpty (input : List (Matrix ρ)) : Prop := ∃ m, input[0]? = some m ∧ m.size = (0, 0)

/-- The task has come to its end. -/
def Reduce.Ended (t : Reduce ρ) : Prop := t.pc = .done ∨ t.pc = .failed

/-! ## What `acc` holds -/

/-- An allocation before the buffer at `a`: the first one, or one at a change of the size. -/
def AllocBefore (input : List (Matrix ρ)) (a : Nat) : Prop :=
  a = 0 ∨ ∃ m, SizeChange input m ∧ m + 1 = a

/-- The buffers as they are written to the slices. -/
def written (input : List (Matrix ρ)) : List (Slice ρ) := (indexed input).map some

/-- The first `n` slices of the group `k`. The last allocation was before the buffer at `a`. -/
structure Group (input : List (Matrix ρ)) (reductionFactor a k n : Nat) (acc : Acc ρ) : Prop where
  alloc : AllocBefore input a
  le : a ≤ k * reductionFactor + n
  before : a < (k + 1) * reductionFactor
  held : Held (written input) reductionFactor a k n fun i => acc.slice (i + 1)
  sized : ∀ i, i < n → ∀ g m, acc.slice (i + 1) = some (g, m) → m.size = acc.size

/-- `acc` is that of the start, or it has the size of the last of `p` buffers. -/
def Acc.Recent (input : List (Matrix ρ)) (reductionFactor p : Nat) (acc : Acc ρ) : Prop :=
  p = 0 ∧ acc.size = (0, 0) ∧ acc.slices = 0 ∨
    ∃ q m, p = q + 1 ∧ input[q]? = some m ∧ acc.size = m.size ∧ acc.slices = reductionFactor

/-- The number of slices of the current group that are written. -/
def Reduce.filled (t : Reduce ρ) : Nat :=
  match t.pc with
  | .put _ => 0
  | .putting => 0
  | _ => t.buffIdx - 1

/-- The number of buffers that were taken. -/
def Reduce.taken (reductionFactor : Nat) (t : Reduce ρ) : Nat :=
  t.calls.length * reductionFactor + t.filled

/-- What holds at each place. -/
def Reduce.Filling (input : List (Matrix ρ)) (reductionFactor : Nat) (t : Reduce ρ) : Prop :=
  match t.pc with
  | .take => 0 < t.buffIdx ∧ t.buffIdx ≤ reductionFactor
  | .reductor => t.buffIdx = reductionFactor + 1
  | .put _ => True
  | .putting => True
  | .close => 0 < t.buffIdx ∧ t.buffIdx ≤ reductionFactor ∧ input.length ≤ t.taken reductionFactor
  | .done => 0 < t.buffIdx ∧ t.buffIdx ≤ reductionFactor ∧ input.length ≤ t.taken reductionFactor
  | .closeFailed => StartsEmpty input ∧ t.calls = []
  | .failed => StartsEmpty input ∧ t.calls = []

/-- The task goes on. -/
def ReducePc.Active : ReducePc ρ → Prop
  | .closeFailed => False
  | .failed => False
  | _ => True

structure Grouped (input : List (Matrix ρ)) (reductionFactor : Nat) (t : Reduce ρ) : Prop where
  filling : t.Filling input reductionFactor
  rest : t.pc.Active → t.input = (indexed input).drop (t.taken reductionFactor)
  recent : t.pc.Active → t.acc.Recent input reductionFactor (t.taken reductionFactor)
  current : t.pc.Active → ∃ a, Group input reductionFactor a t.calls.length t.filled t.acc
  calls : ∀ k acc, t.calls[k]? = some acc → acc.slices = reductionFactor ∧
    ∃ a, Group input reductionFactor a k reductionFactor acc
  le : t.calls.length * reductionFactor ≤ input.length
  empty : StartsEmpty input → t.taken reductionFactor = 0

section

variable {input : List (Matrix ρ)} {reductionFactor a k n p : Nat} {acc : Acc ρ} {m : Matrix ρ}
  {t : Reduce ρ}

theorem indexed_at (input : List (Matrix ρ)) (i : Nat) :
    (indexed input)[i]? = (input[i]?).map fun m => (i, m) := List.getElem?_mapIdx

theorem written_at (h : input[p]? = some m) : (written input)[p]? = some (some (p, m)) := by
  rw [written, List.getElem?_map, indexed_at, h]
  rfl

/-- What is in a slice is the buffer at its place. -/
theorem at_of_written {i g : Nat} (h : (written input)[i]? = some (some (g, m))) :
    g = i ∧ input[i]? = some m := by
  rw [written, List.getElem?_map, indexed_at] at h
  cases hm : input[i]? with
  | none =>
    rw [hm] at h
    cases h
  | some m' =>
    rw [hm] at h
    cases h
    exact ⟨rfl, rfl⟩

/-- An allocation, with the size of the next buffer. -/
theorem Acc.Recent.alloc (hr : acc.Recent input reductionFactor p) (hm : input[p]? = some m)
    (hne : acc.size ≠ m.size) : AllocBefore input p := by
  rcases hr with ⟨rfl, -, -⟩ | ⟨q, m', rfl, hq, hsize, -⟩
  · exact .inl rfl
  · exact .inr ⟨q, ⟨m', m, hq, hm, hsize ▸ hne⟩, rfl⟩

theorem Group.alloc_new (hp : AllocBefore input (k * reductionFactor + n)) (hn : n < reductionFactor)
    (size : Nat × Nat) : Group input reductionFactor (k * reductionFactor + n) k n
      ⟨size, reductionFactor, fun _ => none⟩ where
  alloc := hp
  le := Nat.le_refl _
  before := by
    rw [Nat.succ_mul]
    exact Nat.add_lt_add_left hn _
  held := .alloc _ _ k n fun _ => rfl
  sized := nofun

/-- The next buffer is written to its slice. -/
theorem Group.push (h : Group input reductionFactor a k n acc)
    (hm : input[k * reductionFactor + n]? = some m) (hsize : acc.size = m.size) :
    Group input reductionFactor a k (n + 1) { acc with
      slice := Function.update acc.slice (n + 1) (some (k * reductionFactor + n, m)) } where
  alloc := h.alloc
  le := Nat.le_succ_of_le h.le
  before := h.before
  held := by
    have hupdate : (fun i => Function.update acc.slice (n + 1)
        (some (k * reductionFactor + n, m)) (i + 1)) =
        Function.update (fun i => acc.slice (i + 1)) n (some (k * reductionFactor + n, m)) :=
      Function.update_comp_eq_of_injective _ Nat.succ_injective n _
    exact hupdate ▸ h.held.push h.le (written_at hm)
  sized := by
    intro i hi g m' hslice
    rcases Nat.lt_or_eq_of_le (Nat.le_of_lt_succ hi) with hlt | rfl
    · dsimp only at hslice
      rw [Function.update_of_ne (Nat.ne_of_lt (Nat.succ_lt_succ hlt))] at hslice
      exact h.sized i hlt g m' hslice
    · dsimp only at hslice
      rw [Function.update_self] at hslice
      cases hslice
      exact hsize.symm

/-- `make_acc!` before the buffer at `p`: behind it `acc` has the size of the buffer; it has no slice
if this is the first one and empty. -/
theorem makeAcc_spec (t : Reduce ρ) (hg : Group input reductionFactor a k n t.acc)
    (hn : n < reductionFactor) (hr : t.acc.Recent input reductionFactor (k * reductionFactor + n))
    (hm : input[k * reductionFactor + n]? = some m) :
    ∃ acc, t.makeAcc reductionFactor m = { t with acc } ∧
      ((acc.slices = 0 ∧ k * reductionFactor + n = 0 ∧ m.size = (0, 0)) ∨
        (k * reductionFactor + n = 0 → m.size ≠ (0, 0)) ∧ acc.size = m.size ∧
          acc.slices = reductionFactor ∧ ∃ a, Group input reductionFactor a k n acc) := by
  by_cases hsize : t.acc.size = m.size
  · refine ⟨t.acc, if_neg (not_not_intro hsize), ?_⟩
    rcases hr with ⟨hp, hzero, hslices⟩ | ⟨q, m', hp, hq, hsize', hslices⟩
    · exact .inl ⟨hslices, hp, hsize.symm.trans hzero⟩
    · exact .inr ⟨fun hz => by omega, hsize, hslices, a, hg⟩
  · refine ⟨_, if_pos hsize, .inr ⟨fun hz hempty => ?_, rfl, rfl, _, .alloc_new (hr.alloc hm hsize) hn _⟩⟩
    rcases hr with ⟨-, hzero, -⟩ | ⟨q, -, hp, -⟩
    · exact hsize (hzero.trans hempty.symm)
    · omega

theorem grouped_start (input : List (Matrix ρ)) (hf : 0 < reductionFactor) :
    Grouped input reductionFactor (ReduceView.start input).task := by
  have htaken : (ReduceView.start input).task.taken reductionFactor = 0 :=
    Nat.add_zero _ |>.trans (Nat.zero_mul _)
  refine ⟨⟨Nat.one_pos, hf⟩, fun _ => ?_, fun _ => ?_, fun _ => ⟨0, .inl rfl, Nat.zero_le _, ?_,
    .empty _ _ _ _ _, nofun⟩, nofun, ?_, fun _ => htaken⟩
  · rw [htaken]
    rfl
  · rw [htaken]
    exact .inl ⟨rfl, rfl, rfl⟩
  · show 0 < (0 + 1) * reductionFactor
    omega
  · show 0 * reductionFactor ≤ input.length
    omega

/-- The first of the buffers that are left. -/
theorem next_of_drop {buff : Nat × Matrix ρ} {rest : List (Nat × Matrix ρ)}
    (h : buff :: rest = (indexed input).drop p) :
    ∃ m, buff = (p, m) ∧ input[p]? = some m ∧ rest = (indexed input).drop (p + 1) := by
  have hp : p < (indexed input).length := by
    by_contra hge
    rw [List.drop_eq_nil_of_le (Nat.not_lt.mp hge)] at h
    cases h
  rw [List.drop_eq_getElem_cons hp] at h
  obtain ⟨rfl, rfl⟩ := List.cons.inj h
  have hlt : p < input.length := by simpa [indexed] using hp
  exact ⟨input[p], by simp [indexed], List.getElem?_eq_getElem hlt, rfl⟩

/-- A turn of the body. -/
theorem Grouped.body (h : Grouped input reductionFactor t) (hpc : t.pc = .take)
    {buff : Nat × Matrix ρ} {rest : List (Nat × Matrix ρ)} (hin : t.input = buff :: rest) :
    Grouped input reductionFactor ({ t with input := rest }.body reductionFactor buff) := by
  obtain ⟨_, pc, buffIdx, acc, calls⟩ := t
  obtain rfl : pc = _ := hpc
  obtain rfl : _ = buff :: rest := hin
  obtain ⟨hpos, hle⟩ : 0 < buffIdx ∧ buffIdx ≤ reductionFactor := h.filling
  obtain ⟨n, rfl⟩ : ∃ n, buffIdx = n + 1 := ⟨buffIdx - 1, by omega⟩
  obtain ⟨m, rfl, hm, hrest⟩ := next_of_drop (p := calls.length * reductionFactor + n)
    (h.rest trivial)
  obtain ⟨a, hg⟩ : ∃ a, Group input reductionFactor a calls.length n acc := h.current trivial
  obtain ⟨acc', hmake, hcases⟩ :=
    makeAcc_spec ⟨rest, .take, n + 1, acc, calls⟩ hg hle (h.recent trivial) hm
  simp only [Reduce.body, hmake]
  obtain ⟨hslices, hzero, hempty⟩ | ⟨hfirst, hsize, hslices, a', hg'⟩ := hcases
  · -- the first buffer is empty, and `acc` has no slice
    have hno : ¬ n + 1 ≤ acc'.slices := by omega
    rw [if_neg hno]
    have hz : calls.length * reductionFactor = 0 := by omega
    have hcalls := (Nat.mul_eq_zero.mp hz).resolve_right (by omega)
    exact ⟨⟨⟨m, hzero ▸ hm, hempty⟩, List.length_eq_zero_iff.mp hcalls⟩, nofun, nofun, nofun, h.calls,
      h.le, h.empty⟩
  · rw [if_pos (hslices ▸ hle)]
    have hpush := hg'.push hm hsize
    have hrecent : ∀ slice, Acc.Recent input reductionFactor
        (calls.length * reductionFactor + (n + 1)) { acc' with slice } :=
      fun _ => .inr ⟨_, m, rfl, hm, hsize, hslices⟩
    have hempty (he : StartsEmpty input) : calls.length * reductionFactor + (n + 1) = 0 := by
      have hz : calls.length * reductionFactor + n = 0 := h.empty he
      obtain ⟨m', hm', hsize'⟩ := he
      rw [hz] at hm
      exact absurd (Option.some.inj (hm'.symm.trans hm) ▸ hsize') (hfirst hz)
    by_cases hfull : n + 1 + 1 > reductionFactor
    · rw [if_pos hfull]
      have hidx : n + 1 + 1 = reductionFactor + 1 := by omega
      exact ⟨hidx, fun _ => hrest, fun _ => hrecent _, fun _ => ⟨a', hpush⟩, h.calls, h.le,
        hempty⟩
    · rw [if_neg hfull]
      exact ⟨⟨Nat.succ_pos _, Nat.not_lt.mp hfull⟩, fun _ => hrest, fun _ => hrecent _,
        fun _ => ⟨a', hpush⟩, h.calls, h.le,
        hempty⟩

/-- A call of `reductor`. -/
theorem Grouped.call (h : Grouped input reductionFactor t) (hf : 0 < reductionFactor)
    (hpc : t.pc = .reductor) (x : Matrix ρ) (left : Nat → Slice ρ) :
    Grouped input reductionFactor { t with
      pc := .put x, acc := { t.acc with slice := left }, calls := t.calls ++ [t.acc] } := by
  obtain ⟨rest, pc, buffIdx, acc, calls⟩ := t
  obtain rfl : pc = _ := hpc
  obtain rfl : buffIdx = reductionFactor + 1 := h.filling
  obtain ⟨a, hg⟩ := h.current trivial
  have htaken : Reduce.taken reductionFactor (⟨rest, .put x, reductionFactor + 1,
      { acc with slice := left }, calls ++ [acc]⟩ : Reduce ρ) =
      calls.length * reductionFactor + reductionFactor := by
    rw [Reduce.taken, List.length_append, List.length_singleton, Nat.succ_mul]
    rfl
  have hrecent : acc.Recent input reductionFactor
    (calls.length * reductionFactor + reductionFactor) := h.recent trivial
  obtain ⟨q, m, hq, hm, hsize, hslices⟩ : ∃ q m,
      calls.length * reductionFactor + reductionFactor = q + 1 ∧ input[q]? = some m ∧
        acc.size = m.size ∧ acc.slices = reductionFactor :=
    hrecent.resolve_left fun ⟨hz, _⟩ => by omega
  refine ⟨trivial, fun _ => ?_, fun _ => ?_, fun _ => ⟨0, .inl rfl, Nat.zero_le _, ?_,
    .empty _ _ _ _ _, nofun⟩, fun k c hk => ?_, ?_, fun he => htaken.trans (h.empty he)⟩
  · rw [htaken]
    exact h.rest trivial
  · rw [htaken]
    exact .inr ⟨q, m, hq, hm, hsize, hslices⟩
  · rw [Nat.succ_mul]
    omega
  · rcases Nat.lt_or_ge k calls.length with hlt | hge
    · rw [List.getElem?_append_left hlt] at hk
      exact h.calls k c hk
    · rw [List.getElem?_append_right hge, List.getElem?_singleton] at hk
      obtain ⟨hz, rfl⟩ := Option.ite_some_none_eq_some.mp hk
      obtain rfl : k = calls.length := by omega
      exact ⟨hslices, a, hg⟩
  · have hlt := (List.getElem?_eq_some_iff.mp hm).1
    show (calls ++ [acc]).length * reductionFactor ≤ input.length
    rw [List.length_append, List.length_singleton, Nat.succ_mul]
    omega

/-- A step of `reduce` keeps it. -/
theorem Grouped.step {v v' : ReduceView ρ} {e : ReduceEv ρ} (hf : 0 < reductionFactor)
    (h : Grouped input reductionFactor v.task) (hs : v.step reductionFactor e = some v') :
    Grouped input reductionFactor v'.task := by
  cases e with
  | take =>
    obtain ⟨r, -, rfl⟩ := Option.map_eq_some_iff.mp hs
    exact h
  | reductor x left =>
    unfold ReduceView.step at hs
    dsimp only at hs
    split at hs
    · rename_i hpc
      cases hs
      exact h.call hf hpc x left
    · cases hs
  | reduce =>
    unfold ReduceView.step at hs
    dsimp only at hs
    split at hs
    · rename_i hpc
      split at hs
      · rename_i hin
        cases hs
        obtain ⟨⟨_, pc, buffIdx, acc, calls⟩, out⟩ := v
        obtain rfl : pc = _ := hpc
        obtain rfl : _ = [] := hin
        have hdrop := h.rest trivial
        have hend := List.drop_eq_nil_iff.mp hdrop.symm
        rw [indexed, List.length_mapIdx] at hend
        exact ⟨⟨h.filling.1, h.filling.2, hend⟩, fun _ => hdrop, fun _ => h.recent trivial,
          fun _ => h.current trivial, h.calls, h.le, h.empty⟩
      · rename_i hin
        cases hs
        exact h.body hpc hin
    · cases hs
    · rename_i hpc
      obtain ⟨out', -, rfl⟩ := Option.map_eq_some_iff.mp hs
      obtain ⟨⟨rest, pc, buffIdx, acc, calls⟩, out⟩ := v
      obtain rfl : pc = _ := hpc
      exact ⟨trivial, fun _ => h.rest trivial, fun _ => h.recent trivial, fun _ => h.current trivial,
        h.calls, h.le, h.empty⟩
    · rename_i hpc
      split at hs
      · cases hs
        obtain ⟨⟨rest, pc, buffIdx, acc, calls⟩, out⟩ := v
        obtain rfl : pc = _ := hpc
        exact ⟨⟨Nat.one_pos, hf⟩, fun _ => h.rest trivial, fun _ => h.recent trivial,
          fun _ => h.current trivial, h.calls, h.le, h.empty⟩
      · cases hs
    · rename_i hpc
      cases hs
      obtain ⟨⟨rest, pc, buffIdx, acc, calls⟩, out⟩ := v
      obtain rfl : pc = _ := hpc
      exact ⟨h.filling, fun _ => h.rest trivial, fun _ => h.recent trivial, fun _ => h.current trivial,
        h.calls, h.le, h.empty⟩
    · rename_i hpc
      cases hs
      obtain ⟨⟨rest, pc, buffIdx, acc, calls⟩, out⟩ := v
      obtain rfl : pc = _ := hpc
      exact ⟨h.filling, nofun, nofun, nofun, h.calls, h.le, h.empty⟩
    · cases hs
    · cases hs

theorem Grouped.run {v v' : ReduceView ρ} {es : List (ReduceEv ρ)} (hf : 0 < reductionFactor)
    (h : Grouped input reductionFactor v.task)
    (hr : (ReduceView.machine ρ reductionFactor).run es v = some v') :
    Grouped input reductionFactor v'.task :=
  Machine.run_inv (I := fun v : ReduceView ρ => Grouped input reductionFactor v.task)
    (fun _ _ _ h₁ hs => h₁.step hf hs) h hr

/-! ## Intact calls -/

theorem Grouped.calls_eq_nil (h : Grouped input reductionFactor t) (hf : 0 < reductionFactor)
    (he : StartsEmpty input) : t.calls = [] := by
  have hz : t.calls.length * reductionFactor = 0 := (Nat.add_eq_zero_iff.mp (h.empty he)).1
  exact List.length_eq_zero_iff.mp ((Nat.mul_eq_zero.mp hz).resolve_right (Nat.ne_of_gt hf))

theorem intact_nil (input : List (Matrix ρ)) (reductionFactor : Nat) :
    Intact input reductionFactor [] := ⟨fun _ => 0, nofun, nofun⟩

/-- Buffers of different groups. -/
theorem group_ne {j i i' : Nat} (hjk : j < k) (hi : i < reductionFactor) :
    j * reductionFactor + i ≠ k * reductionFactor + i' := by
  have hle : (j + 1) * reductionFactor ≤ k * reductionFactor := Nat.mul_le_mul_right _ hjk
  rw [Nat.succ_mul] at hle
  omega

/-- Without a change of the size in a group all its slices are the buffers of it. -/
theorem Group.slices_of_changes (h : Group input reductionFactor a k reductionFactor acc)
    (hslices : acc.slices = reductionFactor) (hc : ChangesAtGroups input reductionFactor)
    (hk : (k + 1) * reductionFactor ≤ input.length) (hf : 0 < reductionFactor) :
    Slices input reductionFactor (k * reductionFactor) acc := by
  have hle : k + 1 ≤ input.length / reductionFactor := (Nat.le_div_iff_mul_le hf).mpr hk
  -- the allocation was not in the course of the group
  have ha : a ≤ k * reductionFactor := by
    by_contra hlow
    rcases h.alloc with rfl | ⟨m, hm, rfl⟩
    · exact hlow (Nat.zero_le _)
    · have hlt := Nat.lt_of_lt_of_le h.before (Nat.mul_le_mul_right _ hle)
      exact absurd h.before
        (Nat.not_lt.mpr (next_le_of_dvd (hc m hm hlt) (Nat.not_le.mp hlow)))
  refine ⟨hslices, fun i hi => ?_⟩
  have hheld := h.held.of_le ha hi
  rw [Nat.succ_mul] at hk
  have hlt : k * reductionFactor + i < input.length := by omega
  have hm := List.getElem?_eq_getElem hlt
  have hslice := (Option.some.inj ((written_at hm).symm.trans hheld)).symm
  exact ⟨_, hm, h.sized i hi _ _ hslice, hslice⟩

/-- The buffers of an intact call are those of its group, so they have one size. -/
theorem Group.no_change (h : Group input reductionFactor a k reductionFactor acc) {first : Nat}
    (hs : Slices input reductionFactor first acc) {m : Nat} (hlow : k * reductionFactor < m + 1)
    (hhigh : m + 1 < (k + 1) * reductionFactor) : ¬ SizeChange input m := by
  rintro ⟨x, y, hx, hy, hne⟩
  have hsize : ∀ i z, i < reductionFactor → input[k * reductionFactor + i]? = some z →
      z.size = acc.size := by
    intro i z hi hz
    obtain ⟨z', -, hz', hslice⟩ := hs.slice i hi
    obtain ⟨-, hat⟩ := at_of_written (h.held.of_set hi hslice)
    rw [Option.some.inj (hz.symm.trans hat)]
    exact hz'
  obtain ⟨i, hi⟩ := Nat.exists_eq_add_of_le (Nat.le_of_lt_succ hlow)
  rw [Nat.succ_mul] at hhigh
  rw [hi] at hx
  rw [show m + 1 = k * reductionFactor + (i + 1) by omega] at hy
  exact hne ((hsize i x (by omega) hx).trans (hsize (i + 1) y (by omega) hy).symm)

/-- At the end there is a call for each full group. -/
theorem Grouped.calls_length (h : Grouped input reductionFactor t) (hpc : t.pc = .done) :
    t.calls.length = input.length / reductionFactor := by
  obtain ⟨rest, pc, buffIdx, acc, calls⟩ := t
  obtain rfl : pc = _ := hpc
  obtain ⟨hpos, hle, hend⟩ : 0 < buffIdx ∧ buffIdx ≤ reductionFactor ∧
    input.length ≤ calls.length * reductionFactor + (buffIdx - 1) := h.filling
  have hcalls : calls.length * reductionFactor ≤ input.length := h.le
  refine (Nat.div_eq_of_lt_le hcalls ?_).symm
  rw [Nat.succ_mul]
  omega

end

/-- `reduce` in any run, with any `reductor`: if the size changes behind full groups only, or the first
buffer is 0×0, all calls are intact. At the end they are intact in no other case. -/
theorem reduce_iff (reductionFactor : Nat) (hf : 0 < reductionFactor) (input : List (Matrix ρ))
    (es : List (ReduceEv ρ)) (v : ReduceView ρ)
    (hr : (ReduceView.machine ρ reductionFactor).run es (.start input) = some v) :
    (StartsEmpty input ∨ ChangesAtGroups input reductionFactor →
        Intact input reductionFactor v.task.calls) ∧
      (v.task.Ended → Intact input reductionFactor v.task.calls →
        StartsEmpty input ∨ ChangesAtGroups input reductionFactor) := by
  have h : Grouped input reductionFactor v.task := (grouped_start input hf).run hf hr
  constructor
  · rintro (hempty | hc)
    · rw [h.calls_eq_nil hf hempty]
      exact intact_nil input reductionFactor
    · refine ⟨fun k => k * reductionFactor, fun k acc hk => ?_, fun j k hj hk hne i i' hi hi' => ?_⟩
      · obtain ⟨hslices, a, hg⟩ := h.calls k acc hk
        have hlast : (k + 1) * reductionFactor ≤ v.task.calls.length * reductionFactor :=
          Nat.mul_le_mul_right _ (List.getElem?_eq_some_iff.mp hk).1
        exact hg.slices_of_changes hslices hc (hlast.trans h.le) hf
      · rcases Nat.lt_or_gt_of_ne hne with hjk | hkj
        · exact group_ne hjk hi
        · exact (group_ne hkj hi').symm
  · rintro hend ⟨first, hslices, -⟩
    refine or_iff_not_imp_left.mpr fun hempty m hm hlt => ?_
    have hdone : v.task.pc = .done := hend.resolve_right fun hfail => by
      have hfilling := h.filling
      rw [Reduce.Filling, hfail] at hfilling
      exact hempty hfilling.1
    rw [← h.calls_length hdone] at hlt
    by_contra hdvd
    obtain ⟨k, hk, hlow, hhigh⟩ := not_dvd_between hf hdvd hlt
    obtain ⟨-, a, hg⟩ := h.calls k _ (List.getElem?_eq_getElem hk)
    exact hg.no_change (hslices k _ (List.getElem?_eq_getElem hk)) hlow hhigh hm

/-- Five buffers; the size changes behind the second and the fourth. -/
def fiveBuffers : List (Matrix Nat) :=
  [⟨1, [10]⟩, ⟨1, [20]⟩, ⟨1, [30, 31]⟩, ⟨1, [40, 41]⟩, ⟨1, [50]⟩]

/-- The results of two groups are put and taken; then the input ends in the third group. -/
def fiveRun : List (ReduceEv Nat) :=
  [.reduce, .reduce, .reductor ⟨1, [30]⟩ fun _ => none, .reduce, .take, .reduce,
    .reduce, .reduce, .reductor ⟨1, [70, 72]⟩ fun _ => none, .reduce, .take, .reduce,
    .reduce, .reduce, .reduce]

theorem reduce_iff_boundary :
    ∃ v, (ReduceView.machine Nat 2).run fiveRun (.start fiveBuffers) = some v ∧ v.task.pc = .done ∧
      v.out.taken = [⟨1, [30]⟩, ⟨1, [70, 72]⟩] ∧ v.task.calls.length = 2 ∧
      Intact fiveBuffers 2 v.task.calls := by
  obtain ⟨v, hv, hdone, htaken, htwo⟩ : ∃ v,
      (ReduceView.machine Nat 2).run fiveRun (.start fiveBuffers) = some v ∧ v.task.pc = .done ∧
      v.out.taken = [⟨1, [30]⟩, ⟨1, [70, 72]⟩] ∧ v.task.calls.length = 2 := ⟨_, rfl, rfl, rfl, rfl⟩
  refine ⟨v, hv, hdone, htaken, htwo,
    (reduce_iff 2 (by decide) _ _ v hv).1 (.inr fun m hm hlt => ?_)⟩
  obtain ⟨a, b, ha, hb, hne⟩ := hm
  have hlt : m + 1 < 4 := hlt
  rcases (by omega : m = 0 ∨ m = 1 ∨ m = 2) with rfl | rfl | rfl
  · cases ha
    cases hb
    exact absurd rfl hne
  · exact Nat.dvd_refl 2
  · cases ha
    cases hb
    exact absurd rfl hne

/-- The second buffer has another size, behind half a group: the first slice is not set. -/
theorem reduce_unset :
    ∃ v, (ReduceView.machine Nat 2).run [.reduce, .reduce, .reductor ⟨1, []⟩ fun _ => none]
        (.start [⟨1, [10]⟩, ⟨1, [20, 21]⟩]) = some v ∧
      ∃ acc ∈ v.task.calls, acc.slice 1 = none ∧
        ¬ Intact [⟨1, [10]⟩, ⟨1, [20, 21]⟩] 2 v.task.calls := by
  obtain ⟨v, hv, acc, hcalls, hnone⟩ : ∃ v, (ReduceView.machine Nat 2).run
      [.reduce, .reduce, .reductor ⟨1, []⟩ fun _ => none] (.start [⟨1, [10]⟩, ⟨1, [20, 21]⟩]) = some v ∧
      ∃ acc, v.task.calls = [acc] ∧ acc.slice 1 = none := ⟨_, rfl, _, rfl, rfl⟩
  refine ⟨v, hv, acc, hcalls ▸ List.mem_singleton_self acc, hnone, ?_⟩
  rintro ⟨first, hslices, -⟩
  obtain ⟨m, -, -, hset⟩ := (hslices 0 acc (by rw [hcalls]; rfl)).slice 0 (by decide)
  cases hnone.symm.trans hset

end Sigflow
end Xtrx
