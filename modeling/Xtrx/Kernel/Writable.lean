import Xtrx.Kernel.CopyFault

/-!
# The tests for room in the TX ring

`litepcie_poll`, the wait and the loop of `litepcie_write` test if the software count is less than
half a ring ahead of the hardware count. The test for `O_NONBLOCK` compares the two counts for
equality, as in `litepcie_read`. So a non-blocking write is refused if the ring is empty, and gets
0 for a full half ring: `writability_agrees_iff` says in which states the four tests agree.

The runs are those of one call without interrupts (`Ev.thr`): they speak about the state at its
entry.
-/

namespace Xtrx
namespace Kernel

open Conc ChanProg Xfer

variable {β : Type}

/-- The buffers between the two counts of the reader. -/
def Xfer.queued (s : Xfer β) : Int := s.sw .reader - s.hw .reader

/-- The wait of a blocking `litepcie_write`, its second access, does not end in the state. -/
def Waits (data size : Nat) (s : Xfer β) : Prop :=
  ((xferWorld β).machine Int).run [.thr .done, .thr .done] (litepcieWrite false data size, s) = none

/-- The tests agree: a blocking write waits if `poll` reports no room, and a non-blocking one gets
`-EAGAIN` in these states; in the others it takes a buffer, if its copies go well. -/
structure WritabilityAgrees (data size : Nat) (s : Xfer β) : Prop where
  poll : Waits data size s ↔ (Driver.litepciePoll s.chan).2 = false
  again : ∀ (os : List (Outcome β)) (ret : Int) (t : Xfer β),
    (xferWorld β).exec (litepcieWrite true data size) (os.map .thr) s = some (ret, t) →
      (ret = -eAgain ↔ Waits data size s)
  accepts : ¬ Waits data size s → ∀ (os : List (Outcome β)) (ret : Int) (t : Xfer β),
    (∀ o ∈ os, o.isFault = false) →
    (xferWorld β).exec (litepcieWrite true data size) (os.map .thr) s = some (ret, t) →
      (dmaBufferSize : Int) ≤ ret
  returns : ∃ k r, (xferWorld β).exec (litepcieWrite true data size)
    (List.replicate k (.thr .done)) s = some r

/-! ## The tests -/

theorem waits_iff {data size : Nat} {s : Xfer β} :
    Waits data size s ↔ ((dmaBufferCount / 2 : Nat) : Int) ≤ s.queued := by
  let cond : Int → Int → Bool := fun hw sw => decide (sw - hw < (dmaBufferCount / 2 : Nat))
  let rest : (ChanReq.waitEvent .reader cond).Ans → ChanProg Int := fun (ret : Int) =>
    if ret < 0 then pure ret else writeLoop data size (size / dmaBufferSize) size 0 0
  have hprog : litepcieWrite false data size = .call (.enter data) fun _ =>
      .call (.waitEvent .reader cond) rest := rfl
  have hrun : Waits data size s ↔ xferCall (.waitEvent .reader cond) .done s = none := by
    rw [Waits, hprog, World.run_thr]
    show ((xferWorld β).machine Int).run _ (.call (.waitEvent .reader cond) _, s) = none ↔ _
    rw [World.run_thr, Option.bind_eq_none_iff]
    simp [xferWorld, Option.eq_none_iff_forall_ne_some]
  rw [hrun, queued]
  simp only [cond, xferCall]
  split
  · rename_i h
    simp only [decide_eq_true_eq] at h
    simp only [reduceCtorEq, false_iff]
    omega
  · rename_i h
    simp only [decide_eq_true_eq] at h
    simp only [true_iff]
    omega

theorem poll_iff {s : Xfer β} :
    (Driver.litepciePoll s.chan).2 = false ↔ ((dmaBufferCount / 2 : Nat) : Int) ≤ s.queued := by
  simp only [Driver.litepciePoll, queued, Xfer.sw, Xfer.hw, LitepcieDmaChan.dir_reader,
    decide_eq_false_iff_not]
  omega

/-! ## The loop -/

section Loop

variable {data size len i lost : Nat} {os : List (Outcome β)} {ret : Int} {s t : Xfer β}

/-- A count that is read leaves the channel as it is. -/
theorem exec_hwCount {d : Dir} {f : Int → ChanProg Int}
    (h : (xferWorld β).exec (ChanProg.hwCount d >>= f) (os.map .thr) s = some (ret, t)) :
    ∃ (o : Outcome β) (os' : List (Outcome β)) (s' : Xfer β), os = o :: os' ∧ s'.chan = s.chan ∧
      (xferWorld β).exec (f (s.hw d)) (os'.map .thr) s' = some (ret, t) := by
  obtain ⟨o, os', a, s', rfl, hc, hrest⟩ := World.exec_thr_cases h
  cases hc
  exact ⟨o, os', s.seeHw d (s.hw d), rfl, rfl, hrest⟩

theorem exec_swCount {d : Dir} {f : Int → ChanProg Int}
    (h : (xferWorld β).exec (ChanProg.swCount d >>= f) (os.map .thr) s = some (ret, t)) :
    ∃ (o : Outcome β) (os' : List (Outcome β)) (s' : Xfer β), os = o :: os' ∧ s'.chan = s.chan ∧
      (xferWorld β).exec (f (s.sw d)) (os'.map .thr) s' = some (ret, t) := by
  obtain ⟨o, os', a, s', rfl, hc, hrest⟩ := World.exec_thr_cases h
  cases hc
  exact ⟨o, os', s.seeSw d (s.sw d), rfl, rfl, hrest⟩

/-- A copy with an answer that is not 0 has faulted. -/
theorem exec_copyFromUser {idx : Int} {src : Nat} {f : Nat → ChanProg Int}
    (h : (xferWorld β).exec (ChanProg.copyFromUser idx src >>= f) (os.map .thr) s = some (ret, t)) :
    ∃ o os' ans s', os = o :: os' ∧ (ans ≠ 0 → o.isFault = true) ∧
      (xferWorld β).exec (f ans) (os'.map .thr) s' = some (ret, t) := by
  obtain ⟨o, os', ans, s', rfl, hc, hrest⟩ := World.exec_thr_cases h
  refine ⟨o, os', ans, s', rfl, fun hne => ?_, hrest⟩
  cases o with
  | done =>
    cases hc
    exact absurd rfl hne
  | signal => cases hc
  | fault => rfl

theorem writeEnd_result
    (h : (xferWorld β).exec (writeEnd size len lost) (os.map .thr) s = some (ret, t)) :
    ret = (size - len : Nat) := by
  unfold writeEnd at h
  split at h
  · obtain ⟨o, os', a, s', rfl, -, hrest⟩ := World.exec_thr_cases h
    exact (World.exec_thr_ret hrest).1
  · exact (World.exec_thr_ret h).1

/-- One round of the loop: without room it ends; else it goes on with the next block, or the copy
faults. -/
theorem writeLoop_round {left : Nat}
    (h : (xferWorld β).exec (writeLoop data size (left + 1) len i lost) (os.map .thr) s =
      some (ret, t)) :
    (¬ s.queued < (dmaBufferCount / 2 : Nat) ∧ ret = (size - len : Nat)) ∨
      (∃ (lost' : Nat) (os' : List (Outcome β)) (s' : Xfer β), (∀ o ∈ os', o ∈ os) ∧
        (xferWorld β).exec (writeLoop data size left
        (len - dmaBufferSize) (i + 1) lost') (os'.map .thr) s' = some (ret, t)) ∨
      (ret = -eFault ∧ ∃ o ∈ os, o.isFault = true) := by
  rw [writeLoop] at h
  obtain ⟨o₁, os₁, s₁, rfl, hc₁, h₁⟩ := exec_swCount h
  obtain ⟨o₂, os₂, s₂, rfl, -, h₂⟩ := exec_hwCount h₁
  have hhw : s₁.hw .reader = s.hw .reader := congrArg (fun c => (c.dir .reader).hwCount) hc₁
  rw [hhw] at h₂
  split at h₂
  case isFalse hfull => exact .inl ⟨hfull, writeEnd_result h₂⟩
  case isTrue =>
  obtain ⟨o₃, os₃, s₃, rfl, -, h₃⟩ := exec_swCount h₂
  obtain ⟨o₄, os₄, s₄, rfl, -, h₄⟩ := exec_hwCount h₃
  split at h₄
  case isTrue =>
    -- an underflow
    obtain ⟨o₅, os₅, _, s₅, rfl, -, h₅⟩ := World.exec_thr_cases h₄
    obtain ⟨o₆, os₆, _, rfl, -, h₆⟩ := exec_swCount h₅
    obtain ⟨o₇, os₇, _, s₇, rfl, -, h₇⟩ := World.exec_thr_cases h₆
    exact .inr (.inl ⟨lost + 1, os₇, s₇, fun o ho => by simp [ho], h₇⟩)
  case isFalse =>
    obtain ⟨o₅, os₅, _, rfl, -, h₅⟩ := exec_swCount h₄
    obtain ⟨o₆, os₆, ans, s₆, rfl, hfault, h₆⟩ := exec_copyFromUser h₅
    split at h₆
    · rename_i hne
      exact .inr (.inr ⟨(World.exec_thr_ret h₆).1, o₆, by simp, hfault hne⟩)
    · obtain ⟨o₇, os₇, _, rfl, -, h₇⟩ := exec_swCount h₆
      obtain ⟨o₈, os₈, _, s₈, rfl, -, h₈⟩ := World.exec_thr_cases h₇
      exact .inr (.inl ⟨lost, os₈, s₈, fun o ho => by simp [ho], h₈⟩)

/-- The result of the loop counts the bytes before it; a fault gives the only other one. -/
theorem writeLoop_result (left : Nat)
    (h : (xferWorld β).exec (writeLoop data size left len i lost) (os.map .thr) s = some (ret, t)) :
    ((size - len : Nat) : Int) ≤ ret ∨ ret = -eFault ∧ ∃ o ∈ os, o.isFault = true := by
  induction left generalizing len i lost os s with
  | zero => exact .inl (le_of_eq (writeEnd_result h).symm)
  | succ left ih =>
    obtain ⟨-, hret⟩ | ⟨lost', os', s', hsub, h'⟩ | hfault := writeLoop_round h
    · exact .inl (le_of_eq hret.symm)
    · obtain hle | ⟨hret, o, ho, hf⟩ := ih h'
      · exact .inl (by omega)
      · exact .inr ⟨hret, o, hsub o ho, hf⟩
    · exact .inr hfault

/-- With room for a buffer the call takes one, or a copy faults. -/
theorem writeLoop_room {left : Nat} (hsize : dmaBufferSize ≤ size)
    (hroom : s.queued < (dmaBufferCount / 2 : Nat))
    (h : (xferWorld β).exec (writeLoop data size (left + 1) size i lost) (os.map .thr) s =
      some (ret, t)) :
    (dmaBufferSize : Int) ≤ ret ∨ ret = -eFault ∧ ∃ o ∈ os, o.isFault = true := by
  obtain ⟨hfull, -⟩ | ⟨lost', os', s', hsub, h'⟩ | hfault := writeLoop_round h
  · exact absurd hroom hfull
  · obtain hle | ⟨hret, o, ho, hf⟩ := writeLoop_result left h'
    · exact .inl (by omega)
    · exact .inr ⟨hret, o, hsub o ho, hf⟩
  · exact .inr hfault

/-- A non-blocking call: refused for equal counts, else the loop. -/
theorem nonblock_cases
    (h : (xferWorld β).exec (litepcieWrite true data size) (os.map .thr) s = some (ret, t)) :
    (s.queued = 0 ∧ ret = -eAgain) ∨
      (s.queued ≠ 0 ∧ ∃ (os' : List (Outcome β)) (s' : Xfer β), (∀ o ∈ os', o ∈ os) ∧
        s'.queued = s.queued ∧ (xferWorld β).exec
          (writeLoop data size (size / dmaBufferSize) size 0 0) (os'.map .thr) s' =
            some (ret, t)) := by
  unfold litepcieWrite at h
  obtain ⟨o₁, os₁, _, s₁, rfl, hc, h₁⟩ := World.exec_thr_cases h
  cases hc
  obtain ⟨o₂, os₂, s₂, rfl, hc₂, h₂⟩ := exec_hwCount h₁
  obtain ⟨o₃, os₃, s₃, rfl, hc₃, h₃⟩ := exec_swCount h₂
  have hsw : s₂.sw .reader = s.sw .reader := congrArg (fun c => (c.dir .reader).swCount) hc₂
  have hqueued : s₃.queued = s.queued :=
    congrArg (fun c => (c.dir .reader).swCount - (c.dir .reader).hwCount) (hc₃.trans hc₂)
  rw [hsw] at h₃
  simp only [Prog.pure_eq, Prog.ret_bind] at h₃
  by_cases heq : s.hw .reader = s.sw .reader
  · rw [if_pos heq, if_pos (by decide)] at h₃
    exact .inl ⟨by unfold queued; omega, (World.exec_thr_ret h₃).1⟩
  · rw [if_neg heq, if_neg (by decide)] at h₃
    exact .inr ⟨by unfold queued; omega, os₃, s₃, fun o ho => by simp [ho], hqueued, h₃⟩

end Loop

/-! ## Calls end -/

/-- The accesses that are possible whenever they go well: all but the wait. -/
def NoWait : ChanReq → Prop
  | .waitEvent .. => False
  | _ => True

theorem xferCall_done (q : ChanReq) (s : Xfer β) (h : NoWait q) :
    ∃ r, xferCall q .done s = some r := by
  cases q with
  | waitEvent d cond => exact h.elim
  | _ => exact ⟨_, rfl⟩

theorem writeEnd_calls (size len lost : Nat) : (writeEnd size len lost).Calls NoWait := by
  unfold writeEnd
  split
  · exact ⟨trivial, fun _ => trivial⟩
  · trivial

theorem writeLoop_calls (data size left len i lost : Nat) :
    (writeLoop data size left len i lost).Calls NoWait := by
  induction left generalizing len i lost with
  | zero => exact writeEnd_calls size len lost
  | succ left ih =>
    rw [writeLoop]
    refine Prog.Calls.req trivial fun (sw : Int) => Prog.Calls.req trivial fun (hw : Int) => ?_
    split
    case isFalse => exact writeEnd_calls size len lost
    case isTrue =>
    refine Prog.Calls.req trivial fun (sw : Int) => Prog.Calls.req trivial fun (hw : Int) => ?_
    split
    · refine Prog.Calls.req trivial fun _ => Prog.Calls.req trivial fun sw => ?_
      exact Prog.Calls.req trivial fun _ => ih _ _ _
    · refine Prog.Calls.req trivial fun sw => Prog.Calls.req trivial fun (ans : Nat) => ?_
      split
      · trivial
      · refine Prog.Calls.req trivial fun sw => ?_
        exact Prog.Calls.req trivial fun _ => ih _ _ _

theorem nonblock_calls (data size : Nat) : (litepcieWrite true data size).Calls NoWait := by
  unfold litepcieWrite
  refine Prog.Calls.req trivial fun _ => Prog.Calls.req trivial fun (hw : Int) => ?_
  refine Prog.Calls.req trivial fun (sw : Int) => ?_
  simp only [Prog.pure_eq, Prog.ret_bind]
  split
  · trivial
  · exact writeLoop_calls data size _ size 0 0

/-! ## The states in which the tests agree -/

theorem nonblock_returns (data size : Nat) (s : Xfer β) :
    ∃ k r, (xferWorld β).exec (litepcieWrite true data size) (List.replicate k (.thr .done)) s =
      some r :=
  World.exists_exec (fun q s h => xferCall_done q s h) (nonblock_calls data size)

/-- With buffers queued and room for one more, a call takes at least one, or a copy faults. -/
theorem nonblock_room {data size : Nat} {s t : Xfer β} (hsize : dmaBufferSize ≤ size)
    (h0 : s.queued ≠ 0) (hroom : s.queued < (dmaBufferCount / 2 : Nat)) {os : List (Outcome β)}
    {ret : Int}
    (hrun : (xferWorld β).exec (litepcieWrite true data size) (os.map .thr) s = some (ret, t)) :
    (dmaBufferSize : Int) ≤ ret ∨ ret = -eFault ∧ ∃ o ∈ os, o.isFault = true := by
  obtain ⟨left, hleft⟩ : ∃ left, size / dmaBufferSize = left + 1 :=
    Nat.exists_eq_succ_of_ne_zero (Nat.ne_of_gt (Nat.div_pos hsize (by decide)))
  obtain ⟨hz, -⟩ | ⟨-, os', s', hsub, hqueued, hloop⟩ := nonblock_cases hrun
  · exact absurd hz h0
  · rw [hleft] at hloop
    obtain hle | ⟨hret, o, ho, hf⟩ := writeLoop_room hsize (hqueued ▸ hroom) hloop
    · exact .inl hle
    · exact .inr ⟨hret, o, hsub o ho, hf⟩

/-- For every state and every size of at least one buffer, the tests for room agree exactly if the
counts differ and the software count is less than half a ring ahead. -/
theorem writability_agrees_iff (data size : Nat) (hsize : dmaBufferSize ≤ size) (s : Xfer β) :
    WritabilityAgrees data size s ↔
      s.sw .reader ≠ s.hw .reader ∧
        s.sw .reader - s.hw .reader < (dmaBufferCount / 2 : Nat) := by
  have hne : s.queued ≠ 0 ↔ s.sw .reader ≠ s.hw .reader := by
    unfold queued
    omega
  rw [← hne]
  show _ ↔ s.queued ≠ 0 ∧ s.queued < (dmaBufferCount / 2 : Nat)
  constructor
  · intro h
    obtain ⟨k, ⟨ret, t⟩, hrun⟩ := h.returns
    rw [← List.map_replicate] at hrun
    have hwaits : Waits data size s ↔ ((dmaBufferCount / 2 : Nat) : Int) ≤ s.queued := waits_iff
    obtain ⟨h0, hret⟩ | ⟨h0, os', s', -, -, hloop⟩ := nonblock_cases hrun
    · -- refused though there is room
      have := hwaits.mp ((h.again _ _ _ hrun).mp hret)
      rw [h0] at this
      exact absurd this (by decide)
    · refine ⟨h0, ?_⟩
      by_contra hfull
      have hret : ret = -eAgain := (h.again _ _ _ hrun).mpr (hwaits.mpr (by omega))
      -- the loop gives 0 or more, or `-EFAULT`
      obtain hle | ⟨hf, -⟩ := writeLoop_result _ hloop
      · rw [hret] at hle
        exact absurd hle (by simp [eAgain])
      · rw [hret] at hf
        exact absurd hf (by decide)
  · rintro ⟨h0, hroom⟩
    have hnot : ¬ Waits data size s := fun hw => by
      have := waits_iff.mp hw
      omega
    refine ⟨waits_iff.trans poll_iff.symm, fun os ret t hrun => ?_, fun _ os ret t hok hrun => ?_,
      nonblock_returns data size s⟩
    · refine ⟨fun hret => ?_, fun hw => absurd hw hnot⟩
      obtain hle | ⟨hf, -⟩ := nonblock_room hsize h0 hroom hrun
      · rw [hret] at hle
        exact absurd hle (by simp [eAgain])
      · rw [hret] at hf
        exact absurd hf (by decide)
    · obtain hle | ⟨-, o, ho, hf⟩ := nonblock_room hsize h0 hroom hrun
      · exact hle
      · rw [hok o ho] at hf
        cases hf

/-- A channel with these counts. -/
abbrev ringAt (hw sw : Int) : Xfer Nat := start (chanAt hw sw) (fun _ _ => 7) fun _ => 1000

/-- Five buffers are queued. -/
theorem writability_agrees_iff_five :
    WritabilityAgrees 0 65536 (ringAt 0 5) ∧
      (WritabilityAgrees 0 65536 (ringAt 0 5) ↔
        (ringAt 0 5).sw .reader ≠ (ringAt 0 5).hw .reader ∧
          (ringAt 0 5).sw .reader - (ringAt 0 5).hw .reader < (dmaBufferCount / 2 : Nat)) :=
  ⟨(writability_agrees_iff 0 65536 (le_refl _) (ringAt 0 5)).mpr (by decide),
    writability_agrees_iff 0 65536 (le_refl _) (ringAt 0 5)⟩

/-- With an empty ring a non-blocking write gets `-EAGAIN` though `poll` reports room and a blocking
write does not wait; with a half full ring it gets 0 though there is none and a blocking write
waits. -/
theorem nonblock_write_disagrees :
    ¬ WritabilityAgrees 0 65536 (ringAt 0 0) ∧ ¬ WritabilityAgrees 0 65536 (ringAt 0 128) := by
  have hempty : ((xferWorld Nat).exec (litepcieWrite true 0 65536)
      ((List.replicate 3 Outcome.done).map .thr) (ringAt 0 0)).map Prod.fst = some (-eAgain) := by
    decide +kernel
  have hfull : ((xferWorld Nat).exec (litepcieWrite true 0 65536)
      ((List.replicate 5 Outcome.done).map .thr) (ringAt 0 128)).map Prod.fst = some 0 := by
    decide +kernel
  obtain ⟨⟨ret, t⟩, hrun, hret⟩ := Option.map_eq_some_iff.mp hempty
  obtain ⟨⟨ret', t'⟩, hrun', hret'⟩ := Option.map_eq_some_iff.mp hfull
  constructor
  · intro h
    have hw := waits_iff.mp ((h.again _ ret t hrun).mp hret)
    exact absurd hw (by decide)
  · intro h
    have hw : Waits 0 65536 (ringAt 0 128) := waits_iff.mpr (by decide)
    have hr : ret' = -eAgain := (h.again _ ret' t' hrun').mpr hw
    rw [show ret' = 0 from hret'] at hr
    exact absurd hr (by decide)

end Kernel
end Xtrx
