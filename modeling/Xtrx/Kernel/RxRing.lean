import Mathlib.Data.List.Basic
import Xtrx.Lib.Ring
import Xtrx.Kernel.Transfer

/-!
# The RX ring under `litepcie_read`

One activation of the writer engine: the hardware fills the ring, interrupts bring
`writer_hw_count` up to date, and a client calls `litepcie_read`, one call after the other. The
hardware and the interrupts come between any two accesses of a call.

- **State** (`RxRing`): the channel's writer direction, the 256 slots, the number `done` of
  buffers that the hardware has written completely. `log` records what `litepcie_read` does with
  each buffer (`RxRec`), `tested` the last `writer_hw_count` that it read; no access reads these
  two.
- **World** (`rxWorld D`): buffer `k` has the contents `D k`.
- **Invariant** (`RxInv`): the slots hold the last 255 complete buffers,
  `0 ≤ writer_sw_count ≤ writer_hw_count ≤ done`, the records have the numbers `0, 1, 2, …` up to
  `writer_sw_count`, and each copy has the contents of its number.
-/

namespace Xtrx
namespace Kernel

open Conc Ring

/-- What happened to buffer `num`: copied to the user address `dst`, or counted as an overflow.
`block` is the contents that were copied, `none` if the slot index was outside the array. -/
inductive RxRec (β : Type) where
  | copied (dst : Nat) (num : Int) (block : Option β)
  | lost (dst : Nat) (num : Int)
  deriving DecidableEq

def RxRec.num {β : Type} : RxRec β → Int
  | .copied _ k _ => k
  | .lost _ k => k

/-- The RX side of one channel (module doc). -/
structure RxRing (β : Type) where
  chan : DmaDir
  mem : Fin dmaBufferCount → β
  done : Nat
  tested : Int
  log : List (RxRec β)

/-- A step of the hardware, or an interrupt. -/
inductive RxHw (β : Type) where
  /-- The buffer in progress changes to any contents. -/
  | progress (x : β)
  /-- The buffer in progress is complete. -/
  | complete
  | interrupt
  deriving DecidableEq

namespace RxRing

variable {β : Type}

/-- `writer_addr[idx]`. -/
def block? (s : RxRing β) (idx : Int) : Option β :=
  if h : 0 ≤ idx ∧ idx < dmaBufferCount then
    some (s.mem ⟨idx.toNat, by omega⟩)
  else none

/-- The writer direction after an interrupt that reads the count `hw`. -/
def setHw (s : RxRing β) (hw : Int) : RxRing β :=
  { s with chan := { s.chan with hwCount := hw, hwCountLast := hw } }

def setSw (s : RxRing β) (v : Int) : RxRing β := { s with chan := s.chan.setSwCount v }

def record (s : RxRing β) (r : RxRec β) : RxRing β := { s with log := s.log ++ [r] }

/-- The ring at the start of an activation of channel `i`. -/
def start {n : Nat} (dev : LitepcieDevice n) (i : Fin n) (mem : Fin dmaBufferCount → β) :
    RxRing β where
  chan := (dev.litepcieDmaWriterStart i).dir i .writer
  mem := mem
  done := 0
  tested := 0
  log := []

/-- A step of the environment. -/
def hw (D : Nat → β) : RxHw β → RxRing β → RxRing β
  | .progress x, s => { s with mem := Function.update s.mem (slot dmaBufferCount s.done) x }
  | .complete, s =>
    { s with mem := Function.update s.mem (slot dmaBufferCount s.done) (D s.done)
             done := s.done + 1 }
  | .interrupt, s => s.setHw s.done

end RxRing

open RxRing

variable {β : Type}

/-- The accesses of `litepcie_read` to the ring. A wait returns when its condition holds, or by a
signal (`o`). -/
def rxCall : (q : ChanReq) → (o : Bool) → RxRing β → Option (q.Ans × RxRing β)
  | .enter _, _, s => some ((), s)
  | .waitEvent .writer cond, o, s =>
    if o then some (-eRestartSys, s)
    else if cond s.chan.hwCount s.chan.swCount then some ((0 : Int), s) else none
  | .hwCount .writer, _, s => some (s.chan.hwCount, { s with tested := s.chan.hwCount })
  | .swCount .writer, _, s => some (s.chan.swCount, s)
  | .setSwCount .writer v, _, s => some ((), s.setSw v)
  | .copyToUser dst idx, _, s =>
    some ((0 : Nat), s.record (.copied dst s.chan.swCount (s.block? idx)))
  | .countLost .writer dst, _, s => some ((), s.record (.lost dst s.chan.swCount))
  | .devErr _ _, _, s => some ((), s)
  | _, _, _ => none

/-- The ring as a world: the stream has the contents `D`. -/
def rxWorld (D : Nat → β) : World ChanReq ChanReq.Ans (RxRing β) (RxHw β) Bool where
  env e s := some (s.hw D e)
  call := rxCall

/-- A call of `litepcie_read`: `O_NONBLOCK`, the user buffer and its size. -/
structure ReadCall where
  nonblock : Bool
  data : Nat
  size : Nat

/-- A client that makes the calls one after the other. -/
def readClient (calls : List ReadCall) : ChanProg Int :=
  calls.foldlM (fun _ c => litepcieRead c.nonblock c.data c.size) 0

/-- The runs of one client and the ring. -/
abbrev rxMachine (D : Nat → β) : Machine (ChanProg Int × RxRing β) (Ev (RxHw β) Bool) :=
  (rxWorld D).machine Int

/-- At every copy the hardware is less than 128 buffers ahead of the count `hw`. -/
def CopyWithin (hw : RxRing β → Int) (s : RxRing β) : ChanReq → Prop
  | .copyToUser _ _ => (s.done : Int) < hw s + (dmaBufferCount / 2 : Nat)
  | _ => True

/-- `CopyWithin` for the copies of a run. -/
abbrev CopiesWithin (hw : RxRing β → Int) :
    ChanProg Int × RxRing β → Ev (RxHw β) Bool → Prop :=
  World.Meets (fun _ _ => True) (CopyWithin hw)

instance (hw : RxRing β → Int) (s : RxRing β) (q : ChanReq) : Decidable (CopyWithin hw s q) := by
  unfold CopyWithin
  split <;> infer_instance

/-! ## The invariant -/

/-- The invariant of the ring (module doc). After a record and before the increment of
`writer_sw_count`, `p` is 1; else it is 0. -/
structure RxInv (D : Nat → β) (p : Nat) (s : RxRing β) : Prop where
  window : Window s.mem D (s.done + 1 - dmaBufferCount) s.done
  hw_le : s.chan.hwCount ≤ s.done
  sw_nonneg : 0 ≤ s.chan.swCount
  sw_le : s.chan.swCount + p ≤ s.chan.hwCount
  numbered : Numbered RxRec.num s.log
  length : (s.log.length : Int) = s.chan.swCount + p
  copied : ∀ dst k b, RxRec.copied dst k b ∈ s.log → b = some (D k.toNat)

/-- What the environment may change: the slots, `done`, and `writer_hw_count` upwards. -/
structure RxMoves (s s' : RxRing β) : Prop where
  sw : s'.chan.swCount = s.chan.swCount
  hw : s.chan.hwCount ≤ s'.chan.hwCount
  tested : s'.tested = s.tested
  log : s'.log = s.log

variable {D : Nat → β} {p : Nat} {s s' : RxRing β}

theorem RxMoves.refl (s : RxRing β) : RxMoves s s := ⟨rfl, le_refl _, rfl, rfl⟩

theorem RxMoves.trans {s'' : RxRing β} (h : RxMoves s s') (h' : RxMoves s' s'') :
    RxMoves s s'' :=
  ⟨h'.sw.trans h.sw, le_trans h.hw h'.hw, h'.tested.trans h.tested, h'.log.trans h.log⟩

theorem RxMoves.lt (h : RxMoves s s') (hlt : s.chan.swCount < s.chan.hwCount) :
    s'.chan.swCount < s'.chan.hwCount := by
  rw [h.sw]
  exact lt_of_lt_of_le hlt h.hw

theorem RxInv.setTested {v : Int} (h : RxInv D p s) : RxInv D p { s with tested := v } := { h with }

theorem RxInv.start {n : Nat} (dev : LitepcieDevice n) (i : Fin n)
    (mem : Fin dmaBufferCount → β) : RxInv D 0 (RxRing.start dev i mem) := by
  have hc : (RxRing.start dev i mem).chan = (dev.dir i .writer).clearCounters := by
    show (LitepcieDevice.dmaStart .writer dev i).dir i .writer = _
    rw [LitepcieDevice.dir_dmaStart, if_pos ⟨rfl, rfl⟩]
  constructor
  · exact (Window.empty mem D 0).mono (Nat.zero_le _)
  · rw [hc]; exact le_refl 0
  · rw [hc]; exact le_refl 0
  · rw [hc]; exact le_refl 0
  · exact Numbered.nil
  · rw [hc]; rfl
  · intro dst k b hb
    cases hb

/-- A step of the hardware or an interrupt keeps the invariant. -/
theorem RxInv.hw (h : RxInv D p s) (e : RxHw β) : RxInv D p (s.hw D e) ∧ RxMoves s (s.hw D e) := by
  obtain ⟨hwin, hhw, h0, hsw, hnum, hlen, hcop⟩ := h
  cases e with
  | progress x =>
    have hlt : s.done < s.done + 1 - dmaBufferCount + dmaBufferCount := by
      unfold dmaBufferCount; omega
    exact ⟨⟨hwin.scribble hlt x, hhw, h0, hsw, hnum, hlen, hcop⟩, ⟨rfl, le_refl _, rfl, rfl⟩⟩
  | complete =>
    have hlo : s.done + 1 - dmaBufferCount ≤ s.done + 1 + 1 - dmaBufferCount := by omega
    have hlt : s.done < s.done + 1 + 1 - dmaBufferCount + dmaBufferCount := by
      unfold dmaBufferCount; omega
    refine ⟨⟨hwin.write hlo hlt, ?_, h0, hsw, hnum, hlen, hcop⟩, ⟨rfl, le_refl _, rfl, rfl⟩⟩
    show s.chan.hwCount ≤ ((s.done + 1 : Nat) : Int)
    omega
  | interrupt =>
    refine ⟨⟨hwin, le_refl _, h0, ?_, hnum, hlen, hcop⟩, ⟨rfl, hhw, rfl, rfl⟩⟩
    show s.chan.swCount + p ≤ (s.done : Int)
    omega

/-- The slot of a buffer that is not more than 255 buffers old holds its contents. -/
theorem RxInv.block (h : RxInv D p s) (hlo : (s.done : Int) < s.chan.swCount + dmaBufferCount)
    (hhi : s.chan.swCount < s.done) :
    s.block? (s.chan.swCount.tmod dmaBufferCount) = some (D s.chan.swCount.toNat) := by
  obtain ⟨k, hk⟩ : ∃ k : Nat, s.chan.swCount = k := Int.eq_ofNat_of_zero_le h.sw_nonneg
  rw [hk] at hlo hhi ⊢
  have hm : (k : Int).tmod dmaBufferCount = ((k % dmaBufferCount : Nat) : Int) := rfl
  have hlt : k % dmaBufferCount < dmaBufferCount := Nat.mod_lt _ (by decide)
  have hin : (0 : Int) ≤ (k % dmaBufferCount : Nat) ∧
      ((k % dmaBufferCount : Nat) : Int) < dmaBufferCount := by omega
  rw [hm, block?, dif_pos hin]
  congr 1
  exact h.window k (by omega) (by omega)

/-- A record of the next buffer. -/
theorem RxInv.record {r : RxRec β} (h : RxInv D 0 s) (hlt : s.chan.swCount < s.chan.hwCount)
    (hr : r.num = s.chan.swCount) (hc : ∀ dst k b, r = .copied dst k b → b = some (D k.toNat)) :
    RxInv D 1 (s.record r) := by
  obtain ⟨hwin, hhw, h0, hsw, hnum, hlen, hcop⟩ := h
  constructor
  · exact hwin
  · exact hhw
  · exact h0
  · show s.chan.swCount + (1 : Nat) ≤ s.chan.hwCount
    omega
  · exact hnum.snoc (by rw [hr, hlen]; simp)
  · show ((s.log ++ [r]).length : Int) = s.chan.swCount + (1 : Nat)
    rw [List.length_append, List.length_singleton]
    omega
  · intro dst k b hb
    rcases List.mem_append.mp hb with hb | hb
    · exact hcop dst k b hb
    · exact hc dst k b (List.mem_singleton.mp hb).symm

/-- The increment of `writer_sw_count` after a record. -/
theorem RxInv.setSw (h : RxInv D 1 s) : RxInv D 0 (s.setSw (s.chan.swCount + 1)) := by
  obtain ⟨hwin, hhw, h0, hsw, hnum, hlen, hcop⟩ := h
  constructor
  · exact hwin
  · exact hhw
  · show 0 ≤ s.chan.swCount + 1
    omega
  · show s.chan.swCount + 1 + (0 : Nat) ≤ s.chan.hwCount
    omega
  · exact hnum
  · show (s.log.length : Int) = s.chan.swCount + 1 + (0 : Nat)
    omega
  · exact hcop

/-! ## The calls -/

/-- The runs in which the copies meet `CopyWithin`. -/
noncomputable abbrev rxGuarded (D : Nat → β) :
    World ChanReq ChanReq.Ans (RxRing β) (RxHw β) Bool :=
  (rxWorld D).guard (fun _ _ => True) (CopyWithin RxRing.tested)

theorem rxStable (D : Nat → β) (p : Nat) : (rxGuarded D).Stable (RxInv D p) RxMoves where
  refl := RxMoves.refl
  trans _ _ _ h h' := h.trans h'
  step s e s' hs he := by
    obtain ⟨-, he⟩ := World.guard_env.mp he
    cases he
    exact hs.hw e

/-- The weakest precondition for the ring: the invariant in every state, and between two records
at the end. -/
abbrev RxWP (D : Nat → β) (pr : ChanProg Int) (s : RxRing β) : Prop :=
  (rxGuarded D).WP (fun s => ∃ p, p ≤ 1 ∧ RxInv D p s) (fun _ _ => True) (fun _ s => RxInv D 0 s) pr s

theorem RxWP.call {q : ChanReq} {k : q.Ans → ChanProg Int} (hp : p ≤ 1) (hs : RxInv D p s)
    (hk : ∀ s₁ o r s₂, RxInv D p s₁ → RxMoves s s₁ → CopyWithin RxRing.tested s₁ q →
      rxCall q o s₁ = some (r, s₂) → RxWP D (k r) s₂) : RxWP D (.call q k) s := by
  refine (rxStable D p).call (fun s h => ⟨p, hp, h⟩) hs ?_
  intro s₁ o r s₂ h₁ hT hc
  obtain ⟨hcc, hc⟩ := World.guard_call.mp hc
  exact ⟨trivial, hk s₁ o r s₂ h₁ hT hcc hc⟩

theorem RxWP.ret {a : Int} (hs : RxInv D 0 s) : RxWP D (.ret a) s :=
  (rxStable D 0).ret (fun s h => ⟨0, by omega, h⟩) hs fun _ h _ => h

theorem RxWP.hwCount {k : Int → ChanProg Int} (hs : RxInv D 0 s)
    (hk : ∀ s₁ : RxRing β, RxInv D 0 s₁ → RxMoves s s₁ →
      RxWP D (k s₁.chan.hwCount) { s₁ with tested := s₁.chan.hwCount }) :
    RxWP D (ChanProg.hwCount .writer >>= k) s := by
  refine RxWP.call (by omega) hs ?_
  intro s₁ o r s₂ h₁ hT _ hc
  cases hc
  exact hk s₁ h₁ hT

theorem RxWP.swCount {k : Int → ChanProg Int} (hp : p ≤ 1) (hs : RxInv D p s)
    (hk : ∀ s₁ : RxRing β, RxInv D p s₁ → RxMoves s s₁ → RxWP D (k s₁.chan.swCount) s₁) :
    RxWP D (ChanProg.swCount .writer >>= k) s := by
  refine RxWP.call hp hs ?_
  intro s₁ o r s₂ h₁ hT _ hc
  cases hc
  exact hk s₁ h₁ hT

/-- `overflows++`. -/
theorem RxWP.countLost {dst : Nat} {k : Unit → ChanProg Int} (hs : RxInv D 0 s)
    (hlt : s.chan.swCount < s.chan.hwCount) (hk : ∀ s₁ : RxRing β, RxInv D 1 s₁ → RxWP D (k ()) s₁) :
    RxWP D (ChanProg.countLost .writer dst >>= k) s := by
  refine RxWP.call (by omega) hs ?_
  intro s₁ o r s₂ h₁ hT _ hc
  cases hc
  refine hk _ (h₁.record (hT.lt hlt) rfl ?_)
  intro dst k b hb
  cases hb

/-- A copy of a buffer that is less than half a ring behind the count that the test read. -/
theorem RxWP.copyToUser {dst : Nat} {k : Nat → ChanProg Int} (hs : RxInv D 0 s)
    (hlt : s.chan.swCount < s.chan.hwCount)
    (hhalf : s.tested - s.chan.swCount ≤ (dmaBufferCount / 2 : Nat))
    (hk : ∀ s₁ : RxRing β, RxInv D 1 s₁ → RxWP D (k 0) s₁) :
    RxWP D (ChanProg.copyToUser dst (s.chan.swCount.tmod dmaBufferCount) >>= k) s := by
  refine RxWP.call (by omega) hs ?_
  intro s₁ o r s₂ h₁ hT hwithin hc
  cases hc
  have hlt₁ := hT.lt hlt
  have hdone : (s₁.done : Int) < s₁.chan.swCount + dmaBufferCount := by
    have hw : (s₁.done : Int) < s₁.tested + (dmaBufferCount / 2 : Nat) := hwithin
    rw [hT.tested] at hw
    rw [hT.sw]
    unfold dmaBufferCount at *
    omega
  refine hk _ (h₁.record hlt₁ rfl ?_)
  intro dst k b hb
  cases hb
  rw [← hT.sw]
  exact h₁.block hdone (lt_of_lt_of_le hlt₁ h₁.hw_le)

/-- `writer_sw_count += 1` after a record. -/
theorem RxWP.incr {k : Unit → ChanProg Int} (hs : RxInv D 1 s)
    (hk : ∀ s₁ : RxRing β, RxInv D 0 s₁ → RxWP D (k ()) s₁) :
    RxWP D (ChanProg.swCount .writer >>= fun sw => ChanProg.setSwCount .writer (sw + 1) >>= k) s := by
  refine RxWP.swCount (le_refl 1) hs ?_
  intro s₁ h₁ _
  refine RxWP.call (le_refl 1) h₁ ?_
  intro s₂ o r s₃ h₂ hT _ hc
  cases hc
  rw [← hT.sw]
  exact hk _ h₂.setSw

/-! ## `litepcie_read` -/

theorem readEnd_rx {size len overflows : Nat} (hs : RxInv D 0 s) :
    RxWP D (readEnd size len overflows) s := by
  unfold readEnd
  split
  · refine RxWP.call (by omega) hs ?_
    intro s₁ o r s₂ h₁ _ _ hc
    cases hc
    exact RxWP.ret h₁
  · exact RxWP.ret hs

theorem readLoop_rx (data size left : Nat) {len i overflows : Nat} (hs : RxInv D 0 s) :
    RxWP D (readLoop data size left len i overflows) s := by
  induction left generalizing len i overflows s with
  | zero => exact readEnd_rx hs
  | succ left ih =>
    rw [readLoop]
    refine RxWP.hwCount hs fun s₁ h₁ _ => ?_
    refine RxWP.swCount (by omega) h₁.setTested fun s₂ h₂ hT₂ => ?_
    split
    case isFalse => exact readEnd_rx h₂
    case isTrue hpos =>
    -- a complete buffer is there, and stays there
    have hlt₂ : s₂.chan.swCount < s₂.chan.hwCount := by
      have : s₁.chan.hwCount ≤ s₂.chan.hwCount := hT₂.hw
      omega
    refine RxWP.hwCount h₂ fun s₃ h₃ hT₃ => ?_
    have hlt₃ := hT₃.lt hlt₂
    refine RxWP.swCount (by omega) h₃.setTested fun s₄ h₄ hT₄ => ?_
    have hlt₄ : s₄.chan.swCount < s₄.chan.hwCount := hT₄.lt hlt₃
    split
    case isTrue =>
      exact RxWP.countLost h₄ hlt₄ fun s₅ h₅ => RxWP.incr h₅ fun s₆ h₆ => ih h₆
    case isFalse hhalf =>
      refine RxWP.swCount (by omega) h₄ fun s₅ h₅ hT₅ => ?_
      have htested : s₅.tested = s₃.chan.hwCount := by rw [hT₅.tested, hT₄.tested]
      have hhalf₅ : s₅.tested - s₅.chan.swCount ≤ (dmaBufferCount / 2 : Nat) := by
        rw [htested, hT₅.sw]
        omega
      refine RxWP.copyToUser h₅ (hT₅.lt hlt₄) hhalf₅ fun s₆ h₆ => ?_
      exact RxWP.incr h₆ fun s₇ h₇ => ih h₇

theorem litepcieRead_rx (nonblock : Bool) (data size : Nat) (hs : RxInv D 0 s) :
    RxWP D (litepcieRead nonblock data size) s := by
  unfold litepcieRead
  refine RxWP.call (by omega) hs ?_
  intro s₁ o r s₂ h₁ _ _ hc
  cases hc
  have hrest : ∀ (ret : Int) (s : RxRing β), RxInv D 0 s → RxWP D
      (if ret < 0 then pure ret else readLoop data size (size / dmaBufferSize) size 0 0) s := by
    intro ret s hs
    split
    · exact RxWP.ret hs
    · exact readLoop_rx data size _ hs
  cases nonblock with
  | true =>
    refine RxWP.hwCount h₁ fun s₃ h₃ _ => ?_
    refine RxWP.swCount (by omega) h₃.setTested fun s₄ h₄ _ => ?_
    exact hrest _ s₄ h₄
  | false =>
    refine RxWP.call (by omega) h₁ ?_
    intro s₃ o r s₄ h₃ _ _ hc
    have h₄ : RxInv D 0 s₄ := by
      simp only [rxCall] at hc
      split at hc
      · cases hc; exact h₃
      · split at hc
        · cases hc; exact h₃
        · cases hc
    exact hrest r s₄ h₄

theorem readClient_rx (calls : List ReadCall) (hs : RxInv D 0 s) : RxWP D (readClient calls) s :=
  World.WP.foldlM (J := fun _ s => RxInv D 0 s) (fun _ _ h => RxWP.ret h)
    (fun _ c _ h => litepcieRead_rx c.nonblock c.data c.size h) calls hs

/-- The invariant after any run of an activation in which the hardware is, at every copy, less
than half a ring ahead of the count that the half-ring test before the copy read. -/
theorem rxInv_run {n : Nat} {dev : LitepcieDevice n} {i : Fin n} {mem : Fin dmaBufferCount → β}
    {calls : List ReadCall} {es : List (Ev (RxHw β) Bool)} {c : ChanProg Int × RxRing β}
    (hw : (rxMachine D).Along (CopiesWithin RxRing.tested) es (readClient calls, start dev i mem))
    (hr : (rxMachine D).run es (readClient calls, start dev i mem) = some c) :
    ∃ p, p ≤ 1 ∧ RxInv D p c.2 :=
  (World.WP.run_along (c := (readClient calls, start dev i mem))
    (readClient_rx calls (RxInv.start dev i mem)) hw hr).inv

/-! ## The safety of the ring -/

/-- In every run of an activation in which the hardware is, at every copy, less than half a ring
ahead of the count that the half-ring test read: a block that `litepcie_read` copies has the
contents of the buffer that `writer_sw_count` numbers at the copy, the numbers increase, and each
number below `writer_sw_count` was copied or counted once. -/
theorem litepcieRead_ring_safe {n : Nat} (D : Nat → β) (dev : LitepcieDevice n) (i : Fin n)
    (mem : Fin dmaBufferCount → β) (calls : List ReadCall) (es : List (Ev (RxHw β) Bool))
    (c : ChanProg Int × RxRing β)
    (hw : (rxMachine D).Along (CopiesWithin RxRing.tested) es (readClient calls, start dev i mem))
    (hr : (rxMachine D).run es (readClient calls, start dev i mem) = some c) :
    (∀ dst k b, RxRec.copied dst k b ∈ c.2.log → ∃ m : Nat, k = m ∧ b = some (D m)) ∧
      (c.2.log.map RxRec.num).Pairwise (· < ·) ∧
      ∀ k : Nat, (k : Int) < c.2.chan.swCount → (c.2.log.map RxRec.num).count (k : Int) = 1 := by
  obtain ⟨p, -, h⟩ := rxInv_run hw hr
  refine ⟨fun dst k b hb => ?_, h.numbered.increasing, fun k hk => ?_⟩
  · obtain ⟨m, -, hm⟩ := h.numbered.mem_iff hb
    have hk : k = m := hm
    refine ⟨m, hk, ?_⟩
    rw [h.copied dst k b hb, hk, Int.toNat_natCast]
  · have hlen := h.length
    exact h.numbered.count_eq_one (by omega)

/-- The board of the examples: one channel, probed. -/
def oneChannel : LitepcieDevice 1 := LitepcieDevice.probed fun _ => 0

/-- Three calls: one block, 259 blocks, and one block without waiting. -/
def threeReads : List ReadCall :=
  [⟨false, 0, dmaBufferSize⟩, ⟨false, 65536, 259 * dmaBufferSize⟩, ⟨true, 0, dmaBufferSize⟩]

/-- Between the first call and the second one 385 buffers complete: this is more than a lap, and the
second call is late. -/
def lapped : List (Ev (RxHw Nat) Bool) :=
  [.env .complete, .env .interrupt] ++ List.replicate 10 (.thr false) ++
    List.replicate 385 (.env .complete) ++ [.env .interrupt] ++ List.replicate 1829 (.thr false)

/-- 257 blocks are lost, and the slots 2 to 4 are read in their second lap. -/
theorem litepcieRead_ring_safe_lapped :
    ∃ c, (rxMachine id).run lapped
        (readClient threeReads, start oneChannel 0 fun _ => 7) = some c ∧
      c.2.log.length = 261 ∧
      c.2.log.filter (fun r => r matches .copied ..) =
        [.copied 0 0 (some 0), .copied 16908288 258 (some 258), .copied 16973824 259 (some 259),
          .copied 0 260 (some 260)] ∧
      (∀ dst k b, RxRec.copied dst k b ∈ c.2.log → ∃ m : Nat, k = m ∧ b = some (id m)) ∧
      (c.2.log.map RxRec.num).Pairwise (· < ·) ∧
      ∀ k : Nat, (k : Int) < c.2.chan.swCount → (c.2.log.map RxRec.num).count (k : Int) = 1 := by
  have hlog : ((rxMachine id).run lapped (readClient threeReads,
      start oneChannel 0 fun _ => 7)).map
        (fun c => (c.2.log.length, c.2.log.filter fun r => r matches .copied ..)) =
      some (261, [.copied 0 0 (some 0), .copied 16908288 258 (some 258),
        .copied 16973824 259 (some 259), .copied 0 260 (some 260)]) := by
    decide +kernel
  obtain ⟨c, hc, hl⟩ := Option.map_eq_some_iff.mp hlog
  obtain ⟨hlength, hcopied⟩ := Prod.mk.inj hl
  exact ⟨c, hc, hlength, hcopied,
    litepcieRead_ring_safe id oneChannel 0 _ _ lapped c (by decide +kernel) hc⟩

/-- 128 buffers are complete when `litepcie_read` tests the counts; before its copy 172 more
complete, and an interrupt comes after 100 of them. -/
def overtaken : List (Ev (RxHw Nat) Bool) :=
  List.replicate 128 (.env .complete) ++ [.env .interrupt] ++ List.replicate 7 (.thr false) ++
    List.replicate 100 (.env .complete) ++ [.env .interrupt] ++
    List.replicate 72 (.env .complete) ++ [.thr false]

/-- The count at the copy is not enough: an interrupt after the half-ring test brings
`writer_hw_count` up to date, and the copy of buffer 0 gets the contents of buffer 256. -/
theorem litepcieRead_overtaken :
    ¬ ∀ (es : List (Ev (RxHw Nat) Bool)) (c : ChanProg Int × RxRing Nat),
      (rxMachine id).Along (CopiesWithin fun s => s.chan.hwCount) es
        (readClient [⟨false, 0, dmaBufferSize⟩], start oneChannel 0 fun _ => 7) →
      (rxMachine id).run es
        (readClient [⟨false, 0, dmaBufferSize⟩], start oneChannel 0 fun _ => 7) = some c →
      ∀ dst k b, RxRec.copied dst k b ∈ c.2.log → b = some k.toNat := by
  intro h
  have hlog : ((rxMachine id).run overtaken (readClient [⟨false, 0, dmaBufferSize⟩],
      start oneChannel 0 fun _ => 7)).map (fun c => c.2.log) = some [.copied 0 0 (some 256)] := by
    decide +kernel
  obtain ⟨c, hc, hl⟩ := Option.map_eq_some_iff.mp hlog
  have := h overtaken c (by decide +kernel) hc 0 0 (some 256) (by rw [hl]; simp)
  exact absurd this (by decide)

end Kernel
end Xtrx
