import Mathlib.Data.List.Basic
import Xtrx.Lib.Ring
import Xtrx.Kernel.Transfer

/-!
# The TX ring under `litepcie_write`

One activation of the reader engine: interrupts move `reader_hw_count` upwards, and a client calls
`litepcie_write`, one call after the other. Interrupts and changes of the user's memory come
between any two accesses of a call.

- **State** (`TxRing`): the channel's reader direction, the 256 slots, the user's memory by blocks.
  `log` records the calls and what `litepcie_write` does with each block (`TxRec`); no access reads
  it.
- **World** (`txWorld`): an interrupt adds any number to `reader_hw_count`.
- **Invariant** (`TxInv`): `0 ≤ reader_sw_count ≤ reader_hw_count + 128`, the block records have
  the numbers `0, 1, 2, …` up to `reader_sw_count`, each call takes its blocks in order
  (`InOrder`), and a stored block stays in its slot until `reader_hw_count` has passed its number.
-/

namespace Xtrx
namespace Kernel

open Conc Ring

/-- A call of `litepcie_write` with the user buffer `data`; the block at `src` was stored in slot
`idx` or counted as an underflow, as number `num`. -/
inductive TxRec (β : Type) where
  | call (data : Nat)
  | stored (num idx : Int) (src : Nat) (block : β)
  | lost (num : Int) (src : Nat)
  deriving DecidableEq

/-- The number of a block record. -/
def TxRec.num? {β : Type} : TxRec β → Option Int
  | .call _ => none
  | .stored k _ _ _ => some k
  | .lost k _ => some k

/-- The address of the block after the record, in its call; `next` is the one before it. -/
def TxRec.after {β : Type} (next : Nat) : TxRec β → Nat
  | .call data => data
  | .stored .. | .lost .. => next + dmaBufferSize

/-- The records of a call are about the blocks at `data`, `data + 65536`, and so on; `next` is the
address for the first one. -/
def InOrder {β : Type} : (next : Nat) → List (TxRec β) → Prop
  | _, [] => True
  | next, r :: l =>
    (match r with
      | .call _ => True
      | .stored _ _ src _ => src = next
      | .lost _ src => src = next) ∧ InOrder (r.after next) l

/-- The numbers of the block records. -/
def numbers {β : Type} (log : List (TxRec β)) : List Int := log.filterMap TxRec.num?

/-- The address of the next block of the current call. -/
def nextSrc {β : Type} (log : List (TxRec β)) : Nat := log.foldl TxRec.after 0

/-- The TX side of one channel (module doc). -/
structure TxRing (β : Type) where
  chan : DmaDir
  mem : Fin dmaBufferCount → β
  user : Nat → β
  log : List (TxRec β)

/-- An interrupt that adds `n` to the hardware count, or a change of the user's memory. -/
inductive TxHw (β : Type) where
  | interrupt (n : Nat)
  | userStore (addr : Nat) (x : β)
  deriving DecidableEq

namespace TxRing

variable {β : Type}

/-- `copy_from_user` to `reader_addr[idx]`. -/
def store (s : TxRing β) (idx : Int) (src : Nat) : TxRing β :=
  { s with
    mem := fun j => if (j.val : Int) = idx then s.user src else s.mem j
    log := s.log ++ [.stored s.chan.swCount idx src (s.user src)] }

def setSw (s : TxRing β) (v : Int) : TxRing β := { s with chan := s.chan.setSwCount v }

def record (s : TxRing β) (r : TxRec β) : TxRing β := { s with log := s.log ++ [r] }

/-- The ring at the start of an activation of channel `i`. -/
def start {n : Nat} (dev : LitepcieDevice n) (i : Fin n) (mem : Fin dmaBufferCount → β)
    (user : Nat → β) : TxRing β where
  chan := (dev.litepcieDmaReaderStart i).dir i .reader
  mem := mem
  user := user
  log := []

/-- A step of the environment. -/
def hw : TxHw β → TxRing β → TxRing β
  | .interrupt n, s =>
    { s with chan := { s.chan with hwCount := s.chan.hwCount + n
                                   hwCountLast := s.chan.hwCount + n } }
  | .userStore a x, s => { s with user := Function.update s.user a x }

end TxRing

open TxRing

variable {β : Type}

/-- The accesses of `litepcie_write` to the ring. A wait returns when its condition holds, or by a
signal (`o`). -/
def txCall : (q : ChanReq) → (o : Bool) → TxRing β → Option (q.Ans × TxRing β)
  | .enter data, _, s => some ((), s.record (.call data))
  | .waitEvent .reader cond, o, s =>
    if o then some (-eRestartSys, s)
    else if cond s.chan.hwCount s.chan.swCount then some ((0 : Int), s) else none
  | .hwCount .reader, _, s => some (s.chan.hwCount, s)
  | .swCount .reader, _, s => some (s.chan.swCount, s)
  | .setSwCount .reader v, _, s => some ((), s.setSw v)
  | .copyFromUser idx src, _, s => some ((0 : Nat), s.store idx src)
  | .countLost .reader src, _, s => some ((), s.record (.lost s.chan.swCount src))
  | .devErr _ _, _, s => some ((), s)
  | _, _, _ => none

/-- The ring as a world. -/
def txWorld : World ChanReq ChanReq.Ans (TxRing β) (TxHw β) Bool where
  env e s := some (s.hw e)
  call := txCall

/-- A call of `litepcie_write`: `O_NONBLOCK`, the user buffer and its size. -/
structure WriteCall where
  nonblock : Bool
  data : Nat
  size : Nat

/-- A client that makes the calls one after the other; the kernel passes at most `MAX_RW_COUNT`
bytes on. -/
def writeClient (calls : List WriteCall) : ChanProg Int :=
  calls.foldlM (fun _ c => litepcieWrite c.nonblock c.data (min c.size maxRwCount)) 0

/-- The runs of one client and the ring. -/
abbrev txMachine : Machine (ChanProg Int × TxRing β) (Ev (TxHw β) Bool) := txWorld.machine Int

/-! ## Records -/

theorem inOrder_append {l l' : List (TxRec β)} {next : Nat} :
    InOrder next (l ++ l') ↔ InOrder next l ∧ InOrder (l.foldl TxRec.after next) l' := by
  induction l generalizing next with
  | nil => simp [InOrder]
  | cons r l ih => simp only [List.cons_append, InOrder, ih, List.foldl_cons, and_assoc]

theorem InOrder.snoc {log : List (TxRec β)} {r : TxRec β} (h : InOrder 0 log)
    (hr : InOrder (nextSrc log) [r]) : InOrder 0 (log ++ [r]) :=
  inOrder_append.mpr ⟨h, hr⟩

theorem nextSrc_snoc {log : List (TxRec β)} {r : TxRec β} :
    nextSrc (log ++ [r]) = r.after (nextSrc log) := by
  unfold nextSrc
  rw [List.foldl_append, List.foldl_cons, List.foldl_nil]

theorem numbers_snoc {log : List (TxRec β)} {r : TxRec β} :
    numbers (log ++ [r]) = numbers log ++ r.num?.toList := by
  unfold numbers
  rw [List.filterMap_append]
  cases h : r.num? <;> simp [h]

/-! ## The invariant -/

/-- The invariant of the ring (module doc). After a record and before the increment of
`reader_sw_count`, `p` is 1; else it is 0. -/
structure TxInv (p : Nat) (s : TxRing β) : Prop where
  sw_nonneg : 0 ≤ s.chan.swCount
  sw_le : s.chan.swCount + p ≤ s.chan.hwCount + (dmaBufferCount / 2 : Nat)
  numbered : Numbered id (numbers s.log)
  length : ((numbers s.log).length : Int) = s.chan.swCount + p
  inOrder : InOrder 0 s.log
  stored : ∀ k idx src b, TxRec.stored k idx src b ∈ s.log → idx = k % dmaBufferCount
  held : ∀ k idx src b, TxRec.stored k idx src b ∈ s.log → s.chan.hwCount ≤ k →
    s.mem (slot dmaBufferCount k.toNat) = b

/-- What the environment may change: the user's memory, and `reader_hw_count` upwards. -/
structure TxMoves (s s' : TxRing β) : Prop where
  sw : s'.chan.swCount = s.chan.swCount
  hw : s.chan.hwCount ≤ s'.chan.hwCount
  log : s'.log = s.log

variable {p : Nat} {s s' : TxRing β}

theorem TxMoves.refl (s : TxRing β) : TxMoves s s := ⟨rfl, le_refl _, rfl⟩

theorem TxMoves.trans {s'' : TxRing β} (h : TxMoves s s') (h' : TxMoves s' s'') :
    TxMoves s s'' :=
  ⟨h'.sw.trans h.sw, le_trans h.hw h'.hw, h'.log.trans h.log⟩

theorem TxInv.start {n : Nat} (dev : LitepcieDevice n) (i : Fin n)
    (mem : Fin dmaBufferCount → β) (user : Nat → β) : TxInv 0 (TxRing.start dev i mem user) := by
  have hc : (TxRing.start dev i mem user).chan = (dev.dir i .reader).clearCounters := by
    show (LitepcieDevice.dmaStart .reader dev i).dir i .reader = _
    rw [LitepcieDevice.dir_dmaStart, if_pos ⟨rfl, rfl⟩]
  constructor
  · rw [hc]; exact le_refl 0
  · rw [hc]
    show (0 : Int) + (0 : Nat) ≤ 0 + (dmaBufferCount / 2 : Nat)
    decide
  · exact Numbered.nil
  · rw [hc]; rfl
  · trivial
  · intro k idx src b hb
    cases hb
  · intro k idx src b hb
    cases hb

/-- An interrupt or a change of the user's memory keeps the invariant. -/
theorem TxInv.hw (h : TxInv p s) (e : TxHw β) : TxInv p (s.hw e) ∧ TxMoves s (s.hw e) := by
  cases e with
  | interrupt n =>
    have hle : s.chan.hwCount ≤ s.chan.hwCount + n := by omega
    refine ⟨{ h with sw_le := ?_, held := ?_ }, ⟨rfl, hle, rfl⟩⟩
    · have := h.sw_le
      show s.chan.swCount + p ≤ s.chan.hwCount + n + (dmaBufferCount / 2 : Nat)
      omega
    · exact fun k idx src b hb hk => h.held k idx src b hb (le_trans hle hk)
  | userStore a x => exact ⟨{ h with }, ⟨rfl, le_refl _, rfl⟩⟩

/-- The mark of a call. -/
theorem TxInv.enter (h : TxInv 0 s) (data : Nat) :
    TxInv 0 (s.record (.call data)) ∧ nextSrc (s.record (.call data)).log = data := by
  have hnum : numbers (s.log ++ [.call data]) = numbers s.log := by
    rw [numbers_snoc]
    exact List.append_nil _
  have hmem : ∀ {k idx src b}, TxRec.stored k idx src b ∈ s.log ++ [.call data] →
      TxRec.stored k idx src b ∈ s.log := by
    intro k idx src b hb
    rcases List.mem_append.mp hb with hb | hb
    · exact hb
    · cases List.mem_singleton.mp hb
  refine ⟨{ h with numbered := ?_, length := ?_, inOrder := ?_, stored := ?_, held := ?_ }, ?_⟩
  · show Numbered id (numbers (s.log ++ [.call data]))
    rw [hnum]
    exact h.numbered
  · show ((numbers (s.log ++ [.call data])).length : Int) = _
    rw [hnum]
    exact h.length
  · exact h.inOrder.snoc ⟨trivial, trivial⟩
  · exact fun k idx src b hb => h.stored k idx src b (hmem hb)
  · exact fun k idx src b hb => h.held k idx src b (hmem hb)
  · exact nextSrc_snoc

/-- A record of the next block: the slots that hold blocks which `reader_hw_count` has not passed
stay. -/
theorem TxInv.block {r : TxRec β} {mem : Fin dmaBufferCount → β} (h : TxInv 0 s)
    (hlt : s.chan.swCount < s.chan.hwCount + (dmaBufferCount / 2 : Nat))
    (hnum : r.num? = some s.chan.swCount) (hsrc : InOrder (nextSrc s.log) [r])
    (hmem : ∀ k : Nat, s.chan.hwCount ≤ k → k < s.chan.swCount →
      mem (slot dmaBufferCount k) = s.mem (slot dmaBufferCount k))
    (hnew : ∀ k idx src b, r = .stored k idx src b →
      idx = k % dmaBufferCount ∧ mem (slot dmaBufferCount k.toNat) = b) :
    TxInv 1 { s.record r with mem := mem } := by
  have hn : numbers (s.log ++ [r]) = numbers s.log ++ [s.chan.swCount] := by
    rw [numbers_snoc, hnum]
    rfl
  constructor
  · exact h.sw_nonneg
  · show s.chan.swCount + (1 : Nat) ≤ s.chan.hwCount + (dmaBufferCount / 2 : Nat)
    omega
  · show Numbered id (numbers (s.log ++ [r]))
    rw [hn]
    refine h.numbered.snoc ?_
    rw [h.length]
    simp
  · show ((numbers (s.log ++ [r])).length : Int) = s.chan.swCount + (1 : Nat)
    have hlen := h.length
    rw [hn, List.length_append, List.length_singleton]
    omega
  · exact h.inOrder.snoc hsrc
  · intro k idx src b hb
    rcases List.mem_append.mp hb with hb | hb
    · exact h.stored k idx src b hb
    · exact (hnew k idx src b (List.mem_singleton.mp hb).symm).1
  · intro k idx src b hb hk
    rcases List.mem_append.mp hb with hb | hb
    · -- an older block: its number is below `reader_sw_count`
      have hin : k ∈ numbers s.log := List.mem_filterMap.mpr ⟨_, hb, rfl⟩
      obtain ⟨m, hm, hkm⟩ := h.numbered.mem_iff hin
      have hkm : k = m := hkm
      have hlen := h.length
      rw [← h.held k idx src b hb hk, hkm, Int.toNat_natCast]
      exact hmem m (by rw [← hkm]; exact hk) (by omega)
    · exact (hnew k idx src b (List.mem_singleton.mp hb).symm).2

/-- A copy to the slot of the next number. -/
theorem TxInv.store {src : Nat} (h : TxInv 0 s)
    (hlt : s.chan.swCount < s.chan.hwCount + (dmaBufferCount / 2 : Nat))
    (hsrc : nextSrc s.log = src) : TxInv 1 (s.store (s.chan.swCount.tmod dmaBufferCount) src) := by
  obtain ⟨m, hm⟩ : ∃ m : Nat, s.chan.swCount = m := Int.eq_ofNat_of_zero_le h.sw_nonneg
  have hidx : s.chan.swCount.tmod dmaBufferCount = ((slot dmaBufferCount m).val : Int) := by
    rw [hm]
    rfl
  refine h.block hlt rfl ⟨hsrc.symm, trivial⟩ ?_ ?_
  · intro k hk hks
    have hne : slot dmaBufferCount k ≠ slot dmaBufferCount m := by
      unfold dmaBufferCount at *
      exact slot_ne (by omega) (by omega) (by omega)
    refine if_neg fun he => hne (Fin.ext ?_)
    rw [hidx] at he
    exact Int.ofNat.inj he
  · intro k idx src' b hb
    cases hb
    refine ⟨?_, ?_⟩
    · rw [hm]
      rfl
    · rw [hidx, hm, Int.toNat_natCast]
      exact if_pos rfl

/-- An underflow. -/
theorem TxInv.lost {src : Nat} (h : TxInv 0 s)
    (hlt : s.chan.swCount < s.chan.hwCount + (dmaBufferCount / 2 : Nat))
    (hsrc : nextSrc s.log = src) : TxInv 1 (s.record (.lost s.chan.swCount src)) := by
  refine h.block (r := .lost s.chan.swCount src) hlt rfl ⟨hsrc.symm, trivial⟩ (fun _ _ _ => rfl) ?_
  intro k idx src' b hb
  cases hb

/-- The increment of `reader_sw_count` after a record. -/
theorem TxInv.setSw (h : TxInv 1 s) : TxInv 0 (s.setSw (s.chan.swCount + 1)) := by
  refine { h with sw_nonneg := ?_, sw_le := ?_, length := ?_ }
  · have := h.sw_nonneg
    show 0 ≤ s.chan.swCount + 1
    omega
  · have := h.sw_le
    show s.chan.swCount + 1 + (0 : Nat) ≤ s.chan.hwCount + (dmaBufferCount / 2 : Nat)
    omega
  · have := h.length
    show ((numbers s.log).length : Int) = s.chan.swCount + 1 + (0 : Nat)
    omega

/-! ## The calls -/

theorem txStable (p : Nat) : (txWorld (β := β)).Stable (TxInv p) TxMoves where
  refl := TxMoves.refl
  trans _ _ _ h h' := h.trans h'
  step s e s' hs he := by
    cases he
    exact hs.hw e

/-- The weakest precondition for the ring: the invariant in every state, and between two records
at the end. -/
abbrev TxWP (pr : ChanProg Int) (s : TxRing β) : Prop :=
  txWorld.WP (fun s => ∃ p, p ≤ 1 ∧ TxInv p s) (fun _ _ => True) (fun _ s => TxInv 0 s) pr s

theorem TxWP.call {q : ChanReq} {k : q.Ans → ChanProg Int} (hp : p ≤ 1) (hs : TxInv p s)
    (hk : ∀ s₁ o r s₂, TxInv p s₁ → TxMoves s s₁ → txCall q o s₁ = some (r, s₂) →
      TxWP (k r) s₂) : TxWP (.call q k) s :=
  (txStable p).call (fun _ h => ⟨p, hp, h⟩) hs
    fun s₁ o r s₂ h₁ hT hc => ⟨trivial, hk s₁ o r s₂ h₁ hT hc⟩

theorem TxWP.ret {a : Int} (hs : TxInv 0 s) : TxWP (.ret a) s :=
  (txStable 0).ret (fun _ h => ⟨0, by omega, h⟩) hs fun _ h _ => h

theorem TxWP.hwCount {k : Int → ChanProg Int} (hs : TxInv 0 s)
    (hk : ∀ s₁ : TxRing β, TxInv 0 s₁ → TxMoves s s₁ → TxWP (k s₁.chan.hwCount) s₁) :
    TxWP (ChanProg.hwCount .reader >>= k) s := by
  refine TxWP.call (by omega) hs ?_
  intro s₁ o r s₂ h₁ hT hc
  cases hc
  exact hk s₁ h₁ hT

theorem TxWP.swCount {k : Int → ChanProg Int} (hp : p ≤ 1) (hs : TxInv p s)
    (hk : ∀ s₁ : TxRing β, TxInv p s₁ → TxMoves s s₁ → TxWP (k s₁.chan.swCount) s₁) :
    TxWP (ChanProg.swCount .reader >>= k) s := by
  refine TxWP.call hp hs ?_
  intro s₁ o r s₂ h₁ hT hc
  cases hc
  exact hk s₁ h₁ hT

/-- `reader_sw_count += 1` after a record. -/
theorem TxWP.incr {k : Unit → ChanProg Int} (hs : TxInv 1 s)
    (hk : ∀ s₁ : TxRing β, TxInv 0 s₁ → s₁.log = s.log → TxWP (k ()) s₁) :
    TxWP (ChanProg.swCount .reader >>= fun sw => ChanProg.setSwCount .reader (sw + 1) >>= k) s := by
  refine TxWP.swCount (le_refl 1) hs ?_
  intro s₁ h₁ hT₁
  refine TxWP.call (le_refl 1) h₁ ?_
  intro s₂ o r s₃ h₂ hT hc
  cases hc
  rw [← hT.sw]
  exact hk _ h₂.setSw (hT₁.trans hT).log

/-! ## `litepcie_write` -/

theorem TxMoves.lt (h : TxMoves s s')
    (hlt : s.chan.swCount < s.chan.hwCount + (dmaBufferCount / 2 : Nat)) :
    s'.chan.swCount < s'.chan.hwCount + (dmaBufferCount / 2 : Nat) := by
  have := h.sw
  have := h.hw
  omega

theorem writeEnd_tx {size len underflows : Nat} (hs : TxInv 0 s) :
    TxWP (writeEnd size len underflows) s := by
  unfold writeEnd
  split
  · refine TxWP.call (by omega) hs ?_
    intro s₁ o r s₂ h₁ _ hc
    cases hc
    exact TxWP.ret h₁
  · exact TxWP.ret hs

/-- The loop, before block `i` of the user's buffer. -/
theorem writeLoop_tx {data size : Nat} (hsize : size ≤ maxRwCount) (left : Nat)
    {len i underflows : Nat} (hi : i + left = size / dmaBufferSize) (hs : TxInv 0 s)
    (hnext : nextSrc s.log = data + dmaBufferSize * i) :
    TxWP (writeLoop data size left len i underflows) s := by
  induction left generalizing len i underflows s with
  | zero => exact writeEnd_tx hs
  | succ left ih =>
    have haddr : blockAddr data i = data + dmaBufferSize * i := blockAddr_eq hsize (by omega)
    have hafter : data + dmaBufferSize * i + dmaBufferSize = data + dmaBufferSize * (i + 1) := by
      rw [Nat.add_assoc, Nat.mul_succ]
    rw [writeLoop]
    refine TxWP.swCount (by omega) hs fun s₁ h₁ hT₁ => ?_
    refine TxWP.hwCount h₁ fun s₂ h₂ hT₂ => ?_
    split
    case isFalse => exact writeEnd_tx h₂
    case isTrue htest =>
    -- there is room for the block, and stays there
    have hlt₂ : s₂.chan.swCount < s₂.chan.hwCount + (dmaBufferCount / 2 : Nat) := by
      have := hT₂.sw
      omega
    refine TxWP.swCount (by omega) h₂ fun s₃ h₃ hT₃ => ?_
    refine TxWP.hwCount h₃ fun s₄ h₄ hT₄ => ?_
    have hT := hT₁.trans (hT₂.trans (hT₃.trans hT₄))
    have hlt₄ := (hT₃.trans hT₄).lt hlt₂
    have hlog₄ : s₄.log = s.log := hT.log
    split
    case isTrue =>
      refine TxWP.call (by omega) h₄ ?_
      intro s₅ o r s₆ h₅ hT₅ hc
      cases hc
      have hsrc : nextSrc s₅.log = blockAddr data i := by rw [hT₅.log, hlog₄, hnext, haddr]
      refine TxWP.incr (h₅.lost (hT₅.lt hlt₄) hsrc) fun s₆ h₆ hl => ih (by omega) h₆ ?_
      rw [hl]
      show nextSrc (s₅.log ++ [.lost s₅.chan.swCount (blockAddr data i)]) = _
      rw [nextSrc_snoc, hsrc, haddr]
      exact hafter
    case isFalse =>
      refine TxWP.swCount (by omega) h₄ fun s₅ h₅ hT₅ => ?_
      refine TxWP.call (by omega) h₅ ?_
      intro s₆ o r s₇ h₆ hT₆ hc
      cases hc
      have hsrc : nextSrc s₆.log = blockAddr data i := by
        rw [hT₆.log, hT₅.log, hlog₄, hnext, haddr]
      rw [← hT₆.sw]
      refine TxWP.incr (h₆.store ((hT₅.trans hT₆).lt hlt₄) hsrc) fun s₈ h₈ hl => ih (by omega) h₈ ?_
      rw [hl]
      show nextSrc (s₆.log ++ [_]) = _
      rw [nextSrc_snoc, hsrc, haddr]
      exact hafter

theorem litepcieWrite_tx (nonblock : Bool) {data size : Nat} (hsize : size ≤ maxRwCount)
    (hs : TxInv 0 s) : TxWP (litepcieWrite nonblock data size) s := by
  unfold litepcieWrite
  refine TxWP.call (by omega) hs ?_
  intro s₁ o r s₂ h₁ _ hc
  cases hc
  obtain ⟨h₂, hnext⟩ := h₁.enter data
  have hrest : ∀ (ret : Int) (s : TxRing β), TxInv 0 s → nextSrc s.log = data → TxWP
      (if ret < 0 then pure ret else writeLoop data size (size / dmaBufferSize) size 0 0) s := by
    intro ret s hs hn
    split
    · exact TxWP.ret hs
    · exact writeLoop_tx hsize _ (by omega) hs (by rw [hn]; omega)
  cases nonblock with
  | true =>
    refine TxWP.hwCount h₂ fun s₃ h₃ hT₃ => ?_
    refine TxWP.swCount (by omega) h₃ fun s₄ h₄ hT₄ => ?_
    exact hrest _ s₄ h₄ (by rw [hT₄.log, hT₃.log, hnext])
  | false =>
    refine TxWP.call (by omega) h₂ ?_
    intro s₃ o r s₄ h₃ hT₃ hc
    have h₄ : s₄ = s₃ := by
      simp only [txCall] at hc
      split at hc
      · cases hc; rfl
      · split at hc
        · cases hc; rfl
        · cases hc
    subst h₄
    exact hrest r s₄ h₃ (by rw [hT₃.log, hnext])

theorem writeClient_tx (calls : List WriteCall) (hs : TxInv 0 s) : TxWP (writeClient calls) s :=
  World.WP.foldlM (J := fun _ s => TxInv 0 s) (fun _ _ h => TxWP.ret h)
    (fun _ c _ h => litepcieWrite_tx c.nonblock (Nat.min_le_right c.size maxRwCount) h) calls hs

/-! ## The safety of the ring -/

/-- `reader_sw_count` is at most half a ring ahead of `reader_hw_count`; it was raised once for each
block record, the blocks of the calls have the numbers `0, 1, 2, …` in order, and each one is stored
in the slot of its number or counted as an underflow; a stored block is in its slot until
`reader_hw_count` has passed its number. -/
structure RingSafe (s : TxRing β) : Prop where
  ahead : s.chan.swCount ≤ s.chan.hwCount + (dmaBufferCount / 2 : Nat)
  numbered : Numbered id (numbers s.log)
  raised : s.chan.swCount ≤ (numbers s.log).length ∧ (numbers s.log).length ≤ s.chan.swCount + 1
  inOrder : InOrder 0 s.log
  stored : ∀ k idx src b, TxRec.stored k idx src b ∈ s.log → idx = k % dmaBufferCount
  held : ∀ k idx src b, TxRec.stored k idx src b ∈ s.log → s.chan.hwCount ≤ k →
    s.mem (slot dmaBufferCount k.toNat) = b

/-- In every run of an activation the ring is safe. -/
theorem litepcieWrite_ring_safe {n : Nat} (dev : LitepcieDevice n) (i : Fin n)
    (mem : Fin dmaBufferCount → β) (user : Nat → β) (calls : List WriteCall)
    (es : List (Ev (TxHw β) Bool)) (c : ChanProg Int × TxRing β)
    (hr : txMachine.run es (writeClient calls, start dev i mem user) = some c) :
    RingSafe c.2 := by
  have hwp : TxWP (writeClient calls) (start dev i mem user) :=
    writeClient_tx calls (TxInv.start dev i mem user)
  obtain ⟨p, hp, h⟩ := (hwp.run (c := (writeClient calls, start dev i mem user)) hr).inv
  have hsw := h.sw_le
  have hlen := h.length
  exact ⟨by omega, h.numbered, by omega, h.inOrder, h.stored, h.held⟩

/-- Three calls: one block, 259 blocks, and one block without waiting. -/
def threeWrites : List WriteCall :=
  [⟨false, 0, dmaBufferSize⟩, ⟨false, 65536, 259 * dmaBufferSize⟩, ⟨true, 8, dmaBufferSize⟩]

/-- Between the first call and the second one the DMA reader is a lap and a slot further, and the
second call is late. -/
def lappedReader : List (Ev (TxHw Nat) Bool) :=
  List.replicate 10 (.thr false) ++ [.env (.interrupt 257)] ++ List.replicate 1830 (.thr false)

/-- 256 blocks are lost, and the slots 1 to 4 are filled for their second lap. -/
theorem litepcieWrite_ring_safe_lapped :
    ∃ c, txMachine.run lappedReader (writeClient threeWrites,
        start (LitepcieDevice.probed fun _ => 0 : LitepcieDevice 1) 0 (fun _ => 7) id) = some c ∧
      c.2.chan.swCount = 261 ∧
      c.2.log.filter (fun r => r matches .stored ..) =
        [.stored 0 0 0 0, .stored 257 1 16842752 16842752, .stored 258 2 16908288 16908288,
          .stored 259 3 16973824 16973824, .stored 260 4 8 8] ∧ RingSafe c.2 := by
  have hlog : (txMachine.run lappedReader (writeClient threeWrites,
      start (LitepcieDevice.probed fun _ => 0 : LitepcieDevice 1) 0 (fun _ => 7) id)).map
        (fun c => (c.2.chan.swCount, c.2.log.filter fun r => r matches .stored ..)) =
      some (261, [.stored 0 0 0 0, .stored 257 1 16842752 16842752,
        .stored 258 2 16908288 16908288, .stored 259 3 16973824 16973824, .stored 260 4 8 8]) := by
    decide +kernel
  obtain ⟨c, hc, hl⟩ := Option.map_eq_some_iff.mp hlog
  obtain ⟨hsw, hstored⟩ := Prod.mk.inj hl
  exact ⟨c, hc, hsw, hstored, litepcieWrite_ring_safe _ 0 _ id _ lappedReader c hc⟩

end Kernel
end Xtrx
