import Xtrx.Kernel.Transfer

/-!
# What `litepcie_read` and `litepcie_write` report

One call on a channel in any state, with copies that may fault at any block. Interrupts and the
engines come between any two accesses of the call.

- **State** (`Xfer`): the channel, the memory of the ring slots, the user's memory by blocks.
  `blocks` records what the call does with each block of the user's buffer (`BlockRec`), `reports`
  the messages of the driver, `seen` the counts that the call has read for its next block.
- **World** (`xferWorld`): an interrupt sets a hardware count to any value; a copy succeeds, or
  leaves some of its bytes uncopied (`Outcome.fault`).
- **Progress** (`Taken`): the first `i` blocks are copied or counted as lost, in order, from the
  software count at the entry on. A block is lost only if the counts read for it say that the call
  is late (`Late`).
- **Report** (`Reported`): a result from 0 on counts these blocks; a failed call that took none has
  changed no software count, and no call changes that of the other direction. It holds of every
  call: `transfers_reported`.
-/

namespace Xtrx
namespace Kernel

open Conc ChanProg

variable {β : Type}

/-- What a call did with a block of the user's buffer: copied it from or to the ring slot `idx`
with the contents `x`, or counted it as lost in the direction `d`, after it had read the counts
`hw` and `sw` of this direction for it. -/
inductive BlockRec (β : Type) where
  | copied (addr : Nat) (idx : Int) (x : β)
  | lost (d : Dir) (addr : Nat) (hw sw : Option Int)
  deriving DecidableEq

/-- The counts of a late call: the buffer with the number `sw` is more than half a ring behind the
DMA writer, or the DMA reader is past it. -/
def Late : Dir → (hw sw : Int) → Prop
  | .writer, hw, sw => hw - sw > (dmaBufferCount / 2 : Nat)
  | .reader, hw, sw => sw - hw < 0

namespace BlockRec

def isLost : BlockRec β → Bool
  | .copied .. => false
  | .lost .. => true

/-- The record is about the user's block at `addr` and the buffer with the number `num`. -/
def Fits (d : Dir) (addr : Nat) (num : Int) : BlockRec β → Prop
  | .copied a idx _ => a = addr ∧ idx = num.tmod dmaBufferCount
  | .lost e a hw sw => e = d ∧ a = addr ∧ sw = some num ∧ ∃ v, hw = some v ∧ Late d v num

end BlockRec

/-- The counts of a direction that a call has read since it was done with its last block. -/
structure Seen where
  hw : Option Int
  sw : Option Int
  deriving DecidableEq

/-- One channel and the memory of a call (module doc). `slots d idx` is what `reader_addr[idx]` or
`writer_addr[idx]` points to: a DMA buffer if the index is in the array. -/
structure Xfer (β : Type) where
  chan : LitepcieDmaChan
  slots : Dir → Int → β
  user : Nat → β
  blocks : List (BlockRec β)
  reports : List (String × Nat)
  seen : Dir → Seen

/-- A step of the environment: an interrupt, or the writer engine in its ring. -/
inductive XferHw (β : Type) where
  | interrupt (d : Dir) (hw : Int)
  | fill (idx : Int) (x : β)
  deriving DecidableEq

/-- What an access leaves open: it goes well, a signal ends the wait, or a copy leaves `left` bytes
uncopied and the contents `x` in its destination. -/
inductive Outcome (β : Type) where
  | done
  | signal
  | fault (left : Nat) (x : β)
  deriving DecidableEq

def Outcome.isFault : Outcome β → Bool
  | .fault .. => true
  | _ => false

namespace Xfer

def setHw (d : Dir) (hw : Int) (s : Xfer β) : Xfer β :=
  { s with chan := s.chan.modDir d fun c => { c with hwCount := hw, hwCountLast := hw } }

def setSw (d : Dir) (v : Int) (s : Xfer β) : Xfer β :=
  { s with chan := s.chan.modDir d fun c => c.setSwCount v }

def setSlot (d : Dir) (idx : Int) (x : β) (s : Xfer β) : Xfer β :=
  { s with slots := fun e k => if e = d ∧ k = idx then x else s.slots e k }

def setUser (addr : Nat) (x : β) (s : Xfer β) : Xfer β :=
  { s with user := Function.update s.user addr x }

def seeHw (d : Dir) (v : Int) (s : Xfer β) : Xfer β :=
  { s with seen := Function.update s.seen d { s.seen d with hw := some v } }

def seeSw (d : Dir) (v : Int) (s : Xfer β) : Xfer β :=
  { s with seen := Function.update s.seen d { s.seen d with sw := some v } }

/-- The next block is done: the counts are to be read again. -/
def record (r : BlockRec β) (s : Xfer β) : Xfer β :=
  { s with
    blocks := s.blocks ++ [r]
    seen := fun _ => ⟨none, none⟩ }

/-- The software count of a direction. -/
def sw (s : Xfer β) (d : Dir) : Int := (s.chan.dir d).swCount

def hw (s : Xfer β) (d : Dir) : Int := (s.chan.dir d).hwCount

/-- The state at the entry of a call. -/
def start (chan : LitepcieDmaChan) (slots : Dir → Int → β) (user : Nat → β) : Xfer β where
  chan := chan
  slots := slots
  user := user
  blocks := []
  reports := []
  seen _ := ⟨none, none⟩

/-- A step of the environment. -/
def env : XferHw β → Xfer β → Xfer β
  | .interrupt d v, s => s.setHw d v
  | .fill idx x, s => s.setSlot .writer idx x

@[simp] theorem sw_setHw (s : Xfer β) (d e : Dir) (v : Int) : (s.setHw d v).sw e = s.sw e := by
  cases d <;> cases e <;> rfl

@[simp] theorem sw_setSw (s : Xfer β) (d e : Dir) (v : Int) :
    (s.setSw d v).sw e = if e = d then v else s.sw e := by
  cases d <;> cases e <;> rfl

@[simp] theorem sw_setSlot (s : Xfer β) (d e : Dir) (idx : Int) (x : β) :
    (s.setSlot d idx x).sw e = s.sw e := rfl

@[simp] theorem sw_env (ev : XferHw β) (s : Xfer β) (d : Dir) : (s.env ev).sw d = s.sw d := by
  cases ev <;> simp [env]

@[simp] theorem user_env (ev : XferHw β) (s : Xfer β) : (s.env ev).user = s.user := by
  cases ev <;> rfl

@[simp] theorem blocks_env (ev : XferHw β) (s : Xfer β) : (s.env ev).blocks = s.blocks := by
  cases ev <;> rfl

@[simp] theorem reports_env (ev : XferHw β) (s : Xfer β) : (s.env ev).reports = s.reports := by
  cases ev <;> rfl

@[simp] theorem seen_env (ev : XferHw β) (s : Xfer β) : (s.env ev).seen = s.seen := by
  cases ev <;> rfl

end Xfer

open Xfer

/-- The accesses of the calls. -/
def xferCall : (q : ChanReq) → (o : Outcome β) → Xfer β → Option (q.Ans × Xfer β)
  | .enter _, _, s => some ((), s)
  | .waitEvent d cond, o, s =>
    match o with
    | .done => if cond (s.hw d) (s.sw d) then some ((0 : Int), s) else none
    | .signal => some (-eRestartSys, s)
    | .fault .. => none
  | .hwCount d, _, s => some (s.hw d, s.seeHw d (s.hw d))
  | .swCount d, _, s => some (s.sw d, s.seeSw d (s.sw d))
  | .setSwCount d v, _, s => some ((), s.setSw d v)
  | .copyToUser dst idx, o, s =>
    match o with
    | .done =>
      let x := s.slots .writer idx
      some ((0 : Nat), (s.setUser dst x).record (.copied dst idx x))
    | .fault left x => if left = 0 then none else some (left, s.setUser dst x)
    | .signal => none
  | .copyFromUser idx src, o, s =>
    match o with
    | .done =>
      let x := s.user src
      some ((0 : Nat), (s.setSlot .reader idx x).record (.copied src idx x))
    | .fault left x => if left = 0 then none else some (left, s.setSlot .reader idx x)
    | .signal => none
  | .countLost d addr, _, s =>
    some ((), s.record (.lost d addr (s.seen d).hw (s.seen d).sw))
  | .devErr msg lost, _, s => some ((), { s with reports := s.reports ++ [(msg, lost)] })

/-- One call and its channel as a world. -/
def xferWorld (β : Type) : World ChanReq ChanReq.Ans (Xfer β) (XferHw β) (Outcome β) where
  env e s := some (s.env e)
  call := xferCall

/-! ## Progress -/

/-- The first `i` blocks of the buffer at `data` are copied or counted as lost, `lost` of them the
latter, and the software count of `d` is `k` more than in `s₀`. -/
structure Taken (d : Dir) (data : Nat) (s₀ : Xfer β) (k i lost : Nat) (s : Xfer β) : Prop where
  sw : s.sw d = s₀.sw d + k
  other : ∀ e, e ≠ d → s.sw e = s₀.sw e
  length : s.blocks.length = i
  fits : ∀ j (r : BlockRec β), s.blocks[j]? = some r →
    r.Fits d (data + dmaBufferSize * j) (s₀.sw d + j)
  lost : s.blocks.countP BlockRec.isLost = lost
  user : d = .reader → s.user = s₀.user
  held : ∀ addr idx x, BlockRec.copied addr idx x ∈ s.blocks → s.user addr = x

/-- What holds when a call returns `ret`. -/
structure Reported (d : Dir) (msg : String) (data size : Nat) (s₀ : Xfer β) (ret : Int)
    (s : Xfer β) : Prop where
  done : 0 ≤ ret → ∃ k lost, ret = (dmaBufferSize * k : Nat) ∧ k ≤ size / dmaBufferSize ∧
    Taken d data s₀ k k lost s ∧ s.reports = if lost = 0 then [] else [(msg, lost)]
  other : ∀ e, e ≠ d → s.sw e = s₀.sw e
  failed : ret < 0 → s.blocks = [] → ∀ e, s.sw e = s₀.sw e
  fault : ret < 0 → ret ≠ -eFault → s.blocks = []

namespace Taken

variable {d : Dir} {data : Nat} {s₀ s : Xfer β} {k i lost : Nat}

theorem start (d : Dir) (data : Nat) (chan : LitepcieDmaChan) (slots : Dir → Int → β)
    (user : Nat → β) : Taken d data (Xfer.start chan slots user) 0 0 0 (Xfer.start chan slots user) where
  sw := by simp
  other _ _ := rfl
  length := rfl
  fits j r h := by simp [Xfer.start] at h
  lost := rfl
  user _ := rfl
  held _ _ _ h := by simp [Xfer.start] at h

theorem env (h : Taken d data s₀ k i lost s) (ev : XferHw β) : Taken d data s₀ k i lost (s.env ev) := by
  obtain ⟨hsw, hother, hlen, hfits, hlost, huser, hheld⟩ := h
  constructor <;> simpa

/-- The next record. -/
theorem record {r : BlockRec β} {t : Xfer β} (h : Taken d data s₀ i i lost s)
    (hsw : ∀ e, t.sw e = s.sw e) (hb : t.blocks = s.blocks ++ [r])
    (hr : r.Fits d (data + dmaBufferSize * i) (s₀.sw d + i)) (huser : d = .reader → t.user = s.user)
    (hheld : ∀ addr idx x, BlockRec.copied addr idx x ∈ t.blocks → t.user addr = x) :
    Taken d data s₀ i (i + 1) (lost + if r.isLost then 1 else 0) t where
  sw := by rw [hsw, h.sw]
  other e he := by rw [hsw, h.other e he]
  length := by rw [hb, List.length_append, h.length, List.length_singleton]
  fits j q hq := by
    rw [hb] at hq
    rcases Nat.lt_trichotomy j i with hj | rfl | hj
    · rw [List.getElem?_append_left (by rw [h.length]; exact hj)] at hq
      exact h.fits j q hq
    · rw [List.getElem?_append_right (by rw [h.length]), h.length] at hq
      simp only [Nat.sub_self, List.getElem?_cons_zero, Option.some.injEq] at hq
      exact hq ▸ hr
    · rw [List.getElem?_eq_none (by simp [h.length]; omega)] at hq
      cases hq
  lost := by
    rw [hb, List.countP_append, h.lost, List.countP_singleton]
  user hd := by rw [huser hd, h.user hd]
  held := hheld

/-- The addresses of the blocks in the records are those of the blocks before. -/
theorem addr_lt (h : Taken d data s₀ k i lost s) {addr : Nat} {idx : Int} {x : β}
    (hm : BlockRec.copied addr idx x ∈ s.blocks) : addr < data + dmaBufferSize * i := by
  obtain ⟨j, hj⟩ := List.mem_iff_getElem?.mp hm
  obtain ⟨hlt, -⟩ := List.getElem?_eq_some_iff.mp hj
  rw [h.length] at hlt
  rw [(h.fits j _ hj).1]
  unfold dmaBufferSize
  omega

/-- `sw_count += 1` after a record. -/
theorem setSw (h : Taken d data s₀ k i lost s) :
    Taken d data s₀ (k + 1) i lost (s.setSw d (s.sw d + 1)) where
  sw := by
    rw [sw_setSw, if_pos rfl, h.sw]
    push_cast
    omega
  other e he := by rw [sw_setSw, if_neg he, h.other e he]
  length := h.length
  fits := h.fits
  lost := h.lost
  user := h.user
  held := h.held

end Taken

/-! ## Rules -/

/-- The weakest precondition of a call: its report at the end. -/
abbrev XferWP (R : Int → Xfer β → Prop) (p : ChanProg Int) (s : Xfer β) : Prop :=
  (xferWorld β).WP (fun _ => True) (fun _ _ => True) R p s

theorem xferStable {J : Xfer β → Prop} (hJ : ∀ s ev, J s → J (s.env ev)) :
    (xferWorld β).Stable J fun _ _ => True where
  refl _ := trivial
  trans _ _ _ _ _ := trivial
  step s e s' hs he := by
    cases he
    exact ⟨hJ s e hs, trivial⟩

variable {R : Int → Xfer β → Prop}

/-- The progress and no report yet. -/
def Going (d : Dir) (data : Nat) (s₀ : Xfer β) (k i lost : Nat) (s : Xfer β) : Prop :=
  Taken d data s₀ k i lost s ∧ s.reports = []

theorem Going.env {d : Dir} {data k i lost : Nat} {s₀ s : Xfer β} (h : Going d data s₀ k i lost s)
    (ev : XferHw β) : Going d data s₀ k i lost (s.env ev) :=
  ⟨h.1.env ev, by rw [reports_env]; exact h.2⟩

/-- A wait leaves the state as it is. -/
theorem waitEvent_frame {d : Dir} {cond : Int → Int → Bool} {o : Outcome β} {r : Int} {s t : Xfer β}
    (h : xferCall (.waitEvent d cond) o s = some (r, t)) : t = s := by
  simp only [xferCall] at h
  split at h
  · split at h
    · cases h
      rfl
    · cases h
  · cases h
    rfl
  · cases h

section Rules

variable {d : Dir} {data k i lost : Nat} {s₀ s : Xfer β}

theorem XferWP.call {J : Xfer β → Prop} {q : ChanReq} {f : q.Ans → ChanProg Int}
    (hJ : ∀ s ev, J s → J (s.env ev)) (hs : J s)
    (hf : ∀ s₁ o r s₂, J s₁ → xferCall q o s₁ = some (r, s₂) → XferWP R (f r) s₂) :
    XferWP R (.call q f) s :=
  (xferStable hJ).call (fun _ _ => trivial) hs fun s₁ o r s₂ h₁ _ hc => ⟨trivial, hf s₁ o r s₂ h₁ hc⟩

theorem XferWP.ret {J : Xfer β → Prop} {a : Int} (hJ : ∀ s ev, J s → J (s.env ev)) (hs : J s)
    (hR : ∀ s, J s → R a s) : XferWP R (.ret a) s :=
  (xferStable hJ).ret (fun _ _ => trivial) hs fun s₁ h _ => hR s₁ h

theorem Going.stable (s : Xfer β) (ev : XferHw β) (h : Going d data s₀ k i lost s) :
    Going d data s₀ k i lost (s.env ev) :=
  h.env ev

theorem Going.seeHw (h : Going d data s₀ k i lost s) (e : Dir) (v : Int) :
    Going d data s₀ k i lost (s.seeHw e v) := by
  obtain ⟨⟨hsw, hother, hlength, hfits, hlost, huser, hheld⟩, hr⟩ := h
  exact ⟨⟨hsw, hother, hlength, hfits, hlost, huser, hheld⟩, hr⟩

theorem Going.seeSw (h : Going d data s₀ k i lost s) (e : Dir) (v : Int) :
    Going d data s₀ k i lost (s.seeSw e v) := by
  obtain ⟨⟨hsw, hother, hlength, hfits, hlost, huser, hheld⟩, hr⟩ := h
  exact ⟨⟨hsw, hother, hlength, hfits, hlost, huser, hheld⟩, hr⟩

theorem XferWP.swCount {f : Int → ChanProg Int} (hs : Going d data s₀ k i lost s)
    (hf : ∀ s₁, Going d data s₀ k i lost s₁ → XferWP R (f (s₀.sw d + k)) s₁) :
    XferWP R (ChanProg.swCount d >>= f) s := by
  refine XferWP.call Going.stable hs ?_
  intro s₁ o r s₂ h₁ hc
  cases hc
  show XferWP R (f (s₁.sw d)) _
  rw [h₁.1.sw]
  exact hf _ (h₁.seeSw d _)

/-- The counts that a test of `litepcie_read` compares. -/
theorem XferWP.hwThenSw {f : Int → Int → ChanProg Int} (hs : Going d data s₀ k i lost s)
    (hf : ∀ s₁ hw, Going d data s₀ k i lost s₁ → s₁.seen d = ⟨some hw, some (s₀.sw d + k)⟩ →
      XferWP R (f hw (s₀.sw d + k)) s₁) :
    XferWP R (do
      let hw ← ChanProg.hwCount d
      let sw ← ChanProg.swCount d
      f hw sw) s := by
  refine XferWP.call Going.stable hs ?_
  intro s₁ o hw s₂ h₁ hc
  cases hc
  refine XferWP.call (J := fun s => Going d data s₀ k i lost s ∧ (s.seen d).hw = some (s₁.hw d))
    (fun s ev h => ⟨h.1.env ev, by rw [seen_env]; exact h.2⟩)
    ⟨h₁.seeHw d _, by simp [Xfer.seeHw]⟩ ?_
  intro s₃ o sw s₄ h₃ hc
  cases hc
  show XferWP R (f (s₁.hw d) (s₃.sw d)) _
  rw [h₃.1.1.sw]
  exact hf _ _ (h₃.1.seeSw d _) (by simp [Xfer.seeSw, h₃.2])

/-- The counts that a test of `litepcie_write` compares. -/
theorem XferWP.swThenHw {f : Int → Int → ChanProg Int} (hs : Going d data s₀ k i lost s)
    (hf : ∀ s₁ hw, Going d data s₀ k i lost s₁ → s₁.seen d = ⟨some hw, some (s₀.sw d + k)⟩ →
      XferWP R (f (s₀.sw d + k) hw) s₁) :
    XferWP R (do
      let sw ← ChanProg.swCount d
      let hw ← ChanProg.hwCount d
      f sw hw) s := by
  refine XferWP.call Going.stable hs ?_
  intro s₁ o sw s₂ h₁ hc
  cases hc
  refine XferWP.call (J := fun s => Going d data s₀ k i lost s ∧ (s.seen d).sw = some (s₁.sw d))
    (fun s ev h => ⟨h.1.env ev, by rw [seen_env]; exact h.2⟩)
    ⟨h₁.seeSw d _, by simp [Xfer.seeSw]⟩ ?_
  intro s₃ o hw s₄ h₃ hc
  cases hc
  show XferWP R (f (s₁.sw d) (s₃.hw d)) _
  rw [h₁.1.sw] at h₃ ⊢
  exact hf _ _ (h₃.1.seeHw d _) (by simp [Xfer.seeHw, h₃.2])

/-- `overflows++` or `underflows++`, after a late test. -/
theorem XferWP.countLost {f : Unit → ChanProg Int} {hw : Int} (hs : Going d data s₀ i i lost s)
    (hseen : s.seen d = ⟨some hw, some (s₀.sw d + i)⟩) (hlate : Late d hw (s₀.sw d + i))
    (hf : ∀ s₁, Going d data s₀ i (i + 1) (lost + 1) s₁ → XferWP R (f ()) s₁) :
    XferWP R (ChanProg.countLost d (data + dmaBufferSize * i) >>= f) s := by
  refine XferWP.call (J := fun s => Going d data s₀ i i lost s ∧
      s.seen d = ⟨some hw, some (s₀.sw d + i)⟩)
    (fun s ev h => ⟨h.1.env ev, by rw [seen_env]; exact h.2⟩) ⟨hs, hseen⟩ ?_
  intro s₁ o r s₂ h₁ hc
  cases hc
  obtain ⟨⟨ht, hr⟩, hseen₁⟩ := h₁
  have hfits : (BlockRec.lost d (data + dmaBufferSize * i) (s₁.seen d).hw (s₁.seen d).sw :
      BlockRec β).Fits d (data + dmaBufferSize * i) (s₀.sw d + i) := by
    rw [hseen₁]
    exact ⟨rfl, rfl, rfl, hw, rfl, hlate⟩
  refine hf _ ⟨ht.record (r := .lost d _ _ _) (fun _ => rfl) rfl hfits (fun _ => rfl) ?_, hr⟩
  intro addr idx x hm
  simp only [Xfer.record, List.mem_append, List.mem_singleton, reduceCtorEq, or_false] at hm
  exact ht.held addr idx x hm

/-- `sw_count += 1` after a record. -/
theorem XferWP.incr {f : Unit → ChanProg Int} (hs : Going d data s₀ k i lost s)
    (hf : ∀ s₁, Going d data s₀ (k + 1) i lost s₁ → XferWP R (f ()) s₁) :
    XferWP R (ChanProg.swCount d >>= fun sw => ChanProg.setSwCount d (sw + 1) >>= f) s := by
  refine XferWP.swCount hs fun s₁ h₁ => ?_
  refine XferWP.call Going.stable h₁ ?_
  intro s₂ o r s₃ h₂ hc
  cases hc
  rw [← h₂.1.sw]
  exact hf _ ⟨h₂.1.setSw, h₂.2⟩

/-- A call that fails before its first block, or at a copy. -/
theorem XferWP.fail {msg : String} {size : Nat} {ret : Int} (hs : Going d data s₀ i i lost s)
    (hneg : ret < 0) (hret : ret ≠ -eFault → i = 0) :
    XferWP (Reported d msg data size s₀) (.ret ret) s := by
  refine XferWP.ret Going.stable hs fun s h => ⟨fun h0 => by omega, h.1.other, ?_, ?_⟩
  · intro _ hb e
    have hi : i = 0 := by
      have := h.1.length
      rw [hb] at this
      exact this.symm
    subst hi
    by_cases he : e = d
    · subst he
      simpa using h.1.sw
    · exact h.1.other e he
  · intro _ hne
    exact List.eq_nil_of_length_eq_zero (h.1.length.trans (hret hne))

/-- The end of a call: the report. -/
theorem XferWP.finish {msg : String} {size len : Nat} (hs : Going d data s₀ i i lost s)
    (hlen : size - len = dmaBufferSize * i) (hi : i ≤ size / dmaBufferSize) :
    XferWP (Reported d msg data size s₀) (do
      if lost ≠ 0 then
        devErr msg lost
      return (size - len : Nat)) s := by
  have hret : ∀ s : Xfer β, Taken d data s₀ i i lost s →
      s.reports = (if lost = 0 then [] else [(msg, lost)]) →
      XferWP (Reported d msg data size s₀) (.ret ((size - len : Nat) : Int)) s := by
    intro s ht hr
    refine XferWP.ret (J := fun s => Taken d data s₀ i i lost s ∧
      s.reports = if lost = 0 then [] else [(msg, lost)]) ?_ ⟨ht, hr⟩ ?_
    · exact fun s ev h => ⟨h.1.env ev, by rw [reports_env]; exact h.2⟩
    · intro s h
      refine ⟨fun _ => ⟨i, lost, by rw [hlen], hi, h.1, h.2⟩, h.1.other, fun hneg => ?_,
        fun hneg => ?_⟩
      · exact absurd hneg (by omega)
      · exact absurd hneg (by omega)
  by_cases hl : lost = 0
  · rw [if_neg (by simp [hl])]
    exact hret s hs.1 (by rw [hs.2, if_pos hl])
  · rw [if_pos hl]
    refine XferWP.call Going.stable hs ?_
    intro s₁ o r s₂ h₁ hc
    cases hc
    obtain ⟨hsw, hother, hlength, hfits, hlost, huser, hheld⟩ := h₁.1
    exact hret _ ⟨hsw, hother, hlength, hfits, hlost, huser, hheld⟩ (by simp [h₁.2, hl])

end Rules

/-! ## `litepcie_read` -/

variable {s₀ s : Xfer β}

/-- The blocks that are done are blocks of the buffer. -/
theorem blocks_le {size len i : Nat} (h : len + dmaBufferSize * i = size) :
    i ≤ size / dmaBufferSize := by
  unfold dmaBufferSize at *
  omega

/-- The message of `litepcie_read`. -/
abbrev readMsg : String := "Reading too late, %d buffers lost\n"

/-- The message of `litepcie_write`. -/
abbrev writeMsg : String := "Writing too late, %d buffers lost\n"

/-- A copy to the user's next block. -/
theorem XferWP.copyToUser {data i lost : Nat} {R : Int → Xfer β → Prop} {f : Nat → ChanProg Int}
    (hs : Going .writer data s₀ i i lost s)
    (hok : ∀ s₁, Going .writer data s₀ i (i + 1) lost s₁ → XferWP R (f 0) s₁)
    (hfault : ∀ s₁ left, left ≠ 0 → Going .writer data s₀ i i lost s₁ → XferWP R (f left) s₁) :
    XferWP R (ChanProg.copyToUser (data + dmaBufferSize * i)
      ((s₀.sw .writer + i).tmod dmaBufferCount) >>= f) s := by
  refine XferWP.call Going.stable hs ?_
  intro s₁ o r s₂ h₁ hc
  -- the block is behind those that the call has filled
  have hheld : ∀ y addr idx x, BlockRec.copied addr idx x ∈ s₁.blocks →
      (s₁.setUser (data + dmaBufferSize * i) y).user addr = x := by
    intro y addr idx x hm
    have hlt := h₁.1.addr_lt hm
    exact (Function.update_of_ne (by omega) _ _).trans (h₁.1.held addr idx x hm)
  cases o with
  | done =>
    cases hc
    refine hok _ ⟨h₁.1.record (r := .copied _ _ (s₁.slots .writer _)) (fun _ => rfl) rfl ⟨rfl, rfl⟩
      nofun ?_, h₁.2⟩
    intro addr idx x hm
    rcases List.mem_append.mp hm with hm | hm
    · exact hheld _ addr idx x hm
    · simp only [List.mem_singleton, BlockRec.copied.injEq] at hm
      obtain ⟨rfl, -, rfl⟩ := hm
      exact Function.update_self _ _ _
  | signal => cases hc
  | fault left x =>
    simp only [xferCall] at hc
    split at hc
    · cases hc
    · rename_i hl
      cases hc
      obtain ⟨hsw, hother, hlength, hfits, hlost, -, -⟩ := h₁.1
      exact hfault _ _ hl ⟨⟨hsw, hother, hlength, hfits, hlost, nofun, hheld x⟩, h₁.2⟩

theorem readEnd_reported {data size len i lost : Nat} (hlen : len + dmaBufferSize * i = size)
    (hs : Going .writer data s₀ i i lost s) :
    XferWP (Reported .writer readMsg data size s₀) (readEnd size len lost) s :=
  XferWP.finish hs (by omega) (blocks_le hlen)

theorem readLoop_reported {data size : Nat} (hmax : size ≤ maxRwCount) (left : Nat) {len i lost : Nat}
    (hleft : len / dmaBufferSize = left) (hlen : len + dmaBufferSize * i = size)
    (hs : Going .writer data s₀ i i lost s) :
    XferWP (Reported .writer readMsg data size s₀) (readLoop data size left len i lost) s := by
  induction left generalizing len i lost s with
  | zero => exact readEnd_reported hlen hs
  | succ left ih =>
    obtain ⟨hle, hrest⟩ := left_sub hleft
    have hi : i < size / dmaBufferSize := by
      unfold dmaBufferSize at *
      omega
    have hnext : len - dmaBufferSize + dmaBufferSize * (i + 1) = size := by
      rw [Nat.mul_succ]
      omega
    rw [readLoop, blockAddr_eq hmax hi]
    refine XferWP.hwThenSw hs fun s₂ hw h₂ _ => ?_
    split
    case isFalse => exact readEnd_reported hlen h₂
    case isTrue =>
    refine XferWP.hwThenSw h₂ fun s₄ hw h₄ hseen => ?_
    split
    case isTrue hlate =>
      refine XferWP.countLost h₄ hseen hlate fun s₅ h₅ => ?_
      exact XferWP.incr h₅ fun s₆ h₆ => ih hrest hnext h₆
    case isFalse =>
      refine XferWP.swCount h₄ fun s₅ h₅ => ?_
      refine XferWP.copyToUser h₅ (fun s₆ h₆ => ?_) fun s₆ rest hrest h₆ => ?_
      · rw [if_neg (by simp)]
        exact XferWP.incr h₆ fun s₇ h₇ => ih hrest hnext h₇
      · rw [if_pos hrest]
        exact XferWP.fail h₆ (by decide) fun hne => absurd rfl hne

theorem litepcieRead_reported (nonblock : Bool) {data size : Nat} (hmax : size ≤ maxRwCount)
    (hs : Going .writer data s₀ 0 0 0 s) :
    XferWP (Reported .writer readMsg data size s₀) (litepcieRead nonblock data size) s := by
  unfold litepcieRead
  refine XferWP.call Going.stable hs ?_
  intro s₁ o r s₂ h₁ hc
  cases hc
  have hrest : ∀ (ret : Int) {s : Xfer β}, Going .writer data s₀ 0 0 0 s →
      XferWP (Reported .writer readMsg data size s₀)
        (if ret < 0 then pure ret else readLoop data size (size / dmaBufferSize) size 0 0) s := by
    intro ret s hs
    split
    · rename_i hneg
      exact XferWP.fail hs hneg fun _ => rfl
    · exact readLoop_reported hmax _ rfl rfl hs
  cases nonblock with
  | true =>
    exact XferWP.hwThenSw h₁ fun s₄ hw h₄ _ => hrest _ h₄
  | false =>
    refine XferWP.call Going.stable h₁ ?_
    intro s₃ o r s₄ h₃ hc
    obtain rfl : s₄ = s₃ := waitEvent_frame hc
    exact hrest r h₃

/-! ## `litepcie_write` -/

/-- A copy of the user's next block into the ring. -/
theorem XferWP.copyFromUser {data i lost : Nat} {R : Int → Xfer β → Prop} {f : Nat → ChanProg Int}
    (hs : Going .reader data s₀ i i lost s)
    (hok : ∀ s₁, Going .reader data s₀ i (i + 1) lost s₁ → XferWP R (f 0) s₁)
    (hfault : ∀ s₁ left, left ≠ 0 → Going .reader data s₀ i i lost s₁ → XferWP R (f left) s₁) :
    XferWP R (ChanProg.copyFromUser ((s₀.sw .reader + i).tmod dmaBufferCount)
      (data + dmaBufferSize * i) >>= f) s := by
  refine XferWP.call Going.stable hs ?_
  intro s₁ o r s₂ h₁ hc
  cases o with
  | done =>
    cases hc
    refine hok _ ⟨h₁.1.record (r := .copied _ _ (s₁.user _)) (fun _ => rfl) rfl ⟨rfl, rfl⟩
      (fun _ => rfl) ?_, h₁.2⟩
    intro addr idx x hm
    rcases List.mem_append.mp hm with hm | hm
    · exact h₁.1.held addr idx x hm
    · simp only [List.mem_singleton, BlockRec.copied.injEq] at hm
      obtain ⟨rfl, -, rfl⟩ := hm
      rfl
  | signal => cases hc
  | fault left x =>
    simp only [xferCall] at hc
    split at hc
    · cases hc
    · rename_i hl
      cases hc
      obtain ⟨hsw, hother, hlength, hfits, hlost, huser, hheld⟩ := h₁.1
      exact hfault _ _ hl ⟨⟨hsw, hother, hlength, hfits, hlost, huser, hheld⟩, h₁.2⟩

theorem writeEnd_reported {data size len i lost : Nat} (hlen : len + dmaBufferSize * i = size)
    (hs : Going .reader data s₀ i i lost s) :
    XferWP (Reported .reader writeMsg data size s₀) (writeEnd size len lost) s :=
  XferWP.finish hs (by omega) (blocks_le hlen)

theorem writeLoop_reported {data size : Nat} (hmax : size ≤ maxRwCount) (left : Nat) {len i lost : Nat}
    (hleft : len / dmaBufferSize = left) (hlen : len + dmaBufferSize * i = size)
    (hs : Going .reader data s₀ i i lost s) :
    XferWP (Reported .reader writeMsg data size s₀) (writeLoop data size left len i lost) s := by
  induction left generalizing len i lost s with
  | zero => exact writeEnd_reported hlen hs
  | succ left ih =>
    obtain ⟨hle, hrest⟩ := left_sub hleft
    have hi : i < size / dmaBufferSize := by
      unfold dmaBufferSize at *
      omega
    have hnext : len - dmaBufferSize + dmaBufferSize * (i + 1) = size := by
      rw [Nat.mul_succ]
      omega
    rw [writeLoop, blockAddr_eq hmax hi]
    refine XferWP.swThenHw hs fun s₂ hw h₂ _ => ?_
    split
    case isFalse => exact writeEnd_reported hlen h₂
    case isTrue =>
    refine XferWP.swThenHw h₂ fun s₄ hw h₄ hseen => ?_
    split
    case isTrue hlate =>
      refine XferWP.countLost h₄ hseen hlate fun s₅ h₅ => ?_
      exact XferWP.incr h₅ fun s₆ h₆ => ih hrest hnext h₆
    case isFalse =>
      refine XferWP.swCount h₄ fun s₅ h₅ => ?_
      refine XferWP.copyFromUser h₅ (fun s₆ h₆ => ?_) fun s₆ rest hrest h₆ => ?_
      · rw [if_neg (by simp)]
        exact XferWP.incr h₆ fun s₇ h₇ => ih hrest hnext h₇
      · rw [if_pos hrest]
        exact XferWP.fail h₆ (by decide) fun hne => absurd rfl hne

theorem litepcieWrite_reported (nonblock : Bool) {data size : Nat} (hmax : size ≤ maxRwCount)
    (hs : Going .reader data s₀ 0 0 0 s) :
    XferWP (Reported .reader writeMsg data size s₀) (litepcieWrite nonblock data size) s := by
  unfold litepcieWrite
  refine XferWP.call Going.stable hs ?_
  intro s₁ o r s₂ h₁ hc
  cases hc
  have hrest : ∀ (ret : Int) {s : Xfer β}, Going .reader data s₀ 0 0 0 s →
      XferWP (Reported .reader writeMsg data size s₀)
        (if ret < 0 then pure ret else writeLoop data size (size / dmaBufferSize) size 0 0) s := by
    intro ret s hs
    split
    · rename_i hneg
      exact XferWP.fail hs hneg fun _ => rfl
    · exact writeLoop_reported hmax _ rfl rfl hs
  cases nonblock with
  | true =>
    exact XferWP.hwThenSw h₁ fun s₄ hw h₄ _ => hrest _ h₄
  | false =>
    refine XferWP.call Going.stable h₁ ?_
    intro s₃ o r s₄ h₃ hc
    obtain rfl : s₄ = s₃ := waitEvent_frame hc
    exact hrest r h₃

/-! ## Reports -/

/-- Every call of `litepcie_read` and `litepcie_write`, on a channel in any state, for any size and
any faults of its copies, reports what it did (`Reported`). The kernel passes at most
`MAX_RW_COUNT` bytes on. -/
theorem transfers_reported (nonblock : Bool) (data size : Nat) (chan : LitepcieDmaChan)
    (slots : Dir → Int → β) (user : Nat → β) (es : List (Ev (XferHw β) (Outcome β))) (ret : Int)
    (s : Xfer β) :
    ((xferWorld β).exec (litepcieRead nonblock data (min size maxRwCount)) es
        (start chan slots user) = some (ret, s) →
      Reported .writer readMsg data (min size maxRwCount) (start chan slots user) ret s) ∧
    ((xferWorld β).exec (litepcieWrite nonblock data (min size maxRwCount)) es
        (start chan slots user) = some (ret, s) →
      Reported .reader writeMsg data (min size maxRwCount) (start chan slots user) ret s) := by
  have hmax : min size maxRwCount ≤ maxRwCount := Nat.min_le_right _ _
  constructor
  · intro h
    exact (World.WP.exec (litepcieRead_reported nonblock hmax
      ⟨Taken.start .writer data chan slots user, rfl⟩) h).2
  · intro h
    exact (World.WP.exec (litepcieWrite_reported nonblock hmax
      ⟨Taken.start .reader data chan slots user, rfl⟩) h).2

/-- A channel whose directions both have these counts. -/
def chanAt (hw sw : Int) : LitepcieDmaChan :=
  let dir (interrupt : Nat) : DmaDir := { DmaDir.probed interrupt with hwCount := hw, swCount := sw }
  { LitepcieDmaChan.probed with
    reader := dir pcieDma0ReaderInterrupt
    writer := dir pcieDma0WriterInterrupt }

/-- Accesses that go well. -/
def goesWell (k : Nat) : List (Ev (XferHw Nat) (Outcome Nat)) := List.replicate k (.thr .done)

/-- A read of two blocks, 129 buffers behind: one is lost, the other is copied. -/
theorem transfers_reported_late :
    ∃ s, (xferWorld Nat).exec (litepcieRead false 0 (min 131072 maxRwCount)) (goesWell 18)
        (start (chanAt 129 0) (fun _ k => k.toNat) fun _ => 1000) = some (131072, s) ∧
      s.blocks = [.lost .writer 0 (some 129) (some 0), .copied 65536 1 1] ∧
      Reported .writer readMsg 0 (min 131072 maxRwCount)
        (start (chanAt 129 0) (fun _ k => k.toNat) fun _ => 1000) 131072 s := by
  have hrun : ((xferWorld Nat).exec (litepcieRead false 0 (min 131072 maxRwCount)) (goesWell 18)
      (start (chanAt 129 0) (fun _ k => k.toNat) fun _ => 1000)).map
      (fun r => (r.1, r.2.blocks)) =
      some (131072, [.lost .writer 0 (some 129) (some 0), .copied 65536 1 1]) := by
    decide +kernel
  obtain ⟨⟨ret, s⟩, hs, he⟩ := Option.map_eq_some_iff.mp hrun
  obtain ⟨rfl, hb⟩ := Prod.mk.inj he
  exact ⟨s, hs, hb, (transfers_reported false 0 131072 _ _ _ (goesWell 18) 131072 s).1 hs⟩

/-- A result does not mean that the blocks were copied, and a fault after the first block leaves the
software count changed, in both directions. -/
theorem transfers_lost_and_fault :
    ((xferWorld Nat).exec (litepcieRead false 0 65536) (goesWell 10)
        (start (chanAt 129 0) (fun _ _ => 7) fun _ => 1000)).map
      (fun r => (r.1, r.2.blocks, r.2.user 0)) =
      some (65536, [.lost .writer 0 (some 129) (some 0)], 1000) ∧
    ((xferWorld Nat).exec (litepcieWrite false 0 65536) (goesWell 10)
        (start (chanAt 1 0) (fun _ _ => 7) fun _ => 1000)).map
      (fun r => (r.1, r.2.blocks, r.2.slots .reader 0)) =
      some (65536, [.lost .reader 0 (some 1) (some 0)], 7) ∧
    ((xferWorld Nat).exec (litepcieRead false 0 131072) (goesWell 15 ++ [.thr (.fault 1 0)])
        (start (chanAt 2 0) (fun _ _ => 7) fun _ => 1000)).map
      (fun r => (r.1, r.2.sw .writer)) = some (-eFault, 1) ∧
    ((xferWorld Nat).exec (litepcieWrite false 0 131072) (goesWell 15 ++ [.thr (.fault 1 0)])
        (start (chanAt 0 0) (fun _ _ => 7) fun _ => 1000)).map
      (fun r => (r.1, r.2.sw .reader)) = some (-eFault, 1) := by
  decide +kernel

end Kernel
end Xtrx
