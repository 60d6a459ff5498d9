import Xtrx.User.DmaCtrl

/-!
# The order of the zero-copy buffers (`liblitepcie/litepcie_dma.c`)

A process calls `litepcie_dma_init` and then, over and over, `litepcie_dma_process` and the functions
for the next buffers, until these have returned `NULL`.

- **`Caller`**: the structure, the buffers that the process got, and which function has returned
  `NULL` since the last `litepcie_dma_process`.
- **`Caller.Inv`**: a software count of the driver is the number of buffers that the process got and
  of those that it can still get, and the next one is in the slot of its number.
- **`zero_copy_slots`**.
-/

namespace Xtrx
namespace User

open Conc Kernel

variable {n : Nat}

structure Caller where
  ctrl : LitepcieDmaCtrl
  got : Dir → List Ptr
  null : Dir → Bool

/-- Calls of the process, and interrupts between them. The events of a `litepcie_dma_process` are its
system calls and the interrupts between these. -/
inductive CallerEv (n : Nat) where
  | process (es : List (Ev (Irq n) Choice))
  | next (d : Dir)
  | irq (e : Irq n)

namespace Caller

/-- After `litepcie_dma_init`. -/
def start (ctrl : LitepcieDmaCtrl) : Caller := ⟨ctrl, fun _ => [], fun _ => true⟩

/-- The process asks for the next buffer of a direction. -/
def next (d : Dir) (c : Caller) : Caller :=
  let r := nextBuffer d c.ctrl
  { ctrl := r.2
    got := Function.update c.got d (c.got d ++ r.1.toList)
    null := Function.update c.null d r.1.isNone }

/-- One event. A `litepcie_dma_process` follows a `NULL` of both functions. -/
def step (i : Fin n) (fd : Nat) : Caller × Driver n → CallerEv n → Option (Caller × Driver n)
  | (c, k), .process es =>
    if c.null .writer ∧ c.null .reader then
      match (ctrlWorld i fd).exec (litepcieDmaProcess c.ctrl) es k with
      | some ((.ok _, ctrl), k) => some ({ c with ctrl, null := fun _ => false }, k)
      | _ => none
    else none
  | (c, k), .next d => some (c.next d, k)
  | (c, k), .irq e => some (c, { k with dev := e.raise k.dev })

def machine (i : Fin n) (fd : Nat) : Machine (Caller × Driver n) (CallerEv n) := ⟨step i fd⟩

end Caller

/-! ## Between the calls -/

/-- Interrupts raise hardware counts and change nothing else. -/
structure Quiet (k k' : Driver n) : Prop where
  files : k'.files = k.files
  hw : ∀ i d, (k.dev.dir i d).hwCount ≤ (k'.dev.dir i d).hwCount
  sw : ∀ i d, (k'.dev.dir i d).swCount = (k.dev.dir i d).swCount
  enable : ∀ i d, (k'.dev.dir i d).enable = (k.dev.dir i d).enable

section

variable {i : Fin n} {fd : Nat} {k k' k'' : Driver n}

theorem Quiet.refl (k : Driver n) : Quiet k k :=
  ⟨rfl, fun _ _ => Int.le_refl _, fun _ _ => rfl, fun _ _ => rfl⟩

theorem Quiet.trans (h : Quiet k k') (h' : Quiet k' k'') : Quiet k k'' :=
  ⟨h'.files.trans h.files, fun i d => Int.le_trans (h.hw i d) (h'.hw i d),
    fun i d => (h'.sw i d).trans (h.sw i d), fun i d => (h'.enable i d).trans (h.enable i d)⟩

theorem quiet_irq (e : Irq n) (k : Driver n) : Quiet k { k with dev := e.raise k.dev } where
  files := rfl
  hw := fun i d => by
    obtain ⟨hhw, -⟩ := e.dir_raise k.dev i d
    show _ ≤ ((e.raise k.dev).dir i d).hwCount
    rw [hhw]
    split <;> omega
  sw := fun i d => (e.dir_raise k.dev i d).2.1
  enable := fun i d => (e.dir_raise k.dev i d).2.2.1

theorem quiet_of_rely (h : (ctrlWorld i fd).Rely k k') : Quiet k k' := by
  induction h with
  | refl => exact .refl k
  | tail _ hst ih =>
    obtain ⟨e, he⟩ := hst
    cases he
    exact ih.trans (quiet_irq e _)

/-- A whole run of a call and what follows. -/
theorem exec_ctrlCall {α : Type} {q : CtrlCall n} {f : q.Ans → Prog (CtrlCall n) CtrlCall.Ans α}
    {es : List (Ev (Irq n) Choice)} {r : α × Driver n}
    (h : (ctrlWorld i fd).exec (.call q f) es k = some r) :
    ∃ k₁ o a k₂ fs, Quiet k k₁ ∧ ctrlCall i fd q o k₁ = some (a, k₂) ∧
      (ctrlWorld i fd).exec (f a) fs k₂ = some r := by
  obtain ⟨k₁, o, a, k₂, fs, hr, hc, -, hex⟩ := World.exec_call h
  exact ⟨k₁, o, a, k₂, fs, quiet_of_rely hr, hc, hex⟩

/-- An ioctl, on the open file descriptor. -/
theorem exec_ioctl {α : Type} {c : Driver.Ioctl n}
    {f : (Sysc.ioctl c).Ans → Prog (CtrlCall n) CtrlCall.Ans α}
    {es : List (Ev (Irq n) Choice)} {r : α × Driver n} {p : ChanPriv n} (hp : k.files fd = some p)
    (h : (ctrlWorld i fd).exec (.call (.sysc (.ioctl c)) f) es k = some r) :
    ∃ k₁ fs, Quiet k k₁ ∧ (ctrlWorld i fd).exec
      (f ((Driver.ioctlBody fd p k₁ c).1, some (Driver.ioctlBody fd p k₁ c).2.1)) fs
      (Driver.ioctlBody fd p k₁ c).2.2 = some r := by
  obtain ⟨k₁, o, a, k₂, fs, hq, hc, hex⟩ := exec_ctrlCall h
  have hp₁ : k₁.files fd = some p := hq.files ▸ hp
  have hc : kernelCall fd (.ioctl c) o k₁ = some (a, k₂) := hc
  rw [kernelCall_ioctl hp₁, litepcieIoctl_none] at hc
  cases hc
  exact ⟨k₁, fs, hq, hex⟩

variable {α : Type} {d : Dir} {x : LitepcieDmaCtrl} {f : Unit → CtrlProc n α}
  {es : List (Ev (Irq n) Choice)} {r : (Except Halt α × LitepcieDmaCtrl) × Driver n}
  {p : ChanPriv n}

/-- The counts of a direction are fetched. -/
theorem exec_dmaCounts (hp : k.files fd = some p) (huse : (x.dir d).use ≠ 0)
    (h : (ctrlWorld i fd).exec ((dmaCounts d >>= f) x) es k = some r) :
    ∃ k₁ fs, Quiet k k₁ ∧ (ctrlWorld i fd).exec (f () (x.modDir d fun c =>
      { c with hwCount := (Driver.ioctlDma d p.chan 1 k₁.dev).1.1
               swCount := (Driver.ioctlDma d p.chan 1 k₁.dev).1.2 })) fs
      { k₁ with dev := (Driver.ioctlDma d p.chan 1 k₁.dev).2 } = some r := by
  unfold dmaCounts at h
  rw [bind_assoc, Proc.get_bind, Proc.ite_bind_apply, if_neg huse] at h
  cases d with
  | writer =>
    obtain ⟨k₁, fs, hq, hex⟩ := exec_ioctl hp h
    exact ⟨k₁, fs, hq, hex⟩
  | reader =>
    obtain ⟨k₁, fs, hq, hex⟩ := exec_ioctl hp h
    exact ⟨k₁, fs, hq, hex⟩

/-- A `poll` changes nothing. -/
theorem ctrlCall_poll {events : Events} {t : Int} {o : Choice} {a : Int × Option Events}
    (h : ctrlCall i fd (.poll events t) o k = some (a, k')) : k' = k := by
  simp only [ctrlCall] at h
  split at h
  · cases h
    rfl
  · split at h
    · split at h <;> cases h
      rfl
    · split at h <;> cases h
      rfl
    · cases h
      rfl

/-- The `poll`: any answer. -/
theorem exec_pollEvents {events : Events} {t : Int} {f : Int × Option Events → CtrlProc n α}
    (h : (ctrlWorld i fd).exec ((pollEvents events t >>= f) x) es k = some r) :
    ∃ k₁ fs a, Quiet k k₁ ∧ (ctrlWorld i fd).exec (f a x) fs k₁ = some r := by
  obtain ⟨k₁, o, a, k₂, fs, hq, hc, hex⟩ := exec_ctrlCall h
  exact ⟨k₁, fs, a, hq, ctrlCall_poll hc ▸ hex⟩

/-- An event that is not signalled, or an update of the software count. -/
theorem exec_dmaEvent (hp : k.files fd = some p) (hz : x.zeroCopy ≠ 0)
    (h : (ctrlWorld i fd).exec ((dmaEvent d >>= f) x) es k = some r) :
    (ctrlWorld i fd).exec (f () (x.modDir d fun c => { c with buffersAvailable := 0 })) es k = some r ∨
      ∃ k₁ fs, Quiet k k₁ ∧ ∃ v, v = (x.dir d).swCount + (BitVec.ofInt 32 (batch d (x.dir d))).toNat ∧
        (ctrlWorld i fd).exec (f () { x.modDir d (countAvailable d) with mmapDmaUpdate := v }) fs
          { k₁ with dev := k₁.dev.modDir p.chan d fun c => c.setSwCount v } = some r := by
  unfold dmaEvent at h
  rw [bind_assoc, Proc.get_bind] at h
  by_cases hr : x.revents.get d = true
  · right
    rw [Proc.ite_bind_apply, if_neg (not_not.mpr hr), Proc.ite_bind_apply, if_pos hz] at h
    cases d with
    | writer =>
      obtain ⟨k₁, fs, hq, hex⟩ := exec_ioctl hp h
      exact ⟨k₁, fs, hq, _, rfl, hex⟩
    | reader =>
      obtain ⟨k₁, fs, hq, hex⟩ := exec_ioctl hp h
      exact ⟨k₁, fs, hq, _, rfl, hex⟩
  · left
    rw [Proc.ite_bind_apply, if_pos hr] at h
    exact h

end

/-! ## The counts -/

/-- How far a software count may be ahead of the hardware count. -/
def slack : Dir → Int
  | .writer => 0
  | .reader => (dmaBufferCount / 2 : Nat)

theorem batch_eq (d : Dir) (c : CtrlDir) : batch d c = c.hwCount + slack d - c.swCount := by
  cases d <;> simp only [batch, slack] <;> omega

/-- The counts of a direction with the software count `g`: of an enabled engine, or of one that has
never been enabled. -/
structure Ready (d : Dir) (g : Int) (e : DmaDir) : Prop where
  sw : e.swCount = g
  bound : e.enable = 1 ∧ g ≤ e.hwCount + slack d ∨ e.enable = 0 ∧ g = 0

/-- The counts are fetched. -/
structure Fetched (d : Dir) (g : Int) (c : CtrlDir) (e : DmaDir) : Prop where
  enable : e.enable = 1
  sw : e.swCount = g
  hw : c.hwCount ≤ e.hwCount
  count : c.swCount = g
  bound : g ≤ c.hwCount + slack d

/-- The software count of the driver is ahead by the buffers that are available. -/
structure Settled (d : Dir) (g : Int) (c : CtrlDir) (e : DmaDir) : Prop where
  ready : Ready d (g + c.buffersAvailable.toNat) e
  offset : c.buffersAvailable ≠ 0 → (c.usrBufOffset.toNat : Int) = g % dmaBufferCount

section

variable {d : Dir} {g : Int} {c : CtrlDir} {e e' : DmaDir} {i : Fin n} {k k' : Driver n}

theorem Ready.quiet (h : Ready d g (k.dev.dir i d)) (hq : Quiet k k') : Ready d g (k'.dev.dir i d) := by
  refine ⟨(hq.sw i d).trans h.sw, ?_⟩
  have hhw := hq.hw i d
  rw [hq.enable i d]
  rcases h.bound with ⟨he, hb⟩ | ⟨he, h0⟩
  · exact .inl ⟨he, by omega⟩
  · exact .inr ⟨he, h0⟩

theorem Fetched.quiet (h : Fetched d g c (k.dev.dir i d)) (hq : Quiet k k') :
    Fetched d g c (k'.dev.dir i d) where
  enable := (hq.enable i d).trans h.enable
  sw := (hq.sw i d).trans h.sw
  hw := Int.le_trans h.hw (hq.hw i d)
  count := h.count
  bound := h.bound

theorem Settled.quiet (h : Settled d g c (k.dev.dir i d)) (hq : Quiet k k') :
    Settled d g c (k'.dev.dir i d) := ⟨h.ready.quiet hq, h.offset⟩

/-- The ioctl that enables the engine and answers with the counts. -/
theorem Ready.fetched {s : LitepcieDevice n} (h : Ready d g (s.dir i d)) (c : CtrlDir) :
    Fetched d g { c with hwCount := (Driver.ioctlDma d i 1 s).1.1
                         swCount := (Driver.ioctlDma d i 1 s).1.2 }
      ((Driver.ioctlDma d i 1 s).2.dir i d) := by
  have hdir := Driver.dir_ioctlDma d d i i 1 s
  rw [if_pos ⟨rfl, rfl⟩] at hdir
  rw [Driver.counts_ioctlDma, hdir]
  rcases h.bound with ⟨he, hb⟩ | ⟨he, rfl⟩
  · rw [he, if_neg (not_not.mpr rfl)]
    exact ⟨rfl, h.sw, Int.le_refl _, h.sw, hb⟩
  · rw [he, if_pos (by decide)]
    refine ⟨rfl, rfl, Int.le_refl _, rfl, ?_⟩
    show (0 : Int) ≤ 0 + slack d
    cases d <;> decide

/-- No event, or a timeout. -/
theorem Fetched.settled (h : Fetched d g c e) (hc : c.buffersAvailable = 0) : Settled d g c e := by
  refine ⟨?_, fun hne => absurd hc hne⟩
  have hw := h.hw
  have hb := h.bound
  rw [hc]
  refine ⟨h.sw.trans ?_, .inl ⟨h.enable, ?_⟩⟩
  · show g = g + ((0#32).toNat : Nat)
    simp
  · show g + ((0#32).toNat : Nat) ≤ _
    rw [BitVec.toNat_zero]
    omega

/-- A batch: the software count goes to where the buffers end. -/
theorem Fetched.batch (h : Fetched d g c e) (hg : 0 ≤ g) (hsmall : batch d c < 2 ^ 32) :
    Settled d g (countAvailable d c)
      (e.setSwCount (c.swCount + (BitVec.ofInt 32 (User.batch d c)).toNat)) := by
  have hb := h.bound
  have hw := h.hw
  have hcount := h.count
  rw [batch_eq] at hsmall
  have hsize : ((BitVec.ofInt 32 (User.batch d c)).toNat : Int) = c.hwCount + slack d - g := by
    rw [BitVec.toNat_ofInt, batch_eq, hcount]
    omega
  refine ⟨⟨?_, .inl ⟨h.enable, ?_⟩⟩, fun _ => ?_⟩
  · show c.swCount + _ = g + _
    rw [hcount]
    rfl
  · show g + ((BitVec.ofInt 32 (User.batch d c)).toNat : Int) ≤ e.hwCount + slack d
    rw [hsize]
    omega
  · show ((BitVec.ofInt 32 (c.swCount.tmod dmaBufferCount)).toNat : Int) = _
    rw [hcount, BitVec.toNat_ofInt, Int.tmod_eq_emod_of_nonneg hg]
    unfold dmaBufferCount
    omega

end

/-! ## `litepcie_dma_process` -/

/-- The fields that `litepcie_dma_init` sets for good. -/
structure SameSetup (x x' : LitepcieDmaCtrl) : Prop where
  zeroCopy : x'.zeroCopy = x.zeroCopy
  use : ∀ d, (x'.dir d).use = (x.dir d).use
  buf : ∀ d, (x'.dir d).buf = (x.dir d).buf

/-- The sizes of the batches do not wrap around. -/
def SmallBatches (x : LitepcieDmaCtrl) : Prop := ∀ d, batch d (x.dir d) < 2 ^ 32

section

variable {x x' x'' : LitepcieDmaCtrl} {d : Dir} {f : CtrlDir → CtrlDir}

theorem SameSetup.trans (h : SameSetup x x') (h' : SameSetup x' x'') : SameSetup x x'' :=
  ⟨h'.zeroCopy.trans h.zeroCopy, fun d => (h'.use d).trans (h.use d),
    fun d => (h'.buf d).trans (h.buf d)⟩

theorem sameSetup_modDir (huse : ∀ c, (f c).use = c.use) (hbuf : ∀ c, (f c).buf = c.buf) :
    SameSetup x (x.modDir d f) := by
  refine ⟨by cases d <;> rfl, fun e => ?_, fun e => ?_⟩
  · rw [LitepcieDmaCtrl.dir_modDir]
    split
    · exact huse _
    · rfl
  · rw [LitepcieDmaCtrl.dir_modDir]
    split
    · exact hbuf _
    · rfl

theorem SmallBatches.of_modDir (hf : ∀ c, batch d (f c) = batch d c)
    (h : SmallBatches (x.modDir d f)) : SmallBatches x := by
  intro e
  have := h e
  rw [LitepcieDmaCtrl.dir_modDir] at this
  split at this
  · rename_i he
    rw [he] at this ⊢
    rwa [hf] at this
  · exact this

end

section

variable {i : Fin n} {fd : Nat} {k k' : Driver n} {x x' : LitepcieDmaCtrl} {d : Dir} {g : Int}
  {p : ChanPriv n} {es : List (Ev (Irq n) Choice)} {α : Type} {f : Unit → CtrlProc n α}
  {r : (Except Halt α × LitepcieDmaCtrl) × Driver n}

/-- After the event of a direction the driver's count is ahead by the new batch; the other direction
stays as it is. -/
theorem settled_dmaEvent (hp : k.files fd = some p) (hz : x.zeroCopy ≠ 0) (hg : 0 ≤ g)
    (hd : Fetched d g (x.dir d) (k.dev.dir p.chan d))
    (h : (ctrlWorld i fd).exec ((dmaEvent d >>= f) x) es k = some r) :
    ∃ k₁ x₁ fs, (ctrlWorld i fd).exec (f () x₁) fs k₁ = some r ∧ k₁.files = k.files ∧
      SameSetup x x₁ ∧ (SmallBatches x₁ → SmallBatches x ∧
        Settled d g (x₁.dir d) (k₁.dev.dir p.chan d)) ∧
      ∀ e, e ≠ d → x₁.dir e = x.dir e ∧ ∃ k₀, Quiet k k₀ ∧ k₁.dev.dir p.chan e = k₀.dev.dir p.chan e := by
  rcases exec_dmaEvent hp hz h with hex | ⟨k₁, fs, hq, v, rfl, hex⟩
  · refine ⟨k, x.modDir d fun c => { c with buffersAvailable := 0 }, es, hex, rfl, ?_, fun hs => ⟨?_, ?_⟩,
      fun e he => ⟨?_, k, .refl k, rfl⟩⟩
    · exact sameSetup_modDir (fun _ => rfl) fun _ => rfl
    · exact hs.of_modDir fun c => by cases d <;> rfl
    · rw [LitepcieDmaCtrl.dir_modDir, if_pos rfl]
      exact Fetched.settled ⟨hd.enable, hd.sw, hd.hw, hd.count, hd.bound⟩ rfl
    · rw [LitepcieDmaCtrl.dir_modDir, if_neg he]
  · have hx : ∀ e v, ({ x.modDir d (countAvailable d) with mmapDmaUpdate := v } : LitepcieDmaCtrl).dir e =
        (x.modDir d (countAvailable d)).dir e := by
      intro e v
      cases e <;> rfl
    refine ⟨_, _, fs, hex, hq.files, ?_, fun hs => ?_, fun e he => ⟨?_, k₁, hq, ?_⟩⟩
    · have hset : SameSetup x (x.modDir d (countAvailable d)) :=
        sameSetup_modDir (fun _ => rfl) fun _ => rfl
      exact ⟨hset.zeroCopy, fun e => by rw [hx]; exact hset.use e, fun e => by rw [hx]; exact hset.buf e⟩
    · have hsmall : SmallBatches x := by
        refine SmallBatches.of_modDir (d := d) (f := countAvailable d) (fun c => ?_) fun e => ?_
        · cases d <;> rfl
        · have := hs e
          rwa [hx] at this
      refine ⟨hsmall, ?_⟩
      rw [hx, LitepcieDmaCtrl.dir_modDir, if_pos rfl, LitepcieDevice.dir_modDir_self]
      exact (hd.quiet hq).batch hg (hsmall d)
    · rw [hx, LitepcieDmaCtrl.dir_modDir, if_neg he]
    · rw [LitepcieDevice.dir_modDir_ne fun h => he h.2]

end

section

variable {i : Fin n} {fd : Nat} {k k' : Driver n} {x x' : LitepcieDmaCtrl} {d : Dir} {g : Dir → Int}
  {p : ChanPriv n} {es : List (Ev (Irq n) Choice)} {α : Type} {f : Unit → CtrlProc n α}
  {r : (Except Halt α × LitepcieDmaCtrl) × Driver n}

/-- After the fetch of one direction its counts are there; the other one stays as it is. -/
theorem fetched_dmaCounts (hp : k.files fd = some p) (huse : (x.dir d).use ≠ 0)
    (hd : Ready d (g d) (k.dev.dir p.chan d))
    (h : (ctrlWorld i fd).exec ((dmaCounts d >>= f) x) es k = some r) :
    ∃ k₁ x₁ fs, (ctrlWorld i fd).exec (f () x₁) fs k₁ = some r ∧ k₁.files = k.files ∧
      SameSetup x x₁ ∧ (∀ e, (x₁.dir e).buffersAvailable = (x.dir e).buffersAvailable) ∧
      Fetched d (g d) (x₁.dir d) (k₁.dev.dir p.chan d) ∧
      ∀ e, e ≠ d → x₁.dir e = x.dir e ∧ ∃ k₀, Quiet k k₀ ∧ k₁.dev.dir p.chan e = k₀.dev.dir p.chan e := by
  obtain ⟨k₁, fs, hq, hex⟩ := exec_dmaCounts hp huse h
  refine ⟨_, _, fs, hex, hq.files, sameSetup_modDir (fun _ => rfl) fun _ => rfl, fun e => ?_, ?_,
    fun e he => ⟨?_, k₁, hq, ?_⟩⟩
  · rw [LitepcieDmaCtrl.dir_modDir]
    split <;> rfl
  · rw [LitepcieDmaCtrl.dir_modDir, if_pos rfl]
    exact (hd.quiet hq).fetched _
  · rw [LitepcieDmaCtrl.dir_modDir, if_neg he]
  · show (Driver.ioctlDma d p.chan 1 k₁.dev).2.dir p.chan e = _
    rw [Driver.dir_ioctlDma, if_neg fun h => he h.2]

/-- The fetches of both directions. -/
theorem fetched_both (hp : k.files fd = some p) (huse : ∀ d, (x.dir d).use ≠ 0)
    (hready : ∀ d, Ready d (g d) (k.dev.dir p.chan d))
    (h : (ctrlWorld i fd).exec ((dmaCounts .writer >>= fun _ => dmaCounts .reader >>= f) x) es k = some r) :
    ∃ k₁ x₁ fs, (ctrlWorld i fd).exec (f () x₁) fs k₁ = some r ∧ k₁.files = k.files ∧
      SameSetup x x₁ ∧ (∀ e, (x₁.dir e).buffersAvailable = (x.dir e).buffersAvailable) ∧
      ∀ d, Fetched d (g d) (x₁.dir d) (k₁.dev.dir p.chan d) := by
  obtain ⟨k₁, x₁, fs₁, hex₁, hfiles₁, hset₁, hav₁, hw₁, hother₁⟩ :=
    fetched_dmaCounts (d := .writer) hp (huse _) (hready _) h
  obtain ⟨-, k₀, hq₀, hk₀⟩ := hother₁ .reader (by decide)
  have hr₁ : Ready .reader (g .reader) (k₁.dev.dir p.chan .reader) := hk₀ ▸ (hready _).quiet hq₀
  obtain ⟨k₂, x₂, fs₂, hex₂, hfiles₂, hset₂, hav₂, hr₂, hother₂⟩ :=
    fetched_dmaCounts (d := .reader) (hfiles₁ ▸ hp) (by rw [hset₁.use]; exact huse _) hr₁ hex₁
  obtain ⟨hx₂, k₀', hq₀', hk₀'⟩ := hother₂ .writer (by decide)
  refine ⟨k₂, x₂, fs₂, hex₂, hfiles₂.trans hfiles₁, hset₁.trans hset₂,
    fun e => (hav₂ e).trans (hav₁ e), fun d => ?_⟩
  cases d with
  | writer =>
    rw [hk₀', hx₂]
    exact hw₁.quiet hq₀'
  | reader => exact hr₂

/-- The events of both directions. -/
theorem settled_dmaEvents (hp : k.files fd = some p) (hz : x.zeroCopy ≠ 0) (hg : ∀ d, 0 ≤ g d)
    (hf : ∀ d, Fetched d (g d) (x.dir d) (k.dev.dir p.chan d))
    (h : (ctrlWorld i fd).exec ((dmaEvent .writer >>= fun _ => dmaEvent .reader) x) es k =
      some ((.ok (), x'), k')) :
    k'.files = k.files ∧ SameSetup x x' ∧
      (SmallBatches x' → ∀ d, Settled d (g d) (x'.dir d) (k'.dev.dir p.chan d)) := by
  obtain ⟨k₁, x₁, fs₁, hex₁, hfiles₁, hset₁, hsettle₁, hother₁⟩ :=
    settled_dmaEvent hp hz (hg _) (hf .writer) h
  obtain ⟨hx₁, k₀, hq₀, hk₀⟩ := hother₁ .reader (by decide)
  have hr₁ : Fetched .reader (g .reader) (x₁.dir .reader) (k₁.dev.dir p.chan .reader) := by
    rw [hx₁, hk₀]
    exact (hf .reader).quiet hq₀
  rw [← bind_pure (dmaEvent .reader)] at hex₁
  obtain ⟨k₂, x₂, fs₂, hex₂, hfiles₂, hset₂, hsettle₂, hother₂⟩ :=
    settled_dmaEvent (hfiles₁ ▸ hp) (hset₁.zeroCopy ▸ hz) (hg _) hr₁ hex₁
  obtain ⟨hx₂, k₀', hq₀', hk₀'⟩ := hother₂ .writer (by decide)
  obtain ⟨he, hrely⟩ := World.exec_ret hex₂
  cases he
  have hq := quiet_of_rely hrely
  refine ⟨hq.files.trans (hfiles₂.trans hfiles₁), hset₁.trans hset₂, fun hs e => ?_⟩
  obtain ⟨hs₁, hreader⟩ := hsettle₂ hs
  obtain ⟨-, hwriter⟩ := hsettle₁ hs₁
  cases e with
  | writer =>
    rw [hx₂]
    refine Settled.quiet ?_ hq
    rw [hk₀']
    exact hwriter.quiet hq₀'
  | reader => exact hreader.quiet hq

/-- What `litepcie_dma_process` does when no buffers are available. -/
theorem settled_litepcieDmaProcess (hp : k.files fd = some p) (huse : ∀ d, (x.dir d).use ≠ 0)
    (hz : x.zeroCopy ≠ 0) (hempty : ∀ d, (x.dir d).buffersAvailable = 0)
    (hg : ∀ d, 0 ≤ g d) (hready : ∀ d, Ready d (g d) (k.dev.dir p.chan d))
    (h : (ctrlWorld i fd).exec (litepcieDmaProcess x) es k = some ((.ok (), x'), k')) :
    k'.files = k.files ∧ SameSetup x x' ∧
      (SmallBatches x' → ∀ d, Settled d (g d) (x'.dir d) (k'.dev.dir p.chan d)) := by
  obtain ⟨k₁, x₁, fs₁, hex₁, hfiles₁, hset₁, hav₁, hf₁⟩ := fetched_both hp huse hready h
  obtain ⟨k₂, fs₂, ⟨ret, revents⟩, hq₂, hex₂⟩ := exec_pollEvents hex₁
  have hfiles₂ : k₂.files = k.files := hq₂.files.trans hfiles₁
  let x₂ : LitepcieDmaCtrl := { x₁ with revents := revents.getD x₁.revents }
  have hdir : ∀ e, x₂.dir e = x₁.dir e := fun e => by cases e <;> rfl
  have hset₂ : SameSetup x x₂ :=
    ⟨hset₁.zeroCopy, fun e => by rw [hdir]; exact hset₁.use e, fun e => by rw [hdir]; exact hset₁.buf e⟩
  have hf₂ : ∀ d, Fetched d (g d) (x₂.dir d) (k₂.dev.dir p.chan d) := by
    intro d
    rw [hdir]
    exact (hf₁ d).quiet hq₂
  by_cases hret : ret = 0
  · -- timeout
    have hex : (ctrlWorld i fd).exec ((pure () : CtrlProc n Unit) x₂) fs₂ k₂ =
        some ((.ok (), x'), k') := by
      rw [← hex₂]
      show _ = (ctrlWorld i fd).exec ((if ret = 0 then (pure () : CtrlProc n Unit) else _) x₂) fs₂ k₂
      rw [if_pos hret]
    obtain ⟨he, hrely⟩ := World.exec_ret hex
    rw [show x' = x₂ from congrArg Prod.snd he]
    have hq := quiet_of_rely hrely
    have hav : ∀ e, (x₂.dir e).buffersAvailable = 0 := fun e => by rw [hdir, hav₁, hempty]
    exact ⟨hq.files.trans hfiles₂, hset₂, fun _ e => ((hf₂ e).quiet hq).settled (hav e)⟩
  · have hex : (ctrlWorld i fd).exec ((dmaEvent .writer >>= fun _ => dmaEvent .reader) x₂) fs₂ k₂ =
        some ((.ok (), x'), k') := by
      rw [← hex₂]
      show _ = (ctrlWorld i fd).exec ((if ret = 0 then (pure () : CtrlProc n Unit) else _) x₂) fs₂ k₂
      rw [if_neg hret]
    obtain ⟨hfiles, hset, hsettle⟩ :=
      settled_dmaEvents (hfiles₂ ▸ hp) (hset₂.zeroCopy ▸ hz) hg hf₂ hex
    exact ⟨hfiles.trans hfiles₂, hset₂.trans hset, hsettle⟩

end

/-! ## The slots -/

/-- Slot `j` of the ring of a direction. -/
def slot (d : Dir) (j : Nat) : Ptr := ⟨.mapping d, j % dmaBufferCount * dmaBufferSize⟩

/-- A direction after its next buffer is handed out. -/
def nextDir (c : CtrlDir) : CtrlDir :=
  { c with
    buffersAvailable := c.buffersAvailable - 1
    usrBufOffset := (c.usrBufOffset + 1) % BitVec.ofNat 32 dmaBufferCount }

/-- One buffer more is handed out, the one of the next slot. -/
theorem Settled.step {d : Dir} {j : Nat} {c : CtrlDir} {e : DmaDir} (h : Settled d j c e)
    (hav : c.buffersAvailable ≠ 0) :
    Settled d ((j + 1 : Nat)) (nextDir c) e ∧
      Ptr.add ⟨.mapping d, 0⟩ (c.usrBufOffset * BitVec.ofNat 32 dmaBufferSize).toNat = slot d j := by
  have hoff := h.offset hav
  have hpos : 0 < c.buffersAvailable.toNat := by
    rw [Nat.pos_iff_ne_zero]
    exact fun h0 => hav (BitVec.eq_of_toNat_eq h0)
  have hone : (c.buffersAvailable - 1).toNat = c.buffersAvailable.toNat - 1 := by
    rw [BitVec.toNat_sub]
    have := c.buffersAvailable.isLt
    simp only [BitVec.toNat_ofNat, BitVec.ofNat_eq_ofNat]
    omega
  unfold dmaBufferCount at hoff
  have hlt : c.usrBufOffset.toNat = j % 256 := by omega
  refine ⟨⟨?_, fun _ => ?_⟩, ?_⟩
  · have hsum : ((j + 1 : Nat) : Int) + ((nextDir c).buffersAvailable.toNat : Nat) =
        (j : Int) + (c.buffersAvailable.toNat : Nat) := by
      show ((j + 1 : Nat) : Int) + ((c.buffersAvailable - 1).toNat : Nat) = _
      rw [hone]
      omega
    rw [hsum]
    exact h.ready
  · show (((c.usrBufOffset + 1) % BitVec.ofNat 32 dmaBufferCount).toNat : Int) = ((j + 1 : Nat) : Int) % _
    unfold dmaBufferCount
    rw [BitVec.toNat_umod, BitVec.toNat_add]
    simp only [BitVec.toNat_ofNat, BitVec.ofNat_eq_ofNat, Nat.reducePow, Nat.reduceMod]
    omega
  · unfold slot Ptr.add dmaBufferCount dmaBufferSize
    rw [BitVec.toNat_mul]
    simp only [BitVec.toNat_ofNat, Nat.zero_add, Ptr.mk.injEq, true_and]
    omega

/-- The invariant of the caller (module doc). -/
structure Caller.Inv (i : Fin n) (fd : Nat) (c : Caller) (k : Driver n) : Prop where
  file : ∃ p, k.files fd = some p ∧ p.chan = i
  zeroCopy : c.ctrl.zeroCopy ≠ 0
  use : ∀ d, (c.ctrl.dir d).use ≠ 0
  buf : ∀ d, (c.ctrl.dir d).buf = ⟨.mapping d, 0⟩
  settled : ∀ d, Settled d (c.got d).length (c.ctrl.dir d) (k.dev.dir i d)
  got : ∀ d j p, (c.got d)[j]? = some p → p = slot d j
  null : ∀ d, c.null d = true → (c.ctrl.dir d).buffersAvailable = 0

namespace Caller

variable {i : Fin n} {fd : Nat} {c c' : Caller} {k k' : Driver n} {d : Dir}

theorem Inv.quiet (h : c.Inv i fd k) (hq : Quiet k k') : c.Inv i fd k' := by
  obtain ⟨p, hp, hi⟩ := h.file
  exact ⟨⟨p, hq.files ▸ hp, hi⟩, h.zeroCopy, h.use, h.buf, fun d => (h.settled d).quiet hq, h.got, h.null⟩

theorem next_null (h : (c.ctrl.dir d).buffersAvailable = 0) :
    c.next d = { c with null := Function.update c.null d true } := by
  simp [Caller.next, nextBuffer, h]

theorem next_buffer (h : (c.ctrl.dir d).buffersAvailable ≠ 0) :
    c.next d = ⟨c.ctrl.modDir d nextDir, Function.update c.got d (c.got d ++ [(c.ctrl.dir d).buf.add
      ((c.ctrl.dir d).usrBufOffset * BitVec.ofNat 32 dmaBufferSize).toNat]),
      Function.update c.null d false⟩ := by
  simp only [Caller.next, nextBuffer, h, if_false]
  rfl

/-- The next buffer is in the slot of its number. -/
theorem Inv.next (h : c.Inv i fd k) (d : Dir) : (c.next d).Inv i fd k := by
  by_cases hav : (c.ctrl.dir d).buffersAvailable = 0
  · rw [next_null hav]
    refine ⟨h.file, h.zeroCopy, h.use, h.buf, h.settled, h.got, fun e he => ?_⟩
    dsimp only at he
    by_cases hed : e = d
    · exact hed ▸ hav
    · rw [Function.update_of_ne hed] at he
      exact h.null e he
  · obtain ⟨hsize, hptr⟩ := (h.settled d).step hav
    have hsame : SameSetup c.ctrl (c.ctrl.modDir d nextDir) :=
      sameSetup_modDir (fun _ => rfl) fun _ => rfl
    rw [next_buffer hav]
    refine ⟨h.file, hsame.zeroCopy ▸ h.zeroCopy, fun e => (hsame.use e).symm ▸ h.use e,
      fun e => (hsame.buf e).trans (h.buf e), fun e => ?_, fun e j p hj => ?_, fun e he => ?_⟩
    · dsimp only
      rw [LitepcieDmaCtrl.dir_modDir]
      by_cases hed : e = d
      · subst hed
        rw [Function.update_self, if_pos rfl, List.length_append, List.length_singleton]
        exact hsize
      · rw [Function.update_of_ne hed, if_neg hed]
        exact h.settled e
    · dsimp only at hj
      by_cases hed : e = d
      · subst hed
        rw [Function.update_self] at hj
        rcases Nat.lt_or_ge j (c.got e).length with hlt | hge
        · rw [List.getElem?_append_left hlt] at hj
          exact h.got e j p hj
        · rw [List.getElem?_append_right hge, List.getElem?_singleton] at hj
          split at hj
          · cases hj
            obtain rfl : j = (c.got e).length := by omega
            rw [h.buf]
            exact hptr
          · cases hj
      · rw [Function.update_of_ne hed] at hj
        exact h.got e j p hj
    · dsimp only at he ⊢
      by_cases hed : e = d
      · subst hed
        rw [Function.update_self] at he
        cases he
      · rw [Function.update_of_ne hed] at he
        rw [LitepcieDmaCtrl.dir_modDir, if_neg hed]
        exact h.null e he

/-- A `litepcie_dma_process` after both functions returned `NULL`. -/
theorem Inv.process (h : c.Inv i fd k) (hnull : ∀ d, c.null d = true) {x : LitepcieDmaCtrl}
    {es : List (Ev (Irq n) Choice)}
    (hex : (ctrlWorld i fd).exec (litepcieDmaProcess c.ctrl) es k = some ((.ok (), x), k'))
    (hs : SmallBatches x) : ({ c with ctrl := x, null := fun _ => false } : Caller).Inv i fd k' := by
  obtain ⟨p, hp, rfl⟩ := h.file
  have hempty : ∀ d, (c.ctrl.dir d).buffersAvailable = 0 := fun d => h.null d (hnull d)
  obtain ⟨hfiles, hsame, hsettled⟩ := settled_litepcieDmaProcess (g := fun d => (c.got d).length) hp
    h.use h.zeroCopy hempty (fun d => Int.natCast_nonneg _) (fun d => by
      have := (h.settled d).ready
      rw [hempty d] at this
      simpa using this) hex
  exact ⟨⟨p, hfiles ▸ hp, rfl⟩, hsame.zeroCopy ▸ h.zeroCopy, fun d => (hsame.use d).symm ▸ h.use d,
    fun d => (hsame.buf d).trans (h.buf d), hsettled hs, h.got, nofun⟩

/-- One event. -/
theorem Inv.step (h : c.Inv i fd k) {e : CallerEv n} (hs : SmallBatches c'.ctrl)
    (hst : Caller.step i fd (c, k) e = some (c', k')) : c'.Inv i fd k' := by
  cases e with
  | next d =>
    cases hst
    exact h.next d
  | irq e =>
    cases hst
    exact h.quiet (quiet_irq e k)
  | process es =>
    simp only [Caller.step] at hst
    split at hst
    · rename_i hnull
      split at hst
      · rename_i u x k'' hex
        cases hst
        exact h.process (fun d => by cases d with
          | writer => exact hnull.1
          | reader => exact hnull.2) hex hs
      · cases hst
    · cases hst

end Caller

/-! ## `litepcie_dma_init` -/

section

variable {i : Fin n} {fd : Nat} {k k' : Driver n} {x x' : LitepcieDmaCtrl} {d : Dir}
  {p : ChanPriv n} {es : List (Ev (Irq n) Choice)} {α β : Type} {a : α}

theorem sysc_bind (m : Lib n LitepcieDmaCtrl α) (f : α → Lib n LitepcieDmaCtrl β) :
    sysc (m >>= f) = (sysc m >>= fun a => sysc (f a) : CtrlProc n β) := by
  funext x
  let g : ∀ q : Sysc n, (CtrlCall.sysc q).Ans → q.Ans := fun _ r => r
  refine (Prog.embed_bind CtrlCall.sysc g (m x) (Proc.next f)).trans ?_
  show _ = (m x).embed CtrlCall.sysc g >>= _
  congr 1
  funext r
  obtain ⟨e | a, x⟩ := r <;> rfl

theorem sysc_checkedIoctl_bind {c : Driver.Ioctl n} (f : Option c.Resp → CtrlProc n α)
    (x : LitepcieDmaCtrl) :
    (sysc (checkedIoctl c) >>= f) x = .call (.sysc (.ioctl c)) fun r =>
      if r.1 ≠ 0 then .ret (.error .abort, x) else f r.2 x := by
  have hcall : (checkedIoctl c : Lib n LitepcieDmaCtrl _) x = .call (.ioctl c) fun r =>
      if r.1 ≠ 0 then .ret (.error .abort, x) else (pure r.2 : Lib n LitepcieDmaCtrl _) x := by
    have h := checkedIoctl_bind (c := c) (fun r => (pure r : Lib n LitepcieDmaCtrl _)) x
    rwa [bind_pure] at h
  rw [Proc.bind_apply, sysc, hcall]
  show Prog.call _ _ = Prog.call _ _
  congr 1
  funext r
  dsimp only
  split <;> rfl

/-- An ioctl that succeeds: one that does not ends the process. -/
theorem exec_checkedIoctl {c : Driver.Ioctl n} {f : Option c.Resp → CtrlProc n α}
    (hp : k.files fd = some p)
    (h : (ctrlWorld i fd).exec ((sysc (checkedIoctl c) >>= f) x) es k = some ((.ok a, x'), k')) :
    ∃ k₁ fs, Quiet k k₁ ∧ (ctrlWorld i fd).exec (f (some (Driver.ioctlBody fd p k₁ c).2.1) x) fs
      (Driver.ioctlBody fd p k₁ c).2.2 = some ((.ok a, x'), k') := by
  rw [sysc_checkedIoctl_bind] at h
  obtain ⟨k₁, fs, hq, hex⟩ := exec_ioctl hp h
  split at hex
  · obtain ⟨he, -⟩ := World.exec_ret hex
    cases he
  · exact ⟨k₁, fs, hq, hex⟩

/-- The file descriptor is open, and the counts are those of a fresh channel. -/
structure Opened (i : Fin n) (fd : Nat) (k : Driver n) : Prop where
  file : ∃ p, k.files fd = some p ∧ p.chan = i
  ready : ∀ d, Ready d 0 (k.dev.dir i d)

theorem Opened.quiet (h : Opened i fd k) (hq : Quiet k k') : Opened i fd k' := by
  obtain ⟨p, hp, hi⟩ := h.file
  exact ⟨⟨p, hq.files ▸ hp, hi⟩, fun d => (h.ready d).quiet hq⟩

/-- An ioctl that leaves the counts and the engines alone. -/
theorem Opened.of_same (h : Opened i fd k) (hfile : ∃ p, k'.files fd = some p ∧ p.chan = i)
    (hdir : ∀ d, (k'.dev.dir i d).swCount = (k.dev.dir i d).swCount ∧
      (k'.dev.dir i d).hwCount = (k.dev.dir i d).hwCount ∧
      (k'.dev.dir i d).enable = (k.dev.dir i d).enable) : Opened i fd k' := by
  refine ⟨hfile, fun d => ?_⟩
  obtain ⟨hsw, hhw, hen⟩ := hdir d
  have hr := h.ready d
  exact ⟨hsw.trans hr.sw, by rw [hhw, hen]; exact hr.bound⟩

theorem Opened.dmaInit (h : Opened i fd k) (out : Driver.AllocOutcome n) (p : ChanPriv n) :
    Opened i fd (Driver.ioctlBody fd p k (.dmaInit out)).2.2 := by
  have hkeep : ∀ {γ : Type} (f : Driver n → γ),
      (∀ d i b r k, f (Driver.dmamAllocCoherent d i b r k) = f k) →
      f (Driver.ioctlBody fd p k (.dmaInit out)).2.2 = f k := fun f hf =>
    Driver.initLoop_keeps hf out (Driver.buffers n) k
  have hdir : ∀ {γ : Type} (g : DmaDir → γ) (d : Dir), (∀ c j a, g (DmaDir.setAddr c j a) = g c) →
      (∀ c j a, g (DmaDir.setHandle c j a) = g c) →
      g ((Driver.ioctlBody fd p k (.dmaInit out)).2.2.dev.dir i d) = g (k.dev.dir i d) := by
    intro γ g d haddr hhandle
    refine hkeep (fun k => g (k.dev.dir i d)) fun e j b r k => ?_
    unfold Driver.dmamAllocCoherent
    cases r with
    | none => exact LitepcieDevice.dir_modDir_keeps (fun c => haddr c b _) _ _ _ _ _
    | some a => exact LitepcieDevice.dir_modDir_keeps (fun c => (hhandle _ b _).trans (haddr c b _)) _ _ _ _ _
  refine h.of_same ?_ fun d => ⟨?_, ?_, ?_⟩
  · have hfiles := hkeep (fun k => k.files) fun d i b r k => by cases r <;> rfl
    rw [hfiles]
    exact h.file
  · exact hdir (fun c => c.swCount) d (fun _ _ _ => rfl) fun _ _ _ => rfl
  · exact hdir (fun c => c.hwCount) d (fun _ _ _ => rfl) fun _ _ _ => rfl
  · exact hdir (fun c => c.enable) d (fun _ _ _ => rfl) fun _ _ _ => rfl

theorem Opened.lock (h : Opened i fd k) (m : Driver.LockRequest) (hp : k.files fd = some p) :
    Opened i fd (Driver.ioctlBody fd p k (.lock m)).2.2 := by
  obtain ⟨q, hq, rfl⟩ := h.file
  obtain rfl : q = p := Option.some.inj (hq.symm.trans hp)
  refine h.of_same ?_ fun d => ?_
  · exact ⟨_, (Driver.files_ioctlLock m fd fd q k).trans (if_pos rfl), rfl⟩
  · show ((Driver.ioctlLock m fd q k).2.dev.dir q.chan d).swCount = _ ∧
      ((Driver.ioctlLock m fd q k).2.dev.dir q.chan d).hwCount = _ ∧
      ((Driver.ioctlLock m fd q k).2.dev.dir q.chan d).enable = _
    rw [Driver.dir_ioctlLock, if_pos rfl]
    exact ⟨rfl, rfl, rfl⟩

/-- The request of the locks. -/
theorem exec_requestDma {reader writer : Bool} {f : Bool → CtrlProc n α} (hp : k.files fd = some p)
    (h : (ctrlWorld i fd).exec ((sysc (litepcieRequestDma reader writer) >>= f) x) es k =
      some ((.ok a, x'), k')) :
    ∃ k₁ fs status, Quiet k k₁ ∧ (ctrlWorld i fd).exec (f status x) fs
      (Driver.ioctlBody fd p k₁ (.lock ⟨reader, writer, false, false⟩)).2.2 =
        some ((.ok a, x'), k') := by
  unfold litepcieRequestDma at h
  rw [sysc_bind, bind_assoc] at h
  obtain ⟨k₁, fs, hq, hex⟩ := exec_checkedIoctl hp h
  exact ⟨k₁, fs, _, hq, hex⟩

/-- The buffers are mapped, or the function returns `false`. -/
theorem exec_getBuffers {f : Bool → CtrlProc n α}
    (h : (ctrlWorld i fd).exec ((getBuffers d >>= f) x) es k = some ((.ok a, x'), k'))
    (huse : (x.dir d).use ≠ 0) (hz : x.zeroCopy ≠ 0) (hinfo : x.mmapDmaInfo = Driver.mmapDmaInfo) :
    ∃ k₁ fs, Quiet k k₁ ∧ ((∃ x₁, (ctrlWorld i fd).exec (f false x₁) fs k₁ = some ((.ok a, x'), k')) ∨
      (ctrlWorld i fd).exec (f true (x.modDir d fun c => { c with buf := ⟨.mapping d, 0⟩ })) fs k₁ =
        some ((.ok a, x'), k')) := by
  have hmap : litepcieMmap (bufOffset x.mmapDmaInfo d) = some d := by
    rw [hinfo]
    cases d <;> decide
  unfold getBuffers at h
  rw [bind_assoc, Proc.get_bind, Proc.ite_bind_apply, if_neg huse, Proc.ite_bind_apply, if_pos hz] at h
  unfold mmapBuffers at h
  rw [hmap] at h
  obtain ⟨k₁, o, mapped, k₂, fs, hq, hc, hex⟩ := exec_ctrlCall h
  obtain ⟨rfl, -⟩ := kernelCall_mmap (show kernelCall fd _ _ _ = _ from hc)
  refine ⟨_, fs, hq, ?_⟩
  cases mapped with
  | false => exact .inl ⟨_, hex⟩
  | true => exact .inr hex

/-- `open` on a channel with disabled engines. -/
theorem Opened.openDev (hen : ∀ d, (k.dev.dir i d).enable = 0) : Opened i fd (k.litepcieOpen fd i) := by
  refine ⟨⟨_, (Driver.files_litepcieOpen fd fd i k).trans (if_pos rfl), rfl⟩, fun d => ?_⟩
  rw [Driver.dir_litepcieOpen, if_pos ⟨rfl, hen d⟩]
  exact ⟨rfl, .inr ⟨hen d, rfl⟩⟩

theorem exec_openDev {f : Int → CtrlProc n α} {r : (Except Halt α × LitepcieDmaCtrl) × Driver n}
    (h : (ctrlWorld i fd).exec ((openDev >>= f) x) es k = some r) :
    ∃ k₁ fs, Quiet k k₁ ∧ ((ctrlWorld i fd).exec (f (-1) x) fs k₁ = some r ∨
      (ctrlWorld i fd).exec (f fd x) fs (k₁.litepcieOpen fd i) = some r) := by
  obtain ⟨k₁, o, res, k₂, fs, hq, hc, hex⟩ := exec_ctrlCall h
  refine ⟨k₁, fs, hq, ?_⟩
  simp only [ctrlCall] at hc
  split at hc
  · cases hc
    exact .inl hex
  · split at hc <;> cases hc
    exact .inr hex

theorem Opened.dma (h : Opened i fd k) (p : ChanPriv n) (loopback : UInt8) :
    Opened i fd (Driver.ioctlBody fd p k (.dma loopback)).2.2 :=
  h.of_same h.file fun _ => ⟨rfl, rfl, rfl⟩

/-- A `litepcie_dma_init` in zero-copy mode for both directions that succeeds. -/
theorem Caller.inv_start {out : Driver.AllocOutcome n} {zeroCopy useReader useWriter loopback : UInt8}
    (hz : zeroCopy ≠ 0) (hreader : useReader ≠ 0) (hwriter : useWriter ≠ 0)
    (hen : ∀ d, (k.dev.dir i d).enable = 0)
    (h : (ctrlWorld i fd).exec (litepcieDmaInit out zeroCopy (.initial useReader useWriter loopback))
      es k = some ((.ok 0, x), k')) : (Caller.start x).Inv i fd k' := by
  unfold litepcieDmaInit at h
  rw [Proc.modify_bind] at h
  obtain ⟨k₁, fs₁, hq₁, h | h⟩ := exec_openDev h
  · obtain ⟨he, -⟩ := World.exec_ret h
    cases he
  have hopened : Opened i fd (k₁.litepcieOpen fd i) := Opened.openDev fun d => (hq₁.enable i d).trans (hen d)
  rw [Proc.modify_bind, if_neg (show ¬ (fd : Int) < 0 by omega)] at h
  obtain ⟨p, hp, -⟩ := hopened.file
  obtain ⟨k₂, fs₂, hq₂, h⟩ := exec_checkedIoctl hp h
  replace hopened := (hopened.quiet hq₂).dmaInit out p
  rw [Proc.get_bind] at h
  obtain ⟨p, hp, -⟩ := hopened.file
  obtain ⟨k₃, fs₃, status, hq₃, h⟩ := exec_requestDma hp h
  replace hopened := (hopened.quiet hq₃).lock
    ⟨useReader > 0, useWriter > 0, false, false⟩ (hq₃.files ▸ hp)
  cases status with
  | false =>
    obtain ⟨he, -⟩ := World.exec_ret h
    cases he
  | true =>
    rw [if_neg (not_not.mpr rfl)] at h
    obtain ⟨p, hp, -⟩ := hopened.file
    obtain ⟨k₄, fs₄, hq₄, h⟩ := exec_checkedIoctl hp h
    replace hopened := (hopened.quiet hq₄).dma p loopback
    rw [if_pos hz] at h
    obtain ⟨p, hp, -⟩ := hopened.file
    obtain ⟨k₅, fs₅, hq₅, h⟩ := exec_checkedIoctl hp h
    replace hopened := hopened.quiet hq₅
    rw [Proc.modify_bind] at h
    obtain ⟨k₆, fs₆, hq₆, ⟨x₆, h⟩ | h⟩ := exec_getBuffers h hwriter hz rfl
    · obtain ⟨he, -⟩ := World.exec_ret h
      cases he
    replace hopened := hopened.quiet hq₆
    rw [if_neg (not_not.mpr rfl)] at h
    obtain ⟨k₇, fs₇, hq₇, ⟨x₇, h⟩ | h⟩ := exec_getBuffers h hreader hz rfl
    · obtain ⟨he, -⟩ := World.exec_ret h
      cases he
    replace hopened := hopened.quiet hq₇
    rw [if_neg (not_not.mpr rfl)] at h
    obtain ⟨he, hrely⟩ := World.exec_ret h
    replace hopened := hopened.quiet (quiet_of_rely hrely)
    cases he
    refine ⟨hopened.file, hz, fun d => ?_, fun d => ?_, fun d => ⟨?_, fun h => ?_⟩, fun d j p hj => ?_,
      fun d _ => ?_⟩
    · cases d with
      | writer => exact hwriter
      | reader => exact hreader
    · cases d <;> rfl
    · have := hopened.ready d
      cases d <;> exact this
    · cases d <;> exact absurd rfl h
    · cases hj
    · cases d <;> rfl

end

/-- In every run of a process that uses both directions without copies and takes all buffers after
every `litepcie_dma_process`: the buffers come in the order of their slots, and when all are taken,
the driver's software counts are their numbers. -/
theorem zero_copy_slots (i : Fin n) (fd : Nat) (k₀ : Driver n) (out : Driver.AllocOutcome n)
    (zeroCopy useReader useWriter loopback : UInt8) (hz : zeroCopy ≠ 0) (hreader : useReader ≠ 0)
    (hwriter : useWriter ≠ 0) (hen : ∀ d, (k₀.dev.dir i d).enable = 0)
    (es₀ : List (Ev (Irq n) Choice)) (x : LitepcieDmaCtrl) (k : Driver n)
    (hinit : (ctrlWorld i fd).exec (litepcieDmaInit out zeroCopy
      (.initial useReader useWriter loopback)) es₀ k₀ = some ((.ok 0, x), k))
    (es : List (CallerEv n)) (c : Caller) (k' : Driver n)
    (hr : (Caller.machine i fd).run es (Caller.start x, k) = some (c, k'))
    (hs : (Caller.machine i fd).Always (fun z => SmallBatches z.1.ctrl) es (Caller.start x, k)) :
    (∀ d j (p : Ptr), (c.got d)[j]? = some p →
        p = ⟨.mapping d, j % dmaBufferCount * dmaBufferSize⟩) ∧
      ((∀ d, c.null d = true) → ∀ d, (k'.dev.dir i d).swCount = (c.got d).length) := by
  have halong := (Machine.always_iff_next (Caller.machine i fd)
    (P := fun z : Caller × Driver n => SmallBatches z.1.ctrl) es hs.head).mp hs
  have hi : c.Inv i fd k' :=
    Machine.run_inv_along (I := fun z : Caller × Driver n => z.1.Inv i fd z.2)
      (C := fun z e => ∀ z', (Caller.machine i fd).step z e = some z' → SmallBatches z'.1.ctrl)
      (fun z e z' hi hc hst => hi.step (hc z' hst) hst)
      (Caller.inv_start hz hreader hwriter hen hinit)
      halong hr
  refine ⟨hi.got, fun hnull d => ?_⟩
  have hsw := (hi.settled d).ready.sw
  rw [hi.null d (hnull d)] at hsw
  simpa using hsw

/-- The examples' run: `litepcie_dma_init` on a probed driver, a `litepcie_dma_process` with an
interrupt, and two buffers to write. -/
def initRun : Option ((Except Halt Int × LitepcieDmaCtrl) × Driver 1) :=
  (ctrlWorld 0 3).exec (litepcieDmaInit (fun _ _ _ => some 0) 1 (.initial 1 1 0))
    (List.replicate 7 (.thr .ready)) (Driver.probed fun _ => 0)

theorem initRun_ok : ∃ x k, initRun = some ((.ok 0, x), k) := by
  obtain ⟨⟨⟨r, x⟩, k⟩, hinit⟩ := Option.isSome_iff_exists.mp (show initRun.isSome = true by decide +kernel)
  have h : initRun.map (fun r => match r.1.1 with
    | .ok v => decide (v = 0)
    | .error _ => false) = some true := by decide +kernel
  rw [hinit] at h
  cases r with
  | ok v =>
    obtain rfl : v = 0 := by simpa using h
    exact ⟨x, k, hinit⟩
  | error e => cases h

def callerRun : List (CallerEv 1) :=
  [.process [.thr .ready, .thr .ready, .env ⟨0, .writer, 5⟩, .thr .ready, .thr .ready, .thr .ready],
    .next .reader, .next .reader]

theorem zero_copy_slots_two :
    ∃ x k c k', initRun = some ((.ok 0, x), k) ∧
      (Caller.machine 0 3).run callerRun (Caller.start x, k) = some (c, k') ∧
      (c.got .reader).length = 2 ∧
      ∀ d j (p : Ptr), (c.got d)[j]? = some p → p = ⟨.mapping d, j % dmaBufferCount * dmaBufferSize⟩ := by
  obtain ⟨x, k, hinit⟩ := initRun_ok
  have hsee : ∀ (es : List (CallerEv 1)) (f : Caller × Driver 1 → Bool),
      (initRun.bind fun r => ((Caller.machine 0 3).run es (Caller.start r.1.2, r.2)).map f) = some true →
      ∃ t, (Caller.machine 0 3).run es (Caller.start x, k) = some t ∧ f t = true := by
    intro es f h
    rw [hinit] at h
    exact Option.map_eq_some_iff.mp h
  obtain ⟨⟨c, k'⟩, hrun, hgot⟩ := hsee callerRun (fun z => (z.1.got .reader).length = 2)
    (by decide +kernel)
  have hsmall : (Caller.machine 0 3).Always (fun z => SmallBatches z.1.ctrl) callerRun
      (Caller.start x, k) := by
    refine Machine.always_iff_prefix.mpr fun fs t hfs ht => ?_
    obtain ⟨m, rfl⟩ : ∃ m, fs = callerRun.take m := ⟨_, List.prefix_iff_eq_take.mp hfs⟩
    have hall : ∀ m < 4, (initRun.bind fun r =>
        ((Caller.machine 0 3).run (callerRun.take m) (Caller.start r.1.2, r.2)).map fun z =>
          decide (batch .writer (z.1.ctrl.dir .writer) < 2 ^ 32) &&
            decide (batch .reader (z.1.ctrl.dir .reader) < 2 ^ 32)) = some true := by
      decide +kernel
    have hcut : callerRun.take m = callerRun.take (min m 3) := by
      have hlen : callerRun.length = 3 := rfl
      rw [← hlen, ← List.take_take, List.take_length]
    rw [hcut] at ht
    obtain ⟨z, hz, hbatches⟩ := hsee _ _ (hall (min m 3) (by omega))
    rw [ht] at hz
    cases hz
    obtain ⟨hwriter, hreader⟩ := (Bool.and_eq_true _ _).mp hbatches
    intro d
    cases d with
    | writer => exact of_decide_eq_true hwriter
    | reader => exact of_decide_eq_true hreader
  exact ⟨x, k, c, k', hinit, hrun, by simpa using hgot,
    (zero_copy_slots 0 3 (Driver.probed fun _ => 0) (fun _ _ _ => some 0) 1 1 1 0 (by decide) (by decide)
      (by decide) (by intro d; cases d <;> rfl) (List.replicate 7 (.thr .ready)) x k hinit callerRun c k'
      hrun hsmall).1⟩

end User
end Xtrx
