import Xtrx.User.ZeroCopy
import Xtrx.Lib.Ring

/-!
# The zero-copy batches (`liblitepcie/litepcie_dma.c`)

A process calls `litepcie_dma_init`, and then `litepcie_dma_process` and the functions for the next
buffers in any order.

- **`Taker`**: the structure, and the buffers that the process got since the last
  `litepcie_dma_process`.
- **`LagWithin`**: the counts that bound a batch by the ring. `CountsWithin` asks for it where
  `litepcie_dma_process` fetches the counts of a running engine.
- **`Sized`**: what the structure keeps: its counts bound a batch, and the batch that is left ends
  within the ring.
- **`zero_copy_batch`**: then no batch has more buffers than the ring, and no slot comes twice.
-/

namespace Xtrx
namespace User

open Conc Kernel

variable {n : Nat}

structure Taker where
  ctrl : LitepcieDmaCtrl
  got : Dir → List Ptr

namespace Taker

/-- After `litepcie_dma_init`. -/
def start (ctrl : LitepcieDmaCtrl) : Taker := ⟨ctrl, fun _ => []⟩

/-- The process asks for the next buffer of a direction. -/
def next (d : Dir) (c : Taker) : Taker :=
  let r := nextBuffer d c.ctrl
  ⟨r.2, Function.update c.got d (c.got d ++ r.1.toList)⟩

/-- One event, in any order. -/
def step (i : Fin n) (fd : Nat) : Taker × Driver n → CallerEv n → Option (Taker × Driver n)
  | (c, k), .process es =>
    match (ctrlWorld i fd).exec (litepcieDmaProcess c.ctrl) es k with
    | some ((.ok _, ctrl), k) => some (start ctrl, k)
    | _ => none
  | (c, k), .next d => some (c.next d, k)
  | (c, k), .irq e => some (c, { k with dev := e.raise k.dev })

def machine (i : Fin n) (fd : Nat) : Machine (Taker × Driver n) (CallerEv n) := ⟨step i fd⟩

/-- No batch exceeds the ring, and no buffer came twice since the last `litepcie_dma_process`. -/
def OnceEach (c : Taker) : Prop :=
  ∀ d, (c.ctrl.dir d).buffersAvailable.toNat ≤ dmaBufferCount ∧ (c.got d).Nodup

end Taker

/-! ## The condition -/

/-- The buffers between the counts are not more than the ring has. -/
structure LagWithin (d : Dir) (hw sw : Int) : Prop where
  sw_nonneg : 0 ≤ sw
  sw_le : sw ≤ hw + slack d
  hw_le : hw + slack d ≤ sw + dmaBufferCount

instance (d : Dir) (hw sw : Int) : Decidable (LagWithin d hw sw) :=
  decidable_of_iff (0 ≤ sw ∧ sw ≤ hw + slack d ∧ hw + slack d ≤ sw + dmaBufferCount)
    ⟨fun h => ⟨h.1, h.2.1, h.2.2⟩, fun h => ⟨h.1, h.2, h.3⟩⟩

/-- The ioctl that fetches the counts of direction `d` with the enable value `v`: if the engine
runs already, its counts are within the ring. -/
def FetchWithin (i : Fin n) (d : Dir) (v : UInt8) (k : Driver n) : Prop :=
  (k.dev.dir i d).enable = v → LagWithin d (k.dev.dir i d).hwCount (k.dev.dir i d).swCount

instance (i : Fin n) (d : Dir) (v : UInt8) (k : Driver n) : Decidable (FetchWithin i d v k) := by
  unfold FetchWithin
  infer_instance

/-- The counts are within the ring where they are fetched. -/
def CountsWithin (i : Fin n) (k : Driver n) : CtrlCall n → Prop
  | .sysc (.ioctl (.dmaWriter v)) => FetchWithin i .writer v k
  | .sysc (.ioctl (.dmaReader v)) => FetchWithin i .reader v k
  | _ => True

instance (i : Fin n) (k : Driver n) (q : CtrlCall n) : Decidable (CountsWithin i k q) := by
  unfold CountsWithin
  split <;> infer_instance

/-- The events of a `litepcie_dma_process` meet the condition. -/
def ProcessWithin (i : Fin n) (fd : Nat) (z : Taker × Driver n) : CallerEv n → Prop
  | .process es => ((ctrlWorld i fd).machine _).Along
      (World.Meets (fun _ _ => True) (CountsWithin i)) es (litepcieDmaProcess z.1.ctrl, z.2)
  | _ => True

instance (i : Fin n) (fd : Nat) (z : Taker × Driver n) (e : CallerEv n) :
    Decidable (ProcessWithin i fd z e) := by
  unfold ProcessWithin
  split <;> infer_instance

/-! ## The structure -/

/-- The counts of a direction bound a batch, and so does the batch that is left. -/
structure Sized (d : Dir) (c : CtrlDir) : Prop where
  lag : LagWithin d c.hwCount c.swCount
  available : c.buffersAvailable.toNat ≤ dmaBufferCount
  offset : c.usrBufOffset.toNat < dmaBufferCount

/-- The structure of a process in zero-copy mode. -/
structure Sound (x : LitepcieDmaCtrl) : Prop where
  zeroCopy : x.zeroCopy ≠ 0
  sized : ∀ d, Sized d (x.dir d)

section

variable {d : Dir} {c : CtrlDir} {x : LitepcieDmaCtrl}

theorem Sound.modDir {f : CtrlDir → CtrlDir} (h : Sound x) (hf : Sized d (f (x.dir d))) :
    Sound (x.modDir d f) := by
  refine ⟨by cases d <;> exact h.zeroCopy, fun e => ?_⟩
  rw [LitepcieDmaCtrl.dir_modDir]
  split
  · rename_i he
    exact he ▸ hf
  · exact h.sized e

/-- A batch is bounded by the ring. -/
theorem Sized.countAvailable (h : Sized d c) : Sized d (countAvailable d c) := by
  obtain ⟨h0, hsw, hhw⟩ := h.lag
  have hb := batch_eq d c
  refine ⟨h.lag, ?_, ?_⟩
  · show (BitVec.ofInt 32 (batch d c)).toNat ≤ dmaBufferCount
    rw [BitVec.toNat_ofInt]
    unfold dmaBufferCount at *
    omega
  · show (BitVec.ofInt 32 (c.swCount.tmod dmaBufferCount)).toNat < dmaBufferCount
    rw [BitVec.toNat_ofInt, Int.tmod_eq_emod_of_nonneg h0]
    unfold dmaBufferCount
    omega

theorem Sized.none (h : Sized d c) : Sized d { c with buffersAvailable := 0 } :=
  ⟨h.lag, Nat.zero_le _, h.offset⟩

/-- The counts of a fresh engine. -/
theorem lagWithin_zero (d : Dir) : LagWithin d 0 0 := by
  cases d <;> decide

end

/-! ## `litepcie_dma_process` -/

section

variable {i : Fin n} {fd : Nat} {k k' : Driver n} {x : LitepcieDmaCtrl} {d : Dir} {α : Type}

/-- The file descriptor is open on channel `i`. -/
def HasFile (i : Fin n) (fd : Nat) (k : Driver n) : Prop := ∃ p, k.files fd = some p ∧ p.chan = i

theorem HasFile.quiet (h : HasFile i fd k) (hq : Quiet k k') : HasFile i fd k' := by
  unfold HasFile
  rw [hq.files]
  exact h

/-- An ioctl keeps the file descriptor open. -/
theorem HasFile.ioctlBody {p : ChanPriv n} (hp : k.files fd = some p) (c : Driver.Ioctl n) :
    HasFile p.chan fd (Driver.ioctlBody fd p k c).2.2 := by
  cases c with
  | reg isWrite addr val => cases isWrite <;> exact ⟨p, hp, rfl⟩
  | dmaInit out =>
    have hfiles : (Driver.ioctlBody fd p k (.dmaInit out)).2.2.files = k.files :=
      Driver.initLoop_keeps (f := fun k => k.files) (fun d i b r k => by cases r <;> rfl) out
        (Driver.buffers n) k
    exact ⟨p, by rw [hfiles]; exact hp, rfl⟩
  | lock m => exact ⟨_, (Driver.files_ioctlLock m fd fd p k).trans (if_pos rfl), rfl⟩
  | _ => exact ⟨p, hp, rfl⟩

/-- The runs in which the counts are within the ring. -/
noncomputable abbrev lagWorld (i : Fin n) (fd : Nat) :
    World (CtrlCall n) CtrlCall.Ans (Driver n) (Irq n) Choice :=
  (ctrlWorld i fd).guard (fun _ _ => True) (CountsWithin i)

theorem lagStable (i : Fin n) (fd : Nat) : (lagWorld i fd).Stable (HasFile i fd) fun _ _ => True where
  refl _ := trivial
  trans _ _ _ _ _ := trivial
  step k e k' hk he := by
    obtain ⟨-, he⟩ := World.guard_env.mp he
    cases he
    exact ⟨hk.quiet (quiet_irq e k), trivial⟩

/-- The weakest precondition of a part of `litepcie_dma_process`. -/
abbrev LagWP (i : Fin n) (fd : Nat) (R : α → LitepcieDmaCtrl → Prop)
    (p : Prog (CtrlCall n) CtrlCall.Ans (Except Halt α × LitepcieDmaCtrl)) (k : Driver n) : Prop :=
  (lagWorld i fd).WP (fun _ => True) (fun _ _ => True)
    (World.ends (fun a x k => R a x ∧ HasFile i fd k) fun _ _ _ => True) p k

variable {R : α → LitepcieDmaCtrl → Prop}

theorem LagWP.ret {a : α} (hk : HasFile i fd k) (hR : R a x) : LagWP i fd R (.ret (.ok a, x)) k :=
  (lagStable i fd).ret (fun _ _ => trivial) hk fun _ h _ => ⟨hR, h⟩

theorem LagWP.halt {e : Halt} (hk : HasFile i fd k) : LagWP i fd R (.ret (.error e, x)) k :=
  (lagStable i fd).ret (fun _ _ => trivial) hk fun _ _ _ => trivial

theorem LagWP.call {q : CtrlCall n} {f : q.Ans → Prog (CtrlCall n) CtrlCall.Ans _}
    (hk : HasFile i fd k)
    (hf : ∀ k₁ o r k₂, HasFile i fd k₁ → CountsWithin i k₁ q → ctrlCall i fd q o k₁ = some (r, k₂) →
      LagWP i fd R (f r) k₂) : LagWP i fd R (.call q f) k := by
  refine (lagStable i fd).call (fun _ _ => trivial) hk ?_
  intro k₁ o r k₂ h₁ _ hc
  obtain ⟨hcc, hc⟩ := World.guard_call.mp hc
  exact ⟨trivial, hf k₁ o r k₂ h₁ hcc hc⟩

theorem LagWP.ioctl {c : Driver.Ioctl n} {f : (Sysc.ioctl c).Ans → Prog (CtrlCall n) CtrlCall.Ans _}
    (hk : HasFile i fd k)
    (hf : ∀ p k₁, k₁.files fd = some p → p.chan = i → CountsWithin i k₁ (.sysc (.ioctl c)) →
      LagWP i fd R (f ((Driver.ioctlBody fd p k₁ c).1, some (Driver.ioctlBody fd p k₁ c).2.1))
        (Driver.ioctlBody fd p k₁ c).2.2) : LagWP i fd R (.call (.sysc (.ioctl c)) f) k := by
  refine LagWP.call hk ?_
  intro k₁ o r k₂ ⟨p, hp, hi⟩ hcc hc
  have hc : kernelCall fd (.ioctl c) o k₁ = some (r, k₂) := hc
  rw [kernelCall_ioctl hp, litepcieIoctl_none] at hc
  cases hc
  exact hf p k₁ hp hi hcc

/-- The counts that the ioctl answers are within the ring. -/
theorem fetchWithin_counts {s : LitepcieDevice n}
    (h : (s.dir i d).enable = 1 → LagWithin d (s.dir i d).hwCount (s.dir i d).swCount) :
    LagWithin d (Driver.ioctlDma d i 1 s).1.1 (Driver.ioctlDma d i 1 s).1.2 := by
  have hdir := Driver.dir_ioctlDma d d i i 1 s
  rw [if_pos ⟨rfl, rfl⟩] at hdir
  rw [Driver.counts_ioctlDma, hdir]
  split
  · exact lagWithin_zero d
  · rename_i he
    exact h (not_not.mp he).symm

theorem dmaCounts_sound (d : Dir) (hk : HasFile i fd k) (hx : Sound x) :
    LagWP i fd (fun _ => Sound) (dmaCounts d x) k := by
  unfold dmaCounts
  rw [Proc.get_bind]
  split
  · exact LagWP.ret hk hx
  · have hset : ∀ {p : ChanPriv n} {k₁ : Driver n}, p.chan = i → FetchWithin i d 1 k₁ →
        Sound (x.modDir d fun c =>
          { c with hwCount := (Driver.ioctlDma d p.chan 1 k₁.dev).1.1
                   swCount := (Driver.ioctlDma d p.chan 1 k₁.dev).1.2 }) := by
      rintro p k₁ rfl hcc
      exact hx.modDir ⟨fetchWithin_counts hcc, (hx.sized d).available, (hx.sized d).offset⟩
    cases d with
    | writer =>
      refine LagWP.ioctl hk fun p k₁ hp hi hcc => ?_
      exact LagWP.ret (hi ▸ HasFile.ioctlBody hp _) (hset hi hcc)
    | reader =>
      refine LagWP.ioctl hk fun p k₁ hp hi hcc => ?_
      exact LagWP.ret (hi ▸ HasFile.ioctlBody hp _) (hset hi hcc)

theorem dmaEvent_sound (d : Dir) (hk : HasFile i fd k) (hx : Sound x) :
    LagWP i fd (fun _ => Sound) (dmaEvent d x) k := by
  unfold dmaEvent
  rw [Proc.get_bind]
  split
  · exact LagWP.ret hk (hx.modDir (hx.sized d).none)
  · rw [if_pos hx.zeroCopy]
    have hbatch : ∀ v, Sound { x.modDir d (countAvailable d) with mmapDmaUpdate := v } := by
      intro v
      have h := hx.modDir (d := d) (f := countAvailable d) (hx.sized d).countAvailable
      exact ⟨h.zeroCopy, fun e => by cases e <;> exact h.sized _⟩
    cases d with
    | writer =>
      refine LagWP.ioctl hk fun p k₁ hp hi _ => ?_
      exact LagWP.ret (hi ▸ HasFile.ioctlBody hp _) (hbatch _)
    | reader =>
      refine LagWP.ioctl hk fun p k₁ hp hi _ => ?_
      exact LagWP.ret (hi ▸ HasFile.ioctlBody hp _) (hbatch _)

theorem LagWP.bind {β : Type} {S : β → LitepcieDmaCtrl → Prop} {m : CtrlProc n α}
    {f : α → CtrlProc n β} (h : LagWP i fd R (m x) k)
    (hf : ∀ a x k, R a x → HasFile i fd k → LagWP i fd S (f a x) k) :
    LagWP i fd S ((m >>= f) x) k := by
  refine World.ProcWP.bind (World.WP.mono ?_ h)
  rintro ⟨e | a, x⟩ k hr
  · trivial
  · exact hf a x k hr.1 hr.2

theorem litepcieDmaProcess_sound (hk : HasFile i fd k) (hx : Sound x) :
    LagWP i fd (fun _ => Sound) (litepcieDmaProcess x) k := by
  unfold litepcieDmaProcess
  refine LagWP.bind (dmaCounts_sound .writer hk hx) fun _ x k hx hk => ?_
  refine LagWP.bind (dmaCounts_sound .reader hk hx) fun _ x k hx hk => ?_
  rw [Proc.get_bind]
  refine LagWP.bind (R := fun _ => Sound) ?_ fun (ret, revents) x k hx hk => ?_
  · refine LagWP.call hk ?_
    intro k₁ o r k₂ h₁ _ hc
    exact LagWP.ret ((ctrlCall_poll hc).symm ▸ h₁) hx
  · have hx' : Sound { x with revents := revents.getD x.revents } :=
      ⟨hx.zeroCopy, fun d => by cases d <;> exact hx.sized _⟩
    show LagWP i fd _ ((if ret = 0 then pure () else _ : CtrlProc n Unit) _) k
    split
    · exact LagWP.ret hk hx'
    · exact LagWP.bind (dmaEvent_sound .writer hk hx') fun _ x k hx hk => dmaEvent_sound .reader hk hx

end

/-! ## The slots -/

/-- The buffers since the last `litepcie_dma_process` come from consecutive slots; together with
those that are left they are not more than the ring has. -/
structure Handed (c : CtrlDir) (got : List Ptr) : Prop where
  slots : ∃ o, got = (List.range got.length).map (fun t =>
      c.buf.add ((Ring.slot dmaBufferCount (o + t)).val * dmaBufferSize)) ∧
    c.usrBufOffset.toNat = (o + got.length) % dmaBufferCount
  length : got.length + c.buffersAvailable.toNat ≤ dmaBufferCount

namespace Handed

variable {d : Dir} {c : CtrlDir} {got : List Ptr}

/-- After a `litepcie_dma_process`. -/
theorem fresh (h : Sized d c) : Handed c [] :=
  ⟨⟨c.usrBufOffset.toNat, rfl, (Nat.mod_eq_of_lt h.offset).symm⟩, by simpa using h.available⟩

theorem nodup (h : Handed c got) : got.Nodup := by
  obtain ⟨o, hgot, -⟩ := h.slots
  rw [hgot]
  refine List.Nodup.map_on ?_ List.nodup_range
  intro a ha b hb hab
  have hlen := h.length
  have ha := List.mem_range.mp ha
  have hb := List.mem_range.mp hb
  simp only [Ptr.add, Ptr.mk.injEq, true_and] at hab
  have hslot : Ring.slot dmaBufferCount (o + a) = Ring.slot dmaBufferCount (o + b) := by
    apply Fin.ext
    unfold dmaBufferSize at hab
    omega
  have := Ring.slot_inj hslot (by omega) (by omega)
  omega

/-- One buffer more. -/
theorem next (h : Handed c got) (hav : c.buffersAvailable ≠ 0) :
    Handed (nextDir c)
      (got ++ [c.buf.add (c.usrBufOffset * BitVec.ofNat 32 dmaBufferSize).toNat]) := by
  obtain ⟨o, hgot, hoff⟩ := h.slots
  have hpos : 0 < c.buffersAvailable.toNat := by
    rw [Nat.pos_iff_ne_zero]
    exact fun h0 => hav (BitVec.eq_of_toNat_eq h0)
  have hlt : c.usrBufOffset.toNat < 256 := hoff ▸ Nat.mod_lt _ (by decide)
  refine ⟨⟨o, ?_, ?_⟩, ?_⟩
  · show got ++ [_] = (List.range (got ++ [_]).length).map fun t =>
      c.buf.add ((Ring.slot dmaBufferCount (o + t)).val * dmaBufferSize)
    rw [List.length_append, List.length_singleton, List.range_succ, List.map_append, ← hgot]
    congr 1
    simp only [List.map_cons, List.map_nil, Ring.slot_val, ← hoff]
    congr 2
    rw [BitVec.toNat_mul]
    unfold dmaBufferSize
    simp only [BitVec.toNat_ofNat]
    omega
  · show ((c.usrBufOffset + 1) % BitVec.ofNat 32 dmaBufferCount).toNat = _
    unfold dmaBufferCount at *
    rw [BitVec.toNat_umod, BitVec.toNat_add, List.length_append, List.length_singleton]
    simp only [BitVec.toNat_ofNat, BitVec.ofNat_eq_ofNat, Nat.reducePow, Nat.reduceMod]
    omega
  · have hone : (c.buffersAvailable - 1).toNat = c.buffersAvailable.toNat - 1 := by
      rw [BitVec.toNat_sub]
      have := c.buffersAvailable.isLt
      simp only [BitVec.toNat_ofNat, BitVec.ofNat_eq_ofNat]
      omega
    have hlen := h.length
    show _ + (c.buffersAvailable - 1).toNat ≤ _
    rw [List.length_append, List.length_singleton, hone]
    omega

end Handed

namespace Taker

variable {i : Fin n} {fd : Nat} {c c' : Taker} {k k' : Driver n}

/-- The invariant of the process. -/
structure Inv (i : Fin n) (fd : Nat) (c : Taker) (k : Driver n) : Prop where
  file : HasFile i fd k
  sound : Sound c.ctrl
  handed : ∀ d, Handed (c.ctrl.dir d) (c.got d)

theorem Inv.onceEach (h : c.Inv i fd k) : c.OnceEach :=
  fun d => ⟨(h.sound.sized d).available, (h.handed d).nodup⟩

theorem inv_start {x : LitepcieDmaCtrl} (hk : HasFile i fd k) (hx : Sound x) : (start x).Inv i fd k :=
  ⟨hk, hx, fun d => .fresh (hx.sized d)⟩

theorem Inv.next (h : c.Inv i fd k) (d : Dir) : (c.next d).Inv i fd k := by
  by_cases hav : (c.ctrl.dir d).buffersAvailable = 0
  · have hsame : c.next d = c := by
      simp [Taker.next, nextBuffer, hav]
    rw [hsame]
    exact h
  · have hnext : c.next d = ⟨c.ctrl.modDir d nextDir, Function.update c.got d (c.got d ++
        [(c.ctrl.dir d).buf.add
          ((c.ctrl.dir d).usrBufOffset * BitVec.ofNat 32 dmaBufferSize).toNat])⟩ := by
      simp only [Taker.next, nextBuffer, hav, if_false]
      rfl
    obtain ⟨hlag, havail, hoff⟩ := h.sound.sized d
    have hhand := (h.handed d).next hav
    rw [hnext]
    refine ⟨h.file, h.sound.modDir ⟨hlag, ?_, ?_⟩, fun e => ?_⟩
    · exact Nat.le_trans (Nat.le_add_left _ _) hhand.length
    · show (((c.ctrl.dir d).usrBufOffset + 1) % BitVec.ofNat 32 dmaBufferCount).toNat < _
      rw [BitVec.toNat_umod]
      exact Nat.mod_lt _ (by decide)
    · dsimp only
      rw [LitepcieDmaCtrl.dir_modDir]
      by_cases he : e = d
      · subst he
        rw [if_pos rfl, Function.update_self]
        exact hhand
      · rw [if_neg he, Function.update_of_ne he]
        exact h.handed e

/-- One event. -/
theorem Inv.step (h : c.Inv i fd k) {e : CallerEv n} (hw : ProcessWithin i fd (c, k) e)
    (hst : Taker.step i fd (c, k) e = some (c', k')) : c'.Inv i fd k' := by
  cases e with
  | next d =>
    cases hst
    exact h.next d
  | irq e =>
    cases hst
    exact ⟨h.file.quiet (quiet_irq e k), h.sound, h.handed⟩
  | process es =>
    simp only [Taker.step] at hst
    split at hst
    · rename_i u x k'' hex
      cases hst
      obtain ⟨hx, hk⟩ := World.WP.exec_along (litepcieDmaProcess_sound h.file h.sound) hw hex
      exact inv_start hk hx
    · cases hst

end Taker

/-! ## `litepcie_dma_init` -/

section

variable {i : Fin n} {fd : Nat} {k k' : Driver n} {x x' : LitepcieDmaCtrl} {d : Dir}
  {es : List (Ev (Irq n) Choice)} {α : Type} {a : α}

/-- The buffers of a direction that is used or not. -/
theorem exec_getBuffers_sound {f : Bool → CtrlProc n α} (hx : Sound x)
    (h : (ctrlWorld i fd).exec ((getBuffers d >>= f) x) es k = some ((.ok a, x'), k')) :
    ∃ k₁ fs ok x₁, Quiet k k₁ ∧ Sound x₁ ∧
      (ctrlWorld i fd).exec (f ok x₁) fs k₁ = some ((.ok a, x'), k') := by
  unfold getBuffers at h
  rw [bind_assoc, Proc.get_bind, Proc.ite_bind_apply, Proc.ite_bind_apply, if_pos hx.zeroCopy] at h
  have hbuf : ∀ buf, Sound (x.modDir d fun c => { c with buf }) := fun buf =>
    hx.modDir ⟨(hx.sized d).lag, (hx.sized d).available, (hx.sized d).offset⟩
  split at h
  · exact ⟨k, es, true, x, .refl k, hx, h⟩
  · unfold mmapBuffers at h
    split at h
    · obtain ⟨k₁, o, mapped, k₂, fs, hq, hc, hex⟩ := exec_ctrlCall h
      obtain ⟨rfl, -⟩ := kernelCall_mmap (show kernelCall fd _ _ _ = _ from hc)
      exact ⟨_, fs, _, _, hq, hbuf _, hex⟩
    · exact ⟨k, es, _, _, .refl k, hbuf _, h⟩

/-- An ioctl that succeeds keeps the file descriptor open. -/
theorem exec_checkedIoctl_file {c : Driver.Ioctl n} {f : Option c.Resp → CtrlProc n α}
    (hk : HasFile i fd k)
    (h : (ctrlWorld i fd).exec ((sysc (checkedIoctl c) >>= f) x) es k = some ((.ok a, x'), k')) :
    ∃ k₁ fs resp, HasFile i fd k₁ ∧
      (ctrlWorld i fd).exec (f (some resp) x) fs k₁ = some ((.ok a, x'), k') := by
  obtain ⟨p, hp, rfl⟩ := hk
  obtain ⟨k₁, fs, hq, hex⟩ := exec_checkedIoctl hp h
  exact ⟨_, fs, _, HasFile.ioctlBody (hq.files ▸ hp) c, hex⟩

/-- A `litepcie_dma_init` in zero-copy mode that succeeds. -/
theorem Taker.inv_init {out : Driver.AllocOutcome n} {zeroCopy useReader useWriter loopback : UInt8}
    (hz : zeroCopy ≠ 0)
    (h : (ctrlWorld i fd).exec (litepcieDmaInit out zeroCopy (.initial useReader useWriter loopback))
      es k = some ((.ok 0, x), k')) : (Taker.start x).Inv i fd k' := by
  unfold litepcieDmaInit at h
  rw [Proc.modify_bind] at h
  obtain ⟨k₁, fs₁, hq₁, h | h⟩ := exec_openDev h
  · obtain ⟨he, -⟩ := World.exec_ret h
    cases he
  have hfile : HasFile i fd (k₁.litepcieOpen fd i) :=
    ⟨_, (Driver.files_litepcieOpen fd fd i k₁).trans (if_pos rfl), rfl⟩
  rw [Proc.modify_bind, if_neg (show ¬ (fd : Int) < 0 by omega)] at h
  obtain ⟨k₂, fs₂, resp, hfile, h⟩ := exec_checkedIoctl_file hfile h
  rw [Proc.get_bind] at h
  obtain ⟨p, hp, hi⟩ := hfile
  obtain ⟨k₃, fs₃, status, hq₃, h⟩ := exec_requestDma hp h
  have hfile : HasFile i fd _ := hi ▸ HasFile.ioctlBody (hq₃.files ▸ hp)
    (.lock ⟨useReader > 0, useWriter > 0, false, false⟩)
  cases status with
  | false =>
    obtain ⟨he, -⟩ := World.exec_ret h
    cases he
  | true =>
    rw [if_neg (not_not.mpr rfl)] at h
    obtain ⟨k₄, fs₄, resp, hfile, h⟩ := exec_checkedIoctl_file hfile h
    rw [if_pos hz] at h
    obtain ⟨k₅, fs₅, resp, hfile, h⟩ := exec_checkedIoctl_file hfile h
    rw [Proc.modify_bind] at h
    have hx : ∀ info, Sound { LitepcieDmaCtrl.begin zeroCopy
        (.initial useReader useWriter loopback) with fd := fd, mmapDmaInfo := info } := by
      refine fun info => ⟨hz, fun d => ?_⟩
      cases d <;> exact ⟨lagWithin_zero _, Nat.zero_le _, show (0 : Nat) < 256 by decide⟩
    obtain ⟨k₆, fs₆, ok, x₆, hq₆, hx₆, h⟩ := exec_getBuffers_sound (hx _) h
    cases ok with
    | false =>
      obtain ⟨he, -⟩ := World.exec_ret h
      cases he
    | true =>
      rw [if_neg (not_not.mpr rfl)] at h
      obtain ⟨k₇, fs₇, ok, x₇, hq₇, hx₇, h⟩ := exec_getBuffers_sound hx₆ h
      cases ok with
      | false =>
        obtain ⟨he, -⟩ := World.exec_ret h
        cases he
      | true =>
        rw [if_neg (not_not.mpr rfl)] at h
        obtain ⟨he, hrely⟩ := World.exec_ret h
        cases he
        exact Taker.inv_start (hfile.quiet (hq₆.trans (hq₇.trans (quiet_of_rely hrely)))) hx₇

end

/-- In every run of a process without copies in which the counts are within the ring where
`litepcie_dma_process` fetches them: no batch has more buffers than the ring, and between two of
these calls no buffer comes twice. -/
theorem zero_copy_batch (i : Fin n) (fd : Nat) (k₀ : Driver n) (out : Driver.AllocOutcome n)
    (zeroCopy useReader useWriter loopback : UInt8) (hz : zeroCopy ≠ 0)
    (es₀ : List (Ev (Irq n) Choice)) (x : LitepcieDmaCtrl) (k : Driver n)
    (hinit : (ctrlWorld i fd).exec (litepcieDmaInit out zeroCopy
      (.initial useReader useWriter loopback)) es₀ k₀ = some ((.ok 0, x), k))
    (es : List (CallerEv n))
    (hw : (Taker.machine i fd).Along (ProcessWithin i fd) es (Taker.start x, k)) :
    (Taker.machine i fd).Always (fun z => z.1.OnceEach) es (Taker.start x, k) :=
  Machine.always_of_along (I := fun z : Taker × Driver n => z.1.Inv i fd z.2)
    (fun _ _ _ hi hc hst => hi.step hc hst) (fun _ hi => hi.onceEach) (Taker.inv_init hz hinit) hw

/-- A `litepcie_dma_process` without interrupts in it. -/
def quietProcess : CallerEv 1 := .process (List.replicate 5 (.thr .ready))

/-- The received buffers of the examples' run, of which three are taken. -/
def lateRun (received taken : Nat) : List (CallerEv 1) :=
  [.process (List.replicate 4 (.thr .ready)), .irq ⟨0, .writer, received⟩, .irq ⟨0, .reader, 100⟩,
    quietProcess] ++ List.replicate taken (.next .writer)

theorem zero_copy_batch_full :
    ∃ x k, initRun = some ((.ok 0, x), k) ∧
      (Taker.machine 0 3).Along (ProcessWithin 0 3) (lateRun 256 3) (Taker.start x, k) ∧
      (Taker.machine 0 3).Always (fun z => z.1.OnceEach) (lateRun 256 3) (Taker.start x, k) := by
  obtain ⟨x, k, hinit⟩ := initRun_ok
  have hw : (Taker.machine 0 3).Along (ProcessWithin 0 3) (lateRun 256 3) (Taker.start x, k) := by
    have h : initRun.map (fun r => decide ((Taker.machine 0 3).Along (ProcessWithin 0 3)
        (lateRun 256 3) (Taker.start r.1.2, r.2))) = some true := by decide +kernel
    rw [hinit] at h
    simpa using h
  exact ⟨x, k, hinit, hw, zero_copy_batch 0 3 (Driver.probed fun _ => 0) (fun _ _ _ => some 0) 1 1 1 0
    (by decide) (List.replicate 7 (.thr .ready)) x k hinit (lateRun 256 3) hw⟩

/-- With 300 received buffers between two calls the batch has 300 buffers, and the first slot comes
again as number 257. -/
theorem zero_copy_batch_late :
    ∃ x k, initRun = some ((.ok 0, x), k) ∧
      ¬ (Taker.machine 0 3).Always (fun z => z.1.OnceEach) (lateRun 300 0) (Taker.start x, k) ∧
      ∃ c k', (Taker.machine 0 3).run (lateRun 300 257) (Taker.start x, k) = some (c, k') ∧
        (c.got .writer)[256]? = (c.got .writer)[0]? ∧ (c.got .writer).length = 257 := by
  obtain ⟨x, k, hinit⟩ := initRun_ok
  have hsee : ∀ (es : List (CallerEv 1)) (f : Taker × Driver 1 → Bool),
      (initRun.bind fun r => ((Taker.machine 0 3).run es (Taker.start r.1.2, r.2)).map f) = some true →
      ∃ t, (Taker.machine 0 3).run es (Taker.start x, k) = some t ∧ f t = true := by
    intro es f h
    rw [hinit] at h
    exact Option.map_eq_some_iff.mp h
  obtain ⟨t, ht, hav⟩ := hsee (lateRun 300 0)
    (fun z => (z.1.ctrl.dir .writer).buffersAvailable = 300) (by decide +kernel)
  obtain ⟨⟨c, k'⟩, hrun, hgot⟩ := hsee (lateRun 300 257)
    (fun z => decide ((z.1.got .writer)[256]? = (z.1.got .writer)[0]? ∧
      (z.1.got .writer).length = 257)) (by decide +kernel)
  refine ⟨x, k, hinit, fun h => ?_, c, k', hrun, of_decide_eq_true hgot⟩
  have hle := (h.run ht .writer).1
  rw [of_decide_eq_true hav] at hle
  exact absurd hle (by decide)

end User
end Xtrx
