import Xtrx.Kernel.System
import Xtrx.Lib.Ring

/-!
# The hardware counts

The engine reports the buffers it has completed in `LOOP_STATUS`: the loops of its table in 16
bits, and the buffer in the loop. `litepcie_interrupt` makes a 64-bit count of it.

- **Arithmetic** (`setHwCount_loopStatus`): the count is exact if the engine was less than `2 ^ 24`
  buffers further than at the last interrupt.
- **Handler** (`dir_litepcieInterrupt`): what one interrupt does to a direction of a channel.
- **Activation** (`Metered`): the board's runs with the true number of completed buffers, in which
  the engine is neither started again nor stopped (`Report`): `hwCount_exact`.
-/

namespace Xtrx
namespace Kernel

open Conc Driver

variable {n : Nat}

/-! ## Arithmetic -/

/-- The report of an engine that has completed `k` buffers. -/
def loopStatus (k : Nat) : BitVec 32 :=
  BitVec.ofNat 32 (k / dmaBufferCount % 2 ^ 16 * 2 ^ 16 + k % dmaBufferCount)

/-- The mask clears the low 24 bits. -/
theorem toNat_and_hwCountMask (x : BitVec 64) :
    (x &&& DmaDir.hwCountMask).toNat = x.toNat / 2 ^ 24 * 2 ^ 24 := by
  have hx : x &&& DmaDir.hwCountMask = (x >>> 24) <<< 24 := by
    rw [show DmaDir.hwCountMask = BitVec.allOnes 64 <<< 24 by decide]
    ext j hj
    simp only [BitVec.getElem_and, BitVec.getElem_shiftLeft, BitVec.getElem_allOnes,
      BitVec.getElem_ushiftRight]
    by_cases h : j < 24
    · simp [h]
    · have hj' : 24 + (j - 24) = j := by omega
      simp [h, hj', BitVec.getLsbD_eq_getElem hj]
  rw [hx, BitVec.toNat_shiftLeft, BitVec.toNat_ushiftRight, Nat.shiftRight_eq_div_pow,
    Nat.shiftLeft_eq, Nat.mod_eq_of_lt]
  have := x.isLt
  omega

theorem loop_mod (k : Nat) :
    (k / 256 % 2 ^ 16 * 256 % 2 ^ 32 + k % 256) % 2 ^ 32 = k % 2 ^ 24 := by
  have hsum : k % (256 * 2 ^ 16) = k % 256 + 256 * (k / 256 % 2 ^ 16) := Nat.mod_mul
  have hlt : k / 256 % 2 ^ 16 < 2 ^ 16 := Nat.mod_lt _ (by decide)
  have hrest : k % 256 < 256 := Nat.mod_lt _ (by decide)
  rw [Nat.mod_eq_of_lt (a := k / 256 % 2 ^ 16 * 256) (by omega), Nat.mod_eq_of_lt (by omega),
    Nat.add_comm, Nat.mul_comm]
  exact hsum.symm

/-- The value that the handler puts in their place. -/
theorem toNat_loopStatus (k : Nat) :
    ((loopStatus k >>> 16) * 256#32 + (loopStatus k &&& 0xffff#32)).toNat = k % 2 ^ 24 := by
  have hlt : k / 256 % 2 ^ 16 * 2 ^ 16 + k % 256 < 2 ^ 32 := by omega
  have hdiv : (k / 256 % 2 ^ 16 * 2 ^ 16 + k % 256) / 2 ^ 16 = k / 256 % 2 ^ 16 := by omega
  have hmod : (k / 256 % 2 ^ 16 * 2 ^ 16 + k % 256) % 2 ^ 16 = k % 256 := by omega
  have hval : (loopStatus k).toNat = k / 256 % 2 ^ 16 * 2 ^ 16 + k % 256 := by
    rw [loopStatus, BitVec.toNat_ofNat, Nat.mod_eq_of_lt hlt]
  have hand : (loopStatus k &&& 0xffff#32).toNat = (loopStatus k).toNat % 2 ^ 16 := by
    rw [BitVec.toNat_and]
    exact Nat.and_two_pow_sub_one_eq_mod _ 16
  rw [BitVec.toNat_add, BitVec.toNat_mul, hand, BitVec.toNat_ushiftRight,
    Nat.shiftRight_eq_div_pow, hval, hdiv, hmod]
  show (k / 256 % 2 ^ 16 * 256 % 2 ^ 32 + k % 256) % 2 ^ 32 = k % 2 ^ 24
  exact loop_mod k

/-- A report less than `2 ^ 24` buffers after the count makes the count exact. -/
theorem setHwCount_loopStatus {c : DmaDir} {old k : Nat} (hc : c.hwCount = old)
    (hlast : c.hwCountLast = old) (hle : old ≤ k) (hlt : k < old + 2 ^ 24) (hk : k < 2 ^ 63) :
    (c.setHwCount (loopStatus k)).hwCount = k ∧ (c.setHwCount (loopStatus k)).hwCountLast = k := by
  let hw := (BitVec.ofInt 64 c.hwCount &&& DmaDir.hwCountMask) |||
    ((loopStatus k >>> 16) * 256#32 + (loopStatus k &&& 0xffff#32)).setWidth 64
  have hbits : hw.toNat = old / 2 ^ 24 * 2 ^ 24 + k % 2 ^ 24 := by
    simp only [hw]
    rw [BitVec.toNat_or, toNat_and_hwCountMask, BitVec.toNat_setWidth, toNat_loopStatus, hc,
      BitVec.toNat_ofInt, ← Nat.shiftLeft_eq, Nat.mod_eq_of_lt (by omega),
      ← Nat.shiftLeft_add_eq_or_of_lt (Nat.mod_lt k (by decide)), Nat.shiftLeft_eq]
    omega
  have hint : hw.toInt = hw.toNat := BitVec.toInt_eq_toNat_of_lt (by rw [hbits]; omega)
  have hun := Ring.unwrap hle hlt
  simp only [DmaDir.setHwCount]
  rw [show (_ : BitVec 64).toInt = hw.toInt from rfl, hint, hbits, hlast]
  split at hun
  · rw [if_pos (by omega)]
    omega
  · rw [if_neg (by omega)]
    omega

/-! ## The handler -/

namespace LitepcieDevice

/-- `irq_vector` of the handler. -/
def irqVector (s : LitepcieDevice n) : BitVec 32 :=
  s.litepcieReadl csrPcieMsiVectorAddr &&& s.litepcieReadl csrPcieMsiEnableAddr

/-- The handler counts direction `d` of channel `i`. -/
def Pending (s : LitepcieDevice n) (i : Fin n) (d : Dir) : Prop :=
  s.irqVector &&& (1#32 <<< (s.dir i d).interrupt) ≠ 0

instance (s : LitepcieDevice n) (i : Fin n) (d : Dir) : Decidable (s.Pending i d) := by
  unfold Pending
  infer_instance

/-- The direction after its part of the handler. -/
def counted (v : BitVec 32) (s : LitepcieDevice n) (j : Fin n) (e : Dir) : DmaDir :=
  if v &&& (1#32 <<< (s.dir j e).interrupt) ≠ 0 then
    (s.dir j e).setHwCount (s.litepcieReadl ((s.chan j).base + e.tableLoopStatusOffset))
  else s.dir j e

/-- One part of the handler: its direction is counted, the registers and bases stay. -/
theorem interruptDir_eq (v : BitVec 32) (d : Dir) (i : Fin n) (x : LitepcieDevice n × BitVec 32) :
    (interruptDir v d i x).1.bar0 = x.1.bar0 ∧
      (∀ j, ((interruptDir v d i x).1.chan j).base = (x.1.chan j).base) ∧
      ∀ j e, (interruptDir v d i x).1.dir j e =
        if j = i ∧ e = d then counted v x.1 j e else x.1.dir j e := by
  unfold interruptDir counted
  dsimp only
  split
  · rename_i hbit
    refine ⟨rfl, fun j => base_modDir _ _ _ _ _, fun j e => ?_⟩
    rw [dir_modDir]
    split
    · rename_i hj
      obtain ⟨rfl, rfl⟩ := hj
      rw [if_pos hbit]
    · rfl
  · rename_i hbit
    refine ⟨rfl, fun j => rfl, fun j e => ?_⟩
    split
    · rename_i hj
      obtain ⟨rfl, rfl⟩ := hj
      rw [if_neg hbit]
    · rfl

/-- What a direction becomes depends on itself, its base and the registers. -/
theorem counted_congr {v : BitVec 32} {s t : LitepcieDevice n} {j : Fin n} {e : Dir}
    (hbar : t.bar0 = s.bar0) (hbase : (t.chan j).base = (s.chan j).base)
    (hdir : t.dir j e = s.dir j e) : counted v t j e = counted v s j e := by
  simp only [counted, litepcieReadl, hbar, hbase, hdir]

/-- The loop of the handler over the channels `is`. -/
theorem interruptLoop_eq (v : BitVec 32) {is : List (Fin n)} (hnodup : is.Nodup)
    (x : LitepcieDevice n × BitVec 32) (j : Fin n) (e : Dir) :
    (is.foldl (fun x i => interruptDir v .writer i (interruptDir v .reader i x)) x).1.dir j e =
      if j ∈ is then counted v x.1 j e else x.1.dir j e := by
  induction is generalizing x with
  | nil => simp
  | cons i is ih =>
    obtain ⟨hi, hrest⟩ := List.nodup_cons.mp hnodup
    obtain ⟨hrbar, hrbase, hrdir⟩ := interruptDir_eq v .reader i x
    obtain ⟨hwbar, hwbase, hwdir⟩ := interruptDir_eq v .writer i (interruptDir v .reader i x)
    rw [List.foldl_cons, ih hrest]
    by_cases hj : j = i
    · -- its own channel: one of the two parts is the direction's, the rest of the loop is not
      subst hj
      rw [if_neg hi, if_pos List.mem_cons_self, hwdir]
      cases e with
      | reader =>
        rw [if_neg (by simp), hrdir, if_pos ⟨rfl, rfl⟩]
      | writer =>
        rw [if_pos ⟨rfl, rfl⟩]
        exact counted_congr hrbar (hrbase j) (by rw [hrdir, if_neg (by simp)])
    · have hsame : (interruptDir v .writer i (interruptDir v .reader i x)).1.dir j e =
          x.1.dir j e := by
        rw [hwdir, if_neg fun h => hj h.1, hrdir, if_neg fun h => hj h.1]
      rw [hsame, counted_congr (hwbar.trans hrbar) ((hwbase j).trans (hrbase j)) hsame]
      simp [hj]

/-- The handler counts each direction with a pending interrupt. -/
theorem dir_litepcieInterrupt (s : LitepcieDevice n) (i : Fin n) (d : Dir) :
    s.litepcieInterrupt.dir i d =
      if s.Pending i d then
        (s.dir i d).setHwCount (s.litepcieReadl ((s.chan i).base + d.tableLoopStatusOffset))
      else s.dir i d := by
  unfold litepcieInterrupt
  rw [dir_writel]
  exact (interruptLoop_eq s.irqVector (List.nodup_finRange n) (s, 0#32) i d).trans
    (if_pos (List.mem_finRange i))

/-- An interrupt reads the report that the hardware has set. -/
theorem readl_setStatus (s : LitepcieDevice n) (regs : Nat → BitVec 32) (i : Fin n) (d : Dir) :
    (s.setStatus regs).litepcieReadl (((s.setStatus regs).chan i).base + d.tableLoopStatusOffset) =
      regs ((s.chan i).base + d.tableLoopStatusOffset) := by
  refine if_pos (.inr ⟨i, ?_⟩)
  cases d with
  | reader => exact .inl rfl
  | writer => exact .inr rfl

end LitepcieDevice

/-! ## The other events -/

/-- What an event that is no interrupt does to the hardware count: it keeps the count of an engine
that stays on, and the count of an engine that it starts or stops is 0. -/
structure CountStep (c t : DmaDir) : Prop where
  kept : t.enable = c.enable → c.enable ≠ 0 →
    t.hwCount = c.hwCount ∧ t.hwCountLast = c.hwCountLast
  cleared : t.enable ≠ c.enable → t.hwCount = 0 ∧ t.hwCountLast = 0

namespace CountStep

variable {c t : DmaDir}

theorem same (he : t.enable = c.enable) (h : t.hwCount = c.hwCount ∧ t.hwCountLast = c.hwCountLast) :
    CountStep c t :=
  ⟨fun _ _ => h, fun hne => absurd he hne⟩

theorem refl (c : DmaDir) : CountStep c c := same rfl ⟨rfl, rfl⟩

/-- The counters are cleared with the flag changed or off. -/
theorem clear (h : t.enable = c.enable → c.enable = 0) (hw : t.hwCount = 0 ∧ t.hwCountLast = 0) :
    CountStep c t :=
  ⟨fun he hne => absurd (h he) hne, fun _ => hw⟩

theorem setSwCount (v : Int) (s : LitepcieDevice n) (i j : Fin n) (d e : Dir) :
    CountStep (s.dir j e) ((s.modDir i d fun c => c.setSwCount v).dir j e) := by
  rw [LitepcieDevice.dir_modDir]
  split
  · rename_i hj
    obtain ⟨rfl, rfl⟩ := hj
    exact same rfl ⟨rfl, rfl⟩
  · exact refl _

end CountStep

namespace Sys

variable {i : Fin n} {d : Dir}

theorem countStep_ioctlDma (e : Dir) (j : Fin n) (enable : UInt8) (s : LitepcieDevice n) :
    CountStep (s.dir i d) ((ioctlDma e j enable s).2.dir i d) := by
  rw [dir_ioctlDma]
  split
  · rename_i hj
    obtain ⟨rfl, rfl⟩ := hj
    split
    · rename_i hne
      exact .clear (fun he => absurd he hne) ⟨rfl, rfl⟩
    · rename_i heq
      exact .same (not_not.mp heq) ⟨rfl, rfl⟩
  · exact .refl _

theorem countStep_ioctlBody (h : Nat) (p : ChanPriv n) (k : Driver n) (c : Ioctl n) :
    CountStep (k.dev.dir i d) ((ioctlBody h p k c).2.2.dev.dir i d) := by
  cases c with
  | reg isWrite addr val =>
    cases isWrite <;> exact .refl _
  | dmaInit out =>
    have keeps : ∀ {k : Driver n} {e : Dir} {j : Fin n} (g : DmaDir → DmaDir),
        (∀ c, ((g c).enable, (g c).hwCount, (g c).hwCountLast) =
          (c.enable, c.hwCount, c.hwCountLast)) →
        (((k.dev.modDir j e g).dir i d).enable, ((k.dev.modDir j e g).dir i d).hwCount,
          ((k.dev.modDir j e g).dir i d).hwCountLast) =
        ((k.dev.dir i d).enable, (k.dev.dir i d).hwCount, (k.dev.dir i d).hwCountLast) :=
      fun {k e j} g hg => LitepcieDevice.dir_modDir_keeps
        (f := fun c => (c.enable, c.hwCount, c.hwCountLast)) hg k.dev j i e d
    have hkeeps := initLoop_keeps (f := fun k : Driver n => ((k.dev.dir i d).enable,
      (k.dev.dir i d).hwCount, (k.dev.dir i d).hwCountLast)) (by
        intro e j b r k
        cases r with
        | none => exact keeps _ (fun _ => rfl)
        | some a => exact keeps _ (fun _ => rfl))
      out (buffers n) k
    simp only [Prod.mk.injEq] at hkeeps
    exact .same hkeeps.1 hkeeps.2
  | dma loopbackEnable => exact .refl _
  | dmaWriter enable => exact countStep_ioctlDma .writer p.chan enable k.dev
  | dmaReader enable => exact countStep_ioctlDma .reader p.chan enable k.dev
  | mmapDmaInfo => exact .refl _
  | mmapDmaWriterUpdate v => exact .setSwCount v k.dev p.chan i .writer d
  | mmapDmaReaderUpdate v => exact .setSwCount v k.dev p.chan i .reader d
  | lock m =>
    simp only [ioctlBody, dir_ioctlLock]
    split
    · exact .same rfl ⟨rfl, rfl⟩
    · exact .refl _

/-- What an event that is no interrupt does to the hardware counts. -/
theorem countStep {s s' : Sys n} {ev : SysEv n} (h : s.step ev = some s')
    (hev : ∀ regs, ev ≠ .interrupt regs) :
    CountStep (s.drv.dev.dir i d) (s'.drv.dev.dir i d) := by
  have hd := step_drv h
  cases ev with
  | openFile f j =>
    rw [hd.2, dir_litepcieOpen]
    split
    · rename_i hj
      obtain ⟨rfl, h0⟩ := hj
      exact .clear (fun _ => h0) ⟨rfl, rfl⟩
    · exact .refl _
  | ioctl f c flt =>
    obtain ⟨p, -, hd⟩ := hd
    rw [hd, driver_litepcieIoctl]
    split
    · exact .refl _
    · exact countStep_ioctlBody f p s.drv c
  | read f b a z =>
    rw [show s'.drv = s.drv from hd]
    exact .refl _
  | write f b a z =>
    rw [show s'.drv = s.drv from hd]
    exact .refl _
  | access t o =>
    obtain ⟨hd, -⟩ | ⟨f, j, q, g, r, -, hd⟩ := hd
    · rw [hd]
      exact .refl _
    · obtain ⟨-, -, hd | ⟨e, v, hd⟩⟩ := chanCall_dev hd
      · rw [hd]
        exact .refl _
      · rw [hd]
        exact .setSwCount v s.drv.dev j i e d
  | close f =>
    obtain ⟨p, -, hd⟩ := hd
    rw [hd, dir_litepcieRelease]
    split
    · exact .clear (fun he => he.symm) ⟨rfl, rfl⟩
    · exact .refl _
  | interrupt regs => exact absurd rfl (hev regs)

/-! ## Activations -/

/-- The event is an interrupt of direction `d` of channel `i`. -/
def Interrupts (i : Fin n) (d : Dir) (s : Sys n) : SysEv n → Prop
  | .interrupt regs => (s.drv.dev.setStatus regs).Pending i d
  | _ => False

instance (s : Sys n) : (ev : SysEv n) → Decidable (Interrupts i d s ev)
  | .interrupt regs => inferInstanceAs (Decidable ((s.drv.dev.setStatus regs).Pending i d))
  | .openFile .. | .ioctl .. | .read .. | .write .. | .access .. | .close .. => isFalse not_false

end Sys

/-- The board and the buffers that the engine has completed since its start: now, and at its last
interrupt. -/
structure Metered (n : Nat) where
  sys : Sys n
  done : Nat
  seen : Nat

namespace Metered

variable {i : Fin n} {d : Dir}

/-- The engine completes `e.1` buffers, then the event `e.2` happens. -/
def step (i : Fin n) (d : Dir) (m : Metered n) (e : Nat × SysEv n) : Option (Metered n) :=
  (m.sys.step e.2).map fun t =>
    { sys := t
      done := m.done + e.1
      seen := if m.sys.Interrupts i d e.2 then m.done + e.1 else m.seen }

/-- The runs of the board, with the engine of direction `d` of channel `i` metered. -/
def machine (i : Fin n) (d : Dir) : Machine (Metered n) (Nat × SysEv n) := ⟨step i d⟩

/-- The flag of the engine. -/
def enable (i : Fin n) (d : Dir) (s : Sys n) : UInt8 := (s.drv.dev.dir i d).enable

/-- The activation goes on, and an interrupt finds the true report, less than `2 ^ 24` buffers after
the last one. -/
def Report (i : Fin n) (d : Dir) (m : Metered n) (e : Nat × SysEv n) : Prop :=
  (∀ t ∈ m.sys.step e.2, enable i d t = enable i d m.sys) ∧
    match e.2 with
    | .interrupt regs => (m.sys.drv.dev.setStatus regs).Pending i d →
      regs ((m.sys.drv.dev.chan i).base + d.tableLoopStatusOffset) = loopStatus (m.done + e.1) ∧
        m.done + e.1 < m.seen + 2 ^ 24 ∧ m.done + e.1 < 2 ^ 63
    | _ => True

instance (m : Metered n) : (e : Nat × SysEv n) → Decidable (Report i d m e)
  | (_, .interrupt _) => inferInstanceAs (Decidable (_ ∧ (_ → _)))
  | (_, .openFile ..) | (_, .ioctl ..) | (_, .read ..) | (_, .write ..) | (_, .access ..)
  | (_, .close ..) => inferInstanceAs (Decidable (_ ∧ True))

/-- After an interrupt of the engine the hardware count is the number of completed buffers. -/
def Exact (i : Fin n) (d : Dir) (m : Metered n) (e : Nat × SysEv n) : Prop :=
  ∀ t ∈ step i d m e, m.sys.Interrupts i d e.2 → (t.sys.drv.dev.dir i d).hwCount = t.done

/-- The counts of an engine that is on are those of its last interrupt. -/
structure Inv (i : Fin n) (d : Dir) (m : Metered n) : Prop where
  on : enable i d m.sys ≠ 0
  hwCount : (m.sys.drv.dev.dir i d).hwCount = m.seen
  hwCountLast : (m.sys.drv.dev.dir i d).hwCountLast = m.seen
  seen_le : m.seen ≤ m.done

/-- The engine that a step takes to another enable value has counted nothing. -/
theorem Inv.start {s t : Sys n} {ev : SysEv n} (h : s.step ev = some t)
    (hne : enable i d t ≠ enable i d s) (hon : enable i d t ≠ 0) : Inv i d ⟨t, 0, 0⟩ := by
  have hev : ∀ regs, ev ≠ .interrupt regs := by
    rintro regs rfl
    cases h
    apply hne
    show ((s.drv.dev.setStatus regs).litepcieInterrupt.dir i d).enable = _
    rw [LitepcieDevice.dir_litepcieInterrupt]
    split <;> rfl
  obtain ⟨hw, hlast⟩ := (Sys.countStep h hev).cleared hne
  exact ⟨hon, hw, hlast, Nat.le_refl 0⟩

/-- An interrupt of the engine makes its counts exact. -/
theorem Inv.interrupt {m : Metered n} (hi : Inv i d m) {more : Nat} {regs : Nat → BitVec 32}
    (hr : Report i d m (more, .interrupt regs))
    (hp : (m.sys.drv.dev.setStatus regs).Pending i d) :
    ((m.sys.drv.dev.setStatus regs).litepcieInterrupt.dir i d).hwCount = (m.done + more : Nat) ∧
      ((m.sys.drv.dev.setStatus regs).litepcieInterrupt.dir i d).hwCountLast =
        (m.done + more : Nat) := by
  obtain ⟨hreg, hlt, hmax⟩ := hr.2 hp
  rw [LitepcieDevice.dir_litepcieInterrupt, if_pos hp, LitepcieDevice.readl_setStatus, hreg]
  exact setHwCount_loopStatus hi.hwCount hi.hwCountLast (by have := hi.seen_le; omega) hlt hmax

theorem Inv.step {m m' : Metered n} {e : Nat × SysEv n} (hi : Inv i d m) (hr : Report i d m e)
    (h : step i d m e = some m') : Inv i d m' := by
  obtain ⟨t, ht, rfl⟩ := Option.map_eq_some_iff.mp h
  obtain ⟨more, ev⟩ := e
  have hsame : enable i d t = enable i d m.sys := hr.1 t ht
  have hon : enable i d t ≠ 0 := hsame ▸ hi.on
  have hle := hi.seen_le
  by_cases hint : ∃ regs, ev = .interrupt regs
  · obtain ⟨regs, rfl⟩ := hint
    cases ht
    by_cases hp : (m.sys.drv.dev.setStatus regs).Pending i d
    · have hint : m.sys.Interrupts i d (.interrupt regs) := hp
      obtain ⟨hw, hlast⟩ := hi.interrupt hr hp
      refine ⟨hon, ?_, ?_, ?_⟩
      · simp only [if_pos hint]
        exact hw
      · simp only [if_pos hint]
        exact hlast
      · simp [hint]
    · have hint : ¬ m.sys.Interrupts i d (.interrupt regs) := hp
      have hdir : (m.sys.drv.dev.setStatus regs).litepcieInterrupt.dir i d = m.sys.drv.dev.dir i d := by
        rw [LitepcieDevice.dir_litepcieInterrupt, if_neg hp]
        rfl
      refine ⟨hon, ?_, ?_, ?_⟩
      · simp only [if_neg hint, hdir]
        exact hi.hwCount
      · simp only [if_neg hint, hdir]
        exact hi.hwCountLast
      · simp only [if_neg hint]
        omega
  · have hev : ∀ regs, ev ≠ .interrupt regs := fun regs he => hint ⟨regs, he⟩
    obtain ⟨hw, hlast⟩ := (Sys.countStep ht hev).kept hsame hi.on
    have hnot : ¬ m.sys.Interrupts i d ev := by
      intro hc
      cases ev with
      | interrupt regs => exact hev regs rfl
      | _ => exact hc
    refine ⟨hon, ?_, ?_, ?_⟩
    · simp only [if_neg hnot, hw]
      exact hi.hwCount
    · simp only [if_neg hnot, hlast]
      exact hi.hwCountLast
    · simp only [if_neg hnot]
      omega

/-- In every run that goes on from the start of an engine, each interrupt of the engine leaves the
exact number of completed buffers in the hardware count. -/
theorem hwCount_exact {s t : Sys n} {ev : SysEv n} (h : s.step ev = some t)
    (hne : enable i d t ≠ enable i d s) (hon : enable i d t ≠ 0) (es : List (Nat × SysEv n))
    (hr : (machine i d).Along (Report i d) es ⟨t, 0, 0⟩) :
    (machine i d).Along (Exact i d) es ⟨t, 0, 0⟩ := by
  refine Machine.along_of_inv (I := Inv i d) (fun m e m' hi hc hs => hi.step hc hs) ?_
    (Inv.start h hne hon) hr
  intro m e m' hi hc hs u hu hint
  obtain rfl : u = m' := Option.some.inj (hu.symm.trans hs)
  obtain ⟨t, -, rfl⟩ := Option.map_eq_some_iff.mp hs
  rw [(hi.step hc hs).hwCount, if_pos hint]

/-- The writer's count over two wraps of its report, with an interrupt of the reader in between. -/
theorem hwCount_exact_wraps :
    let report : BitVec 32 → Nat → Nat → BitVec 32 := fun vector k a =>
      if a = csrPcieMsiVectorAddr then vector else loopStatus k
    let es : List (Nat × SysEv 1) :=
      [(5, .interrupt (report 2 5)), (2 ^ 24 - 6, .ioctl 0 (.mmapDmaWriterUpdate 3) .none),
        (0, .interrupt (report 1 0)), (5, .interrupt (report 2 (2 ^ 24 + 4))),
        (2 ^ 24 - 1, .interrupt (report 2 (2 ^ 25 + 3)))]
    ∃ s t : Sys 1, s.step (.ioctl 0 (.dmaWriter 1) .none) = some t ∧
      (machine 0 .writer).Along (Report 0 .writer) es ⟨t, 0, 0⟩ ∧
      (machine 0 .writer).Along (Exact 0 .writer) es ⟨t, 0, 0⟩ := by
  intro report es
  let s : Sys 1 := ⟨litepcieOpen 0 0 (Driver.probed fun _ => 0), []⟩
  let t : Sys 1 := ⟨(litepcieIoctl 0 ⟨0, false, false⟩ (.dmaWriter 1) .none s.drv).2.2, []⟩
  have h : s.step (.ioctl 0 (.dmaWriter 1) .none) = some t := rfl
  have hr : (machine 0 .writer).Along (Report 0 .writer) es ⟨t, 0, 0⟩ := by decide +kernel
  refine ⟨s, t, h, hr, hwCount_exact h ?_ ?_ es hr⟩
  · decide +kernel
  · decide +kernel

end Metered
end Kernel
end Xtrx
