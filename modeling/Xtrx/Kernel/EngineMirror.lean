import Xtrx.Kernel.System

/-!
# The enable flags and the hardware

`reader_enable` and `writer_enable` stand for two registers of the board: the `ENABLE` register of
the engine and its bit in the mask of the MSI interrupts.

- **View** (`EngineView`): what the driver and the board hold about one engine.
- **Steps** (`EngineStep`): what one event of the board can do to a view, whatever handle it comes
  from. `Sys.view_step` reads it off the file operations and the interrupt.
- **Mirror** (`EngineView.Mirrors`): flag, register and interrupt bit agree, and an engine that is
  off has counted nothing. It holds in every state of every run: `engines_mirrored`.

A raw `LITEPCIE_IOCTL_REG` write to these registers, or to the reset of the whole board, goes past
the driver (`SysEv.KeepsEngineRegs`).
-/

namespace Xtrx
namespace Kernel

open Conc Driver

/-- `DMA_CHANNELS`. -/
abbrev dmaChannels : Nat := 1

/-- `CSR_CTRL_RESET_ADDR`. -/
def csrCtrlResetAddr : Nat := 0x3000

/-- `PCIE_DMA0_READER_INTERRUPT`, `PCIE_DMA0_WRITER_INTERRUPT`. -/
def Dir.interruptNum : Dir → Nat
  | .reader => pcieDma0ReaderInterrupt
  | .writer => pcieDma0WriterInterrupt

/-! ## Views -/

/-- One engine: the flag and the counts of the driver, the `ENABLE` register and the interrupt bit
of the board. -/
@[ext]
structure EngineView where
  enable : UInt8
  running : BitVec 32
  irqEnabled : Bool
  hwCount : Int
  hwCountLast : Int
  swCount : Int

namespace EngineView

/-- The three places that say if the engine is on agree, and off means nothing counted. -/
structure Mirrors (v : EngineView) : Prop where
  running : v.enable ≠ 0 ↔ v.running = 1
  irq : v.running = 1 ↔ v.irqEnabled = true
  counts : v.enable = 0 → v.hwCount = 0 ∧ v.hwCountLast = 0

/-- No count is left. -/
def Fresh (v : EngineView) : Prop := v.hwCount = 0 ∧ v.hwCountLast = 0 ∧ v.swCount = 0

def clear (v : EngineView) : EngineView := { v with hwCount := 0, hwCountLast := 0, swCount := 0 }

/-- The engine runs with the flag `e` and has counted nothing. -/
def started (e : UInt8) : EngineView := ⟨e, 1, true, 0, 0, 0⟩

def stopped : EngineView := ⟨0, 0, false, 0, 0, 0⟩

end EngineView

/-- What one event can do to an engine. -/
inductive EngineStep (v : EngineView) : EngineView → Prop
  | same : EngineStep v v
  | start (e : UInt8) : e ≠ 0 → EngineStep v (.started e)
  | stop : EngineStep v .stopped
  | openFile : v.enable = 0 → EngineStep v v.clear
  | setSwCount (c : Int) : EngineStep v { v with swCount := c }
  | count (hw last : Int) : v.irqEnabled = true →
      EngineStep v { v with hwCount := hw, hwCountLast := last }

namespace EngineStep

variable {v v' : EngineView}

theorem mirrors (h : EngineStep v v') (hm : v.Mirrors) : v'.Mirrors := by
  cases h with
  | same => exact hm
  | start e he => exact ⟨by simp [EngineView.started, he], by simp [EngineView.started],
      fun h0 => absurd h0 he⟩
  | stop => exact ⟨by simp [EngineView.stopped], by simp [EngineView.stopped], fun _ => ⟨rfl, rfl⟩⟩
  | openFile h0 => exact ⟨hm.running, hm.irq, fun _ => ⟨rfl, rfl⟩⟩
  | setSwCount c => exact ⟨hm.running, hm.irq, hm.counts⟩
  | count hw last hirq =>
    -- an interrupt that is enabled belongs to an engine that is on
    have hon : v.enable ≠ 0 := hm.running.mpr (hm.irq.mpr hirq)
    exact ⟨hm.running, hm.irq, fun h0 => absurd h0 hon⟩

/-- An engine that goes on starts with nothing counted. -/
theorem fresh (h : EngineStep v v') (hoff : v.enable = 0) (hon : v'.enable ≠ 0) : v'.Fresh := by
  cases h with
  | start e he => exact ⟨rfl, rfl, rfl⟩
  | stop => exact absurd rfl hon
  | _ => exact absurd hoff hon

end EngineStep

/-! ## The views of a device -/

namespace LitepcieDevice

/-- Direction `d` of channel `i`. -/
def view (s : LitepcieDevice dmaChannels) (i : Fin dmaChannels) (d : Dir) : EngineView where
  enable := (s.dir i d).enable
  running := s.litepcieReadl ((s.chan i).base + d.enableOffset)
  irqEnabled := (s.litepcieReadl csrPcieMsiEnableAddr).getLsbD (s.dir i d).interrupt
  hwCount := (s.dir i d).hwCount
  hwCountLast := (s.dir i d).hwCountLast
  swCount := (s.dir i d).swCount

/-- The register base and the interrupt numbers are those that `litepcie_pci_probe` sets. -/
structure Layout (s : LitepcieDevice dmaChannels) : Prop where
  base : ∀ i, (s.chan i).base = csrPcieDma0Base
  interrupt : ∀ i d, (s.dir i d).interrupt = d.interruptNum

variable {s t : LitepcieDevice dmaChannels} {i j : Fin dmaChannels} {d e : Dir}

theorem Layout.same (h : s.Layout) (hb : ∀ i, (t.chan i).base = (s.chan i).base)
    (hi : ∀ i d, (t.dir i d).interrupt = (s.dir i d).interrupt) : t.Layout :=
  ⟨fun i => by rw [hb, h.base], fun i d => by rw [hi, h.interrupt]⟩

theorem Layout.modDir {f : DmaDir → DmaDir} (h : s.Layout) (hf : ∀ c, (f c).interrupt = c.interrupt) :
    (s.modDir i d f).Layout :=
  h.same (fun j => base_modDir s i j d f)
    (fun j e => dir_modDir_keeps (f := DmaDir.interrupt) hf s i j d e)

theorem Layout.dmaStart (h : s.Layout) : (dmaStart d s i).Layout := by
  refine h.same (fun j => base_dmaStart d s i j) fun j e => ?_
  rw [dir_dmaStart]
  split
  · rename_i hj
    rw [hj.1, hj.2]
    rfl
  · rfl

theorem Layout.dmaStop (h : s.Layout) : (dmaStop d s i).Layout := by
  refine h.same (fun j => base_dmaStop d s i j) fun j e => ?_
  rw [dir_dmaStop]
  split
  · rename_i hj
    rw [hj.1, hj.2]
    rfl
  · rfl

theorem msi_ne_enableAddr (d : Dir) :
    csrPcieMsiEnableAddr < csrPcieDma0Base + d.enableOffset ∧
      csrPcieMsiClearAddr ≠ csrPcieDma0Base + d.enableOffset ∧
      csrPcieMsiVectorAddr ≠ csrPcieDma0Base + d.enableOffset := by
  cases d <;> decide

/-- The two `ENABLE` registers are eight registers apart. -/
theorem enableAddr_apart {d e : Dir} (h : e ≠ d) :
    csrPcieDma0Base + e.enableOffset < csrPcieDma0Base + d.enableOffset ∨
      csrPcieDma0Base + d.enableOffset + 0x20 ≤ csrPcieDma0Base + e.enableOffset := by
  cases d <;> cases e <;> simp [Dir.enableOffset] at *

theorem view_dmaStart (h : s.Layout) :
    (dmaStart d s i).view j e =
      if e = d then { (s.view j e).clear with running := 1 } else s.view j e := by
  obtain rfl := Subsingleton.elim j i
  have hmsi : (dmaStart d s j).litepcieReadl csrPcieMsiEnableAddr =
      s.litepcieReadl csrPcieMsiEnableAddr :=
    readl_dmaStart_ne (.inl (by rw [h.base]; exact (msi_ne_enableAddr d).1))
  by_cases he : e = d
  · subst he
    simp [view, base_dmaStart, dir_dmaStart, hmsi, EngineView.clear, DmaDir.clearCounters]
  · have hrun : (dmaStart d s j).litepcieReadl ((s.chan j).base + e.enableOffset) =
        s.litepcieReadl ((s.chan j).base + e.enableOffset) :=
      readl_dmaStart_ne (by rw [h.base]; exact enableAddr_apart he)
    simp [view, base_dmaStart, dir_dmaStart, hmsi, hrun, he]

theorem view_dmaStop (h : s.Layout) :
    (dmaStop d s i).view j e =
      if e = d then { (s.view j e).clear with running := 0 } else s.view j e := by
  obtain rfl := Subsingleton.elim j i
  have hmsi : (dmaStop d s j).litepcieReadl csrPcieMsiEnableAddr =
      s.litepcieReadl csrPcieMsiEnableAddr :=
    readl_dmaStop_ne (.inl (by rw [h.base]; exact (msi_ne_enableAddr d).1))
  by_cases he : e = d
  · subst he
    simp [view, base_dmaStop, dir_dmaStop, hmsi, EngineView.clear, DmaDir.clearCounters]
  · have hrun : (dmaStop d s j).litepcieReadl ((s.chan j).base + e.enableOffset) =
        s.litepcieReadl ((s.chan j).base + e.enableOffset) :=
      readl_dmaStop_ne (by rw [h.base]; exact enableAddr_apart he)
    simp [view, base_dmaStop, dir_dmaStop, hmsi, hrun, he]

/-- A write to a register that no view shows. -/
theorem view_writel {a : Nat} {v : BitVec 32} (hmsi : a ≠ csrPcieMsiEnableAddr)
    (ha : a ≠ (s.chan i).base + d.enableOffset) : (s.litepcieWritel a v).view i d = s.view i d := by
  simp [view, readl_writel_ne hmsi.symm, readl_writel_ne ha.symm]

/-- A write to the mask of the MSI interrupts. -/
theorem view_writel_msi (h : s.Layout) {v : BitVec 32} :
    (s.litepcieWritel csrPcieMsiEnableAddr v).view i d =
      { s.view i d with irqEnabled := v.getLsbD d.interruptNum } := by
  have ha : (s.chan i).base + d.enableOffset ≠ csrPcieMsiEnableAddr := by
    rw [h.base]
    exact Nat.ne_of_gt (msi_ne_enableAddr d).1
  simp [view, readl_writel_ne ha, h.interrupt]

theorem getLsbD_interruptBit (d e : Dir) :
    (1#32 <<< d.interruptNum).getLsbD e.interruptNum = decide (e = d) := by
  cases d <;> cases e <;> decide

theorem interruptNum_lt (d : Dir) : d.interruptNum < 32 := by
  cases d <;> decide

theorem view_enableInterrupt (h : s.Layout) :
    (s.litepcieEnableInterrupt (s.dir i d).interrupt).view j e =
      if e = d then { s.view j e with irqEnabled := true } else s.view j e := by
  unfold litepcieEnableInterrupt
  rw [view_writel_msi h, h.interrupt, BitVec.getLsbD_or, getLsbD_interruptBit]
  by_cases he : e = d <;> simp [he, view, h.interrupt]

theorem view_disableInterrupt (h : s.Layout) :
    (s.litepcieDisableInterrupt (s.dir i d).interrupt).view j e =
      if e = d then { s.view j e with irqEnabled := false } else s.view j e := by
  unfold litepcieDisableInterrupt
  rw [view_writel_msi h, h.interrupt, BitVec.getLsbD_and, BitVec.getLsbD_not, getLsbD_interruptBit]
  by_cases he : e = d <;> simp [he, view, h.interrupt, interruptNum_lt]

/-! ## What the operations do to a view -/

theorem engineStep_ioctlDma (h : s.Layout) (en : UInt8) :
    EngineStep (s.view j e) ((ioctlDma d i en s).2.view j e) := by
  obtain rfl := Subsingleton.elim j i
  by_cases hsame : (s.dir j d).enable = en
  · rw [ioctlDma_same hsame]
    exact .same
  have hset : ∀ (t : LitepcieDevice dmaChannels),
      (t.modDir j d fun c => c.setEnable en).view j e =
        if e = d then { t.view j e with enable := en } else t.view j e := by
    intro t
    by_cases he : e = d <;> simp [view, dir_modDir, he, DmaDir.setEnable]
  simp only [ioctlDma]
  rw [if_pos (fun hen => hsame hen.symm), hset]
  by_cases he : e = d
  · subst he
    rw [if_pos rfl]
    by_cases h0 : en ≠ 0
    · -- start, then enable the interrupt
      rw [if_pos h0, view_enableInterrupt h.dmaStart, if_pos rfl, view_dmaStart h, if_pos rfl]
      exact .start en h0
    · -- disable the interrupt, then stop
      have hd : (s.litepcieDisableInterrupt (s.dir j e).interrupt).Layout :=
        h.same (fun _ => rfl) (fun _ _ => rfl)
      rw [if_neg h0, view_dmaStop hd, if_pos rfl, view_disableInterrupt h, if_pos rfl]
      obtain rfl := not_not.mp h0
      exact .stop
  · rw [if_neg he]
    by_cases h0 : en ≠ 0
    · rw [if_pos h0, view_enableInterrupt h.dmaStart, if_neg he, view_dmaStart h, if_neg he]
      exact .same
    · have hd : (s.litepcieDisableInterrupt (s.dir j d).interrupt).Layout :=
        h.same (fun _ => rfl) (fun _ _ => rfl)
      rw [if_neg h0, view_dmaStop hd, if_neg he, view_disableInterrupt h, if_neg he]
      exact .same

theorem Layout.ioctlDma (h : s.Layout) (en : UInt8) : (ioctlDma d i en s).2.Layout := by
  refine h.same (fun j => base_ioctlDma d i j en s) fun j e => ?_
  rw [dir_ioctlDma]
  split
  · rename_i hj
    rw [hj.1, hj.2]
    split <;> rfl
  · rfl

theorem Layout.releaseDir (h : s.Layout) (p : ChanPriv dmaChannels) : (releaseDir d p s).Layout := by
  refine h.same (fun j => base_releaseDir d p s j) fun j e => ?_
  rw [dir_releaseDir]
  split <;> rfl

theorem view_releaseDir (h : s.Layout) (p : ChanPriv dmaChannels) :
    (Driver.releaseDir d p s).view j e =
      if p.owns d ∧ e = d then .stopped else s.view j e := by
  obtain rfl := Subsingleton.elim j p.chan
  unfold Driver.releaseDir
  split
  · rename_i ho
    have hd : (s.litepcieDisableInterrupt (s.dir p.chan d).interrupt).Layout :=
      h.same (fun _ => rfl) (fun _ _ => rfl)
    have hset : ∀ (t : LitepcieDevice dmaChannels),
        ((t.modDir p.chan d fun c => c.setLock false).modDir p.chan d fun c =>
            c.setEnable 0).view p.chan e =
          if e = d then { t.view p.chan e with enable := 0 } else t.view p.chan e := by
      intro t
      by_cases he : e = d <;> simp [view, dir_modDir, he, DmaDir.setEnable, DmaDir.setLock]
    rw [hset, view_dmaStop hd, view_disableInterrupt h]
    by_cases he : e = d <;> simp [ho, he, EngineView.stopped, EngineView.clear]
  · rename_i ho
    rw [if_neg fun hc => ho hc.1]

theorem view_setStatus (h : s.Layout) (regs : Nat → BitVec 32) :
    (s.setStatus regs).view i d = s.view i d := by
  have hb := h.base
  have hrun : (s.setStatus regs).litepcieReadl ((s.chan i).base + d.enableOffset) =
      s.litepcieReadl ((s.chan i).base + d.enableOffset) := by
    refine if_neg ?_
    simp only [hb]
    cases d <;> decide
  have hmsi : (s.setStatus regs).litepcieReadl csrPcieMsiEnableAddr =
      s.litepcieReadl csrPcieMsiEnableAddr := by
    refine if_neg ?_
    simp only [hb]
    decide
  simp only [view]
  rw [hmsi]
  exact congrArg (fun r => (⟨_, r, _, _, _, _⟩ : EngineView)) hrun

theorem and_interruptBit_ne_zero (v : BitVec 32) (d : Dir) :
    v &&& (1#32 <<< d.interruptNum) ≠ 0 ↔ v.getLsbD d.interruptNum = true := by
  constructor
  · intro hne
    by_contra hv
    apply hne
    apply BitVec.eq_of_getLsbD_eq
    intro k hk
    rw [BitVec.getLsbD_and, BitVec.getLsbD_shiftLeft]
    by_cases hkd : k = d.interruptNum
    · simp [hkd, Bool.not_eq_true _ ▸ hv]
    · have : (1#32).getLsbD (k - d.interruptNum) = false ∨ k < d.interruptNum := by
        by_cases hlt : k < d.interruptNum
        · exact .inr hlt
        · left
          simp [BitVec.getLsbD_one]
          omega
      rcases this with h | h <;> simp [h]
  · intro hv hz
    have hb : (v &&& (1#32 <<< d.interruptNum)).getLsbD d.interruptNum = false := by
      rw [hz]
      simp
    rw [BitVec.getLsbD_and, hv, getLsbD_interruptBit] at hb
    simp at hb

/-- The handler's part for a direction counts if its bit of the vector is set. -/
theorem view_interruptDir (irqVector : BitVec 32) {x : LitepcieDevice dmaChannels × BitVec 32}
    (h : x.1.Layout) : (interruptDir irqVector d i x).1.Layout ∧
      ((interruptDir irqVector d i x).1.view j e = x.1.view j e ∨
        (e = d ∧ irqVector.getLsbD d.interruptNum = true ∧
          ∃ hw last, (interruptDir irqVector d i x).1.view j e =
            { x.1.view j e with hwCount := hw, hwCountLast := last })) := by
  obtain rfl := Subsingleton.elim j i
  unfold interruptDir
  dsimp only
  rw [h.interrupt]
  by_cases hbit : irqVector &&& (1#32 <<< d.interruptNum) ≠ 0
  · rw [if_pos hbit]
    refine ⟨h.modDir fun _ => rfl, ?_⟩
    by_cases he : e = d
    · subst he
      let c := (x.1.dir j e).setHwCount
        (x.1.litepcieReadl ((x.1.chan j).base + e.tableLoopStatusOffset))
      refine .inr ⟨rfl, (and_interruptBit_ne_zero _ _).mp hbit, c.hwCount, c.hwCountLast, ?_⟩
      simp only [view, readl_modDir, dir_modDir_self, base_modDir]
      rfl
    · left
      simp only [view, readl_modDir, base_modDir]
      rw [dir_modDir_ne fun hc => he hc.2]
  · rw [if_neg hbit]
    exact ⟨h, .inl rfl⟩

/-- The handler changes the counts of the engines whose interrupt is enabled. -/
theorem engineStep_interrupt (h : s.Layout) (regs : Nat → BitVec 32) :
    (s.setStatus regs).litepcieInterrupt.Layout ∧
      EngineStep (s.view j e) ((s.setStatus regs).litepcieInterrupt.view j e) := by
  have hs : (s.setStatus regs).Layout := h.same (fun _ => rfl) (fun _ _ => rfl)
  have hfold : List.finRange dmaChannels = [j] := by
    obtain rfl := Subsingleton.elim j 0
    rfl
  unfold litepcieInterrupt
  rw [hfold]
  simp only [List.foldl_cons, List.foldl_nil]
  generalize hv : (s.setStatus regs).litepcieReadl csrPcieMsiVectorAddr &&&
    (s.setStatus regs).litepcieReadl csrPcieMsiEnableAddr = irqVector
  -- a bit of the vector is a bit of the mask
  have henabled : irqVector.getLsbD e.interruptNum = true → (s.view j e).irqEnabled = true := by
    intro hb
    rw [← hv, BitVec.getLsbD_and, Bool.and_eq_true] at hb
    rw [← view_setStatus h regs]
    simp only [view, hs.interrupt]
    exact hb.2
  obtain ⟨hr, hrv⟩ := view_interruptDir (i := j) (j := j) (d := .reader) (e := e) irqVector
    (x := (s.setStatus regs, 0#32)) hs
  obtain ⟨hw, hwv⟩ := view_interruptDir (i := j) (j := j) (d := .writer) (e := e)
    irqVector hr
  have hclear : csrPcieMsiClearAddr ≠ csrPcieDma0Base + e.enableOffset := (msi_ne_enableAddr e).2.1
  refine ⟨hw.same (fun _ => rfl) (fun _ _ => rfl), ?_⟩
  rw [view_writel (by decide) (by rw [hw.base]; exact hclear)]
  rcases hwv with hwv | ⟨rfl, hb, n₁, l₁, hwv⟩ <;> rcases hrv with hrv | ⟨he, hb', n₂, l₂, hrv⟩
  · rw [hwv, hrv, view_setStatus h]
    exact .same
  · subst he
    rw [hwv, hrv, view_setStatus h]
    exact .count _ _ (henabled hb')
  · rw [hwv, hrv, view_setStatus h]
    exact .count _ _ (henabled hb)
  · cases he

end LitepcieDevice

/-! ## Steps -/

namespace SysEv

/-- The event is no raw `LITEPCIE_IOCTL_REG` write to an `ENABLE` register, the mask of the MSI
interrupts, or the reset of the board. -/
def KeepsEngineRegs {n : Nat} : SysEv n → Prop
  | .ioctl _ (.reg isWrite addr _) _ => isWrite = true → addr ≠ csrCtrlResetAddr ∧
      addr ≠ csrPcieMsiEnableAddr ∧ ∀ d : Dir, addr ≠ csrPcieDma0Base + d.enableOffset
  | _ => True

end SysEv

namespace Sys

open LitepcieDevice

variable {i : Fin dmaChannels} {d : Dir}

theorem view_initLoop (out : AllocOutcome dmaChannels)
    (bs : List (Fin dmaChannels × Fin dmaBufferCount)) (k : Driver dmaChannels) :
    (initLoop out bs k).2.dev.view i d = k.dev.view i d := by
  refine initLoop_keeps (f := fun k => k.dev.view i d) ?_ out bs k
  intro d' i' b r k
  have hmod : ∀ f : DmaDir → DmaDir, (∀ c, (f c).enable = c.enable ∧ (f c).interrupt = c.interrupt ∧
      (f c).hwCount = c.hwCount ∧ (f c).hwCountLast = c.hwCountLast ∧ (f c).swCount = c.swCount) →
      (k.dev.modDir i' d' f).view i d = k.dev.view i d := by
    intro f hf
    have hd := hf (k.dev.dir i d)
    by_cases hi : i = i' ∧ d = d'
    · obtain ⟨rfl, rfl⟩ := hi
      simp only [view, readl_modDir, base_modDir, dir_modDir_self, hd]
    · simp only [view, readl_modDir, base_modDir, dir_modDir_ne hi]
  cases r with
  | none => exact hmod _ fun _ => ⟨rfl, rfl, rfl, rfl, rfl⟩
  | some a => exact hmod _ fun _ => ⟨rfl, rfl, rfl, rfl, rfl⟩

theorem layout_initLoop (out : AllocOutcome dmaChannels)
    (bs : List (Fin dmaChannels × Fin dmaBufferCount)) {k : Driver dmaChannels}
    (h : k.dev.Layout) : (initLoop out bs k).2.dev.Layout := by
  refine h.same (fun i => ?_) (fun i d => ?_)
  · refine initLoop_keeps (f := fun k => (k.dev.chan i).base) ?_ out bs k
    intro d' i' b r k
    cases r <;> simp [dmamAllocCoherent]
  · refine initLoop_keeps (f := fun k => (k.dev.dir i d).interrupt) ?_ out bs k
    intro d' i' b r k
    cases r with
    | none =>
      exact dir_modDir_keeps (f := DmaDir.interrupt) (by intro c; rfl) k.dev i' i d' d
    | some a =>
      exact dir_modDir_keeps (f := DmaDir.interrupt) (by intro c; rfl) k.dev i' i d' d

theorem engineStep_setSwCount (s : LitepcieDevice dmaChannels) (j : Fin dmaChannels) (e : Dir)
    (c : Int) : EngineStep (s.view i d) ((s.modDir j e fun x => x.setSwCount c).view i d) := by
  by_cases hi : i = j ∧ d = e
  · obtain ⟨rfl, rfl⟩ := hi
    simp only [view, readl_modDir, base_modDir, dir_modDir_self]
    exact .setSwCount c
  · simp only [view, readl_modDir, base_modDir, dir_modDir_ne hi]
    exact .same

theorem engineStep_open (k : Driver dmaChannels) (h : Nat) (j : Fin dmaChannels) :
    EngineStep (k.dev.view i d) ((k.litepcieOpen h j).dev.view i d) := by
  have hreg : ∀ a, (k.litepcieOpen h j).dev.litepcieReadl a = k.dev.litepcieReadl a := by
    intro a
    simp only [litepcieOpen, dev_setFile]
    split <;> split <;> rfl
  obtain rfl := Subsingleton.elim i j
  by_cases h0 : (k.dev.dir i d).enable = 0
  · have hv : (k.litepcieOpen h i).dev.view i d = (k.dev.view i d).clear := by
      simp [view, hreg, base_litepcieOpen, dir_litepcieOpen, h0, EngineView.clear,
        DmaDir.clearCounters]
    rw [hv]
    exact .openFile h0
  · have hv : (k.litepcieOpen h i).dev.view i d = k.dev.view i d := by
      simp [view, hreg, base_litepcieOpen, dir_litepcieOpen, h0]
    rw [hv]
    exact .same

theorem readl_ioctlLock (m : LockRequest) (h : Nat) (p : ChanPriv dmaChannels)
    (k : Driver dmaChannels) (a : Nat) :
    (ioctlLock m h p k).2.dev.litepcieReadl a = k.dev.litepcieReadl a := by
  have hdir : ∀ (e : Dir) (p : ChanPriv dmaChannels) (s : LitepcieDevice dmaChannels),
      (ioctlLockDir e m p s).2.2.litepcieReadl a = s.litepcieReadl a := by
    intro e p s
    unfold ioctlLockDir
    cases m.request e <;> cases m.release e <;> cases (s.dir p.chan e).lock <;> rfl
  simp only [ioctlLock, dev_setFile, hdir]

theorem base_ioctlLock (m : LockRequest) (h : Nat) (p : ChanPriv dmaChannels)
    (k : Driver dmaChannels) (j : Fin dmaChannels) :
    ((ioctlLock m h p k).2.dev.chan j).base = (k.dev.chan j).base := by
  simp only [ioctlLock, dev_setFile, base_ioctlLockDir]

theorem view_ioctlLock (m : LockRequest) (h : Nat) (p : ChanPriv dmaChannels)
    (k : Driver dmaChannels) : (ioctlLock m h p k).2.dev.view i d = k.dev.view i d := by
  simp only [view, readl_ioctlLock, base_ioctlLock, dir_ioctlLock]
  split <;> rfl

theorem layout_ioctlLock (m : LockRequest) (h : Nat) (p : ChanPriv dmaChannels)
    {k : Driver dmaChannels} (hl : k.dev.Layout) : (ioctlLock m h p k).2.dev.Layout := by
  refine hl.same (fun j => base_ioctlLock m h p k j) fun j e => ?_
  rw [dir_ioctlLock]
  split <;> rfl

/-- The commands of `ioctl`. -/
theorem engineStep_ioctlBody {k : Driver dmaChannels} {h : Nat} {p : ChanPriv dmaChannels}
    {c : Ioctl dmaChannels} {f : Fault} (hl : k.dev.Layout)
    (hk : (SysEv.ioctl h c f).KeepsEngineRegs) :
    (ioctlBody h p k c).2.2.dev.Layout ∧
      EngineStep (k.dev.view i d) ((ioctlBody h p k c).2.2.dev.view i d) := by
  have hmod : ∀ e v, (k.dev.modDir p.chan e fun c => c.setSwCount v).Layout := fun e v =>
    hl.modDir fun _ => rfl
  cases c with
  | reg isWrite addr val =>
    cases isWrite with
    | false => exact ⟨hl, .same⟩
    | true =>
      obtain ⟨-, hmsi, haddr⟩ := hk rfl
      refine ⟨hl.same (fun _ => rfl) (fun _ _ => rfl), ?_⟩
      have hv : (k.dev.litepcieWritel addr val).view i d = k.dev.view i d :=
        view_writel hmsi (by rw [hl.base]; exact haddr d)
      exact hv ▸ .same
  | dmaInit out =>
    simp only [ioctlBody, litepcieDmaInitCpu]
    generalize buffers dmaChannels = bs
    rw [view_initLoop out bs k]
    exact ⟨layout_initLoop out bs hl, .same⟩
  | dma loopbackEnable =>
    refine ⟨hl.same (fun _ => rfl) (fun _ _ => rfl), ?_⟩
    have hv : (k.dev.litepcieWritel ((k.dev.chan p.chan).base + pcieDmaLoopbackEnableOffset)
        (BitVec.ofNat 32 loopbackEnable.toNat)).view i d = k.dev.view i d := by
      apply view_writel
      · rw [hl.base]
        decide
      · rw [hl.base, hl.base]
        cases d <;> decide
    exact hv ▸ .same
  | dmaWriter en => exact ⟨hl.ioctlDma en, engineStep_ioctlDma hl en⟩
  | dmaReader en => exact ⟨hl.ioctlDma en, engineStep_ioctlDma hl en⟩
  | mmapDmaInfo => exact ⟨hl, .same⟩
  | mmapDmaWriterUpdate v => exact ⟨hmod .writer v, engineStep_setSwCount k.dev p.chan .writer v⟩
  | mmapDmaReaderUpdate v => exact ⟨hmod .reader v, engineStep_setSwCount k.dev p.chan .reader v⟩
  | lock m => exact ⟨layout_ioctlLock m h p hl, view_ioctlLock (i := i) m h p k ▸ .same⟩

theorem dev_litepcieRelease {n : Nat} (h : Nat) (p : ChanPriv n) (k : Driver n) :
    (k.litepcieRelease h p).dev = releaseDir .writer p (releaseDir .reader p k.dev) := by
  simp only [litepcieRelease, dev_setFile, (litepcieDmaDeinitCpu_frame _).1]

/-- `close` stops the engines that the handle owns. -/
theorem engineStep_release {k : Driver dmaChannels} (h : Nat) (p : ChanPriv dmaChannels)
    (hl : k.dev.Layout) : (k.litepcieRelease h p).dev.Layout ∧
      EngineStep (k.dev.view i d) ((k.litepcieRelease h p).dev.view i d) := by
  have hr : (releaseDir .reader p k.dev).Layout := hl.releaseDir p
  rw [dev_litepcieRelease]
  refine ⟨hr.releaseDir p, ?_⟩
  rw [view_releaseDir hr, view_releaseDir hl]
  split
  · exact .stop
  · split
    · exact .stop
    · exact .same

/-- What one event does to an engine; the registers stay where they are. -/
theorem view_step {s s' : Sys dmaChannels} {ev : SysEv dmaChannels} (h : s.step ev = some s')
    (hl : s.drv.dev.Layout) (hk : ev.KeepsEngineRegs) :
    s'.drv.dev.Layout ∧ EngineStep (s.drv.dev.view i d) (s'.drv.dev.view i d) := by
  have hd := step_drv h
  cases ev with
  | openFile f j =>
    obtain ⟨-, hd⟩ := hd
    rw [hd]
    refine ⟨hl.same (fun j' => base_litepcieOpen f j j' s.drv) fun j' e => ?_,
      engineStep_open s.drv f j⟩
    rw [dir_litepcieOpen]
    split <;> rfl
  | ioctl f c flt =>
    obtain ⟨p, -, hd⟩ := hd
    rw [hd, driver_litepcieIoctl]
    split
    · exact ⟨hl, .same⟩
    · exact engineStep_ioctlBody hl hk
  | read f b a z =>
    rw [show s'.drv = s.drv from hd]
    exact ⟨hl, .same⟩
  | write f b a z =>
    rw [show s'.drv = s.drv from hd]
    exact ⟨hl, .same⟩
  | access t o =>
    obtain ⟨hd, -⟩ | ⟨f, j, q, g, r, -, hd⟩ := hd
    · rw [hd]
      exact ⟨hl, .same⟩
    · obtain ⟨-, -, hd | ⟨e, v, hd⟩⟩ := chanCall_dev hd
      · rw [hd]
        exact ⟨hl, .same⟩
      · rw [hd]
        exact ⟨hl.modDir fun _ => rfl, engineStep_setSwCount s.drv.dev j e v⟩
  | close f =>
    obtain ⟨p, -, hd⟩ := hd
    rw [hd]
    exact engineStep_release f p hl
  | interrupt regs =>
    rw [hd]
    exact engineStep_interrupt hl regs

/-! ## Runs -/

/-- The registers of the engines after the reset of the board: everything is off. -/
def ResetValues (bar0 : Nat → BitVec 32) : Prop :=
  bar0 csrPcieMsiEnableAddr = 0 ∧ ∀ d : Dir, bar0 (csrPcieDma0Base + d.enableOffset) = 0

/-- Every engine of the board mirrors its flag. -/
def EnginesMirrored (s : Sys dmaChannels) : Prop := ∀ i d, (s.drv.dev.view i d).Mirrors

/-- An engine that the step takes from off to on has counted nothing. -/
def StartsFresh (s : Sys dmaChannels) (ev : SysEv dmaChannels) : Prop :=
  ∀ s', s.step ev = some s' → ∀ i d, (s.drv.dev.view i d).enable = 0 →
    (s'.drv.dev.view i d).enable ≠ 0 → (s'.drv.dev.view i d).Fresh

theorem probed_mirrored {bar0 : Nat → BitVec 32} (h : ResetValues bar0) :
    (Sys.probed bar0).drv.dev.Layout ∧ EnginesMirrored (Sys.probed bar0) := by
  refine ⟨⟨fun i => rfl, fun i d => by cases d <;> rfl⟩, fun i d => ?_⟩
  obtain ⟨hmsi, hen⟩ := h
  have hrun : ((Sys.probed bar0).drv.dev.view i d).running = 0 := hen d
  have hirq : ((Sys.probed bar0).drv.dev.view i d).irqEnabled = false := by
    show (bar0 csrPcieMsiEnableAddr).getLsbD _ = false
    simp [hmsi]
  have hoff : ((Sys.probed bar0).drv.dev.view i d).enable = 0 := by cases d <;> rfl
  refine ⟨by simp [hrun, hoff], by simp [hrun, hirq], fun _ => ?_⟩
  cases d <;> exact ⟨rfl, rfl⟩

/-- In every run from the probed board the flags mirror the hardware, and every engine that goes
on starts with its counts at zero. -/
theorem engines_mirrored (bar0 : Nat → BitVec 32) (h : ResetValues bar0)
    (es : List (SysEv dmaChannels)) (hes : ∀ ev ∈ es, ev.KeepsEngineRegs) :
    (machine dmaChannels).Always EnginesMirrored es (Sys.probed bar0) ∧
      (machine dmaChannels).Along StartsFresh es (Sys.probed bar0) := by
  have hstep : ∀ s ev s', (s.drv.dev.Layout ∧ EnginesMirrored s) → ev.KeepsEngineRegs →
      (machine dmaChannels).step s ev = some s' → s'.drv.dev.Layout ∧ EnginesMirrored s' := by
    intro s ev s' hi hk hs
    exact ⟨(view_step (i := 0) (d := .reader) hs hi.1 hk).1,
      fun i d => (view_step hs hi.1 hk).2.mirrors (hi.2 i d)⟩
  have hkeeps := (machine dmaChannels).along_of_mem (s := Sys.probed bar0) hes
  constructor
  · exact Machine.always_of_along hstep (fun s hi => hi.2) (probed_mirrored h) hkeeps
  · refine Machine.along_of_inv hstep ?_ (probed_mirrored h) hkeeps
    intro s ev s' hi hk _ t ht i d hoff hon
    exact (view_step ht hi.1 hk).2.fresh hoff hon

/-- One handle takes the lock of the writer and starts it, an interrupt comes, the handle starts it
again with another value and is closed. -/
def restart : List (SysEv dmaChannels) :=
  [.openFile 0 0, .ioctl 0 (.lock ⟨false, true, false, false⟩) .none, .ioctl 0 (.dmaWriter 1) .none,
    .interrupt fun _ => 2, .ioctl 0 (.dmaWriter 5) .none, .close 0]

/-- The writer runs before the handle is closed, and then it is off. -/
theorem engines_mirrored_restart :
    ((machine dmaChannels).run (restart.take 5) (Sys.probed fun _ => 0)).map
        (fun s => (s.drv.dev.dir 0 .writer).enable) = some 5 ∧
      ((machine dmaChannels).run restart (Sys.probed fun _ => 0)).map
        (fun s => (s.drv.dev.dir 0 .writer).enable) = some 0 ∧
      (machine dmaChannels).Always EnginesMirrored restart (Sys.probed fun _ => 0) ∧
      (machine dmaChannels).Along StartsFresh restart (Sys.probed fun _ => 0) := by
  have h : ResetValues fun _ => 0 := ⟨rfl, fun _ => rfl⟩
  have hes : ∀ ev ∈ restart, ev.KeepsEngineRegs := by
    simp [restart, SysEv.KeepsEngineRegs]
  exact ⟨by decide +kernel, by decide +kernel, engines_mirrored (fun _ => 0) h restart hes⟩

end Sys
end Kernel
end Xtrx
