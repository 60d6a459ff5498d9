import Mathlib.Logic.ExistsUnique
import Xtrx.Kernel.System

/-!
# The DMA locks

`LITEPCIE_IOCTL_LOCK` records the owner of a direction twice: in the channel (`reader_lock`,
`writer_lock`) and in the private data of the handle.

- **Exclusion** (`LocksExclusive`): a lock is set exactly when one open handle owns the direction,
  and no two handles own it.
- **Engines** (`KeepsEngines`): `close` leaves the engines alone that other handles own.
- The release bits clear the lock of the channel without a look at the private data. A run has both
  properties exactly when its release bits name free directions or the handle's own
  (`ReleasesOwn`): `locks_exclusive_iff`.
-/

namespace Xtrx
namespace Kernel

open Conc Driver

variable {n : Nat}

namespace Driver

/-- The open handle `h` owns direction `d` of channel `i`. -/
def Owns (k : Driver n) (h : Nat) (i : Fin n) (d : Dir) : Prop :=
  ∃ p, k.files h = some p ∧ p.chan = i ∧ p.owns d = true

/-- Every lock is set exactly when one open handle owns the direction, and no two own it. -/
def LocksExclusive (k : Driver n) : Prop :=
  ∀ i d, ((k.dev.dir i d).lock = true ↔ ∃! h, k.Owns h i d) ∧
    ∀ h h', k.Owns h i d → k.Owns h' i d → h = h'

/-- Nothing about locks, owners and register addresses changes. -/
structure SameLocks (k k' : Driver n) : Prop where
  files : k'.files = k.files
  lock : ∀ i d, (k'.dev.dir i d).lock = (k.dev.dir i d).lock
  base : ∀ i, (k'.dev.chan i).base = (k.dev.chan i).base

theorem SameLocks.refl (k : Driver n) : SameLocks k k := ⟨rfl, fun _ _ => rfl, fun _ => rfl⟩

theorem sameLocks_modDir {k : Driver n} {i : Fin n} {d : Dir} {g : DmaDir → DmaDir}
    (h : ∀ c, (g c).lock = c.lock) : SameLocks k { k with dev := k.dev.modDir i d g } :=
  ⟨rfl, fun j e => LitepcieDevice.dir_modDir_keeps (f := DmaDir.lock) h k.dev i j d e,
    fun j => LitepcieDevice.base_modDir k.dev i j d g⟩

theorem sameLocks_initLoop (out : AllocOutcome n) (bs : List (Fin n × Fin dmaBufferCount))
    (k : Driver n) : SameLocks k (initLoop out bs k).2 := by
  constructor
  · refine initLoop_keeps (f := fun k => k.files) ?_ out bs k
    intro d i b r k
    cases r <;> rfl
  · intro j e
    refine initLoop_keeps (f := fun k => (k.dev.dir j e).lock) ?_ out bs k
    intro d i b r k
    cases r with
    | none => exact LitepcieDevice.dir_modDir_keeps (f := DmaDir.lock) (by intro c; rfl) k.dev i j d e
    | some a => exact LitepcieDevice.dir_modDir_keeps (f := DmaDir.lock) (by intro c; rfl) k.dev i j d e
  · intro j
    refine initLoop_keeps (f := fun k => (k.dev.chan j).base) ?_ out bs k
    intro d i b r k
    cases r <;> simp [dmamAllocCoherent]

theorem sameLocks_ioctlDma (k : Driver n) (d : Dir) (i : Fin n) (enable : UInt8) :
    SameLocks k { k with dev := (ioctlDma d i enable k.dev).2 } := by
  refine ⟨rfl, fun j e => ?_, fun j => base_ioctlDma d i j enable k.dev⟩
  simp only [dir_ioctlDma]
  split
  · rename_i hj
    rw [hj.1, hj.2]
    split <;> rfl
  · rfl

/-- No ioctl but `LITEPCIE_IOCTL_LOCK` changes a lock or an owner. -/
theorem sameLocks_litepcieIoctl {c : Ioctl n} (hc : ∀ m, c ≠ .lock m) (h : Nat) (p : ChanPriv n)
    (f : Fault) (k : Driver n) : SameLocks k (litepcieIoctl h p c f k).2.2 := by
  rw [driver_litepcieIoctl]
  split
  · exact SameLocks.refl k
  · cases c with
    | reg isWrite addr val => cases isWrite <;> exact ⟨rfl, fun _ _ => rfl, fun _ => rfl⟩
    | dmaInit out => exact sameLocks_initLoop out (buffers n) k
    | dma loopbackEnable => exact ⟨rfl, fun _ _ => rfl, fun _ => rfl⟩
    | dmaWriter enable => exact sameLocks_ioctlDma k .writer p.chan enable
    | dmaReader enable => exact sameLocks_ioctlDma k .reader p.chan enable
    | mmapDmaInfo => exact SameLocks.refl k
    | mmapDmaWriterUpdate swCount => exact sameLocks_modDir fun _ => rfl
    | mmapDmaReaderUpdate swCount => exact sameLocks_modDir fun _ => rfl
    | lock m => exact absurd rfl (hc m)

theorem sameLocks_chanCall {i : Fin n} {q : ChanReq} {o : Nat} {k k' : Driver n} {r : q.Ans}
    (h : chanCall i q o k = some (r, k')) : SameLocks k k' := by
  obtain ⟨hf, -, hd | ⟨d, v, hd⟩⟩ := Sys.chanCall_dev h
  · exact ⟨hf, fun _ _ => by rw [hd], fun _ => by rw [hd]⟩
  · refine ⟨hf, fun j e => ?_, fun j => ?_⟩
    · rw [hd]
      exact LitepcieDevice.dir_modDir_keeps (f := DmaDir.lock) (by intro c; rfl) k.dev i j d e
    · rw [hd, LitepcieDevice.base_modDir]

theorem sameLocks_interrupt (k : Driver n) (regs : Nat → BitVec 32) :
    SameLocks k { k with dev := (k.dev.setStatus regs).litepcieInterrupt } := by
  refine ⟨rfl, fun j e => ?_, fun j => ?_⟩
  · refine litepcieInterrupt_keeps (f := fun s => (s.dir j e).lock) ?_ (fun _ _ _ => rfl)
      (k.dev.setStatus regs)
    exact fun s i d v => LitepcieDevice.dir_modDir_keeps (f := DmaDir.lock) (by intro c; rfl) s i j d e
  · exact litepcieInterrupt_keeps (f := fun s => (s.chan j).base)
      (fun s i d v => LitepcieDevice.base_modDir s i j d _) (fun _ _ _ => rfl) (k.dev.setStatus regs)

/-! ## The invariant -/

/-- `LocksExclusive` in the form that the steps keep; the channels' registers are at
`CSR_PCIE_DMA0_BASE`. -/
structure LockInv (k : Driver n) : Prop where
  base : ∀ i, (k.dev.chan i).base = csrPcieDma0Base
  lock : ∀ i d, (k.dev.dir i d).lock = true ↔ ∃ h, k.Owns h i d
  unique : ∀ i d h h', k.Owns h i d → k.Owns h' i d → h = h'

theorem LockInv.exclusive {k : Driver n} (h : LockInv k) : LocksExclusive k := by
  refine fun i d => ⟨?_, h.unique i d⟩
  rw [h.lock i d]
  constructor
  · rintro ⟨g, hg⟩
    exact ⟨g, hg, fun g' hg' => h.unique i d g' g hg' hg⟩
  · rintro ⟨g, hg, -⟩
    exact ⟨g, hg⟩

theorem LockInv.same {k k' : Driver n} (h : LockInv k) (hs : SameLocks k k') : LockInv k' := by
  have ho : ∀ g i d, k'.Owns g i d ↔ k.Owns g i d := by
    intro g i d
    unfold Owns
    rw [hs.files]
  constructor
  · intro i
    rw [hs.base, h.base]
  · intro i d
    rw [hs.lock, h.lock]
    exact exists_congr fun g => (ho g i d).symm
  · intro i d g g' hg hg'
    exact h.unique i d g g' ((ho g i d).mp hg) ((ho g' i d).mp hg')

theorem LockInv.probed (bar0 : Nat → BitVec 32) : LockInv (Driver.probed bar0 : Driver n) := by
  have hno : ∀ h i d, ¬ (Driver.probed bar0 : Driver n).Owns h i d := by
    rintro h i d ⟨p, hp, -⟩
    cases hp
  constructor
  · exact fun i => rfl
  · intro i d
    refine ⟨fun hl => ?_, fun ⟨h, hh⟩ => absurd hh (hno h i d)⟩
    cases d <;> cases hl
  · exact fun i d h h' hh => absurd hh (hno h i d)

/-- A new handle owns nothing. -/
theorem LockInv.openFile {k : Driver n} {h : Nat} (hk : LockInv k) (hnew : k.files h = none)
    (i : Fin n) : LockInv (k.litepcieOpen h i) := by
  have ho : ∀ g j d, (k.litepcieOpen h i).Owns g j d ↔ k.Owns g j d := by
    intro g j d
    unfold Owns
    rw [files_litepcieOpen]
    by_cases hg : g = h
    · subst hg
      rw [if_pos rfl, hnew]
      constructor
      · rintro ⟨p, hp, -, howns⟩
        cases hp
        cases d <;> cases howns
      · rintro ⟨p, hp, -⟩
        cases hp
    · rw [if_neg hg]
  constructor
  · intro j
    rw [base_litepcieOpen, hk.base]
  · intro j d
    have hl : ((k.litepcieOpen h i).dev.dir j d).lock = (k.dev.dir j d).lock := by
      rw [dir_litepcieOpen]
      split <;> rfl
    rw [hl, hk.lock]
    exact exists_congr fun g => (ho g j d).symm
  · intro j d g g' hg hg'
    exact hk.unique j d g g' ((ho g j d).mp hg) ((ho g' j d).mp hg')

/-- `close` frees what the handle owns. -/
theorem LockInv.close {k : Driver n} {h : Nat} {p : ChanPriv n} (hk : LockInv k)
    (hp : k.files h = some p) : LockInv (k.litepcieRelease h p) := by
  have ho : ∀ g j d, (k.litepcieRelease h p).Owns g j d ↔ g ≠ h ∧ k.Owns g j d := by
    intro g j d
    unfold Owns
    rw [files_litepcieRelease]
    by_cases hg : g = h
    · simp [hg]
    · simp [hg]
  constructor
  · intro j
    rw [base_litepcieRelease, hk.base]
  · intro j d
    rw [dir_litepcieRelease]
    split
    · -- the owner was `h`
      rename_i hown
      have hh : k.Owns h j d := ⟨p, hp, hown.2.symm, hown.1⟩
      constructor
      · intro hl
        cases hl
      · rintro ⟨g, hg⟩
        obtain ⟨hne, hg⟩ := (ho g j d).mp hg
        exact absurd (hk.unique j d g h hg hh) hne
    · rename_i hown
      rw [hk.lock]
      refine exists_congr fun g => ⟨fun hg => (ho g j d).mpr ⟨?_, hg⟩, fun hg => ((ho g j d).mp hg).2⟩
      rintro rfl
      obtain ⟨q, hq, hc, hqo⟩ := hg
      rw [hp] at hq
      cases hq
      exact hown ⟨hqo, hc.symm⟩
  · intro j d g g' hg hg'
    exact hk.unique j d g g' ((ho g j d).mp hg).2 ((ho g' j d).mp hg').2

/-- The owners after `LITEPCIE_IOCTL_LOCK`. -/
theorem owns_ioctlLock {k : Driver n} {h g : Nat} {p : ChanPriv n} (m : LockRequest) (j : Fin n)
    (d : Dir) :
    (ioctlLock m h p k).2.Owns g j d ↔
      (g = h ∧ p.chan = j ∧ ownsAfter m d (k.dev.dir p.chan d).lock (p.owns d) = true) ∨
        (g ≠ h ∧ k.Owns g j d) := by
  unfold Owns
  rw [files_ioctlLock]
  by_cases hg : g = h
  · rw [if_pos hg]
    cases d <;> simp [hg, ChanPriv.owns]
  · rw [if_neg hg]
    simp [hg]

/-- The release bits of `m` name directions that are free or that the handle owns. -/
def ReleaseBitsOwn (k : Driver n) (p : ChanPriv n) (m : LockRequest) : Prop :=
  ∀ d, m.release d = true → (k.dev.dir p.chan d).lock = false ∨ p.owns d = true

section

variable {k : Driver n} {h g : Nat} {p : ChanPriv n} {m : LockRequest} {d : Dir}

/-- A direction of the handle's channel is locked and not its own exactly if another handle owns it. -/
theorem LockInv.other_iff (hk : LockInv k) (hp : k.files h = some p) :
    (∃ g, g ≠ h ∧ k.Owns g p.chan d) ↔ (k.dev.dir p.chan d).lock = true ∧ p.owns d = false := by
  constructor
  · rintro ⟨g, hg, ho⟩
    refine ⟨(hk.lock p.chan d).mpr ⟨g, ho⟩, Bool.eq_false_iff.mpr fun hpo => hg ?_⟩
    exact hk.unique p.chan d g h ho ⟨p, hp, rfl, hpo⟩
  · rintro ⟨hl, hpo⟩
    obtain ⟨g, hg⟩ := (hk.lock p.chan d).mp hl
    refine ⟨g, ?_, hg⟩
    rintro rfl
    obtain ⟨q, hq, -, hqo⟩ := hg
    cases hp.symm.trans hq
    cases hpo.symm.trans hqo

/-- Afterwards a direction is locked if the handle owns it, or if it was locked for another. -/
theorem lockAfter_iff {lock own : Bool} (hown : own = true → lock = true)
    (hm : m.release d = true → lock = false ∨ own = true) :
    lockAfter m d lock = true ↔ ownsAfter m d lock own = true ∨ lock = true ∧ own = false := by
  cases hrel : m.release d with
  | false => cases lock <;> cases own <;> simp_all [lockAfter, ownsAfter]
  | true => cases lock <;> cases own <;> simp_all [lockAfter, ownsAfter]

theorem LockInv.lock_ioctlLock (hk : LockInv k) (hp : k.files h = some p) (hm : ReleaseBitsOwn k p m) :
    lockAfter m d (k.dev.dir p.chan d).lock = true ↔ ∃ g, (ioctlLock m h p k).2.Owns g p.chan d := by
  have hown : p.owns d = true → (k.dev.dir p.chan d).lock = true := fun ho =>
    (hk.lock p.chan d).mpr ⟨h, p, hp, rfl, ho⟩
  rw [lockAfter_iff hown (hm d), ← hk.other_iff hp]
  constructor
  · rintro (ho | ⟨g, hg, ho⟩)
    · exact ⟨h, (owns_ioctlLock m p.chan d).mpr (.inl ⟨rfl, rfl, ho⟩)⟩
    · exact ⟨g, (owns_ioctlLock m p.chan d).mpr (.inr ⟨hg, ho⟩)⟩
  · rintro ⟨g, hg⟩
    rcases (owns_ioctlLock m p.chan d).mp hg with ⟨-, -, ho⟩ | ⟨hg, ho⟩
    · exact .inl ho
    · exact .inr ⟨g, hg, ho⟩

/-- Nothing changes on the other channels. -/
theorem owns_ioctlLock_other {j : Fin n} (hp : k.files h = some p) (hj : j ≠ p.chan) :
    (ioctlLock m h p k).2.Owns g j d ↔ k.Owns g j d := by
  rw [owns_ioctlLock]
  constructor
  · rintro (⟨-, hc, -⟩ | ⟨-, ho⟩)
    · exact absurd hc.symm hj
    · exact ho
  · rintro ⟨q, hq, hc, ho⟩
    refine .inr ⟨?_, q, hq, hc, ho⟩
    rintro rfl
    cases hp.symm.trans hq
    exact hj hc.symm

/-- The handle does not become the owner of what another handle owns. -/
theorem LockInv.not_ownsAfter (hk : LockInv k) (hp : k.files h = some p) (hg : g ≠ h)
    (ho : k.Owns g p.chan d) : ownsAfter m d (k.dev.dir p.chan d).lock (p.owns d) ≠ true := by
  obtain ⟨hl, hpo⟩ := (hk.other_iff hp).mp ⟨g, hg, ho⟩
  simp [ownsAfter, hl, hpo]

theorem LockInv.unique_ioctlLock (hk : LockInv k) (hp : k.files h = some p) {j : Fin n} {g' : Nat}
    (hg : (ioctlLock m h p k).2.Owns g j d) (hg' : (ioctlLock m h p k).2.Owns g' j d) : g = g' := by
  rcases (owns_ioctlLock m j d).mp hg with ⟨rfl, rfl, ho⟩ | ⟨hne, ho⟩ <;>
    rcases (owns_ioctlLock m _ d).mp hg' with ⟨rfl, hc', ho'⟩ | ⟨hne', ho'⟩
  · rfl
  · exact absurd ho (hk.not_ownsAfter hp hne' ho')
  · subst hc'
    exact absurd ho' (hk.not_ownsAfter hp hne ho)
  · exact hk.unique j d g g' ho ho'

theorem LockInv.ioctlLock (hk : LockInv k) (hp : k.files h = some p) (hm : ReleaseBitsOwn k p m) :
    LockInv (ioctlLock m h p k).2 where
  base j := by simp only [Driver.ioctlLock, dev_setFile, base_ioctlLockDir, hk.base]
  lock j d := by
    rw [dir_ioctlLock]
    by_cases hj : j = p.chan
    · subst hj
      rw [if_pos rfl]
      exact hk.lock_ioctlLock hp hm
    · rw [if_neg hj, hk.lock]
      exact exists_congr fun g => (owns_ioctlLock_other hp hj).symm
  unique _ _ _ _ hg hg' := hk.unique_ioctlLock hp hg hg'

end

/-- A release bit for a direction that another handle owns leaves a direction that is owned and
not locked. -/
theorem LockInv.releaseBitsOwn {k : Driver n} {h : Nat} {p : ChanPriv n} {m : LockRequest}
    (hk : LockInv k) (hp : k.files h = some p) (hx : LocksExclusive (Driver.ioctlLock m h p k).2) :
    ReleaseBitsOwn k p m := by
  intro d hrel
  by_cases hlk : (k.dev.dir p.chan d).lock = true
  · right
    by_contra hpo
    obtain ⟨g, hgh, hg⟩ := (hk.other_iff hp).mpr ⟨hlk, Bool.eq_false_iff.mpr hpo⟩
    have hg' := (owns_ioctlLock (p := p) m p.chan d).mpr (.inr ⟨hgh, hg⟩)
    obtain ⟨hl, hu⟩ := hx p.chan d
    have := hl.mpr ⟨g, hg', fun g' ho => hu g' g ho hg'⟩
    rw [dir_ioctlLock, if_pos rfl] at this
    simp [DmaDir.setLock, lockAfter, hrel] at this
  · left
    simpa using hlk

end Driver

/-! ## Runs -/

/-- `close` of a handle leaves the counters, flags and `ENABLE` register of every direction of the
channel alone that another handle owns. -/
def KeepsEngines (s : Sys n) : SysEv n → Prop
  | .close h => ∀ s', s.step (.close h) = some s' → ∀ p g d, s.drv.files h = some p → g ≠ h →
      s.drv.Owns g p.chan d →
      s'.drv.dev.dir p.chan d = s.drv.dev.dir p.chan d ∧
        s'.drv.dev.litepcieReadl ((s.drv.dev.chan p.chan).base + d.enableOffset) =
          s.drv.dev.litepcieReadl ((s.drv.dev.chan p.chan).base + d.enableOffset)
  | _ => True

/-- The release bits of a `LITEPCIE_IOCTL_LOCK` name directions that are free or that the handle
owns. -/
def ReleasesOwn (s : Sys n) : SysEv n → Prop
  | .ioctl h (.lock m) f => f ≠ .fromUser → ∀ p, s.drv.files h = some p → ReleaseBitsOwn s.drv p m
  | _ => True

theorem Driver.LockInv.step {s s' : Sys n} {e : SysEv n} (hs : LockInv s.drv) (hc : ReleasesOwn s e)
    (h : s.step e = some s') : LockInv s'.drv := by
  have hd := Sys.step_drv h
  cases e with
  | openFile g i =>
    obtain ⟨hnew, hd⟩ := hd
    rw [hd]
    exact hs.openFile hnew i
  | ioctl g c f =>
    obtain ⟨p, hp, hd⟩ := hd
    rw [hd]
    by_cases hlock : ∃ m, c = .lock m
    · obtain ⟨m, rfl⟩ := hlock
      rw [driver_litepcieIoctl]
      by_cases hf : f = .fromUser
      · rw [if_pos ⟨hf, rfl⟩]
        exact hs
      · rw [if_neg fun h => hf h.1]
        exact hs.ioctlLock hp (hc hf p hp)
    · exact hs.same (sameLocks_litepcieIoctl (fun m hm => hlock ⟨m, hm⟩) g p f s.drv)
  | read g b a z =>
    rw [show s'.drv = s.drv from hd]
    exact hs
  | write g b a z =>
    rw [show s'.drv = s.drv from hd]
    exact hs
  | access t o =>
    rcases hd with ⟨hd, -⟩ | ⟨g, i, q, r, x, -, hcall⟩
    · rw [hd]
      exact hs
    · exact hs.same (sameLocks_chanCall hcall)
  | close g =>
    obtain ⟨p, hp, hd⟩ := hd
    rw [hd]
    exact hs.close hp
  | interrupt regs =>
    rw [show s'.drv = _ from hd]
    exact hs.same (sameLocks_interrupt s.drv regs)

/-- If the next state is exclusive, the step released nothing that another handle owns. -/
theorem Driver.LockInv.releasesOwn {s s' : Sys n} {e : SysEv n} (hs : LockInv s.drv)
    (h : s.step e = some s') (hx : LocksExclusive s'.drv) : ReleasesOwn s e := by
  have hd := Sys.step_drv h
  cases e with
  | ioctl g c f =>
    cases c with
    | lock m =>
      intro hf p hp
      obtain ⟨q, hq, hd⟩ := hd
      rw [hp] at hq
      cases hq
      rw [hd, driver_litepcieIoctl, if_neg fun h => hf h.1] at hx
      exact hs.releaseBitsOwn hp hx
    | _ => trivial
  | _ => trivial

/-- A handle that does not own a direction does not stop it. -/
theorem Driver.LockInv.keepsEngines {s : Sys n} (hs : LockInv s.drv) (e : SysEv n) : KeepsEngines s e := by
  cases e with
  | close h =>
    intro s' hstep p g d hp hne hg
    obtain ⟨q, hq, hd⟩ := Sys.step_drv hstep
    rw [hp] at hq
    cases hq
    have hno : p.owns d = false := ((hs.other_iff hp).mp ⟨g, hne, hg⟩).2
    rw [hd]
    refine ⟨?_, ?_⟩
    · rw [dir_litepcieRelease, if_neg]
      simp [hno]
    · have hbase := hs.base p.chan
      have hb : csrPcieMsiEnableAddr + 0x40 ≤ csrPcieDma0Base := by decide
      -- the other direction's registers are 32 bytes away
      have haway : ∀ e : Dir, p.owns e = true →
          csrPcieDma0Base + d.enableOffset < csrPcieDma0Base + e.enableOffset ∨
            csrPcieDma0Base + e.enableOffset + 0x20 ≤ csrPcieDma0Base + d.enableOffset := by
        intro e he
        cases d <;> cases e <;> simp_all [Dir.enableOffset]
      simp only [litepcieRelease, dev_setFile, (litepcieDmaDeinitCpu_frame _).1, hbase]
      rw [readl_releaseDir (by omega) (by rw [base_releaseDir, hbase]; exact haway .writer),
        readl_releaseDir (by omega) (by rw [hbase]; exact haway .reader)]
  | _ => trivial

/-- A run of file operations has the locks exclusive in every state, and closes no handle under
another owner's engine, exactly when every release bit names a direction that is free or that the
handle owns. -/
theorem locks_exclusive_iff (bar0 : Nat → BitVec 32) (es : List (SysEv n)) :
    ((Sys.machine n).Always (fun s => LocksExclusive s.drv) es (Sys.probed bar0) ∧
      (Sys.machine n).Along KeepsEngines es (Sys.probed bar0)) ↔
      (Sys.machine n).Along ReleasesOwn es (Sys.probed bar0) := by
  have hinit : LockInv (Sys.probed bar0 : Sys n).drv := LockInv.probed bar0
  have halways : (Sys.machine n).Always (fun s => LocksExclusive s.drv) es (Sys.probed bar0) ↔
      (Sys.machine n).Along ReleasesOwn es (Sys.probed bar0) :=
    Machine.always_iff_along (I := fun s => LockInv s.drv) (fun s e s' hs hc h => hs.step hc h)
      (fun s hs => hs.exclusive) (fun s e s' hs h hx => hs.releasesOwn h hx) hinit
  refine ⟨fun h => halways.mp h.1, fun h => ⟨halways.mpr h, ?_⟩⟩
  have hboth : (Sys.machine n).Along (fun s e => ReleasesOwn s e ∧ KeepsEngines s e) es
      (Sys.probed bar0) :=
    (Machine.along_iff (I := fun s => LockInv s.drv) (fun s e s' hs hc h => hs.step hc h)
      (fun s e s' hs _ => and_iff_left (hs.keepsEngines e)) hinit).mpr h
  exact Machine.along_mono (fun s e hc => hc.2) hboth

/-- Handle 2 releases the writer lock that handle 1 holds, and takes it. -/
def stealLock : List (SysEv 1) :=
  let request : LockRequest := ⟨false, true, false, false⟩
  let release : LockRequest := ⟨false, false, false, true⟩
  [.openFile 1 0, .openFile 2 0, .ioctl 1 (.lock request) .none, .ioctl 2 (.lock release) .none,
    .ioctl 2 (.lock request) .none]

/-- Then both handles own the writer. -/
theorem stealLock_not_exclusive :
    ¬ (Sys.machine 1).Always (fun s => LocksExclusive s.drv) stealLock (Sys.probed fun _ => 0) := by
  intro h
  have hfiles : ((Sys.machine 1).run stealLock (Sys.probed fun _ => 0)).map
      (fun s => (s.drv.files 1, s.drv.files 2)) =
        some (some ⟨0, false, true⟩, some ⟨0, false, true⟩) := by
    decide +kernel
  obtain ⟨s, hs, hf⟩ := Option.map_eq_some_iff.mp hfiles
  obtain ⟨h1, h2⟩ := Prod.mk.inj hf
  have := (h.run hs 0 .writer).2 1 2 ⟨_, h1, rfl, rfl⟩ ⟨_, h2, rfl, rfl⟩
  exact absurd this (by decide)

end Kernel
end Xtrx
