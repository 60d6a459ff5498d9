import Xtrx.Lib.Machine
import Xtrx.Kernel.Probe

/-!
# Boards that come and go (`litepcie-kernel-module/main.c`)

The life of the module: the kernel probes a device that has no driver, removes one that has, and
removes all when the driver is unregistered. As in the probe, messages and the accesses to the
registers are left out.

- **Functions**: `litepcie_pci_remove`, the module's init and exit, `boards` over whole lives.
- **`module_settled_iff`**: what the module and its boards created is removed in the end, exactly if
  each probe fails before the first handler, or succeeds with nodes for all its channels.
-/

namespace Xtrx
namespace Kernel

open Conc Ledger

def eExist : Int := 17

/-- `litepcie_pci_remove`. -/
def litepciePciRemove (irqVector : Nat → Nat) : Probe Unit := do
  let irqs := (← get).irqs
  (List.range irqs).forM fun i => record (.release (.handler (irqVector i) .litepcieDev))
  record (.release .uart)
  litepcieFreeChdev (← get).channels
  record (.release .vectors)

/-! ## The module -/

/-- What the module creates itself, and what its probes create: each has a `struct litepcie_device` of
its own. -/
inductive Owned where
  | cls
  | chrdevRegion
  | pciDriver
  | board (probe : Nat) (r : Resource)
  deriving DecidableEq

/-- A device with the driver: its probe, and what `pci_get_drvdata` gives. -/
structure Bound where
  dev : Nat
  probe : Nat
  env : ProbeEnv
  state : ProbeState

structure Module where
  litepcieClass : KernelPtr
  minorIdx : Int
  probes : Nat
  bound : List Bound
  log : List (Entry Owned)

/-- What the kernel answers to `litepcie_module_init`. -/
structure InitEnv where
  classCreate : KernelPtr
  allocChrdevRegion : Int
  registerDriver : Int

/-- `class_create`; only `NULL` is taken for an error. -/
def classCreated : KernelPtr → List (Entry Owned)
  | .ptr => [.acquire .cls]
  | _ => []

/-- `class_destroy` does nothing with an error. -/
def classDestroy : KernelPtr → List (Entry Owned)
  | .ptr => [.release .cls]
  | _ => []

/-- `litepcie_module_init`: the result, and the module with its record. The region begins at 0. -/
def litepcieModuleInit (env : InitEnv) : Int × Module :=
  let log := classCreated env.classCreate
  if env.classCreate = .null then
    (-eExist, ⟨.null, 0, 0, [], log⟩)
  else if env.allocChrdevRegion < 0 then
    (env.allocChrdevRegion, ⟨env.classCreate, 0, 0, [], log ++ classDestroy env.classCreate⟩)
  else
    let log := log ++ [.acquire .chrdevRegion]
    if env.registerDriver < 0 then
      (env.registerDriver,
        ⟨env.classCreate, 0, 0, [], log ++ .release .chrdevRegion :: classDestroy env.classCreate⟩)
    else
      (0, ⟨env.classCreate, 0, 0, [], log ++ [.acquire .pciDriver]⟩)

/-- What a device is probed with, and what happens to it. -/
inductive BoardEvent where
  | probe (dev : Nat) (env : ProbeEnv)
  | remove (dev : Nat)

/-- The entries of a removal. -/
def ProbeEnv.removal (env : ProbeEnv) (s : ProbeState) : List (Entry Resource) :=
  (litepciePciRemove env.irqVector { s with log := [] }).2.log

def Bound.removal (b : Bound) : List (Entry Resource) := b.env.removal b.state

def ofBoard (probe : Nat) (log : List (Entry Resource)) : List (Entry Owned) :=
  log.map (Entry.map (.board probe))

def BoardEvent.step (dmaChannels : Nat) (m : Module) : BoardEvent → Option Module
  | .probe dev env =>
    if m.bound.any (·.dev = dev) then none
    else
      let r := litepciePciProbe env dmaChannels (.start m.minorIdx)
      some { m with
        minorIdx := r.2.minorIdx
        probes := m.probes + 1
        bound := if r.1 = 0 then m.bound ++ [⟨dev, m.probes, env, r.2⟩] else m.bound
        log := m.log ++ ofBoard m.probes r.2.log }
  | .remove dev => do
    let b ← m.bound.find? (·.dev = dev)
    return { m with
      bound := m.bound.filter (·.dev ≠ dev)
      log := m.log ++ ofBoard b.probe b.removal }

/-- The boards, while the module is loaded. -/
def boards (dmaChannels : Nat) : Machine Module BoardEvent where
  step := BoardEvent.step dmaChannels

/-- `litepcie_module_exit`: the record of the whole life. -/
def litepcieModuleExit (m : Module) : List (Entry Owned) :=
  m.log ++ m.bound.flatMap (fun b => ofBoard b.probe b.removal) ++
    .release .pciDriver :: .release .chrdevRegion :: classDestroy m.litepcieClass

/-! ## A probe that succeeds -/

/-- The nodes that are created, from the minor `base` on. -/
def ProbeEnv.nodes (env : ProbeEnv) (channels : Nat) (base : Int) : List Resource :=
  ((List.range channels).filter fun i => env.deviceCreate i = .ptr).map fun i => .node (base + (i : Nat))

def ProbeEnv.handlers (env : ProbeEnv) (irqs : Nat) : List Resource :=
  (List.range irqs).map fun i => .handler (env.irqVector i) .litepcieDev

/-- What a probe creates that succeeds. -/
def ProbeEnv.created (env : ProbeEnv) (channels : Nat) (base : Int) : List Resource :=
  .vectors :: (env.handlers env.allocIrqVectors.toNat ++ (List.range channels).map .cdev ++
    env.nodes channels base ++ [.uart])

/-- What `litepcie_pci_remove` removes. -/
def ProbeEnv.removed (env : ProbeEnv) (irqs channels : Nat) (base : Int) : List Resource :=
  env.handlers irqs ++ [.uart] ++
    (List.range channels).flatMap (fun i => [.node (base + (i : Nat)), .cdev i]) ++ [.vectors]

/-- A loop with no error whose calls only add to the record and to `irqs`. -/
theorem untilError_adds (call : Nat → Probe Int) (f : Nat → List (Entry Resource)) (k : Nat) {m : Int}
    (is : List Nat) {s : ProbeState} (hm : s.minorIdx = m) (h : ∀ i ∈ is, ∀ s, s.minorIdx = m →
      0 ≤ (call i s).1 ∧ (call i s).2 = { s with irqs := s.irqs + k, log := s.log ++ f i }) :
    untilError call is s =
      (none, { s with irqs := s.irqs + k * is.length, log := s.log ++ is.flatMap f }) := by
  induction is generalizing s with
  | nil => simp [untilError]
  | cons i is ih =>
    obtain ⟨hret, hstate⟩ := h i (List.mem_cons_self ..) s hm
    have hrest := @ih { s with irqs := s.irqs + k, log := s.log ++ f i } hm
      fun j hj => h j (List.mem_cons_of_mem i hj)
    have hirqs : s.irqs + k + k * is.length = s.irqs + k * (is.length + 1) := by
      rw [Nat.mul_add]
      omega
    rw [untilError_cons, if_neg (Int.not_lt.mpr hret), hstate, hrest, List.length_cons,
      List.flatMap_cons, ← List.append_assoc, ← hirqs]

theorem forM_record (f : Nat → List (Entry Resource)) {g : Nat → Probe Unit} (is : List Nat)
    {s : ProbeState} {b : Int} (hb : s.minorBase = b)
    (hg : ∀ i s, s.minorBase = b → g i s = ((), { s with log := s.log ++ f i })) :
    is.forM g s = ((), { s with log := s.log ++ is.flatMap f }) := by
  induction is generalizing s with
  | nil => simp
  | cons i is ih =>
    have hrest := @ih { s with log := s.log ++ f i } hb
    rw [List.forM_eq_forM, List.forM_cons, probe_bind, hg i s hb]
    dsimp only
    rw [← List.forM_eq_forM, hrest, List.flatMap_cons, ← List.append_assoc]

section

variable (env : ProbeEnv) (channels : Nat)

theorem litepcieAllocChdev_succeeds (hcdev : ∀ i, i < channels → 0 ≤ env.cdevAdd i)
    (hnode : ∀ i, i < channels → env.deviceCreate i ≠ .null) (s : ProbeState) :
    litepcieAllocChdev env channels s = (0, { s with
      minorBase := s.minorIdx
      minorIdx := s.minorIdx + channels
      log := s.log ++ (((List.range channels).map Resource.cdev ++
        env.nodes channels s.minorIdx).map .acquire) }) := by
  have hcdevs (s : ProbeState) : untilError (cdevAdd env) (List.range channels) s =
      (none, { s with log := s.log ++ ((List.range channels).map Resource.cdev).map .acquire }) := by
    have hall := untilError_adds (cdevAdd env) (fun i => [.acquire (.cdev i)]) 0 (List.range channels)
      (s := s) rfl fun i hi s _ => by
        have hret := hcdev i (List.mem_range.mp hi)
        unfold cdevAdd
        rw [if_pos hret]
        exact ⟨hret, rfl⟩
    rw [hall, Nat.zero_mul, ← List.map_eq_flatMap, List.map_map]
    rfl
  have hnodes (s : ProbeState) : untilError (deviceCreate env) (List.range channels) s =
      (none, { s with log := s.log ++ (env.nodes channels s.minorIdx).map .acquire }) := by
    have hall := untilError_adds (deviceCreate env)
      (fun i => if env.deviceCreate i = .ptr then [.acquire (.node (s.minorIdx + i))] else []) 0
      (List.range channels) (s := s) rfl fun i hi s' hm => by
        have hret := hnode i (List.mem_range.mp hi)
        rw [deviceCreate, probe_bind]
        cases hptr : env.deviceCreate i with
        | null => exact absurd hptr hret
        | err e => exact ⟨Int.le_refl 0, by rw [if_neg (by simp), List.append_nil]; rfl⟩
        | ptr => exact ⟨Int.le_refl 0, by rw [← hm]; rfl⟩
    have hflat (is : List Nat) : (is.flatMap fun i => if env.deviceCreate i = .ptr then
        [Entry.acquire (Resource.node (s.minorIdx + i))] else []) =
        ((is.filter fun i => env.deviceCreate i = .ptr).map fun i =>
          Resource.node (s.minorIdx + (i : Nat))).map .acquire := by
      induction is with
      | nil => rfl
      | cons i is ih =>
        rw [List.flatMap_cons, ih]
        by_cases hptr : env.deviceCreate i = .ptr
        · simp [hptr]
        · simp [hptr]
    rw [hall, Nat.zero_mul, hflat]
    rfl
  rw [litepcieAllocChdev, probe_bind, probe_modify]
  dsimp only
  rw [probe_bind, hcdevs]
  dsimp only
  rw [probe_bind, hnodes]
  dsimp only
  rw [probe_bind, probe_modify, probe_pure]
  simp

theorem probeVectors_succeeds (hvec : 0 ≤ env.allocIrqVectors) (h : env.Succeeds channels)
    (minorIdx : Int) : probeVectors env channels (.start minorIdx) = (0,
      { minorIdx := minorIdx + channels
        irqs := env.allocIrqVectors.toNat
        channels
        minorBase := minorIdx
        chan := (List.range channels).map fun (i : Nat) => ⟨i, dmaBufferSize, minorIdx + i, .probed⟩
        log := (env.created channels minorIdx).map .acquire }) := by
  have hirqs (s : ProbeState) : untilError (requestIrq env) (List.range env.allocIrqVectors.toNat) s =
      (none, { s with
        irqs := s.irqs + env.allocIrqVectors.toNat
        log := s.log ++ (env.handlers env.allocIrqVectors.toNat).map .acquire }) := by
    have hall := untilError_adds (requestIrq env)
      (fun i => [.acquire (.handler (env.irqVector i) .litepcieDev)]) 1
      (List.range env.allocIrqVectors.toNat) (s := s) rfl fun i hi s _ => by
        have hret := h.requestIrq i (Int.lt_toNat.mp (List.mem_range.mp hi))
        unfold requestIrq
        rw [if_pos hret]
        exact ⟨hret, rfl⟩
    rw [hall, Nat.one_mul, List.length_range, ← List.map_eq_flatMap, ProbeEnv.handlers, List.map_map]
    rfl
  unfold probeVectors
  rw [if_neg (Int.not_lt.mpr hvec), probe_bind, record, probe_modify]
  dsimp only
  rw [probe_bind, hirqs]
  dsimp only
  unfold probeChannels
  rw [probe_bind, probe_modify]
  dsimp only
  rw [probe_bind, litepcieAllocChdev_succeeds env channels h.cdevAdd h.deviceCreate]
  dsimp only
  rw [if_neg (not_not_intro rfl), probe_bind, h.ttyRes]
  cases huart : env.uart with
  | err e => exact absurd huart (h.uart e)
  | null => simp [record, probe_modify, initChannels, ProbeState.start, ProbeEnv.created]
  | ptr => simp [record, probe_modify, initChannels, ProbeState.start, ProbeEnv.created]

/-- A removal of what is in `s`. -/
theorem litepciePciRemove_log (s : ProbeState) : (litepciePciRemove env.irqVector s).2.log =
    s.log ++ (env.removed s.irqs s.channels s.minorBase).map .release := by
  have hirqs (s : ProbeState) : (List.range s.irqs).forM (fun i =>
      record (.release (.handler (env.irqVector i) .litepcieDev))) s =
        ((), { s with log := s.log ++ (env.handlers s.irqs).map .release }) := by
    have hall := forM_record (fun i => [.release (.handler (env.irqVector i) .litepcieDev)])
      (List.range s.irqs) (s := s) rfl (g := fun i =>
        record (.release (.handler (env.irqVector i) .litepcieDev))) fun i s _ => rfl
    rw [hall, ← List.map_eq_flatMap, ProbeEnv.handlers, List.map_map]
    rfl
  have hfree (channels : Nat) (s : ProbeState) : litepcieFreeChdev channels s = ((), { s with
      log := s.log ++ ((List.range channels).flatMap fun i =>
        [Resource.node (s.minorBase + (i : Nat)), .cdev i]).map .release }) := by
    have hall := forM_record (fun i => [.release (.node (s.minorBase + (i : Nat))), .release (.cdev i)])
      (List.range channels) (s := s) rfl (g := fun i => do
        record (.release (.node ((← get).minorBase + i)))
        record (.release (.cdev i))) fun i s' hb => by
          simp [record, probe_modify, ← hb]
          rfl
    rw [List.map_flatMap]
    exact hall
  have hget (s : ProbeState) : (get : Probe ProbeState) s = (s, s) := rfl
  rw [litepciePciRemove, probe_bind, hget]
  dsimp only
  rw [probe_bind, hirqs, record, probe_bind, probe_modify]
  dsimp only
  rw [probe_bind, hget]
  dsimp only
  rw [probe_bind, hfree]
  simp [record, probe_modify, ProbeEnv.removed]

end

/-! ## The life of a board -/

/-- What a probe creates and removes, with the removal of the device if the probe succeeds. -/
def ProbeEnv.life (env : ProbeEnv) (channels : Nat) (minorIdx : Int) : List (Entry Resource) :=
  let r := litepciePciProbe env channels (.start minorIdx)
  r.2.log ++ if r.1 = 0 then env.removal r.2 else []

/-- What the kernel promises of the vectors. -/
structure ProbeEnv.Documented (env : ProbeEnv) : Prop where
  vectors : 0 ≤ env.allocIrqVectors → 1 ≤ env.allocIrqVectors ∧ env.allocIrqVectors ≤ 32
  irqVector : ∀ i j : Nat, (i : Int) < env.allocIrqVectors → (j : Int) < env.allocIrqVectors →
    env.irqVector i = env.irqVector j → i = j

/-- The probe fails before the first handler, or it succeeds and there is a node for each channel. -/
def ProbeEnv.Harmless (env : ProbeEnv) (channels : Nat) : Prop :=
  env.Registers → env.Succeeds channels ∧ ∀ i, i < channels → env.deviceCreate i = .ptr

section

variable {env : ProbeEnv} {channels : Nat} {base : Int}

theorem nodes_all (h : ∀ i, i < channels → env.deviceCreate i = .ptr) :
    env.nodes channels base = (List.range channels).map fun i => .node (base + (i : Nat)) := by
  have hall : (List.range channels).filter (fun i => env.deviceCreate i = .ptr) = List.range channels :=
    List.filter_eq_self.mpr fun i hi => decide_eq_true (h i (List.mem_range.mp hi))
  rw [ProbeEnv.nodes, hall]

theorem created_perm (h : ∀ i, i < channels → env.deviceCreate i = .ptr) :
    (env.created channels base).Perm (env.removed env.allocIrqVectors.toNat channels base) := by
  have hpairs := List.flatMap_append_perm (List.range channels)
    (fun i => [Resource.node (base + (i : Nat))]) fun i => [.cdev i]
  rw [← List.map_eq_flatMap, ← List.map_eq_flatMap] at hpairs
  rw [ProbeEnv.created, nodes_all h, ProbeEnv.removed, List.perm_iff_count]
  intro r
  have hcount := hpairs.count_eq r
  rw [List.count_append] at hcount
  simp only [List.singleton_append] at hcount
  rw [List.count_cons]
  simp only [List.count_append, ← hcount, List.count_singleton]
  omega

theorem created_nodup (henv : env.Documented) : (env.created channels base).Nodup := by
  have hhandlers : (env.handlers env.allocIrqVectors.toNat).Nodup := by
    refine List.nodup_range.map_on fun i hi j hj heq => ?_
    exact henv.irqVector i j (Int.lt_toNat.mp (List.mem_range.mp hi))
      (Int.lt_toNat.mp (List.mem_range.mp hj)) (Resource.handler.inj heq).1
  have hcdevs : ((List.range channels).map Resource.cdev).Nodup :=
    List.nodup_range.map_on fun i _ j _ heq => Resource.cdev.inj heq
  have hnodes : (env.nodes channels base).Nodup := by
    refine (List.nodup_range.filter _).map_on fun i _ j _ heq => ?_
    have hminor := Resource.node.inj heq
    omega
  have hhandler : ∀ r ∈ env.handlers env.allocIrqVectors.toNat, ∃ i, r = .handler i .litepcieDev := by
    intro r hr
    obtain ⟨i, -, rfl⟩ := List.mem_map.mp hr
    exact ⟨_, rfl⟩
  have hcdev : ∀ r ∈ (List.range channels).map Resource.cdev, ∃ i, r = .cdev i := by
    intro r hr
    obtain ⟨i, -, rfl⟩ := List.mem_map.mp hr
    exact ⟨i, rfl⟩
  have hnode : ∀ r ∈ env.nodes channels base, ∃ i, r = .node i := by
    intro r hr
    obtain ⟨i, -, rfl⟩ := List.mem_map.mp hr
    exact ⟨_, rfl⟩
  rw [ProbeEnv.created, List.nodup_cons, List.nodup_append, List.nodup_append, List.nodup_append]
  refine ⟨fun hm => ?_, ⟨⟨hhandlers, hcdevs, fun r hr r' hr' heq => ?_⟩, hnodes, fun r hr r' hr' heq => ?_⟩,
    List.nodup_singleton _, fun r hr r' hr' heq => ?_⟩
  · simp [ProbeEnv.handlers, ProbeEnv.nodes] at hm
  · obtain ⟨i, rfl⟩ := hhandler r hr
    obtain ⟨j, rfl⟩ := hcdev r' hr'
    cases heq
  · obtain ⟨j, rfl⟩ := hnode r' hr'
    rcases List.mem_append.mp hr with hr | hr
    · obtain ⟨i, rfl⟩ := hhandler r hr
      cases heq
    · obtain ⟨i, rfl⟩ := hcdev r hr
      cases heq
  · obtain rfl := List.mem_singleton.mp hr'
    subst heq
    simp [ProbeEnv.handlers, ProbeEnv.nodes] at hr

/-- A board with an error for a node: the node is removed and was not created. -/
theorem not_settled_of_err {e : Fin 4095} {i : Nat} (hi : i < channels)
    (herr : env.deviceCreate i = .err e) (irqs : Nat) : ¬ Settled
      ((env.created channels base).map .acquire ++ (env.removed irqs channels base).map .release) := by
  refine not_settled_of_stray (r := .node (base + (i : Nat))) ?_ ?_
  · refine List.mem_append_right _ (List.mem_map_of_mem ?_)
    simp only [ProbeEnv.removed, List.mem_append, List.mem_flatMap]
    exact .inl (.inr ⟨i, List.mem_range.mpr hi, List.mem_cons_self ..⟩)
  · intro hm
    rcases List.mem_append.mp hm with hm | hm
    · obtain ⟨r, hr, heq⟩ := List.mem_map.mp hm
      obtain rfl := Entry.acquire.inj heq
      simp [ProbeEnv.created, ProbeEnv.handlers, ProbeEnv.nodes] at hr
      exact KernelPtr.noConfusion (herr.symm.trans hr.2)
    · simp at hm

theorem probeDevice_ne_zero {ret : Int} (h : probeDevice env = some ret) : ret ≠ 0 := by
  unfold probeDevice at h
  split_ifs at h with hdev henable
  all_goals cases h
  all_goals first | decide | assumption

theorem life_settled_iff (henv : env.Documented) :
    Settled (env.life channels base) ↔ env.Harmless channels := by
  unfold ProbeEnv.life litepciePciProbe ProbeEnv.Harmless
  cases hdev : probeDevice env with
  | some ret =>
    have hprobe : (pure ret : Probe Int) (.start base) = (ret, .start base) := rfl
    dsimp only
    rw [hprobe, if_neg (probeDevice_ne_zero hdev), List.append_nil]
    refine ⟨fun _ h => ?_, fun _ => settled_nil⟩
    cases hdev.symm.trans h.device
  | none =>
    dsimp only
    by_cases hneg : env.allocIrqVectors < 0
    · have hprobe : probeVectors env channels (.start base) = (env.allocIrqVectors, .start base) := by
        unfold probeVectors
        rw [if_pos hneg]
        rfl
      rw [hprobe, if_neg (Int.ne_of_lt hneg), List.append_nil]
      exact ⟨fun _ h => absurd h.vectors (Int.not_le.mpr hneg), fun _ => settled_nil⟩
    · have hpos := Int.not_lt.mp hneg
      have hone := (henv.vectors hpos).1
      by_cases hirq : env.requestIrq 0 < 0
      · have hfails : ¬ env.Succeeds channels := fun h =>
          absurd (h.requestIrq 0 (by omega)) (Int.not_le.mpr hirq)
        rw [if_neg (mt (probeVectors_ret env channels _ hpos).mp hfails), List.append_nil,
          probeVectors_first env channels _ hone hirq]
        exact ⟨fun _ h => absurd h.requestIrq (Int.not_le.mpr hirq),
          fun _ => clean_vectors.settled⟩
      · have hregisters : env.Registers := ⟨hdev, hpos, Int.not_lt.mp hirq⟩
        rw [forall_prop_of_true hregisters]
        by_cases hall : env.Succeeds channels
        · rw [probeVectors_succeeds env channels hpos hall, if_pos rfl, ProbeEnv.removal,
            litepciePciRemove_log, List.nil_append, and_iff_right hall]
          constructor
          · intro h i hi
            cases hptr : env.deviceCreate i with
            | null => exact absurd hptr (hall.deviceCreate i hi)
            | err e => exact absurd h (not_settled_of_err hi hptr _)
            | ptr => rfl
          · exact fun h => settled_of_perm (created_nodup henv) (created_perm h)
        · rw [if_neg (mt (probeVectors_ret env channels _ hpos).mp hall), List.append_nil]
          refine ⟨fun h => ?_, fun h => absurd h.1 hall⟩
          -- the handler is in the record, and what frees it is not
          refine absurd h (not_settled_of_kept
            (handler_mem env channels (.start base) hone (Int.not_lt.mp hirq)) fun hm => ?_)
          exact (keeps_probeVectors env channels).of_mem
            (fun e he => by cases he) hm _ rfl

end

/-! ## The life of the module -/

/-- The probe that created it. -/
def Owned.owner : Owned → Option Nat
  | .board probe _ => some probe
  | _ => none

/-- The entries of one owner. -/
def part (c : Option Nat) (log : List (Entry Owned)) : List (Entry Owned) :=
  log.filter fun e => e.res.owner = c

def BoardEvent.Documented : BoardEvent → Prop
  | .probe _ env => env.Documented
  | .remove _ => True

def BoardEvent.Harmless (channels : Nat) : BoardEvent → Prop
  | .probe _ env => env.Harmless channels
  | .remove _ => True

structure Module.Inv (m : Module) : Prop where
  probe_lt : ∀ b ∈ m.bound, b.probe < m.probes
  probes : (m.bound.map Bound.probe).Nodup
  devs : (m.bound.map Bound.dev).Nodup
  unused : ∀ e ∈ m.log, ∀ k, e.res.owner = some k → k < m.probes

section

variable {channels : Nat} {m m' : Module} {e : BoardEvent} {es : List BoardEvent}

theorem part_append (c : Option Nat) (l l' : List (Entry Owned)) : part c (l ++ l') = part c l ++ part c l' :=
  List.filter_append ..

theorem settled_iff_part {log : List (Entry Owned)} : Settled log ↔ ∀ c, Settled (part c log) :=
  settled_iff_parts Owned.owner

theorem part_ofBoard (c : Option Nat) (k : Nat) (log : List (Entry Resource)) :
    part c (ofBoard k log) = if c = some k then ofBoard k log else [] := by
  have howner : ∀ e ∈ ofBoard k log, e.res.owner = some k := by
    intro e he
    obtain ⟨e, -, rfl⟩ := List.mem_map.mp he
    rw [Entry.res_map]
    rfl
  by_cases hc : c = some k
  · rw [if_pos hc]
    exact List.filter_eq_self.mpr fun e he => decide_eq_true ((howner e he).trans hc.symm)
  · rw [if_neg hc]
    exact List.filter_eq_nil_iff.mpr fun e he heq => hc ((of_decide_eq_true heq).symm.trans (howner e he))

theorem part_exit (c : Option Nat) (m : Module) : part c (litepcieModuleExit m) = part c m.log ++
    m.bound.flatMap (fun b => part c (ofBoard b.probe b.removal)) ++
      part c (.release .pciDriver :: .release .chrdevRegion :: classDestroy m.litepcieClass) := by
  rw [litepcieModuleExit, part_append, part_append, part, part, List.filter_flatMap]
  rfl

/-- A removal before the exit takes nothing from what the exit removes. -/
theorem flatMap_removed {bs : List Bound} (hprobes : (bs.map Bound.probe).Nodup)
    (hdevs : (bs.map Bound.dev).Nodup) {d : Nat} {b : Bound} (hb : bs.find? (·.dev = d) = some b)
    (c : Option Nat) : part c (ofBoard b.probe b.removal) ++
      (bs.filter (·.dev ≠ d)).flatMap (fun b => part c (ofBoard b.probe b.removal)) =
        bs.flatMap fun b => part c (ofBoard b.probe b.removal) := by
  induction bs with
  | nil => cases hb
  | cons x bs ih =>
    rw [List.map_cons, List.nodup_cons] at hprobes hdevs
    by_cases hx : x.dev = d
    · rw [List.find?_cons_of_pos (by simpa using hx)] at hb
      obtain rfl := Option.some.inj hb
      have hrest : bs.filter (·.dev ≠ d) = bs := by
        refine List.filter_eq_self.mpr fun y hy => decide_eq_true fun heq => hdevs.1 ?_
        exact List.mem_map.mpr ⟨y, hy, heq.trans hx.symm⟩
      rw [List.filter_cons_of_neg (by simpa using hx), hrest, List.flatMap_cons]
    · rw [List.find?_cons_of_neg (by simpa using hx)] at hb
      rw [List.filter_cons_of_pos (by simpa using hx), List.flatMap_cons, List.flatMap_cons,
        ← ih hprobes.2 hdevs.2 hb]
      have hne : b.probe ≠ x.probe := fun heq =>
        hprobes.1 (List.mem_map.mpr ⟨b, List.mem_of_find?_eq_some hb, heq⟩)
      by_cases hc : c = some b.probe
      · have hxc : c ≠ some x.probe := fun h => hne (Option.some.inj (hc.symm.trans h))
        rw [part_ofBoard c x.probe, if_neg hxc, List.nil_append, List.nil_append]
      · rw [part_ofBoard c b.probe, if_neg hc, List.nil_append, List.nil_append]

theorem step_probe {dev : Nat} {env : ProbeEnv} (hst : (boards channels).step m (.probe dev env) = some m') :
    (∀ b ∈ m.bound, b.dev ≠ dev) ∧ ∃ r, r = litepciePciProbe env channels (.start m.minorIdx) ∧
      m' = { m with
        minorIdx := r.2.minorIdx
        probes := m.probes + 1
        bound := if r.1 = 0 then m.bound ++ [⟨dev, m.probes, env, r.2⟩] else m.bound
        log := m.log ++ ofBoard m.probes r.2.log } := by
  simp only [boards, BoardEvent.step] at hst
  split at hst
  · cases hst
  · rename_i hany
    refine ⟨fun b hb heq => hany ?_, _, rfl, (Option.some.inj hst).symm⟩
    exact List.any_eq_true.mpr ⟨b, hb, decide_eq_true heq⟩

theorem step_remove {dev : Nat} (hst : (boards channels).step m (.remove dev) = some m') :
    ∃ b, m.bound.find? (·.dev = dev) = some b ∧ m' = { m with
      bound := m.bound.filter (·.dev ≠ dev)
      log := m.log ++ ofBoard b.probe b.removal } := by
  obtain ⟨b, hb, hm'⟩ := Option.bind_eq_some_iff.mp hst
  exact ⟨b, hb, (Option.some.inj hm').symm⟩

theorem owner_ofBoard {k j : Nat} {log : List (Entry Resource)} {e : Entry Owned} (he : e ∈ ofBoard k log)
    (hj : e.res.owner = some j) : j = k := by
  obtain ⟨e, -, rfl⟩ := List.mem_map.mp he
  rw [Entry.res_map] at hj
  exact (Option.some.inj hj).symm

theorem Module.Inv.step (h : m.Inv) (hst : (boards channels).step m e = some m') : m'.Inv := by
  cases e with
  | probe dev env =>
    obtain ⟨hdev, r, -, rfl⟩ := step_probe hst
    have hunused : ∀ e ∈ m.log ++ ofBoard m.probes r.2.log, ∀ k, e.res.owner = some k →
        k < m.probes + 1 := by
      intro e he k hk
      rcases List.mem_append.mp he with he | he
      · exact Nat.lt_succ_of_lt (h.unused e he k hk)
      · rw [owner_ofBoard he hk]
        exact Nat.lt_succ_self _
    by_cases hret : r.1 = 0
    · refine ⟨fun b hb => ?_, ?_, ?_, hunused⟩
      · rw [if_pos hret] at hb
        rcases List.mem_append.mp hb with hb | hb
        · exact Nat.lt_succ_of_lt (h.probe_lt b hb)
        · rw [List.mem_singleton.mp hb]
          exact Nat.lt_succ_self _
      · simp only [if_pos hret, List.map_append, List.map_singleton]
        refine List.nodup_append.mpr ⟨h.probes, List.nodup_singleton _, fun k hk j hj => ?_⟩
        obtain ⟨b, hb, rfl⟩ := List.mem_map.mp hk
        rw [List.mem_singleton.mp hj]
        exact Nat.ne_of_lt (h.probe_lt b hb)
      · simp only [if_pos hret, List.map_append, List.map_singleton]
        refine List.nodup_append.mpr ⟨h.devs, List.nodup_singleton _, fun k hk j hj => ?_⟩
        obtain ⟨b, hb, rfl⟩ := List.mem_map.mp hk
        rw [List.mem_singleton.mp hj]
        exact hdev b hb
    · simp only [if_neg hret]
      exact ⟨fun b hb => Nat.lt_succ_of_lt (h.probe_lt b hb), h.probes, h.devs, hunused⟩
  | remove dev =>
    obtain ⟨b, hb, rfl⟩ := step_remove hst
    refine ⟨fun b hb => h.probe_lt b (List.mem_of_mem_filter hb),
      h.probes.sublist (List.filter_sublist.map _), h.devs.sublist (List.filter_sublist.map _), ?_⟩
    intro e he k hk
    rcases List.mem_append.mp he with he | he
    · exact h.unused e he k hk
    · rw [owner_ofBoard he hk]
      exact h.probe_lt b (List.mem_of_find?_eq_some hb)

theorem part_exit_remove (h : m.Inv) {dev : Nat} {b : Bound} (hb : m.bound.find? (·.dev = dev) = some b)
    (c : Option Nat) : part c (litepcieModuleExit { m with
      bound := m.bound.filter (·.dev ≠ dev)
      log := m.log ++ ofBoard b.probe b.removal }) = part c (litepcieModuleExit m) := by
  rw [part_exit, part_exit, ← flatMap_removed h.probes h.devs hb c]
  simp only [part_append, List.append_assoc]

/-- What is there before a probe is not its own. -/
theorem part_unused (h : m.Inv) : part (some m.probes) (litepcieModuleExit m) = [] := by
  have hbound : m.bound.flatMap (fun b => part (some m.probes) (ofBoard b.probe b.removal)) = [] := by
    refine List.flatMap_eq_nil_iff.mpr fun b hb => ?_
    rw [part_ofBoard, if_neg fun heq => Nat.ne_of_gt (h.probe_lt b hb) (Option.some.inj heq)]
  have hlog : part (some m.probes) m.log = [] :=
    List.filter_eq_nil_iff.mpr fun e he heq => Nat.lt_irrefl _ (h.unused e he _ (of_decide_eq_true heq))
  rw [part_exit, hbound, hlog]
  cases m.litepcieClass with
  | null => rfl
  | err e => rfl
  | ptr => rfl

theorem part_exit_probe (h : m.Inv) (dev : Nat) (env : ProbeEnv) (r : Int × ProbeState)
    (hr : r = litepciePciProbe env channels (.start m.minorIdx)) (c : Option Nat) :
    part c (litepcieModuleExit { m with
      minorIdx := r.2.minorIdx
      probes := m.probes + 1
      bound := if r.1 = 0 then m.bound ++ [⟨dev, m.probes, env, r.2⟩] else m.bound
      log := m.log ++ ofBoard m.probes r.2.log }) =
      if c = some m.probes then ofBoard m.probes (env.life channels m.minorIdx)
      else part c (litepcieModuleExit m) := by
  have hlife : env.life channels m.minorIdx = r.2.log ++ if r.1 = 0 then env.removal r.2 else [] := by
    rw [hr]
    rfl
  have hbound : (if r.1 = 0 then m.bound ++ [⟨dev, m.probes, env, r.2⟩] else m.bound).flatMap
      (fun b => part c (ofBoard b.probe b.removal)) =
        m.bound.flatMap (fun b => part c (ofBoard b.probe b.removal)) ++
          part c (ofBoard m.probes (if r.1 = 0 then env.removal r.2 else [])) := by
    by_cases hret : r.1 = 0
    · rw [if_pos hret, if_pos hret, List.flatMap_append, List.flatMap_singleton]
      rfl
    · rw [if_neg hret, if_neg hret]
      exact (List.append_nil _).symm
  have hold := part_unused h
  rw [part_exit] at hold ⊢
  dsimp only
  rw [hbound, part_append]
  by_cases hc : c = some m.probes
  · subst hc
    rw [if_pos rfl, hlife]
    obtain ⟨hold, hend⟩ := List.append_eq_nil_iff.mp hold
    obtain ⟨hlog, hrest⟩ := List.append_eq_nil_iff.mp hold
    rw [hlog, hrest, hend, part_ofBoard, part_ofBoard, if_pos rfl, if_pos rfl]
    simp [ofBoard]
  · rw [if_neg hc, part_exit, part_ofBoard, part_ofBoard, if_neg hc, if_neg hc]
    simp

/-- What the exit leaves, by what it would have left before the step. -/
theorem step_settled (h : m.Inv) (hdoc : e.Documented) (hst : (boards channels).step m e = some m') :
    Settled (litepcieModuleExit m') ↔ Settled (litepcieModuleExit m) ∧ e.Harmless channels := by
  rw [settled_iff_part, settled_iff_part]
  cases e with
  | remove dev =>
    obtain ⟨b, hb, rfl⟩ := step_remove hst
    refine (forall_congr' fun c => ?_).trans (and_iff_left trivial).symm
    rw [← part_exit_remove h hb c]
  | probe dev env =>
    obtain ⟨hdev, r, hr, rfl⟩ := step_probe hst
    have hpart := part_exit_probe h dev env r hr
    have hlife : Settled (ofBoard m.probes (env.life channels m.minorIdx)) ↔ env.Harmless channels :=
      (settled_map fun _ _ heq => (Owned.board.inj heq).2).trans (life_settled_iff hdoc)
    constructor
    · refine fun hall => ⟨fun c => ?_, ?_⟩
      · by_cases hc : c = some m.probes
        · subst hc
          exact (part_unused h).symm ▸ settled_nil
        · have hone := hall c
          rwa [hpart, if_neg hc] at hone
      · have hone := hall (some m.probes)
        rwa [hpart, if_pos rfl, hlife] at hone
    · rintro ⟨hall, hharmless⟩ c
      rw [hpart]
      by_cases hc : c = some m.probes
      · rw [if_pos hc]
        exact hlife.mpr hharmless
      · rw [if_neg hc]
        exact hall c

theorem run_settled (h : m.Inv) (hdoc : ∀ e ∈ es, e.Documented) (hrun : (boards channels).run es m = some m') :
    Settled (litepcieModuleExit m') ↔
      Settled (litepcieModuleExit m) ∧ ∀ e ∈ es, e.Harmless channels := by
  induction es generalizing m with
  | nil =>
    obtain rfl := Option.some.inj hrun
    simp
  | cons e es ih =>
    obtain ⟨m₁, hst, hrun⟩ := Machine.run_cons.mp hrun
    rw [ih (h.step hst) (fun e' he' => hdoc e' (List.mem_cons_of_mem e he')) hrun,
      step_settled h (hdoc e (List.mem_cons_self ..)) hst, List.forall_mem_cons, and_assoc]

end

/-! ## Whole lives -/

/-- At the init no board is there. -/
theorem init_empty (env : InitEnv) : (litepcieModuleInit env).2.bound = [] ∧
    (litepcieModuleInit env).2.minorIdx = 0 ∧ ∀ e ∈ (litepcieModuleInit env).2.log, e.res.owner = none := by
  have hcreated : ∀ e ∈ classCreated env.classCreate, e.res.owner = none := by
    cases env.classCreate <;> simp [classCreated, Entry.res, Owned.owner]
  have hdestroy : ∀ e ∈ classDestroy env.classCreate, e.res.owner = none := by
    cases env.classCreate <;> simp [classDestroy, Entry.res, Owned.owner]
  have happend {l l' : List (Entry Owned)} (h : ∀ e ∈ l, e.res.owner = none)
      (h' : ∀ e ∈ l', e.res.owner = none) : ∀ e ∈ l ++ l', e.res.owner = none :=
    List.forall_mem_append.mpr ⟨h, h'⟩
  have hregion : ∀ e ∈ [Entry.acquire Owned.chrdevRegion], e.res.owner = none := by
    simp [Entry.res, Owned.owner]
  unfold litepcieModuleInit
  dsimp only
  split_ifs
  · exact ⟨rfl, rfl, hcreated⟩
  · exact ⟨rfl, rfl, happend hcreated hdestroy⟩
  · refine ⟨rfl, rfl, happend (happend hcreated hregion) (List.forall_mem_cons.mpr ⟨rfl, hdestroy⟩)⟩
  · exact ⟨rfl, rfl, happend (happend hcreated hregion) (by simp [Entry.res, Owned.owner])⟩

theorem inv_init (env : InitEnv) : (litepcieModuleInit env).2.Inv := by
  obtain ⟨hbound, -, hlog⟩ := init_empty env
  refine ⟨fun b hb => ?_, ?_, ?_, fun e he k hk => ?_⟩
  · rw [hbound] at hb
    cases hb
  · rw [hbound]
    exact .nil
  · rw [hbound]
    exact .nil
  · cases (hlog e he).symm.trans hk

/-- An exit right after the init. -/
theorem init_settled {env : InitEnv} (h : (litepcieModuleInit env).1 = 0) :
    Settled (litepcieModuleExit (litepcieModuleInit env).2) := by
  unfold litepcieModuleInit at h ⊢
  dsimp only at h ⊢
  split_ifs at h ⊢ with hnull hregion hdriver
  · exact absurd h (show -eExist ≠ 0 by decide)
  · exact absurd h (Int.ne_of_lt hregion)
  · exact absurd h (Int.ne_of_lt hdriver)
  · cases hcls : env.classCreate with
    | null => exact absurd hcls hnull
    | err e =>
      have hall : Settled ([Owned.chrdevRegion, .pciDriver].map Entry.acquire ++
          [Owned.pciDriver, .chrdevRegion].map .release) := settled_of_perm (by decide) (.swap ..)
      exact hall
    | ptr =>
      have hall : Settled ([Owned.cls, .chrdevRegion, .pciDriver].map Entry.acquire ++
          [Owned.pciDriver, .chrdevRegion, .cls].map .release) :=
        settled_of_perm (by decide) (List.reverse_perm _).symm
      exact hall

/-- A whole life of the module, with any devices that come and go, and any answers of the kernel: what was
created is removed in the end, each once, if and only if every probe failed before its first handler, or
succeeded with a node for each channel. -/
theorem module_settled_iff {channels : Nat} {env : InitEnv} {es : List BoardEvent} {m : Module}
    (hinit : (litepcieModuleInit env).1 = 0)
    (hrun : (boards channels).run es (litepcieModuleInit env).2 = some m)
    (hdoc : ∀ e ∈ es, e.Documented) :
    Settled (litepcieModuleExit m) ↔ ∀ e ∈ es, e.Harmless channels := by
  rw [run_settled (inv_init env) hdoc hrun]
  exact and_iff_right (init_settled hinit)

/-- Two boards, of which one is removed and comes back. -/
def twoBoards : List BoardEvent :=
  [.probe 0 (busyIrq 5), .probe 1 (busyIrq 5), .remove 0, .probe 0 (busyIrq 5)]

theorem documented_busyIrq (i : Nat) : (busyIrq i).Documented :=
  ⟨fun _ => ⟨Int.le.intro 1 rfl, Int.le.intro 30 rfl⟩, fun i j _ _ heq => by
    have hsum : 40 + i = 40 + j := heq
    omega⟩

theorem module_settled_iff_two : ∃ m, (boards 1).run twoBoards (litepcieModuleInit ⟨.ptr, 0, 0⟩).2 = some m ∧
    (Settled (litepcieModuleExit m) ↔ ∀ e ∈ twoBoards, e.Harmless 1) := by
  refine ⟨_, rfl, @module_settled_iff 1 ⟨.ptr, 0, 0⟩ twoBoards _ rfl rfl fun e he => ?_⟩
  simp only [twoBoards, List.mem_cons, List.not_mem_nil, or_false] at he
  rcases he with rfl | rfl | rfl | rfl
  · exact documented_busyIrq 5
  · exact documented_busyIrq 5
  · trivial
  · exact documented_busyIrq 5

end Kernel
end Xtrx
