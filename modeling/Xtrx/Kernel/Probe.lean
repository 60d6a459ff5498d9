import Xtrx.Kernel.Driver
import Xtrx.Lib.Ledger

/-!
# The probe of a board (`litepcie_pci_probe` in `litepcie-kernel-module/main.c`)

What the kernel answers to the calls of the probe is a `ProbeEnv`. Memory from `devm_kzalloc` and what
`pcim_…` sets up is the kernel's to release. The accesses to the registers, messages and waiting times
are left out.

- **`litepciePciProbe`**: the probe, with `litepcieAllocChdev`. `ProbeState.log` is the record of what
  it creates and removes.
- **`Clean`**: what was created is removed, once, the handlers before the vectors.
- **`litepciePciProbe_clean_iff`**: a probe that fails is clean if and only if it fails before the
  first handler is registered: no handler is ever removed with the `dev_id` it was registered with.
-/

namespace Xtrx
namespace Kernel

open Conc Ledger

def eIo : Int := 5
def eInval : Int := 22

def ioresourceMem : BitVec 64 := 0x200

/-! ## State -/

/-- The `dev_id` of a handler: the `struct pci_dev` or the `struct litepcie_device`. -/
inductive DevId where
  | pciDev
  | litepcieDev
  deriving DecidableEq

/-- What the probe creates. -/
inductive Resource where
  | vectors
  | handler (irq : Nat) (devId : DevId)
  | cdev (i : Nat)
  | node (minor : Int)
  | uart
  deriving DecidableEq

/-- A pointer that a function of the kernel returns. -/
inductive KernelPtr where
  | null
  | err (e : Fin 4095)
  | ptr
  deriving DecidableEq

/-- `PTR_ERR`. -/
def ptrErr (e : Fin 4095) : Int := -(e.val + 1)

/-- What the kernel answers: numbers below 0 are errors, `false` is `NULL`. The functions are by vector
and by channel. -/
structure ProbeEnv where
  litepcieDev : Bool
  enableDevice : Int
  revId : UInt8
  bar0Flags : BitVec 64
  iomapRegions : Int
  bar0Addr : Bool
  setDmaMask : Int
  allocIrqVectors : Int
  irqVector : Nat → Nat
  requestIrq : Nat → Int
  cdevAdd : Nat → Int
  deviceCreate : Nat → KernelPtr
  ttyRes : Bool
  uart : KernelPtr

/-- The fields of `struct litepcie_chan` that the probe sets, but `litepcie_dev` and the queues. -/
structure LitepcieChan where
  index : Nat
  blockSize : Nat
  minor : Int
  dma : LitepcieDmaChan

/-- `litepcie_minor_idx`, the fields of `struct litepcie_device` that the probe sets, the record. The
counter is an `int` in the source: `minorIdx` is its value as long as it has not overflowed. -/
structure ProbeState where
  minorIdx : Int
  irqs : Nat
  channels : Nat
  minorBase : Int
  chan : List LitepcieChan
  log : List (Entry Resource)

/-- The state at the call. -/
def ProbeState.start (minorIdx : Int) : ProbeState := ⟨minorIdx, 0, 0, 0, [], []⟩

abbrev Probe := StateM ProbeState

/-! ## The functions -/

def record (e : Entry Resource) : Probe Unit := modify fun s => { s with log := s.log ++ [e] }

/-- A loop over `call i` up to the first error: the `i` at which it stops, and the error. -/
def untilError (call : Nat → Probe Int) : List Nat → Probe (Option (Nat × Int))
  | [] => return none
  | i :: is => do
    let ret ← call i
    if ret < 0 then
      return some (i, ret)
    untilError call is

/-- `cdev_add` of the channel `i`. -/
def cdevAdd (env : ProbeEnv) (i : Nat) : Probe Int := do
  if 0 ≤ env.cdevAdd i then
    record (.acquire (.cdev i))
  return env.cdevAdd i

/-- `device_create` for the channel `i`; only `NULL` is taken for an error. -/
def deviceCreate (env : ProbeEnv) (i : Nat) : Probe Int := do
  let index := (← get).minorIdx + i
  match env.deviceCreate i with
  | .null => return -eInval
  | .err _ => return 0
  | .ptr =>
    record (.acquire (.node index))
    return 0

/-- From `fail_alloc` on. -/
def failAlloc (channels : Nat) : Probe Unit :=
  (List.range channels).forM fun i => record (.release (.cdev i))

/-- From `fail_create` on; `device_create` failed for the channel `i`. -/
def failCreate (channels i : Nat) : Probe Unit := do
  let index := (← get).minorIdx
  (List.range i).forM fun (j : Nat) => record (.release (.node (index + j)))
  failAlloc channels

/-- `litepcie_alloc_chdev`. -/
def litepcieAllocChdev (env : ProbeEnv) (channels : Nat) : Probe Int := do
  modify fun s => { s with minorBase := s.minorIdx }
  if let some (_, ret) ← untilError (cdevAdd env) (List.range channels) then
    failAlloc channels
    return ret
  if let some (i, ret) ← untilError (deviceCreate env) (List.range channels) then
    failCreate channels i
    return ret
  modify fun s => { s with minorIdx := s.minorIdx + channels }
  return 0

/-- `litepcie_free_chdev`. -/
def litepcieFreeChdev (channels : Nat) : Probe Unit :=
  (List.range channels).forM fun (i : Nat) => do
    record (.release (.node ((← get).minorBase + i)))
    record (.release (.cdev i))

/-- `request_irq` for the vector `i`. -/
def requestIrq (env : ProbeEnv) (i : Nat) : Probe Int := do
  if 0 ≤ env.requestIrq i then
    record (.acquire (.handler (env.irqVector i) .litepcieDev))
    modify fun s => { s with irqs := s.irqs + 1 }
  return env.requestIrq i

/-- The loop `while (--i >= 0)`. The `dev_id` is `dev`, and the handlers have `litepcie_dev`. -/
def freeIrqs (env : ProbeEnv) (i : Nat) : Probe Unit :=
  (List.range i).reverse.forM fun i => record (.release (.handler (env.irqVector i) .pciDev))

/-- From `fail2` on. -/
def fail2 (ret : Int) : Probe Int := do
  record (.release .vectors)
  return ret

/-- From `fail3` on. -/
def fail3 (channels : Nat) (ret : Int) : Probe Int := do
  litepcieFreeChdev channels
  fail2 ret

/-- The loop over the channels. -/
def initChannels (channels : Nat) : Probe Unit := modify fun s => { s with
  chan := (List.range channels).map fun (i : Nat) => ⟨i, dmaBufferSize, s.minorBase + i, .probed⟩ }

/-- From the character devices on. -/
def probeChannels (env : ProbeEnv) (dmaChannels : Nat) : Probe Int := do
  modify fun s => { s with channels := dmaChannels }
  let ret ← litepcieAllocChdev env dmaChannels
  if ret ≠ 0 then
    return ← fail2 ret
  initChannels dmaChannels
  if !env.ttyRes then
    return -eNoMem
  match env.uart with
  | .err e => fail3 dmaChannels (ptrErr e)
  | _ =>
    record (.acquire .uart)
    return 0

/-- From the vectors on. -/
def probeVectors (env : ProbeEnv) (dmaChannels : Nat) : Probe Int := do
  let irqs := env.allocIrqVectors
  if irqs < 0 then
    return irqs
  record (.acquire .vectors)
  if let some (i, ret) ← untilError (requestIrq env) (List.range irqs.toNat) then
    freeIrqs env i
    return ← fail2 ret
  probeChannels env dmaChannels

/-- Up to the vectors: the error at which the probe ends. -/
def probeDevice (env : ProbeEnv) : Option Int :=
  if !env.litepcieDev then some (-eNoMem)
  else if env.enableDevice ≠ 0 then some env.enableDevice
  -- check device version
  else if env.revId ≠ 0 then some (-eIo)
  -- check bar0 config
  else if env.bar0Flags &&& ioresourceMem = 0 then some (-eIo)
  else if env.iomapRegions < 0 then some (-eIo)
  else if !env.bar0Addr then some (-eIo)
  else if env.setDmaMask ≠ 0 then some env.setDmaMask
  else none

/-- `litepcie_pci_probe`. -/
def litepciePciProbe (env : ProbeEnv) (dmaChannels : Nat) : Probe Int :=
  match probeDevice env with
  | some ret => return ret
  | none => probeVectors env dmaChannels

/-! ## Clean failures -/

/-- What was created is removed, each once and only if it was created, and when the vectors are
released no handler is registered. -/
structure Clean (log : List (Entry Resource)) : Prop where
  settled : Settled log
  handlers : ∀ before after, log = before ++ .release .vectors :: after →
    ∀ irq devId, held (.handler irq devId) before = 0

/-- The probe gets as far as to register a first handler. -/
structure ProbeEnv.Registers (env : ProbeEnv) : Prop where
  device : probeDevice env = none
  vectors : 0 ≤ env.allocIrqVectors
  requestIrq : 0 ≤ env.requestIrq 0

/-- No step behind the allocation of the vectors fails. -/
structure ProbeEnv.Succeeds (env : ProbeEnv) (dmaChannels : Nat) : Prop where
  requestIrq : ∀ i : Nat, (i : Int) < env.allocIrqVectors → 0 ≤ env.requestIrq i
  cdevAdd : ∀ i, i < dmaChannels → 0 ≤ env.cdevAdd i
  deviceCreate : ∀ i, i < dmaChannels → env.deviceCreate i ≠ .null
  ttyRes : env.ttyRes = true
  uart : ∀ e, env.uart ≠ .err e

@[simp] theorem probe_bind {α β : Type} (m : Probe α) (f : α → Probe β) (s : ProbeState) :
    (m >>= f) s = f (m s).1 (m s).2 := rfl

@[simp] theorem probe_pure {α : Type} (a : α) (s : ProbeState) : (pure a : Probe α) s = (a, s) := rfl

theorem probe_modify (f : ProbeState → ProbeState) (s : ProbeState) :
    (modify f : Probe Unit) s = ((), f s) := rfl

/-! ## What is recorded -/

/-- The program adds entries with `P` to the record. -/
def Adds (P : Entry Resource → Prop) {α : Type} (m : Probe α) : Prop :=
  ∀ s, ∃ done, (m s).2.log = s.log ++ done ∧ ∀ e ∈ done, P e

section

variable {P : Entry Resource → Prop} {α β : Type}

theorem Adds.silent {m : Probe α} (h : ∀ s, (m s).2.log = s.log) : Adds P m := fun s =>
  ⟨[], by rw [h, List.append_nil], fun e he => by cases he⟩

theorem Adds.pure (a : α) : Adds P (pure a : Probe α) := .silent fun _ => rfl

theorem Adds.bind {m : Probe α} {f : α → Probe β} (hm : Adds P m) (hf : ∀ a, Adds P (f a)) :
    Adds P (m >>= f) := fun s => by
  obtain ⟨done, hlog, hdone⟩ := hm s
  obtain ⟨done', hlog', hdone'⟩ := hf (m s).1 (m s).2
  refine ⟨done ++ done', ?_, fun e he => ?_⟩
  · rw [probe_bind, hlog', hlog, List.append_assoc]
  · rcases List.mem_append.mp he with he | he
    · exact hdone e he
    · exact hdone' e he

theorem Adds.record {e : Entry Resource} (h : P e) : Adds P (record e) := fun _ =>
  ⟨[e], rfl, fun _ he => List.mem_singleton.mp he ▸ h⟩

theorem Adds.forM {f : Nat → Probe Unit} (hf : ∀ i, Adds P (f i)) (is : List Nat) :
    Adds P (is.forM f) := by
  induction is with
  | nil => exact .pure _
  | cons i is ih => exact .bind (hf i) fun _ => ih

theorem Adds.untilError {call : Nat → Probe Int} (hcall : ∀ i, Adds P (call i)) (is : List Nat) :
    Adds P (untilError call is) := by
  induction is with
  | nil => exact .pure _
  | cons i is ih =>
    refine .bind (hcall i) fun ret => ?_
    by_cases hret : ret < 0
    · rw [if_pos hret]
      exact .pure _
    · rw [if_neg hret]
      exact ih

/-- What is in the record stays there. -/
theorem Adds.mem {m : Probe α} (h : Adds P m) {s : ProbeState} {e : Entry Resource} (he : e ∈ s.log) :
    e ∈ (m s).2.log := by
  obtain ⟨done, hlog, -⟩ := h s
  rw [hlog]
  exact List.mem_append_left _ he

theorem Adds.of_mem {m : Probe α} (h : Adds P m) {s : ProbeState} (hs : ∀ e ∈ s.log, P e)
    {e : Entry Resource} (he : e ∈ (m s).2.log) : P e := by
  obtain ⟨done, hlog, hdone⟩ := h s
  rw [hlog] at he
  rcases List.mem_append.mp he with he | he
  · exact hs e he
  · exact hdone e he

end

/-- The entry does not free a handler of the device. -/
def Entry.Keeps (e : Entry Resource) : Prop := ∀ irq, e ≠ .release (.handler irq .litepcieDev)

section

variable (env : ProbeEnv) (channels : Nat)

theorem keeps_cdevAdd (i : Nat) : Adds Entry.Keeps (cdevAdd env i) := by
  unfold cdevAdd
  split
  · exact .bind (.record nofun) fun _ => .pure _
  · exact .pure _

theorem keeps_deviceCreate (i : Nat) : Adds Entry.Keeps (deviceCreate env i) := by
  refine .bind (.silent fun _ => rfl) fun s => ?_
  cases env.deviceCreate i with
  | null => exact .pure _
  | err _ => exact .pure _
  | ptr => exact .bind (.record nofun) fun _ => .pure _

theorem keeps_failAlloc : Adds Entry.Keeps (failAlloc channels) := .forM (fun _ => .record nofun) _

theorem keeps_litepcieAllocChdev : Adds Entry.Keeps (litepcieAllocChdev env channels) := by
  refine .bind (.silent fun _ => rfl) fun _ => .bind (.untilError (keeps_cdevAdd env) _) fun r => ?_
  cases r with
  | some r => exact .bind (keeps_failAlloc channels) fun _ => .pure _
  | none =>
    refine .bind (.untilError (keeps_deviceCreate env) _) fun r => ?_
    cases r with
    | some r =>
      exact .bind (.bind (.silent fun _ => rfl) fun _ => .bind (.forM (fun _ => .record nofun) _)
        fun _ => keeps_failAlloc channels) fun _ => .pure _
    | none => exact .bind (.silent fun _ => rfl) fun _ => .pure _

theorem keeps_litepcieFreeChdev : Adds Entry.Keeps (litepcieFreeChdev channels) :=
  .forM (fun _ => .bind (.silent fun _ => rfl) fun _ => .bind (.record nofun) fun _ =>
    .record nofun) _

theorem keeps_fail2 (ret : Int) : Adds Entry.Keeps (fail2 ret) := .bind (.record nofun) fun _ => .pure _

theorem keeps_probeChannels : Adds Entry.Keeps (probeChannels env channels) := by
  refine .bind (.silent fun _ => rfl) fun _ => .bind (keeps_litepcieAllocChdev env channels) fun ret => ?_
  split
  · exact .bind (keeps_fail2 ret) fun _ => .pure _
  · refine .bind (.silent fun _ => rfl) fun _ => ?_
    split
    · exact .pure _
    · split
      · exact .bind (keeps_litepcieFreeChdev channels) fun _ => keeps_fail2 _
      · exact .bind (.record nofun) fun _ => .pure _

theorem keeps_requestIrq (i : Nat) : Adds Entry.Keeps (requestIrq env i) := by
  unfold requestIrq
  split
  · exact .bind (.record nofun) fun _ => .bind (.silent fun _ => rfl) fun _ => .pure _
  · exact .pure _

/-- What is behind the loop over the vectors. -/
theorem keeps_requested (r : Option (Nat × Int)) : Adds Entry.Keeps
    (match r with
    | some (i, ret) => do
      freeIrqs env i
      fail2 ret
    | _ => probeChannels env channels) := by
  cases r with
  | some r =>
    have hfree : Adds Entry.Keeps (freeIrqs env r.1) := .forM (fun _ => .record nofun) _
    exact .bind hfree fun _ => keeps_fail2 r.2
  | none => exact keeps_probeChannels env channels

theorem keeps_probeVectors : Adds Entry.Keeps (probeVectors env channels) := by
  unfold probeVectors
  dsimp only
  split
  · exact .pure _
  · exact .bind (.record nofun) fun _ => .bind (.untilError (keeps_requestIrq env) _)
      (keeps_requested env channels)

end

/-! ## Results -/

section

variable {call : Nat → Probe Int} {ret : Nat → Int}

theorem untilError_cons (call : Nat → Probe Int) (i : Nat) (is : List Nat) (s : ProbeState) :
    untilError call (i :: is) s =
      if (call i s).1 < 0 then (some (i, (call i s).1), (call i s).2)
      else untilError call is (call i s).2 := by
  rw [untilError, probe_bind]
  split
  · rfl
  · rfl

/-- The loop comes to its end if no call fails. -/
theorem untilError_eq_none (hcall : ∀ i s, (call i s).1 = ret i) (is : List Nat) (s : ProbeState) :
    (untilError call is s).1 = none ↔ ∀ i ∈ is, 0 ≤ ret i := by
  induction is generalizing s with
  | nil => simp [untilError]
  | cons i is ih =>
    rw [untilError_cons, hcall, List.forall_mem_cons]
    by_cases hret : ret i < 0
    · simp [if_pos hret, Int.not_le.mpr hret]
    · rw [if_neg hret, ih]
      exact ⟨fun h => ⟨Int.not_lt.mp hret, h⟩, fun h => h.2⟩

theorem untilError_neg {is : List Nat} {s : ProbeState} {r : Nat × Int}
    (h : (untilError call is s).1 = some r) : r.2 < 0 := by
  induction is generalizing s with
  | nil => cases h
  | cons i is ih =>
    rw [untilError_cons] at h
    by_cases hret : (call i s).1 < 0
    · rw [if_pos hret] at h
      cases h
      exact hret
    · rw [if_neg hret] at h
      exact ih h

/-- A loop that goes to a label with its error. -/
theorem untilError_ret (hcall : ∀ i s, (call i s).1 = ret i) {fail : Nat → Int → Probe Int}
    (hfail : ∀ i r s, (fail i r s).1 = r) (rest : Probe Int) (is : List Nat) (s : ProbeState) :
    ((untilError call is >>= fun x =>
      match x with
      | some (i, r) => fail i r
      | _ => rest) s).1 = 0 ↔
      (∀ i ∈ is, 0 ≤ ret i) ∧ (rest (untilError call is s).2).1 = 0 := by
  rw [probe_bind, ← untilError_eq_none hcall is s]
  cases hr : (untilError call is s).1 with
  | none => simp
  | some r =>
    have hneg := untilError_neg hr
    simp [hfail, Int.ne_of_lt hneg]

end

section

variable (env : ProbeEnv) (channels : Nat) (s : ProbeState)

theorem cdevAdd_ret (i : Nat) (s : ProbeState) : (cdevAdd env i s).1 = env.cdevAdd i := by
  unfold cdevAdd
  split
  · rfl
  · rfl

theorem deviceCreate_ret (i : Nat) (s : ProbeState) :
    (deviceCreate env i s).1 = if env.deviceCreate i = .null then -eInval else 0 := by
  rw [deviceCreate, probe_bind]
  cases env.deviceCreate i with
  | null => rfl
  | err e => rfl
  | ptr => rfl

theorem requestIrq_ret (i : Nat) (s : ProbeState) : (requestIrq env i s).1 = env.requestIrq i := by
  unfold requestIrq
  split
  · rfl
  · rfl

theorem fail3_ret (ret : Int) : (fail3 channels ret s).1 = ret := rfl

theorem litepcieAllocChdev_ret : (litepcieAllocChdev env channels s).1 = 0 ↔
    (∀ i, i < channels → 0 ≤ env.cdevAdd i) ∧ ∀ i, i < channels → env.deviceCreate i ≠ .null := by
  have hcreate : ∀ i, 0 ≤ (if env.deviceCreate i = .null then -eInval else 0) ↔
      env.deviceCreate i ≠ .null := by
    intro i
    by_cases h : env.deviceCreate i = .null
    · simp [h, eInval]
    · simp [h]
  rw [litepcieAllocChdev, probe_bind]
  refine (untilError_ret (cdevAdd_ret env) (fun _ _ _ => rfl) _ _ _).trans ?_
  refine (and_congr_right fun _ => untilError_ret (deviceCreate_ret env) (fun _ _ _ => rfl) _ _ _).trans ?_
  simp only [List.mem_range, hcreate]
  exact and_congr_right fun _ => and_iff_left rfl

theorem probeChannels_ret : (probeChannels env channels s).1 = 0 ↔
    ((∀ i, i < channels → 0 ≤ env.cdevAdd i) ∧ ∀ i, i < channels → env.deviceCreate i ≠ .null) ∧
      env.ttyRes = true ∧ ∀ e, env.uart ≠ .err e := by
  rw [← litepcieAllocChdev_ret env channels { s with channels }, probeChannels, probe_bind, probe_bind,
    probe_modify]
  by_cases hret : (litepcieAllocChdev env channels { s with channels }).1 = 0
  · rw [if_neg (not_not_intro hret), probe_bind, and_iff_right hret]
    cases htty : env.ttyRes with
    | false => simp [eNoMem]
    | true =>
      cases huart : env.uart with
      | null => simp
      | ptr => simp
      | err e =>
        have hneg : ptrErr e ≠ 0 := by
          unfold ptrErr
          omega
        simp [fail3_ret, hneg]
  · rw [if_pos hret]
    exact ⟨fun h => absurd h hret, fun h => absurd h.1 hret⟩

theorem probeVectors_ret (hvec : 0 ≤ env.allocIrqVectors) :
    (probeVectors env channels s).1 = 0 ↔ env.Succeeds channels := by
  have hno : ¬ env.allocIrqVectors < 0 := Int.not_lt.mpr hvec
  unfold probeVectors
  rw [if_neg hno, probe_bind]
  refine (untilError_ret (requestIrq_ret env) (fun _ _ _ => rfl) _ _ _).trans ?_
  rw [probeChannels_ret]
  have hrange : (∀ i ∈ List.range env.allocIrqVectors.toNat, 0 ≤ env.requestIrq i) ↔
      ∀ i : Nat, (i : Int) < env.allocIrqVectors → 0 ≤ env.requestIrq i := by
    simp only [List.mem_range, Int.lt_toNat]
  rw [hrange]
  exact ⟨fun ⟨hirq, ⟨hcdev, hnode⟩, htty, huart⟩ => ⟨hirq, hcdev, hnode, htty, huart⟩,
    fun h => ⟨h.requestIrq, ⟨h.cdevAdd, h.deviceCreate⟩, h.ttyRes, h.uart⟩⟩

/-- The first handler that is registered stays in the record. -/
theorem handler_mem (hvec : 1 ≤ env.allocIrqVectors) (hirq : 0 ≤ env.requestIrq 0) :
    .acquire (.handler (env.irqVector 0) .litepcieDev) ∈ (probeVectors env channels s).2.log := by
  have hno : ¬ env.allocIrqVectors < 0 := by omega
  obtain ⟨n, hn⟩ : ∃ n, env.allocIrqVectors.toNat = n + 1 := ⟨env.allocIrqVectors.toNat - 1, by omega⟩
  have hfirst : ∀ s, .acquire (.handler (env.irqVector 0) .litepcieDev) ∈ (requestIrq env 0 s).2.log := by
    intro s
    rw [requestIrq, if_pos hirq]
    exact List.mem_append_right _ (List.mem_singleton_self _)
  unfold probeVectors
  rw [if_neg hno, probe_bind, hn, List.range_succ_eq_map, probe_bind, untilError_cons, requestIrq_ret,
    if_neg (Int.not_lt.mpr hirq)]
  exact (keeps_requested env channels _).mem (Adds.mem (.untilError (keeps_requestIrq env) _) (hfirst _))

/-- If the first handler cannot be registered only the vectors are allocated, and released. -/
theorem probeVectors_first (hvec : 1 ≤ env.allocIrqVectors) (hirq : env.requestIrq 0 < 0) :
    (probeVectors env channels s).2.log = s.log ++ [.acquire .vectors, .release .vectors] := by
  have hno : ¬ env.allocIrqVectors < 0 := by omega
  obtain ⟨n, hn⟩ : ∃ n, env.allocIrqVectors.toNat = n + 1 := ⟨env.allocIrqVectors.toNat - 1, by omega⟩
  have hfirst : ∀ s, (requestIrq env 0 s).2 = s := by
    intro s
    rw [requestIrq, if_neg (Int.not_le.mpr hirq)]
    rfl
  unfold probeVectors
  rw [if_neg hno, probe_bind, hn, List.range_succ_eq_map, probe_bind, untilError_cons, requestIrq_ret,
    if_pos hirq, hfirst]
  exact List.append_assoc s.log [.acquire .vectors] [.release .vectors]

end

/-! ## Failures -/

theorem clean_nil : Clean [] where
  settled := settled_nil
  handlers := fun before after h => absurd (congrArg List.length h) (by simp)

theorem clean_vectors : Clean [.acquire .vectors, .release .vectors] where
  settled := settled_nil.wrap nofun nofun
  handlers := by
    intro before after h irq devId
    refine held_eq_zero (fun hm => ?_) fun hm => ?_
    · have hmem : Entry.acquire (.handler irq devId) ∈ before ++ .release .vectors :: after :=
        List.mem_append_left _ hm
      rw [← h] at hmem
      simp at hmem
    · have hmem : Entry.release (.handler irq devId) ∈ before ++ .release .vectors :: after :=
        List.mem_append_left _ hm
      rw [← h] at hmem
      simp at hmem

/-- A probe with any answers of the kernel: if it fails it has removed what it created, if and only if
it registered no handler, or it does not fail behind it. -/
theorem litepciePciProbe_clean_iff (env : ProbeEnv) (dmaChannels : Nat) (minorIdx : Int)
    (hvec : 0 ≤ env.allocIrqVectors → 1 ≤ env.allocIrqVectors ∧ env.allocIrqVectors ≤ 32) :
    ((litepciePciProbe env dmaChannels (.start minorIdx)).1 ≠ 0 →
        Clean (litepciePciProbe env dmaChannels (.start minorIdx)).2.log) ↔
      (env.Registers → env.Succeeds dmaChannels) := by
  unfold litepciePciProbe
  cases hdev : probeDevice env with
  | some ret =>
    refine ⟨fun _ h => ?_, fun _ _ => clean_nil⟩
    cases hdev.symm.trans h.device
  | none =>
    by_cases hneg : env.allocIrqVectors < 0
    · have hlog : (probeVectors env dmaChannels (.start minorIdx)).2.log = [] := by
        unfold probeVectors
        rw [if_pos hneg]
        rfl
      rw [hlog]
      exact ⟨fun _ h => absurd h.vectors (Int.not_le.mpr hneg), fun _ _ => clean_nil⟩
    · have hpos := Int.not_lt.mp hneg
      have hone := (hvec hpos).1
      rw [Ne, probeVectors_ret env dmaChannels _ hpos]
      by_cases hirq : env.requestIrq 0 < 0
      · rw [probeVectors_first env dmaChannels _ hone hirq]
        exact ⟨fun _ h => absurd h.requestIrq (Int.not_le.mpr hirq), fun _ _ => clean_vectors⟩
      · have hirq := Int.not_lt.mp hirq
        refine ⟨fun h _ => ?_, fun h hfail => absurd (h ⟨hdev, hpos, hirq⟩) hfail⟩
        by_contra hfail
        -- the handler is in the record, and what frees it is not
        refine not_settled_of_kept (handler_mem env dmaChannels (.start minorIdx) hone hirq) (fun hm => ?_)
          (h hfail).settled
        exact (keeps_probeVectors env dmaChannels).of_mem (s := .start minorIdx) nofun hm _ rfl

/-- Two vectors; the handler of the vector `i` is refused with `EBUSY`, nothing else fails. -/
def busyIrq (i : Nat) : ProbeEnv where
  litepcieDev := true
  enableDevice := 0
  revId := 0
  bar0Flags := ioresourceMem
  iomapRegions := 0
  bar0Addr := true
  setDmaMask := 0
  allocIrqVectors := 2
  irqVector := fun i => 40 + i
  requestIrq := fun j => if j = i then -16 else 0
  cdevAdd := fun _ => 0
  deviceCreate := fun _ => .ptr
  ttyRes := true
  uart := .ptr

/-- The first handler is refused. -/
theorem litepciePciProbe_clean_iff_first :
    (litepciePciProbe (busyIrq 0) 1 (.start 0)).1 = -16 ∧
      Clean (litepciePciProbe (busyIrq 0) 1 (.start 0)).2.log :=
  ⟨rfl, (litepciePciProbe_clean_iff (busyIrq 0) 1 0 (fun _ => by decide)).mpr
    (fun h => absurd h.requestIrq (by decide)) (by decide)⟩

/-- The second handler is refused: the first one is freed with the other `dev_id`, and stays. -/
theorem litepciePciProbe_keeps :
    (litepciePciProbe (busyIrq 1) 1 (.start 0)).1 = -16 ∧
      (litepciePciProbe (busyIrq 1) 1 (.start 0)).2.log =
        [.acquire .vectors, .acquire (.handler 40 .litepcieDev), .release (.handler 40 .pciDev),
          .release .vectors] ∧
      ¬ Clean (litepciePciProbe (busyIrq 1) 1 (.start 0)).2.log := by
  have hlog : (litepciePciProbe (busyIrq 1) 1 (.start 0)).2.log =
      [.acquire .vectors, .acquire (.handler 40 .litepcieDev), .release (.handler 40 .pciDev),
        .release .vectors] := rfl
  refine ⟨rfl, hlog, fun h => ?_⟩
  rw [hlog] at h
  exact not_settled_of_kept (r := .handler 40 .litepcieDev) (by decide) (by decide) h.settled

end Kernel
end Xtrx
