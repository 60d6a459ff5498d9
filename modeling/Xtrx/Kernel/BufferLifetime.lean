import Mathlib.Data.List.ProdSigma
import Xtrx.Kernel.System

/-!
# The lifetime of the DMA buffers

`LITEPCIE_IOCTL_DMA_INIT` allocates the buffers of all channels and overwrites the addresses;
`litepcie_release` frees all of them at every `close`, and leaves the addresses and the engines of
other handles as they are.

- **Safety** (`SafeUse`): what `litepcie_dma_deinit_cpu` frees and what `read` and `write` copy is
  live memory, and the buffers of an enabled engine are live.
- **History** (`Buf`): for each buffer, if it was never allocated, is allocated since the last
  `close`, or is left over from before it. `Bufs.step` reads this off the events.
- **Condition** (`UsesHeld`): engines run, and blocks are copied, only with buffers allocated since
  the last `close`; no `close` with buffers left over or with a running engine of another handle.
- The two are equivalent for whole runs: `buffers_safe_iff`. The invariant `Fits` says that the
  history describes the addresses and the heap.
-/

namespace Xtrx
namespace Kernel

open Conc Driver

variable {n : Nat}

/-- Every free and copy was of live memory, and the buffers of enabled engines are live. -/
structure SafeUse (k : Driver n) : Prop where
  log : ∀ u ∈ k.log, u.ok = true
  enabled : ∀ i d, (k.dev.dir i d).enable ≠ 0 → k.buffersLive i d = true

/-! ## The history of the buffers -/

/-- A buffer: its address is `NULL`; it was allocated after the last `close`; it was allocated
before a `close`, and not since. -/
inductive Buf where
  | null
  | held
  | freed
  deriving DecidableEq

/-- An allocation gave a buffer or `NULL`. -/
def Buf.ofOutcome : Option (BitVec 64) → Buf
  | none => .null
  | some _ => .held

abbrev Bufs (n : Nat) := Fin n → Dir → Fin dmaBufferCount → Buf

namespace Bufs

def set (b : Bufs n) (i : Fin n) (d : Dir) (j : Fin dmaBufferCount) (x : Buf) : Bufs n :=
  fun i' d' j' => if i' = i ∧ d' = d ∧ j' = j then x else b i' d' j'

/-- The buffers after the allocations for `bs`, which stop at the first failure. -/
def init (out : AllocOutcome n) : List (Fin n × Fin dmaBufferCount) → Bufs n → Bufs n
  | [], b => b
  | (i, j) :: bs, b =>
    let b := b.set i .reader j (.ofOutcome (out i j .reader))
    let b := b.set i .writer j (.ofOutcome (out i j .writer))
    if (out i j .writer).isNone || (out i j .reader).isNone then b else init out bs b

/-- The buffers after a `close`. -/
def close (b : Bufs n) : Bufs n := fun i d j => if b i d j = .held then .freed else b i d j

/-- The buffers after an event. -/
def step (b : Bufs n) : SysEv n → Bufs n
  | .ioctl _ (.dmaInit out) f => if f = .fromUser then b else b.init out (buffers n)
  | .close _ => b.close
  | _ => b

/-- All buffers of the direction are allocated since the last `close`. -/
def Held (b : Bufs n) (i : Fin n) (d : Dir) : Prop := ∀ j, b i d j = .held

end Bufs

/-- The runs of the board, with the history of the buffers. -/
def bufMachine (n : Nat) : Machine (Sys n × Bufs n) (SysEv n) :=
  (Sys.machine n).history Bufs.step

/-- The condition on an ioctl of a handle with the private data `p`. -/
def IoctlUsesHeld (k : Driver n) (b : Bufs n) (p : ChanPriv n) : Ioctl n → Prop
  | .dmaInit out => ∀ i d, (k.dev.dir i d).enable ≠ 0 → (b.init out (buffers n)).Held i d
  | .dmaWriter enable => enable ≠ 0 → b.Held p.chan .writer
  | .dmaReader enable => enable ≠ 0 → b.Held p.chan .reader
  | _ => True

/-- The condition on an access to channel `i`. -/
def CallUsesHeld (b : Bufs n) (i : Fin n) : ChanReq → Prop
  | .copyToUser _ _ => b.Held i .writer
  | .copyFromUser _ _ => b.Held i .reader
  | _ => True

/-- The condition on an event (module doc): an engine is enabled, and a block copied, with held
buffers; `DMA_INIT` fails for no buffer of an enabled engine; a handle is closed when no buffer
is left over and it owns every enabled engine. -/
def UsesHeld : Sys n × Bufs n → SysEv n → Prop
  | (s, b), .ioctl h c f => f ≠ .fromUser → ∀ p, s.drv.files h = some p → IoctlUsesHeld s.drv b p c
  | (s, b), .access t _ => ∀ h i q g, s.calls[t]? = some ⟨h, i, .call q g⟩ → CallUsesHeld b i q
  | (s, b), .close h => (∀ i d j, b i d j ≠ .freed) ∧ ∀ p, s.drv.files h = some p →
      ∀ i d, (s.drv.dev.dir i d).enable ≠ 0 → p.owns d = true ∧ i = p.chan
  | _, _ => True

/-! ## The history and the heap -/

/-- The history `b` describes the addresses and the heap; different buffers have different
addresses. -/
structure Fits (k : Driver n) (b : Bufs n) : Prop where
  null : ∀ i d j, b i d j = .null → (k.dev.dir i d).addr j = none
  held : ∀ i d j, b i d j = .held → ∃ a, (k.dev.dir i d).addr j = some a ∧ a ∈ k.heap.live
  freed : ∀ i d j, b i d j = .freed → ∃ a, (k.dev.dir i d).addr j = some a ∧ a ∉ k.heap.live
  fresh : ∀ i d j a, (k.dev.dir i d).addr j = some a → a < k.heap.next
  inj : ∀ i d j i' d' j' a, (k.dev.dir i d).addr j = some a → (k.dev.dir i' d').addr j' = some a →
    i = i' ∧ d = d' ∧ j = j'

namespace Fits

variable {k k' : Driver n} {b : Bufs n}

theorem probed (bar0 : Nat → BitVec 32) :
    Fits (Driver.probed bar0 : Driver n) fun _ _ _ => .null := by
  have hnone : ∀ i d j, ((Driver.probed bar0 : Driver n).dev.dir i d).addr j = none := by
    intro i d j
    cases d <;> rfl
  constructor
  · exact fun i d j _ => hnone i d j
  · intro i d j h
    cases h
  · intro i d j h
    cases h
  · intro i d j a h
    rw [hnone] at h
    cases h
  · intro i d j i' d' j' a h
    rw [hnone] at h
    cases h

theorem live_iff (h : Fits k b) (i : Fin n) (d : Dir) (j : Fin dmaBufferCount) :
    k.heap.isLive ((k.dev.dir i d).addr j) = true ↔ b i d j = .held := by
  cases hb : b i d j with
  | null => simp [h.null i d j hb]
  | held =>
    obtain ⟨a, ha, hl⟩ := h.held i d j hb
    simp [ha, hl]
  | freed =>
    obtain ⟨a, ha, hl⟩ := h.freed i d j hb
    simp [ha, hl]

theorem buffersLive_iff (h : Fits k b) (i : Fin n) (d : Dir) :
    k.buffersLive i d = true ↔ b.Held i d := by
  unfold Driver.buffersLive Bufs.Held
  rw [decide_eq_true_iff]
  exact forall_congr' fun j => h.live_iff i d j

theorem same (h : Fits k b) (hheap : k'.heap = k.heap)
    (haddr : ∀ i d, (k'.dev.dir i d).addr = (k.dev.dir i d).addr) : Fits k' b := by
  constructor
  · intro i d j
    rw [haddr]
    exact h.null i d j
  · intro i d j
    rw [haddr, hheap]
    exact h.held i d j
  · intro i d j
    rw [haddr, hheap]
    exact h.freed i d j
  · intro i d j a
    rw [haddr, hheap]
    exact h.fresh i d j a
  · intro i d j i' d' j' a
    rw [haddr, haddr]
    exact h.inj i d j i' d' j' a

end Fits

/-! ## Allocation -/

theorem addr_dmamAllocCoherent (d e : Dir) (i i' : Fin n) (j j' : Fin dmaBufferCount)
    (r : Option (BitVec 64)) (k : Driver n) :
    ((dmamAllocCoherent d i j r k).dev.dir i' e).addr j' =
      if i' = i ∧ e = d ∧ j' = j then r.map fun _ => k.heap.next
      else (k.dev.dir i' e).addr j' := by
  cases r with
  | none =>
    simp only [dmamAllocCoherent, LitepcieDevice.dir_modDir]
    by_cases hd : i' = i ∧ e = d
    · rw [if_pos hd, hd.1, hd.2]
      by_cases hj : j' = j <;> simp [DmaDir.setAddr, hj]
    · rw [if_neg hd, if_neg fun h => hd ⟨h.1, h.2.1⟩]
  | some a =>
    simp only [dmamAllocCoherent, LitepcieDevice.dir_modDir]
    by_cases hd : i' = i ∧ e = d
    · rw [if_pos hd, hd.1, hd.2]
      by_cases hj : j' = j <;> simp [DmaDir.setAddr, DmaDir.setHandle, hj]
    · rw [if_neg hd, if_neg fun h => hd ⟨h.1, h.2.1⟩]

section

variable {k : Driver n} {d : Dir} {i : Fin n} {j : Fin dmaBufferCount} {r : Option (BitVec 64)} {a : Nat}

/-- After an allocation a buffer is the one that it was made for, or it is as before. -/
theorem alloc_cases (k : Driver n) (b : Bufs n) (d : Dir) (i : Fin n) (j : Fin dmaBufferCount)
    (r : Option (BitVec 64)) (i' : Fin n) (d' : Dir) (j' : Fin dmaBufferCount) :
    ((i' = i ∧ d' = d ∧ j' = j) ∧ b.set i d j (.ofOutcome r) i' d' j' = .ofOutcome r ∧
        ((dmamAllocCoherent d i j r k).dev.dir i' d').addr j' = r.map fun _ => k.heap.next) ∨
      (b.set i d j (.ofOutcome r) i' d' j' = b i' d' j' ∧
        ((dmamAllocCoherent d i j r k).dev.dir i' d').addr j' = (k.dev.dir i' d').addr j') := by
  rw [addr_dmamAllocCoherent]
  unfold Bufs.set
  by_cases he : i' = i ∧ d' = d ∧ j' = j
  · rw [if_pos he, if_pos he]
    exact .inl ⟨he, rfl, rfl⟩
  · rw [if_neg he, if_neg he]
    exact .inr ⟨rfl, rfl⟩

/-- The addresses from before stay live. -/
theorem mem_live_alloc (ha : a < k.heap.next) :
    a ∈ (dmamAllocCoherent d i j r k).heap.live ↔ a ∈ k.heap.live := by
  cases r with
  | none => exact Iff.rfl
  | some x =>
    simp only [dmamAllocCoherent, DmaHeap.alloc, Finset.mem_insert]
    exact or_iff_right (Nat.ne_of_lt ha)

theorem next_le_alloc : k.heap.next ≤ (dmamAllocCoherent d i j r k).heap.next := by
  cases r with
  | none => exact le_refl _
  | some x => exact Nat.le_succ _

/-- The new address is live, and not one of those from before. -/
theorem alloc_new (h : (r.map fun _ => k.heap.next) = some a) :
    a = k.heap.next ∧ a ∈ (dmamAllocCoherent d i j r k).heap.live ∧
      a < (dmamAllocCoherent d i j r k).heap.next := by
  cases r with
  | none => cases h
  | some x =>
    cases h
    exact ⟨rfl, Finset.mem_insert_self _ _, Nat.lt_succ_self _⟩

end

theorem Fits.alloc {k : Driver n} {b : Bufs n} (h : Fits k b) (d : Dir) (i : Fin n)
    (j : Fin dmaBufferCount) (r : Option (BitVec 64)) :
    Fits (dmamAllocCoherent d i j r k) (b.set i d j (.ofOutcome r)) := by
  have hcases := alloc_cases k b d i j r
  constructor
  · intro i' d' j' hb
    rcases hcases i' d' j' with ⟨-, hs, ha⟩ | ⟨hs, ha⟩
    · rw [ha]
      cases r with
      | none => rfl
      | some x => cases hs.symm.trans hb
    · rw [ha]
      exact h.null i' d' j' (hs.symm.trans hb)
  · intro i' d' j' hb
    rcases hcases i' d' j' with ⟨-, hs, ha⟩ | ⟨hs, ha⟩
    · cases r with
      | none => cases hs.symm.trans hb
      | some x => exact ⟨_, ha, (alloc_new rfl).2.1⟩
    · obtain ⟨a, ha', hl⟩ := h.held i' d' j' (hs.symm.trans hb)
      exact ⟨a, ha.trans ha', (mem_live_alloc (h.fresh i' d' j' a ha')).mpr hl⟩
  · intro i' d' j' hb
    rcases hcases i' d' j' with ⟨-, hs, -⟩ | ⟨hs, ha⟩
    · cases r <;> cases hs.symm.trans hb
    · obtain ⟨a, ha', hl⟩ := h.freed i' d' j' (hs.symm.trans hb)
      exact ⟨a, ha.trans ha', fun hm => hl ((mem_live_alloc (h.fresh i' d' j' a ha')).mp hm)⟩
  · intro i' d' j' a ha
    rcases hcases i' d' j' with ⟨-, -, ha'⟩ | ⟨-, ha'⟩
    · exact (alloc_new (ha'.symm.trans ha)).2.2
    · exact (h.fresh i' d' j' a (ha'.symm.trans ha)).trans_le next_le_alloc
  · -- the new address is not one of the old ones
    have hold : ∀ i' d' j' a, (r.map fun _ => k.heap.next) = some a →
        (k.dev.dir i' d').addr j' ≠ some a := fun i' d' j' a hr ha =>
      Nat.ne_of_lt (h.fresh i' d' j' a ha) (alloc_new (d := d) (i := i) (j := j) hr).1
    intro i₁ d₁ j₁ i₂ d₂ j₂ a h₁ h₂
    rcases hcases i₁ d₁ j₁ with ⟨⟨rfl, rfl, rfl⟩, -, ha₁⟩ | ⟨-, ha₁⟩ <;>
      rcases hcases i₂ d₂ j₂ with ⟨he₂, -, ha₂⟩ | ⟨-, ha₂⟩
    · exact ⟨he₂.1.symm, he₂.2.1.symm, he₂.2.2.symm⟩
    · exact absurd (ha₂.symm.trans h₂) (hold i₂ d₂ j₂ a (ha₁.symm.trans h₁))
    · exact absurd (ha₁.symm.trans h₁) (hold i₁ d₁ j₁ a (ha₂.symm.trans h₂))
    · exact h.inj i₁ d₁ j₁ i₂ d₂ j₂ a (ha₁.symm.trans h₁) (ha₂.symm.trans h₂)

/-- `litepcie_dma_init_cpu` allocates as the history says. -/
theorem Fits.init {k : Driver n} {b : Bufs n} (h : Fits k b) (out : AllocOutcome n)
    (bs : List (Fin n × Fin dmaBufferCount)) : Fits (initLoop out bs k).2 (b.init out bs) := by
  induction bs generalizing k b with
  | nil => exact h
  | cons x bs ih =>
    obtain ⟨i, j⟩ := x
    have h₂ := (h.alloc .reader i j (out i j .reader)).alloc .writer i j (out i j .writer)
    unfold initLoop Bufs.init
    dsimp only
    have hw : ((dmamAllocCoherent .writer i j (out i j .writer)
        (dmamAllocCoherent .reader i j (out i j .reader) k)).dev.dir i .writer).addr j =
          (out i j .writer).map fun _ => (dmamAllocCoherent .reader i j (out i j .reader) k).heap.next := by
      rw [addr_dmamAllocCoherent, if_pos ⟨rfl, rfl, rfl⟩]
    have hr : ((dmamAllocCoherent .writer i j (out i j .writer)
        (dmamAllocCoherent .reader i j (out i j .reader) k)).dev.dir i .reader).addr j =
          (out i j .reader).map fun _ => k.heap.next := by
      rw [addr_dmamAllocCoherent, if_neg (by simp), addr_dmamAllocCoherent, if_pos ⟨rfl, rfl, rfl⟩]
    rw [hw, hr, Option.isNone_map, Option.isNone_map]
    by_cases hf : ((out i j .writer).isNone || (out i j .reader).isNone) = true
    · rw [if_pos hf, if_pos hf]
      exact h₂
    · rw [if_neg hf, if_neg hf]
      exact ih h₂

/-! ## Freeing -/

/-- The buffers with their directions, in the order in which `litepcie_dma_deinit_cpu` frees
them. -/
def frees (n : Nat) : List ((Fin n × Fin dmaBufferCount) × Dir) :=
  (buffers n).product [.reader, .writer]

theorem litepcieDmaDeinitCpu_eq (k : Driver n) :
    litepcieDmaDeinitCpu k =
      (frees n).foldl (fun k x => dmaFreeCoherent x.2 x.1.1 x.1.2 k) k := by
  unfold litepcieDmaDeinitCpu frees List.product
  induction buffers n generalizing k with
  | nil => rfl
  | cons b bs ih =>
    rw [List.foldl_cons, List.flatMap_cons, List.foldl_append]
    exact ih _

theorem nodup_frees (n : Nat) : (frees n).Nodup :=
  ((List.nodup_finRange n).product (List.nodup_finRange dmaBufferCount)).product (by decide)

theorem mem_frees (i : Fin n) (j : Fin dmaBufferCount) (d : Dir) : ((i, j), d) ∈ frees n := by
  refine List.pair_mem_product.mpr ⟨?_, by cases d <;> decide⟩
  exact List.pair_mem_product.mpr ⟨List.mem_finRange i, List.mem_finRange j⟩

/-- The address that entry `x` of `frees` frees. -/
def addrOf (k : Driver n) (x : (Fin n × Fin dmaBufferCount) × Dir) : Option Nat :=
  (k.dev.dir x.1.1 x.2).addr x.1.2

/-- What a list of frees does: it takes the addresses out of the heap, and each of them is live when
its turn comes exactly if it is live now. -/
theorem foldl_dmaFreeCoherent (xs : List ((Fin n × Fin dmaBufferCount) × Dir)) (k : Driver n)
    (hnodup : xs.Nodup)
    (hinj : ∀ x ∈ xs, ∀ y ∈ xs, ∀ a, addrOf k x = some a → addrOf k y = some a → x = y) :
    let k' := xs.foldl (fun k x => dmaFreeCoherent x.2 x.1.1 x.1.2 k) k
    k'.dev = k.dev ∧ k'.files = k.files ∧ k'.heap.next = k.heap.next ∧
      (∀ a, a ∈ k'.heap.live ↔ a ∈ k.heap.live ∧ ∀ x ∈ xs, addrOf k x ≠ some a) ∧
      ((∀ u ∈ k'.log, u.ok = true) ↔ (∀ u ∈ k.log, u.ok = true) ∧
        ∀ x ∈ xs, ∀ a, addrOf k x = some a → a ∈ k.heap.live) := by
  induction xs generalizing k with
  | nil => simp
  | cons x xs ih =>
    obtain ⟨hx, hnodup⟩ := List.nodup_cons.mp hnodup
    have hdev : ∀ y, addrOf (dmaFreeCoherent x.2 x.1.1 x.1.2 k) y = addrOf k y := fun _ => rfl
    obtain ⟨h1, h2, h3, h4, h5⟩ := ih (dmaFreeCoherent x.2 x.1.1 x.1.2 k) hnodup
      fun y hy z hz => hinj y (List.mem_cons_of_mem x hy) z (List.mem_cons_of_mem x hz)
    have hlive : ∀ a, a ∈ (dmaFreeCoherent x.2 x.1.1 x.1.2 k).heap.live ↔
        a ∈ k.heap.live ∧ addrOf k x ≠ some a := by
      intro a
      show a ∈ (k.heap.free (addrOf k x)).live ↔ _
      cases addrOf k x with
      | none => simp [DmaHeap.free]
      | some c =>
        simp only [DmaHeap.free, Finset.mem_erase, Option.some.injEq, ne_eq]
        rw [and_comm, eq_comm]
    have hnext : (dmaFreeCoherent x.2 x.1.1 x.1.2 k).heap.next = k.heap.next := by
      show (k.heap.free (addrOf k x)).next = _
      cases addrOf k x <;> rfl
    have hlog : (∀ u ∈ (dmaFreeCoherent x.2 x.1.1 x.1.2 k).log, u.ok = true) ↔
        (∀ u ∈ k.log, u.ok = true) ∧ ∀ a, addrOf k x = some a → a ∈ k.heap.live := by
      show (∀ u ∈ k.log ++ [Use.free (addrOf k x) (k.heap.isLive (addrOf k x))], u.ok = true) ↔ _
      rw [List.forall_mem_append, List.forall_mem_singleton]
      cases addrOf k x with
      | none => simp [Use.ok]
      | some c => simp [Use.ok]
    simp only [List.foldl_cons]
    refine ⟨h1, h2, h3.trans hnext, fun a => ?_, ?_⟩
    · rw [h4, hlive]
      simp only [hdev, List.forall_mem_cons, and_assoc]
    · rw [h5, hlog]
      simp only [hdev, List.forall_mem_cons, and_assoc]
      refine and_congr_right fun _ => and_congr_right fun _ => ?_
      -- the address of `x` is not freed again
      refine forall_congr' fun y => forall_congr' fun hy => forall_congr' fun a =>
        forall_congr' fun ha => ?_
      rw [hlive]
      refine and_iff_left fun hxa => hx ?_
      rw [hinj x List.mem_cons_self y (List.mem_cons_of_mem x hy) a hxa ha]
      exact hy

theorem Fits.deinit {k : Driver n} {b : Bufs n} (h : Fits k b) :
    Fits (litepcieDmaDeinitCpu k) b.close ∧
      ((∀ u ∈ (litepcieDmaDeinitCpu k).log, u.ok = true) ↔
        (∀ u ∈ k.log, u.ok = true) ∧ ∀ i d j, b i d j ≠ .freed) := by
  obtain ⟨hdev, -, hnext, hlive, hlog⟩ := foldl_dmaFreeCoherent (frees n) k (nodup_frees n)
    fun x _ y _ a hx hy => by
      obtain ⟨h1, h2, h3⟩ := h.inj _ _ _ _ _ _ a hx hy
      exact Prod.ext (Prod.ext h1 h3) h2
  rw [← litepcieDmaDeinitCpu_eq] at hdev hnext hlive hlog
  have hgone : ∀ i d j a, (k.dev.dir i d).addr j = some a →
      a ∉ (litepcieDmaDeinitCpu k).heap.live := by
    intro i d j a ha hm
    exact ((hlive a).mp hm).2 _ (mem_frees i j d) ha
  refine ⟨⟨?_, ?_, ?_, ?_, ?_⟩, ?_⟩
  · intro i d j hb
    rw [hdev]
    unfold Bufs.close at hb
    split at hb
    · cases hb
    · exact h.null i d j hb
  · intro i d j hb
    unfold Bufs.close at hb
    split at hb
    · cases hb
    · rename_i hne
      exact absurd hb hne
  · intro i d j hb
    rw [hdev]
    unfold Bufs.close at hb
    split at hb
    · rename_i hheld
      obtain ⟨a, ha, -⟩ := h.held i d j hheld
      exact ⟨a, ha, hgone i d j a ha⟩
    · obtain ⟨a, ha, -⟩ := h.freed i d j hb
      exact ⟨a, ha, hgone i d j a ha⟩
  · rw [hdev, hnext]
    exact h.fresh
  · rw [hdev]
    exact h.inj
  · rw [hlog]
    refine and_congr_right fun _ => ⟨fun hall i d j hb => ?_, fun hall x _ a ha => ?_⟩
    · obtain ⟨a, ha, hl⟩ := h.freed i d j hb
      exact hl (hall _ (mem_frees i j d) a ha)
    · obtain ⟨⟨i, j⟩, d⟩ := x
      cases hb : b i d j with
      | null =>
        rw [show addrOf k ((i, j), d) = none from h.null i d j hb] at ha
        cases ha
      | held =>
        obtain ⟨c, hc, hl⟩ := h.held i d j hb
        rw [show addrOf k ((i, j), d) = some c from hc] at ha
        cases ha
        exact hl
      | freed => exact absurd hb (hall i d j)

/-! ## What an operation does to the buffers -/

/-- Nothing about the buffers and the engines changes. -/
structure SameBufs (k k' : Driver n) : Prop where
  heap : k'.heap = k.heap
  log : k'.log = k.log
  addr : ∀ i d, (k'.dev.dir i d).addr = (k.dev.dir i d).addr
  enable : ∀ i d, (k'.dev.dir i d).enable = (k.dev.dir i d).enable

section

variable {k k' : Driver n} {b : Bufs n}

theorem SameBufs.refl (k : Driver n) : SameBufs k k := ⟨rfl, rfl, fun _ _ => rfl, fun _ _ => rfl⟩

theorem SameBufs.safeUse (hs : SameBufs k k') (h : SafeUse k) : SafeUse k' := by
  constructor
  · rw [hs.log]
    exact h.log
  · intro i d he
    rw [hs.enable] at he
    have hl := h.enabled i d he
    unfold Driver.buffersLive at hl ⊢
    rw [hs.heap, hs.addr]
    exact hl

theorem sameBufs_modDir {i : Fin n} {d : Dir} {g : DmaDir → DmaDir}
    (ha : ∀ c, (g c).addr = c.addr) (he : ∀ c, (g c).enable = c.enable) :
    SameBufs k { k with dev := k.dev.modDir i d g } :=
  ⟨rfl, rfl, fun j e => LitepcieDevice.dir_modDir_keeps ha k.dev i j d e,
    fun j e => LitepcieDevice.dir_modDir_keeps he k.dev i j d e⟩

theorem sameBufs_litepcieOpen (k : Driver n) (h : Nat) (i : Fin n) :
    SameBufs k (k.litepcieOpen h i) := by
  refine ⟨rfl, rfl, fun j e => ?_, fun j e => ?_⟩
  · rw [dir_litepcieOpen]
    split <;> rfl
  · rw [dir_litepcieOpen]
    split <;> rfl

theorem sameBufs_ioctlLock (k : Driver n) (m : LockRequest) (h : Nat) (p : ChanPriv n) :
    SameBufs k (ioctlLock m h p k).2 := by
  refine ⟨rfl, rfl, fun j e => ?_, fun j e => ?_⟩
  · rw [dir_ioctlLock]
    split <;> rfl
  · rw [dir_ioctlLock]
    split <;> rfl

theorem sameBufs_interrupt (k : Driver n) (regs : Nat → BitVec 32) :
    SameBufs k { k with dev := (k.dev.setStatus regs).litepcieInterrupt } := by
  refine ⟨rfl, rfl, fun j e => ?_, fun j e => ?_⟩
  · refine litepcieInterrupt_keeps (f := fun s => (s.dir j e).addr) ?_ (fun _ _ _ => rfl)
      (k.dev.setStatus regs)
    exact fun s i d v => LitepcieDevice.dir_modDir_keeps (f := DmaDir.addr) (by intro c; rfl) s i j d e
  · refine litepcieInterrupt_keeps (f := fun s => (s.dir j e).enable) ?_ (fun _ _ _ => rfl)
      (k.dev.setStatus regs)
    exact fun s i d v =>
      LitepcieDevice.dir_modDir_keeps (f := DmaDir.enable) (by intro c; rfl) s i j d e

/-- A start or a stop is safe if it leaves a disabled engine or held buffers. -/
theorem Fits.ioctlDma (h : Fits k b) (d : Dir) (i : Fin n) (enable : UInt8) :
    Fits { k with dev := (ioctlDma d i enable k.dev).2 } b ∧
      (SafeUse k → (SafeUse { k with dev := (Driver.ioctlDma d i enable k.dev).2 } ↔
        (enable ≠ 0 → b.Held i d))) := by
  have haddr : ∀ j e, (((Driver.ioctlDma d i enable k.dev).2).dir j e).addr = (k.dev.dir j e).addr := by
    intro j e
    rw [dir_ioctlDma]
    split
    · rename_i hj
      rw [hj.1, hj.2]
      split <;> rfl
    · rfl
  have hfits : Fits { k with dev := (Driver.ioctlDma d i enable k.dev).2 } b := h.same rfl haddr
  have henable : ∀ j e, (((Driver.ioctlDma d i enable k.dev).2).dir j e).enable =
      if j = i ∧ e = d then enable else (k.dev.dir j e).enable := by
    intro j e
    rw [dir_ioctlDma]
    split <;> rfl
  refine ⟨hfits, fun hs => ⟨fun hs' he => ?_, fun hh => ⟨hs.log, fun j e he => ?_⟩⟩⟩
  · refine (hfits.buffersLive_iff i d).mp (hs'.enabled i d ?_)
    rw [henable, if_pos ⟨rfl, rfl⟩]
    exact he
  · rw [hfits.buffersLive_iff]
    rw [henable] at he
    split at he
    · rename_i hj
      rw [hj.1, hj.2]
      exact hh he
    · exact (h.buffersLive_iff j e).mp (hs.enabled j e he)

/-- `DMA_INIT` is safe if it gives every enabled engine its buffers. -/
theorem Fits.dmaInit (h : Fits k b) (out : AllocOutcome n) :
    SafeUse k → (SafeUse (litepcieDmaInitCpu out k).2 ↔
      ∀ i d, (k.dev.dir i d).enable ≠ 0 → (b.init out (buffers n)).Held i d) := by
  have hfits := h.init out (buffers n)
  have henable : ∀ j e, ((litepcieDmaInitCpu out k).2.dev.dir j e).enable =
      (k.dev.dir j e).enable := by
    intro j e
    refine initLoop_keeps (f := fun k => (k.dev.dir j e).enable) ?_ out (buffers n) k
    intro d i b r k
    cases r with
    | none => exact LitepcieDevice.dir_modDir_keeps (f := DmaDir.enable) (by intro c; rfl) k.dev i j d e
    | some a =>
      exact LitepcieDevice.dir_modDir_keeps (f := DmaDir.enable) (by intro c; rfl) k.dev i j d e
  have hlog : (litepcieDmaInitCpu out k).2.log = k.log := by
    refine initLoop_keeps (f := fun k => k.log) ?_ out (buffers n) k
    intro d i b r k
    cases r <;> rfl
  refine fun hs => ⟨fun hs' i d he => ?_, fun hh => ⟨?_, fun i d he => ?_⟩⟩
  · refine (hfits.buffersLive_iff i d).mp (hs'.enabled i d ?_)
    rw [henable]
    exact he
  · rw [hlog]
    exact hs.log
  · rw [henable] at he
    exact (hfits.buffersLive_iff i d).mpr (hh i d he)

/-- A copy is safe if the buffers of its direction are held. -/
theorem Fits.copy (h : Fits k b) (i : Fin n) (d : Dir) (hs : SafeUse k) :
    SafeUse { k with log := k.log ++ [.copy i d (k.buffersLive i d)] } ↔ b.Held i d := by
  rw [← h.buffersLive_iff]
  constructor
  · intro hs'
    have hu := hs'.log (.copy i d (k.buffersLive i d)) (List.mem_append_right k.log List.mem_cons_self)
    rwa [Use.ok_copy] at hu
  · intro hl
    refine ⟨?_, hs.enabled⟩
    intro u hu
    rcases List.mem_append.mp hu with hu | hu
    · exact hs.log u hu
    · rwa [List.mem_singleton.mp hu, Use.ok_copy]

/-- A `close` is safe if no buffer is left over from an earlier one and the handle owns the enabled
engines. -/
theorem Fits.close (h : Fits k b) (g : Nat) (p : ChanPriv n) :
    Fits (k.litepcieRelease g p) b.close ∧
      (SafeUse k → (SafeUse (k.litepcieRelease g p) ↔ (∀ i d j, b i d j ≠ .freed) ∧
        ∀ i d, (k.dev.dir i d).enable ≠ 0 → p.owns d = true ∧ i = p.chan)) := by
  have hdir : ∀ j e, ((releaseDir .writer p (releaseDir .reader p k.dev)).dir j e).addr =
      (k.dev.dir j e).addr := by
    intro j e
    rw [dir_releaseDir, dir_releaseDir]
    split <;> split <;> rfl
  have hrel : Fits { k with dev := releaseDir .writer p (releaseDir .reader p k.dev) } b :=
    h.same rfl hdir
  obtain ⟨hdeinit, hlog⟩ := hrel.deinit
  have hfits : Fits (k.litepcieRelease g p) b.close := hdeinit.same rfl fun _ _ => rfl
  have henable : ∀ i d, ((k.litepcieRelease g p).dev.dir i d).enable =
      if p.owns d ∧ i = p.chan then 0 else (k.dev.dir i d).enable := by
    intro i d
    rw [dir_litepcieRelease]
    split <;> rfl
  refine ⟨hfits, fun hs => ?_⟩
  constructor
  · intro hs'
    refine ⟨(hlog.mp hs'.log).2, fun i d he => ?_⟩
    by_contra hown
    -- the engine still runs, but its buffers are freed
    have hheld := (h.buffersLive_iff i d).mp (hs.enabled i d he)
    have hlive := hs'.enabled i d (by rw [henable, if_neg hown]; exact he)
    have hclosed := (hfits.buffersLive_iff i d).mp hlive 0
    unfold Bufs.close at hclosed
    rw [if_pos (hheld 0)] at hclosed
    cases hclosed
  · rintro ⟨hfreed, hown⟩
    refine ⟨hlog.mpr ⟨hs.log, hfreed⟩, fun i d he => ?_⟩
    rw [henable] at he
    split at he
    · exact absurd rfl he
    · rename_i hno
      exact absurd (hown i d he) hno

end

/-! ## Runs -/

/-- The invariant: the history fits, and all uses were safe. -/
structure BufInv (x : Sys n × Bufs n) : Prop where
  fits : Fits x.1.drv x.2
  safe : SafeUse x.1.drv

theorem BufInv.probed (bar0 : Nat → BitVec 32) :
    BufInv ((Sys.probed bar0, fun _ _ _ => .null) : Sys n × Bufs n) := by
  refine ⟨Fits.probed bar0, ?_, ?_⟩
  · intro u hu
    cases hu
  · intro i d he
    cases d <;> exact absurd rfl he

/-- An event that changes nothing about the buffers. -/
theorem BufInv.same {s : Sys n} {k' : Driver n} {b : Bufs n} (h : BufInv (s, b))
    (hs : SameBufs s.drv k') : Fits k' b ∧ SafeUse k' :=
  ⟨h.fits.same hs.heap hs.addr, hs.safeUse h.safe⟩

/-- An ioctl keeps the history fitting, and is safe exactly under its condition. -/
theorem BufInv.ioctl {s : Sys n} {b : Bufs n} (h : BufInv (s, b)) (g : Nat) (p : ChanPriv n)
    (c : Ioctl n) (f : Fault) :
    Fits (litepcieIoctl g p c f s.drv).2.2 (b.step (.ioctl g c f)) ∧
      (SafeUse (litepcieIoctl g p c f s.drv).2.2 ↔
        (f ≠ .fromUser → IoctlUsesHeld s.drv b p c)) := by
  have hsame : ∀ {k'}, SameBufs s.drv k' → Fits k' b ∧
      (SafeUse k' ↔ (f ≠ .fromUser → True)) := fun hk =>
    ⟨(h.same hk).1, iff_of_true (h.same hk).2 fun _ => trivial⟩
  rw [driver_litepcieIoctl]
  by_cases hf : f = .fromUser ∧ c.copiesIn
  · rw [if_pos hf]
    have hb : b.step (.ioctl g c f) = b := by
      cases c with
      | dmaInit out => exact if_pos hf.1
      | _ => rfl
    rw [hb]
    exact ⟨h.fits, iff_of_true h.safe fun hne => absurd hf.1 hne⟩
  · rw [if_neg hf]
    cases c with
    | reg isWrite addr val =>
      cases isWrite <;> exact hsame ⟨rfl, rfl, fun _ _ => rfl, fun _ _ => rfl⟩
    | dmaInit out =>
      have hne : f ≠ .fromUser := fun he => hf ⟨he, rfl⟩
      simp only [Bufs.step, if_neg hne]
      refine ⟨h.fits.init out (buffers n), ?_⟩
      have h2 := h.fits.dmaInit out h.safe
      exact ⟨fun hx _ => h2.mp hx, fun hx => h2.mpr (hx hne)⟩
    | dma loopbackEnable => exact hsame ⟨rfl, rfl, fun _ _ => rfl, fun _ _ => rfl⟩
    | dmaWriter enable =>
      have hne : f ≠ .fromUser := fun he => hf ⟨he, rfl⟩
      obtain ⟨h1, h2⟩ := h.fits.ioctlDma .writer p.chan enable
      exact ⟨h1, fun hx _ => (h2 h.safe).mp hx, fun hx => (h2 h.safe).mpr (hx hne)⟩
    | dmaReader enable =>
      have hne : f ≠ .fromUser := fun he => hf ⟨he, rfl⟩
      obtain ⟨h1, h2⟩ := h.fits.ioctlDma .reader p.chan enable
      exact ⟨h1, fun hx _ => (h2 h.safe).mp hx, fun hx => (h2 h.safe).mpr (hx hne)⟩
    | mmapDmaInfo => exact hsame (SameBufs.refl _)
    | mmapDmaWriterUpdate swCount => exact hsame (sameBufs_modDir (fun _ => rfl) fun _ => rfl)
    | mmapDmaReaderUpdate swCount => exact hsame (sameBufs_modDir (fun _ => rfl) fun _ => rfl)
    | lock m => exact hsame (sameBufs_ioctlLock s.drv m g p)

/-- An access keeps the history fitting, and is safe exactly under its condition. -/
theorem BufInv.call {s : Sys n} {b : Bufs n} {k' : Driver n} (h : BufInv (s, b)) {i : Fin n}
    {q : ChanReq} {o : Nat} {r : q.Ans} (hc : chanCall i q o s.drv = some (r, k')) :
    Fits k' b ∧ (SafeUse k' ↔ CallUsesHeld b i q) := by
  have hsame : ∀ {k'}, SameBufs s.drv k' → Fits k' b ∧ (SafeUse k' ↔ True) := fun hk =>
    ⟨(h.same hk).1, iff_of_true (h.same hk).2 trivial⟩
  cases q with
  | waitEvent d cond =>
    simp only [chanCall] at hc
    split at hc
    · cases hc
      exact hsame (SameBufs.refl _)
    · split at hc
      · cases hc
        exact hsame (SameBufs.refl _)
      · cases hc
  | setSwCount d v =>
    cases hc
    exact hsame (sameBufs_modDir (fun _ => rfl) fun _ => rfl)
  | copyToUser dst idx =>
    cases hc
    exact ⟨h.fits.same rfl fun _ _ => rfl, h.fits.copy i .writer h.safe⟩
  | copyFromUser idx src =>
    cases hc
    exact ⟨h.fits.same rfl fun _ _ => rfl, h.fits.copy i .reader h.safe⟩
  | _ =>
    cases hc
    exact hsame (SameBufs.refl _)

/-- One event: the history goes on fitting, and the event is safe exactly under its condition. -/
theorem BufInv.step {x x' : Sys n × Bufs n} {e : SysEv n} (h : BufInv x)
    (hs : (bufMachine n).step x e = some x') :
    Fits x'.1.drv x'.2 ∧ (SafeUse x'.1.drv ↔ UsesHeld x e) := by
  obtain ⟨s, b⟩ := x
  obtain ⟨s', hstep, rfl⟩ := Option.map_eq_some_iff.mp hs
  have hd := Sys.step_drv hstep
  have hsame : SameBufs s.drv s'.drv → Fits s'.drv b ∧ (SafeUse s'.drv ↔ True) := fun hk =>
    ⟨(h.same hk).1, iff_of_true (h.same hk).2 trivial⟩
  cases e with
  | openFile g i =>
    obtain ⟨-, hd⟩ := hd
    exact hsame (by rw [hd]; exact sameBufs_litepcieOpen s.drv g i)
  | ioctl g c f =>
    obtain ⟨p, hp, hd⟩ := hd
    obtain ⟨h1, h2⟩ := h.ioctl g p c f
    rw [← hd] at h1 h2
    refine ⟨h1, h2.trans ⟨fun hc hf q hq => ?_, fun hc hf => hc hf p hp⟩⟩
    rw [hp] at hq
    cases hq
    exact hc hf
  | read g a z l => exact hsame (by rw [show s'.drv = s.drv from hd]; exact SameBufs.refl _)
  | write g a z l => exact hsame (by rw [show s'.drv = s.drv from hd]; exact SameBufs.refl _)
  | access t o =>
    rcases hd with ⟨hd, g, i, a, hcall⟩ | ⟨g, i, q, k, r, hcall, hd⟩
    · obtain ⟨h1, h2⟩ := hsame (by rw [hd]; exact SameBufs.refl _)
      refine ⟨h1, h2.trans (iff_of_true trivial fun g' i' q' k' hc => ?_)⟩
      rw [hcall] at hc
      cases hc
    · obtain ⟨h1, h2⟩ := h.call hd
      refine ⟨h1, h2.trans ⟨fun hh g' i' q' k' hc => ?_, fun hh => hh g i q k hcall⟩⟩
      rw [hcall] at hc
      cases hc
      exact hh
  | close g =>
    obtain ⟨p, hp, hd⟩ := hd
    obtain ⟨h1, h2⟩ := h.fits.close g p
    rw [← hd] at h1 h2
    refine ⟨h1, (h2 h.safe).trans (and_congr_right fun _ => ⟨fun hc q hq => ?_, fun hc => hc p hp⟩)⟩
    rw [hp] at hq
    cases hq
    exact hc
  | interrupt regs => exact hsame (by rw [show s'.drv = _ from hd]; exact sameBufs_interrupt s.drv regs)

/-- `buffers_safe_iff` with the history in the state. -/
theorem always_safe_iff_along (bar0 : Nat → BitVec 32) (es : List (SysEv n)) :
    (bufMachine n).Always (fun x => SafeUse x.1.drv) es (Sys.probed bar0, fun _ _ _ => .null) ↔
      (bufMachine n).Along UsesHeld es (Sys.probed bar0, fun _ _ _ => .null) := by
  refine Machine.always_iff_along (I := BufInv) ?_ (fun x h => h.safe) ?_ (BufInv.probed bar0)
  · intro x e x' h hc hs
    obtain ⟨hfits, hsafe⟩ := h.step hs
    exact ⟨hfits, hsafe.mpr hc⟩
  · intro x e x' h hs hsafe
    exact (h.step hs).2.mp hsafe

/-- In every run of file operations, everything freed and copied is live memory, and the buffers
of enabled engines are live, exactly when the run meets `UsesHeld`. -/
theorem buffers_safe_iff (bar0 : Nat → BitVec 32) (es : List (SysEv n)) :
    (Sys.machine n).Always (fun s => SafeUse s.drv) es (Sys.probed bar0) ↔
      (bufMachine n).Along UsesHeld es (Sys.probed bar0, fun _ _ _ => .null) := by
  rw [← always_safe_iff_along]
  exact Machine.always_history.symm

/-- Two handles are open after one `DMA_INIT`, and one of them is closed. -/
def closeFirst : List (SysEv 1) :=
  [.openFile 1 0, .openFile 2 0, .ioctl 1 (.dmaInit fun _ _ _ => some 0) .none, .close 1]

set_option maxRecDepth 10000 in
/-- The `close` of the other handle frees the buffers again. -/
theorem close_frees_twice :
    ¬ (Sys.machine 1).Always (fun s => SafeUse s.drv) (closeFirst ++ [.close 2])
      (Sys.probed fun _ => 0) := by
  intro h
  have hal := (always_safe_iff_along _ _).mp (Machine.always_history.mpr h)
  have hrun : ((Sys.machine 1).run (closeFirst ++ [.close 2]) (Sys.probed fun _ => 0)).isSome := by
    decide +kernel
  have hbuf : closeFirst.foldl Bufs.step (fun _ _ _ => Buf.null) 0 .reader 0 = .freed := by
    decide +kernel
  obtain ⟨s', hs'⟩ := Option.isSome_iff_exists.mp hrun
  obtain ⟨s, hs, hstep⟩ := Machine.run_snoc.mp hs'
  have hx := (Machine.along_append.mp hal).2 (s, closeFirst.foldl Bufs.step fun _ _ _ => .null)
    (by unfold bufMachine; rw [Machine.run_history, hs]; rfl)
  have hclose := (hx _ (Option.map_eq_some_iff.mpr ⟨s', hstep, rfl⟩)).1
  exact hclose.1 0 .reader 0 hbuf

end Kernel
end Xtrx
