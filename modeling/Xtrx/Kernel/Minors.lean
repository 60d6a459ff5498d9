import Xtrx.Kernel.Boards

/-!
# The minors of the boards (`litepcie_alloc_chdev` in `litepcie-kernel-module/main.c`)

A probe gives the minors from `litepcie_minor_idx` on to its nodes. None is given back.

- **`Numbers`**: what a probe does with the minors, whatever the kernel answers and wherever it fails.
- **`Minors`**: the invariant of the module; `Later`: from one state to a later one.
- **`Fits`**: the minors fit into a device number (`mkdev`). `litepcie_minor_idx` only grows, and the
  source has no test for its end.
- **`minors_exclusive`**: as long as they fit, no device number is ever that of two nodes.
-/

namespace Xtrx
namespace Kernel

open Conc Ledger

/-! ## The minors of a probe -/

/-- From `s` to `s'`: no node is created, and `litepcie_minor_idx` stays. -/
structure Plain (s s' : ProbeState) : Prop where
  minorIdx : s'.minorIdx = s.minorIdx
  log : ∃ done, s'.log = s.log ++ done ∧ ∀ i, .acquire (.node i) ∉ done

/-- Each minor from `litepcie_minor_idx` on is given to at most one node. If `litepcie_minor_idx` is the
same afterwards the nodes are gone. -/
structure Numbers (channels : Nat) (s s' : ProbeState) : Prop where
  minorIdx : s'.minorIdx = s.minorIdx ∨ s'.minorIdx = s.minorIdx + channels
  log : ∃ done, s'.log = s.log ++ done ∧
    (∀ i, done.count (.acquire (.node i)) ≤
      if s.minorIdx ≤ i ∧ i < s.minorIdx + channels then 1 else 0) ∧
    (s'.minorIdx = s.minorIdx → ∀ i, held (.node i) done ≤ 0)

section

variable {channels : Nat} {s t u : ProbeState}

theorem Plain.refl (s : ProbeState) : Plain s s := ⟨rfl, [], (List.append_nil _).symm, fun _ hm => by cases hm⟩

theorem Plain.trans (h : Plain s t) (h' : Plain t u) : Plain s u := by
  obtain ⟨hidx, done, hlog, hdone⟩ := h
  obtain ⟨hidx', done', hlog', hdone'⟩ := h'
  refine ⟨hidx'.trans hidx, done ++ done', by rw [hlog', hlog, List.append_assoc], fun i hm => ?_⟩
  rcases List.mem_append.mp hm with hm | hm
  · exact hdone i hm
  · exact hdone' i hm

theorem Plain.numbers (h : Plain s t) : Numbers channels s t := by
  obtain ⟨hidx, done, hlog, hdone⟩ := h
  have hcount (i : Int) : done.count (.acquire (.node i)) = 0 := List.count_eq_zero_of_not_mem (hdone i)
  refine ⟨.inl hidx, done, hlog, fun i => ?_, fun _ i => ?_⟩
  · rw [hcount]
    exact Nat.zero_le _
  · rw [held, hcount]
    omega

theorem Plain.trans_numbers (h : Plain s t) (h' : Numbers channels t u) : Numbers channels s u := by
  obtain ⟨hidx, done, hlog, hdone⟩ := h
  obtain ⟨hidx', done', hlog', hone, hgone⟩ := h'
  have hcount (i : Int) : done.count (.acquire (.node i)) = 0 := List.count_eq_zero_of_not_mem (hdone i)
  rw [hidx] at hidx' hone hgone
  refine ⟨hidx', done ++ done', by rw [hlog', hlog, List.append_assoc], fun i => ?_, fun hsame i => ?_⟩
  · rw [List.count_append, hcount, Nat.zero_add]
    exact hone i
  · have hrest := hgone hsame i
    rw [held_append, held, hcount]
    omega

theorem Numbers.trans_plain (h : Numbers channels s t) (h' : Plain t u) : Numbers channels s u := by
  obtain ⟨hidx, done, hlog, hone, hgone⟩ := h
  obtain ⟨hidx', done', hlog', hdone'⟩ := h'
  have hcount (i : Int) : done'.count (.acquire (.node i)) = 0 := List.count_eq_zero_of_not_mem (hdone' i)
  refine ⟨hidx' ▸ hidx, done ++ done', by rw [hlog', hlog, List.append_assoc], fun i => ?_,
    fun hsame i => ?_⟩
  · rw [List.count_append, hcount, Nat.add_zero]
    exact hone i
  · have hrest := hgone (hidx'.symm.trans hsame) i
    have hzero : held (.node i) done' ≤ 0 := by
      rw [held, hcount]
      omega
    rw [held_append]
    omega

end

/-- A program is `Plain`. -/
def IsPlain {α : Type} (m : Probe α) : Prop := ∀ s, Plain s (m s).2

section

variable {α β : Type} {env : ProbeEnv} {channels : Nat}

theorem IsPlain.pure (a : α) : IsPlain (pure a : Probe α) := fun s => .refl s

theorem IsPlain.bind {m : Probe α} {f : α → Probe β} (hm : IsPlain m) (hf : ∀ a, IsPlain (f a)) :
    IsPlain (m >>= f) := fun s => (hm s).trans (hf _ _)

theorem IsPlain.record {e : Entry Resource} (h : ∀ i, e ≠ .acquire (.node i)) : IsPlain (record e) :=
  fun _ => ⟨rfl, [e], rfl, fun i hm => h i (List.mem_singleton.mp hm).symm⟩

theorem IsPlain.silent {m : Probe α} (h : ∀ s, (m s).2.minorIdx = s.minorIdx ∧ (m s).2.log = s.log) :
    IsPlain m := fun s =>
  ⟨(h s).1, [], by rw [(h s).2, List.append_nil], fun _ hm => by cases hm⟩

theorem IsPlain.forM {f : Nat → Probe Unit} (hf : ∀ i, IsPlain (f i)) (is : List Nat) :
    IsPlain (is.forM f) := by
  induction is with
  | nil => exact .pure _
  | cons i is ih => exact .bind (hf i) fun _ => ih

theorem IsPlain.untilError {call : Nat → Probe Int} (hcall : ∀ i, IsPlain (call i)) (is : List Nat) :
    IsPlain (untilError call is) := by
  induction is with
  | nil => exact .pure _
  | cons i is ih =>
    refine .bind (hcall i) fun ret => ?_
    by_cases hret : ret < 0
    · rw [if_pos hret]
      exact .pure _
    · rw [if_neg hret]
      exact ih

theorem isPlain_failAlloc : IsPlain (failAlloc channels) := .forM (fun _ => .record (by simp)) _

theorem isPlain_fail2 (ret : Int) : IsPlain (fail2 ret) := .bind (.record (by simp)) fun _ => .pure _

theorem isPlain_litepcieFreeChdev : IsPlain (litepcieFreeChdev channels) :=
  .forM (fun _ => .bind (.silent fun _ => ⟨rfl, rfl⟩) fun _ => .bind (.record (by simp)) fun _ =>
    .record (by simp)) _

theorem isPlain_cdevAdd (i : Nat) : IsPlain (cdevAdd env i) := by
  unfold cdevAdd
  split
  · exact .bind (.record (by simp)) fun _ => .pure _
  · exact .pure _

theorem isPlain_requestIrq (i : Nat) : IsPlain (requestIrq env i) := by
  unfold requestIrq
  split
  · exact .bind (.record (by simp)) fun _ => .bind (.silent fun _ => ⟨rfl, rfl⟩) fun _ => .pure _
  · exact .pure _

theorem isPlain_litepciePciRemove : IsPlain (litepciePciRemove env.irqVector) :=
  .bind (.silent fun _ => ⟨rfl, rfl⟩) fun _ => .bind (.forM (fun _ => .record (by simp)) _) fun _ =>
    .bind (.record (by simp)) fun _ => .bind (.silent fun _ => ⟨rfl, rfl⟩) fun _ =>
      .bind isPlain_litepcieFreeChdev fun _ => .record (by simp)

theorem createLoop (n a : Nat) (s : ProbeState) : ∃ k ≤ n,
    (untilError (deviceCreate env) (List.range' a n) s).2 = { s with
      log := s.log ++ (((List.range' a k).filter fun i => env.deviceCreate i = .ptr).map fun i =>
        Resource.node (s.minorIdx + (i : Nat))).map .acquire } ∧
      ∀ i ret, (untilError (deviceCreate env) (List.range' a n) s).1 = some (i, ret) → i = a + k := by
  induction n generalizing a s with
  | zero => exact ⟨0, Nat.le_refl 0, by simp [untilError], fun i ret h => by cases h⟩
  | succ n ih =>
    rw [List.range'_succ, untilError_cons, deviceCreate_ret]
    have hstate : (deviceCreate env a s).2 = { s with
        log := s.log ++
          (if env.deviceCreate a = .ptr then [.acquire (.node (s.minorIdx + (a : Nat)))] else []) } := by
      rw [deviceCreate, probe_bind]
      cases env.deviceCreate a with
      | null => rw [if_neg (by simp), List.append_nil]; rfl
      | err e => rw [if_neg (by simp), List.append_nil]; rfl
      | ptr => rfl
    rw [hstate]
    by_cases hnull : env.deviceCreate a = .null
    · rw [if_pos hnull, if_pos (by decide)]
      refine ⟨0, Nat.zero_le _, ?_, fun i ret h => ?_⟩
      · simp [hnull]
      · exact (Prod.mk.inj (Option.some.inj h)).1.symm
    · rw [if_neg hnull, if_neg (Int.lt_irrefl 0)]
      obtain ⟨k, hk, hlog, hstop⟩ := ih (a + 1) { s with
        log := s.log ++
          (if env.deviceCreate a = .ptr then [.acquire (.node (s.minorIdx + (a : Nat)))] else []) }
      refine ⟨k + 1, Nat.succ_le_succ hk, ?_, fun i ret h => ?_⟩
      · rw [hlog, List.range'_succ]
        by_cases hptr : env.deviceCreate a = .ptr
        · simp [hptr]
        · simp [hptr]
      · have hi := hstop i ret h
        omega

/-- The loop that creates the nodes: those before the channel at which it stops. -/
theorem createLoop_range (s : ProbeState) : ∃ k ≤ channels,
    (untilError (deviceCreate env) (List.range channels) s).2 =
      { s with log := s.log ++ (env.nodes k s.minorIdx).map .acquire } ∧
      ∀ i ret, (untilError (deviceCreate env) (List.range channels) s).1 = some (i, ret) → i = k := by
  have hloop := @createLoop env channels 0 s
  simp only [← List.range_eq_range', Nat.zero_add] at hloop
  exact hloop

theorem minors_count (k : Nat) (base i : Int) :
    ((List.range k).map fun j => Resource.node (base + (j : Nat))).count (.node i) ≤
      if base ≤ i ∧ i < base + k then 1 else 0 := by
  have hnodup : ((List.range k).map fun j => Resource.node (base + (j : Nat))).Nodup := by
    refine List.nodup_range.map_on fun i _ j _ heq => ?_
    have hminor := Resource.node.inj heq
    omega
  split
  · exact List.nodup_iff_count_le_one.mp hnodup _
  · rename_i hout
    refine Nat.le_of_eq (List.count_eq_zero_of_not_mem fun hm => hout ?_)
    obtain ⟨j, hj, heq⟩ := List.mem_map.mp hm
    have hminor := Resource.node.inj heq
    have hlt := List.mem_range.mp hj
    omega

theorem nodes_count_le (k : Nat) (base i : Int) : (env.nodes k base).count (.node i) ≤
    ((List.range k).map fun j => Resource.node (base + (j : Nat))).count (.node i) :=
  (List.filter_sublist.map _).count_le _

/-- Each minor is given to at most one node. -/
theorem nodes_count_le_one {k : Nat} (hk : k ≤ channels) (minor i : Int) :
    (env.nodes k minor).count (.node i) ≤ if minor ≤ i ∧ i < minor + channels then 1 else 0 := by
  have hle := @nodes_count_le env k minor i
  have hcount := minors_count k minor i
  split at hcount
  · rw [if_pos (by omega)]
    omega
  · omega

/-- The loop ends without an error. -/
theorem numbers_created {k : Nat} (hk : k ≤ channels) (s : ProbeState) :
    Numbers channels s { s with
      minorIdx := s.minorIdx + channels
      log := s.log ++ (env.nodes k s.minorIdx).map .acquire } := by
  refine ⟨.inr rfl, (env.nodes k s.minorIdx).map .acquire, rfl, fun i => ?_, fun hsame i => ?_⟩
  · rw [count_acquires]
    exact nodes_count_le_one hk _ i
  · have hzero := @nodes_count_le_one env channels k hk s.minorIdx i
    have hno : (channels : Int) = 0 := by
      have hidx : s.minorIdx + channels = s.minorIdx := hsame
      omega
    rw [hno, if_neg (by omega)] at hzero
    rw [held_acquires]
    omega

/-- The nodes before the failure are removed. -/
theorem numbers_failCreate {k : Nat} (hk : k ≤ channels) (s : ProbeState) :
    Numbers channels s
      (failCreate channels k { s with log := s.log ++ (env.nodes k s.minorIdx).map .acquire }).2 := by
  obtain ⟨t, ht⟩ : ∃ t : ProbeState, t = { s with
      log := s.log ++ ((env.nodes k s.minorIdx).map .acquire ++
        ((List.range k).map fun (j : Nat) => Resource.node (s.minorIdx + j)).map .release) } :=
    ⟨_, rfl⟩
  have hremove : (List.range k).forM (fun (j : Nat) => record (.release (.node (s.minorIdx + j))))
      { s with log := s.log ++ (env.nodes k s.minorIdx).map .acquire } = ((), t) := by
    have hall := forM_record (fun (j : Nat) => [.release (.node (s.minorIdx + j))]) (List.range k)
      (s := { s with log := s.log ++ (env.nodes k s.minorIdx).map .acquire }) rfl
      (g := fun (j : Nat) => record (.release (.node (s.minorIdx + j)))) fun i s _ => rfl
    rw [hall, ht, ← List.map_eq_flatMap, List.map_map, List.append_assoc]
    rfl
  have hnumbers : Numbers channels s t := by
    subst ht
    refine ⟨.inl rfl, _, rfl, fun i => ?_, fun _ i => ?_⟩
    · have hnone : (((List.range k).map fun (j : Nat) => Resource.node (s.minorIdx + j)).map
          Entry.release).count (.acquire (.node i)) = 0 := List.count_eq_zero_of_not_mem (by simp)
      rw [List.count_append, count_acquires, hnone]
      exact nodes_count_le_one hk _ i
    · have hle := @nodes_count_le env k s.minorIdx i
      rw [held_append, held_acquires, held_releases]
      omega
  have hget (s : ProbeState) : (get : Probe ProbeState) s = (s, s) := rfl
  rw [failCreate, probe_bind, hget]
  dsimp only
  rw [probe_bind, hremove]
  exact hnumbers.trans_plain (isPlain_failAlloc t)

theorem numbers_litepcieAllocChdev (s : ProbeState) :
    Numbers channels s (litepcieAllocChdev env channels s).2 := by
  have hbase : Plain s { s with minorBase := s.minorIdx } := ⟨rfl, [], (List.append_nil _).symm, by simp⟩
  rw [litepcieAllocChdev, probe_bind, probe_modify]
  refine hbase.trans_numbers ?_
  generalize { s with minorBase := s.minorIdx } = s
  have hcdevs : IsPlain (untilError (cdevAdd env) (List.range channels)) := .untilError isPlain_cdevAdd _
  dsimp only
  rw [probe_bind]
  refine (hcdevs s).trans_numbers ?_
  cases (untilError (cdevAdd env) (List.range channels) s).1 with
  | some r => exact (isPlain_failAlloc _).numbers
  | none =>
    generalize (untilError (cdevAdd env) (List.range channels) s).2 = s
    obtain ⟨k, hk, hloop, hstop⟩ := @createLoop_range env channels s
    dsimp only
    rw [probe_bind, hloop]
    cases hret : (untilError (deviceCreate env) (List.range channels) s).1 with
    | none => exact numbers_created hk s
    | some r =>
      obtain rfl := hstop r.1 r.2 hret
      exact numbers_failCreate hk s

theorem numbers_probeChannels (s : ProbeState) :
    Numbers channels s (probeChannels env channels s).2 := by
  have hset : Plain s { s with channels } := ⟨rfl, [], (List.append_nil _).symm, by simp⟩
  rw [probeChannels, probe_bind, probe_modify]
  refine hset.trans_numbers ?_
  generalize { s with channels } = s
  dsimp only
  rw [probe_bind]
  have halloc := @numbers_litepcieAllocChdev env channels s
  generalize litepcieAllocChdev env channels s = r at halloc ⊢
  refine halloc.trans_plain ?_
  split
  · exact (isPlain_fail2 r.1).bind (fun _ => .pure _) r.2
  · have hinit : IsPlain (initChannels channels) := .silent fun _ => ⟨rfl, rfl⟩
    have huart (e : Fin 4095) : IsPlain (fail3 channels (ptrErr e)) :=
      .bind isPlain_litepcieFreeChdev fun _ => isPlain_fail2 _
    refine (hinit.bind fun _ => ?_) r.2
    split
    · exact .pure _
    · split
      · exact huart _
      · exact .bind (.record (by simp)) fun _ => .pure _

theorem numbers_litepciePciProbe (s : ProbeState) :
    Numbers channels s (litepciePciProbe env channels s).2 := by
  unfold litepciePciProbe
  cases probeDevice env with
  | some ret => exact (Plain.refl s).numbers
  | none =>
    unfold probeVectors
    dsimp only
    split
    · exact (Plain.refl s).numbers
    · rw [probe_bind]
      have hvectors : IsPlain (record (.acquire .vectors)) := .record (by simp)
      refine (hvectors s).trans_numbers ?_
      generalize (record (.acquire .vectors) s).2 = s
      have hirqs : IsPlain (untilError (requestIrq env) (List.range env.allocIrqVectors.toNat)) :=
        .untilError isPlain_requestIrq _
      rw [probe_bind]
      refine (hirqs s).trans_numbers ?_
      generalize untilError (requestIrq env) (List.range env.allocIrqVectors.toNat) s = r
      obtain ⟨r, s⟩ := r
      cases r with
      | none => exact numbers_probeChannels s
      | some r =>
        have hfree : IsPlain (freeIrqs env r.1) := .forM (fun _ => .record (by simp)) _
        exact ((hfree.bind fun _ => isPlain_fail2 r.2) s).numbers

theorem probe_succeeded {base : Int} (h : (litepciePciProbe env channels (.start base)).1 = 0) :
    (litepciePciProbe env channels (.start base)).2.minorBase = base ∧
      (litepciePciProbe env channels (.start base)).2.minorIdx = base + channels := by
  unfold litepciePciProbe at h ⊢
  cases hdev : probeDevice env with
  | some ret =>
    rw [hdev] at h
    exact absurd h (probeDevice_ne_zero hdev)
  | none =>
    rw [hdev] at h
    dsimp only at h ⊢
    by_cases hneg : env.allocIrqVectors < 0
    · have hret : (probeVectors env channels (.start base)).1 = env.allocIrqVectors := by
        unfold probeVectors
        rw [if_pos hneg]
        rfl
      exact absurd (hret.symm.trans h) (Int.ne_of_lt hneg)
    · have hpos := Int.not_lt.mp hneg
      rw [probeVectors_succeeds env channels hpos ((probeVectors_ret env channels _ hpos).mp h)]
      exact ⟨rfl, rfl⟩

end

/-! ## Minors over runs -/

def minorOf : Entry Owned → Option (Entry Int)
  | .acquire (.board _ (.node i)) => some (.acquire i)
  | .release (.board _ (.node i)) => some (.release i)
  | _ => none

/-- The minors for which nodes are created and removed. -/
def minorsOf (log : List (Entry Owned)) : List (Entry Int) := log.filterMap minorOf

structure Module.Minors (channels : Nat) (m : Module) : Prop where
  low : ∀ i, m.minorIdx ≤ i → held i (minorsOf m.log) ≤ 0
  one : ∀ i p, p <+: minorsOf m.log → held i p ≤ 1
  made : ∀ i, .acquire i ∈ minorsOf m.log → 0 ≤ i ∧ i < m.minorIdx + channels
  start : 0 ≤ m.minorIdx
  within : ∀ b ∈ m.bound, 0 ≤ b.state.minorBase ∧ b.state.minorBase + channels ≤ m.minorIdx
  apart : m.bound.Pairwise fun (b b' : Bound) => b.state.minorBase + channels ≤ b'.state.minorBase

/-- From one state of the module to a later one. -/
structure Later (m m' : Module) : Prop where
  minorIdx : m.minorIdx ≤ m'.minorIdx
  log : ∃ new, minorsOf m'.log = minorsOf m.log ++ new ∧ ∀ i, .acquire i ∈ new → m.minorIdx ≤ i

section

variable {channels : Nat} {m m' m'' : Module} {e : BoardEvent} {es : List BoardEvent}

theorem minorsOf_append (l l' : List (Entry Owned)) : minorsOf (l ++ l') = minorsOf l ++ minorsOf l' :=
  List.filterMap_append

theorem count_minorsOf (k : Nat) (i : Int) (log : List (Entry Resource)) :
    (minorsOf (ofBoard k log)).count (.acquire i) = log.count (.acquire (.node i)) ∧
      (minorsOf (ofBoard k log)).count (.release i) = log.count (.release (.node i)) := by
  induction log with
  | nil => exact ⟨rfl, rfl⟩
  | cons e log ih =>
    have hcons : minorsOf (ofBoard k (e :: log)) =
        (minorOf (e.map (.board k))).toList ++ minorsOf (ofBoard k log) := by
      rw [minorsOf, ofBoard, List.map_cons, List.filterMap_cons]
      cases minorOf (e.map (.board k)) with
      | none => rfl
      | some x => rfl
    rw [hcons, List.count_append, List.count_append, ih.1, ih.2, List.count_cons, List.count_cons]
    cases e with
    | acquire r => cases r <;> simp [Entry.map, minorOf, List.count_cons, Nat.add_comm]
    | release r => cases r <;> simp [Entry.map, minorOf, List.count_cons, Nat.add_comm]

theorem held_le_count {R : Type} [DecidableEq R] (r : R) (l : List (Entry R)) :
    held r l ≤ (l.count (.acquire r) : Nat) := by
  unfold held
  omega

/-- The record of a step: from `litepcie_minor_idx` on each minor gets at most one node. -/
theorem Module.Minors.extend (h : m.Minors channels) (k : Nat) {done : List (Entry Resource)} {idx : Int}
    (hidx : idx = m.minorIdx ∨ idx = m.minorIdx + channels)
    (hone : ∀ i, done.count (.acquire (.node i)) ≤
      if m.minorIdx ≤ i ∧ i < m.minorIdx + channels then 1 else 0)
    (hgone : idx = m.minorIdx → ∀ i, held (.node i) done ≤ 0) :
    (∀ i, idx ≤ i → held i (minorsOf (m.log ++ ofBoard k done)) ≤ 0) ∧
      (∀ i p, p <+: minorsOf (m.log ++ ofBoard k done) → held i p ≤ 1) ∧
      (∀ i, .acquire i ∈ minorsOf (m.log ++ ofBoard k done) → 0 ≤ i ∧ i < idx + channels) ∧
      m.minorIdx ≤ idx ∧ ∀ i, .acquire i ∈ minorsOf (ofBoard k done) → m.minorIdx ≤ i := by
  rw [minorsOf_append]
  have hcount (i : Int) := (count_minorsOf k i done).1
  have hheld (i : Int) : held i (minorsOf (ofBoard k done)) = held (.node i) done := by
    rw [held, held, (count_minorsOf k i done).1, (count_minorsOf k i done).2]
  have hnew : ∀ i, .acquire i ∈ minorsOf (ofBoard k done) →
      m.minorIdx ≤ i ∧ i < m.minorIdx + channels := by
    intro i hi
    by_contra hout
    have hnone := hone i
    rw [if_neg hout, ← hcount] at hnone
    exact absurd (List.count_pos_iff.mpr hi) (by omega)
  have hstart := h.start
  refine ⟨fun i hi => ?_, fun i p hp => ?_, fun i hi => ?_, by omega, fun i hi => (hnew i hi).1⟩
  · have hlow := h.low i (by omega)
    rw [held_append, hheld]
    rcases hidx with hsame | hmore
    · have hrest := hgone hsame i
      omega
    · have hrest := held_le_count (.node i) done
      have hnone := hone i
      rw [if_neg (by omega)] at hnone
      omega
  · obtain ⟨q, hq⟩ := hp
    rcases List.append_eq_append_iff.mp hq with ⟨as, has, -⟩ | ⟨bs, rfl, hbs⟩
    · exact h.one i p ⟨as, has.symm⟩
    · have hrest := held_le_count i bs
      have hle := (List.prefix_append bs q).sublist.count_le (.acquire i)
      rw [← hbs] at hle
      rw [hcount] at hle
      have hnone := hone i
      have hbefore := h.one i _ (List.prefix_refl _)
      rw [held_append]
      by_cases hi : m.minorIdx ≤ i
      · have hlow := h.low i hi
        split at hnone <;> omega
      · rw [if_neg (by omega)] at hnone
        omega
  · rcases List.mem_append.mp hi with hold | hlast
    · obtain ⟨hpos, hlt⟩ := h.made i hold
      omega
    · obtain ⟨hle, hlt⟩ := hnew i hlast
      omega

theorem Module.Minors.step (h : m.Minors channels) (hst : (boards channels).step m e = some m') :
    m'.Minors channels ∧ Later m m' := by
  cases e with
  | probe dev env =>
    obtain ⟨-, r, hr, rfl⟩ := step_probe hst
    have hnumbers := @numbers_litepciePciProbe env channels (.start m.minorIdx)
    rw [← hr] at hnumbers
    obtain ⟨hnext, done, hlog, hcount, hgone⟩ := hnumbers
    obtain rfl : r.2.log = done := hlog
    obtain ⟨hlow, hone, hmade, hidx, hnew⟩ := h.extend m.probes hnext hcount hgone
    refine ⟨?_, hidx, _, minorsOf_append _ _, hnew⟩
    by_cases hret : r.1 = 0
    · have hprobe := @probe_succeeded env channels m.minorIdx (by rw [← hr, hret])
      rw [← hr] at hprobe
      obtain ⟨hbase, hnext⟩ := hprobe
      refine ⟨hlow, hone, hmade, h.start.trans hidx, fun b hb => ?_, ?_⟩
      · rw [if_pos hret] at hb
        rcases List.mem_append.mp hb with hb | hb
        · exact ⟨(h.within b hb).1, (h.within b hb).2.trans hidx⟩
        · rw [List.mem_singleton.mp hb]
          exact ⟨hbase ▸ h.start, by dsimp only; omega⟩
      · simp only [if_pos hret]
        refine List.pairwise_append.mpr ⟨h.apart, List.pairwise_singleton _ _, fun b hb b' hb' => ?_⟩
        have hbelow := (h.within b hb).2
        rw [List.mem_singleton.mp hb']
        dsimp only
        omega
    · refine ⟨hlow, hone, hmade, h.start.trans hidx, fun b hb => ?_, ?_⟩
      · rw [if_neg hret] at hb
        exact ⟨(h.within b hb).1, (h.within b hb).2.trans hidx⟩
      · simp only [if_neg hret]
        exact h.apart
  | remove dev =>
    obtain ⟨b, hb, rfl⟩ := step_remove hst
    obtain ⟨-, done, hlog, hdone⟩ := @isPlain_litepciePciRemove b.env { b.state with log := [] }
    obtain rfl : b.removal = done := hlog
    have hcount (i : Int) : b.removal.count (.acquire (.node i)) = 0 :=
      List.count_eq_zero_of_not_mem (hdone i)
    obtain ⟨hlow, hone, hmade, hidx, hnew⟩ := h.extend b.probe (.inl rfl)
      (fun i => by rw [hcount]; exact Nat.zero_le _) fun _ i => by
        have hheld := held_le_count (.node i) b.removal
        rw [hcount] at hheld
        exact hheld
    exact ⟨⟨hlow, hone, hmade, h.start, fun b hb => h.within b (List.mem_of_mem_filter hb),
      h.apart.filter _⟩, hidx, _, minorsOf_append _ _, hnew⟩

theorem Later.refl (m : Module) : Later m m :=
  ⟨Int.le_refl _, [], (List.append_nil _).symm, fun i hm => by cases hm⟩

theorem Later.trans (h : Later m m') (h' : Later m' m'') : Later m m'' := by
  obtain ⟨hidx, new, hlog, hnew⟩ := h
  obtain ⟨hidx', new', hlog', hnew'⟩ := h'
  refine ⟨hidx.trans hidx', new ++ new', by rw [hlog', hlog, List.append_assoc], fun i hm => ?_⟩
  rcases List.mem_append.mp hm with hm | hm
  · exact hnew i hm
  · exact hidx.trans (hnew' i hm)

theorem Module.Minors.run (h : m.Minors channels) (hrun : (boards channels).run es m = some m') :
    m'.Minors channels ∧ Later m m' := by
  induction es generalizing m with
  | nil =>
    obtain rfl := Option.some.inj hrun
    exact ⟨h, .refl m⟩
  | cons e es ih =>
    obtain ⟨m₁, hst, hrun⟩ := Machine.run_cons.mp hrun
    obtain ⟨hminors, hlater⟩ := h.step hst
    obtain ⟨hend, hrest⟩ := ih hminors hrun
    exact ⟨hend, hlater.trans hrest⟩

end

theorem minorsOf_eq_nil {log : List (Entry Owned)} (h : ∀ e ∈ log, e.res.owner = none) :
    minorsOf log = [] := by
  refine List.filterMap_eq_nil_iff.mpr fun e he => ?_
  have howner := h e he
  cases e with
  | acquire r => cases r <;> first | rfl | cases howner
  | release r => cases r <;> first | rfl | cases howner

theorem minors_init (env : InitEnv) (channels : Nat) : (litepcieModuleInit env).2.Minors channels := by
  obtain ⟨hbound, hidx, hlog⟩ := init_empty env
  have hnil := minorsOf_eq_nil hlog
  refine ⟨fun i _ => ?_, fun i p hp => ?_, fun i hi => ?_, hidx.ge, fun b hb => ?_, ?_⟩
  · rw [hnil, held_nil]
  · rw [hnil, List.prefix_nil] at hp
    rw [hp, held_nil]
    decide
  · rw [hnil] at hi
    cases hi
  · rw [hbound] at hb
    cases hb
  · rw [hbound]
    exact .nil

/-- `MKDEV(litepcie_major, index)`, a macro of the kernel. -/
def mkdev (major : Nat) (index : BitVec 32) : BitVec 32 := BitVec.ofNat 32 major <<< 20 ||| index

/-- The `index` of the `k`-th node of a board, an `int`. -/
def Bound.index (b : Bound) (k : Nat) : BitVec 32 := BitVec.ofInt 32 (b.state.minorBase + (k : Int))

/-- The minors until now, and those of one more board, fit into a device number. So
`litepcie_minor_idx` has not overflowed. -/
def Module.Fits (channels : Nat) (m : Module) : Prop := m.minorIdx + channels ≤ 2 ^ 20

/-- The device numbers for which nodes are created and removed. -/
def devsOf (major : Nat) (log : List (Entry Owned)) : List (Entry (BitVec 32)) :=
  (minorsOf log).map (Entry.map fun i => mkdev major (BitVec.ofInt 32 i))

section

variable {channels major : Nat} {m m' : Module} {i j : Int}

/-- The bits of the minor are below those of the major number. -/
theorem mkdev_injective {x y : BitVec 32} (hx : x.toNat < 2 ^ 20) (hy : y.toNat < 2 ^ 20)
    (h : mkdev major x = mkdev major y) : x = y := by
  refine BitVec.eq_of_getLsbD_eq fun k _ => ?_
  by_cases hk : k < 20
  · have hbit := congrArg (fun z : BitVec 32 => z.getLsbD k) h
    simpa [mkdev, hk] using hbit
  · have hle : 2 ^ 20 ≤ 2 ^ k := Nat.pow_le_pow_right (by decide) (Nat.not_lt.mp hk)
    rw [BitVec.getLsbD, BitVec.getLsbD, Nat.testBit_lt_two_pow (hx.trans_le hle),
      Nat.testBit_lt_two_pow (hy.trans_le hle)]

/-- Minors that fit are the values of their `int`. -/
theorem toNat_ofInt_minor (h0 : 0 ≤ i) (h : i < 2 ^ 20) : ((BitVec.ofInt 32 i).toNat : Int) = i := by
  rw [BitVec.toNat_ofInt]
  omega

theorem devs_injective (hi : 0 ≤ i ∧ i < 2 ^ 20) (hj : 0 ≤ j ∧ j < 2 ^ 20)
    (h : mkdev major (BitVec.ofInt 32 i) = mkdev major (BitVec.ofInt 32 j)) : i = j := by
  have hi' := toNat_ofInt_minor hi.1 hi.2
  have hj' := toNat_ofInt_minor hj.1 hj.2
  have heq := congrArg BitVec.toNat (mkdev_injective (by omega) (by omega) h)
  omega

theorem Module.Minors.node_fits (h : m.Minors channels) (hfits : m.Fits channels) {b : Bound}
    (hb : b ∈ m.bound) {k : Nat} (hk : k < channels) :
    0 ≤ b.state.minorBase + (k : Int) ∧ b.state.minorBase + (k : Int) < 2 ^ 20 := by
  obtain ⟨hpos, hle⟩ := h.within b hb
  unfold Module.Fits at hfits
  omega

/-- A node has its device number alone. -/
theorem Module.Minors.devs_one (h : m.Minors channels) (hfits : m.Fits channels) {d : BitVec 32}
    {p : List (Entry (BitVec 32))} (hp : p <+: devsOf major m.log) : held d p ≤ 1 := by
  obtain ⟨q, hq, rfl⟩ := List.prefix_map_iff.mp hp
  have hmade : ∀ i, .acquire i ∈ q → 0 ≤ i ∧ i < 2 ^ 20 := by
    intro i hi
    obtain ⟨hpos, hlt⟩ := h.made i (hq.subset hi)
    unfold Module.Fits at hfits
    omega
  by_cases hd : ∃ i, .acquire i ∈ q ∧ mkdev major (BitVec.ofInt 32 i) = d
  · obtain ⟨i, hi, rfl⟩ := hd
    exact (held_map_le fun j hj heq => devs_injective (hmade j hj) (hmade i hi) heq).trans
      (h.one i q hq)
  · exact (held_map_nonpos fun i hi heq => hd ⟨i, hi, heq⟩).trans (by decide)

end

/-- As long as the minors fit: at any time each device number is that of at most one node, those of
the boards with the driver are different, and none of them is ever given to another node. -/
theorem minors_exclusive {channels major : Nat} {env : InitEnv} {es : List BoardEvent} {m : Module}
    (hrun : (boards channels).run es (litepcieModuleInit env).2 = some m) (hfits : m.Fits channels) :
    (∀ d p, p <+: devsOf major m.log → held d p ≤ 1) ∧
      m.bound.Pairwise (fun (b b' : Bound) => ∀ k k', k < channels → k' < channels →
        mkdev major (b.index k) ≠ mkdev major (b'.index k')) ∧
      ∀ es' m', (boards channels).run es' m = some m' → m'.Fits channels →
        ∃ new, devsOf major m'.log = devsOf major m.log ++ new ∧
          ∀ b ∈ m.bound, ∀ k, k < channels → .acquire (mkdev major (b.index k)) ∉ new := by
  have hminors := ((minors_init env channels).run hrun).1
  refine ⟨fun d p hp => hminors.devs_one hfits hp, ?_, fun es' m' hrun' hfits' => ?_⟩
  · refine hminors.apart.imp_of_mem fun {b b'} hb hb' hapart k k' hk hk' heq => ?_
    have hsame := devs_injective (hminors.node_fits hfits hb hk) (hminors.node_fits hfits hb' hk') heq
    omega
  · obtain ⟨hminors', -, new, hlog, hnew⟩ := hminors.run hrun'
    refine ⟨new.map (Entry.map fun i => mkdev major (BitVec.ofInt 32 i)), ?_, fun b hb k hk hm => ?_⟩
    · rw [devsOf, hlog, List.map_append]
      rfl
    · obtain ⟨e, he, heq⟩ := List.mem_map.mp hm
      cases e with
      | release i => cases heq
      | acquire i =>
        have hmade := hminors'.made i (by rw [hlog]; exact List.mem_append_right _ he)
        have hlow := hnew i he
        obtain ⟨-, hbelow⟩ := hminors.within b hb
        unfold Module.Fits at hfits'
        have hsame := devs_injective ⟨hmade.1, by omega⟩ (hminors.node_fits hfits hb hk)
          (Entry.acquire.inj heq)
        omega

/-- Two boards of which one is removed and comes back, and then it is removed again for a third one. -/
theorem minors_exclusive_two :
    ∃ m m', (boards 1).run twoBoards (litepcieModuleInit ⟨.ptr, 0, 0⟩).2 = some m ∧
      (boards 1).run [.remove 0, .probe 2 (busyIrq 5)] m = some m' ∧ m.minorIdx = 3 ∧
      (∀ d p, p <+: devsOf 240 m.log → held d p ≤ 1) ∧
      ∃ new, devsOf 240 m'.log = devsOf 240 m.log ++ new ∧
        ∀ b ∈ m.bound, ∀ k, k < 1 → .acquire (mkdev 240 (b.index k)) ∉ new := by
  have hfits : ∀ x : Int, x ≤ 4 → x + (1 : Nat) ≤ 2 ^ 20 := by omega
  obtain ⟨m, m', hrun, hrun', hidx, hidx'⟩ : ∃ m m',
      (boards 1).run twoBoards (litepcieModuleInit ⟨.ptr, 0, 0⟩).2 = some m ∧
      (boards 1).run [.remove 0, .probe 2 (busyIrq 5)] m = some m' ∧ m.minorIdx = 3 ∧
      m'.minorIdx = 4 := ⟨_, _, rfl, rfl, rfl, rfl⟩
  obtain ⟨hone, -, hlater⟩ := @minors_exclusive 1 240 ⟨.ptr, 0, 0⟩ twoBoards m hrun
    (hfits _ (by rw [hidx]; decide))
  exact ⟨m, m', hrun, hrun', hidx, hone, hlater _ m' hrun' (hfits _ hidx'.le)⟩

end Kernel
end Xtrx
