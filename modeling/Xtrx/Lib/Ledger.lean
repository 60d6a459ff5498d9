import Mathlib.Data.List.Count
import Mathlib.Data.List.Infix
import Mathlib.Data.List.Nodup

/-!
# Acquired and released resources

A ledger is the record of what a program acquired and released, in order.

* `held`: how often a resource was acquired, minus how often it was released.
* `Settled`: each resource is released only if it was acquired, and exactly once.
* `Settled.wrap`: a resource that is acquired before and released behind a settled ledger.
* `settled_of_perm`: everything is acquired, and then everything is released, in any order.
* `settled_iff_parts`: the parts of a ledger about disjoint kinds of resources can be taken by themselves.
* `not_settled_of_kept`: a resource that was acquired and is not released; `not_settled_of_stray`: the
  other way round.
-/

namespace Conc

inductive Entry (R : Type) where
  | acquire (r : R)
  | release (r : R)
  deriving DecidableEq

namespace Entry

variable {R S : Type}

def res : Entry R → R
  | acquire r => r
  | release r => r

def map (f : R → S) : Entry R → Entry S
  | acquire r => acquire (f r)
  | release r => release (f r)

@[simp] theorem res_map (f : R → S) (e : Entry R) : (e.map f).res = f e.res := by cases e <;> rfl

theorem map_injective {f : R → S} (hf : Function.Injective f) : Function.Injective (map f) := by
  intro a b h
  cases a with
  | acquire r =>
    cases b with
    | acquire s => exact congrArg acquire (hf (acquire.inj h))
    | release s => cases h
  | release r =>
    cases b with
    | acquire s => cases h
    | release s => exact congrArg release (hf (release.inj h))

end Entry

namespace Ledger

/-- The prefixes of a ledger between an acquisition and a release. -/
theorem prefix_wrap {R : Type} {l p : List (Entry R)} {a b : Entry R} (h : p <+: a :: (l ++ [b])) :
    p = [] ∨ ∃ q, p = a :: q ∧ (q <+: l ∨ q = l ++ [b]) := by
  rcases List.prefix_cons_iff.mp h with rfl | ⟨q, rfl, hq⟩
  · exact .inl rfl
  · refine .inr ⟨q, rfl, ?_⟩
    rcases List.prefix_concat_iff.mp hq with rfl | hq
    · exact .inr rfl
    · exact .inl hq

variable {R : Type} [DecidableEq R]

def held (r : R) (l : List (Entry R)) : Int := (l.count (.acquire r) : Int) - l.count (.release r)

structure Settled (l : List (Entry R)) : Prop where
  within : ∀ r p, p <+: l → 0 ≤ held r p ∧ held r p ≤ 1
  left : ∀ r, held r l = 0

variable {l l' : List (Entry R)} {r r' : R}

@[simp] theorem held_nil (r : R) : held r [] = 0 := rfl

@[simp] theorem held_append (r : R) (l l' : List (Entry R)) :
    held r (l ++ l') = held r l + held r l' := by
  simp only [held, List.count_append]
  omega

theorem held_cons (r : R) (e : Entry R) (l : List (Entry R)) :
    held r (e :: l) = held r [e] + held r l := held_append r [e] l

theorem held_acquire (r r' : R) : held r' [.acquire r] = if r = r' then 1 else 0 := by
  by_cases h : r = r'
  · simp [held, h]
  · simp [held, h]

theorem held_release (r r' : R) : held r' [.release r] = if r = r' then -1 else 0 := by
  by_cases h : r = r'
  · simp [held, h]
  · simp [held, h]

/-- A resource that does not occur. -/
theorem held_eq_zero (ha : Entry.acquire r ∉ l) (hr : Entry.release r ∉ l) : held r l = 0 := by
  rw [held, List.count_eq_zero_of_not_mem ha, List.count_eq_zero_of_not_mem hr]
  rfl

theorem settled_nil : Settled ([] : List (Entry R)) where
  within := fun r p hp => by
    rw [List.prefix_nil.mp hp]
    exact ⟨Int.le_refl 0, Int.zero_le_ofNat 1⟩
  left := held_nil

theorem Settled.wrap (h : Settled l) (ha : Entry.acquire r ∉ l) (hr : Entry.release r ∉ l) :
    Settled (.acquire r :: (l ++ [.release r])) where
  within := by
    intro r' p hp
    rcases prefix_wrap hp with rfl | ⟨q, rfl, hq | rfl⟩
    · exact settled_nil.within r' [] (List.prefix_refl [])
    · have hw := h.within r' q hq
      rw [held_cons, held_acquire]
      by_cases he : r = r'
      · subst he
        have hz : held r q = 0 := held_eq_zero (fun hm => ha (hq.mem hm)) fun hm => hr (hq.mem hm)
        rw [if_pos rfl, hz]
        omega
      · rw [if_neg he]
        omega
    · rw [held_cons, held_append, h.left, held_acquire, held_release]
      by_cases he : r = r'
      · simp [he]
      · simp [he]
  left := by
    intro r'
    rw [held_cons, held_append, h.left, held_acquire, held_release]
    by_cases he : r = r'
    · simp [he]
    · simp [he]

theorem not_settled_of_kept (ha : Entry.acquire r ∈ l) (hr : Entry.release r ∉ l) : ¬ Settled l := by
  intro h
  have hz := h.left r
  have hpos := List.count_pos_iff.mpr ha
  rw [held, List.count_eq_zero_of_not_mem hr] at hz
  omega

theorem not_settled_of_stray (hr : Entry.release r ∈ l) (ha : Entry.acquire r ∉ l) : ¬ Settled l := by
  intro h
  have hz := h.left r
  have hpos := List.count_pos_iff.mpr hr
  rw [held, List.count_eq_zero_of_not_mem ha] at hz
  omega

theorem count_acquires (r : R) (rs : List R) : (rs.map Entry.acquire).count (.acquire r) = rs.count r :=
  List.count_map_of_injective rs _ (fun _ _ h => Entry.acquire.inj h) r

theorem count_releases (r : R) (rs : List R) : (rs.map Entry.release).count (.release r) = rs.count r :=
  List.count_map_of_injective rs _ (fun _ _ h => Entry.release.inj h) r

theorem held_acquires (r : R) (rs : List R) : held r (rs.map .acquire) = rs.count r := by
  have hz : (rs.map Entry.acquire).count (.release r) = 0 := List.count_eq_zero_of_not_mem (by simp)
  rw [held, count_acquires, hz, Int.natCast_zero, Int.sub_zero]

theorem held_releases (r : R) (rs : List R) : held r (rs.map .release) = -(rs.count r : Int) := by
  have hz : (rs.map Entry.release).count (.acquire r) = 0 := List.count_eq_zero_of_not_mem (by simp)
  rw [held, count_releases, hz, Int.natCast_zero, Int.zero_sub]

theorem settled_of_perm {rs rs' : List R} (hn : rs.Nodup) (hp : rs.Perm rs') :
    Settled (rs.map .acquire ++ rs'.map .release) where
  within := by
    intro r p ⟨q, hq⟩
    have hone := List.nodup_iff_count_le_one.mp hn r
    rcases List.append_eq_append_iff.mp hq with ⟨as, has, -⟩ | ⟨bs, hbs, hrel⟩
    · -- in the first half
      obtain ⟨ps, qs, hps, rfl, -⟩ := List.map_eq_append_iff.mp has
      have hle : ps.count r ≤ rs.count r := by
        rw [hps, List.count_append]
        exact Nat.le_add_right _ _
      rw [held_acquires]
      omega
    · obtain ⟨ps, qs, hps, rfl, -⟩ := List.map_eq_append_iff.mp hrel
      have hle : ps.count r ≤ rs.count r := by
        rw [hp.count_eq r, hps, List.count_append]
        exact Nat.le_add_right _ _
      rw [hbs, held_append, held_acquires, held_releases]
      omega
  left := by
    intro r
    rw [held_append, held_acquires, held_releases, hp.count_eq r]
    omega

/-! ## Parts -/

theorem held_filter (q : R → Bool) (r : R) (l : List (Entry R)) :
    held r (l.filter fun e => q e.res) = if q r then held r l else 0 := by
  by_cases hq : q r
  · have hcount (e : Entry R) (he : e.res = r) :
        (l.filter fun e => q e.res).count e = l.count e := by
      subst he
      exact List.count_filter hq
    rw [if_pos hq, held, held, hcount _ rfl, hcount _ rfl]
  · rw [if_neg hq]
    exact held_eq_zero (fun hm => hq (List.mem_filter.mp hm).2) fun hm => hq (List.mem_filter.mp hm).2

theorem settled_iff_parts {C : Type} [DecidableEq C] (part : R → C) :
    Settled l ↔ ∀ c, Settled (l.filter fun e => part e.res = c) := by
  have hheld (c : C) (r : R) (l : List (Entry R)) :
      held r (l.filter fun e => part e.res = c) = if part r = c then held r l else 0 := by
    simpa using held_filter (fun r => decide (part r = c)) r l
  constructor
  · refine fun h c => ⟨fun r p hp => ?_, fun r => ?_⟩
    · obtain ⟨p', hp', rfl⟩ := List.prefix_filter_iff.mp hp
      rw [hheld]
      split
      · exact h.within r p' hp'
      · omega
    · rw [hheld, h.left]
      exact ite_self 0
  · refine fun h => ⟨fun r p hp => ?_, fun r => ?_⟩
    · have hw := (h (part r)).within r _ (List.IsPrefix.filter _ hp)
      rwa [hheld, if_pos rfl] at hw
    · have hz := (h (part r)).left r
      rwa [hheld, if_pos rfl] at hz

/-- What is held under another name: no more, if nothing else that was acquired has this name. -/
theorem held_map_le {S : Type} [DecidableEq S] {f : R → S}
    (h : ∀ r', Entry.acquire r' ∈ l → f r' = f r → r' = r) :
    held (f r) (l.map (Entry.map f)) ≤ held r l := by
  have hacquired : (l.map (Entry.map f)).count (.acquire (f r)) ≤ l.count (.acquire r) := by
    rw [List.count, List.count, List.countP_map]
    refine List.countP_mono_left fun e he heq => ?_
    cases e with
    | acquire r' =>
      rw [h r' he (Entry.acquire.inj (eq_of_beq heq))]
      exact beq_self_eq_true _
    | release r' => cases eq_of_beq heq
  have hreleased : l.count (.release r) ≤ (l.map (Entry.map f)).count (.release (f r)) :=
    List.count_le_count_map (f := Entry.map f) (x := Entry.release r)
  unfold held
  omega

omit [DecidableEq R] in
theorem held_map_nonpos {S : Type} [DecidableEq S] {f : R → S} {s : S}
    (h : ∀ r, Entry.acquire r ∈ l → f r ≠ s) : held s (l.map (Entry.map f)) ≤ 0 := by
  have hnone : (l.map (Entry.map f)).count (.acquire s) = 0 := by
    refine List.count_eq_zero_of_not_mem fun hm => ?_
    obtain ⟨e, he, heq⟩ := List.mem_map.mp hm
    cases e with
    | acquire r => exact h r he (Entry.acquire.inj heq)
    | release r => cases heq
  unfold held
  omega

theorem settled_map {S : Type} [DecidableEq S] {f : R → S} (hf : Function.Injective f) :
    Settled (l.map (Entry.map f)) ↔ Settled l := by
  have hheld (r : R) (l : List (Entry R)) : held (f r) (l.map (Entry.map f)) = held r l := by
    have hinj := Entry.map_injective hf
    show ((l.map (Entry.map f)).count ((Entry.acquire r).map f) : Int) -
      (l.map (Entry.map f)).count ((Entry.release r).map f) = _
    rw [List.count_map_of_injective l _ hinj, List.count_map_of_injective l _ hinj]
    rfl
  have hother {s : S} (hs : ∀ r, f r ≠ s) (l : List (Entry R)) : held s (l.map (Entry.map f)) = 0 := by
    refine held_eq_zero (fun hm => ?_) fun hm => ?_
    · obtain ⟨e, -, he⟩ := List.mem_map.mp hm
      exact hs e.res ((Entry.res_map f e).symm.trans (congrArg Entry.res he))
    · obtain ⟨e, -, he⟩ := List.mem_map.mp hm
      exact hs e.res ((Entry.res_map f e).symm.trans (congrArg Entry.res he))
  constructor
  · refine fun h => ⟨fun r p hp => ?_, fun r => ?_⟩
    · rw [← hheld]
      exact h.within (f r) _ (hp.map _)
    · rw [← hheld, h.left]
  · refine fun h => ⟨fun s p hp => ?_, fun s => ?_⟩
    · obtain ⟨p', hp', rfl⟩ := List.prefix_map_iff.mp hp
      by_cases hs : ∃ r, f r = s
      · obtain ⟨r, rfl⟩ := hs
        rw [hheld]
        exact h.within r p' hp'
      · rw [hother (fun r hr => hs ⟨r, hr⟩)]
        omega
    · by_cases hs : ∃ r, f r = s
      · obtain ⟨r, rfl⟩ := hs
        rw [hheld, h.left]
      · exact hother (fun r hr => hs ⟨r, hr⟩) l

end Ledger
end Conc
