import Mathlib.Logic.Function.Basic

/-!
# Locks that are taken by a test and a set

A client tests a lock. If it is free the client sets it later, whatever the lock is then: between
the two it is in the window. The owner of the lock clears it.

* `TestSet.Sound`: the lock is set exactly when it has an owner, it has one at most, and a client in
  the window is alone there and the lock is free.
* A client enters the window (`enter`), sets the lock (`set`), clears it (`release`). Only the first
  needs a condition to be sound: that no other client is in the window (`Sound.enter`).
-/

namespace Conc

/-- A lock, the clients that own it, and the clients between their test and their set. -/
structure TestSet (α : Type) where
  lock : Bool
  owner : α → Bool
  window : α → Bool

namespace TestSet

variable {α : Type}

structure Sound (s : TestSet α) : Prop where
  lock : s.lock = true ↔ ∃ h, s.owner h = true
  unique : ∀ h h', s.owner h = true → s.owner h' = true → h = h'
  free : ∀ h, s.window h = true → s.lock = false
  alone : ∀ h h', s.window h = true → s.window h' = true → h = h'

/-- A free lock has no owner. -/
theorem Sound.no_owner {s : TestSet α} (hs : s.Sound) (hl : s.lock = false) (g : α) :
    s.owner g = false := by
  cases ho : s.owner g with
  | false => rfl
  | true =>
    have := hs.lock.mpr ⟨g, ho⟩
    rw [hl] at this
    cases this

variable [DecidableEq α]

/-- The lock is `l` and the client `h` is an owner (`o`) and in the window (`w`). -/
def put (s : TestSet α) (h : α) (l o w : Bool) : TestSet α where
  lock := l
  owner := Function.update s.owner h o
  window := Function.update s.window h w

@[simp] theorem put_self (s : TestSet α) (h : α) :
    s.put h s.lock (s.owner h) (s.window h) = s := by
  simp [put]

/-- The test of `h` finds the lock free. -/
def enter (s : TestSet α) (h : α) : TestSet α := s.put h s.lock (s.owner h) true

def set (s : TestSet α) (h : α) : TestSet α := s.put h true true false

def release (s : TestSet α) (h : α) : TestSet α := s.put h false false (s.window h)

variable {s : TestSet α} {h : α}

theorem Sound.enter (hs : s.Sound) (hl : s.lock = false) (hw : ∀ g, s.window g = false) :
    (s.enter h).Sound := by
  have honly : ∀ g, (s.enter h).window g = true → g = h := by
    intro g hg
    by_contra hne
    simp [TestSet.enter, put, Function.update_of_ne hne, hw] at hg
  constructor
  · simpa [TestSet.enter, put] using hs.lock
  · simpa [TestSet.enter, put] using hs.unique
  · exact fun _ _ => hl
  · intro g g' hg hg'
    rw [honly g hg, honly g' hg']

theorem Sound.set (hs : s.Sound) (hw : s.window h = true) : (s.set h).Sound := by
  have hl : s.lock = false := hs.free h hw
  have howner : ∀ g, (s.set h).owner g = true ↔ g = h := by
    intro g
    by_cases hg : g = h
    · simp [TestSet.set, put, hg]
    · simp [TestSet.set, put, hg, hs.no_owner hl]
  have hwindow : ∀ g, (s.set h).window g = false := by
    intro g
    by_cases hg : g = h
    · simp [TestSet.set, put, hg]
    · cases hgw : s.window g with
      | false => simp [TestSet.set, put, hg, hgw]
      | true => exact absurd (hs.alone g h hgw hw) hg
  constructor
  · exact ⟨fun _ => ⟨h, (howner h).mpr rfl⟩, fun _ => rfl⟩
  · intro g g' hg hg'
    rw [(howner g).mp hg, (howner g').mp hg']
  · intro g hg
    rw [hwindow] at hg
    cases hg
  · intro g g' hg
    rw [hwindow] at hg
    cases hg

theorem Sound.release (hs : s.Sound) (ho : s.owner h = true) : (s.release h).Sound := by
  have howner : ∀ g, (s.release h).owner g = false := by
    intro g
    by_cases hg : g = h
    · simp [TestSet.release, put, hg]
    · cases hgo : s.owner g with
      | false => simp [TestSet.release, put, hg, hgo]
      | true => exact absurd (hs.unique g h hgo ho) hg
  have hwindow : (s.release h).window = s.window := by simp [TestSet.release, put]
  constructor
  · refine ⟨fun hl => (by cases hl), ?_⟩
    rintro ⟨g, hg⟩
    rw [howner] at hg
    cases hg
  · intro g g' hg
    rw [howner] at hg
    cases hg
  · exact fun _ _ => rfl
  · rw [hwindow]
    exact hs.alone

end TestSet

end Conc
