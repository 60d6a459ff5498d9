import Mathlib.Data.List.Infix
import Mathlib.Logic.Function.Basic

/-!
# Channels between two tasks

A first-in-first-out channel with one task that puts and one that takes. With a positive capacity it
holds that many items; with capacity 0 the item of the putting task waits in it until it is taken,
and only then the put is complete (`PutDone`). A closed channel takes no more items; the ones that
it holds can still be taken.

* `put`, `take`, `close`: the operations; `none` where the task has to wait.
* `taken`: the record of the items that were taken; `sent` of those that were put.
* `ByPutter`, `ByTaker`: what one side may do to the channel of the other.
-/

namespace Conc

structure Channel (α : Type) where
  cap : Nat
  data : List α
  isOpen : Bool
  taken : List α
  bounded : data.length ≤ max cap 1

namespace Channel

variable {α : Type} {c c' : Channel α} {x : α}

/-- A fresh channel. -/
def new (cap : Nat) : Channel α := ⟨cap, [], true, [], Nat.zero_le _⟩

/-- All items that were put. -/
def sent (c : Channel α) : List α := c.taken ++ c.data

/-- Put an item, if the channel is open and has room. -/
def put (x : α) (c : Channel α) : Option (Channel α) :=
  if h : c.isOpen ∧ c.data.length < max c.cap 1 then
    some ⟨c.cap, c.data ++ [x], c.isOpen, c.taken, by rw [List.length_append]; exact h.2⟩
  else none

/-- The last put is complete: without capacity its item has been taken. -/
def PutDone (c : Channel α) : Prop := c.cap = 0 → c.data = []

instance (c : Channel α) : Decidable c.PutDone :=
  decidable_of_iff (c.cap ≠ 0 ∨ c.data.isEmpty) (by rw [PutDone, List.isEmpty_iff, imp_iff_not_or])

/-- Take the first item, if there is one. -/
def take (c : Channel α) : Option (α × Channel α) :=
  match h : c.data with
  | [] => none
  | x :: data => some (x, ⟨c.cap, data, c.isOpen, c.taken ++ [x], by
      have := c.bounded
      rw [h, List.length_cons] at this
      omega⟩)

def close (c : Channel α) : Channel α := { c with isOpen := false }

/-- Steps of the side that puts: items are added at the end, as long as the channel is open. -/
structure ByPutter (c c' : Channel α) : Prop where
  cap : c'.cap = c.cap
  taken : c'.taken = c.taken
  data : c.data <+: c'.data
  closed : c.isOpen = false → c' = c

/-- Steps of the side that takes: items move to the record. -/
structure ByTaker (c c' : Channel α) : Prop where
  cap : c'.cap = c.cap
  sent : c'.sent = c.sent
  isOpen : c'.isOpen = c.isOpen
  data : c'.data <:+ c.data

/-- What `put` does. -/
structure Puts (c : Channel α) (x : α) (c' : Channel α) : Prop where
  wasOpen : c.isOpen = true
  data : c'.data = c.data ++ [x]
  cap : c'.cap = c.cap
  isOpen : c'.isOpen = c.isOpen
  taken : c'.taken = c.taken

/-- What `take` does. -/
structure Takes (c : Channel α) (x : α) (c' : Channel α) : Prop where
  data : c.data = x :: c'.data
  cap : c'.cap = c.cap
  isOpen : c'.isOpen = c.isOpen
  taken : c'.taken = c.taken ++ [x]

theorem puts_of_put (h : c.put x = some c') : c.Puts x c' := by
  unfold put at h
  split at h
  · rename_i ho
    cases h
    exact ⟨ho.1, rfl, rfl, rfl, rfl⟩
  · cases h

theorem takes_of_take (h : c.take = some (x, c')) : c.Takes x c' := by
  unfold take at h
  split at h
  · cases h
  · rename_i hd
    cases h
    exact ⟨hd, rfl, rfl, rfl⟩

theorem take_eq_none : c.take = none ↔ c.data = [] := by
  unfold take
  split
  · rename_i h
    simp [h]
  · rename_i h
    simp [h]

/-- An open channel without items has room. -/
theorem exists_put (ho : c.isOpen = true) (hd : c.data = []) (x : α) : ∃ c', c.put x = some c' := by
  refine ⟨_, dif_pos ⟨ho, ?_⟩⟩
  rw [hd, List.length_nil]
  omega

@[simp] theorem sent_close : c.close.sent = c.sent := rfl

theorem Puts.sent (h : c.Puts x c') : c'.sent = c.sent ++ [x] := by
  rw [Channel.sent, h.taken, h.data]
  exact (List.append_assoc ..).symm

/-- The items after a put are those before and the new one. -/
theorem Puts.sent_cases (h : c.Puts x c') {j : Nat} {y : α} (hj : c'.sent[j]? = some y) :
    c.sent[j]? = some y ∨ j = c.sent.length ∧ y = x := by
  rw [h.sent] at hj
  rcases Nat.lt_or_ge j c.sent.length with hlt | hge
  · rw [List.getElem?_append_left hlt] at hj
    exact .inl hj
  · rw [List.getElem?_append_right hge, List.getElem?_singleton] at hj
    split at hj
    · cases hj
      exact .inr ⟨by omega, rfl⟩
    · cases hj

theorem Takes.sent (h : c.Takes x c') : c'.sent = c.sent := by
  simp [Channel.sent, h.taken, h.data]

theorem taken_prefix_sent (c : Channel α) : c.taken <+: c.sent := List.prefix_append ..

/-- Without items on their way everything is taken. -/
theorem taken_eq_sent (h : c.data = []) : c.taken = c.sent := by
  rw [sent, h, List.append_nil]

theorem ByPutter.refl (c : Channel α) : ByPutter c c := ⟨rfl, rfl, List.prefix_refl _, fun _ => rfl⟩

theorem ByTaker.refl (c : Channel α) : ByTaker c c := ⟨rfl, rfl, rfl, List.suffix_refl _⟩

theorem Puts.byPutter (h : c.Puts x c') : ByPutter c c' where
  cap := h.cap
  taken := h.taken
  data := h.data ▸ List.prefix_append ..
  closed := fun hc => by
    rw [h.wasOpen] at hc
    cases hc

theorem byPutter_close : ByPutter c c.close := by
  refine ⟨rfl, rfl, List.prefix_refl _, fun h => ?_⟩
  cases c
  cases h
  rfl

theorem Takes.byTaker (h : c.Takes x c') : ByTaker c c' where
  cap := h.cap
  sent := h.sent
  isOpen := h.isOpen
  data := h.data ▸ List.suffix_cons ..

/-- Of many channels one changes. -/
theorem ByPutter.update {ι : Type} [DecidableEq ι] {f : ι → Channel α} {i : ι} (h : ByPutter (f i) c)
    (j : ι) : ByPutter (f j) (Function.update f i c j) := by
  by_cases hj : j = i
  · subst hj
    rw [Function.update_self]
    exact h
  · rw [Function.update_of_ne hj]
    exact .refl _

theorem ByTaker.update {ι : Type} [DecidableEq ι] {f : ι → Channel α} {i : ι} (h : ByTaker (f i) c)
    (j : ι) : ByTaker (f j) (Function.update f i c j) := by
  by_cases hj : j = i
  · subst hj
    rw [Function.update_self]
    exact h
  · rw [Function.update_of_ne hj]
    exact .refl _

theorem ByTaker.putDone (h : ByTaker c c') (hp : c.PutDone) : c'.PutDone := by
  intro hc
  have := h.data
  rw [hp (h.cap ▸ hc), List.suffix_nil] at this
  exact this

end Channel

end Conc
