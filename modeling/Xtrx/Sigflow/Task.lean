import Xtrx.Lib.Channel

/-!
# The tasks between two channels (`libsigflow.jl`)

- **`Consume`**: the loop of `consume_channel`. Its test reads `isempty(c)` and, if that is true,
  `isopen(c)`: two reads, with steps of other tasks between them. A `take!` waits at an open channel
  without items and throws at a closed one, then the loop goes on with its test.
- **`Task`**: `membuffer`, `flowgate`, `tripwire`, `log_stream_xfer` and `tee`, each of them a loop
  whose body puts the item that was taken to the output, for `tee` to both outputs in turn. After
  the loop the outputs are closed. Messages to the log are left out.
- **`Task.Inv`**: the items taken from the input are the ones sent to an output and the one that the
  task holds for it; an output is open until the task closes it.
-/

namespace Xtrx
namespace Sigflow

open Conc

/-- The loop of `consume_channel`, whose body has the states `β`. -/
inductive Consume (β : Type) where
  | isempty
  | isopen
  | take
  | body (b : β)
  | left

variable {α β : Type}

/-- A step of the loop outside of its body. -/
def Consume.step (enter : α → β) (l : Consume β) (c : Channel α) : Option (Consume β × Channel α) :=
  match l with
  | .isempty => some (if c.data.isEmpty then .isopen else .take, c)
  | .isopen => some (if c.isOpen then .take else .left, c)
  | .take =>
    match c.take with
    | some (x, c) => some (.body (enter x), c)
    -- `InvalidStateException`: continue
    | none => if c.isOpen then none else some (.isempty, c)
  | .body _ => none
  | .left => none

/-- The loop is at its test or its `take!`. -/
inductive Consume.Looking : Consume β → Prop
  | isempty : Looking .isempty
  | isopen : Looking .isopen
  | take : Looking .take

theorem Consume.looking_of_ne {l : Consume β} (hbody : ∀ b, l ≠ .body b) (hleft : l ≠ .left) :
    l.Looking := by
  cases l with
  | isempty => exact .isempty
  | isopen => exact .isopen
  | take => exact .take
  | body b => exact absurd rfl (hbody b)
  | left => exact absurd rfl hleft

/-- A step of the loop takes an item, or it leaves the channel as it is: it leaves the loop at a
closed channel only. -/
theorem Consume.step_cases {enter : α → β} {l l' : Consume β} {c c' : Channel α}
    (h : l.step enter c = some (l', c')) :
    l.Looking ∧ ((∃ x, c.take = some (x, c') ∧ l = .take ∧ l' = .body (enter x)) ∨
      (c' = c ∧ (l'.Looking ∨ l = .isopen ∧ c.isOpen = false ∧ l' = .left))) := by
  cases l with
  | isempty =>
    cases h
    refine ⟨.isempty, .inr ⟨rfl, .inl ?_⟩⟩
    split
    · exact .isopen
    · exact .take
  | isopen =>
    cases h
    refine ⟨.isopen, .inr ⟨rfl, ?_⟩⟩
    cases ho : c.isOpen with
    | true => exact .inl .take
    | false => exact .inr ⟨rfl, rfl, rfl⟩
  | take =>
    refine ⟨.take, ?_⟩
    unfold step at h
    cases ht : c.take with
    | some r =>
      rw [ht] at h
      cases h
      exact .inl ⟨r.1, rfl, rfl, rfl⟩
    | none =>
      rw [ht] at h
      dsimp only at h
      split at h
      · cases h
      · cases h
        exact .inr ⟨rfl, .inl .isempty⟩
  | body b => cases h
  | left => cases h

/-- The loop waits at an open channel without items only. -/
theorem Consume.step_eq_none {enter : α → β} {l : Consume β} {c : Channel α} (hl : l.Looking)
    (h : l.step enter c = none) : c.isOpen = true ∧ c.data = [] := by
  cases hl with
  | isempty => cases h
  | isopen => cases h
  | take =>
    unfold step at h
    cases ht : c.take with
    | some r =>
      rw [ht] at h
      cases h
    | none =>
      rw [ht] at h
      dsimp only at h
      split at h
      · rename_i ho
        exact ⟨ho, Channel.take_eq_none.mp ht⟩
      · cases h

/-! ## Tasks -/

/-- The functions that start a task on an input; `ctl` is the number of an event. -/
inductive Task where
  | membuffer (maxSize : Nat)
  | flowgate (ctl : Nat)
  | tripwire (ctl : Nat)
  | logStreamXfer
  | tee
deriving DecidableEq

/-- The states of a body: before `wait(ctl)` or `notify(ctl)`, before and in a `put!`. -/
inductive Body (α : Type) where
  | ctl (x : α)
  | put (out : Bool) (x : α)
  | putting (out : Bool) (x : α)

/-- The states of a task; `closeSecond` is between the two `close` of `tee`. -/
inductive Pc (α : Type) where
  | loop (l : Consume (Body α))
  | closeSecond
  | done

namespace Task

/-- The capacity of the outputs. -/
def capacity : Task → Nat
  | membuffer maxSize => maxSize
  | _ => 0

/-- `tee` has the outputs `false` and `true`, the others `false` only. -/
def HasOut (k : Task) (b : Bool) : Prop := b = false ∨ k = tee

instance (k : Task) (b : Bool) : Decidable (k.HasOut b) := inferInstanceAs (Decidable (_ ∨ _))

/-- The first state of the body. -/
def enter (k : Task) (x : α) : Body α :=
  match k with
  | flowgate _ => .ctl x
  | tripwire _ => .ctl x
  | _ => .put false x

/-- The state after a `put!`. -/
def afterPut (k : Task) (b : Bool) (x : α) : Pc α :=
  if k = tee ∧ b = false then .loop (.body (.put true x)) else .loop .isempty

end Task

/-- What a task reads and writes. -/
structure View (α : Type) where
  inp : Channel α
  out : Bool → Channel α
  events : Nat → Bool
  pc : Pc α

/-- A step of a task, if it does not wait. -/
def Task.step (k : Task) (v : View α) : Option (View α) :=
  match v.pc with
  | .loop (.body (.ctl x)) =>
    match k with
    | flowgate ctl => if v.events ctl then some { v with pc := .loop (.body (.put false x)) } else none
    | tripwire ctl => some { v with
        events := Function.update v.events ctl true
        pc := .loop (.body (.put false x)) }
    | _ => none
  | .loop (.body (.put b x)) =>
    ((v.out b).put x).map fun c =>
      { v with out := Function.update v.out b c, pc := .loop (.body (.putting b x)) }
  | .loop (.body (.putting b x)) =>
    if (v.out b).PutDone then some { v with pc := k.afterPut b x } else none
  | .loop .left => some { v with
      out := Function.update v.out false (v.out false).close
      pc := if k = tee then .closeSecond else .done }
  | .loop l => (l.step k.enter v.inp).map fun r => { v with inp := r.2, pc := .loop r.1 }
  | .closeSecond => some { v with
      out := Function.update v.out true (v.out true).close
      pc := .done }
  | .done => none

/-- What a step of a task does. -/
inductive Task.Effect (k : Task) (v : View α) : View α → Prop
  | look {l l'} (hpc : v.pc = .loop l) (hl : l.Looking) (hl' : l'.Looking) :
    Effect k v { v with pc := .loop l' }
  | leave (hpc : v.pc = .loop .isopen) (hc : v.inp.isOpen = false) :
    Effect k v { v with pc := .loop .left }
  | take {x c} (hpc : v.pc = .loop .take) (ht : v.inp.take = some (x, c)) :
    Effect k v { v with inp := c, pc := .loop (.body (k.enter x)) }
  | wait {x ctl} (hpc : v.pc = .loop (.body (.ctl x))) (hk : k = flowgate ctl)
    (he : v.events ctl = true) : Effect k v { v with pc := .loop (.body (.put false x)) }
  | notify {x ctl} (hpc : v.pc = .loop (.body (.ctl x))) (hk : k = tripwire ctl) :
    Effect k v { v with
      events := Function.update v.events ctl true
      pc := .loop (.body (.put false x)) }
  | put {b x c} (hpc : v.pc = .loop (.body (.put b x))) (hp : (v.out b).put x = some c) :
    Effect k v { v with out := Function.update v.out b c, pc := .loop (.body (.putting b x)) }
  | putDone {b x} (hpc : v.pc = .loop (.body (.putting b x))) (hd : (v.out b).PutDone) :
    Effect k v { v with pc := k.afterPut b x }
  | close (hpc : v.pc = .loop .left) :
    Effect k v { v with
      out := Function.update v.out false (v.out false).close
      pc := if k = tee then .closeSecond else .done }
  | closeSecond (hpc : v.pc = .closeSecond) :
    Effect k v { v with out := Function.update v.out true (v.out true).close, pc := .done }

theorem Task.step_look {k : Task} {v v' : View α} {l : Consume (Body α)} (hpc : v.pc = .loop l)
    (h : (l.step k.enter v.inp).map (fun r => { v with inp := r.2, pc := .loop r.1 }) = some v') :
    k.Effect v v' := by
  obtain ⟨⟨l', c'⟩, hs, rfl⟩ := Option.map_eq_some_iff.mp h
  obtain ⟨hl, ⟨x, ht, rfl, rfl⟩ | ⟨rfl, hl' | ⟨rfl, hc, rfl⟩⟩⟩ := Consume.step_cases hs
  · exact .take hpc ht
  · exact .look hpc hl hl'
  · exact .leave hpc hc

/-- The steps of a task are those of the list. -/
theorem Task.step_effect {k : Task} {v v' : View α} (h : k.step v = some v') : k.Effect v v' := by
  unfold step at h
  split at h
  · rename_i x hpc
    cases k with
    | flowgate ctl =>
      dsimp only at h
      split at h
      · rename_i he
        cases h
        exact .wait hpc rfl he
      · cases h
    | tripwire ctl =>
      cases h
      exact .notify hpc rfl
    | membuffer => cases h
    | logStreamXfer => cases h
    | tee => cases h
  · rename_i b x hpc
    obtain ⟨c, hp, rfl⟩ := Option.map_eq_some_iff.mp h
    exact .put hpc hp
  · rename_i b x hpc
    split at h
    · rename_i hd
      cases h
      exact .putDone hpc hd
    · cases h
  · rename_i hpc
    cases h
    exact .close hpc
  · rename_i l _ _ _ _ hpc
    exact step_look hpc h
  · rename_i hpc
    cases h
    exact .closeSecond hpc
  · cases h

/-- A step of a task is one of the taking side for its input. -/
theorem Task.Effect.byTaker {k : Task} {v v' : View α} (h : k.Effect v v') :
    v.inp.ByTaker v'.inp := by
  cases h with
  | take _ ht => exact (Channel.takes_of_take ht).byTaker
  | _ => exact .refl _

/-- And one of the putting side for its outputs. -/
theorem Task.Effect.byPutter {k : Task} {v v' : View α} (h : k.Effect v v') (b : Bool) :
    (v.out b).ByPutter (v'.out b) := by
  cases h with
  | put _ hp => exact (Channel.puts_of_put hp).byPutter.update b
  | close => exact Channel.byPutter_close.update b
  | closeSecond => exact Channel.byPutter_close.update b
  | _ => exact .refl _

/-! ## The invariant of a task -/

namespace Pc

/-- What is taken and not yet put to the output `b`. -/
def owes : Pc α → Bool → List α
  | .loop (.body (.ctl x)), _ => [x]
  | .loop (.body (.put b' x)), b => if b' ≤ b then [x] else []
  | .loop (.body (.putting b' x)), b => if b' < b then [x] else []
  | _, _ => []

/-- At most one item is owed, to the second output as long as to the first one. -/
theorem owes_length (pc : Pc α) :
    (pc.owes false).length ≤ (pc.owes true).length ∧ (pc.owes true).length ≤ 1 := by
  cases pc with
  | loop l =>
    cases l with
    | body b =>
      cases b with
      | ctl x => exact ⟨Nat.le_refl 1, Nat.le_refl 1⟩
      | put b x =>
        cases b with
        | false => exact ⟨Nat.le_refl 1, Nat.le_refl 1⟩
        | true => exact ⟨Nat.zero_le 1, Nat.le_refl 1⟩
      | putting b x =>
        cases b with
        | false => exact ⟨Nat.zero_le 1, Nat.le_refl 1⟩
        | true => exact ⟨Nat.le_refl 0, Nat.zero_le 1⟩
    | _ => simp [owes]
  | _ => simp [owes]

/-- In a `put!` to the output `b`. -/
def Putting (pc : Pc α) (b : Bool) : Prop := ∃ x, pc = .loop (.body (.putting b x))

/-- The output `b` is not closed yet. -/
def opens : Pc α → Bool → Bool
  | .loop _, _ => true
  | .closeSecond, b => b
  | .done, _ => false

/-- After the loop. -/
def Left : Pc α → Prop
  | .loop .left => True
  | .loop _ => False
  | _ => True

end Pc

/-- The states that a task has. -/
def Task.HasPc (k : Task) : Pc α → Prop
  | .loop (.body (.ctl _)) => (∃ ctl, k = flowgate ctl) ∨ ∃ ctl, k = tripwire ctl
  | .loop (.body (.put b _)) => k.HasOut b
  | .loop (.body (.putting b _)) => k.HasOut b
  | .closeSecond => k = tee
  | _ => True

structure Task.Inv (k : Task) (v : View α) : Prop where
  hasPc : k.HasPc v.pc
  cap : ∀ b, k.HasOut b → (v.out b).cap = k.capacity
  sent : ∀ b, k.HasOut b → v.inp.taken = (v.out b).sent ++ v.pc.owes b
  putDone : ∀ b, k.HasOut b → ¬ v.pc.Putting b → (v.out b).PutDone
  isOpen : ∀ b, k.HasOut b → (v.out b).isOpen = v.pc.opens b
  closed : v.pc.Left → v.inp.isOpen = false

/-- The task before its first step. -/
theorem Task.inv_start (k : Task) (inp : Channel α) (events : Nat → Bool) (ht : inp.taken = []) :
    k.Inv ⟨inp, fun _ => .new k.capacity, events, .loop .isempty⟩ where
  hasPc := trivial
  cap := fun _ _ => rfl
  sent := fun _ _ => ht
  putDone := fun _ _ _ _ => rfl
  isOpen := fun _ _ => rfl
  closed := False.elim

/-- The other sides of the channels keep the invariant. -/
theorem Task.Inv.others {k : Task} {v v' : View α} (h : k.Inv v) (hpc : v'.pc = v.pc)
    (hinp : v.inp.ByPutter v'.inp) (hout : ∀ b, k.HasOut b → (v.out b).ByTaker (v'.out b)) :
    k.Inv v' where
  hasPc := hpc ▸ h.hasPc
  cap := fun b hb => (hout b hb).cap.trans (h.cap b hb)
  sent := fun b hb => by rw [hinp.taken, (hout b hb).sent, hpc, h.sent b hb]
  putDone := fun b hb hp => (hout b hb).putDone (h.putDone b hb (hpc ▸ hp))
  isOpen := fun b hb => by rw [(hout b hb).isOpen, hpc, h.isOpen b hb]
  closed := fun hl => by
    have hc := h.closed (hpc ▸ hl)
    rw [hinp.closed hc, hc]

/-- At its test or its `take!` a task owes nothing and all its puts are complete. -/
theorem Consume.Looking.owes {l : Consume (Body α)} (h : l.Looking) (b : Bool) :
    (Pc.loop l).owes b = [] ∧ ¬ (Pc.loop l).Putting b ∧ ¬ (Pc.loop l).Left := by
  cases h <;> exact ⟨rfl, (fun ⟨_, hx⟩ => by cases hx), id⟩

theorem Pc.Left.owes {pc : Pc α} (h : pc.Left) (b : Bool) : pc.owes b = [] := by
  cases pc with
  | loop l =>
    cases l with
    | left => rfl
    | _ => exact h.elim
  | _ => rfl

theorem Pc.Left.not_putting {pc : Pc α} {b : Bool} (h : pc.Left) : ¬ pc.Putting b := by
  rintro ⟨x, rfl⟩
  exact h

/-- A step that leaves the channels as they are. -/
theorem Task.Inv.move {k : Task} {v v' : View α} (h : k.Inv v) (hinp : v'.inp = v.inp)
    (hout : v'.out = v.out) (hpc : k.HasPc v'.pc)
    (howes : ∀ b, k.HasOut b → v'.pc.owes b = v.pc.owes b)
    (hput : ∀ b, k.HasOut b → v.pc.Putting b → ¬ v'.pc.Putting b → (v.out b).PutDone)
    (hopen : v'.pc.opens = v.pc.opens) (hleft : v'.pc.Left → v.inp.isOpen = false) : k.Inv v' where
  hasPc := hpc
  cap := fun b hb => by rw [hout, h.cap b hb]
  sent := fun b hb => by rw [hinp, hout, howes b hb, h.sent b hb]
  putDone := fun b hb hp => by
    rw [hout]
    by_cases hv : v.pc.Putting b
    · exact hput b hb hv hp
    · exact h.putDone b hb hv
  isOpen := fun b hb => by rw [hout, hopen, h.isOpen b hb]
  closed := fun hl => by rw [hinp, hleft hl]

/-- A step that changes the output `b`. -/
theorem Task.Inv.output {k : Task} {v : View α} {b : Bool} {c : Channel α} {pc : Pc α} (h : k.Inv v)
    (hpc : k.HasPc pc) (hcap : c.cap = (v.out b).cap)
    (hsent : c.sent ++ pc.owes b = (v.out b).sent ++ v.pc.owes b)
    (hput : k.HasOut b → ¬ pc.Putting b → c.PutDone) (hopen : k.HasOut b → c.isOpen = pc.opens b)
    (hother : ∀ b', k.HasOut b' → b' ≠ b →
      pc.owes b' = v.pc.owes b' ∧ ¬ v.pc.Putting b' ∧ pc.opens b' = v.pc.opens b')
    (hleft : pc.Left → v.inp.isOpen = false) :
    k.Inv { v with out := Function.update v.out b c, pc } := by
  refine ⟨hpc, fun b' hb' => ?_, fun b' hb' => ?_, fun b' hb' hp => ?_, fun b' hb' => ?_, hleft⟩
  all_goals
    dsimp only
    by_cases hbb : b' = b
  · rw [hbb, Function.update_self, hcap, h.cap b (hbb ▸ hb')]
  · rw [Function.update_of_ne hbb, h.cap b' hb']
  · rw [hbb, Function.update_self, hsent, h.sent b (hbb ▸ hb')]
  · rw [Function.update_of_ne hbb, (hother b' hb' hbb).1, h.sent b' hb']
  · rw [hbb, Function.update_self]
    exact hput (hbb ▸ hb') (hbb ▸ hp)
  · rw [Function.update_of_ne hbb]
    exact h.putDone b' hb' (hother b' hb' hbb).2.1
  · rw [hbb, Function.update_self, hopen (hbb ▸ hb')]
  · rw [Function.update_of_ne hbb, (hother b' hb' hbb).2.2, h.isOpen b' hb']

/-- What is owed after a `put!`. -/
theorem Task.owes_afterPut (k : Task) {b b' : Bool} (hb : k.HasOut b') (x : α) :
    (k.afterPut b x).owes b' = (Pc.loop (.body (.putting b x))).owes b' := by
  unfold Task.afterPut
  by_cases hk : k = tee ∧ b = false
  · rw [if_pos hk, hk.2]
    cases b' <;> rfl
  · rw [if_neg hk]
    cases b with
    | true => cases b' <;> rfl
    | false =>
      obtain rfl : b' = false := hb.resolve_right fun ht => hk ⟨ht, rfl⟩
      rfl

theorem Task.hasPc_afterPut (k : Task) (b : Bool) (x : α) : k.HasPc (k.afterPut b x) := by
  unfold Task.afterPut
  by_cases hk : k = tee ∧ b = false
  · rw [if_pos hk]
    exact .inr hk.1
  · rw [if_neg hk]
    trivial

/-- A task leaves its loop when it has read that its input is closed; after that it does not take. -/
theorem Task.Effect.left {k : Task} {v v' : View α} (h : k.Effect v v') (hl : v'.pc.Left) :
    v'.inp = v.inp ∧ (v.pc.Left ∨ v.pc = .loop .isopen ∧ v.inp.isOpen = false) := by
  cases h with
  | look _ _ hl' => exact absurd hl (hl'.owes false).2.2
  | leave hpc hc => exact ⟨rfl, .inr ⟨hpc, hc⟩⟩
  | close hpc => exact ⟨rfl, .inl (by rw [hpc]; trivial)⟩
  | closeSecond hpc => exact ⟨rfl, .inl (by rw [hpc]; trivial)⟩
  | @putDone b x _ _ =>
    refine absurd hl ?_
    show ¬ (k.afterPut b x).Left
    unfold Task.afterPut
    split <;> exact id
  | take => exact False.elim hl
  | wait => exact False.elim hl
  | notify => exact False.elim hl
  | put => exact False.elim hl

/-- After its loop a task does not take any more. -/
theorem Task.Effect.of_left {k : Task} {v v' : View α} (h : k.Effect v v') (hl : v.pc.Left) :
    v'.inp = v.inp ∧ v'.pc.Left := by
  have hno : ∀ {l : Consume (Body α)}, v.pc = .loop l → l ≠ .left → False := by
    intro l hpc hne
    rw [hpc] at hl
    cases l <;> first | exact hl | exact hne rfl
  cases h with
  | close hpc =>
    refine ⟨rfl, ?_⟩
    dsimp only
    split <;> trivial
  | closeSecond hpc => exact ⟨rfl, trivial⟩
  | look hpc hl' =>
    refine (hno hpc fun he => ?_).elim
    subst he
    cases hl'
  | leave hpc => exact (hno hpc nofun).elim
  | take hpc => exact (hno hpc nofun).elim
  | wait hpc => exact (hno hpc nofun).elim
  | notify hpc => exact (hno hpc nofun).elim
  | put hpc => exact (hno hpc nofun).elim
  | putDone hpc => exact (hno hpc nofun).elim

section

variable {k : Task} {v : View α} {b : Bool} {x : α} {c : Channel α}

theorem Task.Inv.look {l l' : Consume (Body α)} (h : k.Inv v) (hpc : v.pc = .loop l) (hl : l.Looking)
    (hl' : l'.Looking) : k.Inv { v with pc := .loop l' } := by
  refine h.move rfl rfl ?_ (fun b _ => ?_) (fun b _ hp => ?_) ?_ fun h' => absurd h' (hl'.owes false).2.2
  · cases hl' <;> trivial
  · rw [hpc, (hl.owes b).1, (hl'.owes b).1]
  · rw [hpc] at hp
    exact absurd hp (hl.owes b).2.1
  · rw [hpc]
    rfl

/-- Behind `wait` or `notify` the item is still owed. -/
theorem Task.Inv.pass {events : Nat → Bool} (h : k.Inv v) (hpc : v.pc = .loop (.body (.ctl x))) :
    k.Inv { v with events, pc := .loop (.body (.put false x)) } := by
  refine h.move rfl rfl (.inl rfl) (fun b _ => ?_) (fun _ _ hp => ?_) ?_ False.elim
  · rw [hpc]
    cases b <;> rfl
  · rw [hpc] at hp
    exact nomatch hp
  · rw [hpc]
    rfl

theorem Task.Inv.putDone_step (h : k.Inv v) (hpc : v.pc = .loop (.body (.putting b x)))
    (hd : (v.out b).PutDone) : k.Inv { v with pc := k.afterPut b x } := by
  refine h.move rfl rfl (k.hasPc_afterPut b x) (fun b' hb' => ?_) ?_ ?_ ?_
  · rw [hpc]
    exact k.owes_afterPut hb' x
  · rintro b' hb' ⟨x', hx⟩ -
    rw [hpc] at hx
    cases hx
    exact hd
  · rw [hpc]
    unfold Task.afterPut
    split <;> rfl
  · unfold Task.afterPut
    split <;> exact False.elim

/-- What is taken is owed to all outputs. -/
theorem Task.Inv.take (h : k.Inv v) (hpc : v.pc = .loop .take) (ht : v.inp.Takes x c) :
    k.Inv { v with inp := c, pc := .loop (.body (k.enter x)) } := by
  have howes : ∀ b, (Pc.loop (.body (k.enter x))).owes b = [x] := by
    intro b
    cases k <;> cases b <;> rfl
  refine ⟨?_, h.cap, fun b hb => ?_, fun b hb _ => ?_, fun b hb => ?_, False.elim⟩
  · cases k <;> simp [Task.HasPc, Task.enter, Task.HasOut]
  · have hs : v.inp.taken = (v.out b).sent ++ v.pc.owes b := h.sent b hb
    rw [hpc, show (Pc.loop .take).owes b = ([] : List α) from rfl, List.append_nil] at hs
    rw [howes, ← hs]
    exact ht.taken
  · refine h.putDone b hb fun ⟨_, hx⟩ => ?_
    cases hpc.symm.trans hx
  · exact (h.isOpen b hb).trans (by rw [hpc]; rfl)

theorem Task.Inv.put (h : k.Inv v) (hpc : v.pc = .loop (.body (.put b x))) (hp : (v.out b).Puts x c) :
    k.Inv { v with out := Function.update v.out b c, pc := .loop (.body (.putting b x)) } := by
  have hout := h.hasPc
  rw [hpc] at hout
  refine h.output hout hp.cap ?_ (fun _ hn => absurd ⟨x, rfl⟩ hn) (fun hb => ?_) (fun b' _ hbb => ?_)
    False.elim
  · rw [hpc, hp.sent]
    simp [Pc.owes]
  · rw [hp.isOpen, h.isOpen b hb, hpc]
    rfl
  · -- of the other output neither the items nor what is owed changes
    rw [hpc]
    refine ⟨?_, (fun ⟨_, hx⟩ => nomatch hx), rfl⟩
    cases b <;> cases b' <;> first | rfl | exact absurd rfl hbb

/-- Behind its loop a task owes nothing, and closes its outputs one after the other. -/
theorem Task.Inv.close_step {pc : Pc α} (h : k.Inv v) (hl : v.pc.Left) (hpc : k.HasPc pc) (hl' : pc.Left)
    (hopen : k.HasOut b → pc.opens b = false)
    (hother : ∀ b', k.HasOut b' → b' ≠ b → pc.opens b' = v.pc.opens b') :
    k.Inv { v with out := Function.update v.out b (v.out b).close, pc } := by
  refine h.output hpc rfl ?_ (fun hb _ => ?_) (fun hb => (hopen hb).symm) (fun b' hb' hbb => ?_)
    fun _ => h.closed hl
  · rw [hl.owes, hl'.owes]
    rfl
  · exact h.putDone b hb hl.not_putting
  · exact ⟨by rw [hl.owes, hl'.owes], hl.not_putting, hother b' hb' hbb⟩

end

/-- A task's own steps keep its invariant. -/
theorem Task.Inv.step {k : Task} {v v' : View α} (h : k.Inv v) (he : k.Effect v v') : k.Inv v' := by
  cases he with
  | look hpc hl hl' => exact h.look hpc hl hl'
  | leave hpc hc =>
    refine h.move rfl rfl trivial (fun _ _ => ?_) (fun _ _ hp => ?_) ?_ fun _ => hc
    · rw [hpc]
      rfl
    · rw [hpc] at hp
      exact nomatch hp
    · rw [hpc]
      rfl
  | take hpc ht => exact h.take hpc (Channel.takes_of_take ht)
  | wait hpc => exact h.pass hpc
  | notify hpc => exact h.pass hpc
  | put hpc hp => exact h.put hpc (Channel.puts_of_put hp)
  | putDone hpc hd => exact h.putDone_step hpc hd
  | close hpc =>
    have hl : v.pc.Left := hpc ▸ trivial
    by_cases hk : k = .tee
    · rw [if_pos hk]
      refine h.close_step hl hk trivial (fun _ => rfl) fun b' _ hb' => ?_
      rw [hpc, eq_true_of_ne_false hb']
      rfl
    · rw [if_neg hk]
      exact h.close_step hl trivial trivial (fun _ => rfl)
        fun b' hout hb' => absurd (hout.resolve_left hb') hk
  | closeSecond hpc =>
    refine h.close_step (hpc ▸ trivial) trivial trivial (fun _ => rfl) fun b' _ hb' => ?_
    rw [hpc, eq_false_of_ne_true hb']
    rfl

/-- With empty outputs and its event set a task waits at an open input without items only. -/
theorem Task.Inv.waiting {k : Task} {v : View α} (h : k.Inv v) (hstep : k.step v = none)
    (hdata : ∀ b, k.HasOut b → (v.out b).data = [])
    (hevent : ∀ ctl, k = .flowgate ctl → v.events ctl = true) :
    v.pc = .done ∨ v.inp.isOpen = true ∧ v.inp.data = [] := by
  obtain ⟨inp, out, events, pc⟩ := v
  cases pc with
  | loop l =>
    cases l with
    | isempty => cases hstep
    | isopen => cases hstep
    | take => exact .inr (Consume.step_eq_none .take (Option.map_eq_none_iff.mp hstep))
    | left => cases hstep
    | body b =>
      cases b with
      | ctl x =>
        rcases h.hasPc with ⟨ctl, rfl⟩ | ⟨ctl, rfl⟩
        · have hset : events ctl = true := hevent ctl rfl
          simp [Task.step, hset] at hstep
        · cases hstep
      | put b x =>
        have hb : k.HasOut b := h.hasPc
        obtain ⟨c, hc⟩ := Channel.exists_put (h.isOpen b hb) (hdata b hb) x
        simp [Task.step, hc] at hstep
      | putting b x =>
        have hput : (out b).PutDone := fun _ => hdata b h.hasPc
        simp [Task.step, hput] at hstep
  | closeSecond => cases hstep
  | done => exact .inl rfl

/-- Without capacity only the item of a `put!` that waits is on its way. -/
theorem Task.Inv.data_length {k : Task} {v : View α} (h : k.Inv v) (hk : k.capacity = 0) {b : Bool}
    (hb : k.HasOut b) : (v.out b).data.length ≤ 1 ∧ (¬ v.pc.Putting b → (v.out b).data = []) := by
  have hcap := (h.cap b hb).trans hk
  have hle := (v.out b).bounded
  rw [hcap] at hle
  exact ⟨by omega, fun hp => h.putDone b hb hp hcap⟩

/-- The second output of a `tee` is behind the first one by at most one item. -/
theorem Task.Inv.tee {v : View α} (h : Task.tee.Inv v) :
    (v.out true).taken <+: (v.out false).taken ∧
      (v.out false).taken.length ≤ (v.out true).taken.length + 1 := by
  have hf := h.sent false (.inl rfl)
  have ht := h.sent true (.inr rfl)
  obtain ⟨hf1, hf0⟩ := h.data_length rfl (.inl rfl : Task.tee.HasOut false)
  obtain ⟨ht1, ht0⟩ := h.data_length rfl (.inr rfl : Task.tee.HasOut true)
  have hlf := congrArg List.length hf
  have hlt := congrArg List.length ht
  simp only [Channel.sent, List.length_append] at hlf hlt
  -- both are beginnings of what was taken, so it is a matter of their lengths
  have hlen : (v.out true).taken.length ≤ (v.out false).taken.length ∧
      (v.out false).taken.length ≤ (v.out true).taken.length + 1 := by
    by_cases hp : v.pc.Putting false
    · obtain ⟨x, hx⟩ := hp
      have hdata : (v.out true).data.length = 0 := by
        have hnot : ¬ v.pc.Putting true := by
          rintro ⟨_, hy⟩
          cases hx.symm.trans hy
        rw [ht0 hnot, List.length_nil]
      have howes : (v.pc.owes false).length = 0 ∧ (v.pc.owes true).length = 1 := by
        rw [hx]
        exact ⟨rfl, rfl⟩
      omega
    · have hdataf : (v.out false).data.length = 0 := by rw [hf0 hp, List.length_nil]
      by_cases hp' : v.pc.Putting true
      · obtain ⟨x, hx⟩ := hp'
        have howes : (v.pc.owes false).length = 0 ∧ (v.pc.owes true).length = 0 := by
          rw [hx]
          exact ⟨rfl, rfl⟩
        omega
      · have hdatat : (v.out true).data.length = 0 := by rw [ht0 hp', List.length_nil]
        have howes := v.pc.owes_length
        omega
  refine ⟨List.prefix_of_prefix_length_le (?_ : _ <+: v.inp.taken) ?_ hlen.1, hlen.2⟩
  · rw [ht]
    exact (v.out true).taken_prefix_sent.trans (List.prefix_append ..)
  · rw [hf]
    exact (v.out false).taken_prefix_sent.trans (List.prefix_append ..)

end Sigflow
end Xtrx
