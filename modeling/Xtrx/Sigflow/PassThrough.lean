import Xtrx.Lib.Machine
import Xtrx.Sigflow.Task

/-!
# Trees of pass-through tasks (`libsigflow.jl`)

- **`Tree`**: what is built from `membuffer`, `flowgate`, `tripwire`, `log_stream_xfer` and `tee` on an
  input, with a consumer at each end. A channel has the path from its end of the tree to the input.
- **`Net`**: a source that puts the input and closes its channel, the tasks, and the consumers, which
  take whatever comes. Any of them makes the next step; an event of a flowgate is notified at some
  step, if it is not set already.
- **`pass_through`**: what is taken from a channel is always a beginning of the input, and the second
  output of a `tee` is at most one item behind the first. In a run in which no loop of
  `consume_channel` finds its channel closed with items in it after it found it empty, all of the
  input has been taken from every channel when no step is possible, and every channel is closed.
- **`testsInTime_of_unbuffered`**: without room in the channels that tasks read from, each run is one.
- **`pass_through_loses`**: a run with a `membuffer` in which such a loop leaves an item behind.
-/

namespace Xtrx
namespace Sigflow

open Conc

/-- The tasks behind an input. -/
inductive Tree where
  | consumer
  | membuffer (maxSize : Nat) (out : Tree)
  | flowgate (ctl : Nat) (out : Tree)
  | tripwire (ctl : Nat) (out : Tree)
  | logStreamXfer (out : Tree)
  | tee (out₁ out₂ : Tree)

namespace Tree

/-- The task at the root. -/
def task : Tree → Option Task
  | consumer => none
  | membuffer maxSize _ => some (.membuffer maxSize)
  | flowgate ctl _ => some (.flowgate ctl)
  | tripwire ctl _ => some (.tripwire ctl)
  | logStreamXfer _ => some .logStreamXfer
  | tee _ _ => some .tee

/-- What is behind an output of the root. -/
def child : Tree → Bool → Option Tree
  | consumer, _ => none
  | membuffer _ out, b => if b then none else some out
  | flowgate _ out, b => if b then none else some out
  | tripwire _ out, b => if b then none else some out
  | logStreamXfer out, b => if b then none else some out
  | tee out₁ out₂, b => some (if b then out₂ else out₁)

/-- What is behind the channel at a path, which lists the outputs from that channel back to the
input. -/
def sub (t : Tree) : List Bool → Option Tree
  | [] => some t
  | b :: p => (sub t p).bind fun u => u.child b

/-- The events of the flowgates. -/
def gates : Tree → List Nat
  | consumer => []
  | membuffer _ out => gates out
  | flowgate ctl out => ctl :: gates out
  | tripwire _ out => gates out
  | logStreamXfer out => gates out
  | tee out₁ out₂ => gates out₁ ++ gates out₂

/-- The task at a path. -/
def taskAt (t : Tree) (p : List Bool) : Option Task := (t.sub p).bind task

/-- The capacity of the channel at a path; the one of the input is given. -/
def capacity (t : Tree) (cap : Nat) : List Bool → Nat
  | [] => cap
  | _ :: p => ((t.taskAt p).map Task.capacity).getD 0

variable {t u u' : Tree} {b : Bool} {p : List Bool} {k : Task}

theorem taskAt_eq_some : t.taskAt p = some k ↔ ∃ u, t.sub p = some u ∧ u.task = some k :=
  Option.bind_eq_some_iff

theorem sub_cons : t.sub (b :: p) = some u' ↔ ∃ u, t.sub p = some u ∧ u.child b = some u' :=
  Option.bind_eq_some_iff

/-- A tree with a child at an output is one with a task that has this output. -/
theorem task_of_child (h : u.child b = some u') : ∃ k, u.task = some k ∧ k.HasOut b := by
  cases u with
  | consumer => cases h
  | tee => exact ⟨.tee, rfl, .inr rfl⟩
  | membuffer n => cases b with
    | false => exact ⟨.membuffer n, rfl, .inl rfl⟩
    | true => cases h
  | flowgate n => cases b with
    | false => exact ⟨.flowgate n, rfl, .inl rfl⟩
    | true => cases h
  | tripwire n => cases b with
    | false => exact ⟨.tripwire n, rfl, .inl rfl⟩
    | true => cases h
  | logStreamXfer => cases b with
    | false => exact ⟨.logStreamXfer, rfl, .inl rfl⟩
    | true => cases h

theorem child_of_task (h : u.task = some k) (hb : k.HasOut b) : ∃ u', u.child b = some u' := by
  cases u with
  | consumer => cases h
  | tee out₁ out₂ => exact ⟨_, rfl⟩
  | _ =>
    cases h
    obtain rfl : b = false := hb.resolve_right nofun
    exact ⟨_, rfl⟩

/-- Induction on what is behind the outputs. -/
theorem child_induction {P : Tree → Prop} (h : ∀ u, (∀ b u', u.child b = some u' → P u') → P u)
    (u : Tree) : P u := by
  induction u with
  | consumer => exact h _ fun b u' hc => nomatch hc
  | tee out₁ out₂ ih₁ ih₂ =>
    refine h _ fun b u' hc => ?_
    cases hc
    cases b with
    | false => exact ih₁
    | true => exact ih₂
  | _ =>
    rename_i ih
    refine h _ fun b u' hc => ?_
    cases b with
    | false =>
      cases hc
      exact ih
    | true => cases hc

theorem gates_of_task {ctl : Nat} (h : u.task = some (.flowgate ctl)) : ctl ∈ u.gates := by
  cases u with
  | flowgate ctl' out =>
    cases h
    exact List.mem_cons_self ..
  | _ => cases h

theorem gates_child (h : u.child b = some u') {ctl : Nat} (hc : ctl ∈ u'.gates) : ctl ∈ u.gates := by
  cases u with
  | consumer => cases h
  | tee out₁ out₂ =>
    cases h
    cases b with
    | false => exact List.mem_append_left _ hc
    | true => exact List.mem_append_right _ hc
  | flowgate ctl' out =>
    cases b with
    | false =>
      cases h
      exact List.mem_cons_of_mem _ hc
    | true => cases h
  | _ =>
    cases b with
    | false =>
      cases h
      exact hc
    | true => cases h

theorem gates_sub (h : t.sub p = some u) {ctl : Nat} (hc : ctl ∈ u.gates) : ctl ∈ t.gates := by
  induction p generalizing u with
  | nil =>
    cases h
    exact hc
  | cons b p ih =>
    obtain ⟨u', hu', hchild⟩ := sub_cons.mp h
    exact ih hu' (gates_child hchild hc)

end Tree

/-- The source: the items that it has not put yet; `putting` in a `put!`. -/
inductive Source (α : Type) where
  | put (rest : List α)
  | putting (rest : List α)
  | closed

structure Net (α : Type) where
  source : Source α
  chan : List Bool → Channel α
  pc : List Bool → Pc α
  events : Nat → Bool

/-- Whose step comes next. -/
inductive NetEv where
  | source
  | task (p : List Bool)
  | consume (p : List Bool)
  | notify (ctl : Nat)

variable {α : Type}

namespace Net

/-- What the task at `p` sees. -/
def view (s : Net α) (p : List Bool) : View α :=
  ⟨s.chan p, fun b => s.chan (b :: p), s.events, s.pc p⟩

/-- The net after a step of the task at `p`. -/
def update (s : Net α) (p : List Bool) (v : View α) : Net α where
  source := s.source
  chan q := if q = p then v.inp else match q with
    | [] => s.chan []
    | b :: q' => if q' = p then v.out b else s.chan (b :: q')
  pc := Function.update s.pc p v.pc
  events := v.events

/-- A step of the source. -/
def sourceStep (s : Net α) : Option (Net α) :=
  match s.source with
  | .put [] => some { s with source := .closed, chan := Function.update s.chan [] (s.chan []).close }
  | .put (x :: rest) => ((s.chan []).put x).map fun c =>
      { s with source := .putting rest, chan := Function.update s.chan [] c }
  | .putting rest => if (s.chan []).PutDone then some { s with source := .put rest } else none
  | .closed => none

def step (t : Tree) (s : Net α) : NetEv → Option (Net α)
  | .source => s.sourceStep
  | .task p =>
    match t.taskAt p with
    | some k => (k.step (s.view p)).map (s.update p)
    | none => none
  | .consume p =>
    match t.sub p with
    | some .consumer => (s.chan p).take.map fun r => { s with chan := Function.update s.chan p r.2 }
    | _ => none
  | .notify ctl =>
    if ctl ∈ t.gates ∧ s.events ctl = false then
      some { s with events := Function.update s.events ctl true }
    else none

def machine (t : Tree) : Machine (Net α) NetEv := ⟨step t⟩

/-- Before the first step, with an input channel of the capacity `cap` and some events set. -/
def start (t : Tree) (cap : Nat) (events : Nat → Bool) (input : List α) : Net α :=
  ⟨.put input, fun p => .new (t.capacity cap p), fun _ => .loop .isempty, events⟩

variable {s : Net α} {p q : List Bool} {v : View α}

@[simp] theorem update_chan_self : (s.update p v).chan p = v.inp := if_pos rfl

@[simp] theorem update_chan_out (b : Bool) : (s.update p v).chan (b :: p) = v.out b := by
  show (if b :: p = p then _ else if p = p then _ else _) = _
  rw [if_neg (List.cons_ne_self b p), if_pos rfl]

theorem update_chan_of_ne (h : q ≠ p) (h' : ∀ b, q ≠ b :: p) : (s.update p v).chan q = s.chan q := by
  show (if q = p then _ else _) = _
  rw [if_neg h]
  cases q with
  | nil => rfl
  | cons b q =>
    dsimp only
    rw [if_neg fun hq => h' b (congrArg _ hq)]

theorem update_pc_self : (s.update p v).pc p = v.pc := Function.update_self ..

theorem update_pc_of_ne (h : q ≠ p) : (s.update p v).pc q = s.pc q := Function.update_of_ne h ..

end Net

/-! ## The invariant -/

namespace Source

/-- The items that are not put yet. -/
def rest : Source α → List α
  | put rest => rest
  | putting rest => rest
  | closed => []

def Putting (s : Source α) : Prop := ∃ rest, s = putting rest

end Source

namespace Net

structure Inv (t : Tree) (cap : Nat) (input : List α) (s : Net α) : Prop where
  sent : input = (s.chan []).sent ++ s.source.rest
  putDone : ¬ s.source.Putting → (s.chan []).PutDone
  isOpen : (s.chan []).isOpen = false ↔ s.source = .closed
  cap : (s.chan []).cap = cap
  tasks : ∀ p k, t.taskAt p = some k → k.Inv (s.view p)

variable {t : Tree} {cap : Nat} {input : List α} {s s' : Net α} {k : Task} {p q : List Bool}

theorem inv_start (t : Tree) (cap : Nat) (events : Nat → Bool) (input : List α) :
    (start t cap events input).Inv t cap input where
  sent := rfl
  putDone := fun _ _ => rfl
  isOpen := ⟨nofun, nofun⟩
  cap := rfl
  tasks := fun p k hk => by
    have h := k.inv_start (Channel.new (t.capacity cap p) : Channel α) events rfl
    have hcap : ∀ b, t.capacity cap (b :: p) = k.capacity := by
      intro b
      rw [Tree.capacity, hk]
      rfl
    refine h.others rfl (.refl _) fun b _ => ?_
    show Channel.ByTaker _ (Channel.new (t.capacity cap (b :: p)))
    rw [hcap]
    exact .refl _

/-- What a step does to the channels of the other tasks. -/
structure Others (s s' : Net α) (p : List Bool) : Prop where
  pc : s'.pc p = s.pc p
  inp : (s.chan p).ByPutter (s'.chan p)
  out : ∀ b, (s.chan (b :: p)).ByTaker (s'.chan (b :: p))

theorem Others.inv (h : Others s s' p) (hk : k.Inv (s.view p)) : k.Inv (s'.view p) :=
  hk.others h.pc h.inp fun b _ => h.out b

/-- A step of one task, for the others. -/
theorem others_update {v : View α} (he : k.Effect (s.view p) v) (hq : q ≠ p) :
    Others s (s.update p v) q where
  pc := update_pc_of_ne hq
  inp := by
    by_cases hout : ∃ b, q = b :: p
    · obtain ⟨b, rfl⟩ := hout
      rw [update_chan_out]
      exact he.byPutter b
    · rw [update_chan_of_ne hq fun b hb => hout ⟨b, hb⟩]
      exact .refl _
  out := fun b => by
    by_cases hinp : b :: q = p
    · subst hinp
      rw [update_chan_self]
      exact he.byTaker
    · rw [update_chan_of_ne hinp fun b' hb' => hq (List.cons.inj hb').2]
      exact .refl _

/-- A step of a consumer, for the tasks. -/
theorem others_consume {x : α} {c : Channel α} (ht : (s.chan p).take = some (x, c)) (hq : q ≠ p) :
    Others s { s with chan := Function.update s.chan p c } q where
  pc := rfl
  inp := by
    have hsame : Function.update s.chan p c q = s.chan q := Function.update_of_ne hq ..
    exact hsame ▸ .refl _
  out := fun b => (Channel.takes_of_take ht).byTaker.update (b :: q)

/-- A step of the source, for the tasks. -/
theorem others_source {source : Source α} {c : Channel α} (hc : (s.chan []).ByPutter c) :
    Others s { s with source, chan := Function.update s.chan [] c } q where
  pc := rfl
  inp := hc.update q
  out := fun b => by
    have hsame : Function.update s.chan [] c (b :: q) = s.chan (b :: q) :=
      Function.update_of_ne (List.cons_ne_nil b q) ..
    exact hsame ▸ .refl _

/-- What a step does. -/
inductive Effect (t : Tree) (s : Net α) : NetEv → Net α → Prop
  | close (hs : s.source = .put []) : Effect t s .source
    { s with source := .closed, chan := Function.update s.chan [] (s.chan []).close }
  | put {x rest c} (hs : s.source = .put (x :: rest)) (hp : (s.chan []).put x = some c) :
    Effect t s .source { s with source := .putting rest, chan := Function.update s.chan [] c }
  | putDone {rest} (hs : s.source = .putting rest) (hd : (s.chan []).PutDone) :
    Effect t s .source { s with source := .put rest }
  | task {p k v} (hk : t.taskAt p = some k) (he : k.Effect (s.view p) v) :
    Effect t s (.task p) (s.update p v)
  | consume {p x c} (hp : t.sub p = some .consumer) (ht : (s.chan p).take = some (x, c)) :
    Effect t s (.consume p) { s with chan := Function.update s.chan p c }
  | notify {ctl} : Effect t s (.notify ctl) { s with events := Function.update s.events ctl true }

theorem step_effect {e : NetEv} (h : s.step t e = some s') : Effect t s e s' := by
  cases e with
  | source =>
    unfold step sourceStep at h
    dsimp only at h
    split at h
    · rename_i hs
      cases h
      exact .close hs
    · rename_i hs
      obtain ⟨c, hp, rfl⟩ := Option.map_eq_some_iff.mp h
      exact .put hs hp
    · rename_i hs
      split at h
      · rename_i hd
        cases h
        exact .putDone hs hd
      · cases h
    · cases h
  | task p =>
    unfold step at h
    dsimp only at h
    split at h
    · rename_i k hk
      obtain ⟨v, hv, rfl⟩ := Option.map_eq_some_iff.mp h
      exact .task hk (Task.step_effect hv)
    · cases h
  | consume p =>
    unfold step at h
    dsimp only at h
    split at h
    · rename_i hp
      obtain ⟨⟨x, c⟩, ht, rfl⟩ := Option.map_eq_some_iff.mp h
      exact .consume hp ht
    · cases h
  | notify ctl =>
    unfold step at h
    dsimp only at h
    split at h
    · cases h
      exact .notify
    · cases h

/-- Where there is a consumer there is no task. -/
theorem ne_of_consumer (hp : t.sub p = some .consumer) (hk : t.taskAt q = some k) : q ≠ p := by
  rintro rfl
  obtain ⟨u, hu, hk⟩ := Tree.taskAt_eq_some.mp hk
  rw [hp] at hu
  cases hu
  cases hk

theorem Inv.step {e : NetEv} (h : s.Inv t cap input) (he : Effect t s e s') : s'.Inv t cap input := by
  cases he with
  | close hs =>
    refine ⟨?_, fun _ => ?_, ?_, ?_, fun q k hk =>
      (others_source Channel.byPutter_close).inv (h.tasks q k hk)⟩ <;>
      simp only [Function.update_self]
    · have := h.sent
      rwa [hs] at this
    · exact h.putDone fun ⟨_, hr⟩ => nomatch hs.symm.trans hr
    · exact ⟨fun _ => trivial, fun _ => rfl⟩
    · exact h.cap
  | @put x rest c hs hp =>
    have hputs := Channel.puts_of_put hp
    refine ⟨?_, fun hn => absurd ⟨rest, rfl⟩ hn, ?_, ?_, fun q k hk =>
      (others_source hputs.byPutter).inv (h.tasks q k hk)⟩ <;> simp only [Function.update_self]
    · have := h.sent
      rw [hs] at this
      rw [hputs.sent, List.append_assoc]
      exact this
    · rw [hputs.isOpen, hputs.wasOpen]
      exact ⟨nofun, nofun⟩
    · exact hputs.cap.trans h.cap
  | putDone hs hd =>
    refine ⟨?_, fun _ => hd, ?_, h.cap, h.tasks⟩
    · have := h.sent
      rwa [hs] at this
    · rw [h.isOpen, hs]
      exact ⟨nofun, nofun⟩
  | @task p k v hk he =>
    have hroot : (s.chan []).ByTaker ((s.update p v).chan []) := by
      by_cases hp : p = []
      · subst hp
        rw [update_chan_self]
        exact he.byTaker
      · rw [update_chan_of_ne (Ne.symm hp) fun _ => nofun]
        exact .refl _
    refine ⟨?_, fun hn => hroot.putDone (h.putDone hn), ?_, hroot.cap.trans h.cap, fun q k' hk' => ?_⟩
    · rw [hroot.sent]
      exact h.sent
    · rw [hroot.isOpen]
      exact h.isOpen
    · by_cases hq : q = p
      · subst hq
        obtain rfl : k' = k := Option.some.inj (hk'.symm.trans hk)
        refine ((h.tasks q k' hk).step he).others update_pc_self ?_ fun b _ => ?_
        · show Channel.ByPutter _ ((s.update q v).chan q)
          rw [update_chan_self]
          exact .refl _
        · show Channel.ByTaker _ ((s.update q v).chan (b :: q))
          rw [update_chan_out]
          exact .refl _
      · exact (others_update he hq).inv (h.tasks q k' hk')
  | @consume p x c hp ht =>
    have htakes := Channel.takes_of_take ht
    have hroot : (s.chan []).ByTaker (Function.update s.chan p c []) := htakes.byTaker.update []
    refine ⟨?_, fun hn => hroot.putDone (h.putDone hn), ?_, hroot.cap.trans h.cap, fun q k hk =>
      (others_consume ht (ne_of_consumer hp hk)).inv (h.tasks q k hk)⟩
    · show input = (Function.update s.chan p c []).sent ++ _
      rw [hroot.sent]
      exact h.sent
    · show (Function.update s.chan p c []).isOpen = false ↔ _
      rw [hroot.isOpen]
      exact h.isOpen
  | notify => exact ⟨h.sent, h.putDone, h.isOpen, h.cap, fun q k hk =>
      (h.tasks q k hk).others rfl (.refl _) fun _ _ => .refl _⟩

/-! ## What is taken from the channels -/

/-- What is put to a channel is a beginning of the input: by induction from the input on. -/
theorem Inv.sent_prefix (h : s.Inv t cap input) {u : Tree} (hu : t.sub p = some u) :
    (s.chan p).sent <+: input := by
  induction p generalizing u with
  | nil => exact ⟨_, h.sent.symm⟩
  | cons b p ih =>
    obtain ⟨u', hu', hchild⟩ := Tree.sub_cons.mp hu
    obtain ⟨k, hk, hb⟩ := Tree.task_of_child hchild
    have hsent := (h.tasks p k (Tree.taskAt_eq_some.mpr ⟨u', hu', hk⟩)).sent b hb
    have hpre : (s.chan (b :: p)).sent <+: (s.chan p).taken := ⟨_, hsent.symm⟩
    exact hpre.trans ((s.chan p).taken_prefix_sent.trans (ih hu'))

/-- What is taken from a channel is a beginning of the input. -/
theorem Inv.taken_prefix (h : s.Inv t cap input) {u : Tree} (hu : t.sub p = some u) :
    (s.chan p).taken <+: input :=
  (s.chan p).taken_prefix_sent.trans (h.sent_prefix hu)

/-! ## The end of a run -/

/-- A loop of `consume_channel` reads `isopen`, after it found its channel empty, in a channel that
is open or still empty. -/
def TestsInTime (s : Net α) (e : NetEv) : Prop :=
  ∀ p, e = .task p → s.pc p = .loop .isopen → (s.chan p).isOpen = true ∨ (s.chan p).data = []

instance (s : Net α) : ∀ e, Decidable (s.TestsInTime e)
  | .source | .consume _ | .notify _ => isTrue nofun
  | .task p =>
    match h : s.pc p with
    | .loop .isopen => decidable_of_iff ((s.chan p).isOpen = true ∨ (s.chan p).data = [])
        ⟨fun ht q hq _ => by
          cases hq
          exact ht, fun ht => ht p rfl h⟩
    | .loop .isempty | .loop .take | .loop (.body _) | .loop .left | .closeSecond | .done =>
      isTrue fun q hq hl => by
        cases hq
        exact nomatch h.symm.trans hl

/-- No task has left its loop with items in its channel. -/
def Drained (t : Tree) (s : Net α) : Prop :=
  ∀ p k, t.taskAt p = some k → (s.pc p).Left → (s.chan p).data = []

/-- The channel of a task that has left its loop does not change any more. -/
theorem Others.drained (h : Others s s' p) (hk : k.Inv (s.view p)) (hl : (s'.pc p).Left)
    (hd : (s.pc p).Left → (s.chan p).data = []) : (s'.chan p).data = [] := by
  rw [h.pc] at hl
  rw [h.inp.closed (hk.closed hl)]
  exact hd hl

theorem Inv.drained {e : NetEv} (h : s.Inv t cap input) (hd : s.Drained t)
    (hc : s.TestsInTime e) (he : Effect t s e s') : s'.Drained t := by
  intro q k hk hl
  have hq := h.tasks q k hk
  cases he with
  | close hs => exact (others_source Channel.byPutter_close).drained hq hl (hd q k hk)
  | put hs hp => exact (others_source (Channel.puts_of_put hp).byPutter).drained hq hl (hd q k hk)
  | putDone => exact hd q k hk hl
  | @task p k' v hk' he =>
    by_cases hqp : q = p
    · subst hqp
      rw [update_pc_self] at hl
      rw [update_chan_self]
      obtain ⟨hinp, hleft | ⟨hpc, hclosed⟩⟩ := he.left hl
      · rw [hinp]
        exact hd q k hk hleft
      · have hclosed : (s.chan q).isOpen = false := hclosed
        rw [hinp]
        refine (hc q rfl hpc).resolve_left fun ho => ?_
        rw [hclosed] at ho
        cases ho
    · exact (others_update he hqp).drained hq hl (hd q k hk)
  | consume hp ht => exact (others_consume ht (ne_of_consumer hp hk)).drained hq hl (hd q k hk)
  | notify => exact hd q k hk hl

/-- What a task has left behind stays behind. -/
theorem Inv.drained_back {e : NetEv} (h : s.Inv t cap input) (he : Effect t s e s')
    (hd : s'.Drained t) : s.Drained t := by
  intro q k hk hl
  have hq := h.tasks q k hk
  have hother : ∀ {s' : Net α}, Others s s' q → s'.Drained t → (s.chan q).data = [] := by
    intro s' ho hd
    have := hd q k hk (by rw [ho.pc]; exact hl)
    rwa [ho.inp.closed (hq.closed hl)] at this
  cases he with
  | close hs => exact hother (others_source Channel.byPutter_close) hd
  | put hs hp => exact hother (others_source (Channel.puts_of_put hp).byPutter) hd
  | putDone => exact hd q k hk hl
  | @task p k' v hk' he =>
    by_cases hqp : q = p
    · subst hqp
      obtain ⟨hinp, hleft⟩ := he.of_left hl
      have := hd q k hk (by rw [update_pc_self]; exact hleft)
      rwa [update_chan_self, hinp] at this
    · exact hother (others_update he hqp) hd
  | consume hp ht => exact hother (others_consume ht (ne_of_consumer hp hk)) hd
  | notify => exact hd q k hk hl

/-- A test that comes too late leaves items behind. -/
theorem testsInTime_of_drained {e : NetEv} (hs : s.step t e = some s') (hd : s'.Drained t) :
    s.TestsInTime e := by
  rintro p rfl hpc
  cases ho : (s.chan p).isOpen with
  | true => exact .inl rfl
  | false =>
    refine .inr ?_
    cases hk : t.taskAt p with
    | none =>
      simp only [step, hk] at hs
      cases hs
    | some k =>
      simp only [step, hk, Task.step, view, hpc, Consume.step, ho] at hs
      cases hs
      have hleft := hd p k hk (by rw [update_pc_self]; trivial)
      rwa [update_chan_self] at hleft

/-- The events of the flowgates are set when no step is possible. -/
theorem event_set (hend : ∀ e, s.step t e = none) {u : Tree} (hu : t.sub p = some u)
    {ctl : Nat} (hk : u.task = some (.flowgate ctl)) : s.events ctl = true := by
  have hn := hend (.notify ctl)
  unfold step at hn
  dsimp only at hn
  by_contra hset
  rw [if_pos ⟨Tree.gates_sub hu (Tree.gates_of_task hk), Bool.eq_false_iff.mpr hset⟩] at hn
  cases hn

/-- A task with empty outputs that waits is done, or its input is open and empty. -/
theorem Inv.task_waiting (h : s.Inv t cap input) (hend : ∀ e, s.step t e = none) {u : Tree}
    (hu : t.sub p = some u) (hk : u.task = some k)
    (hdata : ∀ b, k.HasOut b → (s.chan (b :: p)).data = []) :
    s.pc p = .done ∨ (s.chan p).isOpen = true ∧ (s.chan p).data = [] := by
  have hat : t.taskAt p = some k := Tree.taskAt_eq_some.mpr ⟨u, hu, hk⟩
  have hstep : k.step (s.view p) = none := by
    have hn := hend (.task p)
    unfold Net.step at hn
    dsimp only at hn
    rw [hat] at hn
    exact Option.map_eq_none_iff.mp hn
  refine (h.tasks p k hat).waiting hstep hdata fun ctl hctl => ?_
  exact event_set hend hu (hctl ▸ hk)

/-- Where no step is possible no channel holds items: by induction on what is behind it. -/
theorem Inv.data_empty (h : s.Inv t cap input) (hd : s.Drained t)
    (hend : ∀ e, s.step t e = none) {u : Tree} (hu : t.sub p = some u) : (s.chan p).data = [] := by
  induction u using Tree.child_induction generalizing p with
  | h u ih =>
    cases hk : u.task with
    | none =>
      obtain rfl : u = .consumer := by
        cases u with
        | consumer => rfl
        | _ => cases hk
      have hn := hend (.consume p)
      unfold Net.step at hn
      dsimp only at hn
      rw [hu] at hn
      exact Channel.take_eq_none.mp (Option.map_eq_none_iff.mp hn)
    | some k =>
      have hdata : ∀ b, k.HasOut b → (s.chan (b :: p)).data = [] := by
        intro b hb
        obtain ⟨u', hu'⟩ := Tree.child_of_task hk hb
        exact ih b u' hu' (Tree.sub_cons.mpr ⟨u, hu, hu'⟩)
      rcases h.task_waiting hend hu hk hdata with hdone | ⟨-, hempty⟩
      · exact hd p k (Tree.taskAt_eq_some.mpr ⟨u, hu, hk⟩) (by rw [hdone]; trivial)
      · exact hempty

/-- Where no step is possible everything has been taken from every channel, and all are closed: by
induction from the input on. -/
theorem Inv.complete (h : s.Inv t cap input) (hd : s.Drained t) (hend : ∀ e, s.step t e = none)
    {u : Tree} (hu : t.sub p = some u) : (s.chan p).isOpen = false ∧ (s.chan p).taken = input := by
  have hempty := h.data_empty hd hend hu
  induction p generalizing u with
  | nil =>
    have hn : s.sourceStep = none := hend .source
    have hclosed : s.source = .closed := by
      unfold sourceStep at hn
      cases hs : s.source with
      | put rest =>
        rw [hs] at hn
        cases rest with
        | nil => cases hn
        | cons x rest =>
          have ho : (s.chan []).isOpen = true := by
            rw [← Bool.not_eq_false, h.isOpen, hs]
            exact nofun
          obtain ⟨c, hc⟩ := Channel.exists_put ho hempty x
          simp [hc] at hn
      | putting rest =>
        have hput : (s.chan []).PutDone := fun _ => hempty
        rw [hs] at hn
        simp [hput] at hn
      | closed => rfl
    refine ⟨h.isOpen.mpr hclosed, ?_⟩
    have hsent := h.sent
    rw [hclosed] at hsent
    rw [Channel.taken_eq_sent hempty]
    exact (hsent.trans (List.append_nil _)).symm
  | cons b p ih =>
    obtain ⟨u', hu', hchild⟩ := Tree.sub_cons.mp hu
    obtain ⟨k, hk, hb⟩ := Tree.task_of_child hchild
    have hat : t.taskAt p = some k := Tree.taskAt_eq_some.mpr ⟨u', hu', hk⟩
    obtain ⟨hclosed, htaken⟩ := ih hu' (h.data_empty hd hend hu')
    have hdone : s.pc p = .done := by
      refine (h.task_waiting hend hu' hk fun b' hb' => ?_).resolve_right fun ho => ?_
      · obtain ⟨u'', hu''⟩ := Tree.child_of_task hk hb'
        exact h.data_empty hd hend (Tree.sub_cons.mpr ⟨u', hu', hu''⟩)
      · rw [hclosed] at ho
        cases ho.1
    have hopen : (s.chan (b :: p)).isOpen = (s.pc p).opens b := (h.tasks p k hat).isOpen b hb
    have hsent : (s.chan p).taken = (s.chan (b :: p)).sent ++ (s.pc p).owes b :=
      (h.tasks p k hat).sent b hb
    rw [hdone] at hopen hsent
    refine ⟨hopen, ?_⟩
    rw [Channel.taken_eq_sent hempty, ← htaken]
    exact (hsent.trans (List.append_nil _)).symm

/-- All of the input has been taken from every channel exactly if no task has left items behind. -/
theorem Inv.complete_iff (h : s.Inv t cap input) (hend : ∀ e, s.step t e = none) :
    (∀ p u, t.sub p = some u → (s.chan p).isOpen = false ∧ (s.chan p).taken = input) ↔
      s.Drained t := by
  refine ⟨fun hall p k hk _ => ?_, fun hd p u hu => h.complete hd hend hu⟩
  obtain ⟨u, hu, -⟩ := Tree.taskAt_eq_some.mp hk
  have hlen := (h.sent_prefix hu).length_le
  rw [Channel.sent, List.length_append, (hall p u hu).2] at hlen
  exact List.length_eq_zero_iff.mp (by omega)

/-- At every moment of every run what is taken from a channel is a beginning of the input, and the
second output of a `tee` is at most one item behind the first. When no step is possible, all of the
input has been taken from every channel and all are closed, exactly if every loop that found its
channel empty reads `isopen` while the channel is open or still empty. -/
theorem pass_through (t : Tree) (cap : Nat) (events : Nat → Bool) (input : List α) (es : List NetEv)
    (s : Net α) (hr : (machine t).run es (start t cap events input) = some s) :
    (∀ p u, t.sub p = some u → (s.chan p).taken <+: input) ∧
      (∀ p, t.taskAt p = some .tee → (s.chan (true :: p)).taken <+: (s.chan (false :: p)).taken ∧
        (s.chan (false :: p)).taken.length ≤ (s.chan (true :: p)).taken.length + 1) ∧
      ((∀ e, s.step t e = none) →
        ((∀ p u, t.sub p = some u → (s.chan p).isOpen = false ∧ (s.chan p).taken = input) ↔
          (machine t).Along TestsInTime es (start t cap events input))) := by
  have hstart := inv_start t cap events input
  have hstep : ∀ (s : Net α) e s', s.Inv t cap input → (machine t).step s e = some s' →
      s'.Inv t cap input := fun s e s' h hs => h.step (step_effect hs)
  have hi := Machine.run_inv hstep hstart hr
  refine ⟨fun p u hu => hi.taken_prefix hu, fun p hp => (hi.tasks p .tee hp).tee, fun hend => ?_⟩
  rw [hi.complete_iff hend]
  refine Machine.last_iff_along (P := Drained t) hstep ?_ ?_ ?_ hstart (fun _ _ _ hl => hl.elim) hr
  · exact fun s e s' h hd hc hs => h.drained hd hc (step_effect hs)
  · exact fun s e s' h hs => h.drained_back (step_effect hs)
  · exact fun s e s' hs => testsInTime_of_drained hs

/-! ### Runs to the end -/

/-- The events that a tree without flowgates has at these paths. -/
def eventsAt (ps : List (List Bool)) : List NetEv :=
  .source :: ps.flatMap fun p => [.task p, .consume p]

theorem stuck_of_paths {ps : List (List Bool)} (hpaths : ∀ p u, t.sub p = some u → p ∈ ps)
    (hgates : t.gates = []) (h : ∀ e ∈ eventsAt ps, s.step t e = none) (e : NetEv) :
    s.step t e = none := by
  have hmem : ∀ p u, t.sub p = some u → .task p ∈ eventsAt ps ∧ .consume p ∈ eventsAt ps :=
    fun p u hu =>
      ⟨List.mem_cons_of_mem _ (List.mem_flatMap.mpr ⟨p, hpaths p u hu, List.mem_cons_self⟩),
        List.mem_cons_of_mem _ (List.mem_flatMap.mpr
          ⟨p, hpaths p u hu, List.mem_cons_of_mem _ List.mem_cons_self⟩)⟩
  cases e with
  | source => exact h _ List.mem_cons_self
  | task p =>
    cases hp : t.taskAt p with
    | none => simp only [step, hp]
    | some k =>
      obtain ⟨u, hu, -⟩ := Tree.taskAt_eq_some.mp hp
      exact h _ (hmem p u hu).1
  | consume p =>
    cases hp : t.sub p with
    | none => simp only [step, hp]
    | some u => exact h _ (hmem p u hp).2
  | notify ctl =>
    have hno : ¬ (ctl ∈ t.gates ∧ s.events ctl = false) := by
      rw [hgates]
      exact fun h => List.not_mem_nil h.1
    simp only [step, if_neg hno]

/-- `tee(membuffer(in, 1))`. -/
def bufferedTee : Tree := .membuffer 1 (.tee .consumer .consumer)

/-- Two items go through, each up to the consumers before the next one, and then the channels are
closed. -/
def teeRun : List NetEv :=
  let item : List NetEv :=
    [.source, .task [], .task [], .task [false], .task [false], .consume [false, false],
      .task [false], .task [false], .consume [true, false]] ++
      List.replicate 3 (.task [false]) ++ List.replicate 3 (.task []) ++ [.source]
  [.task [false], .task [false], .task [], .task []] ++ item ++ item ++
    [.source] ++ List.replicate 4 (.task []) ++ List.replicate 5 (.task [false])

theorem bufferedTee_sub (p : List Bool) (u : Tree) (h : bufferedTee.sub p = some u) :
    p ∈ [[], [false], [false, false], [true, false]] := by
  induction p generalizing u with
  | nil => exact List.mem_cons_self
  | cons b p ih =>
    obtain ⟨u', hu', hc⟩ := Tree.sub_cons.mp h
    have hp := ih u' hu'
    simp only [List.mem_cons, List.not_mem_nil, or_false] at hp
    rcases hp with rfl | rfl | rfl | rfl <;> cases hu' <;> cases b <;> cases hc <;> decide

/-- Both consumers have both items in the end, and every channel is closed. -/
theorem pass_through_tee :
    ∃ s, (machine bufferedTee).run teeRun (start bufferedTee 0 (fun _ => false) [7, 8]) = some s ∧
      (∀ e, s.step bufferedTee e = none) ∧
      ∀ p u, bufferedTee.sub p = some u → (s.chan p).isOpen = false ∧ (s.chan p).taken = [7, 8] := by
  obtain ⟨s, hs⟩ := Option.isSome_iff_exists.mp (show ((machine bufferedTee).run teeRun
    (start bufferedTee 0 (fun _ => false) [7, 8])).isSome = true by decide +kernel)
  have hnone : ∀ e ∈ eventsAt [[], [false], [false, false], [true, false]],
      ((machine bufferedTee).run teeRun (start bufferedTee 0 (fun _ => false) [7, 8])).map
        (fun s => (s.step bufferedTee e).isNone) = some true := by decide +kernel
  have hend : ∀ e, s.step bufferedTee e = none :=
    stuck_of_paths bufferedTee_sub rfl fun e he => Machine.step_eq_none hs (hnone e he)
  obtain ⟨-, -, hiff⟩ := pass_through bufferedTee 0 (fun _ => false) [7, 8] teeRun s hs
  exact ⟨s, hs, hend, (hiff hend).mpr (by decide +kernel)⟩

/-- A closed channel without capacity holds no items. -/
theorem Inv.closed_empty (h : s.Inv t cap input) {u : Tree} (hu : t.sub p = some u)
    (hp : t.capacity cap p = 0) (hc : (s.chan p).isOpen = false) : (s.chan p).data = [] := by
  cases p with
  | nil =>
    refine h.putDone (fun ⟨_, hr⟩ => ?_) (h.cap.trans hp)
    exact nomatch (h.isOpen.mp hc).symm.trans hr
  | cons b p =>
    obtain ⟨u', hu', hchild⟩ := Tree.sub_cons.mp hu
    obtain ⟨k, hk, hb⟩ := Tree.task_of_child hchild
    have hat : t.taskAt p = some k := Tree.taskAt_eq_some.mpr ⟨u', hu', hk⟩
    rw [Tree.capacity, hat] at hp
    have hopen : (s.chan (b :: p)).isOpen = (s.pc p).opens b := (h.tasks p k hat).isOpen b hb
    refine ((h.tasks p k hat).data_length hp hb).2 fun ⟨x, hx⟩ => ?_
    have hx : s.pc p = _ := hx
    rw [hc, hx] at hopen
    cases hopen

/-- Where no task reads from a `membuffer` with room, or from a buffered input, no test is late. -/
theorem testsInTime_of_unbuffered (t : Tree) (cap : Nat) (events : Nat → Bool) (input : List α)
    (es : List NetEv) (hcap : ∀ p k, t.taskAt p = some k → t.capacity cap p = 0) :
    (machine t).Along TestsInTime es (start t cap events input) := by
  refine Machine.along_of_inv (C := fun _ _ => True) (I := Inv t cap input)
    (fun _ _ _ h _ hs => h.step (step_effect hs)) (fun s e s' h _ hs => ?_)
    (inv_start t cap events input) (Machine.along_of_forall fun _ _ => trivial)
  rintro p rfl -
  have he : Effect t s (.task p) s' := step_effect hs
  cases he with
  | task hk _ =>
    obtain ⟨u, hu, -⟩ := Tree.taskAt_eq_some.mp hk
    cases ho : (s.chan p).isOpen with
    | true => exact .inl rfl
    | false => exact .inr (h.closed_empty hu (hcap p _ hk) ho)

/-! ## A buffer that is not emptied -/

/-- `log_stream_xfer(membuffer(in, 1))`. -/
def buffered : Tree := .membuffer 1 (.logStreamXfer .consumer)

/-- The loop of `log_stream_xfer` finds the buffer empty; then the buffer gets the item and is
closed; then the loop finds it closed. -/
def losingRun : List NetEv :=
  [.source, .task [], .task [], .source, .task [false], .task [], .task [], .source, .task [], .task [],
    .task [], .task [false], .task [false]]

theorem buffered_sub (p : List Bool) (u : Tree) (h : buffered.sub p = some u) :
    p ∈ [[], [false], [false, false]] := by
  induction p generalizing u with
  | nil => exact List.mem_cons_self
  | cons b p ih =>
    obtain ⟨u', hu', hc⟩ := Tree.sub_cons.mp h
    have hp := ih u' hu'
    simp only [List.mem_cons, List.not_mem_nil, or_false] at hp
    rcases hp with rfl | rfl | rfl <;> cases hu' <;> cases b <;> cases hc <;> decide

/-- After it no step is possible, the channel of the consumer is closed, and the consumer has not
received the item of the input. -/
theorem pass_through_loses :
    ∃ s, (machine buffered).run losingRun (start buffered 0 (fun _ => false) [7]) = some s ∧
      (∀ e, s.step buffered e = none) ∧
      ¬ ((s.chan [false, false]).isOpen = false ∧ (s.chan [false, false]).taken = [7]) := by
  obtain ⟨s, hs⟩ := Option.isSome_iff_exists.mp (show ((machine buffered).run losingRun
    (start buffered 0 (fun _ => false) [7])).isSome = true by decide)
  have hnone : ∀ e ∈ eventsAt [[], [false], [false, false]],
      ((machine buffered).run losingRun (start buffered 0 (fun _ => false) [7])).map
        (fun s => (s.step buffered e).isNone) = some true := by decide
  refine ⟨s, hs, ?_, fun h => ?_⟩
  · exact stuck_of_paths buffered_sub rfl fun e he => Machine.step_eq_none hs (hnone e he)
  · have hlost : (s.chan [false, false]).taken = [] :=
      Machine.view_eq hs (fun s => (s.chan [false, false]).taken) (by decide)
    rw [h.2] at hlost
    cases hlost

end Net

end Sigflow
end Xtrx
