import Mathlib.Algebra.Order.Ring.Int
import Xtrx.Kernel.Liteuart

/-!
# The serial port to the board's processor: reception (`liteuart.c`)

- **Core** (`RxFifo`): a FIFO of some depth; the other side puts in as much as there is room for. A
  read of `OFF_RXTX` takes a byte.
- **Function**: `liteuart_timer`, which reads until the FIFO is empty. What the kernel's serial core
  does with the characters is not under here: its functions are the calls that they get (`CoreCall`),
  and its answer for SysRq is any (`sysrq`, from the calls before).
- **System**: `startup` arms the timer, the function arms it again, `stop_rx` deletes it.
- **`polls_in_order`**: the function passes on the bytes that arrive, each one once and in order,
  without those that the kernel takes. **`timer_returns_iff`**: it returns if the other side stops to
  send.
-/

namespace Xtrx
namespace Kernel
namespace Liteuart

open Conc

/-- The receive side of the core: a FIFO, what arrived, and the bytes that the other side has before
each register access. -/
structure RxFifo where
  depth : Nat
  queue : List Byte
  bounded : queue.length ≤ depth
  depth_pos : 0 < depth
  arrived : List Byte
  accesses : Nat
  arrives : Nat → List Byte

namespace RxFifo

/-- The other side puts in what there is room for. -/
def arrive (bs : List Byte) (f : RxFifo) : RxFifo :=
  { f with
    queue := f.queue ++ bs.take (f.depth - f.queue.length)
    bounded := by
      have := f.bounded
      rw [List.length_append, List.length_take]
      omega
    arrived := f.arrived ++ bs.take (f.depth - f.queue.length) }

def access (f : RxFifo) : RxFifo :=
  { f.arrive (f.arrives f.accesses) with accesses := f.accesses + 1 }

/-- A byte is read. -/
def pop (f : RxFifo) : RxFifo :=
  { f with
    queue := f.queue.tail
    bounded := by
      have := f.bounded
      rw [List.length_tail]
      omega }

/-- From some access on nothing arrives. -/
def Stops (f : RxFifo) : Prop := ∃ n, ∀ m, n ≤ m → f.arrives m = []

/-- Something arrives before every access. -/
def Busy (f : RxFifo) : Prop := ∀ m, f.accesses ≤ m → f.arrives m ≠ []

variable {f : RxFifo}

theorem Busy.access (h : f.Busy) : f.access.Busy ∧ f.access.queue ≠ [] := by
  refine ⟨fun m hm => h m ?_, fun he => ?_⟩
  · have hm : f.accesses + 1 ≤ m := hm
    omega
  · -- an empty FIFO has room for what arrives
    obtain ⟨hq, ht⟩ := List.append_eq_nil_iff.mp he
    have hpos := f.depth_pos
    rw [hq, List.take_eq_nil_iff] at ht
    rcases ht with ht | ht
    · simp only [List.length_nil] at ht
      omega
    · exact h f.accesses (Nat.le_refl _) ht

end RxFifo

/-! ## The driver -/

/-- `TTY_NORMAL`. -/
def ttyNormal : Nat := 0

/-- A call of a function of the serial core, for the port. -/
inductive CoreCall where
  /-- `uart_handle_sysrq_char`, and its answer. -/
  | handleSysrqChar (ch : Byte) (taken : Bool)
  | insertChar (status overrun : Nat) (ch : Byte) (flag : Nat)
  | flipBufferPush
  deriving DecidableEq

structure RxPort where
  fifo : RxFifo
  icount : BitVec 32
  calls : List CoreCall
  armed : Bool

def RxPort.call (c : CoreCall) (p : RxPort) : RxPort := { p with calls := p.calls ++ [c] }

/-- `litex_read8(membase + OFF_RXEMPTY)`. -/
def readRxempty : Fueled RxPort Bool := Fueled.act fun p =>
  (p.fifo.access.queue.isEmpty, { p with fifo := p.fifo.access })

/-- `litex_read8(membase + OFF_RXTX)`. -/
def readRxtx : Fueled RxPort Byte := Fueled.act fun p =>
  (p.fifo.access.queue.headD 0, { p with fifo := p.fifo.access.pop })

def uartHandleSysrqChar (sysrq : List CoreCall → Byte → Bool) (ch : Byte) : Fueled RxPort Bool :=
  Fueled.act fun p => (sysrq p.calls ch, p.call (.handleSysrqChar ch (sysrq p.calls ch)))

def uartInsertChar (status overrun : Nat) (ch : Byte) (flag : Nat) : Fueled RxPort Unit :=
  Fueled.act fun p => ((), p.call (.insertChar status overrun ch flag))

def ttyFlipBufferPush : Fueled RxPort Unit := Fueled.act fun p => ((), p.call .flipBufferPush)

/-- The turns of the loop of `liteuart_timer`. -/
def timerTurn (sysrq : List CoreCall → Byte → Bool) : Fueled RxPort (Unit ⊕ Unit) := do
  if ← readRxempty then
    return .inr ()
  else
    let ch ← readRxtx
    Fueled.act fun p => ((), { p with icount := p.icount + 1 })
    if !(← uartHandleSysrqChar sysrq ch) then
      uartInsertChar 1 0 ch ttyNormal
    ttyFlipBufferPush
    return .inl ()

/-- `liteuart_timer`. -/
def liteuartTimer (sysrq : List CoreCall → Byte → Bool) : Fueled RxPort Unit := do
  Fueled.loop (fun _ => timerTurn sysrq) ()
  -- mod_timer
  Fueled.act fun p => ((), { p with armed := true })

/-! ### What the function does -/

section

variable {sysrq : List CoreCall → Byte → Bool} {p p' : RxPort} {read : List (Byte × Bool)}

/-- The calls for a character that was read, with the answer for SysRq. -/
def passedOn (r : Byte × Bool) : List CoreCall :=
  .handleSysrqChar r.1 r.2 ::
    (if r.2 then [.flipBufferPush] else [.insertChar 1 0 r.1 ttyNormal, .flipBufferPush])

/-- The characters that were inserted. -/
def inserted (calls : List CoreCall) : List Byte := calls.filterMap fun c =>
  match c with
  | .insertChar _ _ ch _ => some ch
  | _ => none

theorem inserted_passedOn (read : List (Byte × Bool)) :
    inserted (read.flatMap passedOn) = (read.filter fun r => !r.2).map Prod.fst := by
  induction read with
  | nil => rfl
  | cons r read ih =>
    obtain ⟨ch, taken⟩ := r
    have hsplit : inserted ((⟨ch, taken⟩ :: read).flatMap passedOn) =
        inserted (passedOn ⟨ch, taken⟩) ++ inserted (read.flatMap passedOn) := by
      rw [inserted, List.flatMap_cons, List.filterMap_append]
      rfl
    rw [hsplit, ih]
    cases taken <;> rfl

/-- The bytes that arrived are those that the driver has read and those of the FIFO; the calls are
those for the bytes that it has read. -/
structure RxInv (read : List (Byte × Bool)) (p : RxPort) : Prop where
  arrived : p.fifo.arrived = read.map Prod.fst ++ p.fifo.queue
  calls : p.calls = read.flatMap passedOn
  icount : p.icount = BitVec.ofNat 32 read.length

theorem RxInv.arrive (h : RxInv read p) (bs : List Byte) :
    RxInv read { p with fifo := p.fifo.arrive bs } where
  arrived := by
    show p.fifo.arrived ++ _ = read.map Prod.fst ++ (p.fifo.queue ++ _)
    rw [h.arrived, List.append_assoc]
  calls := h.calls
  icount := h.icount

theorem RxInv.access (h : RxInv read p) : RxInv read { p with fifo := p.fifo.access } :=
  have ha := h.arrive (p.fifo.arrives p.fifo.accesses)
  ⟨ha.arrived, ha.calls, ha.icount⟩

/-- The first byte of the FIFO is passed on. -/
def passOn (taken : Bool) (p : RxPort) : RxPort :=
  { p with
    fifo := p.fifo.pop
    icount := p.icount + 1
    calls := p.calls ++ passedOn (p.fifo.queue.headD 0, taken) }

theorem RxInv.passOn (h : RxInv read p) (hne : p.fifo.queue ≠ []) (taken : Bool) :
    RxInv (read ++ [(p.fifo.queue.headD 0, taken)]) (passOn taken p) := by
  obtain ⟨c, cs, hq⟩ := List.exists_cons_of_ne_nil hne
  refine ⟨?_, ?_, ?_⟩
  · show p.fifo.arrived = (read ++ [(p.fifo.queue.headD 0, taken)]).map Prod.fst ++ p.fifo.queue.tail
    rw [h.arrived, hq, List.map_append, List.append_assoc]
    rfl
  · show p.calls ++ _ = _
    rw [List.flatMap_append, h.calls, List.flatMap_singleton]
  · show p.icount + 1 = BitVec.ofNat 32 (read ++ [_]).length
    rw [List.length_append, BitVec.ofNat_add, h.icount]
    rfl

/-- The state after a turn that reads a byte. -/
def afterTurn (sysrq : List CoreCall → Byte → Bool) (p : RxPort) : RxPort :=
  passOn (sysrq p.calls (p.fifo.access.access.queue.headD 0)) { p with fifo := p.fifo.access.access }

/-- The calls of a turn. -/
theorem turnCalls_run (p : RxPort) (ch : Byte) (fuel : Nat) :
    (do
      if !(← uartHandleSysrqChar sysrq ch) then
        uartInsertChar 1 0 ch ttyNormal
      ttyFlipBufferPush
      return .inl () : Fueled RxPort (Unit ⊕ Unit)) fuel p =
      some (.inl (), { p with calls := p.calls ++ passedOn (ch, sysrq p.calls ch) }) := by
  rw [Fueled.bind_run]
  show Option.bind (some (sysrq p.calls ch, p.call (.handleSysrqChar ch (sysrq p.calls ch)))) _ = _
  rw [Option.bind_some]
  cases hs : sysrq p.calls ch with
  | false =>
    show some (_, (((p.call _).call _).call _)) = _
    simp only [RxPort.call, passedOn, List.append_assoc]
    rfl
  | true =>
    show some (_, ((p.call _).call _)) = _
    simp only [RxPort.call, passedOn, List.append_assoc]
    rfl

/-- A turn, with any fuel. -/
theorem timerTurn_run (p : RxPort) (fuel : Nat) :
    timerTurn sysrq fuel p = some (if p.fifo.access.queue.isEmpty then
      (.inr (), { p with fifo := p.fifo.access }) else (.inl (), afterTurn sysrq p)) := by
  unfold timerTurn
  rw [Fueled.bind_run]
  show Option.bind (some _) _ = _
  rw [Option.bind_some]
  by_cases he : p.fifo.access.queue.isEmpty = true
  · rw [if_pos he, if_pos he]
    rfl
  · rw [if_neg he, if_neg he]
    exact turnCalls_run { p with fifo := p.fifo.access.access.pop, icount := p.icount + 1 } _ fuel

theorem RxInv.afterTurn (h : RxInv read p) (hne : p.fifo.access.queue ≠ []) :
    ∃ read', RxInv read' (afterTurn sysrq p) :=
  ⟨_, h.access.access.passOn (fun he => hne (List.append_eq_nil_iff.mp he).1) _⟩

/-- If the function returns, the FIFO was empty at its last read. -/
theorem liteuartTimer_ensures (h : RxInv read p) :
    Fueled.Ensures (liteuartTimer sysrq) p fun _ p' =>
      (∃ read', RxInv read' p') ∧ p'.fifo.queue = [] ∧ p'.armed = true := by
  refine Fueled.Ensures.bind (Q := fun _ p' => (∃ read', RxInv read' p') ∧ p'.fifo.queue = []) ?_ ?_
  · refine Fueled.Ensures.loop (I := fun _ p' => ∃ read', RxInv read' p')
      (fun _ p₁ h₁ fuel r p₂ hr => ?_) ⟨read, h⟩
    obtain ⟨read₁, h₁⟩ := h₁
    rw [timerTurn_run] at hr
    by_cases he : p₁.fifo.access.queue.isEmpty = true
    · rw [if_pos he] at hr
      obtain ⟨rfl, rfl⟩ := Prod.mk.inj (Option.some.inj hr)
      exact ⟨⟨read₁, h₁.access⟩, List.isEmpty_iff.mp he⟩
    · rw [if_neg he] at hr
      obtain ⟨rfl, rfl⟩ := Prod.mk.inj (Option.some.inj hr)
      exact h₁.afterTurn (mt List.isEmpty_iff.mpr he)
  · rintro - p₁ ⟨⟨read₁, h₁⟩, he⟩
    refine (Fueled.Ensures.act _ p₁).mono fun _ p' hp => ?_
    obtain ⟨-, rfl⟩ := Prod.mk.inj hp
    exact ⟨⟨read₁, h₁.arrived, h₁.calls, h₁.icount⟩, he, rfl⟩

/-- While something arrives before every access, it does not return. -/
theorem liteuartTimer_busy (h : p.fifo.Busy) :
    Fueled.Ensures (liteuartTimer sysrq) p fun _ _ => False := by
  refine Fueled.Ensures.bind (Q := fun _ _ => False) ?_ fun _ _ hf => hf.elim
  refine Fueled.Ensures.loop (I := fun _ p' => p'.fifo.Busy) (fun _ p₁ h₁ fuel r p₂ hr => ?_) h
  obtain ⟨hbusy, hne⟩ := h₁.access
  rw [timerTurn_run, if_neg (mt List.isEmpty_iff.mp hne)] at hr
  obtain ⟨rfl, rfl⟩ := Prod.mk.inj (Option.some.inj hr)
  exact hbusy.access.1

/-- The loop ends if the other side stops. The measure is the accesses until then, and then the bytes of
the FIFO. -/
theorem timerLoop_yields {n : Nat} (p : RxPort) (h : ∀ m, n ≤ m → p.fifo.arrives m = []) :
    ∃ p', Fueled.LoopYields (fun _ => timerTurn sysrq) () p () p' := by
  generalize hμ : (n - p.fifo.accesses) * (p.fifo.depth + 1) + p.fifo.queue.length = μ
  induction μ using Nat.strongRecOn generalizing p with
  | ind μ ih =>
    by_cases he : p.fifo.access.queue.isEmpty = true
    · refine ⟨{ p with fifo := p.fifo.access }, .stop ⟨0, fun fuel _ => ?_⟩⟩
      rw [timerTurn_run, if_pos he]
    · have hlt : (n - (afterTurn sysrq p).fifo.accesses) * ((afterTurn sysrq p).fifo.depth + 1) +
          (afterTurn sysrq p).fifo.queue.length < μ := by
        have hacc : (afterTurn sysrq p).fifo.accesses = p.fifo.accesses + 2 := rfl
        have hdepth : (afterTurn sysrq p).fifo.depth = p.fifo.depth := rfl
        have hb := (afterTurn sysrq p).fifo.bounded
        rw [hacc, hdepth]
        rw [hdepth] at hb
        rcases Nat.lt_or_ge p.fifo.accesses n with hlt | hge
        · have hmul : (n - (p.fifo.accesses + 2)) * (p.fifo.depth + 1) + (p.fifo.depth + 1) ≤
              (n - p.fifo.accesses) * (p.fifo.depth + 1) := by
            rw [← Nat.succ_mul]
            exact Nat.mul_le_mul_right _ (by omega)
          omega
        · -- nothing arrives any more, and a byte was read
          have hacc₁ : p.fifo.access.queue = p.fifo.queue := by
            simp [RxFifo.access, RxFifo.arrive, h p.fifo.accesses hge]
          have hacc₂ : p.fifo.access.access.queue = p.fifo.access.queue := by
            have hnext : p.fifo.access.arrives p.fifo.access.accesses = [] :=
              h (p.fifo.accesses + 1) (by omega)
            rw [RxFifo.access, hnext]
            simp [RxFifo.arrive]
          have hqueue : (afterTurn sysrq p).fifo.queue = p.fifo.queue.tail := by
            show p.fifo.access.access.queue.tail = _
            rw [hacc₂, hacc₁]
          have hpos : p.fifo.queue ≠ [] := by
            rw [hacc₁] at he
            exact mt List.isEmpty_iff.mpr he
          have := List.length_pos_iff.mpr hpos
          rw [hqueue, List.length_tail, Nat.sub_eq_zero_of_le hge, Nat.zero_mul,
            Nat.sub_eq_zero_of_le (by omega), Nat.zero_mul] at *
          omega
      obtain ⟨p', hrest⟩ := ih _ hlt (afterTurn sysrq p) h rfl
      refine ⟨p', .again ⟨0, fun fuel _ => ?_⟩ hrest⟩
      rw [timerTurn_run, if_neg he]

/-- Where the other side stops to send, or sends before every access, `liteuart_timer` returns if and
only if it stops. -/
theorem timer_returns_iff (sysrq : List CoreCall → Byte → Bool) (p : RxPort)
    (hside : p.fifo.Stops ∨ p.fifo.Busy) :
    (∃ p', Fueled.Yields (liteuartTimer sysrq) p () p') ↔ p.fifo.Stops := by
  constructor
  · rintro ⟨p', hy⟩
    exact hside.resolve_right fun hbusy => hy.ensures (liteuartTimer_busy hbusy)
  · rintro ⟨n, hn⟩
    obtain ⟨p', hloop⟩ := timerLoop_yields p hn
    exact ⟨_, hloop.yields.bind (Fueled.Yields.act _ p')⟩

end

theorem timer_returns_iff_quiet :
    ∃ p', Fueled.Yields (liteuartTimer fun _ _ => false)
      ⟨⟨16, [97], by decide, by decide, [97], 0, fun _ => []⟩, 0, [], false⟩ () p' :=
  (timer_returns_iff _ _ (.inl ⟨0, fun _ _ => rfl⟩)).mpr ⟨0, fun _ _ => rfl⟩

/-! ## The system -/

inductive RxEv where
  | arrive (bs : List Byte)
  | startup
  | stopRx
  /-- The timer fires; the call ends with the fuel `fuel`. -/
  | timer (fuel : Nat)

namespace RxPort

def step (sysrq : List CoreCall → Byte → Bool) (p : RxPort) : RxEv → Option RxPort
  | .arrive bs => some { p with fifo := p.fifo.arrive bs }
  -- `liteuart_startup`, `liteuart_stop_rx`
  | .startup => some { p with armed := true }
  | .stopRx => some { p with armed := false }
  | .timer fuel =>
    if p.armed then
      (liteuartTimer sysrq fuel { p with armed := false }).map Prod.snd
    else none

def machine (sysrq : List CoreCall → Byte → Bool) : Machine RxPort RxEv := ⟨step sysrq⟩

/-- A port before `startup`, with any FIFO that is empty. -/
def start (depth : Nat) (h : 0 < depth) (arrives : Nat → List Byte) : RxPort :=
  ⟨⟨depth, [], Nat.zero_le _, h, [], 0, arrives⟩, 0, [], false⟩

variable {sysrq : List CoreCall → Byte → Bool} {p p' : RxPort} {es : List RxEv}
  {read : List (Byte × Bool)}

/-- A call of `liteuart_timer`. -/
theorem timer_step {fuel : Nat} (h : RxInv read p)
    (hst : (machine sysrq).step p (.timer fuel) = some p') :
    (∃ read', RxInv read' p') ∧ p'.fifo.queue = [] := by
  have hst : (if p.armed then
    (liteuartTimer sysrq fuel { p with armed := false }).map Prod.snd else none) = some p' := hst
  split at hst
  · obtain ⟨⟨⟨⟩, p₁⟩, hrun, rfl⟩ := Option.map_eq_some_iff.mp hst
    have hfired : RxInv read { p with armed := false } := ⟨h.arrived, h.calls, h.icount⟩
    obtain ⟨hinv, hempty, -⟩ := liteuartTimer_ensures hfired fuel () p₁ hrun
    exact ⟨hinv, hempty⟩
  · cases hst

theorem inv_step (e : RxEv) (h : ∃ read, RxInv read p) (hst : (machine sysrq).step p e = some p') :
    ∃ read, RxInv read p' := by
  obtain ⟨read, h⟩ := h
  cases e with
  | arrive bs =>
    cases hst
    exact ⟨read, h.arrive bs⟩
  | startup =>
    cases hst
    exact ⟨read, h.arrived, h.calls, h.icount⟩
  | stopRx =>
    cases hst
    exact ⟨read, h.arrived, h.calls, h.icount⟩
  | timer fuel => exact (timer_step h hst).1

/-- After every run the calls of the serial core are those for the bytes that the driver has read, in
order, and the bytes inserted are those that the core has not taken, each one once. With the bytes in
the FIFO they are the bytes that arrived, and right after a call of `liteuart_timer` there are none in
it. -/
theorem polls_in_order (depth : Nat) (h : 0 < depth) (arrives : Nat → List Byte)
    (hr : (machine sysrq).run es (start depth h arrives) = some p) :
    ∃ read : List (Byte × Bool), p.fifo.arrived = read.map Prod.fst ++ p.fifo.queue ∧
      p.calls = read.flatMap passedOn ∧
      inserted p.calls = (read.filter fun r => !r.2).map Prod.fst ∧
      p.icount = BitVec.ofNat 32 read.length ∧
      ∀ fs fuel, es = fs ++ [.timer fuel] → p.fifo.queue = [] := by
  have hstart : ∃ read, RxInv read (start depth h arrives) := ⟨[], rfl, rfl, rfl⟩
  obtain ⟨read, hinv⟩ := Machine.run_inv (fun _ e _ h hst => inv_step e h hst) hstart hr
  refine ⟨read, hinv.arrived, hinv.calls, hinv.calls ▸ inserted_passedOn read, hinv.icount, ?_⟩
  rintro fs fuel rfl
  obtain ⟨p₁, hr₁, hst⟩ := Machine.run_snoc.mp hr
  obtain ⟨read₁, hinv₁⟩ := Machine.run_inv (fun _ e _ h hst => inv_step e h hst) hstart hr₁
  exact (timer_step hinv₁ hst).2

/-- A byte that the kernel takes, between two others. -/
theorem polls_in_order_sysrq :
    ∃ p, (machine fun _ ch => ch == 98).run [.startup, .arrive [97, 98, 99], .timer 4]
        (start 16 (by decide) fun _ => []) = some p ∧
      inserted p.calls = [97, 99] ∧
      ∃ read : List (Byte × Bool), p.fifo.arrived = read.map Prod.fst ++ p.fifo.queue ∧
        p.calls = read.flatMap passedOn ∧ p.fifo.queue = [] := by
  have hrun : ((machine fun _ ch => ch == 98).run [.startup, .arrive [97, 98, 99], .timer 4]
      (start 16 (by decide) fun _ => [])).map (fun p => inserted p.calls) = some [97, 99] := by
    decide +kernel
  obtain ⟨p, hp, hins⟩ := Option.map_eq_some_iff.mp hrun
  obtain ⟨read, harrived, hcalls, -, -, hempty⟩ := polls_in_order 16 (by decide) (fun _ => []) hp
  exact ⟨p, hp, hins, read, harrived, hcalls, hempty [.startup, .arrive [97, 98, 99]] 4 rfl⟩

end RxPort

end Liteuart
end Kernel
end Xtrx
