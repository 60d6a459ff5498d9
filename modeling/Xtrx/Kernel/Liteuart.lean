import Xtrx.Lib.CircBuf
import Xtrx.Lib.Fuel
import Xtrx.Lib.Machine

/-!
# The serial port to the board's processor: transmission (`liteuart.c`)

- **Core** (`TxFifo`): a FIFO of some depth; a byte that is written while it is full is lost. The
  other side takes bytes at any time: `takes i` of them before register access `i` of the driver, and
  more between the driver's functions.
- **Functions**: `liteuart_putchar` and `liteuart_start_tx`. They run under the port's lock. The
  circular buffer has `UART_XMIT_SIZE = 2 ^ k` slots.
- **System** (`Tty`): the serial core of the kernel puts characters into the circular buffer while
  it has room, sets `x_char`, and calls `start_tx`. A flow control character counts from the
  `start_tx` on that finds it in `x_char`; if the serial core puts another one there before, it has
  replaced it itself.
- **`tty_in_order`**: what the core got are the characters of the serial core, each one once and in
  order; `xChars_kept_iff`: flow control characters are lost exactly when the FIFO is full.
- **`startTx_ends`**: `start_tx` waits until the other side has made room for all characters.
-/

namespace Xtrx
namespace Kernel
namespace Liteuart

open Conc

abbrev Byte := BitVec 8

/-- A byte that was written to the core, with the mark of a flow control character. The core does not
see the mark. -/
structure Sent where
  byte : Byte
  xChar : Bool
  deriving DecidableEq

/-- The transmit side of the core: a FIFO, what was taken from it, and when it is taken. -/
structure TxFifo where
  depth : Nat
  queue : List Sent
  bounded : queue.length ≤ depth
  depth_pos : 0 < depth
  taken : List Sent
  accesses : Nat
  takes : Nat → Nat

namespace TxFifo

/-- What the core accepted. -/
def sent (f : TxFifo) : List Sent := f.taken ++ f.queue

def full (f : TxFifo) : Bool := f.depth ≤ f.queue.length

/-- The other side takes `n` bytes, or what there is. -/
def take (n : Nat) (f : TxFifo) : TxFifo :=
  { f with
    queue := f.queue.drop n
    bounded := by
      have := f.bounded
      rw [List.length_drop]
      omega
    taken := f.taken ++ f.queue.take n }

/-- A register access of the driver; before it the other side takes its bytes. -/
def access (f : TxFifo) : TxFifo :=
  { f.take (f.takes f.accesses) with accesses := f.accesses + 1 }

def put (c : Sent) (f : TxFifo) : TxFifo :=
  if h : f.full then f
  else
    { f with
      queue := f.queue ++ [c]
      bounded := by
        have hlt : f.queue.length < f.depth := by simpa [full] using h
        rw [List.length_append, List.length_singleton]
        omega }

variable {f : TxFifo} {n : Nat} {c : Sent}

@[simp] theorem sent_take : (f.take n).sent = f.sent := by simp [take, sent]

@[simp] theorem sent_access : f.access.sent = f.sent := sent_take

theorem sent_put : (f.put c).sent = f.sent ++ if f.full then [] else [c] := by
  unfold put
  split <;> simp [sent, *]

theorem full_access (h : f.full = false) : f.access.full = false := by
  simp only [full, access, take, List.length_drop, decide_eq_false_iff_not] at *
  omega

/-- The other side takes again and again. -/
def Live (f : TxFifo) : Prop := ∀ n, ∃ m, n ≤ m ∧ 0 < f.takes m

/-- The other side has stopped to take. -/
def Silent (f : TxFifo) : Prop := ∀ n, f.accesses ≤ n → f.takes n = 0

/-- The FIFO `f'` comes after `f`: it has the same other side. -/
structure After (f f' : TxFifo) : Prop where
  takes : f'.takes = f.takes
  depth : f'.depth = f.depth
  silent : f.Silent → f'.taken = f.taken ∧ f'.Silent

theorem After.refl (f : TxFifo) : After f f := ⟨rfl, rfl, fun h => ⟨rfl, h⟩⟩

theorem After.trans {f' f'' : TxFifo} (h : After f f') (h' : After f' f'') : After f f'' where
  takes := h'.takes.trans h.takes
  depth := h'.depth.trans h.depth
  silent := fun hs => by
    obtain ⟨htaken, hs'⟩ := h.silent hs
    obtain ⟨htaken', hs''⟩ := h'.silent hs'
    exact ⟨htaken'.trans htaken, hs''⟩

theorem after_access (f : TxFifo) : After f f.access := by
  refine ⟨rfl, rfl, fun h => ⟨?_, fun n hn => h n ?_⟩⟩
  · simp [access, take, h f.accesses (Nat.le_refl _)]
  · have hn : f.accesses + 1 ≤ n := hn
    omega

theorem after_put (f : TxFifo) (c : Sent) : After f (f.put c) := by
  unfold put
  split
  · exact After.refl f
  · exact ⟨rfl, rfl, fun h => ⟨rfl, h⟩⟩

/-- The other side lets `n` more bytes into the FIFO. -/
def Accepts (f : TxFifo) (n : Nat) : Prop := f.Live ∨ f.Silent ∧ f.queue.length + n ≤ f.depth

/-- After bytes were accepted the other side accepts so many less. -/
theorem Accepts.sent {f' : TxFifo} {cs : List Sent} (h : f.Accepts (cs.length + n))
    (hsent : f'.sent = f.sent ++ cs) (ha : After f f') : f'.Accepts n := by
  rcases h with h | ⟨h, hroom⟩
  · refine .inl fun i => ?_
    rw [ha.takes]
    exact h i
  · obtain ⟨htaken, hs⟩ := ha.silent h
    simp only [TxFifo.sent, htaken, List.append_assoc, List.append_cancel_left_eq] at hsent
    refine .inr ⟨hs, ?_⟩
    rw [hsent, ha.depth, List.length_append]
    omega

end TxFifo

/-! ## The driver -/

/-- The port, with `UART_XMIT_SIZE` of `2 ^ k`. -/
structure TxPort (k : Nat) where
  fifo : TxFifo
  xmit : CircBuf k Byte
  xChar : Byte
  icount : BitVec 32
  wakeups : Nat

/-- `WAKEUP_CHARS`. -/
def wakeupChars : Nat := 256

variable {k : Nat}

/-- `litex_read8(port->membase + OFF_TXFULL)`. -/
def readTxfull : Fueled (TxPort k) Bool := Fueled.act fun p =>
  (p.fifo.access.full, { p with fifo := p.fifo.access })

/-- `litex_write8(port->membase + OFF_RXTX, ch)`. -/
def writeRxtx (c : Sent) : Fueled (TxPort k) Unit := Fueled.act fun p =>
  ((), { p with fifo := p.fifo.access.put c })

/-- `while (litex_read8(port->membase + OFF_TXFULL)) cpu_relax()`. -/
def waitTxfull : Fueled (TxPort k) Unit := Fueled.loop (fun _ => do
  if ← readTxfull then
    return .inl ()
  else
    return .inr ()) ()

/-- `liteuart_putchar`. -/
def liteuartPutchar (ch : Byte) : Fueled (TxPort k) Unit := do
  waitTxfull
  writeRxtx ⟨ch, false⟩

/-- The turns of the loop of `liteuart_start_tx`. -/
def startTxTurn : Fueled (TxPort k) (Unit ⊕ Unit) := do
  let p ← Fueled.act fun p => (p, p)
  match p.xmit.pop with
  | none => return .inr ()
  | some (ch, xmit) =>
    Fueled.act fun p => ((), { p with xmit, icount := p.icount + 1 })
    liteuartPutchar ch
    return .inl ()

/-- The characters that `liteuart_start_tx` sends. -/
def startTxSend : Fueled (TxPort k) Unit := do
  let p ← Fueled.act fun p => (p, p)
  if p.xChar ≠ 0 then
    writeRxtx ⟨p.xChar, true⟩
    Fueled.act fun p => ((), { p with icount := p.icount + 1, xChar := 0 })
  else if p.xmit.head ≠ p.xmit.tail then
    Fueled.loop (fun _ => startTxTurn) ()
  else
    return ()

/-- `liteuart_start_tx`. -/
def liteuartStartTx : Fueled (TxPort k) Unit := do
  startTxSend
  Fueled.act fun p =>
    ((), if p.xmit.count < wakeupChars then { p with wakeups := p.wakeups + 1 } else p)

/-! ### What the functions do -/

section

variable {p p' : TxPort k} {ch : Byte}

/-- Only the core has changed: it accepted `cs`. -/
structure Puts (p : TxPort k) (cs : List Sent) (p' : TxPort k) : Prop where
  sent : p'.fifo.sent = p.fifo.sent ++ cs
  after : p.fifo.After p'.fifo
  xmit : p'.xmit = p.xmit
  xChar : p'.xChar = p.xChar
  icount : p'.icount = p.icount
  wakeups : p'.wakeups = p.wakeups

theorem Puts.refl (p : TxPort k) : Puts p [] p := ⟨by simp, .refl _, rfl, rfl, rfl, rfl⟩

theorem Puts.trans {p'' : TxPort k} {cs cs' : List Sent} (h : Puts p cs p') (h' : Puts p' cs' p'') :
    Puts p (cs ++ cs') p'' where
  sent := by rw [h'.sent, h.sent, List.append_assoc]
  after := h.after.trans h'.after
  xmit := h'.xmit.trans h.xmit
  xChar := h'.xChar.trans h.xChar
  icount := h'.icount.trans h.icount
  wakeups := h'.wakeups.trans h.wakeups

theorem puts_access (p : TxPort k) : Puts p [] { p with fifo := p.fifo.access } :=
  ⟨by simp, TxFifo.after_access _, rfl, rfl, rfl, rfl⟩

theorem puts_write (p : TxPort k) (c : Sent) :
    Puts p (if p.fifo.access.full then [] else [c]) { p with fifo := p.fifo.access.put c } :=
  ⟨by rw [TxFifo.sent_put, TxFifo.sent_access],
    (TxFifo.after_access _).trans (TxFifo.after_put _ c), rfl, rfl, rfl, rfl⟩

/-- A character is written when there is room for it. -/
theorem liteuartPutchar_ensures (ch : Byte) (p : TxPort k) :
    Fueled.Ensures (liteuartPutchar ch) p fun _ p' => Puts p [⟨ch, false⟩] p' := by
  refine Fueled.Ensures.bind (Q := fun _ p' => Puts p [] p' ∧ p'.fifo.full = false) ?_ ?_
  · refine Fueled.Ensures.loop (I := fun _ p' => Puts p [] p') (fun _ p₁ h₁ => ?_) (Puts.refl p)
    refine (Fueled.Ensures.act _ p₁).bind fun full p₂ h₂ => ?_
    obtain ⟨rfl, rfl⟩ := Prod.mk.inj h₂
    by_cases hfull : p₁.fifo.access.full = true
    · rw [if_pos hfull]
      refine (Fueled.Ensures.pure _ _).mono ?_
      rintro r p' ⟨rfl, rfl⟩
      exact h₁.trans (puts_access p₁)
    · rw [if_neg hfull]
      refine (Fueled.Ensures.pure _ _).mono ?_
      rintro r p' ⟨rfl, rfl⟩
      exact ⟨h₁.trans (puts_access p₁), Bool.eq_false_iff.mpr hfull⟩
  · rintro - p₁ ⟨h₁, hroom⟩
    refine (Fueled.Ensures.act _ p₁).mono fun _ p' h => ?_
    obtain ⟨-, rfl⟩ := Prod.mk.inj h
    -- the other side has only made more room since
    have hput := puts_write p₁ ⟨ch, false⟩
    rw [TxFifo.full_access hroom] at hput
    exact h₁.trans hput

/-- A character of the circular buffer. -/
def char (b : Byte) : Sent := ⟨b, false⟩

/-- The first characters `bs` of the circular buffer have gone to the core. -/
structure Drains (p : TxPort k) (bs : List Byte) (p' : TxPort k) : Prop where
  items : p.xmit.items = bs ++ p'.xmit.items
  sent : p'.fifo.sent = p.fifo.sent ++ bs.map char
  icount : p'.icount = p.icount + BitVec.ofNat 32 bs.length
  after : p.fifo.After p'.fifo
  xChar : p'.xChar = p.xChar
  wakeups : p'.wakeups = p.wakeups

theorem Drains.refl (p : TxPort k) : Drains p [] p := ⟨rfl, by simp, by simp, .refl _, rfl, rfl⟩

theorem Drains.trans {p'' : TxPort k} {bs bs' : List Byte} (h : Drains p bs p')
    (h' : Drains p' bs' p'') : Drains p (bs ++ bs') p'' where
  items := by rw [h.items, h'.items, List.append_assoc]
  sent := by rw [h'.sent, h.sent, List.map_append, List.append_assoc]
  icount := by rw [h'.icount, h.icount, List.length_append, BitVec.ofNat_add, BitVec.add_assoc]
  after := h.after.trans h'.after
  xChar := h'.xChar.trans h.xChar
  wakeups := h'.wakeups.trans h.wakeups

/-- The first character. -/
theorem drains_putchar {xmit : CircBuf k Byte} (hpop : p.xmit.pop = some (ch, xmit))
    (h : Puts { p with xmit, icount := p.icount + 1 } [⟨ch, false⟩] p') : Drains p [ch] p' where
  items := by
    rw [CircBuf.items_pop hpop, h.xmit]
    rfl
  sent := h.sent
  icount := h.icount
  after := h.after
  xChar := h.xChar
  wakeups := h.wakeups

/-- What `liteuart_start_tx` has sent. -/
inductive Started (p p' : TxPort k) : Prop
  /-- A flow control character; it is lost if the FIFO is full. -/
  | xChar (hx : p.xChar ≠ 0)
      (sent : p'.fifo.sent =
        p.fifo.sent ++ if p.fifo.access.full then [] else [⟨p.xChar, true⟩])
      (xmit : p'.xmit = p.xmit) (icount : p'.icount = p.icount + 1) (done : p'.xChar = 0)
  /-- All characters of the circular buffer. -/
  | chars (hx : p.xChar = 0) (sent : p'.fifo.sent = p.fifo.sent ++ p.xmit.items.map char)
      (icount : p'.icount = p.icount + BitVec.ofNat 32 p.xmit.items.length)
      (empty : p'.xmit.items = []) (kept : p'.xChar = 0)

/-- It has drained the circular buffer. -/
theorem Drains.started {bs : List Byte} (h : Drains p bs p') (hx : p.xChar = 0)
    (hempty : p'.xmit.items = []) : Started p p' := by
  have hitems := h.items
  rw [hempty, List.append_nil] at hitems
  subst hitems
  exact .chars hx h.sent h.icount hempty (h.xChar.trans hx)

theorem startTxTurn_ensures (p₀ p : TxPort k) (h : ∃ bs, Drains p₀ bs p) :
    Fueled.Ensures startTxTurn p fun r p' =>
      Sum.elim (fun _ => ∃ bs, Drains p₀ bs p') (fun _ => p'.xmit.items = [] ∧ ∃ bs, Drains p₀ bs p') r := by
  obtain ⟨bs, h⟩ := h
  refine (Fueled.Ensures.act _ p).bind fun q p₁ h₁ => ?_
  obtain ⟨rfl, rfl⟩ := Prod.mk.inj h₁
  cases hpop : p₁.xmit.pop with
  | none =>
    refine (Fueled.Ensures.pure _ _).mono ?_
    rintro r p' ⟨rfl, rfl⟩
    refine ⟨?_, bs, h⟩
    rw [CircBuf.items_eq_nil]
    by_contra hne
    rw [CircBuf.pop, if_neg hne] at hpop
    cases hpop
  | some r =>
    obtain ⟨ch, xmit⟩ := r
    refine (Fueled.Ensures.act _ _).bind fun _ p₂ h₂ => ?_
    obtain ⟨-, rfl⟩ := Prod.mk.inj h₂
    refine (liteuartPutchar_ensures ch _).bind fun _ p₃ h₃ => ?_
    refine (Fueled.Ensures.pure _ _).mono ?_
    rintro r p' ⟨rfl, rfl⟩
    exact ⟨bs ++ [ch], h.trans (drains_putchar hpop h₃)⟩

theorem startTxSend_ensures (p : TxPort k) :
    Fueled.Ensures startTxSend p fun _ p' => Started p p' ∧ p.fifo.After p'.fifo ∧
      p'.wakeups = p.wakeups := by
  refine (Fueled.Ensures.act _ p).bind fun q p₁ h₁ => ?_
  obtain ⟨rfl, rfl⟩ := Prod.mk.inj h₁
  by_cases hx : p₁.xChar ≠ 0
  · rw [if_pos hx]
    refine (Fueled.Ensures.act _ p₁).bind fun _ p₂ h₂ => ?_
    obtain ⟨-, rfl⟩ := Prod.mk.inj h₂
    refine (Fueled.Ensures.act _ _).mono fun _ p' h => ?_
    obtain ⟨-, rfl⟩ := Prod.mk.inj h
    have hw := puts_write p₁ ⟨p₁.xChar, true⟩
    exact ⟨.xChar hx hw.sent rfl rfl rfl, hw.after, rfl⟩
  · rw [if_neg hx]
    have hx0 := not_not.mp hx
    by_cases hne : p₁.xmit.head ≠ p₁.xmit.tail
    · rw [if_pos hne]
      have hloop := Fueled.Ensures.loop (x := ()) (I := fun _ p => ∃ bs, Drains p₁ bs p)
        (J := fun _ p' => p'.xmit.items = [] ∧ ∃ bs, Drains p₁ bs p')
        (fun _ p h => startTxTurn_ensures p₁ p h) ⟨[], Drains.refl p₁⟩
      refine hloop.mono ?_
      rintro - p' ⟨hempty, bs, h⟩
      exact ⟨h.started hx0 hempty, h.after, h.wakeups⟩
    · rw [if_neg hne]
      refine (Fueled.Ensures.pure _ _).mono ?_
      rintro - p' ⟨-, rfl⟩
      have hempty := CircBuf.items_eq_nil.mpr (not_not.mp hne)
      exact ⟨(Drains.refl p').started hx0 hempty, .refl _, rfl⟩

/-- `liteuart_start_tx`, if it returns. -/
theorem liteuartStartTx_ensures (p : TxPort k) :
    Fueled.Ensures liteuartStartTx p fun _ p' => Started p p' ∧ p.fifo.After p'.fifo ∧
      p'.wakeups = p.wakeups + if p'.xmit.count < wakeupChars then 1 else 0 := by
  refine (startTxSend_ensures p).bind ?_
  rintro - p₁ ⟨h, hafter, hw⟩
  refine (Fueled.Ensures.act _ p₁).mono fun _ p' he => ?_
  obtain ⟨-, rfl⟩ := Prod.mk.inj he
  by_cases hc : p₁.xmit.count < wakeupChars
  · simp only [if_pos hc, hw, and_true]
    refine ⟨?_, hafter⟩
    cases h with
    | xChar hx sent xmit icount done => exact .xChar hx sent xmit icount done
    | chars hx sent icount empty kept => exact .chars hx sent icount empty kept
  · simp only [if_neg hc, hw, h, hafter, Nat.add_zero, and_true]

/-! ### When the functions return -/

/-- A turn of the wait. -/
theorem waitTxfull_turn (p : TxPort k) :
    Fueled.Yields (do if ← readTxfull then return .inl () else return .inr ()) p
      (if p.fifo.access.full then .inl () else .inr () : Unit ⊕ Unit)
      { p with fifo := p.fifo.access } := by
  refine (Fueled.Yields.act _ p).bind ?_
  dsimp only
  cases p.fifo.access.full
  · exact Fueled.Yields.pure _ _
  · exact Fueled.Yields.pure _ _

/-- The wait for room in the FIFO ends. -/
theorem waitTxfull_yields (h : p.fifo.Accepts 1) : ∃ p', Fueled.Yields waitTxfull p () p' := by
  suffices hloop : ∃ p', Fueled.LoopYields (fun _ : Unit => do
      if ← readTxfull then return .inl () else return .inr ()) () p () p' from
    hloop.imp fun _ => Fueled.LoopYields.yields
  rcases h with hlive | ⟨hsilent, hroom⟩
  · obtain ⟨m, hm, htakes⟩ := hlive p.fifo.accesses
    generalize hd : m - p.fifo.accesses = d
    induction d generalizing p with
    | zero =>
      have hfull : p.fifo.access.full = false := by
        have hacc : p.fifo.accesses = m := by omega
        have hb := p.fifo.bounded
        have hpos := p.fifo.depth_pos
        simp only [TxFifo.full, TxFifo.access, TxFifo.take, List.length_drop, decide_eq_false_iff_not,
          hacc]
        omega
      have hturn := waitTxfull_turn p
      rw [hfull] at hturn
      exact ⟨_, .stop hturn⟩
    | succ d ih =>
      have hturn := waitTxfull_turn p
      by_cases hfull : p.fifo.access.full = true
      · rw [if_pos hfull] at hturn
        have hacc : p.fifo.access.accesses = p.fifo.accesses + 1 := rfl
        obtain ⟨p', hrest⟩ := ih (p := { p with fifo := p.fifo.access }) hlive
          (by rw [hacc]; omega) htakes (by rw [hacc]; omega)
        exact ⟨p', .again hturn hrest⟩
      · rw [if_neg hfull] at hturn
        exact ⟨_, .stop hturn⟩
  · have hfull : p.fifo.access.full = false := TxFifo.full_access (by
      simp only [TxFifo.full, decide_eq_false_iff_not]
      omega)
    have hturn := waitTxfull_turn p
    rw [hfull] at hturn
    exact ⟨_, .stop hturn⟩

theorem liteuartPutchar_yields (ch : Byte) (h : p.fifo.Accepts 1) :
    ∃ p', Fueled.Yields (liteuartPutchar ch) p () p' := by
  obtain ⟨p₁, hwait⟩ := waitTxfull_yields h
  exact ⟨_, hwait.bind (Fueled.Yields.act _ p₁)⟩

theorem TxFifo.Accepts.mono {f : TxFifo} {m n : Nat} (h : f.Accepts n) (hm : m ≤ n) : f.Accepts m :=
  h.imp_right fun ⟨hs, hroom⟩ => ⟨hs, by omega⟩

/-- The loop of `liteuart_start_tx`, with the characters that are left. -/
theorem startTxLoop_yields (p : TxPort k) (h : p.fifo.Accepts p.xmit.items.length) :
    ∃ p', Fueled.LoopYields (fun _ => startTxTurn) () p () p' := by
  generalize hn : p.xmit.items.length = n at h
  induction n generalizing p with
  | zero =>
    have hpop : p.xmit.pop = none :=
      if_pos (CircBuf.items_eq_nil.mp (List.length_eq_zero_iff.mp hn))
    refine ⟨p, .stop ((Fueled.Yields.act _ p).bind ?_)⟩
    dsimp only
    rw [hpop]
    exact Fueled.Yields.pure _ p
  | succ n ih =>
    obtain ⟨ch, xmit, hpop⟩ : ∃ ch xmit, p.xmit.pop = some (ch, xmit) := by
      have hne : p.xmit.head ≠ p.xmit.tail := fun he => by
        rw [CircBuf.items_eq_nil.mpr he] at hn
        cases hn
      exact ⟨_, _, if_neg hne⟩
    obtain ⟨p₁, hput⟩ := liteuartPutchar_yields ch
      (p := { p with xmit, icount := p.icount + 1 }) (h.mono (by omega))
    have hdrain := drains_putchar hpop (hput.ensures (liteuartPutchar_ensures ch _))
    have hrest : p₁.xmit.items.length = n := by
      have hlen := congrArg List.length hdrain.items
      rw [List.length_append, List.length_singleton] at hlen
      omega
    have haccepts : p₁.fifo.Accepts n :=
      TxFifo.Accepts.sent (h.mono (by simp; omega)) hdrain.sent hdrain.after
    obtain ⟨p', hloop⟩ := ih p₁ hrest haccepts
    refine ⟨p', .again ((Fueled.Yields.act _ p).bind ?_) hloop⟩
    dsimp only
    rw [hpop]
    exact (Fueled.Yields.act _ _).bind (hput.bind (Fueled.Yields.pure _ _))

/-- Where the other side takes again and again, or no more, `liteuart_start_tx` returns if there is a
flow control character to send, or all characters get into the FIFO. -/
theorem startTx_returns_iff (p : TxPort k) (hside : p.fifo.Live ∨ p.fifo.Silent) :
    (∃ p', Fueled.Yields liteuartStartTx p () p') ↔
      p.xChar ≠ 0 ∨ p.fifo.Live ∨ p.fifo.queue.length + p.xmit.count ≤ p.fifo.depth := by
  constructor
  · rintro ⟨p', hy⟩
    obtain ⟨hstarted, hafter, -⟩ := hy.ensures (liteuartStartTx_ensures p)
    cases hstarted with
    | xChar hx => exact .inl hx
    | chars hx hsent =>
      refine .inr (hside.imp_right fun hsilent => ?_)
      have hqueue := hsent
      simp only [TxFifo.sent, (hafter.silent hsilent).1, List.append_assoc,
        List.append_cancel_left_eq] at hqueue
      have hb := p'.fifo.bounded
      rwa [hqueue, hafter.depth, List.length_append, List.length_map, CircBuf.length_items] at hb
  · intro h
    suffices hsend : ∃ p', Fueled.Yields startTxSend p () p' from by
      obtain ⟨p₁, hsend⟩ := hsend
      exact ⟨_, hsend.bind (Fueled.Yields.act _ p₁)⟩
    by_cases hx : p.xChar ≠ 0
    · refine ⟨{ p with
        fifo := p.fifo.access.put ⟨p.xChar, true⟩, icount := p.icount + 1, xChar := 0 },
        (Fueled.Yields.act _ p).bind ?_⟩
      dsimp only
      rw [if_pos hx]
      exact (Fueled.Yields.act _ _).bind (Fueled.Yields.act _ _)
    · have haccepts : p.fifo.Accepts p.xmit.items.length := by
        rw [CircBuf.length_items]
        rcases h.resolve_left hx with hlive | hroom
        · exact .inl hlive
        · exact hside.imp_right fun hs => ⟨hs, hroom⟩
      by_cases hne : p.xmit.head ≠ p.xmit.tail
      · obtain ⟨p', hloop⟩ := startTxLoop_yields p haccepts
        refine ⟨p', (Fueled.Yields.act _ p).bind ?_⟩
        dsimp only
        rw [if_neg hx, if_pos hne]
        exact hloop.yields
      · refine ⟨p, (Fueled.Yields.act _ p).bind ?_⟩
        dsimp only
        rw [if_neg hx, if_neg hne]
        exact Fueled.Yields.pure _ _

end

/-- Two characters, a FIFO of one byte, and nobody who takes it: the call does not return. -/
theorem startTx_returns_iff_stuck :
    ¬ ∃ p', Fueled.Yields (liteuartStartTx (k := 2))
      ⟨⟨1, [], by decide, by decide, [], 0, fun _ => 0⟩, ⟨fun _ => 97, 2, 0, by decide, by decide⟩, 0, 0, 0⟩
      () p' := by
  refine mt (startTx_returns_iff _ (.inr fun _ _ => rfl)).mp ?_
  rintro (hx | hlive | hroom)
  · exact hx rfl
  · obtain ⟨m, -, hm⟩ := hlive 0
    exact Nat.lt_irrefl 0 hm
  · revert hroom
    decide

/-! ## The system -/

/-- The port with the characters that the serial core has put into the circular buffer, and the flow
control characters that `start_tx` has found in `x_char` and sent or lost. -/
structure Tty (k : Nat) where
  port : TxPort k
  written : List Byte
  xChars : List Byte

inductive TtyEv where
  | write (c : Byte)
  | setXChar (c : Byte)
  /-- A call that ends with the fuel `fuel`. -/
  | startTx (fuel : Nat)
  | take

namespace Tty

def step (t : Tty k) : TtyEv → Option (Tty k)
  | .write c => (t.port.xmit.push c).map fun xmit =>
      { t with port := { t.port with xmit }, written := t.written ++ [c] }
  | .setXChar c => some { t with port := { t.port with xChar := c } }
  | .startTx fuel => (liteuartStartTx fuel t.port).map fun r =>
      { t with
        port := r.2
        xChars := if t.port.xChar ≠ 0 then t.xChars ++ [t.port.xChar] else t.xChars }
  | .take => some { t with port := { t.port with fifo := t.port.fifo.take 1 } }

def machine (k : Nat) : Machine (Tty k) TtyEv := ⟨step⟩

/-- An idle port, with any FIFO that is empty. -/
def start (depth : Nat) (h : 0 < depth) (takes : Nat → Nat) : Tty k where
  port := ⟨⟨depth, [], Nat.zero_le _, h, [], 0, takes⟩, .empty fun _ => 0, 0, 0, 0⟩
  written := []
  xChars := []

variable {t t' : Tty k} {es : List TtyEv}

/-- The characters and the flow control characters among bytes of the core. -/
def chars (l : List Sent) : List Byte := (l.filter fun c => !c.xChar).map Sent.byte

def flow (l : List Sent) : List Byte := (l.filter Sent.xChar).map Sent.byte

@[simp] theorem chars_append (l l' : List Sent) : chars (l ++ l') = chars l ++ chars l' := by
  simp [chars]

@[simp] theorem flow_append (l l' : List Sent) : flow (l ++ l') = flow l ++ flow l' := by
  simp [flow]

@[simp] theorem chars_map (bs : List Byte) : chars (bs.map char) = bs := by
  induction bs with
  | nil => rfl
  | cons b bs ih => exact congrArg (b :: ·) ih

@[simp] theorem flow_map (bs : List Byte) : flow (bs.map char) = [] := by
  simp [flow, List.filter_eq_nil_iff, char]

/-- What holds after every run. -/
structure Inv (t : Tty k) : Prop where
  written : t.written = chars t.port.fifo.sent ++ t.port.xmit.items
  flow : (flow t.port.fifo.sent).Sublist t.xChars
  icount : t.port.icount = BitVec.ofNat 32 ((chars t.port.fifo.sent).length + t.xChars.length)

/-- A call of `liteuart_start_tx`. -/
theorem Inv.startTx {p' : TxPort k} (h : Inv t) (hstarted : Started t.port p') :
    Inv { t with
      port := p'
      xChars := if t.port.xChar ≠ 0 then t.xChars ++ [t.port.xChar] else t.xChars } := by
  cases hstarted with
  | xChar hx sent xmit icount done =>
    rw [if_pos hx]
    by_cases hfull : t.port.fifo.access.full = true
    · rw [if_pos hfull, List.append_nil] at sent
      refine ⟨by rw [sent, xmit]; exact h.written, ?_, ?_⟩
      · rw [sent]
        exact h.flow.trans (List.sublist_append_left _ _)
      · rw [sent, icount, h.icount, List.length_append, ← Nat.add_assoc]
        exact (BitVec.ofNat_add _ 1).symm
    · rw [if_neg hfull] at sent
      have hchars : chars [⟨t.port.xChar, true⟩] = [] := rfl
      have hflow : Tty.flow [⟨t.port.xChar, true⟩] = [t.port.xChar] := rfl
      refine ⟨?_, ?_, ?_⟩
      · rw [sent, xmit, chars_append, hchars, List.append_nil]
        exact h.written
      · rw [sent, flow_append, hflow]
        exact h.flow.append (List.Sublist.refl _)
      · rw [sent, icount, h.icount, chars_append, hchars, List.append_nil, List.length_append,
          ← Nat.add_assoc]
        exact (BitVec.ofNat_add _ 1).symm
  | chars hx sent icount empty kept =>
    rw [if_neg (not_not.mpr hx)]
    refine ⟨?_, ?_, ?_⟩
    · rw [sent, empty, chars_append, chars_map, List.append_nil]
      exact h.written
    · rw [sent, flow_append, flow_map, List.append_nil]
      exact h.flow
    · rw [sent, icount, h.icount, chars_append, chars_map, List.length_append,
        ← BitVec.ofNat_add]
      exact congrArg (BitVec.ofNat 32) (Nat.add_right_comm _ _ _)

theorem inv_step (e : TtyEv) (h : Inv t) (hst : (machine k).step t e = some t') : Inv t' := by
  cases e with
  | write c =>
    obtain ⟨xmit, hpush, rfl⟩ := Option.map_eq_some_iff.mp hst
    refine ⟨?_, h.flow, h.icount⟩
    show t.written ++ [c] = chars t.port.fifo.sent ++ xmit.items
    rw [h.written, CircBuf.items_push hpush, List.append_assoc]
  | setXChar c =>
    cases hst
    exact ⟨h.written, h.flow, h.icount⟩
  | take =>
    cases hst
    refine ⟨?_, ?_, ?_⟩
    · rw [TxFifo.sent_take]
      exact h.written
    · rw [TxFifo.sent_take]
      exact h.flow
    · rw [TxFifo.sent_take]
      exact h.icount
  | startTx fuel =>
    obtain ⟨⟨⟨⟩, p'⟩, hrun, rfl⟩ := Option.map_eq_some_iff.mp hst
    obtain ⟨hstarted, -, -⟩ := liteuartStartTx_ensures t.port fuel () p' hrun
    exact h.startTx hstarted

theorem inv_start (depth : Nat) (h : 0 < depth) (takes : Nat → Nat) :
    Inv (start depth h takes : Tty k) := by
  refine ⟨?_, List.Sublist.refl _, rfl⟩
  show [] = [] ++ (CircBuf.empty _ : CircBuf k Byte).items
  rw [CircBuf.items_empty, List.append_nil]

/-- A `start_tx` with a flow control character finds room in the FIFO. -/
def FindsRoom (t : Tty k) : TtyEv → Prop
  | .startTx _ => t.port.xChar ≠ 0 → t.port.fifo.access.full = false
  | _ => True

instance (t : Tty k) (e : TtyEv) : Decidable (FindsRoom t e) :=
  match e with
  | .startTx _ => inferInstanceAs (Decidable (t.port.xChar ≠ 0 → _))
  | .write _ | .setXChar _ | .take => inferInstanceAs (Decidable True)

theorem flow_step (e : TtyEv) (h : Inv t) (hst : (machine k).step t e = some t') :
    flow t'.port.fifo.sent = t'.xChars ↔ flow t.port.fifo.sent = t.xChars ∧ FindsRoom t e := by
  cases e with
  | write c =>
    obtain ⟨xmit, -, rfl⟩ := Option.map_eq_some_iff.mp hst
    exact (and_iff_left trivial).symm
  | setXChar c =>
    cases hst
    exact (and_iff_left trivial).symm
  | take =>
    cases hst
    rw [TxFifo.sent_take]
    exact (and_iff_left trivial).symm
  | startTx fuel =>
    obtain ⟨⟨⟨⟩, p'⟩, hrun, rfl⟩ := Option.map_eq_some_iff.mp hst
    obtain ⟨hstarted, -, -⟩ := liteuartStartTx_ensures t.port fuel () p' hrun
    unfold FindsRoom
    cases hstarted with
    | xChar hx sent =>
      simp only [if_pos hx, sent, flow_append]
      by_cases hfull : t.port.fifo.access.full = true
      · -- it is lost, and cannot be made up for
        have hlen := h.flow.length_le
        rw [if_pos hfull]
        refine iff_of_false (fun he => ?_) fun hroom => ?_
        · have := congrArg List.length he
          simp only [flow, List.filter_nil, List.map_nil, List.append_nil, List.length_append,
            List.length_singleton] at this
          unfold flow at hlen
          omega
        · have := hroom.2 hx
          rw [hfull] at this
          cases this
      · rw [if_neg hfull]
        have hflow : Tty.flow [⟨t.port.xChar, true⟩] = [t.port.xChar] := rfl
        rw [hflow, List.append_cancel_right_eq]
        exact (and_iff_left fun _ => Bool.eq_false_iff.mpr hfull).symm
    | chars hx sent =>
      simp only [if_neg (not_not.mpr hx), sent, flow_append, flow_map, List.append_nil]
      exact (and_iff_left fun hne => absurd hx hne).symm

/-- No flow control character is lost in a run if and only if each `start_tx` that has one to send finds
room in the FIFO. -/
theorem xChars_kept_iff (depth : Nat) (h : 0 < depth) (takes : Nat → Nat)
    (hr : (machine k).run es (start depth h takes) = some t) :
    flow t.port.fifo.taken ++ flow t.port.fifo.queue = t.xChars ↔
      (machine k).Along FindsRoom es (start depth h takes) := by
  rw [← flow_append]
  exact Machine.last_iff_of_iff (P := fun t => flow t.port.fifo.sent = t.xChars)
    (fun _ e _ hi hst => inv_step e hi hst) (fun _ e _ hi hst => flow_step e hi hst)
    (inv_start depth h takes) rfl hr

/-- A character fills the FIFO, and the flow control character behind it is lost. -/
theorem xChars_kept_iff_full :
    ∃ t : Tty 2, (machine 2).run [.write 97, .startTx 2, .setXChar 19, .startTx 2]
        (start 1 (by decide) fun _ => 0) = some t ∧
      ¬ flow t.port.fifo.taken ++ flow t.port.fifo.queue = t.xChars := by
  obtain ⟨t, ht⟩ := Option.isSome_iff_exists.mp (show ((machine 2).run
    [.write 97, .startTx 2, .setXChar 19, .startTx 2]
    (start 1 (by decide) fun _ => 0)).isSome = true by decide +kernel)
  exact ⟨t, ht, mt (xChars_kept_iff 1 (by decide) (fun _ => 0) ht).mp (by decide +kernel)⟩

end Tty

end Liteuart
end Kernel
end Xtrx
