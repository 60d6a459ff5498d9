import Xtrx.Firmware.Console
import Xtrx.Kernel.Liteuart

/-!
# The console over the serial port

The host writes to the serial port of `liteuart.c`; the other side of the port is the firmware, whose
main loop takes a byte from the FIFO in a round, or finds it empty.

- **`tty_typed`**: the commands that the firmware has run are those of the lines in a beginning of what
  the host wrote; the rest of it is on its way.
-/

namespace Xtrx
namespace Firmware

open Conc Kernel.Liteuart

/-- Rounds without a character do nothing. -/
theorem typed_filterMap (keys : List (Option Byte)) : typed keys = typed ((keys.filterMap id).map some) := by
  unfold typed
  generalize (⟨[], [], []⟩ : Typed) = t
  induction keys generalizing t with
  | nil => rfl
  | cons key keys ih =>
    cases key with
    | none =>
      have hround : t.round none = t := by
        unfold Typed.round
        split <;> rfl
      rw [List.foldl_cons, hround, ih]
      rfl
    | some c =>
      rw [List.foldl_cons, ih]
      rfl

/-- Without flow control characters the bytes of the core are the characters. -/
theorem chars_eq_map {l : List Sent} (h : Tty.flow l = []) : Tty.chars l = l.map Sent.byte := by
  have hnone : ∀ c ∈ l, c.xChar = false := by
    simpa [Tty.flow, List.filter_eq_nil_iff] using h
  unfold Tty.chars
  rw [List.filter_eq_self.mpr fun c hc => by simp [hnone c hc]]

variable {k : Nat} {t : Tty k} {es : List TtyEv}

/-- After every run without flow control characters, a firmware that has read the bytes that left the FIFO
has run the commands of the lines in a beginning of what was written; the rest is in the FIFO and in the
circular buffer. -/
theorem tty_typed (depth : Nat) (h : 0 < depth) (takes : Nat → Nat)
    (hr : (Tty.machine k).run es (.start depth h takes) = some t) (hx : t.xChars = []) (stack : Stack)
    (rounds : List (Option Byte × Stack)) (b : Board)
    (hread : rounds.filterMap Prod.fst = t.port.fifo.taken.map Sent.byte) :
    ∃ sh seen, fwMain stack rounds b = some sh ∧
      t.written = seen ++ (t.port.fifo.queue.map Sent.byte ++ t.port.xmit.items) ∧
      sh.ran = (typed (seen.map some)).ran ∧ sh.out = (typed (seen.map some)).out := by
  have hinv := Machine.run_inv (fun _ e _ h hst => Tty.inv_step e h hst) (Tty.inv_start depth h takes) hr
  have hflow : Tty.flow t.port.fifo.sent = [] := by
    have := hinv.flow
    rw [hx] at this
    exact List.sublist_nil.mp this
  have hwritten := hinv.written
  rw [chars_eq_map hflow, TxFifo.sent, List.map_append, List.append_assoc] at hwritten
  obtain ⟨sh, hrun, hholds, -⟩ := mainLoop_holds (P := fun _ => True) (fun _ _ _ _ => trivial) rounds
    (holds_start (xtrxInit stack b).2) trivial
  have htyped : typed (rounds.map Prod.fst) = typed ((t.port.fifo.taken.map Sent.byte).map some) := by
    rw [typed_filterMap, List.filterMap_map, ← hread]
    rfl
  refine ⟨sh, t.port.fifo.taken.map Sent.byte, hrun, hwritten, ?_, ?_⟩
  · rw [← htyped]
    exact hholds.ran
  · rw [← htyped]
    exact hholds.out

/-- The host writes a command and Enter; the firmware takes each byte while the next one is written.
Then another character is written. -/
def typedRun : List TtyEv :=
  (ascii ['d', 'i', 'g', 'i', '_', '1', 'v', '8'] ++ [0x0d]).flatMap (fun c => [.write c, .startTx 2, .take]) ++
    [.write 0x61]

/-- The firmware has run the command; the character is in the circular buffer. -/
theorem tty_typed_command :
    ∃ t : Tty 2, (Tty.machine 2).run typedRun (.start 1 (by decide) fun _ => 0) = some t ∧
      t.port.xmit.items = [0x61] ∧
      ∃ sh, fwMain zeroStack (typing ['d', 'i', 'g', 'i', '_', '1', 'v', '8']) (.start acknowledging) =
        some sh ∧ sh.ran = [.digi1v8] := by
  obtain ⟨t, ht⟩ := Option.isSome_iff_exists.mp (show ((Tty.machine 2).run typedRun
    (.start 1 (by decide) fun _ => 0)).isSome = true by decide +kernel)
  have hview := Machine.view_eq ht (fun t => (t.xChars, t.port.fifo.taken.map Sent.byte,
      t.port.fifo.queue.map Sent.byte, t.port.xmit.items, t.written))
    (b := ([], ascii ['d', 'i', 'g', 'i', '_', '1', 'v', '8'] ++ [0x0d], [], [0x61],
      ascii ['d', 'i', 'g', 'i', '_', '1', 'v', '8'] ++ [0x0d, 0x61])) (by decide +kernel)
  simp only [Prod.mk.injEq] at hview
  obtain ⟨hx, htaken, hqueue, hitems, hline⟩ := hview
  obtain ⟨sh, seen, hrun, hwritten, hran, -⟩ := tty_typed 1 (by decide) (fun _ => 0) ht hx zeroStack
    (typing ['d', 'i', 'g', 'i', '_', '1', 'v', '8']) (.start acknowledging) (htaken ▸ rfl)
  rw [hline, hqueue, hitems] at hwritten
  obtain rfl : ascii ['d', 'i', 'g', 'i', '_', '1', 'v', '8'] ++ [0x0d] = seen :=
    List.append_cancel_right hwritten
  exact ⟨t, ht, hitems, sh, hrun, hran.trans (by decide +kernel)⟩

end Firmware
end Xtrx
