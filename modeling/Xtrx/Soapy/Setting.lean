import Mathlib.Data.Int.Bitwise
import Xtrx.Lib.BitField
import Xtrx.Soapy.Rules

/-!
# The FPGA's settings (`soapysdr-xtrx/XTRXDevice.cpp`)

`writeSetting` and `readSetting` for the keys that are fields of the FPGA's registers; the other
keys go to the library of the LMS7002M.

- **`writeBit`**, **`readBit`**, **`writeDelay`**, **`readDelay`**: the two kinds of keys, with the
  register, the field and the texts as parameters. `stoi` is `std::stoi`.
- **`FpgaKey.field`**: the bits of a key. No two keys share one (`fpgaFields`).
- **`writeSetting_field`**: one call writes the field of its key, or throws and writes nothing.
- **`fpgaSettings_independent`**: after any calls, each key reads as what was last written to it.
-/

namespace Xtrx
namespace Soapy

open Conc Kernel User SoapyLiteXXTRX

variable {n : Nat}

/-! ## Registers -/

/-- `litepcie_readl`. -/
def litepcieReadl (addr : Nat) : Dev n (BitVec 32) := do
  let m ← checkedIoctl (.reg false addr 0)
  match m with
  | some val => return (val : BitVec 32)
  | none => return 0

/-- `litepcie_writel`. -/
def litepcieWritel (addr : Nat) (val : BitVec 32) : Dev n Unit := do
  let _ ← checkedIoctl (.reg true addr val)

def csrLms7002mControlAddr : Nat := 0xd000
def csrLms7002mDelayAddr : Nat := 0xd008
def csrLms7002mTxPatternControlAddr : Nat := 0xd024
def csrLms7002mRxPatternControlAddr : Nat := 0xd028

def csrLms7002mControlTxRxLoopbackEnableOffset : Nat := 16
def csrLms7002mTxPatternControlEnableOffset : Nat := 0
def csrLms7002mRxPatternControlEnableOffset : Nat := 0
def csrLms7002mDelayTxDelayOffset : Nat := 0
def csrLms7002mDelayTxDelaySize : Nat := 5
def csrLms7002mDelayRxDelayOffset : Nat := 8
def csrLms7002mDelayRxDelaySize : Nat := 5

/-! ## Values -/

/-- `isspace`. -/
def isSpace (c : Char) : Bool :=
  c = ' ' || c = '\t' || c = '\n' || c = '\x0b' || c = '\x0c' || c = '\r'

/-- `std::stoi`: blanks, a sign, and as many digits as there are; the error is the exception's text.
-/
def stoi (s : String) : Except String Int :=
  let cs := s.toList.dropWhile isSpace
  let (negative, cs) := match cs with
    | '-' :: cs => (true, cs)
    | '+' :: cs => (false, cs)
    | cs => (false, cs)
  let digits := cs.takeWhile Char.isDigit
  let m : Int := digits.foldl (fun m c => 10 * m + (c.toNat - '0'.toNat : Nat)) 0
  let z := if negative then -m else m
  if digits.isEmpty then .error "stoi"
  else if z < -2 ^ 31 ∨ z ≥ 2 ^ 31 then .error "stoi"
  else .ok z

example : stoi "\t+9x" = .ok 9 := rfl

/-- The exception of `writeSetting`. -/
def settingError (key value what : String) : Halt :=
  .throw ("SoapyLiteXXTRX::writeSetting(" ++ key ++ ", " ++ value ++ ") " ++ what)

/-! ## The functions -/

/-- `writeSetting` of one bit, with its values `on` and `off`. -/
def writeBit (addr offset : Nat) (on off key value : String) : Dev n Unit := do
  let control ← litepcieReadl addr
  let control := control &&& ~~~(1#32 <<< offset)
  if value = on then
    litepcieWritel addr (control ||| (1#32 <<< offset))
  else if value ≠ off then
    Proc.halt (settingError key value "unknown value")
  else
    litepcieWritel addr control

/-- `readSetting` of one bit. -/
def readBit (addr offset : Nat) (on off : String) : Dev n String := do
  let control ← litepcieReadl addr
  return if control &&& (1#32 <<< offset) ≠ 0 then on else off

/-- `writeSetting` of a delay. -/
def writeDelay (addr offset size : Nat) (key value : String) : Dev n Unit :=
  match stoi value with
  | .error what => Proc.halt (.throw what)
  | .ok delay => do
    if delay < 0 ∨ delay > 31 then
      Proc.halt (settingError key value "invalid value")
    else
      let reg ← litepcieReadl addr
      let mask := ((1#32 <<< size) - 1) <<< offset
      litepcieWritel addr ((reg &&& ~~~mask) ||| (BitVec.ofInt 32 delay <<< offset))

/-- `readSetting` of a delay. -/
def readDelay (addr offset size : Nat) : Dev n String := do
  let reg ← litepcieReadl addr
  let mask := (1#32 <<< size) - 1
  let delay := (reg >>> offset) &&& mask
  return toString delay.toNat

/-- The keys. -/
inductive FpgaKey where
  | txRxLoopbackEnable
  | txPattern
  | rxPattern
  | txDelay
  | rxDelay
  deriving DecidableEq

def FpgaKey.name : FpgaKey → String
  | .txRxLoopbackEnable => "FPGA_TX_RX_LOOPBACK_ENABLE"
  | .txPattern => "FPGA_TX_PATTERN"
  | .rxPattern => "FPGA_RX_PATTERN"
  | .txDelay => "FPGA_TX_DELAY"
  | .rxDelay => "FPGA_RX_DELAY"

/-- `writeSetting`. -/
def writeSetting (key : FpgaKey) (value : String) : Dev n Unit :=
  match key with
  | .txRxLoopbackEnable =>
    writeBit csrLms7002mControlAddr csrLms7002mControlTxRxLoopbackEnableOffset "TRUE" "FALSE"
      key.name value
  | .txPattern =>
    writeBit csrLms7002mTxPatternControlAddr csrLms7002mTxPatternControlEnableOffset "1" "0"
      key.name value
  | .rxPattern =>
    writeBit csrLms7002mRxPatternControlAddr csrLms7002mRxPatternControlEnableOffset "1" "0"
      key.name value
  | .txDelay =>
    writeDelay csrLms7002mDelayAddr csrLms7002mDelayTxDelayOffset csrLms7002mDelayTxDelaySize
      key.name value
  | .rxDelay =>
    writeDelay csrLms7002mDelayAddr csrLms7002mDelayRxDelayOffset csrLms7002mDelayRxDelaySize
      key.name value

/-- `readSetting`. -/
def readSetting : FpgaKey → Dev n String
  | .txRxLoopbackEnable =>
    readBit csrLms7002mControlAddr csrLms7002mControlTxRxLoopbackEnableOffset "TRUE" "FALSE"
  | .txPattern =>
    readBit csrLms7002mTxPatternControlAddr csrLms7002mTxPatternControlEnableOffset "1" "0"
  | .rxPattern =>
    readBit csrLms7002mRxPatternControlAddr csrLms7002mRxPatternControlEnableOffset "1" "0"
  | .txDelay =>
    readDelay csrLms7002mDelayAddr csrLms7002mDelayTxDelayOffset csrLms7002mDelayTxDelaySize
  | .rxDelay =>
    readDelay csrLms7002mDelayAddr csrLms7002mDelayRxDelayOffset csrLms7002mDelayRxDelaySize

/-- A client that calls `writeSetting` over and over, and catches what it throws: which calls have
succeeded. -/
def writeSettings : List (FpgaKey × String) → Dev n (List Bool)
  | [] => return []
  | c :: calls => do
    match ← Proc.attempt (writeSetting c.1 c.2) with
    | .ok _ =>
      let rs ← writeSettings calls
      return true :: rs
    | .error (.throw _) =>
      let rs ← writeSettings calls
      return false :: rs
    | .error e => Proc.halt e

/-! ## The fields -/

/-- The bits of a key. -/
def FpgaKey.field : FpgaKey → BitField 32
  | .txRxLoopbackEnable =>
    ⟨csrLms7002mControlAddr, csrLms7002mControlTxRxLoopbackEnableOffset, 1, by decide⟩
  | .txPattern =>
    ⟨csrLms7002mTxPatternControlAddr, csrLms7002mTxPatternControlEnableOffset, 1, by decide⟩
  | .rxPattern =>
    ⟨csrLms7002mRxPatternControlAddr, csrLms7002mRxPatternControlEnableOffset, 1, by decide⟩
  | .txDelay =>
    ⟨csrLms7002mDelayAddr, csrLms7002mDelayTxDelayOffset, csrLms7002mDelayTxDelaySize, by decide⟩
  | .rxDelay =>
    ⟨csrLms7002mDelayAddr, csrLms7002mDelayRxDelayOffset, csrLms7002mDelayRxDelaySize, by decide⟩

/-- The value of the field for a value string that is accepted. -/
def FpgaKey.parse : FpgaKey → String → Option (BitVec 32)
  | .txRxLoopbackEnable, value =>
    if value = "TRUE" then some 1 else if value = "FALSE" then some 0 else none
  | .txPattern, value | .rxPattern, value =>
    if value = "1" then some 1 else if value = "0" then some 0 else none
  | .txDelay, value | .rxDelay, value =>
    match stoi value with
    | .ok delay => if delay < 0 ∨ delay > 31 then none else some (BitVec.ofInt 32 delay)
    | .error _ => none

/-- The string for a value of the field. -/
def FpgaKey.shown : FpgaKey → BitVec 32 → String
  | .txRxLoopbackEnable, v => if v = 0 then "FALSE" else "TRUE"
  | .txPattern, v | .rxPattern, v => if v = 0 then "0" else "1"
  | .txDelay, v | .rxDelay, v => toString v.toNat

/-- What a key reads as after the value string was written: for a delay, the integer in decimal
form. -/
def FpgaKey.given : FpgaKey → String → String
  | .txDelay, value | .rxDelay, value =>
    match stoi value with
    | .ok delay => toString delay
    | .error what => what
  | _, value => value

/-- No two keys share a bit. -/
def fpgaFields : Fields FpgaKey 32 where
  field := FpgaKey.field
  separate := by
    rintro key key' hne addr i ⟨haddr, hle, hlt⟩ ⟨haddr', hle', hlt'⟩
    cases key <;> cases key' <;>
      first
      | exact hne rfl
      | exact absurd (haddr.symm.trans haddr') (by decide)
      | (simp only [FpgaKey.field, csrLms7002mDelayTxDelayOffset, csrLms7002mDelayTxDelaySize,
          csrLms7002mDelayRxDelayOffset, csrLms7002mDelayRxDelaySize] at hle hlt hle' hlt'
         omega)

/-- A value that is accepted fits its field. -/
theorem fits_parse {key : FpgaKey} {value : String} {v : BitVec 32}
    (h : key.parse value = some v) : key.field.Fits v := by
  have hbit : ∀ on off : String,
      (if value = on then some (1 : BitVec 32) else if value = off then some 0 else none) = some v →
        v.toNat < 2 ^ 1 := by
    intro on off h
    split at h
    · cases h
      decide
    · split at h
      · cases h
        decide
      · cases h
  have hdelay : (match stoi value with
      | .ok delay => if delay < 0 ∨ delay > 31 then none else some (BitVec.ofInt 32 delay)
      | .error _ => none) = some v → v.toNat < 2 ^ 5 := by
    intro h
    split at h
    · rename_i delay _
      split at h
      · cases h
      · cases h
        rw [BitVec.toNat_ofInt]
        omega
    · cases h
  cases key with
  | txRxLoopbackEnable => exact hbit _ _ h
  | txPattern => exact hbit _ _ h
  | rxPattern => exact hbit _ _ h
  | txDelay => exact hdelay h
  | rxDelay => exact hdelay h

/-- A value that is accepted is shown as it was given. -/
theorem shown_parse {key : FpgaKey} {value : String} {v : BitVec 32}
    (h : key.parse value = some v) : key.shown v = key.given value := by
  have hbit : ∀ on off : String,
      (if value = on then some (1 : BitVec 32) else if value = off then some 0 else none) = some v →
        (if v = 0 then off else on) = value := by
    intro on off h
    split at h
    · rename_i hon
      cases h
      exact hon.symm
    · split at h
      · rename_i hoff
        cases h
        exact hoff.symm
      · cases h
  have hdelay : (match stoi value with
      | .ok delay => if delay < 0 ∨ delay > 31 then none else some (BitVec.ofInt 32 delay)
      | .error _ => none) = some v → toString v.toNat = match stoi value with
      | .ok delay => toString delay
      | .error what => what := by
    intro h
    split at h
    · rename_i delay _
      split at h
      · cases h
      · rename_i hrange
        cases h
        obtain ⟨m, rfl⟩ := Int.eq_ofNat_of_zero_le (a := delay) (by omega)
        rw [BitVec.toNat_ofInt]
        have hm : ((m : Int) % (2 ^ 32 : Nat)).toNat = m := by omega
        rw [hm]
        rfl
    · cases h
  cases key with
  | txRxLoopbackEnable => exact hbit _ _ h
  | txPattern => exact hbit _ _ h
  | rxPattern => exact hbit _ _ h
  | txDelay => exact hdelay h
  | rxDelay => exact hdelay h

/-! ## The registers in a run -/

/-- The file descriptor is open, and the registers have the contents `b`. -/
structure Regs (fd : Nat) (b : Registers 32) (k : Driver n) : Prop where
  file : ∃ p, k.files fd = some p
  regs : k.dev.bar0 = b

section

variable {fd : Nat} {b : Registers 32} {x : SoapyLiteXXTRX} {k : Driver n} {α : Type}
  {R : α → SoapyLiteXXTRX → Driver n → Prop} {F : Halt → SoapyLiteXXTRX → Driver n → Prop}

/-- Interrupts leave the registers alone. -/
theorem regs_stable : IrqStable fd (Regs fd b : Driver n → Prop) :=
  IrqStable.of_env fun _ _ h => ⟨h.file, h.regs⟩

theorem drv_readl {addr : Nat} {f : BitVec 32 → Dev n α} (h : Regs fd b k)
    (hk : ∀ k, Regs fd b k → DrvWP fd R F (f (b addr)) x k) :
    DrvWP fd R F (litepcieReadl addr >>= f) x k := by
  unfold litepcieReadl
  rw [bind_assoc]
  refine drv_checkedIoctl regs_stable h fun k₁ o r k₂ h₁ hc => ?_
  obtain ⟨p, hp⟩ := h₁.file
  rw [kernelCall_ioctl hp, litepcieIoctl_none] at hc
  cases hc
  refine ⟨rfl, ?_⟩
  show DrvWP fd R F (f (k₁.dev.bar0 addr)) x k₁
  rw [h₁.regs]
  exact hk k₁ h₁

theorem drv_writel {addr : Nat} {val : BitVec 32} {f : Unit → Dev n α} (h : Regs fd b k)
    (hk : ∀ k, Regs fd (Function.update b addr val) k → DrvWP fd R F (f ()) x k) :
    DrvWP fd R F (litepcieWritel addr val >>= f) x k := by
  unfold litepcieWritel
  rw [bind_assoc]
  refine drv_checkedIoctl regs_stable h fun k₁ o r k₂ h₁ hc => ?_
  obtain ⟨p, hp⟩ := h₁.file
  rw [kernelCall_ioctl hp, litepcieIoctl_none] at hc
  cases hc
  refine ⟨rfl, hk _ ⟨⟨p, hp⟩, ?_⟩⟩
  show Function.update k₁.dev.bar0 addr val = _
  rw [h₁.regs]

/-- The last call of a function. -/
theorem drv_writel_last {R : Unit → SoapyLiteXXTRX → Driver n → Prop} {addr : Nat}
    {val : BitVec 32} (h : Regs fd b k)
    (hk : ∀ k, Regs fd (Function.update b addr val) k → R () x k) :
    DrvWP fd R F (litepcieWritel addr val : Dev n Unit) x k := by
  rw [← bind_pure (litepcieWritel addr val)]
  exact drv_writel h fun k₁ h₁ => drv_ret (α := Unit) regs_stable h₁ hk

/-! ### One call -/

/-- The ends of `writeSetting`: it has written the field `f`, or it has thrown and written nothing.
-/
abbrev WritesField (fd : Nat) (f : BitField 32) (parsed : Option (BitVec 32)) (b : Registers 32)
    (m : Dev n Unit) (x : SoapyLiteXXTRX) (k : Driver n) : Prop :=
  DrvWP fd (fun _ _ k => ∃ v, parsed = some v ∧ Regs fd (f.set v b) k)
    (fun e _ k => (∃ msg, e = .throw msg) ∧ parsed = none ∧ Regs fd b k) m x k

theorem writeBit_field {f : BitField 32} (hsize : f.size = 1) (h : Regs fd b k)
    (on off key value : String) :
    WritesField fd f (if value = on then some 1 else if value = off then some 0 else none) b
      (writeBit f.addr f.offset on off key value) x k := by
  have hmask : f.mask = 1#32 <<< f.offset := by
    rw [BitField.mask, hsize]
    rfl
  refine drv_readl h fun k₁ h₁ => ?_
  dsimp only
  by_cases hon : value = on
  · rw [if_pos hon, if_pos hon]
    refine drv_writel_last h₁ fun k₂ h₂ => ⟨1, rfl, ?_⟩
    rw [BitField.set, hmask]
    exact h₂
  · rw [if_neg hon, if_neg hon]
    by_cases hoff : value = off
    · rw [if_pos hoff, if_neg (not_not_intro hoff)]
      refine drv_writel_last h₁ fun k₂ h₂ => ⟨0#32, rfl, ?_⟩
      rw [BitField.set, hmask, BitVec.zero_shiftLeft, BitVec.or_zero]
      exact h₂
    · rw [if_neg hoff, if_pos hoff]
      exact drv_halt regs_stable h₁ fun _ h₂ => ⟨⟨_, rfl⟩, rfl, h₂⟩

theorem writeDelay_field {f : BitField 32} (h : Regs fd b k) (key value : String) :
    WritesField fd f (match stoi value with
        | .ok delay => if delay < 0 ∨ delay > 31 then none else some (BitVec.ofInt 32 delay)
        | .error _ => none) b
      (writeDelay f.addr f.offset f.size key value) x k := by
  unfold writeDelay
  cases stoi value with
  | error what => exact drv_halt regs_stable h fun _ h₁ => ⟨⟨_, rfl⟩, rfl, h₁⟩
  | ok delay =>
    dsimp only
    by_cases hrange : delay < 0 ∨ delay > 31
    · rw [if_pos hrange, if_pos hrange]
      exact drv_halt regs_stable h fun _ h₁ => ⟨⟨_, rfl⟩, rfl, h₁⟩
    · rw [if_neg hrange, if_neg hrange]
      refine drv_readl h fun k₁ h₁ => ?_
      exact drv_writel_last h₁ fun k₂ h₂ => ⟨_, rfl, h₂⟩

/-- One call. -/
theorem writeSetting_field (h : Regs fd b k) (key : FpgaKey) (value : String) :
    WritesField fd key.field (key.parse value) b (writeSetting key value) x k := by
  cases key with
  | txRxLoopbackEnable => exact writeBit_field (f := FpgaKey.txRxLoopbackEnable.field) rfl h _ _ _ _
  | txPattern => exact writeBit_field (f := FpgaKey.txPattern.field) rfl h _ _ _ _
  | rxPattern => exact writeBit_field (f := FpgaKey.rxPattern.field) rfl h _ _ _ _
  | txDelay => exact writeDelay_field (f := FpgaKey.txDelay.field) h _ _
  | rxDelay => exact writeDelay_field (f := FpgaKey.rxDelay.field) h _ _

theorem readBit_field {f : BitField 32} (hsize : f.size = 1) (h : Regs fd b k) (on off : String) :
    DrvWP fd (fun s _ k => s = (if f.get b = 0 then off else on) ∧ Regs fd b k)
      (fun _ _ _ => False) (readBit f.addr f.offset on off : Dev n String) x k := by
  have hget : b f.addr &&& (1#32 <<< f.offset) = 0 ↔ f.get b = 0 :=
    BitField.get_eq_zero_of_bit hsize
  refine drv_readl h fun k₁ h₁ => drv_ret regs_stable h₁ fun k₂ h₂ => ⟨?_, h₂⟩
  by_cases hzero : f.get b = 0
  · rw [if_pos hzero, if_neg (not_not_intro (hget.mpr hzero))]
  · rw [if_neg hzero, if_pos fun hbit => hzero (hget.mp hbit)]

theorem readDelay_field {f : BitField 32} (h : Regs fd b k) :
    DrvWP fd (fun s _ k => s = toString (f.get b).toNat ∧ Regs fd b k)
      (fun _ _ _ => False) (readDelay f.addr f.offset f.size : Dev n String) x k :=
  drv_readl h fun _ h₁ => drv_ret regs_stable h₁ fun _ h₂ => ⟨rfl, h₂⟩

/-- `readSetting` shows the field. -/
theorem readSetting_field (h : Regs fd b k) (key : FpgaKey) :
    DrvWP fd (fun s _ k => s = key.shown (key.field.get b) ∧ Regs fd b k)
      (fun _ _ _ => False) (readSetting key : Dev n String) x k := by
  cases key with
  | txRxLoopbackEnable => exact readBit_field (f := FpgaKey.txRxLoopbackEnable.field) rfl h _ _
  | txPattern => exact readBit_field (f := FpgaKey.txPattern.field) rfl h _ _
  | rxPattern => exact readBit_field (f := FpgaKey.rxPattern.field) rfl h _ _
  | txDelay => exact readDelay_field (f := FpgaKey.txDelay.field) h
  | rxDelay => exact readDelay_field (f := FpgaKey.rxDelay.field) h

/-! ### Many calls -/

/-- The values that the calls write, by their keys. -/
def written (calls : List (FpgaKey × String)) : List (FpgaKey × BitVec 32) :=
  calls.filterMap fun c => (c.1.parse c.2).map fun v => (c.1, v)

/-- The calls that are accepted. -/
def accepted (calls : List (FpgaKey × String)) : List Bool :=
  calls.map fun c => (c.1.parse c.2).isSome

/-- The calls write the fields of those that succeed, one after the other. -/
theorem writeSettings_fields (h : Regs fd b k) (calls : List (FpgaKey × String)) :
    DrvWP fd (fun rs _ k => rs = accepted calls ∧ Regs fd (fpgaFields.writes (written calls) b) k)
      (fun _ _ _ => False) (writeSettings calls : Dev n (List Bool)) x k := by
  induction calls generalizing b x k with
  | nil => exact drv_ret regs_stable h fun _ h₁ => ⟨rfl, h₁⟩
  | cons c calls ih =>
    refine World.ProcWP.attempt ((writeSetting_field h c.1 c.2).mono ?_)
    rintro ⟨e | u, x₁⟩ k₁ hend
    · obtain ⟨⟨msg, rfl⟩, hnone, h₁⟩ := hend
      refine World.ProcWP.bind ((ih h₁).mono ?_)
      rintro ⟨e | rs, x₂⟩ k₂ hrest
      · exact hrest.elim
      · obtain ⟨rfl, h₂⟩ := hrest
        refine drv_ret regs_stable h₂ fun k₃ h₃ => ⟨?_, ?_⟩
        · simp [accepted, hnone]
        · simpa [written, hnone] using h₃
    · obtain ⟨v, hsome, h₁⟩ := hend
      refine World.ProcWP.bind ((ih h₁).mono ?_)
      rintro ⟨e | rs, x₂⟩ k₂ hrest
      · exact hrest.elim
      · obtain ⟨rfl, h₂⟩ := hrest
        refine drv_ret regs_stable h₂ fun k₃ h₃ => ⟨?_, ?_⟩
        · simp [accepted, hsome]
        · simpa [written, hsome, Fields.writes, fpgaFields] using h₃

/-- A read of a register ends. -/
theorem exec_readl (hfile : ∃ p, k.files fd = some p) (addr : Nat) (g : BitVec 32 → α)
    (o : Choice) :
    (kernelWorld n fd).exec ((litepcieReadl addr >>= fun v => (pure (g v) : Dev n α)) x) [.thr o]
      k = some ((.ok (g (k.dev.bar0 addr)), x), k) := by
  obtain ⟨p, hp⟩ := hfile
  rw [litepcieReadl, bind_assoc, checkedIoctl_bind, World.exec_thr]
  show (kernelCall fd _ o k).bind _ = _
  rw [kernelCall_ioctl hp]
  rfl

theorem readSetting_ends (hfile : ∃ p, k.files fd = some p) (key : FpgaKey) (o : Choice) :
    ∃ r, (kernelWorld n fd).exec (readSetting key x) [.thr o] k = some r := by
  cases key <;> exact ⟨_, exec_readl hfile _ _ o⟩

end

/-! ## Independent variables -/

/-- The calls that have succeeded. -/
def succeeded (calls : List (FpgaKey × String)) (rs : List Bool) : List (FpgaKey × String) :=
  ((calls.zip rs).filter fun c => c.2).map fun c => c.1

theorem succeeded_accepted (calls : List (FpgaKey × String)) :
    succeeded calls (accepted calls) = calls.filter fun c => (c.1.parse c.2).isSome := by
  induction calls with
  | nil => rfl
  | cons c calls ih =>
    simp only [succeeded, accepted, List.map_cons, List.zip_cons_cons, List.filter_cons] at ih ⊢
    split
    · rw [List.map_cons, ih]
    · exact ih

theorem written_eq (calls : List (FpgaKey × String)) :
    written calls = (calls.filter fun c => (c.1.parse c.2).isSome).map fun c =>
      (c.1, (c.1.parse c.2).getD 0) := by
  induction calls with
  | nil => rfl
  | cons c calls ih =>
    rw [written, List.filterMap_cons, List.filter_cons]
    cases hv : c.1.parse c.2 with
    | none => exact ih
    | some v =>
      simp only [Option.map_some, Option.isSome_some, if_true, List.map_cons, hv, Option.getD_some]
      rw [← ih]
      rfl

theorem fits_written {calls : List (FpgaKey × String)} :
    ∀ c ∈ written calls, (fpgaFields.field c.1).Fits c.2 := by
  intro c hc
  obtain ⟨⟨key, value⟩, -, hmap⟩ := List.mem_filterMap.mp hc
  obtain ⟨v, hv, rfl⟩ := Option.map_eq_some_iff.mp hmap
  exact fits_parse hv

/-- What a key reads as after the calls. -/
theorem shown_writes (calls : List (FpgaKey × String)) (b : Registers 32) (key : FpgaKey) :
    key.shown (key.field.get (fpgaFields.writes (written calls) b)) =
      match lastWrite key (succeeded calls (accepted calls)) with
      | some value => key.given value
      | none => key.shown (key.field.get b) := by
  have hget : key.field.get (fpgaFields.writes (written calls) b) = _ :=
    Fields.get_writes fits_written key
  rw [hget, written_eq, lastWrite_map key fun key value => (key.parse value).getD 0,
    succeeded_accepted]
  cases hlast : lastWrite key (calls.filter fun c => (c.1.parse c.2).isSome) with
  | none => rfl
  | some value =>
    have hmem := (List.mem_filter.mp (lastWrite_mem hlast)).2
    obtain ⟨v, hv⟩ := Option.isSome_iff_exists.mp hmem
    rw [Option.map_some, Option.getD_some, hv, Option.getD_some]
    exact shown_parse hv

/-- For any contents of the registers and any calls of `writeSetting`, with any interrupts: a call
that throws changes no register; after the calls `readSetting` of each key returns the value of the
last call of that key that has succeeded, or shows the field as it was at the start; and all other
bits are as they were. -/
theorem fpgaSettings_independent (fd : Nat) (x : SoapyLiteXXTRX) (k : Driver n)
    (hfile : ∃ p, k.files fd = some p) :
    (∀ key value es msg x' k', (kernelWorld n fd).exec (writeSetting key value x) es k =
        some ((.error (.throw msg), x'), k') → k'.dev.bar0 = k.dev.bar0) ∧
    ∀ calls es rs x' k', (kernelWorld n fd).exec (writeSettings calls x) es k =
        some ((.ok rs, x'), k') →
      (∀ key, (∃ es' r, (kernelWorld n fd).exec (readSetting key x') es' k' = some r) ∧
        ∀ es' r x'' k'', (kernelWorld n fd).exec (readSetting key x') es' k' =
            some ((r, x''), k'') →
          r = .ok (match lastWrite key (succeeded calls rs) with
            | some value => key.given value
            | none => key.shown (key.field.get k.dev.bar0))) ∧
      ∀ addr i, (∀ key : FpgaKey, ¬ key.field.Covers addr i) →
        (k'.dev.bar0 addr).getLsbD i = (k.dev.bar0 addr).getLsbD i := by
  have hregs : Regs fd k.dev.bar0 k := ⟨hfile, rfl⟩
  constructor
  · intro key value es msg x' k' hr
    exact (World.WP.exec (writeSetting_field hregs key value) hr).2.2.2.regs
  · intro calls es rs x' k' hr
    obtain ⟨rfl, hregs'⟩ := (World.WP.exec (writeSettings_fields hregs calls) hr).2
    constructor
    · intro key
      refine ⟨⟨[.thr .ready], readSetting_ends hregs'.file key .ready⟩, fun es' r x'' k'' hr' => ?_⟩
      have hread := (World.WP.exec (readSetting_field hregs' key) hr').2
      cases r with
      | error e => exact hread.elim
      | ok s => rw [hread.1, shown_writes]
    · intro addr i hout
      rw [hregs'.regs]
      exact Fields.getLsbD_writes fits_written hout

/-- Both delays and a bit; the second call throws. -/
def settingCalls : List (FpgaKey × String) :=
  [(.txDelay, "31"), (.rxDelay, "32"), (.rxDelay, "+9"), (.txRxLoopbackEnable, "TRUE"),
    (.txDelay, " 7")]

theorem fpgaSettings_independent_delays :
    ∃ x' k', (kernelWorld 1 3).exec (writeSettings settingCalls newDevice)
        (List.replicate 8 (.thr .ready)) oneOpen =
          some ((.ok [true, false, true, true, true], x'), k') ∧
      ∃ es x'' k'', (kernelWorld 1 3).exec (readSetting .txDelay x') es k' =
        some ((.ok "7", x''), k'') := by
  obtain ⟨x', k', hex⟩ : ∃ x' k', (kernelWorld 1 3).exec (writeSettings settingCalls newDevice)
      (List.replicate 8 (.thr .ready)) oneOpen =
        some ((.ok [true, false, true, true, true], x'), k') := ⟨_, _, rfl⟩
  refine ⟨x', k', hex, ?_⟩
  have hkeys := ((fpgaSettings_independent 3 newDevice oneOpen ⟨_, rfl⟩).2 _ _ _ x' k' hex).1
  obtain ⟨⟨es, ⟨⟨r, x''⟩, k''⟩, hr⟩, hread⟩ := hkeys .txDelay
  have hseven : r = .ok "7" := hread es r x'' k'' hr
  subst hseven
  exact ⟨es, x'', k'', hr⟩

end Soapy
end Xtrx
