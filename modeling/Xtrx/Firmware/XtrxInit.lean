import Xtrx.Firmware.I2c

/-!
# The initialization of the board (`xtrx_init` in `firmware/main.c`)

What is printed, the waiting times and the measurement of `vctcxo_test` are left out.

- **Functions**: those that `xtrx_init` calls, and `xtrxInit` itself. The results of the transfers to
  the PMICs are not used; the byte that the ID is compared with is the one in `dat`, which a refused
  read leaves as it is.
- **`xtrxInit_log`**: what was done, as far as the PMICs see it, from the acknowledgements.
- **`xtrxInit_safe_iff`**: for which patterns no rail is powered without its configuration.
-/

namespace Xtrx
namespace Firmware

def tmp108I2cAddr : Byte := 0x4a
def lp8758I2cAddr : Byte := 0x60
def mcp4725I2cAddr : Byte := 0x62
def dac60501I2cAddr : Byte := 0x4b

def xtrxVctcxoClk : BitVec 32 := 0
def lms7002mReset : BitVec 32 := 1
def lms7002mPowerDown : BitVec 32 := 2
def lms7002mTxEnable : BitVec 32 := 4
def lms7002mRxEnable : BitVec 32 := 8

/-- What is in the variables `dat` of the functions before they are set. -/
structure Stack where
  dat : Byte
  dacDat : Byte × Byte
  tempDat : Byte × Byte

/-! ## The functions that are called -/

def vctcxoControlWrite (v : BitVec 32) : Fw Unit :=
  modify fun b => { b with log := b.log ++ [.vctcxoControl v] }

def lms7002mControlWrite (v : BitVec 32) : Fw Unit :=
  modify fun b => { b with log := b.log ++ [.lms7002mControl v] }

/-- `board_get_revision`. -/
def boardGetRevision : Fw Int := do
  -- check MCP4725 presence
  let hasMcp4725 ← recorded (.poll .i2c1 mcp4725I2cAddr) do
    i2cStart .i2c1
    let ack ← transmitByte .i2c1 (addrRd mcp4725I2cAddr)
    i2cStop .i2c1
    return ack
  if hasMcp4725 then
    modify fun b => { b with dacAddr := mcp4725I2cAddr }
    return 4
  else
    modify fun b => { b with dacAddr := dac60501I2cAddr }
    return 5

/-- `dac_init`. -/
def dacInit (dat : Byte × Byte) : Fw Unit := do
  if (← get).boardRevision ≠ 4 then
    let _ ← i2cRead .i2c1 dac60501I2cAddr 0x04 [dat.1, dat.2] true
    -- gain register
    let _ ← i2cWrite .i2c1 dac60501I2cAddr 0x04 [0x01, 0x01]

/-- `vctcxo_dac_set`. -/
def vctcxoDacSet (value : BitVec 32) : Fw Unit := do
  let value := value &&& 0xfff
  if (← get).boardRevision = 4 then
    let _ ← i2cWrite .i2c1 mcp4725I2cAddr ((value >>> 8).setWidth 8) [(value &&& 0xff).setWidth 8]
  else
    let value := value <<< 4
    let _ ← i2cWrite .i2c1 dac60501I2cAddr 0x08
      [((value &&& 0xff00) >>> 8).setWidth 8, (value &&& 0xff).setWidth 8]

/-- `vctcxo_test`. -/
def vctcxoTest (n : Nat) : Fw Unit := do
  vctcxoControlWrite xtrxVctcxoClk
  (List.range n).forM fun i => vctcxoDacSet (BitVec.ofNat 32 (i * 0x111))

/-- `i2c_test`. -/
def i2cTest : Fw Unit := do
  i2cScan .i2c0
  i2cScan .i2c1

/-- `temp_test`. -/
def tempTest (dat : Byte × Byte) : Fw Unit := do
  let _ ← i2cRead .i2c1 tmp108I2cAddr 0x00 [dat.1, dat.2] true

/-! ## `xtrx_init` -/

/-- `i2c?_read(LP8758_I2C_ADDR, adr, &dat, 1, true)`: what is in `dat` after it. -/
def pmicRead (bus : I2cBus) (adr dat : Byte) : Fw Byte := do
  return (← i2cRead bus lp8758I2cAddr adr [dat] true).2.headD dat

/-- `i2c?_write(LP8758_I2C_ADDR, adr, &dat, 1)`. -/
def pmicWrite (bus : I2cBus) (adr dat : Byte) : Fw Unit := do
  let _ ← i2cWrite bus lp8758I2cAddr adr [dat]

/-- From the first ID on: what `dat` is in the end. -/
def lmsConfigure : Fw Byte := do
  -- enable Buck1, set it to 3280mV
  pmicWrite .i2c0 0x04 0x88
  pmicWrite .i2c0 0x0c 0xfb
  -- disable Buck0, Buck2, Buck3
  pmicWrite .i2c0 0x02 0xc8
  pmicWrite .i2c0 0x06 0xc8
  pmicWrite .i2c0 0x08 0xc8
  -- set Buck0 to 1880mV, Buck2 to 1480mV, Buck3 to 1340mV
  pmicWrite .i2c0 0x0a 0xb5
  pmicWrite .i2c0 0x0e 0xa1
  pmicWrite .i2c0 0x10 0x92
  return 0x92

/-- From the second ID on. -/
def lmsEnable : Fw Unit := do
  -- enable Buck0, Buck2, Buck3
  pmicWrite .i2c0 0x02 0x88
  pmicWrite .i2c0 0x06 0x88
  pmicWrite .i2c0 0x08 0x88
  -- PMIC-FPGA: set Buck1 to 3280mV
  pmicWrite .i2c1 0x0c 0xfb

/-- From the board revision on. -/
def boardInit (stack : Stack) : Fw Unit := do
  let revision ← boardGetRevision
  modify fun b => { b with boardRevision := revision }
  dacInit stack.dacDat
  vctcxoControlWrite xtrxVctcxoClk
  lms7002mControlWrite (lms7002mReset ||| lms7002mPowerDown)
  lms7002mControlWrite lms7002mReset
  lms7002mControlWrite (lms7002mTxEnable ||| lms7002mRxEnable)
  i2cTest
  tempTest stack.tempDat
  vctcxoTest 2

/-- `xtrx_init`. -/
def xtrxInit (stack : Stack) : Fw Int := do
  -- PMIC-LMS: check ID
  let dat ← pmicRead .i2c0 0x01 stack.dat
  if dat ≠ 0xe0 then
    return 0
  let dat ← lmsConfigure
  -- PMIC-FPGA: check ID
  let dat ← pmicRead .i2c1 0x01 dat
  if dat ≠ 0xe0 then
    return 0
  lmsEnable
  boardInit stack
  return 1

/-! ## What is done behind the PMICs -/

/-- A write to a PMIC. -/
def Action.isPmicWrite : Action → Bool
  | .write _ slaveAddr _ _ _ => slaveAddr = lp8758I2cAddr
  | _ => false

/-- The program makes no write to a PMIC. -/
def Quiet {α : Type} (m : Fw α) : Prop :=
  ∀ b, ∃ done, After b (m b).2 done ∧ ∀ e ∈ done, e.isPmicWrite = false

theorem Quiet.pure {α : Type} (a : α) : Quiet (pure a : Fw α) := fun b =>
  ⟨[], After.refl b, fun e he => by cases he⟩

theorem Quiet.bind {α β : Type} {m : Fw α} {f : α → Fw β} (hm : Quiet m) (hf : ∀ a, Quiet (f a)) :
    Quiet (m >>= f) := fun b => by
  obtain ⟨done, hafter, hquiet⟩ := hm b
  obtain ⟨done', hafter', hquiet'⟩ := hf (m b).1 (m b).2
  refine ⟨done ++ done', hafter.trans hafter', fun e he => ?_⟩
  rcases List.mem_append.mp he with h | h
  · exact hquiet e h
  · exact hquiet' e h

theorem Quiet.forM {κ : Type} {f : κ → Fw Unit} (hf : ∀ x, Quiet (f x)) (xs : List κ) :
    Quiet (xs.forM f) := by
  induction xs with
  | nil => exact .pure _
  | cons x xs ih => exact .bind (hf x) fun _ => ih

/-- A step that is recorded as `e`. -/
theorem Quiet.one {α : Type} {m : Fw α} (hm : ∀ b, ∃ e, After b (m b).2 [e] ∧ e.isPmicWrite = false) :
    Quiet m := fun b => by
  obtain ⟨e, hafter, hquiet⟩ := hm b
  exact ⟨[e], hafter, fun x hx => List.mem_singleton.mp hx ▸ hquiet⟩

/-- A step that only reads or changes the variables. -/
theorem Quiet.silent {α : Type} {m : Fw α} (hp : ∀ b, (m b).2.pattern = b.pattern)
    (hl : ∀ b, (m b).2.log = b.log) : Quiet m := fun b =>
  ⟨[], ⟨hp b, by rw [hl b, List.append_nil]⟩, fun e he => by cases he⟩

theorem quiet_i2cWrite (bus : I2cBus) {slaveAddr : Byte} (hs : slaveAddr ≠ lp8758I2cAddr) (addr : Byte)
    (data : List Byte) : Quiet (i2cWrite bus slaveAddr addr data) :=
  .one fun b => ⟨_, (i2cWrite_after b bus slaveAddr addr data rfl).2.1, by
    simp [Action.isPmicWrite, hs]⟩

theorem quiet_i2cRead (bus : I2cBus) (slaveAddr addr : Byte) (data : List Byte) (sendStop : Bool) :
    Quiet (i2cRead bus slaveAddr addr data sendStop) :=
  .one fun b => ⟨_, (i2cRead_after b bus slaveAddr addr data sendStop rfl rfl).2.1, rfl⟩

theorem quiet_boardGetRevision : Quiet boardGetRevision := by
  refine .bind (.one fun b => ?_) fun ack => ?_
  · have hwires := (wires_i2cStart .i2c1).bind fun _ =>
      (wires_transmitByte .i2c1 (addrRd mcp4725I2cAddr)).bind fun ack b => ⟨ack, .stop b .i2c1 ack⟩
    obtain ⟨a, ha⟩ := hwires.recorded (.poll .i2c1 mcp4725I2cAddr) b
    exact ⟨_, ha, rfl⟩
  · cases ack with
    | true => exact .bind (.silent (fun _ => rfl) fun _ => rfl) fun _ => .pure _
    | false => exact .bind (.silent (fun _ => rfl) fun _ => rfl) fun _ => .pure _

theorem quiet_i2cScan (bus : I2cBus) : Quiet (i2cScan bus) := by
  refine .forM (fun slaveAddr => .bind (.one fun b => ?_) fun _ => .pure _) _
  obtain ⟨ack, h⟩ := i2cPoll_after bus (BitVec.ofNat 8 slaveAddr) b
  exact ⟨_, h, rfl⟩

theorem quiet_dacInit (dat : Byte × Byte) : Quiet (dacInit dat) := by
  refine .bind (.silent (fun _ => rfl) fun _ => rfl) fun b => ?_
  split
  · exact .bind (quiet_i2cRead _ _ _ _ _) fun _ => .bind (quiet_i2cWrite _ (by decide) _ _) fun _ =>
      .pure _
  · exact .pure _

theorem quiet_vctcxoDacSet (value : BitVec 32) : Quiet (vctcxoDacSet value) := by
  refine .bind (.silent (fun _ => rfl) fun _ => rfl) fun b => ?_
  split
  · exact .bind (quiet_i2cWrite _ (by decide) _ _) fun _ => .pure _
  · exact .bind (quiet_i2cWrite _ (by decide) _ _) fun _ => .pure _

theorem quiet_vctcxoControlWrite (v : BitVec 32) : Quiet (vctcxoControlWrite v) :=
  .one fun _ => ⟨_, ⟨rfl, rfl⟩, rfl⟩

theorem quiet_lms7002mControlWrite (v : BitVec 32) : Quiet (lms7002mControlWrite v) :=
  .one fun _ => ⟨_, ⟨rfl, rfl⟩, rfl⟩

theorem quiet_boardInit (stack : Stack) : Quiet (boardInit stack) := by
  refine .bind quiet_boardGetRevision fun _ => .bind (.silent (fun _ => rfl) fun _ => rfl) fun _ => ?_
  refine .bind (quiet_dacInit _) fun _ => .bind (quiet_vctcxoControlWrite _) fun _ => ?_
  refine .bind (quiet_lms7002mControlWrite _) fun _ => .bind (quiet_lms7002mControlWrite _) fun _ => ?_
  refine .bind (quiet_lms7002mControlWrite _) fun _ => ?_
  refine .bind (.bind (quiet_i2cScan _) fun _ => quiet_i2cScan _) fun _ => ?_
  refine .bind (.bind (quiet_i2cRead _ _ _ _ _) fun _ => .pure _) fun _ => ?_
  exact .bind (quiet_vctcxoControlWrite _) fun _ => .forM (fun _ => quiet_vctcxoDacSet _) _

/-! ## The PMICs -/

section

variable (b : Board)

/-- What is in `dat` after a read from a PMIC. -/
def pmicByte (p : Nat → Bool) (dat : Byte) : Byte := if acked p 0 3 then byteOf p 3 else dat

theorem pmicRead_after (bus : I2cBus) (adr dat : Byte) :
    (pmicRead bus adr dat b).1 = pmicByte (b.pattern b.transfer) dat ∧
      After b (pmicRead bus adr dat b).2 [.read bus lp8758I2cAddr adr
        [pmicByte (b.pattern b.transfer) dat] (acked (b.pattern b.transfer) 0 3)] ∧
      (pmicRead bus adr dat b).2.transfer = b.transfer + 1 := by
  have hres : [pmicByte (b.pattern b.transfer) dat] = if acked (b.pattern b.transfer) 0 3 then
      (List.range [dat].length).map fun i => byteOf (b.pattern b.transfer) (3 + 8 * i)
      else [dat] := by
    unfold pmicByte
    split <;> rfl
  obtain ⟨hval, hafter, htransfer⟩ := i2cRead_after b bus lp8758I2cAddr adr [dat] true rfl hres
  refine ⟨?_, hafter, htransfer⟩
  show ((i2cRead bus lp8758I2cAddr adr [dat] true b).1).2.headD dat = _
  rw [hval]
  rfl

/-- A list of writes to the PMICs: the bus, the register and the byte of each. -/
def pmicWrites (ws : List (I2cBus × Byte × Byte)) : Fw Unit := ws.forM fun w => pmicWrite w.1 w.2.1 w.2.2

/-- What is recorded of it, from the transfer `k` on. -/
def writesLog (p : Nat → Nat → Bool) : Nat → List (I2cBus × Byte × Byte) → List Action
  | _, [] => []
  | k, w :: ws => .write w.1 lp8758I2cAddr w.2.1 [w.2.2] (acked (p k) 0 3) :: writesLog p (k + 1) ws

theorem pmicWrites_after (ws : List (I2cBus × Byte × Byte)) (b : Board) :
    After b (pmicWrites ws b).2 (writesLog b.pattern b.transfer ws) ∧
      (pmicWrites ws b).2.transfer = b.transfer + ws.length := by
  induction ws generalizing b with
  | nil => exact ⟨.refl b, rfl⟩
  | cons w ws ih =>
    obtain ⟨-, hafter, htransfer⟩ := i2cWrite_after b w.1 lp8758I2cAddr w.2.1 [w.2.2] rfl
    obtain ⟨hafter', htransfer'⟩ := ih (pmicWrite w.1 w.2.1 w.2.2 b).2
    have hp : (pmicWrite w.1 w.2.1 w.2.2 b).2.pattern = b.pattern := hafter.pattern
    have ht : (pmicWrite w.1 w.2.1 w.2.2 b).2.transfer = b.transfer + 1 := htransfer
    rw [hp, ht] at hafter'
    refine ⟨hafter.trans hafter', htransfer'.trans ?_⟩
    rw [ht, List.length_cons]
    omega

def configureWrites : List (I2cBus × Byte × Byte) :=
  [(.i2c0, 0x04, 0x88), (.i2c0, 0x0c, 0xfb), (.i2c0, 0x02, 0xc8), (.i2c0, 0x06, 0xc8),
    (.i2c0, 0x08, 0xc8), (.i2c0, 0x0a, 0xb5), (.i2c0, 0x0e, 0xa1), (.i2c0, 0x10, 0x92)]

def enableWrites : List (I2cBus × Byte × Byte) :=
  [(.i2c0, 0x02, 0x88), (.i2c0, 0x06, 0x88), (.i2c0, 0x08, 0x88), (.i2c1, 0x0c, 0xfb)]

theorem lmsConfigure_eq : lmsConfigure = pmicWrites configureWrites >>= fun _ => pure 0x92 := by
  simp only [pmicWrites, configureWrites, List.forM_eq_forM, List.forM_cons, List.forM_nil, bind_assoc,
    pure_bind]
  rfl

theorem lmsEnable_eq : lmsEnable = pmicWrites enableWrites := by
  simp only [pmicWrites, enableWrites, List.forM_eq_forM, List.forM_cons, List.forM_nil]
  rfl

theorem lmsConfigure_after : (lmsConfigure b).1 = 0x92 ∧
    After b (lmsConfigure b).2 (writesLog b.pattern b.transfer configureWrites) ∧
    (lmsConfigure b).2.transfer = b.transfer + 8 := by
  obtain ⟨hafter, htransfer⟩ := pmicWrites_after configureWrites b
  rw [show configureWrites.length = 8 from rfl] at htransfer
  simp only [lmsConfigure_eq, fw_bind, fw_pure]
  exact ⟨trivial, hafter, htransfer⟩

theorem lmsEnable_after :
    After b (lmsEnable b).2 (writesLog b.pattern b.transfer enableWrites) := by
  rw [lmsEnable_eq]
  exact (pmicWrites_after enableWrites b).1

/-- The two reads of the IDs. The byte in `dat` before the second is that of the last write. -/
def idLms (p : Nat → Nat → Bool) (dat : Byte) : Action :=
  .read .i2c0 lp8758I2cAddr 0x01 [pmicByte (p 0) dat] (acked (p 0) 0 3)

def idFpga (p : Nat → Nat → Bool) : Action :=
  .read .i2c1 lp8758I2cAddr 0x01 [pmicByte (p 9) 0x92] (acked (p 9) 0 3)

/-- What is recorded until the second ID is compared. -/
def lmsLog (p : Nat → Nat → Bool) (dat : Byte) : List Action :=
  idLms p dat :: (writesLog p 1 configureWrites ++ [idFpga p])

/-- Two checks of a byte, with a part of the program behind each, from the results of the parts. -/
theorem checked_eq {read conf : Fw Byte} {read' : Byte → Fw Byte} {enable init : Fw Unit}
    {b b₁ b₂ b₃ b₄ b₅ : Board} {id x id' : Byte} (h₁ : read b = (id, b₁)) (h₂ : conf b₁ = (x, b₂))
    (h₃ : read' x b₂ = (id', b₃)) (h₄ : enable b₃ = ((), b₄)) (h₅ : init b₄ = ((), b₅)) :
    (do
      let dat ← read
      if dat ≠ 0xe0 then
        return 0
      let dat ← conf
      let dat ← read' dat
      if dat ≠ 0xe0 then
        return 0
      enable
      init
      return 1 : Fw Int) b =
      if id ≠ 0xe0 then (0, b₁) else if id' ≠ 0xe0 then (0, b₃) else (1, b₅) := by
  rw [fw_bind, h₁]
  by_cases hlms : id ≠ 0xe0
  · rw [if_pos hlms, if_pos hlms, fw_pure]
  · rw [if_neg hlms, if_neg hlms, fw_bind, h₂, fw_bind, h₃]
    by_cases hfpga : id' ≠ 0xe0
    · rw [if_pos hfpga, if_pos hfpga, fw_pure]
    · rw [if_neg hfpga, if_neg hfpga, fw_bind, h₄, fw_bind, h₅, fw_pure]

/-- What `xtrx_init` does: it ends at the first ID, or at the second, or makes the writes behind it
and then none to a PMIC. -/
theorem xtrxInit_cases (stack : Stack) (hb : b.transfer = 0) :
    (pmicByte (b.pattern 0) stack.dat ≠ 0xe0 ∧ (xtrxInit stack b).1 = 0 ∧
        After b (xtrxInit stack b).2 [idLms b.pattern stack.dat]) ∨
      (pmicByte (b.pattern 0) stack.dat = 0xe0 ∧ pmicByte (b.pattern 9) 0x92 ≠ 0xe0 ∧
        (xtrxInit stack b).1 = 0 ∧ After b (xtrxInit stack b).2 (lmsLog b.pattern stack.dat)) ∨
      (pmicByte (b.pattern 0) stack.dat = 0xe0 ∧ pmicByte (b.pattern 9) 0x92 = 0xe0 ∧
        (xtrxInit stack b).1 = 1 ∧ ∃ rest, (∀ e ∈ rest, e.isPmicWrite = false) ∧
          After b (xtrxInit stack b).2
            (lmsLog b.pattern stack.dat ++ (writesLog b.pattern 10 enableWrites ++ rest))) := by
  obtain ⟨hval₁, hafter₁, ht₁⟩ := pmicRead_after b .i2c0 0x01 stack.dat
  rw [hb] at hval₁ hafter₁ ht₁
  obtain ⟨⟨id, b₁⟩, h₁⟩ : ∃ r, pmicRead .i2c0 0x01 stack.dat b = r := ⟨_, rfl⟩
  rw [h₁] at hval₁ hafter₁ ht₁
  dsimp only at hval₁ hafter₁ ht₁
  obtain ⟨hval₂, hafter₂, ht₂⟩ := lmsConfigure_after b₁
  rw [hafter₁.pattern, ht₁] at hafter₂
  rw [ht₁] at ht₂
  obtain ⟨⟨x, b₂⟩, h₂⟩ : ∃ r, lmsConfigure b₁ = r := ⟨_, rfl⟩
  rw [h₂] at hval₂ hafter₂ ht₂
  dsimp only at hval₂ hafter₂ ht₂
  have hto₂ := hafter₁.trans hafter₂
  obtain ⟨hval₃, hafter₃, ht₃⟩ := pmicRead_after b₂ .i2c1 0x01 x
  rw [hto₂.pattern, ht₂, hval₂] at hval₃ hafter₃
  rw [ht₂, hval₂] at ht₃
  obtain ⟨⟨id', b₃⟩, h₃⟩ : ∃ r, pmicRead .i2c1 0x01 0x92 b₂ = r := ⟨_, rfl⟩
  rw [h₃] at hval₃ hafter₃ ht₃
  dsimp only at hval₃ hafter₃ ht₃
  have hto₃ : After b b₃ (lmsLog b.pattern stack.dat) := by
    have h := hto₂.trans hafter₃
    rwa [List.append_assoc, List.singleton_append] at h
  have hafter₄ := lmsEnable_after b₃
  rw [hto₃.pattern, ht₃] at hafter₄
  obtain ⟨⟨⟨⟩, b₄⟩, h₄⟩ : ∃ r, lmsEnable b₃ = r := ⟨_, rfl⟩
  rw [h₄] at hafter₄
  dsimp only at hafter₄
  obtain ⟨rest, hafter₅, hquiet⟩ := quiet_boardInit stack b₄
  obtain ⟨⟨⟨⟩, b₅⟩, h₅⟩ : ∃ r, boardInit stack b₄ = r := ⟨_, rfl⟩
  rw [h₅] at hafter₅
  dsimp only at hafter₅
  have heq : xtrxInit stack b =
      if id ≠ 0xe0 then (0, b₁) else if id' ≠ 0xe0 then (0, b₃) else (1, b₅) :=
    checked_eq h₁ (hval₂ ▸ h₂) h₃ h₄ h₅
  rw [← hval₁, ← hval₃, heq]
  by_cases hlms : id = 0xe0
  · rw [if_neg (not_not_intro hlms)]
    by_cases hfpga : id' = 0xe0
    · rw [if_neg (not_not_intro hfpga)]
      exact .inr (.inr ⟨hlms, hfpga, rfl, rest, hquiet, hto₃.trans (hafter₄.trans hafter₅)⟩)
    · rw [if_pos hfpga]
      exact .inr (.inl ⟨hlms, hfpga, rfl, hto₃⟩)
  · rw [if_pos hlms]
    exact .inl ⟨hlms, rfl, hafter₁⟩

end

/-! ## The rails -/

/-- A buck of the PMIC-LMS: the register that enables it (`0x88`), the register and the value that
set its voltage. -/
structure Buck where
  ctrl : Byte
  vout : Byte
  voltage : Byte

def buck0 : Buck := ⟨0x02, 0x0a, 0xb5⟩
def buck2 : Buck := ⟨0x06, 0x0e, 0xa1⟩
def buck3 : Buck := ⟨0x08, 0x10, 0x92⟩

/-- The write that enables the buck. -/
def Buck.enabling (k : Buck) (ack : Bool) : Action :=
  .write .i2c0 lp8758I2cAddr k.ctrl [0x88] ack

/-- Each write that enables a buck comes behind an acknowledged write of its voltage and the reads of
both IDs, and with the result 1 each write to a PMIC was acknowledged. -/
structure PoweredSafely (log : List Action) (ret : Int) : Prop where
  enable : ∀ k ∈ [buck0, buck2, buck3], ∀ ack before after, log = before ++ k.enabling ack :: after →
    .write .i2c0 lp8758I2cAddr k.vout [k.voltage] true ∈ before ∧
      .read .i2c0 lp8758I2cAddr 0x01 [0xe0] true ∈ before ∧
      .read .i2c1 lp8758I2cAddr 0x01 [0xe0] true ∈ before
  complete : ret = 1 → ∀ bus adr data ack, .write bus lp8758I2cAddr adr data ack ∈ log → ack = true

/-- The board at the call. -/
def Board.start (pattern : Nat → Nat → Bool) : Board := ⟨pattern, 0, 0, [], [], 0, 0⟩

/-- In front of an element that is not in the first part there is the whole first part. -/
theorem mem_before {α : Type} {xs ys before after : List α} {e x : α}
    (h : xs ++ ys = before ++ e :: after) (he : e ∉ xs) (hx : x ∈ xs) : x ∈ before := by
  rcases List.append_eq_append_iff.mp h with ⟨as, rfl, -⟩ | ⟨cs, rfl, hc⟩
  · exact List.mem_append_left _ hx
  · cases cs with
    | nil => simpa using hx
    | cons c cs =>
      rw [List.cons_append] at hc
      obtain ⟨rfl, -⟩ := List.cons.inj hc
      exact absurd (by simp) he

section

variable {p : Nat → Nat → Bool} {dat : Byte}

/-- The writes that are recorded are those of the list, with the acknowledgements of their transfers. -/
theorem mem_writesLog {e : Action} {ws : List (I2cBus × Byte × Byte)} {k : Nat} :
    e ∈ writesLog p k ws ↔ ∃ i w, ws[i]? = some w ∧
      e = .write w.1 lp8758I2cAddr w.2.1 [w.2.2] (acked (p (k + i)) 0 3) := by
  induction ws generalizing k with
  | nil => simp [writesLog]
  | cons w ws ih =>
    rw [writesLog, List.mem_cons, ih]
    constructor
    · rintro (rfl | ⟨i, w', hw, rfl⟩)
      · exact ⟨0, w, rfl, rfl⟩
      · exact ⟨i + 1, w', hw, by rw [Nat.add_assoc, Nat.add_comm 1]⟩
    · rintro ⟨i, w', hw, rfl⟩
      cases i with
      | zero => exact .inl (by rw [← Option.some.inj hw]; rfl)
      | succ i => exact .inr ⟨i, w', hw, by rw [Nat.add_assoc, Nat.add_comm 1]⟩

theorem enabling_not_mem {k : Buck} (hk : k ∈ [buck0, buck2, buck3]) (ack : Bool) :
    k.enabling ack ∉ lmsLog p dat := by
  intro hmem
  simp only [lmsLog, idLms, idFpga, Buck.enabling, List.mem_cons, List.mem_append, reduceCtorEq,
    false_or, or_false, List.not_mem_nil, mem_writesLog, Action.write.injEq] at hmem
  obtain ⟨i, w, hw, -, -, hctrl, hval, -⟩ := hmem
  have hall : ∀ w ∈ configureWrites, ∀ k ∈ [buck0, buck2, buck3],
      ¬ (k.ctrl = w.2.1 ∧ [0x88] = [w.2.2]) := by decide
  exact hall w (List.mem_of_getElem? hw) k hk ⟨hctrl, hval⟩

/-- The acknowledgements in `writesLog` are those of the transfers from `k` on. -/
theorem writesLog_ack {ws : List (I2cBus × Byte × Byte)} {bus : I2cBus} {adr : Byte} {data : List Byte}
    {ack : Bool} {k : Nat} (h : .write bus lp8758I2cAddr adr data ack ∈ writesLog p k ws) :
    ∃ j, k ≤ j ∧ j < k + ws.length ∧ ack = acked (p j) 0 3 := by
  obtain ⟨i, w, hw, he⟩ := mem_writesLog.mp h
  have hi := (List.getElem?_eq_some_iff.mp hw).1
  exact ⟨k + i, by omega, by omega, (Action.write.inj he).2.2.2.2⟩

theorem writesLog_transfer (p : Nat → Nat → Bool) (ws : List (I2cBus × Byte × Byte)) {k j : Nat}
    (h : k ≤ j) (h' : j < k + ws.length) : ∃ bus adr data,
    Action.write bus lp8758I2cAddr adr data (acked (p j) 0 3) ∈ writesLog p k ws := by
  obtain ⟨i, rfl⟩ := Nat.exists_eq_add_of_le h
  have hi : i < ws.length := by omega
  exact ⟨ws[i].1, ws[i].2.1, [ws[i].2.2],
    mem_writesLog.mpr ⟨i, ws[i], List.getElem?_eq_getElem hi, rfl⟩⟩

/-- The write of the voltage of a buck. -/
theorem voltage_mem_lmsLog {k : Buck} (hk : k ∈ [buck0, buck2, buck3])
    (hall : ∀ k, 1 ≤ k ∧ k ≤ 8 → acked (p k) 0 3 = true) :
    .write .i2c0 lp8758I2cAddr k.vout [k.voltage] true ∈ lmsLog p dat := by
  have hw : ∃ i, i < 8 ∧ configureWrites[i]? = some (.i2c0, k.vout, k.voltage) := by
    revert k
    decide
  obtain ⟨i, hi, hw⟩ := hw
  refine List.mem_cons_of_mem _ (List.mem_append_left _ (mem_writesLog.mpr ⟨i, _, hw, ?_⟩))
  rw [hall (1 + i) (by omega)]

/-- The log with both IDs right. -/
theorem poweredSafely_full_iff {rest : List Action} (hlms : pmicByte (p 0) dat = 0xe0)
    (hfpga : pmicByte (p 9) 0x92 = 0xe0) (hquiet : ∀ e ∈ rest, e.isPmicWrite = false) :
    PoweredSafely (lmsLog p dat ++ (writesLog p 10 enableWrites ++ rest)) 1 ↔
      acked (p 0) 0 3 = true ∧
        ∀ k, (1 ≤ k ∧ k ≤ 8) ∨ (10 ≤ k ∧ k ≤ 13) → acked (p k) 0 3 = true := by
  have hfpga' : acked (p 9) 0 3 = true := by
    by_contra h
    rw [pmicByte, if_neg h] at hfpga
    exact absurd hfpga (by decide)
  constructor
  · intro h
    refine ⟨?_, fun k hk => ?_⟩
    · -- the write that enables Buck0 is the first one behind `lmsLog`
      have hread := (h.enable buck0 (by simp) (acked (p 10) 0 3) (lmsLog p dat) _ rfl).2.1
      simp only [lmsLog, List.mem_cons, List.mem_append, mem_writesLog, reduceCtorEq, and_false,
        exists_false, idLms, idFpga, Action.read.injEq, false_and, List.not_mem_nil, or_false] at hread
      exact hread.2.2.2.2.symm
    · rcases hk with ⟨h₁, h₈⟩ | ⟨h₁₀, h₁₃⟩
      · obtain ⟨bus, adr, data, hmem⟩ := writesLog_transfer p configureWrites h₁ (Nat.lt_succ_of_le h₈)
        exact h.complete rfl bus adr data _ (by simp [lmsLog, hmem])
      · obtain ⟨bus, adr, data, hmem⟩ := writesLog_transfer p enableWrites h₁₀ (Nat.lt_succ_of_le h₁₃)
        exact h.complete rfl bus adr data _ (by simp [hmem])
  · rintro ⟨hack, hall⟩
    refine ⟨fun k hk ack before after hsplit => ?_, fun _ bus adr data ack hmem => ?_⟩
    · have hbefore {e : Action} (he : e ∈ lmsLog p dat) : e ∈ before :=
        mem_before hsplit (enabling_not_mem hk ack) he
      refine ⟨hbefore (voltage_mem_lmsLog hk fun k h => hall k (.inl h)), hbefore ?_, hbefore ?_⟩
      · rw [← hlms, ← hack]
        exact List.mem_cons_self
      · rw [← hfpga, ← hfpga']
        exact List.mem_cons_of_mem _ (List.mem_append_right _ List.mem_cons_self)
    · rcases List.mem_append.mp hmem with hmem | hmem
      · simp only [lmsLog, idLms, idFpga, List.mem_cons, List.mem_append, reduceCtorEq, false_or,
          or_false, List.not_mem_nil] at hmem
        obtain ⟨k, h₁, h₈, rfl⟩ := writesLog_ack hmem
        exact hall k (.inl ⟨h₁, Nat.le_of_lt_succ h₈⟩)
      · rcases List.mem_append.mp hmem with hmem | hmem
        · obtain ⟨k, h₁₀, h₁₃, rfl⟩ := writesLog_ack hmem
          exact hall k (.inr ⟨h₁₀, Nat.le_of_lt_succ h₁₃⟩)
        · exact absurd (hquiet _ hmem) (by simp [Action.isPmicWrite])

end

/-- `xtrx_init` powers no rail without its configuration if and only if an ID differs, or the first
ID was read and all writes to the PMICs were acknowledged: the transfers 1 to 8 before the second ID
is read, and 10 to 13. -/
theorem xtrxInit_safe_iff (pattern : Nat → Nat → Bool) (stack : Stack) :
    PoweredSafely (xtrxInit stack (.start pattern)).2.log (xtrxInit stack (.start pattern)).1 ↔
      (pmicByte (pattern 0) stack.dat = 0xe0 → pmicByte (pattern 9) 0x92 = 0xe0 →
        acked (pattern 0) 0 3 = true ∧
          ∀ k, (1 ≤ k ∧ k ≤ 8) ∨ (10 ≤ k ∧ k ≤ 13) → acked (pattern k) 0 3 = true) := by
  rcases xtrxInit_cases (.start pattern) stack rfl with
    ⟨hlms, hret, hafter⟩ | ⟨hlms, hfpga, hret, hafter⟩ | ⟨hlms, hfpga, hret, rest, hquiet, hafter⟩
  · refine ⟨fun _ h => absurd h hlms, fun _ => ⟨?_, fun h => ?_⟩⟩
    · intro k _ ack before after hsplit
      have hmem : k.enabling ack ∈ [idLms pattern stack.dat] := by
        rw [show [idLms pattern stack.dat] = _ from hafter.log.symm.trans hsplit]
        simp
      cases List.mem_singleton.mp hmem
    · rw [hret] at h
      cases h
  · refine ⟨fun _ _ h => absurd h hfpga, fun _ => ⟨?_, fun h => ?_⟩⟩
    · intro k hk ack before after hsplit
      refine absurd (?_ : k.enabling ack ∈ lmsLog pattern stack.dat) (enabling_not_mem hk ack)
      rw [show lmsLog pattern stack.dat = _ from hafter.log.symm.trans hsplit]
      simp
    · rw [hret] at h
      cases h
  · rw [hret, show (xtrxInit stack (.start pattern)).2.log = _ from hafter.log]
    refine (poweredSafely_full_iff hlms hfpga hquiet).trans ⟨fun h _ _ => h, fun h => h hlms hfpga⟩

/-- Both IDs are `0xe0`. Of all bytes only the data byte of the write that sets the voltage of Buck0
is refused. -/
def refusedBuck0 (k i : Nat) : Bool :=
  if k = 0 ∨ k = 9 then 3 ≤ i ∧ i ≤ 5 else k = 6 ∧ i = 2

/-- Buck0 is enabled though its voltage was refused, and the result is 1. -/
theorem xtrxInit_powers :
    (xtrxInit ⟨0, (0, 0), (0, 0)⟩ (.start refusedBuck0)).1 = 1 ∧
      buck0.enabling true ∈ (xtrxInit ⟨0, (0, 0), (0, 0)⟩ (.start refusedBuck0)).2.log ∧
      Action.write .i2c0 lp8758I2cAddr buck0.vout [buck0.voltage] false ∈
        (xtrxInit ⟨0, (0, 0), (0, 0)⟩ (.start refusedBuck0)).2.log ∧
      ¬ PoweredSafely (xtrxInit ⟨0, (0, 0), (0, 0)⟩ (.start refusedBuck0)).2.log
        (xtrxInit ⟨0, (0, 0), (0, 0)⟩ (.start refusedBuck0)).1 := by
  rcases xtrxInit_cases (.start refusedBuck0) ⟨0, (0, 0), (0, 0)⟩ rfl with
    ⟨hlms, -⟩ | ⟨-, hfpga, -⟩ | ⟨hlms, hfpga, hret, rest, hquiet, hafter⟩
  · exact absurd (by decide) hlms
  · exact absurd (by decide) hfpga
  · have hlog : (xtrxInit ⟨0, (0, 0), (0, 0)⟩ (.start refusedBuck0)).2.log = lmsLog refusedBuck0 0 ++
        (writesLog refusedBuck0 10 enableWrites ++ rest) := hafter.log
    rw [hret, hlog]
    have hvoltage : Action.write .i2c0 lp8758I2cAddr buck0.vout [buck0.voltage] false ∈
        lmsLog refusedBuck0 0 := by decide
    have henabling : buck0.enabling true ∈ writesLog refusedBuck0 10 enableWrites := by decide
    refine ⟨rfl, List.mem_append_right _ (List.mem_append_left _ henabling),
      List.mem_append_left _ hvoltage, fun h => ?_⟩
    have hack := h.complete rfl _ _ _ _ (List.mem_append_left _ hvoltage)
    cases hack

end Firmware
end Xtrx
