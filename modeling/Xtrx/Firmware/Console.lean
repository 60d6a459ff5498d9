import Xtrx.Lib.CStr
import Xtrx.Firmware.I2cBus

/-!
# The console of the firmware (`main` in `firmware/main.c`)

The characters come from the UART, one or none in each round of the main loop. What the commands print
is left out, and so are the SPI registers of `xsync_test` and what follows a reboot.

- **Functions**: `readstr` with its buffer, `get_token`, the commands, `console_service` and `main`.
- **`Typed`**: the console as a list of characters and a list of commands.
- **`fwMain_typed`**: the buffer holds the line; no store is outside of it.
- **`fwMain_screen`**: what the terminal shows.
- **`fwMain_seen`**: what is on the I2C buses.
-/

namespace Xtrx
namespace Firmware

open Conc CStr TwoWire

/-! ## `readstr` and `get_token` -/

/-- The static variables of `readstr`. -/
structure LineBuf where
  s : List Byte
  ptr : Nat

def sizeofS : Nat := 64

/-- A character or none: if a string is returned, the variables, and what is echoed. -/
def readstr (key : Option Byte) (e : LineBuf) : Option (Bool × LineBuf × List Byte) :=
  match key with
  | none => some (false, e, [])
  | some c =>
    if c = 0x7f ∨ c = 0x08 then
      if 0 < e.ptr then
        some (false, { e with ptr := e.ptr - 1 }, [0x08, 0x20, 0x08])
      else
        some (false, e, [])
    else if c = 0x07 then
      some (false, e, [])
    else if c = 0x0d ∨ c = 0x0a then do
      let s ← store e.s e.ptr 0x00
      return (true, { s, ptr := 0 }, [0x0a])
    else if sizeofS - 1 ≤ e.ptr then
      some (false, e, [])
    else do
      let s ← store e.s e.ptr c
      -- `fputs` of a zero prints nothing
      return (false, { s, ptr := e.ptr + 1 }, if c = 0 then [] else [c])

/-- The token, the pointer behind it, and the buffer. -/
def getToken (s : List Byte) (str : Nat) : Option (Nat × Nat × List Byte) := do
  let t ← strAt 0 s str
  match t.findIdx? (· = 0x20) with
  | none => return (str, str + t.length, s)
  | some c =>
    let s ← store s (str + c) 0
    return (str, str + c + 1, s)

/-! ## The commands -/

/-- `pmic_dump`. A refused read leaves `dat` as it is. -/
def pmicDump (dat : Byte) : Fw Unit := do
  let dat ← (List.range 32).foldlM (fun dat adr => pmicRead .i2c0 (BitVec.ofNat 8 adr) dat) dat
  let _ ← (List.range 32).foldlM (fun dat adr => pmicRead .i2c1 (BitVec.ofNat 8 adr) dat) dat

/-- `dac_dump`. -/
def dacDump (dat : Byte × Byte) : Fw Unit := do
  let dacAddr := (← get).dacAddr
  if dacAddr = dac60501I2cAddr then
    let _ ← (List.range 9).foldlM (fun (dat : List Byte) adr => do
      return (← i2cRead .i2c1 dacAddr (BitVec.ofNat 8 adr) dat true).2) [dat.1, dat.2]

/-- `digi_1v8`. -/
def digi1v8 : Fw Unit := pmicWrite .i2c1 0x0c 0xb5

inductive Command where
  | help
  | reboot
  | i2cTest
  | tempTest
  | vctcxoTest
  | digi1v8
  | xtrxInit
  | pmicDump
  | dacDump
  | xsyncTest
  deriving DecidableEq

def ascii (cs : List Char) : List Byte := cs.map fun c => BitVec.ofNat 8 c.toNat

def Command.name : Command → List Byte
  | .help => ascii ['h', 'e', 'l', 'p']
  | .reboot => ascii ['r', 'e', 'b', 'o', 'o', 't']
  | .i2cTest => ascii ['i', '2', 'c', '_', 't', 'e', 's', 't']
  | .tempTest => ascii ['t', 'e', 'm', 'p', '_', 't', 'e', 's', 't']
  | .vctcxoTest => ascii ['v', 'c', 't', 'c', 'x', 'o', '_', 't', 'e', 's', 't']
  | .digi1v8 => ascii ['d', 'i', 'g', 'i', '_', '1', 'v', '8']
  | .xtrxInit => ascii ['x', 't', 'r', 'x', '_', 'i', 'n', 'i', 't']
  | .pmicDump => ascii ['p', 'm', 'i', 'c', '_', 'd', 'u', 'm', 'p']
  | .dacDump => ascii ['d', 'a', 'c', '_', 'd', 'u', 'm', 'p']
  | .xsyncTest => ascii ['x', 's', 'y', 'n', 'c', '_', 't', 'e', 's', 't']

/-- The comparisons of `console_service`, in order. -/
def commandOf (token : List Byte) : Option Command :=
  [Command.help, .reboot, .i2cTest, .tempTest, .vctcxoTest, .digi1v8, .xtrxInit, .pmicDump, .dacDump,
    .xsyncTest].find? fun c => token = c.name

/-- What a command does on the board, with `stack` in its variables. -/
def Command.run (stack : Stack) : Command → Fw Unit
  | .help => pure ()
  | .reboot => pure ()
  | .i2cTest => Firmware.i2cTest
  | .tempTest => Firmware.tempTest stack.tempDat
  | .vctcxoTest => Firmware.vctcxoTest 16
  | .digi1v8 => Firmware.digi1v8
  | .xtrxInit => do
    let _ ← Firmware.xtrxInit stack
  | .pmicDump => Firmware.pmicDump stack.dat
  | .dacDump => Firmware.dacDump stack.dacDat
  | .xsyncTest => pure ()

/-! ## `main` -/

/-- Recorded for the proofs: the commands, and what was echoed. -/
structure Shell where
  board : Board
  line : LineBuf
  ran : List Command
  out : List Byte

def consoleService (key : Option Byte) (stack : Stack) (sh : Shell) : Option Shell := do
  let (done, line, echo) ← readstr key sh.line
  if !done then
    return { sh with line, out := sh.out ++ echo }
  let (token, _, s) ← getToken line.s 0
  let name ← strAt 0 s token
  let sh := { sh with line := { line with s }, out := sh.out ++ echo }
  match commandOf name with
  | none => return sh
  | some c => return { sh with board := (c.run stack sh.board).2, ran := sh.ran ++ [c] }

/-- A round of the main loop. A reboot ends it. -/
def mainLoop (sh : Shell) (round : Option Byte × Stack) : Option Shell :=
  if .reboot ∈ sh.ran then some sh else consoleService round.1 round.2 sh

/-- `main`, from a board with cleared variables. -/
def fwMain (stack : Stack) (rounds : List (Option Byte × Stack)) (b : Board) : Option Shell :=
  rounds.foldlM mainLoop
    ⟨(xtrxInit stack b).2, ⟨List.replicate sizeofS 0, 0⟩, [], []⟩

/-! ## The console as it is meant -/

/-- The line, the commands that were run, and what was echoed. -/
structure Typed where
  line : List Byte
  ran : List Command
  out : List Byte

/-- The command of a line: its first word, up to a zero. -/
def lineCommand (line : List Byte) : Option Command :=
  commandOf ((line.takeWhile (· ≠ 0)).takeWhile (· ≠ 0x20))

def Typed.key (t : Typed) (c : Byte) : Typed :=
  if c = 0x7f ∨ c = 0x08 then
    if t.line = [] then t else { t with line := t.line.dropLast, out := t.out ++ [0x08, 0x20, 0x08] }
  else if c = 0x07 then t
  else if c = 0x0d ∨ c = 0x0a then
    ⟨[], t.ran ++ (lineCommand t.line).toList, t.out ++ [0x0a]⟩
  else if t.line.length < 63 then
    { t with line := t.line ++ [c], out := t.out ++ if c = 0 then [] else [c] }
  else t

/-- A round of the main loop: nothing happens without a character, or after a reboot. -/
def Typed.round (t : Typed) (key : Option Byte) : Typed :=
  if .reboot ∈ t.ran then t else key.elim t t.key

def typed (keys : List (Option Byte)) : Typed := keys.foldl Typed.round ⟨[], [], []⟩

/-- The shell holds the line in front of `ptr`. -/
structure Holds (sh : Shell) (t : Typed) : Prop where
  length : sh.line.s.length = sizeofS
  ptr : sh.line.ptr = t.line.length
  bound : t.line.length < sizeofS
  line : sh.line.s.take t.line.length = t.line
  ran : sh.ran = t.ran
  out : sh.out = t.out

/-- The board behind a round: a command was run on it, or nothing. -/
def Ran (stack : Stack) (b b' : Board) : Prop := b' = b ∨ ∃ c : Command, b' = (c.run stack b).2

/-- The first occurrence of `x` parts the list. -/
theorem findIdx?_parts {α : Type} [DecidableEq α] {x : α} {t : List α} {i : Nat}
    (h : t.findIdx? (· = x) = some i) : i < t.length ∧ t.take i = t.takeWhile (· ≠ x) ∧
      t.drop (i + 1) = (t.dropWhile (· ≠ x)).tail := by
  induction t generalizing i with
  | nil => cases h
  | cons y t ih =>
    rw [List.findIdx?_cons] at h
    by_cases hy : y = x
    · obtain rfl : 0 = i := by simpa [hy] using h
      simp [hy]
    · obtain ⟨j, hj, rfl⟩ : ∃ j, t.findIdx? (· = x) = some j ∧ j + 1 = i := by simpa [hy] using h
      obtain ⟨hlt, htake, hdrop⟩ := ih hj
      simp [hy, hlt, htake, hdrop]

/-- `get_token` at the beginning of the buffer: the token is the first word, and the rest is behind it. -/
theorem getToken_eq {s t : List Byte} (h : strAt 0 s 0 = some t) : ∃ str s',
    getToken s 0 = some (0, str, s') ∧ s'.length = s.length ∧
      strAt 0 s' 0 = some (t.takeWhile (· ≠ 0x20)) ∧
      strAt 0 s' str = some (t.dropWhile (· ≠ 0x20)).tail := by
  obtain ⟨hz, rest, hs⟩ := strAt_eq_some.mp h
  have hlen : t.length < s.length := by
    have hcount := congrArg List.length hs
    simp at hcount
    omega
  cases hfind : t.findIdx? (· = 0x20) with
  | none =>
    have hno : ∀ c ∈ t, c ≠ 0x20 := by simpa using List.findIdx?_eq_none_iff.mp hfind
    have htake : t.takeWhile (· ≠ 0x20) = t := List.takeWhile_eq_self_iff.mpr (by simpa using hno)
    have hdrop : t.dropWhile (· ≠ 0x20) = [] := List.dropWhile_eq_nil_iff.mpr (by simpa using hno)
    refine ⟨0 + t.length, s, ?_, rfl, htake.symm ▸ h, ?_⟩
    · rw [getToken, h, Option.bind_eq_bind, Option.bind_some, hfind]
      rfl
    rw [hdrop]
    refine strAt_eq_some.mpr ⟨by simp, rest, ?_⟩
    rw [← List.drop_drop, hs, List.drop_left]
    rfl
  | some i =>
    obtain ⟨hlt, htake, hdrop⟩ := findIdx?_parts hfind
    refine ⟨0 + i + 1, s.set (0 + i) 0, ?_, List.length_set .., ?_, ?_⟩
    · rw [getToken, h, Option.bind_eq_bind, Option.bind_some, hfind]
      simp only [store_of_lt (show 0 + i < s.length by omega)]
      rfl
    · rw [strAt_cut h hlt.le, htake]
    · rw [strAt_rest h hlt, hdrop]

/-- What `readstr` does with a character, in the terms of the line. -/
theorem readstr_holds {sh : Shell} {t : Typed} (h : Holds sh t) (c : Byte) :
    (∃ line echo, readstr (some c) sh.line = some (false, line, echo) ∧
      Holds { sh with line, out := sh.out ++ echo } (t.key c)) ∨
    ∃ line, readstr (some c) sh.line = some (true, line, [0x0a]) ∧ line.s.length = sizeofS ∧
      line.ptr = 0 ∧ strAt 0 line.s 0 = some (t.line.takeWhile (· ≠ 0)) ∧
      t.key c = ⟨[], t.ran ++ (lineCommand t.line).toList, t.out ++ [0x0a]⟩ := by
  obtain ⟨hlength, hptr, hbound, hline, hran, hout⟩ := h
  have hlt : sh.line.ptr < sh.line.s.length := by rw [hptr, hlength]; exact hbound
  unfold readstr Typed.key
  simp only
  by_cases hback : c = 0x7f ∨ c = 0x08
  · rw [if_pos hback, if_pos hback]
    refine .inl ?_
    by_cases hnil : t.line = []
    · have hzero : ¬ 0 < sh.line.ptr := by simp [hptr, hnil]
      rw [if_neg hzero, if_pos hnil]
      exact ⟨_, _, rfl, hlength, hptr, hbound, hline, hran, by simpa using hout⟩
    · have hpos : 0 < sh.line.ptr := hptr ▸ List.length_pos_of_ne_nil hnil
      rw [if_pos hpos, if_neg hnil]
      refine ⟨_, _, rfl, hlength, by simp [hptr], ?_, ?_, hran, by simp [hout]⟩
      · simpa using (Nat.sub_le _ 1).trans_lt hbound
      · simp only [List.length_dropLast]
        rw [List.dropLast_eq_take, ← hline, List.take_take, hline]
        simp
  rw [if_neg hback, if_neg hback]
  by_cases hbell : c = 0x07
  · rw [if_pos hbell, if_pos hbell]
    exact .inl ⟨_, _, rfl, hlength, hptr, hbound, hline, hran, by simpa using hout⟩
  rw [if_neg hbell, if_neg hbell]
  by_cases henter : c = 0x0d ∨ c = 0x0a
  · rw [if_pos henter, if_pos henter, store_of_lt hlt]
    refine .inr ⟨_, rfl, by simp [hlength], rfl, ?_, rfl⟩
    rw [hptr] at hlt ⊢
    exact strAt_store hline hlt
  rw [if_neg henter, if_neg henter]
  refine .inl ?_
  by_cases hfull : sizeofS - 1 ≤ sh.line.ptr
  · have hroom : ¬ t.line.length < 63 := hptr ▸ Nat.not_lt.mpr hfull
    rw [if_pos hfull, if_neg hroom]
    exact ⟨_, _, rfl, hlength, hptr, hbound, hline, hran, by simpa using hout⟩
  · have hroom : t.line.length < 63 := hptr ▸ Nat.lt_of_not_le hfull
    rw [if_neg hfull, if_pos hroom, store_of_lt hlt]
    refine ⟨_, _, rfl, by simp [hlength], by simp [hptr], ?_, ?_, hran, by simp [hout]⟩
    · rw [List.length_append, List.length_singleton]
      exact Nat.add_lt_of_lt_sub hroom
    · rw [hptr] at hlt ⊢
      simp only [List.length_append, List.length_singleton]
      rw [List.take_add_one, List.take_set_of_le (Nat.le_refl _), hline, List.getElem?_set_self hlt]
      rfl

/-- A call of `console_service` leaves the shell in step with the console as it is meant. -/
theorem consoleService_holds {sh : Shell} {t : Typed} (h : Holds sh t) (key : Option Byte)
    (stack : Stack) : ∃ sh', consoleService key stack sh = some sh' ∧
      Holds sh' (key.elim t t.key) ∧ Ran stack sh.board sh'.board := by
  cases key with
  | none =>
    exact ⟨{ sh with out := sh.out ++ [] }, rfl, by simpa using h, .inl rfl⟩
  | some c =>
    rcases readstr_holds h c with ⟨line, echo, hread, hh⟩ | ⟨line, hread, hlength, hptr, hstr, hkey⟩
    · refine ⟨{ sh with line, out := sh.out ++ echo }, ?_, hh, .inl rfl⟩
      rw [consoleService, hread]
      rfl
    · obtain ⟨str, s', htoken, hlength', hname, -⟩ := getToken_eq hstr
      have hin (b : Board) (ran : List Command) (hran : ran = t.ran ++ (lineCommand t.line).toList) :
          Holds ⟨b, { line with s := s' }, ran, sh.out ++ [0x0a]⟩ (t.key c) := by
        rw [hkey]
        exact ⟨hlength'.trans hlength, hptr, by simp [sizeofS], rfl, hran, by simp [h.out]⟩
      have hrun : consoleService (some c) stack sh =
          (match lineCommand t.line with
          | none => some { sh with line := { line with s := s' }, out := sh.out ++ [0x0a] }
          | some cmd => some { sh with
              board := (cmd.run stack sh.board).2, line := { line with s := s' },
              ran := sh.ran ++ [cmd], out := sh.out ++ [0x0a] }) := by
        rw [consoleService, hread]
        simp only [Option.bind_eq_bind, Option.bind_some, htoken, hname]
        rfl
      cases hcmd : lineCommand t.line with
      | none =>
        rw [hcmd] at hrun
        exact ⟨_, hrun, hin _ _ (by simp [hcmd, h.ran]), .inl rfl⟩
      | some cmd =>
        rw [hcmd] at hrun
        exact ⟨_, hrun, hin _ _ (by simp [hcmd, h.ran]), .inr ⟨cmd, rfl⟩⟩

/-- A run of the main loop. What holds of the boards behind the commands holds of the board behind it. -/
theorem mainLoop_holds {P : Board → Prop} (hP : ∀ (c : Command) stack b, P b → P (c.run stack b).2)
    (rounds : List (Option Byte × Stack)) {sh : Shell} {t : Typed} (h : Holds sh t) (hp : P sh.board) :
    ∃ sh', rounds.foldlM mainLoop sh = some sh' ∧
      Holds sh' ((rounds.map Prod.fst).foldl Typed.round t) ∧ P sh'.board := by
  induction rounds generalizing sh t with
  | nil => exact ⟨sh, rfl, h, hp⟩
  | cons r rounds ih =>
    rw [List.foldlM_cons, List.map_cons, List.foldl_cons]
    unfold mainLoop Typed.round
    rw [h.ran]
    by_cases hboot : Command.reboot ∈ t.ran
    · rw [if_pos hboot, if_pos hboot]
      exact ih h hp
    · rw [if_neg hboot, if_neg hboot]
      obtain ⟨sh', hserve, hh, hran⟩ := consoleService_holds h r.1 r.2
      rw [hserve]
      refine ih hh ?_
      obtain hb | ⟨c, hb⟩ := hran
      · exact hb ▸ hp
      · exact hb ▸ hP c r.2 _ hp

theorem holds_start (b : Board) : Holds ⟨b, ⟨List.replicate sizeofS 0, 0⟩, [], []⟩ ⟨[], [], []⟩ :=
  ⟨by simp, rfl, by simp [sizeofS], rfl, rfl, rfl⟩

/-- Whatever is typed, `main` stores and reads inside of its buffer, the buffer holds the line, and the
commands that are run are those of the lines. -/
theorem fwMain_typed (stack : Stack) (rounds : List (Option Byte × Stack)) (b : Board) :
    ∃ sh, fwMain stack rounds b = some sh ∧ sh.line.s.length = sizeofS ∧ sh.line.ptr < sizeofS ∧
      sh.line.s.take sh.line.ptr = (typed (rounds.map Prod.fst)).line ∧
      sh.ran = (typed (rounds.map Prod.fst)).ran ∧ sh.out = (typed (rounds.map Prod.fst)).out := by
  obtain ⟨sh, hrun, h, -⟩ := mainLoop_holds (P := fun _ => True) (fun _ _ _ _ => trivial) rounds
    (holds_start (xtrxInit stack b).2) trivial
  exact ⟨sh, hrun, h.length, h.ptr ▸ h.bound, h.ptr ▸ h.line, h.ran, h.out⟩

/-! ## The buses -/

theorem Framed.foldlM {α κ : Type} {f : α → κ → Fw α} (hf : ∀ a x, Framed (f a x)) (xs : List κ) (a : α) :
    Framed (xs.foldlM f a) := by
  induction xs generalizing a with
  | nil => exact .pure _
  | cons x xs ih => exact .bind (hf a x) fun a => ih a

theorem framed_run (stack : Stack) (c : Command) : Framed (c.run stack) := by
  cases c with
  | help => exact .pure _
  | reboot => exact .pure _
  | i2cTest => exact .bind (framed_i2cScan _) fun _ => framed_i2cScan _
  | tempTest => exact .bind (framed_i2cRead _ _ _ _ _) fun _ => .pure _
  | vctcxoTest => exact .bind (framed_vctcxoControlWrite _) fun _ => .forM (fun _ => framed_vctcxoDacSet _) _
  | digi1v8 => exact framed_pmicWrite _ _ _
  | xtrxInit => exact .bind (framed_xtrxInit stack) fun _ => .pure _
  | pmicDump =>
    exact .bind (.foldlM (fun _ _ => framed_pmicRead _ _ _) _ _) fun _ =>
      .bind (.foldlM (fun _ _ => framed_pmicRead _ _ _) _ _) fun _ => .pure _
  | dacDump =>
    refine .bind framed_get fun b => ?_
    dsimp only
    split
    · exact .bind (.foldlM (fun _ _ => .bind (framed_i2cRead _ _ _ _ _) fun _ => .pure _) _ _)
        fun _ => .pure _
    · exact .pure _
  | xsyncTest => exact .pure _

/-- Whatever is typed and whatever the devices do: the monitor of each bus reads whole transfers, those
of the record with the results in it, and then the bus is idle. -/
theorem fwMain_seen (stack : Stack) (rounds : List (Option Byte × Stack)) (b : Board)
    (hb : ∀ bus, (b.seen bus).2 = idle) :
    ∃ sh ts, fwMain stack rounds b = some sh ∧ sh.board.log.filter Action.isTransfer =
        b.log.filter Action.isTransfer ++ actions b.pattern b.transfer ts ∧
      ∀ bus, sh.board.seen bus = ((b.seen bus).1 ++ framesOn bus b.pattern b.transfer ts, idle) := by
  have hP : ∀ (c : Command) stack b', (∃ ts, Monitored b b' ts) →
      ∃ ts, Monitored b (c.run stack b').2 ts := by
    rintro c stack b' ⟨ts, hts⟩
    obtain ⟨ts', hts'⟩ := framed_run stack c b'
    exact ⟨ts ++ ts', hts.trans hts'⟩
  obtain ⟨sh, hrun, -, ts, hts⟩ := mainLoop_holds hP rounds (holds_start (xtrxInit stack b).2)
    (framed_xtrxInit stack b)
  exact ⟨sh, ts, hrun, hts.log, fun bus => hts.seen (hb bus)⟩

def zeroStack : Stack := ⟨0, (0, 0), (0, 0)⟩

/-- Rounds without a character, and those in which a line is typed. -/
def typing (line : List Char) : List (Option Byte × Stack) :=
  (none :: (ascii line ++ [0x0d]).map some).map fun key => (key, zeroStack)

/-- Devices that acknowledge all bytes. The first transfer reads the ID of the PMIC, the others read
zeros: `xtrx_init` ends where it reads the ID of the other PMIC. -/
def acknowledging (k i : Nat) : Bool := k == 0 && 3 ≤ i && i ≤ 5

/-- The PMIC takes what the typed command writes. -/
theorem fwMain_seen_command :
    ∃ sh ts, fwMain zeroStack (typing ['d', 'i', 'g', 'i', '_', '1', 'v', '8']) (.start acknowledging) =
        some sh ∧
      sh.ran = [.digi1v8] ∧ sh.board.transfer = 11 ∧
      sh.board.log.getLast? = some (.write .i2c1 lp8758I2cAddr 0x0c [0xb5] true) ∧
      sh.board.log.filter Action.isTransfer = actions acknowledging 0 ts ∧
      ∀ bus, sh.board.seen bus = (framesOn bus acknowledging 0 ts, idle) := by
  obtain ⟨sh, ts, hrun, hlog, hseen⟩ := fwMain_seen zeroStack
    (typing ['d', 'i', 'g', 'i', '_', '1', 'v', '8']) (.start acknowledging) fun _ => rfl
  have hview : (fwMain zeroStack (typing ['d', 'i', 'g', 'i', '_', '1', 'v', '8'])
      (.start acknowledging)).map (fun sh => (sh.ran, sh.board.transfer, sh.board.log.getLast?)) =
      some ([.digi1v8], 11, some (.write .i2c1 lp8758I2cAddr 0x0c [0xb5] true)) := by decide +kernel
  rw [hrun] at hview
  obtain ⟨hran, htransfer, hlast⟩ : sh.ran = _ ∧ sh.board.transfer = _ ∧ sh.board.log.getLast? = _ := by
    simpa using hview
  exact ⟨sh, ts, hrun, hran, htransfer, hlast, hlog, hseen⟩

/-! ## The screen -/

/-- The row of a terminal behind the prompt, and the column of the cursor. -/
structure Term where
  row : List Byte
  col : Nat

def Term.put (t : Term) (c : Byte) : Term :=
  if c = 0x0a then ⟨[], 0⟩
  else if c = 0x08 then { t with col := t.col - 1 }
  else ⟨t.row.take t.col ++ c :: t.row.drop (t.col + 1), t.col + 1⟩

/-- What is in the row after `out`. -/
def screen (out : List Byte) : Term := out.foldl Term.put ⟨[], 0⟩

/-- A character that is printed, or that `readstr` handles. -/
def Plain (c : Byte) : Prop := (0x20 ≤ c ∧ c ≤ 0x7f) ∨ c = 0x08 ∨ c = 0x07 ∨ c = 0x0d ∨ c = 0x0a

/-- The row is the line, with blanks behind it, and the cursor is at the end of the line. -/
def Shows (t : Typed) : Prop :=
  ∃ blanks : List Byte, (∀ c ∈ blanks, c = 0x20) ∧ screen t.out = ⟨t.line ++ blanks, t.line.length⟩

theorem screen_append (out out' : List Byte) : screen (out ++ out') = out'.foldl Term.put (screen out) :=
  List.foldl_append

theorem Shows.key {t : Typed} (h : Shows t) {c : Byte} (hc : Plain c) : Shows (t.key c) := by
  obtain ⟨blanks, hblanks, hscreen⟩ := h
  unfold Typed.key
  split
  · split
    · exact ⟨blanks, hblanks, hscreen⟩
    next hne =>
      -- the last character is overwritten with a blank
      obtain ⟨line, x, hline⟩ := List.eq_nil_or_concat'.{0} t.line |>.resolve_left hne
      refine ⟨0x20 :: blanks, List.forall_mem_cons.mpr ⟨rfl, hblanks⟩, ?_⟩
      rw [screen_append, hscreen, hline]
      simp [Term.put]
  split
  · exact ⟨blanks, hblanks, hscreen⟩
  split
  · refine ⟨[], by simp, ?_⟩
    rw [screen_append]
    rfl
  split
  next hback _ hline _ =>
    have hzero : c ≠ 0 := by
      rintro rfl
      exact absurd hc (by unfold Plain; decide)
    refine ⟨blanks.tail, fun x hx => hblanks x (List.mem_of_mem_tail hx), ?_⟩
    rw [if_neg hzero, screen_append, hscreen]
    have hput : Term.put ⟨t.line ++ blanks, t.line.length⟩ c =
        ⟨t.line ++ c :: blanks.tail, t.line.length + 1⟩ := by
      unfold Term.put
      rw [if_neg fun h => hline (.inr h), if_neg fun h => hback (.inr h)]
      simp
    rw [List.foldl_cons, hput]
    simp
  · exact ⟨blanks, hblanks, hscreen⟩

theorem shows_foldl (keys : List (Option Byte)) {t : Typed} (h : Shows t)
    (hplain : ∀ key ∈ keys, ∀ c, key = some c → Plain c) : Shows (keys.foldl Typed.round t) := by
  induction keys generalizing t with
  | nil => exact h
  | cons key keys ih =>
    refine ih ?_ fun k hk => hplain k (List.mem_cons_of_mem _ hk)
    unfold Typed.round
    split
    · exact h
    · cases key with
      | none => exact h
      | some c => exact h.key (hplain _ (List.mem_cons_self ..) c rfl)

/-- As long as only printed characters and those that `readstr` handles are typed, the terminal shows
the line that is in the buffer. -/
theorem fwMain_screen (stack : Stack) (rounds : List (Option Byte × Stack)) (b : Board)
    (hplain : ∀ r ∈ rounds, ∀ c, r.1 = some c → Plain c) :
    ∃ sh blanks, fwMain stack rounds b = some sh ∧ (∀ c ∈ blanks, c = 0x20) ∧
      screen sh.out = ⟨sh.line.s.take sh.line.ptr ++ blanks, sh.line.ptr⟩ := by
  obtain ⟨sh, hrun, h, -⟩ := mainLoop_holds (P := fun _ => True) (fun _ _ _ _ => trivial) rounds
    (holds_start (xtrxInit stack b).2) trivial
  obtain ⟨blanks, hblanks, hscreen⟩ := shows_foldl (rounds.map Prod.fst) (t := ⟨[], [], []⟩)
    ⟨[], by simp, rfl⟩ (List.forall_mem_map.mpr hplain)
  exact ⟨sh, blanks, hrun, hblanks, by rw [h.out, h.ptr, h.line, hscreen]⟩

/-- Two characters, of which one is taken back. -/
theorem fwMain_screen_erased :
    ∃ sh blanks, fwMain ⟨0, (0, 0), (0, 0)⟩
        ([0x61, 0x62, 0x7f].map fun c => (some c, ⟨0, (0, 0), (0, 0)⟩)) (.start fun _ _ => true) =
        some sh ∧ (∀ c ∈ blanks, c = 0x20) ∧
      screen sh.out = ⟨sh.line.s.take sh.line.ptr ++ blanks, sh.line.ptr⟩ :=
  fwMain_screen ⟨0, (0, 0), (0, 0)⟩ _ (.start fun _ _ => true) (by unfold Plain; decide)

end Firmware
end Xtrx
