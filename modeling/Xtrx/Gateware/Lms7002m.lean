import Xtrx.Lib.Clocked

/-!
# The data path of the LMS7002M core (`gateware/lms7002m.py`)

What is in the clock domain `rfic`: the pattern generator, the pattern checker, the two multiplexers,
and the 32-to-64 converter behind them. The inputs of a cycle are the settings, as they arrive in this
domain, the words of the 64-to-32 converter, and what the pins deliver. LiteX's converters are
parameters. The core does not look at the converters' `valid` and `ready`: each cycle takes a word of
the first one, and gives one to the second.

- **`TXPatternGenerator`**, **`RXPatternChecker`**: the registers of the classes of these names.
- **`TxMux`**, **`RxMux`**: `TX Pattern/Data Mux`, `TX-RX Loopback/RX Pattern/Data Mux`.
- **`lms7002m`**: the registers together; **`rxConvOut`**: the words that leave.
-/

namespace Xtrx
namespace Gateware

open Conc

/-! ## Patterns -/

/-- The registers of `TXPatternGenerator`: `source.last`, `count`, `source.data`. -/
structure TXPatternGenerator where
  last : Bool
  count : BitVec 24
  data : BitVec 32
  deriving DecidableEq

/-- The 24 bits of a count in the lanes of a word, 12 bits in each. -/
def lanes (count : BitVec 24) : BitVec 32 :=
  (count.extractLsb' 12 12).setWidth 16 ++ (count.extractLsb' 0 12).setWidth 16

def TXPatternGenerator.edge (enable : Bool) (s : TXPatternGenerator) : TXPatternGenerator where
  last := !s.last
  -- reset count when disabled, increment it when enabled
  count := if !enable then 0 else s.count + 1
  data := lanes s.count

/-- The registers of `RXPatternChecker`: `count`, `errors`. -/
structure RXPatternChecker where
  count : BitVec 24
  errors : BitVec 32
  deriving DecidableEq

/-- `Cat(sink.data[0:12], sink.data[16:28])`. -/
def word24 (data : BitVec 32) : BitVec 24 := data.extractLsb' 16 12 ++ data.extractLsb' 0 12

/-- `count_error`, at the width of `count`. -/
def RXPatternChecker.countError (data : BitVec 32) (s : RXPatternChecker) : Bool :=
  word24 data != s.count + 1

def RXPatternChecker.edge (enable : Bool) (data : BitVec 32) (s : RXPatternChecker) :
    RXPatternChecker where
  -- the assignment cuts each half to 12 bits
  count := (data.extractLsb' 16 16).setWidth 12 ++ (data.extractLsb' 0 16).setWidth 12
  errors := if !enable then 0 else if s.countError data then s.errors + 1 else s.errors

/-! ## Multiplexers -/

/-- The inputs in a cycle. -/
structure Cycle where
  txPatternEnable : Bool
  rxPatternEnable : Bool
  txInhibit : Bool
  txRxLoopbackEnable : Bool
  /-- `tx_conv.source.last`, `tx_conv.source.data`. -/
  txConvLast : Bool
  txConvData : BitVec 32
  /-- `rx_frame`, `rx_data`. -/
  rxFrame : BitVec 2
  rxData : BitVec 32

/-- `tx_frame`, whose bits are equal, and `tx_data`. -/
structure TxMux where
  frame : Bool
  data : BitVec 32

def txMux (i : Cycle) (pattern : TXPatternGenerator) : TxMux :=
  -- get data from TX pattern when valid
  if i.txPatternEnable then
    { frame := pattern.last, data := pattern.data }
  else
    { frame := i.txConvLast, data := if i.txInhibit then 0 else i.txConvData }

/-- `rx_pattern.sink.data`, and the sink of `rx_conv`: `last` and `data`, if it is valid. -/
structure RxMux where
  patternData : BitVec 32
  conv : Option (Bool × BitVec 32)

def rxMux (i : Cycle) (txData : BitVec 32) : RxMux :=
  -- redirect data to RX pattern when ready
  if i.rxPatternEnable then
    { patternData := i.rxData, conv := none }
  else
    { patternData := 0
      conv := some (i.rxFrame != 0,
        if i.txRxLoopbackEnable then txData &&& 0x0fff0fff else i.rxData) }

/-! ## The core -/

/-- `stream.Converter(32, 64)` with a sink behind it that is always ready: a word with its `last`, and
the 64-bit word that leaves in a cycle. -/
structure UpConverter (σ : Type) where
  step : Bool → BitVec 32 → σ → σ × Option (BitVec 64)

/-- The registers in the domain `rfic`. -/
structure LMS7002M (σ : Type) where
  txPattern : TXPatternGenerator
  rxPattern : RXPatternChecker
  rxConv : σ

variable {σ : Type}

/-- What the multiplexers deliver in a cycle. -/
def LMS7002M.rx (i : Cycle) (s : LMS7002M σ) : RxMux := rxMux i (txMux i s.txPattern).data

def lms7002m (up : UpConverter σ) : Clocked (LMS7002M σ) Cycle where
  edge i s :=
    { txPattern := s.txPattern.edge i.txPatternEnable
      rxPattern := s.rxPattern.edge i.rxPatternEnable (s.rx i).patternData
      rxConv :=
        match (s.rx i).conv with
        | some (last, data) => (up.step last data s.rxConv).1
        | none => s.rxConv }

/-- The converter takes what is delivered in the cycle. -/
theorem rxConv_edge {up : UpConverter σ} {i : Cycle} {s : LMS7002M σ} {last : Bool} {data : BitVec 32}
    (h : (s.rx i).conv = some (last, data)) :
    ((lms7002m up).edge i s).rxConv = (up.step last data s.rxConv).1 := by
  simp only [lms7002m, h]

/-- The word that leaves `rx_conv` in a cycle. -/
def rxConvOut (up : UpConverter σ) (i : Cycle) (s : LMS7002M σ) : Option (BitVec 64) :=
  (s.rx i).conv.bind fun (last, data) => (up.step last data s.rxConv).2

end Gateware
end Xtrx
