import Xtrx.Lib.Machine
import Xtrx.Lib.Prog
import Xtrx.Lib.Proc
import Xtrx.Lib.Ring
import Xtrx.Lib.Channel
import Xtrx.Lib.Codec
import Xtrx.Lib.BitField
import Xtrx.Lib.Ledger
import Xtrx.Lib.Regroup
import Xtrx.Lib.Fuel
import Xtrx.Lib.Nor
import Xtrx.Kernel.Device
import Xtrx.Kernel.Driver
import Xtrx.Kernel.Transfer
import Xtrx.Kernel.RxRing
import Xtrx.Kernel.TxRing
import Xtrx.Kernel.System
import Xtrx.Kernel.LockExclusion
import Xtrx.Kernel.BufferLifetime
import Xtrx.Kernel.EngineMirror
import Xtrx.Kernel.HwCount
import Xtrx.User.Syscall
import Xtrx.User.DmaGrant
import Xtrx.User.DmaCtrl
import Xtrx.User.ZeroCopy
import Xtrx.User.LitepcieTest
import Xtrx.Flash.Chip
import Xtrx.Flash.Library
import Xtrx.Flash.Write
import Xtrx.Flash.Util
import Xtrx.Soapy.Streaming
import Xtrx.Soapy.Flight
import Xtrx.Soapy.RxFlight
import Xtrx.Soapy.TxFlight
import Xtrx.Soapy.ReadStream
import Xtrx.Soapy.WriteStream
import Xtrx.Soapy.Lifecycle
import Xtrx.Soapy.SetupStream
import Xtrx.Soapy.Activation
import Xtrx.Sigflow.Task
import Xtrx.Sigflow.PassThrough
import Xtrx.Sigflow.Rechunk
import Xtrx.Sigflow.Collect
import Xtrx.Sigflow.Disk
import Xtrx.Sigflow.RechunkExact
import Xtrx.Sigflow.RechunkCols
import Xtrx.Sigflow.Reduce
import Xtrx.Kernel.CopyFault
import Xtrx.Kernel.Writable
import Xtrx.Kernel.Probe
import Xtrx.User.Batch
import Xtrx.Soapy.ReadAccount
import Xtrx.Soapy.Rules
import Xtrx.Soapy.Setting
import Xtrx.Soapy.FailedCall
import Xtrx.Sigflow.SoapyIo
import Xtrx.Sigflow.SampleLayout
import Xtrx.Lib.Clocked
import Xtrx.Gateware.Lms7002m
import Xtrx.Gateware.Pattern
import Xtrx.Gateware.RxAlign
import Xtrx.Gateware.Loopback
import Xtrx.Firmware.I2c
import Xtrx.Firmware.XtrxInit
import Xtrx.Lib.Transducer
import Xtrx.Lib.TwoWire
import Xtrx.Firmware.I2cBus
import Xtrx.Firmware.Console
import Xtrx.Lib.LaneMask
import Xtrx.User.DmaTest
import Xtrx.Kernel.Boards
import Xtrx.Kernel.Minors
import Xtrx.Lib.Numeral
import Xtrx.Soapy.Find
import Xtrx.Flash.ReadBack
import Xtrx.Kernel.Liteuart
import Xtrx.Kernel.LiteuartPoll
import Xtrx.Firmware.Tty
import Xtrx.Soapy.Antenna
