import ZStage.Lib.ByteMemory
import ZStage.Lib.CopySequence
import ZStage.Head.Image
import ZStage.Head.Code
import ZStage.Head.Guards
import ZStage.Head.CopyLoop
import ZStage.Head.Relocation
import ZStage.Head.System
import ZStage.Head.WaitLoop
import ZStage.Head.BootSystem
import ZStage.Head.BootProtocol
import ZStage.Head.BootSafety
import ZStage.Lib.StoreBuffer
import ZStage.Head.Flight
import ZStage.Head.FlagOrder
import ZStage.Head.BssZero
import ZStage.Head.SignBoundary
import ZStage.Main.ZstageMain
import ZStage.Main.Handover
import ZStage.Main.PrepareFdt
import ZStage.Libc.Memmove
import ZStage.Lib.Trace
import ZStage.Fdt.Tree
import ZStage.Fdt.Helper
import ZStage.Lib.AddressWindow
import ZStage.Fdt.Translate
import ZStage.Fdt.Window
import ZStage.Fdt.Failure
import ZStage.Fdt.InBounds
import ZStage.Fdt.Match
import ZStage.Fdt.Search
import ZStage.Fdt.Phandle
import ZStage.Lib.Lexicographic
import ZStage.Lib.CString
import ZStage.Libc.Strings
import ZStage.Libc.StringCopy
import ZStage.Libc.Comparison
import ZStage.Libc.Search
import ZStage.Fdt.StringList
import ZStage.Serial.FdtSerial
import ZStage.Serial.Probe
import ZStage.Serial.InBounds
import ZStage.Serial.StdoutPath
import ZStage.Serial.Htif
import ZStage.Serial.HtifConsole
import ZStage.Serial.FdtSerialHtif
import ZStage.Serial.HtifMailbox
import ZStage.Console.Output
import ZStage.Console.Print
import ZStage.Console.Printf
import ZStage.Console.Buffered
import ZStage.Console.Format
import ZStage.Console.ArgsInStep
import ZStage.Console.FormatText
import ZStage.Console.Bounded
import ZStage.Console.FormatScan
import ZStage.Lib.Numeral
import ZStage.Console.Layout
import ZStage.Console.PrintBuf
import ZStage.Console.Device
import ZStage.Serial.Semihosting
import ZStage.Serial.Uart8250
import ZStage.Serial.Cadence
import ZStage.Serial.CadenceConsole
import ZStage.Lib.Rounds
import ZStage.Libfdt.Fdt
import ZStage.Libfdt.FdtRo
import ZStage.Libfdt.Token
import ZStage.Libfdt.Progress
import ZStage.Libfdt.Walk
import ZStage.Libfdt.Properties
import ZStage.Lib.Preorder
import ZStage.Libfdt.Presented
import ZStage.Libfdt.Parents
import ZStage.Libfdt.NodeSearch
import ZStage.Libfdt.Paths
import ZStage.Libfdt.Aliases
import ZStage.Libfdt.Helper
import ZStage.Libfdt.SerialInit
import ZStage.Libfdt.Copied
import ZStage.Main.NextStageFdt
import ZStage.Lib.ByteLayout
import ZStage.Libfdt.Layout
import ZStage.Libfdt.Lookups
import ZStage.Head.BootMemory
import ZStage.Lib.Interleaving
import ZStage.Main.BootHandover
import ZStage.Lib.FairRuns
import ZStage.Head.BootProgress
import ZStage.Main.BootCompletes
