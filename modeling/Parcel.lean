import Parcel.Aes128
import Parcel.CipherColumns
import Parcel.CipherInverse
import Parcel.Aes128Modes
import Parcel.Wire
import Parcel.Cable
import Parcel.WireRoundTrip
import Parcel.Segmentation
import Parcel.Messages
import Parcel.Client
import Parcel.Daemon
import Parcel.SlotTable
import Parcel.DaemonRuns
import Parcel.Process
import Parcel.Sha256
import Parcel.KeyExchange
import Parcel.GroupKey
import Parcel.ControlKey
import Parcel.Framing
import Parcel.FramingRuns
import Parcel.CbcChunks
import Parcel.Cmac
import Parcel.CipherReference
import Parcel.Fips180
import Parcel.Sha256Reference
import Parcel.FileMessages
import Parcel.BoundedReads
import Parcel.HandlerBounds
import Parcel.DecryptBounds
import Parcel.Receiving
import Parcel.FileTransfer
import Parcel.Screen
import Parcel.Departed
import Parcel.Fanout
import Parcel.Calls
import Parcel.Entropy
import Parcel.X25519
import Parcel.Radix
import Parcel.Rfc7748
import Parcel.X25519Field
import Parcel.X25519Codec
import Parcel.X25519Reference
import Parcel.X25519Overflow
import Parcel.Rekey
import Parcel.Utf8
import Parcel.Console
import Parcel.LineText
import Parcel.LineEditor
import Parcel.FlushConsole
import Parcel.EditorRuns
import Parcel.LineBuffer
import Parcel.EditorInput
import Parcel.CursorReads
import Parcel.FlushRuns
import Parcel.CableSizes
import Parcel.SavedPath
import Parcel.InnerMac
import Parcel.KeySeparation
import Parcel.Arguments
import Parcel.Rename
import Parcel.SearchTable
import Parcel.DecimalString
import Parcel.RenderedLength
import Parcel.Slice
import Parcel.SendFile
import Parcel.RecvThread
import Parcel.Descriptors
import Parcel.PublicIp
import Parcel.Montgomery
import Parcel.LadderPoints
import Parcel.LucasTest
import Parcel.Curve25519
import Parcel.X25519Agreement
import Parcel.ActiveRelay
import Parcel.Terminal
import Parcel.FlushDisplay
import Parcel.ScreenText
import Parcel.Broadcast
import Parcel.Conversation
import Parcel.CommandLine
import Parcel.Options
import Parcel.Startup
import Parcel.Commands
import Parcel.RawMode
import Parcel.HexDump
import Parcel.TypedLines
import Parcel.FileReceipt
import Parcel.ControlKeyCalls
