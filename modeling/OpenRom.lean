import OpenRom.Library.Loop
import OpenRom.Library.SlidingWindow
import OpenRom.Library.LittleEndian
import OpenRom.Library.Reassembly
import OpenRom.Library.FirstMatch
import OpenRom.Library.Overwrite
import OpenRom.Library.Purge
import OpenRom.Library.Descriptors
import OpenRom.Library.Ownership
import OpenRom.Library.Region
import OpenRom.Library.Object
import OpenRom.Library.Numeral
import OpenRom.Library.Allocation
import OpenRom.Library.OrderedMap
import OpenRom.Pack.Unpack
import OpenRom.Pack.Format
import OpenRom.Pack.Progress
import OpenRom.Pack.Decode
import OpenRom.Pack.Pieces
import OpenRom.Pack.Reads
import OpenRom.Pack.Stream
import OpenRom.Pack.Packer
import OpenRom.Pack.Expansion
import OpenRom.Connection.Packet
import OpenRom.Connection.Connection
import OpenRom.Connection.SeenAs
import OpenRom.Connection.Reassemble
import OpenRom.Connection.Invariants
import OpenRom.Connection.Course
import OpenRom.Connection.Receive
import OpenRom.Connection.Trace
import OpenRom.Connection.Frames
import OpenRom.Connection.Delivery
import OpenRom.Connection.Corruption
import OpenRom.Connection.Sending
import OpenRom.Connection.Noting
import OpenRom.Proxy.ProxiedConnection
import OpenRom.Proxy.Keys
import OpenRom.Proxy.System
import OpenRom.Proxy.Relay
import OpenRom.Proxy.Keepalives
import OpenRom.Proxy.LoggedRun
import OpenRom.Proxy.Sends
import OpenRom.Proxy.SelectLoop
import OpenRom.Proxy.FdSet
import OpenRom.Proxy.Registry
import OpenRom.Proxy.Redirect
import OpenRom.Proxy.Redirecting
import OpenRom.Protocol.Types
import OpenRom.Protocol.Decode
import OpenRom.Protocol.Scan
import OpenRom.Protocol.Soundness
import OpenRom.Protocol.Completeness
import OpenRom.Protocol.Memory
import OpenRom.Protocol.Display
import OpenRom.Protocol.Generator
import OpenRom.Protocol.History
import OpenRom.Protocol.MatchCondition
import OpenRom.Protocol.Agreement
import OpenRom.Protocol.Members
import OpenRom.Protocol.Sender
import OpenRom.Protocol.Dispatch
import OpenRom.Protocol.Requests
import OpenRom.Protocol.Values
import OpenRom.Protocol.Packing
import OpenRom.Protocol.Leaves
import OpenRom.Protocol.Nesting
import OpenRom.Protocol.Calls
import OpenRom.Protocol.PlainCalls
import OpenRom.Protocol.PackedSender
import OpenRom.Protocol.Attempt
import OpenRom.Protocol.Layout
import OpenRom.Protocol.Offsets
import OpenRom.Protocol.Compressed
import OpenRom.Protocol.Signed
import OpenRom.Protocol.Document
import OpenRom.Protocol.Load
import OpenRom.Protocol.Loaded
import OpenRom.Protocol.Versions
import OpenRom.Protocol.Everywhere
import OpenRom.Protocol.Enumerations
import OpenRom.Protocol.Bounds
import OpenRom.RomDump.Flow
import OpenRom.RomDump.Analysis
import OpenRom.RomDump.Frames
import OpenRom.RomDump.FlowBuffer
import OpenRom.RomDump.FlowFrames
import OpenRom.RomDump.Sessions
import OpenRom.RomDump.Capture
import OpenRom.RomDump.LogFile
import OpenRom.RomDump.FullDisk
import OpenRom.RomDump.TextFile
import OpenRom.RomDump.Numbers
import OpenRom.RomDump.TextRecords
import OpenRom.RomDump.HexDump
import OpenRom.RomDump.Screen
import OpenRom.RomDump.Flows
import OpenRom.RomDump.AnyFile
import OpenRom.RomDump.CSVSysParser
import OpenRom.RomDump.Replay
import OpenRom.RomDump.ObjectIds
import OpenRom.RomDump.FieldText
import OpenRom.RomDump.KeyHistory
import OpenRom.Library.TextArray
import OpenRom.MkDef.ConditionText
import OpenRom.MkDef.ParserText
import OpenRom.MkDef.EmittedParser
