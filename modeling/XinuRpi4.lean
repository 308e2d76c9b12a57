import XinuRpi4.Memory.KmallocAccounting
import XinuRpi4.Process.Stacks
import XinuRpi4.Process.LockWatchdog
import XinuRpi4.Actor.Wakeup
import XinuRpi4.Actor.CallResults
import XinuRpi4.Runtime.ImmutableLists
import XinuRpi4.Compiler.ParserTermination
import XinuRpi4.Compiler.RoundTrip
import XinuRpi4.Routing.SeenRequests
import XinuRpi4.Basic.StoreRefinement
import XinuRpi4.Basic.Transparency
import XinuRpi4.Net.SequenceNumbers
import XinuRpi4.Net.AppHandoff
import XinuRpi4.Files.FileContents
import XinuRpi4.Foundation.BlockStream
import XinuRpi4.Foundation.KeyedHash
import XinuRpi4.Wifi.Sha1
import XinuRpi4.Foundation.TextBuffer
import XinuRpi4.Wifi.KeyDerivation
import XinuRpi4.Dhcp.Client
import XinuRpi4.Dhcp.Servers
import XinuRpi4.Dhcp.Adoption
import XinuRpi4.Dhcp.Retry
import XinuRpi4.Foundation.DescriptorQueue
import XinuRpi4.Genet.ReceiveRing
import XinuRpi4.Genet.FrameDelivery
import XinuRpi4.Genet.RingSharing
import XinuRpi4.Genet.TransmitRing
import XinuRpi4.Wifi.UdpFrames
import XinuRpi4.Wifi.Tftp
import XinuRpi4.Wifi.TftpTransfer
import XinuRpi4.Wifi.Resolve
import XinuRpi4.Wifi.Lookups
import XinuRpi4.Wifi.CommandReplies
import XinuRpi4.Memory.ReleaseChecks
import XinuRpi4.Memory.RequestSizes
import XinuRpi4.Memory.FreeListCalls
import XinuRpi4.Process.StackFrames
import XinuRpi4.Process.FifoOrder
import XinuRpi4.Foundation.CycleRing
import XinuRpi4.Usb.Rings
import XinuRpi4.Usb.HidReports
import XinuRpi4.Usb.HidDelivery
import XinuRpi4.Llm.Conversation
import XinuRpi4.Llm.Isolation
import XinuRpi4.Usb.Completions
import XinuRpi4.System.Probe
import XinuRpi4.System.ProbeFaults
import XinuRpi4.Foundation.TableWalk
import XinuRpi4.System.LinkLayout
import XinuRpi4.Memory.FreeingOrder
import XinuRpi4.Actor.SweepExactness
import XinuRpi4.Compiler.CodeBuffer
import XinuRpi4.Compiler.CodeLabels
import XinuRpi4.Compiler.BufferBounds
import XinuRpi4.Compiler.TableLimits
import XinuRpi4.Compiler.Instructions
import XinuRpi4.Compiler.CursorBounds
import XinuRpi4.Compiler.FullArena
import XinuRpi4.Compiler.EmittedCode
import XinuRpi4.Compiler.FrameLayout
import XinuRpi4.Compiler.Prologue
import XinuRpi4.Compiler.TypedStores
import XinuRpi4.Foundation.ByteWords
import XinuRpi4.Net.FrameFormat
import XinuRpi4.Runtime.Arithmetic
import XinuRpi4.Net.ResponseDelivery
import XinuRpi4.Foundation.Scan
import XinuRpi4.Net.QueryParam
import XinuRpi4.Net.RequestArrival
import XinuRpi4.Net.FrameReads
import XinuRpi4.Net.SlotLifecycle
import XinuRpi4.Runtime.Rendering
import XinuRpi4.Runtime.ListBounds
import XinuRpi4.Compiler.LayoutRuns
import XinuRpi4.Compiler.Lexer
import XinuRpi4.Compiler.LexerMunch
import XinuRpi4.Compiler.LexerSoundness
import XinuRpi4.Net.UrlDecode
import XinuRpi4.Files.PathText
import XinuRpi4.Files.Resolvers
import XinuRpi4.Files.PathRoundTrip
import XinuRpi4.Files.ByteTotal
import XinuRpi4.Foundation.BoundedSearch
import XinuRpi4.Files.CopyEffects
import XinuRpi4.Basic.StringLet
import XinuRpi4.Files.Fat32
import XinuRpi4.Files.DirectoryWalk
import XinuRpi4.Files.CardMount
import XinuRpi4.Foundation.Pieces
import XinuRpi4.Net.Chainload
import XinuRpi4.Basic.StringFactors
import XinuRpi4.Wifi.Backplane
import XinuRpi4.Wifi.BulkTransfer
import XinuRpi4.Net.EchoReplies
import XinuRpi4.Wifi.Responder
import XinuRpi4.Wifi.EchoExactness
import XinuRpi4.Dhcp.OptionReads
import XinuRpi4.Dhcp.ParserAgreement
import XinuRpi4.Basic.Jumps
import XinuRpi4.Basic.UndefinedTargets
import XinuRpi4.Basic.ArrayStorage
import XinuRpi4.Basic.DataItems
import XinuRpi4.Basic.DataReading
import XinuRpi4.Foundation.Calendar
import XinuRpi4.Net.DecimalOutput
import XinuRpi4.Wifi.CivilDate
import XinuRpi4.Llm.Encoding
import XinuRpi4.Foundation.DigitalCurves
import XinuRpi4.Video.Shapes
import XinuRpi4.System.DemandPaging
import XinuRpi4.Wifi.DnsMessages
import XinuRpi4.Wifi.HttpFetch
import XinuRpi4.Foundation.FixedLine
import XinuRpi4.Video.ScreenEditor
import XinuRpi4.Video.WindowStack
