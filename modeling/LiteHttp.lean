import LiteHttp.Platform
import LiteHttp.StringT
import LiteHttp.HttpTypes
import LiteHttp.ParseCtx
import LiteHttp.ParseFeed
import LiteHttp.Client
import LiteHttp.Lib.Delim
import LiteHttp.Lib.Run
import LiteHttp.Lib.Path
import LiteHttp.Lib.Owner
import LiteHttp.Lib.Block
import LiteHttp.HeaderLoop
import LiteHttp.RequestLine
import LiteHttp.Wire
import LiteHttp.Refine
import LiteHttp.Node
import LiteHttp.HeaderBlock
import LiteHttp.Assertions
import LiteHttp.KeepAlive
import LiteHttp.Framing
import LiteHttp.ContentLength
import LiteHttp.Malformed
import LiteHttp.Absorbing
import LiteHttp.Tiling
import LiteHttp.Message
import LiteHttp.Reading
import LiteHttp.Pipelining
import LiteHttp.Segmentation
import LiteHttp.HeaderLimit
import LiteHttp.Response
import LiteHttp.Send
import LiteHttp.Resource
import LiteHttp.CacheAgree
import LiteHttp.FailedOpen
import LiteHttp.CacheThreads
import LiteHttp.Dispatch
import LiteHttp.Confinement
import LiteHttp.SelfDelimiting
import LiteHttp.Answers
import LiteHttp.StringRep
import LiteHttp.StringSpec
import LiteHttp.StringAppend
import LiteHttp.StringResize
import LiteHttp.StringAssign
import LiteHttp.StringInvariant
import LiteHttp.Appending
import LiteHttp.StringFailure
import LiteHttp.ViewToBuf
import LiteHttp.IntToString
import LiteHttp.Lib.Power
import LiteHttp.Growth
import LiteHttp.Reserved
import LiteHttp.ViewOrder
import LiteHttp.RequestGrammar
import LiteHttp.Lib.Trim
import LiteHttp.HeaderLine
import LiteHttp.ContentType
import LiteHttp.Persistence
import LiteHttp.Spelling
import LiteHttp.Lib.Buffers
import LiteHttp.Stored
import LiteHttp.StoredViews
import LiteHttp.StoredConn
import LiteHttp.Lifetime
import LiteHttp.Reactor
import LiteHttp.Descriptors
import LiteHttp.Outstanding
import LiteHttp.Accept
import LiteHttp.Starved
import LiteHttp.Handover
import LiteHttp.Lib.Probe
import LiteHttp.Khash
import LiteHttp.KhashSpec
import LiteHttp.KhashResize
import LiteHttp.KhashRehash
import LiteHttp.KhashPut
import LiteHttp.KhashMap
import LiteHttp.HashedCache
import LiteHttp.Resegment
import LiteHttp.Serving
import LiteHttp.ReadBack
import LiteHttp.Pages
import LiteHttp.Lib.Seen
import LiteHttp.Isolated
import LiteHttp.Lib.Simulate
import LiteHttp.KhashFlags
import LiteHttp.KhashWords
import LiteHttp.CcVec
