import RipExt.Pipeline.Locking
import RipExt.Pipeline.Conservation
import RipExt.Pipeline.InitFailure
import RipExt.Pipeline.Unload
import RipExt.Foundation.Ownership
import RipExt.Foundation.RefCount
import RipExt.Foundation.RefMoves
import RipExt.Json.Value
import RipExt.Json.Counting
import RipExt.Json.Load
import RipExt.Json.Number
import RipExt.Json.Natives
import RipExt.Json.Effects
import RipExt.Json.Handles
import RipExt.Json.Keys
import RipExt.Json.Cycles
import RipExt.Json.Decode
import RipExt.Json.Integers
import RipExt.Http.Headers
import RipExt.Foundation.Percent
import RipExt.Http.HeaderLines
import RipExt.Http.Request
import RipExt.Pipeline.Sockets
import RipExt.Http.Query
import RipExt.Http.Outgoing
import RipExt.Json.Dump
import RipExt.Http.Perform
import RipExt.Http.Body
import RipExt.Json.Accept
import RipExt.Http.ResponseBody
import RipExt.Http.Completion
import RipExt.Json.Strings
import RipExt.Json.Denotes
import RipExt.Json.Stored
import RipExt.Json.RoundTrip
import RipExt.Http.PostedJson
import RipExt.Json.Failures
import RipExt.Foundation.Enumeration
import RipExt.Json.KeyOrder
import RipExt.Json.ResponseData
import RipExt.Http.Form
import RipExt.Http.HeaderMap
import RipExt.Pipeline.Drain
import RipExt.Foundation.Allocator
import RipExt.Http.Accumulation
import RipExt.Foundation.Ring
import RipExt.Foundation.Refinement
import RipExt.Json.Hashtable
import RipExt.Json.HashtableRefines
import RipExt.Pipeline.Delivery
import RipExt.Json.Encode
import RipExt.Json.Printer
import RipExt.Json.Callbacks
import RipExt.Json.Tree
import RipExt.Json.Reread
import RipExt.Json.Saved
import RipExt.Json.Canonical
import RipExt.Foundation.History
import RipExt.Http.Natives
import RipExt.Http.Configured
import RipExt.Http.HandleLogs
import RipExt.Http.ConfiguredRefines
import RipExt.Json.Stream
import RipExt.Json.Parser
import RipExt.Json.StreamReads
import RipExt.Json.StreamStrings
import RipExt.Json.LexerRefines
import RipExt.Json.ParserRefines
