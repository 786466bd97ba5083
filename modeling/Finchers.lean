import Finchers.Lib.Machine
import Finchers.Lib.Leftmost
import Finchers.Common
import Finchers.Error
import Finchers.Service
import Finchers.SetCookie
import Finchers.Cursor
import Finchers.OrTree
import Finchers.Conformance
import Finchers.FileStream
import Finchers.DirPath
import Finchers.Session.Untouched
import Finchers.Session.Generated
import Finchers.Lib.Comp
import Finchers.Direct
import Finchers.Refinement
import Finchers.Delays
import Finchers.Selected
import Finchers.Segments
import Finchers.Endpoint.Syntax
import Finchers.SegmentMatch
import Finchers.StrictTree
import Finchers.CookieHeader
import Finchers.Endpoint.ExtractPath
import Finchers.PathMacro
import Finchers.TaskContext
import Finchers.Lib.Digits
import Finchers.Session.Clients
import Finchers.Lib.CookieStore
import Finchers.Session.CookieBackend
import Finchers.Juniper.Request
import Finchers.Lib.Schedule
import Finchers.Juniper.Execute
import Finchers.Juniper.Decode
import Finchers.Endpoint.Verb
import Finchers.Completed
import Finchers.CookieBytes
import Finchers.ContextScope
import Finchers.Endpoints.Body
import Finchers.PathLiteral
import Finchers.Recovered
import Finchers.Lib.FieldValue
import Finchers.Received
import Finchers.Tungstenite.Handshake
import Finchers.Tungstenite.Opening
import Finchers.Tuples
import Finchers.Regrouped
import Finchers.Taken
import Finchers.Waiting
import Finchers.Endpoints.Header
import Finchers.Endpoints.Query
import Finchers.Needed
import Finchers.Server
import Finchers.Library
import Finchers.Exhaustive
import Finchers.Routes
import Finchers.Session.Commands
import Finchers.Session.Linearized
import Finchers.Laws
import Finchers.CookieTrip
