import BoostHttp.Incremental.Scan
import BoostHttp.Incremental.Machine
import BoostHttp.Incremental.Schedule
import BoostHttp.Incremental.While
import BoostHttp.Token
import BoostHttp.Syntax
import BoostHttp.Decode
import BoostHttp.Field
import BoostHttp.Alphabet
import BoostHttp.Numbers
import BoostHttp.Reader
import BoostHttp.Request
import BoostHttp.Response
import BoostHttp.Message
import BoostHttp.Lexer
import BoostHttp.Handlers
import BoostHttp.Refines
import BoostHttp.Request.Framing
import BoostHttp.Request.Refinement
import BoostHttp.Response.Framing
import BoostHttp.Response.Refinement
import BoostHttp.Session
import BoostHttp.Observe
import BoostHttp.Clients
import BoostHttp.Fragmentation
import BoostHttp.Safety
import BoostHttp.Order
import BoostHttp.Grammar
import BoostHttp.Fields
import BoostHttp.Bodies
import BoostHttp.Record
import BoostHttp.Values
import BoostHttp.Chunks
import BoostHttp.Truncation
import BoostHttp.Outcome
import BoostHttp.Request.Head
import BoostHttp.Request.Decision
import BoostHttp.Request.Acceptance
import BoostHttp.Response.Head
import BoostHttp.Response.Decision
import BoostHttp.Response.Acceptance
import BoostHttp.Delivery
import BoostHttp.Closing
import BoostHttp.Lifetime
import BoostHttp.Latching
import BoostHttp.Progress
import BoostHttp.Waiting
import BoostHttp.Stopping
import BoostHttp.Tunnel
import BoostHttp.Codings
import BoostHttp.Lists
import BoostHttp.Twins
import BoostHttp.Isolation
import BoostHttp.Agreement
import BoostHttp.Incremental.Frames
import BoostHttp.Messages
import BoostHttp.Lengths
import BoostHttp.Request.Pipeline
import BoostHttp.Response.Grammar
import BoostHttp.Response.Pipeline
import BoostHttp.Productions
import BoostHttp.Objections
import BoostHttp.Request.Rejection
import BoostHttp.Response.Rejection
import BoostHttp.Pump
import BoostHttp.Expectations
import BoostHttp.Tufao.HttpServerRequest
import BoostHttp.Tufao.Reports
import BoostHttp.Tufao.Serving
import BoostHttp.Tufao.Announced
