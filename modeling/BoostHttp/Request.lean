import BoostHttp.Reader

/-!
# Request — `reader::request`

The model of `reader/request.hpp` and `reader/request.ipp`.  `next()` is one function with a
`switch` over the states; a self-call is a call of the parameter `self`, and `next` ties the knot
for the one level of nesting that occurs.
-/

namespace BoostHttp

namespace Request

inductive State where
  | errored
  | expectMethod
  | expectSpAfterMethod
  | expectRequestTarget
  | expectStaticStrAfterTarget
  | expectVersion
  | expectCrlfAfterVersion
  | expectFieldName
  | expectColon
  | expectOwsAfterColon
  | expectFieldValue
  | expectCrlfAfterFieldValue
  | expectCrlfAfterHeaders
  | expectBody
  | expectEndOfBody
  | expectEndOfMessage
  | expectChunkSize
  | expectChunkExt
  | expextCrlfAfterChunkExt
  | expectChunkData
  | expectCrlfAfterChunkData
  | expectTrailerName
  | expectTrailerColon
  | expectOwsAfterTrailerColon
  | expectTrailerValue
  | expectCrlfAfterTrailerValue
  | expectCrlfAfterTrailers
  deriving DecidableEq, Repr

inductive Version where
  | http10
  | notHttp10AndHostNotRead
  | notHttp10AndHostRead
  deriving DecidableEq, Repr

inductive BodyType where
  | noBody
  | contentLengthRead
  | chunkedEncodingRead
  | randomEncodingRead
  | readingContentLength
  | readingEncoding
  deriving DecidableEq, Repr

end Request

/-- `reader::request`; its member `version` is the field `connection`. -/
abbrev Request := Reader Request.State Request.BodyType Request.Version

namespace Request

/-- `request::request()`.  The constructor leaves `version` and `body_size` as they happen to be. -/
def init (version : Version) (bodySize : Nat) : Request where
  connection := version
  bodyType := .noBody
  bodySize := bodySize
  state := .expectMethod
  code := .errorInsufficientData
  idx := 0
  tokenSize := 0
  ibuffer := []

def reset (r : Request) : Request :=
  { r with
    bodyType := .noBody
    state := .expectMethod
    code := .errorInsufficientData
    idx := 0
    tokenSize := 0
    ibuffer := [] }

def expectedToken (r : Request) : Code :=
  match r.state with
  | .errored => r.code
  | .expectMethod => .method
  | .expectSpAfterMethod | .expectStaticStrAfterTarget | .expectCrlfAfterVersion | .expectColon
  | .expectCrlfAfterHeaders | .expectOwsAfterColon | .expectCrlfAfterFieldValue | .expectChunkSize
  | .expextCrlfAfterChunkExt | .expectCrlfAfterChunkData | .expectTrailerColon
  | .expectOwsAfterTrailerColon | .expectCrlfAfterTrailerValue | .expectCrlfAfterTrailers => .skip
  | .expectRequestTarget => .requestTarget
  | .expectVersion => .version
  | .expectFieldName => .fieldName
  | .expectFieldValue => .fieldValue
  | .expectChunkExt => .chunkExt
  | .expectBody | .expectChunkData => .bodyChunk
  | .expectTrailerName => .trailerName
  | .expectTrailerValue => .trailerValue
  | .expectEndOfBody => .endOfBody
  | .expectEndOfMessage => .endOfMessage

def expectVersion (r : Request) : Except Fault Request := do
  let c ← read r.ibuffer r.idx
  if c < 0x30 || c > 0x39 then return r.raise .errored .errorInvalidData
  let r := r.found .expectCrlfAfterVersion .version 1
  let version ← r.valueVersion
  return { r with connection := if version = 0 then .http10 else .notHttp10AndHostNotRead }

def nameRead (r : Request) : Except Fault Request := do
  let field ← r.valueFieldName
  if iequals field (ascii "Host") then
    match r.connection with
    | .http10 => return r
    | .notHttp10AndHostNotRead => return { r with connection := .notHttp10AndHostRead }
    -- a second Host field (section 5.4 of RFC7230)
    | .notHttp10AndHostRead => return r.raise .errored .errorNoHost
  else if iequals field (ascii "Transfer-Encoding") then
    match r.bodyType with
    -- Transfer-Encoding overrides Content-Length (section 3.3.3 of RFC7230)
    | .contentLengthRead | .noBody | .randomEncodingRead =>
      return { r with bodyType := .readingEncoding }
    | .chunkedEncodingRead => return r.raise .errored .errorInvalidTransferEncoding
    | _ => .error .unreachable
  else if iequals field (ascii "Content-Length") then
    match r.bodyType with
    | .noBody => return { r with bodyType := .readingContentLength }
    | .contentLengthRead => return r.raise .errored .errorInvalidContentLength
    -- overridden by the Transfer-Encoding read before
    | .chunkedEncodingRead | .randomEncodingRead => return r
    | _ => .error .unreachable
  else return r

def valueRead (mem : Nat → UInt8) (r : Request) : Except Fault Request := do
  let field ← r.valueFieldValue mem
  match r.bodyType with
  | .readingContentLength =>
    let (res, out) := Syntax.contentLengthDecode 64 field r.bodySize
    -- `body_type` is set before the result is looked at
    let r := { r with bodyType := .contentLengthRead, bodySize := out }
    match res with
    | .invalid => return r.raise .errored .errorInvalidContentLength
    | .overflow => return r.raise .errored .errorContentLengthOverflow
    | .ok => return r
  | .readingEncoding =>
    match Detail.decodeTransferEncoding field with
    | .chunkedInvalid => return r.raise .errored .errorInvalidTransferEncoding
    -- only the last coding decides: `chunked` may come in a later field
    | .chunkedNotFound => return { r with bodyType := .randomEncodingRead }
    | .chunkedAtEnd => return { r with bodyType := .chunkedEncodingRead }
  | _ => return r

def headersRead (r : Request) : Except Fault Request :=
  if r.connection = .notHttp10AndHostNotRead then .ok (r.raise .errored .errorNoHost)
  else
    match r.bodyType with
    -- without `chunked` as the last coding the end of a request body cannot be told
    | .randomEncodingRead => .ok (r.raise .errored .errorInvalidTransferEncoding)
    | .noBody => .ok { r with state := .expectEndOfBody, code := .endOfHeaders }
    | .chunkedEncodingRead => .ok { r with state := .expectChunkSize, code := .endOfHeaders }
    | .contentLengthRead =>
      if r.bodySize = 0 then .ok { r with state := .expectEndOfBody, code := .endOfHeaders }
      else .ok { r with state := .expectBody, code := .endOfHeaders }
    | _ => .error .unreachable

def expectCrlfAfterHeaders (r : Request) : Except Fault Request := do
  match ← Syntax.liberalCrlfMatch r.restView with
  | .crlf => headersRead { r with tokenSize := 2 }
  | .lf => headersRead { r with tokenSize := 1 }
  | .insufficientData => return r
  | .invalidData => return r.raise .errored .errorInvalidData

def dispatch (mem : Nat → UInt8) (self : Request → Except Fault Request) (r : Request) :
    Except Fault Request :=
  match r.state with
  | .expectMethod => r.expectRun Detail.isTchar .errored .expectSpAfterMethod .method
  | .expectSpAfterMethod => r.expectSp .errored .expectRequestTarget
  | .expectRequestTarget =>
    r.expectRun Detail.isRequestTargetChar .errored .expectStaticStrAfterTarget .requestTarget
  | .expectStaticStrAfterTarget => r.expectStaticStr (ascii " HTTP/1.") .errored .expectVersion
  | .expectVersion => expectVersion r
  | .expectCrlfAfterVersion => r.expectLiberalCrlf .errored .expectFieldName
  | .expectFieldName => r.expectName self .expectCrlfAfterHeaders .expectColon .fieldName nameRead
  | .expectColon => r.expectColon .errored .expectOwsAfterColon .expectFieldValue
  | .expectOwsAfterColon => r.expectOws self .expectFieldValue
  | .expectFieldValue =>
    r.expectText Syntax.leftTrimmedFieldValueMatch .expectCrlfAfterFieldValue .fieldValue
      (valueRead mem)
  | .expectCrlfAfterFieldValue => r.expectLiberalCrlf .errored .expectFieldName
  | .expectCrlfAfterHeaders => expectCrlfAfterHeaders r
  | .expectBody => .ok (r.expectBody .expectEndOfBody)
  -- these states are handled by the first `switch`
  | .expectEndOfBody | .expectEndOfMessage => .error .unreachable
  | .expectChunkSize => r.expectChunkSize .errored .expectChunkExt
  | .expectChunkExt => r.expectChunkExt self .errored .expextCrlfAfterChunkExt
  | .expextCrlfAfterChunkExt =>
    r.expectStrictCrlf .errored fun r nmatched =>
      -- the chunk of size zero is the last one
      if r.bodySize ≠ 0 then r.found .expectChunkData .skip nmatched
      else r.found .expectTrailerName .endOfBody nmatched
  | .expectChunkData => .ok (r.expectBody .expectCrlfAfterChunkData)
  | .expectCrlfAfterChunkData =>
    r.expectStrictCrlf .errored fun r nmatched => r.found .expectChunkSize .skip nmatched
  | .expectTrailerName =>
    r.expectName self .expectCrlfAfterTrailers .expectTrailerColon .trailerName .ok
  | .expectTrailerColon => r.expectColon .errored .expectOwsAfterTrailerColon .expectTrailerValue
  | .expectOwsAfterTrailerColon => r.expectOws self .expectTrailerValue
  | .expectTrailerValue =>
    r.expectText Syntax.leftTrimmedFieldValueMatch .expectCrlfAfterTrailerValue .trailerValue .ok
  | .expectCrlfAfterTrailerValue =>
    r.expectStrictCrlf .errored fun r nmatched => r.found .expectTrailerName .skip nmatched
  | .expectCrlfAfterTrailers =>
    r.expectStrictCrlf .errored fun r nmatched =>
      { r.found .expectMethod .endOfMessage nmatched with bodyType := .noBody }
  | .errored => .error .unreachable

def nextBody (mem : Nat → UInt8) (self : Request → Except Fault Request) (r : Request) :
    Except Fault Request :=
  match r.state with
  | .errored => .ok r
  | .expectEndOfBody =>
    .ok { r with
      state := .expectEndOfMessage, code := .endOfBody, idx := r.idx + r.tokenSize, tokenSize := 0 }
  | .expectEndOfMessage =>
    .ok { r with
      bodyType := .noBody, state := .expectMethod, code := .endOfMessage,
      idx := r.idx + r.tokenSize, tokenSize := 0 }
  | _ =>
    -- the other states need a byte behind the token that has been passed
    let r := r.consume
    if r.idx = r.ibuffer.length then .ok r else dispatch mem self r

/-- `next()` with at most `depth` nested self-calls. -/
def nextDepth (mem : Nat → UInt8) : Nat → Request → Except Fault Request
  | 0 => nextBody mem fun _ => .error .recursion
  | depth + 1 => nextBody mem (nextDepth mem depth)

def next (mem : Nat → UInt8) (r : Request) : Except Fault Request := nextDepth mem 1 r

def setBuffer (mem : Nat → UInt8) (r : Request) (inbuffer : Bytes) : Except Fault Request :=
  r.setBufferWith (next mem) inbuffer

end Request

end BoostHttp
