import BoostHttp.Reader

/-!
# Response — `reader::response`

The model of `reader/response.hpp` and `reader/response.ipp`.
-/

namespace BoostHttp

namespace Response

inductive State where
  | errored
  | expectVersionStaticStr
  | expectVersion
  | expectSpAfterVersion
  | expectStatusCode
  | expectSpAfterStatusCode
  | expectReasonPhrase
  | expectCrlfAfterReasonPhrase
  | expectFieldName
  | expectColon
  | expectOwsAfterColon
  | expectFieldValue
  | expectCrlfAfterFieldValue
  | expectCrlfAfterHeaders
  | expectBody
  | expectUnsafeBody
  | expectEndOfBody
  | expectEndOfMessage
  | expectEndOfConnectionError
  | expectChunkSize
  | expectChunkExt
  | expextCrlfAfterChunkExt
  | expectChunkData
  | expectCrlfAfterChunkData
  | expectTrailerName
  | expectTrailerColon
  | expectOwsAfterTrailerColon
  | expectTrailerValue
  | expectCrlfAfterTrailerValue
  | expectCrlfAfterTrailers
  deriving DecidableEq, Repr

/-- The bits of `response::connection_flags`. -/
structure ConnectionFlags where
  eofReceived : Bool
  http10 : Bool
  deriving DecidableEq, Repr

inductive BodyType where
  | unknownBody
  | connectionDelimited
  | forceNoBody
  | forceNoBodyAndStop
  | contentLengthRead
  | chunkedEncodingRead
  | randomEncodingRead
  | readingContentLength
  | readingEncoding
  deriving DecidableEq, Repr

end Response

/-- `reader::response`; its member `connection_flags` is the field `connection`. -/
abbrev Response := Reader Response.State Response.BodyType Response.ConnectionFlags

namespace Response

/-- `response::response()`.  The constructor leaves `body_size` as it happens to be. -/
def init (bodySize : Nat) : Response where
  connection := ⟨false, false⟩
  bodyType := .unknownBody
  bodySize := bodySize
  state := .expectVersionStaticStr
  code := .errorInsufficientData
  idx := 0
  tokenSize := 0
  ibuffer := []

def reset (r : Response) : Response :=
  { r with
    connection := ⟨false, false⟩
    bodyType := .unknownBody
    state := .expectVersionStaticStr
    code := .errorInsufficientData
    idx := 0
    tokenSize := 0
    ibuffer := [] }

/-- The `body_type` and `body_size` that `set_method` chooses for a status code. -/
def bodyFor (method : Bytes) (statusCode bodySize : Nat) : BodyType × Nat :=
  let codeClass := statusCode / 100
  if codeClass = 1 ∨ statusCode = 204 ∨ statusCode = 304 ∨ method = ascii "HEAD" then
    (.forceNoBody, 0)
  else if codeClass = 2 ∧ method = ascii "CONNECT" then (.forceNoBodyAndStop, 0)
  else (.connectionDelimited, bodySize)

def setMethod (r : Response) (method : Bytes) : Except Fault Response := do
  if r.code ≠ .statusCode then .error .assertion
  let statusCode ← r.valueStatusCode
  let (bodyType, bodySize) := bodyFor method statusCode r.bodySize
  return { r with bodyType := bodyType, bodySize := bodySize }

def puteof (r : Response) : Response :=
  { r with connection := { r.connection with eofReceived := true } }

def expectedToken (r : Response) : Code :=
  match r.state with
  | .errored => r.code
  | .expectVersionStaticStr | .expectSpAfterVersion | .expectSpAfterStatusCode
  | .expectCrlfAfterReasonPhrase | .expectColon | .expectCrlfAfterHeaders | .expectOwsAfterColon
  | .expectCrlfAfterFieldValue | .expectChunkSize | .expextCrlfAfterChunkExt
  | .expectCrlfAfterChunkData | .expectTrailerColon | .expectOwsAfterTrailerColon
  | .expectCrlfAfterTrailerValue | .expectCrlfAfterTrailers => .skip
  | .expectVersion => .version
  | .expectStatusCode => .statusCode
  | .expectReasonPhrase => .reasonPhrase
  | .expectFieldName => .fieldName
  | .expectFieldValue => .fieldValue
  | .expectChunkExt => .chunkExt
  | .expectBody | .expectUnsafeBody | .expectChunkData => .bodyChunk
  | .expectTrailerName => .trailerName
  | .expectTrailerValue => .trailerValue
  | .expectEndOfBody => .endOfBody
  | .expectEndOfMessage => .endOfMessage
  | .expectEndOfConnectionError => .errorUseAnotherConnection

def expectVersion (r : Response) : Except Fault Response := do
  let c ← read r.ibuffer r.idx
  if c < 0x30 || c > 0x39 then return r.raise .errored .errorInvalidData
  let r := r.found .expectSpAfterVersion .version 1
  if c = 0x30 then return { r with connection := { r.connection with http10 := true } }
  else return r

def expectStatusCode (r : Response) : Except Fault Response := do
  let nmatched ← Syntax.statusCodeMatch r.restView
  if r.restView.length < 3 then return r
  if nmatched = 0 then return r.raise .errored .errorInvalidData
  else return r.found .expectSpAfterStatusCode .statusCode nmatched

def expectSpAfterStatusCode (r : Response) : Except Fault Response :=
  -- `set_method()` has not been called while the status code was the current token
  if r.bodyType = .unknownBody then .ok (r.raise .errored .errorSetMethod)
  else r.expectSp .errored .expectReasonPhrase

def nameRead (r : Response) : Except Fault Response := do
  let field ← r.valueFieldName
  -- the status code has settled the body: no field has a say
  if r.bodyType = .forceNoBody ∨ r.bodyType = .forceNoBodyAndStop then return r
  else if iequals field (ascii "Transfer-Encoding") ∧ ¬ r.connection.http10 then
    match r.bodyType with
    -- Transfer-Encoding overrides Content-Length (section 3.3.3 of RFC7230)
    | .contentLengthRead | .connectionDelimited | .randomEncodingRead =>
      return { r with bodyType := .readingEncoding }
    | .chunkedEncodingRead => return r.raise .errored .errorInvalidTransferEncoding
    | _ => .error .unreachable
  else if iequals field (ascii "Content-Length") then
    match r.bodyType with
    | .connectionDelimited => return { r with bodyType := .readingContentLength }
    | .contentLengthRead => return r.raise .errored .errorInvalidContentLength
    -- overridden by the Transfer-Encoding read before
    | .chunkedEncodingRead | .randomEncodingRead => return r
    | _ => .error .unreachable
  else return r

def valueRead (mem : Nat → UInt8) (r : Response) : Except Fault Response := do
  let field ← r.valueFieldValue mem
  match r.bodyType with
  | .readingContentLength =>
    let (res, out) := Syntax.contentLengthDecode 64 field r.bodySize
    let r := { r with bodyType := .contentLengthRead, bodySize := out }
    match res with
    | .invalid => return r.raise .errored .errorInvalidContentLength
    | .overflow => return r.raise .errored .errorContentLengthOverflow
    | .ok => return r
  | .readingEncoding =>
    match Detail.decodeTransferEncoding field with
    | .chunkedInvalid => return r.raise .errored .errorInvalidTransferEncoding
    | .chunkedNotFound => return { r with bodyType := .randomEncodingRead }
    | .chunkedAtEnd => return { r with bodyType := .chunkedEncodingRead }
  | _ => return r

def headersRead (r : Response) : Except Fault Response :=
  match r.bodyType with
  -- the body lasts until the connection is closed, and no message can follow it
  | .randomEncodingRead | .connectionDelimited =>
    .ok { r with
      bodyType := .forceNoBodyAndStop, state := .expectUnsafeBody, code := .endOfHeaders }
  | .forceNoBody | .forceNoBodyAndStop =>
    .ok { r with state := .expectEndOfBody, code := .endOfHeaders }
  | .chunkedEncodingRead => .ok { r with state := .expectChunkSize, code := .endOfHeaders }
  | .contentLengthRead =>
    if r.bodySize = 0 then .ok { r with state := .expectEndOfBody, code := .endOfHeaders }
    else .ok { r with state := .expectBody, code := .endOfHeaders }
  | _ => .error .unreachable

def expectCrlfAfterHeaders (r : Response) : Except Fault Response := do
  match ← Syntax.liberalCrlfMatch r.restView with
  | .crlf => headersRead { r with tokenSize := 2 }
  | .lf => headersRead { r with tokenSize := 1 }
  | .insufficientData => return r
  | .invalidData => return r.raise .errored .errorInvalidData

def dispatch (mem : Nat → UInt8) (self : Response → Except Fault Response) (r : Response) :
    Except Fault Response :=
  match r.state with
  | .expectVersionStaticStr => r.expectStaticStr (ascii "HTTP/1.") .errored .expectVersion
  | .expectVersion => expectVersion r
  | .expectSpAfterVersion => r.expectSp .errored .expectStatusCode
  | .expectStatusCode => expectStatusCode r
  | .expectSpAfterStatusCode => expectSpAfterStatusCode r
  | .expectReasonPhrase =>
    r.expectText Syntax.reasonPhraseMatch .expectCrlfAfterReasonPhrase .reasonPhrase .ok
  | .expectCrlfAfterReasonPhrase => r.expectLiberalCrlf .errored .expectFieldName
  | .expectFieldName => r.expectName self .expectCrlfAfterHeaders .expectColon .fieldName nameRead
  | .expectColon => r.expectColon .errored .expectOwsAfterColon .expectFieldValue
  | .expectOwsAfterColon => r.expectOws self .expectFieldValue
  | .expectFieldValue =>
    r.expectText Syntax.leftTrimmedFieldValueMatch .expectCrlfAfterFieldValue .fieldValue
      (valueRead mem)
  | .expectCrlfAfterFieldValue => r.expectLiberalCrlf .errored .expectFieldName
  | .expectCrlfAfterHeaders => expectCrlfAfterHeaders r
  | .expectBody => .ok (r.expectBody .expectEndOfBody)
  | .expectUnsafeBody => .ok { r with code := .bodyChunk, tokenSize := r.restView.length }
  -- these states are handled by the first `switch`
  | .expectEndOfBody | .expectEndOfMessage | .expectEndOfConnectionError => .error .unreachable
  | .expectChunkSize => r.expectChunkSize .errored .expectChunkExt
  | .expectChunkExt => r.expectChunkExt self .errored .expextCrlfAfterChunkExt
  | .expextCrlfAfterChunkExt =>
    r.expectStrictCrlf .errored fun r nmatched =>
      -- the chunk of size zero is the last one
      if r.bodySize ≠ 0 then r.found .expectChunkData .skip nmatched
      else r.found .expectTrailerName .endOfBody nmatched
  | .expectChunkData => .ok (r.expectBody .expectCrlfAfterChunkData)
  | .expectCrlfAfterChunkData =>
    r.expectStrictCrlf .errored fun r nmatched => r.found .expectChunkSize .skip nmatched
  | .expectTrailerName =>
    r.expectName self .expectCrlfAfterTrailers .expectTrailerColon .trailerName .ok
  | .expectTrailerColon => r.expectColon .errored .expectOwsAfterTrailerColon .expectTrailerValue
  | .expectOwsAfterTrailerColon => r.expectOws self .expectTrailerValue
  | .expectTrailerValue =>
    r.expectText Syntax.leftTrimmedFieldValueMatch .expectCrlfAfterTrailerValue .trailerValue .ok
  | .expectCrlfAfterTrailerValue =>
    r.expectStrictCrlf .errored fun r nmatched => r.found .expectTrailerName .skip nmatched
  | .expectCrlfAfterTrailers =>
    r.expectStrictCrlf .errored fun r nmatched =>
      { r.found .expectVersionStaticStr .endOfMessage nmatched with bodyType := .unknownBody }
  | .errored => .error .unreachable

/-- `next()` when every byte of the buffer has been consumed. -/
def atBufferEnd (r : Response) : Response :=
  if ¬ r.connection.eofReceived ∨ (r.bodyType = .contentLengthRead ∧ r.bodySize ≠ 0) then r
  -- no more data will come: only a body that lasts until the end is complete
  else if r.state ≠ .expectUnsafeBody then r.raise .errored .errorUseAnotherConnection
  else r.found .expectEndOfMessage .endOfBody 0

def nextBody (mem : Nat → UInt8) (self : Response → Except Fault Response) (r : Response) :
    Except Fault Response :=
  match r.state with
  | .errored => .ok r
  | .expectEndOfBody =>
    .ok { r with
      state := .expectEndOfMessage, code := .endOfBody, idx := r.idx + r.tokenSize, tokenSize := 0 }
  | .expectEndOfMessage =>
    .ok { r with
      state :=
        if r.bodyType = .forceNoBodyAndStop ∨ r.connection.http10 then .expectEndOfConnectionError
        else .expectVersionStaticStr
      bodyType := .unknownBody
      code := .endOfMessage
      idx := r.idx + r.tokenSize
      tokenSize := 0 }
  | .expectEndOfConnectionError => .ok (r.raise .errored .errorUseAnotherConnection)
  | _ =>
    let r := r.consume
    if r.idx = r.ibuffer.length then .ok (atBufferEnd r) else dispatch mem self r

def nextDepth (mem : Nat → UInt8) : Nat → Response → Except Fault Response
  | 0 => nextBody mem fun _ => .error .recursion
  | depth + 1 => nextBody mem (nextDepth mem depth)

def next (mem : Nat → UInt8) (r : Response) : Except Fault Response := nextDepth mem 1 r

def setBuffer (mem : Nat → UInt8) (r : Response) (inbuffer : Bytes) : Except Fault Response :=
  r.setBufferWith (next mem) inbuffer

end Response

end BoostHttp
