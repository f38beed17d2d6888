import BoostHttp.Decode
import BoostHttp.Field

/-!
# Reader — what `reader::request` and `reader::response` have in common

Both classes keep the same data members next to an enumeration of states of their own, and about
twenty cases of the `switch` in `next()` are written twice.  `Reader` is the record of the data
members; the cases that occur in both classes, or several times in one, are definitions with the
states they lead to as parameters.  `ibuffer` is the region behind the `const_buffer`, and a member
function that changes the object returns the changed record.
-/

namespace BoostHttp

/-- The data members of a reader with states `σ`, body types `β` and, in `connection`, the member
`version` of the request reader or `connection_flags` of the response reader. -/
structure Reader (σ β ν : Type) where
  connection : ν
  bodyType : β
  bodySize : Nat
  state : σ
  code : Code
  idx : Nat
  tokenSize : Nat
  ibuffer : Bytes
  deriving DecidableEq, Repr

namespace Reader

variable {σ β ν : Type}

def parsedCount (r : Reader σ β ν) : Nat := r.idx

/-- `ibuffer + idx`, the bytes seen by `rest_view`. -/
def restView (r : Reader σ β ν) : Bytes := r.ibuffer.drop r.idx

/-- `view_type(ibuffer.data() + idx, token_size_)`. -/
def slice (r : Reader σ β ν) : Bytes := r.restView.take r.tokenSize

/-- `value<T>()` for the tag `T` of the current token.  The tags of the request line exist for the
request reader only, those of the status line for the response reader only. -/
def value (mem : Nat → UInt8) (r : Reader σ β ν) : Value :=
  match r.code with
  | .method | .requestTarget | .reasonPhrase | .fieldName | .trailerName => .view r.slice
  | .version => .version (((r.restView.headD 0).toNat : Int) - 0x30)
  | .statusCode => .statusCode ((Syntax.statusCodeDecode r.slice).toOption.getD 0)
  | .fieldValue | .trailerValue => .view (Detail.decodeFieldValue mem r.slice)
  | .chunkExt => .chunkExt r.bodySize r.slice
  | .bodyChunk => .buffer r.slice
  | _ => .none

def valueVersion (r : Reader σ β ν) : Except Fault Int :=
  if r.code ≠ .version then .error .assertion
  else do
    let c ← read r.ibuffer r.idx
    return (c.toNat : Int) - 0x30

def valueStatusCode (r : Reader σ β ν) : Except Fault Nat :=
  if r.code ≠ .statusCode then .error .assertion else Syntax.statusCodeDecode r.slice

def valueFieldName (r : Reader σ β ν) : Except Fault Bytes :=
  if r.code ≠ .fieldName ∧ r.code ≠ .trailerName then .error .assertion else .ok r.slice

def valueFieldValue (mem : Nat → UInt8) (r : Reader σ β ν) : Except Fault Bytes :=
  if r.code ≠ .fieldValue ∧ r.code ≠ .trailerValue then .error .assertion
  else .ok (Detail.decodeFieldValue mem r.slice)

def setBufferWith (next : Reader σ β ν → Except Fault (Reader σ β ν)) (r : Reader σ β ν)
    (inbuffer : Bytes) : Except Fault (Reader σ β ν) :=
  let r := { r with ibuffer := inbuffer, idx := 0 }
  -- `next()` is called at once only if the reader was waiting for data
  if r.code = .errorInsufficientData then next r else .ok r

/-! ## Steps of `next()` that occur more than once -/

/-- A complete token is passed before the next one is looked for. -/
def consume (r : Reader σ β ν) : Reader σ β ν :=
  if r.code ≠ .errorInsufficientData then
    { r with idx := r.idx + r.tokenSize, tokenSize := 0, code := .errorInsufficientData }
  else r

/-- `state = ERRORED; code_ = code;` -/
def raise (r : Reader σ β ν) (errored : σ) (code : Code) : Reader σ β ν :=
  { r with state := errored, code := code }

/-- `state = next; code_ = code; token_size_ = size;` -/
def found (r : Reader σ β ν) (next : σ) (code : Code) (size : Nat) : Reader σ β ν :=
  { r with state := next, code := code, tokenSize := size }

/-- `EXPECT_METHOD` and `EXPECT_REQUEST_TARGET`. -/
def expectRun (r : Reader σ β ν) (p : UInt8 → Bool) (errored next : σ) (code : Code) :
    Except Fault (Reader σ β ν) := do
  let i ← scanWhile r.ibuffer p (r.idx + r.tokenSize)
  if i ≠ r.ibuffer.length then
    if i ≠ r.idx then return r.found next code (i - r.idx)
    else return r.raise errored .errorInvalidData
  -- the run may go on in the next buffer: `token_size_` keeps what has been looked at
  else return { r with tokenSize := i - r.idx }

/-- `EXPECT_SP_AFTER_METHOD`, `EXPECT_SP_AFTER_VERSION` and the last part of
`EXPECT_SP_AFTER_STATUS_CODE`. -/
def expectSp (r : Reader σ β ν) (errored next : σ) : Except Fault (Reader σ β ν) := do
  let c ← read r.ibuffer r.idx
  if Detail.isSp c then return r.found next .skip 1
  else return r.raise errored .errorInvalidData

/-- `EXPECT_STATIC_STR_AFTER_TARGET` and `EXPECT_VERSION_STATIC_STR`. -/
def expectStaticStr (r : Reader σ β ν) (skip : Bytes) (errored next : σ) :
    Except Fault (Reader σ β ν) := do
  let count := min r.ibuffer.length (r.idx + skip.length)
  -- what earlier calls have matched is not compared again
  let i := r.idx + r.tokenSize
  let i ← scanLoop (fun i c => (read skip (i - r.idx)).map fun s => c == s) count i
    (r.ibuffer.drop i)
  if i ≠ count then return r.raise errored .errorInvalidData
  let r := { r with tokenSize := i - r.idx }
  if r.tokenSize = skip.length then return { r with state := next, code := .skip } else return r

def expectLiberalCrlf (r : Reader σ β ν) (errored next : σ) : Except Fault (Reader σ β ν) := do
  match ← Syntax.liberalCrlfMatch r.restView with
  | .crlf => return r.found next .skip 2
  | .lf => return r.found next .skip 1
  | .insufficientData => return r
  | .invalidData => return r.raise errored .errorInvalidData

/-- The line ends of chunks and trailers; `matched` says what a line end leads to. -/
def expectStrictCrlf (r : Reader σ β ν) (errored : σ)
    (matched : Reader σ β ν → Nat → Reader σ β ν) : Except Fault (Reader σ β ν) :=
  if r.restView.length < 2 then .ok r
  else do
    let nmatched ← Syntax.strictCrlfMatch r.restView
    if nmatched = 0 then return r.raise errored .errorInvalidData
    else return matched r nmatched

def expectColon (r : Reader σ β ν) (errored ows value : σ) : Except Fault (Reader σ β ν) := do
  let c ← read r.ibuffer r.idx
  if c ≠ 0x3A then return r.raise errored .errorInvalidData
  let i ← scanWhile r.ibuffer Detail.isOws (r.idx + 1)
  -- at the end of the buffer more whitespace may follow
  return r.found (if i ≠ r.ibuffer.length then value else ows) .skip (i - r.idx)

/-- `EXPECT_OWS_AFTER_COLON` and `EXPECT_OWS_AFTER_TRAILER_COLON`; `self` is the call of `next()`. -/
def expectOws (self : Reader σ β ν → Except Fault (Reader σ β ν)) (r : Reader σ β ν) (value : σ) :
    Except Fault (Reader σ β ν) := do
  let nmatched ← Syntax.owsMatch r.restView
  -- nothing to skip: the value is looked for by the same call
  if nmatched = 0 then self { r with state := value }
  else return { r with code := .skip, tokenSize := nmatched }

/-- `EXPECT_REASON_PHRASE` and `EXPECT_TRAILER_VALUE`, and the match of `EXPECT_FIELD_VALUE`: the
run must be followed by a byte that ends it. -/
def expectText (r : Reader σ β ν) (matcher : Bytes → Except Fault Nat) (next : σ) (code : Code)
    (matched : Reader σ β ν → Except Fault (Reader σ β ν)) : Except Fault (Reader σ β ν) := do
  let nmatched ← matcher r.restView
  -- no byte behind the run: it is matched again from its start when more data is there
  if nmatched = r.restView.length then return r
  else matched (r.found next code nmatched)

/-- `EXPECT_FIELD_NAME` and `EXPECT_TRAILER_NAME`: no name means the end of the block. -/
def expectName (self : Reader σ β ν → Except Fault (Reader σ β ν)) (r : Reader σ β ν)
    (crlf next : σ) (code : Code) (matched : Reader σ β ν → Except Fault (Reader σ β ν)) :
    Except Fault (Reader σ β ν) := do
  let nmatched ← Syntax.fieldNameMatch r.restView
  if nmatched = 0 then self { r with state := crlf }
  else if nmatched = r.restView.length then return r
  else matched (r.found next code nmatched)

def expectBody (r : Reader σ β ν) (done : σ) : Reader σ β ν :=
  let size := min r.restView.length r.bodySize
  let r := { r with code := .bodyChunk, tokenSize := size, bodySize := wrapSub r.bodySize size }
  -- `body_size` is what is left of the body or of the chunk
  if r.bodySize = 0 then { r with state := done } else r

def expectChunkSize (r : Reader σ β ν) (errored next : σ) : Except Fault (Reader σ β ν) := do
  let nmatched ← Syntax.chunkSizeMatch r.restView
  if nmatched = 0 then return r.raise errored .errorInvalidData
  else if nmatched = r.restView.length then return r
  else
    let (res, out) := Syntax.chunkSizeDecode 64 (r.restView.take nmatched) r.bodySize
    -- `decode` writes to `body_size` also when it fails
    let r := { r with bodySize := out }
    match res with
    | .invalid => return r.raise errored .errorInvalidData
    | .overflow => return r.raise errored .errorChunkSizeOverflow
    | .ok => return r.found next .skip nmatched

def expectChunkExt (self : Reader σ β ν → Except Fault (Reader σ β ν)) (r : Reader σ β ν)
    (errored crlf : σ) : Except Fault (Reader σ β ν) := do
  let i ← scanWhile r.ibuffer Detail.isChunkExtChar (r.idx + r.tokenSize)
  if i = r.ibuffer.length then return { r with tokenSize := i - r.idx }
  let c ← read r.ibuffer i
  if c ≠ 0x0D then return r.raise errored .errorInvalidData
  let r := { r with state := crlf, tokenSize := i - r.idx }
  -- an absent extension is no token: the line end is looked for by the same call
  if r.tokenSize = 0 then self r else return { r with code := .chunkExt }

end Reader

end BoostHttp
