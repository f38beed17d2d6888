import Mathlib

/-!
# Token — the alphabet of the readers

`token.hpp` and `token.ipp`: the codes, symbols and categories of tokens, and the values that
`value<T>()` can return for them.
-/

namespace BoostHttp

abbrev Bytes := List UInt8

def ascii (s : String) : Bytes := s.toList.map fun c => UInt8.ofNat c.toNat

inductive Code where
  | errorInsufficientData
  | errorSetMethod
  | errorUseAnotherConnection
  | errorInvalidData
  | errorNoHost
  | errorInvalidContentLength
  | errorContentLengthOverflow
  | errorInvalidTransferEncoding
  | errorChunkSizeOverflow
  | skip
  | method
  | requestTarget
  | version
  | statusCode
  | reasonPhrase
  | fieldName
  | fieldValue
  | endOfHeaders
  | chunkExt
  | bodyChunk
  | endOfBody
  | trailerName
  | trailerValue
  | endOfMessage
  deriving DecidableEq, Repr

inductive Symbol where
  | error
  | skip
  | method
  | requestTarget
  | version
  | statusCode
  | reasonPhrase
  | fieldName
  | fieldValue
  | endOfHeaders
  | chunkExt
  | bodyChunk
  | endOfBody
  | trailerName
  | trailerValue
  | endOfMessage
  deriving DecidableEq, Repr

inductive Category where
  | status
  | data
  | structural
  deriving DecidableEq, Repr

def Symbol.convert : Code → Symbol
  | .errorInsufficientData | .errorSetMethod | .errorUseAnotherConnection | .errorInvalidData
  | .errorNoHost | .errorInvalidContentLength | .errorContentLengthOverflow
  | .errorInvalidTransferEncoding | .errorChunkSizeOverflow => .error
  | .skip => .skip
  | .method => .method
  | .requestTarget => .requestTarget
  | .version => .version
  | .statusCode => .statusCode
  | .reasonPhrase => .reasonPhrase
  | .fieldName => .fieldName
  | .fieldValue => .fieldValue
  | .endOfHeaders => .endOfHeaders
  | .chunkExt => .chunkExt
  | .bodyChunk => .bodyChunk
  | .endOfBody => .endOfBody
  | .trailerName => .trailerName
  | .trailerValue => .trailerValue
  | .endOfMessage => .endOfMessage

def Category.convert : Code → Category
  | .errorInsufficientData | .errorSetMethod | .errorUseAnotherConnection | .errorInvalidData
  | .errorNoHost | .errorInvalidContentLength | .errorContentLengthOverflow
  | .errorInvalidTransferEncoding | .errorChunkSizeOverflow | .skip => .status
  | .method | .requestTarget | .version | .statusCode | .reasonPhrase | .fieldName | .fieldValue
  | .chunkExt | .bodyChunk | .trailerName | .trailerValue => .data
  | .endOfHeaders | .endOfBody | .endOfMessage => .structural

def Category.convertSymbol : Symbol → Category
  | .error | .skip => .status
  | .method | .requestTarget | .version | .statusCode | .reasonPhrase | .fieldName | .fieldValue
  | .chunkExt | .bodyChunk | .trailerName | .trailerValue => .data
  | .endOfHeaders | .endOfBody | .endOfMessage => .structural

/-- The two ways to the category of a token agree. -/
theorem Category.convertSymbol_convert (c : Code) :
    Category.convertSymbol (Symbol.convert c) = Category.convert c := by
  cases c <;> rfl

/-- The codes that report no token: a request for more data or a fatal error. -/
def Code.isError (c : Code) : Bool := Symbol.convert c == .error

/-- The errors a reader does not recover from without `reset`. -/
def Code.isFatal (c : Code) : Bool := c.isError && c != .errorInsufficientData

inductive Value where
  /-- Tokens without a value. -/
  | none
  | view (bytes : Bytes)
  | version (digit : Int)
  | statusCode (status : Nat)
  | chunkExt (chunkSize : Nat) (ext : Bytes)
  | buffer (bytes : Bytes)
  deriving DecidableEq, Repr

/-- What a run of the readers can trip over: a read outside the buffer, a failed `assert`, a point
marked `BOOST_HTTP_DETAIL_UNREACHABLE`, or self-calls of `next` that nest too deep. -/
inductive Fault where
  | outOfBounds
  | assertion
  | unreachable
  | recursion
  deriving DecidableEq, Repr

end BoostHttp
