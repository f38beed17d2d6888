import BoostHttp.Clients
import BoostHttp.Incremental.While

/-!
# Tufao.HttpServerRequest — a server that feeds the request reader from a socket

`onReadyRead()` is called when the socket has more data.  It keeps the bytes that the reader has not
consumed, stores what the reader finds, and tells the owner of the object about it.  The containers
of the headers are not part of the source, and neither is `clearRequest()`.  The timer and the
signals that other objects are connected to are left out.
-/

open Incremental

namespace BoostHttp

def Value.bytes : Value → Bytes
  | .view v | .buffer v => v
  | _ => []

def Value.number : Value → Int
  | .version d => d
  | .statusCode n => n
  | _ => 0

/-- `asio::buffer(data, size)`, for the bytes from `data` to the end of an array. -/
def region (data : Bytes) (size : Nat) : Except Fault Bytes :=
  if size ≤ data.length then .ok (data.take size) else .error .outOfBounds

namespace HttpServerRequest

inductive HttpVersion where
  | http10
  | http11
  deriving DecidableEq, Repr

structure Message (H : Type) where
  method : Bytes
  url : Bytes
  httpVersion : HttpVersion
  headers : H
  trailers : H
  body : Bytes
  deriving DecidableEq, Repr

/-- The code that the object is built upon. -/
structure Library (H : Type) where
  empty : H
  insert : H → Bytes → Bytes → H
  /-- The values from `find(key)` to `end()`. -/
  valuesFrom : H → Bytes → List Bytes
  clearRequest : Message H → Message H

structure Library.Clears {H : Type} (L : Library H) : Prop where
  headers : ∀ m, (L.clearRequest m).headers = L.empty
  trailers : ∀ m, (L.clearRequest m).trailers = L.empty
  body : ∀ m, (L.clearRequest m).body = []

structure ResponseOptions where
  http10 : Bool
  http11 : Bool
  keepAlive : Bool
  deriving DecidableEq, Repr

structure Signals where
  ready : Bool
  data : Bool
  ended : Bool
  deriving DecidableEq, Repr

inductive Signal where
  | ready
  | data
  | ended
  | upgrade
  deriving DecidableEq, Repr

structure Data (H : Type) where
  request : Message H
  lastHeader : Bytes
  responseOptions : ResponseOptions
  deriving DecidableEq, Repr

structure Locals where
  whatEmit : Signals
  isUpgrade : Bool
  deriving DecidableEq, Repr

/-- `Priv`, with the connection of `onReadyRead()` to `readyRead()` and the state of the socket. -/
structure Priv (H : Type) where
  parser : Request
  buffer : Bytes
  data : Data H
  connected : Bool
  closed : Bool
  deriving DecidableEq, Repr

structure Connection where
  close : Bool
  keepAlive : Bool
  upgrade : Bool
  deriving DecidableEq, Repr

def connectionOption (t : Connection) (v : Bytes) : Bool × Connection :=
  (false, {
    close := t.close || iequals v (ascii "close")
    keepAlive := t.keepAlive || iequals v (ascii "keep-alive")
    upgrade := t.upgrade || iequals v (ascii "upgrade") })

def readConnection (t : Connection) : List Bytes → Connection
  | [] => t
  | value :: values =>
    let t := (Detail.headerValueAnyOf connectionOption t value).2
    if t.close then t else readConnection t values

section Loop

variable {H : Type} (L : Library H)

def connection (m : Message H) : Connection :=
  readConnection ⟨false, false, false⟩ (L.valuesFrom m.headers (ascii "connection"))

def Data.take (d : Data H) (t : Token) : Data H :=
  match Symbol.convert t.code with
  | .method =>
    { d with
      request := { L.clearRequest d.request with method := t.value.bytes }
      responseOptions := ⟨false, false, false⟩ }
  | .requestTarget => { d with request := { d.request with url := t.value.bytes } }
  | .version =>
    if t.value.number = 0 then
      { d with
        request := { d.request with httpVersion := .http10 }
        responseOptions := { d.responseOptions with http10 := true } }
    else
      { d with
        request := { d.request with httpVersion := .http11 }
        responseOptions := { d.responseOptions with http11 := true } }
  | .fieldName | .trailerName => { d with lastHeader := t.value.bytes }
  | .fieldValue =>
    { d with
      request := { d.request with
        headers := L.insert d.request.headers d.lastHeader t.value.bytes }
      lastHeader := [] }
  | .trailerValue =>
    { d with
      request := { d.request with
        trailers := L.insert d.request.trailers d.lastHeader t.value.bytes }
      lastHeader := [] }
  | .endOfHeaders =>
    let c := connection L d.request
    if !c.close && (d.request.httpVersion == .http11 || c.keepAlive) then
      { d with responseOptions := { d.responseOptions with keepAlive := true } }
    else d
  | .bodyChunk => { d with request := { d.request with body := d.request.body ++ t.value.bytes } }
  | _ => d

def Locals.take (d : Data H) (l : Locals) (t : Token) : Locals :=
  match Symbol.convert t.code with
  | .endOfHeaders =>
    { whatEmit := ⟨true, false, false⟩
      isUpgrade := l.isUpgrade || (connection L d.request).upgrade }
  | .bodyChunk => { l with whatEmit := { l.whatEmit with data := true } }
  | .endOfMessage => { l with whatEmit := { l.whatEmit with ended := true } }
  | _ => l

def more (x : Priv H × Locals) : Bool := x.1.parser.code != .errorInsufficientData

variable (mem : Nat → UInt8)

def pass (x : Priv H × Locals) : Except Fault (Pass (Priv H × Locals) (Priv H)) :=
  let (p, l) := x
  let t := p.parser.token mem
  let p' := { p with data := p.data.take L t }
  let l' := l.take L p.data t
  let next (p : Priv H) : Except Fault (Pass (Priv H × Locals) (Priv H)) := do
    let parser ← Request.next mem p.parser
    return .again ({ p with parser }, l')
  match Symbol.convert p.parser.code with
  | .error => .ok (.leave { p with closed := true })
  -- `qFatal("unreachable")`
  | .statusCode | .reasonPhrase => .error .unreachable
  | .endOfMessage => do
    let buffer := p.buffer.drop p.parser.parsedCount
    let view ← region buffer p.parser.tokenSize
    let parser ← Request.setBuffer mem p.parser view
    next { p' with buffer, parser, connected := false }
  | _ => next p'

def finish (x : Priv H × Locals) : Priv H × List Signal :=
  let (p, l) := x
  let p := { p with buffer := p.buffer.drop p.parser.parsedCount }
  if l.isUpgrade then
    ({ p with
      data := { p.data with request := { p.data.request with body := p.buffer } }
      buffer := p.data.request.body
      connected := false }, [.upgrade])
  else
    (p, (if l.whatEmit.ready then [.ready] else []) ++ (if l.whatEmit.data then [.data] else []) ++
      if l.whatEmit.ended then [.ended] else [])

/-- `onReadyRead()`, with what `readAll()` returns. -/
def onReadyRead (fuel : Nat) (p : Priv H) (readAll : Bytes) :
    Option (Except Fault (Priv H × List Signal)) :=
  let buffer := p.buffer ++ readAll
  match Request.setBuffer mem p.parser buffer with
  | .error f => some (.error f)
  | .ok parser =>
    match Pass.loop more (pass L mem) fuel ({ p with buffer, parser }, ⟨⟨false, false, false⟩, false⟩) with
    | none => none
    | some (.error f) => some (.error f)
    | some (.ok (.leave p)) => some (.ok (p, []))
    | some (.ok (.again x)) => some (.ok (finish x))

end Loop

end HttpServerRequest

end BoostHttp
