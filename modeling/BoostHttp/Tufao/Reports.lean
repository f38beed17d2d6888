import BoostHttp.Request.Pipeline
import BoostHttp.Tufao.HttpServerRequest

/-!
# Tufao.Reports — what the server object makes of the events of requests

The members of the object are a fold over the tokens, and so a function of the events: how a body is
cut into chunks does not matter.  Behind the events of a request they hold the request.
-/

open Incremental

namespace BoostHttp

namespace HttpServerRequest

abbrev Report (H : Type) := Message H × ResponseOptions

section

variable {H : Type} (L : Library H)

def Data.report (d : Data H) : Report H := (d.request, d.responseOptions)

def Data.see (d : Data H) : Event → Data H
  | .token _ t => d.take L t
  | .byte _ b => { d with request := { d.request with body := d.request.body ++ [b] } }

/-- What has been seen: the members, whether the current request asks for an upgrade, and the requests
that have ended, with whether they did. -/
structure Told (H : Type) where
  data : Data H
  upgrade : Bool
  ended : List (Report H × Bool)

def Told.asks (x : Told H) (e : Event) : Bool :=
  x.upgrade || e.isHeadEnd && (connection L x.data.request).upgrade

def Told.hear (x : Told H) (e : Event) : Told H :=
  if e.messageEnd.isSome then
    ⟨x.data.see L e, false, x.ended ++ [((x.data.see L e).report, x.asks L e)]⟩
  else ⟨x.data.see L e, x.asks L e, x.ended⟩

def insertAll (h : H) (xs : List Field) : H := xs.foldl (fun h x => L.insert h x.name x.value) h

def writtenHead (g : Request.Head) : Message H where
  method := g.method
  url := g.target
  httpVersion := if g.digit = 0x30 then .http10 else .http11
  headers := insertAll L L.empty g.headers
  trailers := L.empty
  body := []

def writtenOptions (g : Request.Head) : ResponseOptions where
  http10 := g.digit = 0x30
  http11 := g.digit ≠ 0x30
  keepAlive := !(connection L (writtenHead L g)).close &&
    ((writtenHead L g).httpVersion == .http11 || (connection L (writtenHead L g)).keepAlive)

def asksUpgrade (g : Request.Head) : Bool := (connection L (writtenHead L g)).upgrade

def written (m : Request.Message) : Message H :=
  { writtenHead L m.head with
    trailers := insertAll L L.empty m.body.trailers
    body := m.body.data }

def writtenReport (m : Request.Message) : Report H := (written L m, writtenOptions L m.head)

variable {L} {d : Data H} {u : Bool} {hs : List (Report H × Bool)} {v : List Event}

def Data.append (d : Data H) (bs : Bytes) : Data H :=
  { d with request := { d.request with body := d.request.body ++ bs } }

theorem foldl_bytesFrom (p : Nat) (bs : Bytes) :
    (bytesFrom p bs).foldl (Data.see L) d = d.append bs := by
  induction bs generalizing p d with
  | nil => simp [bytesFrom, Data.append]
  | cons b bs ih =>
    rw [bytesFrom, List.foldl_cons, ih]
    simp [Data.see, Data.append]

/-- What is seen of a token is the token. -/
theorem foldl_events {t : Token} (ht : t.WellFormed) (p : Nat) :
    (t.events p).foldl (Data.see L) d = d.take L t := by
  by_cases hb : t.code = .bodyChunk
  · obtain ⟨b, bs, rfl⟩ := ht hb
    exact foldl_bytesFrom p (b :: bs)
  · obtain ⟨c, n, v⟩ := t
    cases c <;> first | rfl | exact absurd rfl hb

theorem foldl_headers (hd : d.lastHeader = []) (p : Nat) (ls : List (Field × Eol)) :
    (blockEvents .fieldName .fieldValue p ls).foldl (Data.see L) d = { d with
      request := { d.request with headers := insertAll L d.request.headers (ls.map Prod.fst) } } := by
  obtain ⟨m, last, options⟩ := d
  cases hd
  induction ls generalizing p m with
  | nil => rfl
  | cons l ls ih =>
    rw [blockEvents, List.foldl_append]
    exact ih _ { m with headers := L.insert m.headers l.1.name l.1.value }

theorem foldl_trailers (hd : d.lastHeader = []) (p : Nat) (ls : List (Field × Eol)) :
    (blockEvents .trailerName .trailerValue p ls).foldl (Data.see L) d = { d with
      request := { d.request with trailers := insertAll L d.request.trailers (ls.map Prod.fst) } } := by
  obtain ⟨m, last, options⟩ := d
  cases hd
  induction ls generalizing p m with
  | nil => rfl
  | cons l ls ih =>
    rw [blockEvents, List.foldl_append]
    exact ih _ { m with trailers := L.insert m.trailers l.1.name l.1.value }

theorem foldl_ext (p n : Nat) (x : ChunkExt) : (x.events p n).foldl (Data.see L) d = d := by
  unfold ChunkExt.events
  split <;> rfl

theorem foldl_chunks (p : Nat) (ks : List Chunk) :
    (chunksEvents p ks).foldl (Data.see L) d = d.append (ks.flatMap Chunk.data) := by
  induction ks generalizing p d with
  | nil => simp [chunksEvents, Data.append]
  | cons k ks ih =>
    rw [chunksEvents, Chunk.events, List.foldl_append, List.foldl_append, foldl_ext,
      foldl_bytesFrom, ih]
    simp [Data.append]

theorem foldl_lastChunk (p : Nat) (l : LastChunk) : (l.events p).foldl (Data.see L) d = d := by
  rw [LastChunk.events, List.foldl_append, foldl_ext]
  rfl

/-- The members behind a body. -/
theorem foldl_body (hd : d.lastHeader = []) (p : Nat) (b : Body) :
    (b.events p).foldl (Data.see L) d = { d with request := { d.request with
      body := d.request.body ++ b.data
      trailers := insertAll L d.request.trailers b.trailers } } := by
  cases b with
  | counted data =>
    rw [Body.events, List.foldl_append, foldl_bytesFrom]
    rfl
  | chunked m =>
    have hlines : m.lines.map Prod.fst = m.trailers := by
      rw [ChunkedBody.lines, List.map_map]
      exact List.map_id _
    simp only [Body.events, ChunkedBody.events, List.foldl_append, foldl_chunks, foldl_lastChunk]
    rw [foldl_trailers (d := d.append (m.chunks.flatMap Chunk.data)) hd, hlines]
    rfl

theorem version_iff (g : Request.Head) : Value.number (.version g.version) = 0 ↔ g.digit = 0x30 := by
  have hval : Value.number (.version g.version) = (g.digit.toNat : Int) - 0x30 := rfl
  have hdigit : g.digit = 0x30 ↔ g.digit.toNat = 0x30 := UInt8.toNat_inj.symm
  rw [hval, hdigit]
  omega

/-- The members behind the request line. -/
theorem foldl_line (hL : L.Clears) (p : Nat) (g : Request.Head) :
    (g.lineEvents p).foldl (Data.see L) d = { d with
      request := {
        method := g.method
        url := g.target
        httpVersion := if g.digit = 0x30 then .http10 else .http11
        headers := L.empty
        trailers := L.empty
        body := [] }
      responseOptions := ⟨decide (g.digit = 0x30), !decide (g.digit = 0x30), false⟩ } := by
  have hversion : ∀ (d : Data H) q, d.see L (.token q ⟨.version, 1, .version g.version⟩) =
      if g.digit = 0x30 then
        { d with
          request := { d.request with httpVersion := .http10 }
          responseOptions := { d.responseOptions with http10 := true } }
      else
        { d with
          request := { d.request with httpVersion := .http11 }
          responseOptions := { d.responseOptions with http11 := true } } := fun d q =>
    if_congr (version_iff g) rfl rfl
  rw [Request.Head.lineEvents, List.foldl_cons, List.foldl_cons, List.foldl_cons, hversion]
  have hclear : d.see L (.token p ⟨.method, g.method.length, .view g.method⟩) = { d with
      request := { L.clearRequest d.request with method := g.method }
      responseOptions := ⟨false, false, false⟩ } := rfl
  rw [hclear]
  split <;> simp [Data.see, Data.take, Symbol.convert, Value.bytes, hL.headers, hL.trailers, hL.body, *]

def Data.beforeHeadEnd (L : Library H) (g : Request.Head) : Data H where
  request := writtenHead L g
  lastHeader := []
  responseOptions := ⟨decide (g.digit = 0x30), !decide (g.digit = 0x30), false⟩

theorem foldl_fields (hL : L.Clears) (hd : d.lastHeader = []) (p : Nat) (g : Request.Head) :
    (blockEvents .fieldName .fieldValue (p + g.line.length) g.fields).foldl (Data.see L)
      ((g.lineEvents p).foldl (Data.see L) d) = Data.beforeHeadEnd L g := by
  rw [foldl_line hL, foldl_headers (by exact hd), hd]
  rfl

theorem see_headEnd (p : Nat) (e : Eol) (g : Request.Head) :
    (Data.beforeHeadEnd L g).see L (endOfHeaders p e) = ⟨writtenHead L g, [], writtenOptions L g⟩ := by
  unfold writtenOptions
  cases h : !(connection L (writtenHead L g)).close &&
      ((writtenHead L g).httpVersion == .http11 || (connection L (writtenHead L g)).keepAlive) with
  | false => exact (if_neg (by simp [h, Data.beforeHeadEnd])).trans (by simp [Data.beforeHeadEnd])
  | true => exact (if_pos h).trans (by simp [Data.beforeHeadEnd])

/-- Behind a head the members hold the head. -/
theorem foldl_head (hL : L.Clears) (hd : d.lastHeader = []) (p : Nat) (g : Request.Head) :
    (g.events p).foldl (Data.see L) d = ⟨writtenHead L g, [], writtenOptions L g⟩ := by
  rw [Request.Head.events, List.foldl_append, List.foldl_append, foldl_fields hL hd, List.foldl_cons,
    List.foldl_nil, see_headEnd]

/-- Without the end of headers or of a message only the members change. -/
theorem hear_members (hv : Quiet v) (hh : v.any Event.isHeadEnd = false) :
    v.foldl (Told.hear L) ⟨d, u, hs⟩ = ⟨v.foldl (Data.see L) d, u, hs⟩ := by
  induction v generalizing d with
  | nil => rfl
  | cons e v ih =>
    rw [List.any_cons, Bool.or_eq_false_iff] at hh
    have he : e.messageEnd = none := hv e List.mem_cons_self
    have hstep : Told.hear L ⟨d, u, hs⟩ e = ⟨d.see L e, u, hs⟩ := by
      simp [Told.hear, Told.asks, he, hh.1]
    rw [List.foldl_cons, List.foldl_cons, hstep, ih (fun e he => hv e (List.mem_cons_of_mem _ he)) hh.2]

/-- At the end of a head it is known whether the request asks for an upgrade. -/
theorem hear_head (hL : L.Clears) (hd : d.lastHeader = []) (p : Nat) (g : Request.Head) :
    (g.events p).foldl (Told.hear L) ⟨d, false, hs⟩
      = ⟨⟨writtenHead L g, [], writtenOptions L g⟩, asksUpgrade L g, hs⟩ := by
  have hquiet := Request.quiet_head g p
  rw [Request.Head.events, quiet_append, quiet_append] at hquiet
  rw [Request.Head.events, List.foldl_append, List.foldl_append, hear_members hquiet.1 rfl,
    hear_members hquiet.2.1 (any_block _ _), foldl_fields hL hd, List.foldl_cons, List.foldl_nil]
  have hend : Told.hear L ⟨Data.beforeHeadEnd L g, false, hs⟩
      (endOfHeaders (p + g.line.length + (blockBytes g.fields).length) g.lastEol)
      = ⟨(Data.beforeHeadEnd L g).see L _, asksUpgrade L g, hs⟩ := rfl
  rw [hend, see_headEnd]

/-- Behind a request the members hold the request. -/
theorem foldl_message (hL : L.Clears) (hd : d.lastHeader = []) (p : Nat) (m : Request.Message) :
    (m.events p).foldl (Data.see L) d = ⟨written L m, [], writtenOptions L m.head⟩ := by
  rw [Request.Message.events, List.foldl_append, foldl_head hL hd, foldl_body rfl]
  rfl

/-- At the end of a request it is noted. -/
theorem hear_message (hL : L.Clears) (hd : d.lastHeader = []) (p : Nat) (m : Request.Message) :
    (m.events p).foldl (Told.hear L) ⟨d, false, hs⟩
      = ⟨⟨written L m, [], writtenOptions L m.head⟩, false,
          hs ++ [(writtenReport L m, asksUpgrade L m.head)]⟩ := by
  obtain ⟨es, e, he, hes, hmark⟩ := m.body.marked (p + m.head.bytes.length)
  have hfold := foldl_message hL hd p m
  have houtside := m.body.any_events (p + m.head.bytes.length)
  rw [Request.Message.events, List.foldl_append, foldl_head hL hd, he, List.foldl_append,
    List.foldl_cons, List.foldl_nil] at hfold
  rw [he, List.any_append, Bool.or_eq_false_iff] at houtside
  have hnot : e.isHeadEnd = false := by simpa using houtside.2
  rw [Request.Message.events, List.foldl_append, hear_head hL hd, he, List.foldl_append,
    hear_members hes houtside.1, List.foldl_cons, List.foldl_nil, Told.hear, Told.asks, hmark, hnot,
    hfold]
  simp [writtenReport, Data.report]

/-- What is noted of a stream are its requests. -/
theorem hear_stream (hL : L.Clears) (hd : d.lastHeader = []) (hs : List (Report H × Bool)) (p : Nat)
    (ms : List Request.Message) :
    ∃ d', (Request.format.streamEvents p ms).foldl (Told.hear L) ⟨d, false, hs⟩
      = ⟨d', false, hs ++ ms.map fun m => (writtenReport L m, asksUpgrade L m.head)⟩ ∧
        d'.lastHeader = [] := by
  induction ms generalizing p d hs with
  | nil => exact ⟨d, by simp [Format.streamEvents], hd⟩
  | cons m ms ih =>
    obtain ⟨d', hfold, hd'⟩ := ih (d := ⟨written L m, [], writtenOptions L m.head⟩) rfl
      (hs ++ [(writtenReport L m, asksUpgrade L m.head)]) (p + (Request.format.bytes m).length)
    refine ⟨d', ?_, hd'⟩
    rw [Format.streamEvents, List.foldl_append, show Request.format.events p m = m.events p from rfl,
      hear_message hL hd, hfold]
    simp

end

end HttpServerRequest

end BoostHttp
