import BoostHttp.Tufao.Serving

/-!
# Tufao.Announced — the requests that the server object announces

What the owner has been told is a function of the events, and these are those of the requests with
which the stream begins.  A request that asks for an upgrade is the last one; then the owner gets the
bytes behind its head.
-/

open Incremental

namespace BoostHttp

namespace HttpServerRequest

/-! ## The requests -/

section Requests

variable {H : Type} {L : Library H} {mem : Nat → UInt8} {S rest : Bytes} {version : Request.Version}
  {bodySize n fuel : Nat} {d₀ : Data H} {x : Server H} {s : Request.Run} {log : List (Nat × Token)}
  {ms : List Request.Message} {u : List Event} {heard : List (Report H)}

def noted (L : Library H) (m : Request.Message) : Report H × Bool :=
  (writtenReport L m, asksUpgrade L m.head)

theorem unasked_noted (h : unasked heard = ms.map (noted L)) :
    heard = ms.map (writtenReport L) ∧ ∀ m ∈ ms, asksUpgrade L m.head = false := by
  constructor
  · have hfst := congrArg (List.map Prod.fst) h
    simpa [unasked, noted, Function.comp_def] using hfst
  · intro m hm
    have hmem : noted L m ∈ unasked heard := by
      rw [h]
      exact List.mem_map_of_mem hm
    obtain ⟨r, -, hr⟩ := List.mem_map.mp hmem
    exact (congrArg Prod.snd hr).symm

/-- Without the end of a message none is noted. -/
theorem ended_of_quiet (hu : Quiet u) (x : Told H) : (u.foldl (Told.hear L) x).ended = x.ended := by
  induction u generalizing x with
  | nil => rfl
  | cons e u ih =>
    have he : e.messageEnd = none := hu e List.mem_cons_self
    rw [List.foldl_cons, ih fun e he => hu e (List.mem_cons_of_mem _ he)]
    simp [Told.hear, he]

/-- What is told of requests and something behind them. -/
theorem told_stream (hL : L.Clears) (hd : d₀.lastHeader = [])
    (h : events log = Request.format.streamEvents 0 ms ++ u) :
    ∃ d, told L d₀ log = u.foldl (Told.hear L) ⟨d, false, ms.map (noted L)⟩ ∧ d.lastHeader = [] := by
  obtain ⟨d, hfold, hd'⟩ := hear_stream hL hd [] 0 ms
  refine ⟨d, ?_, hd'⟩
  rw [told, h, List.foldl_append, hfold]
  rfl

/-- When the end of a message has been seen last, there is nothing behind the requests. -/
theorem stream_of_last {w : List Event} {e : Event} {k : Nat}
    (h : events log = Request.format.streamEvents 0 ms ++ u) (hu : Quiet u)
    (hlast : events log = w ++ [e]) (he : e.messageEnd = some k) :
    u = [] ∧ k = (Request.format.stream ms).length ∧ ms ≠ [] := by
  rw [hlast] at h
  have hnil : u = [] := by
    rcases List.eq_nil_or_concat' u with hnil | ⟨u', e', rfl⟩
    · exact hnil
    · rw [← List.append_assoc] at h
      obtain ⟨-, hone⟩ := List.append_inj' h rfl
      obtain ⟨rfl, -⟩ := List.cons.inj hone
      have hquiet : e.messageEnd = none := hu e (List.mem_append_right _ List.mem_cons_self)
      rw [hquiet] at he
      cases he
  subst hnil
  rw [List.append_nil] at h
  rcases List.eq_nil_or_concat' ms with rfl | ⟨ms', m, rfl⟩
  · cases w <;> cases h
  · obtain ⟨es, e', hes, hmark⟩ := Request.framed.marked_last (p := 0) ms' m
    rw [hes] at h
    obtain ⟨-, hone⟩ := List.append_inj' h rfl
    obtain ⟨rfl, -⟩ := List.cons.inj hone
    have hk := Option.some.inj (he.symm.trans hmark)
    rw [Nat.zero_add] at hk
    exact ⟨rfl, hk, by simp⟩

def AllRequests (S : Bytes) (ms : List Request.Message) : Prop :=
  ∀ ms' rest', S = Request.format.stream ms' ++ rest' →
    ms'.map Request.Message.bytes <+: ms.map Request.Message.bytes

/-- Of as many requests with which a stream begins, if they are all, so are others. -/
theorem AllRequests.of_length {ms' : List Request.Message} (rest : Bytes) (h : AllRequests S ms')
    (hS : S = Request.format.stream ms ++ rest) (hlen : ms.length = ms'.length) :
    AllRequests S ms := by
  have hbytes : ms.map Request.Message.bytes = ms'.map Request.Message.bytes :=
    (h ms rest hS).eq_of_length (by rw [List.length_map, List.length_map, hlen])
  unfold AllRequests
  rw [hbytes]
  exact h

/-- At any moment the requests with which the stream begins have been seen, and then something. -/
theorem Reached.stream (h : Reached mem S version bodySize s) : ∃ ms rest u,
    S = Request.format.stream ms ++ rest ∧
      events s.emitted = Request.format.streamEvents 0 ms ++ u ∧ Quiet u := by
  obtain ⟨v, hv⟩ := h.explained.whole
  obtain ⟨ms, rest, u, hS, -, hu, hquiet⟩ :=
    Request.framed.of_beginning (Request.between_init version bodySize) hv
  exact ⟨ms, rest, u, hS, hu, hquiet⟩

/-- When all of the stream has been read, there are no more. -/
theorem allRequests_of_runs (hS : S = Request.format.stream ms ++ rest)
    (hr : Request.lexer.Runs false 0 (Request.view.core (Request.init version bodySize), 0) S
      (Request.format.streamEvents 0 ms ++ u)) (hu : Quiet u) : AllRequests S ms := by
  intro ms' rest' hms'
  refine Request.framed.stream_maximal (p := 0) (Request.between_init version bodySize)
    (Format.sequence_of_forall (fun _ _ => trivial) ms rest)
    (Format.sequence_of_forall (fun _ _ => trivial) ms' rest') ?_ hu (hS ▸ hms')
  rw [← hS]
  exact hr

/-- The reader that waits behind all of the stream has read it. -/
theorem Reached.runs (h : Reached mem S version bodySize s)
    (hwaits : s.reader.code = .errorInsufficientData) (hrest : s.reader.restView = S.drop s.consumed) :
    Request.lexer.Runs false 0 (Request.view.core (Request.init version bodySize), 0) S
      (events s.emitted) := by
  have ht := h.tracks
  have he : Request.view.phase s.reader.state ≠ .errored := ht.sound.ne_errored (by rw [hwaits]; rfl)
  have hexposed : s.exposed S = true := by
    have hlen := congrArg List.length hrest
    have hbound := ht.sound.bound he
    have hidx : s.reader.idx = s.sinceBuffer := ht.parsed
    have hsince := ht.since_le
    have hcons := ht.consumed_le
    rw [Reader.restView, List.length_drop, List.length_drop] at hlen
    rw [Session.exposed, beq_iff_eq]
    omega
  obtain ⟨ops, hc, hs⟩ := h
  obtain ⟨s', hs', -, -, hruns⟩ := Request.play_runs (Request.tracks_fresh version bodySize S)
    (Request.explained_fresh version bodySize) (Request.stuck_fresh version bodySize) hc
  obtain rfl := Except.ok.inj (hs.symm.trans hs')
  refine hruns ?_
  rw [Request.complete, hexposed, hwaits]
  rfl

/-- Between two calls, when all of the stream has come in. -/
theorem Rests.requests (h : Rests L mem S version bodySize S.length d₀ x s) (hL : L.Clears)
    (hd : d₀.lastHeader = []) : ∃ ms rest, S = Request.format.stream ms ++ rest ∧
      x.heard = ms.map (writtenReport L) ∧ (∀ m ∈ ms, asksUpgrade L m.head = false) ∧
      (x.priv.connected = true → AllRequests S ms) ∧ (x.priv.connected = false → x.priv.buffer = rest) := by
  obtain ⟨ms, rest, u, hS, hu, hquiet⟩ := h.reached.stream
  obtain ⟨d, htold, -⟩ := told_stream (L := L) hL hd hu
  have hended := congrArg Told.ended (h.told.symm.trans htold)
  rw [ended_of_quiet hquiet] at hended
  obtain ⟨hheard, hasks⟩ := unasked_noted hended
  have hbuffer := h.buffer
  rw [List.take_length] at hbuffer
  refine ⟨ms, rest, hS, hheard, hasks, fun hconn => ?_, fun hconn => ?_⟩
  · rcases h.goes with ⟨-, hrest⟩ | ⟨hnot, -⟩
    · have hr := h.reached.runs h.waits (hrest.trans hbuffer)
      rw [hu] at hr
      exact allRequests_of_runs hS hr hquiet
    · rw [hconn] at hnot
      cases hnot
  · rcases h.goes with ⟨hnot, -⟩ | ⟨-, -, w, e, hlast, he⟩
    · rw [hconn] at hnot
      cases hnot
    · obtain ⟨-, hk, -⟩ := stream_of_last hu hquiet hlast he
      rw [hbuffer, hk, hS, List.drop_left]

/-- After a fatal error, whatever comes behind. -/
theorem Fails.requests (h : Fails L mem S version bodySize d₀ heard x.priv) (hL : L.Clears)
    (hd : d₀.lastHeader = []) : ∃ ms rest, S = Request.format.stream ms ++ rest ∧
      heard = ms.map (writtenReport L) ∧ (∀ m ∈ ms, asksUpgrade L m.head = false) ∧ AllRequests S ms := by
  obtain ⟨-, -, s, hreached, hfatal, up, htold'⟩ := h
  obtain ⟨ms, rest, u, hS, hu, hquiet⟩ := hreached.stream
  obtain ⟨d, htold, -⟩ := told_stream (L := L) hL hd hu
  have hended := congrArg Told.ended (htold'.symm.trans htold)
  rw [ended_of_quiet hquiet] at hended
  obtain ⟨hheard, hasks⟩ := unasked_noted hended
  have hr := hreached.explained.failed (hreached.tracks.sound.fatal.mp hfatal)
  rw [hu] at hr
  exact ⟨ms, rest, hS, hheard, hasks, allRequests_of_runs hS hr hquiet⟩

/-- Whatever pieces of a stream come in, the object does not fail, and the requests that it tells its
owner are those with which the stream begins, none of them with an upgrade.  As long as it listens it
has told them all.  When it does not, it keeps what is behind the last one, and when it has closed the
socket there would have been no more of them, however the stream went on. -/
theorem requests_told (hL : L.Clears) (mem : Nat → UInt8) (fuel : Nat) (version : Request.Version)
    (bodySize : Nat) (m₀ : Message H) (options : ResponseOptions) (pieces : List Bytes)
    (hfuel : 3 * pieces.flatten.length + 4 < fuel) :
    ∃ x, serve L mem fuel (Server.start version bodySize m₀ options) pieces = some (.ok x) ∧
      (x.upgraded = false → ∃ ms rest, pieces.flatten = Request.format.stream ms ++ rest ∧
        x.heard = ms.map (writtenReport L) ∧ (∀ m ∈ ms, asksUpgrade L m.head = false) ∧
        (x.priv.connected = true → AllRequests pieces.flatten ms) ∧
        (x.priv.connected = false → x.priv.buffer = rest) ∧
        (x.priv.closed = true → ∀ later, AllRequests (pieces.flatten ++ later) ms)) := by
  have hserve : ∀ later, ∃ x, serve L mem fuel (Server.start version bodySize m₀ options) pieces
      = some (.ok x) ∧ ((∃ s, Rests L mem (pieces.flatten ++ later) version bodySize
          pieces.flatten.length ⟨m₀, [], options⟩ x s) ∨
        (x.upgraded = false ∧ Fails L mem (pieces.flatten ++ later) version bodySize ⟨m₀, [], options⟩
          x.heard x.priv) ∨ x.upgraded = true) := by
    intro later
    have hstart : Rests L mem (pieces.flatten ++ later) version bodySize 0 ⟨m₀, [], options⟩
        (Server.start version bodySize m₀ options) _ := rests_start version bodySize m₀ options
    obtain ⟨x, hx, hend⟩ := hstart.serve fuel pieces (List.prefix_append _ _) (Nat.zero_le _)
      (by rwa [Nat.zero_add])
    rw [Nat.zero_add] at hend
    exact ⟨x, hx, hend⟩
  obtain ⟨x, hx, hend⟩ := hserve []
  rw [List.append_nil] at hend
  refine ⟨x, hx, fun hup => ?_⟩
  rcases hend with ⟨s, h⟩ | ⟨-, h⟩ | hnot
  · obtain ⟨ms, rest, hS, hheard, hasks, hall, hbuffer⟩ := h.requests hL rfl
    refine ⟨ms, rest, hS, hheard, hasks, hall, hbuffer, fun hclosed => ?_⟩
    rw [h.closed] at hclosed
    cases hclosed
  · obtain ⟨ms, rest, hS, hheard, hasks, hall⟩ := h.requests hL rfl
    refine ⟨ms, rest, hS, hheard, hasks, fun _ => hall, fun hconn => ?_, fun _ later => ?_⟩
    · rw [h.2.1] at hconn
      cases hconn
    · obtain ⟨x', hx', hend'⟩ := hserve later
      obtain rfl := Except.ok.inj (Option.some.inj (hx.symm.trans hx'))
      rcases hend' with ⟨s, hrests⟩ | ⟨-, hfails⟩ | hnot
      · have hopen := hrests.closed
        rw [h.1] at hopen
        cases hopen
      · obtain ⟨ms', -, -, hheard', -, hall'⟩ := hfails.requests hL rfl
        have hlen := congrArg List.length (hheard.symm.trans hheard')
        rw [List.length_map, List.length_map] at hlen
        refine hall'.of_length (rest ++ later) ?_ hlen
        rw [← List.append_assoc, ← hS]
      · rw [hup] at hnot
        cases hnot
  · rw [hup] at hnot
    cases hnot

def exampleLibrary : Library (List (Bytes × Bytes)) where
  empty := []
  insert h name value := h ++ [(name, value)]
  valuesFrom h name := (h.dropWhile fun x => !iequals x.1 name).map Prod.snd
  clearRequest m := { m with headers := [], trailers := [], body := [] }

def exampleServer : Server (List (Bytes × Bytes)) :=
  Server.start .http10 0 ⟨[], [], .http10, [], [], []⟩ ⟨false, false, false⟩

/-- The stream is cut in the first request and in the second one; the last call brings nothing new. -/
def exampleDeliveries : List Bytes :=
  [Request.exampleStream.take 5, (Request.exampleStream.drop 5).take 30,
    Request.exampleStream.drop 35, []]

def leaves (p : Server H → Bool) : Option (Except Fault (Server H)) → Bool
  | some (.ok x) => p x
  | _ => false

/-- Both requests are told. -/
theorem requests_told_pieces : ∃ x ms rest,
    serve exampleLibrary (fun _ => 0) 200 exampleServer exampleDeliveries = some (.ok x) ∧
      Request.exampleStream = Request.format.stream ms ++ rest ∧
      x.heard = ms.map (writtenReport exampleLibrary) ∧ 2 ≤ x.heard.length := by
  obtain ⟨x, hx, htold⟩ := requests_told (L := exampleLibrary) ⟨fun _ => rfl, fun _ => rfl, fun _ => rfl⟩
    (fun _ => 0) 200 .http10 0 ⟨[], [], .http10, [], [], []⟩ ⟨false, false, false⟩ exampleDeliveries
    (by decide +kernel)
  have hlistens : leaves (fun x => !x.upgraded && x.priv.connected)
      (serve exampleLibrary (fun _ => 0) 200 exampleServer exampleDeliveries) = true := by
    decide +kernel
  have hserve : serve exampleLibrary (fun _ => 0) 200 exampleServer exampleDeliveries
      = some (.ok x) := hx
  have hflatten : exampleDeliveries.flatten = Request.exampleStream := by decide +kernel
  rw [hserve] at hlistens
  have hboth : (!x.upgraded && x.priv.connected) = true := hlistens
  rw [Bool.and_eq_true, Bool.not_eq_true'] at hboth
  obtain ⟨ms, rest, hS, hheard, -, hall, -⟩ := htold hboth.1
  rw [hflatten] at hS hall
  have hlen := (hall hboth.2 [Request.exampleGet, Request.examplePut] (ascii "GET") rfl).length_le
  rw [List.length_map, List.length_map] at hlen
  refine ⟨x, ms, rest, hserve, hS, hheard, ?_⟩
  rw [hheard, List.length_map]
  exact hlen

end Requests

/-! ## Upgrades -/

section Upgrade

variable {H : Type} {L : Library H} {mem : Nat → UInt8} {S tail : Bytes} {version : Request.Version}
  {bodySize n fuel : Nat} {d d₀ : Data H} {x x₀ : Server H} {s : Request.Run}
  {log : List (Nat × Token)} {ms : List Request.Message} {u v : List Event} {g : Request.Head}

theorem Reached.recorded (h : Reached mem S version bodySize s) : s.Recorded := by
  obtain ⟨ops, hc, hs⟩ := h
  obtain ⟨s', hs', -, hr⟩ := Session.play_recorded (Request.lawful mem)
    (Request.tracks_fresh version bodySize S) (Request.recorded_fresh version bodySize) hc
  rwa [Except.ok.inj (hs.symm.trans hs')]

structure Data.Holds (L : Library H) (g : Request.Head) (d : Data H) : Prop where
  method : d.request.method = g.method
  url : d.request.url = g.target
  httpVersion : d.request.httpVersion = (writtenHead L g).httpVersion
  headers : d.request.headers = (writtenHead L g).headers
  responseOptions : d.responseOptions = writtenOptions L g

theorem Data.Holds.see (h : d.Holds L g) {e : Event} (he : e.inHead = false) :
    (d.see L e).Holds L g := by
  cases e with
  | byte q b => exact ⟨h.method, h.url, h.httpVersion, h.headers, h.responseOptions⟩
  | token q t =>
    have ht : t.code.inHead = false := he
    obtain ⟨c, k, value⟩ := t
    cases c <;> first
      | cases ht; done
      | exact ⟨h.method, h.url, h.httpVersion, h.headers, h.responseOptions⟩

theorem Data.Holds.foldl (h : d.Holds L g) (hv : ∀ e ∈ v, e.inHead = false) :
    (v.foldl (Data.see L) d).Holds L g := by
  induction v generalizing d with
  | nil => exact h
  | cons e v ih =>
    exact ih (h.see (hv e List.mem_cons_self)) fun e he => hv e (List.mem_cons_of_mem _ he)

theorem holds_head (L : Library H) (g : Request.Head) (trailers : H) (body : Bytes) :
    Data.Holds L g ⟨{ writtenHead L g with trailers, body }, [], writtenOptions L g⟩ :=
  ⟨rfl, rfl, rfl, rfl, rfl⟩

/-- Behind a head, up to the end of the request, the members hold the head. -/
theorem holds_of_runs (hL : L.Clears) (hd : d.lastHeader = []) {hs : List (Report H × Bool)} {k p : Nat}
    {c : Core Request.Memory × Nat} {w : Bytes} (hc : Request.Between k c)
    (hr : Request.lexer.Runs false p c w u) (hu : Quiet u)
    (hup : (u.foldl (Told.hear L) ⟨d, false, hs⟩).upgrade = true) :
    ∃ (g : Request.Head) (rest : Bytes) (v : List Event), w = g.bytes ++ rest ∧ u = g.events p ++ v ∧
      Request.Accepts g.digit g.headers ∧ Request.framing g.headers ≠ .counted 0 ∧
      asksUpgrade L g = true ∧ (u.foldl (Told.hear L) ⟨d, false, hs⟩).data.Holds L g := by
  have hend : u.any Event.isHeadEnd = true := by
    by_contra hnot
    rw [Bool.not_eq_true] at hnot
    rw [hear_members hu hnot] at hup
    cases hup
  obtain ⟨g, rest, s₁, v, rfl, haccepts, hstart, rfl, hr₁⟩ := Request.of_runs_headEnd hc hr hend
  obtain ⟨-, hv⟩ := quiet_append.mp hu
  have hout : s₁.phase.inHead = false := by
    rw [hstart.phase]
    exact Framing.phase_inHead _
  have houtside := of_runs_outside Request.fatal_policy (fun _ _ _ => rfl) hout hr₁ hv
  rw [List.foldl_append, hear_head hL hd, hear_members hv (any_isHeadEnd houtside)] at hup ⊢
  refine ⟨g, rest, v, rfl, rfl, haccepts, fun hzero => ?_, hup, ?_⟩
  · rw [hzero] at hstart
    obtain ⟨n', hbody⟩ := leads_countedBody (P := Request.policy) (b := false) (fun _ _ s => s) rest []
      hstart
    obtain ⟨v', rfl, -⟩ := hbody.split (Request.lexer_total _ _ _ _) hr₁
    have hend := hv (.token _ ⟨.endOfMessage, 0, .none⟩)
      (List.mem_append_left _ (List.mem_append_right _ (List.mem_cons_of_mem _ List.mem_cons_self)))
    cases hend
  · exact (holds_head L g L.empty []).foldl houtside

/-- The request with the head `g`, behind the others, has made the object give the connection away,
and the owner gets all of what its reader has not read. -/
structure GivesAway (L : Library H) (mem : Nat → UInt8) (S : Bytes) (version : Request.Version)
    (bodySize : Nat) (ms : List Request.Message) (g : Request.Head) (tail : Bytes) (x : Server H) :
    Prop where
  stream : S = Request.format.stream ms ++ (g.bytes ++ tail)
  accepted : Request.Accepts g.digit g.headers
  asks : asksUpgrade L g = true
  heard : x.heard = ms.map (writtenReport L)
  others : ∀ m ∈ ms, asksUpgrade L m.head = false
  holds : x.priv.data.Holds L g
  unread : ∃ s, Reached mem S version bodySize s ∧ x.priv.parser = s.reader ∧
    s.reader.code = .errorInsufficientData ∧ x.priv.data.request.body = S.drop s.consumed
  behind : x.priv.data.request.body <:+ tail
  bodiless : Request.framing g.headers = .counted 0 →
    x.priv.data.request = { writtenHead L g with body := tail }

/-- What is unread begins behind a head that has been seen. -/
theorem Reached.behind_head (h : Reached mem S version bodySize s)
    (hwaits : s.reader.code = .errorInsufficientData) {p : Nat}
    (hevents : events s.emitted = u ++ (g.events p ++ v)) : p + g.bytes.length ≤ s.consumed := by
  have hrec := h.recorded
  have hpass : s.pass = s := Session.pass_of_isError (by rw [hwaits]; rfl)
  have hconsumed := hrec.consumed
  rw [hpass] at hconsumed
  have hsplit : u ++ (g.events p ++ v) = (u ++ (g.lineEvents p ++
      blockEvents .fieldName .fieldValue (p + g.line.length) g.fields)) ++
        endOfHeaders (p + g.line.length + (blockBytes g.fields).length) g.lastEol :: v := by
    simp [Request.Head.events]
  rw [hsplit] at hevents
  obtain ⟨log₁, log₂, hlog, -, -, hextent, -⟩ := hrec.placed.cut hevents rfl
  change 0 + extent log₁ = p + g.line.length + (blockBytes g.fields).length + g.lastEol.bytes.length
    at hextent
  have hsum : extent s.emitted = extent log₁ + extent log₂ := by
    rw [hlog]
    simp [extent]
  have hlen : g.bytes.length
      = g.line.length + (blockBytes g.fields).length + g.lastEol.bytes.length := by
    simp only [Request.Head.bytes, List.length_append]
    omega
  omega

/-- When the object gives the connection away, nothing is lost. -/
theorem Upgrades.givesAway (h : Upgrades L mem S version bodySize S.length d₀ x) (hL : L.Clears)
    (hd : d₀.lastHeader = []) : ∃ ms g tail, GivesAway L mem S version bodySize ms g tail x := by
  obtain ⟨-, y, s, log, h, hwaits, hasks, hpriv⟩ := h
  obtain ⟨ms, rest, u, hS, hu, hquiet⟩ := h.reached.stream
  have hevents := h.waits hwaits
  have he : Request.view.phase s.reader.state ≠ .errored :=
    h.reached.tracks.sound.ne_errored (by rw [hwaits]; rfl)
  have hlen : s.reader.ibuffer.length ≤ y.1.buffer.length := by
    rcases h.goes with ⟨-, -, hbuf, -⟩ | ⟨-, -, hbuf, -⟩
    · rw [hbuf]
    · exact hbuf.length_le
  obtain ⟨hunread, -⟩ := h.unread (Nat.le_refl _) hlen he
  rw [List.take_length] at hunread
  have hdata : x.priv.data = { y.1.data with
      request := { y.1.data.request with body := S.drop s.consumed } } := by
    rw [hpriv, finish, hasks, if_pos rfl, ← hunread, ← h.parser]
  have hrest : ∃ s, Reached mem S version bodySize s ∧ x.priv.parser = s.reader ∧
      s.reader.code = .errorInsufficientData ∧ x.priv.data.request.body = S.drop s.consumed := by
    refine ⟨s, h.reached, ?_, hwaits, by rw [hdata]⟩
    rw [hpriv, finish, hasks, if_pos rfl]
    exact h.parser
  rw [hevents] at hu
  obtain ⟨d, htold, hd'⟩ := told_stream (L := L) hL hd hu
  rcases h.goes with ⟨-, -, hbuf, hlog⟩ | ⟨-, -, -, hlog, -, w, e, hlast, hmark⟩
  · -- the request has not ended
    have hview : s.reader.restView = S.drop s.consumed := by
      rw [← hunread, ← hbuf]
      rfl
    have hr := h.reached.runs hwaits hview
    rw [hevents, hu] at hr
    rw [hS] at hr
    obtain ⟨c, hc, hr'⟩ := Request.framed.runs_rest (Request.between_init version bodySize)
      (Format.sequence_of_forall (fun _ _ => trivial) ms rest) hr
    have hupgrade := congrArg Told.upgrade (hlog.symm.trans htold)
    change y.2.isUpgrade = _ at hupgrade
    rw [hasks] at hupgrade
    obtain ⟨g, tail, v, rfl, rfl, haccepts, hframing, hask, hholds⟩ :=
      holds_of_runs hL hd' hc hr' hquiet hupgrade.symm
    rw [← htold, hlog] at hholds
    have hended := congrArg Told.ended (hlog.symm.trans htold)
    rw [ended_of_quiet hquiet] at hended
    obtain ⟨hheard, hnot⟩ := unasked_noted hended
    have hconsumed := h.reached.behind_head hwaits (hevents.trans hu)
    refine ⟨ms, g, tail, hS, haccepts, hask, hheard, hnot, ?_, hrest, ?_,
      fun hzero => absurd hzero hframing⟩
    · rw [hdata]
      exact ⟨hholds.method, hholds.url, hholds.httpVersion, hholds.headers, hholds.responseOptions⟩
    · rw [hdata]
      change S.drop s.consumed <:+ tail
      have hinitial : S = (Request.format.stream ms ++ g.bytes) ++ tail := by
        rw [hS, List.append_assoc]
      have hle : (Request.format.stream ms ++ g.bytes).length ≤ s.consumed := by
        rw [List.length_append]
        omega
      rw [hinitial, List.drop_append, List.drop_of_length_le hle, List.nil_append]
      exact List.drop_suffix _ _
  · -- the request has ended
    obtain ⟨rfl, hconsumed, -⟩ := stream_of_last hu hquiet hlast hmark
    have hended := congrArg Told.ended (hlog.symm.trans htold)
    change unasked x.heard ++ [(y.1.data.report, y.2.isUpgrade)] = ms.map (noted L) at hended
    obtain ⟨ms, l, rfl, hothers, hone⟩ := List.map_eq_append_iff.mp hended.symm
    obtain ⟨m, rfl, hm⟩ := List.map_eq_singleton_iff.mp hone
    obtain ⟨hreport, hask⟩ := Prod.mk.inj hm
    obtain ⟨hrequest, hoptions⟩ := Prod.mk.inj hreport
    obtain ⟨hheard, hnot⟩ := unasked_noted hothers.symm
    have hbehind : S.drop s.consumed = rest := by
      rw [hS, hconsumed, List.drop_left]
    rw [hbehind, ← hrequest] at hdata
    have hstream : S = Request.format.stream ms ++ (m.head.bytes ++ (m.body.bytes ++ rest)) := by
      rw [hS, Format.stream_append, Format.stream_cons, Format.stream_nil, List.append_nil,
        List.append_assoc]
      exact congrArg _ (List.append_assoc _ _ _)
    refine ⟨ms, m.head, m.body.bytes ++ rest, hstream, m.accepted, hask.trans hasks, hheard, hnot,
      ?_, hrest, ?_, fun hzero => ?_⟩
    · rw [hdata]
      exact ⟨rfl, rfl, rfl, rfl, hoptions.symm⟩
    · rw [hdata]
      exact List.suffix_append _ _
    · obtain ⟨hbytes, htrailers⟩ := Body.of_counted_zero (m.framed.symm.trans hzero)
      rw [hdata, hbytes, written, htrailers]
      rfl

/-- The piece with which the object gives the connection away. -/
theorem serve_upgraded {pieces : List Bytes} (hx₀ : x₀.upgraded = false)
    (h : serve L mem fuel x₀ pieces = some (.ok x)) (hup : x.upgraded = true) :
    ∃ ps p qs x₁, pieces = ps ++ p :: qs ∧ serve L mem fuel x₀ ps = some (.ok x₁) ∧
      x₁.upgraded = false ∧ receive L mem fuel x₁ p = some (.ok x) := by
  induction pieces generalizing x₀ with
  | nil =>
    obtain rfl := Except.ok.inj (Option.some.inj h)
    rw [hx₀] at hup
    cases hup
  | cons piece pieces ih =>
    cases hr : receive L mem fuel x₀ piece with
    | none =>
      rw [serve, hr] at h
      cases h
    | some result =>
      cases result with
      | error f =>
        rw [serve, hr] at h
        cases h
      | ok x₁ =>
        rw [serve, hr] at h
        cases hx₁ : x₁.upgraded with
        | false =>
          obtain ⟨ps, p, qs, x₂, hps, hserve, hx₂, hreceive⟩ := ih hx₁ h
          refine ⟨piece :: ps, p, qs, x₂, by rw [hps]; rfl, ?_, hx₂, hreceive⟩
          rw [serve, hr]
          exact hserve
        | true =>
          have hdeaf : serve L mem fuel x₁ pieces = some (.ok x₁) :=
            serve_deaf (by rw [hx₁, Bool.or_true]) pieces
          obtain rfl := Except.ok.inj (Option.some.inj (hdeaf.symm.trans h))
          exact ⟨[], piece, pieces, x₀, rfl, rfl, hx₀, hr⟩

/-- When the object gives the connection away, the requests that it has told its owner are those
before one that asks for an upgrade, and the bytes behind what its reader has found are in the body,
where its owner finds them. -/
theorem upgrade_announced (hL : L.Clears) (mem : Nat → UInt8) (fuel : Nat) (version : Request.Version)
    (bodySize : Nat) (m₀ : Message H) (options : ResponseOptions) (pieces : List Bytes) (x : Server H)
    (hfuel : 3 * pieces.flatten.length + 4 < fuel)
    (h : serve L mem fuel (Server.start version bodySize m₀ options) pieces = some (.ok x))
    (hup : x.upgraded = true) :
    ∃ ps qs ms g tail, pieces = ps ++ qs ∧
      GivesAway L mem ps.flatten version bodySize ms g tail x := by
  obtain ⟨ps, p, qs, x₁, rfl, hserve, hx₁, hreceive⟩ := serve_upgraded rfl h hup
  rw [List.flatten_append, List.flatten_cons, List.length_append, List.length_append] at hfuel
  let S := ps.flatten ++ p
  have hstart : Rests L mem S version bodySize 0 ⟨m₀, [], options⟩
      (Server.start version bodySize m₀ options) _ := rests_start version bodySize m₀ options
  obtain ⟨x₂, hserve₂, hend⟩ := hstart.serve fuel ps (List.prefix_append _ _) (Nat.zero_le _) (by omega)
  obtain rfl := Except.ok.inj (Option.some.inj (hserve.symm.trans hserve₂))
  rw [Nat.zero_add] at hend
  rcases hend with ⟨s, hrests⟩ | ⟨-, hfails⟩ | hnot
  · have hlen : S.length = ps.flatten.length + p.length := List.length_append
    obtain ⟨x₃, hreceive₃, hserves⟩ := hrests.receive fuel p (by omega)
      (by rw [List.drop_left, List.take_length]) (by omega)
    obtain rfl := Except.ok.inj (Option.some.inj (hreceive.symm.trans hreceive₃))
    rw [← hlen] at hserves
    rcases hserves with ⟨s', h'⟩ | ⟨hnot, -⟩ | hupgrades
    · have hnot := h'.upgraded
      rw [hup] at hnot
      cases hnot
    · rw [hup] at hnot
      cases hnot
    · obtain ⟨ms, g, tail, hgives⟩ := hupgrades.givesAway hL rfl
      refine ⟨ps ++ [p], qs, ms, g, tail, by simp, ?_⟩
      rwa [List.flatten_append, List.flatten_singleton]
  · -- a closed object does not listen
    have hclosed : receive L mem fuel x₁ p = some (.ok x₁) :=
      if_pos (by rw [hfails.1]; rfl)
    obtain rfl := Except.ok.inj (Option.some.inj (hreceive.symm.trans hclosed))
    rw [hup] at hx₁
    cases hx₁
  · rw [hx₁] at hnot
    cases hnot

/-- A request for another protocol and two bytes of it, in two pieces. -/
def exampleUpgrade : List Bytes :=
  [ascii "GET / HTTP/1.0\nConnection: keep-alive, Up", ascii "grade\n\n\r!"]

/-- The bytes behind the head go to the owner. -/
theorem upgrade_announced_pieces : ∃ x ps qs ms g tail,
    serve exampleLibrary (fun _ => 0) 200 exampleServer exampleUpgrade = some (.ok x) ∧
      exampleUpgrade = ps ++ qs ∧
      GivesAway exampleLibrary (fun _ => 0) ps.flatten .http10 0 ms g tail x := by
  have hstart : Rests exampleLibrary (fun _ => 0) exampleUpgrade.flatten .http10 0 0 _ exampleServer _ :=
    rests_start .http10 0 ⟨[], [], .http10, [], [], []⟩ ⟨false, false, false⟩
  obtain ⟨x, hx, -⟩ := hstart.serve 200 exampleUpgrade List.prefix_rfl (Nat.zero_le _)
    (by decide +kernel)
  have hserve : serve exampleLibrary (fun _ => 0) 200 exampleServer exampleUpgrade
      = some (.ok x) := hx
  have hup : leaves Server.upgraded
      (serve exampleLibrary (fun _ => 0) 200 exampleServer exampleUpgrade) = true := by
    decide +kernel
  rw [hserve] at hup
  obtain ⟨ps, qs, ms, g, tail, hps, hgives⟩ := upgrade_announced (L := exampleLibrary)
    ⟨fun _ => rfl, fun _ => rfl, fun _ => rfl⟩ (fun _ => 0) 200 .http10 0
    ⟨[], [], .http10, [], [], []⟩ ⟨false, false, false⟩ exampleUpgrade x (by decide +kernel) hserve hup
  exact ⟨x, ps, qs, ms, g, tail, hserve, hps, hgives⟩

end Upgrade

end HttpServerRequest

end BoostHttp
