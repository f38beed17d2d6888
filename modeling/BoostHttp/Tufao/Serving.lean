import BoostHttp.Isolation
import BoostHttp.Pump
import BoostHttp.Tufao.Reports

/-!
# Tufao.Serving — the server object on a stream of requests

Whatever pieces of a stream the socket delivers, the calls of `onReadyRead()` make a schedule of a
session with the reader.  So the requests that the object announces are those with which the stream
begins, and it keeps the bytes behind them.
-/

open Incremental

namespace BoostHttp

namespace HttpServerRequest

/-- The object with what its owner has been told: the requests that have ended, and whether the last
one asked for an upgrade. -/
structure Server (H : Type) where
  priv : Priv H
  heard : List (Report H)
  upgraded : Bool

section Model

variable {H : Type} (L : Library H) (mem : Nat → UInt8) (fuel : Nat)

/-- More data on the socket.  After the end of a request the owner connects the object again; after
an error or an upgrade it does not listen any more. -/
def receive (x : Server H) (readAll : Bytes) : Option (Except Fault (Server H)) :=
  if x.priv.closed || x.upgraded then some (.ok x)
  else
    match onReadyRead L mem fuel { x.priv with connected := true } readAll with
    | none => none
    | some (.error f) => some (.error f)
    | some (.ok (p, signals)) => some (.ok {
        priv := p
        heard := if signals.contains .ended then x.heard ++ [p.data.report] else x.heard
        upgraded := signals.contains .upgrade })

def serve : Server H → List Bytes → Option (Except Fault (Server H))
  | x, [] => some (.ok x)
  | x, piece :: pieces =>
    match receive L mem fuel x piece with
    | none => none
    | some (.error f) => some (.error f)
    | some (.ok x) => serve x pieces

def Server.start (version : Request.Version) (bodySize : Nat) (m : Message H)
    (options : ResponseOptions) : Server H where
  priv := ⟨Request.init version bodySize, [], ⟨m, [], options⟩, true, false⟩
  heard := []
  upgraded := false

end Model

/-! ## The reader in a session -/

section Session

variable {mem : Nat → UInt8} {S : Bytes} {version : Request.Version} {bodySize : Nat} {s : Request.Run}

abbrev Reached (mem : Nat → UInt8) (S : Bytes) (version : Request.Version) (bodySize : Nat)
    (s : Request.Run) : Prop :=
  (Request.session mem S).Reaches (Request.fresh version bodySize) s

theorem Reached.tracks (h : Reached mem S version bodySize s) :
    Session.Tracks Request.view Request.Legal S s :=
  Session.tracks_of_reaches (Request.lawful mem) (Request.tracks_fresh version bodySize S) h

theorem Reached.explained (h : Reached mem S version bodySize s) :
    Request.Explained S (Request.view.core (Request.init version bodySize), 0) s := by
  obtain ⟨ops, hc, hs⟩ := h
  obtain ⟨s', hs', -, hx⟩ := Request.play_explained (Request.tracks_fresh version bodySize S)
    (Request.explained_fresh version bodySize) hc
  rwa [Except.ok.inj (hs.symm.trans hs')]

theorem Reached.reports (h : Reached mem S version bodySize s) :
    ∀ e ∈ s.emitted, Request.reports e.2.code = true := by
  obtain ⟨ops, hc, hs⟩ := h
  obtain ⟨s', hs', -, ho⟩ := Request.play_inOrder version bodySize hc
  rw [Except.ok.inj (hs.symm.trans hs')]
  exact ho.reports request_le_wordsOf rfl rfl

theorem Reached.method (h : Reached mem S version bodySize s)
    (hcode : s.reader.code = .endOfMessage) : s.reader.state = .expectMethod := by
  obtain ⟨ops, hc, hs⟩ := h
  obtain ⟨s', hs', -, hstate⟩ := Request.state_of_endOfMessage hc
  rw [Except.ok.inj (hs.symm.trans hs')] at hcode ⊢
  exact hstate hcode

theorem Reached.next (h : Reached mem S version bodySize s) (hc : s.reader.code.isError = false) :
    ∃ r', Request.next mem s.reader = .ok r' ∧
      Reached mem S version bodySize (s.pass.report mem r') ∧
      r'.ibuffer = s.reader.ibuffer ∧ r'.toDo Request.view < s.reader.toDo Request.view :=
  Session.next_of_reaches (Request.lawful mem) (Request.quiet mem) Request.onMessageEnd_rank
    (Request.tracks_fresh version bodySize S) (fun _ => ⟨false, rfl⟩) h rfl hc

/-- Nothing is found in an exhausted buffer where a message may begin. -/
theorem Reached.waits (h : Reached mem S version bodySize s) {r' : Request}
    (hstate : s.reader.state = .expectMethod) (hrest : s.reader.consume.restView = [])
    (hnext : Request.next mem s.reader = .ok r') : r'.code = .errorInsufficientData := by
  have hphase : (Request.view.core s.reader).phase = .method := congrArg Request.State.phase hstate
  obtain ⟨r₁, h₁, hout⟩ := (Request.implements mem).settles h.tracks.sound
    (by rw [show Request.view.phase s.reader.state = .method from hphase]; decide)
  have hr₁ : r₁ = r' := Except.ok.inj (h₁.symm.trans hnext)
  subst hr₁
  rw [hrest] at hout
  have hz : (Request.view.core s.reader).phase.isZeroSized = false := by
    rw [hphase]
    rfl
  rcases lex_nil_cases (P := Request.policy) (b := Request.view.eof s.reader.connection) hz with
    hlex | ⟨hp, -⟩ | ⟨heof, -⟩
  · rw [hlex] at hout
    exact hout.outcome.2.1
  · rw [hphase] at hp
    cases hp
  · cases heof

end Session

/-! ## One pass of the loop -/

section Loop

variable {H : Type} {L : Library H} {mem : Nat → UInt8} {S : Bytes} {version : Request.Version}
  {bodySize n : Nat} {d₀ : Data H} {heard : List (Report H)} {x : Priv H × Locals} {s : Request.Run}
  {log : List (Nat × Token)}

def told (L : Library H) (d₀ : Data H) (log : List (Nat × Token)) : Told H :=
  (events log).foldl (Told.hear L) ⟨d₀, false, []⟩

def unasked (heard : List (Report H)) : List (Report H × Bool) := heard.map fun r => (r, false)

/-- The loop, of which `heard` was heard before, in a session that has reached `s`: the current token
has not been looked at, and what is behind the end of a message is kept from the reader. -/
structure Loops (L : Library H) (mem : Nat → UInt8) (S : Bytes) (version : Request.Version)
    (bodySize n : Nat) (d₀ : Data H) (heard : List (Report H)) (x : Priv H × Locals)
    (s : Request.Run) (log : List (Nat × Token)) : Prop where
  reached : Reached mem S version bodySize s
  parser : x.1.parser = s.reader
  buffer : x.1.buffer = (S.take n).drop (s.consumed - s.sinceBuffer)
  within : s.consumed - s.sinceBuffer ≤ n
  current : s.emitted = log ++ [(s.consumed, s.reader.token mem)]
  closed : x.1.closed = false
  goes :
    x.1.connected = true ∧ x.2.whatEmit.ended = false ∧ s.reader.ibuffer = x.1.buffer ∧
      told L d₀ log = ⟨x.1.data, x.2.isUpgrade, unasked heard⟩ ∨
    x.1.connected = false ∧ x.2.whatEmit.ended = true ∧ s.reader.ibuffer <+: x.1.buffer ∧
      told L d₀ log = ⟨x.1.data, false, unasked heard ++ [(x.1.data.report, x.2.isUpgrade)]⟩ ∧
      s.reader.code = .errorInsufficientData ∧
      ∃ u e, events log = u ++ [e] ∧ e.messageEnd = some s.consumed

theorem told_concat (log : List (Nat × Token)) (p : Nat) (t : Token) :
    told L d₀ (log ++ [(p, t)]) = (t.events p).foldl (Told.hear L) (told L d₀ log) := by
  simp [told, events, List.foldl_append]

/-- What is seen of a token. -/
theorem hear_token {d : Data H} {l : Locals} {hs : List (Report H × Bool)} {t : Token}
    (ht : t.WellFormed) (p : Nat) :
    (t.events p).foldl (Told.hear L) ⟨d, l.isUpgrade, hs⟩ =
      if t.code = .endOfMessage then ⟨d.take L t, false, hs ++ [((d.take L t).report, l.isUpgrade)]⟩
      else ⟨d.take L t, (l.take L d t).isUpgrade, hs⟩ := by
  by_cases hh : t.code = .endOfHeaders
  · obtain ⟨c, k, v⟩ := t
    cases hh
    rfl
  by_cases hc : t.code = .endOfMessage
  · obtain ⟨c, k, v⟩ := t
    cases hc
    simp [Token.events, Told.hear, Told.asks, Event.messageEnd, Event.shows, Data.see, Code.isFatal,
      Code.isError, Symbol.convert]
  · have hupgrade : (l.take L d t).isUpgrade = l.isUpgrade := by
      unfold Locals.take
      cases hcode : t.code <;> first | exact absurd hcode hh | rfl
    rw [hear_members (quiet_iff.mpr (any_events hc)) (any_events hh), foldl_events ht, if_neg hc,
      hupgrade]

theorem take_ended {d : Data H} {l : Locals} {t : Token} (hl : l.whatEmit.ended = false)
    (ht : t.code ≠ .endOfMessage) : (l.take L d t).whatEmit.ended = false := by
  unfold Locals.take
  cases hc : t.code <;> first | exact absurd hc ht | exact hl | rfl

/-- A pass behind a token that is neither an error nor the end of a message. -/
theorem pass_token {r' : Request} (hn : Request.next mem x.1.parser = .ok r')
    (he : x.1.parser.code.isError = false) (hm : x.1.parser.code ≠ .endOfMessage)
    (hr : Request.reports x.1.parser.code = true) : pass L mem x = .ok (.again
      ({ x.1 with parser := r', data := x.1.data.take L (x.1.parser.token mem) },
        x.2.take L x.1.data (x.1.parser.token mem))) := by
  obtain ⟨p, l⟩ := x
  dsimp only at hn he hm hr
  unfold pass
  cases hc : p.parser.code <;> rw [hc] at he hm hr <;>
    first
      | cases he; done
      | cases hr; done
      | exact absurd rfl hm
      | simp [Symbol.convert, hc, hn, bind, Except.bind, pure, Except.pure]

/-- A pass at the end of a message. -/
theorem pass_end {r₁ r' : Request} {view : Bytes} (hc : x.1.parser.code = .endOfMessage)
    (hregion : region (x.1.buffer.drop x.1.parser.parsedCount) x.1.parser.tokenSize = .ok view)
    (hset : Request.setBuffer mem x.1.parser view = .ok r₁) (hn : Request.next mem r₁ = .ok r') :
    pass L mem x = .ok (.again
      ({ x.1 with
        parser := r'
        buffer := x.1.buffer.drop x.1.parser.parsedCount
        data := x.1.data.take L (x.1.parser.token mem)
        connected := false }, x.2.take L x.1.data (x.1.parser.token mem))) := by
  obtain ⟨p, l⟩ := x
  dsimp only at hc hregion hset hn
  unfold pass
  simp [hc, Symbol.convert, hregion, hset, hn, bind, Except.bind, pure, Except.pure]

/-- A pass at a fatal error. -/
theorem pass_error (he : x.1.parser.code.isError = true) :
    pass L mem x = .ok (.leave { x.1 with closed := true }) := by
  obtain ⟨p, l⟩ := x
  dsimp only at he
  unfold pass
  have hsym : Symbol.convert p.parser.code = .error := by simpa [Code.isError] using he
  simp [hsym]

/-- The current token is seen. -/
theorem Loops.seen (h : Loops L mem S version bodySize n d₀ heard x s log)
    (hlog : told L d₀ log = ⟨x.1.data, x.2.isUpgrade, unasked heard⟩) :
    told L d₀ s.emitted =
      if s.reader.code = .endOfMessage then ⟨x.1.data.take L (s.reader.token mem), false,
        unasked heard ++ [((x.1.data.take L (s.reader.token mem)).report, x.2.isUpgrade)]⟩
      else ⟨x.1.data.take L (s.reader.token mem),
        (x.2.take L x.1.data (s.reader.token mem)).isUpgrade, unasked heard⟩ := by
  have hmem : (s.consumed, s.reader.token mem) ∈ s.emitted := by
    rw [h.current]
    exact List.mem_append_right _ List.mem_cons_self
  rw [h.current, told_concat, hlog]
  exact hear_token (h.reached.explained.wellFormed _ hmem) _

/-- The pass at a token goes on with the next one. -/
theorem Loops.token (h : Loops L mem S version bodySize n d₀ heard x s log) (hconn : x.1.connected = true)
    (hended : x.2.whatEmit.ended = false) (hbuf : s.reader.ibuffer = x.1.buffer)
    (hlog : told L d₀ log = ⟨x.1.data, x.2.isUpgrade, unasked heard⟩)
    (he : s.reader.code.isError = false)
    (hm : s.reader.code ≠ .endOfMessage) :
    ∃ x' s', pass L mem x = .ok (.again x') ∧
      Loops L mem S version bodySize n d₀ heard x' s' s.emitted ∧
      x'.1.parser.toDo Request.view < x.1.parser.toDo Request.view := by
  obtain ⟨r', hnext, hreach, hibuf, hlt⟩ := h.reached.next he
  have hreports : Request.reports s.reader.code = true := by
    refine h.reached.reports (s.consumed, s.reader.token mem) ?_
    rw [h.current]
    exact List.mem_append_right _ List.mem_cons_self
  have hnext' : Request.next mem x.1.parser = .ok r' := by
    rw [h.parser]
    exact hnext
  have hpass := pass_token (L := L) (x := x) hnext' (by rw [h.parser]; exact he)
    (by rw [h.parser]; exact hm) (by rw [h.parser]; exact hreports)
  refine ⟨_, s.pass.report mem r', hpass, ?_, by rw [h.parser]; exact hlt⟩
  have htaken := h.seen hlog
  rw [if_neg hm] at htaken
  have hfrom : s.pass.consumed - s.pass.sinceBuffer = s.consumed - s.sinceBuffer := by
    rw [Session.pass_of_token he]
    exact Nat.add_sub_add_right _ _ _
  refine ⟨hreach, rfl, ?_, ?_, Session.emitted_report mem s r', h.closed, .inl ⟨hconn, ?_, ?_, ?_⟩⟩
  · change x.1.buffer = (S.take n).drop (s.pass.consumed - s.pass.sinceBuffer)
    rw [hfrom]
    exact h.buffer
  · change s.pass.consumed - s.pass.sinceBuffer ≤ n
    rw [hfrom]
    exact h.within
  · rw [h.parser]
    exact take_ended hended hm
  · exact hibuf.trans hbuf
  · rw [h.parser]
    exact htaken

/-- The unread bytes begin where the current token begins. -/
theorem Loops.unread (h : Loops L mem S version bodySize n d₀ heard x s log) (hn : n ≤ S.length)
    (hbuf : s.reader.ibuffer.length ≤ x.1.buffer.length)
    (he : Request.view.phase s.reader.state ≠ .errored) :
    x.1.buffer.drop s.reader.parsedCount = (S.take n).drop s.consumed ∧ s.consumed ≤ n := by
  have ht := h.reached.tracks
  have hparsed : s.reader.parsedCount = s.sinceBuffer := ht.parsed
  have hidx : s.reader.idx = s.sinceBuffer := ht.parsed
  have hsince := ht.since_le
  constructor
  · rw [h.buffer, List.drop_drop, hparsed, Nat.sub_add_cancel hsince]
  · have hbound := ht.sound.bound he
    have hwithin := h.within
    rw [h.buffer, List.length_drop, List.length_take, Nat.min_eq_left hn] at hbuf
    omega

/-- The pass at the end of a message keeps the bytes behind it from the reader, so that the reader
waits. -/
theorem Loops.end (h : Loops L mem S version bodySize n d₀ heard x s log) (hn : n ≤ S.length)
    (hbuf : s.reader.ibuffer = x.1.buffer)
    (hlog : told L d₀ log = ⟨x.1.data, x.2.isUpgrade, unasked heard⟩)
    (hc : s.reader.code = .endOfMessage) :
    ∃ x' s', pass L mem x = .ok (.again x') ∧
      Loops L mem S version bodySize n d₀ heard x' s' s.emitted ∧
      x'.1.parser.toDo Request.view < x.1.parser.toDo Request.view := by
  have ht := h.reached.tracks
  have hstate := h.reached.method hc
  have he : Request.view.phase s.reader.state ≠ .errored :=
    ht.sound.ne_errored (by rw [hc]; rfl)
  obtain ⟨hrest, hwithin⟩ := h.unread hn (by rw [hbuf]) he
  have hsize : s.reader.tokenSize ≤ ((S.take n).drop s.consumed).length := by
    have hbound := ht.sound.bound he
    have hidx : s.reader.parsedCount = s.reader.idx := rfl
    rw [← hrest, List.length_drop, ← hbuf, hidx]
    omega
  have hview : (S.drop s.consumed).take s.reader.tokenSize
      = ((S.take n).drop s.consumed).take s.reader.tokenSize := by
    rw [List.drop_take, List.take_take, Nat.min_eq_left]
    rw [List.length_drop, List.length_take] at hsize
    omega
  have hregion : region (x.1.buffer.drop s.reader.parsedCount) s.reader.tokenSize
      = .ok ((S.drop s.consumed).take s.reader.tokenSize) := by
    rw [hrest, region, if_pos hsize, hview]
  have hpermits : Session.permits (Request.api mem) S s (.setBuffer s.reader.tokenSize) = true := by
    have hcons := ht.consumed_le
    rw [List.length_drop, List.length_take] at hsize
    simp only [Session.permits, Bool.and_eq_true, Bool.or_eq_true, decide_eq_true_eq]
    exact ⟨by omega, .inr (Nat.le_refl _)⟩
  obtain ⟨hset, hreach₁⟩ := Session.rebase_of_reaches h.reached rfl hpermits (by rw [hc]; decide)
  let s₁ := s.rebase S s.reader.tokenSize
  have hreach₁ : Reached mem S version bodySize s₁ := hreach₁
  have hc₁ : s₁.reader.code = .endOfMessage := hc
  obtain ⟨r', hnext, hreach, hibuf, -⟩ := hreach₁.next (by rw [hc₁]; rfl)
  have hibuf : r'.ibuffer = (S.drop s.consumed).take s.reader.tokenSize := hibuf
  have hwaits : r'.code = .errorInsufficientData := by
    refine hreach₁.waits (hreach₁.method hc₁) ?_ hnext
    rw [consume_of_token (by rw [hc₁]; decide)]
    refine List.drop_eq_nil_of_le ?_
    change ((S.drop s.consumed).take s.reader.tokenSize).length ≤ 0 + s.reader.tokenSize
    rw [List.length_take]
    omega
  have hpass := pass_end (L := L) (x := x) (by rw [h.parser]; exact hc)
    (by rw [h.parser]; exact hregion) (by rw [h.parser]; exact hset) hnext
  have htaken := h.seen hlog
  rw [if_pos hc] at htaken
  refine ⟨_, s₁.pass.report mem r', hpass, ?_, ?_⟩
  · have hpassed : s₁.pass.consumed = s.consumed + s.reader.tokenSize ∧
        s₁.pass.sinceBuffer = s.reader.tokenSize := by
      rw [Session.pass_of_token (by rw [hc₁]; rfl)]
      exact ⟨rfl, Nat.zero_add _⟩
    have hdrop : s₁.pass.consumed - s₁.pass.sinceBuffer = s.consumed := by
      rw [hpassed.1, hpassed.2, Nat.add_sub_cancel]
    refine ⟨hreach, rfl, ?_, ?_, Session.emitted_report mem s₁ r', h.closed,
      .inr ⟨rfl, ?_, ?_, ?_, hwaits, ?_⟩⟩
    · change x.1.buffer.drop x.1.parser.parsedCount
        = (S.take n).drop (s₁.pass.consumed - s₁.pass.sinceBuffer)
      rw [hdrop, h.parser, hrest]
    · change s₁.pass.consumed - s₁.pass.sinceBuffer ≤ n
      rw [hdrop]
      exact hwithin
    · simp [Locals.take, Reader.token, h.parser, hc, Symbol.convert]
    · change r'.ibuffer <+: x.1.buffer.drop x.1.parser.parsedCount
      rw [hibuf, hview, h.parser, hrest]
      exact List.take_prefix _ _
    · have hkept : (x.2.take L x.1.data (s.reader.token mem)).isUpgrade = x.2.isUpgrade := by
        simp [Locals.take, Reader.token, hc, Symbol.convert]
      rw [h.parser]
      change told L d₀ s.emitted = ⟨_, false, unasked heard ++
        [((x.1.data.take L (s.reader.token mem)).report,
          (x.2.take L x.1.data (s.reader.token mem)).isUpgrade)]⟩
      rw [hkept]
      exact htaken
    · refine ⟨events log, .token s.consumed (s.reader.token mem), ?_, ?_⟩
      · have hone : (s.reader.token mem).events s.consumed = [.token s.consumed (s.reader.token mem)] := by
          unfold Token.events
          simp [Reader.token, hc, Code.isFatal, Code.isError, Symbol.convert]
        rw [h.current, events_append, ← hone]
        simp [events]
      · change (if s.reader.code = .endOfMessage then some (s.consumed + s.reader.tokenSize) else none)
          = some s₁.pass.consumed
        rw [if_pos hc, hpassed.1]
  · rw [h.parser, Reader.toDo, if_pos hwaits]
    exact Session.toDo_pos Request.view (by rw [hc]; decide)

theorem take_error {d : Data H} {t : Token} (ht : t.code.isError = true) : d.take L t = d := by
  have hsym : Symbol.convert t.code = .error := by simpa [Code.isError] using ht
  unfold Data.take
  rw [hsym]

def Fails (L : Library H) (mem : Nat → UInt8) (S : Bytes) (version : Request.Version)
    (bodySize : Nat) (d₀ : Data H) (heard : List (Report H)) (p : Priv H) : Prop :=
  p.closed = true ∧ p.connected = true ∧ ∃ s, Reached mem S version bodySize s ∧
    s.reader.code.isFatal = true ∧ ∃ u, told L d₀ s.emitted = ⟨p.data, u, unasked heard⟩

/-- A pass goes on, or it closes the socket. -/
theorem Loops.pass (h : Loops L mem S version bodySize n d₀ heard x s log) (hn : n ≤ S.length)
    (hm : more x = true) :
    (∃ x' s' log', HttpServerRequest.pass L mem x = .ok (.again x') ∧
      Loops L mem S version bodySize n d₀ heard x' s' log' ∧
      x'.1.parser.toDo Request.view < x.1.parser.toDo Request.view) ∨
    ∃ p, HttpServerRequest.pass L mem x = .ok (.leave p) ∧
      Fails L mem S version bodySize d₀ heard p := by
  have hcode : s.reader.code ≠ .errorInsufficientData := by
    rw [more, h.parser] at hm
    simpa using hm
  obtain ⟨hconn, hended, hbuf, hlog⟩ | ⟨-, -, -, -, hwaits, -⟩ := h.goes
  · cases he : s.reader.code.isError with
    | true =>
      have hfatal := ((isError_iff _).mp he).resolve_left hcode
      refine .inr ⟨_, pass_error (by rw [h.parser]; exact he), rfl, hconn, s, h.reached, hfatal, ?_⟩
      have hseen := h.seen hlog
      rw [if_neg (by rintro hc; rw [hc] at he; cases he), take_error he] at hseen
      exact ⟨_, hseen⟩
    | false =>
      left
      by_cases hend : s.reader.code = .endOfMessage
      · obtain ⟨x', s', hpass, h', hlt⟩ := h.end hn hbuf hlog hend
        exact ⟨x', s', _, hpass, h', hlt⟩
      · obtain ⟨x', s', hpass, h', hlt⟩ := h.token hconn hended hbuf hlog he hend
        exact ⟨x', s', _, hpass, h', hlt⟩
  · exact absurd hwaits hcode

/-- The loop ends when the reader waits, or the socket is closed. -/
theorem Loops.loop (h : Loops L mem S version bodySize n d₀ heard x s log) (hn : n ≤ S.length)
    {fuel : Nat} (hfuel : x.1.parser.toDo Request.view < fuel) :
    (∃ x' s' log', Pass.loop more (HttpServerRequest.pass L mem) fuel x = some (.ok (.again x')) ∧
      Loops L mem S version bodySize n d₀ heard x' s' log' ∧
      s'.reader.code = .errorInsufficientData) ∨
    ∃ p, Pass.loop more (HttpServerRequest.pass L mem) fuel x = some (.ok (.leave p)) ∧
      Fails L mem S version bodySize d₀ heard p := by
  let I := fun x => ∃ s log, Loops L mem S version bodySize n d₀ heard x s log
  let toDo := fun x : Priv H × Locals => x.1.parser.toDo Request.view
  have hpass : ∀ {y}, I y → more y = true →
      (∃ y', HttpServerRequest.pass L mem y = .ok (.again y') ∧ I y' ∧ toDo y' < toDo y) ∨
        ∃ p, HttpServerRequest.pass L mem y = .ok (.leave p) ∧
          Fails L mem S version bodySize d₀ heard p := by
    rintro y ⟨s, log, h⟩ hm
    rcases h.pass hn hm with ⟨y', s', log', hpass, h', hlt⟩ | ⟨p, hpass, hp⟩
    · exact .inl ⟨y', hpass, ⟨s', log', h'⟩, hlt⟩
    · exact .inr ⟨p, hpass, hp⟩
  rcases Pass.loop_total hpass ⟨s, log, h⟩ hfuel with ⟨x', hloop, ⟨s', log', h'⟩, hmore⟩ | hleave
  · refine .inl ⟨x', s', log', hloop, h', ?_⟩
    rw [more, h'.parser] at hmore
    simpa using hmore
  · exact .inr hleave

end Loop

/-! ## From one call to the next -/

section Calls

variable {H : Type} {L : Library H} {mem : Nat → UInt8} {S : Bytes} {version : Request.Version}
  {bodySize n fuel : Nat} {d₀ : Data H} {x : Server H} {s : Request.Run}

/-- Between two calls, after `n` bytes have come in: the object keeps the unread bytes, of which the
reader has seen all unless a request has just ended. -/
structure Rests (L : Library H) (mem : Nat → UInt8) (S : Bytes) (version : Request.Version)
    (bodySize n : Nat) (d₀ : Data H) (x : Server H) (s : Request.Run) : Prop where
  reached : Reached mem S version bodySize s
  parser : x.priv.parser = s.reader
  waits : s.reader.code = .errorInsufficientData
  buffer : x.priv.buffer = (S.take n).drop s.consumed
  within : s.consumed ≤ n
  closed : x.priv.closed = false
  upgraded : x.upgraded = false
  told : told L d₀ s.emitted = ⟨x.priv.data, false, unasked x.heard⟩
  goes :
    x.priv.connected = true ∧ s.reader.restView = x.priv.buffer ∨
    x.priv.connected = false ∧ s.reader.restView <+: x.priv.buffer ∧
      ∃ u e, events s.emitted = u ++ [e] ∧ e.messageEnd = some s.consumed

def Upgrades (L : Library H) (mem : Nat → UInt8) (S : Bytes) (version : Request.Version)
    (bodySize n : Nat) (d₀ : Data H) (x : Server H) : Prop :=
  x.upgraded = true ∧ ∃ y s log, Loops L mem S version bodySize n d₀ x.heard y s log ∧
    s.reader.code = .errorInsufficientData ∧ y.2.isUpgrade = true ∧ x.priv = (finish y).1

def Serves (L : Library H) (mem : Nat → UInt8) (S : Bytes) (version : Request.Version)
    (bodySize n : Nat) (d₀ : Data H) (x : Server H) : Prop :=
  (∃ s, Rests L mem S version bodySize n d₀ x s) ∨
    (x.upgraded = false ∧ Fails L mem S version bodySize d₀ x.heard x.priv) ∨
    Upgrades L mem S version bodySize n d₀ x

theorem rests_start (version : Request.Version) (bodySize : Nat) (m : Message H)
    (options : ResponseOptions) : Rests L mem S version bodySize 0 ⟨m, [], options⟩
      (Server.start version bodySize m options) (Request.fresh version bodySize) :=
  ⟨Guarded.Reaches.refl _ _, rfl, rfl, rfl, Nat.le_refl 0, rfl, rfl, rfl, .inl ⟨rfl, rfl⟩⟩

/-- A call takes up the loop with the bytes that have come in. -/
theorem Rests.loops (h : Rests L mem S version bodySize n d₀ x s) {piece : Bytes}
    (hn : n + piece.length ≤ S.length) (hpiece : (S.drop n).take piece.length = piece) :
    ∃ r' s', Request.setBuffer mem x.priv.parser (x.priv.buffer ++ piece) = .ok r' ∧
      r'.toDo Request.view ≤ 3 * (n + piece.length) + 4 ∧
      Loops L mem S version bodySize (n + piece.length) d₀ x.heard
        ({ x.priv with parser := r', buffer := x.priv.buffer ++ piece, connected := true },
          ⟨⟨false, false, false⟩, false⟩)
        s' s.emitted := by
  have ht := h.reached.tracks
  have hwithin := h.within
  have hbuffer : x.priv.buffer ++ piece = (S.take (n + piece.length)).drop s.consumed := by
    rw [List.take_add, hpiece, List.drop_append_of_le_length, h.buffer]
    rw [List.length_take]
    omega
  have hview : (S.drop s.consumed).take (n + piece.length - s.consumed) = x.priv.buffer ++ piece := by
    rw [hbuffer, List.drop_take]
  have hpermits : Session.permits (Request.api mem) S s (.setBuffer (n + piece.length - s.consumed))
      = true := by
    simp only [Session.permits, Bool.and_eq_true, Bool.or_eq_true, decide_eq_true_eq]
    refine ⟨by omega, .inr ?_⟩
    have hsize := ht.tokenSize_le (ht.sound.ne_errored (by rw [h.waits]; rfl))
    have hrest : s.reader.restView.length ≤ x.priv.buffer.length := by
      rcases h.goes with ⟨-, hrest⟩ | ⟨-, hrest, -⟩
      · rw [hrest]
      · exact hrest.length_le
    rw [h.buffer, List.length_drop, List.length_take] at hrest
    omega
  obtain ⟨r', hset, hreach, hibuf⟩ := Session.refill_of_reaches (Request.lawful mem)
    (Request.tracks_fresh version bodySize S) h.reached rfl hpermits h.waits
  rw [hview] at hset hibuf
  let s₁ := s.rebase S (n + piece.length - s.consumed)
  have hpass : s₁.pass = s₁ := Session.pass_of_isError (by
    change s.reader.code.isError = true
    rw [h.waits]
    rfl)
  refine ⟨r', s₁.pass.report mem r', by rw [h.parser]; exact hset, ?_, hreach, rfl, ?_, ?_, ?_, h.closed,
    .inl ⟨rfl, rfl, hibuf, h.told⟩⟩
  · have hle := Session.toDo_le Request.view r'
    have hlen := congrArg List.length hbuffer
    rw [List.length_drop, List.length_take] at hlen
    rw [hibuf, hlen] at hle
    omega
  · rw [hpass]
    exact hbuffer
  · rw [hpass]
    change s.consumed - 0 ≤ n + piece.length
    omega
  · rw [Session.emitted_report, hpass]
    rfl

/-- When the reader waits nothing is added to what has been told. -/
theorem Loops.waits {y : Priv H × Locals} {log : List (Nat × Token)} {heard : List (Report H)}
    (h : Loops L mem S version bodySize n d₀ heard y s log)
    (hwaits : s.reader.code = .errorInsufficientData) : events s.emitted = events log := by
  have hnone : (s.reader.token mem).events s.consumed = [] := by
    unfold Token.events
    simp [Reader.token, hwaits]
  rw [h.current, events_append]
  simp [events, hnone]

/-- What is left behind the loop when the reader waits. -/
theorem Loops.finish {y : Priv H × Locals} {log : List (Nat × Token)} {heard : List (Report H)}
    (h : Loops L mem S version bodySize n d₀ heard y s log) (hn : n ≤ S.length)
    (hwaits : s.reader.code = .errorInsufficientData) (hup : y.2.isUpgrade = false) :
    Rests L mem S version bodySize n d₀
      { priv := (HttpServerRequest.finish y).1
        heard := if (HttpServerRequest.finish y).2.contains .ended then
            heard ++ [(HttpServerRequest.finish y).1.data.report]
          else heard
        upgraded := (HttpServerRequest.finish y).2.contains .upgrade } s := by
  have ht := h.reached.tracks
  have he : Request.view.phase s.reader.state ≠ .errored := ht.sound.ne_errored (by rw [hwaits]; rfl)
  have hlen : s.reader.ibuffer.length ≤ y.1.buffer.length := by
    rcases h.goes with ⟨-, -, hbuf, -⟩ | ⟨-, -, hbuf, -⟩
    · rw [hbuf]
    · exact hbuf.length_le
  obtain ⟨hrest, hwithin⟩ := h.unread hn hlen he
  have hfinish : HttpServerRequest.finish y = ({ y.1 with buffer := (S.take n).drop s.consumed },
      (if y.2.whatEmit.ready then [.ready] else []) ++ (if y.2.whatEmit.data then [.data] else []) ++
        if y.2.whatEmit.ended then [.ended] else []) := by
    rw [← hrest, ← h.parser]
    unfold HttpServerRequest.finish
    simp [hup]
  have hended : (HttpServerRequest.finish y).2.contains .ended = y.2.whatEmit.ended := by
    rw [hfinish]
    cases y.2.whatEmit.ready <;> cases y.2.whatEmit.data <;> cases y.2.whatEmit.ended <;> rfl
  have hupgrade : (HttpServerRequest.finish y).2.contains .upgrade = false := by
    rw [hfinish]
    cases y.2.whatEmit.ready <;> cases y.2.whatEmit.data <;> cases y.2.whatEmit.ended <;> rfl
  have hevents := h.waits hwaits
  rw [hended, hupgrade, hfinish]
  refine ⟨h.reached, h.parser, hwaits, rfl, hwithin, h.closed, rfl, ?_, ?_⟩
  · unfold HttpServerRequest.told
    rw [hevents]
    rcases h.goes with ⟨-, hend, -, htold⟩ | ⟨-, hend, -, htold, -⟩
    · rw [hend]
      rw [hup] at htold
      exact htold
    · rw [hend, if_pos rfl]
      rw [hup] at htold
      refine htold.trans ?_
      simp [unasked]
  · have hview : s.reader.restView = s.reader.ibuffer.drop s.reader.parsedCount := rfl
    rcases h.goes with ⟨hconn, -, hbuf, -⟩ | ⟨hconn, -, hbuf, -, -, hlast⟩
    · refine .inl ⟨hconn, ?_⟩
      rw [hview, hbuf]
      exact hrest
    · refine .inr ⟨hconn, ?_, ?_⟩
      · rw [hview]
        change _ <+: (S.take n).drop s.consumed
        rw [← hrest]
        exact hbuf.drop _
      · rw [hevents]
        exact hlast

/-- One call: what `readAll()` returns is the continuation of the stream. -/
theorem Rests.receive (h : Rests L mem S version bodySize n d₀ x s) (fuel : Nat) (piece : Bytes)
    (hn : n + piece.length ≤ S.length) (hpiece : (S.drop n).take piece.length = piece)
    (hfuel : 3 * (n + piece.length) + 4 < fuel) :
    ∃ x', HttpServerRequest.receive L mem fuel x piece = some (.ok x') ∧
      Serves L mem S version bodySize (n + piece.length) d₀ x' := by
  have hopen : (x.priv.closed || x.upgraded) = false := by rw [h.closed, h.upgraded]; rfl
  obtain ⟨r', s', hset, htoDo, hloops⟩ := h.loops hn hpiece
  rcases hloops.loop hn (Nat.lt_of_le_of_lt htoDo hfuel) with
    ⟨y, s'', log, hloop, h', hwaits⟩ | ⟨p, hloop, hp⟩
  · have hcall : onReadyRead L mem fuel { x.priv with connected := true } piece
        = some (.ok (finish y)) := by
      simp only [onReadyRead, hset, hloop]
    refine ⟨_, by simp only [HttpServerRequest.receive, hopen, hcall]; rfl, ?_⟩
    cases hup : y.2.isUpgrade with
    | true =>
      have hsignals : (HttpServerRequest.finish y).2 = [.upgrade] := by
        simp [HttpServerRequest.finish, hup]
      rw [hsignals]
      exact .inr (.inr ⟨rfl, y, s'', log, h', hwaits, hup, rfl⟩)
    | false => exact .inl ⟨s'', h'.finish hn hwaits hup⟩
  · have hcall : onReadyRead L mem fuel { x.priv with connected := true } piece
        = some (.ok (p, [])) := by
      simp only [onReadyRead, hset, hloop]
    refine ⟨_, by simp only [HttpServerRequest.receive, hopen, hcall]; rfl, ?_⟩
    exact .inr (.inl ⟨rfl, hp⟩)

/-- Once the object does not listen, it does not change. -/
theorem serve_deaf (h : (x.priv.closed || x.upgraded) = true) (pieces : List Bytes) :
    serve L mem fuel x pieces = some (.ok x) := by
  induction pieces with
  | nil => rfl
  | cons piece pieces ih =>
    rw [serve, HttpServerRequest.receive, if_pos h]
    exact ih

/-- The object on pieces of a stream. -/
theorem Rests.serve (h : Rests L mem S version bodySize n d₀ x s) (fuel : Nat) (pieces : List Bytes)
    (hS : pieces.flatten <+: S.drop n) (hn : n ≤ S.length)
    (hfuel : 3 * (n + pieces.flatten.length) + 4 < fuel) :
    ∃ x', HttpServerRequest.serve L mem fuel x pieces = some (.ok x') ∧
      ((∃ s', Rests L mem S version bodySize (n + pieces.flatten.length) d₀ x' s') ∨
        (x'.upgraded = false ∧ Fails L mem S version bodySize d₀ x'.heard x'.priv) ∨
        x'.upgraded = true) := by
  induction pieces generalizing n x s with
  | nil => exact ⟨x, rfl, .inl ⟨s, h⟩⟩
  | cons piece pieces ih =>
    rw [List.flatten_cons] at hS hfuel
    rw [List.length_append] at hfuel
    have hlen := hS.length_le
    rw [List.length_append, List.length_drop] at hlen
    have hpiece : (S.drop n).take piece.length = piece :=
      (List.prefix_iff_eq_take.mp ((List.prefix_append _ _).trans hS)).symm
    have hrest : pieces.flatten <+: S.drop (n + piece.length) := by
      have hdrop := hS.drop piece.length
      rwa [List.drop_left, List.drop_drop] at hdrop
    obtain ⟨x', hreceive, hx'⟩ := h.receive fuel piece (by omega) hpiece (by omega)
    have hserve : HttpServerRequest.serve L mem fuel x (piece :: pieces)
        = HttpServerRequest.serve L mem fuel x' pieces := by
      rw [HttpServerRequest.serve, hreceive]
    rw [hserve, List.flatten_cons, List.length_append, ← Nat.add_assoc]
    rcases hx' with ⟨s', h'⟩ | ⟨hup, hf⟩ | ⟨hup, -⟩
    · exact ih h' hrest (by omega) (by omega)
    · refine ⟨x', serve_deaf ?_ _, .inr (.inl ⟨hup, hf⟩)⟩
      rw [hf.1]
      rfl
    · refine ⟨x', serve_deaf ?_ _, .inr (.inr hup)⟩
      rw [hup, Bool.or_true]

end Calls

end HttpServerRequest

end BoostHttp
