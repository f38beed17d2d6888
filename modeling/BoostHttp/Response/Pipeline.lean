import BoostHttp.Messages
import BoostHttp.Response.Grammar

/-!
# Response.Pipeline — streams of responses

A response is a head with a body: none if the request or the status code says so, the one that its
fields announce, or all the rest of a connection that has been closed.  However a stream is cut into
buffers, what the reader reports of it up to the last end of a message is a sequence of responses to
the requests, and only the last of them may end the connection.
-/

open Incremental

namespace BoostHttp

namespace Response

structure Message where
  head : Head
  body : Body

namespace Message

def bytes (m : Message) : Bytes := m.head.bytes ++ m.body.bytes

def events (p : Nat) (m : Message) : List Event :=
  m.head.events p ++ m.body.events (p + m.head.bytes.length)

def Ends (method : Bytes) (m : Message) : Prop :=
  Bodiless method m.head.code ∧ m.body = .counted [] ∨
    ¬ Bodiless method m.head.code ∧ Accepts m.head.digit m.head.headers ∧
      framing m.head.digit m.head.headers = m.body.framing

def UntilClose (method : Bytes) (m : Message) : Prop :=
  ¬ Bodiless method m.head.code ∧ Accepts m.head.digit m.head.headers ∧
    framing m.head.digit m.head.headers = .untilClose ∧ ∃ data, m.body = .counted data

end Message

/-- After such an answer the connection is no longer one for messages. -/
def StartsTunnel (method : Bytes) (status : Nat) : Prop :=
  method = ascii "CONNECT" ∧ status / 100 = 2 ∧ status ≠ 204

instance (method : Bytes) (status : Nat) : Decidable (StartsTunnel method status) := by
  unfold StartsTunnel
  infer_instance

def Keeps (methods : Nat → Bytes) (k : Nat) (m : Message) : Prop :=
  m.Ends (methods k) ∧ m.head.digit ≠ 0x30 ∧ ¬ StartsTunnel (methods k) m.head.code

/-- The response after which, with `rest` behind it, no other one is read; `closed` says that the
connection has been closed. -/
def EndsConnection (methods : Nat → Bytes) (closed : Bool) (k : Nat) (m : Message) (rest : Bytes) : Prop :=
  m.Ends (methods k) ∧ (m.head.digit = 0x30 ∨ StartsTunnel (methods k) m.head.code) ∨
    closed = true ∧ rest = [] ∧ m.UntilClose (methods k)

def format : Format UInt8 Event Message where
  bytes := Message.bytes
  events := Message.events
  mark := Event.messageEnd

def Between (k : Nat) (c : Core Memory × Nat) : Prop :=
  c.1.phase = .versionStaticStr ∧ c.1.framing = (false, .unknownBody) ∧ c.2 = k

theorem quiet_head (g : Head) (p : Nat) : Quiet (g.events p) :=
  quiet_headEvents (by simp [Quiet, Head.lineEvents, Event.messageEnd]) _ _ _ _

theorem Message.marked (p : Nat) (m : Message) : ∃ es e, m.events p = es ++ [e] ∧ Quiet es ∧
    e.messageEnd = some (p + m.bytes.length) := by
  rw [Message.bytes, List.length_append, ← Nat.add_assoc]
  exact Body.marked_behind (quiet_head m.head p) m.body _

/-- The reader stops behind such an answer, and behind no other one. -/
theorem bodyFor_stop_iff (method : Bytes) (status n : Nat) :
    (bodyFor method status n).1 = .forceNoBodyAndStop ↔ StartsTunnel method status := by
  have hhead : ascii "CONNECT" ≠ ascii "HEAD" := by decide +kernel
  unfold bodyFor StartsTunnel
  simp only
  split
  · rename_i hnone
    simp only [reduceCtorEq, false_iff]
    rintro ⟨rfl, hclass, hcode⟩
    -- of the answers without a body none but 204 is of class 2
    rcases hnone with h | h | h | h
    · omega
    · exact hcode h
    · omega
    · exact hhead h
  · rename_i hsome
    simp only [not_or] at hsome
    split
    · rename_i hstop
      exact iff_of_true rfl ⟨hstop.2, hstop.1, hsome.2.1⟩
    · rename_i hstop
      simp only [reduceCtorEq, false_iff]
      exact fun h => hstop ⟨h.2.1, h.1⟩

/-- A response that may have a body leaves the connection to messages. -/
theorem not_startsTunnel {method : Bytes} {status : Nat} (h : ¬ Bodiless method status) :
    ¬ StartsTunnel method status :=
  fun ht => h (.inr (.inr (.inr (.inr ⟨ht.1, ht.2.1⟩))))

/-- After a body, the version says whether another response may follow. -/
theorem afterBody_eq {digit : UInt8} {n : Nat} {xs : List Field} {s' : Core Memory} {d : Body}
    (h : policy.headers (digit == 0x30, .connectionDelimited) n xs = .ok s')
    (hd : framing digit xs = d.framing) :
    policy.afterBody d s'.framing = ((digit == 0x30, .unknownBody),
      if digit = 0x30 then .endOfConnectionError else .versionStaticStr) := by
  have hversion : s'.framing.1 = (digit == 0x30) := by
    obtain ⟨m', n', -, rfl⟩ := headers_iff.mp h
    cases m' <;> rfl
  cases d with
  | counted data =>
    have hcounted : s'.framing.2 = .contentLengthRead := (framing_of_headers h).1 ⟨_, hd⟩
    simp [Policy.afterBody, policy, hversion, hcounted]
  | chunked m =>
    -- chunks come with another version only
    have hne : digit ≠ 0x30 := by
      rintro rfl
      have hnil : encodings ((0x30 : UInt8) != 0x30) xs = [] := by
        simp [encodings, Field.encodes]
      rw [framing, if_pos hnil] at hd
      split at hd <;> cases hd
    simp [Policy.afterBody, policy, hversion, hne]

section Runs

variable {methods : Nat → Bytes} {b : Bool} {p n j k : Nat} {c : Core Memory × Nat} {w rest : Bytes}
  {v : List Event}

/-- The lexer reads a response whose end it can tell, and remembers whether another one may follow. -/
theorem leads_ends (rest : Bytes) (m : Message) (hm : m.Ends (methods j)) :
    ∃ n', (lexer methods).Leads b p (⟨.versionStaticStr, (false, .unknownBody), n⟩, j)
      (m.bytes ++ rest) (m.events p) (p + m.bytes.length)
      (⟨if m.head.digit = 0x30 ∨ StartsTunnel (methods j) m.head.code then .endOfConnectionError
        else .versionStaticStr, (m.head.digit == 0x30, .unknownBody), n'⟩, j + 1) rest := by
  have hbytes : m.bytes ++ rest = m.head.bytes ++ (m.body.bytes ++ rest) := by
    rw [Message.bytes, List.append_assoc]
  have hlen : p + m.bytes.length = p + m.head.bytes.length + m.body.bytes.length := by
    rw [Message.bytes, List.length_append, Nat.add_assoc]
  rw [hbytes, hlen]
  rcases hm with ⟨hb, hbody⟩ | ⟨hb, ha, hframing⟩
  · have hforced : (m.head.memory (methods j) n).2.isForced = true := bodyFor_of_bodiless n hb
    have hhead : (lexer methods).Leads b p _ (m.head.bytes ++ (m.body.bytes ++ rest)) _ _ _ _ :=
      leads_head m.head (headers_forced hforced m.head.headers)
    have hstop : (policy.onMessageEnd (m.head.memory (methods j) n)).2
        = if m.head.digit = 0x30 ∨ StartsTunnel (methods j) m.head.code then .endOfConnectionError
          else .versionStaticStr := by
      refine if_congr ?_ rfl rfl
      rw [or_comm, Head.memory]
      exact or_congr beq_iff_eq (bodyFor_stop_iff _ _ _)
    have hevents : m.events p = m.head.events p ++ bodyEnd (p + m.head.bytes.length) := by
      rw [Message.events, hbody]
      rfl
    rw [hbody] at hhead ⊢
    rw [← hstop, hevents]
    exact ⟨_, hhead.trans leads_endOfBody⟩
  · obtain ⟨s', hs'⟩ := (headers_ok_iff m.head.digit n m.head.headers).mpr ha
    obtain ⟨hmemory, hsize⟩ := memory_of_not_bodiless (n := n) hb
    have hok : policy.headers (m.head.memory (methods j) n) (bodyFor (methods j) m.head.code n).2
        m.head.headers = .ok s' := by rw [hmemory, hsize, hs']
    have hstart := starts_of_headers hs'
    rw [hframing] at hstart
    obtain ⟨n', hbody⟩ := leads_body (P := policy) (b := b) (p := p + m.head.bytes.length)
      (j := j + 1) (respond methods) rest m.body hstart
    rw [afterBody_eq hs' hframing] at hbody
    simp only [not_startsTunnel hb, or_false]
    exact ⟨n', (leads_head m.head hok).trans hbody⟩

theorem leads_message (m : Message) (hc : Between k c) (hm : Keeps methods k m) :
    ∃ c', Between (k + 1) c' ∧
      (lexer methods).Leads b p c (m.bytes ++ rest) (m.events p) (p + m.bytes.length) c' rest := by
  obtain ⟨⟨q, f, n⟩, j⟩ := c
  obtain ⟨hq, hf, hj⟩ := hc
  dsimp only at hq hf hj
  subst hq hf hj
  obtain ⟨hends, hdigit, htunnel⟩ := hm
  obtain ⟨n', hl⟩ := leads_ends (b := b) (p := p) (n := n) rest m hends
  rw [if_neg (by simp [hdigit, htunnel])] at hl
  exact ⟨_, ⟨rfl, by simp [hdigit], rfl⟩, hl⟩

/-- Where the connection is over, no message ends. -/
theorem quiet_over {f : Memory} (hr : (lexer methods).Runs b p (⟨.endOfConnectionError, f, n⟩, j) w v) :
    Quiet v := by
  have hstep : (lexer methods).step b (⟨.endOfConnectionError, f, n⟩, j) w
      = .fail ⟨.errorUseAnotherConnection, 0, .none⟩ := rfl
  rw [hr.unique (.fail hstep)]
  exact quiet_token (by simp)

/-- A response that closes the connection is the last one that is reported. -/
theorem runs_closes (m : Message) (hc : Between k c) (hm : EndsConnection methods b k m rest)
    (hr : (lexer methods).Runs b p c (m.bytes ++ rest) v) : ∃ v', v = m.events p ++ v' ∧ Quiet v' := by
  obtain ⟨⟨q, f, n⟩, j⟩ := c
  obtain ⟨hq, hf, hj⟩ := hc
  dsimp only at hq hf hj
  subst hq hf hj
  rcases hm with ⟨hends, hover⟩ | ⟨rfl, rfl, hb, ha, hframing, data, hdata⟩
  · obtain ⟨n', hl⟩ := leads_ends (b := b) (p := p) (n := n) rest m hends
    rw [if_pos hover] at hl
    obtain ⟨v', rfl, hr'⟩ := hl.split (lexer_total _ _ _ _ _) hr
    exact ⟨v', rfl, quiet_over hr'⟩
  · rw [Message.bytes, List.append_assoc, List.append_nil] at hr
    obtain ⟨s', v', hs', rfl, hr'⟩ := runs_accepted m.head hb ha hr
    have hrest := describes_framing hs' hr'
    rw [hframing, Framing.Describes, if_pos rfl, hdata] at hrest
    refine ⟨[.token (p + m.head.bytes.length + data.length) ⟨.errorUseAnotherConnection, 0, .none⟩],
      ?_, quiet_token (by simp)⟩
    rw [hrest, Message.events, hdata, Body.events, List.append_assoc, List.append_assoc]
    rfl

/-- A run in which a response ends has passed one. -/
theorem of_runs_message (hc : Between k c) (hr : (lexer methods).Runs b p c w v) (hv : ¬ Quiet v) :
    ∃ m rest, w = Message.bytes m ++ rest ∧ (Keeps methods k m ∨ EndsConnection methods b k m rest) := by
  obtain ⟨⟨q, f, n⟩, j⟩ := c
  obtain ⟨hq, hf, hj⟩ := hc
  dsimp only at hq hf hj
  subst hq hf hj
  have hends : ∀ (m : Message) (rest : Bytes), m.Ends (methods j) →
      Keeps methods j m ∨ EndsConnection methods b j m rest := by
    intro m rest hm
    by_cases hover : m.head.digit = 0x30 ∨ StartsTunnel (methods j) m.head.code
    · exact .inr (.inl ⟨hm, hover⟩)
    · exact .inl ⟨hm, not_or.mp hover⟩
  have hend := of_runs_inHead fatal_policy (respond_phase methods) rfl hr hv
  obtain ⟨g, rest, rfl, hg⟩ := of_runs_head hr hend
  by_cases hb : Bodiless (methods j) g.code
  · refine ⟨⟨g, .counted []⟩, rest, ?_, hends _ _ (.inl ⟨hb, rfl⟩)⟩
    rw [Message.bytes, Body.bytes, List.append_nil]
  have ha := hg.resolve_left hb
  obtain ⟨s₁, v₁, hs₁, rfl, hr₁⟩ := runs_accepted g hb ha hr
  have hv₁ : ¬ Quiet v₁ := fun h => hv (quiet_append.mpr ⟨quiet_head _ _, h⟩)
  by_cases hclose : framing g.digit g.headers = .untilClose
  · -- the end of such a body is seen when the connection has been closed
    have hrest := describes_framing hs₁ hr₁
    rw [hclose, Framing.Describes] at hrest
    have hbt : b = true := by
      cases b with
      | true => rfl
      | false =>
        rw [hrest, if_neg (by simp), List.append_nil] at hv₁
        exact absurd (quiet_bytesFrom _ _) hv₁
    refine ⟨⟨g, .counted rest⟩, [], by rw [Message.bytes, Body.bytes, List.append_nil], ?_⟩
    exact .inr (.inr ⟨hbt, rfl, hb, ha, hclose, rest, rfl⟩)
  · obtain ⟨d, rest', rfl, hd⟩ := of_runs_body (lexer_total methods b) fatal_policy
      (fun k hk _ i hi => by simp [policy, (framing_of_headers hs₁).1 ⟨k, hk⟩, hi]) hclose
      (starts_of_headers hs₁) hr₁ hv₁
    exact ⟨⟨g, d⟩, rest', by rw [Message.bytes, List.append_assoc],
      hends _ _ (.inr ⟨hb, ha, hd.symm⟩)⟩

theorem framed (methods : Nat → Bytes) (b : Bool) :
    Framed (lexer methods) format b Between (Keeps methods) (EndsConnection methods b) where
  total := lexer_total methods b
  ne_nil m := by
    have hlit : (ascii "HTTP/1.").length = 7 := rfl
    have hlen : m.bytes.length ≠ 0 := by
      simp only [Message.bytes, Head.bytes, Head.line, List.length_append, hlit]
      omega
    exact fun h => hlen (by rw [show m.bytes = [] from h]; rfl)
  marked := Message.marked
  leads hc hm := leads_message _ hc hm
  found hc hr hv := of_runs_message hc hr hv
  closes hc hm hr := runs_closes _ hc hm hr

end Runs

/-! ## Streams -/

/-- Answers to the first requests, of which only the last one may end the connection, before `rest`. -/
def Replies (methods : Nat → Bytes) (closed : Bool) (ms : List Message) (rest : Bytes) : Prop :=
  Format.Sequence (Keeps methods) (EndsConnection methods closed) 0 ms rest

def closeHead : Head :=
  ⟨0x31, ascii "200", ascii "OK", .lf, [], .lf, isDigit_one, ok_length, ok_digits, ok_chars⟩

/-- The answer to a HEAD request, and one that ends with the connection. -/
def exampleReplies : List Message :=
  [⟨exampleHead, .counted []⟩, ⟨closeHead, .counted (ascii "12")⟩]

def exampleMethods (k : Nat) : Bytes := if k = 0 then ascii "HEAD" else ascii "GET"

/-- The stream is cut before the first reason phrase, and closed before the last `next()` calls. -/
def examplePieces : List (Op Call) :=
  List.flatten [[.setBuffer 15], List.replicate 3 .next, [.call (.setMethod (ascii "HEAD"))],
    List.replicate 2 .next, [.setBuffer 47], List.replicate 12 .next,
    [.call (.setMethod (ascii "GET"))], List.replicate 6 .next, [.call .puteof],
    List.replicate 4 .next]

theorem replies_example : Replies exampleMethods true exampleReplies [] := by
  refine .inl ⟨⟨.inl ⟨by decide +kernel, rfl⟩, by decide, by decide +kernel⟩, .inr ⟨rfl, .inr ?_⟩⟩
  refine ⟨rfl, rfl, by decide +kernel, ⟨?_, ?_⟩, by decide +kernel, _, rfl⟩
  · simp [closeHead, Head.headers, encodings, ValidEncodings]
  · simp [closeHead, Head.headers, lengths, AtMostOneNumeral]

section Streams

variable {methods : Nat → Bytes} {S : Bytes} {c₀ : Core Memory × Nat} {s : Run}

theorem between_init (bodySize : Nat) : Between 0 (view.core (init bodySize), 0) := ⟨rfl, rfl, rfl⟩

/-- What has been reported at some moment is the beginning of what the lexer finds in the stream. -/
theorem Explained.whole (hx : Explained methods S c₀ s) :
    ∃ v, (lexer methods).Runs s.reader.connection.eofReceived 0 c₀ S
      (BoostHttp.events s.emitted ++ v) := by
  by_cases he : s.reader.state.phase = .errored
  · refine ⟨[], ?_⟩
    rw [List.append_nil]
    exact hx.failed _ id he
  · obtain ⟨v, hv⟩ := lexer_total methods s.reader.connection.eofReceived s.pass.consumed
      (pending methods s, statusCodes s) (S.drop s.pass.consumed)
    exact ⟨v, hx.running _ id he v hv⟩

/-- At any moment of any run, what has been reported up to the last end of a message is a sequence of
responses to the requests, and it is with these responses that the stream begins; at the end of a
complete run it begins with no longer sequence of answers to these requests. -/
theorem responses_recognised (mem : Nat → UInt8) (S : Bytes) (methods : Nat → Bytes) (bodySize : Nat)
    (ops : List (Op Call))
    (h : (attentiveSession mem methods S).conforming (fresh bodySize) ops = true) :
    ∃ s ms rest v, (attentiveSession mem methods S).play (fresh bodySize) ops = .ok s ∧
      S = format.stream ms ++ rest ∧ Replies methods s.reader.connection.eofReceived ms rest ∧
      BoostHttp.events s.emitted = format.streamEvents 0 ms ++ v ∧ Quiet v ∧
      (complete mem S s = true → ∀ ms' rest', S = format.stream ms' ++ rest' →
        Replies methods s.reader.connection.eofReceived ms' rest' →
          ms'.map Message.bytes <+: ms.map Message.bytes) := by
  obtain ⟨s, hplay, -, hx, hruns⟩ := play_runs (tracks_fresh bodySize S)
    (explained_fresh methods bodySize) h
  obtain ⟨v, hv⟩ := hx.whole
  obtain ⟨ms, rest, u, hS, hms, hu, hquiet⟩ := (framed methods _).of_beginning (between_init bodySize) hv
  refine ⟨s, ms, rest, u, hplay, hS, hms, hu, hquiet, fun hc ms' rest' hS' hms' => ?_⟩
  have hr := hruns hc
  rw [hu, hS] at hr
  exact (framed methods _).stream_maximal (between_init bodySize) hms hms' hr hquiet (hS ▸ hS')

/-- Both answers are found. -/
theorem responses_recognised_pieces :
    let S := format.stream exampleReplies
    ∃ s ms rest v, (attentiveSession (fun _ => 0) exampleMethods S).play (fresh 0) examplePieces = .ok s ∧
      S = format.stream ms ++ rest ∧ Replies exampleMethods true ms rest ∧
      BoostHttp.events s.emitted = format.streamEvents 0 ms ++ v ∧ Quiet v ∧ 2 ≤ ms.length := by
  intro S
  obtain ⟨s, ms, rest, v, hplay, hS, hms, hv, hquiet, hmax⟩ := responses_recognised (fun _ => 0) S
    exampleMethods 0 examplePieces (by decide +kernel)
  have hc : (attentiveSession (fun _ => 0) exampleMethods S).ends (fresh 0) examplePieces
      (fun s => complete (fun _ => 0) S s && s.reader.connection.eofReceived) = true := by
    decide +kernel
  rw [Guarded.ends_eq hplay, Bool.and_eq_true] at hc
  rw [hc.2] at hms hmax
  have hlen := (hmax hc.1 exampleReplies [] (List.append_nil _).symm replies_example).length_le
  rw [List.length_map, List.length_map] at hlen
  exact ⟨s, ms, rest, v, hplay, hS, hms, hv, hquiet, hlen⟩

/-- The responses with which a stream begins are reported as they were written, however the stream is
cut into buffers and whenever its end is announced. -/
theorem responses_read_back (mem : Nat → UInt8) (methods : Nat → Bytes) (ms : List Message)
    (rest : Bytes) (bodySize : Nat) (ops : List (Op Call))
    (h : (attentiveSession mem methods (format.stream ms ++ rest)).conforming (fresh bodySize) ops
      = true) :
    ∃ s, (attentiveSession mem methods (format.stream ms ++ rest)).play (fresh bodySize) ops = .ok s ∧
      (complete mem (format.stream ms ++ rest) s = true →
        Replies methods s.reader.connection.eofReceived ms rest →
        ∃ log₁ log₂, s.emitted = log₁ ++ log₂ ∧ BoostHttp.events log₁ = format.streamEvents 0 ms ∧
          Placed (format.stream ms).length log₂) := by
  obtain ⟨s, log, hplay, ht₀, -, hlog, hplaced, hruns⟩ := play_adds
    (show (attentiveSession mem methods (format.stream ms ++ rest)).play (fresh bodySize) [] = .ok _
      from rfl) (by rintro ⟨⟩) h
  refine ⟨s, hplay, fun hc hms => ?_⟩
  have hr := hruns hc
  rw [pending_eq ht₀.sound nofun] at hr
  obtain ⟨v, hv⟩ := (framed methods _).observes_stream (between_init bodySize) hms hr
  obtain ⟨log₁, log₂, rfl, h₁, -, hp⟩ := cut_stream (framed methods true) rfl hplaced hv
  refine ⟨log₁, log₂, hlog, h₁, ?_⟩
  rwa [show (fresh bodySize).pass.consumed = 0 from rfl, Nat.zero_add] at hp

theorem responses_read_back_pieces :
    let S := format.stream exampleReplies ++ []
    ∃ s log₁ log₂, (attentiveSession (fun _ => 0) exampleMethods S).play (fresh 0) examplePieces = .ok s ∧
      s.emitted = log₁ ++ log₂ ∧ BoostHttp.events log₁ = format.streamEvents 0 exampleReplies ∧
      Placed 60 log₂ := by
  intro S
  obtain ⟨s, hplay, hread⟩ := responses_read_back (fun _ => 0) exampleMethods exampleReplies [] 0
    examplePieces (by decide +kernel)
  have hc : (attentiveSession (fun _ => 0) exampleMethods S).ends (fresh 0) examplePieces
      (fun s => complete (fun _ => 0) S s && s.reader.connection.eofReceived) = true := by
    decide +kernel
  rw [Guarded.ends_eq (show (attentiveSession _ exampleMethods S).play _ _ = .ok s from hplay),
    Bool.and_eq_true] at hc
  obtain ⟨log₁, log₂, hlog, h₁, h₂⟩ := hread hc.1 (by rw [hc.2]; exact replies_example)
  exact ⟨s, log₁, log₂, hplay, hlog, h₁, h₂⟩

end Streams

end Response

end BoostHttp
