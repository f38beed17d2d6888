import BoostHttp.Messages
import BoostHttp.Request.Acceptance

/-!
# Request.Pipeline — streams of requests

A request is a head that the reader accepts, with the body that its fields announce.  However a
stream is cut into buffers, what the reader reports of it up to the last end of a message is a
sequence of requests, and the requests with which a stream begins are reported as they were written.
-/

open Incremental

namespace BoostHttp

namespace Request

structure Message where
  head : Head
  body : Body
  accepted : Accepts head.digit head.headers
  framed : framing head.headers = body.framing

namespace Message

def bytes (m : Message) : Bytes := m.head.bytes ++ m.body.bytes

def events (p : Nat) (m : Message) : List Event :=
  m.head.events p ++ m.body.events (p + m.head.bytes.length)

end Message

def format : Format UInt8 Event Message where
  bytes := Message.bytes
  events := Message.events
  mark := Event.messageEnd

def Between (_ : Nat) (c : Core Memory × Nat) : Prop :=
  c.1.phase = .method ∧ c.1.framing.2 = .noBody

theorem quiet_head (g : Head) (p : Nat) : Quiet (g.events p) :=
  quiet_headEvents (by simp [Quiet, Head.lineEvents, Event.messageEnd]) _ _ _ _

theorem Message.marked (p : Nat) (m : Message) : ∃ es e, m.events p = es ++ [e] ∧ Quiet es ∧
    e.messageEnd = some (p + m.bytes.length) := by
  rw [Message.bytes, List.length_append, ← Nat.add_assoc]
  exact Body.marked_behind (quiet_head m.head p) m.body _

/-- The state after a body is one between two requests. -/
theorem afterBody_method (d : Body) (f : Memory) :
    (policy.afterBody d f).2 = .method ∧ (policy.afterBody d f).1.2 = .noBody := by
  cases d with
  | counted data => exact ⟨rfl, rfl⟩
  | chunked m => exact ⟨rfl, rfl⟩

theorem leads_message {k p : Nat} {c : Core Memory × Nat} (m : Message) (rest : Bytes)
    (hc : Between k c) : ∃ c', Between (k + 1) c' ∧
      lexer.Leads false p c (m.bytes ++ rest) (m.events p) (p + m.bytes.length) c' rest := by
  obtain ⟨⟨q, f, n⟩, j⟩ := c
  obtain ⟨hq, hf⟩ := hc
  dsimp only at hq hf
  subst hq
  obtain ⟨s', hs'⟩ := (headers_ok_iff f hf m.head.digit n m.head.headers).mpr m.accepted
  have hstart : (framing m.head.headers).Starts s' := by
    refine starts_of_headers (v := (policy.onVersion f m.head.digit).1) (n := n) ?_
    rw [← hs', ← hf]
    rfl
  rw [m.framed] at hstart
  obtain ⟨n', hbody⟩ := leads_body (P := policy) (b := false) (p := p + m.head.bytes.length)
    (j := j) (fun _ _ s => s) rest m.body hstart
  obtain ⟨hphase, hnone⟩ := afterBody_method m.body s'.framing
  refine ⟨(⟨_, _, n'⟩, j), ⟨hphase, hnone⟩, ?_⟩
  have hbytes : m.bytes ++ rest = m.head.bytes ++ (m.body.bytes ++ rest) := by
    rw [Message.bytes, List.append_assoc]
  rw [hbytes, Message.bytes, List.length_append, ← Nat.add_assoc]
  exact (leads_head m.head hs').trans hbody

theorem framing_ne (xs : List Field) : framing xs ≠ .untilClose := by
  unfold framing
  split <;> simp

/-- A run in which a head ends has passed one that is accepted. -/
theorem of_runs_headEnd {k p : Nat} {c : Core Memory × Nat} {w : Bytes} {v : List Event}
    (hc : Between k c) (hr : lexer.Runs false p c w v) (hv : v.any Event.isHeadEnd = true) :
    ∃ (g : Head) (rest : Bytes) (s : Core Memory) (v' : List Event), w = g.bytes ++ rest ∧
      Accepts g.digit g.headers ∧ (framing g.headers).Starts s ∧ v = g.events p ++ v' ∧
      lexer.Runs false (p + g.bytes.length) (s, c.2) rest v' := by
  obtain ⟨⟨q, f, n⟩, j⟩ := c
  obtain ⟨hq, hf⟩ := hc
  dsimp only at hq hf
  subst hq
  obtain ⟨g, rest, s', rfl, hs'⟩ := of_runs_head fatal_policy hr hv
  have haccepts : Accepts g.digit g.headers := (headers_ok_iff f hf g.digit n g.headers).mp ⟨s', hs'⟩
  obtain ⟨s, v', hstart, hv', hr'⟩ := runs_accepted g hf haccepts hr
  exact ⟨g, rest, s, v', rfl, haccepts, hstart, hv', hr'⟩

/-- A run in which a request ends has passed one. -/
theorem of_runs_message {k p : Nat} {c : Core Memory × Nat} {w : Bytes} {v : List Event}
    (hc : Between k c) (hr : lexer.Runs false p c w v) (hv : ¬ Quiet v) :
    ∃ m rest, w = Message.bytes m ++ rest := by
  have hhead : c.1.phase.inHead = true := by
    rw [hc.1]
    rfl
  have hend := of_runs_inHead fatal_policy (fun _ _ _ => rfl) hhead hr hv
  obtain ⟨g, rest, s₁, v₁, rfl, haccepts, hstart, rfl, hr₁⟩ := of_runs_headEnd hc hr hend
  have hv₁ : ¬ Quiet v₁ := fun h => hv (quiet_append.mpr ⟨quiet_head _ _, h⟩)
  obtain ⟨d, rest', rfl, hd⟩ := of_runs_body (lexer_total false) fatal_policy (by simp)
    (framing_ne _) hstart hr₁ hv₁
  exact ⟨⟨g, d, haccepts, hd.symm⟩, rest', by rw [Message.bytes, List.append_assoc]⟩

theorem framed : Framed lexer format false Between (fun _ _ => True) (fun _ _ _ => False) where
  total := lexer_total false
  ne_nil m := by
    have hne := m.head.method_ne
    simp [format, Message.bytes, Head.bytes, Head.line, hne]
  marked := Message.marked
  leads hc _ := leads_message _ _ hc
  found hc hr hv := by
    obtain ⟨m, rest, hw⟩ := of_runs_message hc hr hv
    exact ⟨m, rest, hw, .inl trivial⟩
  closes _ h := h.elim

def exampleGet : Message where
  head := ⟨ascii "GET", ascii "*", 0x30, .lf, [], .lf, by decide +kernel, by decide +kernel,
    by decide +kernel, by decide +kernel, isDigit_zero⟩
  body := .counted []
  accepted := ⟨fun h => absurd rfl h, by simp [Head.headers, encodings],
    by simp [Head.headers, encodings], by simp [Head.headers, lengths, AtMostOneNumeral]⟩
  framed := by simp [Head.headers, framing, encodings, lengths, Body.framing]

def putHead : Head :=
  ⟨ascii "PUT", ascii "/a", 0x30, .crlf, [(.ofLength (ascii " 02") (by decide +kernel), .crlf)], .crlf,
    by decide +kernel, by decide +kernel, by decide +kernel, by decide +kernel, isDigit_zero⟩

theorem lengths_putHead : lengths true putHead.headers = [ascii "02"] := by decide +kernel

theorem encodings_putHead : encodings true putHead.headers = [] := by decide +kernel

def examplePut : Message where
  head := putHead
  body := .counted (ascii "\r\n")
  accepted := by
    refine ⟨fun h => absurd rfl h, ?_, ?_, ?_⟩
    · rw [encodings_putHead]
      simp
    · rw [encodings_putHead]
      simp
    · rw [lengths_putHead]
      refine ⟨by decide, fun v hv => ?_⟩
      rw [List.mem_singleton.mp hv]
      exact ⟨by decide, by decide +kernel, by decide +kernel⟩
  framed := by
    rw [framing, if_pos encodings_putHead, lengths_putHead]
    decide +kernel

/-- Two requests and the beginning of a third one. -/
def exampleStream : Bytes := format.stream [exampleGet, examplePut] ++ ascii "GET"

/-- The stream is cut in the first head and before the second one. -/
def examplePieces : List (Op Empty) :=
  List.flatten [[.setBuffer 2, .setBuffer 17], List.replicate 9 .next, [.setBuffer 44],
    List.replicate 15 .next]

section Streams

variable {mem : Nat → UInt8} {S rest : Bytes} {version : Version} {bodySize : Nat}
  {ops : List (Op Empty)} {s : Run}

theorem between_init (version : Version) (bodySize : Nat) :
    Between 0 (view.core (init version bodySize), 0) := ⟨rfl, rfl⟩

/-- What has been reported at some moment is the beginning of what the lexer finds in the stream. -/
theorem Explained.whole {c₀ : Core Memory × Nat} (hx : Explained S c₀ s) :
    ∃ v, lexer.Runs false 0 c₀ S (BoostHttp.events s.emitted ++ v) := by
  by_cases he : s.reader.state.phase = .errored
  · refine ⟨[], ?_⟩
    rw [List.append_nil]
    exact hx.failed he
  · obtain ⟨v, hv⟩ := lexer_total false s.pass.consumed (view.core s.reader, 0)
      (S.drop s.pass.consumed)
    exact ⟨v, hx.running he v hv⟩

/-- At any moment of any run, what has been reported up to the last end of a message is a sequence of
requests, and it is with these requests that the stream begins; at the end of a complete run it
begins with no longer sequence. -/
theorem requests_recognised (mem : Nat → UInt8) (S : Bytes) (version : Version) (bodySize : Nat)
    (ops : List (Op Empty)) (h : (session mem S).conforming (fresh version bodySize) ops = true) :
    ∃ s ms rest v, (session mem S).play (fresh version bodySize) ops = .ok s ∧
      S = format.stream ms ++ rest ∧ BoostHttp.events s.emitted = format.streamEvents 0 ms ++ v ∧
      Quiet v ∧ (complete S s = true → ∀ ms' rest', S = format.stream ms' ++ rest' →
        ms'.map Message.bytes <+: ms.map Message.bytes) := by
  obtain ⟨s, hplay, -, hx⟩ := play_explained (tracks_fresh version bodySize S)
    (explained_fresh version bodySize) h
  obtain ⟨s', hplay', -, -, hruns⟩ := play_runs (tracks_fresh version bodySize S)
    (explained_fresh version bodySize) (stuck_fresh version bodySize) h
  have hs : s' = s := Except.ok.inj (hplay'.symm.trans hplay)
  subst hs
  obtain ⟨v, hv⟩ := hx.whole
  obtain ⟨ms, rest, u, hS, hms, hu, hquiet⟩ := framed.of_beginning (between_init version bodySize) hv
  refine ⟨s', ms, rest, u, hplay, hS, hu, hquiet, fun hc ms' rest' hms' => ?_⟩
  have hr := hruns hc
  rw [hu, hS] at hr
  exact framed.stream_maximal (between_init version bodySize) hms
    (Format.sequence_of_forall (fun _ _ => trivial) ms' rest') hr hquiet (hS ▸ hms')

/-- Both requests are found. -/
theorem requests_recognised_pieces :
    ∃ s ms rest v, (session (fun _ => 0) exampleStream).play (fresh .http10 0) examplePieces = .ok s ∧
      exampleStream = format.stream ms ++ rest ∧
      BoostHttp.events s.emitted = format.streamEvents 0 ms ++ v ∧ Quiet v ∧ 2 ≤ ms.length := by
  obtain ⟨s, ms, rest, v, hplay, hS, hms, hquiet, hmax⟩ := requests_recognised (fun _ => 0)
    exampleStream .http10 0 examplePieces (by decide +kernel)
  have hc : (session (fun _ => 0) exampleStream).ends (fresh .http10 0) examplePieces
      (complete exampleStream) = true := by decide +kernel
  rw [Guarded.ends_eq hplay] at hc
  have hlen := (hmax hc [exampleGet, examplePut] (ascii "GET") rfl).length_le
  rw [List.length_map, List.length_map] at hlen
  exact ⟨s, ms, rest, v, hplay, hS, hms, hquiet, hlen⟩

/-- The requests with which a stream begins are reported as they were written, however the stream is
cut into buffers, and the reader goes on right behind them. -/
theorem requests_read_back (mem : Nat → UInt8) (ms : List Message) (rest : Bytes) (version : Version)
    (bodySize : Nat) (ops : List (Op Empty))
    (h : (session mem (format.stream ms ++ rest)).conforming (fresh version bodySize) ops = true) :
    ∃ s, (session mem (format.stream ms ++ rest)).play (fresh version bodySize) ops = .ok s ∧
      (complete (format.stream ms ++ rest) s = true → ∃ log₁ log₂, s.emitted = log₁ ++ log₂ ∧
        BoostHttp.events log₁ = format.streamEvents 0 ms ∧
        Placed (format.stream ms).length log₂) := by
  obtain ⟨s, log, hplay, -, -, hlog, hplaced, hruns⟩ := play_adds
    (show (session mem (format.stream ms ++ rest)).play (fresh version bodySize) [] = .ok _ from rfl)
    (by rintro ⟨⟩) h
  refine ⟨s, hplay, fun hc => ?_⟩
  have hr : lexer.Runs false 0 (view.core (init version bodySize), 0) (format.stream ms ++ rest)
      (BoostHttp.events log) := hruns hc
  obtain ⟨v, hv⟩ := framed.observes_stream (between_init version bodySize)
    (Format.sequence_of_forall (fun _ _ => trivial) ms rest) hr
  obtain ⟨log₁, log₂, rfl, h₁, -, hp⟩ := cut_stream framed rfl hplaced hv
  refine ⟨log₁, log₂, hlog, h₁, ?_⟩
  rwa [show (fresh version bodySize).pass.consumed = 0 from rfl, Nat.zero_add] at hp

theorem requests_read_back_pieces :
    ∃ s log₁ log₂, (session (fun _ => 0) exampleStream).play (fresh .http10 0) examplePieces = .ok s ∧
      s.emitted = log₁ ++ log₂ ∧
      BoostHttp.events log₁ = format.streamEvents 0 [exampleGet, examplePut] ∧ Placed 57 log₂ := by
  obtain ⟨s, hplay, hread⟩ := requests_read_back (fun _ => 0) [exampleGet, examplePut] (ascii "GET")
    .http10 0 examplePieces (by decide +kernel)
  have hc : (session (fun _ => 0) exampleStream).ends (fresh .http10 0) examplePieces
      (complete exampleStream) = true := by decide +kernel
  have hcomplete : complete exampleStream s = true := by
    rwa [Guarded.ends_eq (show (session (fun _ => 0) exampleStream).play _ _ = .ok s from hplay)] at hc
  obtain ⟨log₁, log₂, hlog, h₁, h₂⟩ := hread hcomplete
  exact ⟨s, log₁, log₂, hplay, hlog, h₁, h₂⟩

end Streams

end Request

end BoostHttp
