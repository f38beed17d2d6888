import BoostHttp.Outcome
import BoostHttp.Record
import BoostHttp.Response.Decision
import BoostHttp.Response.Head

/-!
# Response.Acceptance — which heads the response reader accepts, and what it makes of them
-/

open Incremental

namespace BoostHttp

namespace Response

variable {methods : Nat → Bytes} {b : Bool} {p n j : Nat} {rest : Bytes} {v : List Event}

theorem fatal_policy : policy.FailsWith fun c => c.isFatal = true := failsWith (by decide) rfl rfl

/-- A response without a body ends with its head. -/
theorem runs_bodiless (g : Head) (h : Bodiless (methods j) g.code)
    (hr : (lexer methods).Runs b p (⟨.versionStaticStr, (false, .unknownBody), n⟩, j)
      (g.bytes ++ rest) v) :
    ∃ v', v = g.events p ++ (bodyEnd (p + g.bytes.length) ++ v') ∧
      (lexer methods).Runs b (p + g.bytes.length)
        (⟨(policy.onMessageEnd (g.memory (methods j) n)).2,
          (policy.onMessageEnd (g.memory (methods j) n)).1, (bodyFor (methods j) g.code n).2⟩, j + 1)
        rest v' := by
  have hforced : (g.memory (methods j) n).2.isForced = true := bodyFor_of_bodiless n h
  obtain ⟨v₁, rfl, hr₁⟩ := (leads_head g (headers_forced hforced g.headers)).split
    (lexer_total _ _ _ _ _) hr
  obtain ⟨v₂, rfl, hr₂⟩ := leads_endOfBody.split (lexer_total _ _ _ _ _) hr₁
  exact ⟨v₂, rfl, hr₂⟩

theorem memory_of_not_bodiless {g : Head} {method : Bytes} (h : ¬ Bodiless method g.code) :
    g.memory method n = (g.digit == 0x30, .connectionDelimited) ∧
      (bodyFor method g.code n).2 = n := by
  rw [Head.memory, bodyFor_of_not_bodiless h]
  exact ⟨rfl, rfl⟩

/-- The lexer on a head whose fields meet the rules. -/
theorem runs_accepted (g : Head) (hb : ¬ Bodiless (methods j) g.code)
    (h : Accepts g.digit g.headers)
    (hr : (lexer methods).Runs b p (⟨.versionStaticStr, (false, .unknownBody), n⟩, j)
      (g.bytes ++ rest) v) :
    ∃ s' v', policy.headers (g.digit == 0x30, .connectionDelimited) n g.headers = .ok s' ∧
      v = g.events p ++ v' ∧ (lexer methods).Runs b (p + g.bytes.length) (s', j + 1) rest v' := by
  obtain ⟨s', hs'⟩ := (headers_ok_iff g.digit n g.headers).mpr h
  obtain ⟨hmemory, hsize⟩ := memory_of_not_bodiless (n := n) hb
  have hok : policy.headers (g.memory (methods j) n) (bodyFor (methods j) g.code n).2 g.headers
      = .ok s' := by rw [hmemory, hsize, hs']
  obtain ⟨v', rfl, hr'⟩ := (leads_head g hok).split (lexer_total _ _ _ _ _) hr
  exact ⟨s', v', hs', rfl, hr'⟩

/-- The lexer on a head whose fields break a rule. -/
theorem runs_refused (g : Head) (hb : ¬ Bodiless (methods j) g.code)
    (h : ¬ Accepts g.digit g.headers)
    (hr : (lexer methods).Runs b p (⟨.versionStaticStr, (false, .unknownBody), n⟩, j)
      (g.bytes ++ rest) v) :
    v.any Event.isHeadEnd = false ∧ ∃ c : Code, c.isFatal = true ∧ v.any (Event.shows c) = true := by
  obtain ⟨hmemory, hsize⟩ := memory_of_not_bodiless (n := n) hb
  cases hs' : policy.headers (g.digit == 0x30, .connectionDelimited) n g.headers with
  | ok s' => exact absurd ((headers_ok_iff g.digit n g.headers).mp ⟨s', hs'⟩) h
  | error c =>
    have hc : c.isFatal = true := fatal_policy.block hs'
    have herror : policy.headers (g.memory (methods j) n) (bodyFor (methods j) g.code n).2 g.headers
        = .error c := by rw [hmemory, hsize, hs']
    obtain ⟨es, o, hr', hes⟩ := runs_head_rejected g herror
    rw [hr.unique hr']
    exact refused_events hc hes

/-- What the fields announce is remembered when a body is framed. -/
theorem framing_of_headers {digit : UInt8} {xs : List Field} {s' : Core Memory}
    (h : policy.headers (digit == 0x30, .connectionDelimited) n xs = .ok s') :
    ((∃ k, framing digit xs = .counted k) → s'.framing.2 = .contentLengthRead) ∧
      (framing digit xs = .untilClose → s'.framing.2 = .forceNoBodyAndStop) := by
  have hphase := (starts_of_headers h).phase
  obtain ⟨m', n', -, rfl⟩ := headers_iff.mp h
  constructor
  · rintro ⟨k, hF⟩
    rw [hF, Framing.phase] at hphase
    cases m' <;> first | rfl | (split at hphase <;> cases hphase)
  · intro hF
    rw [hF, Framing.phase] at hphase
    cases m' <;> simp only [afterHeaders] at hphase ⊢
    · split at hphase <;> cases hphase
    · cases hphase

/-- What follows an accepted head is described by the framing that its fields announce. -/
theorem describes_framing {digit : UInt8} {xs : List Field} {s' : Core Memory}
    (h : policy.headers (digit == 0x30, .connectionDelimited) n xs = .ok s')
    (hr : (lexer methods).Runs b p (s', j) rest v) : (framing digit xs).Describes b p rest v := by
  have hs := starts_of_headers h
  obtain ⟨hcounted, hclose⟩ := framing_of_headers h
  cases hF : framing digit xs with
  | counted k =>
    rw [hF] at hs
    have hbody := hcounted ⟨k, hF⟩
    refine describes_counted (lexer_total methods b) (fun _ k hk => ?_) hs hr
    simp [policy, hbody, hk]
  | chunked =>
    rw [hF] at hs
    exact describes_chunked (lexer_total methods b) fatal_policy hs hr
  | untilClose =>
    rw [hF] at hs
    have hbody := hclose hF
    exact describes_untilClose hs (by simp [policy, hbody]) (by simp [policy, hbody]) hr

/-- The core of a reader that expects a message. -/
theorem core_start {r : Response} (hr : Sound view Legal r) (hs : r.state = .expectVersionStaticStr) :
    view.core r = ⟨.versionStaticStr, (false, .unknownBody), r.bodySize⟩ := by
  have hp : r.state.phase = .versionStaticStr := by rw [hs]; rfl
  have hl := hr.legal (by rw [show view.phase r.state = .versionStaticStr from hp]; nofun)
  have hcore : view.core r
      = ⟨.versionStaticStr, (r.connection.http10, r.bodyType), r.bodySize⟩ := by
    simp only [View.core, view, hp]
  rw [hcore] at hl
  rw [hcore, show (r.connection.http10, r.bodyType) = (false, .unknownBody) from hl.2]

/-- A record that begins with the events of a head can be cut behind the head. -/
theorem Head.cut (g : Head) {log : List (Nat × Token)} (hp : Placed p log)
    (h : BoostHttp.events log = g.events p ++ v) :
    ∃ log₁ log₂, log = log₁ ++ log₂ ∧ BoostHttp.events log₁ = g.events p ∧
      BoostHttp.events log₂ = v := by
  have hsplit : BoostHttp.events log = (g.lineEvents p ++ blockEvents .fieldName .fieldValue
      (p + g.line.length) g.fields) ++ endOfHeaders
        (p + g.line.length + (blockBytes g.fields).length) g.lastEol :: v := by
    simp [h, Head.events]
  obtain ⟨log₁, log₂, rfl, h₁, rfl, -, -⟩ := hp.cut hsplit rfl
  refine ⟨log₁, log₂, rfl, ?_, rfl⟩
  rw [h₁]
  simp [Head.events, endOfHeaders]

/-- However a client drives a reader that expects a response, when the stream goes on with a head
then the method and the status code may rule out a body; otherwise either the fields meet the rules
and the body is framed as they announce, or the run ends with a fatal error and the end of the
headers is not reported. -/
theorem response_framing (mem : Nat → UInt8) (S rest : Bytes) (methods : Nat → Bytes) (bodySize : Nat)
    (ops₀ ops : List (Op Call)) (s₀ : Run) (g : Head)
    (h₀ : (attentiveSession mem methods S).play (fresh bodySize) ops₀ = .ok s₀)
    (hstate : s₀.reader.state = .expectVersionStaticStr)
    (hS : S.drop s₀.pass.consumed = g.bytes ++ rest)
    (h : (attentiveSession mem methods S).conforming (fresh bodySize) (ops₀ ++ ops) = true) :
    ∃ s log, (attentiveSession mem methods S).play (fresh bodySize) (ops₀ ++ ops) = .ok s ∧
      s.emitted = s₀.emitted ++ log ∧ (complete mem S s = true →
        (Bodiless (methods (statusCodes s₀)) g.code → ∃ log₁ log₂, log = log₁ ++ log₂ ∧
          events log₁ = g.events s₀.pass.consumed ∧
          bodyEnd (s₀.pass.consumed + g.bytes.length) <+: events log₂) ∧
        (¬ Bodiless (methods (statusCodes s₀)) g.code →
          (Accepts g.digit g.headers → ∃ log₁ log₂, log = log₁ ++ log₂ ∧
            events log₁ = g.events s₀.pass.consumed ∧
            (framing g.digit g.headers).Describes s.reader.connection.eofReceived
              (s₀.pass.consumed + g.bytes.length) rest (events log₂)) ∧
          (¬ Accepts g.digit g.headers →
            s.reader.code.isFatal = true ∧ ∀ e ∈ log, e.2.code ≠ .endOfHeaders))) := by
  obtain ⟨s, log, hplay, ht₀, hrec, hlog, hplaced, hruns⟩ := play_adds h₀ (by rw [hstate]; nofun) h
  refine ⟨s, log, hplay, hlog, fun hc => ?_⟩
  have hr := hruns hc
  rw [hS, pending_eq ht₀.sound (by rw [hstate]; nofun), core_start ht₀.sound hstate] at hr
  refine ⟨fun hb => ?_, fun hb => ⟨fun ha => ?_, fun ha => ?_⟩⟩
  · obtain ⟨v, hv, -⟩ := runs_bodiless g hb hr
    obtain ⟨log₁, log₂, rfl, h₁, h₂⟩ := g.cut hplaced hv
    exact ⟨log₁, log₂, rfl, h₁, h₂ ▸ List.prefix_append _ _⟩
  · obtain ⟨s', v, hs', hv, hr'⟩ := runs_accepted g hb ha hr
    obtain ⟨log₁, log₂, rfl, h₁, rfl⟩ := g.cut hplaced hv
    exact ⟨log₁, log₂, rfl, h₁, describes_framing hs' hr'⟩
  · obtain ⟨hend, c, hfatal, hshows⟩ := runs_refused g hb ha hr
    exact Session.refused_of_events hrec hlog hend hfatal hshows

/-- A head with a length that is no number. -/
def exampleHead : Head where
  digit := 0x31
  status := ascii "200"
  reason := ascii "OK"
  eol := .crlf
  fields := [(.ofLength (ascii " many") (by decide +kernel), .crlf)]
  lastEol := .crlf
  digit_isDigit := isDigit_one
  status_length := by decide +kernel
  status_digits := by decide +kernel
  reason_chars := by decide +kernel

/-- In the answer to a HEAD request the length does not matter, cut in the status code or not; in
the answer to a GET request it is an error. -/
theorem response_framing_head :
    let S := exampleHead.bytes ++ ascii "HTTP/1.1"
    let ops method : List (Op Call) := List.flatten [[.setBuffer 11], List.replicate 3 .next,
      [.setBuffer 40, .call (.setMethod method)], List.replicate 13 .next]
    (∃ s log₁ log₂, (attentiveSession (fun _ => 0) (fun _ => ascii "HEAD") S).play (fresh 0)
        (ops (ascii "HEAD")) = .ok s ∧ s.emitted = log₁ ++ log₂ ∧
      events log₁ = exampleHead.events 0 ∧ bodyEnd exampleHead.bytes.length <+: events log₂) ∧
    ∃ s, (attentiveSession (fun _ => 0) (fun _ => ascii "GET") S).play (fresh 0)
        (ops (ascii "GET")) = .ok s ∧ s.reader.code.isFatal = true := by
  intro S ops
  have hS : S.drop (fresh 0).pass.consumed = exampleHead.bytes ++ ascii "HTTP/1.1" := rfl
  constructor
  · obtain ⟨s, log, h, hlog, hread⟩ := response_framing (fun _ => 0) S _ (fun _ => ascii "HEAD") 0 []
      (ops (ascii "HEAD")) (fresh 0) exampleHead rfl rfl hS (by decide +kernel)
    have hc : (attentiveSession (fun _ => 0) (fun _ => ascii "HEAD") S).ends (fresh 0)
        ([] ++ ops (ascii "HEAD")) (complete (fun _ => 0) S) = true := by decide +kernel
    rw [Guarded.ends_eq h] at hc
    obtain ⟨log₁, log₂, rfl, h₁, h₂⟩ := (hread hc).1 (.inl rfl)
    rw [show (fresh 0).pass.consumed = 0 from rfl, Nat.zero_add] at h₂
    exact ⟨s, log₁, log₂, h, hlog, h₁, h₂⟩
  · obtain ⟨s, log, h, -, hread⟩ := response_framing (fun _ => 0) S _ (fun _ => ascii "GET") 0 []
      (ops (ascii "GET")) (fresh 0) exampleHead rfl rfl hS (by decide +kernel)
    have hc : (attentiveSession (fun _ => 0) (fun _ => ascii "GET") S).ends (fresh 0)
        ([] ++ ops (ascii "GET")) (complete (fun _ => 0) S) = true := by decide +kernel
    rw [Guarded.ends_eq h] at hc
    have hb : ¬ Bodiless (ascii "GET") exampleHead.code := by decide +kernel
    have hlengths : lengths true exampleHead.headers = [ascii "many"] := by decide +kernel
    have ha : ¬ Accepts exampleHead.digit exampleHead.headers := by
      intro ha
      have hnumeral := ha.lengths.2 (ascii "many")
      rw [show (exampleHead.digit != 0x30) = true from rfl, hlengths] at hnumeral
      obtain ⟨-, hdigits, -⟩ := hnumeral List.mem_cons_self
      have hm := hdigits 0x6D (by decide)
      revert hm
      decide
    exact ⟨s, h, (((hread hc).2 hb).2 ha).1⟩

end Response

end BoostHttp
