import BoostHttp.Outcome
import BoostHttp.Record
import BoostHttp.Request.Decision
import BoostHttp.Request.Head

/-!
# Request.Acceptance — which heads the request reader accepts, and what it makes of them
-/

open Incremental

namespace BoostHttp

namespace Request

variable {mem : Nat → UInt8} {S : Bytes} {p n j : Nat} {f : Memory} {rest w : Bytes} {v : List Event}
  {b : Bool}

theorem fatal_policy : policy.FailsWith fun c => c.isFatal = true := failsWith (by decide) rfl rfl

/-- The lexer on a head whose fields meet the rules. -/
theorem runs_accepted (g : Head) (hf : f.2 = .noBody) (h : Accepts g.digit g.headers)
    (hr : lexer.Runs b p (⟨.method, f, n⟩, j) (g.bytes ++ rest) v) :
    ∃ s' v', (framing g.headers).Starts s' ∧ v = g.events p ++ v' ∧
      lexer.Runs b (p + g.bytes.length) (s', j) rest v' := by
  obtain ⟨s', hs'⟩ := (headers_ok_iff f hf g.digit n g.headers).mpr h
  obtain ⟨v', rfl, hr'⟩ := (leads_head g hs').split (lexer_total _ _ _ _) hr
  have hstart : policy.headers ((policy.onVersion f g.digit).1, .noBody) n g.headers = .ok s' := by
    rw [← hs', ← hf]
    rfl
  exact ⟨s', v', starts_of_headers hstart, rfl, hr'⟩

/-- The lexer on a head whose fields break a rule. -/
theorem runs_refused (g : Head) (hf : f.2 = .noBody) (h : ¬ Accepts g.digit g.headers)
    (hr : lexer.Runs b p (⟨.method, f, n⟩, j) (g.bytes ++ rest) v) :
    v.any Event.isHeadEnd = false ∧ ∃ c : Code, c.isFatal = true ∧ v.any (Event.shows c) = true := by
  cases hs' : policy.headers (policy.onVersion f g.digit) n g.headers with
  | ok s' => exact absurd ((headers_ok_iff f hf g.digit n g.headers).mp ⟨s', hs'⟩) h
  | error c =>
    have hc : c.isFatal = true := fatal_policy.block hs'
    obtain ⟨es, o, hr', hes⟩ := runs_head_rejected g hs'
    rw [hr.unique hr']
    exact refused_events hc hes

/-! ## The grammar of heads -/

def headEnd (log : List (Nat × Token)) : Option Nat :=
  (log.find? fun e => e.2.code == .endOfHeaders).map fun e => e.1 + e.2.size

def headData (log : List (Nat × Token)) : List (Code × Value) :=
  ((log.takeWhile fun e => e.2.code != .endOfHeaders).filter fun e =>
    Category.convert e.2.code == .data).map fun e => (e.2.code, e.2.value)

def Head.data (g : Head) : List (Code × Value) :=
  [(.method, .view g.method), (.requestTarget, .view g.target), (.version, .version g.version)] ++
    g.headers.flatMap fun x => [(.fieldName, .view x.name), (.fieldValue, .view x.value)]

def dataOf : Event → Option (Code × Value)
  | .token _ t => if Category.convert t.code == .data then some (t.code, t.value) else none
  | .byte _ _ => none

theorem filterMap_events {t : Token} (h : t.code ≠ .bodyChunk) (p : Nat) :
    (t.events p).filterMap dataOf
      = if Category.convert t.code == .data then [(t.code, t.value)] else [] := by
  obtain ⟨c, k, x⟩ := t
  cases c <;> first | rfl | exact absurd rfl h

/-- Without body chunks, the tokens with data can be told from the events. -/
theorem data_eq {log : List (Nat × Token)} (hw : ∀ e ∈ log, e.2.WellFormed) (hb : body log = []) :
    (log.filter fun e => Category.convert e.2.code == .data).map (fun e => (e.2.code, e.2.value))
      = (events log).filterMap dataOf := by
  induction log with
  | nil => rfl
  | cons e log ih =>
    have hcons : events (e :: log) = e.2.events e.1 ++ events log := rfl
    have hbody : e.2.body = [] ∧ body log = [] := by
      rw [body, List.flatMap_cons, List.append_eq_nil_iff] at hb
      exact hb
    have hne : e.2.code ≠ .bodyChunk := by
      intro hc
      obtain ⟨a, as, ht⟩ := hw e List.mem_cons_self hc
      rw [ht] at hbody
      cases hbody.1
    rw [hcons, List.filterMap_append, filterMap_events hne,
      ← ih (fun e he => hw e (List.mem_cons_of_mem _ he)) hbody.2, List.filter_cons]
    split <;> rfl

theorem filterMap_block (p : Nat) (ls : List (Field × Eol)) :
    (blockEvents .fieldName .fieldValue p ls).filterMap dataOf
      = (ls.map Prod.fst).flatMap fun x => [(.fieldName, .view x.name), (.fieldValue, .view x.value)] := by
  induction ls generalizing p with
  | nil => rfl
  | cons l ls ih =>
    rw [blockEvents, List.filterMap_append, ih]
    rfl

/-- A record in which the first head ends at a given place shows what came before that place. -/
theorem head_of_split {u : List Event} {q : Nat} {e : Eol} {log : List (Nat × Token)}
    (hp : Placed p log) (hw : ∀ e ∈ log, e.2.WellFormed)
    (h : events log = u ++ endOfHeaders q e :: v) (hu : u.any Event.isHeadEnd = false)
    (hb : u.flatMap Event.body = []) :
    headEnd log = some (q + e.bytes.length) ∧ headData log = u.filterMap dataOf := by
  obtain ⟨log₁, log₂, rfl, h₁, -, -, -⟩ := hp.split h rfl
  have hnone : ∀ e ∈ log₁, e.2.code ≠ .endOfHeaders := by
    have hany := any_shows (c := .endOfHeaders) rfl log₁
    rw [h₁] at hany
    intro e he hc
    have hfalse := List.any_eq_false.mp (hany.symm.trans hu) e he
    simp [hc] at hfalse
  have hbody : body log₁ = [] := by rw [body_eq, h₁, hb]
  constructor
  · unfold headEnd
    have hfind : log₁.find? (fun e => e.2.code == .endOfHeaders) = none :=
      List.find?_eq_none.mpr fun e he => by simpa using hnone e he
    rw [List.find?_append, hfind]
    rfl
  · unfold headData
    have htake : ∀ e : Nat × Token, e.2.code = .endOfHeaders →
        (log₁ ++ e :: log₂).takeWhile (fun e => e.2.code != .endOfHeaders) = log₁ := fun e he =>
      takeWhile_run (fun e he => by simpa using hnone e he) (by simp [he]) log₂
    rw [htake _ rfl, data_eq (fun e he => hw e (List.mem_append_left _ he)) hbody, h₁]

/-- A record that begins with the events of a head shows the parts of the head. -/
theorem head_of_events (g : Head) {log : List (Nat × Token)} (hp : Placed 0 log)
    (hw : ∀ e ∈ log, e.2.WellFormed) (h : events log = g.events 0 ++ v) :
    headEnd log = some g.bytes.length ∧ headData log = g.data := by
  have hlen : 0 + g.line.length + (blockBytes g.fields).length + g.lastEol.bytes.length
      = g.bytes.length := by
    simp only [Head.bytes, List.length_append]
    omega
  have hsplit : events log = (g.lineEvents 0 ++
      blockEvents .fieldName .fieldValue (0 + g.line.length) g.fields) ++
        endOfHeaders (0 + g.line.length + (blockBytes g.fields).length) g.lastEol :: v := by
    simp [h, Head.events]
  obtain ⟨hend, hdata⟩ := head_of_split hp hw hsplit
    (by rw [List.any_append, any_block]; rfl)
    (by rw [List.flatMap_append, body_block]; rfl)
  rw [hend, hdata, hlen, List.filterMap_append, filterMap_block]
  exact ⟨rfl, rfl⟩

/-- The core of a reader that expects a message. -/
theorem core_method {r : Request} (hr : Sound view Legal r) (hs : r.state = .expectMethod) :
    view.core r = ⟨.method, (r.connection, r.bodyType), r.bodySize⟩ ∧ r.bodyType = .noBody := by
  have hp : r.state.phase = .method := by rw [hs]; rfl
  have hl := hr.legal (by rw [show view.phase r.state = .method from hp]; nofun)
  have hcore : view.core r = ⟨.method, (r.connection, r.bodyType), r.bodySize⟩ := by
    simp only [View.core, view, hp]
  rw [hcore] at hl
  exact ⟨hcore, hl⟩

/-- The reader ends the first head exactly where a head of this form ends whose fields meet the
rules, and it reports the parts of that head. -/
theorem request_head_grammar (mem : Nat → UInt8) (w : Bytes) (version : Version) (bodySize : Nat)
    (ops : List (Op Empty))
    (h : (session mem w).conforming (fresh version bodySize) ops = true) :
    ∃ s, (session mem w).play (fresh version bodySize) ops = .ok s ∧ (complete w s = true →
      (∀ p, (∃ k, headEnd s.emitted = some k ∧ w.take k = p) ↔
        ∃ g : Head, g.bytes = p ∧ p <+: w ∧ Accepts g.digit g.headers) ∧
      ∀ g : Head, g.bytes <+: w → Accepts g.digit g.headers → headData s.emitted = g.data) := by
  have h₀ : (session mem w).play (fresh version bodySize) [] = .ok (fresh version bodySize) := rfl
  obtain ⟨s, log, hplay, -, hrec, hlog, hplaced, hruns⟩ := play_adds h₀ nofun h
  have hlog : s.emitted = log := hlog
  refine ⟨s, hplay, fun hc => ?_⟩
  have hr : lexer.Runs false 0 (⟨.method, (version, .noBody), bodySize⟩, 0) w (events log) := hruns hc
  have hw : ∀ e ∈ log, e.2.WellFormed := by
    rw [← hlog]
    exact hrec.wellFormed
  rw [hlog]
  have haccepted : ∀ g : Head, g.bytes <+: w → Accepts g.digit g.headers →
      headEnd log = some g.bytes.length ∧ headData log = g.data := by
    rintro g ⟨rest, rfl⟩ hg
    obtain ⟨-, v, -, hv, -⟩ := runs_accepted g rfl hg hr
    exact head_of_events g hplaced hw hv
  refine ⟨fun p => ⟨?_, ?_⟩, fun g hg ha => (haccepted g hg ha).2⟩
  · rintro ⟨k, hk, rfl⟩
    obtain ⟨e, he, -⟩ := Option.map_eq_some_iff.mp hk
    have hany : (events log).any Event.isHeadEnd = true := by
      rw [any_shows rfl]
      exact List.any_eq_true.mpr ⟨e, List.mem_of_find?_eq_some he, by simpa using List.find?_some he⟩
    obtain ⟨g, rest, s', hg, hs'⟩ := of_runs_head fatal_policy hr hany
    have ha := (headers_ok_iff _ rfl g.digit _ g.headers).mp ⟨s', hs'⟩
    have hprefix : g.bytes <+: w := ⟨rest, hg.symm⟩
    rw [(haccepted g hprefix ha).1] at hk
    cases hk
    refine ⟨g, ?_, List.take_prefix _ _, ha⟩
    rw [hg, List.take_left]
  · rintro ⟨g, rfl, hg, ha⟩
    refine ⟨g.bytes.length, (haccepted g hg ha).1, ?_⟩
    obtain ⟨rest, rfl⟩ := hg
    exact List.take_left

/-- A head with blanks around a value and two kinds of line ends, cut in its method and in its
field, with bytes behind it. -/
theorem request_head_grammar_pieces :
    let w := ascii "PUT /x HTTP/1.1\r\nHost: \ta \n\r\nGET"
    let ops : List (Op Empty) := List.flatten [[.setBuffer 2, .setBuffer 22],
      List.replicate 8 .next, [.setBuffer 10], List.replicate 7 .next]
    ∃ s, (session (fun _ => 0) w).play (fresh .http10 0) ops = .ok s ∧ complete w s = true ∧
      (∀ p, (∃ k, headEnd s.emitted = some k ∧ w.take k = p) ↔
        ∃ g : Head, g.bytes = p ∧ p <+: w ∧ Accepts g.digit g.headers) ∧
      headEnd s.emitted = some 29 := by
  intro w ops
  obtain ⟨s, h, hgrammar⟩ := request_head_grammar (fun _ => 0) w .http10 0 ops (by decide +kernel)
  have hc : (session (fun _ => 0) w).ends (fresh .http10 0) ops
      (fun s => complete w s && headEnd s.emitted = some 29) = true := by decide +kernel
  rw [Guarded.ends_eq h, Bool.and_eq_true, decide_eq_true_eq] at hc
  exact ⟨s, h, hc.1, (hgrammar hc.1).1, hc.2⟩

/-! ## The framing decision -/

/-- What follows an accepted head is described by the framing that its fields announce. -/
theorem describes_framing {xs : List Field} {s' : Core Memory} (hs : (framing xs).Starts s')
    (hr : lexer.Runs false p (s', j) rest v) : (framing xs).Describes false p rest v := by
  unfold framing at hs ⊢
  split at hs
  · rename_i he
    rw [if_pos he]
    exact describes_counted (lexer_total false) nofun hs hr
  · rename_i he
    rw [if_neg he]
    exact describes_chunked (lexer_total false) fatal_policy hs hr

/-- However a client drives a reader that expects a message, when the stream goes on with a head
then either its fields meet the rules, the parts of the head are reported and the body is framed as
the fields announce, or the run ends with a fatal error and the end of the headers is not
reported. -/
theorem request_framing (mem : Nat → UInt8) (S rest : Bytes) (version : Version) (bodySize : Nat)
    (ops₀ ops : List (Op Empty)) (s₀ : Run) (g : Head)
    (h₀ : (session mem S).play (fresh version bodySize) ops₀ = .ok s₀)
    (hstate : s₀.reader.state = .expectMethod) (hS : S.drop s₀.pass.consumed = g.bytes ++ rest)
    (h : (session mem S).conforming (fresh version bodySize) (ops₀ ++ ops) = true) :
    ∃ s log, (session mem S).play (fresh version bodySize) (ops₀ ++ ops) = .ok s ∧
      s.emitted = s₀.emitted ++ log ∧ (complete S s = true →
        (Accepts g.digit g.headers → ∃ log₁ log₂, log = log₁ ++ log₂ ∧
          events log₁ = g.events s₀.pass.consumed ∧
          (framing g.headers).Describes false (s₀.pass.consumed + g.bytes.length) rest
            (events log₂)) ∧
        (¬ Accepts g.digit g.headers →
          s.reader.code.isFatal = true ∧ ∀ e ∈ log, e.2.code ≠ .endOfHeaders)) := by
  obtain ⟨s, log, hplay, ht₀, hrec, hlog, hplaced, hruns⟩ := play_adds h₀ (by rw [hstate]; nofun) h
  refine ⟨s, log, hplay, hlog, fun hc => ?_⟩
  obtain ⟨hcore, hbody⟩ := core_method ht₀.sound hstate
  have hr := hruns hc
  rw [hcore, hS] at hr
  constructor
  · intro ha
    obtain ⟨s', v, hs', hv, hr'⟩ := runs_accepted g hbody ha hr
    have hsplit : events log = (g.lineEvents s₀.pass.consumed ++ blockEvents .fieldName .fieldValue
        (s₀.pass.consumed + g.line.length) g.fields) ++ endOfHeaders
          (s₀.pass.consumed + g.line.length + (blockBytes g.fields).length) g.lastEol :: v := by
      simp [hv, Head.events]
    obtain ⟨log₁, log₂, rfl, h₁, rfl, -, -⟩ := hplaced.cut hsplit rfl
    refine ⟨log₁, log₂, rfl, ?_, ?_⟩
    · rw [h₁]
      simp [Head.events, endOfHeaders]
    · exact describes_framing hs' hr'
  · intro ha
    obtain ⟨hend, c, hfatal, hshows⟩ := runs_refused g hbody ha hr
    exact Session.refused_of_events hrec hlog hend hfatal hshows

/-- A head with a length, which an encoding overrides. -/
def exampleHead : Head where
  method := ascii "POST"
  target := ascii "/"
  digit := 0x31
  eol := .crlf
  fields := [(.ofLength (ascii " 9") (by decide +kernel), .crlf),
    (⟨ascii "Host", [], by decide +kernel, by decide +kernel, isText_nil⟩, .lf),
    (⟨ascii "transfer-encoding", ascii " gzip, chunked", by decide +kernel, by decide +kernel,
      by decide +kernel⟩, .crlf)]
  lastEol := .crlf
  method_ne := by decide +kernel
  method_chars := by decide +kernel
  target_ne := by decide +kernel
  target_chars := by decide +kernel
  digit_isDigit := isDigit_one

/-- The head as the second one on a connection, with an empty chunked body. -/
theorem request_framing_second :
    let S := ascii "GET / HTTP/1.0\n\n" ++ exampleHead.bytes ++ ascii "0\r\n\r\n"
    let first := .setBuffer 16 :: List.replicate 9 .next
    let second := .setBuffer 9 :: .next :: .setBuffer 79 :: List.replicate 24 .next
    ∃ s₀ s log₁ log₂, (session (fun _ => 0) S).play (fresh .http10 0) first = .ok s₀ ∧
      (session (fun _ => 0) S).play (fresh .http10 0) (first ++ second) = .ok s ∧
      s.emitted = s₀.emitted ++ (log₁ ++ log₂) ∧ events log₁ = exampleHead.events 16 ∧
      Framing.chunked.Describes false 94 (ascii "0\r\n\r\n") (events log₂) := by
  intro S first second
  have hfirst : (session (fun _ => 0) S).ends (fresh .http10 0) first
      (fun s => s.reader.state = .expectMethod && s.pass.consumed = 16) = true := by decide +kernel
  obtain ⟨s₀, h₀, hs₀⟩ := Guarded.of_ends hfirst
  simp only [Bool.and_eq_true, decide_eq_true_eq] at hs₀
  obtain ⟨hstate, hconsumed⟩ := hs₀
  have hS : S.drop s₀.pass.consumed = exampleHead.bytes ++ ascii "0\r\n\r\n" := by
    rw [hconsumed]
    decide +kernel
  obtain ⟨s, log, h, hlog, hread⟩ := request_framing (fun _ => 0) S (ascii "0\r\n\r\n") .http10 0
    first second s₀ exampleHead h₀ hstate hS (by decide +kernel)
  have hc : (session (fun _ => 0) S).ends (fresh .http10 0) (first ++ second) (complete S) = true := by
    decide +kernel
  rw [Guarded.ends_eq h] at hc
  have hlengths : lengths true exampleHead.headers = [ascii "9"] := by decide +kernel
  have ha : Accepts exampleHead.digit exampleHead.headers := by
    refine ⟨by decide +kernel, by decide +kernel, by decide +kernel, ?_⟩
    rw [hlengths]
    refine ⟨by decide, fun v hv => ?_⟩
    rw [List.mem_singleton.mp hv]
    exact ⟨by decide, by decide +kernel, by decide +kernel⟩
  have hframing : framing exampleHead.headers = .chunked := by decide +kernel
  obtain ⟨log₁, log₂, rfl, h₁, h₂⟩ := (hread hc).1 ha
  rw [hconsumed, hframing] at h₂
  rw [hconsumed] at h₁
  exact ⟨s₀, s, log₁, log₂, h₀, h, hlog, h₁, h₂⟩

end Request

end BoostHttp
