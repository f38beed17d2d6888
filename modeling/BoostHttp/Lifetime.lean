import BoostHttp.Record
import BoostHttp.Safety

/-!
# Lifetime — readers from their construction or `reset()` on, and the values their members take

A reader can be reset and used for another stream, so that a session begins with a new or with a
reset reader.  The comments of the source say which values `body_type` can have where; nothing
enforces them, and a `switch` that meets another one runs into `BOOST_HTTP_DETAIL_UNREACHABLE`.
-/

open Incremental

namespace BoostHttp

/-! ## Requests -/

namespace Request

/-- A reset reader is a new one, with `version` and `body_size` left as they were. -/
theorem reset_eq (r : Request) : reset r = init r.connection r.bodySize := rfl

/-- A session with a new reader or with one that was reset. -/
def Begins (s : Run) : Prop :=
  (∃ version bodySize, s = fresh version bodySize) ∨ ∃ r : Request, s = .start (reset r)

theorem Begins.eq_fresh {s : Run} (h : Begins s) : ∃ version bodySize, s = fresh version bodySize := by
  rcases h with h | ⟨r, rfl⟩
  · exact h
  · exact ⟨r.connection, r.bodySize, by rw [reset_eq]; rfl⟩

/-- What the comments in `next()` say about `body_type`. -/
structure Consistent (r : Request) : Prop where
  fieldName : r.state = .expectFieldName →
    r.bodyType ∈ [.noBody, .contentLengthRead, .chunkedEncodingRead, .randomEncodingRead]
  reading : r.state ≠ .errored → r.bodyType ∈ [.readingContentLength, .readingEncoding] →
    r.state ∈ [.expectColon, .expectOwsAfterColon, .expectFieldValue]

theorem consistent {r : Request} (hr : Sound view Legal r) : Consistent r := by
  have hlegal : r.state ≠ .errored → Legal (view.core r) := fun he =>
    hr.legal fun hp => he (State.phase_injective hp)
  constructor
  · intro hst
    have hl := hlegal (by rw [hst]; nofun)
    rw [Legal, show (view.core r).phase = .fieldName from congrArg State.phase hst] at hl
    have hread : r.bodyType.isReading = false := hl
    cases hb : r.bodyType <;> rw [hb] at hread <;> first | (cases hread; done) | simp
  · intro he hb
    have hl := hlegal he
    have hread : r.bodyType.isReading = true := by
      cases hbt : r.bodyType <;> rw [hbt] at hb <;> first | rfl | simp at hb
    obtain ⟨conn, bt, bs, st, code, idx, ts, buf⟩ := r
    -- while a value is awaited, no other state is legal
    cases bt
    case readingContentLength | readingEncoding =>
      cases st <;> simp [Legal, View.core, view, State.phase, BodyType.isReading] at hl ⊢
    all_goals cases hread

end Request

/-! ## Responses -/

namespace Response

/-- A reset reader is a new one, with `body_size` left as it was. -/
theorem reset_eq (r : Response) : reset r = init r.bodySize := rfl

def Begins (s : Run) : Prop := (∃ bodySize, s = fresh bodySize) ∨ ∃ r : Response, s = .start (reset r)

theorem Begins.eq_fresh {s : Run} (h : Begins s) : ∃ bodySize, s = fresh bodySize := by
  rcases h with h | ⟨r, rfl⟩
  · exact h
  · exact ⟨r.bodySize, by rw [reset_eq]; rfl⟩

/-- What the comments in `next()` say about `body_type`, and that a reader does not go on behind a
status code before it knows the method. -/
structure Consistent (mem : Nat → UInt8) (r : Response) : Prop where
  fieldName : r.state = .expectFieldName →
    r.bodyType ∈ [.connectionDelimited, .forceNoBody, .forceNoBodyAndStop, .contentLengthRead,
      .chunkedEncodingRead, .randomEncodingRead]
  reading : r.state ≠ .errored → r.bodyType ∈ [.readingContentLength, .readingEncoding] →
    r.state ∈ [.expectColon, .expectOwsAfterColon, .expectFieldValue]
  unknown : r.state = .expectSpAfterStatusCode → r.bodyType = .unknownBody → ∀ r', next mem r = .ok r' →
    r'.state = .expectSpAfterStatusCode ∨ r'.state = .errored

theorem unknown_stays {mem : Nat → UInt8} {r r' : Response} (hr : Sound view Legal r)
    (hst : r.state = .expectSpAfterStatusCode) (hb : r.bodyType = .unknownBody)
    (h : next mem r = .ok r') : r'.state = .expectSpAfterStatusCode ∨ r'.state = .errored := by
  have hphase : (view.core r).phase = .spAfterStatusCode := congrArg State.phase hst
  obtain ⟨r₁, h₁, hout⟩ := (implements mem).settles hr (by rw [hst]; nofun)
  have hr₁ : r' = r₁ := Except.ok.inj (h.symm.trans h₁)
  subst hr₁
  have hknown : policy.methodKnown (view.core r).framing = false := by
    simp [policy, View.core, view, hb]
  have hz : (view.core r).phase.isZeroSized = false := by rw [hphase]; rfl
  have hfailed : ∀ {code}, Settles view r.consume (.fail code) r' → r'.state = .errored := fun hs =>
    State.phase_injective hs.outcome.1
  have hwaits : Settles view r.consume (.need (view.core r)) r' → r'.state = .expectSpAfterStatusCode := by
    intro hs
    have hcore : view.core r' = view.core r := hs.outcome.1
    exact State.phase_injective ((congrArg Core.phase hcore).trans hphase)
  cases hrest : r.consume.restView with
  -- without a byte the reader waits, or fails at the end of the input
  | nil =>
    rw [hrest] at hout
    rcases lex_nil_cases (P := policy) (b := view.eof r.connection) hz with hl | ⟨hp, -⟩ | ⟨-, -, hl⟩
    · rw [hl] at hout
      exact .inl (hwaits hout)
    · rw [hphase] at hp
      cases hp
    · rw [hl] at hout
      exact .inr (hfailed hout)
  | cons c w =>
    -- with a byte in view the missing method is an error
    have hlex : policy.lex (view.eof r.connection) (view.core r) (c :: w) = .fail .errorSetMethod := by
      rw [lex_resolved hz (by rw [hphase]; rfl), lexeme_of_rigid (by rw [hphase]; rfl),
        Policy.scanned, if_pos ⟨hphase, hknown⟩]
    rw [hrest, hlex] at hout
    exact .inr (hfailed hout)

theorem consistent {mem : Nat → UInt8} {r : Response} (hr : Sound view Legal r) : Consistent mem r := by
  have hlegal : r.state ≠ .errored → Legal (view.core r) := fun he =>
    hr.legal fun hp => he (State.phase_injective hp)
  refine ⟨?_, ?_, fun hst hb r' h => unknown_stays hr hst hb h⟩
  · intro hst
    have hl := (hlegal (by rw [hst]; nofun)).2
    rw [show (view.core r).phase = .fieldName from congrArg State.phase hst] at hl
    have hread : r.bodyType.isReading = false := hl.1
    have hknown : r.bodyType ≠ .unknownBody := hl.2
    cases hb : r.bodyType <;> rw [hb] at hread hknown <;>
      first | (cases hread; done) | exact absurd rfl hknown | simp
  · intro he hb
    have hl := (hlegal he).2
    have hread : r.bodyType.isReading = true := by
      cases hbt : r.bodyType <;> rw [hbt] at hb <;> first | rfl | simp at hb
    obtain ⟨conn, bt, bs, st, code, idx, ts, buf⟩ := r
    -- while a value is awaited, no other state is legal
    cases bt
    case readingContentLength | readingEncoding =>
      cases st <;> simp [View.core, view, State.phase, BodyType.isForced, BodyType.isReading] at hl ⊢
    all_goals cases hread

/-! ### The method is given for every message -/

/-- The last message on record has reported its status code, and `set_method()` was called before
anything else was reported. -/
def Asked (log : List (Nat × Token)) (calls : List (Nat × Call)) : Prop :=
  ∃ a d b method, log = a ++ d :: b ∧ d.2.code = .statusCode ∧
    (∀ x ∈ b, x.2.code ≠ .statusCode ∧ x.2.code ≠ .endOfMessage) ∧
    (a.length + 1, .setMethod method) ∈ calls

/-- Whatever is reported of a head behind the status code is reported of a message whose method is
known. -/
def Informed (log : List (Nat × Token)) (calls : List (Nat × Call)) : Prop :=
  ∀ log₁ e log₂, log = log₁ ++ e :: log₂ →
    e.2.code ∈ [.reasonPhrase, .fieldName, .fieldValue, .endOfHeaders] → Asked log₁ calls

theorem Asked.mono {log : List (Nat × Token)} {calls calls' : List (Nat × Call)}
    (h : Asked log calls) (hsub : calls ⊆ calls') : Asked log calls' := by
  obtain ⟨a, d, b, method, rfl, hd, hb, hc⟩ := h
  exact ⟨a, d, b, method, rfl, hd, hb, hsub hc⟩

theorem Asked.append {log : List (Nat × Token)} {calls : List (Nat × Call)} (h : Asked log calls)
    {e : Nat × Token} (he : e.2.code ≠ .statusCode ∧ e.2.code ≠ .endOfMessage) :
    Asked (log ++ [e]) calls := by
  obtain ⟨a, d, b, method, rfl, hd, hb, hc⟩ := h
  refine ⟨a, d, b ++ [e], method, by simp, hd, fun x hx => ?_, hc⟩
  rcases List.mem_append.mp hx with hx | hx
  · exact hb x hx
  · rw [List.mem_singleton.mp hx]
    exact he

theorem Informed.mono {log : List (Nat × Token)} {calls calls' : List (Nat × Call)}
    (h : Informed log calls) (hsub : calls ⊆ calls') : Informed log calls' :=
  fun log₁ e log₂ heq hcode => (h log₁ e log₂ heq hcode).mono hsub

theorem Informed.append {log : List (Nat × Token)} {calls : List (Nat × Call)}
    (h : Informed log calls) {e : Nat × Token}
    (he : e.2.code ∈ [.reasonPhrase, .fieldName, .fieldValue, .endOfHeaders] → Asked log calls) :
    Informed (log ++ [e]) calls := by
  intro log₁ d log₂ heq hd
  rcases List.eq_nil_or_concat log₂ with rfl | ⟨log₃, d', rfl⟩
  · obtain ⟨rfl, hlast⟩ := List.append_inj' heq rfl
    cases hlast
    exact he hd
  · rw [List.concat_eq_append, ← List.cons_append, ← List.append_assoc] at heq
    obtain ⟨hinit, -⟩ := List.append_inj' heq rfl
    exact h log₁ d log₃ hinit hd

/-- The method becomes known by `set_method()` only, and what is read of a head behind the status code
is read with a known method. -/
theorem known_of_lex {b : Bool} {c c' : Core Memory} {w : Bytes} {n : Nat} {code : Code} (hl : Legal c)
    (h : policy.lex b c w = .emit c' n code) :
    (c'.framing.2 ≠ .unknownBody →
      c.framing.2 ≠ .unknownBody ∧ code ≠ .statusCode ∧ code ≠ .endOfMessage) ∧
    (code ∈ [.reasonPhrase, .fieldName, .fieldValue, .endOfHeaders] → c.framing.2 ≠ .unknownBody) := by
  obtain ⟨q, hq, he⟩ := emits_of_lex h
  have hl := hl.goto hq
  have hframing : (c.goto q).framing = c.framing := rfl
  rw [← hframing]
  generalize c.goto q = d at hl he
  generalize w.take n = raw at he
  cases he with
  | lexeme _ _ _ hacc =>
    obtain ⟨p, f, m⟩ := d
    have hl := hl.2
    unfold Policy.accept at hacc
    cases p <;> simp only at hacc hl
    -- a status code is reported before the method is known
    case statusCode =>
      cases hacc
      exact ⟨fun hne => absurd hl hne, by simp⟩
    case fieldName =>
      split at hacc <;> cases hacc
      exact ⟨fun _ => ⟨hl.2, nofun, nofun⟩, fun _ => hl.2⟩
    case fieldValue =>
      split at hacc <;> cases hacc
      exact ⟨fun _ => ⟨hl, nofun, nofun⟩, fun _ => hl⟩
    case crlfAfterHeaders =>
      split at hacc <;> cases hacc
      exact ⟨fun _ => ⟨hl.2, nofun, nofun⟩, fun _ => hl.2⟩
    -- `Legal` knows the body behind a status code only together with the method
    case reasonPhrase =>
      cases hacc
      have hne : f.2 ≠ .unknownBody := by
        rintro hf
        rw [hf] at hl
        rcases hl with hl | hl <;> cases hl
      exact ⟨fun _ => ⟨hne, nofun, nofun⟩, fun _ => hne⟩
    case chunkSize =>
      split at hacc <;> cases hacc
      exact ⟨fun hne => ⟨hne, nofun, nofun⟩, by simp⟩
    case crlfAfterChunkExt =>
      split at hacc <;> cases hacc <;> exact ⟨fun hne => ⟨hne, nofun, nofun⟩, by simp⟩
    case crlfAfterTrailers =>
      cases hacc
      exact ⟨fun hne => absurd rfl hne, by simp⟩
    all_goals
      cases hacc
      try exact ⟨fun hne => ⟨hne, nofun, nofun⟩, by simp⟩
  | endOfMessage => exact ⟨fun hne => absurd rfl hne, by simp⟩
  | _ => exact ⟨fun hne => ⟨hne, nofun, nofun⟩, by simp⟩

structure Knows (s : Run) : Prop where
  informed : Informed s.emitted s.calls
  current : s.reader.code = .statusCode → ∃ a d, s.emitted = a ++ [d] ∧ d.2.code = .statusCode
  known : s.reader.state.phase ≠ .errored → s.reader.bodyType ≠ .unknownBody →
    Asked s.emitted s.calls

theorem knows_report {mem : Nat → UInt8} {S : Bytes} {s : Run} {r' : Response} (hk : Knows s)
    (ht : Session.Tracks view Legal S s) (he : view.phase s.reader.state ≠ .errored)
    (hout : Settles view s.reader.consume (policy.lex (view.eof s.reader.connection)
      (view.core s.reader) s.reader.consume.restView) r') : Knows (s.pass.report mem r') := by
  have hlegal := ht.sound.legal he
  have hcalls : (s.pass.report mem r').calls = s.calls := Session.pass_calls
  constructor
  · rw [Session.emitted_report, hcalls]
    -- only the tokens of the head count, and they come from a state that knows the method
    refine hk.informed.append fun hcode => ?_
    rcases Session.report_cases mem (lawful mem) ht he hout with ⟨-, hins, -⟩ |
      ⟨n, code, hlex, htok, -⟩ | ⟨hlex, -⟩
    · rw [show (r'.token mem).code = _ from hins] at hcode
      simp at hcode
    · rw [htok] at hcode
      exact hk.known he ((known_of_lex hlegal hlex).2 hcode)
    · have hfatal := (implements mem).keeps.fail hlegal hlex
      rw [show (r'.token mem).code = r'.code from rfl] at hcode
      cases hc : r'.code <;> rw [hc] at hfatal hcode <;>
        first | (cases hfatal; done) | simp at hcode
  · intro hc
    exact ⟨s.emitted, _, Session.emitted_report mem s r', hc⟩
  · intro hne hknown
    rw [Session.emitted_report, hcalls]
    rcases Session.report_cases mem (lawful mem) ht he hout with ⟨hlex, hins, -⟩ |
      ⟨n, code, hlex, htok, -⟩ | ⟨-, hphase⟩
    -- waiting for data leaves what the reader remembers
    · have hframing : (view.core r').framing = (view.core s.reader).framing := by
        obtain ⟨-, ⟨-, hs⟩ | ⟨d, x, -, hs⟩⟩ := of_lex_need hlex
        · rw [hs]
        · rw [hs]
          rfl
      have hold : s.reader.bodyType = r'.bodyType := (congrArg Prod.snd hframing).symm
      refine (hk.known he (by rw [hold]; exact hknown)).append ?_
      rw [show (r'.token mem).code = _ from hins]
      exact ⟨nofun, nofun⟩
    · obtain ⟨hold, hcode⟩ := (known_of_lex hlegal hlex).1 hknown
      refine (hk.known he hold).append ?_
      rw [htok]
      exact hcode
    · exact absurd hphase hne

theorem play_knows {mem : Nat → UInt8} {S : Bytes} {bodySize : Nat} {ops : List (Op Call)}
    (h : (session mem S).conforming (fresh bodySize) ops = true) :
    ∃ s, (session mem S).play (fresh bodySize) ops = .ok s ∧ Session.Tracks view Legal S s ∧
      Knows s := by
  refine Session.play_induction (lawful mem) ?_ ?_ ?_ (tracks_fresh bodySize S) ?_ h
  · intro s r' ht hk he _ _ hout _
    exact knows_report hk ht he hout
  · intro s size _ hk _ _
    exact ⟨hk.informed, hk.current, hk.known⟩
  · intro s c r' ht hk hc _ hcall
    have hsub : s.calls ⊆ (s.note c r').calls := List.subset_append_left _ _
    cases c with
    | puteof =>
      cases hcall
      exact ⟨hk.informed.mono hsub, hk.current, fun he hb => (hk.known he hb).mono hsub⟩
    -- the one call that makes the method known, and it is made on the status code
    | setMethod method =>
      have hcode : s.reader.code = .statusCode := by simpa [api] using hc
      have heq := setMethod_eq method ht.sound hcode
      have hr' : r' = _ := Except.ok.inj (Eq.trans (Eq.symm hcall) heq)
      obtain ⟨a, d, hlog, hd⟩ := hk.current hcode
      refine ⟨hk.informed.mono hsub, fun _ => ⟨a, d, hlog, hd⟩, fun _ _ => ?_⟩
      refine ⟨a, d, [], method, hlog, hd, by simp, ?_⟩
      -- the call is noted behind the status code
      have hnote : (s.note (.setMethod method) r').calls
          = s.calls ++ [(s.emitted.length, .setMethod method)] := rfl
      rw [hnote, hlog, List.length_append]
      exact List.mem_append_right _ (List.mem_singleton.mpr rfl)
  · refine ⟨fun log₁ e log₂ hnil _ => ?_, by rintro ⟨⟩, fun _ hb => absurd rfl hb⟩
    have hlen := congrArg List.length hnil
    simp [fresh, Session.start] at hlen

end Response

/-- However a client drives a new or a reset reader, `next()` meets no unreachable point, no failed
assertion and no value of `body_type` that it does not expect, and no head is read of a response whose
method was not given. -/
theorem members_consistent (mem : Nat → UInt8) (S : Bytes) :
    (∀ s₀, Request.Begins s₀ → ∀ ops, (Request.session mem S).conforming s₀ ops = true →
      ∃ s, (Request.session mem S).play s₀ ops = .ok s ∧ (∃ r', Request.next mem s.reader = .ok r') ∧
        Request.Consistent s.reader) ∧
    (∀ s₀, Response.Begins s₀ → ∀ ops, (Response.session mem S).conforming s₀ ops = true →
      ∃ s, (Response.session mem S).play s₀ ops = .ok s ∧
        (∃ r', Response.next mem s.reader = .ok r') ∧ Response.Consistent mem s.reader ∧
        Response.Informed s.emitted s.calls) := by
  constructor
  · intro s₀ hs₀ ops h
    obtain ⟨version, bodySize, rfl⟩ := hs₀.eq_fresh
    obtain ⟨s, hplay, ht⟩ := Session.play_tracks (Request.lawful mem)
      (Request.tracks_fresh version bodySize S) h
    exact ⟨s, hplay, (ht.inBounds (Request.lawful mem)).returns, Request.consistent ht.sound⟩
  · intro s₀ hs₀ ops h
    obtain ⟨bodySize, rfl⟩ := hs₀.eq_fresh
    obtain ⟨s, hplay, ht, hk⟩ := Response.play_knows h
    exact ⟨s, hplay, (ht.inBounds (Response.lawful mem)).returns, Response.consistent ht.sound,
      hk.informed⟩

/-- A reset reader in the middle of a field, and a response whose second message gets no method. -/
theorem members_consistent_reset :
    (∃ s, (Request.session (fun _ => 0) (ascii "GET / HTTP/1.1\nHost:\n")).play
        (.start (Request.reset (Request.init .notHttp10AndHostRead 7)))
        (.setBuffer 21 :: List.replicate 7 .next) = .ok s ∧
      (∃ r', Request.next (fun _ => 0) s.reader = .ok r') ∧ Request.Consistent s.reader) ∧
    (∃ s, (Response.session (fun _ => 0) (ascii "HTTP/1.1 204 \n\nHTTP/1.1 200 OK")).play
        (Response.fresh 0) (List.flatten [[.setBuffer 30], List.replicate 3 .next,
          [.call (.setMethod (ascii "GET"))], List.replicate 11 .next]) = .ok s ∧
      (∃ r', Response.next (fun _ => 0) s.reader = .ok r') ∧
      Response.Consistent (fun _ => 0) s.reader ∧ Response.Informed s.emitted s.calls) :=
  ⟨(members_consistent (fun _ => 0) (ascii "GET / HTTP/1.1\nHost:\n")).1 _ (.inr ⟨_, rfl⟩) _
      (by decide +kernel),
    (members_consistent (fun _ => 0) (ascii "HTTP/1.1 204 \n\nHTTP/1.1 200 OK")).2 _
      (.inl ⟨0, rfl⟩) _ (by decide +kernel)⟩

end BoostHttp
