import BoostHttp.Productions
import BoostHttp.Pump

/-!
# Expectations — what `expected_token()` foretells

While a reader waits, it names the token that it expects.  Which token it finds at last may depend on
bytes that it has not seen, but only in a few places and between a few tokens.
-/

open Incremental

namespace BoostHttp

def Phase.expected : Phase → Code
  | .method => .method
  | .requestTarget => .requestTarget
  | .requestVersion | .responseVersion => .version
  | .statusCode => .statusCode
  | .reasonPhrase => .reasonPhrase
  | .fieldName => .fieldName
  | .fieldValue => .fieldValue
  | .chunkExt => .chunkExt
  | .body | .unsafeBody | .chunkData => .bodyChunk
  | .trailerName => .trailerName
  | .trailerValue => .trailerValue
  | .endOfBody => .endOfBody
  | .endOfMessage => .endOfMessage
  | .endOfConnectionError => .errorUseAnotherConnection
  | _ => .skip

theorem Request.expectedToken_eq {r : Request} (h : r.state.phase ≠ .errored) :
    expectedToken r = r.state.phase.expected := by
  unfold expectedToken
  cases hs : r.state <;> first | rfl | exact absurd (by rw [hs]; rfl) h

theorem Response.expectedToken_eq {r : Response} (h : r.state.phase ≠ .errored) :
    expectedToken r = r.state.phase.expected := by
  unfold expectedToken
  cases hs : r.state <;> first | rfl | exact absurd (by rw [hs]; rfl) h

def Phase.finds : Phase → List Code
  | .fieldName => [.fieldName, .endOfHeaders]
  | .owsAfterColon => [.skip, .fieldValue]
  | .crlfAfterHeaders => [.endOfHeaders]
  | .unsafeBody => [.bodyChunk, .endOfBody]
  | .chunkExt => [.chunkExt, .skip, .endOfBody]
  | .crlfAfterChunkExt => [.skip, .endOfBody]
  | .trailerName => [.trailerName, .endOfMessage]
  | .owsAfterTrailerColon => [.skip, .trailerValue]
  | .crlfAfterTrailers => [.endOfMessage]
  | p => [p.expected]

/-- The tokens that may come when one is expected: where the choice is left to bytes that are not
there there is more than one.  In a body that lasts until the connection is closed, it may be. -/
def Code.foretells (untilClose : Bool) : Code → List Code
  | .skip => [.skip, .fieldValue, .endOfHeaders, .endOfBody, .trailerValue, .endOfMessage]
  | .fieldName => [.fieldName, .endOfHeaders]
  | .chunkExt => [.chunkExt, .skip, .endOfBody]
  | .bodyChunk => if untilClose then [.bodyChunk, .endOfBody] else [.bodyChunk]
  | .trailerName => [.trailerName, .endOfMessage]
  | c => [c]

theorem Phase.finds_foretold {untilClose : Bool} {p : Phase}
    (hp : untilClose = false → p ≠ .unsafeBody) : p.finds ⊆ p.expected.foretells untilClose := by
  cases untilClose with
  | true => cases p <;> decide
  | false =>
    have hne := hp rfl
    cases p <;> first | decide | exact absurd rfl hne

theorem Phase.Resolves.finds {p q : Phase} (h : p.Resolves q) : q.finds ⊆ p.finds := by
  cases h with
  | refl => exact List.Subset.refl _
  | headers | fieldValue | chunkExt | trailers | trailerValue => decide

section Lex

variable {φ : Type} {P : Policy φ} {b : Bool} {s s' : Core φ} {w raw : Bytes} {n : Nat} {code : Code}

theorem finds_accept (h : P.accept s raw = .ok (s', code)) : code ∈ s.phase.finds := by
  unfold Policy.accept at h
  cases hp : s.phase <;> simp only [hp] at h
  case fieldName | fieldValue | crlfAfterHeaders | chunkSize =>
    split at h <;> cases h
    decide
  case crlfAfterChunkExt =>
    split at h <;> cases h <;> decide
  all_goals first
    | cases h; done
    | cases h; decide

theorem finds_emits (h : P.Emits s raw code s') : code ∈ s.phase.finds := by
  cases h with
  | lexeme _ _ _ hacc => exact finds_accept hacc
  | colon hv hp _ _ | ows hv hp _ =>
    rw [hp]
    rcases hv with ⟨rfl, rfl, rfl⟩ | ⟨rfl, rfl, rfl⟩ <;> decide
  | body hb hp _ _ =>
    rw [hp]
    rcases hb with ⟨rfl, rfl⟩ | ⟨rfl, rfl⟩ <;> decide
  | unsafeBody hp _ | closed hp | endOfBody hp | endOfMessage hp =>
    rw [hp]
    decide

theorem finds_of_lex (h : P.lex b s w = .emit s' n code) : code ∈ s.phase.finds := by
  obtain ⟨q, hq, hemits⟩ := emits_of_lex h
  exact hq.finds (finds_emits hemits)

/-- While the lexer waits, no other token comes into question. -/
theorem finds_of_need (h : P.lex b s w = .need s') : s'.phase.finds ⊆ s.phase.finds := by
  obtain ⟨-, ⟨-, rfl⟩ | ⟨c, x, -, rfl⟩⟩ := of_lex_need h
  · exact List.Subset.refl _
  · exact (Phase.resolves_resolve _ c).finds

end Lex

/-! ## Sessions -/

def FirstOf (cs : List Code) (log : List (Nat × Token)) : Prop :=
  ∀ waits x rest, log = waits ++ x :: rest → (∀ e ∈ waits, e.2.code = .errorInsufficientData) →
    x.2.code = .errorInsufficientData ∨ x.2.code.isFatal = true ∨ x.2.code ∈ cs

theorem FirstOf.nil (cs : List Code) : FirstOf cs [] := by
  intro waits x rest h
  cases waits <;> cases h

theorem FirstOf.mono {cs ds : List Code} {log : List (Nat × Token)} (h : FirstOf cs log)
    (hcs : cs ⊆ ds) : FirstOf ds log := by
  intro waits x rest hlog hwaits
  rcases h waits x rest hlog hwaits with hx | hx | hx
  · exact .inl hx
  · exact .inr (.inl hx)
  · exact .inr (.inr (hcs hx))

/-- Behind a token that was found, what comes does not matter. -/
theorem FirstOf.concat {cs : List Code} {log : List (Nat × Token)} {x : Nat × Token}
    (h : FirstOf cs log) (hx : (∀ e ∈ log, e.2.code = .errorInsufficientData) →
      x.2.code = .errorInsufficientData ∨ x.2.code.isFatal = true ∨ x.2.code ∈ cs) :
    FirstOf cs (log ++ [x]) := by
  intro waits y rest hlog hwaits
  rcases List.eq_nil_or_concat' rest with rfl | ⟨rest, z, rfl⟩
  · obtain ⟨rfl, hone⟩ := List.append_inj' hlog rfl
    obtain ⟨rfl, -⟩ := List.cons.inj hone
    exact hx hwaits
  · rw [← List.cons_append, ← List.append_assoc] at hlog
    obtain ⟨rfl, -⟩ := List.append_inj' hlog rfl
    exact h waits y rest rfl hwaits

namespace Session

variable {σ β ν κ φ : Type} {A : Api σ β ν κ} {mem : Nat → UInt8} {S : Bytes} {V : View σ β ν φ}
  {P : Policy φ} {Legal : Core φ → Prop} {s s₀ : Session σ β ν κ} {r' : Reader σ β ν}

def Awaits (V : View σ β ν φ) (s₀ s : Session σ β ν κ) : Prop :=
  ∃ log, s.emitted = s₀.emitted ++ log ∧ FirstOf (V.phase s₀.reader.state).finds log ∧
    ((∀ e ∈ log, e.2.code = .errorInsufficientData) →
      (V.phase s.reader.state).finds ⊆ (V.phase s₀.reader.state).finds)

theorem awaits_refl (s₀ : Session σ β ν κ) : Awaits V s₀ s₀ :=
  ⟨[], (List.append_nil _).symm, .nil _, fun _ => List.Subset.refl _⟩

theorem Awaits.report (hA : A.Lawful V P Legal) (ht : Tracks V Legal S s) (hs : Awaits V s₀ s)
    (he : V.phase s.reader.state ≠ .errored)
    (hout : Settles V s.reader.consume
      (P.lex (V.eof s.reader.connection) (V.core s.reader) s.reader.consume.restView) r') :
    Awaits V s₀ (s.pass.report mem r') := by
  obtain ⟨log, hlog, hfirst, hfinds⟩ := hs
  refine ⟨log ++ [(s.pass.consumed, r'.token mem)], ?_, ?_, ?_⟩
  · rw [emitted_report, hlog, List.append_assoc]
  · refine hfirst.concat fun hwaits => ?_
    change r'.code = _ ∨ r'.code.isFatal = true ∨ r'.code ∈ _
    cases hlex : P.lex (V.eof s.reader.connection) (V.core s.reader) s.reader.consume.restView with
    | need s' =>
      rw [hlex] at hout
      exact .inl hout.outcome.2.1
    | emit s' n c =>
      rw [hlex] at hout
      rw [hout.outcome.2.1]
      exact .inr (.inr (hfinds hwaits (finds_of_lex hlex)))
    | fail c =>
      rw [hlex] at hout
      rw [hout.outcome.2]
      exact .inr (.inl (hA.implements.keeps.fail (ht.sound.legal he) hlex))
  · intro hwaits
    have hcode : r'.code = .errorInsufficientData :=
      hwaits (s.pass.consumed, r'.token mem) (List.mem_append_right _ List.mem_cons_self)
    have hbefore := hfinds fun e he => hwaits e (List.mem_append_left _ he)
    cases hlex : P.lex (V.eof s.reader.connection) (V.core s.reader) s.reader.consume.restView with
    | need s' =>
      rw [hlex] at hout
      have hphase : V.phase r'.state = s'.phase := congrArg Core.phase hout.outcome.1
      change (V.phase r'.state).finds ⊆ _
      rw [hphase]
      exact List.Subset.trans (finds_of_need hlex) hbefore
    | emit s' n c =>
      have herror := (hA.implements.keeps.emit (ht.sound.legal he) hlex).2.2.1
      rw [hlex] at hout
      rw [← hout.outcome.2.1, hcode] at herror
      cases herror
    | fail c =>
      have hfatal := hA.implements.keeps.fail (ht.sound.legal he) hlex
      rw [hlex] at hout
      rw [← hout.outcome.2, hcode] at hfatal
      cases hfatal

/-- A call that leaves the reader where it is. -/
theorem Awaits.keep {s' : Session σ β ν κ} (hs : Awaits V s₀ s) (hlog : s'.emitted = s.emitted)
    (hstate : s'.reader.state = s.reader.state) : Awaits V s₀ s' := by
  obtain ⟨log, hlog₀, hfirst, hfinds⟩ := hs
  refine ⟨log, hlog.trans hlog₀, hfirst, ?_⟩
  rw [hstate]
  exact hfinds

end Session

theorem Request.play_awaits {mem : Nat → UInt8} {S : Bytes} {ops : List (Op Empty)} {s₀ : Run}
    (ht : Session.Tracks view Legal S s₀) (h : (session mem S).conforming s₀ ops = true) :
    ∃ s, (session mem S).play s₀ ops = .ok s ∧ Session.Tracks view Legal S s ∧
      Session.Awaits view s₀ s := by
  refine Session.play_induction (lawful mem) ?_ ?_ ?_ ht (Session.awaits_refl s₀) h
  · intro s r' ht hs he _ _ hout _
    exact hs.report (lawful mem) ht he hout
  · intro s size _ hs _ _
    exact hs.keep rfl rfl
  · intro s c
    exact c.elim

theorem Response.play_awaits {mem : Nat → UInt8} {S : Bytes} {ops : List (Op Call)} {s₀ : Run}
    (ht : Session.Tracks view Legal S s₀) (h : (session mem S).conforming s₀ ops = true) :
    ∃ s, (session mem S).play s₀ ops = .ok s ∧ Session.Tracks view Legal S s ∧
      Session.Awaits view s₀ s := by
  refine Session.play_induction (lawful mem) ?_ ?_ ?_ ht (Session.awaits_refl s₀) h
  · intro s r' ht hs he _ _ hout _
    exact hs.report (lawful mem) ht he hout
  · intro s size _ hs _ _
    exact hs.keep rfl rfl
  · intro s c r' ht hs hc _ hcall
    cases c with
    | puteof =>
      cases hcall
      exact hs.keep rfl rfl
    | setMethod method =>
      have hcode : s.reader.code = .statusCode := by simpa [api] using hc
      have hcall : setMethod s.reader method = .ok r' := hcall
      rw [setMethod_eq method ht.sound hcode] at hcall
      cases hcall
      exact hs.keep rfl rfl

/-- At any moment of any run, the next token that the reader finds, however the client goes on, is one
of those that the expected token foretells, or the reader fails. -/
theorem tokens_foretold (mem : Nat → UInt8) (S : Bytes) :
    (∀ version bodySize ops₀ ops s₀,
      (Request.session mem S).play (Request.fresh version bodySize) ops₀ = .ok s₀ →
      s₀.reader.code.isFatal = false →
      (Request.session mem S).conforming (Request.fresh version bodySize) (ops₀ ++ ops) = true →
      ∃ s log, (Request.session mem S).play (Request.fresh version bodySize) (ops₀ ++ ops) = .ok s ∧
        s.emitted = s₀.emitted ++ log ∧
        FirstOf ((Request.expectedToken s₀.reader).foretells false) log) ∧
    (∀ bodySize ops₀ ops s₀,
      (Response.session mem S).play (Response.fresh bodySize) ops₀ = .ok s₀ →
      s₀.reader.code.isFatal = false →
      (Response.session mem S).conforming (Response.fresh bodySize) (ops₀ ++ ops) = true →
      ∃ s log, (Response.session mem S).play (Response.fresh bodySize) (ops₀ ++ ops) = .ok s ∧
        s.emitted = s₀.emitted ++ log ∧
        FirstOf ((Response.expectedToken s₀.reader).foretells true) log) := by
  constructor
  · intro version bodySize ops₀ ops s₀ h₀ hf h
    have ht : Session.Tracks Request.view Request.Legal S s₀ :=
      Session.tracks_of_reaches (Request.lawful mem) (Request.tracks_fresh version bodySize S)
        ⟨ops₀, Guarded.conforming_append h, h₀⟩
    have he := ht.sound.ne_errored hf
    obtain ⟨s, hplay, -, log, hlog, hfirst, -⟩ :=
      Request.play_awaits ht (Guarded.conforming_of_play h h₀)
    refine ⟨s, log, ?_, hlog, ?_⟩
    · rw [Guarded.play_append, h₀]
      exact hplay
    · rw [Request.expectedToken_eq he]
      refine hfirst.mono (Phase.finds_foretold fun _ hp => ?_)
      have hlegal := ht.sound.legal he
      have hphase : (Request.view.core s₀.reader).phase = .unsafeBody := hp
      simp [Request.Legal, hphase] at hlegal
  · intro bodySize ops₀ ops s₀ h₀ hf h
    have ht : Session.Tracks Response.view Response.Legal S s₀ :=
      Session.tracks_of_reaches (Response.lawful mem) (Response.tracks_fresh bodySize S)
        ⟨ops₀, Guarded.conforming_append h, h₀⟩
    obtain ⟨s, hplay, -, log, hlog, hfirst, -⟩ :=
      Response.play_awaits ht (Guarded.conforming_of_play h h₀)
    refine ⟨s, log, ?_, hlog, ?_⟩
    · rw [Guarded.play_append, h₀]
      exact hplay
    · rw [Response.expectedToken_eq (ht.sound.ne_errored hf)]
      exact hfirst.mono (Phase.finds_foretold fun hnot => by cases hnot)

/-- A request line that stops in the target, and a body that has not begun. -/
theorem tokens_foretold_waiting :
    (∃ s₀ s log, (Request.session (fun _ => 0) (ascii "GET /ab HTTP")).play (Request.fresh .http10 0)
        [.setBuffer 6, .next, .next] = .ok s₀ ∧
      (Request.session (fun _ => 0) (ascii "GET /ab HTTP")).play (Request.fresh .http10 0)
        ([.setBuffer 6, .next, .next] ++ [.setBuffer 4, .next]) = .ok s ∧
      s.emitted = s₀.emitted ++ log ∧ FirstOf [.requestTarget] log) ∧
    (∃ s₀ s log, (Response.session (fun _ => 0) (ascii "HTTP/1.1 200 ")).play (Response.fresh 0)
        [.setBuffer 12, .next] = .ok s₀ ∧
      (Response.session (fun _ => 0) (ascii "HTTP/1.1 200 ")).play (Response.fresh 0)
        ([.setBuffer 12, .next] ++ [.next, .next, .setBuffer 4]) = .ok s ∧
      s.emitted = s₀.emitted ++ log ∧ FirstOf (Code.skip.foretells true) log) := by
  constructor
  · have hc : (Request.session (fun _ => 0) (ascii "GET /ab HTTP")).conforming (Request.fresh .http10 0)
        [.setBuffer 6, .next, .next] = true := by decide +kernel
    obtain ⟨s₀, h₀, -⟩ := Request.play_awaits (Request.tracks_fresh .http10 0 _) hc
    have hs : (Request.session (fun _ => 0) (ascii "GET /ab HTTP")).ends (Request.fresh .http10 0)
        [.setBuffer 6, .next, .next] (fun s => !s.reader.code.isFatal &&
          Request.expectedToken s.reader == .requestTarget) = true := by decide +kernel
    rw [Guarded.ends_eq h₀, Bool.and_eq_true, Bool.not_eq_true', beq_iff_eq] at hs
    obtain ⟨s, log, hplay, hlog, hfirst⟩ := (tokens_foretold (fun _ => 0) (ascii "GET /ab HTTP")).1
      .http10 0 _ [.setBuffer 4, .next] s₀ h₀ hs.1 (by decide +kernel)
    rw [hs.2] at hfirst
    exact ⟨s₀, s, log, h₀, hplay, hlog, hfirst⟩
  · have hc : (Response.session (fun _ => 0) (ascii "HTTP/1.1 200 ")).conforming (Response.fresh 0)
        [.setBuffer 12, .next] = true := by decide +kernel
    obtain ⟨s₀, h₀, -⟩ := Response.play_awaits (Response.tracks_fresh 0 _) hc
    have hs : (Response.session (fun _ => 0) (ascii "HTTP/1.1 200 ")).ends (Response.fresh 0)
        [.setBuffer 12, .next] (fun s => !s.reader.code.isFatal &&
          Response.expectedToken s.reader == .skip) = true := by decide +kernel
    rw [Guarded.ends_eq h₀, Bool.and_eq_true, Bool.not_eq_true', beq_iff_eq] at hs
    obtain ⟨s, log, hplay, hlog, hfirst⟩ := (tokens_foretold (fun _ => 0) (ascii "HTTP/1.1 200 ")).2
      0 _ [.next, .next, .setBuffer 4] s₀ h₀ hs.1 (by decide +kernel)
    rw [hs.2] at hfirst
    exact ⟨s₀, s, log, h₀, hplay, hlog, hfirst⟩

end BoostHttp
