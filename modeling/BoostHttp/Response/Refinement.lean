import BoostHttp.Response.Framing

/-!
# Response.Refinement — `response::next()` implements the lexer of responses
-/

open Incremental

namespace BoostHttp

namespace Response

def State.phase : State → Phase
  | .errored => .errored
  | .expectVersionStaticStr => .versionStaticStr
  | .expectVersion => .responseVersion
  | .expectSpAfterVersion => .spAfterVersion
  | .expectStatusCode => .statusCode
  | .expectSpAfterStatusCode => .spAfterStatusCode
  | .expectReasonPhrase => .reasonPhrase
  | .expectCrlfAfterReasonPhrase => .crlfAfterReasonPhrase
  | .expectFieldName => .fieldName
  | .expectColon => .colon
  | .expectOwsAfterColon => .owsAfterColon
  | .expectFieldValue => .fieldValue
  | .expectCrlfAfterFieldValue => .crlfAfterFieldValue
  | .expectCrlfAfterHeaders => .crlfAfterHeaders
  | .expectBody => .body
  | .expectUnsafeBody => .unsafeBody
  | .expectEndOfBody => .endOfBody
  | .expectEndOfMessage => .endOfMessage
  | .expectEndOfConnectionError => .endOfConnectionError
  | .expectChunkSize => .chunkSize
  | .expectChunkExt => .chunkExt
  | .expextCrlfAfterChunkExt => .crlfAfterChunkExt
  | .expectChunkData => .chunkData
  | .expectCrlfAfterChunkData => .crlfAfterChunkData
  | .expectTrailerName => .trailerName
  | .expectTrailerColon => .trailerColon
  | .expectOwsAfterTrailerColon => .owsAfterTrailerColon
  | .expectTrailerValue => .trailerValue
  | .expectCrlfAfterTrailerValue => .crlfAfterTrailerValue
  | .expectCrlfAfterTrailers => .crlfAfterTrailers

def view : View State BodyType ConnectionFlags Memory where
  phase := State.phase
  framing connection bodyType := (connection.http10, bodyType)
  eof connection := connection.eofReceived

theorem State.phase_injective : Function.Injective State.phase := by
  intro a b h
  cases a <;> cases b <;> first | rfl | cases h

variable {r : Response} {c : UInt8} {w : Bytes} {mem : Nat → UInt8}

/-! ## Cases that decide on the framing -/

theorem settles_version (hp : r.state = .expectVersion) (hrest : r.restView = c :: w) :
    ∃ r', expectVersion r = .ok r' ∧ Settles view r (policy.scanned (view.core r) r.restView) r' := by
  have hp' : (view.core r).phase = .responseVersion := by rw [View.core, hp]; rfl
  have hdigit : (c < 0x30 || c > 0x39) = !Syntax.isDigit c := by
    simp only [Syntax.isDigit, Bool.not_and, ge_iff_le, gt_iff_lt, ← decide_not, UInt8.not_le]
  have hread : read r.ibuffer r.idx = .ok c := Reader.read_of_restView hrest
  unfold expectVersion Policy.scanned
  rw [hread, hp', if_neg (by simp), hrest]
  cases hc : Syntax.isDigit c with
  | false =>
    refine ⟨r.raise .errored .errorInvalidData, ?_, ?_⟩
    · simp [hdigit, hc, bind, Except.bind, pure, Except.pure]
    · simp [Phase.scan, fixed, hc]
      refine settles_raise rfl ?_
      rw [hp]
      exact Phase.failSize_resolved (fun _ _ => rfl) _
  | true =>
    have hscan : Phase.scan .responseVersion (c :: w) = .ok 1 := by simp [Phase.scan, fixed, hc]
    have hacc : policy.accept (view.core r) ((c :: w).take 1)
        = .ok (⟨.spAfterVersion, (r.connection.http10 || c == 0x30, r.bodyType), r.bodySize⟩,
            .version) := by
      unfold Policy.accept
      rw [hp']
      rfl
    simp only [hscan, hacc]
    by_cases hzero : c = 0x30
    · subst hzero
      exact ⟨_, rfl, rfl, rfl, rfl, ⟨by simp [View.core, view, Reader.found, State.phase], rfl, rfl⟩,
        by rintro _ ⟨⟩⟩
    · refine ⟨r.found .expectSpAfterVersion .version 1, ?_, rfl, rfl, rfl, ⟨?_, rfl, rfl⟩, by rintro _ ⟨⟩⟩
      · simp [hdigit, hc, hzero, bind, Except.bind, pure, Except.pure]
      · simp [View.core, view, Reader.found, State.phase, hzero]

theorem expectStatusCode_eq (hts : r.tokenSize = 0) :
    expectStatusCode r
      = Reader.settle r .errored 0 (fixed 3 (·.all Syntax.isDigit) r.restView)
          fun n => .ok (r.found .expectSpAfterStatusCode .statusCode n) := by
  unfold expectStatusCode fixed
  by_cases hlen : r.restView.length < 3
  · simp [Syntax.statusCodeMatch, hlen, Reader.settle, Reader.keep_tokenSize hts, bind, Except.bind,
      pure, Except.pure]
  · rw [statusCodeMatch_eq (by omega)]
    simp only [bind, Except.bind, pure, Except.pure, if_neg hlen]
    by_cases hd : (r.restView.take 3).all Syntax.isDigit = true
    · rw [if_pos hd, if_pos hd]
      rfl
    · rw [if_neg hd, if_neg hd]
      rfl

theorem settles_spAfterStatusCode (hp : r.state = .expectSpAfterStatusCode)
    (hcode : r.code = .errorInsufficientData) (hrest : r.restView = c :: w) :
    ∃ r', expectSpAfterStatusCode r = .ok r' ∧
      Settles view r (policy.scanned (view.core r) r.restView) r' := by
  have hp' : (view.core r).phase = .spAfterStatusCode := by rw [View.core, hp]; rfl
  unfold expectSpAfterStatusCode
  by_cases hk : r.bodyType = .unknownBody
  · have hm : policy.methodKnown (view.core r).framing = false := by
      simp [policy, View.core, view, hk]
    rw [if_pos hk, Policy.scanned, if_pos ⟨hp', hm⟩]
    refine ⟨_, rfl, settles_raise rfl ?_⟩
    rw [hp]
    exact Phase.failSize_resolved (fun _ _ => rfl) _
  · have hm : policy.methodKnown (view.core r).framing = true := by
      simp [policy, View.core, view, hk]
    rw [if_neg hk, Reader.expectSp_eq _ _ hrest]
    exact settles_scanned_goto (p := .spAfterStatusCode) hp' hcode (fun _ _ => rfl) rfl
      (fun _ => hm) rfl rfl rfl

theorem nameRead_eq {name : Bytes} (hval : r.valueFieldName = .ok name)
    (hread : r.bodyType.isReading = false) (hknown : r.bodyType ≠ .unknownBody) :
    nameRead r = .ok (match onFieldName (r.connection.http10, r.bodyType) name with
      | .ok f => { r with bodyType := f.2 }
      | .error code => r.raise .errored code) := by
  obtain ⟨⟨eof, http10⟩, bt, bs, st, code, idx, ts, buf⟩ := r
  unfold nameRead onFieldName
  rw [hval]
  simp only [bind, Except.bind, pure, Except.pure]
  generalize iequals name (ascii "Transfer-Encoding") = encoding
  generalize iequals name (ascii "Content-Length") = length
  cases encoding <;> cases http10 <;> cases length <;> cases bt <;>
    first | rfl | exact absurd rfl hknown | cases hread

theorem nameRead_settles {n : Nat} (hp : r.state = .expectFieldName)
    (hsize : (view.phase r.state).failSize r.restView r.tokenSize = n)
    (hread : r.bodyType.isReading = false) (hknown : r.bodyType ≠ .unknownBody) :
    ∃ r', nameRead (r.found .expectColon .fieldName n) = .ok r' ∧
      Settles view r (policy.accepted (view.core r) r.restView n) r' := by
  have hp' : (view.core r).phase = .fieldName := by rw [View.core, hp]; rfl
  have hval : (r.found .expectColon .fieldName n).valueFieldName = .ok (r.restView.take n) := rfl
  refine ⟨_, nameRead_eq hval hread hknown, ?_⟩
  have hname : policy.onFieldName (view.core r).framing (r.restView.take n)
      = onFieldName (r.connection.http10, r.bodyType) (r.restView.take n) := rfl
  simp only [Policy.accepted, Policy.accept, hp', hname]
  change Settles view r _ (match onFieldName (r.connection.http10, r.bodyType) _ with
    | .ok f => { r.found .expectColon .fieldName n with bodyType := f.2 }
    | .error code => (r.found .expectColon .fieldName n).raise .errored code)
  cases hf : onFieldName (r.connection.http10, r.bodyType) (r.restView.take n) with
  | error code => exact ⟨rfl, rfl, rfl, ⟨rfl, rfl⟩, fun _ _ => hsize.symm⟩
  | ok f =>
    refine ⟨rfl, rfl, rfl, ⟨?_, rfl, rfl⟩, by rintro _ ⟨⟩⟩
    have hver : f.1 = r.connection.http10 := onFieldName_fst hf
    simp only [View.core, view, Reader.found, ← hver]
    rfl

theorem valueRead_settles {n : Nat} (hp : r.state = .expectFieldValue)
    (hsize : (view.phase r.state).failSize r.restView r.tokenSize = n) :
    ∃ r', valueRead mem (r.found .expectCrlfAfterFieldValue .fieldValue n) = .ok r' ∧
      Settles view r (policy.accepted (view.core r) r.restView n) r' := by
  have hp' : (view.core r).phase = .fieldValue := by rw [View.core, hp]; rfl
  have hval : (r.found .expectCrlfAfterFieldValue .fieldValue n).valueFieldValue mem
      = .ok (Detail.trimTail (r.restView.take n)) := by
    rw [← Detail.decodeFieldValue_eq mem]
    rfl
  unfold valueRead
  rw [hval]
  simp only [Policy.accepted, Policy.accept, hp', policy, onFieldValue, bind, Except.bind, pure,
    Except.pure]
  generalize Detail.trimTail (r.restView.take n) = field
  obtain ⟨conn, bt, bs, st, code, idx, ts, buf⟩ := r
  cases bt
  case readingContentLength =>
    simp only [View.core, view, Reader.found]
    cases Syntax.contentLengthDecode 64 field bs with
    | mk res out =>
      cases res <;>
        exact ⟨_, rfl, rfl, rfl, rfl, by first | exact ⟨rfl, rfl, rfl⟩ | exact ⟨rfl, rfl⟩,
          fun _ _ => hsize.symm⟩
  case readingEncoding =>
    simp only [View.core, view, Reader.found]
    cases Detail.decodeTransferEncoding field <;>
      exact ⟨_, rfl, rfl, rfl, rfl, by first | exact ⟨rfl, rfl, rfl⟩ | exact ⟨rfl, rfl⟩,
          fun _ _ => hsize.symm⟩
  all_goals exact ⟨_, rfl, rfl, rfl, rfl, ⟨rfl, rfl, rfl⟩, by rintro _ ⟨⟩⟩

theorem headersRead_settles {n : Nat} (hp : r.state = .expectCrlfAfterHeaders)
    (hsize : (view.phase r.state).failSize r.restView r.tokenSize = n)
    (hread : r.bodyType.isReading = false) (hknown : r.bodyType ≠ .unknownBody) :
    ∃ r', headersRead { r with tokenSize := n } = .ok r' ∧
      Settles view r (policy.accepted (view.core r) r.restView n) r' := by
  have hp' : (view.core r).phase = .crlfAfterHeaders := by rw [View.core, hp]; rfl
  simp only [Policy.accepted, Policy.accept, hp', policy, onHeaders, headersRead]
  obtain ⟨conn, bt, bs, st, code, idx, ts, buf⟩ := r
  simp only [View.core, view] at hread hknown ⊢
  cases bt
  case contentLengthRead =>
    by_cases h2 : bs = 0
    · simp only [h2, if_true]
      exact ⟨_, rfl, rfl, rfl, rfl, ⟨rfl, rfl, rfl⟩, by rintro _ ⟨⟩⟩
    · simp only [h2, if_false]
      exact ⟨_, rfl, rfl, rfl, rfl, ⟨rfl, rfl, rfl⟩, by rintro _ ⟨⟩⟩
  all_goals first
    | exact ⟨_, rfl, rfl, rfl, rfl, ⟨rfl, rfl, rfl⟩, by rintro _ ⟨⟩⟩
    | exact absurd rfl hknown
    | cases hread

theorem expectCrlfAfterHeaders_eq (hts : r.tokenSize = 0) :
    expectCrlfAfterHeaders r
      = Reader.settle r .errored 0 (lineEnd r.restView)
          fun n => headersRead { r with tokenSize := n } := by
  unfold expectCrlfAfterHeaders
  rw [liberalCrlfMatch_eq]
  simp only [bind, Except.bind, pure, Except.pure]
  cases hl : lineEnd r.restView with
  | need => simp [Reader.settle, Reader.keep_tokenSize hts]
  | bad => simp [Reader.settle]
  | ok n => rcases lineEnd_ok hl with rfl | rfl <;> simp [Reader.settle]

/-! ## The `switch` -/

/-- Every case that does not call `next()` again settles on what the lexer finds. -/
theorem dispatch_settles (mem : Nat → UInt8) (self : Response → Except Fault Response)
    (hcode : r.code = .errorInsufficientData) (hle : r.idx + r.tokenSize ≤ r.ibuffer.length)
    (hheld : r.state.phase.Holds r.slice) (hlegal : Legal (view.core r))
    (hrest : r.restView = c :: w) (hz : r.state.phase.isZeroSized = false)
    (hres : r.state.phase.resolve c = r.state.phase) :
    ∃ r', dispatch mem self r = .ok r' ∧ Settles view r (policy.lexeme (view.core r) c w) r' := by
  have hidx := Nat.le_of_lt (Reader.idx_lt_of_restView hrest)
  have hts : r.state.phase.keeps = false → r.tokenSize = 0 := by
    intro hk
    rw [← Reader.length_slice hle, hheld.eq_nil hk, List.length_nil]
  have hlex : r.state.phase.isElastic = false →
      policy.lexeme (view.core r) c w = policy.scanned (view.core r) r.restView := by
    intro hk
    rw [lexeme_of_rigid hk, hrest]
  have hfields : r.state = .expectFieldName ∨ r.state = .expectCrlfAfterHeaders →
      r.bodyType.isReading = false ∧ r.bodyType ≠ .unknownBody := by
    rintro (h | h) <;> simpa [View.core, view, h, State.phase] using hlegal.2
  have hhead : ∀ d ∈ r.restView.head?, r.state.phase.resolve d = r.state.phase := by
    intro d hd
    rw [hrest] at hd
    cases hd
    exact hres
  unfold dispatch
  cases hst : r.state <;> rw [hst] at hheld hz hres hts hlex hhead <;> simp only
  case errored => simp [Legal, View.core, view, hst, State.phase] at hlegal
  case expectVersionStaticStr =>
    rw [hlex rfl, Reader.expectStaticStr_eq _ _ _ hle
      (Phase.Holds.isPrefix (p := .versionStaticStr) rfl rfl hheld)]
    exact settles_scanned_goto (p := .versionStaticStr) (congrArg State.phase hst) hcode hhead rfl
      (by simp) rfl rfl rfl
  case expectVersion =>
    rw [hlex rfl]
    exact settles_version hst hrest
  case expectSpAfterVersion =>
    rw [hlex rfl, Reader.expectSp_eq _ _ hrest]
    exact settles_scanned_goto (p := .spAfterVersion) (congrArg State.phase hst) hcode hhead rfl
      (by simp) rfl rfl rfl
  case expectStatusCode =>
    rw [hlex rfl, expectStatusCode_eq (hts rfl)]
    exact settles_scanned_goto (p := .statusCode) (congrArg State.phase hst) hcode hhead rfl
      (by simp) rfl rfl rfl
  case expectSpAfterStatusCode =>
    rw [hlex rfl]
    exact settles_spAfterStatusCode hst hcode hrest
  case expectReasonPhrase =>
    rw [hlex rfl, Reader.expectText_eq Syntax.reasonPhraseMatch
      (p := Syntax.isReasonPhraseChar) (fun _ => rfl) .errored _ _ _ (hts rfl)]
    exact settles_scanned_goto (p := .reasonPhrase) (congrArg State.phase hst) hcode hhead rfl
      (by simp) rfl rfl rfl
  case expectCrlfAfterReasonPhrase =>
    rw [hlex rfl, Reader.expectLiberalCrlf_eq _ _ (hts rfl)]
    exact settles_scanned_goto (p := .crlfAfterReasonPhrase) (congrArg State.phase hst) hcode hhead rfl
      (by simp) rfl rfl rfl
  case expectFieldName =>
    have hc : Detail.isTchar c = true := (Phase.resolve_fieldName_iff c).mp hres
    rw [hlex rfl, Reader.expectName_eq _ .errored _ _ _ _ (hts rfl) hrest, if_pos hc]
    exact settles_scanned (p := .fieldName) (congrArg State.phase hst) hcode hhead rfl (by simp) rfl
      fun n hn => nameRead_settles hst
        (failSize_ok (congrArg State.phase hst) hhead (.inl rfl) hn) (hfields (.inl hst)).1 (hfields (.inl hst)).2
  case expectColon => exact settles_colon (.inl ⟨congrArg State.phase hst, rfl, rfl⟩) hrest rfl
  case expectOwsAfterColon =>
    have hc : Detail.isOws c = true := (Phase.resolve_owsAfterColon_iff c).mp hres
    rw [Reader.expectOws_eq _ _ hrest, if_pos hc]
    exact ⟨_, rfl, settles_ows (.inl ⟨rfl, congrArg State.phase hst, rfl⟩) hrest⟩
  case expectFieldValue =>
    rw [hlex rfl, Reader.expectText_eq Syntax.leftTrimmedFieldValueMatch
      (p := Syntax.isFieldValueChar) (fun _ => rfl) .errored _ _ _ (hts rfl)]
    exact settles_scanned (p := .fieldValue) (congrArg State.phase hst) hcode hhead rfl (by simp)
      rfl fun n hn => valueRead_settles hst
        (failSize_ok (congrArg State.phase hst) hhead (.inr (.inl rfl)) hn)
  case expectCrlfAfterFieldValue =>
    rw [hlex rfl, Reader.expectLiberalCrlf_eq _ _ (hts rfl)]
    exact settles_scanned_goto (p := .crlfAfterFieldValue) (congrArg State.phase hst) hcode hhead
      rfl (by simp) rfl rfl rfl
  case expectCrlfAfterHeaders =>
    rw [hlex rfl, expectCrlfAfterHeaders_eq (hts rfl)]
    exact settles_scanned (p := .crlfAfterHeaders) (congrArg State.phase hst) hcode hhead rfl
      (by simp) rfl fun n hn => headersRead_settles hst
        (failSize_ok (congrArg State.phase hst) hhead (.inr (.inr rfl)) hn) (hfields (.inr hst)).1 (hfields (.inr hst)).2
  case expectBody =>
    exact ⟨_, rfl, settles_body (.inl ⟨congrArg State.phase hst, rfl⟩) hrest⟩
  case expectUnsafeBody =>
    have hp : (view.core r).phase = .unsafeBody := congrArg State.phase hst
    refine ⟨_, rfl, ?_⟩
    simp only [Policy.lexeme, hp]
    rw [← hrest]
    exact ⟨rfl, rfl, rfl, ⟨by simp only [View.core, hst], rfl, rfl⟩, by simp⟩
  case expectEndOfBody | expectEndOfMessage | expectEndOfConnectionError => cases hz
  case expectChunkSize =>
    rw [hlex rfl, Reader.expectChunkSize_eq _ _ (hts rfl) hrest]
    exact settles_scanned (p := .chunkSize) (congrArg State.phase hst) hcode hhead rfl (by simp) rfl
      fun n _ => ⟨_, rfl, settles_chunkSize (congrArg State.phase hst) rfl rfl n⟩
  case expectChunkExt =>
    have hc : c ≠ CR := by
      intro hc
      simp [State.phase, Phase.resolve, hc] at hres
    rw [hlex rfl, Reader.expectChunkExt_eq _ _ _ hle
      (Phase.Holds.all (p := .chunkExt) (g := fun _ c => c == CR) rfl rfl hheld) hrest, if_neg hc]
    exact settles_scanned_goto (p := .chunkExt) (congrArg State.phase hst) hcode hhead rfl (by simp)
      rfl rfl rfl
  case expextCrlfAfterChunkExt =>
    rw [hlex rfl, Reader.expectStrictCrlf_eq _ _ (hts rfl)]
    exact settles_scanned (p := .crlfAfterChunkExt) (congrArg State.phase hst) hcode hhead rfl
      (by simp) rfl fun n _ =>
      ⟨_, rfl, settles_crlfAfterChunkExt (congrArg State.phase hst) rfl rfl n⟩
  case expectChunkData =>
    exact ⟨_, rfl, settles_body (.inr ⟨congrArg State.phase hst, rfl⟩) hrest⟩
  case expectCrlfAfterChunkData =>
    rw [hlex rfl, Reader.expectStrictCrlf_eq _ _ (hts rfl)]
    exact settles_scanned_goto (p := .crlfAfterChunkData) (congrArg State.phase hst) hcode hhead rfl
      (by simp) rfl rfl rfl
  case expectTrailerName =>
    have hc : Detail.isTchar c = true := (Phase.resolve_trailerName_iff c).mp hres
    rw [hlex rfl, Reader.expectName_eq _ .errored _ _ _ _ (hts rfl) hrest, if_pos hc]
    exact settles_scanned_goto (p := .trailerName) (congrArg State.phase hst) hcode hhead rfl
      (by simp) rfl rfl rfl
  case expectTrailerColon =>
    exact settles_colon (.inr ⟨congrArg State.phase hst, rfl, rfl⟩) hrest rfl
  case expectOwsAfterTrailerColon =>
    have hc : Detail.isOws c = true := (Phase.resolve_owsAfterTrailerColon_iff c).mp hres
    rw [Reader.expectOws_eq _ _ hrest, if_pos hc]
    exact ⟨_, rfl, settles_ows (.inr ⟨rfl, congrArg State.phase hst, rfl⟩) hrest⟩
  case expectTrailerValue =>
    rw [hlex rfl, Reader.expectText_eq Syntax.leftTrimmedFieldValueMatch
      (p := Syntax.isFieldValueChar) (fun _ => rfl) .errored _ _ _ (hts rfl)]
    exact settles_scanned_goto (p := .trailerValue) (congrArg State.phase hst) hcode hhead rfl
      (by simp) rfl rfl rfl
  case expectCrlfAfterTrailerValue =>
    rw [hlex rfl, Reader.expectStrictCrlf_eq _ _ (hts rfl)]
    exact settles_scanned_goto (p := .crlfAfterTrailerValue) (congrArg State.phase hst) hcode hhead rfl
      (by simp) rfl rfl rfl
  case expectCrlfAfterTrailers =>
    rw [hlex rfl, Reader.expectStrictCrlf_eq _ _ (hts rfl)]
    refine settles_scanned (p := .crlfAfterTrailers) (congrArg State.phase hst) hcode hhead rfl
      (by simp) rfl fun n _ => ⟨_, rfl, ?_⟩
    have hp : (view.core r).phase = .crlfAfterTrailers := congrArg State.phase hst
    simp only [Policy.accepted, Policy.accept, hp]
    exact ⟨rfl, rfl, rfl, ⟨rfl, rfl, rfl⟩, by simp⟩

/-- A case that finds the expected part absent calls `next()` in the state of what follows. -/
theorem dispatch_unresolved (mem : Nat → UInt8) (self : Response → Except Fault Response)
    (hle : r.idx + r.tokenSize ≤ r.ibuffer.length) (hheld : r.state.phase.Holds r.slice)
    (hrest : r.restView = c :: w) (hres : r.state.phase.resolve c ≠ r.state.phase) :
    ∃ q : State, q.phase = r.state.phase.resolve c ∧
      dispatch mem self r = self { r with state := q, tokenSize := 0 } := by
  have hts : r.state.phase.keeps = false → r.tokenSize = 0 := by
    intro hk
    rw [← Reader.length_slice hle, hheld.eq_nil hk, List.length_nil]
  unfold dispatch
  cases hst : r.state <;> rw [hst] at hheld hts hres <;> simp only
  case expectFieldName =>
    have hc : Detail.isTchar c = false :=
      Bool.eq_false_iff.mpr fun hc => hres ((Phase.resolve_fieldName_iff c).mpr hc)
    refine ⟨.expectCrlfAfterHeaders, by simp [State.phase, Phase.resolve, hc], ?_⟩
    rw [Reader.expectName_eq _ .errored _ _ _ _ (hts rfl) hrest, if_neg (by simp [hc])]
    rw [hts rfl]
  case expectOwsAfterColon =>
    have hc : Detail.isOws c = false :=
      Bool.eq_false_iff.mpr fun hc => hres ((Phase.resolve_owsAfterColon_iff c).mpr hc)
    refine ⟨.expectFieldValue, by simp [State.phase, Phase.resolve, hc], ?_⟩
    rw [Reader.expectOws_eq _ _ hrest, if_neg (by simp [hc]), hts rfl]
  case expectChunkExt =>
    have hc : c = CR := by_contra fun hc => hres ((Phase.resolve_chunkExt_iff c).mpr hc)
    refine ⟨.expextCrlfAfterChunkExt, by simp [State.phase, Phase.resolve, hc], ?_⟩
    rw [Reader.expectChunkExt_eq _ _ _ hle
      (Phase.Holds.all (p := .chunkExt) (g := fun _ c => c == CR) rfl rfl hheld) hrest, if_pos hc]
  case expectTrailerName =>
    have hc : Detail.isTchar c = false :=
      Bool.eq_false_iff.mpr fun hc => hres ((Phase.resolve_trailerName_iff c).mpr hc)
    refine ⟨.expectCrlfAfterTrailers, by simp [State.phase, Phase.resolve, hc], ?_⟩
    rw [Reader.expectName_eq _ .errored _ _ _ _ (hts rfl) hrest, if_neg (by simp [hc]), hts rfl]
  case expectOwsAfterTrailerColon =>
    have hc : Detail.isOws c = false :=
      Bool.eq_false_iff.mpr fun hc => hres ((Phase.resolve_owsAfterTrailerColon_iff c).mpr hc)
    refine ⟨.expectTrailerValue, by simp [State.phase, Phase.resolve, hc], ?_⟩
    rw [Reader.expectOws_eq _ _ hrest, if_neg (by simp [hc]), hts rfl]
  all_goals exact absurd rfl hres

/-! ## `next()` -/

theorem nextBody_eq (mem : Nat → UInt8) (self : Response → Except Fault Response)
    (hz : r.state.phase.isZeroSized = false) (he : r.state.phase ≠ .errored) :
    nextBody mem self r = if r.consume.idx = r.consume.ibuffer.length then
        .ok (atBufferEnd r.consume)
      else dispatch mem self r.consume := by
  unfold nextBody
  cases hst : r.state <;> rw [hst] at hz he <;> first | exact absurd rfl he | rfl | cases hz

theorem nextBody_settles (mem : Nat → UInt8) (self : Response → Except Fault Response)
    (hcode : r.code = .errorInsufficientData) (hle : r.idx + r.tokenSize ≤ r.ibuffer.length)
    (hheld : r.state.phase.Holds r.slice) (hlegal : Legal (view.core r))
    (hrest : r.restView = c :: w) (hz : r.state.phase.isZeroSized = false)
    (hres : r.state.phase.resolve c = r.state.phase) :
    ∃ r', nextBody mem self r = .ok r' ∧ Settles view r (policy.lexeme (view.core r) c w) r' := by
  rw [nextBody_eq mem self hz hlegal.phase_ne, consume_of_insufficient hcode,
    if_neg (Nat.ne_of_lt (Reader.idx_lt_of_restView hrest))]
  exact dispatch_settles mem self hcode hle hheld hlegal hrest hz hres

theorem atBufferEnd_settles (hcode : r.code = .errorInsufficientData) (hrest : r.restView = [])
    (hts : r.tokenSize = 0) :
    Settles view r
      (if r.connection.eofReceived then policy.atEof (view.core r) else .need (view.core r))
      (atBufferEnd r) := by
  have hneed : Settles view r (.need (view.core r)) r := by
    refine ⟨rfl, rfl, rfl, ⟨rfl, hcode, ?_⟩, nofun⟩
    rw [Phase.kept, hrest, List.length_nil, ite_self, hts]
  have hwaits : policy.waits (view.core r).framing (view.core r).bodySize = true
      ↔ r.bodyType = .contentLengthRead ∧ r.bodySize ≠ 0 := by
    simp [policy, View.core, view]
  have hclose : (view.core r).phase = .unsafeBody ↔ r.state = .expectUnsafeBody :=
    State.phase_injective.eq_iff (b := .expectUnsafeBody)
  unfold atBufferEnd Policy.atEof
  cases hk : r.connection.eofReceived with
  | false =>
    rw [if_neg Bool.false_ne_true, if_pos (Or.inl Bool.false_ne_true)]
    exact hneed
  | true =>
    rw [if_pos rfl]
    by_cases hw : r.bodyType = .contentLengthRead ∧ r.bodySize ≠ 0
    · rw [if_pos (hwaits.mpr hw), if_pos (Or.inr hw)]
      exact hneed
    · have hgo : ¬ (¬ true = true ∨ r.bodyType = .contentLengthRead ∧ r.bodySize ≠ 0) :=
        fun h => h.elim (fun h => h rfl) hw
      rw [if_neg (fun h => hw (hwaits.mp h)), if_neg hgo]
      by_cases hs : r.state = .expectUnsafeBody
      · rw [if_pos (hclose.mpr hs), if_neg (not_not.mpr hs)]
        exact settles_found rfl
      · rw [if_neg (fun h => hs (hclose.mp h)), if_pos hs]
        exact settles_raise rfl (by rw [hrest]; rfl)

/-- A reader that has passed its token finds what the lexer finds, after one self-call at most. -/
theorem ready_settles (mem : Nat → UInt8) (hcode : r.code = .errorInsufficientData)
    (hle : r.idx + r.tokenSize ≤ r.ibuffer.length) (hheld : r.state.phase.Holds r.slice)
    (hlegal : Legal (view.core r)) (hz : r.state.phase.isZeroSized = false) :
    ∃ r', (if r.idx = r.ibuffer.length then .ok (atBufferEnd r)
          else dispatch mem (nextDepth mem 0) r) = .ok r' ∧
      Settles view r (policy.lex r.connection.eofReceived (view.core r) r.restView) r' := by
  have hz' : (view.core r).phase.isZeroSized = false := hz
  cases hrest : r.restView with
  | nil =>
    have hlen := Reader.length_restView r
    rw [hrest, List.length_nil] at hlen
    rw [if_pos (by omega), lex_nil hz']
    exact ⟨_, rfl, atBufferEnd_settles hcode hrest (by omega)⟩
  | cons c w =>
    rw [if_neg (Nat.ne_of_lt (Reader.idx_lt_of_restView hrest))]
    by_cases hres : r.state.phase.resolve c = r.state.phase
    · rw [lex_resolved hz' hres]
      exact dispatch_settles mem _ hcode hle hheld hlegal hrest hz hres
    · obtain ⟨q, hq, heq⟩ := dispatch_unresolved mem (nextDepth mem 0) hle hheld hrest hres
      have hcore : view.core { r with state := q, tokenSize := 0 }
          = (view.core r).goto (r.state.phase.resolve c) := by
        rw [← hq]
        rfl
      have hidx := Reader.idx_lt_of_restView hrest
      rw [heq, lex_cons hz']
      obtain ⟨r', hr', h⟩ := nextBody_settles mem (fun _ => .error .recursion)
        (r := { r with state := q, tokenSize := 0 }) hcode (Nat.le_of_lt hidx)
        (.inl (by simp [Reader.slice])) (hcore ▸ hlegal.goto (Phase.resolves_resolve _ c)) hrest
        (by rw [hq, Phase.isZeroSized_resolve]; exact hz)
        (by rw [hq, Phase.resolve_resolve])
      refine ⟨r', hr', ?_⟩
      rw [hcore] at h
      refine ⟨h.ibuffer, h.idx, h.eof, h.outcome, fun code hfail => ?_⟩
      -- the self-call starts with a size of zero
      have hsize := h.failed code hfail
      have hhead : ∀ d ∈ r.restView.head?, q.phase.resolve d = q.phase := by
        intro d hd
        rw [hrest] at hd
        cases hd
        rw [hq, Phase.resolve_resolve]
      change r'.tokenSize = q.phase.failSize r.restView 0 at hsize
      rw [Phase.failSize_resolved hhead, hq] at hsize
      change r'.tokenSize = r.state.phase.failSize r.restView r.tokenSize
      rw [hsize, hrest, Phase.failSize, if_neg hres]

theorem implements (mem : Nat → UInt8) : Implements view policy Legal (next mem) where
  keeps := keeps_policy
  errored {r} h := by
    have hst : r.state = .errored := State.phase_injective h
    simp [next, nextDepth, nextBody, hst]
  settles {r} hr he := by
    cases hz : (view.phase r.state).isZeroSized with
    | false =>
      obtain ⟨hle, hheld⟩ := hr.consume_ready he
      have hstep : next mem r = if r.consume.idx = r.consume.ibuffer.length then
            .ok (atBufferEnd r.consume)
          else dispatch mem (nextDepth mem 0) r.consume := nextBody_eq mem _ hz he
      have hready := ready_settles mem (r := r.consume) consume_code
        (by rwa [consume_ibuffer]) (by rwa [consume_state])
        (by rw [core_consume]; exact hr.legal he) (by rwa [consume_state])
      rw [core_consume, consume_connection] at hready
      rwa [hstep]
    | true =>
      -- the tokens without bytes are found before the buffer is looked at
      rw [consume_of_token (hr.zeroSized hz)]
      unfold next nextDepth nextBody Policy.lex
      cases hst : r.state
      case expectEndOfBody =>
        have hp : (view.core r).phase = .endOfBody := congrArg State.phase hst
        simp only [hp]
        exact ⟨_, rfl, rfl, rfl, rfl, ⟨rfl, rfl, rfl⟩, nofun⟩
      case expectEndOfMessage =>
        have hp : (view.core r).phase = .endOfMessage := congrArg State.phase hst
        simp only [hp]
        refine ⟨_, rfl, rfl, rfl, rfl, ⟨?_, rfl, rfl⟩, nofun⟩
        simp only [View.core, view, policy]
        congr 1
        exact apply_ite State.phase _ _ _
      case expectEndOfConnectionError =>
        have hp : (view.core r).phase = .endOfConnectionError := congrArg State.phase hst
        simp only [hp]
        -- this state is reached with a token without bytes only
        have hlast := hr.last hp
        refine ⟨_, rfl, rfl, ?_, rfl, ⟨rfl, rfl⟩, fun _ _ => ?_⟩
        · simp [Reader.raise, hlast]
        · change r.tokenSize = Phase.failSize .endOfConnectionError _ 0
          rw [hlast]
          exact (Phase.failSize_resolved (p := .endOfConnectionError) (fun _ _ => rfl) 0).symm
      all_goals
        rw [hst] at hz
        cases hz

end Response

end BoostHttp
