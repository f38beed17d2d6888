import BoostHttp.Lexer
import BoostHttp.Refines
import BoostHttp.Response

/-!
# Response.Framing — the framing policy of responses

What the response reader remembers of a head is whether its version is 1.0, and its member
`body_type`.  The request method, on which the framing depends too, is given from outside.
-/

open Incremental

namespace BoostHttp

namespace Response

/-- The flag `HTTP_1_0` and the member `body_type`. -/
abbrev Memory := Bool × BodyType

/-- The body was ruled out by the method and the status code. -/
def BodyType.isForced : BodyType → Bool
  | .forceNoBody | .forceNoBodyAndStop => true
  | _ => false

def BodyType.isReading : BodyType → Bool
  | .readingContentLength | .readingEncoding => true
  | _ => false

def BodyType.isEncoded : BodyType → Bool
  | .readingEncoding | .randomEncodingRead | .chunkedEncodingRead => true
  | _ => false

def onFieldName (f : Memory) (name : Bytes) : Except Code Memory :=
  if f.2.isForced then .ok f
  else if iequals name (ascii "Transfer-Encoding") ∧ f.1 = false then
    match f.2 with
    | .chunkedEncodingRead => .error .errorInvalidTransferEncoding
    | _ => .ok (f.1, .readingEncoding)
  else if iequals name (ascii "Content-Length") then
    match f.2 with
    | .connectionDelimited => .ok (f.1, .readingContentLength)
    | .contentLengthRead => .error .errorInvalidContentLength
    | _ => .ok f
  else .ok f

def onFieldValue (f : Memory) (bodySize : Nat) (value : Bytes) : Except Code (Memory × Nat) :=
  match f.2 with
  | .readingContentLength =>
    match Syntax.contentLengthDecode 64 value bodySize with
    | (.ok, n) => .ok ((f.1, .contentLengthRead), n)
    | (.invalid, _) => .error .errorInvalidContentLength
    | (.overflow, _) => .error .errorContentLengthOverflow
  | .readingEncoding =>
    match Detail.decodeTransferEncoding value with
    | .chunkedInvalid => .error .errorInvalidTransferEncoding
    | .chunkedNotFound => .ok ((f.1, .randomEncodingRead), bodySize)
    | .chunkedAtEnd => .ok ((f.1, .chunkedEncodingRead), bodySize)
  | _ => .ok (f, bodySize)

def onHeaders (f : Memory) (bodySize : Nat) : Except Code (Memory × Phase) :=
  match f.2 with
  | .randomEncodingRead | .connectionDelimited => .ok ((f.1, .forceNoBodyAndStop), .unsafeBody)
  | .forceNoBody | .forceNoBodyAndStop => .ok (f, .endOfBody)
  | .chunkedEncodingRead => .ok (f, .chunkSize)
  | .contentLengthRead => .ok (f, if bodySize = 0 then .endOfBody else .body)
  | _ => .error .errorInvalidData

def policy : Policy Memory where
  onVersion f c := (f.1 || c == 0x30, f.2)
  methodKnown f := f.2 != .unknownBody
  onFieldName := onFieldName
  onFieldValue := onFieldValue
  onHeaders := onHeaders
  onMessageEnd f :=
    ((f.1, .unknownBody),
      if f.2 = .forceNoBodyAndStop ∨ f.1 = true then .endOfConnectionError else .versionStaticStr)
  onTrailersEnd f := ((f.1, .unknownBody), .versionStaticStr)
  waits f n := f.2 == .contentLengthRead && n != 0

def Legal (s : Core Memory) : Prop :=
  (s.framing.2.isEncoded = true → s.framing.1 = false) ∧
  match s.phase with
  | .versionStaticStr | .responseVersion => s.framing = (false, .unknownBody)
  | .spAfterVersion | .statusCode | .endOfConnectionError => s.framing.2 = .unknownBody
  | .spAfterStatusCode =>
    s.framing.2 = .unknownBody ∨ s.framing.2 = .connectionDelimited ∨ s.framing.2.isForced = true
  | .reasonPhrase | .crlfAfterReasonPhrase =>
    s.framing.2 = .connectionDelimited ∨ s.framing.2.isForced = true
  | .fieldName | .crlfAfterFieldValue | .crlfAfterHeaders =>
    s.framing.2.isReading = false ∧ s.framing.2 ≠ .unknownBody
  | .colon | .owsAfterColon | .fieldValue => s.framing.2 ≠ .unknownBody
  | .body => s.framing.2 = .contentLengthRead ∧ s.bodySize ≠ 0
  | .unsafeBody => s.framing.2 = .forceNoBodyAndStop
  | .endOfBody | .endOfMessage =>
    s.framing.2.isForced = true ∨ s.framing.2 = .contentLengthRead ∧ s.bodySize = 0
  | .chunkData => s.framing.2 = .chunkedEncodingRead ∧ s.bodySize ≠ 0
  | .chunkSize | .chunkExt | .crlfAfterChunkExt | .crlfAfterChunkData | .trailerName
  | .trailerColon | .owsAfterTrailerColon | .trailerValue | .crlfAfterTrailerValue
  | .crlfAfterTrailers => s.framing.2 = .chunkedEncodingRead
  | _ => False

theorem Legal.phase_ne {s : Core Memory} (h : Legal s) : s.phase ≠ .errored := by
  intro hp
  simp [Legal, hp] at h

theorem Legal.goto {s : Core Memory} {q : Phase} (h : Legal s) (hq : s.phase.Resolves q) :
    Legal (s.goto q) := by
  obtain ⟨p, f, n⟩ := s
  cases hq <;> exact h

/-- A field name does not change the version. -/
theorem onFieldName_fst {f f' : Memory} {name : Bytes} (h : onFieldName f name = .ok f') :
    f'.1 = f.1 := by
  unfold onFieldName at h
  split at h
  · cases h; rfl
  · split at h
    · split at h <;> cases h
      rfl
    · split at h
      · split at h <;> cases h <;> rfl
      · cases h; rfl

theorem onFieldName_legal {f f' : Memory} {name : Bytes} (hf : f.2.isEncoded = true → f.1 = false)
    (hu : f.2 ≠ .unknownBody) (h : onFieldName f name = .ok f') :
    (f'.2.isEncoded = true → f'.1 = false) ∧ f'.2 ≠ .unknownBody := by
  unfold onFieldName at h
  split at h
  · cases h; exact ⟨hf, hu⟩
  · split at h
    · rename_i hte
      split at h <;> cases h
      exact ⟨fun _ => hte.2, nofun⟩
    · split at h
      · split at h <;> cases h
        · exact ⟨nofun, nofun⟩
        · exact ⟨hf, hu⟩
      · cases h; exact ⟨hf, hu⟩

theorem onFieldValue_legal {f f' : Memory} {n n' : Nat} {v : Bytes}
    (hf : f.2.isEncoded = true → f.1 = false) (hu : f.2 ≠ .unknownBody)
    (h : onFieldValue f n v = .ok (f', n')) :
    (f'.2.isEncoded = true → f'.1 = false) ∧ f'.2.isReading = false ∧ f'.2 ≠ .unknownBody := by
  obtain ⟨ver, b⟩ := f
  unfold onFieldValue at h
  cases b <;> simp only at h
  case readingContentLength =>
    split at h <;> cases h
    exact ⟨nofun, rfl, nofun⟩
  case readingEncoding =>
    split at h <;> cases h <;> exact ⟨fun _ => hf rfl, rfl, nofun⟩
  case unknownBody => exact absurd rfl hu
  all_goals
    cases h
    exact ⟨hf, rfl, nofun⟩

theorem onHeaders_legal {s : Core Memory} {f : Memory} {p : Phase}
    (hf : s.framing.2.isEncoded = true → s.framing.1 = false)
    (h : onHeaders s.framing s.bodySize = .ok (f, p)) : Legal { s with phase := p, framing := f } := by
  obtain ⟨q, ⟨ver, b⟩, n⟩ := s
  unfold onHeaders at h
  cases b <;> simp only at h <;> cases h
  case contentLengthRead =>
    by_cases hn : n = 0
    · simp [Legal, hn, BodyType.isEncoded]
    · simp [Legal, hn, BodyType.isEncoded]
  case chunkedEncodingRead => exact ⟨hf, rfl⟩
  case connectionDelimited | randomEncodingRead => exact ⟨nofun, rfl⟩
  case forceNoBody | forceNoBodyAndStop => exact ⟨nofun, .inl rfl⟩

theorem accept_legal {s s' : Core Memory} {raw : Bytes} {c : Code} (hs : Legal s)
    (hk : s.phase = .spAfterStatusCode → policy.methodKnown s.framing = true)
    (h : policy.accept s raw = .ok (s', c)) :
    Legal s' ∧ c.isError = false ∧ s'.phase ≠ .endOfConnectionError := by
  obtain ⟨p, ⟨ver, b⟩, n⟩ := s
  obtain ⟨hf, hs⟩ := hs
  unfold Policy.accept at h
  cases p <;> simp only [policy] at h hs
  case fieldName =>
    split at h <;> cases h
    rename_i f' hn
    exact ⟨onFieldName_legal hf hs.2 hn, rfl, nofun⟩
  case fieldValue =>
    split at h <;> cases h
    rename_i f' n' hv
    exact ⟨onFieldValue_legal hf hs hv, rfl, nofun⟩
  case crlfAfterHeaders =>
    split at h <;> cases h
    rename_i f' p' hv
    refine ⟨onHeaders_legal (s := ⟨.crlfAfterHeaders, (ver, b), n⟩) hf hv, rfl, ?_⟩
    intro hp
    unfold onHeaders at hv
    cases b <;> simp only at hv <;> cases hv <;> try cases hp
    by_cases hn : n = 0 <;> simp [hn] at hp
  case chunkSize =>
    split at h <;> cases h
    exact ⟨⟨hf, hs⟩, rfl, nofun⟩
  case crlfAfterChunkExt =>
    split at h
    · rename_i hn
      cases h
      exact ⟨⟨hf, hs, hn⟩, rfl, nofun⟩
    · cases h
      exact ⟨⟨hf, hs⟩, rfl, nofun⟩
  case crlfAfterTrailers =>
    cases h
    have hver : ver = false := hf (by rw [hs]; rfl)
    exact ⟨⟨nofun, by rw [hver]⟩, rfl, nofun⟩
  case responseVersion =>
    cases h
    have hb : b = .unknownBody := congrArg Prod.snd hs
    exact ⟨⟨by rw [hb]; nofun, hb⟩, rfl, nofun⟩
  case statusCode =>
    cases h
    exact ⟨⟨hf, .inl hs⟩, rfl, nofun⟩
  case spAfterStatusCode =>
    cases h
    have hu : b ≠ .unknownBody := by
      have := hk rfl
      simpa [policy] using this
    exact ⟨⟨hf, hs.resolve_left hu⟩, rfl, nofun⟩
  case crlfAfterReasonPhrase =>
    cases h
    refine ⟨⟨hf, ?_⟩, rfl, nofun⟩
    cases b <;> simp_all [BodyType.isForced, BodyType.isReading]
  all_goals first
    | (cases h; exact ⟨⟨hf, hs⟩, rfl, nofun⟩)
    | cases h

theorem emits_legal {s s' : Core Memory} {raw : Bytes} {c : Code} (hs : Legal s)
    (h : policy.Emits s raw c s') :
    Legal s' ∧ c.isError = false ∧ (s'.phase = .endOfConnectionError → raw = []) := by
  cases h with
  | lexeme _ hk _ ha =>
    obtain ⟨hl, hc, hp⟩ := accept_legal hs hk ha
    exact ⟨hl, hc, fun h => absurd h hp⟩
  | colon hv hp _ hq =>
    obtain ⟨p, f, n⟩ := s
    rcases hv with ⟨rfl, rfl, rfl⟩ | ⟨rfl, rfl, rfl⟩ <;> rcases hq with rfl | rfl <;>
      cases hp <;> exact ⟨hs, rfl, by simp⟩
  | ows hv hp _ =>
    refine ⟨hs, rfl, fun h => ?_⟩
    rcases hv with ⟨-, rfl, -⟩ | ⟨-, rfl, -⟩ <;> rw [hp] at h <;> cases h
  | body hb hp _ _ =>
    obtain ⟨p, f, n⟩ := s
    rcases hb with ⟨rfl, rfl⟩ | ⟨rfl, rfl⟩ <;> cases hp
    · have hf : f.2 = .contentLengthRead := hs.2.1
      by_cases hz : n - raw.length = 0 <;>
        simp [Legal, Core.deliver, hz, hf, BodyType.isEncoded, Code.isError, Symbol.convert]
    · have hf : f.2 = .chunkedEncodingRead := hs.2.1
      have hv : f.1 = false := hs.1 (by simp [hf, BodyType.isEncoded])
      by_cases hz : n - raw.length = 0 <;>
        simp [Legal, Core.deliver, hz, hf, hv, Code.isError, Symbol.convert]
  | unsafeBody hp _ => exact ⟨hs, rfl, fun h => by rw [hp] at h; cases h⟩
  | closed hp =>
    obtain ⟨p, f, n⟩ := s
    cases hp
    have hf : f.2 = .forceNoBodyAndStop := hs.2
    exact ⟨⟨hs.1, .inl (by simp [hf, BodyType.isForced])⟩, rfl, fun _ => rfl⟩
  | endOfBody hp =>
    obtain ⟨p, f, n⟩ := s
    cases hp
    exact ⟨hs, rfl, fun _ => rfl⟩
  | endOfMessage hp =>
    obtain ⟨p, ⟨ver, b⟩, n⟩ := s
    cases hp
    refine ⟨?_, rfl, fun _ => rfl⟩
    simp only [policy]
    by_cases hstop : b = .forceNoBodyAndStop ∨ ver = true
    · rw [if_pos hstop]
      exact ⟨by rintro ⟨⟩, rfl⟩
    · rw [if_neg hstop]
      have hv : ver = false := by
        cases ver
        · rfl
        · exact absurd (.inr rfl) hstop
      exact ⟨by rintro ⟨⟩, by rw [hv]⟩

/-! ## Codes -/

def errors : List Code :=
  [.errorInvalidData, .errorInvalidContentLength, .errorContentLengthOverflow,
    .errorInvalidTransferEncoding]

theorem onFieldName_error {f : Memory} {name : Bytes} {c : Code}
    (h : onFieldName f name = .error c) : c ∈ errors := by
  unfold onFieldName at h
  split at h
  · cases h
  · split at h
    · split at h <;> cases h
      decide
    · split at h
      · split at h <;> cases h
        decide
      · cases h

theorem onFieldValue_error {f : Memory} {n : Nat} {v : Bytes} {c : Code}
    (h : onFieldValue f n v = .error c) : c ∈ errors := by
  unfold onFieldValue at h
  split at h
  · split at h <;> cases h <;> decide
  · split at h <;> cases h
    decide
  · cases h

theorem onHeaders_error {f : Memory} {n : Nat} {c : Code} (h : onHeaders f n = .error c) :
    c ∈ errors := by
  unfold onHeaders at h
  split at h <;> cases h
  decide

theorem failsWith {E : Code → Prop} (h : ∀ c ∈ errors, E c) (hm : E .errorSetMethod)
    (ho : E .errorChunkSizeOverflow) : policy.FailsWith E :=
  ⟨fun he => h _ (onFieldName_error he), fun he => h _ (onFieldValue_error he),
    fun he => h _ (onHeaders_error he), fun _ => hm, h _ (by decide), ho⟩

theorem Legal.bodySize_ne {s : Core Memory} (h : Legal s)
    (hp : s.phase = .body ∨ s.phase = .chunkData) : s.bodySize ≠ 0 := by
  have h2 := h.2
  rcases hp with hp | hp <;> rw [hp] at h2 <;> exact h2.2

theorem keeps_policy : policy.Keeps Legal :=
  Policy.keeps_of Legal.phase_ne Legal.goto emits_legal Legal.bodySize_ne
    (failsWith (by decide) rfl rfl)

end Response

end BoostHttp
