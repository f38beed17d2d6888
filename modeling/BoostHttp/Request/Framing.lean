import BoostHttp.Lexer
import BoostHttp.Refines
import BoostHttp.Request

/-!
# Request.Framing — the framing policy of requests

What the request reader remembers of a head is the pair of its members `version` and `body_type`.
`policy` says how the parts of a head change it; `Legal` which of its values can occur where.
-/

open Incremental

namespace BoostHttp

namespace Request

/-- The members `version` and `body_type`. -/
abbrev Memory := Version × BodyType

def onFieldName (f : Memory) (name : Bytes) : Except Code Memory :=
  if iequals name (ascii "Host") then
    match f.1 with
    | .http10 => .ok f
    | .notHttp10AndHostNotRead => .ok (.notHttp10AndHostRead, f.2)
    | .notHttp10AndHostRead => .error .errorNoHost
  else if iequals name (ascii "Transfer-Encoding") then
    match f.2 with
    | .chunkedEncodingRead => .error .errorInvalidTransferEncoding
    | _ => .ok (f.1, .readingEncoding)
  else if iequals name (ascii "Content-Length") then
    match f.2 with
    | .noBody => .ok (f.1, .readingContentLength)
    | .contentLengthRead => .error .errorInvalidContentLength
    | _ => .ok f
  else .ok f

/-- The effect of a field value, which only matters after the names the framing depends on. -/
def onFieldValue (f : Memory) (bodySize : Nat) (value : Bytes) : Except Code (Memory × Nat) :=
  match f.2 with
  | .readingContentLength =>
    match Syntax.contentLengthDecode 64 value bodySize with
    | (.ok, n) => .ok ((f.1, .contentLengthRead), n)
    | (.invalid, _) => .error .errorInvalidContentLength
    | (.overflow, _) => .error .errorContentLengthOverflow
  | .readingEncoding =>
    match Detail.decodeTransferEncoding value with
    | .chunkedInvalid => .error .errorInvalidTransferEncoding
    | .chunkedNotFound => .ok ((f.1, .randomEncodingRead), bodySize)
    | .chunkedAtEnd => .ok ((f.1, .chunkedEncodingRead), bodySize)
  | _ => .ok (f, bodySize)

def onHeaders (f : Memory) (bodySize : Nat) : Except Code (Memory × Phase) :=
  if f.1 = .notHttp10AndHostNotRead then .error .errorNoHost
  else
    match f.2 with
    | .noBody => .ok (f, .endOfBody)
    | .chunkedEncodingRead => .ok (f, .chunkSize)
    | .contentLengthRead => .ok (f, if bodySize = 0 then .endOfBody else .body)
    | _ => .error .errorInvalidTransferEncoding

def policy : Policy Memory where
  onVersion f c := (if c = 0x30 then .http10 else .notHttp10AndHostNotRead, f.2)
  methodKnown _ := true
  onFieldName := onFieldName
  onFieldValue := onFieldValue
  onHeaders := onHeaders
  onMessageEnd f := ((f.1, .noBody), .method)
  onTrailersEnd f := ((f.1, .noBody), .method)
  waits _ _ := false

def BodyType.isReading : BodyType → Bool
  | .readingContentLength | .readingEncoding => true
  | _ => false

def Legal (s : Core Memory) : Prop :=
  match s.phase with
  | .method | .spAfterMethod | .requestTarget | .staticStrAfterTarget | .requestVersion
  | .crlfAfterVersion => s.framing.2 = .noBody
  | .fieldName | .crlfAfterFieldValue | .crlfAfterHeaders => s.framing.2.isReading = false
  | .colon | .owsAfterColon | .fieldValue => True
  | .body => s.framing.2 = .contentLengthRead ∧ s.bodySize ≠ 0
  | .endOfBody | .endOfMessage =>
    s.framing.2 = .noBody ∨ s.framing.2 = .contentLengthRead ∧ s.bodySize = 0
  | .chunkData => s.framing.2 = .chunkedEncodingRead ∧ s.bodySize ≠ 0
  | .chunkSize | .chunkExt | .crlfAfterChunkExt | .crlfAfterChunkData | .trailerName
  | .trailerColon | .owsAfterTrailerColon | .trailerValue | .crlfAfterTrailerValue
  | .crlfAfterTrailers => s.framing.2 = .chunkedEncodingRead
  | _ => False

theorem Legal.phase_ne {s : Core Memory} (h : Legal s) : s.phase ≠ .errored := by
  intro hp
  simp [Legal, hp] at h

theorem Legal.goto {s : Core Memory} {q : Phase} (h : Legal s) (hq : s.phase.Resolves q) :
    Legal (s.goto q) := by
  obtain ⟨p, f, n⟩ := s
  cases hq <;> exact h

theorem onFieldValue_not_reading {f f' : Memory} {n n' : Nat} {v : Bytes}
    (h : onFieldValue f n v = .ok (f', n')) : f'.2.isReading = false := by
  obtain ⟨ver, b⟩ := f
  unfold onFieldValue at h
  cases b <;> simp only at h
  case readingContentLength =>
    split at h <;> cases h
    rfl
  case readingEncoding =>
    split at h <;> cases h <;> rfl
  all_goals
    cases h
    rfl

theorem onHeaders_legal {s : Core Memory} {f : Memory} {p : Phase}
    (h : onHeaders s.framing s.bodySize = .ok (f, p)) : Legal { s with phase := p, framing := f } := by
  obtain ⟨q, ⟨ver, b⟩, n⟩ := s
  unfold onHeaders at h
  split at h
  · cases h
  · cases b <;> simp only at h <;> cases h
    · exact .inl rfl
    · by_cases hn : n = 0
      · simp [Legal, hn]
      · simp [Legal, hn]
    · rfl

theorem accept_legal {s s' : Core Memory} {raw : Bytes} {c : Code} (hs : Legal s)
    (h : policy.accept s raw = .ok (s', c)) : Legal s' ∧ c.isError = false := by
  obtain ⟨p, f, n⟩ := s
  unfold Policy.accept at h
  cases p <;> simp only [policy] at h
  case fieldName =>
    split at h <;> cases h
    exact ⟨trivial, rfl⟩
  case fieldValue =>
    split at h <;> cases h
    rename_i f' n' hv
    exact ⟨onFieldValue_not_reading hv, rfl⟩
  case crlfAfterHeaders =>
    split at h <;> cases h
    rename_i f' p' hv
    exact ⟨onHeaders_legal (s := ⟨.crlfAfterHeaders, f, n⟩) hv, rfl⟩
  case chunkSize =>
    split at h <;> cases h
    exact ⟨hs, rfl⟩
  case crlfAfterChunkExt =>
    split at h
    · rename_i hn
      cases h
      exact ⟨⟨hs, hn⟩, rfl⟩
    · cases h
      exact ⟨hs, rfl⟩
  case crlfAfterVersion =>
    cases h
    have hb : f.2 = .noBody := hs
    exact ⟨by simp [Legal, hb, BodyType.isReading], rfl⟩
  all_goals first
    | (cases h; exact ⟨hs, rfl⟩)
    | (cases h; exact ⟨rfl, rfl⟩)
    | (cases h; done)
    | cases hs

theorem emits_legal {s s' : Core Memory} {raw : Bytes} {c : Code} (hs : Legal s)
    (h : policy.Emits s raw c s') : Legal s' ∧ c.isError = false := by
  cases h with
  | lexeme _ _ _ ha => exact accept_legal hs ha
  | colon hv hp _ hq =>
    obtain ⟨p, f, n⟩ := s
    rcases hv with ⟨rfl, rfl, rfl⟩ | ⟨rfl, rfl, rfl⟩ <;> rcases hq with rfl | rfl <;>
      cases hp <;> exact ⟨hs, rfl⟩
  | ows => exact ⟨hs, rfl⟩
  | body hb hp _ _ =>
    obtain ⟨p, f, n⟩ := s
    refine ⟨?_, rfl⟩
    rcases hb with ⟨rfl, rfl⟩ | ⟨rfl, rfl⟩ <;> cases hp
    · have hf : f.2 = .contentLengthRead := hs.1
      by_cases hz : n - raw.length = 0 <;> simp [Legal, Core.deliver, hz, hf]
    · have hf : f.2 = .chunkedEncodingRead := hs.1
      by_cases hz : n - raw.length = 0 <;> simp [Legal, Core.deliver, hz, hf]
  | unsafeBody hp => obtain ⟨p, f, n⟩ := s; cases hp; cases hs
  | closed hp => obtain ⟨p, f, n⟩ := s; cases hp; cases hs
  | endOfBody hp => obtain ⟨p, f, n⟩ := s; cases hp; exact ⟨hs, rfl⟩
  | endOfMessage hp => obtain ⟨p, f, n⟩ := s; cases hp; exact ⟨rfl, rfl⟩

/-! ## Codes -/

def errors : List Code :=
  [.errorNoHost, .errorInvalidContentLength, .errorContentLengthOverflow,
    .errorInvalidTransferEncoding]

theorem onFieldName_error {f : Memory} {name : Bytes} {c : Code}
    (h : onFieldName f name = .error c) : c ∈ errors := by
  unfold onFieldName at h
  split at h
  · split at h <;> cases h
    decide
  · split at h
    · split at h <;> cases h
      decide
    · split at h
      · split at h <;> cases h
        decide
      · cases h

theorem onFieldValue_error {f : Memory} {n : Nat} {v : Bytes} {c : Code}
    (h : onFieldValue f n v = .error c) : c ∈ errors := by
  unfold onFieldValue at h
  split at h
  · split at h <;> cases h <;> decide
  · split at h <;> cases h
    decide
  · cases h

theorem onHeaders_error {f : Memory} {n : Nat} {c : Code} (h : onHeaders f n = .error c) :
    c ∈ errors := by
  unfold onHeaders at h
  split at h
  · cases h; decide
  · split at h <;> cases h
    decide

theorem failsWith {E : Code → Prop} (h : ∀ c ∈ errors, E c) (hi : E .errorInvalidData)
    (ho : E .errorChunkSizeOverflow) : policy.FailsWith E :=
  ⟨fun he => h _ (onFieldName_error he), fun he => h _ (onFieldValue_error he),
    fun he => h _ (onHeaders_error he), nofun, hi, ho⟩

theorem Legal.bodySize_ne {s : Core Memory} (h : Legal s)
    (hp : s.phase = .body ∨ s.phase = .chunkData) : s.bodySize ≠ 0 := by
  unfold Legal at h
  rcases hp with hp | hp <;> rw [hp] at h <;> exact h.2

theorem keeps_policy : policy.Keeps Legal := by
  refine Policy.keeps_of Legal.phase_ne Legal.goto ?_ Legal.bodySize_ne
    (failsWith (by decide) rfl rfl)
  intro s raw c s' hs h
  obtain ⟨hl, hc⟩ := emits_legal hs h
  refine ⟨hl, hc, fun hp => ?_⟩
  simp [Legal, hp] at hl

end Request

end BoostHttp
