import BoostHttp.Incremental.Machine
import BoostHttp.Incremental.Scan
import BoostHttp.Decode
import BoostHttp.Field

/-!
# Message — HTTP messages as a lexical grammar and a framing policy

What a reader does with a stream has two parts.  The *lexical grammar* says which bytes make up the
next token; it is the same for requests and responses once the start line is read.  The *framing
policy* says what the fields mean for the end of the message.  `lex` is the grammar for an
arbitrary policy: the state is the place in the message (`Phase`), what the policy remembers, and
the number of body bytes that are still to come.
-/

open Incremental

namespace BoostHttp

inductive Phase where
  | errored
  -- request line
  | method
  | spAfterMethod
  | requestTarget
  | staticStrAfterTarget
  | requestVersion
  | crlfAfterVersion
  -- status line
  | versionStaticStr
  | responseVersion
  | spAfterVersion
  | statusCode
  | spAfterStatusCode
  | reasonPhrase
  | crlfAfterReasonPhrase
  -- header fields
  | fieldName
  | colon
  | owsAfterColon
  | fieldValue
  | crlfAfterFieldValue
  | crlfAfterHeaders
  -- body and end of the message
  | body
  | unsafeBody
  | endOfBody
  | endOfMessage
  | endOfConnectionError
  -- chunks and trailers
  | chunkSize
  | chunkExt
  | crlfAfterChunkExt
  | chunkData
  | crlfAfterChunkData
  | trailerName
  | trailerColon
  | owsAfterTrailerColon
  | trailerValue
  | crlfAfterTrailerValue
  | crlfAfterTrailers
  deriving DecidableEq, Repr

structure Core (φ : Type) where
  phase : Phase
  framing : φ
  bodySize : Nat
  deriving DecidableEq, Repr

structure Policy (φ : Type) where
  onVersion : φ → UInt8 → φ
  /-- Whether the request method, on which the framing of a response depends, has been given. -/
  methodKnown : φ → Bool
  onFieldName : φ → Bytes → Except Code φ
  onFieldValue : φ → Nat → Bytes → Except Code (φ × Nat)
  onHeaders : φ → Nat → Except Code (φ × Phase)
  /-- The state for the next message, after a message without trailers and after trailers. -/
  onMessageEnd : φ → φ × Phase
  onTrailersEnd : φ → φ × Phase
  /-- Whether the end of the input leaves a counted body incomplete. -/
  waits : φ → Nat → Bool

namespace Core

variable {φ : Type}

def goto (s : Core φ) (phase : Phase) : Core φ := { s with phase := phase }

def deliver (s : Core φ) (done : Phase) (n : Nat) : Core φ :=
  { s with
    bodySize := s.bodySize - n
    phase := if s.bodySize - n = 0 then done else s.phase }

@[simp] theorem goto_phase (s : Core φ) (p : Phase) : (s.goto p).phase = p := rfl
@[simp] theorem goto_framing (s : Core φ) (p : Phase) : (s.goto p).framing = s.framing := rfl
@[simp] theorem goto_bodySize (s : Core φ) (p : Phase) : (s.goto p).bodySize = s.bodySize := rfl
@[simp] theorem goto_goto (s : Core φ) (p q : Phase) : (s.goto p).goto q = s.goto q := rfl

theorem goto_self {s : Core φ} {q : Phase} (h : s.phase = q) : s.goto q = s := by
  cases s; subst h; rfl

theorem deliver_phase_of_lt {s : Core φ} (done : Phase) {n : Nat} (h : n < s.bodySize) :
    (s.deliver done n).phase = s.phase := if_neg (by omega)

theorem deliver_deliver {s : Core φ} (done : Phase) {m : Nat} (h : m < s.bodySize) (n : Nat) :
    (s.deliver done m).deliver done n = s.deliver done (m + n) := by
  have hne : ¬ s.bodySize - m = 0 := by omega
  simp only [deliver, if_neg hne, Nat.sub_sub]

end Core

/-! ## Lexemes -/

def CR : UInt8 := 0x0D
def LF : UInt8 := 0x0A
def CRLF : Bytes := [CR, LF]

def lineEnd : Bytes → Scan
  | [] => .need
  | [c] => if c = LF then .ok 1 else if c = CR then .need else .bad
  | c :: d :: _ => if c = LF then .ok 1 else if c = CR ∧ d = LF then .ok 2 else .bad

/-- What a line end looks like, and what decides against one. -/
theorem lineEnd_cases (w : Bytes) :
    (lineEnd w = .need ∧ (w = [] ∨ w = [CR])) ∨
      (∃ x, w = LF :: x ∧ lineEnd w = .ok 1) ∨
      (∃ x, w = CR :: LF :: x ∧ lineEnd w = .ok 2) ∨
      lineEnd w = .bad ∧ ∀ x, lineEnd (w ++ x) = .bad := by
  match w with
  | [] => exact .inl ⟨rfl, .inl rfl⟩
  | [c] =>
    by_cases hlf : c = LF
    · exact .inr (.inl ⟨[], by rw [hlf], by rw [lineEnd, if_pos hlf]⟩)
    · by_cases hcr : c = CR
      · exact .inl ⟨by rw [lineEnd, if_neg hlf, if_pos hcr], .inr (by rw [hcr])⟩
      · refine .inr (.inr (.inr ⟨by rw [lineEnd, if_neg hlf, if_neg hcr], fun x => ?_⟩))
        cases x <;> simp [lineEnd, hlf, hcr]
  | c :: d :: w =>
    by_cases hlf : c = LF
    · exact .inr (.inl ⟨d :: w, by rw [hlf], by rw [lineEnd, if_pos hlf]⟩)
    · by_cases hcd : c = CR ∧ d = LF
      · refine .inr (.inr (.inl ⟨w, by rw [hcd.1, hcd.2], ?_⟩))
        rw [lineEnd, if_neg hlf, if_pos hcd]
      · have hbad : ∀ x, lineEnd (c :: d :: x) = .bad := fun x => by
          rw [lineEnd, if_neg hlf, if_neg hcd]
        exact .inr (.inr (.inr ⟨hbad w, fun x => hbad (w ++ x)⟩))

theorem lineEnd_ok {w : Bytes} {n : Nat} (h : lineEnd w = .ok n) : n = 1 ∨ n = 2 := by
  rcases lineEnd_cases w with ⟨hw, -⟩ | ⟨x, -, hw⟩ | ⟨x, -, hw⟩ | ⟨hw, -⟩ <;> rw [hw] at h <;> cases h
  · exact .inl rfl
  · exact .inr rfl

theorem stable_lineEnd : Stable lineEnd where
  le {w n} h := by
    rcases lineEnd_cases w with ⟨hw, -⟩ | ⟨x, rfl, hw⟩ | ⟨x, rfl, hw⟩ | ⟨hw, -⟩ <;> rw [hw] at h <;>
      cases h
    · simp
    · simp
  ok {w n} h y := by
    rcases lineEnd_cases w with ⟨hw, -⟩ | ⟨x, rfl, hw⟩ | ⟨x, rfl, hw⟩ | ⟨hw, -⟩ <;> rw [hw] at h <;>
      cases h
    · cases x <;> cases y <;> rfl
    · rfl
  bad {w} h y := by
    rcases lineEnd_cases w with ⟨hw, -⟩ | ⟨x, -, hw⟩ | ⟨x, -, hw⟩ | ⟨-, hbad⟩
    · rw [hw] at h
      cases h
    · rw [hw] at h
      cases h
    · rw [hw] at h
      cases h
    · exact hbad y

/-- The lexeme of a phase, for the phases whose tokens do not depend on how much can be seen. -/
def Phase.scan : Phase → Bytes → Scan
  | .method | .fieldName | .trailerName => spanned Detail.isTchar fun n _ => n != 0
  | .requestTarget => spanned Detail.isRequestTargetChar fun n _ => n != 0
  | .spAfterMethod | .spAfterVersion | .spAfterStatusCode => fixed 1 (·.all Detail.isSp)
  | .staticStrAfterTarget => literal (ascii " HTTP/1.")
  | .versionStaticStr => literal (ascii "HTTP/1.")
  | .requestVersion | .responseVersion => fixed 1 (·.all Syntax.isDigit)
  | .statusCode => fixed 3 (·.all Syntax.isDigit)
  | .reasonPhrase => spanned Syntax.isReasonPhraseChar fun _ _ => true
  | .fieldValue | .trailerValue => spanned Syntax.isFieldValueChar fun _ _ => true
  | .crlfAfterVersion | .crlfAfterReasonPhrase | .crlfAfterFieldValue | .crlfAfterHeaders => lineEnd
  | .chunkSize => spanned Syntax.isHexdigit fun n _ => n != 0
  | .chunkExt => spanned Detail.isChunkExtChar fun _ c => c == CR
  | .crlfAfterChunkExt | .crlfAfterChunkData | .crlfAfterTrailerValue | .crlfAfterTrailers =>
    fixed 2 (· == CRLF)
  | _ => fun _ => .need

theorem Phase.stable_scan (p : Phase) : Stable p.scan := by
  have hneed : Stable (fun _ : Bytes => Scan.need) := ⟨nofun, nofun, nofun⟩
  cases p <;> simp only [Phase.scan] <;>
    first
    | exact stable_spanned _ _
    | exact stable_fixed _ _
    | exact stable_literal _
    | exact stable_lineEnd
    | exact hneed

/-- The first byte can show that the expected part is absent: a block of fields ends, a value has no
whitespace before it, a chunk has no extension. -/
def Phase.resolve (p : Phase) (c : UInt8) : Phase :=
  match p with
  | .fieldName => if Detail.isTchar c then .fieldName else .crlfAfterHeaders
  | .owsAfterColon => if Detail.isOws c then .owsAfterColon else .fieldValue
  | .chunkExt => if c = CR then .crlfAfterChunkExt else .chunkExt
  | .trailerName => if Detail.isTchar c then .trailerName else .crlfAfterTrailers
  | .owsAfterTrailerColon => if Detail.isOws c then .owsAfterTrailerColon else .trailerValue
  | p => p

theorem Phase.resolve_resolve (p : Phase) (c : UInt8) : (p.resolve c).resolve c = p.resolve c := by
  cases p with
  | fieldName => by_cases h : Detail.isTchar c = true <;> simp [Phase.resolve, h]
  | owsAfterColon => by_cases h : Detail.isOws c = true <;> simp [Phase.resolve, h]
  | chunkExt => by_cases h : c = CR <;> simp [Phase.resolve, h]
  | trailerName => by_cases h : Detail.isTchar c = true <;> simp [Phase.resolve, h]
  | owsAfterTrailerColon => by_cases h : Detail.isOws c = true <;> simp [Phase.resolve, h]
  | _ => rfl

/-! Which bytes leave a phase as it is. -/

theorem Phase.resolve_fieldName_iff (c : UInt8) :
    Phase.fieldName.resolve c = .fieldName ↔ Detail.isTchar c = true := by
  simp [Phase.resolve]

theorem Phase.resolve_owsAfterColon_iff (c : UInt8) :
    Phase.owsAfterColon.resolve c = .owsAfterColon ↔ Detail.isOws c = true := by
  simp [Phase.resolve]

theorem Phase.resolve_chunkExt_iff (c : UInt8) : Phase.chunkExt.resolve c = .chunkExt ↔ c ≠ CR := by
  simp [Phase.resolve]

theorem Phase.resolve_trailerName_iff (c : UInt8) :
    Phase.trailerName.resolve c = .trailerName ↔ Detail.isTchar c = true := by
  simp [Phase.resolve]

theorem Phase.resolve_owsAfterTrailerColon_iff (c : UInt8) :
    Phase.owsAfterTrailerColon.resolve c = .owsAfterTrailerColon ↔ Detail.isOws c = true := by
  simp [Phase.resolve]

def Phase.isElastic : Phase → Bool
  | .colon | .trailerColon | .owsAfterColon | .owsAfterTrailerColon | .body | .chunkData
  | .unsafeBody => true
  | _ => false

def Phase.isZeroSized : Phase → Bool
  | .endOfBody | .endOfMessage | .endOfConnectionError => true
  | _ => false

/-! ## The lexer -/

section Lex

variable {φ : Type} (P : Policy φ)

def Policy.accept (s : Core φ) (raw : Bytes) : Except Code (Core φ × Code) :=
  match s.phase with
  | .method => .ok (s.goto .spAfterMethod, .method)
  | .spAfterMethod => .ok (s.goto .requestTarget, .skip)
  | .requestTarget => .ok (s.goto .staticStrAfterTarget, .requestTarget)
  | .staticStrAfterTarget => .ok (s.goto .requestVersion, .skip)
  | .requestVersion =>
    .ok ({ s with phase := .crlfAfterVersion, framing := P.onVersion s.framing (raw.headD 0) },
      .version)
  | .crlfAfterVersion => .ok (s.goto .fieldName, .skip)
  | .versionStaticStr => .ok (s.goto .responseVersion, .skip)
  | .responseVersion =>
    .ok ({ s with phase := .spAfterVersion, framing := P.onVersion s.framing (raw.headD 0) },
      .version)
  | .spAfterVersion => .ok (s.goto .statusCode, .skip)
  | .statusCode => .ok (s.goto .spAfterStatusCode, .statusCode)
  | .spAfterStatusCode => .ok (s.goto .reasonPhrase, .skip)
  | .reasonPhrase => .ok (s.goto .crlfAfterReasonPhrase, .reasonPhrase)
  | .crlfAfterReasonPhrase => .ok (s.goto .fieldName, .skip)
  | .fieldName =>
    match P.onFieldName s.framing raw with
    | .error c => .error c
    | .ok f => .ok ({ s with phase := .colon, framing := f }, .fieldName)
  | .fieldValue =>
    match P.onFieldValue s.framing s.bodySize (Detail.trimTail raw) with
    | .error c => .error c
    | .ok (f, n) =>
      .ok ({ phase := .crlfAfterFieldValue, framing := f, bodySize := n }, .fieldValue)
  | .crlfAfterFieldValue => .ok (s.goto .fieldName, .skip)
  | .crlfAfterHeaders =>
    match P.onHeaders s.framing s.bodySize with
    | .error c => .error c
    | .ok (f, p) => .ok ({ s with phase := p, framing := f }, .endOfHeaders)
  | .chunkSize =>
    match Syntax.chunkSizeDecode 64 raw s.bodySize with
    | (.ok, n) => .ok ({ s with phase := .chunkExt, bodySize := n }, .skip)
    | (.overflow, _) => .error .errorChunkSizeOverflow
    | (.invalid, _) => .error .errorInvalidData
  | .chunkExt => .ok (s.goto .crlfAfterChunkExt, .chunkExt)
  | .crlfAfterChunkExt =>
    if s.bodySize ≠ 0 then .ok (s.goto .chunkData, .skip) else .ok (s.goto .trailerName, .endOfBody)
  | .crlfAfterChunkData => .ok (s.goto .chunkSize, .skip)
  | .trailerName => .ok (s.goto .trailerColon, .trailerName)
  | .trailerValue => .ok (s.goto .crlfAfterTrailerValue, .trailerValue)
  | .crlfAfterTrailerValue => .ok (s.goto .trailerName, .skip)
  | .crlfAfterTrailers =>
    .ok ({ s with phase := (P.onTrailersEnd s.framing).2, framing := (P.onTrailersEnd s.framing).1 },
      .endOfMessage)
  | _ => .error .errorInvalidData

/-- The token of a phase with a lexeme of its own.  After a status code nothing is read before the
method is known. -/
def Policy.scanned (s : Core φ) (w : Bytes) : Out (Core φ) Code :=
  if s.phase = .spAfterStatusCode ∧ P.methodKnown s.framing = false then .fail .errorSetMethod
  else
    match s.phase.scan w with
    | .need => .need s
    | .bad => .fail .errorInvalidData
    | .ok n =>
      match P.accept s (w.take n) with
      | .error c => .fail c
      | .ok (s', c) => .emit s' n c

def lexColon (s : Core φ) (ows value : Phase) (c : UInt8) (w : Bytes) : Out (Core φ) Code :=
  if c ≠ 0x3A then .fail .errorInvalidData
  else
    .emit (s.goto (if (w.dropWhile Detail.isOws).isEmpty then ows else value))
      ((w.takeWhile Detail.isOws).length + 1) .skip

def lexBody (s : Core φ) (done : Phase) (w : Bytes) : Out (Core φ) Code :=
  .emit (s.deliver done (min w.length s.bodySize)) (min w.length s.bodySize) .bodyChunk

def Policy.lexeme (s : Core φ) (c : UInt8) (w : Bytes) : Out (Core φ) Code :=
  match s.phase with
  | .colon => lexColon s .owsAfterColon .fieldValue c w
  | .trailerColon => lexColon s .owsAfterTrailerColon .trailerValue c w
  | .owsAfterColon | .owsAfterTrailerColon =>
    .emit s ((c :: w).takeWhile Detail.isOws).length .skip
  | .body => lexBody s .endOfBody (c :: w)
  | .chunkData => lexBody s .crlfAfterChunkData (c :: w)
  | .unsafeBody => .emit s (c :: w).length .bodyChunk
  | _ => P.scanned s (c :: w)

def Policy.atEof (s : Core φ) : Out (Core φ) Code :=
  if P.waits s.framing s.bodySize then .need s
  else if s.phase = .unsafeBody then .emit (s.goto .endOfMessage) 0 .endOfBody
  else .fail .errorUseAnotherConnection

/-- What a reader makes of the bytes `w` it can see; `eof` says that no more will follow. -/
def Policy.lex (eof : Bool) (s : Core φ) (w : Bytes) : Out (Core φ) Code :=
  match s.phase with
  | .endOfBody => .emit (s.goto .endOfMessage) 0 .endOfBody
  | .endOfMessage =>
    .emit { s with
      phase := (P.onMessageEnd s.framing).2, framing := (P.onMessageEnd s.framing).1 }
      0 .endOfMessage
  | .endOfConnectionError => .fail .errorUseAnotherConnection
  | _ =>
    match w with
    | [] => if eof then P.atEof s else .need s
    | c :: w => P.lexeme (s.goto (s.phase.resolve c)) c w

end Lex

end BoostHttp
