import BoostHttp.Objections
import BoostHttp.Response.Acceptance

/-!
# Response.Rejection — why the response reader rejects a head

There is nothing to reject where the method and the status code rule out a body, nor at the end of
the headers.  What there is against a field is what the request reader has against it, but a version
of 1.0 switches the encodings off, and the host plays no part.
-/

open Incremental

namespace BoostHttp

namespace Response

def memory (digit : UInt8) (pre : List Field) : Memory :=
  (digit == 0x30, bodyOf (Mode.of (digit != 0x30) pre))

def objection (digit : UInt8) : List Field → Field → Option Objection :=
  bodyObjection (digit != 0x30)

theorem onFieldName_encodes {digit : UInt8} {x : Field} (h : x.encodes (digit != 0x30) = true)
    (m : Mode) : onFieldName (digit == 0x30, bodyOf m) x.name =
      if m = .chunked then .error .errorInvalidTransferEncoding
      else .ok (digit == 0x30, .readingEncoding) := by
  simp only [Field.encodes, Bool.and_eq_true, bne_iff_ne] at h
  obtain ⟨hd, hx⟩ := h
  have hencoding : iequals x.name (ascii "Transfer-Encoding") = true := hx
  cases m <;> simp [onFieldName, bodyOf, BodyType.isForced, hencoding, hd]

theorem onFieldName_length {digit : UInt8} {x : Field} (h : x.encodes (digit != 0x30) = false)
    (hl : x.isLength = true) (m : Mode) : onFieldName (digit == 0x30, bodyOf m) x.name =
      if m = .unknown then .ok (digit == 0x30, .readingContentLength)
      else if m = .counted then .error .errorInvalidContentLength
      else .ok (digit == 0x30, bodyOf m) := by
  have hlength : iequals x.name (ascii "Content-Length") = true := hl
  have hencoding : ¬ (iequals x.name (ascii "Transfer-Encoding") = true ∧ (digit == 0x30) = false) := by
    rintro ⟨hx, hd⟩
    have hx : x.isEncoding = true := hx
    simp [Field.encodes, hx, bne, hd] at h
  unfold onFieldName
  rw [if_neg (by cases m <;> simp [bodyOf, BodyType.isForced]), if_neg hencoding, if_pos hlength]
  cases m <;> rfl

theorem objects (digit : UInt8) : policy.Objects (memory digit) (objection digit) where
  accepted n h := by
    obtain ⟨n', hstep⟩ := step_of n h
    exact ⟨n', readField_iff.mpr ⟨_, _, hstep, rfl⟩⟩
  name h := by
    rcases bodyObjection_cases h with
      ⟨henc, ⟨hm, ho⟩ | ⟨-, -, ho⟩⟩ | ⟨henc, hl, ⟨hm, ho⟩ | ⟨-, d, -, ho⟩⟩ <;> cases ho
    · exact (onFieldName_encodes henc _).trans (if_pos hm)
    · exact (onFieldName_length henc hl _).trans (by rw [hm]; rfl)
  value n h := by
    rcases bodyObjection_cases h with
      ⟨henc, ⟨-, ho⟩ | ⟨hm, hd, ho⟩⟩ | ⟨henc, hl, ⟨-, ho⟩ | ⟨hm, d, hd, ho⟩⟩ <;> cases ho
    · refine ⟨_, (onFieldName_encodes henc _).trans (if_neg hm), ?_⟩
      simp [policy, onFieldValue, hd]
    · refine ⟨_, (onFieldName_length henc hl _).trans (if_pos hm), ?_⟩
      obtain ⟨k, ⟨hk, rfl⟩ | ⟨hk, rfl⟩⟩ := lengthError_some hd n <;>
        simp [policy, onFieldValue, hk]

theorem onHeaders_memory (digit : UInt8) (xs : List Field) (n : Nat) :
    ∃ r, onHeaders (memory digit xs) n = .ok r := by
  unfold onHeaders memory
  cases Mode.of (digit != 0x30) xs <;> simp [bodyOf]

theorem memory_nil (digit : UInt8) : memory digit [] = (digit == 0x30, .connectionDelimited) := by
  simp [memory, Mode.of, encodings, lengths, bodyOf]

/-- The fields that there is nothing against are those that are accepted. -/
theorem accepts_iff_faultless (digit : UInt8) (xs : List Field) :
    Accepts digit xs ↔ Faultless (objection digit) [] xs := by
  rw [← headers_ok_iff digit 0 xs, ← memory_nil]
  constructor
  · rintro ⟨s', h⟩
    exact (objects digit).of_headers h
  · intro h
    obtain ⟨n', hheaders⟩ := (objects digit).headers 0 h
    obtain ⟨r, hok⟩ := onHeaders_memory digit xs n'
    rw [hheaders, show policy.onHeaders (memory digit xs) n' = .ok r from hok]
    exact ⟨_, rfl⟩

/-- The lexer on a head with a field that is objected to, behind fields that are not. -/
theorem runs_objected {methods : Nat → Bytes} {b : Bool} {p n j : Nat} {rest : Bytes} (g : Head)
    {x : Field} (e : Eol) {o : Objection} (hb : ¬ Bodiless (methods j) g.code)
    (hg : Faultless (objection g.digit) [] g.headers)
    (hx : objection g.digit g.headers x = some o) :
    (lexer methods).Runs b p (⟨.versionStaticStr, (false, .unknownBody), n⟩, j)
      (g.line ++ (blockBytes g.fields ++ (x.bytes e ++ rest)))
      (g.lineEvents p ++ (blockEvents .fieldName .fieldValue (p + g.line.length) g.fields ++
        o.events (p + g.line.length + (blockBytes g.fields).length) x)) := by
  obtain ⟨hmemory, hsize⟩ := memory_of_not_bodiless (n := n) hb
  refine leads_statusLine g _ ?_
  rw [hmemory, hsize, ← memory_nil]
  exact (objects g.digit).runs e hg hx

/-- However a client drives a reader that expects a response, when the method and the status code do
not rule out a body then the fields of the head are reported up to the first one that there is
something against, then the error that tells what it is, and nothing more. -/
theorem response_rejection (mem : Nat → UInt8) (S rest : Bytes) (methods : Nat → Bytes)
    (bodySize : Nat) (ops₀ ops : List (Op Call)) (s₀ : Run) (g : Head) (x : Field) (e : Eol)
    (o : Objection)
    (h₀ : (attentiveSession mem methods S).play (fresh bodySize) ops₀ = .ok s₀)
    (hstate : s₀.reader.state = .expectVersionStaticStr)
    (hS : S.drop s₀.pass.consumed = g.line ++ (blockBytes g.fields ++ (x.bytes e ++ rest)))
    (hb : ¬ Bodiless (methods (statusCodes s₀)) g.code)
    (hg : Faultless (objection g.digit) [] g.headers)
    (hx : objection g.digit g.headers x = some o)
    (h : (attentiveSession mem methods S).conforming (fresh bodySize) (ops₀ ++ ops) = true) :
    (∀ xs, Accepts g.digit xs ↔ Faultless (objection g.digit) [] xs) ∧
    ∃ s log, (attentiveSession mem methods S).play (fresh bodySize) (ops₀ ++ ops) = .ok s ∧
      s.emitted = s₀.emitted ++ log ∧ (complete mem S s = true →
        s.reader.code = o.code ∧ events log = g.lineEvents s₀.pass.consumed ++
          (blockEvents .fieldName .fieldValue (s₀.pass.consumed + g.line.length) g.fields ++
            o.events (s₀.pass.consumed + g.line.length + (blockBytes g.fields).length) x)) := by
  refine ⟨accepts_iff_faultless g.digit, ?_⟩
  obtain ⟨s, log, hplay, ht₀, -, hlog, -, hruns⟩ := play_adds h₀ (by rw [hstate]; decide) h
  have hfatal := Session.fatal_of_play (lawful mem) (tracks_fresh bodySize S) (by rintro e ⟨⟩) h
    hplay
  refine ⟨s, log, hplay, hlog, fun hc => ?_⟩
  have hr := hruns hc
  rw [hS, pending_eq ht₀.sound (by rw [hstate]; decide), core_start ht₀.sound hstate] at hr
  have hevents := hr.unique (runs_objected g e hb hg hx)
  have hfatalCode := (objects g.digit).fails fatal_policy hx
  refine ⟨Session.code_of_events hfatal hlog hfatalCode ?_, hevents⟩
  rw [hevents, List.any_append, List.any_append, o.shows_code hfatalCode]
  simp

theorem encoding_ne : ascii "transfer-encoding" ≠ [] := by decide

theorem encoding_chars : ∀ c ∈ ascii "transfer-encoding", c ∈ Alphabet.token := by decide +kernel

def chunkedField : Field :=
  ⟨ascii "transfer-encoding", ascii " chunked", encoding_ne, encoding_chars, by decide +kernel⟩

def chunkedHead : Head where
  digit := 0x31
  status := ascii "200"
  reason := ascii "OK"
  eol := .crlf
  fields := [(chunkedField, .crlf)]
  lastEol := .crlf
  digit_isDigit := isDigit_one
  status_length := ok_length
  status_digits := ok_digits
  reason_chars := ok_chars

theorem faultless_chunkedHead : Faultless (objection chunkedHead.digit) [] chunkedHead.headers :=
  ⟨by decide +kernel, trivial⟩

/-- An encoding behind a chunked one, with a cut in the first of them. -/
theorem response_rejection_encoding :
    let S := chunkedHead.line ++ (blockBytes chunkedHead.fields ++
      (chunkedField.bytes .lf ++ ascii "\r\n"))
    let ops : List (Op Call) := List.flatten [[.setBuffer 42], List.replicate 3 .next,
      [.call (.setMethod (ascii "GET"))], List.replicate 7 .next, [.setBuffer 38],
      List.replicate 3 .next]
    ∃ s log, (attentiveSession (fun _ => 0) (fun _ => ascii "GET") S).play (fresh 0) ops = .ok s ∧
      s.reader.code = .errorInvalidTransferEncoding ∧ s.emitted = log ∧
      events log = chunkedHead.lineEvents 0 ++
        (blockEvents .fieldName .fieldValue 17 chunkedHead.fields ++
          [.token 45 ⟨.errorInvalidTransferEncoding, 0, .none⟩]) := by
  intro S ops
  obtain ⟨-, s, log, h, hlog, hread⟩ := response_rejection (fun _ => 0) S (ascii "\r\n")
    (fun _ => ascii "GET") 0 [] ops (fresh 0) chunkedHead chunkedField .lf
    ⟨.errorInvalidTransferEncoding, true⟩ rfl rfl rfl (by decide +kernel) faultless_chunkedHead
    (by decide +kernel) (by decide +kernel)
  have hc : (attentiveSession (fun _ => 0) (fun _ => ascii "GET") S).ends (fresh 0) ([] ++ ops)
      (complete (fun _ => 0) S) = true := by decide +kernel
  rw [Guarded.ends_eq h] at hc
  obtain ⟨hcode, hevents⟩ := hread hc
  exact ⟨s, log, h, hcode, hlog, hevents⟩

end Response

end BoostHttp
