import BoostHttp.Objections
import BoostHttp.Request.Acceptance

/-!
# Request.Rejection — why the request reader rejects a head

Of the fields up to the first one that is objected to nothing is lost, and the error tells what is
wrong with that field; only a missing host and a body without an end are found at the end of the
headers.
-/

open Incremental

namespace BoostHttp

namespace Request

def hostVersion (digit : UInt8) (pre : List Field) : Version :=
  if digit = 0x30 then .http10
  else if pre.any Field.isHost then .notHttp10AndHostRead
  else .notHttp10AndHostNotRead

def memory (digit : UInt8) (pre : List Field) : Memory :=
  (hostVersion digit pre, bodyOf (Mode.of true pre))

def objection (digit : UInt8) (pre : List Field) (x : Field) : Option Objection :=
  if x.isHost then
    if digit ≠ 0x30 ∧ pre.any Field.isHost then some ⟨.errorNoHost, true⟩ else none
  else bodyObjection true pre x

def endObjection (digit : UInt8) (xs : List Field) : Option Code :=
  if digit ≠ 0x30 ∧ ¬ xs.any Field.isHost then some .errorNoHost
  else if Mode.of true xs = .encoded then some .errorInvalidTransferEncoding
  else none

/-- A field that there is nothing against changes the version as it should. -/
theorem hostStep_of (digit : UInt8) (pre : List Field) (x : Field)
    (h : x.isHost = true → digit ≠ 0x30 → pre.any Field.isHost = false) :
    hostStep (hostVersion digit pre) x = some (hostVersion digit (pre ++ [x])) := by
  unfold hostStep hostVersion
  cases hx : x.isHost with
  | false => simp [hx]
  | true =>
    by_cases hd : digit = 0x30
    · simp [hd]
    · simp [hd, h hx hd, hx]

section Names

variable {v : Version} {x : Field}

theorem onFieldName_encoding (h : x.isEncoding = true) (m : Mode) :
    onFieldName (v, bodyOf m) x.name =
      if m = .chunked then .error .errorInvalidTransferEncoding else .ok (v, .readingEncoding) := by
  have hencoding : iequals x.name (ascii "Transfer-Encoding") = true := h
  have hhost : iequals x.name (ascii "Host") = false := by
    cases hx : x.isHost with
    | false => exact hx
    | true =>
      rw [Field.isEncoding_of_isHost hx] at h
      cases h
  cases m <;> simp [onFieldName, bodyOf, hencoding, hhost]

theorem onFieldName_length (h : x.isEncoding = false) (hl : x.isLength = true) (m : Mode) :
    onFieldName (v, bodyOf m) x.name =
      if m = .unknown then .ok (v, .readingContentLength)
      else if m = .counted then .error .errorInvalidContentLength
      else .ok (v, bodyOf m) := by
  have hencoding : iequals x.name (ascii "Transfer-Encoding") = false := h
  have hlength : iequals x.name (ascii "Content-Length") = true := hl
  have hhost : iequals x.name (ascii "Host") = false := by
    cases hx : x.isHost with
    | false => exact hx
    | true =>
      rw [Field.isLength_of_isHost hx] at hl
      cases hl
  cases m <;> simp [onFieldName, bodyOf, hencoding, hlength, hhost]

end Names

theorem objects (digit : UInt8) : policy.Objects (memory digit) (objection digit) where
  accepted {pre x} n h := by
    unfold objection at h
    cases hx : x.isHost with
    | true =>
      have henc : x.encodes true = false := by simp [Field.encodes, Field.isEncoding_of_isHost hx]
      have hl := Field.isLength_of_isHost hx
      rw [if_pos hx] at h
      have hhost := hostStep_of digit pre x fun _ hd => by
        simpa [hd] using h
      refine ⟨n, readField_iff.mpr ⟨_, _, _, hhost, step_other henc hl, ?_⟩⟩
      rw [memory, Mode.of_concat (.inl ⟨henc, hl⟩)]
    | false =>
      rw [if_neg (by simp [hx])] at h
      obtain ⟨n', hstep⟩ := step_of n h
      have hhost := hostStep_of digit pre x (by simp [hx])
      exact ⟨n', readField_iff.mpr ⟨_, _, _, hhost, hstep, rfl⟩⟩
  name {pre x c} h := by
    unfold objection at h
    cases hx : x.isHost with
    | true =>
      rw [if_pos hx] at h
      split at h <;> cases h
      rename_i hsecond
      have hhost : iequals x.name (ascii "Host") = true := hx
      simp [policy, onFieldName, hhost, memory, hostVersion, hsecond]
    | false =>
      rw [if_neg (by simp [hx])] at h
      rcases bodyObjection_cases h with
        ⟨henc, ⟨hm, ho⟩ | ⟨-, -, ho⟩⟩ | ⟨henc, hl, ⟨hm, ho⟩ | ⟨-, d, -, ho⟩⟩ <;> cases ho
      · exact (onFieldName_encoding henc _).trans (if_pos hm)
      · exact (onFieldName_length henc hl _).trans (by rw [hm]; rfl)
  value {pre x c} n h := by
    unfold objection at h
    cases hx : x.isHost with
    | true =>
      rw [if_pos hx] at h
      split at h <;> cases h
    | false =>
      rw [if_neg (by simp [hx])] at h
      rcases bodyObjection_cases h with
        ⟨henc, ⟨-, ho⟩ | ⟨hm, hd, ho⟩⟩ | ⟨henc, hl, ⟨-, ho⟩ | ⟨hm, d, hd, ho⟩⟩ <;> cases ho
      · refine ⟨_, (onFieldName_encoding henc _).trans (if_neg hm), ?_⟩
        simp [policy, onFieldValue, hd]
      · refine ⟨_, (onFieldName_length henc hl _).trans (if_pos hm), ?_⟩
        obtain ⟨k, ⟨hk, rfl⟩ | ⟨hk, rfl⟩⟩ := lengthError_some hd n <;>
          simp [policy, onFieldValue, hk]

/-- The end of the headers, behind fields that there is nothing against. -/
theorem onHeaders_memory (digit : UInt8) (xs : List Field) (n : Nat) :
    (∃ r, onHeaders (memory digit xs) n = .ok r) ∧ endObjection digit xs = none ∨
      ∃ c, onHeaders (memory digit xs) n = .error c ∧ endObjection digit xs = some c := by
  unfold endObjection onHeaders memory hostVersion
  by_cases hd : digit = 0x30
  · cases Mode.of true xs <;> simp [hd, bodyOf]
  · cases hh : xs.any Field.isHost
    · exact .inr ⟨.errorNoHost, by simp [hd], by simp [hd]⟩
    · cases Mode.of true xs <;> simp [hd, bodyOf]

theorem onVersion_memory {f : Memory} (hf : f.2 = .noBody) (digit : UInt8) :
    policy.onVersion f digit = memory digit [] := by
  obtain ⟨v, b⟩ := f
  cases hf
  simp [policy, memory, hostVersion, Mode.of, encodings, lengths, bodyOf]

/-- There is nothing against a head that is accepted, and against each other one there is something. -/
theorem accepts_iff_faultless (digit : UInt8) (xs : List Field) :
    Accepts digit xs ↔ Faultless (objection digit) [] xs ∧ endObjection digit xs = none := by
  rw [← headers_ok_iff (.http10, .noBody) rfl digit 0 xs, onVersion_memory rfl]
  constructor
  · rintro ⟨s', h⟩
    have hfault := (objects digit).of_headers h
    obtain ⟨n', hheaders⟩ := (objects digit).headers 0 hfault
    rcases onHeaders_memory digit xs n' with ⟨-, hend⟩ | ⟨c, herror, -⟩
    · exact ⟨hfault, hend⟩
    · rw [hheaders, show policy.onHeaders (memory digit xs) n' = .error c from herror] at h
      cases h
  · rintro ⟨hfault, hend⟩
    obtain ⟨n', hheaders⟩ := (objects digit).headers 0 hfault
    rcases onHeaders_memory digit xs n' with ⟨⟨r, hok⟩, -⟩ | ⟨c, -, hsome⟩
    · rw [hheaders, show policy.onHeaders (memory digit xs) n' = .ok r from hok]
      exact ⟨_, rfl⟩
    · rw [hend] at hsome
      cases hsome

theorem endObjection_fatal {digit : UInt8} {xs : List Field} {c : Code}
    (h : endObjection digit xs = some c) : c.isFatal = true := by
  unfold endObjection at h
  split at h
  · cases h
    rfl
  · split at h <;> cases h
    rfl

section Runs

variable {b : Bool} {p n j : Nat} {f : Memory} {rest : Bytes}

/-- The lexer on a head with a field that is objected to, behind fields that are not. -/
theorem runs_objected (g : Head) {x : Field} (e : Eol) {o : Objection} (hf : f.2 = .noBody)
    (hg : Faultless (objection g.digit) [] g.headers)
    (hx : objection g.digit g.headers x = some o) :
    lexer.Runs b p (⟨.method, f, n⟩, j) (g.line ++ (blockBytes g.fields ++ (x.bytes e ++ rest)))
      (g.lineEvents p ++ (blockEvents .fieldName .fieldValue (p + g.line.length) g.fields ++
        o.events (p + g.line.length + (blockBytes g.fields).length) x)) := by
  refine leads_requestLine g _ ?_
  rw [onVersion_memory hf]
  exact (objects g.digit).runs e hg hx

/-- The lexer on fields that are not objected to and do not allow the headers to end. -/
theorem runs_endObjected (g : Head) (e : Eol) {c : Code} (hf : f.2 = .noBody)
    (hg : Faultless (objection g.digit) [] g.headers)
    (hc : endObjection g.digit g.headers = some c) :
    lexer.Runs b p (⟨.method, f, n⟩, j) (g.line ++ (blockBytes g.fields ++ (e.bytes ++ rest)))
      (g.lineEvents p ++ (blockEvents .fieldName .fieldValue (p + g.line.length) g.fields ++
        Token.events (p + g.line.length + (blockBytes g.fields).length) ⟨c, 0, .none⟩)) := by
  refine leads_requestLine g _ ?_
  rw [onVersion_memory hf]
  obtain ⟨n', hread⟩ := (objects g.digit).readFields n hg
  refine leads_block hread _ (runs_headersEnd_rejected e ?_)
  rcases onHeaders_memory g.digit g.headers n' with ⟨-, hnone⟩ | ⟨c', herror, hsome⟩
  · rw [hc] at hnone
    cases hnone
  · rw [hc, Option.some.injEq] at hsome
    rw [hsome]
    exact herror

end Runs

/-- However a client drives a reader that expects a message, the fields of a head are reported up to
the first one that there is something against, then the error that tells what it is, and nothing
more; and when there is nothing against a field, there may be something against the end of the
headers. -/
theorem request_rejection (mem : Nat → UInt8) (S tail : Bytes) (version : Version) (bodySize : Nat)
    (ops₀ ops : List (Op Empty)) (s₀ : Run) (g : Head)
    (h₀ : (session mem S).play (fresh version bodySize) ops₀ = .ok s₀)
    (hstate : s₀.reader.state = .expectMethod)
    (hS : S.drop s₀.pass.consumed = g.line ++ (blockBytes g.fields ++ tail))
    (hg : Faultless (objection g.digit) [] g.headers)
    (h : (session mem S).conforming (fresh version bodySize) (ops₀ ++ ops) = true) :
    (∀ xs, Accepts g.digit xs ↔
      Faultless (objection g.digit) [] xs ∧ endObjection g.digit xs = none) ∧
    ∃ s log, (session mem S).play (fresh version bodySize) (ops₀ ++ ops) = .ok s ∧
      s.emitted = s₀.emitted ++ log ∧ (complete S s = true →
        (∀ x e rest o, tail = Field.bytes x e ++ rest → objection g.digit g.headers x = some o →
          s.reader.code = o.code ∧ events log = g.lineEvents s₀.pass.consumed ++
            (blockEvents .fieldName .fieldValue (s₀.pass.consumed + g.line.length) g.fields ++
              o.events (s₀.pass.consumed + g.line.length + (blockBytes g.fields).length) x)) ∧
        (∀ e rest c, tail = Eol.bytes e ++ rest → endObjection g.digit g.headers = some c →
          s.reader.code = c ∧ events log = g.lineEvents s₀.pass.consumed ++
            (blockEvents .fieldName .fieldValue (s₀.pass.consumed + g.line.length) g.fields ++
              Token.events (s₀.pass.consumed + g.line.length + (blockBytes g.fields).length)
                ⟨c, 0, .none⟩))) := by
  refine ⟨accepts_iff_faultless g.digit, ?_⟩
  obtain ⟨s, log, hplay, ht₀, -, hlog, -, hruns⟩ := play_adds h₀ (by rw [hstate]; decide) h
  have hfatal := Session.fatal_of_play (lawful mem) (tracks_fresh version bodySize S)
    (by rintro e ⟨⟩) h hplay
  refine ⟨s, log, hplay, hlog, fun hc => ?_⟩
  obtain ⟨hcore, hbody⟩ := core_method ht₀.sound hstate
  have hr := hruns hc
  rw [hcore, hS] at hr
  constructor
  · rintro x e rest o rfl hx
    have hevents := hr.unique (runs_objected g e hbody hg hx)
    have hfatalCode := (objects g.digit).fails fatal_policy hx
    refine ⟨Session.code_of_events hfatal hlog hfatalCode ?_, hevents⟩
    rw [hevents, List.any_append, List.any_append, o.shows_code hfatalCode]
    simp
  · rintro e rest c rfl hend
    have hevents := hr.unique (runs_endObjected g e hbody hg hend)
    have hfatalCode := endObjection_fatal hend
    refine ⟨Session.code_of_events hfatal hlog hfatalCode ?_, hevents⟩
    rw [hevents, List.any_append, List.any_append,
      any_shows_events (Code.isShown_of_isFatal hfatalCode)]
    simp

theorem host_ne : ascii "Host" ≠ [] := by decide

theorem host_chars : ∀ c ∈ ascii "Host", c ∈ Alphabet.token := by decide +kernel

def hostHead : Head where
  method := ascii "PUT"
  target := ascii "/"
  digit := 0x31
  eol := .crlf
  fields := [(⟨ascii "Host", ascii " a", host_ne, host_chars, by decide +kernel⟩, .crlf)]
  lastEol := .crlf
  method_ne := put_ne
  method_chars := put_chars
  target_ne := slash_ne
  target_chars := slash_chars
  digit_isDigit := isDigit_one

theorem faultless_hostHead : Faultless (objection hostHead.digit) [] hostHead.headers :=
  ⟨by decide +kernel, trivial⟩

/-- A length that is no numeral, with a cut in its name and one in its value. -/
theorem request_rejection_length :
    let x := Field.ofLength (ascii " 1x") (by decide +kernel)
    let S := hostHead.line ++ (blockBytes hostHead.fields ++ (x.bytes .crlf ++ ascii "\r\n1"))
    let ops : List (Op Empty) := List.flatten [[.setBuffer 30], List.replicate 12 .next,
      [.setBuffer 18], List.replicate 3 .next, [.setBuffer 7], List.replicate 4 .next]
    ∃ s log, (session (fun _ => 0) S).play (fresh .http10 0) ops = .ok s ∧
      s.reader.code = .errorInvalidContentLength ∧ s.emitted = log ∧
      events log = hostHead.lineEvents 0 ++
        (blockEvents .fieldName .fieldValue 16 hostHead.fields ++
          [.token 25 ⟨.fieldName, 14, .view (ascii "Content-Length")⟩,
            .token 41 ⟨.errorInvalidContentLength, 0, .none⟩]) := by
  intro x S ops
  obtain ⟨-, s, log, h, hlog, hread⟩ := request_rejection (fun _ => 0) S
    (x.bytes .crlf ++ ascii "\r\n1") .http10 0 [] ops (fresh .http10 0) hostHead rfl rfl rfl
    faultless_hostHead (by decide +kernel)
  have hc : (session (fun _ => 0) S).ends (fresh .http10 0) ([] ++ ops) (complete S) = true := by
    decide +kernel
  rw [Guarded.ends_eq h] at hc
  obtain ⟨hcode, hevents⟩ := (hread hc).1 x .crlf (ascii "\r\n1")
    ⟨.errorInvalidContentLength, false⟩ rfl (by decide +kernel)
  exact ⟨s, log, h, hcode, hlog, hevents⟩

end Request

end BoostHttp
