import BoostHttp.Fragmentation
import BoostHttp.Grammar
import BoostHttp.Numbers

/-!
# Response.Head — heads of responses

A head is given by its parts.  The method of the request enters between the status code and the
reason phrase; from there on the fields are read as those of a request are.
-/

open Incremental

namespace BoostHttp

namespace Response

structure Head where
  digit : UInt8
  status : Bytes
  reason : Bytes
  eol : Eol
  fields : List (Field × Eol)
  lastEol : Eol
  digit_isDigit : digit ∈ Alphabet.digits
  status_length : status.length = 3
  status_digits : ∀ c ∈ status, c ∈ Alphabet.digits
  reason_chars : ∀ c ∈ reason, isText c = true

/-- The status code and the reason of a response that is well. -/
theorem ok_length : (ascii "200").length = 3 := rfl

theorem ok_digits : ∀ c ∈ ascii "200", c ∈ Alphabet.digits := by decide +kernel

theorem ok_chars : ∀ c ∈ ascii "OK", isText c = true := by decide +kernel

namespace Head

def line (g : Head) : Bytes :=
  ascii "HTTP/1." ++ g.digit :: 0x20 :: (g.status ++ 0x20 :: (g.reason ++ g.eol.bytes))

def bytes (g : Head) : Bytes := g.line ++ (blockBytes g.fields ++ g.lastEol.bytes)

def version (g : Head) : Int := (g.digit.toNat : Int) - 0x30

def code (g : Head) : Nat := Syntax.base10 g.status

def headers (g : Head) : List Field := g.fields.map Prod.fst

def lineEvents (g : Head) (p : Nat) : List Event :=
  [.token (p + 7) ⟨.version, 1, .version g.version⟩,
    .token (p + 9) ⟨.statusCode, 3, .statusCode g.code⟩,
    .token (p + 13) ⟨.reasonPhrase, g.reason.length, .view g.reason⟩]

def events (g : Head) (p : Nat) : List Event :=
  g.lineEvents p ++ (blockEvents .fieldName .fieldValue (p + g.line.length) g.fields ++
    [endOfHeaders (p + g.line.length + (blockBytes g.fields).length) g.lastEol])

theorem decode_status (g : Head) : Syntax.statusCodeDecode g.status = .ok g.code := by
  have hlen := g.status_length
  have hdigits := g.status_digits
  unfold code
  match hs : g.status with
  | [a, b, c] =>
    rw [hs] at hdigits
    obtain ⟨ha, ha'⟩ := Syntax.toNat_of_digit a (hdigits a (by simp))
    obtain ⟨hb, hb'⟩ := Syntax.toNat_of_digit b (hdigits b (by simp))
    obtain ⟨hc, hc'⟩ := Syntax.toNat_of_digit c (hdigits c (by simp))
    have hvalue : Syntax.base10 [a, b, c]
        = Syntax.nibble c + 10 * (Syntax.nibble b + 10 * Syntax.nibble a) := by
      simp [Syntax.base10, Nat.ofDigits]
    rw [hvalue, Syntax.statusCodeDecode]
    congr 1
    omega
  | [] | [_] | [_, _] | _ :: _ :: _ :: _ :: _ => rw [hs] at hlen; simp at hlen

end Head

section Line

variable {methods : Nat → Bytes} {b : Bool} {j p n : Nat} {f : Memory} {rest : Bytes}
  {h : Memory → Nat → Except Code (Memory × Phase)}

abbrev lexerWith (h : Memory → Nat → Except Code (Memory × Phase)) (methods : Nat → Bytes) :
    Machine (Core Memory × Nat) UInt8 Token Event := machine (policy.withHeaders h) (respond methods)

/-- The status code, which the owner answers with the method. -/
theorem leads_statusCode (g : Head) :
    (lexerWith h methods).Leads b p (⟨.statusCode, f, n⟩, j) (g.status ++ rest)
      [.token p ⟨.statusCode, 3, .statusCode g.code⟩] (p + 3)
      (⟨.spAfterStatusCode, (f.1, (bodyFor (methods j) g.code n).1),
        (bodyFor (methods j) g.code n).2⟩, j + 1) rest := by
  have hne : g.status ++ rest ≠ [] := by
    intro h
    have hlen := g.status_length
    rw [(List.append_eq_nil_iff.mp h).1] at hlen
    cases hlen
  obtain ⟨c, w, hw⟩ := List.exists_cons_of_ne_nil hne
  have hq : Phase.statusCode.scan = fixed 3 (·.all Syntax.isDigit) := rfl
  have hscan : Phase.statusCode.scan (g.status ++ rest) = .ok g.status.length :=
    scan_fixed hq g.status_length
      (List.all_eq_true.mpr fun c hc => (isDigit_iff c).mpr (g.status_digits c hc))
  have hlex := lex_lexeme (P := policy.withHeaders h) (s := ⟨.statusCode, f, n⟩) (b := b) hw rfl rfl rfl nofun hscan
  rw [Policy.accepted, List.take_left, g.status_length] at hlex
  have hvalue : tokenValue .statusCode n (g.status ++ rest) 3 = .statusCode g.code := by
    rw [tokenValue, List.take_left' g.status_length, g.decode_status]
    rfl
  have hstep : (lexerWith h methods).step b (⟨.statusCode, f, n⟩, j) (g.status ++ rest) = _ :=
    step_emit hlex
  have hl := Machine.Leads.of_emit (p := p) hstep
  change (lexerWith h methods).Leads b p _ _ (Token.events p ⟨.statusCode, 3,
    tokenValue .statusCode n (g.status ++ rest) 3⟩) _ ((lexerWith h methods).react ⟨.statusCode, 3,
    tokenValue .statusCode n (g.status ++ rest) 3⟩ _) _ at hl
  rw [hvalue, List.drop_left' g.status_length] at hl
  exact hl

def Head.memory (g : Head) (method : Bytes) (n : Nat) : Memory :=
  (g.digit == 0x30, (bodyFor method g.code n).1)

theorem methodKnown_memory (g : Head) (method : Bytes) (n : Nat) :
    policy.methodKnown (g.memory method n) = true := by
  have hne : (bodyFor method g.code n).1 ≠ .unknownBody := by
    intro h
    rcases bodyFor_fst method g.code n with h' | h'
    · rw [h] at h'
      cases h'
    · rw [h] at h'
      cases h'
  simpa [policy, Head.memory] using hne

theorem leads_statusLine (g : Head) :
    (lexerWith h methods).Leads b p (⟨.versionStaticStr, (false, .unknownBody), n⟩, j) (g.line ++ rest)
      (g.lineEvents p) (p + g.line.length)
      (⟨.fieldName, g.memory (methods j) n, (bodyFor (methods j) g.code n).2⟩, j + 1) rest := by
  let n' := (bodyFor (methods j) g.code n).2
  let afterReason := g.eol.bytes ++ rest
  have hstatic : (lexerWith h methods).Leads b p (⟨.versionStaticStr, (false, .unknownBody), n⟩, j)
      (ascii "HTTP/1." ++ g.digit :: 0x20 :: (g.status ++ 0x20 :: (g.reason ++ afterReason))) _ _
      (⟨.responseVersion, (false, .unknownBody), n⟩, j) _ :=
    leads_follows rfl (fun _ => rfl) rfl rfl nofun nofun (literal_append _ _) nofun
  have hversion : (lexerWith h methods).Leads b (p + 7) (⟨.responseVersion, (false, .unknownBody), n⟩, j)
      (g.digit :: 0x20 :: (g.status ++ 0x20 :: (g.reason ++ afterReason))) _ _
      (⟨.spAfterVersion, (g.digit == 0x30, .unknownBody), n⟩, j) _ :=
    leads_version (.inr ⟨rfl, rfl⟩) g.digit_isDigit
  have hsp : (lexerWith h methods).Leads b (p + 7 + 1)
      (⟨.spAfterVersion, (g.digit == 0x30, .unknownBody), n⟩, j)
      (0x20 :: (g.status ++ 0x20 :: (g.reason ++ afterReason))) _ _
      (⟨.statusCode, (g.digit == 0x30, .unknownBody), n⟩, j) _ :=
    leads_sp rfl rfl (fun _ => rfl) rfl rfl nofun
  have hstatus : (lexerWith h methods).Leads b (p + 7 + 1 + 1)
      (⟨.statusCode, (g.digit == 0x30, .unknownBody), n⟩, j)
      (g.status ++ 0x20 :: (g.reason ++ afterReason)) _ _
      (⟨.spAfterStatusCode, g.memory (methods j) n, n'⟩, j + 1) _ := leads_statusCode g
  have hsp' : (lexerWith h methods).Leads b (p + 7 + 1 + 1 + 3)
      (⟨.spAfterStatusCode, g.memory (methods j) n, n'⟩, j + 1)
      (0x20 :: (g.reason ++ afterReason)) _ _
      (⟨.reasonPhrase, g.memory (methods j) n, n'⟩, j + 1) _ :=
    leads_sp rfl rfl (fun _ => rfl) rfl rfl fun _ => methodKnown_memory g (methods j) n
  obtain ⟨d, y, hd, hcr⟩ := g.eol.bytes_cons
  have hspan : Phase.reasonPhrase.scan = spanned Syntax.isReasonPhraseChar fun _ _ => true := rfl
  have hscan : Phase.reasonPhrase.scan (g.reason ++ d :: (y ++ rest)) = .ok g.reason.length :=
    scan_span hspan (fun c hc => (isReasonPhraseChar_eq c).trans (g.reason_chars c hc))
      (not_line_char (by decide) (by decide) hcr) rfl
  have hafter : afterReason = d :: (y ++ rest) := by
    simp only [afterReason, hd]
    rfl
  have hreason : (lexerWith h methods).Leads b (p + 7 + 1 + 1 + 3 + 1)
      (⟨.reasonPhrase, g.memory (methods j) n, n'⟩, j + 1) (g.reason ++ afterReason) _ _
      (⟨.crlfAfterReasonPhrase, g.memory (methods j) n, n'⟩, j + 1) _ :=
    leads_follows rfl (fun _ => rfl) rfl rfl nofun (by simp [hafter]) (hafter ▸ hscan) nofun
  have heol : (lexerWith h methods).Leads b (p + 7 + 1 + 1 + 3 + 1 + g.reason.length)
      (⟨.crlfAfterReasonPhrase, g.memory (methods j) n, n'⟩, j + 1) afterReason _ _
      (⟨.fieldName, g.memory (methods j) n, n'⟩, j + 1) _ :=
    leads_eol g.eol rfl rfl (fun _ => rfl) rfl rfl nofun
  have hbytes : g.line ++ rest
      = ascii "HTTP/1." ++ g.digit :: 0x20 :: (g.status ++ 0x20 :: (g.reason ++ afterReason)) := by
    simp [Head.line, afterReason]
  have hlen : p + g.line.length
      = p + 7 + 1 + 1 + 3 + 1 + g.reason.length + g.eol.bytes.length := by
    have hlit : (ascii "HTTP/1.").length = 7 := rfl
    simp only [Head.line, List.length_append, List.length_cons, hlit, g.status_length]
    omega
  have hrv : tokenValue .reasonPhrase n' (g.reason ++ afterReason) g.reason.length
      = .view g.reason := by rw [tokenValue, List.take_left]
  rw [hrv] at hreason
  rw [hbytes, hlen]
  exact hstatic.trans (hversion.trans (hsp.trans (hstatus.trans (hsp'.trans (hreason.trans heol)))))

theorem Head.bytes_append (g : Head) (rest : Bytes) :
    g.bytes ++ rest = g.line ++ (blockBytes g.fields ++ (g.lastEol.bytes ++ rest)) := by
  simp [Head.bytes]

/-- A head whose fields the policy accepts. -/
theorem leadsWith_head (g : Head) {s' : Core Memory}
    (hs : (policy.withHeaders h).headers (g.memory (methods j) n) (bodyFor (methods j) g.code n).2
      g.headers = .ok s') :
    (lexerWith h methods).Leads b p (⟨.versionStaticStr, (false, .unknownBody), n⟩, j) (g.bytes ++ rest)
      (g.events p) (p + g.bytes.length) (s', j + 1) rest := by
  have hlen : p + g.bytes.length
      = p + g.line.length + (blockBytes g.fields).length + g.lastEol.bytes.length := by
    simp only [Head.bytes, List.length_append]
    omega
  rw [g.bytes_append, hlen]
  exact (leads_statusLine g).trans (leads_headers g.lastEol hs)

theorem leads_head (g : Head) {s' : Core Memory}
    (hs : policy.headers (g.memory (methods j) n) (bodyFor (methods j) g.code n).2 g.headers = .ok s') :
    (lexer methods).Leads b p (⟨.versionStaticStr, (false, .unknownBody), n⟩, j) (g.bytes ++ rest)
      (g.events p) (p + g.bytes.length) (s', j + 1) rest :=
  leadsWith_head (h := policy.onHeaders) g hs

/-- A head whose fields the policy rejects. -/
theorem runs_head_rejected (g : Head) {c : Code}
    (h : policy.headers (g.memory (methods j) n) (bodyFor (methods j) g.code n).2 g.headers
      = .error c) :
    ∃ es o, (lexer methods).Runs b p (⟨.versionStaticStr, (false, .unknownBody), n⟩, j)
      (g.bytes ++ rest) (es ++ Token.events o ⟨c, 0, .none⟩) ∧ es.any Event.isHeadEnd = false := by
  obtain ⟨es, o, hr, hes⟩ := runs_headers_rejected g.lastEol h
  refine ⟨g.lineEvents p ++ es, o, ?_, ?_⟩
  · rw [g.bytes_append, List.append_assoc]
    exact leads_statusLine (h := policy.onHeaders) g _ hr
  · rw [List.any_append, hes]
    rfl

end Line

end Response

end BoostHttp
