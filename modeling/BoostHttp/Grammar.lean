import BoostHttp.Alphabet
import BoostHttp.Lexer
import BoostHttp.Refines

/-!
# Grammar — lines and fields as bytes, and what a lexer makes of them

The lines of a head are given by their parts; a structure holds the parts together with the
conditions under which they can be told apart again.  For each kind of line, a lemma says what a
lexer observes of it and in which state it goes on.
-/

open Incremental

namespace BoostHttp

/-! ## Lines -/

inductive Eol where
  | crlf
  | lf
  deriving DecidableEq, Repr

def Eol.bytes : Eol → Bytes
  | .crlf => CRLF
  | .lf => [LF]

/-- A field with its name and everything between the colon and the line end. -/
structure Field where
  name : Bytes
  text : Bytes
  name_ne : name ≠ []
  name_chars : ∀ c ∈ name, c ∈ Alphabet.token
  text_chars : ∀ c ∈ text, isText c = true

def Field.lead (x : Field) : Bytes := x.text.takeWhile Detail.isOws
def Field.raw (x : Field) : Bytes := x.text.dropWhile Detail.isOws

def trim (text : Bytes) : Bytes := (text.dropWhile Detail.isOws).rdropWhile Detail.isOws

def Field.value (x : Field) : Bytes := trim x.text

def Field.bytes (x : Field) (e : Eol) : Bytes := x.name ++ 0x3A :: (x.text ++ e.bytes)

def Field.events (name value : Code) (p : Nat) (x : Field) : List Event :=
  [.token p ⟨name, x.name.length, .view x.name⟩,
    .token (p + x.name.length + (x.lead.length + 1)) ⟨value, x.raw.length, .view x.value⟩]

theorem Eol.bytes_cons (e : Eol) : ∃ c x, e.bytes = c :: x ∧ (c = CR ∨ c = LF) := by
  cases e with
  | crlf => exact ⟨CR, [LF], rfl, .inl rfl⟩
  | lf => exact ⟨LF, [], rfl, .inr rfl⟩

theorem lineEnd_bytes (e : Eol) (rest : Bytes) : lineEnd (e.bytes ++ rest) = .ok e.bytes.length := by
  cases e with
  | crlf => rfl
  | lf => cases rest <;> rfl

theorem rdropWhile_cons {p : UInt8 → Bool} {b : UInt8} (hb : p b = false) (bs : Bytes) :
    (b :: bs).rdropWhile p = b :: bs.rdropWhile p := by
  simp only [List.rdropWhile, List.reverse_cons, List.dropWhile_append]
  split
  · rename_i h
    have hnil : bs.reverse.dropWhile p = [] := List.isEmpty_iff.mp h
    rw [hnil, List.dropWhile_cons_of_neg (by simp [hb])]
    rfl
  · rw [List.reverse_append]
    rfl

theorem of_lineEnd {raw rest : Bytes} (h : lineEnd (raw ++ rest) = .ok raw.length) :
    ∃ e : Eol, raw = e.bytes := by
  have htake : raw = (raw ++ rest).take raw.length := List.take_left.symm
  rcases lineEnd_cases (raw ++ rest) with ⟨hw, -⟩ | ⟨x, hx, hw⟩ | ⟨x, hx, hw⟩ | ⟨hw, -⟩
  · rw [hw] at h
    cases h
  · -- a lone LF, the only byte of the line end
    rw [hw] at h
    rw [← Scan.ok.inj h, hx] at htake
    exact ⟨.lf, htake⟩
  · rw [hw] at h
    rw [← Scan.ok.inj h, hx] at htake
    exact ⟨.crlf, htake⟩
  · rw [hw] at h
    cases h

/-- Whitespace in front of a value does not belong to it. -/
theorem trim_append {ows raw : Bytes} (hows : ∀ a ∈ ows, Detail.isOws a = true)
    (hraw : ∀ a ∈ raw.head?, Detail.isOws a = false) : trim (ows ++ raw) = Detail.trimTail raw := by
  unfold trim
  rw [List.dropWhile_append_of_pos hows]
  cases raw with
  | nil => rfl
  | cons b bs =>
    have hb : Detail.isOws b = false := hraw b rfl
    rw [List.dropWhile_cons_of_neg (by rw [hb]; nofun), rdropWhile_cons hb]
    rfl

/-- A value does not begin with whitespace, so that `decode_field_value` trims it on both sides. -/
theorem trimTail_raw (x : Field) : Detail.trimTail x.raw = x.value := by
  have hraw : ∀ a ∈ x.raw.head?, Detail.isOws a = false := by
    intro a ha
    cases h : x.raw with
    | nil =>
      rw [h] at ha
      cases ha
    | cons b bs =>
      rw [h] at ha
      cases ha
      exact not_of_dropWhile h
  have htrim := trim_append (fun _ ha => List.mem_takeWhile_imp ha : ∀ a ∈ x.lead, _) hraw
  rw [← htrim, Field.lead, Field.raw, List.takeWhile_append_dropWhile, Field.value]

/-! ## Lexemes in front of other bytes -/

section Lexemes

variable {φ : Type} {P : Policy φ} {client : Client φ} {b : Bool} {s s' : Core φ} {j p n : Nat}
  {f f' : φ} {raw rest w : Bytes} {c : UInt8} {code : Code} {q : Phase}

/-- The token of a lexeme, in the phase `q` that the first byte decides on. -/
theorem lex_lexeme (hw : raw ++ rest = c :: w) (hz : s.phase.isZeroSized = false)
    (hq : s.phase.resolve c = q) (he : q.isElastic = false)
    (hk : q = .spAfterStatusCode → P.methodKnown s.framing = true)
    (hscan : q.scan (raw ++ rest) = .ok raw.length) :
    P.lex b s (raw ++ rest) = P.accepted (s.goto q) (raw ++ rest) raw.length := by
  have hknown : ¬ ((s.goto q).phase = .spAfterStatusCode ∧
      P.methodKnown (s.goto q).framing = false) := by
    rintro ⟨hp, hf⟩
    rw [show P.methodKnown (s.goto q).framing = true from hk hp] at hf
    cases hf
  have hlex : P.lex b s (raw ++ rest) = P.scanned (s.goto q) (raw ++ rest) := by
    rw [hw, lex_cons hz, hq, lexeme_of_rigid he]
  rw [hlex, Policy.scanned, if_neg hknown, Core.goto_phase, hscan]
  rfl

theorem leads_of_lex {n : Nat} (h : P.lex b s w = .emit s' n code) (hc : code ≠ .statusCode) :
    (machine P client).Leads b p (s, j) w
      (Token.events p ⟨code, n, tokenValue code s'.bodySize w n⟩) (p + n) (s', j) (w.drop n) := by
  have hstep : (machine P client).step b (s, j) w = _ := step_emit h
  have hl := Machine.Leads.of_emit (p := p) hstep
  have hreact : (machine P client).react ⟨code, n, tokenValue code s'.bodySize w n⟩ (s', j)
      = (s', j) := if_neg hc
  rwa [hreact] at hl

/-- A lexeme that the policy accepts, other than a status code. -/
theorem leads_lexeme (hw : raw ++ rest = c :: w) (hz : s.phase.isZeroSized = false)
    (hq : s.phase.resolve c = q) (he : q.isElastic = false)
    (hk : q = .spAfterStatusCode → P.methodKnown s.framing = true)
    (hscan : q.scan (raw ++ rest) = .ok raw.length)
    (hacc : P.accept (s.goto q) raw = .ok (s', code)) (hc : code ≠ .statusCode) :
    (machine P client).Leads b p (s, j) (raw ++ rest)
      (Token.events p ⟨code, raw.length, tokenValue code s'.bodySize (raw ++ rest) raw.length⟩)
      (p + raw.length) (s', j) rest := by
  have hlex := lex_lexeme (P := P) (b := b) hw hz hq he hk hscan
  rw [Policy.accepted, List.take_left, hacc] at hlex
  have hl : (machine P client).Leads b p (s, j) _ _ _ _ _ := leads_of_lex hlex hc
  rwa [List.drop_left] at hl

/-- A lexeme that the policy rejects. -/
theorem runs_rejected (hw : raw ++ rest = c :: w) (hz : s.phase.isZeroSized = false)
    (hq : s.phase.resolve c = q) (he : q.isElastic = false)
    (hk : q = .spAfterStatusCode → P.methodKnown s.framing = true)
    (hscan : q.scan (raw ++ rest) = .ok raw.length)
    (hacc : P.accept (s.goto q) raw = .error code) :
    (machine P client).Runs b p (s, j) (raw ++ rest) (Token.events p ⟨code, 0, .none⟩) := by
  have hlex := lex_lexeme (P := P) (b := b) hw hz hq he hk hscan
  rw [Policy.accepted, List.take_left, hacc] at hlex
  exact .fail (step_fail_iff.mpr ⟨hlex, rfl⟩)

/-- The phases whose token leads to a fixed phase, whatever its first byte is. -/
theorem leads_follows {q' : Phase} (hf : q.follows = some (q', code)) (hres : ∀ c, q.resolve c = q)
    (hz : q.isZeroSized = false) (he : q.isElastic = false)
    (hk : q = .spAfterStatusCode → P.methodKnown f = true) (hne : raw ++ rest ≠ [])
    (hscan : q.scan (raw ++ rest) = .ok raw.length) (hc : code ≠ .statusCode) :
    (machine P client).Leads b p (⟨q, f, n⟩, j) (raw ++ rest)
      (Token.events p ⟨code, raw.length, tokenValue code n (raw ++ rest) raw.length⟩)
      (p + raw.length) (⟨q', f, n⟩, j) rest := by
  cases hw : raw ++ rest with
  | nil => exact absurd hw hne
  | cons c w =>
    rw [← hw]
    exact leads_lexeme (s := ⟨q, f, n⟩) hw hz (hres c) he hk hscan (accept_follows hf) hc

theorem scan_span {pr : UInt8 → Bool} {good : Nat → UInt8 → Bool} (hq : q.scan = spanned pr good)
    (hraw : ∀ a ∈ raw, pr a = true) (hc : pr c = false) (hgood : good raw.length c = true) :
    q.scan (raw ++ c :: rest) = .ok raw.length := by
  rw [hq, spanned_run hraw hc, if_pos hgood]

/-- A run that must not be empty. -/
theorem scan_nonempty {pr : UInt8 → Bool} (hq : q.scan = spanned pr fun n _ => n != 0)
    (hne : raw ≠ []) (hraw : ∀ a ∈ raw, pr a = true) (hc : pr c = false) :
    q.scan (raw ++ c :: rest) = .ok raw.length := by
  refine scan_span hq hraw hc ?_
  have hpos := List.length_pos_iff.mpr hne
  simp only [bne_iff_ne, ne_eq]
  omega

theorem scan_fixed {k : Nat} {pr : Bytes → Bool} (hq : q.scan = fixed k pr) (hlen : raw.length = k)
    (hraw : pr raw = true) : q.scan (raw ++ rest) = .ok raw.length := by
  rw [hq, fixed_append hlen, if_pos hraw, hlen]

theorem not_line_char {pr : UInt8 → Bool} (hcr : pr CR = false) (hlf : pr LF = false)
    (hc : c = CR ∨ c = LF) : pr c = false := by
  rcases hc with rfl | rfl
  · exact hcr
  · exact hlf

/-! ## Parts of start lines -/

/-- The digits of HTTP/1.0 and HTTP/1.1. -/
theorem isDigit_zero : 0x30 ∈ Alphabet.digits := by decide +kernel

theorem isDigit_one : 0x31 ∈ Alphabet.digits := by decide +kernel

theorem isText_nil : ∀ c ∈ ([] : Bytes), isText c = true := nofun

/-- The digit of a version. -/
theorem leads_version {q' : Phase} {digit : UInt8}
    (hq : q = .requestVersion ∧ q' = .crlfAfterVersion ∨ q = .responseVersion ∧ q' = .spAfterVersion)
    (hd : digit ∈ Alphabet.digits) :
    (machine P client).Leads b p (⟨q, f, n⟩, j) (digit :: rest)
      [.token p ⟨.version, 1, .version ((digit.toNat : Int) - 0x30)⟩] (p + 1)
      (⟨q', P.onVersion f digit, n⟩, j) rest := by
  have hscan : fixed 1 (·.all Syntax.isDigit) ([digit] ++ rest) = .ok 1 := by
    rw [fixed_append (k := 1) (v := [digit]) rfl, if_pos (by simp [isDigit_iff, hd])]
  rcases hq with ⟨rfl, rfl⟩ | ⟨rfl, rfl⟩
  · exact leads_lexeme (s := ⟨.requestVersion, f, n⟩) (q := .requestVersion)
      (rfl : [digit] ++ rest = _) rfl rfl rfl nofun hscan rfl nofun
  · exact leads_lexeme (s := ⟨.responseVersion, f, n⟩) (q := .responseVersion)
      (rfl : [digit] ++ rest = _) rfl rfl rfl nofun hscan rfl nofun

/-- A space in front of other bytes. -/
theorem leads_sp {q' : Phase} (hf : q.follows = some (q', .skip))
    (hq : q.scan = fixed 1 (·.all Detail.isSp)) (hres : ∀ c, q.resolve c = q)
    (hz : q.isZeroSized = false) (he : q.isElastic = false)
    (hk : q = .spAfterStatusCode → P.methodKnown f = true) :
    (machine P client).Leads b p (⟨q, f, n⟩, j) (0x20 :: rest) [] (p + 1) (⟨q', f, n⟩, j) rest := by
  have hscan : q.scan ([0x20] ++ rest) = .ok 1 := by
    rw [hq, fixed_append (k := 1) (v := [0x20]) rfl, if_pos (by decide)]
  exact leads_follows hf hres hz he hk (nofun : [0x20] ++ rest ≠ []) hscan nofun

/-! ## Fields -/

variable {col ows value : Phase} {d : UInt8}

theorem takeWhile_run_end (pr : UInt8 → Bool) (v : Bytes) (hd : pr d = false) (x : Bytes) :
    (v ++ d :: x).takeWhile pr = v.takeWhile pr ∧
      (v ++ d :: x).dropWhile pr = v.dropWhile pr ++ d :: x := by
  induction v with
  | nil => simp [hd]
  | cons a v ih =>
    by_cases ha : pr a = true
    · simp [ha, ih.1, ih.2]
    · simp [ha]

/-- The colon of a field and the whitespace after it. -/
theorem leads_colon (hv : ValuePhases col ows value) (x : Field) (hd : Detail.isOws d = false) :
    (machine P client).Leads b p (⟨col, f, n⟩, j) (0x3A :: (x.text ++ d :: rest)) []
      (p + (x.lead.length + 1)) (⟨value, f, n⟩, j) (x.raw ++ d :: rest) := by
  intro v hr
  obtain ⟨htake, hdrop⟩ := takeWhile_run_end Detail.isOws x.text hd rest
  have hafter : afterOws ows value (x.text ++ d :: rest) = value := by
    rw [afterOws, hdrop, if_neg (by simp)]
  rw [List.nil_append, runs_colon hv rfl, htake, hdrop, hafter]
  exact hr

theorem Field.name_tchars (x : Field) : ∀ c ∈ x.name, Detail.isTchar c = true :=
  fun c hc => (isTchar_iff c).mpr (x.name_chars c hc)

theorem Field.name_cons (x : Field) (w : Bytes) :
    ∃ c y, x.name ++ w = c :: y ∧ Detail.isTchar c = true := by
  cases h : x.name with
  | nil => exact absurd h x.name_ne
  | cons c y => exact ⟨c, y ++ w, rfl, x.name_tchars c (by rw [h]; exact List.mem_cons_self)⟩

theorem Field.raw_chars (x : Field) : ∀ c ∈ x.raw, Syntax.isFieldValueChar c = true :=
  fun c hc =>
    (isFieldValueChar_eq c).trans (x.text_chars c (List.dropWhile_subset Detail.isOws hc))

theorem Field.scan_name (x : Field) (hq : q.scan = spanned Detail.isTchar fun n _ => n != 0) :
    q.scan (x.name ++ 0x3A :: rest) = .ok x.name.length :=
  scan_nonempty hq x.name_ne x.name_tchars (by decide)

theorem Field.scan_raw (x : Field) (hq : q.scan = spanned Syntax.isFieldValueChar fun _ _ => true)
    (hd : d = CR ∨ d = LF) : q.scan (x.raw ++ d :: rest) = .ok x.raw.length :=
  scan_span hq x.raw_chars (not_line_char (by decide) (by decide) hd) rfl

/-- The parts of a field, from an offset on. -/
theorem Field.length_bytes (x : Field) {e : Eol} :
    p + x.name.length + (x.lead.length + 1) + x.raw.length + e.bytes.length
      = p + (x.bytes e).length := by
  have htext : x.lead.length + x.raw.length = x.text.length := by
    rw [← List.length_append]
    exact congrArg List.length List.takeWhile_append_dropWhile
  simp only [Field.bytes, List.length_append, List.length_cons]
  omega

theorem Field.raw_cons (x : Field) (d : UInt8) (w : Bytes) : ∃ c y, x.raw ++ d :: w = c :: y := by
  cases x.raw with
  | nil => exact ⟨d, w, rfl⟩
  | cons c y => exact ⟨c, y ++ d :: w, rfl⟩

theorem leads_fieldName (x : Field) (h : P.onFieldName f x.name = .ok f') :
    (machine P client).Leads b p (⟨.fieldName, f, n⟩, j) (x.name ++ 0x3A :: rest)
      [.token p ⟨.fieldName, x.name.length, .view x.name⟩] (p + x.name.length)
      (⟨.colon, f', n⟩, j) (0x3A :: rest) := by
  obtain ⟨c, y, hw, hc⟩ := x.name_cons (0x3A :: rest)
  have hacc : P.accept ⟨.fieldName, f, n⟩ x.name = .ok (⟨.colon, f', n⟩, .fieldName) := by
    simp only [Policy.accept, h]
  have hvalue : tokenValue .fieldName n (x.name ++ 0x3A :: rest) x.name.length = .view x.name := by
    rw [tokenValue, List.take_left]
  rw [← hvalue]
  exact leads_lexeme (s := ⟨.fieldName, f, n⟩) hw rfl (if_pos hc) rfl (by simp) (x.scan_name rfl)
    hacc (by simp)

theorem leads_fieldValue (x : Field) {n' : Nat} (hd : d = CR ∨ d = LF)
    (h : P.onFieldValue f n x.value = .ok (f', n')) :
    (machine P client).Leads b p (⟨.fieldValue, f, n⟩, j) (x.raw ++ d :: rest)
      [.token p ⟨.fieldValue, x.raw.length, .view x.value⟩] (p + x.raw.length)
      (⟨.crlfAfterFieldValue, f', n'⟩, j) (d :: rest) := by
  obtain ⟨c, y, hw⟩ := x.raw_cons d rest
  have hacc : P.accept ⟨.fieldValue, f, n⟩ x.raw
      = .ok (⟨.crlfAfterFieldValue, f', n'⟩, .fieldValue) := by
    simp only [Policy.accept, trimTail_raw, h]
  have hvalue : tokenValue .fieldValue n' (x.raw ++ d :: rest) x.raw.length = .view x.value := by
    rw [tokenValue, List.take_left, trimTail_raw]
  rw [← hvalue]
  exact leads_lexeme (s := ⟨.fieldValue, f, n⟩) (q := .fieldValue) hw rfl rfl rfl (by simp)
    (x.scan_raw rfl hd) hacc (by simp)

def Policy.readField (P : Policy φ) (f : φ) (n : Nat) (x : Field) : Except Code (φ × Nat) :=
  match P.onFieldName f x.name with
  | .error c => .error c
  | .ok f => P.onFieldValue f n x.value

/-- A line end in front of other bytes. -/
theorem leads_eol {q' : Phase} (e : Eol) (hq : q.scan = lineEnd) (hf : q.follows = some (q', .skip))
    (hres : ∀ c, q.resolve c = q) (hz : q.isZeroSized = false) (he : q.isElastic = false)
    (hk : q ≠ .spAfterStatusCode) :
    (machine P client).Leads b p (⟨q, f, n⟩, j) (e.bytes ++ rest) [] (p + e.bytes.length)
      (⟨q', f, n⟩, j) rest := by
  have hne : e.bytes ++ rest ≠ [] := by cases e <;> nofun
  exact leads_follows hf hres hz he (fun h => absurd h hk) hne (by rw [hq, lineEnd_bytes]) nofun

/-- A header field that the policy accepts. -/
theorem leads_field (x : Field) (e : Eol) {n' : Nat} (h : P.readField f n x = .ok (f', n')) :
    (machine P client).Leads b p (⟨.fieldName, f, n⟩, j) (x.bytes e ++ rest)
      (x.events .fieldName .fieldValue p) (p + (x.bytes e).length) (⟨.fieldName, f', n'⟩, j) rest := by
  unfold Policy.readField at h
  split at h
  · cases h
  rename_i f₁ h₁
  obtain ⟨d, y, he, hd⟩ := e.bytes_cons
  have hows : Detail.isOws d = false := not_line_char (by decide) (by decide) hd
  have hbytes : x.bytes e ++ rest = x.name ++ 0x3A :: (x.text ++ d :: (y ++ rest)) := by
    simp [Field.bytes, he]
  have heol : d :: (y ++ rest) = e.bytes ++ rest := by rw [he]; rfl
  have hname : (machine P client).Leads b p (⟨.fieldName, f, n⟩, j)
      (x.name ++ 0x3A :: (x.text ++ d :: (y ++ rest))) _ _ _ _ := leads_fieldName x h₁
  have hcolon : (machine P client).Leads b (p + x.name.length) (⟨.colon, f₁, n⟩, j)
      (0x3A :: (x.text ++ d :: (y ++ rest))) _ _ _ _ := leads_colon (.inl ⟨rfl, rfl, rfl⟩) x hows
  have hvalue : (machine P client).Leads b (p + x.name.length + (x.lead.length + 1))
      (⟨.fieldValue, f₁, n⟩, j) (x.raw ++ d :: (y ++ rest)) _ _ _ _ := leads_fieldValue x hd h
  have hcrlf : (machine P client).Leads b (p + x.name.length + (x.lead.length + 1) + x.raw.length)
      (⟨.crlfAfterFieldValue, f', n'⟩, j) (e.bytes ++ rest) _ _ (⟨.fieldName, f', n'⟩, j) _ :=
    leads_eol e rfl rfl (fun _ => rfl) rfl rfl nofun
  rw [hbytes, ← x.length_bytes]
  rw [heol] at hvalue hcolon hname ⊢
  exact hname.trans (hcolon.trans (hvalue.trans hcrlf))

/-! ## The fields of a head -/

def blockBytes (ls : List (Field × Eol)) : Bytes := ls.flatMap fun l => l.1.bytes l.2

def blockEvents (name value : Code) : Nat → List (Field × Eol) → List Event
  | _, [] => []
  | p, l :: ls => l.1.events name value p ++ blockEvents name value (p + (l.1.bytes l.2).length) ls

theorem body_block (name value : Code) (p : Nat) (ls : List (Field × Eol)) :
    (blockEvents name value p ls).flatMap Event.body = [] := by
  induction ls generalizing p with
  | nil => rfl
  | cons l ls ih =>
    rw [blockEvents, List.flatMap_append, ih]
    rfl

def Policy.readFields (P : Policy φ) : φ → Nat → List Field → Except Code (φ × Nat)
  | f, n, [] => .ok (f, n)
  | f, n, x :: xs =>
    match P.readField f n x with
    | .error c => .error c
    | .ok (f, n) => readFields P f n xs

def Policy.headers (P : Policy φ) (f : φ) (n : Nat) (xs : List Field) : Except Code (Core φ) :=
  match P.readFields f n xs with
  | .error c => .error c
  | .ok (f, n) =>
    match P.onHeaders f n with
    | .error c => .error c
    | .ok (f, q) => .ok ⟨q, f, n⟩

def Policy.withHeaders (P : Policy φ) (h : φ → Nat → Except Code (φ × Phase)) : Policy φ :=
  { P with onHeaders := h }

theorem Policy.FailsWith.readFields {E : Code → Prop} (hP : P.FailsWith E) {xs : List Field}
    (h : P.readFields f n xs = .error code) : E code := by
  induction xs generalizing f n with
  | nil => cases h
  | cons x xs ih =>
    rw [Policy.readFields] at h
    split at h
    · rename_i hx
      cases h
      unfold Policy.readField at hx
      split at hx
      · cases hx
        exact hP.fieldName ‹_›
      · exact hP.fieldValue hx
    · exact ih h

theorem Policy.FailsWith.block {E : Code → Prop} (hP : P.FailsWith E) {xs : List Field}
    (h : P.headers f n xs = .error code) : E code := by
  unfold Policy.headers at h
  split at h
  · cases h
    exact hP.readFields ‹_›
  · split at h
    · cases h
      exact hP.headers ‹_›
    · cases h

def endOfHeaders (p : Nat) (e : Eol) : Event := .token p ⟨.endOfHeaders, e.bytes.length, .none⟩

abbrev Event.isHeadEnd : Event → Bool := Event.shows .endOfHeaders

variable {ls : List (Field × Eol)} {n' : Nat} {v : List Event}

theorem leads_block (h : P.readFields f n (ls.map Prod.fst) = .ok (f', n')) :
    (machine P client).Leads b p (⟨.fieldName, f, n⟩, j) (blockBytes ls ++ rest)
      (blockEvents .fieldName .fieldValue p ls) (p + (blockBytes ls).length)
      (⟨.fieldName, f', n'⟩, j) rest := by
  induction ls generalizing f n p with
  | nil =>
    cases h
    exact Machine.Leads.refl
  | cons l ls ih =>
    rw [List.map_cons, Policy.readFields] at h
    split at h
    · cases h
    rename_i f₁ n₁ h₁
    have hbytes : blockBytes (l :: ls) ++ rest = l.1.bytes l.2 ++ (blockBytes ls ++ rest) := by
      simp [blockBytes]
    have hlen : p + (blockBytes (l :: ls)).length
        = p + (l.1.bytes l.2).length + (blockBytes ls).length := by
      simp [blockBytes, Nat.add_assoc]
    rw [hbytes, hlen]
    exact (leads_field l.1 l.2 h₁).trans (ih h)

theorem resolve_eol (e : Eol) (rest : Bytes) :
    ∃ c w, e.bytes ++ rest = c :: w ∧ Phase.fieldName.resolve c = .crlfAfterHeaders := by
  cases e with
  | crlf => exact ⟨CR, LF :: rest, rfl, by decide⟩
  | lf => exact ⟨LF, rest, rfl, by decide⟩

theorem leads_headersEnd (e : Eol) (h : P.onHeaders f n = .ok (f', q)) :
    (machine P client).Leads b p (⟨.fieldName, f, n⟩, j) (e.bytes ++ rest) [endOfHeaders p e]
      (p + e.bytes.length) (⟨q, f', n⟩, j) rest := by
  obtain ⟨c, w, hw, hc⟩ := resolve_eol e rest
  have hacc : P.accept ⟨.crlfAfterHeaders, f, n⟩ e.bytes = .ok (⟨q, f', n⟩, .endOfHeaders) := by
    simp only [Policy.accept, h]
  exact leads_lexeme (s := ⟨.fieldName, f, n⟩) hw rfl hc rfl (by simp) (lineEnd_bytes e rest) hacc
    (by simp)

/-- A block of fields that the policy accepts, up to the empty line. -/
theorem leads_headers (e : Eol) (h : P.headers f n (ls.map Prod.fst) = .ok s') :
    (machine P client).Leads b p (⟨.fieldName, f, n⟩, j) (blockBytes ls ++ (e.bytes ++ rest))
      (blockEvents .fieldName .fieldValue p ls ++ [endOfHeaders (p + (blockBytes ls).length) e])
      (p + (blockBytes ls).length + e.bytes.length) (s', j) rest := by
  unfold Policy.headers at h
  split at h
  · cases h
  rename_i f₁ n₁ h₁
  split at h
  · cases h
  rename_i f₂ q h₂
  cases h
  exact (leads_block h₁).trans (leads_headersEnd e h₂)

/-- A field that the policy rejects for its name. -/
theorem runs_name_rejected (x : Field) (e : Eol) (h : P.onFieldName f x.name = .error code) :
    (machine P client).Runs b p (⟨.fieldName, f, n⟩, j) (x.bytes e ++ rest)
      (Token.events p ⟨code, 0, .none⟩) := by
  obtain ⟨c, w, hw, hc⟩ := x.name_cons (0x3A :: (x.text ++ (e.bytes ++ rest)))
  have hbytes : x.bytes e ++ rest = x.name ++ 0x3A :: (x.text ++ (e.bytes ++ rest)) := by
    simp [Field.bytes]
  have hacc : P.accept ⟨.fieldName, f, n⟩ x.name = .error code := by
    simp only [Policy.accept, h]
  rw [hbytes]
  exact runs_rejected (s := ⟨.fieldName, f, n⟩) hw rfl (if_pos hc) rfl (by simp) (x.scan_name rfl) hacc

/-- A field that the policy rejects for its value: the name is reported. -/
theorem runs_value_rejected (x : Field) (e : Eol) (h₁ : P.onFieldName f x.name = .ok f')
    (h : P.onFieldValue f' n x.value = .error code) :
    (machine P client).Runs b p (⟨.fieldName, f, n⟩, j) (x.bytes e ++ rest)
      (.token p ⟨.fieldName, x.name.length, .view x.name⟩ ::
        Token.events (p + x.name.length + (x.lead.length + 1)) ⟨code, 0, .none⟩) := by
  obtain ⟨d, y, he, hd⟩ := e.bytes_cons
  have hbytes : x.bytes e ++ rest = x.name ++ 0x3A :: (x.text ++ d :: (y ++ rest)) := by
    simp [Field.bytes, he]
  have hows : Detail.isOws d = false := not_line_char (by decide) (by decide) hd
  obtain ⟨c, w, hw⟩ := x.raw_cons d (y ++ rest)
  have hacc : P.accept ⟨.fieldValue, f', n⟩ x.raw = .error code := by
    simp only [Policy.accept, trimTail_raw, h]
  have hreject : (machine P client).Runs b (p + x.name.length + (x.lead.length + 1))
      (⟨.fieldValue, f', n⟩, j) (x.raw ++ d :: (y ++ rest)) _ :=
    runs_rejected (s := ⟨.fieldValue, f', n⟩) (q := .fieldValue) hw rfl rfl rfl (by simp)
      (x.scan_raw rfl hd) hacc
  rw [hbytes]
  exact leads_fieldName x h₁ _ (leads_colon (.inl ⟨rfl, rfl, rfl⟩) x hows _ hreject)

/-- The policy can reject a field for its name or for its value. -/
theorem runs_field_rejected (x : Field) (e : Eol) (h : P.readField f n x = .error code) :
    ∃ es o, (machine P client).Runs b p (⟨.fieldName, f, n⟩, j) (x.bytes e ++ rest)
      (es ++ Token.events o ⟨code, 0, .none⟩) ∧ es.any Event.isHeadEnd = false ∧
      es.countP (Event.shows .fieldValue) = 0 := by
  unfold Policy.readField at h
  split at h
  · rename_i h₁
    cases h
    exact ⟨[], p, runs_name_rejected x e h₁, rfl, rfl⟩
  · rename_i f₁ h₁
    exact ⟨[_], _, runs_value_rejected x e h₁ h, rfl, rfl⟩

theorem any_block (p : Nat) (ls : List (Field × Eol)) :
    (blockEvents .fieldName .fieldValue p ls).any Event.isHeadEnd = false := by
  induction ls generalizing p with
  | nil => rfl
  | cons l ls ih =>
    rw [blockEvents, List.any_append, ih]
    rfl

/-- A block with a field that the policy rejects: the value of that field is not reported. -/
theorem runs_block_rejected (h : P.readFields f n (ls.map Prod.fst) = .error code) :
    ∃ es o, (machine P client).Runs b p (⟨.fieldName, f, n⟩, j) (blockBytes ls ++ rest)
      (es ++ Token.events o ⟨code, 0, .none⟩) ∧ es.any Event.isHeadEnd = false ∧
      es.countP (Event.shows .fieldValue) < ls.length := by
  induction ls generalizing f n p with
  | nil => cases h
  | cons l ls ih =>
    have hbytes : blockBytes (l :: ls) ++ rest = l.1.bytes l.2 ++ (blockBytes ls ++ rest) := by
      simp [blockBytes]
    rw [hbytes]
    rw [List.map_cons, Policy.readFields] at h
    cases h₁ : P.readField f n l.1 with
    | error c =>
      rw [h₁] at h
      cases h
      obtain ⟨es, o, hr, hes, hcount⟩ := runs_field_rejected l.1 l.2 h₁
      exact ⟨es, o, hr, hes, by rw [hcount]; exact Nat.succ_pos _⟩
    | ok r =>
      rw [h₁] at h
      obtain ⟨es, o, hr, hes, hcount⟩ := ih (p := p + (l.1.bytes l.2).length) h
      refine ⟨l.1.events .fieldName .fieldValue p ++ es, o, ?_, ?_, ?_⟩
      · rw [List.append_assoc]
        exact leads_field l.1 l.2 h₁ _ hr
      · rw [List.any_append, hes]
        rfl
      · have hfield : (l.1.events .fieldName .fieldValue p).countP (Event.shows .fieldValue) = 1 := rfl
        rw [List.countP_append, hfield, List.length_cons]
        omega

/-- The empty line behind fields that do not allow the headers to end. -/
theorem runs_headersEnd_rejected (e : Eol) (h : P.onHeaders f n = .error code) :
    (machine P client).Runs b p (⟨.fieldName, f, n⟩, j) (e.bytes ++ rest)
      (Token.events p ⟨code, 0, .none⟩) := by
  obtain ⟨c, w, hw, hc⟩ := resolve_eol e rest
  have hacc : P.accept ⟨.crlfAfterHeaders, f, n⟩ e.bytes = .error code := by
    simp only [Policy.accept, h]
  exact runs_rejected (s := ⟨.fieldName, f, n⟩) hw rfl hc rfl (by simp) (lineEnd_bytes e rest) hacc

/-- A block of fields that the policy rejects. -/
theorem runs_headers_rejected (e : Eol) (h : P.headers f n (ls.map Prod.fst) = .error code) :
    ∃ es o, (machine P client).Runs b p (⟨.fieldName, f, n⟩, j)
      (blockBytes ls ++ (e.bytes ++ rest)) (es ++ Token.events o ⟨code, 0, .none⟩) ∧
      es.any Event.isHeadEnd = false := by
  unfold Policy.headers at h
  split at h
  · rename_i h₁
    cases h
    obtain ⟨es, o, hr, hes, -⟩ := runs_block_rejected h₁
    exact ⟨es, o, hr, hes⟩
  · rename_i f₁ n₁ h₁
    split at h
    · rename_i h₂
      cases h
      exact ⟨_, _, leads_block h₁ _ (runs_headersEnd_rejected e h₂), any_block p ls⟩
    · cases h

/-! ## What a head must have looked like -/

/-- A run in which a token is observed begins with a token. -/
theorem of_runs {d : Code} (hd : d.isFatal = false) (hP : P.FailsWith fun c => c.isFatal = true)
    (hr : (machine P client).Runs b p (s, j) w v) (hv : v.any (Event.shows d) = true) :
    ∃ s' k code v', P.lex b s w = .emit s' k code ∧
      v = Token.events p ⟨code, k, tokenValue code s'.bodySize w k⟩ ++ v' ∧
      (code ≠ d → v'.any (Event.shows d) = true) ∧
      (code ≠ .statusCode → (machine P client).Runs b (p + k) (s', j) (w.drop k) v') := by
  cases hr with
  | need _ => cases hv
  | @fail _ _ _ t h =>
    obtain ⟨hlex, -⟩ := step_fail_iff.mp h
    have hf : t.code.isFatal = true := hP.lex (fun _ => rfl) hlex
    have hne : t.code ≠ d := by
      intro hc
      rw [hc, hd] at hf
      cases hf
    change (t.events p).any (Event.shows d) = true at hv
    rw [any_events hne] at hv
    cases hv
  | @emit _ _ _ c' k t v' h hr =>
    obtain ⟨hlex, hj, ht⟩ := step_emit_iff.mp h
    obtain ⟨s', j'⟩ := c'
    dsimp only at hlex hj ht
    rw [ht] at hr ⊢
    rw [hj] at hr
    refine ⟨s', k, t.code, v', hlex, rfl, fun hc => ?_, fun hc => ?_⟩
    · change (t.events p ++ v').any (Event.shows d) = true at hv
      rwa [List.any_append, any_events hc, Bool.false_or] at hv
    · have hreact : (machine P client).react ⟨t.code, k, tokenValue t.code s'.bodySize w k⟩ (s', j)
          = (s', j) := if_neg hc
      rwa [hreact] at hr

theorem lex_nil_ne_emit (hz : s.phase.isZeroSized = false) (hu : s.phase ≠ .unsafeBody) {k : Nat} :
    P.lex b s [] ≠ .emit s' k code := by
  intro h
  exact hu (of_lex_nil_emit hz h).1

/-- A token found through a window, in a phase with lexemes, is one of the whole input. -/
theorem of_lex_lexeme {k : Nat} (hz : s.phase.isZeroSized = false) (hu : s.phase ≠ .unsafeBody)
    (he : ∀ c, (s.phase.resolve c).isElastic = false) (hw : w <+: raw)
    (h : P.lex b s w = .emit s' k code) :
    ∃ c x, raw = c :: x ∧ (s.phase.resolve c).scan raw = .ok k ∧
      P.accept (s.goto (s.phase.resolve c)) (raw.take k) = .ok (s', code) := by
  have hk := lex_le h
  obtain ⟨z, rfl⟩ := hw
  cases w with
  | nil => exact absurd h (lex_nil_ne_emit hz hu)
  | cons c x =>
    rw [lex_cons hz, lexeme_of_rigid (he c)] at h
    obtain ⟨-, hscan, hacc⟩ := scanned_emit h
    refine ⟨c, x ++ z, rfl, (Phase.stable_scan _).ok hscan z, ?_⟩
    rw [List.take_append_of_le_length hk]
    exact hacc

/-- Such a run in a phase with lexemes begins with one. -/
theorem of_runs_lexeme {d : Code} (hd : d.isFatal = false)
    (hP : P.FailsWith fun c => c.isFatal = true)
    (hz : s.phase.isZeroSized = false) (hu : s.phase ≠ .unsafeBody)
    (he : ∀ c, (s.phase.resolve c).isElastic = false)
    (hr : (machine P client).Runs b p (s, j) w v) (hv : v.any (Event.shows d) = true) :
    ∃ c x raw rest s' code v', w = c :: x ∧ w = raw ++ rest ∧
      (s.phase.resolve c).scan (raw ++ rest) = .ok raw.length ∧
      P.accept (s.goto (s.phase.resolve c)) raw = .ok (s', code) ∧
      (code ≠ d → v'.any (Event.shows d) = true) ∧
      (code ≠ .statusCode → (machine P client).Runs b (p + raw.length) (s', j) rest v') := by
  obtain ⟨s', k, code, v', hlex, -, hany, hrun⟩ := of_runs hd hP hr hv
  have hlen : (w.take k).length = k := by rw [List.length_take, Nat.min_eq_left (lex_le hlex)]
  obtain ⟨c, x, hcx, hscan, hacc⟩ := of_lex_lexeme hz hu he List.prefix_rfl hlex
  refine ⟨c, x, w.take k, w.drop k, s', code, v', hcx, (List.take_append_drop k _).symm, ?_, hacc,
    hany, ?_⟩
  · rw [List.take_append_drop, hlen]
    exact hscan
  · rw [hlen]
    exact hrun

/-- A phase with a fixed next phase has a lexeme, and takes it as a whole. -/
theorem follows_rigid {q' : Phase} (hf : q.follows = some (q', code))
    (hres : ∀ c, q.resolve c = q) :
    q.isZeroSized = false ∧ q ≠ .unsafeBody ∧ q.isElastic = false := by
  cases q <;> cases hf
  case chunkExt => cases hres CR
  all_goals exact ⟨rfl, by simp, rfl⟩

/-- The same where the phase after the lexeme is fixed. -/
theorem of_runs_follows {q' : Phase} {d : Code} (hd : d.isFatal = false)
    (hP : P.FailsWith fun c => c.isFatal = true)
    (hf : q.follows = some (q', code)) (hres : ∀ c, q.resolve c = q) (hc : code ≠ d)
    (hc' : code ≠ .statusCode) (hr : (machine P client).Runs b p (⟨q, f, n⟩, j) w v)
    (hv : v.any (Event.shows d) = true) :
    ∃ raw rest v', w = raw ++ rest ∧ q.scan (raw ++ rest) = .ok raw.length ∧
      (machine P client).Runs b (p + raw.length) (⟨q', f, n⟩, j) rest v' ∧
      v'.any (Event.shows d) = true := by
  obtain ⟨hz, hu, he⟩ := follows_rigid hf hres
  obtain ⟨c, x, raw, rest, s', code', v', -, hw, hscan, hacc, hany, hrun⟩ :=
    of_runs_lexeme (s := ⟨q, f, n⟩) hd hP hz hu (fun c => by rw [hres c]; exact he) hr hv
  dsimp only at hscan hacc
  rw [hres] at hscan hacc
  rw [accept_follows (s := Core.goto ⟨q, f, n⟩ q) hf] at hacc
  cases hacc
  exact ⟨raw, rest, v', hw, hscan, hrun hc', hany hc⟩

/-- Such a run passes a colon and the whitespace after it. -/
theorem of_runs_colon {d : Code} (hd : d.isFatal = false)
    (hP : P.FailsWith fun c => c.isFatal = true) (hp : ValuePhases col ows value)
    (hr : (machine P client).Runs b p (⟨col, f, n⟩, j) w v)
    (hv : v.any (Event.shows d) = true) :
    ∃ x, w = 0x3A :: x ∧
      (machine P client).Runs b (p + ((x.takeWhile Detail.isOws).length + 1)) (⟨value, f, n⟩, j)
        (x.dropWhile Detail.isOws) v := by
  obtain ⟨s', k, code, -, hlex, -⟩ := of_runs hd hP hr hv
  have hz : col.isZeroSized = false ∧ ows.isZeroSized = false := by
    rcases hp with ⟨rfl, rfl, -⟩ | ⟨rfl, rfl, -⟩ <;> exact ⟨rfl, rfl⟩
  have hu : col ≠ .unsafeBody ∧ ows ≠ .unsafeBody := by
    rcases hp with ⟨rfl, rfl, -⟩ | ⟨rfl, rfl, -⟩ <;> exact ⟨nofun, nofun⟩
  cases w with
  | nil => exact absurd hlex (lex_nil_ne_emit hz.1 hu.1)
  | cons c x =>
    rw [lex_colon hp rfl, lexColon] at hlex
    split at hlex
    · cases hlex
    · rename_i hc
      have hc : c = 0x3A := by simpa using hc
      subst hc
      refine ⟨x, rfl, ?_⟩
      rw [runs_colon hp rfl] at hr
      cases hx : x.dropWhile Detail.isOws with
      | cons a y =>
        rw [afterOws, hx, if_neg (by simp)] at hr
        exact hr
      | nil =>
        rw [afterOws, hx, if_pos (by simp)] at hr
        obtain ⟨_, _, _, _, hlex', -⟩ := of_runs hd hP hr hv
        exact absurd hlex' (lex_nil_ne_emit hz.2 hu.2)

theorem isFieldValueChar_of_isOws (h : Detail.isOws c = true) : Syntax.isFieldValueChar c = true := by
  rw [Syntax.isFieldValueChar, Syntax.isOws_eq, h, Bool.or_true]

theorem of_scan_nonempty {pr : UInt8 → Bool}
    (h : spanned pr (fun n _ => n != 0) (raw ++ rest) = .ok raw.length) :
    raw ≠ [] ∧ ∀ a ∈ raw, pr a = true := by
  obtain ⟨c, z, -, hchars, -, hk, -⟩ := spanned_ok h
  rw [List.take_left] at hchars
  refine ⟨?_, hchars⟩
  rintro rfl
  cases hk

theorem of_scan_one {pr : UInt8 → Bool} (h : fixed 1 (·.all pr) (raw ++ rest) = .ok raw.length) :
    ∃ c, raw = [c] ∧ pr c = true := by
  obtain ⟨hlen, -, hall⟩ := fixed_ok h
  match raw, hlen with
  | [c], _ => exact ⟨c, rfl, by simpa using hall⟩

/-- The field of a name, whitespace and a value that does not begin with whitespace. -/
theorem exists_field {name y raw rest : Bytes}
    (hname : Phase.fieldName.scan (name ++ 0x3A :: y) = .ok name.length)
    (hraw : y.dropWhile Detail.isOws = raw ++ rest)
    (hvalue : Phase.fieldValue.scan (raw ++ rest) = .ok raw.length) :
    ∃ x : Field, x.name = name ∧ x.raw = raw ∧ name ++ 0x3A :: y = x.name ++ 0x3A :: (x.text ++ rest) := by
  simp only [Phase.scan] at hname hvalue
  obtain ⟨hne, htchar⟩ := of_scan_nonempty hname
  obtain ⟨c, z, -, hchars, -, -, -⟩ := spanned_ok hvalue
  rw [List.take_left] at hchars
  have hlead : ∀ a ∈ y.takeWhile Detail.isOws, Detail.isOws a = true :=
    fun a ha => List.mem_takeWhile_imp ha
  have htext : ∀ a ∈ y.takeWhile Detail.isOws ++ raw, isText a = true := by
    intro a ha
    rw [← isFieldValueChar_eq]
    rcases List.mem_append.mp ha with ha | ha
    · exact isFieldValueChar_of_isOws (hlead a ha)
    · exact hchars a ha
  refine ⟨⟨name, _, hne, fun a ha => (isTchar_iff a).mp (htchar a ha), htext⟩, rfl, ?_, ?_⟩
  · rw [Field.raw, List.dropWhile_append_of_pos hlead]
    cases raw with
    | nil => rfl
    | cons d raw =>
      have hows : Detail.isOws d = false := not_of_dropWhile hraw
      rw [List.dropWhile_cons_of_neg (by simp [hows])]
  · change _ = name ++ 0x3A :: ((y.takeWhile Detail.isOws ++ raw) ++ rest)
    rw [List.append_assoc, ← hraw, List.takeWhile_append_dropWhile]

/-- Where a field may start, such a run finds the end of the headers or a field. -/
theorem of_runs_fieldName (hP : P.FailsWith fun c => c.isFatal = true)
    (hr : (machine P client).Runs b p (⟨.fieldName, f, n⟩, j) w v)
    (hv : v.any Event.isHeadEnd = true) :
    (∃ e rest f' q, w = Eol.bytes e ++ rest ∧ P.onHeaders f n = .ok (f', q)) ∨
      ∃ x e rest f' n' o v', w = Field.bytes x e ++ rest ∧ P.readField f n x = .ok (f', n') ∧
        (machine P client).Runs b o (⟨.fieldName, f', n'⟩, j) rest v' ∧
        v'.any Event.isHeadEnd = true := by
  obtain ⟨c, -, name, y, s₁, code, v₁, -, hw, hscan, hacc, hany, hrun⟩ :=
    of_runs_lexeme (s := ⟨.fieldName, f, n⟩) rfl hP rfl (by simp)
      (fun c => by simp only [Phase.resolve]; split <;> rfl) hr hv
  simp only [Phase.resolve] at hscan hacc
  by_cases hc : Detail.isTchar c = true
  · rw [if_pos hc] at hscan hacc
    simp only [Policy.accept, Core.goto_phase, Core.goto_framing] at hacc
    split at hacc
    · cases hacc
    rename_i f₁ hname
    cases hacc
    obtain ⟨y, rfl, hrun₁⟩ :=
      of_runs_colon rfl hP (.inl ⟨rfl, rfl, rfl⟩) (hrun (by simp)) (hany (by simp))
    obtain ⟨_, -, raw, z, s₂, code₂, v₂, -, hraw, hscan₂, hacc₂, hany₂, hrun₂⟩ :=
      of_runs_lexeme (s := ⟨.fieldValue, f₁, n⟩) rfl hP rfl (by simp) (fun _ => rfl) hrun₁
        (hany (by simp))
    obtain ⟨x, hxn, hxr, hx⟩ := exists_field hscan hraw hscan₂
    simp only [Policy.accept, Phase.resolve, Core.goto_phase, Core.goto_framing,
      Core.goto_bodySize] at hacc₂
    split at hacc₂
    · cases hacc₂
    rename_i f₂ n₂ hvalue
    cases hacc₂
    obtain ⟨eol, rest, v₃, rfl, hscan₃, hrun₃, hany₃⟩ :=
      of_runs_follows (q := .crlfAfterFieldValue) rfl hP rfl (fun _ => rfl) (by simp) (by simp)
        (hrun₂ (by simp)) (hany₂ (by simp))
    obtain ⟨e, rfl⟩ := of_lineEnd hscan₃
    refine .inr ⟨x, e, rest, f₂, n₂, _, v₃, ?_, ?_, hrun₃, hany₃⟩
    · rw [hw, hx]
      simp [Field.bytes]
    · rw [Policy.readField, hxn, hname, ← trimTail_raw, hxr]
      exact hvalue
  · rw [if_neg hc] at hscan hacc
    simp only [Policy.accept, Core.goto_phase, Core.goto_framing, Core.goto_bodySize] at hacc
    split at hacc
    · cases hacc
    rename_i f₁ q hheaders
    obtain ⟨e, rfl⟩ := of_lineEnd hscan
    exact .inl ⟨e, y, f₁, q, hw, hheaders⟩

/-- A run in which a head ends has passed a block of fields that the policy accepts. -/
theorem of_runs_headers (hP : P.FailsWith fun c => c.isFatal = true)
    (hr : (machine P client).Runs b p (⟨.fieldName, f, n⟩, j) w v)
    (hv : v.any Event.isHeadEnd = true) :
    ∃ ls e rest s', w = blockBytes ls ++ (Eol.bytes e ++ rest) ∧
      P.headers f n (ls.map Prod.fst) = .ok s' := by
  induction hk : w.length using Nat.strongRecOn generalizing p f n w v with
  | ind k ih =>
    rcases of_runs_fieldName hP hr hv with
      ⟨e, rest, f', q, hw, hh⟩ | ⟨x, e, rest, f', n', o, v', hw, hx, hr', hv'⟩
    · refine ⟨[], e, rest, ⟨q, f', n⟩, hw, ?_⟩
      simp only [List.map_nil, Policy.headers, Policy.readFields, hh]
    · have hlt : rest.length < k := by
        rw [← hk, hw]
        simp only [Field.bytes, List.length_append, List.length_cons]
        omega
      obtain ⟨ls, e', rest', s', hrest, hs'⟩ := ih _ hlt hr' hv' rfl
      refine ⟨(x, e) :: ls, e', rest', s', ?_, ?_⟩
      · rw [hw, hrest]
        simp [blockBytes]
      · simp only [Policy.headers, List.map_cons, Policy.readFields, hx]
        exact hs'

end Lexemes

end BoostHttp
