import BoostHttp.Fields
import BoostHttp.Record

/-!
# Objections — why a reader rejects the fields of a head

A reader reports the fields of a head up to the first one that it objects to, and then the error.
Whether it objects to a field depends on the fields before it only.
-/

open Incremental

namespace BoostHttp

structure Objection where
  code : Code
  atName : Bool
  deriving DecidableEq, Repr

/-- What is reported of a field at an offset: its name, unless it is the name that is rejected, and
the error. -/
def Objection.events (o : Objection) (p : Nat) (x : Field) : List Event :=
  if o.atName then Token.events p ⟨o.code, 0, .none⟩
  else .token p ⟨.fieldName, x.name.length, .view x.name⟩ ::
    Token.events (p + x.name.length + (x.lead.length + 1)) ⟨o.code, 0, .none⟩

theorem Objection.shows_code {o : Objection} (h : o.code.isFatal = true) (p : Nat) (x : Field) :
    (o.events p x).any (Event.shows o.code) = true := by
  unfold Objection.events
  split <;> simp [any_shows_events (Code.isShown_of_isFatal h)]

def Faultless (objection : List Field → Field → Option Objection) : List Field → List Field → Prop
  | _, [] => True
  | pre, x :: xs => objection pre x = none ∧ Faultless objection (pre ++ [x]) xs

section Policy

variable {φ : Type} {P : Policy φ} {memory : List Field → φ}
  {objection : List Field → Field → Option Objection} {client : Client φ} {b : Bool} {p n j : Nat}
  {pre xs : List Field} {x : Field} {ls : List (Field × Eol)} {o : Objection} {rest : Bytes}

/-- A policy remembers `memory pre` of the fields `pre`, and `objection` is what it has against the
field behind them. -/
structure Policy.Objects (P : Policy φ) (memory : List Field → φ)
    (objection : List Field → Field → Option Objection) : Prop where
  accepted : ∀ {pre x} n, objection pre x = none →
    ∃ n', P.readField (memory pre) n x = .ok (memory (pre ++ [x]), n')
  name : ∀ {pre x c}, objection pre x = some ⟨c, true⟩ →
    P.onFieldName (memory pre) x.name = .error c
  value : ∀ {pre x c} n, objection pre x = some ⟨c, false⟩ →
    ∃ f, P.onFieldName (memory pre) x.name = .ok f ∧ P.onFieldValue f n x.value = .error c

theorem Policy.Objects.readField_error (hO : P.Objects memory objection) (n : Nat)
    (h : objection pre x = some o) : P.readField (memory pre) n x = .error o.code := by
  obtain ⟨c, atName⟩ := o
  unfold Policy.readField
  cases atName with
  | true => rw [hO.name h]
  | false =>
    obtain ⟨f, hname, hvalue⟩ := hO.value n h
    rw [hname]
    exact hvalue

theorem Policy.Objects.fails {E : Code → Prop} (hO : P.Objects memory objection)
    (hP : P.FailsWith E) (h : objection pre x = some o) : E o.code := by
  have hread : P.readFields (memory pre) 0 [x] = .error o.code := by
    rw [Policy.readFields, hO.readField_error 0 h]
  exact hP.readFields hread

/-- The fields can be read when there is nothing against them. -/
theorem Policy.Objects.readFields (hO : P.Objects memory objection) (n : Nat)
    (h : Faultless objection pre xs) :
    ∃ n', P.readFields (memory pre) n xs = .ok (memory (pre ++ xs), n') := by
  induction xs generalizing pre n with
  | nil => exact ⟨n, by rw [List.append_nil]; rfl⟩
  | cons x xs ih =>
    obtain ⟨n₁, hx⟩ := hO.accepted n h.1
    obtain ⟨n₂, hxs⟩ := ih n₁ h.2
    refine ⟨n₂, ?_⟩
    rw [Policy.readFields, hx]
    rw [List.append_assoc] at hxs
    exact hxs

theorem Policy.Objects.faultless (hO : P.Objects memory objection) {r : φ × Nat}
    (h : P.readFields (memory pre) n xs = .ok r) : Faultless objection pre xs := by
  induction xs generalizing pre n with
  | nil => trivial
  | cons x xs ih =>
    rw [Policy.readFields] at h
    cases hx : objection pre x with
    | none =>
      obtain ⟨n₁, hread⟩ := hO.accepted n hx
      rw [hread] at h
      exact ⟨hx, ih h⟩
    | some o =>
      rw [hO.readField_error n hx] at h
      cases h

/-- When there is nothing against the fields, the end of the headers decides. -/
theorem Policy.Objects.headers (hO : P.Objects memory objection) (n : Nat)
    (h : Faultless objection [] xs) : ∃ n', P.headers (memory []) n xs =
      (P.onHeaders (memory xs) n').map fun r => ⟨r.2, r.1, n'⟩ := by
  obtain ⟨n', hread⟩ := hO.readFields n h
  rw [List.nil_append] at hread
  refine ⟨n', ?_⟩
  simp only [Policy.headers, hread]
  cases P.onHeaders (memory xs) n' <;> rfl

theorem Policy.Objects.of_headers (hO : P.Objects memory objection) {s' : Core φ}
    (h : P.headers (memory []) n xs = .ok s') : Faultless objection [] xs := by
  unfold Policy.headers at h
  split at h
  · cases h
  · rename_i hread
    exact hO.faultless hread

/-- The fields are reported up to the one that is objected to. -/
theorem Policy.Objects.runs (hO : P.Objects memory objection) (e : Eol)
    (h : Faultless objection [] (ls.map Prod.fst)) (hx : objection (ls.map Prod.fst) x = some o) :
    (machine P client).Runs b p (⟨.fieldName, memory [], n⟩, j)
      (blockBytes ls ++ (x.bytes e ++ rest))
      (blockEvents .fieldName .fieldValue p ls ++ o.events (p + (blockBytes ls).length) x) := by
  obtain ⟨n', hblock⟩ := hO.readFields n h
  rw [List.nil_append] at hblock
  refine leads_block hblock _ ?_
  obtain ⟨c, atName⟩ := o
  cases atName with
  | true => exact runs_name_rejected x e (hO.name hx)
  | false =>
    obtain ⟨f, hname, hvalue⟩ := hO.value n' hx
    exact runs_value_rejected x e hname hvalue

end Policy

/-! ## The fields about the body -/

def Mode.of (te : Bool) (pre : List Field) : Mode :=
  if encodings te pre = [] then (if lengths te pre = [] then .unknown else .counted)
  else encodedMode (encodings te pre)

def lengthError (v : Bytes) : Option Code :=
  match (Syntax.contentLengthDecode 64 v 0).1 with
  | .ok => none
  | .invalid => some .errorInvalidContentLength
  | .overflow => some .errorContentLengthOverflow

/-- What both readers have against a field: an encoding behind a chunked one, or one that is not
valid; and before the first encoding, a second length, or one that is no numeral in range. -/
def bodyObjection (te : Bool) (pre : List Field) (x : Field) : Option Objection :=
  if x.encodes te then
    if endsChunked (encodings te pre) then some ⟨.errorInvalidTransferEncoding, true⟩
    else if Detail.decodeTransferEncoding x.value = .chunkedInvalid then
      some ⟨.errorInvalidTransferEncoding, false⟩
    else none
  else if x.isLength ∧ encodings te pre = [] then
    if lengths te pre ≠ [] then some ⟨.errorInvalidContentLength, true⟩
    else (lengthError x.value).map fun c => ⟨c, false⟩
  else none

section Body

variable {te : Bool} {pre : List Field} {x : Field}

theorem encodings_concat : encodings te (pre ++ [x])
    = encodings te pre ++ if x.encodes te then [x.value] else [] := by
  unfold encodings
  rw [List.filter_append, List.map_append]
  cases h : x.encodes te <;> simp [h]

theorem lengths_concat : lengths te (pre ++ [x]) = lengths te pre ++
    if encodings te pre = [] ∧ x.encodes te = false ∧ x.isLength then [x.value] else [] := by
  induction pre with
  | nil =>
    rw [List.nil_append]
    cases h : x.encodes te with
    | true => rw [lengths_cons_encoding h]; simp [lengths]
    | false =>
      cases hl : x.isLength with
      | true => rw [lengths_cons_length h hl]; simp [lengths, encodings]
      | false => rw [lengths_cons_neg h hl]; simp [lengths]
  | cons y pre ih =>
    rw [List.cons_append]
    cases h : y.encodes te with
    | true => simp [lengths_cons_encoding h, encodings_cons_pos h]
    | false =>
      rw [encodings_cons_neg h]
      cases hl : y.isLength with
      | true => rw [lengths_cons_length h hl, lengths_cons_length h hl, ih, List.cons_append]
      | false => rw [lengths_cons_neg h hl, lengths_cons_neg h hl, ih]

theorem endsChunked_concat (vs : List Bytes) (v : Bytes) :
    endsChunked (vs ++ [v]) = (Detail.decodeTransferEncoding v == .chunkedAtEnd) := by
  simp [endsChunked]

theorem lengthError_none {v : Bytes} (h : lengthError v = none) (n : Nat) :
    ∃ k, Syntax.contentLengthDecode 64 v n = (.ok, k) := by
  have hne : v ≠ [] := by
    rintro rfl
    cases h
  have hdecode : Syntax.contentLengthDecode 64 v n = Syntax.contentLengthDecode 64 v 0 :=
    Syntax.decode_congr 64 Syntax.decimal hne n 0
  rw [hdecode]
  unfold lengthError at h
  generalize Syntax.contentLengthDecode 64 v 0 = r at h ⊢
  obtain ⟨res, k⟩ := r
  cases res <;> cases h
  exact ⟨k, rfl⟩

theorem lengthError_some {v : Bytes} {c : Code} (h : lengthError v = some c) (n : Nat) :
    ∃ k, Syntax.contentLengthDecode 64 v n = (.invalid, k) ∧ c = .errorInvalidContentLength ∨
      Syntax.contentLengthDecode 64 v n = (.overflow, k) ∧ c = .errorContentLengthOverflow := by
  have hdecode : (Syntax.contentLengthDecode 64 v n).1 = (Syntax.contentLengthDecode 64 v 0).1 := by
    by_cases hne : v = []
    · subst hne
      rfl
    · exact congrArg Prod.fst (Syntax.decode_congr 64 Syntax.decimal hne n 0)
  unfold lengthError at h
  rw [← hdecode] at h
  generalize Syntax.contentLengthDecode 64 v n = r at h ⊢
  obtain ⟨res, k⟩ := r
  cases res <;> cases h
  · exact ⟨k, .inl ⟨rfl, rfl⟩⟩
  · exact ⟨k, .inr ⟨rfl, rfl⟩⟩

/-- What a field says about the body, if nothing has been against it. -/
theorem Mode.of_concat (h : x.encodes te = false ∧ x.isLength = false ∨
    x.encodes te = false ∧ encodings te pre ≠ []) : Mode.of te (pre ++ [x]) = Mode.of te pre := by
  have hx : x.encodes te = false := by
    rcases h with ⟨hx, -⟩ | ⟨hx, -⟩ <;> exact hx
  have henc : encodings te (pre ++ [x]) = encodings te pre := by simp [encodings_concat, hx]
  have hlen : lengths te (pre ++ [x]) = lengths te pre := by
    rcases h with ⟨-, hl⟩ | ⟨-, he⟩
    · simp [lengths_concat, hl]
    · simp [lengths_concat, he]
  rw [Mode.of, henc, hlen, Mode.of]

theorem Mode.of_ne_chunked (h : endsChunked (encodings te pre) = false) :
    Mode.of te pre ≠ .chunked := by
  unfold Mode.of
  split
  · split <;> simp
  · simp [encodedMode, h]

/-- A field that there is nothing against is read. -/
theorem step_of (n : Nat) (h : bodyObjection te pre x = none) :
    ∃ n', Mode.step te (Mode.of te pre) n x = some (Mode.of te (pre ++ [x]), n') := by
  unfold bodyObjection at h
  cases hx : x.encodes te with
  | true =>
    rw [if_pos hx] at h
    split at h
    · cases h
    rename_i hc
    split at h
    · cases h
    rename_i hd
    rw [step_encoding hx (Mode.of_ne_chunked (by simpa using hc))]
    have hof : Mode.of te (pre ++ [x])
        = if Detail.decodeTransferEncoding x.value = .chunkedAtEnd then .chunked else .encoded := by
      have henc : encodings te (pre ++ [x]) = encodings te pre ++ [x.value] := by
        simp [encodings_concat, hx]
      rw [Mode.of, henc, if_neg (by simp), encodedMode, endsChunked_concat]
      simp only [beq_iff_eq]
    refine ⟨n, ?_⟩
    rw [hof]
    unfold Mode.step
    simp only [hx, if_true]
    cases hv : Detail.decodeTransferEncoding x.value with
    | chunkedInvalid => exact absurd hv hd
    | chunkedNotFound => rfl
    | chunkedAtEnd => rfl
  | false =>
    rw [if_neg (by simp [hx])] at h
    by_cases hl : x.isLength = true
    · by_cases he : encodings te pre = []
      · rw [if_pos ⟨hl, he⟩] at h
        split at h
        · cases h
        rename_i hls
        rw [not_not] at hls
        rw [Option.map_eq_none_iff] at h
        obtain ⟨k, hk⟩ := lengthError_none h n
        refine ⟨k, ?_⟩
        have henc : encodings te (pre ++ [x]) = [] := by simp [encodings_concat, hx, he]
        have hlen : lengths te (pre ++ [x]) ≠ [] := by simp [lengths_concat, hx, he, hl]
        have hof : Mode.of te pre = .unknown := by rw [Mode.of, if_pos he, if_pos hls]
        rw [hof, Mode.of, if_pos henc, if_neg hlen]
        simp [Mode.step, hx, hl, hk]
      · -- behind an encoding a length does not count
        refine ⟨n, ?_⟩
        rw [Mode.of_concat (.inr ⟨hx, he⟩), Mode.of, if_neg he, encodedMode]
        split <;> simp [Mode.step, hx]
    · have hl : x.isLength = false := by simpa using hl
      rw [Mode.of_concat (.inl ⟨hx, hl⟩)]
      exact ⟨n, step_other hx hl⟩

theorem Mode.of_eq_chunked (h : endsChunked (encodings te pre) = true) : Mode.of te pre = .chunked := by
  have hne : encodings te pre ≠ [] := by
    intro hnil
    rw [hnil] at h
    cases h
  rw [Mode.of, if_neg hne, encodedMode, if_pos h]

/-- The four reasons to object to a field about the body. -/
theorem bodyObjection_cases {o : Objection} (h : bodyObjection te pre x = some o) :
    x.encodes te = true ∧
      (Mode.of te pre = .chunked ∧ o = ⟨.errorInvalidTransferEncoding, true⟩ ∨
        Mode.of te pre ≠ .chunked ∧ Detail.decodeTransferEncoding x.value = .chunkedInvalid ∧
          o = ⟨.errorInvalidTransferEncoding, false⟩) ∨
    x.encodes te = false ∧ x.isLength = true ∧
      (Mode.of te pre = .counted ∧ o = ⟨.errorInvalidContentLength, true⟩ ∨
        Mode.of te pre = .unknown ∧ ∃ c, lengthError x.value = some c ∧ o = ⟨c, false⟩) := by
  unfold bodyObjection at h
  split at h
  · rename_i hx
    refine .inl ⟨hx, ?_⟩
    split at h
    · rename_i hc
      cases h
      exact .inl ⟨Mode.of_eq_chunked hc, rfl⟩
    · rename_i hc
      split at h <;> cases h
      rename_i hd
      exact .inr ⟨Mode.of_ne_chunked (by simpa using hc), hd, rfl⟩
  · rename_i hx
    split at h
    · rename_i hl
      refine .inr ⟨by simpa using hx, hl.1, ?_⟩
      split at h
      · rename_i hls
        cases h
        exact .inl ⟨by rw [Mode.of, if_pos hl.2, if_neg hls], rfl⟩
      · rename_i hls
        obtain ⟨c, hc, rfl⟩ := Option.map_eq_some_iff.mp h
        exact .inr ⟨by rw [Mode.of, if_pos hl.2, if_pos (not_not.mp hls)], c, hc, rfl⟩
    · cases h

end Body

end BoostHttp
