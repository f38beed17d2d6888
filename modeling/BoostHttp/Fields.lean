import BoostHttp.Grammar
import BoostHttp.Numbers

/-!
# Fields — what the fields of a head say about the body

The fields that matter are `Host`, `Transfer-Encoding` and `Content-Length`, in any order and number
and between any others.  `Mode` is what has to be remembered of them while they are read one by one;
`read_iff` says when reading succeeds, and what it ends with, in terms of the list as a whole.
-/

open Incremental

namespace BoostHttp

namespace Field

def isHost (x : Field) : Bool := iequals x.name (ascii "Host")
def isEncoding (x : Field) : Bool := iequals x.name (ascii "Transfer-Encoding")
def isLength (x : Field) : Bool := iequals x.name (ascii "Content-Length")

def ofLength (text : Bytes) (h : ∀ c ∈ text, isText c = true) : Field :=
  ⟨ascii "Content-Length", text, by decide +kernel, by decide +kernel, h⟩

def encodes (te : Bool) (x : Field) : Bool := te && x.isEncoding

theorem not_iequals {a b c : Bytes} (h : iequals a b = true) (hbc : iequals b c = false) :
    iequals a c = false := by
  simp only [iequals, beq_iff_eq, beq_eq_false_iff_ne] at *
  rwa [h]

theorem isEncoding_of_isHost {x : Field} (h : x.isHost = true) : x.isEncoding = false :=
  not_iequals h (by decide)

theorem isLength_of_isHost {x : Field} (h : x.isHost = true) : x.isLength = false :=
  not_iequals h (by decide)

end Field

/-! ## The lists of values -/

/-- The values of the `Transfer-Encoding` fields; with `te = false` they are disregarded. -/
def encodings (te : Bool) (xs : List Field) : List Bytes :=
  (xs.filter (Field.encodes te)).map Field.value

/-- The values of the `Content-Length` fields before the first `Transfer-Encoding` field. -/
def lengths (te : Bool) (xs : List Field) : List Bytes :=
  ((xs.takeWhile fun x => !x.encodes te).filter Field.isLength).map Field.value

def IsNumeral (v : Bytes) : Prop :=
  v ≠ [] ∧ (∀ c ∈ v, c ∈ Alphabet.digits) ∧ Syntax.base10 v < 2 ^ 64

def AtMostOneNumeral (vs : List Bytes) : Prop := vs.length ≤ 1 ∧ ∀ v ∈ vs, IsNumeral v

def ValidEncodings (vs : List Bytes) : Prop :=
  (∀ v ∈ vs.dropLast, Detail.decodeTransferEncoding v = .chunkedNotFound) ∧
    ∀ v ∈ vs.getLast?, Detail.decodeTransferEncoding v ≠ .chunkedInvalid

def endsChunked (vs : List Bytes) : Bool :=
  vs.getLast?.any fun v => Detail.decodeTransferEncoding v == .chunkedAtEnd

theorem contentLength_iff {v : Bytes} {out n : Nat} :
    Syntax.contentLengthDecode 64 v out = (.ok, n) ↔ IsNumeral v ∧ n = Syntax.base10 v :=
  Syntax.contentLength_ok_iff

/-! ## Reading field by field -/

inductive Mode where
  | unknown
  | counted
  | encoded
  | chunked
  deriving DecidableEq, Repr

def Mode.step (te : Bool) (m : Mode) (n : Nat) (x : Field) : Option (Mode × Nat) :=
  if x.encodes te then
    match m with
    | .chunked => none
    | _ =>
      match Detail.decodeTransferEncoding x.value with
      | .chunkedInvalid => none
      | .chunkedNotFound => some (.encoded, n)
      | .chunkedAtEnd => some (.chunked, n)
  else if x.isLength then
    match m with
    | .unknown =>
      match Syntax.contentLengthDecode 64 x.value n with
      | (.ok, k) => some (.counted, k)
      | _ => none
    | .counted => none
    | _ => some (m, n)
  else some (m, n)

def Mode.read (te : Bool) : Mode → Nat → List Field → Option (Mode × Nat)
  | m, n, [] => some (m, n)
  | m, n, x :: xs =>
    match Mode.step te m n x with
    | none => none
    | some (m, n) => Mode.read te m n xs

def encodedMode (vs : List Bytes) : Mode := if endsChunked vs then .chunked else .encoded

section Read

variable {te : Bool} {n : Nat} {x : Field} {xs : List Field} {m : Mode} {r : Mode × Nat}

theorem encodings_cons_pos (h : x.encodes te = true) :
    encodings te (x :: xs) = x.value :: encodings te xs := by
  simp [encodings, h]

theorem encodings_cons_neg (h : x.encodes te = false) :
    encodings te (x :: xs) = encodings te xs := by
  simp [encodings, h]

theorem lengths_cons_encoding (h : x.encodes te = true) : lengths te (x :: xs) = [] := by
  simp [lengths, h]

theorem lengths_cons_length (h : x.encodes te = false) (hl : x.isLength = true) :
    lengths te (x :: xs) = x.value :: lengths te xs := by
  simp [lengths, h, hl]

theorem lengths_cons_neg (h : x.encodes te = false) (hl : x.isLength = false) :
    lengths te (x :: xs) = lengths te xs := by
  simp [lengths, h, hl]

theorem read_cons : Mode.read te m n (x :: xs) = (Mode.step te m n x).bind fun r =>
    Mode.read te r.1 r.2 xs := by
  rw [Mode.read]
  cases Mode.step te m n x <;> rfl

theorem step_other (h : x.encodes te = false) (hl : x.isLength = false) :
    Mode.step te m n x = some (m, n) := by
  simp [Mode.step, h, hl]

/-- After a chunked encoding no other may follow. -/
theorem read_chunked : Mode.read te .chunked n xs = some r ↔
    encodings te xs = [] ∧ r = (.chunked, n) := by
  induction xs with
  | nil => simp [Mode.read, encodings, eq_comm]
  | cons x xs ih =>
    rw [read_cons]
    cases h : x.encodes te with
    | true => simp [Mode.step, h, encodings_cons_pos h]
    | false =>
      have hstep : Mode.step te .chunked n x = some (.chunked, n) := by
        simp [Mode.step, h]
      rw [hstep, encodings_cons_neg h]
      exact ih

theorem validEncodings_cons {v : Bytes} {vs : List Bytes} (hne : vs ≠ []) :
    ValidEncodings (v :: vs) ↔
      Detail.decodeTransferEncoding v = .chunkedNotFound ∧ ValidEncodings vs := by
  unfold ValidEncodings
  rw [List.dropLast_cons_of_ne_nil hne, List.getLast?_cons_of_ne_nil hne]
  simp [and_assoc]

theorem encodedMode_cons {v : Bytes} {vs : List Bytes} (hne : vs ≠ []) :
    encodedMode (v :: vs) = encodedMode vs := by
  unfold encodedMode endsChunked
  rw [List.getLast?_cons_of_ne_nil hne]

/-- A mode other than chunked is forgotten at an encoding. -/
theorem step_encoding (h : x.encodes te = true) (hm : m ≠ .chunked) :
    Mode.step te m n x = Mode.step te .encoded n x := by
  cases m <;> simp_all [Mode.step]

/-- The encodings are read one by one. -/
theorem read_encoded : Mode.read te .encoded n xs = some r ↔
    ValidEncodings (encodings te xs) ∧ r = (encodedMode (encodings te xs), n) := by
  induction xs with
  | nil => simp [Mode.read, encodings, ValidEncodings, encodedMode, endsChunked, eq_comm]
  | cons x xs ih =>
    rw [read_cons]
    cases h : x.encodes te with
    | false =>
      have hstep : Mode.step te .encoded n x = some (.encoded, n) := by
        simp [Mode.step, h]
      rw [hstep, encodings_cons_neg h]
      exact ih
    | true =>
      rw [encodings_cons_pos h]
      cases hd : Detail.decodeTransferEncoding x.value with
      | chunkedInvalid =>
        have hstep : Mode.step te .encoded n x = none := by simp [Mode.step, h, hd]
        rw [hstep]
        by_cases hne : encodings te xs = []
        · simp [hne, ValidEncodings, hd]
        · simp [validEncodings_cons hne, hd]
      | chunkedNotFound =>
        have hstep : Mode.step te .encoded n x = some (.encoded, n) := by simp [Mode.step, h, hd]
        rw [hstep, Option.bind_some, ih]
        by_cases hne : encodings te xs = []
        · simp [hne, ValidEncodings, encodedMode, endsChunked, hd]
        · simp [validEncodings_cons hne, encodedMode_cons hne, hd]
      | chunkedAtEnd =>
        have hstep : Mode.step te .encoded n x = some (.chunked, n) := by simp [Mode.step, h, hd]
        rw [hstep, Option.bind_some, read_chunked]
        by_cases hne : encodings te xs = []
        · simp [hne, ValidEncodings, encodedMode, endsChunked, hd]
        · simp [validEncodings_cons hne, hne, hd]

/-- After a length, a second one may follow only behind an encoding. -/
theorem read_counted : Mode.read te .counted n xs = some r ↔
    lengths te xs = [] ∧ ValidEncodings (encodings te xs) ∧
      r = (if encodings te xs = [] then .counted else encodedMode (encodings te xs), n) := by
  induction xs with
  | nil => simp [Mode.read, encodings, lengths, ValidEncodings, eq_comm]
  | cons x xs ih =>
    cases h : x.encodes te with
    | true =>
      rw [read_cons, step_encoding (m := .counted) h nofun, ← read_cons, read_encoded, lengths_cons_encoding h]
      simp [encodings_cons_pos h]
    | false =>
      rw [read_cons, encodings_cons_neg h]
      cases hl : x.isLength with
      | true => simp [Mode.step, h, hl, lengths_cons_length h hl]
      | false =>
        rw [step_other h hl, lengths_cons_neg h hl]
        exact ih

def finalMode (te : Bool) (n : Nat) (xs : List Field) : Mode × Nat :=
  (if encodings te xs = [] then (if lengths te xs = [] then .unknown else .counted)
    else encodedMode (encodings te xs),
    ((lengths te xs).head?.map Syntax.base10).getD n)

/-- When the fields of a head can be read, and what they say in the end. -/
theorem read_iff : Mode.read te .unknown n xs = some r ↔
    AtMostOneNumeral (lengths te xs) ∧ ValidEncodings (encodings te xs) ∧
      r = finalMode te n xs := by
  induction xs with
  | nil => simp [Mode.read, encodings, lengths, ValidEncodings, AtMostOneNumeral, finalMode, eq_comm]
  | cons x xs ih =>
    unfold finalMode at ih ⊢
    cases h : x.encodes te with
    | true =>
      rw [read_cons, step_encoding (m := .unknown) h nofun, ← read_cons, read_encoded, lengths_cons_encoding h]
      simp [encodings_cons_pos h, AtMostOneNumeral]
    | false =>
      rw [read_cons, encodings_cons_neg h]
      cases hl : x.isLength with
      | false =>
        rw [step_other h hl, lengths_cons_neg h hl]
        exact ih
      | true =>
        rw [lengths_cons_length h hl]
        by_cases hv : IsNumeral x.value
        · have hstep : Mode.step te .unknown n x = some (.counted, Syntax.base10 x.value) := by
            simp [Mode.step, h, hl, contentLength_iff.mpr ⟨hv, rfl⟩]
          rw [hstep, Option.bind_some, read_counted]
          by_cases hls : lengths te xs = []
          · simp [hls, AtMostOneNumeral, hv]
          · simp [hls, AtMostOneNumeral]
        · have hstep : Mode.step te .unknown n x = none := by
            simp only [Mode.step, h, hl, Bool.false_eq_true, if_false, if_true]
            split
            · rename_i k hk
              exact absurd (contentLength_iff.mp hk).1 hv
            · rfl
          rw [hstep]
          simp [AtMostOneNumeral, hv]

end Read

/-- The fields announce a body of `n` bytes: there is one length and no encoding. -/
def Announces (te : Bool) (xs : List Field) (n : Nat) : Prop :=
  encodings te xs = [] ∧ ∃ v, lengths te xs = [v] ∧ Syntax.base10 v = n

theorem Announces.finalMode {te : Bool} {xs : List Field} {n : Nat} (h : Announces te xs n) (k : Nat) :
    finalMode te k xs = (.counted, n) := by
  obtain ⟨hnone, v, hv, rfl⟩ := h
  simp [BoostHttp.finalMode, hnone, hv]

/-! ## Framings -/

inductive Framing where
  | chunked
  | counted (n : Nat)
  | untilClose
  deriving DecidableEq, Repr

def Framing.phase : Framing → Phase
  | .chunked => .chunkSize
  | .counted n => if n = 0 then .endOfBody else .body
  | .untilClose => .unsafeBody

structure Framing.Starts {φ : Type} (F : Framing) (s : Core φ) : Prop where
  phase : s.phase = F.phase
  bodySize : ∀ n, F = .counted n → n ≠ 0 → s.bodySize = n

end BoostHttp
