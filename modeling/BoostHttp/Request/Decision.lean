import BoostHttp.Fields
import BoostHttp.Request.Framing

/-!
# Request.Decision — which heads the framing policy of requests accepts

The policy keeps two memories, the version with the `Host` field and the body type.  They do not
interact before the end of the headers, so the decision is one about each of them.
-/

open Incremental

namespace BoostHttp

namespace Request

/-- The rules that the fields of a head have to meet: a single `Host` field unless the version is
1.0; of the encodings the last one, and no other, is chunked; at most one length, a numeral, before
the first encoding. -/
structure Accepts (digit : UInt8) (xs : List Field) : Prop where
  host : digit ≠ 0x30 → (xs.filter Field.isHost).length = 1
  notChunked : ∀ v ∈ (encodings true xs).dropLast,
    Detail.decodeTransferEncoding v = .chunkedNotFound
  chunked : ∀ v ∈ (encodings true xs).getLast?, Detail.decodeTransferEncoding v = .chunkedAtEnd
  lengths : AtMostOneNumeral (lengths true xs)

def hostStep (v : Version) (x : Field) : Option Version :=
  if x.isHost then
    match v with
    | .http10 => some .http10
    | .notHttp10AndHostNotRead => some .notHttp10AndHostRead
    | .notHttp10AndHostRead => none
  else some v

def hostRead : Version → List Field → Option Version
  | v, [] => some v
  | v, x :: xs =>
    match hostStep v x with
    | none => none
    | some v => hostRead v xs

def bodyOf : Mode → BodyType
  | .unknown => .noBody
  | .counted => .contentLengthRead
  | .encoded => .randomEncodingRead
  | .chunked => .chunkedEncodingRead

theorem onFieldValue_idle (v : Version) (m : Mode) (n : Nat) (value : Bytes) :
    onFieldValue (v, bodyOf m) n value = .ok ((v, bodyOf m), n) := by
  cases m <;> rfl

/-- One field changes at most one of the two memories. -/
theorem readField_iff {v : Version} {m : Mode} {n : Nat} {x : Field} {r : Memory × Nat} :
    policy.readField (v, bodyOf m) n x = .ok r ↔
      ∃ v' m' n', hostStep v x = some v' ∧ Mode.step true m n x = some (m', n') ∧
        r = ((v', bodyOf m'), n') := by
  have hhost : iequals x.name (ascii "Host") = x.isHost := rfl
  have hencoding : iequals x.name (ascii "Transfer-Encoding") = x.isEncoding := rfl
  have hlength : iequals x.name (ascii "Content-Length") = x.isLength := rfl
  unfold Policy.readField hostStep Mode.step Field.encodes
  simp only [policy, onFieldName, hhost, hencoding, hlength, Bool.true_and]
  cases h₁ : x.isHost with
  | true =>
    simp only [Field.isEncoding_of_isHost h₁, Field.isLength_of_isHost h₁, if_true,
      Bool.false_eq_true, if_false]
    cases v <;> simp [onFieldValue_idle, eq_comm]
  | false =>
    cases h₂ : x.isEncoding with
    | true =>
      cases m <;> simp only [bodyOf, Bool.false_eq_true, if_false, if_true, onFieldValue] <;>
        cases Detail.decodeTransferEncoding x.value <;> simp [eq_comm]
    | false =>
      cases h₃ : x.isLength with
      | false => simp [onFieldValue_idle, eq_comm]
      | true =>
        cases m <;> simp only [bodyOf, Bool.false_eq_true, if_false, if_true, onFieldValue]
        case unknown =>
          cases Syntax.contentLengthDecode 64 x.value n with
          | mk res k => cases res <;> simp [eq_comm]
        all_goals simp [eq_comm]

theorem readFields_iff {v : Version} {m : Mode} {n : Nat} {xs : List Field} {r : Memory × Nat} :
    policy.readFields (v, bodyOf m) n xs = .ok r ↔
      ∃ v' m' n', hostRead v xs = some v' ∧ Mode.read true m n xs = some (m', n') ∧
        r = ((v', bodyOf m'), n') := by
  induction xs generalizing v m n with
  | nil => simp [Policy.readFields, hostRead, Mode.read, eq_comm]
  | cons x xs ih =>
    rw [Policy.readFields, hostRead, Mode.read]
    cases h : policy.readField (v, bodyOf m) n x with
    | error c =>
      simp only [reduceCtorEq, false_iff]
      rintro ⟨v', m', n', hv, hm, -⟩
      cases hv₁ : hostStep v x with
      | none => simp [hv₁] at hv
      | some v₁ =>
        cases hm₁ : Mode.step true m n x with
        | none => simp [hm₁] at hm
        | some r =>
          rw [readField_iff.mpr ⟨v₁, r.1, r.2, hv₁, hm₁, rfl⟩] at h
          cases h
    | ok r₁ =>
      obtain ⟨v₁, m₁, n₁, hv₁, hm₁, rfl⟩ := readField_iff.mp h
      simp only [hv₁, hm₁]
      exact ih

/-- The version at the end of the headers allows them. -/
theorem hostRead_iff (v : Version) (xs : List Field) :
    (∃ v', hostRead v xs = some v' ∧ v' ≠ .notHttp10AndHostNotRead) ↔
      match v with
      | .http10 => True
      | .notHttp10AndHostNotRead => (xs.filter Field.isHost).length = 1
      | .notHttp10AndHostRead => (xs.filter Field.isHost).length = 0 := by
  induction xs generalizing v with
  | nil => cases v <;> simp [hostRead]
  | cons x xs ih =>
    rw [hostRead]
    unfold hostStep
    cases h : x.isHost with
    | false => simp only [Bool.false_eq_true, if_false, ih, List.filter_cons, h]
    | true =>
      cases v with
      | http10 => simp [ih]
      | notHttp10AndHostNotRead => simp [ih, h]
      | notHttp10AndHostRead => simp [h]

theorem onHeaders_iff {v : Version} {m : Mode} {n : Nat} {f : Memory} {q : Phase} :
    onHeaders (v, bodyOf m) n = .ok (f, q) ↔
      v ≠ .notHttp10AndHostNotRead ∧ m ≠ .encoded ∧ f = (v, bodyOf m) ∧
        q = match m with
          | .chunked => .chunkSize
          | .counted => if n = 0 then .endOfBody else .body
          | _ => .endOfBody := by
  unfold onHeaders
  by_cases hv : v = .notHttp10AndHostNotRead
  · simp [hv]
  · cases m <;> simp [hv, bodyOf, eq_comm]

def framing (xs : List Field) : Framing :=
  if encodings true xs = [] then
    .counted (((lengths true xs).head?.map Syntax.base10).getD 0)
  else .chunked

theorem headers_iff {v : Version} {n : Nat} {xs : List Field} {s' : Core Memory} :
    policy.headers (v, .noBody) n xs = .ok s' ↔
      ∃ v' m' n', hostRead v xs = some v' ∧ Mode.read true .unknown n xs = some (m', n') ∧
        onHeaders (v', bodyOf m') n' = .ok (s'.framing, s'.phase) ∧ s'.bodySize = n' := by
  have hfields : ∀ r, policy.readFields (v, .noBody) n xs = .ok r ↔ _ := fun _ =>
    readFields_iff (m := .unknown)
  unfold Policy.headers
  constructor
  · intro h
    split at h
    · cases h
    rename_i f₁ n₁ h₁
    obtain ⟨v', m', n', hv, hm, hr⟩ := (hfields _).mp h₁
    cases hr
    split at h
    · cases h
    rename_i f₂ q h₂
    cases h
    exact ⟨v', m', _, hv, hm, h₂, rfl⟩
  · rintro ⟨v', m', n', hv, hm, hh, rfl⟩
    have hh' : policy.onHeaders (v', bodyOf m') s'.bodySize = .ok (s'.framing, s'.phase) := hh
    have hf : policy.readFields (v, .noBody) n xs = .ok ((v', bodyOf m'), s'.bodySize) :=
      (hfields _).mpr ⟨v', m', _, hv, hm, rfl⟩
    rw [hf]
    simp only
    rw [hh']

theorem encodedMode_ne_iff (vs : List Bytes) :
    ValidEncodings vs ∧ encodedMode vs ≠ .encoded ↔
      vs ≠ [] ∧ (∀ v ∈ vs.dropLast, Detail.decodeTransferEncoding v = .chunkedNotFound) ∧
        ∀ v ∈ vs.getLast?, Detail.decodeTransferEncoding v = .chunkedAtEnd := by
  cases h : vs.getLast? with
  | none => simp [List.getLast?_eq_none_iff.mp h, encodedMode, endsChunked]
  | some v =>
    have hne : vs ≠ [] := by
      rintro rfl
      cases h
    cases hd : Detail.decodeTransferEncoding v <;>
      simp [ValidEncodings, encodedMode, endsChunked, h, hd, hne]

/-- The fields of a head are accepted when they meet the rules. -/
theorem headers_ok_iff (f : Memory) (hf : f.2 = .noBody) (digit : UInt8) (n : Nat) (xs : List Field) :
    (∃ s', policy.headers (policy.onVersion f digit) n xs = .ok s') ↔ Accepts digit xs := by
  obtain ⟨v₀, b⟩ := f
  cases hf
  have hhost : (∃ v', hostRead (if digit = 0x30 then .http10 else .notHttp10AndHostNotRead) xs = some v' ∧
      v' ≠ .notHttp10AndHostNotRead) ↔ (digit ≠ 0x30 → (xs.filter Field.isHost).length = 1) := by
    rw [hostRead_iff]
    by_cases hd : digit = 0x30
    · simp [hd]
    · simp [hd]
  have hmode : (∃ m' n', Mode.read true .unknown n xs = some (m', n') ∧ m' ≠ .encoded) ↔
      AtMostOneNumeral (lengths true xs) ∧
        (∀ v ∈ (encodings true xs).dropLast, Detail.decodeTransferEncoding v = .chunkedNotFound) ∧
        ∀ v ∈ (encodings true xs).getLast?, Detail.decodeTransferEncoding v = .chunkedAtEnd := by
    simp only [read_iff, finalMode]
    by_cases he : encodings true xs = []
    · simp only [he, if_true, ValidEncodings]
      by_cases hl : lengths true xs = [] <;> simp [hl]
    · simp only [he, if_false]
      have hne := encodedMode_ne_iff (encodings true xs)
      constructor
      · rintro ⟨m', n', ⟨hnum, hvalid, heq⟩, hm⟩
        cases heq
        exact ⟨hnum, (hne.mp ⟨hvalid, hm⟩).2⟩
      · rintro ⟨hnum, hall⟩
        obtain ⟨hvalid, hm⟩ := hne.mpr ⟨he, hall⟩
        exact ⟨_, _, ⟨hnum, hvalid, rfl⟩, hm⟩
  constructor
  · rintro ⟨s', h⟩
    obtain ⟨v', m', n', hv, hm, hh, -⟩ := headers_iff.mp h
    obtain ⟨hv', hm', -, -⟩ := onHeaders_iff.mp hh
    obtain ⟨hnum, hinit, hlast⟩ := hmode.mp ⟨m', n', hm, hm'⟩
    exact ⟨hhost.mp ⟨v', hv, hv'⟩, hinit, hlast, hnum⟩
  · intro h
    obtain ⟨v', hv, hv'⟩ := hhost.mpr h.host
    obtain ⟨m', n', hm, hm'⟩ := hmode.mpr ⟨h.lengths, h.notChunked, h.chunked⟩
    exact ⟨⟨_, _, n'⟩, headers_iff.mpr ⟨v', m', n', hv, hm, onHeaders_iff.mpr ⟨hv', hm', rfl, rfl⟩,
      rfl⟩⟩

/-- What follows an accepted head is what its fields announce. -/
theorem starts_of_headers {v : Version} {n : Nat} {xs : List Field} {s' : Core Memory}
    (h : policy.headers (v, .noBody) n xs = .ok s') : (framing xs).Starts s' := by
  obtain ⟨v', m', n', -, hm, hh, hn⟩ := headers_iff.mp h
  obtain ⟨-, -, hr⟩ := read_iff.mp hm
  obtain ⟨-, hme, -, hq⟩ := onHeaders_iff.mp hh
  unfold framing
  rw [finalMode, Prod.mk.injEq] at hr
  obtain ⟨hm', hn'⟩ := hr
  by_cases he : encodings true xs = []
  · rw [if_pos he] at hm' ⊢
    cases hl : lengths true xs with
    | nil =>
      rw [hl] at hm' hn'
      rw [hm'] at hq
      exact ⟨hq, fun k hk hk0 => absurd (Framing.counted.inj hk).symm hk0⟩
    | cons v vs =>
      rw [hl] at hm' hn'
      rw [hm'] at hq
      rw [hn'] at hq hn
      refine ⟨hq, fun k hk _ => ?_⟩
      rw [hn]
      exact Framing.counted.inj hk
  · rw [if_neg he] at hm' ⊢
    have hchunked : m' = .chunked := by
      rw [hm'] at hme ⊢
      unfold encodedMode at hme ⊢
      split
      · rfl
      · rename_i hc
        rw [if_neg hc] at hme
        exact absurd rfl hme
    rw [hchunked] at hq
    exact ⟨hq, by simp⟩

end Request

end BoostHttp
