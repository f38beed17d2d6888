import BoostHttp.Fields
import BoostHttp.Response.Framing

/-!
# Response.Decision — which heads the framing policy of responses accepts

The method and the status code come first: they may rule out a body, and then no field matters.
Otherwise the fields decide, where a version of 1.0 switches the encodings off.
-/

open Incremental

namespace BoostHttp

namespace Response

/-- The responses that have no body, whatever their fields are. -/
def Bodiless (method : Bytes) (status : Nat) : Prop :=
  method = ascii "HEAD" ∨ status / 100 = 1 ∨ status = 204 ∨ status = 304 ∨
    method = ascii "CONNECT" ∧ status / 100 = 2

instance (method : Bytes) (status : Nat) : Decidable (Bodiless method status) := by
  unfold Bodiless
  infer_instance

/-- The rules that the fields of other responses have to meet: of the encodings only the last one
may be chunked, and none is invalid; at most one length, a numeral, before the first encoding. -/
structure Accepts (digit : UInt8) (xs : List Field) : Prop where
  encodings : ValidEncodings (encodings (digit != 0x30) xs)
  lengths : AtMostOneNumeral (lengths (digit != 0x30) xs)

def framing (digit : UInt8) (xs : List Field) : Framing :=
  if BoostHttp.encodings (digit != 0x30) xs = [] then
    match BoostHttp.lengths (digit != 0x30) xs with
    | [] => .untilClose
    | v :: _ => .counted (Syntax.base10 v)
  else if endsChunked (BoostHttp.encodings (digit != 0x30) xs) then .chunked
  else .untilClose

def bodyOf : Mode → BodyType
  | .unknown => .connectionDelimited
  | .counted => .contentLengthRead
  | .encoded => .randomEncodingRead
  | .chunked => .chunkedEncodingRead

theorem bodyFor_of_bodiless {method : Bytes} {status : Nat} (n : Nat) (h : Bodiless method status) :
    (bodyFor method status n).1.isForced = true := by
  unfold bodyFor
  simp only
  split
  · rfl
  · rename_i h₁
    split
    · rfl
    · rename_i h₂
      unfold Bodiless at h
      simp only [not_or, not_and] at h₁ h₂
      rcases h with h | h | h | h | ⟨h, h'⟩
      · exact absurd h h₁.2.2.2
      · exact absurd h h₁.1
      · exact absurd h h₁.2.1
      · exact absurd h h₁.2.2.1
      · exact absurd h (h₂ h')

theorem bodyFor_of_not_bodiless {method : Bytes} {status n : Nat} (h : ¬ Bodiless method status) :
    bodyFor method status n = (.connectionDelimited, n) := by
  unfold Bodiless at h
  simp only [not_or, not_and] at h
  obtain ⟨h₁, h₂, h₃, h₄, h₅⟩ := h
  unfold bodyFor
  simp only
  rw [if_neg (by simp [h₁, h₂, h₃, h₄]), if_neg (fun h => h₅ h.2 h.1)]

/-! ## Without a body -/

theorem readFields_forced {f : Memory} {n : Nat} (hf : f.2.isForced = true) (xs : List Field) :
    policy.readFields f n xs = .ok (f, n) := by
  induction xs with
  | nil => rfl
  | cons x xs ih =>
    have hfield : policy.readField f n x = .ok (f, n) := by
      obtain ⟨v, b⟩ := f
      simp only [Policy.readField, policy, onFieldName]
      cases b <;> first | rfl | cases hf
    rw [Policy.readFields, hfield]
    exact ih

/-- No field affects the outcome. -/
theorem headers_forced {f : Memory} {n : Nat} (hf : f.2.isForced = true) (xs : List Field) :
    policy.headers f n xs = .ok ⟨.endOfBody, f, n⟩ := by
  rw [Policy.headers, readFields_forced hf]
  obtain ⟨v, b⟩ := f
  cases b <;> first | rfl | cases hf

/-! ## Fields that decide -/

theorem onFieldValue_idle (v : Bool) (m : Mode) (n : Nat) (value : Bytes) :
    onFieldValue (v, bodyOf m) n value = .ok ((v, bodyOf m), n) := by
  cases m <;> rfl

theorem readField_iff {v : Bool} {m : Mode} {n : Nat} {x : Field} {r : Memory × Nat} :
    policy.readField (v, bodyOf m) n x = .ok r ↔
      ∃ m' n', Mode.step (!v) m n x = some (m', n') ∧ r = ((v, bodyOf m'), n') := by
  have hencoding : iequals x.name (ascii "Transfer-Encoding") = x.isEncoding := rfl
  have hlength : iequals x.name (ascii "Content-Length") = x.isLength := rfl
  have hforced : (bodyOf m).isForced = false := by cases m <;> rfl
  unfold Policy.readField Mode.step Field.encodes
  simp only [policy, onFieldName, hencoding, hlength, hforced, Bool.false_eq_true, if_false]
  by_cases h : x.isEncoding = true ∧ v = false
  · have henc : (!v && x.isEncoding) = true := by simp [h.1, h.2]
    simp only [if_pos h, henc, if_true]
    cases m <;> simp only [bodyOf, onFieldValue] <;>
      cases Detail.decodeTransferEncoding x.value <;> simp [eq_comm]
  · have henc : (!v && x.isEncoding) = false := by
      rw [not_and] at h
      cases hx : x.isEncoding <;> cases v <;> simp_all
    simp only [if_neg h, henc, Bool.false_eq_true, if_false]
    cases hl : x.isLength with
    | false => simp [onFieldValue_idle, eq_comm]
    | true =>
      cases m <;> simp only [bodyOf, if_true, onFieldValue]
      case unknown =>
        cases Syntax.contentLengthDecode 64 x.value n with
        | mk res k => cases res <;> simp [eq_comm]
      all_goals simp [eq_comm]

theorem readFields_iff {v : Bool} {m : Mode} {n : Nat} {xs : List Field} {r : Memory × Nat} :
    policy.readFields (v, bodyOf m) n xs = .ok r ↔
      ∃ m' n', Mode.read (!v) m n xs = some (m', n') ∧ r = ((v, bodyOf m'), n') := by
  induction xs generalizing m n with
  | nil => simp [Policy.readFields, Mode.read, eq_comm]
  | cons x xs ih =>
    rw [Policy.readFields, Mode.read]
    cases h : policy.readField (v, bodyOf m) n x with
    | error c =>
      simp only [reduceCtorEq, false_iff]
      rintro ⟨m', n', hm, -⟩
      cases hm₁ : Mode.step (!v) m n x with
      | none => simp [hm₁] at hm
      | some r =>
        rw [readField_iff.mpr ⟨r.1, r.2, hm₁, rfl⟩] at h
        cases h
    | ok r₁ =>
      obtain ⟨m₁, n₁, hm₁, rfl⟩ := readField_iff.mp h
      simp only [hm₁]
      exact ih

def afterHeaders (v : Bool) (m : Mode) (n : Nat) : Core Memory :=
  match m with
  | .unknown | .encoded => ⟨.unsafeBody, (v, .forceNoBodyAndStop), n⟩
  | .counted => ⟨if n = 0 then .endOfBody else .body, (v, .contentLengthRead), n⟩
  | .chunked => ⟨.chunkSize, (v, .chunkedEncodingRead), n⟩

theorem headers_iff {v : Bool} {n : Nat} {xs : List Field} {s' : Core Memory} :
    policy.headers (v, .connectionDelimited) n xs = .ok s' ↔
      ∃ m' n', Mode.read (!v) .unknown n xs = some (m', n') ∧ s' = afterHeaders v m' n' := by
  have hfields : ∀ r, policy.readFields (v, .connectionDelimited) n xs = .ok r ↔ _ := fun _ =>
    readFields_iff (m := .unknown)
  have hheaders : ∀ m' n', policy.headers (v, .connectionDelimited) n xs = .ok s' →
      policy.readFields (v, .connectionDelimited) n xs = .ok ((v, bodyOf m'), n') →
      s' = afterHeaders v m' n' := by
    intro m' n' h hf
    rw [Policy.headers, hf] at h
    cases m' <;> cases h <;> rfl
  constructor
  · intro h
    cases hf : policy.readFields (v, .connectionDelimited) n xs with
    | error c =>
      rw [Policy.headers, hf] at h
      cases h
    | ok r =>
      obtain ⟨m', n', hm, rfl⟩ := (hfields r).mp hf
      exact ⟨m', n', hm, hheaders m' n' h hf⟩
  · rintro ⟨m', n', hm, rfl⟩
    have hf := (hfields _).mpr ⟨m', n', hm, rfl⟩
    rw [Policy.headers, hf]
    cases m' <;> rfl

/-- The fields of a response that may have a body are accepted when they meet the rules. -/
theorem headers_ok_iff (digit : UInt8) (n : Nat) (xs : List Field) :
    (∃ s', policy.headers (digit == 0x30, .connectionDelimited) n xs = .ok s') ↔
      Accepts digit xs := by
  have hte : (!(digit == 0x30)) = (digit != 0x30) := rfl
  constructor
  · rintro ⟨s', h⟩
    obtain ⟨m', n', hm, -⟩ := headers_iff.mp h
    rw [hte] at hm
    obtain ⟨hnum, hvalid, -⟩ := read_iff.mp hm
    exact ⟨hvalid, hnum⟩
  · intro h
    exact ⟨_, headers_iff.mpr ⟨_, _, read_iff.mpr ⟨h.lengths, h.encodings, rfl⟩, rfl⟩⟩

/-- What follows an accepted head is what its fields announce. -/
theorem starts_of_headers {digit : UInt8} {n : Nat} {xs : List Field} {s' : Core Memory}
    (h : policy.headers (digit == 0x30, .connectionDelimited) n xs = .ok s') :
    (framing digit xs).Starts s' := by
  have hte : (!(digit == 0x30)) = (digit != 0x30) := rfl
  obtain ⟨m', n', hm, rfl⟩ := headers_iff.mp h
  rw [hte] at hm
  obtain ⟨-, -, hr⟩ := read_iff.mp hm
  rw [finalMode, Prod.mk.injEq] at hr
  obtain ⟨hm', hn'⟩ := hr
  unfold framing
  by_cases he : BoostHttp.encodings (digit != 0x30) xs = []
  · rw [if_pos he] at hm' ⊢
    cases hl : BoostHttp.lengths (digit != 0x30) xs with
    | nil =>
      rw [hl] at hm'
      rw [hm']
      exact ⟨rfl, by simp⟩
    | cons v vs =>
      rw [hl] at hm' hn'
      rw [hm', hn']
      exact ⟨rfl, fun k hk _ => Framing.counted.inj hk⟩
  · rw [if_neg he] at hm' ⊢
    rw [hm', encodedMode]
    split
    · exact ⟨rfl, by simp⟩
    · exact ⟨rfl, by simp⟩

end Response

end BoostHttp
