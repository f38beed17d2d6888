import BoostHttp.Request.Refinement
import BoostHttp.Response.Refinement
import BoostHttp.Session

/-!
# Clients — sessions with the two readers
-/

open Incremental

namespace BoostHttp

/-! ## Requests -/

namespace Request

/-- Besides `set_buffer` and `next()`, a client only reads the members of a request reader. -/
def api (mem : Nat → UInt8) : Api State BodyType Version Empty where
  next := next mem
  callable _ _ := false
  call _ r := .ok r

abbrev Run := Session State BodyType Version Empty

abbrev session (mem : Nat → UInt8) (S : Bytes) : Guarded Run (Op Empty) Fault :=
  Session.system (api mem) mem S Session.free

/-- A session with a new reader, whatever its uninitialised members hold. -/
def fresh (version : Version) (bodySize : Nat) : Run := .start (init version bodySize)

theorem lawful (mem : Nat → UInt8) : (api mem).Lawful view policy Legal where
  implements := implements mem
  call {c} := c.elim

theorem sound_init (version : Version) (bodySize : Nat) :
    Sound view Legal (init version bodySize) := by
  refine ⟨⟨nofun, nofun⟩, fun _ => Nat.le_refl 0, fun _ => .inl rfl, nofun, nofun, nofun, ?_⟩
  intro _
  rfl

theorem tracks_fresh (version : Version) (bodySize : Nat) (S : Bytes) :
    Session.Tracks view Legal S (fresh version bodySize) :=
  ⟨sound_init version bodySize, rfl, Nat.le_refl 0, Nat.zero_le _, fun _ => List.nil_prefix, rfl⟩

end Request

/-! ## Responses -/

namespace Response

inductive Call where
  | setMethod (method : Bytes)
  | puteof
  deriving DecidableEq, Repr

def api (mem : Nat → UInt8) : Api State BodyType ConnectionFlags Call where
  next := next mem
  callable
    | .setMethod _, r => r.code == .statusCode
    | .puteof, _ => true
  call
    | .setMethod method, r => setMethod r method
    | .puteof, r => .ok (puteof r)

abbrev Run := Session State BodyType ConnectionFlags Call

/-- A session over the stream `S`, with a client that may call `set_method()` or not and `puteof()`
at any time. -/
abbrev session (mem : Nat → UInt8) (S : Bytes) : Guarded Run (Op Call) Fault :=
  Session.system (api mem) mem S Session.free

def statusCodes (s : Run) : Nat := s.emitted.countP fun e => e.2.code == .statusCode

/-- A client that calls `set_method()` with the method of the request a status code belongs to
before it goes on, and `puteof()` only after the end of the stream has been exposed. -/
def attentive (methods : Nat → Bytes) (S : Bytes) (s : Run) : Op Call → Bool
  | .next =>
    s.reader.code != .statusCode ||
      s.calls.contains (s.emitted.length, .setMethod (methods (statusCodes s - 1)))
  | .setBuffer size => !s.reader.connection.eofReceived || s.consumed + size == S.length
  | .call (.setMethod method) => method == methods (statusCodes s - 1)
  | .call .puteof => s.exposed S

abbrev attentiveSession (mem : Nat → UInt8) (methods : Nat → Bytes) (S : Bytes) :
    Guarded Run (Op Call) Fault :=
  Session.system (api mem) mem S (attentive methods S)

def fresh (bodySize : Nat) : Run := .start (init bodySize)

variable {r r' : Response}

theorem bodyFor_fst (method : Bytes) (statusCode bodySize : Nat) :
    (bodyFor method statusCode bodySize).1 = .connectionDelimited ∨
      (bodyFor method statusCode bodySize).1.isForced = true := by
  unfold bodyFor
  simp only
  split
  · exact .inr rfl
  · split
    · exact .inr rfl
    · exact .inl rfl

theorem bodyFor_isEncoded (method : Bytes) (statusCode bodySize : Nat) :
    (bodyFor method statusCode bodySize).1.isEncoded = false := by
  unfold bodyFor
  simp only
  split
  · rfl
  · split <;> rfl

def status (r : Response) : Nat := (Syntax.statusCodeDecode r.slice).toOption.getD 0

theorem setMethod_eq (method : Bytes) (hr : Sound view Legal r) (hc : r.code = .statusCode) :
    setMethod r method = .ok { r with
      bodyType := (bodyFor method (status r) r.bodySize).1
      bodySize := (bodyFor method (status r) r.bodySize).2 } := by
  obtain ⟨hp, hts⟩ := hr.status hc
  have hlen : r.slice.length = 3 := by
    rw [Reader.length_slice (hr.bound (by rw [hp]; nofun)), hts]
  have hdec : Syntax.statusCodeDecode r.slice = .ok (status r) := by
    unfold status
    match hsl : r.slice with
    | [a, b, c] => rfl
    | [] | [_] | [_, _] | _ :: _ :: _ :: _ :: _ => rw [hsl] at hlen; simp at hlen
  have hval : r.valueStatusCode = .ok (status r) := by
    rw [Reader.valueStatusCode, if_neg (not_not.mpr hc), hdec]
  unfold setMethod
  simp only [hc, ne_eq, not_true_eq_false, if_false, hval, bind, Except.bind, pure, Except.pure]

theorem setMethod_sound {method : Bytes} (hr : Sound view Legal r) (hc : r.code = .statusCode)
    (h : setMethod r method = .ok r') : Sound view Legal r' := by
  rw [setMethod_eq method hr hc] at h
  cases h
  obtain ⟨hp, -⟩ := hr.status hc
  refine ⟨hr.fatal, hr.bound, hr.held, hr.zeroSized, hr.last, hr.status, fun _ => ⟨?_, ?_⟩⟩
  · intro he
    change (bodyFor method (status r) r.bodySize).1.isEncoded = true at he
    rw [bodyFor_isEncoded] at he
    cases he
  · have hp' : r.state.phase = .spAfterStatusCode := hp
    simp only [View.core, view, hp']
    exact .inr (bodyFor_fst method (status r) r.bodySize)

theorem puteof_sound (hr : Sound view Legal r) : Sound view Legal (puteof r) :=
  ⟨hr.fatal, hr.bound, hr.held, hr.zeroSized, hr.last, hr.status, hr.legal⟩

theorem lawful (mem : Nat → UInt8) : (api mem).Lawful view policy Legal where
  implements := implements mem
  call {c r} hr hc := by
    cases c with
    | puteof => exact ⟨_, rfl, puteof_sound hr, rfl, rfl, rfl, rfl, rfl⟩
    | setMethod method =>
      have hcode : r.code = .statusCode := by simpa [api] using hc
      have heq := setMethod_eq method hr hcode
      exact ⟨_, heq, setMethod_sound hr hcode heq, rfl, rfl, rfl, rfl, rfl⟩

theorem sound_init (bodySize : Nat) : Sound view Legal (init bodySize) := by
  refine ⟨⟨nofun, nofun⟩, fun _ => Nat.le_refl 0, fun _ => .inl rfl, nofun, nofun, nofun, ?_⟩
  intro _
  exact ⟨nofun, rfl⟩

theorem tracks_fresh (bodySize : Nat) (S : Bytes) :
    Session.Tracks view Legal S (fresh bodySize) :=
  ⟨sound_init bodySize, rfl, Nat.le_refl 0, Nat.zero_le _, fun _ => List.nil_prefix, rfl⟩

end Response

end BoostHttp
