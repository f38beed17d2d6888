import BoostHttp.Grammar
import BoostHttp.Order
import BoostHttp.Record

/-!
# Values — field values, and the bytes that are looked at to trim them

The whitespace in front of a value is passed by two states of a reader, the whitespace behind it is
removed by `decode_field_value`, which walks back from the last byte of the token.  An empty token
has no last byte: the index wraps around, and the walk starts outside of the token.
-/

open Incremental

namespace BoostHttp

/-! ## Looking at the token only -/

namespace Detail

/-- The loop of `decode_field_value`, for bytes that are read from the view or not at all. -/
def checkedEndingOws (v : Bytes) : Nat → Nat → Except Fault Nat
  | 0, n => .ok n
  | i + 1, n => do
    let c ← read v (i + 1)
    if isOws c then checkedEndingOws v i (n + 1) else return n

def checkedDecodeFieldValue (input : Bytes) : Except Fault Bytes := do
  let endingOws ← checkedEndingOws input (wrapSub input.length 1) 0
  return input.rdrop endingOws

theorem checkedEndingOws_eq (mem : Nat → UInt8) {v : Bytes} {i : Nat} (hi : i < v.length) (n : Nat) :
    checkedEndingOws v i n = .ok (endingOws mem v i n) := by
  induction i generalizing n with
  | zero => rfl
  | succ i ih =>
    have hget : v[i + 1]? = some (peek mem v (i + 1)) := by
      rw [peek, List.getD_eq_getElem?_getD, List.getElem?_eq_getElem hi]
      rfl
    have hread : read v (i + 1) = .ok (peek mem v (i + 1)) := by
      rw [read, hget]
    rw [checkedEndingOws, endingOws, hread]
    change (if isOws (peek mem v (i + 1)) = true then _ else _) = _
    by_cases hows : isOws (peek mem v (i + 1)) = true
    · rw [if_pos hows, if_pos hows]
      exact ih (by omega) (n + 1)
    · rw [if_neg hows, if_neg hows]
      rfl

/-- On an empty view the loop starts at the last index of all. -/
theorem checkedDecodeFieldValue_nil : checkedDecodeFieldValue [] = .error .outOfBounds := by
  have hwrap : wrapSub ([] : Bytes).length 1 = (2 ^ 64 - 2) + 1 := by decide
  rw [checkedDecodeFieldValue, hwrap, checkedEndingOws]
  rfl

theorem checkedDecodeFieldValue_eq (mem : Nat → UInt8) {input : Bytes} (h : input ≠ []) :
    checkedDecodeFieldValue input = .ok (decodeFieldValue mem input) := by
  have hpos := List.length_pos_of_ne_nil h
  have hwrap : wrapSub input.length 1 = input.length - 1 := wrapSub_eq hpos
  rw [checkedDecodeFieldValue, decodeFieldValue, hwrap,
    checkedEndingOws_eq mem (by omega : input.length - 1 < input.length)]
  rfl

/-- The bytes of the token are enough unless there are none. -/
theorem checkedDecodeFieldValue_iff (mem : Nat → UInt8) (input : Bytes) :
    checkedDecodeFieldValue input = .ok (decodeFieldValue mem input) ↔ input ≠ [] := by
  refine ⟨?_, checkedDecodeFieldValue_eq mem⟩
  rintro h rfl
  rw [checkedDecodeFieldValue_nil] at h
  cases h

end Detail

def valueMissing (w : Bytes) : Bool := w.head?.any fun c => !Syntax.isFieldValueChar c

namespace Reader

variable {σ β ν : Type}

def checkedValue (matched : Reader σ β ν → Except Fault (Reader σ β ν)) (r : Reader σ β ν) :
    Except Fault (Reader σ β ν) := do
  let _ ← Detail.checkedDecodeFieldValue r.slice
  matched r

/-- A value is found in its token exactly if there is one. -/
theorem expectText_checked (r : Reader σ β ν) (next : σ) (code : Code)
    (matched : Reader σ β ν → Except Fault (Reader σ β ν)) :
    r.expectText Syntax.leftTrimmedFieldValueMatch next code (checkedValue matched)
      = if valueMissing r.restView then .error .outOfBounds
        else r.expectText Syntax.leftTrimmedFieldValueMatch next code matched := by
  have hmatch : Syntax.leftTrimmedFieldValueMatch r.restView
      = .ok (r.restView.takeWhile Syntax.isFieldValueChar).length := matchWhile_eq _ _
  unfold expectText
  rw [hmatch]
  change (if _ then _ else _) = if _ then _ else (if _ then _ else _)
  have hslice : (r.found next code (r.restView.takeWhile Syntax.isFieldValueChar).length).slice
      = r.restView.takeWhile Syntax.isFieldValueChar :=
    (List.prefix_iff_eq_take.mp (List.takeWhile_prefix _)).symm
  cases hw : r.restView with
  | nil => rfl
  | cons c w =>
    rw [hw] at hslice
    cases hc : Syntax.isFieldValueChar c with
    | false =>
      have hmissing : valueMissing (c :: w) = true := by simp [valueMissing, hc]
      have hnil : (c :: w).takeWhile Syntax.isFieldValueChar = [] := by simp [hc]
      rw [hnil] at hslice ⊢
      rw [if_pos hmissing, if_neg (by simp), checkedValue, hslice, Detail.checkedDecodeFieldValue_nil]
      rfl
    | true =>
      have hmissing : ¬ valueMissing (c :: w) = true := by simp [valueMissing, hc]
      have hne : (c :: w).takeWhile Syntax.isFieldValueChar ≠ [] := by simp [hc]
      rw [if_neg hmissing, checkedValue, hslice,
        Detail.checkedDecodeFieldValue_eq (fun _ => 0) hne]
      rfl

/-- Where whitespace may stand in front of a value, the value is looked for if there is none. -/
theorem expectOws_checked {self self' : Reader σ β ν → Except Fault (Reader σ β ν)}
    {r : Reader σ β ν} {value : σ}
    (h : self' { r with state := value }
      = if valueMissing r.restView then .error .outOfBounds else self { r with state := value }) :
    r.expectOws self' value
      = if valueMissing r.restView then .error .outOfBounds else r.expectOws self value := by
  have hmatch : Syntax.owsMatch r.restView = .ok (r.restView.takeWhile Syntax.isOws).length :=
    matchWhile_eq _ _
  unfold expectOws
  rw [hmatch]
  change (if _ then _ else _) = if _ then _ else (if _ then _ else _)
  by_cases hnone : (r.restView.takeWhile Syntax.isOws).length = 0
  · rw [if_pos hnone, if_pos hnone]
    exact h
  · rw [if_neg hnone, if_neg hnone]
    -- whitespace can stand in a value
    have hsome : ¬ valueMissing r.restView = true := by
      cases hw : r.restView with
      | nil => nofun
      | cons c w =>
        have hc : Syntax.isOws c = true := by
          by_contra hc
          rw [hw, List.takeWhile_cons_of_neg hc] at hnone
          exact hnone rfl
        simp [valueMissing, Syntax.isFieldValueChar, hc]
    rw [if_neg hsome]

section Congr

variable {self self' : Reader σ β ν → Except Fault (Reader σ β ν)} {r : Reader σ β ν}

theorem expectName_congr {crlf next : σ} {code : Code}
    {matched : Reader σ β ν → Except Fault (Reader σ β ν)}
    (h : self { r with state := crlf } = self' { r with state := crlf }) :
    r.expectName self crlf next code matched = r.expectName self' crlf next code matched := by
  unfold expectName
  rw [h]

theorem expectOws_congr {value : σ}
    (h : self { r with state := value } = self' { r with state := value }) :
    r.expectOws self value = r.expectOws self' value := by
  unfold expectOws
  rw [h]

theorem expectChunkExt_congr {errored crlf : σ}
    (h : ∀ n, self { r with state := crlf, tokenSize := n }
      = self' { r with state := crlf, tokenSize := n }) :
    r.expectChunkExt self errored crlf = r.expectChunkExt self' errored crlf := by
  unfold expectChunkExt
  simp only [h]

end Congr

/-! ### `next()` -/

section Next

variable [DecidableEq σ] {value crlf ows : σ} {atEnd : Reader σ β ν → Reader σ β ν}
  {matched : Reader σ β ν → Except Fault (Reader σ β ν)}
  {body : (Reader σ β ν → Except Fault (Reader σ β ν)) → Reader σ β ν →
    Except Fault (Reader σ β ν)}

/-- The body of `next()`, for values that are found in their token: in the state `value` it does what
`body` does there, and `atEnd` what is done when there is no byte left.  The values of trailers are
not looked for by `next()`. -/
def checkedBody (value crlf : σ) (atEnd : Reader σ β ν → Reader σ β ν)
    (matched : Reader σ β ν → Except Fault (Reader σ β ν))
    (body : (Reader σ β ν → Except Fault (Reader σ β ν)) → Reader σ β ν →
      Except Fault (Reader σ β ν))
    (self : Reader σ β ν → Except Fault (Reader σ β ν)) (r : Reader σ β ν) :
    Except Fault (Reader σ β ν) :=
  if r.state = value then
    let r := r.consume
    if r.idx = r.ibuffer.length then .ok (atEnd r)
    else
      r.expectText Syntax.leftTrimmedFieldValueMatch crlf .fieldValue (checkedValue matched)
  else body self r

theorem checkedBody_value {self : Reader σ β ν → Except Fault (Reader σ β ν)} {r : Reader σ β ν}
    (hbody : body self r = if r.consume.idx = r.consume.ibuffer.length then .ok (atEnd r.consume)
      else r.consume.expectText Syntax.leftTrimmedFieldValueMatch crlf .fieldValue matched)
    (h : r.state = value) : checkedBody value crlf atEnd matched body self r
      = if valueMissing r.consume.restView then .error .outOfBounds else body self r := by
  rw [hbody, checkedBody, if_pos h]
  by_cases hend : r.consume.idx = r.consume.ibuffer.length
  · have hnil : r.consume.restView = [] := by
      rw [restView, hend, List.drop_length]
    simp only
    rw [if_pos hend, if_pos hend, hnil]
    rfl
  · simp only
    rw [if_neg hend, if_neg hend, expectText_checked]

/-- A `next()` that calls itself no deeper than once stays within the token of a value, unless it
finds an empty one. -/
theorem checkedBody_twice (hne : value ≠ ows)
    (hvalue : ∀ self {r}, r.state = value →
      body self r = if r.consume.idx = r.consume.ibuffer.length then .ok (atEnd r.consume)
        else r.consume.expectText Syntax.leftTrimmedFieldValueMatch crlf .fieldValue matched)
    (hows : ∀ {self r}, r.state = ows →
      body self r = if r.consume.idx = r.consume.ibuffer.length then .ok (atEnd r.consume)
        else r.consume.expectOws self value)
    (hcongr : ∀ {self self' r}, (∀ r', r'.state ≠ value → self r' = self' r') → r.state ≠ ows →
      body self r = body self' r) (r : Reader σ β ν) :
    checkedBody value crlf atEnd matched body
        (checkedBody value crlf atEnd matched body fun _ => .error .recursion) r
      = if (r.state = ows ∨ r.state = value) ∧ valueMissing r.consume.restView then
          .error .outOfBounds
        else body (body fun _ => .error .recursion) r := by
  have hself : ∀ r' : Reader σ β ν, r'.state ≠ value →
      checkedBody value crlf atEnd matched body (fun _ => .error .recursion) r'
        = body (fun _ => .error .recursion) r' := fun r' h => if_neg h
  by_cases hv : r.state = value
  · rw [checkedBody_value (hvalue _ hv) hv, hcongr hself (by rw [hv]; exact hne)]
    simp only [hv, or_true, true_and]
  rw [checkedBody, if_neg hv]
  by_cases ho : r.state = ows
  · simp only [ho, true_or, true_and]
    rw [hows ho, hows ho]
    by_cases hend : r.consume.idx = r.consume.ibuffer.length
    · have hnil : r.consume.restView = [] := by
        rw [restView, hend, List.drop_length]
      rw [if_pos hend, if_pos hend, hnil]
      rfl
    · rw [if_neg hend, if_neg hend]
      apply expectOws_checked
      -- the token in front has been passed already
      have hconsume : consume { r.consume with state := value } = { r.consume with state := value } :=
        consume_of_insufficient (consume_code (r := r))
      have hchecked := checkedBody_value (r := { r.consume with state := value })
        (hvalue (fun _ => .error .recursion) rfl) rfl
      rw [hconsume] at hchecked
      exact hchecked
  · rw [hcongr hself ho, if_neg]
    exact fun h => h.1.elim ho hv

end Next

end Reader

/-- The next token would be the value of a header field, and the value is empty: `next()` passes an
empty view to `decode_field_value`. -/
def View.missesValue {σ β ν φ : Type} (V : View σ β ν φ) (r : Reader σ β ν) : Bool :=
  (V.phase r.state == .owsAfterColon || V.phase r.state == .fieldValue) &&
    valueMissing r.consume.restView

namespace Request

def checkedNext (mem : Nat → UInt8) (r : Request) : Except Fault Request :=
  let body := Reader.checkedBody .expectFieldValue .expectCrlfAfterFieldValue id (valueRead mem)
    (nextBody mem)
  body (body fun _ => .error .recursion) r

theorem dispatch_congr (mem : Nat → UInt8) {self self' : Request → Except Fault Request}
    {r : Request} (h : ∀ r' : Request, r'.state ≠ .expectFieldValue → self r' = self' r')
    (hr : r.state ≠ .expectOwsAfterColon) : dispatch mem self r = dispatch mem self' r := by
  unfold dispatch
  cases hs : r.state with
  | expectFieldName => exact Reader.expectName_congr (h _ nofun)
  | expectTrailerName => exact Reader.expectName_congr (h _ nofun)
  | expectOwsAfterTrailerColon => exact Reader.expectOws_congr (h _ nofun)
  | expectChunkExt => exact Reader.expectChunkExt_congr fun n => h _ nofun
  | expectOwsAfterColon => exact absurd hs hr
  | _ => rfl

theorem checkedNext_eq (mem : Nat → UInt8) (r : Request) :
    checkedNext mem r = if view.missesValue r then .error .outOfBounds else next mem r := by
  have hmisses : view.missesValue r = true ↔
      (r.state = .expectOwsAfterColon ∨ r.state = .expectFieldValue) ∧
        valueMissing r.consume.restView = true := by
    simp only [View.missesValue, view, Bool.and_eq_true, Bool.or_eq_true, beq_iff_eq]
    cases r.state <;> simp [State.phase]
  simp only [hmisses]
  refine Reader.checkedBody_twice (show State.expectFieldValue ≠ .expectOwsAfterColon by decide)
    ?_ ?_ ?_ r
  · intro self r hs
    have hstate : r.consume.state = .expectFieldValue := by rwa [consume_state]
    unfold nextBody dispatch
    simp only [hs, hstate]
    rfl
  · intro self r hs
    have hstate : r.consume.state = .expectOwsAfterColon := by rwa [consume_state]
    unfold nextBody dispatch
    simp only [hs, hstate]
    rfl
  · intro self self' r h hs
    unfold nextBody
    simp only [dispatch_congr mem (r := r.consume) h (by rwa [consume_state])]

end Request

namespace Response

def checkedNext (mem : Nat → UInt8) (r : Response) : Except Fault Response :=
  let body := Reader.checkedBody .expectFieldValue .expectCrlfAfterFieldValue atBufferEnd
    (valueRead mem) (nextBody mem)
  body (body fun _ => .error .recursion) r

theorem dispatch_congr (mem : Nat → UInt8) {self self' : Response → Except Fault Response}
    {r : Response} (h : ∀ r' : Response, r'.state ≠ .expectFieldValue → self r' = self' r')
    (hr : r.state ≠ .expectOwsAfterColon) : dispatch mem self r = dispatch mem self' r := by
  unfold dispatch
  cases hs : r.state with
  | expectFieldName => exact Reader.expectName_congr (h _ nofun)
  | expectTrailerName => exact Reader.expectName_congr (h _ nofun)
  | expectOwsAfterTrailerColon => exact Reader.expectOws_congr (h _ nofun)
  | expectChunkExt => exact Reader.expectChunkExt_congr fun n => h _ nofun
  | expectOwsAfterColon => exact absurd hs hr
  | _ => rfl

theorem checkedNext_eq (mem : Nat → UInt8) (r : Response) :
    checkedNext mem r = if view.missesValue r then .error .outOfBounds else next mem r := by
  have hmisses : view.missesValue r = true ↔
      (r.state = .expectOwsAfterColon ∨ r.state = .expectFieldValue) ∧
        valueMissing r.consume.restView = true := by
    simp only [View.missesValue, view, Bool.and_eq_true, Bool.or_eq_true, beq_iff_eq]
    cases r.state <;> simp [State.phase]
  simp only [hmisses]
  refine Reader.checkedBody_twice (show State.expectFieldValue ≠ .expectOwsAfterColon by decide)
    ?_ ?_ ?_ r
  · intro self r hs
    have hstate : r.consume.state = .expectFieldValue := by rwa [consume_state]
    unfold nextBody dispatch
    simp only [hs, hstate]
  · intro self r hs
    have hstate : r.consume.state = .expectOwsAfterColon := by rwa [consume_state]
    unfold nextBody dispatch
    simp only [hs, hstate]
  · intro self self' r h hs
    unfold nextBody
    simp only [dispatch_congr mem (r := r.consume) h (by rwa [consume_state])]

end Response

namespace Session

variable {σ β ν κ φ : Type}

def findsEmptyValue (V : View σ β ν φ) (S : Bytes) (s : Session σ β ν κ) : Op κ → Bool
  | .next => V.missesValue s.reader
  | .setBuffer size =>
    s.reader.code == .errorInsufficientData && V.missesValue (s.rebase S size).reader
  | .call _ => false

section Checked

variable {A B : Api σ β ν κ} {V : View σ β ν φ} {mem : Nat → UInt8} {S : Bytes}

theorem pull_checked
    (hnext : ∀ r, B.next r = if V.missesValue r then .error .outOfBounds else A.next r)
    (s : Session σ β ν κ) : s.pull B mem
      = if V.missesValue s.reader then .error .outOfBounds else s.pull A mem := by
  unfold pull
  rw [hnext]
  by_cases hmisses : V.missesValue s.reader = true
  · rw [if_pos hmisses, if_pos hmisses]
  · rw [if_neg hmisses, if_neg hmisses]

theorem perform_checked
    (hnext : ∀ r, B.next r = if V.missesValue r then .error .outOfBounds else A.next r)
    (hcall : B.call = A.call) (s : Session σ β ν κ) (o : Op κ) :
    (system B mem S free).perform s o = if findsEmptyValue V S s o then .error .outOfBounds
      else (system A mem S free).perform s o := by
  cases o with
  | next => exact pull_checked hnext s
  | setBuffer size =>
    change s.refill B mem S size = if _ then _ else s.refill A mem S size
    by_cases hc : s.reader.code = .errorInsufficientData
    · rw [refill_eq_pull hc, refill_eq_pull hc, findsEmptyValue, hc, beq_self_eq_true, Bool.true_and]
      exact pull_checked hnext _
    · have hcode : (s.reader.code == .errorInsufficientData) = false := beq_false_of_ne hc
      rw [refill_eq_ok hc, refill_eq_ok hc, findsEmptyValue, hcode, Bool.false_and]
      rfl
  | call c =>
    change s.invoke B c = s.invoke A c
    unfold invoke
    rw [hcall]

/-- A run goes through with values that are found in their token if and only if no operation finds an
empty one. -/
theorem checked_play_iff
    (hnext : ∀ r, B.next r = if V.missesValue r then .error .outOfBounds else A.next r)
    (hcall : B.call = A.call) {s₀ s : Session σ β ν κ} {ops : List (Op κ)}
    (h : (system A mem S free).conforming s₀ ops = true)
    (hplay : (system A mem S free).play s₀ ops = .ok s) :
    (system B mem S free).play s₀ ops = .ok s ↔
      (system A mem S fun s o => !findsEmptyValue V S s o).conforming s₀ ops = true := by
  have hpermits : ∀ s o, (system A mem S fun s o => !findsEmptyValue V S s o).permits s o
      = ((system A mem S free).permits s o && !findsEmptyValue V S s o) := by
    intro s o
    simp [system, free]
  exact Guarded.play_marked_iff (perform_checked hnext hcall) hpermits rfl h hplay

end Checked

end Session

/-! ## The place of a value in the stream -/

inductive Part where
  | header
  | trailer
  deriving DecidableEq, Repr

namespace Part

@[simp] def nameCode : Part → Code
  | header => .fieldName
  | trailer => .trailerName

@[simp] def valueCode : Part → Code
  | header => .fieldValue
  | trailer => .trailerValue

@[simp] def colon : Part → Phase
  | header => .colon
  | trailer => .trailerColon

@[simp] def ows : Part → Phase
  | header => .owsAfterColon
  | trailer => .owsAfterTrailerColon

@[simp] def value : Part → Phase
  | header => .fieldValue
  | trailer => .trailerValue

theorem phases (part : Part) : ValuePhases part.colon part.ows part.value := by
  cases part
  · exact .inl ⟨rfl, rfl, rfl⟩
  · exact .inr ⟨rfl, rfl, rfl⟩

theorem isFatal_valueCode (part : Part) : part.valueCode.isFatal = false := by
  cases part <;> rfl

end Part

/-- The name of a field is on record at the offset `p`, and has been read up to the offset `q` with
the text `x` behind it; only bytes that are skipped have been reported since. -/
structure Behind (S : Bytes) (part : Part) (log : List (Nat × Token)) (q p : Nat)
    (name x : Bytes) : Prop where
  named : ∃ log₁ log₂, log = log₁ ++ (p, ⟨part.nameCode, name.length, .view name⟩) :: log₂ ∧
    ∀ e ∈ log₂, e.2.code = .skip ∨ e.2.code = .errorInsufficientData
  text : S.drop p = name ++ (x ++ S.drop q)
  offset : q = p + name.length + x.length

theorem Behind.skip {S : Bytes} {part : Part} {log : List (Nat × Token)} {q p o : Nat}
    {name x y z : Bytes} {t : Token} (h : Behind S part log q p name x)
    (ht : t.code = .skip ∨ t.code = .errorInsufficientData) (hy : S.drop q = y ++ z) :
    Behind S part (log ++ [(o, t)]) (q + y.length) p name (x ++ y) := by
  obtain ⟨log₁, log₂, hlog, hskips⟩ := h.named
  refine ⟨⟨log₁, log₂ ++ [(o, t)], ?_, ?_⟩, ?_, ?_⟩
  · rw [hlog, List.append_assoc]
    rfl
  · intro e he
    rcases List.mem_append.mp he with he | he
    · exact hskips e he
    · rw [List.mem_singleton.mp he]
      exact ht
  · rw [h.text, ← List.drop_drop, hy, List.drop_left, List.append_assoc]
  · rw [h.offset, List.length_append]
    omega

structure AtField (S : Bytes) (log : List (Nat × Token)) (q : Nat) (phase : Phase) : Prop where
  colon : ∀ part : Part, phase = part.colon → ∃ p name, Behind S part log q p name []
  ows : ∀ part : Part, phase = part.ows ∨ phase = part.value → ∃ p name ows,
    Behind S part log q p name (0x3A :: ows) ∧ ∀ c ∈ ows, Detail.isOws c = true
  value : ∀ part : Part, phase = part.value → ∀ c ∈ (S.drop q).head?, Detail.isOws c = false

theorem AtField.elsewhere {S : Bytes} {log : List (Nat × Token)} {q : Nat} {phase : Phase}
    (h : ∀ part : Part, phase ≠ part.colon ∧ phase ≠ part.ows ∧ phase ≠ part.value) :
    AtField S log q phase where
  colon part hp := absurd hp (h part).1
  ows part hp := absurd hp (not_or.mpr (h part).2)
  value part hp := absurd hp (h part).2.2

/-- The value of a field has been found: the token at the offset `q` reaches up to a byte that cannot
stand in a value. -/
def FoundValue (S : Bytes) (part : Part) (log : List (Nat × Token)) (q : Nat) (raw : Bytes) : Prop :=
  ∃ p name ows c rest, Behind S part log q p name (0x3A :: ows) ∧
    (∀ a ∈ ows, Detail.isOws a = true) ∧ S.drop q = raw ++ c :: rest ∧
    (∀ a ∈ raw, Syntax.isFieldValueChar a = true) ∧ Syntax.isFieldValueChar c = false ∧
    ∀ a ∈ raw.head?, Detail.isOws a = false

section Step

variable {φ : Type} {P : Policy φ} {b : Bool} {s s' : Core φ} {w raw S : Bytes} {n q : Nat}
  {code : Code} {log : List (Nat × Token)} {t : Token}

theorem accept_part (hP : P.Orderly) (h : P.accept s raw = .ok (s', code)) (part : Part) :
    (s'.phase = part.colon → code = part.nameCode) ∧ s'.phase ≠ part.ows ∧
      s'.phase ≠ part.value ∧ (code = part.valueCode → s.phase = part.value) := by
  obtain ⟨p, f, m⟩ := s
  unfold Policy.accept at h
  cases p <;> simp only at h
  case fieldName | fieldValue | chunkSize =>
    split at h <;> cases h
    cases part <;> simp
  -- the policy chooses where the head and the trailers lead, and `Orderly` names the choices
  case crlfAfterHeaders =>
    split at h <;> cases h
    rename_i hon
    rcases hP.headers hon with rfl | rfl | rfl | rfl <;> cases part <;> simp
  case crlfAfterTrailers =>
    cases h
    rcases hP.trailersEnd f with hq | hq <;> cases part <;> simp [hq]
  case crlfAfterChunkExt =>
    split at h <;> cases h <;> cases part <;> simp
  all_goals
    cases h
    try (cases part <;> simp)

theorem emits_part (hP : P.Orderly) (h : P.Emits s raw code s') (part : Part) :
    (s'.phase = part.colon → code = part.nameCode) ∧
    (s'.phase = part.ows ∨ s'.phase = part.value →
      code = .skip ∧ (s.phase = part.colon ∨ s.phase = part.ows)) ∧
    (code = part.valueCode → s.phase = part.value) := by
  cases h with
  | lexeme _ _ _ ha =>
    obtain ⟨hcolon, hows, hvalue, hcode⟩ := accept_part hP ha part
    exact ⟨hcolon, fun h => absurd h (not_or.mpr ⟨hows, hvalue⟩), hcode⟩
  | colon hv hp _ hq =>
    rcases hv with ⟨rfl, rfl, rfl⟩ | ⟨rfl, rfl, rfl⟩ <;> rcases hq with rfl | rfl <;> cases part <;>
      simp [hp]
  | ows hv hp => rcases hv with ⟨-, rfl, -⟩ | ⟨-, rfl, -⟩ <;> cases part <;> simp [hp]
  | body hb hp =>
    rcases hb with ⟨rfl, rfl⟩ | ⟨rfl, rfl⟩ <;> cases part <;> simp only [Core.deliver, hp] <;> split <;>
      simp
  | unsafeBody hp => cases part <;> simp [hp]
  | closed hp => cases part <;> simp
  | endOfBody hp => cases part <;> simp
  | endOfMessage hp =>
    rcases hP.messageEnd s.framing with hm | hm | hm <;> cases part <;> simp [hm]

/-- Which tokens lead to the parts of a field, and to its value. -/
theorem lex_part (hP : P.Orderly) (h : P.lex b s w = .emit s' n code) (part : Part) :
    (s'.phase = part.colon → code = part.nameCode) ∧
    (s'.phase = part.ows ∨ s'.phase = part.value →
      code = .skip ∧ (s.phase = part.colon ∨ s.phase = part.ows)) ∧
    (code = part.valueCode → s.phase = part.ows ∨ s.phase = part.value) := by
  obtain ⟨q, hq, he⟩ := emits_of_lex h
  obtain ⟨hcolon, hows, hvalue⟩ := emits_part hP he part
  obtain ⟨p, f, m⟩ := s
  -- a first byte shows at most that there is no whitespace in front of the value
  refine ⟨hcolon, fun hp => ?_, fun hc => ?_⟩
  · obtain ⟨hcode, hphase⟩ := hows hp
    refine ⟨hcode, ?_⟩
    cases hq <;> cases part <;> simp at hphase ⊢ <;> exact hphase
  · have hphase := hvalue hc
    cases hq <;> cases part <;> simp at hphase ⊢ <;> exact .inr hphase

/-- Where the value of a field is due, it reaches up to a byte that cannot stand in it. -/
theorem lex_value_part {part : Part} (hs : s.phase = part.value) (hw : w <+: raw)
    (h : P.lex b s w = .emit s' n code) :
    code = part.valueCode ∧ ∃ c z, raw = w.take n ++ c :: z ∧
      (∀ a ∈ w.take n, Syntax.isFieldValueChar a = true) ∧ Syntax.isFieldValueChar c = false := by
  have hn := lex_le h
  have hres : ∀ c, s.phase.resolve c = s.phase := by
    intro c
    rw [hs]
    cases part <;> rfl
  obtain ⟨d, x, -, hscan, hacc⟩ := of_lex_lexeme (by rw [hs]; cases part <;> rfl)
    (by rw [hs]; cases part <;> nofun) (fun c => by rw [hres, hs]; cases part <;> rfl) hw h
  rw [hres] at hscan hacc
  have htake : raw.take n = w.take n := by
    obtain ⟨y, rfl⟩ := hw
    exact List.take_append_of_le_length hn
  refine ⟨?_, ?_⟩
  · rw [Core.goto_self rfl] at hacc
    unfold Policy.accept at hacc
    cases part <;> rw [hs] at hacc <;> simp only [Part.value] at hacc
    · split at hacc <;> cases hacc
      rfl
    · cases hacc
      rfl
  · have hspan : spanned Syntax.isFieldValueChar (fun _ _ => true) raw = .ok n := by
      rw [hs] at hscan
      cases part <;> exact hscan
    obtain ⟨c, z, hsplit, hchars, hc, -, -⟩ := spanned_ok hspan
    rw [htake] at hsplit hchars
    exact ⟨c, z, hsplit, hchars, hc⟩

/-- In front of a value nothing is found in an empty view. -/
theorem lex_part_ne_nil {part : Part} (hs : s.phase = part.colon ∨ s.phase = part.ows)
    (h : P.lex b s w = .emit s' n code) : w ≠ [] := by
  rintro rfl
  refine lex_nil_ne_emit ?_ ?_ h
  · rcases hs with hs | hs <;> rw [hs] <;> cases part <;> rfl
  · rcases hs with hs | hs <;> rw [hs] <;> cases part <;> nofun

/-- The colon of a field, and the whitespace behind it as far as it can be seen. -/
theorem lex_colon_part {part : Part} (hs : s.phase = part.colon) (hw : w <+: raw)
    (h : P.lex b s w = .emit s' n code) :
    ∃ ows z, raw = (0x3A :: ows) ++ z ∧ n = (0x3A :: ows).length ∧
      (∀ c ∈ ows, Detail.isOws c = true) ∧
      (s'.phase = part.value → ∀ c ∈ z.head?, Detail.isOws c = false) := by
  obtain ⟨y, rfl⟩ := hw
  cases w with
  | nil =>
    exact absurd rfl (lex_part_ne_nil (.inl hs) h)
  | cons c x =>
    rw [lex_colon part.phases hs, lexColon] at h
    split at h
    · cases h
    rename_i hc
    have hc : c = 0x3A := not_not.mp hc
    cases h
    refine ⟨x.takeWhile Detail.isOws, x.dropWhile Detail.isOws ++ y, ?_, rfl, ?_, ?_⟩
    · rw [hc, List.cons_append, List.cons_append, ← List.append_assoc,
        List.takeWhile_append_dropWhile]
    · exact fun a ha => List.mem_takeWhile_imp ha
    · intro hphase
      cases hdrop : x.dropWhile Detail.isOws with
      | nil =>
        rw [hdrop] at hphase
        cases part <;> cases hphase
      | cons d z =>
        intro a ha
        cases ha
        exact not_of_dropWhile hdrop

/-- More whitespace in front of a value. -/
theorem lex_ows_part {part : Part} (hs : s.phase = part.ows) (hw : w <+: raw)
    (h : P.lex b s w = .emit s' n .skip) :
    ∃ ows z, raw = ows ++ z ∧ n = ows.length ∧ (∀ c ∈ ows, Detail.isOws c = true) ∧ s' = s := by
  obtain ⟨y, hy⟩ := hw
  cases w with
  | nil =>
    exact absurd rfl (lex_part_ne_nil (.inr hs) h)
  | cons c x =>
    cases hc : Detail.isOws c with
    | true =>
      rw [lex_ows part.phases hs hc] at h
      cases h
      refine ⟨(c :: x).takeWhile Detail.isOws, (c :: x).dropWhile Detail.isOws ++ y, ?_, rfl, ?_, rfl⟩
      · rw [← List.append_assoc, List.takeWhile_append_dropWhile, hy]
      · exact fun a ha => List.mem_takeWhile_imp ha
    | false =>
      -- no whitespace is there: the value is found instead
      rw [lex_ows_absent part.phases hs hc] at h
      obtain ⟨hcode, -⟩ := lex_value_part (s := s.goto part.value) rfl ⟨y, hy⟩ h
      cases part <;> cases hcode

theorem resolve_part (p : Phase) (d : UInt8) (part : Part) :
    (p.resolve d = part.colon → p = part.colon) ∧ (p.resolve d = part.ows → p = part.ows) ∧
      (p.resolve d = part.value → p = part.value ∨ p = part.ows ∧ Detail.isOws d = false) := by
  cases p <;> simp only [Phase.resolve]
  case fieldName | chunkExt | trailerName => split <;> cases part <;> simp
  case owsAfterColon | owsAfterTrailerColon =>
    cases hd : Detail.isOws d <;> cases part <;> simp
  all_goals cases part <;> simp

theorem Behind.wait {part : Part} {p o : Nat} {name x : Bytes} (h : Behind S part log q p name x)
    (ht : t.code = .errorInsufficientData) : Behind S part (log ++ [(o, t)]) q p name x := by
  have hskip := h.skip (o := o) (.inr ht) (List.nil_append (S.drop q)).symm
  rwa [List.append_nil, List.length_nil, Nat.add_zero] at hskip

/-- A request for more data leaves a field where it is. -/
theorem AtField.need {o : Nat} (h : AtField S log q s.phase) (hw : w <+: S.drop q)
    (hlex : P.lex b s w = .need s') (ht : t.code = .errorInsufficientData) :
    AtField S (log ++ [(o, t)]) q s'.phase := by
  have hsame : AtField S (log ++ [(o, t)]) q s.phase := by
    refine ⟨fun part hp => ?_, fun part hp => ?_, h.value⟩
    · obtain ⟨p, name, hbehind⟩ := h.colon part hp
      exact ⟨p, name, hbehind.wait ht⟩
    · obtain ⟨p, name, ows, hbehind, hows⟩ := h.ows part hp
      exact ⟨p, name, ows, hbehind.wait ht, hows⟩
  obtain ⟨-, ⟨-, rfl⟩ | ⟨d, x, rfl, rfl⟩⟩ := of_lex_need hlex
  · exact hsame
  · rw [Core.goto_phase]
    refine ⟨fun part hp => ?_, fun part hp => ?_, fun part hp => ?_⟩
    · exact hsame.colon part ((resolve_part _ d part).1 hp)
    · rcases hp with hp | hp
      · exact hsame.ows part (.inl ((resolve_part _ d part).2.1 hp))
      · rcases (resolve_part _ d part).2.2 hp with hp | ⟨hp, -⟩
        · exact hsame.ows part (.inr hp)
        · exact hsame.ows part (.inl hp)
    · rcases (resolve_part _ d part).2.2 hp with hp | ⟨-, hd⟩
      · exact hsame.value part hp
      · -- the byte that decided it is the next one in the stream
        obtain ⟨y, hy⟩ := hw
        intro c hc
        rw [← hy] at hc
        cases hc
        exact hd

/-- The colon of a field, or more whitespace behind it, is passed. -/
theorem AtField.pass {part : Part} (h : AtField S log q s.phase) (hw : w <+: S.drop q)
    (hlex : P.lex b s w = .emit s' n code) (ht : t.code = code) (hcode : code = .skip)
    (hs : s.phase = part.colon ∨ s.phase = part.ows) :
    (∃ p name ows, Behind S part (log ++ [(q, t)]) (q + n) p name (0x3A :: ows) ∧
      ∀ c ∈ ows, Detail.isOws c = true) ∧
    (s'.phase = part.value → ∀ c ∈ (S.drop (q + n)).head?, Detail.isOws c = false) := by
  subst hcode
  rcases hs with hs | hs
  · obtain ⟨p, name, hbehind⟩ := h.colon part hs
    obtain ⟨ows, z, hsplit, rfl, hows, hvalue⟩ := lex_colon_part hs hw hlex
    refine ⟨⟨p, name, ows, hbehind.skip (.inl ht) hsplit, hows⟩, ?_⟩
    rw [← List.drop_drop, hsplit, List.drop_left]
    exact hvalue
  · obtain ⟨p, name, ows₀, hbehind, hows₀⟩ := h.ows part (.inl hs)
    obtain ⟨ows, z, hsplit, rfl, hows, rfl⟩ := lex_ows_part hs hw hlex
    refine ⟨⟨p, name, ows₀ ++ ows, hbehind.skip (.inl ht) hsplit, ?_⟩, fun hp => ?_⟩
    · intro c hc
      rcases List.mem_append.mp hc with hc | hc
      · exact hows₀ c hc
      · exact hows c hc
    · rw [hs] at hp
      cases part <;> cases hp

theorem AtField.emit (hP : P.Orderly) (h : AtField S log q s.phase) (hw : w <+: S.drop q)
    (hlex : P.lex b s w = .emit s' n code) :
    AtField S (log ++ [(q, ⟨code, n, tokenValue code s'.bodySize w n⟩)]) (q + n) s'.phase := by
  refine ⟨fun part hp => ?_, fun part hp => ?_, fun part hp => ?_⟩
  · -- the name of the field has just been read
    obtain rfl := (lex_part hP hlex part).1 hp
    have hlen : (w.take n).length = n := by rw [List.length_take, Nat.min_eq_left (lex_le hlex)]
    have htake : w.take n ++ S.drop (q + n) = S.drop q := by
      obtain ⟨y, hy⟩ := hw
      rw [← List.drop_drop, ← hy, List.drop_append_of_le_length (lex_le hlex), ← List.append_assoc,
        List.take_append_drop]
    refine ⟨q, w.take n, ⟨log, [], ?_, nofun⟩, ?_, ?_⟩
    · rw [hlen]
      cases part <;> rfl
    · rw [List.nil_append, htake]
    · rw [hlen]
      rfl
  · obtain ⟨hcode, hs⟩ := (lex_part hP hlex part).2.1 hp
    exact (h.pass hw hlex rfl hcode hs).1
  · obtain ⟨hcode, hs⟩ := (lex_part hP hlex part).2.1 (.inr hp)
    exact (h.pass (t := ⟨code, n, .none⟩) hw hlex rfl hcode hs).2 hp

/-- A value that is reported reaches from the first byte that is no whitespace to the line end. -/
theorem AtField.found {part : Part} (hP : P.Orderly) (h : AtField S log q s.phase)
    (hw : w <+: S.drop q) (hlex : P.lex b s w = .emit s' n part.valueCode) :
    FoundValue S part log q (w.take n) := by
  have hs := (lex_part hP hlex part).2.2 rfl
  obtain ⟨p, name, ows, hbehind, hows⟩ := h.ows part hs
  -- in either phase the value is due, and does not begin with whitespace
  have hdue : P.lex b (s.goto part.value) w = .emit s' n part.valueCode ∧
      ∀ c ∈ (S.drop q).head?, Detail.isOws c = false := by
    rcases hs with hs | hs
    · cases w with
      | nil =>
        exact absurd rfl (lex_part_ne_nil (.inr hs) hlex)
      | cons d x =>
        cases hd : Detail.isOws d with
        | true =>
          rw [lex_ows part.phases hs hd] at hlex
          cases part <;> cases hlex
        | false =>
          rw [lex_ows_absent part.phases hs hd] at hlex
          refine ⟨hlex, ?_⟩
          obtain ⟨y, hy⟩ := hw
          intro c hc
          rw [← hy] at hc
          cases hc
          exact hd
    · rw [Core.goto_self hs]
      exact ⟨hlex, h.value part hs⟩
  obtain ⟨hlex', hhead⟩ := hdue
  obtain ⟨-, c, z, hsplit, hchars, hc⟩ := lex_value_part (s := s.goto part.value) rfl hw hlex'
  refine ⟨p, name, ows, c, z, hbehind, hows, hsplit, hchars, hc, fun a ha => ?_⟩
  apply hhead a
  rw [hsplit]
  cases hraw : w.take n with
  | nil =>
    rw [hraw] at ha
    cases ha
  | cons d x =>
    rw [hraw] at ha
    exact ha

end Step

theorem token_of_value {σ β ν : Type} (mem : Nat → UInt8) {r : Reader σ β ν} {part : Part}
    (h : r.code = part.valueCode) :
    r.token mem = ⟨part.valueCode, r.tokenSize, .view (Detail.trimTail r.slice)⟩ := by
  unfold Reader.token Reader.value
  rw [h]
  cases part <;> simp only [Part.valueCode, Detail.decodeFieldValue_eq]

namespace Session

variable {σ β ν κ φ : Type} {A : Api σ β ν κ} {mem : Nat → UInt8} {S : Bytes} {V : View σ β ν φ}
  {P : Policy φ} {Legal : Core φ → Prop} {s : Session σ β ν κ}
  {guard : Session σ β ν κ → Op κ → Bool} {ops : List (Op κ)}

structure InField (V : View σ β ν φ) (S : Bytes) (s : Session σ β ν κ) : Prop where
  place : AtField S s.emitted s.pass.consumed (V.phase s.reader.state)
  token : ∀ part : Part, s.reader.code = part.valueCode → ∃ log,
    s.emitted = log ++ [(s.consumed,
      ⟨part.valueCode, s.reader.tokenSize, .view (Detail.trimTail s.reader.slice)⟩)] ∧
    FoundValue S part log s.consumed s.reader.slice

/-- What `next()` reports is found in the field where the session stands. -/
theorem InField.report {r' : Reader σ β ν} (hA : A.Lawful V P Legal) (hP : P.Orderly)
    (ht : Tracks V Legal S s) (hs : InField V S s) (he : V.phase s.reader.state ≠ .errored)
    (hout : Settles V s.reader.consume
      (P.lex (V.eof s.reader.connection) (V.core s.reader) s.reader.consume.restView) r') :
    InField V S (s.pass.report mem r') := by
  have hwindow := ht.pass_window he
  have hlegal := ht.sound.legal he
  refine ⟨?_, fun part hpart => ?_⟩
  · rcases report_cases mem hA ht he hout with ⟨hlex, hcode, -, hpass⟩ |
      ⟨n, code, hlex, htok, -, hpass⟩ | ⟨hlex, hphase⟩
    · rw [emitted_report, hpass]
      exact hs.place.need hwindow hlex hcode
    · rw [emitted_report, hpass, htok]
      exact hs.place.emit hP hwindow hlex
    · -- a reader that has failed stands in no field
      change AtField S _ _ (V.phase r'.state)
      rw [hphase]
      exact .elsewhere fun part => by cases part <;> decide
  · have hpart : r'.code = part.valueCode := hpart
    have hlex := hout.emit_of_code hA.implements.keeps hlegal (by rw [hpart]; cases part <;> rfl)
    rw [hpart] at hlex
    refine ⟨s.emitted, ?_, ?_⟩
    · rw [emitted_report, token_of_value mem hpart]
      rfl
    · change FoundValue S part s.emitted s.pass.consumed r'.slice
      rw [Reader.slice, hout.restView]
      exact hs.place.found hP hwindow hlex

/-- A new buffer starts with the bytes of the current token. -/
theorem InField.rebase {size : Nat} (ht : Tracks V Legal S s) (hs : InField V S s)
    (hp : permits A S s (.setBuffer size) = true) : InField V S (s.rebase S size) := by
  refine ⟨?_, fun part hpart => ?_⟩
  · rw [rebase_pass_consumed]
    exact hs.place
  · obtain ⟨log, hlog, hfound⟩ := hs.token part hpart
    have hcode : s.reader.code = part.valueCode := hpart
    have he := ht.sound.ne_errored (by rw [hcode, part.isFatal_valueCode])
    rw [(ht.rebase_slice he hp).2]
    exact ⟨log, hlog, hfound⟩

theorem InField.note {c : κ} {r' : Reader σ β ν} (hA : A.Lawful V P Legal) (ht : Tracks V Legal S s)
    (hs : InField V S s) (hp : A.callable c s.reader = true) (hcall : A.call c s.reader = .ok r') :
    InField V S (s.note c r') := by
  obtain ⟨-, hstate, hcode, hidx, hsize, hbuf⟩ := hA.of_call ht.sound hp hcall
  have hslice : r'.slice = s.reader.slice := by
    rw [Reader.slice, Reader.restView, hbuf, hidx, hsize]
    rfl
  refine ⟨?_, fun part hpart => ?_⟩
  · rw [note_pass_consumed s c r' hcode hsize]
    change AtField S s.emitted s.pass.consumed (V.phase r'.state)
    rw [hstate]
    exact hs.place
  · obtain ⟨log, hlog, hfound⟩ := hs.token part (hcode.symm.trans hpart)
    refine ⟨log, ?_, ?_⟩
    · change s.emitted = log ++
        [(s.consumed, ⟨part.valueCode, r'.tokenSize, .view (Detail.trimTail r'.slice)⟩)]
      rw [hslice, hsize]
      exact hlog
    · change FoundValue S part log s.consumed r'.slice
      rw [hslice]
      exact hfound

theorem play_inField (hA : A.Lawful V P Legal) (hP : P.Orderly) (ht : Tracks V Legal S s)
    (hs : InField V S s) (h : (system A mem S guard).conforming s ops = true) :
    ∃ s', (system A mem S guard).play s ops = .ok s' ∧ Tracks V Legal S s' ∧ InField V S s' := by
  apply play_induction hA _ _ _ ht hs h
  · intro s r' ht hs he _ _ hout _
    exact hs.report hA hP ht he hout
  · intro s size ht hs hp _
    exact hs.rebase ht hp
  · intro s c r' ht hs hp _ hcall
    exact hs.note hA ht hp hcall

/-- The current token is the value of the field whose name was reported last.  The bytes `between` reach
from the colon to the line end: to the first byte, that is, which cannot stand in a value. -/
def ShowsValue (mem : Nat → UInt8) (S : Bytes) (s : Session σ β ν κ) (part : Part)
    (between : Bytes) : Prop :=
  ∃ log₁ log₂ p name c rest,
    s.emitted = log₁ ++ (p, ⟨part.nameCode, name.length, .view name⟩) ::
      (log₂ ++ [(s.consumed, s.reader.token mem)]) ∧
    (∀ e ∈ log₂, e.2.code = .skip ∨ e.2.code = .errorInsufficientData) ∧
    S.drop p = name ++ 0x3A :: (between ++ c :: rest) ∧
    (∀ a ∈ between, Syntax.isFieldValueChar a = true) ∧ Syntax.isFieldValueChar c = false ∧
    s.consumed + s.reader.tokenSize = p + name.length + 1 + between.length ∧
    s.reader.value mem = .view (trim between)

theorem exists_text_iff {ows raw : Bytes} (hows : ∀ a ∈ ows, Detail.isOws a = true)
    (hraw : ∀ a ∈ raw.head?, Detail.isOws a = false) :
    (∃ a ∈ ows ++ raw, Detail.isOws a = false) ↔ raw ≠ [] := by
  cases raw with
  | nil =>
    rw [List.append_nil]
    refine iff_of_false ?_ (absurd rfl)
    rintro ⟨a, ha, hnot⟩
    rw [hows a ha] at hnot
    cases hnot
  | cons b bs =>
    exact iff_of_true ⟨b, List.mem_append_right _ List.mem_cons_self, hraw b rfl⟩ nofun

/-- What is known of a value that is the current token, and when it is found without looking beyond
the token. -/
theorem InField.shows (h : InField V S s) (ht : Tracks V Legal S s) {part : Part}
    (hcode : s.reader.code = part.valueCode) : ∃ between, s.ShowsValue mem S part between ∧
      (Detail.checkedDecodeFieldValue s.reader.slice = .ok (trim between) ↔
        ∃ a ∈ between, Detail.isOws a = false) := by
  obtain ⟨log, hlog, p, name, ows, c, rest, hbehind, hows, hsplit, hchars, hc, hhead⟩ :=
    h.token part hcode
  obtain ⟨log₁, log₂, rfl, hskips⟩ := hbehind.named
  have htrim := trim_append hows hhead
  have he := ht.sound.ne_errored (by rw [hcode, part.isFatal_valueCode])
  have hlen : s.reader.slice.length = s.reader.tokenSize := Reader.length_slice (ht.sound.bound he)
  refine ⟨ows ++ s.reader.slice, ⟨log₁, log₂, p, name, c, rest, ?_, hskips, ?_, ?_, hc, ?_, ?_⟩, ?_⟩
  · rw [hlog, token_of_value mem hcode, List.append_assoc]
    rfl
  · rw [hbehind.text, hsplit, List.append_assoc]
    rfl
  · intro a ha
    rcases List.mem_append.mp ha with ha | ha
    · exact isFieldValueChar_of_isOws (hows a ha)
    · exact hchars a ha
  · have hoffset := hbehind.offset
    rw [List.length_cons] at hoffset
    rw [List.length_append, hlen]
    omega
  · rw [htrim]
    exact congrArg Token.value (token_of_value mem hcode)
  · rw [exists_text_iff hows hhead, htrim, ← Detail.decodeFieldValue_eq mem]
    exact Detail.checkedDecodeFieldValue_iff mem _

end Session

/-! ## The two readers -/

namespace Request

def checkedApi (mem : Nat → UInt8) : Api State BodyType Version Empty :=
  { api mem with next := checkedNext mem }

theorem checkedApi_next (mem : Nat → UInt8) (r : Request) : (checkedApi mem).next r
    = if view.missesValue r then .error .outOfBounds else (api mem).next r :=
  checkedNext_eq mem r

abbrev checkedSession (mem : Nat → UInt8) (S : Bytes) : Guarded Run (Op Empty) Fault :=
  Session.system (checkedApi mem) mem S Session.free

/-- A session in which no header field has an empty value. -/
abbrev carefulSession (mem : Nat → UInt8) (S : Bytes) : Guarded Run (Op Empty) Fault :=
  Session.system (api mem) mem S fun s o => !s.findsEmptyValue view S o

theorem inField_fresh (S : Bytes) {version : Version} {bodySize : Nat} :
    Session.InField view S (fresh version bodySize) where
  place := .elsewhere fun part => by cases part <;> exact ⟨nofun, nofun, nofun⟩
  token part hp := by cases part <;> cases hp

end Request

namespace Response

def checkedApi (mem : Nat → UInt8) : Api State BodyType ConnectionFlags Call :=
  { api mem with next := checkedNext mem }

theorem checkedApi_next (mem : Nat → UInt8) (r : Response) : (checkedApi mem).next r
    = if view.missesValue r then .error .outOfBounds else (api mem).next r :=
  checkedNext_eq mem r

abbrev checkedSession (mem : Nat → UInt8) (S : Bytes) : Guarded Run (Op Call) Fault :=
  Session.system (checkedApi mem) mem S Session.free

abbrev carefulSession (mem : Nat → UInt8) (S : Bytes) : Guarded Run (Op Call) Fault :=
  Session.system (api mem) mem S fun s o => !s.findsEmptyValue view S o

theorem inField_fresh (S : Bytes) {bodySize : Nat} :
    Session.InField view S (fresh bodySize) where
  place := .elsewhere fun part => by cases part <;> exact ⟨nofun, nofun, nofun⟩
  token part hp := by cases part <;> cases hp

end Response

/-- However a client drives a reader, a field value that is the current token is what stands between
the colon and the line end, without the whitespace around it.  It is found by looking at the token
only, if and only if it has a byte that is no whitespace; and so are the values that `next()` looks
for, if and only if no header field on the way has an empty value. -/
theorem field_value_trimmed (mem : Nat → UInt8) (S : Bytes) :
    (∀ version bodySize ops,
      (Request.session mem S).conforming (Request.fresh version bodySize) ops = true →
      ∃ s, (Request.session mem S).play (Request.fresh version bodySize) ops = .ok s ∧
        (∀ part : Part, s.reader.code = part.valueCode →
          ∃ between, s.ShowsValue mem S part between ∧
            (Detail.checkedDecodeFieldValue s.reader.slice = .ok (trim between) ↔
              ∃ a ∈ between, Detail.isOws a = false)) ∧
        ((Request.checkedSession mem S).play (Request.fresh version bodySize) ops = .ok s ↔
          (Request.carefulSession mem S).conforming (Request.fresh version bodySize) ops = true)) ∧
    (∀ bodySize ops,
      (Response.session mem S).conforming (Response.fresh bodySize) ops = true →
      ∃ s, (Response.session mem S).play (Response.fresh bodySize) ops = .ok s ∧
        (∀ part : Part, s.reader.code = part.valueCode →
          ∃ between, s.ShowsValue mem S part between ∧
            (Detail.checkedDecodeFieldValue s.reader.slice = .ok (trim between) ↔
              ∃ a ∈ between, Detail.isOws a = false)) ∧
        ((Response.checkedSession mem S).play (Response.fresh bodySize) ops = .ok s ↔
          (Response.carefulSession mem S).conforming (Response.fresh bodySize) ops = true)) := by
  constructor
  · intro version bodySize ops h
    obtain ⟨s, hplay, ht, hs⟩ := Session.play_inField (Request.lawful mem) Request.orderly
      (Request.tracks_fresh version bodySize S) (Request.inField_fresh S) h
    exact ⟨s, hplay, fun part hcode => hs.shows ht hcode,
      Session.checked_play_iff (Request.checkedApi_next mem) rfl h hplay⟩
  · intro bodySize ops h
    obtain ⟨s, hplay, ht, hs⟩ := Session.play_inField (Response.lawful mem) Response.orderly
      (Response.tracks_fresh bodySize S) (Response.inField_fresh S) h
    exact ⟨s, hplay, fun part hcode => hs.shows ht hcode,
      Session.checked_play_iff (Response.checkedApi_next mem) rfl h hplay⟩

/-- A value with whitespace on both sides and within, in a request and in a response. -/
theorem field_value_trimmed_padded :
    let request := ascii "GET / HTTP/1.0\r\nA: \t b c \t\r\n"
    let response := ascii "HTTP/1.1 200 OK\r\nA:  b\t\r\n"
    let asked : List (Op Empty) := .setBuffer 28 :: List.replicate 8 .next
    let answered : List (Op Response.Call) := List.flatten [[.setBuffer 25], List.replicate 3 .next,
      [.call (.setMethod (ascii "GET"))], List.replicate 6 .next]
    (∃ s, (Request.session (fun _ => 0) request).play (Request.fresh .http10 0) asked = .ok s ∧
      (∃ between, s.ShowsValue (fun _ => 0) request .header between ∧
        (Detail.checkedDecodeFieldValue s.reader.slice = .ok (trim between) ↔
          ∃ a ∈ between, Detail.isOws a = false)) ∧
      (Request.checkedSession (fun _ => 0) request).play (Request.fresh .http10 0) asked = .ok s) ∧
    ∃ s, (Response.session (fun _ => 0) response).play (Response.fresh 0) answered = .ok s ∧
      (∃ between, s.ShowsValue (fun _ => 0) response .header between ∧
        (Detail.checkedDecodeFieldValue s.reader.slice = .ok (trim between) ↔
          ∃ a ∈ between, Detail.isOws a = false)) ∧
      (Response.checkedSession (fun _ => 0) response).play (Response.fresh 0) answered = .ok s := by
  intro request response asked answered
  constructor
  · obtain ⟨s, hplay, hshows, hchecked⟩ := (field_value_trimmed (fun _ => 0) request).1 .http10 0 asked
      (by decide +kernel)
    have hcode : (Request.session (fun _ => 0) request).ends (Request.fresh .http10 0) asked
        (·.reader.code == .fieldValue) = true := by decide +kernel
    rw [Guarded.ends_eq hplay] at hcode
    exact ⟨s, hplay, hshows .header (eq_of_beq hcode), hchecked.mpr (by decide +kernel)⟩
  · obtain ⟨s, hplay, hshows, hchecked⟩ := (field_value_trimmed (fun _ => 0) response).2 0 answered
      (by decide +kernel)
    have hcode : (Response.session (fun _ => 0) response).ends (Response.fresh 0) answered
        (·.reader.code == .fieldValue) = true := by decide +kernel
    rw [Guarded.ends_eq hplay] at hcode
    exact ⟨s, hplay, hshows .header (eq_of_beq hcode), hchecked.mpr (by decide +kernel)⟩

/-- An empty value in a request and in a response: the first byte that is looked at has the index
`2^64 - 1`, both in `next()` and in `value<token::field_value>()`. -/
theorem empty_field_value_escapes :
    let request := ascii "GET / HTTP/1.0\r\nA:\r\n"
    let response := ascii "HTTP/1.1 200 OK\r\nA: \r\n"
    let asked : List (Op Empty) := .setBuffer 20 :: List.replicate 8 .next
    let answered : List (Op Response.Call) := List.flatten [[.setBuffer 22], List.replicate 3 .next,
      [.call (.setMethod (ascii "GET"))], List.replicate 6 .next]
    ((Request.session (fun _ => 0) request).conforming (Request.fresh .http10 0) asked = true ∧
      (∃ s, (Request.session (fun _ => 0) request).play (Request.fresh .http10 0) asked = .ok s ∧
        s.reader.code = .fieldValue ∧ s.reader.tokenSize = 0 ∧
        Detail.checkedDecodeFieldValue s.reader.slice = .error .outOfBounds) ∧
      (Request.checkedSession (fun _ => 0) request).play (Request.fresh .http10 0) asked
        = .error .outOfBounds) ∧
    ((Response.session (fun _ => 0) response).conforming (Response.fresh 0) answered = true ∧
      (∃ s, (Response.session (fun _ => 0) response).play (Response.fresh 0) answered = .ok s ∧
        s.reader.code = .fieldValue ∧ s.reader.tokenSize = 0 ∧
        Detail.checkedDecodeFieldValue s.reader.slice = .error .outOfBounds) ∧
      (Response.checkedSession (fun _ => 0) response).play (Response.fresh 0) answered
        = .error .outOfBounds) ∧
    wrapSub 0 1 = 2 ^ 64 - 1 := by
  intro request response asked answered
  have hslice : ∀ {σ β ν : Type} {r : Reader σ β ν}, r.tokenSize = 0 →
      Detail.checkedDecodeFieldValue r.slice = .error .outOfBounds := by
    intro σ β ν r hsize
    have hnil : r.slice = [] := by rw [Reader.slice, hsize, List.take_zero]
    rw [hnil]
    exact Detail.checkedDecodeFieldValue_nil
  refine ⟨⟨by decide +kernel, ?_, by decide +kernel⟩, ⟨by decide +kernel, ?_, by decide +kernel⟩,
    by decide⟩
  · have hends : (Request.session (fun _ => 0) request).ends (Request.fresh .http10 0) asked
        (fun s => s.reader.code == .fieldValue && s.reader.tokenSize == 0) = true := by decide +kernel
    obtain ⟨s, hplay, hs⟩ := Guarded.of_ends hends
    rw [Bool.and_eq_true] at hs
    have hsize := eq_of_beq hs.2
    exact ⟨s, hplay, eq_of_beq hs.1, hsize, hslice hsize⟩
  · have hends : (Response.session (fun _ => 0) response).ends (Response.fresh 0) answered
        (fun s => s.reader.code == .fieldValue && s.reader.tokenSize == 0) = true := by decide +kernel
    obtain ⟨s, hplay, hs⟩ := Guarded.of_ends hends
    rw [Bool.and_eq_true] at hs
    have hsize := eq_of_beq hs.2
    exact ⟨s, hplay, eq_of_beq hs.1, hsize, hslice hsize⟩

end BoostHttp
