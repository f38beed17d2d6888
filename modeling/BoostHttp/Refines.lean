import BoostHttp.Handlers
import BoostHttp.Lexer

/-!
# Refines — what it means for a reader to implement a message lexer

A reader keeps the state of a lexer in its members, and between two calls also a buffer, the bounds
of the current token and, while data is insufficient, the number of bytes of an unfinished token it
has already looked at.  `Sound` is the invariant of these members; `Settles` says what a call of
`next()` leaves behind for each answer of the lexer; `Implements` ties the two together.
-/

open Incremental

namespace BoostHttp

/-- The phases in which the reader keeps the bytes of an unfinished token in `token_size_`. -/
def Phase.keeps : Phase → Bool
  | .method | .requestTarget | .staticStrAfterTarget | .versionStaticStr | .chunkExt => true
  | _ => false

def Phase.kept (p : Phase) (w : Bytes) : Nat := if p.keeps then w.length else 0

/-- What `token_size_` is left at by a failure, when it was `held` before: only the checks of a field
and of the end of the headers come after the size of the lexeme has been noted. -/
def Phase.checkSize (p : Phase) (w : Bytes) (held : Nat) : Nat :=
  match p with
  | .fieldName | .fieldValue | .crlfAfterHeaders =>
    match p.scan w with
    | .ok n => n
    | _ => held
  | _ => held

def Phase.failSize (p : Phase) (w : Bytes) (held : Nat) : Nat :=
  match w with
  | [] => held
  | c :: _ => if p.resolve c = p then p.checkSize w held else (p.resolve c).checkSize w 0

theorem Phase.failSize_resolved {p : Phase} {w : Bytes} (h : ∀ c ∈ w.head?, p.resolve c = p)
    (held : Nat) : p.failSize w held = p.checkSize w held := by
  cases w with
  | nil => cases p <;> rfl
  | cons c w => exact if_pos (h c rfl)

/-- A lexeme that is not there leaves the size as it was. -/
theorem Phase.checkSize_bad {p : Phase} {w : Bytes} (h : p.scan w = .bad) (held : Nat) :
    p.checkSize w held = held := by
  cases p <;> simp only [Phase.checkSize] <;> rw [h]

def Phase.Holds (p : Phase) (v : Bytes) : Prop := v = [] ∨ p.keeps = true ∧ p.scan v = .need

theorem Phase.Holds.eq_nil {p : Phase} {v : Bytes} (h : p.Holds v) (hk : p.keeps = false) :
    v = [] := by
  rcases h with h | ⟨h, -⟩
  · exact h
  · rw [hk] at h; cases h

theorem Phase.Holds.scan_need {p : Phase} {v : Bytes} (h : p.Holds v) (hk : p.keeps = true) :
    p.scan v = .need := by
  rcases h with rfl | ⟨-, h⟩
  · cases p <;> rfl
  · exact h

/-- How the members of a reader are read as the state of a lexer. -/
structure View (σ β ν φ : Type) where
  phase : σ → Phase
  framing : ν → β → φ
  eof : ν → Bool

variable {σ β ν φ : Type}

def View.core (V : View σ β ν φ) (r : Reader σ β ν) : Core φ where
  phase := V.phase r.state
  framing := V.framing r.connection r.bodyType
  bodySize := r.bodySize

/-- The reader `r'` that `next()` leaves behind when the lexer answers `out` to the unread bytes of
`r`. -/
structure Settles (V : View σ β ν φ) (r : Reader σ β ν) (out : Out (Core φ) Code)
    (r' : Reader σ β ν) : Prop where
  ibuffer : r'.ibuffer = r.ibuffer
  idx : r'.idx = r.idx
  eof : V.eof r'.connection = V.eof r.connection
  outcome : match out with
    | .need s =>
      V.core r' = s ∧ r'.code = .errorInsufficientData ∧ r'.tokenSize = s.phase.kept r.restView
    | .emit s n c => V.core r' = s ∧ r'.code = c ∧ r'.tokenSize = n
    | .fail c => V.phase r'.state = .errored ∧ r'.code = c
  failed : ∀ c, out = .fail c → r'.tokenSize = (V.phase r.state).failSize r.restView r.tokenSize

/-- The buffer and the index stay, and so does the view of the unread bytes. -/
theorem Settles.restView {V : View σ β ν φ} {r r' : Reader σ β ν} {out : Out (Core φ) Code}
    (h : Settles V r out r') : r'.restView = r.restView := by
  unfold Reader.restView
  rw [h.ibuffer, h.idx]

structure Sound (V : View σ β ν φ) (Legal : Core φ → Prop) (r : Reader σ β ν) : Prop where
  fatal : r.code.isFatal = true ↔ V.phase r.state = .errored
  bound : V.phase r.state ≠ .errored → r.idx + r.tokenSize ≤ r.ibuffer.length
  held : r.code = .errorInsufficientData → (V.phase r.state).Holds r.slice
  zeroSized : (V.phase r.state).isZeroSized = true → r.code ≠ .errorInsufficientData
  last : V.phase r.state = .endOfConnectionError → r.tokenSize = 0
  status : r.code = .statusCode → V.phase r.state = .spAfterStatusCode ∧ r.tokenSize = 3
  legal : V.phase r.state ≠ .errored → Legal (V.core r)

/-- A reader without a fatal error has not failed. -/
theorem Sound.ne_errored {V : View σ β ν φ} {Legal : Core φ → Prop} {r : Reader σ β ν}
    (hr : Sound V Legal r) (h : r.code.isFatal = false) : V.phase r.state ≠ .errored := by
  intro he
  rw [hr.fatal.mpr he] at h
  cases h

structure Policy.Keeps (P : Policy φ) (Legal : Core φ → Prop) : Prop where
  need : ∀ {b s w s'}, Legal s → P.lex b s w = .need s' → Legal s' ∧ s'.phase ≠ .errored
  emit : ∀ {b s w s' n c}, Legal s → P.lex b s w = .emit s' n c →
    Legal s' ∧ s'.phase ≠ .errored ∧ c.isError = false ∧
      (s'.phase = .endOfConnectionError → n = 0)
  fail : ∀ {b s w c}, Legal s → P.lex b s w = .fail c → c.isFatal = true
  chunk : ∀ {b s w s' n}, Legal s → P.lex b s w = .emit s' n .bodyChunk → n ≠ 0

structure Implements (V : View σ β ν φ) (P : Policy φ) (Legal : Core φ → Prop)
    (next : Reader σ β ν → Except Fault (Reader σ β ν)) : Prop where
  keeps : P.Keeps Legal
  errored : ∀ {r}, V.phase r.state = .errored → next r = .ok r
  settles : ∀ {r}, Sound V Legal r → V.phase r.state ≠ .errored →
    ∃ r', next r = .ok r' ∧
      Settles V r.consume (P.lex (V.eof r.connection) (V.core r) r.consume.restView) r'

/-! ## Policies that keep to their rules -/

section Keeps

variable {P : Policy φ} {Legal : Core φ → Prop}

structure Policy.FailsWith (P : Policy φ) (E : Code → Prop) : Prop where
  fieldName : ∀ {f name c}, P.onFieldName f name = .error c → E c
  fieldValue : ∀ {f n value c}, P.onFieldValue f n value = .error c → E c
  headers : ∀ {f n c}, P.onHeaders f n = .error c → E c
  method : ∀ {f}, P.methodKnown f = false → E .errorSetMethod
  invalid : E .errorInvalidData
  overflow : E .errorChunkSizeOverflow

theorem Policy.FailsWith.accept {E : Code → Prop} (hP : P.FailsWith E) {s : Core φ} {raw : Bytes}
    {c : Code} (h : P.accept s raw = .error c) : E c := by
  unfold Policy.accept at h
  split at h <;> try (cases h; done)
  · split at h <;> cases h
    exact hP.fieldName ‹_›
  · split at h <;> cases h
    exact hP.fieldValue ‹_›
  · split at h <;> cases h
    exact hP.headers ‹_›
  · split at h <;> cases h
    · exact hP.overflow
    · exact hP.invalid
  · split at h <;> cases h
  · cases h; exact hP.invalid

/-- A lexer fails for no other reason; that another connection is needed it reports at the end of
one only. -/
theorem Policy.FailsWith.lex {E : Code → Prop} (hP : P.FailsWith E) {b : Bool} {s : Core φ}
    {w : Bytes} {c : Code}
    (hend : b = true ∨ s.phase = .endOfConnectionError → E .errorUseAnotherConnection)
    (h : P.lex b s w = .fail c) : E c := by
  cases hz : s.phase.isZeroSized with
  | true =>
    unfold Policy.lex at h
    cases hp : s.phase <;> simp only [hp, Phase.isZeroSized, reduceCtorEq] at hz h
    cases h
    exact hend (.inr hp)
  | false =>
    cases w with
    | nil =>
      rcases lex_nil_cases (P := P) (b := b) hz with hl | ⟨-, hl⟩ | ⟨hb, -, hl⟩ <;> rw [hl] at h <;>
        cases h
      exact hend (.inl hb)
    | cons d w =>
      rw [lex_cons hz] at h
      cases he : (s.phase.resolve d).isElastic with
      | false =>
        rw [lexeme_of_rigid he] at h
        rcases scanned_fail h with ⟨-, hk, rfl⟩ | ⟨-, rfl⟩ | ⟨n, -, ha⟩
        · exact hP.method hk
        · exact hP.invalid
        · exact hP.accept ha
      | true =>
        unfold Policy.lexeme lexColon lexBody at h
        cases hp : s.phase.resolve d <;>
          simp only [hp, Phase.isElastic, reduceCtorEq, Core.goto_phase] at he h
        all_goals
          split at h <;> cases h
          exact hP.invalid

/-- A body chunk is empty only if there is nothing left of the body. -/
theorem chunk_ne_nil {s s' : Core φ} {raw : Bytes}
    (hs : s.phase = .body ∨ s.phase = .chunkData → s.bodySize ≠ 0)
    (h : P.Emits s raw .bodyChunk s') : raw ≠ [] := by
  generalize hc : Code.bodyChunk = code at h
  cases h with
  | lexeme _ _ _ hacc =>
    subst hc
    unfold Policy.accept at hacc
    split at hacc <;> first
      | cases hacc
      | (split at hacc <;> cases hacc)
  | body hb hp _ hne =>
    apply hne
    apply hs
    rcases hb with ⟨rfl, -⟩ | ⟨rfl, -⟩
    · exact .inl hp
    · exact .inr hp
  | unsafeBody _ hne => exact hne
  | _ => cases hc

/-- It is enough to look at the tokens a policy can emit. -/
theorem Policy.keeps_of (hne : ∀ {s}, Legal s → s.phase ≠ .errored)
    (hgoto : ∀ {s q}, Legal s → s.phase.Resolves q → Legal (s.goto q))
    (hemit : ∀ {s raw c s'}, Legal s → P.Emits s raw c s' →
      Legal s' ∧ c.isError = false ∧ (s'.phase = .endOfConnectionError → raw = []))
    (hbody : ∀ {s}, Legal s → s.phase = .body ∨ s.phase = .chunkData → s.bodySize ≠ 0)
    (hfail : P.FailsWith fun c => c.isFatal = true) : P.Keeps Legal where
  need {b s w s'} hs h := by
    have hl : Legal s' := by
      obtain ⟨-, ⟨-, rfl⟩ | ⟨c, w, -, rfl⟩⟩ := of_lex_need h
      · exact hs
      · exact hgoto hs (Phase.resolves_resolve s.phase c)
    exact ⟨hl, hne hl⟩
  emit {b s w s' n c} hs h := by
    obtain ⟨q, hq, he⟩ := emits_of_lex h
    obtain ⟨hl, hc, hlast⟩ := hemit (hgoto hs hq) he
    refine ⟨hl, hne hl, hc, fun hp => ?_⟩
    have hlen := congrArg List.length (hlast hp)
    rw [List.length_take, Nat.min_eq_left (lex_le h), List.length_nil] at hlen
    exact hlen
  fail _ h := hfail.lex (fun _ => rfl) h
  chunk {b s w s' n} hs h := by
    obtain ⟨q, hq, he⟩ := emits_of_lex h
    have hl := hgoto hs hq
    rintro rfl
    exact chunk_ne_nil (hbody hl) he rfl

end Keeps

/-! ## Consuming the current token -/

section Consume

variable {V : View σ β ν φ} {Legal : Core φ → Prop} {r r' : Reader σ β ν}

theorem consume_of_insufficient (h : r.code = .errorInsufficientData) : r.consume = r :=
  if_neg (not_not.mpr h)

theorem consume_of_token (h : r.code ≠ .errorInsufficientData) :
    r.consume = { r with
      idx := r.idx + r.tokenSize, tokenSize := 0, code := .errorInsufficientData } := if_pos h

@[simp] theorem consume_state : r.consume.state = r.state := by
  unfold Reader.consume; split <;> rfl

@[simp] theorem consume_connection : r.consume.connection = r.connection := by
  unfold Reader.consume; split <;> rfl

@[simp] theorem consume_bodyType : r.consume.bodyType = r.bodyType := by
  unfold Reader.consume; split <;> rfl

@[simp] theorem consume_bodySize : r.consume.bodySize = r.bodySize := by
  unfold Reader.consume; split <;> rfl

@[simp] theorem consume_ibuffer : r.consume.ibuffer = r.ibuffer := by
  unfold Reader.consume; split <;> rfl

@[simp] theorem consume_code : r.consume.code = .errorInsufficientData := by
  by_cases h : r.code = .errorInsufficientData
  · rw [consume_of_insufficient h, h]
  · rw [consume_of_token h]

@[simp] theorem core_consume : V.core r.consume = V.core r := by
  simp [View.core]

theorem Code.isError_of_isFatal {c : Code} (h : c.isFatal = true) : c.isError = true := by
  cases c <;> first | rfl | cases h

theorem isError_iff (c : Code) : c.isError = true ↔ c = .errorInsufficientData ∨ c.isFatal = true := by
  cases c <;> decide

/-- A reader that has passed its token is ready to look for the next one. -/
theorem Sound.consume_ready (hr : Sound V Legal r) (he : V.phase r.state ≠ .errored) :
    r.consume.idx + r.consume.tokenSize ≤ r.ibuffer.length ∧
      (V.phase r.state).Holds r.consume.slice := by
  have hb := hr.bound he
  by_cases h : r.code = .errorInsufficientData
  · rw [consume_of_insufficient h]
    exact ⟨hb, hr.held h⟩
  · rw [consume_of_token h]
    exact ⟨by simpa using hb, .inl (by simp [Reader.slice])⟩

theorem scan_of_need {P : Policy φ} {s s' : Core φ} {b : Bool} {w : Bytes}
    (hk : s'.phase.keeps = true) (hw : w ≠ []) (h : P.lex b s w = .need s') :
    s'.phase.scan w = .need := by
  obtain ⟨hz, ⟨rfl, -⟩ | ⟨c, w, rfl, rfl⟩⟩ := of_lex_need h
  · exact absurd rfl hw
  · have he : (s.goto (s.phase.resolve c)).phase.isElastic = false := by
      generalize (s.goto (s.phase.resolve c)).phase = q at hk
      cases q <;> first | rfl | cases hk
    rw [lex_cons hz, lexeme_of_rigid he] at h
    exact (scanned_need h).2

theorem zeroSized_of_need {P : Policy φ} {s s' : Core φ} {b : Bool} {w : Bytes}
    (h : P.lex b s w = .need s') : s'.phase.isZeroSized = false := by
  obtain ⟨hz, ⟨-, rfl⟩ | ⟨c, w, -, rfl⟩⟩ := of_lex_need h
  · exact hz
  · rw [Core.goto_phase, Phase.isZeroSized_resolve, hz]

theorem status_of_lex {P : Policy φ} {s s' : Core φ} {b : Bool} {w : Bytes} {n : Nat}
    (h : P.lex b s w = .emit s' n .statusCode) : s'.phase = .spAfterStatusCode ∧ n = 3 := by
  have hn := lex_le h
  obtain ⟨q, hq, he⟩ := emits_of_lex h
  generalize hraw : w.take n = raw at he
  generalize hc : Code.statusCode = code at he
  cases he with
  | lexeme _ _ hscan hacc =>
    have hm := (Phase.stable_scan _).le hscan
    have hlen := congrArg List.length hraw
    rw [List.length_take, List.length_take, Nat.min_eq_left hn, Nat.min_eq_left hm] at hlen
    subst hc
    unfold Policy.accept at hacc
    cases q <;> simp only [Core.goto_phase] at hacc hscan
    case statusCode =>
      cases hacc
      rw [Phase.scan] at hscan
      exact ⟨rfl, hlen.trans (fixed_ok hscan).1⟩
    case fieldName | fieldValue | crlfAfterHeaders | chunkSize | crlfAfterChunkExt =>
      split at hacc <;> cases hacc
    all_goals cases hacc
  | _ => cases hc

section Reported

variable {P : Policy φ} {q : Reader σ β ν} {b : Bool} {s : Core φ} {w : Bytes}

/-- A reader that asks for more data has seen a lexer that does. -/
theorem Settles.need_of_code (hP : P.Keeps Legal) (hs : Legal s)
    (h : Settles V q (P.lex b s w) r') (hc : r'.code = .errorInsufficientData) :
    P.lex b s w = .need (V.core r') := by
  cases hlex : P.lex b s w with
  | need s' =>
    rw [hlex] at h
    rw [h.outcome.1]
  | emit s' n c =>
    obtain ⟨-, -, herror, -⟩ := hP.emit hs hlex
    rw [hlex] at h
    rw [← h.outcome.2.1, hc] at herror
    cases herror
  | fail c =>
    have hfatal := hP.fail hs hlex
    rw [hlex] at h
    rw [← h.outcome.2, hc] at hfatal
    cases hfatal

/-- A token that is no error has been found by the lexer. -/
theorem Settles.emit_of_code (hP : P.Keeps Legal) (hs : Legal s)
    (h : Settles V q (P.lex b s w) r') (hc : r'.code.isError = false) :
    P.lex b s w = .emit (V.core r') r'.tokenSize r'.code := by
  cases hlex : P.lex b s w with
  | need s' =>
    rw [hlex] at h
    rw [h.outcome.2.1] at hc
    cases hc
  | emit s' n c =>
    rw [hlex] at h
    obtain ⟨hcore, hcode, hsize⟩ := h.outcome
    rw [hcore, hcode, hsize]
  | fail c =>
    have herror := Code.isError_of_isFatal (hP.fail hs hlex)
    rw [hlex] at h
    rw [← h.outcome.2, hc] at herror
    cases herror

/-- A fatal error comes from the lexer. -/
theorem Settles.fail_of_code (hP : P.Keeps Legal) (hs : Legal s)
    (h : Settles V q (P.lex b s w) r') (hc : r'.code.isFatal = true) :
    P.lex b s w = .fail r'.code := by
  cases hlex : P.lex b s w with
  | need s' =>
    rw [hlex] at h
    rw [h.outcome.2.1] at hc
    cases hc
  | emit s' n c =>
    obtain ⟨-, -, herror, -⟩ := hP.emit hs hlex
    rw [hlex] at h
    rw [← h.outcome.2.1, Code.isError_of_isFatal hc] at herror
    cases herror
  | fail c =>
    rw [hlex] at h
    rw [h.outcome.2]

end Reported

section Sound

variable {P : Policy φ} {b : Bool} {s : Core φ} {n : Nat} {c : Code}

/-- The invariant when more data is asked for. -/
theorem Settles.sound_need (hP : P.Keeps Legal) (hr : Sound V Legal r)
    (he : V.phase r.state ≠ .errored) (h : Settles V r.consume (.need s) r')
    (hlex : P.lex b (V.core r) r.consume.restView = .need s) : Sound V Legal r' := by
  have hready := hr.consume_ready he
  have hlen : r.consume.restView.length + r.consume.idx = r.ibuffer.length := by
    rw [Reader.length_restView, consume_ibuffer]
    omega
  obtain ⟨hcore, hcode, hsize⟩ := h.outcome
  obtain ⟨hl, hne⟩ := hP.need (hr.legal he) hlex
  have hphase : V.phase r'.state = s.phase := by rw [← hcore]; rfl
  have hz := zeroSized_of_need hlex
  refine ⟨?_, ?_, ?_, ?_, ?_, by rw [hcode]; nofun, ?_⟩
  · rw [hcode, hphase]
    exact ⟨fun h => absurd h (by decide), fun h => absurd h hne⟩
  · intro _
    rw [hsize, h.idx, h.ibuffer, consume_ibuffer, Phase.kept]
    split <;> omega
  · -- all of the view is kept, or nothing
    intro _
    rw [hphase, Reader.slice, hsize, h.restView, Phase.kept]
    by_cases hk : s.phase.keeps = true
    · rw [if_pos hk, List.take_length]
      by_cases hw : r.consume.restView = []
      · exact .inl hw
      · exact .inr ⟨hk, scan_of_need hk hw hlex⟩
    · rw [if_neg hk]
      exact .inl rfl
  · rw [hphase, hz]; nofun
  · intro hc
    rw [hphase] at hc
    rw [hc] at hz
    cases hz
  · intro _
    rw [hcore]
    exact hl

/-- The invariant when a token is found. -/
theorem Settles.sound_emit (hP : P.Keeps Legal) (hr : Sound V Legal r)
    (he : V.phase r.state ≠ .errored) (h : Settles V r.consume (.emit s n c) r')
    (hlex : P.lex b (V.core r) r.consume.restView = .emit s n c) : Sound V Legal r' := by
  have hready := hr.consume_ready he
  have hlen : r.consume.restView.length + r.consume.idx = r.ibuffer.length := by
    rw [Reader.length_restView, consume_ibuffer]
    omega
  obtain ⟨hcore, hcode, hsize⟩ := h.outcome
  obtain ⟨hl, hne, hcodes, hlast⟩ := hP.emit (hr.legal he) hlex
  have hphase : V.phase r'.state = s.phase := by rw [← hcore]; rfl
  have hfatal : c.isFatal = false := by
    cases c <;> first | rfl | cases hcodes
  have hins : c ≠ .errorInsufficientData := by
    rintro rfl
    cases hcodes
  refine ⟨?_, ?_, ?_, ?_, ?_, ?_, ?_⟩
  · rw [hcode, hphase, hfatal]
    exact ⟨nofun, fun h => absurd h hne⟩
  · intro _
    have hn := lex_le hlex
    rw [hsize, h.idx, h.ibuffer, consume_ibuffer]
    omega
  · intro h
    rw [hcode] at h
    exact absurd h hins
  · intro _
    rw [hcode]
    exact hins
  · intro h
    rw [hsize]
    exact hlast (hphase ▸ h)
  · intro h
    rw [hcode] at h
    rw [hphase, hsize]
    subst h
    exact status_of_lex hlex
  · intro _
    rw [hcore]
    exact hl

/-- The invariant when the reader fails. -/
theorem Settles.sound_fail (hP : P.Keeps Legal) (hr : Sound V Legal r)
    (he : V.phase r.state ≠ .errored) (h : Settles V r.consume (.fail c) r')
    (hlex : P.lex b (V.core r) r.consume.restView = .fail c) : Sound V Legal r' := by
  obtain ⟨hphase, hcode⟩ := h.outcome
  have hf := hP.fail (hr.legal he) hlex
  refine ⟨?_, ?_, ?_, ?_, ?_, ?_, ?_⟩
  · rw [hcode, hphase]
    exact ⟨fun _ => rfl, fun _ => hf⟩
  · exact fun h => absurd hphase h
  · intro h
    rw [← hcode, h] at hf
    cases hf
  · rw [hphase]; nofun
  · rw [hphase]; nofun
  · intro h
    rw [← hcode, h] at hf
    cases hf
  · exact fun h => absurd hphase h

/-- The invariant holds again after `next()`. -/
theorem Settles.sound (hP : P.Keeps Legal) (hr : Sound V Legal r)
    (he : V.phase r.state ≠ .errored)
    (h : Settles V r.consume (P.lex b (V.core r) r.consume.restView) r') : Sound V Legal r' := by
  cases hlex : P.lex b (V.core r) r.consume.restView with
  | need s =>
    rw [hlex] at h
    exact h.sound_need hP hr he hlex
  | emit s n c =>
    rw [hlex] at h
    exact h.sound_emit hP hr he hlex
  | fail c =>
    rw [hlex] at h
    exact h.sound_fail hP hr he hlex

end Sound

end Consume

/-! ## From verdicts to outcomes -/

section Verdict

variable {V : View σ β ν φ} {P : Policy φ} {r : Reader σ β ν} {p : Phase}

theorem settles_found {next : σ} {q : Phase} {n : Nat} {code : Code} (hq : V.phase next = q) :
    Settles V r (.emit ((V.core r).goto q) n code) (r.found next code n) := by
  subst hq
  exact ⟨rfl, rfl, rfl, ⟨rfl, rfl, rfl⟩, nofun⟩

theorem settles_raise {errored : σ} {code : Code} (he : V.phase errored = .errored)
    (hsize : (V.phase r.state).failSize r.restView r.tokenSize = r.tokenSize) :
    Settles V r (.fail code) (r.raise errored code) :=
  ⟨rfl, rfl, rfl, ⟨he, rfl⟩, fun _ _ => hsize.symm⟩

/-- A failure of the scanner leaves the size as it was. -/
theorem failSize_bad (hp : V.phase r.state = p) (hres : ∀ c ∈ r.restView.head?, p.resolve c = p)
    (h : p.scan r.restView = .bad) :
    (V.phase r.state).failSize r.restView r.tokenSize = r.tokenSize := by
  rw [hp, Phase.failSize_resolved hres, Phase.checkSize_bad h]

/-- A failure of a check leaves the size of the lexeme. -/
theorem failSize_ok {n : Nat} (hp : V.phase r.state = p)
    (hres : ∀ c ∈ r.restView.head?, p.resolve c = p)
    (hq : p = .fieldName ∨ p = .fieldValue ∨ p = .crlfAfterHeaders) (h : p.scan r.restView = .ok n) :
    (V.phase r.state).failSize r.restView r.tokenSize = n := by
  rw [hp, Phase.failSize_resolved hres]
  rcases hq with rfl | rfl | rfl <;> simp only [Phase.checkSize] <;> rw [h]

def Policy.accepted (P : Policy φ) (s : Core φ) (w : Bytes) (n : Nat) : Out (Core φ) Code :=
  match P.accept s (w.take n) with
  | .error c => .fail c
  | .ok (s', c) => .emit s' n c

/-- A case of `next()` that settles on the verdict of the scanner of its phase implements the lexer,
provided it makes of a lexeme what the policy does. -/
theorem settles_scanned {errored : σ} {kept : Nat} {found : Nat → Except Fault (Reader σ β ν)}
    (hp : V.phase r.state = p) (hcode : r.code = .errorInsufficientData)
    (hres : ∀ c ∈ r.restView.head?, p.resolve c = p) (he : V.phase errored = .errored)
    (hk : p = .spAfterStatusCode → P.methodKnown (V.core r).framing = true)
    (hkept : kept = p.kept r.restView)
    (hok : ∀ n, p.scan r.restView = .ok n →
      ∃ r', found n = .ok r' ∧ Settles V r (P.accepted (V.core r) r.restView n) r') :
    ∃ r', r.settle errored kept (p.scan r.restView) found = .ok r' ∧
      Settles V r (P.scanned (V.core r) r.restView) r' := by
  have hp' : (V.core r).phase = p := hp
  have hknown : ¬ ((V.core r).phase = .spAfterStatusCode ∧
      P.methodKnown (V.core r).framing = false) := by
    rintro ⟨h, h'⟩
    rw [hk (hp' ▸ h)] at h'
    cases h'
  unfold Policy.scanned
  rw [if_neg hknown, hp']
  cases hscan : p.scan r.restView with
  | need => exact ⟨_, rfl, rfl, rfl, rfl, ⟨rfl, hcode, hkept.trans (by rw [hp'])⟩, nofun⟩
  | bad => exact ⟨_, rfl, settles_raise he (failSize_bad hp hres hscan)⟩
  | ok n => exact hok n hscan

def Phase.follows : Phase → Option (Phase × Code)
  | .method => some (.spAfterMethod, .method)
  | .spAfterMethod => some (.requestTarget, .skip)
  | .requestTarget => some (.staticStrAfterTarget, .requestTarget)
  | .staticStrAfterTarget => some (.requestVersion, .skip)
  | .crlfAfterVersion => some (.fieldName, .skip)
  | .versionStaticStr => some (.responseVersion, .skip)
  | .spAfterVersion => some (.statusCode, .skip)
  | .statusCode => some (.spAfterStatusCode, .statusCode)
  | .spAfterStatusCode => some (.reasonPhrase, .skip)
  | .reasonPhrase => some (.crlfAfterReasonPhrase, .reasonPhrase)
  | .crlfAfterReasonPhrase => some (.fieldName, .skip)
  | .crlfAfterFieldValue => some (.fieldName, .skip)
  | .chunkExt => some (.crlfAfterChunkExt, .chunkExt)
  | .crlfAfterChunkData => some (.chunkSize, .skip)
  | .trailerName => some (.trailerColon, .trailerName)
  | .trailerValue => some (.crlfAfterTrailerValue, .trailerValue)
  | .crlfAfterTrailerValue => some (.trailerName, .skip)
  | _ => none

theorem accept_follows {s : Core φ} {q : Phase} {code : Code} {raw : Bytes}
    (h : s.phase.follows = some (q, code)) : P.accept s raw = .ok (s.goto q, code) := by
  unfold Policy.accept
  cases hp : s.phase <;> rw [hp] at h <;> first | (cases h; done) | (cases h; rfl)

/-- The common case: nothing but the phase changes with the token. -/
theorem settles_scanned_goto {errored next : σ} {kept : Nat} {q : Phase} {code : Code}
    (hp : V.phase r.state = p) (hcode : r.code = .errorInsufficientData)
    (hres : ∀ c ∈ r.restView.head?, p.resolve c = p) (he : V.phase errored = .errored)
    (hk : p = .spAfterStatusCode → P.methodKnown (V.core r).framing = true)
    (hkept : kept = p.kept r.restView) (hq : V.phase next = q)
    (hf : p.follows = some (q, code)) :
    ∃ r', r.settle errored kept (p.scan r.restView)
        (fun n => .ok (r.found next code n)) = .ok r' ∧
      Settles V r (P.scanned (V.core r) r.restView) r' := by
  apply settles_scanned hp hcode hres he hk hkept
  intro n _
  refine ⟨_, rfl, ?_⟩
  have hf' : (V.core r).phase.follows = some (q, code) := by
    rw [← hf, ← hp]
    rfl
  rw [Policy.accepted, accept_follows hf']
  exact settles_found hq

theorem settles_colon {errored ows value : σ} {c : UInt8} {w : Bytes}
    (hv : ValuePhases (V.phase r.state) (V.phase ows) (V.phase value))
    (hrest : r.restView = c :: w) (he : V.phase errored = .errored) :
    ∃ r', r.expectColon errored ows value = .ok r' ∧
      Settles V r (P.lexeme (V.core r) c w) r' := by
  rw [lexeme_colon hv rfl, Reader.expectColon_eq errored ows value hrest, lexColon]
  split
  · refine ⟨_, rfl, settles_raise he ?_⟩
    rcases hv with ⟨hp, -⟩ | ⟨hp, -⟩ <;> rw [hp, hrest] <;> rfl
  · refine ⟨_, rfl, settles_found ?_⟩
    split <;> rfl

theorem settles_body {done : σ} {c : UInt8} {w : Bytes}
    (hb : BodyPhases (V.phase r.state) (V.phase done)) (hrest : r.restView = c :: w) :
    Settles V r (P.lexeme (V.core r) c w) (r.expectBody done) := by
  rw [lexeme_body hb rfl, Reader.expectBody_eq, ← hrest]
  refine ⟨rfl, rfl, rfl, ⟨?_, rfl, rfl⟩, nofun⟩
  simp only [View.core, Core.deliver]
  congr 1
  exact apply_ite V.phase _ _ _

theorem settles_ows {c : UInt8} {w : Bytes} {col value : Phase}
    (hv : ValuePhases col (V.phase r.state) value) (hrest : r.restView = c :: w) :
    Settles V r (P.lexeme (V.core r) c w)
      { r with code := .skip, tokenSize := (r.restView.takeWhile Detail.isOws).length } := by
  rw [lexeme_ows hv rfl, hrest]
  exact ⟨rfl, rfl, rfl, ⟨rfl, rfl, rfl⟩, nofun⟩

theorem settles_chunkSize {errored next : σ} (hp : V.phase r.state = .chunkSize)
    (he : V.phase errored = .errored) (hq : V.phase next = .chunkExt) (n : Nat) :
    Settles V r (P.accepted (V.core r) r.restView n) (r.chunkSizeRead errored next n) := by
  have hp' : (V.core r).phase = .chunkSize := hp
  have hb : (V.core r).bodySize = r.bodySize := rfl
  have hsize : r.tokenSize = (V.phase r.state).failSize r.restView r.tokenSize := by
    rw [hp, Phase.failSize_resolved fun _ _ => rfl]
    rfl
  simp only [Policy.accepted, Policy.accept, hp', hb, Reader.chunkSizeRead]
  cases Syntax.chunkSizeDecode 64 (r.restView.take n) r.bodySize with
  | mk res out =>
    cases res with
    | invalid => exact ⟨rfl, rfl, rfl, ⟨he, rfl⟩, fun _ _ => hsize⟩
    | overflow => exact ⟨rfl, rfl, rfl, ⟨he, rfl⟩, fun _ _ => hsize⟩
    | ok => exact ⟨rfl, rfl, rfl, ⟨by simp [View.core, Reader.found, hq], rfl, rfl⟩, by simp⟩

theorem settles_crlfAfterChunkExt {data trailers : σ} (hp : V.phase r.state = .crlfAfterChunkExt)
    (hd : V.phase data = .chunkData) (ht : V.phase trailers = .trailerName) (n : Nat) :
    Settles V r (P.accepted (V.core r) r.restView n)
      (if r.bodySize ≠ 0 then r.found data .skip n else r.found trailers .endOfBody n) := by
  have hp' : (V.core r).phase = .crlfAfterChunkExt := hp
  have hb : (V.core r).bodySize = r.bodySize := rfl
  simp only [Policy.accepted, Policy.accept, hp', hb]
  by_cases hn : r.bodySize ≠ 0
  · simp only [if_pos hn]
    exact settles_found hd
  · simp only [if_neg hn]
    exact settles_found ht

/-- A phase that keeps a run holds bytes of the run only. -/
theorem Phase.Holds.all {v : Bytes} {q : UInt8 → Bool} {g : Nat → UInt8 → Bool} {p : Phase}
    (hscan : p.scan = spanned q g) (hk : p.keeps = true) (h : p.Holds v) :
    ∀ a ∈ v, q a = true := by
  have hneed := h.scan_need hk
  rw [hscan] at hneed
  exact spanned_need_iff.mp hneed

theorem Phase.Holds.isPrefix {v lit : Bytes} {p : Phase} (hscan : p.scan = literal lit)
    (hk : p.keeps = true) (h : p.Holds v) : v <+: lit := by
  have hneed := h.scan_need hk
  rw [hscan, literal] at hneed
  split at hneed
  · cases hneed
  · split at hneed
    · assumption
    · cases hneed

end Verdict

end BoostHttp
