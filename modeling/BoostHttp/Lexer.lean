import BoostHttp.Message

/-!
# Lexer — what can be observed of a message lexer, and that windows do not matter

A token is observed with its offset in the stream, its code, its size and its value.  Skipped bytes
are not observed, and body chunks are observed byte by byte, because how a body is cut into chunks
depends on the windows through which it is seen.  `coherent_machine` shows for every framing policy
that nothing else does.
-/

open Incremental

namespace BoostHttp

structure Token where
  code : Code
  size : Nat
  value : Value
  deriving DecidableEq, Repr

def tokenValue (c : Code) (bodySize : Nat) (w : Bytes) (n : Nat) : Value :=
  match c with
  | .method | .requestTarget | .reasonPhrase | .fieldName | .trailerName => .view (w.take n)
  | .version => .version (((w.headD 0).toNat : Int) - 0x30)
  | .statusCode => .statusCode ((Syntax.statusCodeDecode (w.take n)).toOption.getD 0)
  | .fieldValue | .trailerValue => .view (Detail.trimTail (w.take n))
  | .chunkExt => .chunkExt bodySize (w.take n)
  | .bodyChunk => .buffer (w.take n)
  | _ => .none

theorem tokenValue_append (c : Code) (bodySize : Nat) {w : Bytes} {n : Nat} (hw : w ≠ [])
    (hn : n ≤ w.length) (x : Bytes) : tokenValue c bodySize (w ++ x) n = tokenValue c bodySize w n := by
  have htake : (w ++ x).take n = w.take n := List.take_append_of_le_length hn
  have hhead : (w ++ x).headD 0 = w.headD 0 := by
    cases w with
    | nil => exact absurd rfl hw
    | cons a w => rfl
  cases c <;> simp only [tokenValue, htake, hhead]

inductive Event where
  | token (offset : Nat) (t : Token)
  | byte (offset : Nat) (b : UInt8)
  deriving DecidableEq, Repr

def bytesFrom : Nat → Bytes → List Event
  | _, [] => []
  | p, b :: bs => .byte p b :: bytesFrom (p + 1) bs

theorem bytesFrom_append (p : Nat) (a b : Bytes) :
    bytesFrom p (a ++ b) = bytesFrom p a ++ bytesFrom (p + a.length) b := by
  induction a generalizing p with
  | nil => simp [bytesFrom]
  | cons c a ih =>
    rw [List.cons_append, bytesFrom, bytesFrom, ih, List.length_cons, List.cons_append,
      show p + 1 + a.length = p + (a.length + 1) by omega]

/-- The observation of a token.  Of a fatal error only the code is observed. -/
def Token.events (p : Nat) (t : Token) : List Event :=
  match t.code, t.value with
  | .skip, _ | .errorInsufficientData, _ => []
  | .bodyChunk, .buffer bs => bytesFrom p bs
  | c, _ => if c.isFatal then [.token p ⟨c, 0, .none⟩] else [.token p t]

def Event.shows (c : Code) : Event → Bool
  | .token _ t => t.code == c
  | .byte _ _ => false

theorem any_bytesFrom (d : Code) (q : Nat) (bs : Bytes) :
    (bytesFrom q bs).any (Event.shows d) = false := by
  induction bs generalizing q with
  | nil => rfl
  | cons a bs ih => exact ih (q + 1)

theorem any_events {p : Nat} {d : Code} {t : Token} (hc : t.code ≠ d) :
    (t.events p).any (Event.shows d) = false := by
  unfold Token.events
  split
  · rfl
  · rfl
  · exact any_bytesFrom d _ _
  · have hbeq : (t.code == d) = false := by simpa using hc
    split <;> simp [Event.shows, hbeq]

def Event.body : Event → Bytes
  | .token _ _ => []
  | .byte _ b => [b]

theorem body_bytesFrom (p : Nat) (bs : Bytes) : (bytesFrom p bs).flatMap Event.body = bs := by
  induction bs generalizing p with
  | nil => rfl
  | cons b bs ih =>
    rw [bytesFrom, List.flatMap_cons, ih]
    rfl

abbrev Client (φ : Type) := Nat → Value → Core φ → Core φ

section Machine

variable {φ : Type} (P : Policy φ) (client : Client φ)

/-- The lexer of a policy together with its owner; the state counts the status codes. -/
def machine : Machine (Core φ × Nat) UInt8 Token Event where
  step b c w :=
    match P.lex b c.1 w with
    | .need s => .need (s, c.2)
    | .emit s n code => .emit (s, c.2) n ⟨code, n, tokenValue code s.bodySize w n⟩
    | .fail code => .fail ⟨code, 0, .none⟩
  react t c := if t.code = .statusCode then (client c.2 t.value c.1, c.2 + 1) else c
  view := Token.events

variable {P} {client} {b : Bool} {s s' : Core φ} {j : Nat} {c : UInt8} {w : Bytes} {n p : Nat}
  {code : Code} {v : List Event}

/-! ## The lexer on longer and longer windows -/

theorem lex_zeroSized (h : s.phase.isZeroSized = true) (b b' : Bool) (w w' : Bytes) :
    P.lex b s w = P.lex b' s w' := by
  unfold Policy.lex
  cases hp : s.phase <;> simp_all [Phase.isZeroSized]

theorem lex_nil (h : s.phase.isZeroSized = false) :
    P.lex b s [] = if b then P.atEof s else .need s := by
  unfold Policy.lex
  cases hp : s.phase <;> simp_all [Phase.isZeroSized]

/-- What a lexer can do without a byte in view. -/
theorem lex_nil_cases (h : s.phase.isZeroSized = false) :
    P.lex b s [] = .need s ∨
    (s.phase = .unsafeBody ∧ P.lex b s [] = .emit (s.goto .endOfMessage) 0 .endOfBody) ∨
    (b = true ∧ P.waits s.framing s.bodySize = false ∧
      P.lex b s [] = .fail .errorUseAnotherConnection) := by
  rw [lex_nil h]
  cases b with
  | false => exact .inl rfl
  | true =>
    rw [if_pos rfl, Policy.atEof]
    split
    · exact .inl rfl
    · rename_i hw
      split
      · rename_i hp
        exact .inr (.inl ⟨hp, rfl⟩)
      · exact .inr (.inr ⟨rfl, by simpa using hw, rfl⟩)

/-- Without a byte in view only the end of a body that lasts until the end of the input is found. -/
theorem of_lex_nil_emit (hz : s.phase.isZeroSized = false) (h : P.lex b s [] = .emit s' n code) :
    s.phase = .unsafeBody ∧ s' = s.goto .endOfMessage ∧ n = 0 ∧ code = .endOfBody := by
  rcases lex_nil_cases (P := P) (b := b) hz with hl | ⟨hp, hl⟩ | ⟨-, -, hl⟩ <;> rw [hl] at h <;>
    cases h
  exact ⟨hp, rfl, rfl, rfl⟩

theorem lex_cons (h : s.phase.isZeroSized = false) :
    P.lex b s (c :: w) = P.lexeme (s.goto (s.phase.resolve c)) c w := by
  unfold Policy.lex
  cases hp : s.phase <;> simp_all [Phase.isZeroSized]

theorem Phase.isZeroSized_resolve (p : Phase) (c : UInt8) :
    (p.resolve c).isZeroSized = p.isZeroSized := by
  cases p <;> simp only [Phase.resolve] <;> (try split) <;> rfl

theorem lex_resolve (h : s.phase.isZeroSized = false) :
    P.lex b (s.goto (s.phase.resolve c)) (c :: w) = P.lex b s (c :: w) := by
  have h' : (s.goto (s.phase.resolve c)).phase.isZeroSized = false := by
    rw [Core.goto_phase, Phase.isZeroSized_resolve, h]
  rw [lex_cons h', lex_cons h, Core.goto_phase, Phase.resolve_resolve, Core.goto_goto]

theorem scanned_need (h : P.scanned s w = .need s') : s' = s ∧ s.phase.scan w = .need := by
  unfold Policy.scanned at h
  split at h
  · cases h
  · split at h
    · cases h
      exact ⟨rfl, ‹_›⟩
    · cases h
    · split at h <;> cases h

theorem scanned_emit (h : P.scanned s w = .emit s' n code) :
    (s.phase = .spAfterStatusCode → P.methodKnown s.framing = true) ∧
      s.phase.scan w = .ok n ∧ P.accept s (w.take n) = .ok (s', code) := by
  unfold Policy.scanned at h
  split at h
  · cases h
  · rename_i hk
    split at h
    · cases h
    · cases h
    · rename_i m hs
      split at h
      · cases h
      · rename_i s'' c' ha
        cases h
        refine ⟨fun hp => ?_, hs, ha⟩
        -- a status code without a known method would have failed above
        by_contra hm
        exact hk ⟨hp, by simpa using hm⟩

theorem scanned_fail (h : P.scanned s w = .fail code) :
    (s.phase = .spAfterStatusCode ∧ P.methodKnown s.framing = false ∧ code = .errorSetMethod) ∨
      (s.phase.scan w = .bad ∧ code = .errorInvalidData) ∨
      ∃ n, s.phase.scan w = .ok n ∧ P.accept s (w.take n) = .error code := by
  unfold Policy.scanned at h
  split at h
  · rename_i hk
    cases h
    exact .inl ⟨hk.1, hk.2, rfl⟩
  · split at h
    · cases h
    · cases h
      exact .inr (.inl ⟨‹_›, rfl⟩)
    · rename_i n hs
      split at h
      · rename_i c' ha
        cases h
        exact .inr (.inr ⟨n, hs, ha⟩)
      · cases h

theorem scanned_append (h : P.scanned s w ≠ .need s) (x : Bytes) :
    P.scanned s (w ++ x) = P.scanned s w := by
  unfold Policy.scanned at h ⊢
  split
  · rfl
  · rename_i hk
    rw [if_neg hk] at h
    cases hs : s.phase.scan w with
    | need => simp [hs] at h
    | bad => rw [s.phase.stable_scan.bad hs x]
    | ok n =>
      rw [s.phase.stable_scan.ok hs x]
      simp only
      rw [List.take_append_of_le_length (s.phase.stable_scan.le hs)]

theorem scanned_le (h : P.scanned s w = .emit s' n code) : n ≤ w.length :=
  s.phase.stable_scan.le (scanned_emit h).2.1

theorem lexeme_of_rigid (he : s.phase.isElastic = false) :
    P.lexeme s c w = P.scanned s (c :: w) := by
  unfold Policy.lexeme
  cases hp : s.phase <;> simp_all [Phase.isElastic]

theorem lexeme_need (h : P.lexeme s c w = .need s') : s' = s := by
  cases he : s.phase.isElastic with
  | false =>
    rw [lexeme_of_rigid he] at h
    exact (scanned_need h).1
  | true =>
    unfold Policy.lexeme lexColon lexBody at h
    cases hp : s.phase <;> simp only [hp, Phase.isElastic, reduceCtorEq] at he h
    all_goals split at h <;> cases h

theorem lexeme_le (h : P.lexeme s c w = .emit s' n code) : n ≤ (c :: w).length := by
  cases he : s.phase.isElastic with
  | false =>
    rw [lexeme_of_rigid he] at h
    exact scanned_le h
  | true =>
    have hows : (w.takeWhile Detail.isOws).length ≤ w.length :=
      (List.takeWhile_prefix Detail.isOws).length_le
    have hows' : ((c :: w).takeWhile Detail.isOws).length ≤ (c :: w).length :=
      (List.takeWhile_prefix Detail.isOws).length_le
    unfold Policy.lexeme lexColon lexBody at h
    -- each elastic phase takes a run of the view or as much as is left of the body
    cases hp : s.phase <;> simp only [hp, Phase.isElastic, reduceCtorEq] at he h
    case colon | trailerColon =>
      split at h
      · cases h
      · cases h
        rw [List.length_cons]
        omega
    case owsAfterColon | owsAfterTrailerColon => cases h; exact hows'
    case body | chunkData => cases h; exact Nat.min_le_left _ _
    case unsafeBody => cases h; exact Nat.le_refl _

theorem lex_le (h : P.lex b s w = .emit s' n code) : n ≤ w.length := by
  cases hz : s.phase.isZeroSized with
  | true =>
    unfold Policy.lex at h
    cases hp : s.phase <;> simp_all [Phase.isZeroSized] <;> omega
  | false =>
    cases w with
    | nil =>
      obtain ⟨-, -, rfl, -⟩ := of_lex_nil_emit hz h
      exact Nat.le_refl _
    | cons c w =>
      rw [lex_cons hz] at h
      exact lexeme_le h

/-- A lexer asks for more in the phase the first byte decides on. -/
theorem of_lex_need (h : P.lex b s w = .need s') :
    s.phase.isZeroSized = false ∧
      (w = [] ∧ s' = s ∨ ∃ c x, w = c :: x ∧ s' = s.goto (s.phase.resolve c)) := by
  cases hz : s.phase.isZeroSized with
  | true =>
    unfold Policy.lex at h
    cases hp : s.phase <;> simp_all [Phase.isZeroSized]
  | false =>
    refine ⟨rfl, ?_⟩
    cases w with
    | nil =>
      rcases lex_nil_cases (P := P) (b := b) hz with hl | ⟨-, hl⟩ | ⟨-, -, hl⟩ <;> rw [hl] at h <;>
        cases h
      exact .inl ⟨rfl, rfl⟩
    | cons c w =>
      rw [lex_cons hz] at h
      exact .inr ⟨c, w, rfl, lexeme_need h⟩

/-! ## Runs of the machine -/

theorem step_emit (h : P.lex b s w = .emit s' n code) :
    (machine P client).step b (s, j) w
      = .emit (s', j) n ⟨code, n, tokenValue code s'.bodySize w n⟩ := by
  simp [machine, h]

theorem step_congr {s₁ s₂ : Core φ} (h : P.lex b s₁ w = P.lex b s₂ w) :
    (machine P client).step b (s₁, j) w = (machine P client).step b (s₂, j) w := by
  simp [machine, h]

theorem runs_congr {s₁ s₂ : Core φ} (h : P.lex b s₁ w = P.lex b s₂ w)
    (hr : (machine P client).Runs b p (s₁, j) w v) : (machine P client).Runs b p (s₂, j) w v :=
  hr.congr (step_congr h)

theorem runs_skip (h : P.lex b s w = .emit s' n .skip) :
    (machine P client).Runs b p (s, j) w v
      ↔ (machine P client).Runs b (p + n) (s', j) (w.drop n) v := by
  rw [Machine.Runs.emit_iff (step_emit h)]
  simp [machine, Token.events]

theorem runs_bodyChunk (h : P.lex b s w = .emit s' n .bodyChunk) :
    (machine P client).Runs b p (s, j) w v ↔
      ∃ v', v = bytesFrom p (w.take n) ++ v' ∧
        (machine P client).Runs b (p + n) (s', j) (w.drop n) v' := by
  rw [Machine.Runs.emit_iff (step_emit h)]
  simp [machine, Token.events, tokenValue]

theorem lex_resolved (hz : s.phase.isZeroSized = false) (hr : s.phase.resolve c = s.phase) :
    P.lex b s (c :: w) = P.lexeme s c w := by
  rw [lex_cons hz, hr, Core.goto_self rfl]

/-! ### Optional whitespace -/

def ValuePhases (col ows value : Phase) : Prop :=
  (col = .colon ∧ ows = .owsAfterColon ∧ value = .fieldValue) ∨
    (col = .trailerColon ∧ ows = .owsAfterTrailerColon ∧ value = .trailerValue)

variable {col ows value : Phase}

theorem lexeme_ows (hv : ValuePhases col ows value) (hs : s.phase = ows) :
    P.lexeme s c w = .emit s ((c :: w).takeWhile Detail.isOws).length .skip := by
  rcases hv with ⟨-, rfl, -⟩ | ⟨-, rfl, -⟩ <;> simp [Policy.lexeme, hs]

theorem lexeme_colon (hv : ValuePhases col ows value) (hs : s.phase = col) :
    P.lexeme s c w = lexColon s ows value c w := by
  rcases hv with ⟨rfl, rfl, rfl⟩ | ⟨rfl, rfl, rfl⟩ <;> simp [Policy.lexeme, hs]

theorem lex_ows (hv : ValuePhases col ows value) (hs : s.phase = ows)
    (hc : Detail.isOws c = true) :
    P.lex b s (c :: w) = .emit s ((c :: w).takeWhile Detail.isOws).length .skip := by
  rw [← lexeme_ows (P := P) hv hs]
  rcases hv with ⟨-, rfl, rfl⟩ | ⟨-, rfl, rfl⟩ <;>
    exact lex_resolved (by rw [hs]; rfl) (by simp [hs, Phase.resolve, hc])

theorem lex_ows_absent (hv : ValuePhases col ows value) (hs : s.phase = ows)
    (hc : Detail.isOws c = false) : P.lex b s (c :: w) = P.lex b (s.goto value) (c :: w) := by
  have hz : s.phase.isZeroSized = false := by
    rcases hv with ⟨-, rfl, -⟩ | ⟨-, rfl, -⟩ <;> rw [hs] <;> rfl
  have hr : s.phase.resolve c = value := by
    rcases hv with ⟨-, rfl, rfl⟩ | ⟨-, rfl, rfl⟩ <;> simp [hs, Phase.resolve, hc]
  rw [← lex_resolve hz, hr]

theorem runs_ows_drop (hv : ValuePhases col ows value) (hs : s.phase = ows)
    {x : Bytes} (hr : (machine P client).Runs b p (s, j) x v) :
    (machine P client).Runs b (p + (x.takeWhile Detail.isOws).length) (s, j)
      (x.dropWhile Detail.isOws) v := by
  cases x with
  | nil => exact hr
  | cons c x =>
    cases hc : Detail.isOws c with
    | true =>
      rw [runs_skip (lex_ows hv hs hc)] at hr
      rwa [drop_length_takeWhile] at hr
    | false =>
      rw [List.takeWhile_cons_of_neg (by simp [hc]), List.dropWhile_cons_of_neg (by simp [hc])]
      exact hr

/-- Whitespace is passed in any number of steps, down to the value or the end of the input. -/
theorem runs_ows (hv : ValuePhases col ows value) (hs : s.phase = ows) {x : Bytes}
    (hr : (machine P client).Runs b p (s, j) x v) :
    (machine P client).Runs b (p + (x.takeWhile Detail.isOws).length)
      (s.goto (if (x.dropWhile Detail.isOws).isEmpty then ows else value), j)
      (x.dropWhile Detail.isOws) v := by
  have h := runs_ows_drop hv hs hr
  cases hd : x.dropWhile Detail.isOws with
  | nil =>
    rw [hd] at h
    simpa [Core.goto_self hs] using h
  | cons c y =>
    rw [hd] at h
    simpa using runs_congr (lex_ows_absent hv hs (not_of_dropWhile hd)) h

theorem lex_colon (hv : ValuePhases col ows value) (hs : s.phase = col) :
    P.lex b s (c :: w) = lexColon s ows value c w := by
  rw [← lexeme_colon (P := P) hv hs]
  rcases hv with ⟨rfl, rfl, rfl⟩ | ⟨rfl, rfl, rfl⟩ <;>
    exact lex_resolved (by rw [hs]; rfl) (by simp [hs, Phase.resolve])

def afterOws (ows value : Phase) (w : Bytes) : Phase :=
  if (w.dropWhile Detail.isOws).isEmpty then ows else value

theorem runs_colon (hv : ValuePhases col ows value) (hs : s.phase = col) :
    (machine P client).Runs b p (s, j) (0x3A :: w) v ↔
      (machine P client).Runs b (p + ((w.takeWhile Detail.isOws).length + 1))
        (s.goto (afterOws ows value w), j) (w.dropWhile Detail.isOws) v := by
  have hl : P.lex b s (0x3A :: w) = .emit (s.goto (afterOws ows value w))
      ((w.takeWhile Detail.isOws).length + 1) .skip := by
    rw [lex_colon hv hs]
    rfl
  rw [runs_skip hl, List.drop_succ_cons, drop_length_takeWhile]

/-- Whitespace after a colon that was cut off is picked up again. -/
theorem runs_colon_append (hv : ValuePhases col ows value) (hs : s.phase = col) {x : Bytes}
    (hr : (machine P client).Runs b (p + ((w.takeWhile Detail.isOws).length + 1))
      (s.goto (afterOws ows value w), j) ((w ++ x).drop (w.takeWhile Detail.isOws).length) v) :
    (machine P client).Runs b p (s, j) (0x3A :: (w ++ x)) v := by
  rw [runs_colon hv hs]
  cases hd : w.dropWhile Detail.isOws with
  -- the whitespace ends within `w`, and more bytes change nothing
  | cons c y =>
    rw [takeWhile_append_of_dropWhile hd]
    rw [← takeWhile_append_of_dropWhile hd x, drop_length_takeWhile,
      takeWhile_append_of_dropWhile hd x] at hr
    simpa [afterOws, hd, dropWhile_append_of_dropWhile hd x] using hr
  -- all of `w` is whitespace: it may go on in `x`, where the second phase takes it
  | nil =>
    have hall : ∀ a ∈ w, Detail.isOws a = true := List.dropWhile_eq_nil_iff.mp hd
    have htake : w.takeWhile Detail.isOws = w := List.takeWhile_eq_self_iff.mpr hall
    rw [htake, List.drop_left] at hr
    have hows : (s.goto (afterOws ows value w)).phase = ows := by simp [afterOws, hd]
    have h := runs_ows hv hows hr
    rw [List.takeWhile_append_of_pos hall, List.dropWhile_append_of_pos hall, List.length_append]
    rw [Core.goto_goto] at h
    unfold afterOws
    rw [List.dropWhile_append_of_pos hall,
      show p + (w.length + (x.takeWhile Detail.isOws).length + 1)
        = p + (w.length + 1) + (x.takeWhile Detail.isOws).length by omega]
    exact h

theorem runs_ows_append (hv : ValuePhases col ows value) (hs : s.phase = ows)
    (hc : Detail.isOws c = true) {x : Bytes}
    (hr : (machine P client).Runs b (p + ((c :: w).takeWhile Detail.isOws).length) (s, j)
      ((c :: w ++ x).drop ((c :: w).takeWhile Detail.isOws).length) v) :
    (machine P client).Runs b p (s, j) (c :: w ++ x) v := by
  rw [List.cons_append, runs_skip (lex_ows hv hs hc), ← List.cons_append]
  cases hd : (c :: w).dropWhile Detail.isOws with
  | cons d y =>
    rw [takeWhile_append_of_dropWhile hd]
    exact hr
  | nil =>
    have hall : ∀ a ∈ c :: w, Detail.isOws a = true := List.dropWhile_eq_nil_iff.mp hd
    rw [List.takeWhile_eq_self_iff.mpr hall, List.drop_left] at hr
    have h := runs_ows_drop hv hs hr
    rw [drop_length_takeWhile, List.takeWhile_append_of_pos hall, List.length_append,
      List.dropWhile_append_of_pos hall, ← Nat.add_assoc]
    exact h

/-! ### Bodies -/

def BodyPhases (data done : Phase) : Prop :=
  (data = .body ∧ done = .endOfBody) ∨ (data = .chunkData ∧ done = .crlfAfterChunkData)

variable {data done : Phase}

theorem lexeme_body (hb : BodyPhases data done) (hs : s.phase = data) :
    P.lexeme s c w = lexBody s done (c :: w) := by
  rcases hb with ⟨rfl, rfl⟩ | ⟨rfl, rfl⟩ <;> simp [Policy.lexeme, hs]

theorem lex_body (hb : BodyPhases data done) (hs : s.phase = data) (hw : w ≠ []) :
    P.lex b s w = lexBody s done w := by
  cases w with
  | nil => exact absurd rfl hw
  | cons c w =>
    rw [← lexeme_body (P := P) hb hs]
    rcases hb with ⟨rfl, rfl⟩ | ⟨rfl, rfl⟩ <;>
      exact lex_resolved (by rw [hs]; rfl) (by simp [hs, Phase.resolve])

theorem lex_unsafeBody (hs : s.phase = .unsafeBody) (hw : w ≠ []) :
    P.lex b s w = .emit s w.length .bodyChunk := by
  cases w with
  | nil => exact absurd rfl hw
  | cons c w =>
    rw [lex_resolved (by rw [hs]; rfl) (by simp [hs, Phase.resolve])]
    simp [Policy.lexeme, hs]

/-- A counted body may be delivered in parts. -/
theorem runs_body_append (hb : BodyPhases data done) (hs : s.phase = data) (hw : w ≠ [])
    (hl : P.lex false s w = .emit s' n .bodyChunk) {x : Bytes}
    (hr : (machine P client).Runs b (p + n) (s', j) ((w ++ x).drop n) v) :
    (machine P client).Runs b p (s, j) (w ++ x) (bytesFrom p (w.take n) ++ v) := by
  have hlx : P.lex b s (w ++ x) = lexBody s done (w ++ x) := lex_body hb hs (by simp [hw])
  rw [lex_body hb hs hw] at hl
  unfold lexBody at hl hlx
  cases hl
  rw [List.length_append] at hlx
  rcases Nat.lt_or_ge w.length s.bodySize with hlt | hge
  · -- the body goes on after `w`
    rw [Nat.min_eq_left (Nat.le_of_lt hlt)] at hr ⊢
    rw [List.drop_left] at hr
    rw [List.take_length]
    cases x with
    | nil =>
      rw [List.length_nil, Nat.add_zero, Nat.min_eq_left (Nat.le_of_lt hlt)] at hlx
      rw [runs_bodyChunk hlx]
      exact ⟨v, by simp, by simpa using hr⟩
    | cons d x =>
      have hs' : (s.deliver done w.length).phase = data := by
        rw [Core.deliver_phase_of_lt done hlt, hs]
      have hlx' := lex_body (P := P) (b := b) hb hs' (List.cons_ne_nil d x)
      rw [lexBody, Core.deliver_deliver done hlt] at hlx'
      rw [runs_bodyChunk hlx'] at hr
      obtain ⟨v', rfl, hr⟩ := hr
      rw [runs_bodyChunk hlx]
      have hmin : min (w.length + (d :: x).length) s.bodySize
          = w.length + min (d :: x).length (s.deliver done w.length).bodySize := by
        change _ = w.length + min (d :: x).length (s.bodySize - w.length)
        omega
      refine ⟨v', ?_, ?_⟩
      · rw [hmin, List.take_length_add_append, bytesFrom_append, List.append_assoc]
      · rw [hmin, List.drop_length_add_append, ← Nat.add_assoc]
        exact hr
  · -- the body ends within `w`
    rw [Nat.min_eq_right hge] at hr ⊢
    rw [Nat.min_eq_right (by omega)] at hlx
    rw [runs_bodyChunk hlx]
    exact ⟨v, by rw [List.take_append_of_le_length hge], hr⟩

theorem runs_unsafeBody_append (hs : s.phase = .unsafeBody) (hw : w ≠ []) {x : Bytes}
    (hr : (machine P client).Runs b (p + w.length) (s, j) x v) :
    (machine P client).Runs b p (s, j) (w ++ x) (bytesFrom p w ++ v) := by
  rw [runs_bodyChunk (lex_unsafeBody hs (by simp [hw])), List.take_length, List.drop_length]
  cases x with
  | nil => exact ⟨v, by simp, by simpa using hr⟩
  | cons d x =>
    rw [runs_bodyChunk (lex_unsafeBody hs (List.cons_ne_nil d x))] at hr
    obtain ⟨v', rfl, hr⟩ := hr
    refine ⟨v', ?_, ?_⟩
    · rw [List.take_length, bytesFrom_append, List.append_assoc]
    · rw [List.length_append, ← Nat.add_assoc]
      rwa [List.drop_length] at hr

/-! ## Transitions -/

/-- The phases in which a phase can turn out to be, once a byte is seen. -/
inductive Phase.Resolves : Phase → Phase → Prop
  | refl (p : Phase) : Resolves p p
  | headers : Resolves .fieldName .crlfAfterHeaders
  | fieldValue : Resolves .owsAfterColon .fieldValue
  | chunkExt : Resolves .chunkExt .crlfAfterChunkExt
  | trailers : Resolves .trailerName .crlfAfterTrailers
  | trailerValue : Resolves .owsAfterTrailerColon .trailerValue

theorem Phase.resolves_resolve (p : Phase) (c : UInt8) : p.Resolves (p.resolve c) := by
  cases p <;> simp only [Phase.resolve] <;> (try split) <;> constructor

inductive Policy.Emits (P : Policy φ) : Core φ → Bytes → Code → Core φ → Prop
  | lexeme {s s' : Core φ} {w : Bytes} {n : Nat} {code : Code} : s.phase.isElastic = false →
      (s.phase = .spAfterStatusCode → P.methodKnown s.framing = true) →
      s.phase.scan w = .ok n → P.accept s (w.take n) = .ok (s', code) →
      Emits P s (w.take n) code s'
  -- the whitespace behind a colon may reach the end of the view or not
  | colon {s : Core φ} {raw : Bytes} {q col ows value : Phase} : ValuePhases col ows value →
      s.phase = col → raw ≠ [] → q = ows ∨ q = value → Emits P s raw .skip (s.goto q)
  | ows {s : Core φ} {raw : Bytes} {col ows value : Phase} : ValuePhases col ows value →
      s.phase = ows → raw ≠ [] → Emits P s raw .skip s
  | body {s : Core φ} {raw : Bytes} {data done : Phase} : BodyPhases data done → s.phase = data →
      raw.length ≤ s.bodySize → (s.bodySize ≠ 0 → raw ≠ []) →
      Emits P s raw .bodyChunk (s.deliver done raw.length)
  | unsafeBody {s : Core φ} {raw : Bytes} : s.phase = .unsafeBody → raw ≠ [] →
      Emits P s raw .bodyChunk s
  -- the end of the input in a body that lasts until then
  | closed {s : Core φ} : s.phase = .unsafeBody → Emits P s [] .endOfBody (s.goto .endOfMessage)
  | endOfBody {s : Core φ} : s.phase = .endOfBody → Emits P s [] .endOfBody (s.goto .endOfMessage)
  | endOfMessage {s : Core φ} : s.phase = .endOfMessage → Emits P s [] .endOfMessage { s with
      phase := (P.onMessageEnd s.framing).2, framing := (P.onMessageEnd s.framing).1 }

theorem emits_body (hb : BodyPhases data done) (hs : s.phase = data) (hw : w ≠ []) :
    P.Emits s (w.take (min w.length s.bodySize)) .bodyChunk
      (s.deliver done (min w.length s.bodySize)) := by
  have hlen : (w.take (min w.length s.bodySize)).length = min w.length s.bodySize := by
    rw [List.length_take]
    omega
  have hpos : 0 < w.length := List.length_pos_iff.mpr hw
  have hbody : P.Emits s (w.take (min w.length s.bodySize)) .bodyChunk
      (s.deliver done (w.take (min w.length s.bodySize)).length) := by
    refine .body hb hs (by rw [hlen]; exact Nat.min_le_right _ _) fun hz hnil => ?_
    rw [hnil, List.length_nil] at hlen
    omega
  rwa [hlen] at hbody

theorem emits_of_lexeme (hres : s.phase.resolve c = s.phase)
    (h : P.lexeme s c w = .emit s' n code) : P.Emits s ((c :: w).take n) code s' := by
  cases he : s.phase.isElastic with
  | false =>
    rw [lexeme_of_rigid he] at h
    obtain ⟨hk, hs, ha⟩ := scanned_emit h
    exact .lexeme he hk hs ha
  | true =>
    unfold Policy.lexeme lexColon lexBody at h
    cases hp : s.phase <;> simp only [hp, Phase.isElastic, reduceCtorEq] at he h hres
    case colon | trailerColon =>
      split at h
      · cases h
      · cases h
        refine .colon (by first | exact .inl ⟨rfl, rfl, rfl⟩ | exact .inr ⟨rfl, rfl, rfl⟩) hp
          (by simp) ?_
        split
        · exact .inl rfl
        · exact .inr rfl
    case owsAfterColon | owsAfterTrailerColon =>
      cases h
      -- a byte that is no whitespace would have resolved the phase
      have hc : Detail.isOws c = true := by
        by_contra hc
        simp [Phase.resolve, hc] at hres
      refine .ows (by first | exact .inl ⟨rfl, rfl, rfl⟩ | exact .inr ⟨rfl, rfl, rfl⟩) hp ?_
      rw [List.takeWhile_cons_of_pos hc]
      simp
    case body | chunkData =>
      cases h
      exact emits_body (by first | exact .inl ⟨rfl, rfl⟩ | exact .inr ⟨rfl, rfl⟩) hp
        (List.cons_ne_nil c w)
    case unsafeBody =>
      cases h
      exact .unsafeBody hp (by simp)

/-- Every token of a lexer is one of those listed, in the phase the first byte decides on. -/
theorem emits_of_lex (h : P.lex b s w = .emit s' n code) :
    ∃ q, s.phase.Resolves q ∧ P.Emits (s.goto q) (w.take n) code s' := by
  cases hz : s.phase.isZeroSized with
  | true =>
    refine ⟨s.phase, .refl _, ?_⟩
    rw [Core.goto_self rfl]
    unfold Policy.lex at h
    cases hp : s.phase <;> simp only [hp, Phase.isZeroSized, reduceCtorEq] at hz h
    · cases h
      exact .endOfBody hp
    · cases h
      exact .endOfMessage hp
  | false =>
    cases w with
    | nil =>
      refine ⟨s.phase, .refl _, ?_⟩
      rw [Core.goto_self rfl]
      obtain ⟨hp, rfl, rfl, rfl⟩ := of_lex_nil_emit hz h
      exact .closed hp
    | cons d w =>
      rw [lex_cons hz] at h
      exact ⟨_, Phase.resolves_resolve s.phase d,
        emits_of_lexeme (Phase.resolve_resolve s.phase d) h⟩

/-! ## Coherence -/

theorem lex_need_append {b' : Bool} (h : P.lex b' s w = .need s') (b : Bool) (x : Bytes) :
    P.lex b s' (w ++ x) = P.lex b s (w ++ x) := by
  obtain ⟨hz, ⟨-, rfl⟩ | ⟨c, w, rfl, rfl⟩⟩ := of_lex_need h
  · rfl
  · rw [List.cons_append, lex_resolve hz]

theorem lex_rigid_append (hz : s.phase.isZeroSized = false)
    (he : (s.phase.resolve c).isElastic = false) (h : ∀ s', P.lex false s (c :: w) ≠ .need s')
    (b : Bool) (x : Bytes) : P.lex b s (c :: w ++ x) = P.lex false s (c :: w) := by
  rw [lex_cons hz, lexeme_of_rigid he] at h
  rw [List.cons_append, lex_cons hz, lex_cons hz, lexeme_of_rigid he, lexeme_of_rigid he,
    ← List.cons_append, scanned_append (h _)]

theorem lex_fail_append (h : P.lex false s w = .fail code) (b : Bool) (x : Bytes) :
    P.lex b s (w ++ x) = .fail code := by
  cases hz : s.phase.isZeroSized with
  | true => rw [lex_zeroSized hz b false (w ++ x) w, h]
  | false =>
    cases w with
    | nil => rw [lex_nil hz] at h; cases h
    | cons c w =>
      cases he : (s.phase.resolve c).isElastic with
      | false =>
        rw [lex_rigid_append hz he (by rw [h]; nofun), h]
      | true =>
        rw [List.cons_append, lex_cons hz]
        rw [lex_cons hz] at h
        unfold Policy.lexeme lexColon lexBody at h ⊢
        -- of the elastic phases only the colon fails, and it looks at one byte
        cases hp : s.phase.resolve c <;>
          simp only [hp, Phase.isElastic, reduceCtorEq, Core.goto_phase] at he h ⊢
        all_goals
          split at h
          · rename_i hne
            rw [if_pos hne]
            exact h
          · cases h

theorem runs_emit_append {j' : Nat} {x : Bytes} (h : P.lex false s w = .emit s' n code)
    (hr : (machine P client).Runs b (p + n)
      ((machine P client).react ⟨code, n, tokenValue code s'.bodySize w n⟩ (s', j))
      ((w ++ x).drop n) v) (hj : j' = j) :
    (machine P client).Runs b p (s, j') (w ++ x)
      (Token.events p ⟨code, n, tokenValue code s'.bodySize w n⟩ ++ v) := by
  subst hj
  cases hz : s.phase.isZeroSized with
  | true =>
    have hx : P.lex b s (w ++ x) = .emit s' n code := by
      rw [lex_zeroSized hz b false (w ++ x) w, h]
    have hval : tokenValue code s'.bodySize (w ++ x) n = tokenValue code s'.bodySize w n := by
      unfold Policy.lex at h
      cases hp : s.phase <;> simp_all [Phase.isZeroSized]
      all_goals
        obtain ⟨-, -, rfl⟩ := h
        rfl
    rw [← hval] at hr ⊢
    exact .emit (step_emit hx) hr
  | false =>
    cases w with
    | nil => rw [lex_nil hz] at h; cases h
    | cons c w =>
      cases he : (s.phase.resolve c).isElastic with
      | false =>
        have hx : P.lex b s (c :: w ++ x) = .emit s' n code := by
          rw [lex_rigid_append hz he (by rw [h]; nofun), h]
        rw [← tokenValue_append code s'.bodySize (List.cons_ne_nil c w) (lex_le h) x] at hr ⊢
        exact .emit (step_emit hx) hr
      | true =>
        -- run the resolved state: it takes the same steps
        rw [← lex_resolve hz] at h
        apply runs_congr (lex_resolve hz (w := w ++ x))
        generalize hsr : s.goto (s.phase.resolve c) = sr at h ⊢
        have hphase : sr.phase = s.phase.resolve c := by rw [← hsr, Core.goto_phase]
        have hz' : sr.phase.isZeroSized = false := by rw [hphase, Phase.isZeroSized_resolve, hz]
        have hres : sr.phase.resolve c = sr.phase := by rw [hphase, Phase.resolve_resolve]
        rw [← hphase] at he
        have hlex := h
        rw [lex_resolved hz' hres] at h
        unfold Policy.lexeme at h
        -- a token that grows with the view is the same run in pieces
        cases hp : sr.phase <;> simp only [hp, Phase.isElastic, reduceCtorEq] at he h
        case colon | trailerColon =>
          unfold lexColon at h
          split at h
          · cases h
          · rename_i hc
            cases h
            have hc : c = 0x3A := by simpa using hc
            subst hc
            simp only [Token.events, List.nil_append]
            refine runs_colon_append (by first | exact .inl ⟨rfl, rfl, rfl⟩ | exact .inr ⟨rfl, rfl, rfl⟩)
              hp ?_
            simpa [machine, afterOws] using hr
        case owsAfterColon | owsAfterTrailerColon =>
          have hc : Detail.isOws c = true := by
            by_contra hc
            simp [hp, Phase.resolve, hc] at hres
          cases h
          simp only [Token.events, List.nil_append]
          refine runs_ows_append (by first | exact .inl ⟨rfl, rfl, rfl⟩ | exact .inr ⟨rfl, rfl, rfl⟩)
            hp hc ?_
          simpa [machine] using hr
        case body | chunkData =>
          have hcode : code = .bodyChunk := by cases h; rfl
          subst hcode
          simp only [Token.events, tokenValue]
          refine runs_body_append (by first | exact .inl ⟨rfl, rfl⟩ | exact .inr ⟨rfl, rfl⟩) hp
            (List.cons_ne_nil c w) hlex ?_
          simpa [machine] using hr
        case unsafeBody =>
          cases h
          simp only [Token.events, tokenValue, List.take_length]
          refine runs_unsafeBody_append hp (List.cons_ne_nil c w) ?_
          simpa [machine] using hr

theorem step_need_iff {c c' : Core φ × Nat} :
    (machine P client).step b c w = .need c' ↔ P.lex b c.1 w = .need c'.1 ∧ c'.2 = c.2 := by
  obtain ⟨s, j⟩ := c
  obtain ⟨s', j'⟩ := c'
  simp only [machine]
  cases P.lex b s w <;> simp [eq_comm]

theorem step_emit_iff {c c' : Core φ × Nat} {t : Token} :
    (machine P client).step b c w = .emit c' n t ↔
      P.lex b c.1 w = .emit c'.1 n t.code ∧ c'.2 = c.2 ∧
        t = ⟨t.code, n, tokenValue t.code c'.1.bodySize w n⟩ := by
  obtain ⟨s, j⟩ := c
  obtain ⟨s', j'⟩ := c'
  obtain ⟨code, size, value⟩ := t
  simp only [machine]
  cases P.lex b s w with
  | need s => simp
  | fail c => simp
  | emit s n' c =>
    simp only [Out.emit.injEq, Prod.mk.injEq, Token.mk.injEq, true_and]
    constructor
    · rintro ⟨⟨rfl, rfl⟩, rfl, rfl, rfl, rfl⟩
      exact ⟨⟨rfl, rfl, rfl⟩, rfl, rfl, rfl⟩
    · rintro ⟨⟨rfl, rfl, rfl⟩, rfl, rfl, rfl⟩
      exact ⟨⟨rfl, rfl⟩, rfl, rfl, rfl, rfl⟩

theorem step_fail_iff {c : Core φ × Nat} {t : Token} :
    (machine P client).step b c w = .fail t ↔
      P.lex b c.1 w = .fail t.code ∧ t = ⟨t.code, 0, .none⟩ := by
  obtain ⟨s, j⟩ := c
  obtain ⟨code, size, value⟩ := t
  simp only [machine]
  cases P.lex b s w with
  | need s => simp
  | emit s n' c => simp
  | fail c =>
    simp only [Out.fail.injEq, Token.mk.injEq, true_and]
    constructor
    · rintro ⟨rfl, rfl, rfl⟩
      exact ⟨rfl, rfl, rfl⟩
    · rintro ⟨rfl, rfl, rfl⟩
      exact ⟨rfl, rfl, rfl⟩

/-- Whatever the framing policy, the windows through which a stream is seen do not change what is
observed of it. -/
theorem coherent_machine (P : Policy φ) (client : Client φ) : Coherent (machine P client) where
  need {b' c w c'} h b x := by
    obtain ⟨hl, hj⟩ := step_need_iff.mp h
    obtain ⟨s, j⟩ := c
    obtain ⟨s', j'⟩ := c'
    dsimp only at hl hj
    rw [hj]
    exact step_congr (lex_need_append hl b x)
  fail {c w t} h b x := by
    obtain ⟨hl, ht⟩ := step_fail_iff.mp h
    exact step_fail_iff.mpr ⟨lex_fail_append hl b x, ht⟩
  emit {c w c' n t} h b x p v hr := by
    obtain ⟨hl, hj, ht⟩ := step_emit_iff.mp h
    obtain ⟨s, j⟩ := c
    obtain ⟨s', j'⟩ := c'
    dsimp only at hl hj ht
    rw [ht] at hr ⊢
    exact runs_emit_append hl hr hj.symm

/-! ## Progress -/

/-- How many tokens without bytes can follow. -/
def Phase.rank : Phase → Nat
  | .body | .unsafeBody => 3
  | .endOfBody => 2
  | .endOfMessage | .owsAfterColon | .fieldValue | .reasonPhrase | .chunkExt | .chunkData
  | .owsAfterTrailerColon | .trailerValue => 1
  | _ => 0

theorem Phase.rank_le (p : Phase) : p.rank ≤ 3 := by
  cases p <;> decide

/-- A token without bytes lowers the rank. -/
theorem rank_lt_of_emits {q : Phase} (hq : s.phase.Resolves q)
    (hP : ∀ f, (P.onMessageEnd f).2.rank = 0) (h : P.Emits (s.goto q) [] code s') :
    s'.phase.rank < s.phase.rank := by
  obtain ⟨p, f, m⟩ := s
  generalize hraw : ([] : Bytes) = raw at h
  cases h with
  | lexeme _ _ hscan hacc =>
    rename_i x k _ _
    have hk : k = 0 := by
      have hlen := congrArg List.length hraw
      rw [List.length_take, Nat.min_eq_left ((Phase.stable_scan _).le hscan)] at hlen
      exact hlen.symm
    subst hk
    -- the runs that may be empty are values, reason phrases and extensions
    cases hq <;> (try cases p) <;> simp only [Core.goto_phase, Phase.scan] at hscan <;>
      first
      | (obtain ⟨_, _, _, _, _, h, _⟩ := spanned_ok hscan; cases h; done)
      | (have h := (fixed_ok hscan).1; cases h)
      | (have h := (literal_ok hscan).1; cases h)
      | (rcases lineEnd_ok hscan with h | h <;> cases h; done)
      | cases hscan
      | (cases hacc; exact Nat.zero_lt_one)
      | (simp only [Policy.accept, Core.goto_phase] at hacc; split at hacc <;> cases hacc
         exact Nat.zero_lt_one)
  | colon _ _ hne _ => exact absurd hraw.symm hne
  | ows _ _ hne => exact absurd hraw.symm hne
  -- a chunk without bytes is found only where nothing is left of the body
  | body hb hp _ hne =>
    have hz : m = 0 := by
      by_contra hz
      exact hne hz hraw.symm
    subst hz hraw
    rcases hb with ⟨rfl, rfl⟩ | ⟨rfl, rfl⟩ <;> cases hp <;> cases hq
    · exact (by decide : 2 < 3)
    · exact (by decide : 0 < 1)
  | unsafeBody _ hne => exact absurd hraw.symm hne
  | closed hp => cases hp; cases hq; exact (by decide : 1 < 3)
  | endOfBody hp => cases hp; cases hq; exact (by decide : 1 < 2)
  | endOfMessage hp =>
    cases hp
    cases hq
    exact (hP f).trans_lt Nat.zero_lt_one

/-- A lexer comes to an end with every input. -/
theorem exists_runs (P : Policy φ) (client : Client φ) (hP : ∀ f, (P.onMessageEnd f).2.rank = 0)
    (hclient : ∀ j v s, (client j v s).phase = s.phase) (b : Bool) (p : Nat) (c : Core φ × Nat)
    (w : Bytes) : ∃ v, (machine P client).Runs b p c w v := by
  -- every token uses up bytes or lowers the rank, which is below four
  refine Machine.Runs.exists_of_measure (fun c w => 4 * w.length + c.1.phase.rank) ?_ p c w
  rintro ⟨s, j⟩ w ⟨s', j'⟩ n ⟨code, size, value⟩ h
  obtain ⟨hlex, -, -⟩ := step_emit_iff.mp h
  have hreact : ((machine P client).react ⟨code, size, value⟩ (s', j')).1.phase = s'.phase := by
    simp only [machine]
    split
    · exact hclient _ _ _
    · rfl
  have hn := lex_le hlex
  have hrank := s'.phase.rank_le
  simp only at hlex
  rw [hreact, List.length_drop]
  cases n with
  | zero =>
    obtain ⟨q, hq, he⟩ := emits_of_lex hlex
    have hlt := rank_lt_of_emits hq hP he
    change 4 * (w.length - 0) + s'.phase.rank < 4 * w.length + s.phase.rank
    omega
  | succ n =>
    change 4 * (w.length - (n + 1)) + s'.phase.rank < 4 * w.length + s.phase.rank
    omega

end Machine

end BoostHttp
