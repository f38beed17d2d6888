import BoostHttp.Clients

/-!
# Order — the order in which tokens are emitted

The language of a message is a regular one.  `future` gives for every state of a lexer the language
of what may still follow; the tokens of a lexer are simulated by it, so that what was emitted,
followed by any word of the future, is a sequence of messages.
-/

open Incremental Computability

namespace BoostHttp

variable {σ β ν κ φ : Type}

/-! ## Messages -/

def Code.only (c : Code) : Language Code := {[c]}

def pairs (name value : Code) : Language Code := (name.only * value.only)∗

def someData : Language Code := Code.bodyChunk.only * Code.bodyChunk.only∗

def optionalExt : Language Code := 1 + Code.chunkExt.only

def plainBody : Language Code :=
  Code.bodyChunk.only∗ * Code.endOfBody.only * Code.endOfMessage.only

def chunkedBody : Language Code :=
  (optionalExt * someData)∗ * optionalExt * Code.endOfBody.only *
    pairs .trailerName .trailerValue * Code.endOfMessage.only

def anyBody : Language Code := plainBody + chunkedBody

def requestMessage : Language Code :=
  Code.method.only * Code.requestTarget.only * Code.version.only * pairs .fieldName .fieldValue *
    Code.endOfHeaders.only * anyBody

def responseMessage : Language Code :=
  Code.version.only * Code.statusCode.only * Code.reasonPhrase.only * pairs .fieldName .fieldValue *
    Code.endOfHeaders.only * anyBody

/-- The codes of a record, without skipped bytes and requests for more data. -/
def codes (log : List (Nat × Token)) : List Code :=
  (log.map fun e => e.2.code).filter fun c => c != .skip && c != .errorInsufficientData

/-- The record begins a sequence of messages `M`, and may end in one fatal error. -/
def Ordered (M : Language Code) (log : List (Nat × Token)) : Prop :=
  ∃ emitted fatal, codes log = emitted ++ fatal ∧ (∃ w, emitted ++ w ∈ M∗) ∧
    (fatal = [] ∨ ∃ c, fatal = [c] ∧ c.isFatal = true)

/-! ## The future of a lexer -/

section Future

variable (M : Language Code)

def trailersOn : Language Code :=
  pairs .trailerName .trailerValue * (Code.endOfMessage.only * M∗)

def chunksOn : Language Code :=
  (optionalExt * someData)∗ * (optionalExt * (Code.endOfBody.only * trailersOn M))

def dataOn (n : Nat) : Language Code :=
  if n = 0 then Code.endOfBody.only * trailersOn M else someData * chunksOn M

def fieldsOn : Language Code :=
  pairs .fieldName .fieldValue * (Code.endOfHeaders.only * (anyBody * M∗))

def future (s : Core φ) : Language Code :=
  match s.phase with
  | .errored => 0
  | .method | .versionStaticStr | .responseVersion | .endOfConnectionError => M∗
  | .spAfterMethod | .requestTarget =>
    Code.requestTarget.only * (Code.version.only * fieldsOn M)
  | .staticStrAfterTarget | .requestVersion => Code.version.only * fieldsOn M
  | .spAfterVersion | .statusCode => Code.statusCode.only * (Code.reasonPhrase.only * fieldsOn M)
  | .spAfterStatusCode | .reasonPhrase => Code.reasonPhrase.only * fieldsOn M
  | .crlfAfterVersion | .crlfAfterReasonPhrase | .fieldName | .crlfAfterFieldValue => fieldsOn M
  | .colon | .owsAfterColon | .fieldValue => Code.fieldValue.only * fieldsOn M
  | .crlfAfterHeaders => Code.endOfHeaders.only * (anyBody * M∗)
  | .body | .unsafeBody =>
    Code.bodyChunk.only∗ * (Code.endOfBody.only * (Code.endOfMessage.only * M∗))
  | .endOfBody => Code.endOfBody.only * (Code.endOfMessage.only * M∗)
  | .endOfMessage | .crlfAfterTrailers => Code.endOfMessage.only * M∗
  | .chunkSize | .crlfAfterChunkData => chunksOn M
  | .chunkExt => optionalExt * dataOn M s.bodySize
  | .crlfAfterChunkExt => dataOn M s.bodySize
  | .chunkData => someData * chunksOn M
  | .trailerName | .crlfAfterTrailerValue => trailersOn M
  | .trailerColon | .owsAfterTrailerColon | .trailerValue =>
    Code.trailerValue.only * trailersOn M

end Future

section Algebra

variable {M : Language Code} {a b k : Language Code}

theorem le_star_mul : k ≤ a∗ * k := by
  calc k = 1 * k := (one_mul k).symm
    _ ≤ a∗ * k := mul_le_mul_left one_le_kstar k

theorem mul_star_mul_le : a * (a∗ * k) ≤ a∗ * k := by
  rw [← mul_assoc]
  exact mul_le_mul_left mul_kstar_le_kstar k

/-- A pair in front of pairs. -/
theorem pairs_cons_le (name value : Code) (k : Language Code) :
    name.only * (value.only * (pairs name value * k)) ≤ pairs name value * k := by
  rw [← mul_assoc]
  exact mul_star_mul_le

theorem le_optionalExt_mul : k ≤ optionalExt * k := by
  calc k = 1 * k := (one_mul k).symm
    _ ≤ optionalExt * k := mul_le_mul_left le_self_add k

theorem ext_mul_le : Code.chunkExt.only * k ≤ optionalExt * k := mul_le_mul_left le_add_self k

theorem data_mul_someData_le : Code.bodyChunk.only * (someData * k) ≤ someData * k := by
  rw [someData, mul_assoc]
  exact mul_le_mul_right mul_star_mul_le _

theorem data_mul_le : Code.bodyChunk.only * k ≤ someData * k := by
  rw [someData, mul_assoc]
  exact mul_le_mul_right le_star_mul _

/-- What follows the size of a chunk continues the chunks. -/
theorem ext_dataOn_le (n : Nat) : optionalExt * dataOn M n ≤ chunksOn M := by
  unfold dataOn
  split
  · exact le_star_mul
  · rw [← mul_assoc]
    exact mul_star_mul_le

theorem plain_le : Code.bodyChunk.only∗ * (Code.endOfBody.only * (Code.endOfMessage.only * k))
    ≤ anyBody * k := by
  calc Code.bodyChunk.only∗ * (Code.endOfBody.only * (Code.endOfMessage.only * k))
      = plainBody * k := by simp only [plainBody, mul_assoc]
    _ ≤ anyBody * k := mul_le_mul_left le_self_add k

theorem chunks_le : chunksOn M ≤ anyBody * M∗ := by
  calc chunksOn M = chunkedBody * M∗ := by simp only [chunksOn, trailersOn, chunkedBody, mul_assoc]
    _ ≤ anyBody * M∗ := mul_le_mul_left le_add_self _

end Algebra

/-! ## The simulation -/

structure Policy.Orderly (P : Policy φ) : Prop where
  headers : ∀ {f n f' p}, P.onHeaders f n = .ok (f', p) →
    p = .endOfBody ∨ p = .body ∨ p = .unsafeBody ∨ p = .chunkSize
  messageEnd : ∀ f, (P.onMessageEnd f).2 = .method ∨ (P.onMessageEnd f).2 = .versionStaticStr ∨
    (P.onMessageEnd f).2 = .endOfConnectionError
  trailersEnd : ∀ f, (P.onTrailersEnd f).2 = .method ∨ (P.onTrailersEnd f).2 = .versionStaticStr

structure Reads (M : Language Code) (s : Core φ) : Prop where
  request : s.phase = .method → M = requestMessage
  response : s.phase = .responseVersion → M = responseMessage

section Simulation

variable {M : Language Code} {P : Policy φ} {s s' : Core φ} {raw w : Bytes} {c : Code} {q : Phase}

theorem future_resolves (hq : s.phase.Resolves q) : future M (s.goto q) ≤ future M s := by
  obtain ⟨p, f, n⟩ := s
  cases hq with
  | refl => exact le_refl _
  | headers => exact le_star_mul
  | fieldValue => exact le_refl _
  | chunkExt => exact le_optionalExt_mul
  | trailers => exact le_star_mul
  | trailerValue => exact le_refl _

theorem future_headers (hp : s.phase = .endOfBody ∨ s.phase = .body ∨ s.phase = .unsafeBody ∨
    s.phase = .chunkSize) : future M s ≤ anyBody * M∗ := by
  rcases hp with hp | hp | hp | hp <;> simp only [future, hp]
  · exact le_star_mul.trans plain_le
  · exact plain_le
  · exact plain_le
  · exact chunks_le

theorem future_start (hp : s.phase = .method ∨ s.phase = .versionStaticStr ∨
    s.phase = .endOfConnectionError) : future M s = M∗ := by
  rcases hp with hp | hp | hp <;> simp only [future, hp]

theorem request_le : Code.method.only * (Code.requestTarget.only * (Code.version.only *
    fieldsOn requestMessage)) ≤ requestMessage∗ := by
  calc Code.method.only * (Code.requestTarget.only * (Code.version.only * fieldsOn requestMessage))
      = requestMessage * requestMessage∗ := by simp only [fieldsOn, requestMessage, mul_assoc]
    _ ≤ requestMessage∗ := mul_kstar_le_kstar

theorem response_le : Code.version.only * (Code.statusCode.only * (Code.reasonPhrase.only *
    fieldsOn responseMessage)) ≤ responseMessage∗ := by
  calc Code.version.only * (Code.statusCode.only * (Code.reasonPhrase.only *
        fieldsOn responseMessage))
      = responseMessage * responseMessage∗ := by simp only [fieldsOn, responseMessage, mul_assoc]
    _ ≤ responseMessage∗ := mul_kstar_le_kstar

/-- The language of a token as it is recorded: skipped bytes leave no trace. -/
def Code.trace (c : Code) : Language Code := if c = .skip then 1 else c.only

theorem future_accept (hP : P.Orderly) (hM : Reads M s) (h : P.accept s raw = .ok (s', c)) :
    c.trace * future M s' ≤ future M s := by
  obtain ⟨p, f, n⟩ := s
  unfold Policy.accept at h
  cases p <;> simp only at h
  case fieldName =>
    split at h <;> cases h
    exact pairs_cons_le _ _ _
  case fieldValue =>
    split at h <;> cases h
    exact le_refl _
  case crlfAfterHeaders =>
    split at h <;> cases h
    rename_i hf
    exact mul_le_mul_right (future_headers (hP.headers hf)) _
  case chunkSize =>
    split at h <;> cases h
    exact (one_mul _).le.trans (ext_dataOn_le _)
  case chunkExt =>
    cases h
    exact ext_mul_le
  case crlfAfterChunkExt =>
    split at h <;> cases h
    · rename_i hn
      simp only [future, dataOn, Core.goto_phase, Code.trace, if_true, if_neg hn, one_mul]
      exact le_refl _
    · rename_i hn
      have hn : n = 0 := by simpa using hn
      simp only [future, dataOn, Core.goto_phase, hn, if_true]
      exact le_refl _
  case trailerName =>
    cases h
    exact pairs_cons_le _ _ _
  case crlfAfterTrailers =>
    cases h
    refine mul_le_mul_right (le_of_eq (future_start ?_)) _
    rcases hP.trailersEnd f with h | h
    · exact .inl h
    · exact .inr (.inl h)
  case method =>
    cases h
    obtain rfl := hM.request rfl
    exact request_le
  case responseVersion =>
    cases h
    obtain rfl := hM.response rfl
    exact response_le
  all_goals first
    | (cases h; exact (one_mul _).le)
    | (cases h; exact le_refl _)
    | cases h

/-- A token leads from a state to one whose future continues the token. -/
theorem future_emits (hP : P.Orderly) (hM : Reads M s) (h : P.Emits s raw c s') :
    c.trace * future M s' ≤ future M s := by
  cases h with
  | lexeme _ _ _ ha => exact future_accept hP hM ha
  | colon hv hp _ hq =>
    obtain ⟨p, f, n⟩ := s
    rcases hv with ⟨rfl, rfl, rfl⟩ | ⟨rfl, rfl, rfl⟩ <;> rcases hq with rfl | rfl <;> cases hp <;>
      exact (one_mul _).le
  | ows => exact (one_mul _).le
  | body hb hp _ _ =>
    obtain ⟨p, f, n⟩ := s
    rcases hb with ⟨rfl, rfl⟩ | ⟨rfl, rfl⟩ <;> cases hp <;> simp only [future, Core.deliver] <;>
      split <;> rename_i hd <;> split at hd <;> cases hd
    · exact mul_star_mul_le
    · exact mul_le_mul_right le_star_mul _ |>.trans mul_star_mul_le
    · exact data_mul_le
    · exact data_mul_someData_le
  | unsafeBody hp => simp only [future, hp]; exact mul_star_mul_le
  | closed hp => simp only [future, hp]; exact le_star_mul
  | endOfBody hp => simp only [future, hp]; exact le_refl _
  | endOfMessage hp =>
    obtain ⟨p, f, n⟩ := s
    cases hp
    exact mul_le_mul_right (le_of_eq (future_start (hP.messageEnd f))) _

theorem Reads.goto (hM : Reads M s) (hq : s.phase.Resolves q) : Reads M (s.goto q) := by
  obtain ⟨p, f, n⟩ := s
  cases hq
  · exact hM
  all_goals exact ⟨nofun, nofun⟩

theorem future_lex {b : Bool} {n : Nat} (hP : P.Orderly) (hM : Reads M s)
    (h : P.lex b s w = .emit s' n c) : c.trace * future M s' ≤ future M s := by
  obtain ⟨q, hq, he⟩ := emits_of_lex h
  exact (future_emits hP (hM.goto hq) he).trans (future_resolves hq)

theorem future_need {b : Bool} (h : P.lex b s w = .need s') : future M s' ≤ future M s := by
  obtain ⟨-, ⟨-, rfl⟩ | ⟨d, w, -, rfl⟩⟩ := of_lex_need h
  · exact le_refl _
  · exact future_resolves (Phase.resolves_resolve s.phase d)

end Simulation

/-! ## There is always a future -/

section Nonempty

variable {M a b : Language Code}

theorem nonempty_only (c : Code) : ∃ w, w ∈ c.only := ⟨[c], rfl⟩

theorem nonempty_mul (ha : ∃ w, w ∈ a) (hb : ∃ w, w ∈ b) : ∃ w, w ∈ a * b := by
  obtain ⟨v, hv⟩ := ha
  obtain ⟨w, hw⟩ := hb
  exact ⟨v ++ w, Language.append_mem_mul hv hw⟩

theorem nonempty_star (a : Language Code) : ∃ w, w ∈ a∗ := ⟨[], Language.nil_mem_kstar a⟩

theorem nonempty_optionalExt : ∃ w, w ∈ optionalExt := ⟨[], .inl Language.nil_mem_one⟩

theorem nonempty_someData : ∃ w, w ∈ someData := nonempty_mul (nonempty_only _) (nonempty_star _)

theorem nonempty_anyBody : ∃ w, w ∈ anyBody := by
  obtain ⟨w, hw⟩ := nonempty_mul (nonempty_mul (nonempty_star Code.bodyChunk.only)
    (nonempty_only .endOfBody)) (nonempty_only .endOfMessage)
  exact ⟨w, .inl hw⟩

theorem nonempty_trailersOn : ∃ w, w ∈ trailersOn M :=
  nonempty_mul (nonempty_star _) (nonempty_mul (nonempty_only _) (nonempty_star _))

theorem nonempty_chunksOn : ∃ w, w ∈ chunksOn M :=
  nonempty_mul (nonempty_star _)
    (nonempty_mul nonempty_optionalExt (nonempty_mul (nonempty_only _) nonempty_trailersOn))

theorem nonempty_dataOn (n : Nat) : ∃ w, w ∈ dataOn M n := by
  unfold dataOn
  split
  · exact nonempty_mul (nonempty_only _) nonempty_trailersOn
  · exact nonempty_mul nonempty_someData nonempty_chunksOn

theorem nonempty_fieldsOn : ∃ w, w ∈ fieldsOn M :=
  nonempty_mul (nonempty_star _)
    (nonempty_mul (nonempty_only _) (nonempty_mul nonempty_anyBody (nonempty_star _)))

theorem nonempty_future {s : Core φ} (hs : s.phase ≠ .errored) : ∃ w, w ∈ future M s := by
  obtain ⟨p, f, n⟩ := s
  cases p <;> simp only [future]
  case errored => exact absurd rfl hs
  all_goals repeat' first
    | exact nonempty_only _
    | exact nonempty_star _
    | exact nonempty_fieldsOn
    | exact nonempty_trailersOn
    | exact nonempty_chunksOn
    | exact nonempty_dataOn _
    | exact nonempty_optionalExt
    | exact nonempty_someData
    | exact nonempty_anyBody
    | apply nonempty_mul

end Nonempty

/-! ## Sessions -/

theorem codes_append (log log' : List (Nat × Token)) : codes (log ++ log') = codes log ++ codes log' := by
  simp [codes]

namespace Session

/-- What was emitted and what may still follow is a sequence of messages; a fatal error, which has
the property `E`, takes the place of what may follow. -/
structure InOrder (V : View σ β ν φ) (M : Language Code) (E : Code → Prop) (s : Session σ β ν κ) :
    Prop where
  running : V.phase s.reader.state ≠ .errored →
    ∀ w ∈ future M (V.core s.reader), codes s.emitted ++ w ∈ M∗
  failed : V.phase s.reader.state = .errored → ∃ emitted c, codes s.emitted = emitted ++ [c] ∧
    c.isFatal = true ∧ E c ∧ ∃ w, emitted ++ w ∈ M∗

variable {A : Api σ β ν κ} {mem : Nat → UInt8} {S : Bytes} {V : View σ β ν φ} {P : Policy φ}
  {Legal : Core φ → Prop} {s : Session σ β ν κ} {r' : Reader σ β ν} {M : Language Code}
  {E : Code → Prop}

theorem codes_report (mem : Nat → UInt8) (s : Session σ β ν κ) (r' : Reader σ β ν) :
    codes (s.pass.report mem r').emitted
      = codes s.emitted ++
        if r'.code = .skip ∨ r'.code = .errorInsufficientData then [] else [r'.code] := by
  change codes (s.pass.emitted ++ [(s.pass.consumed, r'.token mem)]) = _
  rw [codes_append, pass_emitted]
  congr 1
  by_cases h : r'.code = .skip ∨ r'.code = .errorInsufficientData
  · rw [if_pos h]
    rcases h with h | h <;> simp [codes, Reader.token, h]
  · rw [if_neg h]
    rw [not_or] at h
    simp [codes, Reader.token, h.1, h.2]

/-- `next()` keeps the order. -/
theorem InOrder.report (hA : A.Lawful V P Legal) (hP : P.Orderly) (hM : ∀ {s}, Legal s → Reads M s)
    (hE : ∀ {w c}, P.lex (V.eof s.reader.connection) (V.core s.reader) w = .fail c → E c)
    (ht : Tracks V Legal S s) (ho : InOrder V M E s) (he : V.phase s.reader.state ≠ .errored)
    (hout : Settles V s.reader.consume
      (P.lex (V.eof s.reader.connection) (V.core s.reader) s.reader.consume.restView) r') :
    InOrder V M E (s.pass.report mem r') := by
  have hlegal := ht.sound.legal he
  have hkeeps := hA.implements.keeps
  have hrun := ho.running he
  cases hlex : P.lex (V.eof s.reader.connection) (V.core s.reader) s.reader.consume.restView with
  | need s' =>
    rw [hlex] at hout
    obtain ⟨hcore, hcode, -⟩ := hout.outcome
    have hne : V.phase r'.state ≠ .errored := by
      have h := (hkeeps.need hlegal hlex).2
      rwa [← hcore] at h
    refine ⟨fun _ w hw => ?_, fun h => absurd h hne⟩
    rw [codes_report, if_pos (.inr hcode), List.append_nil]
    change w ∈ future M (V.core r') at hw
    rw [hcore] at hw
    exact hrun w (future_need hlex hw)
  | emit s' n c =>
    rw [hlex] at hout
    obtain ⟨hcore, hcode, -⟩ := hout.outcome
    obtain ⟨-, hne, herr, -⟩ := hkeeps.emit hlegal hlex
    rw [← hcore] at hne
    refine ⟨fun _ w hw => ?_, fun h => absurd h hne⟩
    change w ∈ future M (V.core r') at hw
    rw [hcore] at hw
    have hfut := future_lex hP (hM hlegal) hlex
    rw [codes_report, hcode]
    by_cases hskip : c = .skip
    · rw [if_pos (.inl hskip), List.append_nil]
      rw [Code.trace, if_pos hskip, one_mul] at hfut
      exact hrun w (hfut hw)
    · have hins : c ≠ .errorInsufficientData := by
        rintro rfl
        cases herr
      rw [Code.trace, if_neg hskip] at hfut
      rw [if_neg (not_or.mpr ⟨hskip, hins⟩), List.append_assoc]
      exact hrun _ (hfut (Language.append_mem_mul rfl hw))
  | fail c =>
    have hf := hkeeps.fail hlegal hlex
    rw [hlex] at hout
    obtain ⟨hphase, hcode⟩ := hout.outcome
    refine ⟨fun h => absurd hphase h, fun _ => ?_⟩
    obtain ⟨w, hw⟩ := nonempty_future (M := M) (s := V.core s.reader) he
    refine ⟨codes s.emitted, c, ?_, hf, hE hlex, w, hrun w hw⟩
    have hc : ¬ (c = .skip ∨ c = .errorInsufficientData) := by
      rintro (rfl | rfl) <;> cases hf
    rw [codes_report, hcode, if_neg hc]

theorem InOrder.ordered (h : InOrder V M E s) : Ordered M s.emitted := by
  by_cases he : V.phase s.reader.state = .errored
  · obtain ⟨emitted, c, hcodes, hf, -, hw⟩ := h.failed he
    exact ⟨emitted, [c], hcodes, hw, .inr ⟨c, rfl, hf⟩⟩
  · obtain ⟨w, hw⟩ := nonempty_future (M := M) (s := V.core s.reader) he
    exact ⟨codes s.emitted, [], by simp, ⟨w, h.running he w hw⟩, .inl rfl⟩

end Session

/-! ## The codes a reader never reports -/

def wordsOf (p : Code → Prop) : Language Code := {w | ∀ c ∈ w, p c}

section Alphabet

variable {p : Code → Prop} {a b : Language Code}

theorem only_le_wordsOf {c : Code} (h : p c) : c.only ≤ wordsOf p := by
  rintro w rfl d hd
  rw [List.mem_singleton.mp hd]
  exact h

theorem one_le_wordsOf : 1 ≤ wordsOf p := by
  rintro w rfl d hd
  cases hd

theorem add_le_wordsOf (ha : a ≤ wordsOf p) (hb : b ≤ wordsOf p) : a + b ≤ wordsOf p := add_le ha hb

theorem mul_le_wordsOf (ha : a ≤ wordsOf p) (hb : b ≤ wordsOf p) : a * b ≤ wordsOf p := by
  rintro w ⟨u, hu, v, hv, rfl⟩ c hc
  rcases List.mem_append.mp hc with h | h
  · exact ha hu c h
  · exact hb hv c h

theorem star_le_wordsOf (ha : a ≤ wordsOf p) : a∗ ≤ wordsOf p :=
  kstar_le_of_mul_le_right one_le_wordsOf (mul_le_wordsOf ha (le_refl _))

/-- Bodies use a fixed part of the alphabet. -/
theorem anyBody_le_wordsOf (h : ∀ c, p c ∨ c ∉ [.bodyChunk, .endOfBody, .endOfMessage, .chunkExt,
    .trailerName, .trailerValue]) : anyBody ≤ wordsOf p := by
  have hp : ∀ c ∈ [Code.bodyChunk, .endOfBody, .endOfMessage, .chunkExt, .trailerName,
      .trailerValue], c.only ≤ wordsOf p := fun c hc => only_le_wordsOf ((h c).resolve_right (not_not.mpr hc))
  unfold anyBody plainBody chunkedBody optionalExt someData pairs
  repeat' first
    | apply hp; decide
    | apply one_le_wordsOf
    | apply add_le_wordsOf
    | apply mul_le_wordsOf
    | apply star_le_wordsOf

end Alphabet

def Request.reports (c : Code) : Bool :=
  !([.statusCode, .reasonPhrase, .errorSetMethod, .errorUseAnotherConnection].contains c)

def Response.reports (c : Code) : Bool := !([.method, .requestTarget, .errorNoHost].contains c)

theorem request_le_wordsOf : requestMessage∗ ≤ wordsOf fun c => Request.reports c = true := by
  apply star_le_wordsOf
  unfold requestMessage pairs
  repeat' first
    | (apply only_le_wordsOf; rfl)
    | (apply anyBody_le_wordsOf; intro c; cases c <;> decide)
    | apply mul_le_wordsOf
    | apply star_le_wordsOf

theorem response_le_wordsOf : responseMessage∗ ≤ wordsOf fun c => Response.reports c = true := by
  apply star_le_wordsOf
  unfold responseMessage pairs
  repeat' first
    | (apply only_le_wordsOf; rfl)
    | (apply anyBody_le_wordsOf; intro c; cases c <;> decide)
    | apply mul_le_wordsOf
    | apply star_le_wordsOf

/-- A record in order is a record over the alphabet of its messages. -/
theorem Session.InOrder.reports {V : View σ β ν φ} {M : Language Code} {p : Code → Prop}
    {s : Session σ β ν κ} (hM : M∗ ≤ wordsOf p) (hskip : p .skip) (hins : p .errorInsufficientData)
    (h : InOrder V M p s) : ∀ e ∈ s.emitted, p e.2.code := by
  have hcodes : ∀ c ∈ codes s.emitted, p c := by
    by_cases he : V.phase s.reader.state = .errored
    · obtain ⟨emitted, d, heq, -, hd, w, hw⟩ := h.failed he
      intro c hc
      rw [heq] at hc
      rcases List.mem_append.mp hc with hc | hc
      · exact hM hw c (List.mem_append_left w hc)
      · rw [List.mem_singleton.mp hc]
        exact hd
    · obtain ⟨w, hw⟩ := nonempty_future (M := M) (s := V.core s.reader) he
      intro c hc
      exact hM (h.running he w hw) c (List.mem_append_left w hc)
  intro e he
  by_cases hs : e.2.code = .skip
  · rw [hs]; exact hskip
  · by_cases hi : e.2.code = .errorInsufficientData
    · rw [hi]; exact hins
    · apply hcodes
      simp only [codes, List.mem_filter, List.mem_map]
      exact ⟨⟨e, he, rfl⟩, by simp [hs, hi]⟩

/-! ## The two readers -/

namespace Request

theorem orderly : policy.Orderly where
  headers {f n f' p} h := by
    simp only [policy, onHeaders] at h
    split at h
    · cases h
    · split at h <;> cases h
      · exact .inl rfl
      · exact .inr (.inr (.inr rfl))
      · split
        · exact .inl rfl
        · exact .inr (.inl rfl)
  messageEnd _ := .inl rfl
  trailersEnd _ := .inl rfl

theorem reads {s : Core Memory} (h : Legal s) : Reads requestMessage s := by
  refine ⟨fun _ => rfl, fun hp => ?_⟩
  simp [Legal, hp] at h

theorem fails {r : Request} (hr : Sound view Legal r) (he : r.state.phase ≠ .errored) {w : Bytes}
    {c : Code} (h : policy.lex false (view.core r) w = .fail c) : reports c = true := by
  have hfails : policy.FailsWith fun c => reports c = true := failsWith (by decide) rfl rfl
  refine hfails.lex (fun hend => ?_) h
  have hp : (view.core r).phase = .endOfConnectionError := hend.resolve_left nofun
  have hl := hr.legal he
  simp [Legal, hp] at hl

theorem play_inOrder {mem : Nat → UInt8} {S : Bytes} {ops : List (Op Empty)} (version : Version)
    (bodySize : Nat) (h : (session mem S).conforming (fresh version bodySize) ops = true) :
    ∃ s, (session mem S).play (fresh version bodySize) ops = .ok s ∧
      Session.Tracks view Legal S s ∧
      Session.InOrder view requestMessage (fun c => reports c = true) s := by
  refine Session.play_induction (lawful mem) ?_ ?_ ?_ (tracks_fresh version bodySize S)
    ⟨fun _ w hw => hw, nofun⟩ h
  · intro s r' ht ho he _ _ hout _
    exact ho.report (lawful mem) orderly reads (fails ht.sound he) ht he hout
  · intro s size _ ho _ _
    exact ⟨ho.running, ho.failed⟩
  · intro s c
    exact c.elim

end Request

namespace Response

theorem orderly : policy.Orderly where
  headers {f n f' p} h := by
    simp only [policy, onHeaders] at h
    split at h <;> cases h
    · exact .inr (.inr (.inl rfl))
    · exact .inr (.inr (.inl rfl))
    · exact .inl rfl
    · exact .inl rfl
    · exact .inr (.inr (.inr rfl))
    · split
      · exact .inl rfl
      · exact .inr (.inl rfl)
  messageEnd f := by
    simp only [policy]
    split
    · exact .inr (.inr rfl)
    · exact .inr (.inl rfl)
  trailersEnd _ := .inr rfl

theorem reads {s : Core Memory} (h : Legal s) : Reads responseMessage s := by
  refine ⟨fun hp => ?_, fun _ => rfl⟩
  simp [Legal, hp] at h

theorem fails {b : Bool} {s : Core Memory} {w : Bytes} {c : Code}
    (h : policy.lex b s w = .fail c) : reports c = true := by
  have hfails : policy.FailsWith fun c => reports c = true := failsWith (by decide) rfl rfl
  exact hfails.lex (fun _ => rfl) h

theorem play_inOrder {mem : Nat → UInt8} {S : Bytes} {ops : List (Op Call)} (bodySize : Nat)
    (h : (session mem S).conforming (fresh bodySize) ops = true) :
    ∃ s, (session mem S).play (fresh bodySize) ops = .ok s ∧ Session.Tracks view Legal S s ∧
      Session.InOrder view responseMessage (fun c => reports c = true) s := by
  refine Session.play_induction (lawful mem) ?_ ?_ ?_ (tracks_fresh bodySize S)
    ⟨fun _ w hw => hw, nofun⟩ h
  · intro s r' ht ho he _ _ hout _
    exact ho.report (lawful mem) orderly reads fails ht he hout
  · intro s size _ ho _ _
    exact ⟨ho.running, ho.failed⟩
  · intro s c r' ht ho hc _ hcall
    cases c with
    | puteof =>
      cases hcall
      exact ⟨ho.running, ho.failed⟩
    | setMethod method =>
      -- the number of body bytes may change, but nothing that follows depends on it yet
      have hcode : s.reader.code = .statusCode := by simpa [api] using hc
      have hp : s.reader.state.phase = .spAfterStatusCode := (ht.sound.status hcode).1
      have hcall : setMethod s.reader method = .ok r' := hcall
      rw [setMethod_eq method ht.sound hcode] at hcall
      cases hcall
      refine ⟨fun he w hw => ho.running he w ?_, ho.failed⟩
      simpa only [future, View.core, view, hp, Session.note] using hw

end Response

/-- However a client drives a reader, whatever the stream holds, the tokens it reports are the
beginning of a sequence of messages, and nothing follows a fatal error. -/
theorem token_order (mem : Nat → UInt8) (S : Bytes) :
    (∀ version bodySize ops,
      (Request.session mem S).conforming (Request.fresh version bodySize) ops = true →
      ∃ s, (Request.session mem S).play (Request.fresh version bodySize) ops = .ok s ∧
        Ordered requestMessage s.emitted ∧
        (∀ e ∈ s.emitted, Request.reports e.2.code = true) ∧
        (s.reader.code.isFatal = true → Request.next mem s.reader = .ok s.reader)) ∧
    (∀ bodySize ops, (Response.session mem S).conforming (Response.fresh bodySize) ops = true →
      ∃ s, (Response.session mem S).play (Response.fresh bodySize) ops = .ok s ∧
        Ordered responseMessage s.emitted ∧
        (∀ e ∈ s.emitted, Response.reports e.2.code = true) ∧
        (s.reader.code.isFatal = true → Response.next mem s.reader = .ok s.reader)) := by
  constructor
  · intro version bodySize ops h
    obtain ⟨s, hplay, ht, ho⟩ := Request.play_inOrder version bodySize h
    exact ⟨s, hplay, ho.ordered, ho.reports request_le_wordsOf rfl rfl, fun hf =>
      (Request.lawful mem).implements.errored (ht.sound.fatal.mp hf)⟩
  · intro bodySize ops h
    obtain ⟨s, hplay, ht, ho⟩ := Response.play_inOrder bodySize h
    exact ⟨s, hplay, ho.ordered, ho.reports response_le_wordsOf rfl rfl, fun hf =>
      (Response.lawful mem).implements.errored (ht.sound.fatal.mp hf)⟩

/-- A request followed by garbage, and a response whose end is announced within its head. -/
theorem token_order_malformed :
    (∃ s, (Request.session (fun _ => 0) (ascii "GET / HTTP/1.0\n\n \n")).play
        (Request.fresh .http10 0) (.setBuffer 18 :: List.replicate 12 .next) = .ok s ∧
      Ordered requestMessage s.emitted ∧ (∀ e ∈ s.emitted, Request.reports e.2.code = true) ∧
      (s.reader.code.isFatal = true → Request.next (fun _ => 0) s.reader = .ok s.reader)) ∧
    (∃ s, (Response.session (fun _ => 0) (ascii "HTTP/1.1 200 OK\r\n")).play (Response.fresh 0)
        (List.flatten [[.setBuffer 17, .call .puteof], List.replicate 3 .next,
          [.call (.setMethod (ascii "GET"))], List.replicate 5 .next]) = .ok s ∧
      Ordered responseMessage s.emitted ∧ (∀ e ∈ s.emitted, Response.reports e.2.code = true) ∧
      (s.reader.code.isFatal = true → Response.next (fun _ => 0) s.reader = .ok s.reader)) :=
  ⟨(token_order (fun _ => 0) (ascii "GET / HTTP/1.0\n\n \n")).1 .http10 0 _ (by decide +kernel),
    (token_order (fun _ => 0) (ascii "HTTP/1.1 200 OK\r\n")).2 0 _ (by decide +kernel)⟩

end BoostHttp
