import BoostHttp.Clients
import BoostHttp.Grammar

/-!
# Twins — two readers side by side

Two readers that are driven by one schedule over the same bytes report the same tokens as long as
what they remember corresponds.  What corresponds is a parameter: a `Matching` of the memories of two
framing policies, which may be those of one reader twice.  `Mirrors` lists what has to be checked of
the policies; `play_twins` is what follows for every schedule.
-/

open Incremental

namespace BoostHttp

/-! ## Corresponding lexers -/

def Phase.isEarly : Phase → Bool
  | .method | .spAfterMethod | .requestTarget | .staticStrAfterTarget | .requestVersion
  | .versionStaticStr | .responseVersion => true
  | _ => false

def Phase.isSized : Phase → Bool
  | .chunkExt | .crlfAfterChunkExt | .chunkData => true
  | _ => false

variable {φ ψ : Type}

/-- Which memories correspond, before and after the version is known, and with which of them the
number of body bytes matters. -/
structure Matching (φ ψ : Type) where
  framing : Bool → φ → ψ → Prop
  counted : φ → Prop

structure Matching.Related (M : Matching φ ψ) (c : Core φ) (d : Core ψ) : Prop where
  phase : c.phase = d.phase
  framing : M.framing c.phase.isEarly c.framing d.framing
  bodySize : M.counted c.framing ∨ c.phase.isSized = true → c.bodySize = d.bodySize

/-- Corresponding answers of two lexers; `Stop` says which others are put up with. -/
inductive Alike (M : Matching φ ψ) (Stop : Out (Core φ) Code → Out (Core ψ) Code → Prop) :
    Out (Core φ) Code → Out (Core ψ) Code → Prop
  | need {c : Core φ} {d : Core ψ} : M.Related c d → Alike M Stop (.need c) (.need d)
  | emit {c : Core φ} {d : Core ψ} {n : Nat} {code : Code} : M.Related c d →
      Alike M Stop (.emit c n code) (.emit d n code)
  | fail (code : Code) : Alike M Stop (.fail code) (.fail code)
  | stop {o : Out (Core φ) Code} {o' : Out (Core ψ) Code} : Stop o o' → Alike M Stop o o'

def Phase.isJudged : Phase → Bool
  | .fieldName | .fieldValue | .crlfAfterHeaders | .crlfAfterTrailers => true
  | _ => false

variable {M : Matching φ ψ} {P : Policy φ} {Q : Policy ψ} {L : Core φ → Prop} {K : Core ψ → Prop}
  {E : Prop} {Stop : Core φ → Out (Core φ) Code → Out (Core ψ) Code → Prop} {c : Core φ} {d : Core ψ}
  {b : Bool} {w : Bytes} {n : Nat}

/-- What two policies have to have in common; `E` says that the end of the stream may be announced. -/
structure Mirrors (M : Matching φ ψ) (P : Policy φ) (Q : Policy ψ) (L : Core φ → Prop)
    (K : Core ψ → Prop) (E : Prop)
    (Stop : Core φ → Out (Core φ) Code → Out (Core ψ) Code → Prop) : Prop where
  legal : ∀ {c q}, L c → c.phase.Resolves q → L (c.goto q)
  legal' : ∀ {d q}, K d → d.phase.Resolves q → K (d.goto q)
  version : ∀ {f g} (x : UInt8), M.framing true f g →
    M.framing false (P.onVersion f x) (Q.onVersion g x) ∧
      (M.counted (P.onVersion f x) → M.counted f)
  methodKnown : ∀ {e f g}, M.framing e f g → P.methodKnown f = Q.methodKnown g
  waits : ∀ {c d}, E → M.Related c d → P.waits c.framing c.bodySize = Q.waits d.framing d.bodySize
  body : ∀ {c}, L c → c.phase = .body → M.counted c.framing
  accept : ∀ {c d} (w : Bytes) (n : Nat), M.Related c d → L c → K d → c.phase.isJudged = true →
    Alike M (Stop c) (P.accepted c w n) (Q.accepted d w n)
  message : ∀ {c d}, M.Related c d → L c → K d → c.phase = .endOfMessage →
    Alike M (Stop c) (P.lex false c []) (Q.lex false d [])

theorem Matching.Related.goto (h : M.Related c d) {q : Phase} (he : q.isEarly = c.phase.isEarly)
    (hs : q.isSized = true → c.phase.isSized = true) : M.Related (c.goto q) (d.goto q) := by
  refine ⟨rfl, ?_, ?_⟩
  · change M.framing q.isEarly c.framing d.framing
    rw [he]
    exact h.framing
  · rintro (hc | hq)
    · exact h.bodySize (.inl hc)
    · exact h.bodySize (.inr (hs hq))

theorem Matching.Related.resolves (h : M.Related c d) {q : Phase} (hq : c.phase.Resolves q) :
    M.Related (c.goto q) (d.goto q) := by
  generalize hp : c.phase = p at hq
  cases hq <;> exact h.goto (by rw [hp]; try rfl) (by rw [hp]; exact id)

theorem follows_flags {p q : Phase} {code : Code} (h : p.follows = some (q, code)) :
    q.isEarly = p.isEarly ∧ (q.isSized = true → p.isSized = true) := by
  cases p <;> cases h <;> exact ⟨rfl, fun h => h⟩

/-- What is made of a lexeme. -/
theorem Mirrors.accepted (hm : Mirrors M P Q L K E Stop) (h : M.Related c d) (hl : L c) (hk : K d)
    (w : Bytes) (n : Nat) : Alike M (Stop c) (P.accepted c w n) (Q.accepted d w n) := by
  cases hj : c.phase.isJudged with
  | true => exact hm.accept w n h hl hk hj
  | false =>
    cases hf : c.phase.follows with
    | some r =>
      obtain ⟨he, hs⟩ := follows_flags hf
      have hf' : d.phase.follows = some (r.1, r.2) := by rw [← h.phase, hf]
      rw [Policy.accepted, Policy.accepted, accept_follows hf, accept_follows hf']
      exact .emit (h.goto he hs)
    | none =>
      obtain ⟨p, f, m⟩ := c
      obtain ⟨_, g, k⟩ := d
      obtain ⟨rfl, hfr, hsize⟩ := h
      unfold Policy.accepted Policy.accept
      cases p <;> simp only [Phase.isJudged, Phase.follows, reduceCtorEq] at hj hf ⊢
      case requestVersion | responseVersion =>
        obtain ⟨hversion, hcounted⟩ := hm.version ((w.take n).headD 0) hfr
        refine .emit ⟨rfl, hversion, ?_⟩
        -- the version does not start a count, so a count there was one before
        rintro (hc | hc)
        · exact hsize (.inl (hcounted hc))
        · cases hc
      case chunkSize =>
        -- the sizes agree behind a chunk size, whatever they were before
        unfold Syntax.chunkSizeDecode
        obtain ⟨x, h₁, h₂⟩ | ⟨res, x, x', hres, h₁, h₂⟩ :=
          Syntax.decode_alike 64 Syntax.hexadecimal (w.take n) m k
        · simp only [h₁, h₂]
          exact .emit ⟨rfl, hfr, fun _ => rfl⟩
        · simp only [h₁, h₂]
          cases res with
          | ok => exact absurd rfl hres
          | invalid | overflow => exact .fail _
      case crlfAfterChunkExt =>
        -- here the sizes decide what follows, and they agree
        have hmk : m = k := hsize (.inr rfl)
        rw [hmk]
        by_cases hk₀ : k = 0
        · rw [if_neg (by simpa using hk₀), if_neg (by simpa using hk₀)]
          exact .emit ⟨rfl, hfr, fun _ => rfl⟩
        · rw [if_pos hk₀, if_pos hk₀]
          exact .emit ⟨rfl, hfr, fun _ => rfl⟩
      all_goals exact .fail _

theorem Mirrors.scanned (hm : Mirrors M P Q L K E Stop) (h : M.Related c d) (hl : L c) (hk : K d)
    (w : Bytes) : Alike M (Stop c) (P.scanned c w) (Q.scanned d w) := by
  have hsplit := hm.accepted h hl hk w
  unfold Policy.accepted at hsplit
  unfold Policy.scanned
  rw [← h.phase, ← hm.methodKnown h.framing]
  split
  · exact .fail _
  · cases c.phase.scan w with
    | need => exact .need h
    | bad => exact .fail _
    | ok n => exact hsplit n

theorem Matching.Related.deliver (h : M.Related c d) {data done : Phase} (hb : BodyPhases data done)
    (hp : c.phase = data) (hsize : c.bodySize = d.bodySize) (k : Nat) :
    M.Related (c.deliver done k) (d.deliver done k) := by
  have hframing : M.framing false c.framing d.framing := by
    have hearly : c.phase.isEarly = false := by
      rcases hb with ⟨rfl, -⟩ | ⟨rfl, -⟩ <;> rw [hp] <;> rfl
    rw [← hearly]
    exact h.framing
  refine ⟨?_, ?_, fun _ => ?_⟩
  · change (if c.bodySize - k = 0 then done else c.phase) = if d.bodySize - k = 0 then done else d.phase
    rw [hsize, h.phase]
  · change M.framing (if c.bodySize - k = 0 then done else c.phase).isEarly c.framing d.framing
    rw [hp]
    rcases hb with ⟨rfl, rfl⟩ | ⟨rfl, rfl⟩ <;> split <;> exact hframing
  · change c.bodySize - k = d.bodySize - k
    rw [hsize]

/-- The token at the beginning of an input. -/
theorem Mirrors.lexeme (hm : Mirrors M P Q L K E Stop) (h : M.Related c d) (hl : L c) (hk : K d)
    (x : UInt8) (w : Bytes) : Alike M (Stop c) (P.lexeme c x w) (Q.lexeme d x w) := by
  cases he : c.phase.isElastic with
  | false =>
    rw [lexeme_of_rigid he, lexeme_of_rigid (h.phase ▸ he)]
    exact hm.scanned h hl hk (x :: w)
  | true =>
    -- the elastic phases come in pairs, one for the message and one for the chunk or the trailer
    have hbody : ∀ {data done}, BodyPhases data done → c.phase = data → c.bodySize = d.bodySize →
        Alike M (Stop c) (P.lexeme c x w) (Q.lexeme d x w) := by
      intro data done hb hp hsize
      rw [lexeme_body hb hp, lexeme_body hb (h.phase ▸ hp), lexBody, lexBody, ← hsize]
      exact .emit (h.deliver hb hp hsize _)
    have hcolon : ∀ {col ows value}, ValuePhases col ows value → c.phase = col →
        Alike M (Stop c) (P.lexeme c x w) (Q.lexeme d x w) := by
      intro col ows value hv hp
      rw [lexeme_colon hv hp, lexeme_colon hv (h.phase ▸ hp), lexColon, lexColon]
      split
      · exact .fail _
      · refine .emit (h.goto ?_ ?_) <;> rw [hp] <;>
          rcases hv with ⟨rfl, rfl, rfl⟩ | ⟨rfl, rfl, rfl⟩ <;> split <;> first | rfl | exact id
    have hows : ∀ {col ows value}, ValuePhases col ows value → c.phase = ows →
        Alike M (Stop c) (P.lexeme c x w) (Q.lexeme d x w) := by
      intro col ows value hv hp
      rw [lexeme_ows hv hp, lexeme_ows hv (h.phase ▸ hp)]
      exact .emit h
    cases hp : c.phase <;> rw [hp] at he
    case colon => exact hcolon (.inl ⟨rfl, rfl, rfl⟩) hp
    case trailerColon => exact hcolon (.inr ⟨rfl, rfl, rfl⟩) hp
    case owsAfterColon => exact hows (.inl ⟨rfl, rfl, rfl⟩) hp
    case owsAfterTrailerColon => exact hows (.inr ⟨rfl, rfl, rfl⟩) hp
    case body => exact hbody (.inl ⟨rfl, rfl⟩) hp (h.bodySize (.inl (hm.body hl hp)))
    case chunkData => exact hbody (.inr ⟨rfl, rfl⟩) hp (h.bodySize (.inr (by rw [hp]; rfl)))
    case unsafeBody =>
      unfold Policy.lexeme
      rw [← h.phase, hp]
      exact .emit h
    all_goals cases he

/-- The two lexers on the same input. -/
theorem Mirrors.lex (hm : Mirrors M P Q L K E Stop) (h : M.Related c d) (hl : L c) (hk : K d)
    (hb : b = true → E) (w : Bytes) :
    ∃ q, c.phase.Resolves q ∧ Alike M (Stop (c.goto q)) (P.lex b c w) (Q.lex b d w) := by
  cases hz : c.phase.isZeroSized with
  | true =>
    refine ⟨c.phase, .refl _, ?_⟩
    rw [Core.goto_self rfl]
    rw [lex_zeroSized hz b false w [], lex_zeroSized (h.phase ▸ hz) b false w []]
    cases hp : c.phase <;> rw [hp] at hz
    case endOfBody =>
      unfold Policy.lex
      rw [← h.phase, hp]
      exact .emit (h.goto (by rw [hp]; rfl) nofun)
    case endOfMessage => exact hm.message h hl hk hp
    case endOfConnectionError =>
      unfold Policy.lex
      rw [← h.phase, hp]
      exact .fail _
    all_goals cases hz
  | false =>
    cases w with
    | nil =>
      refine ⟨c.phase, .refl _, ?_⟩
      rw [Core.goto_self rfl]
      rw [lex_nil hz, lex_nil (h.phase ▸ hz)]
      split
      -- at the end of the connection both wait, both end the body, or both fail
      · rename_i hb'
        unfold Policy.atEof
        rw [hm.waits (hb hb') h, ← h.phase]
        split
        · exact .need h
        · split
          · rename_i hp
            exact .emit (h.goto (by rw [hp]; rfl) nofun)
          · exact .fail _
      · exact .need h
    | cons x w =>
      -- the byte in view may resolve the phase first; both resolve it alike
      have hq := Phase.resolves_resolve c.phase x
      refine ⟨c.phase.resolve x, hq, ?_⟩
      rw [lex_cons hz, lex_cons (h.phase ▸ hz), ← h.phase]
      exact hm.lexeme (h.resolves hq) (hm.legal hl hq) (hm.legal' hk (h.phase ▸ hq)) x w

/-! ## Corresponding readers -/

variable {σ β ν σ' β' ν' κ : Type} {V : View σ β ν φ} {W : View σ' β' ν' ψ} {r r₁ : Reader σ β ν}
  {r' r₁' : Reader σ' β' ν'} {mem : Nat → UInt8}

structure Twins (M : Matching φ ψ) (V : View σ β ν φ) (W : View σ' β' ν' ψ) (E : Prop)
    (r : Reader σ β ν) (r' : Reader σ' β' ν') : Prop where
  code : r.code = r'.code
  tokenSize : r.tokenSize = r'.tokenSize
  restView : r.restView = r'.restView
  eof : V.eof r.connection = W.eof r'.connection
  closes : V.eof r.connection = true → E
  phase : V.phase r.state = W.phase r'.state
  core : V.phase r.state ≠ .errored → M.Related (V.core r) (W.core r')

theorem token_congr (mem : Nat → UInt8) (hcode : r.code = r'.code) (hsize : r.tokenSize = r'.tokenSize)
    (hrest : r.restView = r'.restView) (hbody : r.code = .chunkExt → r.bodySize = r'.bodySize) :
    r.token mem = r'.token mem := by
  have hslice : r.slice = r'.slice := by rw [Reader.slice, Reader.slice, hrest, hsize]
  have hvalue : r.value mem = r'.value mem := by
    unfold Reader.value
    rw [← hcode, hslice, hrest]
    cases hc : r.code <;> try rfl
    rw [hbody hc]
  rw [Reader.token, Reader.token, hcode, hsize, hvalue]

theorem Twins.consume (h : Twins M V W E r r') :
    r.consume.restView = r'.consume.restView ∧ r.consume.tokenSize = r'.consume.tokenSize := by
  by_cases hc : r.code = .errorInsufficientData
  · rw [consume_of_insufficient hc, consume_of_insufficient (h.code ▸ hc)]
    exact ⟨h.restView, h.tokenSize⟩
  · rw [consume_of_token hc, consume_of_token (h.code ▸ hc)]
    refine ⟨?_, rfl⟩
    change r.ibuffer.drop (r.idx + r.tokenSize) = r'.ibuffer.drop (r'.idx + r'.tokenSize)
    have hrest : r.ibuffer.drop r.idx = r'.ibuffer.drop r'.idx := h.restView
    rw [← List.drop_drop, ← List.drop_drop, hrest, h.tokenSize]

/-- Extensions are reported with the chunk size. -/
theorem phase_of_chunkExt {s' : Core φ} (h : P.lex b c w = .emit s' n .chunkExt) :
    s'.phase = .crlfAfterChunkExt := by
  obtain ⟨q, -, he⟩ := emits_of_lex h
  generalize c.goto q = d at he
  generalize w.take n = raw at he
  generalize hcode : Code.chunkExt = code at he
  cases he with
  | lexeme _ _ _ hacc =>
    subst hcode
    unfold Policy.accept at hacc
    cases hp : d.phase <;> rw [hp] at hacc <;> simp only at hacc <;>
      first
      | (cases hacc; done)
      | (cases hacc; rfl)
      | (split at hacc <;> cases hacc)
  | _ => cases hcode

/-- The two readers after a call of `next()` on readers that stand before the same bytes. -/
theorem Mirrors.settles (hm : Mirrors M P Q L K E Stop) (hP : P.Keeps L) (hl : L (V.core r))
    (hk : K (W.core r')) (hcore : M.Related (V.core r) (W.core r'))
    (hrest : r.consume.restView = r'.consume.restView)
    (hsize : r.consume.tokenSize = r'.consume.tokenSize)
    (heof : V.eof r.connection = W.eof r'.connection) (hcloses : V.eof r.connection = true → E)
    (hout : Settles V r.consume (P.lex (V.eof r.connection) (V.core r) r.consume.restView) r₁)
    (hout' : Settles W r'.consume (Q.lex (W.eof r'.connection) (W.core r') r'.consume.restView) r₁') :
    (Twins M V W E r₁ r₁' ∧ r₁.token mem = r₁'.token mem) ∨
      ∃ q, (V.core r).phase.Resolves q ∧ Stop ((V.core r).goto q)
        (P.lex (V.eof r.connection) (V.core r) r.consume.restView)
        (Q.lex (W.eof r'.connection) (W.core r') r'.consume.restView) := by
  obtain ⟨q, hq, halike⟩ := hm.lex hcore hl hk hcloses r.consume.restView
  -- neither step moves the buffer or the index, so the two still see the same bytes
  have hrest₁ : r₁.restView = r₁'.restView := by
    rw [hout.restView, hout'.restView, hrest]
  have heof₁ : V.eof r₁.connection = W.eof r₁'.connection := by
    rw [hout.eof, hout'.eof, consume_connection, consume_connection, heof]
  have hcloses₁ : V.eof r₁.connection = true → E := by
    rw [hout.eof, consume_connection]
    exact hcloses
  rw [← heof, ← hrest] at hout' ⊢
  generalize hlex : P.lex (V.eof r.connection) (V.core r) r.consume.restView = o at hout halike ⊢
  generalize Q.lex (V.eof r.connection) (W.core r') r.consume.restView = o' at hout' halike ⊢
  cases halike with
  | stop h => exact .inr ⟨q, hq, h⟩
  | need h =>
    obtain ⟨hc, hcode, hts⟩ := hout.outcome
    obtain ⟨hd, hcode', hts'⟩ := hout'.outcome
    rw [← hc, ← hd] at h
    have hcodes : r₁.code = r₁'.code := by rw [hcode, hcode']
    have hsizes : r₁.tokenSize = r₁'.tokenSize := by
      rw [hts, hts', ← hc, ← hd, h.phase, hrest]
    refine .inl ⟨⟨hcodes, hsizes, hrest₁, heof₁, hcloses₁, h.phase, fun _ => h⟩, ?_⟩
    exact token_congr mem hcodes hsizes hrest₁ (by rw [hcode]; simp)
  | emit h =>
    obtain ⟨hc, hcode, hts⟩ := hout.outcome
    obtain ⟨hd, hcode', hts'⟩ := hout'.outcome
    have hcodes : r₁.code = r₁'.code := by rw [hcode, hcode']
    have hsizes : r₁.tokenSize = r₁'.tokenSize := by rw [hts, hts']
    -- the value of an extension shows `body_size`, which the two share behind a chunk size
    have hbody : r₁.code = .chunkExt → r₁.bodySize = r₁'.bodySize := by
      intro hext
      rw [hcode] at hext
      rw [hext] at hlex
      have hsized := h.bodySize (.inr (by rw [phase_of_chunkExt hlex]; rfl))
      rwa [← hc, ← hd] at hsized
    rw [← hc, ← hd] at h
    exact .inl ⟨⟨hcodes, hsizes, hrest₁, heof₁, hcloses₁, h.phase, fun _ => h⟩,
      token_congr mem hcodes hsizes hrest₁ hbody⟩
  | fail code =>
    obtain ⟨hp, hcode⟩ := hout.outcome
    obtain ⟨hp', hcode'⟩ := hout'.outcome
    have hcodes : r₁.code = r₁'.code := by rw [hcode, hcode']
    have hphase : V.phase r.state = W.phase r'.state := hcore.phase
    have hsizes : r₁.tokenSize = r₁'.tokenSize := by
      rw [hout.failed code rfl, hout'.failed code rfl, consume_state, consume_state, hphase, hrest,
        hsize]
    -- a failure is fatal, and an extension is not
    have hext : r₁.code ≠ .chunkExt := by
      intro hext
      have hfatal := hP.fail hl hlex
      rw [← hcode, hext] at hfatal
      cases hfatal
    refine .inl ⟨⟨hcodes, hsizes, hrest₁, heof₁, hcloses₁, hp.trans hp'.symm,
      fun h => absurd hp h⟩, ?_⟩
    exact token_congr mem hcodes hsizes hrest₁ fun h => absurd h hext

/-! ## Corresponding sessions -/

namespace Session

variable {A : Api σ β ν κ} {B : Api σ' β' ν' κ} {S : Bytes} {k : Nat} {pre : List (Nat × Token)}
  {I : Prop} {s : Session σ β ν κ} {t : Session σ' β' ν' κ} {ops : List (Op κ)}

def shift (k : Nat) (log : List (Nat × Token)) : List (Nat × Token) :=
  log.map fun e => (k + e.1, e.2)

theorem shift_append (k : Nat) (log log' : List (Nat × Token)) :
    shift k (log ++ log') = shift k log ++ shift k log' := List.map_append

/-- Two sessions with twin readers, the second over the stream from offset `k` on.  Since then they
have reported the same tokens; `I` says that they have had the same buffers too. -/
structure Paired (M : Matching φ ψ) (V : View σ β ν φ) (W : View σ' β' ν' ψ) (L : Core φ → Prop)
    (K : Core ψ → Prop) (E I : Prop) (S : Bytes) (k : Nat) (pre : List (Nat × Token))
    (s : Session σ β ν κ) (t : Session σ' β' ν' κ) : Prop where
  twins : Twins M V W E s.reader t.reader
  tracks : Tracks V L S s
  tracks' : Tracks W K (S.drop k) t
  consumed : s.consumed = k + t.consumed
  emitted : s.emitted = pre ++ shift k t.emitted
  since : I → s.sinceBuffer = t.sinceBuffer

theorem Paired.pass_consumed (h : Paired M V W L K E I S k pre s t) :
    s.pass.consumed = k + t.pass.consumed := by
  unfold Session.pass
  rw [← h.twins.code]
  split
  · exact h.consumed
  · change s.consumed + s.reader.tokenSize = k + (t.consumed + t.reader.tokenSize)
    rw [h.consumed, h.twins.tokenSize, Nat.add_assoc]

theorem Paired.pass_since (h : Paired M V W L K E I S k pre s t) (hI : I) :
    s.pass.sinceBuffer = t.pass.sinceBuffer := by
  unfold Session.pass
  rw [← h.twins.code]
  split
  · exact h.since hI
  · change s.sinceBuffer + s.reader.tokenSize = t.sinceBuffer + t.reader.tokenSize
    rw [h.since hI, h.twins.tokenSize]

def Parted (V : View σ β ν φ) (W : View σ' β' ν' ψ)
    (Stop : Core φ → Out (Core φ) Code → Out (Core ψ) Code → Prop) (c : Core φ) (r : Reader σ β ν)
    (r' : Reader σ' β' ν') : Prop :=
  ∃ q x x' o o', c.phase.Resolves q ∧ Stop (c.goto q) o o' ∧ Settles V x o r ∧ Settles W x' o' r'

theorem not_parted {c : Core φ} {r : Reader σ β ν} {r' : Reader σ' β' ν'} :
    ¬ Parted V W (fun _ _ _ => False) c r r' := by
  rintro ⟨_, _, _, _, _, _, hstop, _⟩
  exact hstop

/-- Both sessions call `next()`, before the same bytes of the stream. -/
theorem pull_paired (hA : A.Lawful V P L) (hB : B.Lawful W Q K) (hm : Mirrors M P Q L K E Stop)
    (ht : Tracks V L S s) (ht' : Tracks W K (S.drop k) t) (he : V.phase s.reader.state ≠ .errored)
    (hcore : M.Related (V.core s.reader) (W.core t.reader))
    (hrest : s.reader.consume.restView = t.reader.consume.restView)
    (hsize : s.reader.consume.tokenSize = t.reader.consume.tokenSize)
    (heof : V.eof s.reader.connection = W.eof t.reader.connection)
    (hcloses : V.eof s.reader.connection = true → E)
    (hcons : s.pass.consumed = k + t.pass.consumed) (hlog : s.emitted = pre ++ shift k t.emitted)
    (hsince : I → s.pass.sinceBuffer = t.pass.sinceBuffer) :
    ∃ r r', s.pull A mem = .ok (s.pass.report mem r) ∧ t.pull B mem = .ok (t.pass.report mem r') ∧
      (Paired M V W L K E I S k pre (s.pass.report mem r) (t.pass.report mem r') ∨
        Parted V W Stop (V.core s.reader) r r') := by
  have he' : W.phase t.reader.state ≠ .errored := by
    rw [← show V.phase s.reader.state = W.phase t.reader.state from hcore.phase]
    exact he
  -- neither reader is in error, so both calls settle what the policies say
  obtain ⟨r, -, hpull, hout, htracks⟩ := pull_ok mem hA ht he
  obtain ⟨r', -, hpull', hout', htracks'⟩ := pull_ok mem hB ht' he'
  refine ⟨r, r', hpull, hpull', ?_⟩
  obtain ⟨htwins, htoken⟩ | ⟨q, hq, hstop⟩ := hm.settles hA.implements.keeps
    (ht.sound.legal he) (ht'.sound.legal he') hcore hrest hsize heof hcloses hout hout'
  · refine .inl ⟨htwins, htracks, htracks', hcons, ?_, hsince⟩
    -- the two logs grow by the same token, `k` bytes apart
    change s.pass.emitted ++ [(s.pass.consumed, r.token mem)]
      = pre ++ shift k (t.pass.emitted ++ [(t.pass.consumed, r'.token mem)])
    rw [pass_emitted, pass_emitted, hlog, hcons, htoken, shift_append, List.append_assoc]
    rfl
  · exact .inr ⟨q, _, _, _, _, hq, hstop, hout, hout'⟩

structure Parts (V : View σ β ν φ) (W : View σ' β' ν' ψ) (mem : Nat → UInt8)
    (Stop : Core φ → Out (Core φ) Code → Out (Core ψ) Code → Prop) (k : Nat) (s s' : Session σ β ν κ)
    (t t' : Session σ' β' ν' κ) : Prop where
  parted : Parted V W Stop (V.core s.reader) s'.reader t'.reader
  emitted : ∃ o, s'.emitted = s.emitted ++ [(k + o, s'.reader.token mem)] ∧
    t'.emitted = t.emitted ++ [(o, t'.reader.token mem)]

theorem Paired.pull (hA : A.Lawful V P L) (hB : B.Lawful W Q K) (hm : Mirrors M P Q L K E Stop)
    (h : Paired M V W L K E I S k pre s t) :
    ∃ s' t', s.pull A mem = .ok s' ∧ t.pull B mem = .ok t' ∧
      (Parts V W mem Stop k s s' t t' ∨ Paired M V W L K E I S k pre s' t') := by
  by_cases he : V.phase s.reader.state = .errored
  · have he' : W.phase t.reader.state = .errored := h.twins.phase ▸ he
    exact ⟨s, t, pull_fatal hA he h.tracks.sound, pull_fatal hB he' h.tracks'.sound, .inr h⟩
  · obtain ⟨hrest, hsize⟩ := h.twins.consume
    obtain ⟨r, r', hs', ht', hpair | hparted⟩ := pull_paired hA hB hm h.tracks h.tracks' he
      (h.twins.core he) hrest hsize h.twins.eof h.twins.closes h.pass_consumed h.emitted
      h.pass_since
    · exact ⟨_, _, hs', ht', .inr hpair⟩
    · refine ⟨_, _, hs', ht', .inl ⟨hparted, t.pass.consumed, ?_, ?_⟩⟩
      · rw [← h.pass_consumed]
        exact congrArg (· ++ _) pass_emitted
      · exact congrArg (· ++ _) pass_emitted

/-- Both sessions get the same new buffer. -/
theorem Paired.rebase (h : Paired M V W L K E I S k pre s t) {size : Nat}
    (hp : permits A S s (.setBuffer size) = true) :
    permits B (S.drop k) t (.setBuffer size) = true ∧
      Paired M V W L K E I S k pre (s.rebase S size) (t.rebase (S.drop k) size) := by
  have hp' : permits B (S.drop k) t (.setBuffer size) = true := by
    simp only [permits, Bool.and_eq_true, decide_eq_true_eq] at hp ⊢
    have hcons := h.consumed
    rw [← h.twins.code, ← h.twins.tokenSize, List.length_drop]
    exact ⟨by omega, hp.2⟩
  refine ⟨hp', ⟨h.twins.code, h.twins.tokenSize, ?_, h.twins.eof, h.twins.closes, h.twins.phase,
    h.twins.core⟩, h.tracks.rebase hp, h.tracks'.rebase hp', h.consumed, h.emitted, fun _ => rfl⟩
  rw [rebase_restView, rebase_restView, List.drop_drop, h.consumed]

def CallsAlike (A : Api σ β ν κ) (B : Api σ' β' ν' κ) (M : Matching φ ψ) (V : View σ β ν φ)
    (W : View σ' β' ν' ψ) (L : Core φ → Prop) (K : Core ψ → Prop) (E : Prop) : Prop :=
  ∀ {c r r'}, Sound V L r → Sound W K r' → Twins M V W E r r' → A.callable c r = true →
    B.callable c r' = true ∧ ∀ {r₁ r₁'}, A.call c r = .ok r₁ → B.call c r' = .ok r₁' →
      Twins M V W E r₁ r₁'

/-- Under every schedule, corresponding sessions report the same up to what parts them. -/
theorem play_twins (hA : A.Lawful V P L) (hB : B.Lawful W Q K) (hm : Mirrors M P Q L K E Stop)
    (hcalls : CallsAlike A B M V W L K E) (h : Paired M V W L K E I S k pre s t)
    (hops : (system A mem S free).conforming s ops = true) :
    (∃ s' t', (system A mem S free).play s ops = .ok s' ∧
        (system B mem (S.drop k) free).play t ops = .ok t' ∧
        (system B mem (S.drop k) free).conforming t ops = true ∧
        Paired M V W L K E I S k pre s' t') ∨
      ∃ ops₁ o ops₂ s' t', ops = ops₁ ++ o :: ops₂ ∧ (system A mem S free).play s ops₁ = .ok s' ∧
        (system B mem (S.drop k) free).play t ops₁ = .ok t' ∧ Paired M V W L K E I S k pre s' t' ∧
        ∃ s'' t'', (system A mem S free).perform s' o = .ok s'' ∧
          (system B mem (S.drop k) free).perform t' o = .ok t'' ∧
          Parts V W mem Stop k s' s'' t' t'' := by
  refine Guarded.play_simulates ?_ h hops
  intro s t o h hp
  simp only [system, free, Bool.and_true] at hp
  simp only [system, free, Bool.and_true]
  -- one operation at a time: each keeps the sessions paired or parts them
  cases o with
  | next =>
    obtain ⟨s', t', hs', ht', hparts | hpair⟩ := h.pull hA hB hm
    · exact .inl ⟨s', t', hs', ht', hparts⟩
    · exact .inr ⟨rfl, s', t', hs', ht', hpair⟩
  | setBuffer size =>
    obtain ⟨hp', hpair⟩ := h.rebase (B := B) hp
    -- `set_buffer()` pulls only if the reader is waiting, and then both are
    by_cases hc : s.reader.code = .errorInsufficientData
    · simp only [refill_eq_pull hc, refill_eq_pull (h.twins.code ▸ hc)]
      obtain ⟨s', t', hs', ht', hparts | hpair⟩ := hpair.pull hA hB hm
      · exact .inl ⟨s', t', hs', ht', hparts.parted, hparts.emitted⟩
      · exact .inr ⟨hp', s', t', hs', ht', hpair⟩
    · simp only [refill_eq_ok hc, refill_eq_ok (h.twins.code ▸ hc)]
      exact .inr ⟨hp', _, _, rfl, rfl, hpair⟩
  | call c =>
    obtain ⟨hp', htwins⟩ := hcalls h.tracks.sound h.tracks'.sound h.twins hp
    obtain ⟨r, hcall, hs', ht⟩ := h.tracks.invoke hA hp
    obtain ⟨r', hcall', ht', ht''⟩ := h.tracks'.invoke hB hp'
    exact .inr ⟨hp', _, _, hs', ht', htwins hcall hcall', ht, ht'', h.consumed, h.emitted,
      h.since⟩

/-- Sessions that nothing parts stay paired to the end of the schedule. -/
theorem play_together (hA : A.Lawful V P L) (hB : B.Lawful W Q K)
    (hm : Mirrors M P Q L K E fun _ _ _ => False) (hcalls : CallsAlike A B M V W L K E)
    (h : Paired M V W L K E I S k pre s t) (hops : (system A mem S free).conforming s ops = true) :
    ∃ s' t', (system A mem S free).play s ops = .ok s' ∧
      (system B mem (S.drop k) free).play t ops = .ok t' ∧
      (system B mem (S.drop k) free).conforming t ops = true ∧
      Paired M V W L K E I S k pre s' t' := by
  obtain hend | ⟨_, _, _, _, _, _, _, _, _, _, _, _, _, hparts⟩ := play_twins hA hB hm hcalls h hops
  · exact hend
  · exact absurd hparts.parted not_parted

end Session

end BoostHttp
