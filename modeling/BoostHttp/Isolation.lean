import BoostHttp.Lifetime
import BoostHttp.Request.Acceptance
import BoostHttp.Response.Acceptance
import BoostHttp.Twins

/-!
# Isolation — nothing is left of a message when the next one begins

A reader that has reported the end of a message, or that was reset, still holds the version and the
sizes of what it read before.  It behaves like a new reader nevertheless, whatever these members
hold: each of them is written before it is read again.
-/

open Incremental

namespace BoostHttp

/-- The two places where a message ends. -/
theorem ends_of_endOfMessage {φ : Type} {P : Policy φ} {b : Bool} {c s' : Core φ} {w : Bytes} {n : Nat}
    (h : P.lex b c w = .emit s' n .endOfMessage) :
    (s'.framing, s'.phase) = P.onMessageEnd c.framing ∨
      (s'.framing, s'.phase) = P.onTrailersEnd c.framing := by
  obtain ⟨q, -, he⟩ := emits_of_lex h
  have hframing : (c.goto q).framing = c.framing := rfl
  rw [← hframing]
  generalize c.goto q = d at he
  generalize w.take n = raw at he
  generalize hcode : Code.endOfMessage = code at he
  cases he with
  | lexeme _ _ _ hacc =>
    subst hcode
    unfold Policy.accept at hacc
    -- of the phases that accept a lexeme, only the end of the trailers emits this code
    cases hp : d.phase <;> rw [hp] at hacc <;> simp only at hacc <;>
      first
      | (cases hacc; done)
      | (cases hacc; exact .inr rfl)
      | (split at hacc <;> cases hacc)
  | endOfMessage => exact .inl rfl
  | _ => cases hcode

/-! ## Policies that forget -/

/-- A framing policy that makes nothing of the number of body bytes it finds, unless `counted` says
that it was read from a field. -/
structure Forgetful {φ : Type} (P : Policy φ) (counted : φ → Prop) : Prop where
  fieldName : ∀ {f f' name}, P.onFieldName f name = .ok f' → counted f' → counted f
  fieldValue : ∀ {f m k} (value : Bytes), (counted f → m = k) →
    (∃ c, P.onFieldValue f m value = .error c ∧ P.onFieldValue f k value = .error c) ∨
      ∃ f' m' k', P.onFieldValue f m value = .ok (f', m') ∧ P.onFieldValue f k value = .ok (f', k') ∧
        (counted f' → m' = k')
  headers : ∀ {f m k}, (counted f → m = k) → P.onHeaders f m = P.onHeaders f k
  ofHeaders : ∀ {f m f' q}, P.onHeaders f m = .ok (f', q) →
    (counted f' → counted f) ∧ q.isEarly = false ∧ q.isSized = false

theorem Forgetful.accepted {φ : Type} {P : Policy φ} {M : Matching φ φ} {c d : Core φ}
    {Stop : Out (Core φ) Code → Out (Core φ) Code → Prop} (hP : Forgetful P M.counted)
    (hM : ∀ {f g}, M.framing false f g ↔ f = g) (h : M.Related c d) (hj : c.phase.isJudged = true)
    (ht : c.phase ≠ .crlfAfterTrailers) (w : Bytes) (n : Nat) :
    Alike M Stop (P.accepted c w n) (P.accepted d w n) := by
  obtain ⟨p, f, m⟩ := c
  obtain ⟨_, g, k⟩ := d
  obtain ⟨rfl, hfr, hsize⟩ := h
  -- the policies judge only what comes behind the start line, where the memories are the same
  have hlate : p.isEarly = false := by cases p <;> first | rfl | cases hj
  have hfg : f = g := by
    rw [show Phase.isEarly _ = false from hlate] at hfr
    exact hM.mp hfr
  subst hfg
  have hmk : M.counted f → m = k := fun h => hsize (.inl h)
  unfold Policy.accepted Policy.accept
  cases p <;> simp only [Phase.isJudged, reduceCtorEq] at hj ⊢
  case fieldName =>
    cases hn : P.onFieldName f (w.take n) with
    | error c => exact .fail c
    | ok f' =>
      refine .emit ⟨rfl, hM.mpr rfl, ?_⟩
      -- the body is counted behind the name only if it was counted before
      rintro (hc | hc)
      · exact hmk (hP.fieldName hn hc)
      · cases hc
  case fieldValue =>
    obtain ⟨c, h₁, h₂⟩ | ⟨f', m', k', h₁, h₂, heq⟩ := hP.fieldValue (Detail.trimTail (w.take n)) hmk
    · simp only [h₁, h₂]
      exact .fail c
    · simp only [h₁, h₂]
      refine .emit ⟨rfl, hM.mpr rfl, ?_⟩
      rintro (hc | hc)
      · exact heq hc
      · cases hc
  case crlfAfterHeaders =>
    rw [hP.headers hmk]
    cases hn : P.onHeaders f k with
    | error c => exact .fail c
    | ok r =>
      obtain ⟨hcounted, hearly, hsized⟩ := hP.ofHeaders hn
      refine .emit ⟨rfl, ?_, ?_⟩
      · change M.framing r.2.isEarly r.1 r.1
        rw [hearly]
        exact hM.mpr rfl
      · rintro (hc | hc)
        · exact hmk (hcounted hc)
        · rw [show r.2.isSized = false from hsized] at hc
          cases hc
  case crlfAfterTrailers => exact absurd rfl ht

/-! ## Starting over -/

namespace Session

variable {σ β ν κ φ : Type} {A : Api σ β ν κ} {V : View σ β ν φ} {P : Policy φ} {L : Core φ → Prop}
  {M : Matching φ φ} {E : Prop} {mem : Nat → UInt8} {S : Bytes} {s₀ t₀ : Session σ β ν κ}
  {ops : List (Op κ)}

/-- The session goes on from `s₀` like one that begins at `t₀` with what is left of the stream and
of the buffer. -/
theorem play_restarts (hA : A.Lawful V P L) (hm : Mirrors M P P L L E fun _ _ _ => False)
    (hcalls : CallsAlike A A M V V L L E) (hs₀ : Tracks V L S s₀)
    (he : V.phase s₀.reader.state ≠ .errored) (hcode : s₀.reader.code ≠ .errorInsufficientData)
    (ht₀ : Tracks V L (S.drop s₀.pass.consumed) t₀) (hcode' : t₀.reader.code = .errorInsufficientData)
    (hsize : t₀.reader.tokenSize = 0) (hconsumed : t₀.consumed = 0) (hlog : t₀.emitted = [])
    (hcore : M.Related (V.core s₀.reader) (V.core t₀.reader))
    (heof : V.eof s₀.reader.connection = V.eof t₀.reader.connection)
    (hcloses : V.eof s₀.reader.connection = true → E)
    (h : (system A mem S free).conforming s₀ (.next :: ops) = true) :
    ∃ s t, (system A mem S free).play s₀ (.next :: ops) = .ok s ∧
      (system A mem (S.drop s₀.pass.consumed) free).conforming t₀
        (.setBuffer s₀.reader.consume.restView.length :: ops) = true ∧
      (system A mem (S.drop s₀.pass.consumed) free).play t₀
        (.setBuffer s₀.reader.consume.restView.length :: ops) = .ok t ∧
      s.emitted = s₀.emitted ++ shift s₀.pass.consumed t.emitted := by
  let k := s₀.pass.consumed
  let size := s₀.reader.consume.restView.length
  have hwindow : s₀.reader.consume.restView <+: S.drop k := hs₀.pass_window he
  -- the second reader may be given what the first one still has in its buffer
  have hp : permits A (S.drop k) t₀ (.setBuffer size) = true := by
    have hle : size ≤ (S.drop k).length := hwindow.length_le
    simp only [permits, Bool.and_eq_true, decide_eq_true_eq]
    rw [hconsumed, hsize]
    exact ⟨by omega, by simp⟩
  -- the first call of `next()` in both
  let t₁ := t₀.rebase (S.drop k) size
  have hcode₁ : t₁.reader.code = .errorInsufficientData := hcode'
  have hpass : t₁.pass = t₁ := pass_of_isError (by rw [hcode₁]; rfl)
  have hrest : s₀.reader.consume.restView = t₁.reader.consume.restView := by
    rw [consume_of_insufficient hcode₁, rebase_restView, hconsumed, List.drop_zero]
    exact List.prefix_iff_eq_take.mp hwindow
  have hsizes : s₀.reader.consume.tokenSize = t₁.reader.consume.tokenSize := by
    rw [consume_of_insufficient hcode₁, consume_of_token hcode]
    exact hsize.symm
  have hcons : s₀.pass.consumed = k + t₁.pass.consumed := by
    rw [hpass]
    change k = k + t₀.consumed
    rw [hconsumed, Nat.add_zero]
  have hemitted : s₀.emitted = s₀.emitted ++ shift k t₁.emitted := by
    change s₀.emitted = s₀.emitted ++ shift k t₀.emitted
    rw [hlog]
    exact (List.append_nil _).symm
  obtain ⟨r, r', hpull, hpull', hpair | hparted⟩ := pull_paired (I := False) hA hA hm hs₀
    (ht₀.rebase hp) he hcore hrest hsizes heof hcloses hcons hemitted (by simp)
  · obtain ⟨-, hconf⟩ := Guarded.conforming_cons h
    have hfirst : (system A mem S free).perform s₀ .next = .ok _ := hpull
    have hfirst' : (system A mem (S.drop k) free).perform t₀ (.setBuffer size)
        = .ok (t₁.pass.report mem r') := by
      change t₀.refill A mem (S.drop k) size = .ok _
      rw [refill_eq_pull hcode']
      exact hpull'
    -- from here on the two are paired, and nothing parts them
    obtain ⟨s, t, hs, ht, hconf', hend⟩ := play_together hA hA hm hcalls hpair (hconf hpull)
    refine ⟨s, t, ?_, ?_, ?_, hend.emitted⟩
    · rw [Guarded.play, hfirst]
      exact hs
    · rw [Guarded.conforming, hfirst', Bool.and_eq_true]
      exact ⟨by simp only [system, free, Bool.and_true]; exact hp, hconf'⟩
    · rw [Guarded.play, hfirst']
      exact ht
  · exact absurd hparted not_parted

def Indistinguishable (s t : Session σ β ν κ) : Prop :=
  s.emitted = t.emitted ∧ s.reader.code = t.reader.code ∧ s.reader.tokenSize = t.reader.tokenSize ∧
    s.reader.parsedCount = t.reader.parsedCount ∧ s.reader.state = t.reader.state

/-- Readers that remember what corresponds behave in the same way under every schedule. -/
theorem play_alike (hA : A.Lawful V P L) (hm : Mirrors M P P L L E fun _ _ _ => False)
    (hcalls : CallsAlike A A M V V L L E) (hV : Function.Injective V.phase)
    (h : Paired M V V L L E True S 0 [] s₀ t₀)
    (hops : (system A mem S free).conforming s₀ ops = true) :
    ∃ s t, (system A mem S free).play s₀ ops = .ok s ∧
      (system A mem S free).conforming t₀ ops = true ∧
      (system A mem S free).play t₀ ops = .ok t ∧ Indistinguishable s t := by
  -- `k = 0` and an empty log in front: the two logs are the same
  obtain ⟨s, t, hs, ht, hconf, hend⟩ := play_together hA hA hm hcalls h hops
  refine ⟨s, t, hs, hconf, ht, ?_, hend.twins.code, hend.twins.tokenSize, ?_, hV hend.twins.phase⟩
  · have hemitted := hend.emitted
    rw [List.nil_append] at hemitted
    simpa [shift] using hemitted
  · rw [Reader.parsedCount, Reader.parsedCount, hend.tracks.parsed, hend.tracks'.parsed]
    exact hend.since trivial

end Session

/-! ## Requests -/

namespace Request

def matching : Matching Memory Memory where
  framing early f g := f.2 = g.2 ∧ (early = false → f.1 = g.1)
  counted f := f.2 = .contentLengthRead

variable {f g : Memory} {m k : Nat}

/-- A name does not make a body counted. -/
theorem counted_of_onFieldName {name : Bytes} {f' : Memory} (h : onFieldName f name = .ok f')
    (hc : f'.2 = .contentLengthRead) : f.2 = .contentLengthRead := by
  unfold onFieldName at h
  split at h
  · split at h <;> cases h <;> exact hc
  · split at h
    · split at h <;> cases h
      cases hc
    · split at h
      · split at h <;> cases h
        · cases hc
        · exact hc
      · cases h
        exact hc

/-- The number of body bytes before a field is forgotten, unless it was read from one. -/
theorem onFieldValue_congr (value : Bytes) (h : f.2 = .contentLengthRead → m = k) :
    (∃ c, onFieldValue f m value = .error c ∧ onFieldValue f k value = .error c) ∨
      ∃ f' m' k', onFieldValue f m value = .ok (f', m') ∧ onFieldValue f k value = .ok (f', k') ∧
        (f'.2 = .contentLengthRead → m' = k') := by
  unfold onFieldValue
  cases hb : f.2 with
  | readingContentLength =>
    unfold Syntax.contentLengthDecode
    -- the field sets the size anew, so the old ones are forgotten
    obtain ⟨n, h₁, h₂⟩ | ⟨res, n, n', hres, h₁, h₂⟩ :=
      Syntax.decode_alike 64 Syntax.decimal value m k
    · simp only [h₁, h₂]
      exact .inr ⟨_, n, n, rfl, rfl, fun _ => rfl⟩
    · simp only [h₁, h₂]
      cases res with
      | ok => exact absurd rfl hres
      | invalid | overflow => exact .inl ⟨_, rfl, rfl⟩
  | readingEncoding =>
    simp only
    cases Detail.decodeTransferEncoding value with
    | chunkedInvalid => exact .inl ⟨_, rfl, rfl⟩
    | chunkedNotFound | chunkedAtEnd => exact .inr ⟨_, m, k, rfl, rfl, nofun⟩
  | _ => exact .inr ⟨f, m, k, rfl, rfl, h⟩

theorem onHeaders_congr (h : f.2 = .contentLengthRead → m = k) : onHeaders f m = onHeaders f k := by
  unfold onHeaders
  cases hb : f.2 with
  | contentLengthRead => rw [h hb]
  | _ => rfl

theorem forgetful : Forgetful policy fun f => f.2 = .contentLengthRead where
  fieldName := counted_of_onFieldName
  fieldValue := onFieldValue_congr
  headers := onHeaders_congr
  ofHeaders {f m f' q} h := by
    change onHeaders f m = .ok (f', q) at h
    unfold onHeaders at h
    split at h
    · cases h
    · split at h <;> cases h
      · exact ⟨id, rfl, rfl⟩
      · exact ⟨id, rfl, rfl⟩
      · refine ⟨id, ?_⟩
        split <;> exact ⟨rfl, rfl⟩

/-- No member is read before it is written. -/
theorem mirrors : Mirrors matching policy policy Legal Legal True fun _ _ _ => False where
  legal := Legal.goto
  legal' := Legal.goto
  version _ h := ⟨⟨h.1, fun _ => rfl⟩, id⟩
  methodKnown _ := rfl
  waits _ _ := rfl
  body hl hp := by
    rw [Legal, hp] at hl
    exact hl.1
  accept {c d} w n h _ _ hj := by
    by_cases ht : c.phase = .crlfAfterTrailers
    · unfold Policy.accepted Policy.accept
      rw [← h.phase, ht]
      exact .emit ⟨rfl, ⟨rfl, by rintro ⟨⟩⟩, by rintro (h | h) <;> cases h⟩
    · refine Forgetful.accepted forgetful ?_ h hj ht w n
      intro f g
      exact ⟨fun hfg => Prod.ext (hfg.2 rfl) hfg.1, fun hfg => by subst hfg; exact ⟨rfl, fun _ => rfl⟩⟩
  message {c d} h _ _ hp := by
    unfold Policy.lex
    rw [← h.phase, hp]
    exact .emit ⟨rfl, ⟨rfl, by rintro ⟨⟩⟩, by rintro (h | h) <;> cases h⟩

theorem callsAlike (mem : Nat → UInt8) :
    Session.CallsAlike (api mem) (api mem) matching view view Legal Legal True :=
  fun {c} => c.elim

theorem paired_fresh (S : Bytes) (version version' : Version) (bodySize bodySize' : Nat) :
    Session.Paired matching view view Legal Legal True True S 0 []
      (fresh version bodySize) (fresh version' bodySize') := by
  refine ⟨⟨rfl, rfl, rfl, rfl, fun _ => trivial, rfl, fun _ => ⟨rfl, ⟨rfl, nofun⟩, nofun⟩⟩,
    tracks_fresh version bodySize S, tracks_fresh version' bodySize' S, rfl, rfl, fun _ => rfl⟩

/-- After the end of a message a request reader expects a method. -/
theorem state_of_endOfMessage {mem : Nat → UInt8} {S : Bytes} {version : Version} {bodySize : Nat}
    {ops : List (Op Empty)} (h : (session mem S).conforming (fresh version bodySize) ops = true) :
    ∃ s, (session mem S).play (fresh version bodySize) ops = .ok s ∧
      Session.Tracks view Legal S s ∧
      (s.reader.code = .endOfMessage → s.reader.state = .expectMethod) := by
  refine Session.play_induction (I := fun s => s.reader.code = .endOfMessage →
    s.reader.state = .expectMethod) (lawful mem) ?_ (fun _ hi _ _ => hi) (fun {_ c} => c.elim)
    (tracks_fresh version bodySize S) nofun h
  -- the invariant is about the last token, so only the step that reports it matters
  intro s r' ht _ he _ _ hout _ hcode
  have hcode : r'.code = .endOfMessage := hcode
  have hlex := hout.emit_of_code (lawful mem).implements.keeps (ht.sound.legal he)
    (by rw [hcode]; rfl)
  rw [hcode] at hlex
  have hphase : (view.core r').phase = .method := by
    rcases ends_of_endOfMessage hlex with hend | hend <;> exact congrArg Prod.snd hend
  exact State.phase_injective hphase

/-- After the end of a message the reader goes on like a new one. -/
theorem restarts {mem : Nat → UInt8} {S : Bytes} {version : Version} {bodySize : Nat}
    {ops₀ ops : List (Op Empty)} {s₀ : Run}
    (h₀ : (session mem S).play (fresh version bodySize) ops₀ = .ok s₀)
    (hcode : s₀.reader.code = .endOfMessage)
    (h : (session mem S).conforming (fresh version bodySize) (ops₀ ++ .next :: ops) = true)
    (version' : Version) (bodySize' : Nat) :
    ∃ s t, (session mem S).play (fresh version bodySize) (ops₀ ++ .next :: ops) = .ok s ∧
      (session mem (S.drop s₀.pass.consumed)).conforming (fresh version' bodySize')
        (.setBuffer s₀.reader.consume.restView.length :: ops) = true ∧
      (session mem (S.drop s₀.pass.consumed)).play (fresh version' bodySize')
        (.setBuffer s₀.reader.consume.restView.length :: ops) = .ok t ∧
      s.emitted = s₀.emitted ++ Session.shift s₀.pass.consumed t.emitted := by
  obtain ⟨s, hs, ht, hstate⟩ := state_of_endOfMessage (Guarded.conforming_append h)
  have heq : s = s₀ := Except.ok.inj (hs.symm.trans h₀)
  subst heq
  have he : view.phase s.reader.state ≠ .errored := by
    rw [hstate hcode]
    nofun
  -- between two messages the reader remembers no more than a new one
  obtain ⟨hcore, hbody⟩ := core_method ht.sound (hstate hcode)
  have hrelated : matching.Related (view.core s.reader) (view.core (fresh version' bodySize').reader) := by
    rw [hcore, hbody]
    exact ⟨rfl, ⟨rfl, nofun⟩, nofun⟩
  obtain ⟨s', t', hs', hconf, ht', hlog⟩ := Session.play_restarts (lawful mem) mirrors (callsAlike mem)
    ht he (by rw [hcode]; nofun) (tracks_fresh version' bodySize' _) rfl rfl rfl rfl hrelated rfl
    (fun _ => trivial) (Guarded.conforming_of_play h hs)
  refine ⟨s', t', ?_, hconf, ht', hlog⟩
  rw [Guarded.play_append, hs]
  exact hs'

end Request

/-! ## Responses -/

namespace Response

def matching : Matching Memory Memory where
  framing _ f g := f = g
  counted f := f.2 = .contentLengthRead

variable {f g : Memory} {m k : Nat}

theorem counted_of_onFieldName {name : Bytes} {f' : Memory} (h : onFieldName f name = .ok f')
    (hc : f'.2 = .contentLengthRead) : f.2 = .contentLengthRead := by
  unfold onFieldName at h
  split at h
  · cases h
    exact hc
  · split at h
    · split at h <;> cases h
      cases hc
    · split at h
      · split at h <;> cases h
        · cases hc
        · exact hc
      · cases h
        exact hc

theorem onFieldValue_congr (value : Bytes) (h : f.2 = .contentLengthRead → m = k) :
    (∃ c, onFieldValue f m value = .error c ∧ onFieldValue f k value = .error c) ∨
      ∃ f' m' k', onFieldValue f m value = .ok (f', m') ∧ onFieldValue f k value = .ok (f', k') ∧
        (f'.2 = .contentLengthRead → m' = k') := by
  unfold onFieldValue
  cases hb : f.2 with
  | readingContentLength =>
    unfold Syntax.contentLengthDecode
    -- the field sets the size anew, so the old ones are forgotten
    obtain ⟨n, h₁, h₂⟩ | ⟨res, n, n', hres, h₁, h₂⟩ :=
      Syntax.decode_alike 64 Syntax.decimal value m k
    · simp only [h₁, h₂]
      exact .inr ⟨_, n, n, rfl, rfl, fun _ => rfl⟩
    · simp only [h₁, h₂]
      cases res with
      | ok => exact absurd rfl hres
      | invalid | overflow => exact .inl ⟨_, rfl, rfl⟩
  | readingEncoding =>
    simp only
    cases Detail.decodeTransferEncoding value with
    | chunkedInvalid => exact .inl ⟨_, rfl, rfl⟩
    | chunkedNotFound | chunkedAtEnd => exact .inr ⟨_, m, k, rfl, rfl, nofun⟩
  | _ => exact .inr ⟨f, m, k, rfl, rfl, h⟩

theorem forgetful : Forgetful policy fun f => f.2 = .contentLengthRead where
  fieldName := counted_of_onFieldName
  fieldValue := onFieldValue_congr
  headers {f m k} h := by
    change onHeaders f m = onHeaders f k
    unfold onHeaders
    cases hb : f.2 with
    | contentLengthRead => rw [h hb]
    | _ => rfl
  ofHeaders {f m f' q} h := by
    change onHeaders f m = .ok (f', q) at h
    unfold onHeaders at h
    split at h <;> cases h
    · exact ⟨nofun, rfl, rfl⟩
    · exact ⟨nofun, rfl, rfl⟩
    · exact ⟨id, rfl, rfl⟩
    · exact ⟨id, rfl, rfl⟩
    · exact ⟨id, rfl, rfl⟩
    · refine ⟨id, ?_⟩
      split <;> exact ⟨rfl, rfl⟩

theorem mirrors : Mirrors matching policy policy Legal Legal True fun _ _ _ => False where
  legal := Legal.goto
  legal' := Legal.goto
  version _ h := ⟨by rw [h]; rfl, id⟩
  methodKnown h := by rw [h]
  waits {c d} _ h := by
    have hfg : c.framing = d.framing := h.framing
    rw [hfg]
    change (d.framing.2 == .contentLengthRead && c.bodySize != 0)
      = (d.framing.2 == .contentLengthRead && d.bodySize != 0)
    by_cases hb : d.framing.2 = .contentLengthRead
    · rw [h.bodySize (.inl (hfg ▸ hb))]
    · rw [beq_false_of_ne hb, Bool.false_and, Bool.false_and]
  body hl hp := by
    rw [Legal, hp] at hl
    exact hl.2.1
  accept {c d} w n h _ _ hj := by
    by_cases ht : c.phase = .crlfAfterTrailers
    · have hfg : c.framing = d.framing := h.framing
      unfold Policy.accepted Policy.accept
      rw [← h.phase, ht, hfg]
      exact .emit ⟨rfl, rfl, by rintro (h | h) <;> cases h⟩
    · exact Forgetful.accepted forgetful Iff.rfl h hj ht w n
  message {c d} h _ _ hp := by
    have hfg : c.framing = d.framing := h.framing
    unfold Policy.lex
    rw [← h.phase, hp, hfg]
    refine .emit ⟨rfl, rfl, ?_⟩
    rintro (hc | hc)
    · cases hc
    · change Phase.isSized (if d.framing.2 = .forceNoBodyAndStop ∨ d.framing.1 = true then
        .endOfConnectionError else .versionStaticStr) = true at hc
      -- neither of the two phases behind the message reads the size
      split at hc <;> cases hc

/-- What a method rules out does not depend on the sizes read before. -/
theorem bodyFor_congr (method : Bytes) (statusCode n n' : Nat) :
    (bodyFor method statusCode n).1 = (bodyFor method statusCode n').1 := by
  unfold bodyFor
  simp only
  split
  · rfl
  · split <;> rfl

theorem callsAlike (mem : Nat → UInt8) :
    Session.CallsAlike (api mem) (api mem) matching view view Legal Legal True := by
  intro c r r' hr hr' h hc
  cases c with
  | puteof =>
    refine ⟨rfl, fun h₁ h₁' => ?_⟩
    cases h₁
    cases h₁'
    exact ⟨h.code, h.tokenSize, h.restView, rfl, fun _ => trivial, h.phase, h.core⟩
  | setMethod method =>
    have hcode : r.code = .statusCode := by simpa [api] using hc
    have hcode' : r'.code = .statusCode := h.code ▸ hcode
    refine ⟨by simp [api, hcode'], fun {r₁ r₁'} h₁ h₁' => ?_⟩
    have hr₁ : r₁ = _ := Except.ok.inj (Eq.trans (Eq.symm h₁) (setMethod_eq method hr hcode))
    have hr₁' : r₁' = _ := Except.ok.inj (Eq.trans (Eq.symm h₁') (setMethod_eq method hr' hcode'))
    have hstatus : status r = status r' := by
      unfold status
      rw [Reader.slice, Reader.slice, h.restView, h.tokenSize]
    rw [hr₁, hr₁']
    refine ⟨h.code, h.tokenSize, h.restView, h.eof, h.closes, h.phase, fun he => ?_⟩
    have hcore := h.core he
    refine ⟨hcore.phase, ?_, ?_⟩
    · have hversion : r.connection.http10 = r'.connection.http10 :=
        congrArg Prod.fst (show (_, _) = (_, _) from hcore.framing)
      change (r.connection.http10, (bodyFor method (status r) r.bodySize).1)
        = (r'.connection.http10, (bodyFor method (status r') r'.bodySize).1)
      rw [hversion, hstatus, bodyFor_congr]
    · rintro (hcounted | hsized)
      · rcases bodyFor_fst method (status r) r.bodySize with hb | hb <;>
          rw [show (bodyFor method (status r) r.bodySize).1 = _ from hcounted] at hb <;> cases hb
      · change (view.phase r.state).isSized = true at hsized
        rw [(hr.status hcode).1] at hsized
        cases hsized

theorem paired_fresh (S : Bytes) (bodySize bodySize' : Nat) :
    Session.Paired matching view view Legal Legal True True S 0 [] (fresh bodySize)
      (fresh bodySize') := by
  refine ⟨⟨rfl, rfl, rfl, rfl, fun _ => trivial, rfl, fun _ => ⟨rfl, rfl, nofun⟩⟩,
    tracks_fresh bodySize S, tracks_fresh bodySize' S, rfl, rfl, fun _ => rfl⟩

/-- The call by which a new reader learns what `r` knows about the end of the stream. -/
def announced (r : Response) : List (Op Call) :=
  if r.connection.eofReceived then [.call .puteof] else []

/-- A new reader to which the end of the stream is announced as to `r`. -/
theorem play_announced (mem : Nat → UInt8) (S : Bytes) (r : Response) (bodySize : Nat) :
    ∃ t₀, (session mem S).play (fresh bodySize) (announced r) = .ok t₀ ∧
      (session mem S).conforming (fresh bodySize) (announced r) = true ∧
      Session.Tracks view Legal S t₀ ∧ t₀.reader.code = .errorInsufficientData ∧
      t₀.reader.tokenSize = 0 ∧ t₀.consumed = 0 ∧ t₀.emitted = [] ∧
      t₀.reader.connection.eofReceived = r.connection.eofReceived ∧
      view.core t₀.reader = ⟨.versionStaticStr, (false, .unknownBody), bodySize⟩ := by
  have ht := tracks_fresh bodySize S
  cases heof : r.connection.eofReceived with
  | false =>
    refine ⟨fresh bodySize, ?_, ?_, ht, rfl, rfl, rfl, rfl, rfl, rfl⟩
    · rw [announced, heof]
      rfl
    · rw [announced, heof]
      rfl
  | true =>
    obtain ⟨r', hcall, hinvoke, ht'⟩ := ht.invoke (lawful mem) (c := .puteof) rfl
    cases hcall
    refine ⟨_, ?_, ?_, ht', rfl, rfl, rfl, rfl, rfl, rfl⟩
    · rw [announced, heof]
      rfl
    · rw [announced, heof]
      rfl

/-- After the end of a message that another may follow the reader goes on like a new one. -/
theorem restarts {mem : Nat → UInt8} {S : Bytes} {bodySize : Nat} {ops₀ ops : List (Op Call)} {s₀ : Run}
    (h₀ : (session mem S).play (fresh bodySize) ops₀ = .ok s₀)
    (hcode : s₀.reader.code = .endOfMessage) (hstate : s₀.reader.state = .expectVersionStaticStr)
    (h : (session mem S).conforming (fresh bodySize) (ops₀ ++ .next :: ops) = true)
    (bodySize' : Nat) :
    ∃ s t, (session mem S).play (fresh bodySize) (ops₀ ++ .next :: ops) = .ok s ∧
      (session mem (S.drop s₀.pass.consumed)).conforming (fresh bodySize') (announced s₀.reader ++
        .setBuffer s₀.reader.consume.restView.length :: ops) = true ∧
      (session mem (S.drop s₀.pass.consumed)).play (fresh bodySize') (announced s₀.reader ++
        .setBuffer s₀.reader.consume.restView.length :: ops) = .ok t ∧
      s.emitted = s₀.emitted ++ Session.shift s₀.pass.consumed t.emitted := by
  obtain ⟨s, hs, ht⟩ := Session.play_tracks (lawful mem) (tracks_fresh bodySize S)
    (Guarded.conforming_append h)
  have heq : s = s₀ := Except.ok.inj (hs.symm.trans h₀)
  subst heq
  have he : view.phase s.reader.state ≠ .errored := by
    rw [hstate]
    nofun
  obtain ⟨t₀, hplay₀, hconf₀, ht₀, hcode₀, hsize₀, hcons₀, hlog₀, heof₀, hcore₀⟩ :=
    play_announced mem (S.drop s.pass.consumed) s.reader bodySize'
  have hrelated : matching.Related (view.core s.reader) (view.core t₀.reader) := by
    rw [core_start ht.sound hstate, hcore₀]
    exact ⟨rfl, rfl, nofun⟩
  obtain ⟨s', t', hs', hconf, ht', hlog⟩ := Session.play_restarts (lawful mem) mirrors (callsAlike mem)
    ht he (by rw [hcode]; nofun) ht₀ hcode₀ hsize₀ hcons₀ hlog₀ hrelated heof₀.symm
    (fun _ => trivial) (Guarded.conforming_of_play h hs)
  refine ⟨s', t', ?_, ?_, ?_, hlog⟩
  · rw [Guarded.play_append, hs]
    exact hs'
  · exact Guarded.conforming_continued hconf₀ hplay₀ hconf
  · rw [Guarded.play_append, hplay₀]
    exact ht'

end Response

/-- Nothing leaks from one message into the next, or through `reset()`.  After the end of a message
that another may follow, the rest of a run reports what a new reader reports that gets what is left
of the stream, first what is left of the buffer and then the same buffers.  (Whatever the client does
before its next call of `next()` belongs to `ops₀`.)  A reader that was reset, whatever happened to it
before, and a new one cannot be told apart.  Neither depends on what the members hold that are not
initialised. -/
theorem readers_isolated (mem : Nat → UInt8) (S : Bytes) :
    (∀ version bodySize ops₀ ops s₀,
      (Request.session mem S).play (Request.fresh version bodySize) ops₀ = .ok s₀ →
      s₀.reader.code = .endOfMessage →
      (Request.session mem S).conforming (Request.fresh version bodySize) (ops₀ ++ .next :: ops) = true →
      ∀ version' bodySize',
        let R := S.drop s₀.pass.consumed
        let ops' := .setBuffer s₀.reader.consume.restView.length :: ops
        ∃ s t,
          (Request.session mem S).play (Request.fresh version bodySize) (ops₀ ++ .next :: ops) = .ok s ∧
          (Request.session mem R).conforming (Request.fresh version' bodySize') ops' = true ∧
          (Request.session mem R).play (Request.fresh version' bodySize') ops' = .ok t ∧
          s.emitted = s₀.emitted ++ Session.shift s₀.pass.consumed t.emitted) ∧
    (∀ bodySize ops₀ ops s₀, (Response.session mem S).play (Response.fresh bodySize) ops₀ = .ok s₀ →
      s₀.reader.code = .endOfMessage → s₀.reader.state = .expectVersionStaticStr →
      (Response.session mem S).conforming (Response.fresh bodySize) (ops₀ ++ .next :: ops) = true →
      ∀ bodySize',
        let R := S.drop s₀.pass.consumed
        let ops' := Response.announced s₀.reader ++ .setBuffer s₀.reader.consume.restView.length :: ops
        ∃ s t,
          (Response.session mem S).play (Response.fresh bodySize) (ops₀ ++ .next :: ops) = .ok s ∧
          (Response.session mem R).conforming (Response.fresh bodySize') ops' = true ∧
          (Response.session mem R).play (Response.fresh bodySize') ops' = .ok t ∧
          s.emitted = s₀.emitted ++ Session.shift s₀.pass.consumed t.emitted) ∧
    (∀ (r : Request) version bodySize ops,
      (Request.session mem S).conforming (.start (Request.reset r)) ops = true →
      ∃ s t, (Request.session mem S).play (.start (Request.reset r)) ops = .ok s ∧
        (Request.session mem S).conforming (Request.fresh version bodySize) ops = true ∧
        (Request.session mem S).play (Request.fresh version bodySize) ops = .ok t ∧
        Session.Indistinguishable s t) ∧
    ∀ (r : Response) bodySize ops,
      (Response.session mem S).conforming (.start (Response.reset r)) ops = true →
      ∃ s t, (Response.session mem S).play (.start (Response.reset r)) ops = .ok s ∧
        (Response.session mem S).conforming (Response.fresh bodySize) ops = true ∧
        (Response.session mem S).play (Response.fresh bodySize) ops = .ok t ∧
        Session.Indistinguishable s t := by
  refine ⟨?_, ?_, ?_, ?_⟩
  · intro version bodySize ops₀ ops s₀ h₀ hcode h version' bodySize'
    exact Request.restarts h₀ hcode h version' bodySize'
  · intro bodySize ops₀ ops s₀ h₀ hcode hstate h bodySize'
    exact Response.restarts h₀ hcode hstate h bodySize'
  · intro r version bodySize ops h
    exact Session.play_alike (Request.lawful mem) Request.mirrors (Request.callsAlike mem)
      Request.State.phase_injective (Request.paired_fresh S r.connection version r.bodySize bodySize) h
  · intro r bodySize ops h
    exact Session.play_alike (Response.lawful mem) Response.mirrors (Response.callsAlike mem)
      Response.State.phase_injective (Response.paired_fresh S r.bodySize bodySize) h

/-- A counted request of version 1.0 before one of version 1.1, cut in the second; a response before
another, with the end of the stream announced in between; and a reset in the middle of a body. -/
theorem readers_isolated_second :
    let S := ascii "POST / HTTP/1.0\nContent-Length: 1\n\nxGET / HTTP/1.1\nHost:\n\n"
    let S' := ascii "HTTP/1.1 204 \n\nHTTP/1.1 200 OK\n\nabc"
    let first := .setBuffer 40 :: List.replicate 13 .next
    let second : List (Op Empty) := .next :: .next :: .setBuffer 18 :: List.replicate 10 .next
    let first' := List.flatten [[.setBuffer 20], List.replicate 3 .next,
      [.call (.setMethod (ascii "GET"))], List.replicate 6 .next, [.call .puteof]]
    let second' : List (Op Response.Call) := [.next, .setBuffer 7, .next]
    (∃ s₀ s t, (Request.session (fun _ => 0) S).play (Request.fresh .http10 7) first = .ok s₀ ∧
      (Request.session (fun _ => 0) S).play (Request.fresh .http10 7) (first ++ .next :: second) = .ok s ∧
      (Request.session (fun _ => 0) (S.drop 36)).play (Request.fresh .notHttp10AndHostRead 5)
        (.setBuffer 4 :: second) = .ok t ∧
      s.emitted = s₀.emitted ++ Session.shift 36 t.emitted ∧ t.reader.code = .endOfMessage) ∧
    (∃ s₀ s t, (Response.session (fun _ => 0) S').play (Response.fresh 7) first' = .ok s₀ ∧
      (Response.session (fun _ => 0) S').play (Response.fresh 7) (first' ++ .next :: second') = .ok s ∧
      (Response.session (fun _ => 0) (S'.drop 15)).play (Response.fresh 5)
        ([.call .puteof] ++ .setBuffer 5 :: second') = .ok t ∧
      s.emitted = s₀.emitted ++ Session.shift 15 t.emitted ∧
      t.reader.code = .errorUseAnotherConnection) ∧
    ∃ r s t, (Request.session (fun _ => 0) S).play (Request.fresh .http10 7)
        (.setBuffer 35 :: List.replicate 10 .next) = .ok r ∧ r.reader.state = .expectBody ∧
      (Request.session (fun _ => 0) S).play (.start (Request.reset r.reader)) first = .ok s ∧
      (Request.session (fun _ => 0) S).play (Request.fresh .notHttp10AndHostRead 5) first = .ok t ∧
      Session.Indistinguishable s t := by
  intro S S' first second first' second'
  refine ⟨?_, ?_, ?_⟩
  · have h₀ : (Request.session (fun _ => 0) S).ends (Request.fresh .http10 7) first (fun s =>
        s.reader.code = .endOfMessage && s.pass.consumed = 36 &&
        s.reader.consume.restView.length = 4) = true := by decide +kernel
    obtain ⟨s₀, hplay₀, hs₀⟩ := Guarded.of_ends h₀
    simp only [Bool.and_eq_true, decide_eq_true_eq] at hs₀
    obtain ⟨⟨hcode, hconsumed⟩, hlength⟩ := hs₀
    obtain ⟨s, t, hs, -, ht, hlog⟩ := (readers_isolated (fun _ => 0) S).1 .http10 7 first second s₀
      hplay₀ hcode (by decide +kernel) .notHttp10AndHostRead 5
    rw [hconsumed, hlength] at ht
    rw [hconsumed] at hlog
    have hend : (Request.session (fun _ => 0) (S.drop 36)).ends (Request.fresh .notHttp10AndHostRead 5)
        (.setBuffer 4 :: second) (fun t => t.reader.code = .endOfMessage) = true := by decide +kernel
    rw [Guarded.ends_eq ht] at hend
    exact ⟨s₀, s, t, hplay₀, hs, ht, hlog, of_decide_eq_true hend⟩
  · have h₀ : (Response.session (fun _ => 0) S').ends (Response.fresh 7) first' (fun s =>
        s.reader.code = .endOfMessage && s.reader.state = .expectVersionStaticStr &&
        s.pass.consumed = 15 && s.reader.consume.restView.length = 5 &&
        s.reader.connection.eofReceived) = true := by decide +kernel
    obtain ⟨s₀, hplay₀, hs₀⟩ := Guarded.of_ends h₀
    simp only [Bool.and_eq_true, decide_eq_true_eq] at hs₀
    obtain ⟨⟨⟨⟨hcode, hstate⟩, hconsumed⟩, hlength⟩, heof⟩ := hs₀
    have hannounced : Response.announced s₀.reader = [.call .puteof] := by
      rw [Response.announced, heof]
      rfl
    obtain ⟨s, t, hs, -, ht, hlog⟩ := (readers_isolated (fun _ => 0) S').2.1 7 first' second' s₀
      hplay₀ hcode hstate (by decide +kernel) 5
    rw [hconsumed, hlength, hannounced] at ht
    rw [hconsumed] at hlog
    have hend : (Response.session (fun _ => 0) (S'.drop 15)).ends (Response.fresh 5)
        ([.call .puteof] ++ .setBuffer 5 :: second')
        (fun t => t.reader.code = .errorUseAnotherConnection) = true := by decide +kernel
    rw [Guarded.ends_eq ht] at hend
    exact ⟨s₀, s, t, hplay₀, hs, ht, hlog, of_decide_eq_true hend⟩
  · have h₀ : (Request.session (fun _ => 0) S).ends (Request.fresh .http10 7)
        (.setBuffer 35 :: List.replicate 10 .next) (fun r => r.reader.state = .expectBody &&
          r.reader.connection = .http10 && r.reader.bodySize = 1) = true := by
      decide +kernel
    obtain ⟨r, hplay₀, hr⟩ := Guarded.of_ends h₀
    simp only [Bool.and_eq_true, decide_eq_true_eq] at hr
    obtain ⟨⟨hstate, hversion⟩, hsize⟩ := hr
    have hconf : (Request.session (fun _ => 0) S).conforming (.start (Request.reset r.reader)) first
        = true := by
      rw [Request.reset_eq, hversion, hsize]
      decide +kernel
    obtain ⟨s, t, hs, -, ht, hst⟩ := (readers_isolated (fun _ => 0) S).2.2.1 r.reader
      .notHttp10AndHostRead 5 first hconf
    exact ⟨r, s, t, hplay₀, hstate, hs, ht, hst⟩

end BoostHttp
