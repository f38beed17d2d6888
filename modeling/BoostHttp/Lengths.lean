import BoostHttp.Closing
import BoostHttp.Messages
import BoostHttp.Request.Acceptance
import BoostHttp.Response.Acceptance

/-!
# Lengths — the length that a head announces is the one that is counted

What a reader remembers of a head is not reported.  It matters at the end of the headers, though, and
a policy that decides otherwise there is seen to do so: a lexer with such a policy follows a reader up
to that place, and fails unless the reader remembers what it should.
-/

open Incremental

namespace BoostHttp

/-! ## Another decision at the end of the headers -/

section Decision

variable {φ : Type} {P : Policy φ} {h : φ → Nat → Except Code (φ × Phase)} {b : Bool}
  {c c' : Core φ} {d : UInt8} {w raw : Bytes} {k : Nat} {code : Code}

theorem accept_withHeaders (hp : c.phase ≠ .crlfAfterHeaders) :
    (P.withHeaders h).accept c raw = P.accept c raw := by
  unfold Policy.accept
  cases hc : c.phase <;> first
    | rfl
    | exact absurd hc hp

theorem lexeme_withHeaders (hp : c.phase ≠ .crlfAfterHeaders) :
    (P.withHeaders h).lexeme c d w = P.lexeme c d w := by
  unfold Policy.lexeme Policy.scanned
  simp only [accept_withHeaders hp]
  rfl

theorem scanned_withHeaders (hp : c.phase = .crlfAfterHeaders) (hl : P.scanned c w = .emit c' k code) :
    (P.withHeaders h).scanned c w = match h c.framing c.bodySize with
      | .error e => .fail e
      | .ok (f, q) => .emit { c with phase := q, framing := f } k .endOfHeaders := by
  obtain ⟨-, hs, -⟩ := scanned_emit hl
  rw [Policy.scanned, if_neg (by simp [hp]), hs]
  simp only [Policy.accept, hp, Policy.withHeaders]
  cases h c.framing c.bodySize <;> rfl

theorem lexeme_of_inHead (hin : c.phase.inHead = true) (hl : P.lex b c w = .emit c' k code) :
    ∃ d x, w = d :: x ∧ c.phase.isZeroSized = false ∧
      P.lexeme (c.goto (c.phase.resolve d)) d x = .emit c' k code := by
  have hz : c.phase.isZeroSized = false := by
    cases hc : c.phase <;> first | rfl | (rw [hc] at hin; cases hin)
  cases w with
  | nil =>
    have hbody := (of_lex_nil_emit hz hl).1
    rw [hbody] at hin
    cases hin
  | cons d x =>
    rw [lex_cons hz] at hl
    exact ⟨d, x, rfl, hz, hl⟩

/-- Up to the end of the headers the decision there makes no difference. -/
theorem lex_withHeaders (hin : c.phase.inHead = true) (hl : P.lex b c w = .emit c' k code)
    (hcode : code ≠ .endOfHeaders) :
    (P.withHeaders h).lex false c w = .emit c' k code ∧ c'.phase.inHead = true := by
  obtain ⟨d, x, rfl, hz, hl⟩ := lexeme_of_inHead hin hl
  have he := emits_of_lexeme (Phase.resolve_resolve c.phase d) hl
  have hsame : (c.goto (c.phase.resolve d)).phase.inHead = true :=
    (Phase.resolves_resolve c.phase d).inHead.trans hin
  refine ⟨?_, ((inHead_emits hsame he).resolve_left hcode).2⟩
  rw [lex_cons hz, lexeme_withHeaders, hl]
  intro hp
  rw [lexeme_of_rigid (by rw [hp]; rfl)] at hl
  obtain ⟨-, -, hacc⟩ := scanned_emit hl
  simp only [Policy.accept, hp] at hacc
  split at hacc <;> cases hacc
  exact hcode rfl

/-- There it is what counts. -/
theorem lex_withHeaders_end (hin : c.phase.inHead = true)
    (hl : P.lex b c w = .emit c' k .endOfHeaders) :
    P.onHeaders c.framing c.bodySize = .ok (c'.framing, c'.phase) ∧ c'.bodySize = c.bodySize ∧
      (P.withHeaders h).lex false c w = match h c.framing c.bodySize with
        | .error e => .fail e
        | .ok (f, q) => .emit ⟨q, f, c.bodySize⟩ k .endOfHeaders := by
  obtain ⟨d, x, rfl, hz, hl⟩ := lexeme_of_inHead hin hl
  obtain ⟨hp, hsize, hon⟩ :=
    headers_of_emits (emits_of_lexeme (Phase.resolve_resolve c.phase d) hl)
  refine ⟨hon, hsize, ?_⟩
  have hrigid : (c.goto (c.phase.resolve d)).phase.isElastic = false := by rw [hp]; rfl
  rw [lexeme_of_rigid hrigid] at hl
  rw [lex_cons hz, lexeme_of_rigid hrigid, scanned_withHeaders hp hl]
  rfl

end Decision

/-- The decision of the policy where `f` and `n` are remembered at the end of the headers; anything
else is refused. -/
def Policy.onlyAt {φ : Type} [DecidableEq φ] (P : Policy φ) (f : φ) (n : Nat) (f' : φ) (n' : Nat) :
    Except Code (φ × Phase) :=
  if f' = f ∧ n' = n then P.onHeaders f' n' else .error .errorInvalidData

/-- Since `p₁` no head has ended: the record holds what the lexer with the decision `h` would have
observed. -/
structure HeadOpen {φ : Type} (P : Policy φ) (h : φ → Nat → Except Code (φ × Phase))
    (answer : Value → Core φ → Core φ) (S : Bytes) (p₁ : Nat) (c₁ : Core φ) (log : List (Nat × Token))
    (p : Nat) (c : Core φ) : Prop where
  unended : ∀ e ∈ log, e.2.code ≠ .endOfHeaders
  phase : c.phase.inHead = true
  explained : ∃ j, (machine (P.withHeaders h) fun _ => answer).Explains false S p₁ (c₁, 0) p (c, j)
    (events log)

namespace HeadOpen

variable {φ : Type} {P : Policy φ} {h : φ → Nat → Except Code (φ × Phase)}
  {answer : Value → Core φ → Core φ} {S w rest : Bytes} {p₁ p p' q k n : Nat} {c₁ c c' s' : Core φ}
  {log : List (Nat × Token)} {b : Bool} {code : Code} {t : Token} {f : φ} {u : List Event}

theorem any_events (ho : HeadOpen P h answer S p₁ c₁ log p c) :
    (events log).any Event.isHeadEnd = false := by
  rw [any_shows rfl, List.any_eq_false]
  intro e he
  simpa using ho.unended e he

theorem unended_append (ho : HeadOpen P h answer S p₁ c₁ log p c) (ht : t.code ≠ .endOfHeaders) :
    ∀ e ∈ log ++ [(p, t)], e.2.code ≠ .endOfHeaders := by
  intro e he
  rcases List.mem_append.mp he with he | he
  · exact ho.unended e he
  · rw [List.mem_singleton.mp he]
    exact ht

/-- A request for more adds nothing. -/
theorem wait (ho : HeadOpen P h answer S p₁ c₁ log p c) (ht : t.code = .errorInsufficientData) :
    HeadOpen P h answer S p₁ c₁ (log ++ [(p, t)]) p c := by
  refine ⟨ho.unended_append (by rw [ht]; nofun), ho.phase, ?_⟩
  have hnil : events [(p, t)] = [] := by
    simp [events, Token.events, ht]
  rw [events_append, hnil, List.append_nil]
  exact ho.explained

theorem need (ho : HeadOpen P h answer S p₁ c₁ log p c) (hw : w <+: S.drop p)
    (hl : P.lex b c w = .need c') (ht : t.code = .errorInsufficientData) :
    HeadOpen P h answer S p₁ c₁ (log ++ [(p, t)]) p c' := by
  obtain ⟨hz, ⟨-, rfl⟩ | ⟨d, x, rfl, rfl⟩⟩ := of_lex_need hl
  · exact ho.wait ht
  · have hwait := ho.wait ht
    obtain ⟨j, hx⟩ := hwait.explained
    refine ⟨hwait.unended, (Phase.resolves_resolve c.phase d).inHead.trans ho.phase, j, ?_⟩
    -- the byte in view has decided on the phase
    intro v hr
    apply hx
    obtain ⟨y, hy⟩ := hw
    rw [← hy] at hr ⊢
    exact runs_congr (lex_resolve hz) hr

theorem emit (hanswer : ∀ v c, (answer v c).phase = c.phase)
    (ho : HeadOpen P h answer S p₁ c₁ log p c) (hw : w <+: S.drop p)
    (hl : P.lex b c w = .emit c' k code) (hcode : code ≠ .endOfHeaders) :
    HeadOpen P h answer S p₁ c₁ (log ++ [(p, ⟨code, k, tokenValue code c'.bodySize w k⟩)]) (p + k)
      (if code = .statusCode then answer (tokenValue code c'.bodySize w k) c' else c') := by
  obtain ⟨j, hx⟩ := ho.explained
  obtain ⟨hl', hin⟩ := lex_withHeaders (h := h) ho.phase hl hcode
  have hlook : Machine.Look false S p false w := ⟨hw, nofun⟩
  have hstep : (machine (P.withHeaders h) fun _ => answer).step false (c, j) w
      = .emit (c', j) k ⟨code, k, tokenValue code c'.bodySize w k⟩ := step_emit hl'
  have hx' := hx.emit (coherent_machine _ _) hlook hstep
  have hevents : events [(p, ⟨code, k, tokenValue code c'.bodySize w k⟩)]
      = Token.events p ⟨code, k, tokenValue code c'.bodySize w k⟩ := List.append_nil _
  refine ⟨ho.unended_append hcode, ?_, ?_⟩
  · split
    · rw [hanswer]
      exact hin
    · exact hin
  · rw [events_append, hevents]
    by_cases hc : code = .statusCode
    · subst hc
      exact ⟨j + 1, hx'⟩
    · rw [if_neg hc]
      have hreact : (machine (P.withHeaders h) fun _ => answer).react
          ⟨code, k, tokenValue code c'.bodySize w k⟩ (c', j) = (c', j) := if_neg hc
      rw [hreact] at hx'
      exact ⟨j, hx'⟩

/-- A head that is known to end with `f` and `n` remembered ends where it is known to end, and in the
same state: with anything else remembered there the probing lexer would have failed. -/
theorem ends [DecidableEq φ] {e : Eol} {j : Nat}
    (ho : HeadOpen P (P.onlyAt f n) answer S p₁ c₁ log p c) (hw : w <+: S.drop p)
    (hl : P.lex b c w = .emit c' k .endOfHeaders)
    (hon : P.onHeaders f n = .ok (s'.framing, s'.phase)) (hn : s'.bodySize = n)
    (htotal : ∀ p c w, ∃ v, (machine (P.withHeaders (P.onlyAt f n)) fun _ => answer).Runs false p c w v)
    (hlead : (machine (P.withHeaders (P.onlyAt f n)) fun _ => answer).Leads false p₁ (c₁, 0)
      (S.drop p₁) (u ++ [endOfHeaders q e]) p' (s', j) rest)
    (hu : u.any Event.isHeadEnd = false) : p + k = q + e.bytes.length ∧ c' = s' := by
  obtain ⟨j₁, hx⟩ := ho.explained
  obtain ⟨hon', hsize, hprobe⟩ := lex_withHeaders_end (h := P.onlyAt f n) ho.phase hl
  have hlook : Machine.Look false S p false w := ⟨hw, nofun⟩
  by_cases hsame : c.framing = f ∧ c.bodySize = n
  · rw [Policy.onlyAt, if_pos hsame, hon', ← hsize] at hprobe
    have hstep : (machine (P.withHeaders (P.onlyAt f n)) fun _ => answer).step false (c, j₁) w
        = .emit (c', j₁) k ⟨.endOfHeaders, k, tokenValue .endOfHeaders c'.bodySize w k⟩ :=
      step_emit hprobe
    have hx' := hx.emit (coherent_machine _ _) hlook hstep
    obtain ⟨v, hv⟩ := htotal (p + k) _ (S.drop (p + k))
    obtain ⟨v', heq, -⟩ := hlead.split (htotal _ _ _) (hx' v hv)
    have hend : events log ++ Event.token p ⟨.endOfHeaders, k, .none⟩ :: v
        = u ++ endOfHeaders q e :: v' := by
      rw [List.append_assoc, List.append_assoc] at heq
      exact heq
    obtain ⟨-, htoken, -⟩ := first_unique (m := fun e => Event.isHeadEnd e = true)
      (List.any_eq_false.mp ho.any_events) (List.any_eq_false.mp hu) rfl rfl hend
    cases htoken
    rw [hsame.1, hsame.2, hon] at hon'
    obtain ⟨qc, fc, nc⟩ := c'
    obtain ⟨qs, fs, ns⟩ := s'
    cases hon'
    exact ⟨rfl, by rw [show nc = ns from (hsize.trans hsame.2).trans hn.symm]⟩
  · rw [Policy.onlyAt, if_neg hsame] at hprobe
    have hstep : (machine (P.withHeaders (P.onlyAt f n)) fun _ => answer).step false (c, j₁) w
        = .fail ⟨.errorInvalidData, 0, .none⟩ := step_fail_iff.mpr ⟨hprobe, rfl⟩
    have hr := hx.runs_of_fail (coherent_machine _ _) hlook hstep
    obtain ⟨v', heq, -⟩ := hlead.split (htotal _ _ _) hr
    have hany := congrArg (List.any · Event.isHeadEnd) heq
    simp only [List.any_append, ho.any_events, hu] at hany
    cases hany

end HeadOpen

namespace Session

variable {σ β ν κ φ : Type}

/-- A client that answers the status codes, with `answer` for the effect on the lexer; until it has
done so the reader reads nothing. -/
structure Answers (A : Api σ β ν κ) (V : View σ β ν φ) (P : Policy φ) (Legal : Core φ → Prop)
    (guard : Session σ β ν κ → Op κ → Bool) (mem : Nat → UInt8) (answer : Value → Core φ → Core φ) :
    Prop where
  phase : ∀ v c, (answer v c).phase = c.phase
  again : ∀ v c, answer v (answer v c) = answer v c
  waits : ∀ {b c w c' n}, Legal c → P.lex b c w = .emit c' n .statusCode →
    (∀ v, answer v c' = c') ∨ c'.phase = .spAfterStatusCode ∧ P.methodKnown c'.framing = false
  call : ∀ {s : Session σ β ν κ} {c r'}, Sound V Legal s.reader → A.callable c s.reader = true →
    guard s (.call c) = true → A.call c s.reader = .ok r' →
    (s.reader.code = .statusCode → r'.value mem = s.reader.value mem) ∧
      (V.core r' = V.core s.reader ∨ s.reader.code = .statusCode ∧
        V.core r' = answer (s.reader.value mem) (V.core s.reader))

variable {A : Api σ β ν κ} {mem : Nat → UInt8} {S : Bytes} {V : View σ β ν φ} {P : Policy φ}
  {Legal : Core φ → Prop} {s s₀ s₁ : Session σ β ν κ} {guard : Session σ β ν κ → Op κ → Bool}
  {ops : List (Op κ)} {answer : Value → Core φ → Core φ} {h : φ → Nat → Except Code (φ × Phase)}
  {log : List (Nat × Token)} {p₁ p' : Nat} {c₁ s' : Core φ}

def HeadEnds (s₁ s₀ : Session σ β ν κ) : Prop :=
  ∃ log x, s₀.emitted = s₁.emitted ++ (log ++ [x]) ∧ x.2.code = .endOfHeaders ∧
    ∀ e ∈ log, e.2.code ≠ .endOfHeaders

theorem HeadEnds.of_last (hnil : s₁.emitted = [])
    (hlast : (s₀.emitted.getLast?.any fun e => e.2.code == .endOfHeaders) = true)
    (hinit : (s₀.emitted.dropLast.all fun e => e.2.code != .endOfHeaders) = true) :
    s₁.HeadEnds s₀ := by
  obtain ⟨x, hx, hc⟩ := (Option.any_eq_true _ _).mp hlast
  refine ⟨s₀.emitted.dropLast, x, ?_, by simpa using hc, fun e he => ?_⟩
  · rw [hnil, List.nil_append, List.dropLast_append_getLast? x hx]
  · simpa using List.all_eq_true.mp hinit e he

def Approaches (V : View σ β ν φ) (P : Policy φ) (h : φ → Nat → Except Code (φ × Phase))
    (answer : Value → Core φ → Core φ) (mem : Nat → UInt8) (S : Bytes) (p₁ : Nat) (c₁ : Core φ)
    (log : List (Nat × Token)) (s : Session σ β ν κ) : Prop :=
  ∃ c, HeadOpen P h answer S p₁ c₁ log s.pass.consumed c ∧
    (V.core s.reader = c ∨ V.phase s.reader.state = .spAfterStatusCode ∧
      P.methodKnown (V.core s.reader).framing = false) ∧
    (s.reader.code = .statusCode → answer (s.reader.value mem) (V.core s.reader) = c)

inductive ToHeadEnd (V : View σ β ν φ) (P : Policy φ) (h : φ → Nat → Except Code (φ × Phase))
    (answer : Value → Core φ → Core φ) (mem : Nat → UInt8) (S : Bytes) (p₁ : Nat) (c₁ : Core φ)
    (p' : Nat) (s' : Core φ) (log : List (Nat × Token)) (s : Session σ β ν κ) : Prop where
  | before : (∀ e ∈ log, e.2.code ≠ .endOfHeaders) →
      (V.phase s.reader.state ≠ .errored → Approaches V P h answer mem S p₁ c₁ log s) →
      ToHeadEnd V P h answer mem S p₁ c₁ p' s' log s
  | there {log₁ : List (Nat × Token)} {x : Nat × Token} : log = log₁ ++ [x] →
      x.2.code = .endOfHeaders → s.reader.code = .endOfHeaders → s.pass.consumed = p' →
      V.core s.reader = s' → ToHeadEnd V P h answer mem S p₁ c₁ p' s' log s
  | behind {log₁ log₂ : List (Nat × Token)} {x : Nat × Token} : log = log₁ ++ x :: log₂ →
      x.2.code = .endOfHeaders → log₂ ≠ [] → ToHeadEnd V P h answer mem S p₁ c₁ p' s' log s

/-- A new buffer shows the current status code as the old one did. -/
theorem Tracks.rebase_value (ht : Tracks V Legal S s) {size : Nat}
    (hp : permits A S s (.setBuffer size) = true) (hc : s.reader.code = .statusCode) :
    (s.rebase S size).reader.value mem = s.reader.value mem := by
  have hne : V.phase s.reader.state ≠ .errored := by
    rw [(ht.sound.status hc).1]
    nofun
  have hslice := (ht.rebase_slice hne hp).2
  have hcode : (s.rebase S size).reader.code = .statusCode := hc
  unfold Reader.value
  rw [hc, hcode]
  simp only [hslice]

/-- While the answer to a status code is missing no token is found. -/
theorem not_emit_of_unanswered {b : Bool} {c c' : Core φ} {w : Bytes} {n : Nat} {code : Code}
    (hp : c.phase = .spAfterStatusCode) (hk : P.methodKnown c.framing = false) :
    P.lex b c w ≠ .emit c' n code := by
  intro hlex
  cases w with
  | nil =>
    have hbody := (of_lex_nil_emit (by rw [hp]; rfl) hlex).1
    rw [hp] at hbody
    cases hbody
  | cons d w =>
    rw [lex_cons (by rw [hp]; rfl), lexeme_of_rigid (by rw [Core.goto_phase, hp]; rfl)] at hlex
    have hknown := (scanned_emit hlex).1 (by rw [Core.goto_phase, hp]; rfl)
    rw [Core.goto_framing, hk] at hknown
    cases hknown

/-- What `next()` reports leads on towards the end of the head, or there. -/
theorem Approaches.report (hA : A.Lawful V P Legal) (hans : Answers A V P Legal guard mem answer)
    {r' : Reader σ β ν} (ht : Tracks V Legal S s) (he : V.phase s.reader.state ≠ .errored)
    (hout : Settles V s.reader.consume
      (P.lex (V.eof s.reader.connection) (V.core s.reader) s.reader.consume.restView) r')
    (hs : Approaches V P h answer mem S p₁ c₁ log s)
    (hends : ∀ {p b c w k c'}, HeadOpen P h answer S p₁ c₁ log p c → w <+: S.drop p →
      P.lex b c w = .emit c' k .endOfHeaders → p + k = p' ∧ c' = s') :
    ToHeadEnd V P h answer mem S p₁ c₁ p' s' (log ++ [(s.pass.consumed, r'.token mem)])
      (s.pass.report mem r') := by
  obtain ⟨c, hopen, hc, -⟩ := hs
  have hunended' : r'.code ≠ .endOfHeaders → ∀ e ∈ log ++ [(s.pass.consumed, r'.token mem)],
      e.2.code ≠ .endOfHeaders := fun hne => hopen.unended_append hne
  rcases report_cases mem hA ht he hout with ⟨hlex, hcode, hne, hpass⟩ |
    ⟨n, code, hlex, htok, hne, hpass⟩ | ⟨hlex, hphase⟩
  · refine .before (hunended' (by rw [hcode]; nofun)) fun _ => ?_
    rw [Approaches, hpass]
    have hnot : (s.pass.report mem r').reader.code ≠ .statusCode := by
      change r'.code ≠ _
      rw [hcode]
      nofun
    rcases hc with rfl | ⟨hp, hk⟩
    · exact ⟨_, hopen.need (ht.pass_window he) hlex hcode, .inl rfl, fun h => absurd h hnot⟩
    · -- a reader that waits for an answer stays where it is
      have hsame : V.core r' = V.core s.reader := by
        obtain ⟨-, ⟨-, hs'⟩ | ⟨d, x, -, hs'⟩⟩ := of_lex_need hlex
        · exact hs'
        · have hres : (V.core s.reader).phase.resolve d = (V.core s.reader).phase := by
            rw [show (V.core s.reader).phase = _ from hp]
            rfl
          rw [hs', hres, Core.goto_self rfl]
      refine ⟨c, hopen.wait hcode, .inr ⟨?_, ?_⟩, fun h => absurd h hnot⟩
      · exact (congrArg Core.phase hsame).trans hp
      · exact (congrArg (fun c => P.methodKnown (Core.framing c)) hsame).trans hk
  · rcases hc with rfl | ⟨hp, hk⟩
    · have hcode : r'.code = code := congrArg Token.code htok
      have hvalue : r'.value mem
          = tokenValue code (V.core r').bodySize s.reader.consume.restView n :=
        congrArg Token.value htok
      by_cases hend : code = .endOfHeaders
      · subst hend
        obtain ⟨hp', hs'⟩ := hends hopen (ht.pass_window he) hlex
        exact .there rfl hcode hcode (hpass.trans hp') hs'
      · refine .before (hunended' (hcode.trans_ne hend)) fun _ => ?_
        have hnext := hopen.emit hans.phase (ht.pass_window he) hlex hend
        rw [Approaches, hpass, htok]
        refine ⟨_, hnext, ?_, ?_⟩
        · by_cases hstatus : code = .statusCode
          · subst hstatus
            rw [if_pos rfl]
            exact (hans.waits (ht.sound.legal he) hlex).imp_left fun hsame => (hsame _).symm
          · rw [if_neg hstatus]
            exact .inl rfl
        · intro hstatus
          have hstatus : code = .statusCode := hcode.symm.trans hstatus
          rw [if_pos hstatus, ← hvalue]
          rfl
    · exact absurd hlex (not_emit_of_unanswered hp hk)
  · refine .before (hunended' fun hend => ?_) fun h => absurd hphase h
    have hfatal := hA.implements.keeps.fail (ht.sound.legal he) hlex
    rw [hend] at hfatal
    cases hfatal

theorem Approaches.rebase (ht : Tracks V Legal S s) {size : Nat}
    (hp : permits A S s (.setBuffer size) = true)
    (hs : Approaches V P h answer mem S p₁ c₁ log s) :
    Approaches V P h answer mem S p₁ c₁ log (s.rebase S size) := by
  obtain ⟨c, hopen, hc, hstatus⟩ := hs
  rw [Approaches, rebase_pass_consumed]
  refine ⟨c, hopen, hc, fun hcode => ?_⟩
  rw [ht.rebase_value hp hcode]
  exact hstatus hcode

/-- A call leaves the lexer where it is, or takes it to where it will be. -/
theorem Approaches.note (hA : A.Lawful V P Legal) (hans : Answers A V P Legal guard mem answer)
    {k : κ} {r' : Reader σ β ν} (ht : Tracks V Legal S s) (hp : A.callable k s.reader = true)
    (hg : guard s (.call k) = true) (hcall : A.call k s.reader = .ok r')
    (hs : Approaches V P h answer mem S p₁ c₁ log s) :
    Approaches V P h answer mem S p₁ c₁ log (s.note k r') := by
  obtain ⟨-, hstate, hcode, -, hsize, -⟩ := hA.of_call ht.sound hp hcall
  obtain ⟨hvalue, hcore⟩ := hans.call ht.sound hp hg hcall
  obtain ⟨c, hopen, hc, hstatus⟩ := hs
  rw [Approaches, note_pass_consumed s k r' hcode hsize]
  refine ⟨c, hopen, ?_, fun hs => ?_⟩
  · rcases hcore with hcore | ⟨hs, hcore⟩
    · change (V.core r' = c ∨ V.phase r'.state = _ ∧ P.methodKnown (V.core r').framing = _)
      rw [hcore, hstate]
      exact hc
    · exact .inl (hcore.trans (hstatus hs))
  · have hs : s.reader.code = .statusCode := hcode.symm.trans hs
    change answer (r'.value mem) (V.core r') = c
    rw [hvalue hs]
    rcases hcore with hcore | ⟨-, hcore⟩
    · rw [hcore]
      exact hstatus hs
    · rw [hcore, hans.again]
      exact hstatus hs

/-- The first head behind a moment at which one begins ends where it is known to end, and with what it
is known to be remembered. -/
theorem play_headEnd [DecidableEq φ] {f : φ} {n p q j : Nat} {e : Eol} {u : List Event} {rest : Bytes}
    (hA : A.Lawful V P Legal) (hans : Answers A V P Legal guard mem answer)
    (ht : Tracks V Legal S s₁) (hin : (V.phase s₁.reader.state).inHead = true)
    (hcode : s₁.reader.code ≠ .statusCode)
    (hon : P.onHeaders f n = .ok (s'.framing, s'.phase)) (hn : s'.bodySize = n)
    (htotal : ∀ p c w, ∃ v, (machine (P.withHeaders (P.onlyAt f n)) fun _ => answer).Runs false p c w v)
    (hlead : (machine (P.withHeaders (P.onlyAt f n)) fun _ => answer).Leads false s₁.pass.consumed
      (V.core s₁.reader, 0) (S.drop s₁.pass.consumed) (u ++ [endOfHeaders q e]) p (s', j) rest)
    (hu : u.any Event.isHeadEnd = false)
    (h : (system A mem S guard).conforming s₁ ops = true)
    (hplay : (system A mem S guard).play s₁ ops = .ok s₀)
    (hend : s₁.HeadEnds s₀) :
    s₀.reader.code = .endOfHeaders ∧ s₀.pass.consumed = q + e.bytes.length ∧
      V.core s₀.reader = s' := by
  obtain ⟨log, x, hlog, hx, hlog'⟩ := hend
  have hrun := play_induction hA (I := fun s => ∃ log, s.emitted = s₁.emitted ++ log ∧
      ToHeadEnd V P (P.onlyAt f n) answer mem S s₁.pass.consumed (V.core s₁.reader)
        (q + e.bytes.length) s' log s) ?_ ?_ ?_ ht ?_ h
  · obtain ⟨s, hs, -, log₁, hlog₁, hend⟩ := hrun
    have hsame : s₀ = s := Except.ok.inj (hplay.symm.trans hs)
    subst hsame
    have hlogs : log₁ = log ++ [x] := List.append_cancel_left (hlog₁.symm.trans hlog)
    subst hlogs
    cases hend with
    | before hnone _ => exact absurd hx (hnone x (by simp))
    | there _ _ hcode hp hc => exact ⟨hcode, hp, hc⟩
    | behind heq hy hne =>
      -- the first end of a head would not be the last entry
      rename_i log₁ log₂ y
      obtain ⟨log₃, z, rfl⟩ := List.eq_nil_or_concat log₂ |>.resolve_left hne
      rw [List.concat_eq_append, ← List.cons_append, ← List.append_assoc] at heq
      obtain ⟨rfl, -⟩ := List.append_inj' heq rfl
      exact absurd hy (hlog' y (by simp))
  · rintro s r' ht ⟨log, hlog, hs⟩ he - - hout -
    refine ⟨log ++ [(s.pass.consumed, r'.token mem)], ?_, ?_⟩
    · rw [emitted_report, hlog, List.append_assoc]
    cases hs with
    | before hnone hs =>
      exact (hs he).report hA hans ht he hout fun ho hw hl =>
        ho.ends hw hl hon hn htotal hlead hu
    | there heq hy hcode hpass hcore =>
      rename_i log₁ y
      have heq' : log ++ [(s.pass.consumed, r'.token mem)]
          = log₁ ++ y :: [(s.pass.consumed, r'.token mem)] := by
        rw [heq, List.append_assoc]
        rfl
      exact .behind heq' hy (by simp)
    | behind heq hy hne =>
      rename_i log₁ log₂ y
      have heq' : log ++ [(s.pass.consumed, r'.token mem)]
          = log₁ ++ y :: (log₂ ++ [(s.pass.consumed, r'.token mem)]) := by
        rw [heq, List.append_assoc]
        rfl
      exact .behind heq' hy (by simp)
  · rintro s size ht ⟨log, hlog, hs⟩ hp -
    refine ⟨log, hlog, ?_⟩
    cases hs with
    | before hnone hs => exact .before hnone fun he => (hs he).rebase ht hp
    | there heq hy hcode hpass hcore =>
      exact .there heq hy hcode ((rebase_pass_consumed s size).trans hpass) hcore
    | behind heq hy hne => exact .behind heq hy hne
  · rintro s c r' ht ⟨log, hlog, hs⟩ hp hg hcall
    refine ⟨log, hlog, ?_⟩
    obtain ⟨-, hstate, hcode, -, hsize, -⟩ := hA.of_call ht.sound hp hcall
    cases hs with
    | before hnone hs =>
      exact .before hnone fun he => (hs (by rw [← hstate]; exact he)).note hA hans ht hp hg hcall
    | there heq hy hend hpass hcore' =>
      refine .there heq hy (hcode.trans hend)
        ((note_pass_consumed s c r' hcode hsize).trans hpass) ?_
      rcases (hans.call ht.sound hp hg hcall).2 with hcore | ⟨hs, -⟩
      · exact hcore.trans hcore'
      · rw [hend] at hs
        cases hs
    | behind heq hy hne => exact .behind heq hy hne
  · refine ⟨[], (List.append_nil _).symm, .before nofun fun _ => ?_⟩
    exact ⟨V.core s₁.reader, ⟨nofun, hin, 0, Machine.Explains.refl⟩, .inl rfl,
      fun h => absurd h hcode⟩

end Session

/-! ## Heads that announce a length -/

section Heads

variable {φ : Type} {P : Policy φ} {h : φ → Nat → Except Code (φ × Phase)} {f : φ} {n : Nat}
  {xs : List Field} {s' : Core φ}

theorem readFields_withHeaders : (P.withHeaders h).readFields f n xs = P.readFields f n xs := by
  induction xs generalizing f n with
  | nil => rfl
  | cons x xs ih =>
    have hfield : (P.withHeaders h).readField f n x = P.readField f n x := rfl
    rw [Policy.readFields, Policy.readFields, hfield]
    simp only [ih]

/-- What is remembered at the end of the headers that a policy accepts. -/
theorem headers_onlyAt [DecidableEq φ] (hs : P.headers f n xs = .ok s') :
    ∃ f' n', P.onHeaders f' n' = .ok (s'.framing, s'.phase) ∧ s'.bodySize = n' ∧
      (P.withHeaders (P.onlyAt f' n')).headers f n xs = .ok s' := by
  unfold Policy.headers at hs
  split at hs
  · cases hs
  rename_i f' n' hfields
  split at hs
  · cases hs
  rename_i f'' q hon
  cases hs
  refine ⟨f', n', hon, rfl, ?_⟩
  have hdecision : (P.withHeaders (P.onlyAt f' n')).onHeaders f' n' = .ok (f'', q) :=
    (if_pos ⟨rfl, rfl⟩).trans hon
  rw [Policy.headers, readFields_withHeaders, hfields]
  simp only [hdecision]

end Heads

namespace Request

variable {mem : Nat → UInt8} {S : Bytes} {version : Version} {bodySize : Nat} {s₀ : Run}
  {ops₀ : List (Op Empty)}

theorem answers (mem : Nat → UInt8) :
    Session.Answers (api mem) view policy Legal Session.free mem fun _ c => c where
  phase _ _ := rfl
  again _ _ := rfl
  waits _ _ := .inl fun _ => rfl
  call {_ c} := c.elim

/-- A length that is announced is what the reader counts. -/
theorem counted_of_headers {v : Version} {n k : Nat} {xs : List Field} {s' : Core Memory}
    (h : policy.headers (v, .noBody) n xs = .ok s') (hk : Announces true xs k) :
    s'.framing.2 = .contentLengthRead ∧ s'.bodySize = k := by
  obtain ⟨v', m', n', -, hm, hh, hn⟩ := headers_iff.mp h
  obtain ⟨-, -, hr⟩ := read_iff.mp hm
  rw [hk.finalMode, Prod.mk.injEq] at hr
  obtain ⟨rfl, rfl⟩ := hr
  obtain ⟨-, -, hf, -⟩ := onHeaders_iff.mp hh
  exact ⟨congrArg Prod.snd hf, hn⟩

/-- The schedule `ops₀` ends at the offset `p`, behind a head that announces a body of `n` bytes. -/
def HeadRead (mem : Nat → UInt8) (S : Bytes) (r : Run) (ops₀ : List (Op Empty)) (s₀ : Run)
    (p n : Nat) : Prop :=
  ∃ ops₁ ops₂ s₁ g rest, ops₀ = ops₁ ++ ops₂ ∧ (session mem S).play r ops₁ = .ok s₁ ∧
    s₁.reader.state = .expectMethod ∧ S.drop s₁.pass.consumed = Head.bytes g ++ rest ∧
    Accepts g.digit g.headers ∧ Announces true g.headers n ∧ s₁.HeadEnds s₀ ∧
    p = s₁.pass.consumed + g.bytes.length

theorem HeadRead.counted {p n : Nat} (hr : HeadRead mem S (fresh version bodySize) ops₀ s₀ p n)
    (h₀ : (session mem S).play (fresh version bodySize) ops₀ = .ok s₀)
    (h : (session mem S).conforming (fresh version bodySize) ops₀ = true) :
    s₀.reader.code = .endOfHeaders ∧ s₀.reader.bodyType = .contentLengthRead ∧
      s₀.reader.bodySize = n ∧ s₀.pass.consumed = p := by
  obtain ⟨ops₁, ops₂, s₁, g, rest, rfl, h₁, hstate, hS, ha, hn, hend, rfl⟩ := hr
  obtain ⟨s₁', h₁', ht⟩ := Session.play_tracks (lawful mem) (tracks_fresh version bodySize S)
    (Guarded.conforming_append h)
  obtain rfl := Except.ok.inj (h₁'.symm.trans h₁)
  obtain ⟨hcore, hbody⟩ := core_method ht.sound hstate
  obtain ⟨s', hs'⟩ := (headers_ok_iff (s₁'.reader.connection, s₁'.reader.bodyType) hbody g.digit
    s₁'.reader.bodySize g.headers).mpr ha
  obtain ⟨f, n', hon, hn', hprobe⟩ := headers_onlyAt hs'
  have hlead : (machine (policy.withHeaders (policy.onlyAt f n')) fun _ _ c => c).Leads false
      s₁'.pass.consumed
      (⟨.method, (s₁'.reader.connection, s₁'.reader.bodyType), s₁'.reader.bodySize⟩, 0)
      (g.bytes ++ rest) (g.events s₁'.pass.consumed) (s₁'.pass.consumed + g.bytes.length) (s', 0)
      rest :=
    leads_head g hprobe
  rw [← hS, ← hcore, Head.events, ← List.append_assoc] at hlead
  have hplay : (session mem S).play s₁' ops₂ = .ok s₀ := by
    rw [Guarded.play_append, h₁] at h₀
    exact h₀
  have hphase : (view.phase s₁'.reader.state).inHead = true := by rw [hstate]; rfl
  obtain ⟨hcode, hconsumed, hsame⟩ := Session.play_headEnd (lawful mem) (answers mem) ht hphase
    (statusCode_ne ht.sound) hon hn' (exists_runs _ _ (fun _ => rfl) (fun _ _ _ => rfl) false) hlead
    (by rw [List.any_append, any_block]; rfl) (Guarded.conforming_of_play h h₁) hplay hend
  have hheaders : policy.headers ((policy.onVersion (s₁'.reader.connection, s₁'.reader.bodyType)
      g.digit).1, .noBody) s₁'.reader.bodySize g.headers = .ok s' := by
    rw [← hs', ← hbody]
    rfl
  obtain ⟨htype, hsize⟩ := counted_of_headers hheaders hn
  rw [← hsame] at htype hsize
  refine ⟨hcode, htype, hsize, hconsumed.trans ?_⟩
  simp only [Head.bytes, List.length_append]
  omega

end Request

namespace Response

variable {mem : Nat → UInt8} {S m : Bytes} {bodySize : Nat} {s₀ : Run} {ops₀ : List (Op Call)}

def naming (m : Bytes) (_ : Run) : Op Call → Bool
  | .call (.setMethod m') => m' == m
  | _ => true

def answer (m : Bytes) : Value → Core Memory → Core Memory := respond (fun _ => m) 0

theorem unknown_of_lex {b : Bool} {c c' : Core Memory} {w : Bytes} {n : Nat} (hl : Legal c)
    (h : policy.lex b c w = .emit c' n .statusCode) :
    c'.phase = .spAfterStatusCode ∧ policy.methodKnown c'.framing = false := by
  obtain ⟨q, hq, he⟩ := emits_of_lex h
  have hlegal := hl.goto hq
  generalize w.take n = raw at he
  generalize hcode : Code.statusCode = code at he
  cases he with
  | lexeme _ _ _ hacc =>
    subst hcode
    unfold Policy.accept at hacc
    split at hacc <;> first
      | cases hacc
      | (split at hacc <;> cases hacc)
    rename_i hp
    have hf : c.framing.2 = .unknownBody := by
      have hf := hlegal.2
      rw [hp] at hf
      exact hf
    exact ⟨rfl, by simp [policy, hf]⟩
  | _ => cases hcode

theorem answers (mem : Nat → UInt8) (m : Bytes) :
    Session.Answers (api mem) view policy Legal (naming m) mem (answer m) where
  phase := respond_phase _ _
  again := respond_respond _ _
  waits hl h := .inr (unknown_of_lex hl h)
  call {s c r'} hr hc hg hcall := by
    cases c with
    | puteof =>
      cases hcall
      exact ⟨fun _ => rfl, .inl rfl⟩
    | setMethod m' =>
      have hm : m' = m := by simpa [naming] using hg
      subst hm
      have hcode : s.reader.code = .statusCode := by simpa [api] using hc
      obtain ⟨hcore, hstatus, -, -, hcode', -, -⟩ :=
        @setMethod_effect (fun _ => m') _ _ 0 hr hcode hcall
      have hvalue : ∀ r : Response, r.code = .statusCode → r.value mem = .statusCode (status r) := by
        intro r hr
        unfold Reader.value
        rw [hr]
        rfl
      refine ⟨fun _ => ?_, .inr ⟨hcode, ?_⟩⟩
      · rw [hvalue r' (hcode'.trans hcode), hvalue s.reader hcode, hstatus]
      · rw [hvalue s.reader hcode]
        exact hcore

/-- A length that is announced is what the reader counts. -/
theorem counted_of_headers {digit : UInt8} {n k : Nat} {xs : List Field} {s' : Core Memory}
    (h : policy.headers (digit == 0x30, .connectionDelimited) n xs = .ok s')
    (hk : Announces (digit != 0x30) xs k) :
    s'.framing.2 = .contentLengthRead ∧ s'.bodySize = k := by
  have hte : (!(digit == 0x30)) = (digit != 0x30) := rfl
  obtain ⟨m', n', hm, rfl⟩ := headers_iff.mp h
  rw [hte] at hm
  obtain ⟨-, -, hr⟩ := read_iff.mp hm
  rw [hk.finalMode, Prod.mk.injEq] at hr
  obtain ⟨rfl, rfl⟩ := hr
  exact ⟨rfl, rfl⟩

/-- The schedule `ops₀` ends at the offset `p`, behind a head that may have a body and announces one of
`n` bytes; the client has not named two methods for it. -/
def HeadRead (mem : Nat → UInt8) (S : Bytes) (r : Run) (ops₀ : List (Op Call)) (s₀ : Run)
    (p n : Nat) : Prop :=
  ∃ ops₁ ops₂ s₁ g rest m, ops₀ = ops₁ ++ ops₂ ∧ (session mem S).play r ops₁ = .ok s₁ ∧
    s₁.reader.state = .expectVersionStaticStr ∧ S.drop s₁.pass.consumed = Head.bytes g ++ rest ∧
    (∀ m', .call (.setMethod m') ∈ ops₂ → m' = m) ∧ ¬ Bodiless m g.code ∧
    Accepts g.digit g.headers ∧ Announces (g.digit != 0x30) g.headers n ∧ s₁.HeadEnds s₀ ∧
    p = s₁.pass.consumed + g.bytes.length

theorem statusCode_ne {r : Response} (hr : Sound view Legal r) (hs : r.state = .expectVersionStaticStr) :
    r.code ≠ .statusCode := by
  intro hc
  have hp := (hr.status hc).1
  rw [hs] at hp
  cases hp

theorem HeadRead.counted {p n : Nat} (hr : HeadRead mem S (fresh bodySize) ops₀ s₀ p n)
    (h₀ : (session mem S).play (fresh bodySize) ops₀ = .ok s₀)
    (h : (session mem S).conforming (fresh bodySize) ops₀ = true) :
    s₀.reader.code = .endOfHeaders ∧ s₀.reader.bodyType = .contentLengthRead ∧
      s₀.reader.bodySize = n ∧ s₀.pass.consumed = p := by
  obtain ⟨ops₁, ops₂, s₁, g, rest, m, rfl, h₁, hstate, hS, hm, hb, ha, hn, hend, rfl⟩ := hr
  obtain ⟨s₁', h₁', ht⟩ := Session.play_tracks (lawful mem) (tracks_fresh bodySize S)
    (Guarded.conforming_append h)
  obtain rfl := Except.ok.inj (h₁'.symm.trans h₁)
  have hcore := core_start ht.sound hstate
  obtain ⟨s', hs'⟩ := (headers_ok_iff g.digit s₁'.reader.bodySize g.headers).mpr ha
  obtain ⟨hmemory, hsize'⟩ := memory_of_not_bodiless (n := s₁'.reader.bodySize) hb
  obtain ⟨f, n', hon, hn', hprobe⟩ := headers_onlyAt hs'
  have hread : (policy.withHeaders (policy.onlyAt f n')).headers (g.memory m s₁'.reader.bodySize)
      (bodyFor m g.code s₁'.reader.bodySize).2 g.headers = .ok s' := by rw [hmemory, hsize', hprobe]
  have hlead : (lexerWith (policy.onlyAt f n') fun _ => m).Leads false s₁'.pass.consumed
      (⟨.versionStaticStr, (false, .unknownBody), s₁'.reader.bodySize⟩, 0) (g.bytes ++ rest)
      (g.events s₁'.pass.consumed) (s₁'.pass.consumed + g.bytes.length) (s', 1) rest :=
    leadsWith_head g hread
  rw [← hS, ← hcore, Head.events, ← List.append_assoc] at hlead
  -- the calls of `set_method()` are those of a client that names one method
  have hperform : (Session.system (api mem) mem S (naming m)).perform = (session mem S).perform := rfl
  have hnaming : (Session.system (api mem) mem S (naming m)).conforming s₁' ops₂ = true := by
    refine Guarded.conforming_of_mem hperform (fun {s o} ho hp => ?_)
      (Guarded.conforming_of_play h h₁)
    simp only [Session.system, Bool.and_eq_true] at hp ⊢
    refine ⟨hp.1, ?_⟩
    cases o with
    | next | setBuffer size => rfl
    | call c =>
      cases c with
      | puteof => rfl
      | setMethod m' => exact beq_iff_eq.mpr (hm m' ho)
  have hplay : (Session.system (api mem) mem S (naming m)).play s₁' ops₂ = .ok s₀ := by
    rw [Guarded.play_congr hperform]
    rw [Guarded.play_append, h₁] at h₀
    exact h₀
  have hphase : (view.phase s₁'.reader.state).inHead = true := by rw [hstate]; rfl
  obtain ⟨hcode, hconsumed, hsame⟩ := Session.play_headEnd (lawful mem) (answers mem m) ht hphase
    (statusCode_ne ht.sound hstate) hon hn'
    (exists_runs (policy.withHeaders (policy.onlyAt f n')) (fun _ => answer m) onMessageEnd_rank
      (fun _ => respond_phase _ _) false) hlead
    (by rw [List.any_append, any_block]; rfl) hnaming hplay hend
  obtain ⟨htype, hsize⟩ := counted_of_headers hs' hn
  rw [← hsame] at htype hsize
  refine ⟨hcode, htype, hsize, hconsumed.trans ?_⟩
  simp only [Head.bytes, List.length_append]
  omega

end Response

/-- However a client drives a reader, the bodies it is shown are those of the stream; behind a head that
announces a length that many bytes are delivered, and then the body ends; and the end of the input
completes no message that is cut off. -/
theorem body_delivery (mem : Nat → UInt8) (S : Bytes) :
    (∀ version bodySize ops₀ ops s₀,
      (Request.session mem S).play (Request.fresh version bodySize) ops₀ = .ok s₀ →
      (Request.session mem S).conforming (Request.fresh version bodySize) (ops₀ ++ ops) = true →
      ∃ s log, (Request.session mem S).play (Request.fresh version bodySize) (ops₀ ++ ops) = .ok s ∧
        s.emitted = s₀.emitted ++ log ∧
        Session.Delivery S (Request.next mem) Request.view .contentLengthRead .chunkedEncodingRead
          s₀ s log ∧
        ∀ p n, Request.HeadRead mem S (Request.fresh version bodySize) ops₀ s₀ p n →
          s₀.reader.bodySize = n ∧ Session.DeliversCounted S p n (Request.next mem) s log) ∧
    (∀ bodySize ops₀ ops s₀, (Response.session mem S).play (Response.fresh bodySize) ops₀ = .ok s₀ →
      (Response.session mem S).conforming (Response.fresh bodySize) (ops₀ ++ ops) = true →
      ∃ s log, (Response.session mem S).play (Response.fresh bodySize) (ops₀ ++ ops) = .ok s ∧
        s.emitted = s₀.emitted ++ log ∧
        Session.Delivery S (Response.next mem) Response.view .contentLengthRead .chunkedEncodingRead
          s₀ s log ∧
        (∀ p n, Response.HeadRead mem S (Response.fresh bodySize) ops₀ s₀ p n →
          s₀.reader.bodySize = n ∧ Session.DeliversCounted S p n (Response.next mem) s log) ∧
        Response.EndsOnlyRest mem S s₀ s log) := by
  constructor
  · intro version bodySize ops₀ ops s₀ h₀ h
    obtain ⟨s, log, hplay, hlog, hdel⟩ := Session.play_delivery (Request.lawful mem)
      (Request.quiet mem) Request.orderly
      (fun hl hb hp => ⟨Request.counted_starts hl hb hp, nofun⟩) Request.chunked_starts
      (Request.tracks_fresh version bodySize S) (Request.recorded_fresh version bodySize) rfl rfl rfl
      rfl rfl h₀ h
    refine ⟨s, log, hplay, hlog, hdel, fun p n hr => ?_⟩
    obtain ⟨hcode, htype, hsize, hp⟩ := hr.counted h₀ (Guarded.conforming_append h)
    have hcounted := hdel.counted hcode htype
    rw [hsize, hp] at hcounted
    exact ⟨hsize, hcounted⟩
  · intro bodySize ops₀ ops s₀ h₀ h
    obtain ⟨s, log, hplay, hlog, hdel⟩ := Session.play_delivery (Response.lawful mem)
      (Response.quiet mem) Response.orderly Response.counted_starts Response.chunked_starts
      (Response.tracks_fresh bodySize S) (Response.recorded_fresh bodySize) rfl rfl rfl rfl rfl h₀ h
    refine ⟨s, log, hplay, hlog, hdel, fun p n hr => ?_, ?_⟩
    · obtain ⟨hcode, htype, hsize, hp⟩ := hr.counted h₀ (Guarded.conforming_append h)
      have hcounted := hdel.counted hcode htype
      rw [hsize, hp] at hcounted
      exact ⟨hsize, hcounted⟩
    · obtain ⟨s', log', hplay', ht₀, -, hlog', hplaced⟩ := Session.play_log (Response.lawful mem)
        (Response.tracks_fresh bodySize S) (Response.recorded_fresh bodySize) h₀ h
      obtain rfl := Except.ok.inj (hplay'.symm.trans hplay)
      obtain rfl := List.append_cancel_left (hlog'.symm.trans hlog)
      obtain ⟨s'', hplay'', ht⟩ := Session.play_tracks (Response.lawful mem)
        (Response.tracks_fresh bodySize S) h
      obtain rfl := Except.ok.inj (hplay''.symm.trans hplay)
      refine ⟨fun r' hr' => Response.eof_caused ht.sound hr', fun hst => ?_⟩
      refine Session.play_rest (Response.lawful mem) ht₀ (by rw [hst]; rfl)
        (Guarded.conforming_of_play h h₀) ?_ hlog hplaced
      rw [Guarded.play_append, h₀] at hplay
      exact hplay

def Request.lengthHead : Request.Head :=
  ⟨ascii "PUT", ascii "/", 0x30, .lf, [(.ofLength (ascii " 12") (by decide +kernel), .lf)], .lf,
    Request.put_ne, Request.put_chars, Request.slash_ne, Request.slash_chars, isDigit_zero⟩

def Response.lengthHead : Response.Head :=
  ⟨0x31, ascii "200", [], .lf, [(.ofLength (ascii " 15") (by decide +kernel), .lf)], .lf, isDigit_one,
    Response.ok_length, Response.ok_digits, isText_nil⟩

theorem Request.accepts_lengthHead :
    Accepts lengthHead.digit lengthHead.headers ∧ Announces true lengthHead.headers 12 := by
  have hnone : encodings true lengthHead.headers = [] := by decide +kernel
  have hone : lengths true lengthHead.headers = [ascii "12"] := by decide +kernel
  refine ⟨⟨fun h => absurd rfl h, by simp [hnone], by simp [hnone], ?_⟩, hnone, _, hone,
    by decide +kernel⟩
  rw [hone]
  refine ⟨by decide, fun v hv => ?_⟩
  rw [List.mem_singleton.mp hv]
  exact ⟨by decide, by decide +kernel, by decide +kernel⟩

theorem Response.accepts_lengthHead : Accepts lengthHead.digit lengthHead.headers ∧
    Announces (lengthHead.digit != 0x30) lengthHead.headers 15 := by
  have hnone : encodings (lengthHead.digit != 0x30) lengthHead.headers = [] := by decide +kernel
  have hone : lengths (lengthHead.digit != 0x30) lengthHead.headers = [ascii "15"] := by
    decide +kernel
  refine ⟨⟨by simp [hnone, ValidEncodings], ?_⟩, hnone, _, hone, by decide +kernel⟩
  rw [hone]
  refine ⟨by decide, fun v hv => ?_⟩
  rw [List.mem_singleton.mp hv]
  exact ⟨by decide, by decide +kernel, by decide +kernel⟩

/-- A request whose body is cut in two, and a response whose body is cut off by the end of the
input. -/
theorem body_delivery_cut :
    (let S := Request.lengthHead.bytes ++ ascii "abcdefghijklG"
      let head : List (Op Empty) := .setBuffer 36 :: List.replicate 10 .next
      let rest : List (Op Empty) := [.next, .next, .setBuffer 12, .next, .next, .next]
      ∃ s₀ s log, (Request.session (fun _ => 0) S).play (Request.fresh .http10 0) head = .ok s₀ ∧
        s₀.reader.bodySize = 12 ∧
        (Request.session (fun _ => 0) S).play (Request.fresh .http10 0) (head ++ rest) = .ok s ∧
        s.emitted = s₀.emitted ++ log ∧
        Session.DeliversCounted S 35 12 (Request.next fun _ => 0) s log) ∧
    (let S := Response.lengthHead.bytes ++ ascii "ab"
      let head : List (Op Response.Call) := List.flatten [[.setBuffer 36], List.replicate 3 .next,
        [.call (.setMethod (ascii "GET"))], List.replicate 8 .next]
      let rest : List (Op Response.Call) := [.next, .call .puteof, .next, .next]
      ∃ s₀ s log, (Response.session (fun _ => 0) S).play (Response.fresh 0) head = .ok s₀ ∧
        s₀.reader.bodySize = 15 ∧
        (Response.session (fun _ => 0) S).play (Response.fresh 0) (head ++ rest) = .ok s ∧
        s.emitted = s₀.emitted ++ log ∧
        Session.DeliversCounted S 34 15 (Response.next fun _ => 0) s log) := by
  constructor
  · intro S head rest
    have hhead : (Request.session (fun _ => 0) S).ends (Request.fresh .http10 0) head
        (fun s => (s.emitted.getLast?.any fun e => e.2.code == .endOfHeaders) &&
          s.emitted.dropLast.all fun e => e.2.code != .endOfHeaders) = true := by decide +kernel
    obtain ⟨s₀, h₀, hs₀⟩ := Guarded.of_ends hhead
    rw [Bool.and_eq_true] at hs₀
    obtain ⟨s, log, h, hlog, -, hcounted⟩ :=
      (body_delivery (fun _ => 0) S).1 .http10 0 head rest s₀ h₀ (by decide +kernel)
    obtain ⟨hsize, hdel⟩ := hcounted 35 12 ⟨[], head, Request.fresh .http10 0, Request.lengthHead,
      ascii "abcdefghijklG", rfl, rfl, rfl, rfl, Request.accepts_lengthHead.1,
      Request.accepts_lengthHead.2, .of_last rfl hs₀.1 hs₀.2, by decide +kernel⟩
    exact ⟨s₀, s, log, h₀, hsize, h, hlog, hdel⟩
  · intro S head rest
    have hhead : (Response.session (fun _ => 0) S).ends (Response.fresh 0) head
        (fun s => (s.emitted.getLast?.any fun e => e.2.code == .endOfHeaders) &&
          s.emitted.dropLast.all fun e => e.2.code != .endOfHeaders) = true := by decide +kernel
    obtain ⟨s₀, h₀, hs₀⟩ := Guarded.of_ends hhead
    rw [Bool.and_eq_true] at hs₀
    obtain ⟨s, log, h, hlog, -, hcounted, -⟩ :=
      (body_delivery (fun _ => 0) S).2 0 head rest s₀ h₀ (by decide +kernel)
    obtain ⟨hsize, hdel⟩ := hcounted 34 15 ⟨[], head, Response.fresh 0, Response.lengthHead,
      ascii "ab", ascii "GET", rfl, rfl, rfl, rfl, by simp [head], by decide +kernel,
      Response.accepts_lengthHead.1, Response.accepts_lengthHead.2, .of_last rfl hs₀.1 hs₀.2,
      by decide +kernel⟩
    exact ⟨s₀, s, log, h₀, hsize, h, hlog, hdel⟩

end BoostHttp
