import BoostHttp.Clients
import BoostHttp.Observe

/-!
# Fragmentation — the cuts in a stream cannot be observed

A session looks at the stream through windows.  The lexer is coherent, so what was observed so far
together with what the lexer would still observe of the rest is, at every moment, what it observes
of the whole stream; at the end of a complete schedule nothing is left to observe.
-/

open Incremental

namespace BoostHttp

namespace Session

variable {σ β ν κ φ : Type} {A : Api σ β ν κ} {mem : Nat → UInt8} {S : Bytes} {V : View σ β ν φ}
  {P : Policy φ} {Legal : Core φ → Prop} {s : Session σ β ν κ} {r' : Reader σ β ν}
  {client : Client φ} {b : Bool} {c c₀ : Core φ × Nat} {v : List Event}

theorem Tracks.restView_of_exposed (h : Tracks V Legal S s) (he : V.phase s.reader.state ≠ .errored)
    (hx : s.exposed S = true) : s.reader.restView = S.drop s.consumed := by
  have hlen : s.consumed - s.sinceBuffer + s.reader.ibuffer.length = S.length := by
    simpa [exposed] using hx
  have hb := h.sound.bound he
  have hp := h.parsed
  have hs := h.since_le
  have hc := h.consumed_le
  refine (h.window he).eq_of_length ?_
  rw [Reader.length_restView, List.length_drop]
  omega

/-- `next()` adds to the observations what the lexer observes. -/
theorem report_explains (mem : Nat → UInt8) (hA : A.Lawful V P Legal) (ht : Tracks V Legal S s)
    (he : V.phase s.reader.state ≠ .errored) (hc : c.1 = V.core s.reader)
    (hb : V.eof s.reader.connection = true → b = true ∧
      s.reader.consume.restView = S.drop s.pass.consumed)
    (hx : (machine P client).Explains b S 0 c₀ s.pass.consumed c v)
    (hout : Settles V s.reader.consume
      (P.lex (V.eof s.reader.connection) (V.core s.reader) s.reader.consume.restView) r') :
    (V.phase r'.state = .errored →
      (machine P client).Runs b 0 c₀ S (v ++ (r'.token mem).events s.pass.consumed)) ∧
    (V.phase r'.state ≠ .errored →
      (machine P client).Explains b S 0 c₀ (s.pass.report mem r').pass.consumed
        ((machine P client).react (r'.token mem) (V.core r', c.2))
        (v ++ (r'.token mem).events s.pass.consumed)) := by
  have hM := coherent_machine P client
  have hlook : Machine.Look b S s.pass.consumed (V.eof s.reader.connection)
      s.reader.consume.restView := ⟨ht.pass_window he, hb⟩
  have hlegal := ht.sound.legal he
  have hkeeps := hA.implements.keeps
  cases hlex : P.lex (V.eof s.reader.connection) (V.core s.reader) s.reader.consume.restView with
  | need s' =>
    rw [hlex] at hout
    obtain ⟨hcore, hcode, -⟩ := hout.outcome
    have hne := (hkeeps.need hlegal hlex).2
    have htok : (r'.token mem).code = .errorInsufficientData := hcode
    have hev : (r'.token mem).events s.pass.consumed = [] := by
      unfold Token.events
      rw [htok]
    have hreact : (machine P client).react (r'.token mem) (V.core r', c.2) = (s', c.2) := by
      simp [machine, htok, hcore]
    have hpass : (s.pass.report mem r').pass = s.pass.report mem r' := pass_of_isError (by
      change r'.code.isError = true
      rw [hcode]
      rfl)
    refine ⟨fun h => ?_, fun _ => ?_⟩
    · rw [← hcore] at hne
      exact absurd h hne
    · rw [hev, List.append_nil, hreact, hpass]
      refine hx.need hM hlook (step_need_iff.mpr ⟨?_, rfl⟩)
      rw [hc, hlex]
  | emit s' n code =>
    rw [hlex] at hout
    obtain ⟨hcore, hcode, hsize⟩ := hout.outcome
    obtain ⟨-, hne, hcodes, -⟩ := hkeeps.emit hlegal hlex
    have htok := token_eq mem hout
    have hpass : (s.pass.report mem r').pass.consumed = s.pass.consumed + n := by
      have herr : (s.pass.report mem r').reader.code.isError = false := by
        change r'.code.isError = false
        rw [hcode]
        exact hcodes
      rw [pass_of_token herr]
      change s.pass.consumed + r'.tokenSize = _
      rw [hsize]
    refine ⟨fun h => ?_, fun _ => ?_⟩
    · rw [← hcore] at hne
      exact absurd h hne
    · rw [hpass, hcore]
      refine hx.emit hM hlook (step_emit_iff.mpr ?_)
      rw [htok, hc, hlex]
      exact ⟨rfl, rfl, rfl⟩
  | fail code =>
    rw [hlex] at hout
    obtain ⟨hphase, hcode⟩ := hout.outcome
    have hf := hkeeps.fail hlegal hlex
    refine ⟨fun _ => ?_, fun h => absurd hphase h⟩
    have hev : (r'.token mem).events s.pass.consumed
        = (machine P client).view s.pass.consumed ⟨code, 0, .none⟩ := by
      change Token.events s.pass.consumed ⟨r'.code, r'.tokenSize, r'.value mem⟩
        = Token.events s.pass.consumed ⟨code, 0, .none⟩
      rw [hcode]
      cases code <;> first | rfl | cases hf
    rw [hev]
    refine hx.runs_of_fail hM hlook (step_fail_iff.mpr ?_)
    rw [hc, hlex]
    exact ⟨rfl, rfl⟩

/-- What a call of `next()` leaves when it asks for more data. -/
theorem need_of_settles (hA : A.Lawful V P Legal) (ht : Tracks V Legal S s)
    (he : V.phase s.reader.state ≠ .errored) {r' : Reader σ β ν}
    (hout : Settles V s.reader.consume
      (P.lex (V.eof s.reader.connection) (V.core s.reader) s.reader.consume.restView) r')
    (hcode : r'.code = .errorInsufficientData) :
    P.lex (V.eof s.reader.connection) (V.core s.reader) s.reader.consume.restView
        = .need (V.core r') ∧
      r'.tokenSize = (V.phase r'.state).kept s.reader.consume.restView ∧
      r'.restView = s.reader.consume.restView := by
  have hlex := hout.need_of_code hA.implements.keeps (ht.sound.legal he) hcode
  rw [hlex] at hout
  exact ⟨hlex, hout.outcome.2.2, hout.restView⟩

/-- A reader that has looked at its buffer in vain will do so again. -/
def Stuck (V : View σ β ν φ) (P : Policy φ) (s : Session σ β ν κ) : Prop :=
  s.reader.code = .errorInsufficientData →
    P.lex (V.eof s.reader.connection) (V.core s.reader) s.reader.restView = .need (V.core s.reader)

theorem stuck_report (hA : A.Lawful V P Legal) (ht : Tracks V Legal S s)
    (he : V.phase s.reader.state ≠ .errored)
    (hout : Settles V s.reader.consume
      (P.lex (V.eof s.reader.connection) (V.core s.reader) s.reader.consume.restView) r') :
    Stuck V P (s.pass.report mem r') := by
  intro hc
  obtain ⟨hlex, -, hrest⟩ := need_of_settles hA ht he hout hc
  change P.lex (V.eof r'.connection) (V.core r') r'.restView = .need (V.core r')
  rw [hout.eof, consume_connection, hrest]
  have happ := lex_need_append hlex (V.eof s.reader.connection) []
  rw [List.append_nil] at happ
  exact happ.trans hlex

/-- With the whole rest of the stream in view and no token in it, the observations are complete. -/
theorem runs_of_exposed (ht : Tracks V Legal S s) (he : V.phase s.reader.state ≠ .errored)
    (hx : s.exposed S = true) (hi : s.reader.code = .errorInsufficientData) (hs : Stuck V P s)
    (hc : c.1 = V.core s.reader)
    (hexp : (machine P client).Explains (V.eof s.reader.connection) S 0 c₀ s.pass.consumed c v) :
    (machine P client).Runs (V.eof s.reader.connection) 0 c₀ S v := by
  have hpass : s.pass = s := pass_of_isError (by rw [hi]; rfl)
  rw [hpass] at hexp
  have hlex := hs hi
  rw [ht.restView_of_exposed he hx] at hlex
  exact hexp.runs_of_need (step_need_iff.mpr ⟨by rw [hc, hlex], rfl⟩)

theorem events_report (s : Session σ β ν κ) (r : Reader σ β ν) :
    events (s.pass.report mem r).emitted
      = events s.emitted ++ (r.token mem).events s.pass.consumed := by
  change events (s.pass.emitted ++ [(s.pass.consumed, r.token mem)]) = _
  rw [events_append, pass_emitted]
  congr 1
  exact List.append_nil _

theorem wellFormed_report (hA : A.Lawful V P Legal) (ht : Tracks V Legal S s)
    (he : V.phase s.reader.state ≠ .errored)
    (hout : Settles V s.reader.consume
      (P.lex (V.eof s.reader.connection) (V.core s.reader) s.reader.consume.restView) r')
    (hw : ∀ e ∈ s.emitted, e.2.WellFormed) :
    ∀ e ∈ (s.pass.report mem r').emitted, e.2.WellFormed := by
  intro e hmem
  change e ∈ s.pass.emitted ++ [(s.pass.consumed, r'.token mem)] at hmem
  rw [pass_emitted] at hmem
  rcases List.mem_append.mp hmem with h | h
  · exact hw e h
  · rw [List.mem_singleton.mp h]
    exact wellFormed_token mem hA.implements.keeps (ht.sound.legal he) hout

@[simp] theorem rebase_pass_consumed (s : Session σ β ν κ) (size : Nat) :
    (s.rebase S size).pass.consumed = s.pass.consumed := by
  cases h : s.reader.code.isError with
  | true =>
    have h' : (s.rebase S size).reader.code.isError = true := h
    rw [pass_of_isError h, pass_of_isError h']
    rfl
  | false =>
    have h' : (s.rebase S size).reader.code.isError = false := h
    rw [pass_of_token h, pass_of_token h']
    rfl

theorem note_pass_consumed (s : Session σ β ν κ) (c : κ) (r' : Reader σ β ν) (hc : r'.code = s.reader.code)
    (ht : r'.tokenSize = s.reader.tokenSize) : (s.note c r').pass.consumed = s.pass.consumed := by
  cases h : s.reader.code.isError with
  | true =>
    have h' : (s.note c r').reader.code.isError = true := by rw [← h, ← hc]; rfl
    rw [pass_of_isError h, pass_of_isError h']
    rfl
  | false =>
    have h' : (s.note c r').reader.code.isError = false := by rw [← h, ← hc]; rfl
    rw [pass_of_token h, pass_of_token h']
    change s.consumed + r'.tokenSize = _
    rw [ht]

/-- What `next()` establishes and other calls keep holds at the end of every run, when it says nothing
about a new buffer that a waiting reader has not looked at yet: `set_buffer` calls `next()` then. -/
theorem play_settled (hA : A.Lawful V P Legal) {guard : Session σ β ν κ → Op κ → Bool}
    {ops : List (Op κ)} {Q : Session σ β ν κ → Prop}
    (hreport : ∀ {s : Session σ β ν κ} {r'}, Tracks V Legal S s → V.phase s.reader.state ≠ .errored →
      Settles V s.reader.consume
        (P.lex (V.eof s.reader.connection) (V.core s.reader) s.reader.consume.restView) r' →
      Q (s.pass.report mem r'))
    (hrebase : ∀ {s : Session σ β ν κ} {size}, s.reader.code ≠ .errorInsufficientData → Q s →
      Q (s.rebase S size))
    (hcall : ∀ {s : Session σ β ν κ} {c r'}, Tracks V Legal S s → A.callable c s.reader = true →
      A.call c s.reader = .ok r' → Q s → Q (s.note c r'))
    (ht : Tracks V Legal S s) (hs : Q s) (h : (system A mem S guard).conforming s ops = true) :
    ∃ s', (system A mem S guard).play s ops = .ok s' ∧ Q s' := by
  suffices hinv : ∃ s', (system A mem S guard).play s ops = .ok s' ∧ (Tracks V Legal S s' ∧ Q s') by
    obtain ⟨s', hplay, -, hq⟩ := hinv
    exact ⟨s', hplay, hq⟩
  refine Guarded.play_invariant (I := fun s => Tracks V Legal S s ∧ Q s) ?_ ⟨ht, hs⟩ h
  rintro s o ⟨ht, hs⟩ hp
  simp only [system, Bool.and_eq_true] at hp
  have hnext : ∀ {s : Session σ β ν κ}, Tracks V Legal S s →
      (V.phase s.reader.state = .errored → Q s) →
      ∃ s', s.pull A mem = .ok s' ∧ Tracks V Legal S s' ∧ Q s' := by
    intro s ht hs
    by_cases he : V.phase s.reader.state = .errored
    · exact ⟨s, pull_fatal hA he ht.sound, ht, hs he⟩
    · obtain ⟨r', -, hpl, hout, ht'⟩ := pull_ok mem hA ht he
      exact ⟨_, hpl, ht', hreport ht he hout⟩
  cases o with
  | next => exact hnext ht fun _ => hs
  | setBuffer size =>
    have ht' := ht.rebase hp.1
    by_cases hc : s.reader.code = .errorInsufficientData
    · simp only [system, refill_eq_pull hc]
      -- a reader that waits has not failed
      have hcode : (s.rebase S size).reader.code = .errorInsufficientData := hc
      exact hnext ht' fun he => absurd he (ht'.sound.ne_errored (by rw [hcode]; rfl))
    · exact ⟨_, refill_eq_ok hc size, ht', hrebase hc hs⟩
  | call c =>
    obtain ⟨r', hcl, hinv, ht'⟩ := ht.invoke hA hp.1
    exact ⟨_, hinv, ht', hcall ht hp.1 hcl hs⟩

/-- The last buffer of a reader that is stuck was looked at in vain. -/
theorem play_stuck (hA : A.Lawful V P Legal) {guard : Session σ β ν κ → Op κ → Bool}
    {ops : List (Op κ)}
    (hcall : ∀ {s : Session σ β ν κ} {c r'}, A.callable c s.reader = true →
      A.call c s.reader = .ok r' → Stuck V P s → Stuck V P (s.note c r'))
    (ht : Tracks V Legal S s) (hs : Stuck V P s)
    (h : (system A mem S guard).conforming s ops = true) :
    ∃ s', (system A mem S guard).play s ops = .ok s' ∧ Stuck V P s' :=
  play_settled hA (stuck_report hA) (fun hc _ hc' => absurd hc' hc) (fun _ => hcall) ht hs h

end Session

/-! ## Requests -/

namespace Request

/-- A schedule is complete when all of the stream was exposed and `next()` was called until it
reported that data is insufficient, or a fatal error. -/
def complete (S : Bytes) (s : Run) : Bool := s.exposed S && s.reader.code.isError

abbrev lexer : Machine (Core Memory × Nat) UInt8 Token Event := machine policy fun _ _ s => s

/-- The observations made so far, completed by those to come, are those of the lexer on the whole
stream. -/
structure Explained (S : Bytes) (c₀ : Core Memory × Nat) (s : Run) : Prop where
  wellFormed : ∀ e ∈ s.emitted, e.2.WellFormed
  failed : s.reader.state.phase = .errored → lexer.Runs false 0 c₀ S (events s.emitted)
  running : s.reader.state.phase ≠ .errored →
    lexer.Explains false S 0 c₀ s.pass.consumed (view.core s.reader, 0) (events s.emitted)

variable {mem : Nat → UInt8} {S : Bytes} {s : Run} {ops : List (Op Empty)} {c₀ : Core Memory × Nat}

theorem statusCode_ne {r : Request} (h : Sound view Legal r) : r.code ≠ .statusCode := by
  intro hc
  obtain ⟨hp, -⟩ := h.status hc
  have hl := h.legal (by rw [hp]; nofun)
  have hp' : (view.core r).phase = .spAfterStatusCode := hp
  simp [Legal, hp'] at hl

theorem play_explained (ht : Session.Tracks view Legal S s) (hx : Explained S c₀ s)
    (h : (session mem S).conforming s ops = true) :
    ∃ s', (session mem S).play s ops = .ok s' ∧ Session.Tracks view Legal S s' ∧
      Explained S c₀ s' := by
  refine Session.play_induction (lawful mem) ?_ ?_ ?_ ht hx h
  · intro s r' ht hx he _ _ hout ht'
    obtain ⟨hfail, hrun⟩ := Session.report_explains mem (c := (view.core s.reader, 0)) (lawful mem) ht he rfl
      nofun (hx.running he) hout
    have hreact : lexer.react (r'.token mem) (view.core r', 0) = (view.core r', 0) :=
      if_neg (statusCode_ne ht'.sound)
    rw [← Session.events_report] at hfail hrun
    rw [hreact] at hrun
    exact ⟨Session.wellFormed_report (lawful mem) ht he hout hx.wellFormed, hfail, hrun⟩
  · intro s size _ hx _ _
    refine ⟨hx.wellFormed, hx.failed, fun he => ?_⟩
    rw [Session.rebase_pass_consumed]
    exact hx.running he
  · intro s c
    exact c.elim

theorem explained_fresh (version : Version) (bodySize : Nat) :
    Explained S (view.core (init version bodySize), 0) (fresh version bodySize) :=
  ⟨nofun, nofun, fun _ => Machine.Explains.refl⟩

/-- At the end of a complete schedule the observations are those of the lexer on the stream. -/
theorem play_runs (ht : Session.Tracks view Legal S s) (hx : Explained S c₀ s)
    (hs : Session.Stuck view policy s) (h : (session mem S).conforming s ops = true) :
    ∃ s', (session mem S).play s ops = .ok s' ∧ Session.Tracks view Legal S s' ∧
      (∀ e ∈ s'.emitted, e.2.WellFormed) ∧
      (complete S s' = true → lexer.Runs false 0 c₀ S (events s'.emitted)) := by
  obtain ⟨s', hplay, ht', hx'⟩ := play_explained ht hx h
  obtain ⟨s'', hplay', hstuck⟩ := Session.play_stuck (lawful mem) (fun {_ c} => c.elim) ht hs h
  rw [hplay] at hplay'
  cases hplay'
  refine ⟨s', hplay, ht', hx'.wellFormed, fun hc => ?_⟩
  rw [complete, Bool.and_eq_true] at hc
  by_cases he : s'.reader.state.phase = .errored
  · exact hx'.failed he
  · exact Session.runs_of_exposed ht' he hc.1 ((Session.isError_eq ht'.sound he).mp hc.2) hstuck rfl
      (hx'.running he)

theorem stuck_fresh (version : Version) (bodySize : Nat) :
    Session.Stuck view policy (fresh version bodySize) := fun _ => rfl

theorem lexer_total (b : Bool) (p : Nat) (c : Core Memory × Nat) (w : Bytes) :
    ∃ v, lexer.Runs b p c w v :=
  exists_runs policy (fun _ _ s => s) (fun _ => rfl) (fun _ _ _ => rfl) b p c w

/-- From any moment on, what is observed of a complete schedule is what the lexer observes of the
rest of the stream. -/
theorem play_continues {version : Version} {bodySize : Nat} {s₀ : Run} {ops₀ : List (Op Empty)}
    (h₀ : (session mem S).play (fresh version bodySize) ops₀ = .ok s₀)
    (he : s₀.reader.state.phase ≠ .errored)
    (h : (session mem S).conforming (fresh version bodySize) (ops₀ ++ ops) = true) :
    ∃ s, (session mem S).play (fresh version bodySize) (ops₀ ++ ops) = .ok s ∧
      Session.Tracks view Legal S s ∧ (∀ e ∈ s.emitted, e.2.WellFormed) ∧
      (complete S s = true → ∃ v, events s.emitted = events s₀.emitted ++ v ∧
        lexer.Runs false s₀.pass.consumed (view.core s₀.reader, 0) (S.drop s₀.pass.consumed) v) := by
  obtain ⟨s₁, hplay₁, -, hx₁⟩ := play_explained (tracks_fresh version bodySize S)
    (explained_fresh version bodySize) (Guarded.conforming_append h)
  rw [h₀] at hplay₁
  cases hplay₁
  obtain ⟨s, hplay, ht, hw, hruns⟩ := play_runs (tracks_fresh version bodySize S)
    (explained_fresh version bodySize) (stuck_fresh version bodySize) h
  refine ⟨s, hplay, ht, hw, fun hc => ?_⟩
  obtain ⟨v, hv⟩ := lexer_total false s₀.pass.consumed (view.core s₀.reader, 0)
    (S.drop s₀.pass.consumed)
  exact ⟨v, (hruns hc).unique (hx₁.running he v hv), hv⟩

/-- Two clients that feed the same stream to a new reader, however they cut it, observe the same
tokens. -/
theorem request_fragmentation_invariance (mem₁ mem₂ : Nat → UInt8) (S : Bytes) (version : Version)
    (bodySize : Nat) (ops₁ ops₂ : List (Op Empty))
    (h₁ : (session mem₁ S).conforming (fresh version bodySize) ops₁ = true)
    (h₂ : (session mem₂ S).conforming (fresh version bodySize) ops₂ = true) :
    ∃ s₁ s₂, (session mem₁ S).play (fresh version bodySize) ops₁ = .ok s₁ ∧
      (session mem₂ S).play (fresh version bodySize) ops₂ = .ok s₂ ∧
      (complete S s₁ = true → complete S s₂ = true → observe s₁.emitted = observe s₂.emitted) := by
  obtain ⟨s₁, hp₁, -, hw₁, hr₁⟩ := play_runs (tracks_fresh version bodySize S)
    (explained_fresh version bodySize) (stuck_fresh version bodySize) h₁
  obtain ⟨s₂, hp₂, -, hw₂, hr₂⟩ := play_runs (tracks_fresh version bodySize S)
    (explained_fresh version bodySize) (stuck_fresh version bodySize) h₂
  refine ⟨s₁, s₂, hp₁, hp₂, fun hc₁ hc₂ => ?_⟩
  rw [observe_eq hw₁, observe_eq hw₂, (hr₁ hc₁).unique (hr₂ hc₂)]

/-- A request with a body, fed as a whole and in pieces that cut its method, its static text, a
field and its body. -/
theorem request_fragmentation_invariance_post :
    let S := ascii "POST /a HTTP/1.1\r\nHost: x\r\nContent-Length: 3\r\n\r\nabc"
    let whole : List (Op Empty) := .setBuffer 51 :: List.replicate 24 .next
    let pieces : List (Op Empty) := List.flatten [[.setBuffer 3, .next, .setBuffer 10],
      List.replicate 4 .next, [.setBuffer 10], List.replicate 3 .next, [.setBuffer 28],
      List.replicate 8 .next, [.setBuffer 7], List.replicate 5 .next, [.setBuffer 1],
      List.replicate 3 .next]
    ∃ s₁ s₂, (session (fun _ => 0) S).play (fresh .http10 0) whole = .ok s₁ ∧
      (session (fun _ => 1) S).play (fresh .http10 0) pieces = .ok s₂ ∧
      complete S s₁ = true ∧ complete S s₂ = true ∧ observe s₁.emitted = observe s₂.emitted := by
  intro S whole pieces
  obtain ⟨s₁, s₂, h₁, h₂, h⟩ := request_fragmentation_invariance (fun _ => 0) (fun _ => 1) S .http10 0
    whole pieces (by decide +kernel) (by decide +kernel)
  have hc₁ : (session (fun _ => 0) S).ends (fresh .http10 0) whole (complete S) = true := by
    decide +kernel
  have hc₂ : (session (fun _ => 1) S).ends (fresh .http10 0) pieces (complete S) = true := by
    decide +kernel
  rw [Guarded.ends_eq h₁] at hc₁
  rw [Guarded.ends_eq h₂] at hc₂
  exact ⟨s₁, s₂, h₁, h₂, hc₁, hc₂, h hc₁ hc₂⟩

end Request

/-! ## Responses -/

namespace Response

/-- A schedule is complete when all of the stream was exposed and calling `next()` once more changes
nothing. -/
def complete (mem : Nat → UInt8) (S : Bytes) (s : Run) : Bool :=
  s.exposed S && match next mem s.reader with
    | .ok r => r == s.reader
    | .error _ => false

def respond (methods : Nat → Bytes) : Client Memory := fun j v s =>
  match v with
  | .statusCode n =>
    { s with
      framing := (s.framing.1, (bodyFor (methods j) n s.bodySize).1)
      bodySize := (bodyFor (methods j) n s.bodySize).2 }
  | _ => s

abbrev lexer (methods : Nat → Bytes) : Machine (Core Memory × Nat) UInt8 Token Event :=
  machine policy (respond methods)

def answered (methods : Nat → Bytes) (s : Run) : Bool :=
  s.calls.contains (s.emitted.length, .setMethod (methods (statusCodes s - 1)))

/-- The state of the lexer, in which the owner has already answered the current status code. -/
def pending (methods : Nat → Bytes) (s : Run) : Core Memory :=
  if s.reader.code = .statusCode ∧ answered methods s = false then
    respond methods (statusCodes s - 1) (.statusCode (status s.reader)) (view.core s.reader)
  else view.core s.reader

theorem bodyFor_bodyFor (method : Bytes) (statusCode bodySize : Nat) :
    bodyFor method statusCode (bodyFor method statusCode bodySize).2
      = bodyFor method statusCode bodySize := by
  unfold bodyFor
  simp only
  split
  · rfl
  · split <;> rfl

theorem respond_respond (methods : Nat → Bytes) (j : Nat) (v : Value) (s : Core Memory) :
    respond methods j v (respond methods j v s) = respond methods j v s := by
  cases v <;> try rfl
  simp only [respond, bodyFor_bodyFor]

theorem respond_phase (methods : Nat → Bytes) (j : Nat) (v : Value) (s : Core Memory) :
    (respond methods j v s).phase = s.phase := by
  cases v <;> rfl

structure Explained (methods : Nat → Bytes) (S : Bytes) (c₀ : Core Memory × Nat) (s : Run) :
    Prop where
  wellFormed : ∀ e ∈ s.emitted, e.2.WellFormed
  closed : s.reader.connection.eofReceived = true → s.reader.state.phase ≠ .errored →
    s.reader.restView = S.drop s.consumed
  announced : s.reader.connection.eofReceived = true ↔ ∃ n, (n, .puteof) ∈ s.calls
  past : ∀ e ∈ s.calls, e.1 ≤ s.emitted.length
  settled : s.reader.code = .statusCode → answered methods s = true →
    respond methods (statusCodes s - 1) (.statusCode (status s.reader)) (view.core s.reader)
      = view.core s.reader
  failed : ∀ b, (s.reader.connection.eofReceived = true → b = true) →
    s.reader.state.phase = .errored → (lexer methods).Runs b 0 c₀ S (events s.emitted)
  running : ∀ b, (s.reader.connection.eofReceived = true → b = true) →
    s.reader.state.phase ≠ .errored → (lexer methods).Explains b S 0 c₀ s.pass.consumed
      (pending methods s, statusCodes s) (events s.emitted)

variable {mem : Nat → UInt8} {methods : Nat → Bytes} {S : Bytes} {s : Run} {r' : Response}
  {ops : List (Op Call)} {c₀ : Core Memory × Nat}

theorem statusCodes_report (mem : Nat → UInt8) (s : Run) (r : Response) :
    statusCodes (s.pass.report mem r)
      = statusCodes s + if r.code = .statusCode then 1 else 0 := by
  change (s.pass.emitted ++ [(s.pass.consumed, r.token mem)]).countP _ = _
  rw [Session.pass_emitted, List.countP_append, List.countP_singleton]
  change _ + (if (r.code == .statusCode) = true then 1 else 0) = _
  simp only [beq_iff_eq]
  rfl

/-- Nothing has been called since the token was reported. -/
theorem answered_report (mem : Nat → UInt8) (methods : Nat → Bytes) (r' : Response)
    (hpast : ∀ e ∈ s.calls, e.1 ≤ s.emitted.length) :
    answered methods (s.pass.report mem r') = false := by
  unfold answered
  have hlen : (s.pass.report mem r').emitted.length = s.emitted.length + 1 := by
    change (s.pass.emitted ++ [_]).length = _
    rw [Session.pass_emitted, List.length_append, List.length_singleton]
  have hcalls : (s.pass.report mem r').calls = s.calls := Session.pass_calls
  rw [hcalls, hlen, ← Bool.not_eq_true, List.contains_iff_mem]
  intro hmem
  have hle := hpast _ hmem
  simp at hle

theorem pending_of_guard (S : Bytes) (hg : s.reader.code = .errorInsufficientData ∨
    attentive methods S s .next = true) : pending methods s = view.core s.reader := by
  refine if_neg ?_
  rintro ⟨hc, ha⟩
  rcases hg with hi | hg
  · rw [hc] at hi
    cases hi
  · have ha' : s.calls.contains
        (s.emitted.length, .setMethod (methods (statusCodes s - 1))) = false := ha
    simp only [attentive, hc, bne_self_eq_false, Bool.false_or, ha'] at hg
    cases hg

/-- The lexer answers a status code where the client is about to. -/
theorem react_report (hpast : ∀ e ∈ s.calls, e.1 ≤ s.emitted.length) :
    (lexer methods).react (r'.token mem) (view.core r', statusCodes s)
      = (pending methods (s.pass.report mem r'), statusCodes (s.pass.report mem r')) := by
  have hans := answered_report mem methods r' hpast
  have hcount := statusCodes_report mem s r'
  unfold pending
  by_cases hc : r'.code = .statusCode
  · rw [if_pos hc] at hcount
    have hcode : (s.pass.report mem r').reader.code = .statusCode := hc
    have htok : (r'.token mem).code = .statusCode := hc
    rw [if_pos ⟨hcode, hans⟩, hcount, Nat.add_sub_cancel]
    change (if (r'.token mem).code = .statusCode then _ else _) = _
    rw [if_pos htok]
    have hval : (r'.token mem).value = .statusCode (status r') := by
      change r'.value mem = _
      unfold Reader.value
      rw [hc]
      rfl
    rw [hval]
    rfl
  · rw [if_neg hc, Nat.add_zero] at hcount
    have hcode : ¬ ((s.pass.report mem r').reader.code = .statusCode ∧
        answered methods (s.pass.report mem r') = false) := fun h => hc h.1
    have htok : (r'.token mem).code ≠ .statusCode := hc
    rw [if_neg hcode, hcount]
    exact if_neg htok

theorem past_note {c : Call} (hpast : ∀ e ∈ s.calls, e.1 ≤ s.emitted.length) :
    ∀ e ∈ (s.note c r').calls, e.1 ≤ (s.note c r').emitted.length := by
  intro e hmem
  rcases List.mem_append.mp hmem with h | h
  · exact hpast e h
  · rw [List.mem_singleton.mp h]
    exact Nat.le_refl _

theorem explained_report (ht : Session.Tracks view Legal S s) (hx : Explained methods S c₀ s)
    (he : s.reader.state.phase ≠ .errored)
    (hg : s.reader.code = .errorInsufficientData ∨ attentive methods S s .next = true)
    (hout : Settles view s.reader.consume
      (policy.lex (view.eof s.reader.connection) (view.core s.reader) s.reader.consume.restView) r') :
    Explained methods S c₀ (s.pass.report mem r') := by
  have heof : r'.connection.eofReceived = s.reader.connection.eofReceived := by
    have h := hout.eof
    rwa [consume_connection] at h
  have hwhole : s.reader.connection.eofReceived = true →
      s.reader.consume.restView = S.drop s.pass.consumed := fun h =>
    ht.pass_whole he (hx.closed h he)
  have hans := answered_report mem methods r' hx.past
  have hexp := fun b (hb : s.reader.connection.eofReceived = true → b = true) =>
    Session.report_explains mem (c := (view.core s.reader, statusCodes s)) (lawful mem) ht he rfl
      (fun h => ⟨hb h, hwhole h⟩) (pending_of_guard S hg ▸ hx.running b hb he) hout
  refine ⟨Session.wellFormed_report (lawful mem) ht he hout hx.wellFormed, ?_, ?_, ?_, ?_, ?_, ?_⟩
  · intro h _
    change r'.restView = S.drop s.pass.consumed
    rw [← hwhole (heof ▸ h)]
    exact hout.restView
  · change r'.connection.eofReceived = true ↔ ∃ n, (n, .puteof) ∈ s.pass.calls
    rw [heof, Session.pass_calls]
    exact hx.announced
  · intro e hmem
    change e ∈ s.pass.calls at hmem
    rw [Session.pass_calls] at hmem
    have hle := hx.past e hmem
    change e.1 ≤ (s.pass.emitted ++ [_]).length
    rw [Session.pass_emitted, List.length_append]
    omega
  · intro _ h
    rw [hans] at h
    cases h
  · intro b hb hp
    rw [Session.events_report]
    exact (hexp b (fun h => hb (heof.trans h))).1 hp
  · intro b hb hp
    rw [Session.events_report, ← react_report hx.past]
    exact (hexp b (fun h => hb (heof.trans h))).2 hp

theorem explained_rebase (ht : Session.Tracks view Legal S s) (hx : Explained methods S c₀ s)
    {size : Nat} (hp : Session.permits (api mem) S s (.setBuffer size) = true)
    (hg : attentive methods S s (.setBuffer size) = true) :
    Explained methods S c₀ (s.rebase S size) := by
  have hstatus : s.reader.code = .statusCode → status (s.rebase S size).reader = status s.reader := by
    intro hc
    have hne : view.phase s.reader.state ≠ .errored := by
      rw [(ht.sound.status hc).1]
      nofun
    rw [status, (ht.rebase_slice hne hp).2]
    rfl
  have hpending : pending methods (s.rebase S size) = pending methods s := by
    unfold pending
    by_cases hc : s.reader.code = .statusCode ∧ answered methods s = false
    · have hc' : (s.rebase S size).reader.code = .statusCode ∧
          answered methods (s.rebase S size) = false := hc
      rw [if_pos hc, if_pos hc', hstatus hc.1]
      rfl
    · have hc' : ¬ ((s.rebase S size).reader.code = .statusCode ∧
          answered methods (s.rebase S size) = false) := hc
      rw [if_neg hc, if_neg hc']
      rfl
  refine ⟨hx.wellFormed, fun heof _ => ?_, hx.announced, hx.past, fun hc ha => ?_, hx.failed,
    fun b hb he => ?_⟩
  · have hlen : s.consumed + size = S.length := by
      have heof' : s.reader.connection.eofReceived = true := heof
      simpa [attentive, heof'] using hg
    rw [Session.rebase_restView]
    apply List.take_of_length_le
    rw [List.length_drop]
    omega
  · rw [hstatus hc]
    exact hx.settled hc ha
  · rw [hpending, Session.rebase_pass_consumed]
    exact hx.running b hb he

theorem explained_puteof (ht : Session.Tracks view Legal S s) (hx : Explained methods S c₀ s)
    (hg : s.exposed S = true) : Explained methods S c₀ (s.note .puteof (puteof s.reader)) := by
  have hans : answered methods (s.note .puteof (puteof s.reader)) = answered methods s := by
    simp [answered, statusCodes, Session.note]
  refine ⟨hx.wellFormed, fun _ he => ht.restView_of_exposed he hg,
    ⟨fun _ => ⟨s.emitted.length, List.mem_append_right _ (List.mem_singleton_self _)⟩, fun _ => rfl⟩,
    past_note hx.past, ?_, ?_, ?_⟩
  · intro hc ha
    rw [hans] at ha
    exact hx.settled hc ha
  · intro b hb he
    exact hx.failed b (fun _ => hb rfl) he
  · intro b hb he
    have hrun := hx.running b (fun _ => hb rfl) he
    have hpending : pending methods (s.note .puteof (puteof s.reader)) = pending methods s := by
      unfold pending
      rw [hans]
      rfl
    rw [hpending, Session.note_pass_consumed s _ (puteof s.reader) rfl rfl]
    exact hrun

/-- What `set_method()` does to the members is what the owner does to the lexer. -/
theorem setMethod_effect {r : Response} {j : Nat} (hr : Sound view Legal r)
    (hc : r.code = .statusCode) (h : setMethod r (methods j) = .ok r') :
    view.core r' = respond methods j (.statusCode (status r)) (view.core r) ∧
      status r' = status r ∧ r'.connection = r.connection ∧ r'.state = r.state ∧
      r'.code = r.code ∧ r'.tokenSize = r.tokenSize ∧ r'.restView = r.restView := by
  rw [setMethod_eq (methods j) hr hc] at h
  cases h
  exact ⟨rfl, rfl, rfl, rfl, rfl, rfl, rfl⟩

theorem explained_setMethod (ht : Session.Tracks view Legal S s) (hx : Explained methods S c₀ s)
    (hc : s.reader.code = .statusCode)
    (hr' : setMethod s.reader (methods (statusCodes s - 1)) = .ok r') :
    Explained methods S c₀ (s.note (.setMethod (methods (statusCodes s - 1))) r') := by
  obtain ⟨hcore, hstatus, hconn, hstate, hcode, hsize, hrest⟩ := setMethod_effect ht.sound hc hr'
  have hans : answered methods (s.note (.setMethod (methods (statusCodes s - 1))) r') = true := by
    simp [answered, statusCodes, Session.note]
  have hbefore : pending methods s = view.core r' := by
    rw [hcore]
    unfold pending
    cases ha : answered methods s with
    | false => rw [if_pos ⟨hc, rfl⟩]
    | true => rw [if_neg (fun h => by cases h.2), hx.settled hc ha]
  have hafter : pending methods (s.note (.setMethod (methods (statusCodes s - 1))) r')
      = view.core r' := if_neg fun h => by rw [hans] at h; cases h.2
  refine ⟨hx.wellFormed, fun he hp => ?_, ?_, past_note hx.past, fun _ _ => ?_, fun b hb hp => ?_,
    fun b hb hp => ?_⟩
  · change r'.restView = S.drop s.consumed
    rw [hrest]
    exact hx.closed (hconn ▸ he) (hstate ▸ hp)
  · change r'.connection.eofReceived = true ↔ ∃ n, (n, .puteof) ∈ s.calls ++ [_]
    rw [hconn, hx.announced]
    simp
  · change respond methods (statusCodes s - 1) (.statusCode (status r')) (view.core r') = view.core r'
    rw [hstatus, hcore, respond_respond]
  · exact hx.failed b (hconn ▸ hb) (hstate ▸ hp)
  · have hrun := hx.running b (hconn ▸ hb) (hstate ▸ hp)
    rw [hafter, ← hbefore, Session.note_pass_consumed s _ _ hcode hsize]
    exact hrun

theorem play_explained (ht : Session.Tracks view Legal S s) (hx : Explained methods S c₀ s)
    (h : (attentiveSession mem methods S).conforming s ops = true) :
    ∃ s', (attentiveSession mem methods S).play s ops = .ok s' ∧
      Session.Tracks view Legal S s' ∧ Explained methods S c₀ s' := by
  refine Session.play_induction (lawful mem) ?_ ?_ ?_ ht hx h
  · intro s r' ht hx he hg _ hout _
    exact explained_report ht hx he hg hout
  · intro s size ht hx hp hg
    exact explained_rebase ht hx hp hg
  · intro s c r' ht hx hp hg hcall
    cases c with
    | puteof =>
      cases hcall
      exact explained_puteof ht hx hg
    | setMethod method =>
      have hm : method = methods (statusCodes s - 1) := by simpa [attentive] using hg
      subst hm
      exact explained_setMethod ht hx (by simpa [api] using hp) hcall

theorem explained_fresh (methods : Nat → Bytes) (bodySize : Nat) :
    Explained methods S (view.core (init bodySize), 0) (fresh bodySize) :=
  ⟨nofun, nofun, ⟨nofun, fun ⟨_, h⟩ => nomatch h⟩, nofun, nofun, nofun,
    fun _ _ _ => Machine.Explains.refl⟩

theorem onMessageEnd_rank (f : Memory) : (policy.onMessageEnd f).2.rank = 0 := by
  simp only [policy]
  split <;> rfl

/-- Calling `next()` changes nothing only when it has nothing to report. -/
theorem stuck_of_next (ht : Session.Tracks view Legal S s) (he : s.reader.state.phase ≠ .errored)
    (h : next mem s.reader = .ok s.reader) :
    s.reader.code = .errorInsufficientData ∧ Session.Stuck view policy s := by
  obtain ⟨r', hnext, hout⟩ := (lawful mem).implements.settles ht.sound he
  have hr' : s.reader = r' := Except.ok.inj (h.symm.trans hnext)
  subst hr'
  have hlegal := ht.sound.legal he
  cases hlex : policy.lex (view.eof s.reader.connection) (view.core s.reader)
      s.reader.consume.restView with
  | need s' =>
    rw [hlex] at hout
    obtain ⟨hcore, hcode, -⟩ := hout.outcome
    rw [consume_of_insufficient hcode] at hlex
    exact ⟨hcode, fun _ => by rw [hlex, hcore]⟩
  | emit s' n c =>
    rw [hlex] at hout
    obtain ⟨hcore, hcode, hsize⟩ := hout.outcome
    have hidx := hout.idx
    have hne : s.reader.code ≠ .errorInsufficientData := by
      rw [hcode]
      rintro rfl
      have herr := (keeps_policy.emit hlegal hlex).2.2.1
      cases herr
    rw [consume_of_token hne] at hidx
    have hn : n = 0 := by
      have h0 : s.reader.idx = s.reader.idx + s.reader.tokenSize := hidx
      omega
    obtain ⟨q, hq, hem⟩ := emits_of_lex hlex
    rw [hn, List.take_zero] at hem
    have hrank := rank_lt_of_emits hq onMessageEnd_rank hem
    rw [← hcore] at hrank
    exact absurd hrank (Nat.lt_irrefl _)
  | fail c =>
    rw [hlex] at hout
    exact absurd hout.outcome.1 he

theorem play_runs (ht : Session.Tracks view Legal S s) (hx : Explained methods S c₀ s)
    (h : (attentiveSession mem methods S).conforming s ops = true) :
    ∃ s', (attentiveSession mem methods S).play s ops = .ok s' ∧
      Session.Tracks view Legal S s' ∧ Explained methods S c₀ s' ∧
      (complete mem S s' = true →
        (lexer methods).Runs s'.reader.connection.eofReceived 0 c₀ S (events s'.emitted)) := by
  obtain ⟨s', hplay, ht', hx'⟩ := play_explained ht hx h
  refine ⟨s', hplay, ht', hx', fun hc => ?_⟩
  by_cases he : s'.reader.state.phase = .errored
  · exact hx'.failed _ id he
  · rw [complete, Bool.and_eq_true] at hc
    have hnext : next mem s'.reader = .ok s'.reader := by
      have hc2 := hc.2
      split at hc2
      · rename_i r hr
        rw [hr, eq_of_beq hc2]
      · cases hc2
    obtain ⟨hi, hstuck⟩ := stuck_of_next ht' he hnext
    have hpending : pending methods s' = view.core s'.reader := pending_of_guard S (.inl hi)
    exact Session.runs_of_exposed ht' he hc.1 hi hstuck hpending (hx'.running _ id he)

theorem lexer_total (methods : Nat → Bytes) (b : Bool) (p : Nat) (c : Core Memory × Nat) (w : Bytes) :
    ∃ v, (lexer methods).Runs b p c w v :=
  exists_runs policy (respond methods) onMessageEnd_rank (respond_phase methods) b p c w

/-- From any moment on, what is observed of a complete schedule is what the lexer observes of the
rest of the stream. -/
theorem play_continues {bodySize : Nat} {s₀ : Run} {ops₀ : List (Op Call)}
    (h₀ : (attentiveSession mem methods S).play (fresh bodySize) ops₀ = .ok s₀)
    (he : s₀.reader.state.phase ≠ .errored)
    (h : (attentiveSession mem methods S).conforming (fresh bodySize) (ops₀ ++ ops) = true) :
    ∃ s, (attentiveSession mem methods S).play (fresh bodySize) (ops₀ ++ ops) = .ok s ∧
      Session.Tracks view Legal S s ∧ (∀ e ∈ s.emitted, e.2.WellFormed) ∧
      (complete mem S s = true → ∃ v, events s.emitted = events s₀.emitted ++ v ∧
        (lexer methods).Runs s.reader.connection.eofReceived s₀.pass.consumed
          (pending methods s₀, statusCodes s₀) (S.drop s₀.pass.consumed) v) := by
  obtain ⟨s₁, hplay₁, -, hx₁⟩ := play_explained (tracks_fresh bodySize S)
    (explained_fresh methods bodySize) (Guarded.conforming_append h)
  rw [h₀] at hplay₁
  cases hplay₁
  obtain ⟨s, hplay, ht, hx, hruns⟩ := play_runs (tracks_fresh bodySize S)
    (explained_fresh methods bodySize) h
  have heof : s₀.reader.connection.eofReceived = true → s.reader.connection.eofReceived = true := by
    rw [hx₁.announced, hx.announced, Session.calls_of_play h₀, Session.calls_of_play hplay]
    exact Or.imp_right (List.mem_append_left ops)
  refine ⟨s, hplay, ht, hx.wellFormed, fun hc => ?_⟩
  obtain ⟨v, hv⟩ := lexer_total methods s.reader.connection.eofReceived s₀.pass.consumed
    (pending methods s₀, statusCodes s₀) (S.drop s₀.pass.consumed)
  exact ⟨v, (hruns hc).unique (hx₁.running _ heof he v hv), hv⟩

/-- Two clients that feed the same stream to a new reader, however they cut it, that name the same
methods and agree on whether the end of the stream is announced, observe the same tokens. -/
theorem response_fragmentation_invariance (mem₁ mem₂ : Nat → UInt8) (S : Bytes) (methods : Nat → Bytes)
    (bodySize : Nat) (ops₁ ops₂ : List (Op Call))
    (h₁ : (attentiveSession mem₁ methods S).conforming (fresh bodySize) ops₁ = true)
    (h₂ : (attentiveSession mem₂ methods S).conforming (fresh bodySize) ops₂ = true)
    (heof : .call .puteof ∈ ops₁ ↔ .call .puteof ∈ ops₂) :
    ∃ s₁ s₂, (attentiveSession mem₁ methods S).play (fresh bodySize) ops₁ = .ok s₁ ∧
      (attentiveSession mem₂ methods S).play (fresh bodySize) ops₂ = .ok s₂ ∧
      (complete mem₁ S s₁ = true → complete mem₂ S s₂ = true →
        observe s₁.emitted = observe s₂.emitted) := by
  obtain ⟨s₁, hp₁, -, hx₁, hr₁⟩ := play_runs (tracks_fresh bodySize S)
    (explained_fresh methods bodySize) h₁
  obtain ⟨s₂, hp₂, -, hx₂, hr₂⟩ := play_runs (tracks_fresh bodySize S)
    (explained_fresh methods bodySize) h₂
  refine ⟨s₁, s₂, hp₁, hp₂, fun hc₁ hc₂ => ?_⟩
  have hflags : s₁.reader.connection.eofReceived = s₂.reader.connection.eofReceived := by
    rw [Bool.eq_iff_iff, hx₁.announced, hx₂.announced, Session.calls_of_play hp₁,
      Session.calls_of_play hp₂, heof]
  have hr₁ := hr₁ hc₁
  rw [hflags] at hr₁
  rw [observe_eq hx₁.wellFormed, observe_eq hx₂.wellFormed, hr₁.unique (hr₂ hc₂)]

/-- A response that ends with the connection, fed as a whole and in pieces that cut its static text,
its status code, its reason phrase and its body. -/
theorem response_fragmentation_invariance_close :
    let S := ascii "HTTP/1.0 200 OK\r\n\r\nxyz"
    let get : Op Call := .call (.setMethod (ascii "GET"))
    let whole : List (Op Call) := List.flatten [[.setBuffer 22], List.replicate 3 .next, [get],
      List.replicate 6 .next, [.call .puteof], List.replicate 4 .next]
    let pieces : List (Op Call) := List.flatten [[.setBuffer 4, .next, .setBuffer 10],
      List.replicate 3 .next, [.setBuffer 4, get], List.replicate 2 .next, [.setBuffer 7],
      List.replicate 4 .next, [.setBuffer 2, .call .puteof], List.replicate 4 .next]
    ∃ s₁ s₂, (attentiveSession (fun _ => 0) (fun _ => ascii "GET") S).play (fresh 0) whole = .ok s₁ ∧
      (attentiveSession (fun _ => 1) (fun _ => ascii "GET") S).play (fresh 0) pieces = .ok s₂ ∧
      complete (fun _ => 0) S s₁ = true ∧ complete (fun _ => 1) S s₂ = true ∧
      observe s₁.emitted = observe s₂.emitted := by
  intro S get whole pieces
  obtain ⟨s₁, s₂, h₁, h₂, h⟩ := response_fragmentation_invariance (fun _ => 0) (fun _ => 1) S
    (fun _ => ascii "GET") 0 whole pieces (by decide +kernel) (by decide +kernel) (by decide +kernel)
  have hc₁ : (attentiveSession (fun _ => 0) (fun _ => ascii "GET") S).ends (fresh 0) whole
      (complete (fun _ => 0) S) = true := by decide +kernel
  have hc₂ : (attentiveSession (fun _ => 1) (fun _ => ascii "GET") S).ends (fresh 0) pieces
      (complete (fun _ => 1) S) = true := by decide +kernel
  rw [Guarded.ends_eq h₁] at hc₁
  rw [Guarded.ends_eq h₂] at hc₂
  exact ⟨s₁, s₂, h₁, h₂, hc₁, hc₂, h hc₁ hc₂⟩

end Response

end BoostHttp
