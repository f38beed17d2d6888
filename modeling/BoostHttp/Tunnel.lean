import BoostHttp.Stopping

/-!
# Tunnel — responses to `CONNECT`

A response of the class 2xx to a `CONNECT` request has no body, and what follows its head is not
HTTP.  `set_method` asks for the statuses without a body first, and 204 is one of them.
-/

open Incremental

namespace BoostHttp

def Phase.bodiless : Phase → Bool
  | .spAfterStatusCode | .reasonPhrase | .crlfAfterReasonPhrase | .fieldName | .colon | .owsAfterColon
  | .fieldValue | .crlfAfterFieldValue | .crlfAfterHeaders | .endOfBody | .endOfMessage => true
  | _ => false

namespace Response

/-! ## Heads of responses that cannot have a body -/

theorem onFieldName_forced {f : Memory} (hf : f.2.isForced = true) (name : Bytes) :
    onFieldName f name = .ok f := if_pos hf

theorem onFieldValue_forced {f : Memory} (hf : f.2.isForced = true) (n : Nat) (v : Bytes) :
    onFieldValue f n v = .ok (f, n) := by
  unfold onFieldValue
  cases hb : f.2 <;> rw [hb] at hf <;> first | rfl | cases hf

theorem onHeaders_forced {f : Memory} (hf : f.2.isForced = true) (n : Nat) :
    onHeaders f n = .ok (f, .endOfBody) := by
  unfold onHeaders
  cases hb : f.2 <;> rw [hb] at hf <;> first | rfl | cases hf

/-- The framing `f` was decided on by the method and the status code, and the message is not over. -/
structure Decided (f : Memory) (c : Core Memory) : Prop where
  framing : c.framing = f
  phase : c.phase.bodiless = true

theorem Decided.goto {f : Memory} {c : Core Memory} {q : Phase} (h : Decided f c)
    (hq : c.phase.Resolves q) : Decided f (c.goto q) := by
  obtain ⟨p, g, n⟩ := c
  obtain ⟨hf, hp⟩ := h
  refine ⟨hf, ?_⟩
  cases hq with
  | refl => exact hp
  | headers | fieldValue => rfl
  | chunkExt | trailers | trailerValue => cases hp

/-- No field of the head changes it. -/
theorem Decided.accept {f : Memory} {c c' : Core Memory} {raw : Bytes} {code : Code}
    (hf : f.2.isForced = true) (h : Decided f c) (hacc : policy.accept c raw = .ok (c', code)) :
    Decided f c' := by
  obtain ⟨p, g, n⟩ := c
  obtain ⟨rfl, hp⟩ := h
  change g.2.isForced = true at hf
  unfold Policy.accept at hacc
  cases p <;> simp only [policy] at hacc
  case fieldName =>
    rw [onFieldName_forced hf] at hacc
    cases hacc
    exact ⟨rfl, rfl⟩
  case fieldValue =>
    rw [onFieldValue_forced hf] at hacc
    cases hacc
    exact ⟨rfl, rfl⟩
  case crlfAfterHeaders =>
    rw [onHeaders_forced hf] at hacc
    cases hacc
    exact ⟨rfl, rfl⟩
  case spAfterStatusCode | reasonPhrase | crlfAfterReasonPhrase | crlfAfterFieldValue =>
    cases hacc
    exact ⟨rfl, rfl⟩
  -- the elastic phases accept no lexeme, the others are none of a message without a body
  case colon | owsAfterColon | endOfBody | endOfMessage => cases hacc
  all_goals cases hp

theorem Decided.lex {f : Memory} {b : Bool} {c c' : Core Memory} {w : Bytes} {n : Nat} {code : Code}
    (hf : f.2.isForced = true) (h : Decided f c) (hcode : code ≠ .endOfMessage)
    (hlex : policy.lex b c w = .emit c' n code) : Decided f c' := by
  obtain ⟨q, hq, hem⟩ := emits_of_lex hlex
  have hd := h.goto hq
  generalize c.goto q = d at hd hem
  generalize w.take n = raw at hem
  have hphase := hd.phase
  -- only the phases of a body and the end of the message leave the bodiless ones
  cases hem with
  | lexeme _ _ _ hacc => exact hd.accept hf hacc
  | colon hv hp _ hto =>
    rcases hv with ⟨rfl, rfl, rfl⟩ | ⟨rfl, rfl, rfl⟩
    · rcases hto with rfl | rfl <;> exact ⟨hd.framing, rfl⟩
    · rw [hp] at hphase
      cases hphase
  | ows => exact hd
  | body hb hp =>
    rcases hb with ⟨rfl, rfl⟩ | ⟨rfl, rfl⟩ <;> rw [hp] at hphase <;> cases hphase
  | unsafeBody hp | closed hp =>
    rw [hp] at hphase
    cases hphase
  | endOfBody => exact ⟨hd.framing, rfl⟩
  | endOfMessage => exact absurd rfl hcode

variable {mem : Nat → UInt8} {S : Bytes} {s s₀ : Run} {ops : List (Op Call)}

def mute (_ : Run) : Op Call → Bool
  | .call (.setMethod _) => false
  | _ => true

/-- What the method and the status code have decided on is in force up to the end of the message. -/
theorem play_bodiless {f : Memory} (hf : f.2.isForced = true) (ht : Session.Tracks view Legal S s₀)
    (he : s₀.reader.state.phase ≠ .errored) (hb : Decided f (view.core s₀.reader))
    (hops : ∀ m, .call (.setMethod m) ∉ ops) (h : (session mem S).conforming s₀ ops = true) :
    ∃ s log, (session mem S).play s₀ ops = .ok s ∧ Session.Tracks view Legal S s ∧
      s.emitted = s₀.emitted ++ log ∧
      (s.reader.state.phase ≠ .errored → Unfinished log → Decided f (view.core s.reader)) := by
  have hperform : (Session.system (api mem) mem S mute).perform = (session mem S).perform := rfl
  -- a schedule without `set_method()` conforms to the stricter guard as well
  have hmute : (Session.system (api mem) mem S mute).conforming s₀ ops = true := by
    refine Guarded.conforming_of_mem hperform (fun {s o} ho hp => ?_) h
    simp only [Session.system, Bool.and_eq_true] at hp ⊢
    refine ⟨hp.1, ?_⟩
    cases o with
    | next | setBuffer size => rfl
    | call c =>
      cases c with
      | puteof => rfl
      | setMethod m => exact absurd ho (hops m)
  have hrun := Session.play_follows (lawful mem)
    (J := fun log _ c => Unfinished log → Decided f c) (F := fun _ => True) ?_ ?_
    (fun _ _ _ => trivial) ?_ ht he (fun _ => hb) hmute
  · obtain ⟨s, log, hplay, ht', hlog, -, hJ⟩ := hrun
    rw [Guarded.play_congr hperform] at hplay
    exact ⟨s, log, hplay, ht', hlog, hJ⟩
  · intro log p x c w c' n code hJ _ _ hlex hunf
    obtain ⟨hlog, hlast⟩ := unfinished_append.mp hunf
    exact (hJ hlog).lex hf (hlast _ (List.mem_singleton.mpr rfl)) hlex
  · intro log p x c w c' t hJ hlex _ hunf
    have hc := hJ (unfinished_append.mp hunf).1
    obtain ⟨-, ⟨-, rfl⟩ | ⟨a, _, -, rfl⟩⟩ := of_lex_need hlex
    · exact hc
    · exact hc.goto (Phase.resolves_resolve _ a)
  · intro log p c s r' hJ _ _ hg hcall
    cases c with
    | puteof =>
      cases hcall
      exact hJ
    | setMethod m => cases hg

/-! ## What follows the head -/

/-- From the end of a head on, whatever buffers are given and calls are made, `next()` reports the end
of the body, the end of the message and then that another connection is needed, and all of it at the
place where the head ends. -/
def Tunnels (mem : Nat → UInt8) (S : Bytes) (s : Run) : Prop :=
  ∀ ops, (session mem S).conforming s ops = true →
    ∃ s' rest, (session mem S).play s ops = .ok s' ∧ s'.emitted = s.emitted ++ rest ∧
      rest.map (fun e => (e.1, e.2.code))
        = [(s.pass.consumed, .endOfBody), (s.pass.consumed, .endOfMessage),
            (s.pass.consumed, .errorUseAnotherConnection)].take (ops.countP Op.isNext)

theorem tunnels_of_last {done : Bool} (ht : Session.Tracks view Legal S s)
    (hp : s.reader.state.phase = .endOfBody) (hlast : Last done (view.core s.reader).framing)
    (hdone : done = true → s.reader.connection.eofReceived = true ∧ s.pass.consumed = S.length) :
    Tunnels mem S s := by
  intro ops h
  have hends : Ends done S s [.endOfBody, .endOfMessage, .errorUseAnotherConnection] :=
    ⟨.body hp hlast, hdone, ht.sound.zeroSized (by rw [show view.phase _ = _ from hp]; rfl)⟩
  obtain ⟨s', rest, hplay, hrest, hcodes, -⟩ := play_ends ht hends h
  exact ⟨s', rest, hplay, hrest, hcodes⟩

/-- Where a new response may start, another connection is asked for only at the end of the input. -/
theorem done_of_fail {b : Bool} {c : Core Memory} {w : Bytes} (hp : c.phase = .versionStaticStr)
    (h : policy.lex b c w = .fail .errorUseAnotherConnection) : b = true ∧ w = [] := by
  have hz : c.phase.isZeroSized = false := by rw [hp]; rfl
  cases w with
  | nil =>
    rw [lex_nil hz] at h
    cases b with
    | false => cases h
    | true => exact ⟨rfl, rfl⟩
  | cons a w =>
    -- a byte in view is scanned for the start line, which fails with another code
    have hres : c.phase.resolve a = c.phase := by rw [hp]; rfl
    rw [lex_resolved hz hres, lexeme_of_rigid (by rw [hp]; rfl)] at h
    rcases scanned_fail h with ⟨hsp, -⟩ | ⟨-, hcode⟩ | ⟨n, -, hacc⟩
    · rw [hp] at hsp
      cases hsp
    · cases hcode
    · rw [accept_follows (by rw [hp]; rfl)] at hacc
      cases hacc

/-- The three calls behind a head whose status allows no body, when all of the stream is in the
buffer: the third one finds the place where a new response may start. -/
theorem pull_bodiless (mem : Nat → UInt8) (ht : Session.Tracks view Legal S s) (hp : s.reader.state.phase = .endOfBody)
    (hf : (view.core s.reader).framing = (false, .forceNoBody))
    (hw : s.reader.restView = S.drop s.consumed) :
    ∃ s' e₁ e₂ e₃, (session mem S).play s [.next, .next, .next] = .ok s' ∧
      s'.emitted = s.emitted ++ [e₁, e₂, e₃] ∧ (e₃.2.code = .errorUseAnotherConnection →
        s.reader.connection.eofReceived = true ∧ s.pass.consumed = S.length) := by
  have hlex₁ : policy.lex (view.eof s.reader.connection) (view.core s.reader)
      s.reader.consume.restView = .emit ((view.core s.reader).goto .endOfMessage) 0 .endOfBody := by
    unfold Policy.lex
    rw [show (view.core s.reader).phase = .endOfBody from hp]
  -- first call: the end of the body
  obtain ⟨r₁, hpull₁, ht₁, hcore₁, -, heof₁, hcons₁, hw₁⟩ := Session.pull_emit mem
    (lawful mem) ht (by rw [show view.phase _ = _ from hp]; nofun) hlex₁
  have hp₁ : (view.core r₁).phase = .endOfMessage := by rw [hcore₁]; rfl
  have hf₁ : (view.core r₁).framing = (false, .forceNoBody) := by rw [hcore₁]; exact hf
  generalize hs₁ : s.pass.report mem r₁ = s₁ at hpull₁ ht₁ hcons₁ hw₁
  have hr₁ : s₁.reader = r₁ := by rw [← hs₁]; rfl
  have hlog₁ : s₁.emitted = s.emitted ++ [(s.pass.consumed, r₁.token mem)] := by
    rw [← hs₁, Session.emitted_report]
  rw [← hr₁] at hp₁ hf₁ heof₁ hw₁
  have hlex₂ : policy.lex (view.eof s₁.reader.connection) (view.core s₁.reader)
      s₁.reader.consume.restView = .emit { view.core s₁.reader with
        phase := .versionStaticStr, framing := (false, .unknownBody) } 0 .endOfMessage := by
    unfold Policy.lex
    rw [hp₁, hf₁]
    rfl
  -- second call: the end of the message, behind which a response is expected
  obtain ⟨r₂, hpull₂, ht₂, hcore₂, -, heof₂, hcons₂, hw₂⟩ := Session.pull_emit mem
    (lawful mem) ht₁ (by rw [show view.phase _ = _ from hp₁]; nofun) hlex₂
  have hp₂ : (view.core r₂).phase = .versionStaticStr := by rw [hcore₂]
  generalize hs₂ : s₁.pass.report mem r₂ = s₂ at hpull₂ ht₂ hcons₂ hw₂
  have hr₂ : s₂.reader = r₂ := by rw [← hs₂]; rfl
  have hlog₂ : s₂.emitted = s₁.emitted ++ [(s₁.pass.consumed, r₂.token mem)] := by
    rw [← hs₂, Session.emitted_report]
  rw [← hr₂] at hp₂ heof₂ hw₂
  have he₂ : s₂.reader.state.phase ≠ .errored := by
    rw [show s₂.reader.state.phase = _ from hp₂]
    nofun
  -- third call: the start line of that response
  obtain ⟨r₃, -, hpull₃, hout₃, -⟩ := Session.pull_ok mem (lawful mem) ht₂ he₂
  refine ⟨s₂.pass.report mem r₃, (s.pass.consumed, r₁.token mem), (s₁.pass.consumed, r₂.token mem),
    (s₂.pass.consumed, r₃.token mem), ?_, ?_, fun hcode => ?_⟩
  · simp only [Guarded.play, Session.system, hpull₁, hpull₂, hpull₃]
  · rw [Session.emitted_report, hlog₂, hlog₁]
    simp
  · change r₃.code = _ at hcode
    -- only the end of the input makes the reader ask for another connection here
    have hfail : policy.lex s₂.reader.connection.eofReceived (view.core s₂.reader)
        s₂.reader.consume.restView = .fail .errorUseAnotherConnection := by
      rw [← hcode]
      exact hout₃.fail_of_code keeps_policy (ht₂.sound.legal he₂) (by rw [hcode]; rfl)
    obtain ⟨heof, hempty⟩ := done_of_fail hp₂ hfail
    rw [ht₂.pass_whole he₂ (hw₂ (hw₁ hw)), List.drop_eq_nil_iff] at hempty
    have hle := (ht.pass (by rw [show view.phase _ = _ from hp]; nofun)).2.2.1
    refine ⟨?_, ?_⟩
    · rw [← heof]
      exact (heof₂.trans heof₁).symm
    · omega

theorem conforming_next (mem : Nat → UInt8) (S : Bytes) (s : Run) (n : Nat) :
    (session mem S).conforming s (List.replicate n .next) = true := by
  induction n generalizing s with
  | zero => rfl
  | succ n ih =>
    rw [List.replicate_succ, Guarded.conforming, Bool.and_eq_true]
    refine ⟨rfl, ?_⟩
    split
    · exact ih _
    · rfl

/-- Such a head opens a tunnel only where the stream is at its end. -/
theorem done_of_tunnels (ht : Session.Tracks view Legal S s) (hp : s.reader.state.phase = .endOfBody)
    (hf : (view.core s.reader).framing = (false, .forceNoBody)) (h : Tunnels mem S s) :
    s.reader.connection.eofReceived = true ∧ s.pass.consumed = S.length := by
  have he : s.reader.state.phase ≠ .errored := by rw [hp]; nofun
  have hwait : s.reader.code ≠ .errorInsufficientData :=
    ht.sound.zeroSized (by rw [show view.phase _ = _ from hp]; rfl)
  -- a buffer with all of the stream
  have hcons := ht.consumed_le
  have hsize := ht.tokenSize_le he
  have hwin := (ht.window he).length_le
  rw [List.length_drop] at hwin
  have hpermits : Session.permits (api mem) S s (.setBuffer (S.length - s.consumed)) = true := by
    simp only [Session.permits, Bool.and_eq_true, Bool.or_eq_true, decide_eq_true_eq]
    exact ⟨by omega, .inr (by omega)⟩
  have hrefill : (session mem S).perform s (.setBuffer (S.length - s.consumed))
      = .ok (s.rebase S (S.length - s.consumed)) := Session.refill_eq_ok hwait _
  have hwhole : (s.rebase S (S.length - s.consumed)).reader.restView
      = S.drop (s.rebase S (S.length - s.consumed)).consumed := by
    rw [Session.rebase_restView]
    exact List.take_of_length_le (by rw [List.length_drop])
  -- three calls show what becomes of the connection
  obtain ⟨s', e₁, e₂, e₃, hplay, hlog, hdone⟩ :=
    pull_bodiless mem (ht.rebase hpermits) hp hf hwhole
  have hconf : (session mem S).conforming s
      (.setBuffer (S.length - s.consumed) :: List.replicate 3 .next) = true := by
    rw [Guarded.conforming, Bool.and_eq_true]
    refine ⟨by simp only [Session.system, hpermits, Session.free, Bool.and_self], ?_⟩
    rw [hrefill]
    exact conforming_next mem S _ 3
  obtain ⟨s'', rest, hplay'', hrest, hcodes⟩ := h _ hconf
  rw [Guarded.play, hrefill] at hplay''
  have heq : s'' = s' := Except.ok.inj (hplay''.symm.trans hplay)
  subst heq
  have hrest' : rest = [e₁, e₂, e₃] := List.append_cancel_left (hrest.symm.trans hlog)
  subst hrest'
  rw [Session.rebase_pass_consumed] at hdone
  have hcode : e₃.2.code = .errorUseAnotherConnection := by
    have hsnd := congrArg (List.map Prod.snd) hcodes
    simp [List.countP_cons, Op.isNext] at hsnd
    exact hsnd.2.2
  exact hdone hcode

/-- The framing that `set_method("CONNECT")` decides on for a status of the class 2xx. -/
theorem bodyFor_connect {status bodySize : Nat} (hclass : 200 ≤ status ∧ status < 300) :
    (bodyFor (ascii "CONNECT") status bodySize).1
      = if status = 204 then .forceNoBody else .forceNoBodyAndStop := by
  have hhead : ¬ ascii "CONNECT" = ascii "HEAD" := by decide
  have htwo : status / 100 = 2 := by omega
  unfold bodyFor
  simp only [htwo, hhead, or_false, true_and]
  by_cases h : status = 204
  · simp [h]
  · have h304 : ¬ status = 304 := by omega
    simp [h, h304]

/-- What the call of `set_method("CONNECT")` decides. -/
theorem decided_of_connect {r r' : Response} (hr : Sound view Legal r) (hcode : r.code = .statusCode)
    (hclass : 200 ≤ status r ∧ status r < 300) (hversion : r.connection.http10 = false)
    (hcall : setMethod r (ascii "CONNECT") = .ok r') :
    Decided (false, if status r = 204 then .forceNoBody else .forceNoBodyAndStop) (view.core r') := by
  have hr' : r' = _ := Except.ok.inj (hcall.symm.trans (setMethod_eq (ascii "CONNECT") hr hcode))
  obtain ⟨hphase, -⟩ := hr.status hcode
  rw [hr']
  constructor
  · change (r.connection.http10, (bodyFor _ _ _).1) = _
    rw [hversion, bodyFor_connect hclass]
  · change (view.phase r.state).bodiless = true
    rw [hphase]
    rfl

theorem Decided.phase_ne {f : Memory} {c : Core Memory} (h : Decided f c) : c.phase ≠ .errored := by
  intro hp
  have hbodiless := h.phase
  rw [hp] at hbodiless
  cases hbodiless

/-- A response without a body is at the end of its body once its head ends. -/
theorem endOfBody_of_decided {f : Memory} (ht : Session.Tracks view Legal S s₀)
    (hcode : s₀.reader.code ≠ .endOfHeaders) (h : (session mem S).conforming s₀ ops = true)
    (hplay : (session mem S).play s₀ ops = .ok s) (hend : s.reader.code = .endOfHeaders)
    (hd : Decided f (view.core s.reader)) : s.reader.state.phase = .endOfBody := by
  obtain ⟨s', hplay', hends⟩ := Session.play_headersEnd (lawful mem) orderly ht hcode h
  have heq : s' = s := Except.ok.inj (hplay'.symm.trans hplay)
  subst heq
  have hbodiless := hd.phase
  rcases hends hend with hp | hp | hp | hp
  · exact hp
  -- the other phases behind the head read a body
  all_goals
    rw [show (view.core s'.reader).phase = _ from hp] at hbodiless
    cases hbodiless

end Response

/-- When `set_method("CONNECT")` was called for a response of version 1.1 with a status of the class
2xx, the connection is a tunnel from the end of the head on, unless the status is 204; then the reader
goes on to the next response, and stops only if there is nothing left to read. -/
theorem connect_tunnel (mem : Nat → UInt8) (S : Bytes) (s₀ s s₂ : Response.Run)
    (ops₀ ops₁ : List (Op Response.Call)) (log : List (Nat × Token)) (hs₀ : Response.Begins s₀)
    (h : (Response.session mem S).conforming s₀
      (ops₀ ++ .call (.setMethod (ascii "CONNECT")) :: ops₁) = true)
    (hops : ∀ method, .call (.setMethod method) ∉ ops₁)
    (hplay₀ : (Response.session mem S).play s₀ ops₀ = .ok s)
    (hclass : 200 ≤ Response.status s.reader ∧ Response.status s.reader < 300)
    (hversion : s.reader.connection.http10 = false)
    (hplay₂ : (Response.session mem S).play s
      (.call (.setMethod (ascii "CONNECT")) :: ops₁) = .ok s₂)
    (hlog : s₂.emitted = s.emitted ++ log) (hmessage : ∀ e ∈ log, e.2.code ≠ .endOfMessage)
    (hend : s₂.reader.code = .endOfHeaders) :
    Response.Tunnels mem S s₂ ↔ Response.status s.reader ≠ 204 ∨
      s₂.reader.connection.eofReceived = true ∧ s₂.pass.consumed = S.length := by
  obtain ⟨bodySize, rfl⟩ := hs₀.eq_fresh
  obtain ⟨s', hplay', ht⟩ := Session.play_tracks (Response.lawful mem)
    (Response.tracks_fresh bodySize S) (Guarded.conforming_append h)
  have heq : s' = s := Except.ok.inj (hplay'.symm.trans hplay₀)
  subst heq
  have hrest := Guarded.conforming_of_play h hplay₀
  obtain ⟨hp, hconf⟩ := Guarded.conforming_cons hrest
  simp only [Session.system, Bool.and_eq_true] at hp
  have hcode : s'.reader.code = .statusCode := by simpa [Session.permits, Response.api] using hp.1
  -- the call
  obtain ⟨r₁, hcall, hinv, ht₁⟩ := ht.invoke (Response.lawful mem) hp.1
  have hperform : (Response.session mem S).perform s' (.call (.setMethod (ascii "CONNECT")))
      = .ok (s'.note (.setMethod (ascii "CONNECT")) r₁) := hinv
  have hb : Response.Decided (false, if Response.status s'.reader = 204 then .forceNoBody
      else .forceNoBodyAndStop) (Response.view.core (s'.note (.setMethod (ascii "CONNECT")) r₁).reader) :=
    Response.decided_of_connect ht.sound hcode hclass hversion hcall
  have hforced : (if Response.status s'.reader = 204 then Response.BodyType.forceNoBody
      else .forceNoBodyAndStop).isForced = true := by
    split <;> rfl
  -- the head
  obtain ⟨s₃, log₃, hplay₃, ht₃, hlog₃, hb₃⟩ := Response.play_bodiless hforced ht₁ hb.phase_ne hb
    hops (hconf hperform)
  rw [Guarded.play, hperform] at hplay₂
  have heq : s₃ = s₂ := Except.ok.inj (hplay₃.symm.trans hplay₂)
  subst heq
  have hlogs : log₃ = log := List.append_cancel_left (hlog₃.symm.trans hlog)
  subst hlogs
  have he₃ : s₃.reader.state.phase ≠ .errored := ht₃.sound.ne_errored (by rw [hend]; rfl)
  have hdecided := hb₃ he₃ hmessage
  have hframing := hdecided.framing
  have hphase₃ : s₃.reader.state.phase = .endOfBody := by
    refine Response.endOfBody_of_decided (Response.tracks_fresh bodySize S) (by rintro ⟨⟩) h ?_ hend
      hdecided
    rw [Guarded.play_append, hplay₀]
    change (Response.session mem S).play s' (.call (.setMethod (ascii "CONNECT")) :: ops₁) = .ok s₃
    rw [Guarded.play, hperform]
    exact hplay₃
  constructor
  · intro htunnel
    by_cases h204 : Response.status s'.reader = 204
    · rw [if_pos h204] at hframing
      exact .inr (Response.done_of_tunnels ht₃ hphase₃ hframing htunnel)
    · exact .inl h204
  -- with another status the framing itself ends the connection
  · rintro (h204 | hdone)
    · rw [if_neg h204] at hframing
      have hlast : Response.Last false (Response.view.core s₃.reader).framing :=
        .inr (.inl (by rw [hframing]))
      exact Response.tunnels_of_last ht₃ hphase₃ hlast (by simp)
    · have hlast : Response.Last true (Response.view.core s₃.reader).framing := .inl rfl
      exact Response.tunnels_of_last ht₃ hphase₃ hlast fun _ => hdone

/-- The head of a response to `CONNECT` with the status 200, and what follows it. -/
theorem connect_tunnel_ok :
    let S := ascii "HTTP/1.1 200 \n\nGET /"
    let status : List (Op Response.Call) := .setBuffer 20 :: List.replicate 3 .next
    let head : List (Op Response.Call) := List.replicate 4 .next
    ∃ s₂, (Response.session (fun _ => 0) S).play (Response.fresh 0)
        (status ++ .call (.setMethod (ascii "CONNECT")) :: head) = .ok s₂ ∧
      s₂.reader.code = .endOfHeaders ∧ Response.Tunnels (fun _ => 0) S s₂ := by
  intro S status head
  have hall : (Response.session (fun _ => 0) S).conforming (Response.fresh 0)
      (status ++ .call (.setMethod (ascii "CONNECT")) :: head) = true := by decide +kernel
  have hstatus : (Response.session (fun _ => 0) S).ends (Response.fresh 0) status
      (fun s => Response.status s.reader = 200 && s.reader.connection.http10 = false &&
        s.emitted = [(0, ⟨.skip, 7, .none⟩), (7, ⟨.version, 1, .version 1⟩), (8, ⟨.skip, 1, .none⟩),
          (9, ⟨.statusCode, 3, .statusCode 200⟩)]) = true := by decide +kernel
  have hhead : (Response.session (fun _ => 0) S).ends (Response.fresh 0)
      (status ++ .call (.setMethod (ascii "CONNECT")) :: head)
      (fun s => s.reader.code = .endOfHeaders && s.emitted = [(0, ⟨.skip, 7, .none⟩),
        (7, ⟨.version, 1, .version 1⟩), (8, ⟨.skip, 1, .none⟩),
        (9, ⟨.statusCode, 3, .statusCode 200⟩)] ++ [(12, ⟨.skip, 1, .none⟩),
        (13, ⟨.reasonPhrase, 0, .view []⟩), (13, ⟨.skip, 1, .none⟩),
        (14, ⟨.endOfHeaders, 1, .none⟩)]) = true := by decide +kernel
  obtain ⟨s, hplay₀, hs⟩ := Guarded.of_ends hstatus
  obtain ⟨s₂, hplay₂, hs₂⟩ := Guarded.of_ends hhead
  simp only [Bool.and_eq_true, decide_eq_true_eq] at hs hs₂
  obtain ⟨⟨h200, hversion⟩, hemitted⟩ := hs
  refine ⟨s₂, hplay₂, hs₂.1, ?_⟩
  rw [Guarded.play_append, hplay₀] at hplay₂
  exact (connect_tunnel (fun _ => 0) S (Response.fresh 0) s s₂ status head _ (.inl ⟨0, rfl⟩) hall
    (fun _ hmem => nomatch List.eq_of_mem_replicate hmem) hplay₀ (by omega) hversion hplay₂
    (by rw [hs₂.2, hemitted]) (by decide) hs₂.1).mpr (.inl (by omega))

/-- The status 204 is of the class 2xx, and the reader goes on with what follows its head. -/
theorem connect_tunnel_no_content :
    ¬ ∀ (S : Bytes) (s s₂ : Response.Run) (ops₀ ops₁ : List (Op Response.Call))
      (log : List (Nat × Token)),
      (Response.session (fun _ => 0) S).conforming (Response.fresh 0)
        (ops₀ ++ .call (.setMethod (ascii "CONNECT")) :: ops₁) = true →
      (∀ method, .call (.setMethod method) ∉ ops₁) →
      (Response.session (fun _ => 0) S).play (Response.fresh 0) ops₀ = .ok s →
      200 ≤ Response.status s.reader ∧ Response.status s.reader < 300 →
      s.reader.connection.http10 = false →
      (Response.session (fun _ => 0) S).play s
        (.call (.setMethod (ascii "CONNECT")) :: ops₁) = .ok s₂ →
      s₂.emitted = s.emitted ++ log → (∀ e ∈ log, e.2.code ≠ .endOfMessage) →
      s₂.reader.code = .endOfHeaders → Response.Tunnels (fun _ => 0) S s₂ := by
  intro hclaim
  let S := ascii "HTTP/1.1 204 \n\nHTTP/1.1"
  let status : List (Op Response.Call) := .setBuffer 23 :: List.replicate 3 .next
  let head : List (Op Response.Call) := List.replicate 4 .next
  have hall : (Response.session (fun _ => 0) S).conforming (Response.fresh 0)
      (status ++ .call (.setMethod (ascii "CONNECT")) :: head) = true := by decide +kernel
  have hstatus : (Response.session (fun _ => 0) S).ends (Response.fresh 0) status
      (fun s => Response.status s.reader = 204 && s.reader.connection.http10 = false &&
        s.emitted = [(0, ⟨.skip, 7, .none⟩), (7, ⟨.version, 1, .version 1⟩), (8, ⟨.skip, 1, .none⟩),
          (9, ⟨.statusCode, 3, .statusCode 204⟩)]) = true := by decide +kernel
  have hhead : (Response.session (fun _ => 0) S).ends (Response.fresh 0)
      (status ++ .call (.setMethod (ascii "CONNECT")) :: head)
      (fun s => s.reader.code = .endOfHeaders && s.reader.state = .expectEndOfBody &&
        s.reader.bodyType = .forceNoBody && s.reader.connection.http10 = false &&
        s.reader.connection.eofReceived = false && s.emitted = [(0, ⟨.skip, 7, .none⟩),
        (7, ⟨.version, 1, .version 1⟩), (8, ⟨.skip, 1, .none⟩),
        (9, ⟨.statusCode, 3, .statusCode 204⟩)] ++ [(12, ⟨.skip, 1, .none⟩),
        (13, ⟨.reasonPhrase, 0, .view []⟩), (13, ⟨.skip, 1, .none⟩),
        (14, ⟨.endOfHeaders, 1, .none⟩)]) = true := by decide +kernel
  obtain ⟨s, hplay₀, hs⟩ := Guarded.of_ends hstatus
  obtain ⟨s₂, hplay₂, hs₂⟩ := Guarded.of_ends hhead
  simp only [Bool.and_eq_true, decide_eq_true_eq] at hs hs₂
  obtain ⟨⟨h204, hversion⟩, hemitted⟩ := hs
  obtain ⟨⟨⟨⟨⟨hcode, hstate⟩, hbody⟩, hold⟩, heof⟩, hemitted₂⟩ := hs₂
  obtain ⟨s', hplay', ht⟩ := Session.play_tracks (Response.lawful fun _ => 0)
    (Response.tracks_fresh 0 S) hall
  have heq : s' = s₂ := Except.ok.inj (hplay'.symm.trans hplay₂)
  subst heq
  rw [Guarded.play_append, hplay₀] at hplay₂
  have htunnel := hclaim S s s' status head _ hall
    (fun _ hmem => nomatch List.eq_of_mem_replicate hmem) hplay₀ (by omega) hversion hplay₂
    (by rw [hemitted₂, hemitted]) (by decide) hcode
  have hphase : s'.reader.state.phase = .endOfBody := by rw [hstate]; rfl
  have hframing : (Response.view.core s'.reader).framing = (false, .forceNoBody) := by
    change (s'.reader.connection.http10, s'.reader.bodyType) = _
    rw [hold, hbody]
  have hdone := (Response.done_of_tunnels ht hphase hframing htunnel).1
  rw [heof] at hdone
  cases hdone

end BoostHttp
