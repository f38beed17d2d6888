import BoostHttp.Progress

/-!
# Stopping — connections that carry no further response

A response of version 1.0, one whose body ends with the connection and one that opens a tunnel are
the last ones on their connection.  The stop is decided when the message ends, long after the reason
for it was seen, and from then on nothing is read.
-/

open Incremental

namespace BoostHttp

namespace Session

variable {σ β ν κ φ : Type} {A : Api σ β ν κ} {mem : Nat → UInt8} {S : Bytes} {V : View σ β ν φ}
  {P : Policy φ} {Legal : Core φ → Prop} {s s₀ : Session σ β ν κ}
  {guard : Session σ β ν κ → Op κ → Bool} {ops : List (Op κ)}

/-- A call of `next()` that reports a token; a buffer that shows all of the stream still does. -/
theorem pull_emit (mem : Nat → UInt8) (hA : A.Lawful V P Legal) (ht : Tracks V Legal S s)
    (he : V.phase s.reader.state ≠ .errored) {c' : Core φ} {n : Nat} {code : Code}
    (hlex : P.lex (V.eof s.reader.connection) (V.core s.reader) s.reader.consume.restView
      = .emit c' n code) :
    ∃ r', s.pull A mem = .ok (s.pass.report mem r') ∧ Tracks V Legal S (s.pass.report mem r') ∧
      V.core r' = c' ∧ r'.code = code ∧ V.eof r'.connection = V.eof s.reader.connection ∧
      (s.pass.report mem r').pass.consumed = s.pass.consumed + n ∧
      (s.reader.restView = S.drop s.consumed →
        r'.restView = S.drop (s.pass.report mem r').consumed) := by
  obtain ⟨r', -, hpull, hout, ht'⟩ := pull_ok mem hA ht he
  have hrest : r'.restView = s.reader.consume.restView := hout.restView
  have heof : V.eof r'.connection = V.eof s.reader.connection := by
    rw [hout.eof, consume_connection]
  obtain ⟨-, -, hcodes, -⟩ := hA.implements.keeps.emit (ht.sound.legal he) hlex
  rw [hlex] at hout
  obtain ⟨hcore, hcode, hsize⟩ := hout.outcome
  refine ⟨r', hpull, ht', hcore, hcode, heof, ?_, fun hw => hrest.trans (ht.pass_whole he hw)⟩
  -- the token reported is no error, so it covers the bytes it was found in
  have hext : (r'.token mem).extent = n := by
    change (if r'.code.isError then 0 else r'.tokenSize) = n
    rw [hcode, hcodes, hsize]
    rfl
  rw [report_pass_consumed, hext]

/-- A call of `next()` that reports a fatal error. -/
theorem pull_fail (mem : Nat → UInt8) (hA : A.Lawful V P Legal) (ht : Tracks V Legal S s)
    (he : V.phase s.reader.state ≠ .errored) {code : Code}
    (hlex : P.lex (V.eof s.reader.connection) (V.core s.reader) s.reader.consume.restView
      = .fail code) :
    ∃ r', s.pull A mem = .ok (s.pass.report mem r') ∧ Tracks V Legal S (s.pass.report mem r') ∧
      V.phase r'.state = .errored ∧ r'.code = code ∧
      V.eof r'.connection = V.eof s.reader.connection ∧
      (s.pass.report mem r').pass.consumed = s.pass.consumed := by
  obtain ⟨r', -, hpull, hout, ht'⟩ := pull_ok mem hA ht he
  have heof : V.eof r'.connection = V.eof s.reader.connection := by
    rw [hout.eof, consume_connection]
  have hfatal := hA.implements.keeps.fail (ht.sound.legal he) hlex
  rw [hlex] at hout
  obtain ⟨hphase, hcode⟩ := hout.outcome
  refine ⟨r', hpull, ht', hphase, hcode, heof, ?_⟩
  have herr : (r'.token mem).code.isError = true := by
    change r'.code.isError = true
    rw [hcode]
    exact Code.isError_of_isFatal hfatal
  rw [report_pass_consumed, Token.extent, if_pos herr, Nat.add_zero]

/-- After a fatal error nothing more is reported. -/
theorem play_errored (hA : A.Lawful V P Legal) (ht : Tracks V Legal S s₀)
    (he : V.phase s₀.reader.state = .errored)
    (h : (system A mem S guard).conforming s₀ ops = true) :
    ∃ s, (system A mem S guard).play s₀ ops = .ok s ∧ s.emitted = s₀.emitted ∧
      s.reader.code = s₀.reader.code := by
  have hrun := play_induction hA (I := fun s => V.phase s.reader.state = .errored ∧
    s.emitted = s₀.emitted ∧ s.reader.code = s₀.reader.code) ?_ ?_ ?_ ht ⟨he, rfl, rfl⟩ h
  · obtain ⟨s, hplay, -, -, hlog, hcode⟩ := hrun
    exact ⟨s, hplay, hlog, hcode⟩
  · intro s r' _ hI hne
    exact absurd hI.1 hne
  · intro s size _ hI _ _
    exact hI
  · intro s c r' ht hI hp _ hcall
    obtain ⟨-, hstate, hcode, -⟩ := hA.of_call ht.sound hp hcall
    refine ⟨?_, hI.2.1, hcode.trans hI.2.2⟩
    change V.phase r'.state = .errored
    rw [hstate]
    exact hI.1

end Session

namespace Response

/-! ## The end of a connection -/

/-- No response can follow this one: it says so itself, or the input is at its end. -/
def Last (done : Bool) (f : Memory) : Prop := done = true ∨ f.2 = .forceNoBodyAndStop ∨ f.1 = true

/-- The codes that are reported from a state on, whatever the buffer holds; `done` says that the
stream is at its end and the reader knows. -/
inductive Closes (done : Bool) : Core Memory → List Code → Prop
  | failed {c : Core Memory} : c.phase = .errored → Closes done c []
  | connection {c : Core Memory} : c.phase = .endOfConnectionError →
      Closes done c [.errorUseAnotherConnection]
  | silent {c : Core Memory} : done = true → c.phase = .versionStaticStr → c.framing.2 = .unknownBody →
      Closes done c [.errorUseAnotherConnection]
  | message {c : Core Memory} : c.phase = .endOfMessage → Last done c.framing →
      Closes done c [.endOfMessage, .errorUseAnotherConnection]
  | body {c : Core Memory} : c.phase = .endOfBody → Last done c.framing →
      Closes done c [.endOfBody, .endOfMessage, .errorUseAnotherConnection]

/-- One step of it: the next code is reported without a byte. -/
theorem Closes.lex {done b : Bool} {c : Core Memory} {code : Code} {codes : List Code} {w : Bytes}
    (h : Closes done c (code :: codes)) (hdone : done = true → b = true ∧ w = []) :
    (∃ c', policy.lex b c w = .emit c' 0 code ∧ Closes done c' codes) ∨
      policy.lex b c w = .fail code ∧ codes = [] := by
  cases h with
  | connection hp =>
    refine .inr ⟨?_, rfl⟩
    unfold Policy.lex
    rw [hp]
  -- nothing is left to read, and a start line that does not begin waits for no body
  | silent hd hp hf =>
    obtain ⟨rfl, rfl⟩ := hdone hd
    refine .inr ⟨?_, rfl⟩
    have hwaits : policy.waits c.framing c.bodySize = false := by simp [policy, hf]
    rw [lex_nil (by rw [hp]; rfl), if_pos rfl, Policy.atEof, hwaits, hp]
    rfl
  -- the flag of the framing decides between the two ways to stop
  | message hp hlast =>
    refine .inl ⟨_, by unfold Policy.lex; rw [hp], ?_⟩
    simp only [policy]
    by_cases hstop : c.framing.2 = .forceNoBodyAndStop ∨ c.framing.1 = true
    · exact .connection (if_pos hstop)
    · exact .silent (hlast.resolve_right hstop) (if_neg hstop) rfl
  | body hp hlast =>
    refine .inl ⟨_, by unfold Policy.lex; rw [hp], ?_⟩
    exact .message rfl hlast

theorem Closes.phase_ne {done : Bool} {c : Core Memory} {codes : List Code} (h : Closes done c codes) :
    c.phase ≠ .spAfterStatusCode := by
  intro hp
  cases h <;> simp_all

variable {mem : Nat → UInt8} {S : Bytes} {s s₀ : Run} {ops : List (Op Call)}

/-- A call does not change the version, and does not take back the end of the input. -/
theorem connection_of_call {c : Call} {r r' : Response} (hr : Sound view Legal r)
    (hc : (api mem).callable c r = true) (h : (api mem).call c r = .ok r') :
    r'.connection.http10 = r.connection.http10 ∧
      (r.connection.eofReceived = true → r'.connection.eofReceived = true) := by
  cases c with
  | puteof =>
    cases h
    exact ⟨rfl, fun _ => rfl⟩
  | setMethod method =>
    have hcode : r.code = .statusCode := by simpa [api] using hc
    have heq := setMethod_eq method hr hcode
    rw [Except.ok.inj (Eq.trans (Eq.symm h) heq)]
    exact ⟨rfl, id⟩

structure Ends (done : Bool) (S : Bytes) (s : Run) (codes : List Code) : Prop where
  closes : Closes done (view.core s.reader) codes
  done : done = true → s.reader.connection.eofReceived = true ∧ s.pass.consumed = S.length
  waits : s.reader.code ≠ .errorInsufficientData

/-- What `next()` reports there, and that it stays at this place. -/
theorem Ends.pull (mem : Nat → UInt8) {done : Bool} {code : Code} {codes : List Code}
    (ht : Session.Tracks view Legal S s) (h : Ends done S s (code :: codes)) :
    ∃ r', s.pull (api mem) mem = .ok (s.pass.report mem r') ∧ r'.code = code ∧
      Session.Tracks view Legal S (s.pass.report mem r') ∧
      Ends done S (s.pass.report mem r') codes ∧
      (codes = [] ∨ (s.pass.report mem r').pass.consumed = s.pass.consumed) := by
  have he : s.reader.state.phase ≠ .errored := by
    intro he
    have hc := h.closes
    generalize hcodes : code :: codes = l at hc
    cases hc with
    | failed => cases hcodes
    | connection hp | silent _ hp _ | message hp _ | body hp _ =>
      rw [show (view.core s.reader).phase = .errored from he] at hp
      cases hp
  -- with the input used up the call sees an empty view
  have hempty : done = true → s.reader.connection.eofReceived = true ∧
      s.reader.consume.restView = [] := by
    intro hd
    have hwin := ht.pass_window he
    rw [(h.done hd).2, List.drop_length] at hwin
    exact ⟨(h.done hd).1, List.prefix_nil.mp hwin⟩
  -- each of the codes is reported in turn, and the last one is an error
  rcases h.closes.lex hempty with ⟨c', hlex, hc'⟩ | ⟨hlex, rfl⟩
  · obtain ⟨-, -, herr, -⟩ := keeps_policy.emit (ht.sound.legal he) hlex
    obtain ⟨r', hpull, ht', hcore, hcode, heof, hcons, -⟩ :=
      Session.pull_emit mem (lawful mem) ht he hlex
    refine ⟨r', hpull, hcode, ht', ⟨?_, fun hd => ?_, ?_⟩, .inr hcons⟩
    · change Closes done (view.core r') codes
      rw [hcore]
      exact hc'
    · rw [hcons]
      exact ⟨heof.trans (h.done hd).1, (h.done hd).2⟩
    · change r'.code ≠ _
      rw [hcode]
      rintro rfl
      cases herr
  · have hfatal := keeps_policy.fail (ht.sound.legal he) hlex
    obtain ⟨r', hpull, ht', hphase, hcode, heof, hcons⟩ :=
      Session.pull_fail mem (lawful mem) ht he hlex
    refine ⟨r', hpull, hcode, ht', ⟨.failed hphase, fun hd => ?_, ?_⟩, .inl rfl⟩
    · rw [hcons]
      exact ⟨heof.trans (h.done hd).1, (h.done hd).2⟩
    · change r'.code ≠ _
      rw [hcode]
      rintro rfl
      cases hfatal

/-- The codes are reported one by one, at one place of the stream, for as long as `next()` is called. -/
theorem play_ends {done : Bool} {codes : List Code} (ht : Session.Tracks view Legal S s)
    (hs : Ends done S s codes) (h : (session mem S).conforming s ops = true) :
    ∃ s' rest, (session mem S).play s ops = .ok s' ∧ s'.emitted = s.emitted ++ rest ∧
      rest.map (fun e => (e.1, e.2.code))
        = (codes.map fun code => (s.pass.consumed, code)).take (ops.countP Op.isNext) ∧
      s'.reader.code = (codes.take (ops.countP Op.isNext)).getLastD s.reader.code := by
  induction ops generalizing s codes with
  | nil => exact ⟨s, [], rfl, (List.append_nil _).symm, rfl, rfl⟩
  | cons o ops ih =>
    obtain ⟨hp, hrest⟩ := Guarded.conforming_cons h
    simp only [Session.system, Bool.and_eq_true] at hp
    cases o with
    | setBuffer size =>
      have hrefill : (session mem S).perform s (.setBuffer size) = .ok (s.rebase S size) :=
        Session.refill_eq_ok hs.waits size
      have hs' : Ends done S (s.rebase S size) codes :=
        ⟨hs.closes, fun hd => by rw [Session.rebase_pass_consumed]; exact hs.done hd, hs.waits⟩
      obtain ⟨s', rest, hplay, hlog, hcodes, hcode⟩ := ih (ht.rebase hp.1) hs' (hrest hrefill)
      rw [Session.rebase_pass_consumed] at hcodes
      refine ⟨s', rest, ?_, hlog, hcodes, hcode⟩
      rw [Guarded.play, hrefill]
      exact hplay
    -- the calls of the client change none of what is still to be reported
    | call c =>
      obtain ⟨r', hcall, hinv, ht'⟩ := ht.invoke (lawful mem) hp.1
      obtain ⟨-, -, hcode', -, hsize, -⟩ := (lawful mem).of_call ht.sound hp.1 hcall
      have hpass := Session.note_pass_consumed s c r' hcode' hsize
      have hs' : Ends done S (s.note c r') codes := by
        refine ⟨?_, fun hd => ?_, ?_⟩
        · change Closes done (view.core r') codes
          rw [Session.core_of_call (quiet mem) ht.sound hp.1 hcall hs.closes.phase_ne]
          exact hs.closes
        · rw [hpass]
          exact ⟨(connection_of_call ht.sound hp.1 hcall).2 (hs.done hd).1, (hs.done hd).2⟩
        · change r'.code ≠ _
          rw [hcode']
          exact hs.waits
      obtain ⟨s', rest, hplay, hlog, hcodes, hcode⟩ := ih ht' hs' (hrest hinv)
      rw [hpass] at hcodes
      refine ⟨s', rest, ?_, hlog, hcodes, hcode.trans ?_⟩
      · rw [Guarded.play, show (session mem S).perform s (.call c) = _ from hinv]
        exact hplay
      · change (codes.take _).getLastD r'.code = _
        rw [hcode']
        rfl
    | next =>
      rw [List.countP_cons_of_pos rfl]
      -- all codes are reported: the reader is in error, and stays there
      cases codes with
      | nil =>
        have he : s.reader.state.phase = .errored := by
          cases hs.closes with
          | failed hp => exact hp
        obtain ⟨s', hplay, hlog, hcode⟩ := Session.play_errored (lawful mem) ht he h
        exact ⟨s', [], hplay, hlog.trans (List.append_nil _).symm, rfl, hcode⟩
      | cons code codes =>
        obtain ⟨r', hpull, hcode', ht', hs', hplace⟩ := hs.pull mem ht
        obtain ⟨s', rest, hplay, hlog, hcodes, hcode⟩ := ih ht' hs' (hrest hpull)
        refine ⟨s', (s.pass.consumed, r'.token mem) :: rest, ?_, ?_, ?_, ?_⟩
        · rw [Guarded.play, show (session mem S).perform s .next = _ from hpull]
          exact hplay
        · rw [hlog, Session.emitted_report, List.append_assoc]
          rfl
        · rw [List.map_cons, List.map_cons, List.take_succ_cons, hcodes]
          congr 1
          · exact congrArg (Prod.mk _) hcode'
          · rcases hplace with rfl | hplace
            · rfl
            · rw [hplace]
        · rw [hcode, List.take_succ_cons, List.getLastD_cons]
          change (codes.take _).getLastD r'.code = _
          rw [hcode']

/-! ## Responses after which a connection ends -/

def Doomed (c : Core Memory) : Prop :=
  c.framing.1 = true ∨
    (c.phase = .unsafeBody ∨ c.phase = .endOfMessage) ∧ c.framing.2 = .forceNoBodyAndStop

theorem Doomed.goto {c : Core Memory} {q : Phase} (h : Doomed c) (hq : c.phase.Resolves q) :
    Doomed (c.goto q) := by
  obtain ⟨p, f, n⟩ := c
  rcases h with h | ⟨hp, hf⟩
  · exact .inl h
  · refine .inr ⟨?_, hf⟩
    rcases hp with rfl | rfl <;> cases hq
    · exact .inl rfl
    · exact .inr rfl

theorem Doomed.version {c : Core Memory} (h : Doomed c) (hu : c.phase ≠ .unsafeBody)
    (hm : c.phase ≠ .endOfMessage) : c.framing.1 = true :=
  h.resolve_right fun h => h.1.elim hu hm

theorem onFieldValue_fst {f f' : Memory} {n n' : Nat} {v : Bytes}
    (h : onFieldValue f n v = .ok (f', n')) : f'.1 = f.1 := by
  unfold onFieldValue at h
  split at h
  · split at h <;> cases h
    rfl
  · split at h <;> cases h <;> rfl
  · cases h
    rfl

theorem onHeaders_fst {f f' : Memory} {n : Nat} {p : Phase} (h : onHeaders f n = .ok (f', p)) :
    f'.1 = f.1 := by
  unfold onHeaders at h
  split at h <;> cases h <;> rfl

/-- A lexeme does not change the version back, and none of these ends a message: trailers belong to
a chunked body, which a response of version 1.0 does not have. -/
theorem accept_doomed {c c' : Core Memory} {raw : Bytes} {code : Code} (hl : Legal c)
    (h : Doomed c) (he : c.phase.isElastic = false) (hacc : policy.accept c raw = .ok (c', code)) :
    c'.framing.1 = true ∧ code ≠ .endOfMessage := by
  obtain ⟨p, ⟨ver, b⟩, n⟩ := c
  obtain ⟨henc, hl⟩ := hl
  -- a rigid phase is not the unsafe body, so the version is what dooms the response
  have hver : ver = true := by
    refine h.version (fun hp => ?_) fun hp => ?_
    · rw [hp] at he
      cases he
    · unfold Policy.accept at hacc
      rw [hp] at hacc
      cases hacc
  subst hver
  unfold Policy.accept at hacc
  cases p <;> simp only [policy] at hacc hl
  case fieldName =>
    split at hacc <;> cases hacc
    exact ⟨onFieldName_fst ‹_›, by simp⟩
  case fieldValue =>
    split at hacc <;> cases hacc
    exact ⟨onFieldValue_fst ‹_›, by simp⟩
  case crlfAfterHeaders =>
    split at hacc <;> cases hacc
    exact ⟨onHeaders_fst ‹_›, by simp⟩
  -- a response of version 1.0 is never chunked
  case crlfAfterTrailers => exact absurd (henc (by rw [hl]; rfl)) (by simp)
  case chunkSize | crlfAfterChunkExt => split at hacc <;> cases hacc <;> exact ⟨rfl, by simp⟩
  all_goals first | (cases hacc; done) | (cases hacc; exact ⟨rfl, by simp⟩)

/-- After the end of such a message another connection is needed. -/
theorem emits_doomed {c c' : Core Memory} {raw : Bytes} {code : Code} (hl : Legal c) (h : Doomed c)
    (hem : policy.Emits c raw code c') :
    (code ≠ .endOfMessage → Doomed c') ∧ (code = .endOfMessage → c'.phase = .endOfConnectionError) := by
  cases hem with
  | lexeme he _ _ hacc =>
    obtain ⟨hver, hcode⟩ := accept_doomed hl h he hacc
    exact ⟨fun _ => .inl hver, fun hc => absurd hc hcode⟩
  | colon hv hp =>
    have hver : c.framing.1 = true := by
      rcases hv with ⟨rfl, -⟩ | ⟨rfl, -⟩ <;> exact h.version (by rw [hp]; nofun) (by rw [hp]; nofun)
    exact ⟨fun _ => .inl hver, nofun⟩
  | ows => exact ⟨fun _ => h, nofun⟩
  | body hb hp =>
    have hver : c.framing.1 = true := by
      rcases hb with ⟨rfl, -⟩ | ⟨rfl, -⟩ <;> exact h.version (by rw [hp]; nofun) (by rw [hp]; nofun)
    exact ⟨fun _ => .inl hver, nofun⟩
  | unsafeBody => exact ⟨fun _ => h, nofun⟩
  -- the body was read until the end, and its framing says so
  | closed hp =>
    have hf : c.framing.2 = .forceNoBodyAndStop := by
      have hl := hl.2
      rwa [hp] at hl
    exact ⟨fun _ => .inr ⟨.inr rfl, hf⟩, nofun⟩
  | endOfBody hp =>
    exact ⟨fun _ => .inl (h.version (by rw [hp]; nofun) (by rw [hp]; nofun)), nofun⟩
  | endOfMessage hp =>
    refine ⟨fun hc => absurd rfl hc, fun _ => ?_⟩
    have hstop : c.framing.2 = .forceNoBodyAndStop ∨ c.framing.1 = true := by
      rcases h with h | ⟨-, h⟩
      · exact .inr h
      · exact .inl h
    exact if_pos hstop

theorem doomed_of_lex {b : Bool} {c c' : Core Memory} {w : Bytes} {n : Nat} {code : Code}
    (hl : Legal c) (h : Doomed c) (hlex : policy.lex b c w = .emit c' n code) :
    (code ≠ .endOfMessage → Doomed c') ∧ (code = .endOfMessage → c'.phase = .endOfConnectionError) := by
  obtain ⟨q, hq, hem⟩ := emits_of_lex hlex
  exact emits_doomed (hl.goto hq) (h.goto hq) hem

def Unfinished (log : List (Nat × Token)) : Prop := ∀ e ∈ log, e.2.code ≠ .endOfMessage

theorem unfinished_append {log log' : List (Nat × Token)} :
    Unfinished (log ++ log') ↔ Unfinished log ∧ Unfinished log' := List.forall_mem_append

structure Dooms (log : List (Nat × Token)) (c : Core Memory) : Prop where
  reading : Unfinished log → Doomed c
  ended : ∀ log' q t, log = log' ++ [(q, t)] → Unfinished log' → t.code = .endOfMessage →
    c.phase = .endOfConnectionError

/-- A doomed response leads to the end of the connection. -/
theorem play_dooms (ht : Session.Tracks view Legal S s₀) (he : s₀.reader.state.phase ≠ .errored)
    (hd : Doomed (view.core s₀.reader)) (h : (session mem S).conforming s₀ ops = true) :
    ∃ s log, (session mem S).play s₀ ops = .ok s ∧ Session.Tracks view Legal S s ∧
      s.emitted = s₀.emitted ++ log ∧ ∀ log' q t, log = log' ++ [(q, t)] → Unfinished log' →
        t.code = .endOfMessage → s.reader.state.phase = .endOfConnectionError := by
  -- while the message is unfinished it is doomed, and behind it the connection is over
  have hrun := Session.play_follows (lawful mem) (J := fun log _ c => Dooms log c)
    (F := fun log => ∀ log' q t, log = log' ++ [(q, t)] → t.code ≠ .endOfMessage) ?_ ?_ ?_ ?_ ht he
    ⟨fun _ => hd, fun log' q t hnil => by simp at hnil⟩ h
  · obtain ⟨s, log, hplay, ht', hlog, hF, hJ⟩ := hrun
    refine ⟨s, log, hplay, ht', hlog, fun log' q t heq hunf hcode => ?_⟩
    by_cases hp : s.reader.state.phase = .errored
    · exact absurd hcode (hF hp log' q t heq)
    · exact (hJ hp).ended log' q t heq hunf hcode
  · intro log p x c w c' n code hJ hl _ hlex
    refine ⟨fun hunf => ?_, fun log' q t heq hunf hcode => ?_⟩
    · obtain ⟨hlog, hlast⟩ := unfinished_append.mp hunf
      exact (doomed_of_lex hl (hJ.reading hlog) hlex).1 (hlast _ (List.mem_singleton.mpr rfl))
    · obtain ⟨rfl, hlast⟩ := List.append_inj' heq rfl
      cases hlast
      exact (doomed_of_lex hl (hJ.reading hunf) hlex).2 hcode
  · intro log p x c w c' t hJ hlex hcode
    refine ⟨fun hunf => ?_, fun log' q t' heq _ hcode' => ?_⟩
    · have hdoomed := hJ.reading (unfinished_append.mp hunf).1
      obtain ⟨-, ⟨-, rfl⟩ | ⟨a, _, -, rfl⟩⟩ := of_lex_need hlex
      · exact hdoomed
      · exact hdoomed.goto (Phase.resolves_resolve _ a)
    · obtain ⟨rfl, hlast⟩ := List.append_inj' heq rfl
      cases hlast
      rw [hcode] at hcode'
      cases hcode'
  · intro log p x c w t hJ hl hlex log' q t' heq hcode
    obtain ⟨rfl, hlast⟩ := List.append_inj' heq rfl
    cases hlast
    have hfatal := keeps_policy.fail hl hlex
    rw [hcode] at hfatal
    cases hfatal
  · intro log p c s r' hJ hr hc _ hcall
    have hphase : (view.core r').phase = (view.core s.reader).phase :=
      Session.phase_of_call (lawful mem) hr hc hcall
    refine ⟨fun hunf => ?_, fun log' q t heq hunf hcode => ?_⟩
    · rcases hJ.reading hunf with hver | ⟨hp, hf⟩
      · exact .inl ((connection_of_call hr hc hcall).1.trans hver)
      · have hne : s.reader.state.phase ≠ .spAfterStatusCode := by
          intro hst
          rcases hp with hp | hp <;> rw [show (view.core s.reader).phase = _ from hst] at hp <;>
            cases hp
        rw [Session.core_of_call (quiet mem) hr hc hcall hne]
        exact .inr ⟨hp, hf⟩
    · rw [hphase]
      exact hJ.ended log' q t heq hunf hcode

/-- The digit 0 sets the flag. -/
theorem version_of_lex {b : Bool} {c c' : Core Memory} {w : Bytes} {n m : Nat}
    (h : policy.lex b c w = .emit c' n .version) (hv : tokenValue .version m w n = .version 0) :
    c'.framing.1 = true := by
  obtain ⟨q, -, hem⟩ := emits_of_lex h
  generalize hraw : w.take n = raw at hem
  generalize hcode : Code.version = code at hem
  have hzero : w.headD 0 = 0x30 := by
    have hint : ((w.headD 0).toNat : Int) - 0x30 = 0 := Value.version.inj hv
    apply UInt8.toNat_inj.mp
    change (w.headD 0).toNat = 48
    omega
  -- the token holds the first byte of the view
  have hhead : raw ≠ [] → raw.headD 0 = 0x30 := by
    intro hne
    rw [← hzero, ← hraw]
    cases w with
    | nil => exact absurd (hraw.symm.trans List.take_nil) hne
    | cons a w =>
      cases n with
      | zero => exact absurd hraw.symm hne
      | succ n => rfl
  cases hem with
  | lexeme _ _ hscan hacc =>
    subst hcode
    unfold Policy.accept at hacc
    cases q <;> simp only [Core.goto_phase] at hacc hscan
    case requestVersion | responseVersion =>
      rw [Phase.scan] at hscan
      obtain ⟨rfl, hlen, -⟩ := fixed_ok hscan
      cases hacc
      have hne : ∀ x : Bytes, 1 ≤ x.length → x.take 1 ≠ [] := by
        intro x hx hnil
        have hnil := congrArg List.length hnil
        rw [List.length_take, Nat.min_eq_left hx] at hnil
        cases hnil
      simp only [policy]
      rw [hhead (hne _ hlen)]
      exact Bool.or_true _
    case fieldName | fieldValue | crlfAfterHeaders | chunkSize | crlfAfterChunkExt =>
      split at hacc <;> cases hacc
    all_goals cases hacc
  | _ => cases hcode

/-- A version with the digit 0 is the last token on record only while its flag is set. -/
theorem play_version (ht : Session.Tracks view Legal S s₀) (he : s₀.reader.state.phase ≠ .errored)
    (hs : s₀.emitted = []) (h : (session mem S).conforming s₀ ops = true) :
    ∃ s, (session mem S).play s₀ ops = .ok s ∧ Session.Tracks view Legal S s ∧
      ∀ log p n, s.emitted = log ++ [(p, ⟨.version, n, .version 0⟩)] →
        s.reader.state.phase ≠ .errored ∧ s.reader.connection.http10 = true := by
  -- the flag is set with the version token, and nothing but a new token follows it
  have hrun := Session.play_follows (lawful mem)
    (J := fun log _ c => ∀ log' p n, log = log' ++ [(p, ⟨.version, n, .version 0⟩)] →
      c.framing.1 = true)
    (F := fun log => ∀ log' p n, log ≠ log' ++ [(p, ⟨.version, n, .version 0⟩)]) ?_ ?_ ?_ ?_ ht he
    (fun log' p n hnil => by simp at hnil) h
  · obtain ⟨s, log, hplay, ht', hlog, hF, hJ⟩ := hrun
    rw [hs, List.nil_append] at hlog
    refine ⟨s, hplay, ht', fun log' p n heq => ?_⟩
    rw [hlog] at heq
    have hne : s.reader.state.phase ≠ .errored := fun hp => hF hp log' p n heq
    exact ⟨hne, hJ hne log' p n heq⟩
  · intro log p x c w c' n code _ _ _ hlex log' p' n' heq
    obtain ⟨-, hlast⟩ := List.append_inj' heq rfl
    simp only [List.cons.injEq, Prod.mk.injEq, Token.mk.injEq, and_true] at hlast
    obtain ⟨-, rfl, -, hvalue⟩ := hlast
    exact version_of_lex hlex hvalue
  · intro log p x c w c' t _ _ hcode log' p' n' heq
    obtain ⟨-, hlast⟩ := List.append_inj' heq rfl
    cases hlast
    cases hcode
  · intro log p x c w t _ hl hlex log' p' n' heq
    obtain ⟨-, hlast⟩ := List.append_inj' heq rfl
    cases hlast
    have hfatal := keeps_policy.fail hl hlex
    cases hfatal
  · intro log p c s r' hJ hr hc _ hcall log' p' n' heq
    exact (connection_of_call hr hc hcall).1.trans (hJ log' p' n' heq)

end Response

/-- A connection that cannot carry another response is not read any further: behind the end of a
response of version 1.0, or of one whose body ends with the connection, `next()` reports that another
connection is needed, whatever is in the buffer; and the flag for version 1.0 is never left set where
a new response may start. -/
theorem connection_not_reused (mem : Nat → UInt8) (S : Bytes) (s₀ : Response.Run)
    (hs₀ : Response.Begins s₀) (ops₀ : List (Op Response.Call))
    (h₀ : (Response.session mem S).conforming s₀ ops₀ = true) :
    ∃ s, (Response.session mem S).play s₀ ops₀ = .ok s ∧
      (s.reader.state = .expectVersionStaticStr → s.reader.connection.http10 = false) ∧
      ((∃ log p n, s.emitted = log ++ [(p, ⟨.version, n, .version 0⟩)]) ∨
          s.reader.state = .expectUnsafeBody →
        ∀ ops₁ s₁ log q t, (Response.session mem S).conforming s ops₁ = true →
          (Response.session mem S).play s ops₁ = .ok s₁ →
          s₁.emitted = s.emitted ++ (log ++ [(q, t)]) → t.code = .endOfMessage →
          (∀ e ∈ log, e.2.code ≠ .endOfMessage) →
          ∀ ops₂, (Response.session mem S).conforming s₁ ops₂ = true →
            ∃ s₂ rest, (Response.session mem S).play s₁ ops₂ = .ok s₂ ∧
              s₂.emitted = s₁.emitted ++ rest ∧
              rest.map (fun e => e.2.code)
                = [Code.errorUseAnotherConnection].take (ops₂.countP Op.isNext) ∧
              (0 < ops₂.countP Op.isNext → s₂.reader.code = .errorUseAnotherConnection)) := by
  obtain ⟨bodySize, rfl⟩ := hs₀.eq_fresh
  obtain ⟨s, hplay, ht, hversion⟩ := Response.play_version (Response.tracks_fresh bodySize S)
    nofun rfl h₀
  refine ⟨s, hplay, fun hst => ?_, fun hs ops₁ s₁ log q t h₁ hplay₁ hlog hcode hunf ops₂ h₂ => ?_⟩
  · have hphase : s.reader.state.phase = .versionStaticStr := by rw [hst]; rfl
    have hl := (ht.sound.legal (by rw [show Response.view.phase _ = _ from hphase]; nofun)).2
    rw [show (Response.view.core s.reader).phase = _ from hphase] at hl
    exact congrArg Prod.fst hl
  -- the response is doomed from here on
  have hdoomed : s.reader.state.phase ≠ .errored ∧ Response.Doomed (Response.view.core s.reader) := by
    rcases hs with ⟨log', p, n, heq⟩ | hst
    · obtain ⟨hne, hflag⟩ := hversion log' p n heq
      exact ⟨hne, .inl hflag⟩
    · have hphase : s.reader.state.phase = .unsafeBody := by rw [hst]; rfl
      have hne : s.reader.state.phase ≠ .errored := by rw [hphase]; nofun
      have hl := (ht.sound.legal hne).2
      rw [show (Response.view.core s.reader).phase = _ from hphase] at hl
      exact ⟨hne, .inr ⟨.inl hphase, hl⟩⟩
  obtain ⟨s', log', hplay', ht', hlog', hend⟩ := Response.play_dooms ht hdoomed.1 hdoomed.2 h₁
  have heq : s' = s₁ := Except.ok.inj (hplay'.symm.trans hplay₁)
  subst heq
  have hlogs : log' = log ++ [(q, t)] := List.append_cancel_left (hlog'.symm.trans hlog)
  -- the message is over, and with it the connection
  have hphase := hend log q t hlogs hunf hcode
  have hends : Response.Ends false S s' [.errorUseAnotherConnection] :=
    ⟨.connection hphase, nofun, ht'.sound.zeroSized (by
      rw [show Response.view.phase _ = _ from hphase]; rfl)⟩
  obtain ⟨s₂, rest, hplay₂, hrest, hcodes, hlast⟩ := Response.play_ends ht' hends h₂
  refine ⟨s₂, rest, hplay₂, hrest, ?_, fun hpos => ?_⟩
  · have hsnd := congrArg (List.map Prod.snd) hcodes
    rw [List.map_map, List.map_take] at hsnd
    exact hsnd
  · rw [hlast, List.take_of_length_le (by simpa using hpos)]
    rfl

/-- A response of version 1.0 without a body, with another response behind it. -/
theorem connection_not_reused_old :
    let S := ascii "HTTP/1.0 204 \n\nHTTP/1.1"
    let version : List (Op Response.Call) := [.setBuffer 23, .next]
    let message : List (Op Response.Call) := List.flatten
      [[.next, .next, .call (.setMethod (ascii "GET"))], List.replicate 6 .next]
    ∃ s s₁ s₂, (Response.session (fun _ => 0) S).play (Response.fresh 0) version = .ok s ∧
      (Response.session (fun _ => 0) S).play s message = .ok s₁ ∧
      (Response.session (fun _ => 0) S).play s₁ [.call .puteof, .next] = .ok s₂ ∧
      s₁.reader.code = .endOfMessage ∧ s₂.reader.code = .errorUseAnotherConnection := by
  intro S version message
  have hall : (Response.session (fun _ => 0) S).conforming (Response.fresh 0)
      (version ++ (message ++ [.call .puteof, .next])) = true := by decide +kernel
  have hversion : (Response.session (fun _ => 0) S).ends (Response.fresh 0) version
      (fun s => s.emitted = [(0, ⟨.skip, 7, .none⟩)] ++ [(7, ⟨.version, 1, .version 0⟩)]) = true := by
    decide +kernel
  have hmessage : (Response.session (fun _ => 0) S).ends (Response.fresh 0) (version ++ message)
      (fun s => s.reader.code = .endOfMessage && s.emitted = [(0, ⟨.skip, 7, .none⟩)] ++
        [(7, ⟨.version, 1, .version 0⟩)] ++ ([(8, ⟨.skip, 1, .none⟩),
          (9, ⟨.statusCode, 3, .statusCode 204⟩), (12, ⟨.skip, 1, .none⟩),
          (13, ⟨.reasonPhrase, 0, .view []⟩), (13, ⟨.skip, 1, .none⟩),
          (14, ⟨.endOfHeaders, 1, .none⟩), (15, ⟨.endOfBody, 0, .none⟩)] ++
          [(15, ⟨.endOfMessage, 0, .none⟩)])) = true := by decide +kernel
  obtain ⟨s, hplay, hs⟩ := Guarded.of_ends hversion
  obtain ⟨s₁, hplay₁, hs₁⟩ := Guarded.of_ends hmessage
  simp only [Bool.and_eq_true, decide_eq_true_eq] at hs hs₁
  obtain ⟨s', hplay', -, hstop⟩ := connection_not_reused (fun _ => 0) S (Response.fresh 0)
    (.inl ⟨0, rfl⟩) version (Guarded.conforming_append hall)
  have heq : s' = s := Except.ok.inj (hplay'.symm.trans hplay)
  subst heq
  have hrest := Guarded.conforming_of_play hall hplay
  rw [Guarded.play_append, hplay] at hplay₁
  obtain ⟨s₂, rest, hplay₂, -, -, hcode⟩ := hstop (.inl ⟨_, _, _, hs⟩) message s₁ _ _ _
    (Guarded.conforming_append hrest) hplay₁ (by rw [hs₁.2, hs]) rfl (by decide)
    [.call .puteof, .next] (Guarded.conforming_of_play hrest hplay₁)
  exact ⟨s', s₁, s₂, hplay, hplay₁, hplay₂, hs₁.1, hcode Nat.one_pos⟩

end BoostHttp
