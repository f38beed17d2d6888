import BoostHttp.Delivery
import BoostHttp.Safety

/-!
# Closing — which bodies and messages can end, and what the end of the input does to them

`puteof()` can be called at any time.  It ends a body only when the body has no other end, and only
behind the bytes that can be seen; a message whose head, counted body or last chunk is not all there
is not completed by it.
-/

open Incremental

namespace BoostHttp

/-! ## The head comes first -/

def headDone (log : List (Nat × Token)) : Bool :=
  log.foldl (fun done e =>
    match e.2.code with
    | .endOfHeaders => true
    | .endOfMessage => false
    | _ => done) false

def Headed (log : List (Nat × Token)) : Prop :=
  ∀ log₁ e log₂, log = log₁ ++ e :: log₂ → e.2.code = .endOfBody ∨ e.2.code = .endOfMessage →
    headDone log₁ = true

def Phase.inBody : Phase → Bool
  | .body | .unsafeBody | .endOfBody | .endOfMessage | .chunkSize | .chunkExt | .crlfAfterChunkExt
  | .chunkData | .crlfAfterChunkData | .trailerName | .trailerColon | .owsAfterTrailerColon
  | .trailerValue | .crlfAfterTrailerValue | .crlfAfterTrailers => true
  | _ => false

theorem headDone_append (log : List (Nat × Token)) (e : Nat × Token) :
    headDone (log ++ [e]) = match e.2.code with
      | .endOfHeaders => true
      | .endOfMessage => false
      | _ => headDone log := by
  rw [headDone, List.foldl_append]
  rfl

theorem Headed.append {log : List (Nat × Token)} (h : Headed log) {e : Nat × Token}
    (he : e.2.code = .endOfBody ∨ e.2.code = .endOfMessage → headDone log = true) :
    Headed (log ++ [e]) := by
  intro log₁ d log₂ heq hd
  rcases List.eq_nil_or_concat log₂ with rfl | ⟨log₃, d', rfl⟩
  · obtain ⟨rfl, hlast⟩ := List.append_inj' heq rfl
    cases hlast
    exact he hd
  · rw [List.concat_eq_append, ← List.cons_append, ← List.append_assoc] at heq
    obtain ⟨hinit, -⟩ := List.append_inj' heq rfl
    exact h log₁ d log₃ hinit hd

section Step

variable {φ : Type} {P : Policy φ} {b : Bool} {s s' : Core φ} {w raw : Bytes} {n : Nat} {code : Code}

def Code.Moves (code : Code) (p q : Phase) : Prop :=
  match code with
  | .endOfHeaders => q.inBody = true
  | .endOfBody => p.inBody = true ∧ q.inBody = true
  | .endOfMessage => p.inBody = true ∧ q.inBody = false
  | _ => q.inBody = p.inBody

theorem Phase.Resolves.inBody {p q : Phase} (h : p.Resolves q) : q.inBody = p.inBody := by
  cases h <;> rfl

theorem accept_moves (hP : P.Orderly) (h : P.accept s raw = .ok (s', code)) :
    code.Moves s.phase s'.phase := by
  obtain ⟨p, f, m⟩ := s
  unfold Policy.accept at h
  cases p <;> simp only at h
  case fieldName | fieldValue =>
    split at h <;> cases h
    rfl
  -- the policy chooses where the head leads, and `Orderly` names the choices
  case crlfAfterHeaders =>
    split at h <;> cases h
    rename_i hon
    rcases hP.headers hon with rfl | rfl | rfl | rfl <;> rfl
  case chunkSize =>
    split at h <;> cases h
    rfl
  case crlfAfterChunkExt =>
    split at h <;> cases h
    · rfl
    · exact ⟨rfl, rfl⟩
  case crlfAfterTrailers =>
    cases h
    refine ⟨rfl, ?_⟩
    rcases hP.trailersEnd f with hq | hq <;> simp only [hq] <;> rfl
  all_goals
    cases h
    try rfl

theorem lex_moves (hP : P.Orderly) (h : P.lex b s w = .emit s' n code) :
    code.Moves s.phase s'.phase := by
  obtain ⟨q, hq, he⟩ := emits_of_lex h
  have hmoves : code.Moves (s.goto q).phase s'.phase := by
    generalize w.take n = raw at he
    cases he with
    | lexeme _ _ _ ha => exact accept_moves hP ha
    | colon hv hp _ hq' =>
      rcases hv with ⟨rfl, rfl, rfl⟩ | ⟨rfl, rfl, rfl⟩ <;> rcases hq' with rfl | rfl <;> rw [hp] <;> rfl
    | ows => rfl
    | body hb hp _ _ =>
      change Phase.inBody (if _ then _ else _) = _
      rcases hb with ⟨rfl, rfl⟩ | ⟨rfl, rfl⟩ <;> rw [hp] <;> split <;> rfl
    | unsafeBody => rfl
    | closed hp => rw [hp]; exact ⟨rfl, rfl⟩
    | endOfBody hp => rw [hp]; exact ⟨rfl, rfl⟩
    | endOfMessage hp =>
      rw [hp]
      refine ⟨rfl, ?_⟩
      rcases hP.messageEnd (s.goto q).framing with hm | hm | hm <;> simp only [hm] <;> rfl
  -- resolving a phase does not move it into a body or out of one
  have hin : q.inBody = s.phase.inBody := hq.inBody
  cases code <;> simp only [Code.Moves, Core.goto_phase, hin] at hmoves ⊢ <;> exact hmoves

/-- A head ends with the decision of the policy. -/
theorem headers_of_emits (h : P.Emits s raw .endOfHeaders s') :
    s.phase = .crlfAfterHeaders ∧ s'.bodySize = s.bodySize ∧
      P.onHeaders s.framing s.bodySize = .ok (s'.framing, s'.phase) := by
  generalize hcode : Code.endOfHeaders = code at h
  cases h with
  | lexeme _ _ _ hacc =>
    subst hcode
    unfold Policy.accept at hacc
    split at hacc <;> first
      | cases hacc
      | (split at hacc <;> cases hacc)
    rename_i hp _ f q hon
    exact ⟨hp, rfl, hon⟩
  | _ => cases hcode

end Step

namespace Session

variable {σ β ν κ φ : Type} {A : Api σ β ν κ} {mem : Nat → UInt8} {S : Bytes} {V : View σ β ν φ}
  {P : Policy φ} {Legal : Core φ → Prop} {s s₀ : Session σ β ν κ}
  {guard : Session σ β ν κ → Op κ → Bool} {ops : List (Op κ)}

/-- No body and no message ends before its head has. -/
theorem play_headed (hA : A.Lawful V P Legal) (hP : P.Orderly) (ht : Tracks V Legal S s₀)
    (hphase : (V.phase s₀.reader.state).inBody = false) (he : V.phase s₀.reader.state ≠ .errored)
    (hlog : s₀.emitted = []) (h : (system A mem S guard).conforming s₀ ops = true) :
    ∃ s, (system A mem S guard).play s₀ ops = .ok s ∧ Headed s.emitted := by
  -- the phase is in a body exactly if the end of a head was the last structural token
  have hrun := play_follows hA
    (J := fun log _ s => headDone log = s.phase.inBody ∧ Headed log) (F := Headed)
    ?_ ?_ ?_ ?_ ht he ⟨hphase.symm, ?_⟩ h
  · obtain ⟨s, log, hplay, -, hs, hfailed, hrunning⟩ := hrun
    rw [hlog, List.nil_append] at hs
    refine ⟨s, hplay, ?_⟩
    rw [hs]
    by_cases he' : V.phase s.reader.state = .errored
    · exact hfailed he'
    · exact (hrunning he').2
  · rintro log p x c w c' n code ⟨hdone, hheaded⟩ - - hlex
    have hmoves := lex_moves hP hlex
    refine ⟨?_, hheaded.append fun hcode => ?_⟩
    · rw [headDone_append, hdone]
      cases code <;> simp only [Code.Moves] at hmoves <;> simp [hmoves]
    · rcases hcode with hcode | hcode <;> (change code = _ at hcode; subst hcode) <;>
        exact hdone.trans hmoves.1
  · rintro log p x c w c' t ⟨hdone, hheaded⟩ hlex hcode
    have hsame : c'.phase.inBody = c.phase.inBody := by
      obtain ⟨-, ⟨-, rfl⟩ | ⟨d, y, -, rfl⟩⟩ := of_lex_need hlex
      · rfl
      · exact (Phase.resolves_resolve _ _).inBody
    refine ⟨?_, hheaded.append fun hend => ?_⟩
    · rw [headDone_append, hcode, hsame]
      exact hdone
    · rw [hcode] at hend
      rcases hend with hend | hend <;> cases hend
  · rintro log p x c w t ⟨-, hheaded⟩ hlegal hlex
    have hfatal := hA.implements.keeps.fail hlegal hlex
    refine hheaded.append fun hend => ?_
    rcases hend with hend | hend <;> (change t.code = _ at hend; rw [hend] at hfatal; cases hfatal)
  · rintro log p c s r' ⟨hdone, hheaded⟩ hr hc - hcall
    refine ⟨?_, hheaded⟩
    rw [hdone]
    exact congrArg Phase.inBody (phase_of_call hA hr hc hcall).symm
  · intro log₁ e log₂ hnil
    simp at hnil

/-! ## Bodies that end with the connection -/

structure DeliversRest (S : Bytes) (c : Nat) (log : List (Nat × Token)) : Prop where
  delivered : firstBody log <+: S.drop c
  ended : ¬ Unended log → EndsAt (c + (firstBody log).length) log

/-- Without a byte in view, such a body waits or ends with the input. -/
theorem lex_unsafeBody_nil {b : Bool} {c : Core φ} (hp : c.phase = .unsafeBody) :
    P.lex b c [] = .need c ∨
      b = true ∧ P.lex b c [] = .emit (c.goto .endOfMessage) 0 .endOfBody := by
  rw [lex_nil (by rw [hp]; rfl)]
  cases b with
  | false => exact .inl rfl
  | true =>
    by_cases hw : P.waits c.framing c.bodySize = true
    · exact .inl (if_pos hw)
    · exact .inr ⟨rfl, (if_neg hw).trans (if_pos hp)⟩

theorem play_untilClose (hA : A.Lawful V P Legal) (ht : Tracks V Legal S s₀)
    (hphase : V.phase s₀.reader.state = .unsafeBody)
    (h : (system A mem S guard).conforming s₀ ops = true) :
    ∃ s log, (system A mem S guard).play s₀ ops = .ok s ∧ s.emitted = s₀.emitted ++ log ∧
      (Collects S s₀.pass.consumed log s.pass.consumed ∨
        ∃ q p ph, Ending S s₀.pass.consumed q log p ph) := by
  -- the bytes are collected as they come, until the end of the input ends the body
  have hrun := play_follows hA
    (J := fun log p s => Collects S s₀.pass.consumed log p ∧ s.phase = .unsafeBody ∨
      ∃ q, Ending S s₀.pass.consumed q log p s.phase)
    (F := fun log => ∃ q p ph, Ending S s₀.pass.consumed q log p ph)
    ?_ ?_ ?_ ?_ ht (by rw [hphase]; nofun) (.inl ⟨.nil _ _, hphase⟩) h
  · obtain ⟨s, log, hplay, -, hlog, hfailed, hrunning⟩ := hrun
    refine ⟨s, log, hplay, hlog, ?_⟩
    by_cases he : V.phase s.reader.state = .errored
    · exact .inr (hfailed he)
    · rcases hrunning he with ⟨hcoll, -⟩ | ⟨q, hend⟩
      · exact .inl hcoll
      · exact .inr ⟨q, _, _, hend⟩
  · intro log p x c w c' n code hJ _ hw hlex
    rcases hJ with ⟨hcoll, hp⟩ | ⟨q, hend⟩
    · by_cases hnil : w = []
      · -- only the end of the input ends the body
        subst hnil
        rcases lex_unsafeBody_nil hp with hneed | ⟨-, hend⟩
        · rw [hneed] at hlex
          cases hlex
        · rw [hend] at hlex
          cases hlex
          exact .inr ⟨p, .body hcoll⟩
      · rw [lex_unsafeBody hp hnil] at hlex
        cases hlex
        exact .inl ⟨hcoll.chunk hw (Nat.le_refl _) _, hp⟩
    · exact .inr ⟨q, hend.emit hlex⟩
  · intro log p x c w c' t hJ hlex hcode
    rcases hJ with ⟨hcoll, hp⟩ | ⟨q, hend⟩
    · refine .inl ⟨hcoll.wait hcode, ?_⟩
      obtain ⟨-, ⟨-, rfl⟩ | ⟨d, y, -, rfl⟩⟩ := of_lex_need hlex
      · exact hp
      · rw [Core.goto_phase, hp]
        rfl
    · exact .inr ⟨q, hend.other (by rw [hlex]; nofun) _ _ _⟩
  · intro log p x c w t hJ _ hlex
    rcases hJ with ⟨hcoll, hp⟩ | ⟨q, hend⟩
    · by_cases hnil : w = []
      · subst hnil
        rcases lex_unsafeBody_nil hp with hneed | ⟨-, hend⟩
        · rw [hneed] at hlex
          cases hlex
        · rw [hend] at hlex
          cases hlex
      · rw [lex_unsafeBody hp hnil] at hlex
        cases hlex
    · exact ⟨q, p, .errored, hend.other (by rw [hlex]; nofun) _ _ _⟩
  · intro log p c s r' hJ hr hc _ hcall
    have hsame : (V.core r').phase = (V.core s.reader).phase := phase_of_call hA hr hc hcall
    rw [hsame]
    exact hJ

/-- The end of the input makes a difference to a token only where it ends such a body. -/
theorem lex_ends_rest {b : Bool} {c c' : Core φ} {w : Bytes} {n : Nat} {code : Code}
    (hdiff : P.lex false c w ≠ P.lex b c w) (h : P.lex b c w = .emit c' n code) :
    c.phase = .unsafeBody ∧ w = [] := by
  have hzero : c.phase.isZeroSized = false := by
    by_contra hz
    exact hdiff (lex_zeroSized (by simpa using hz) _ _ _ _)
  cases w with
  | cons d w =>
    rw [lex_cons hzero, lex_cons hzero] at hdiff
    exact absurd rfl hdiff
  | nil =>
    exact ⟨(of_lex_nil_emit hzero h).1, rfl⟩

/-- A run that starts in such a body delivers what is left of the stream. -/
theorem play_rest {log : List (Nat × Token)} (hA : A.Lawful V P Legal) (ht : Tracks V Legal S s₀)
    (hphase : V.phase s₀.reader.state = .unsafeBody)
    (h : (system A mem S guard).conforming s₀ ops = true)
    (hplay : (system A mem S guard).play s₀ ops = .ok s) (hlog : s.emitted = s₀.emitted ++ log)
    (hplaced : Placed s₀.pass.consumed log) : DeliversRest S s₀.pass.consumed log := by
  obtain ⟨s₁, log₁, hplay₁, hlog₁, hcases⟩ := play_untilClose hA ht hphase h
  have hs₁ : s₁ = s := Except.ok.inj (hplay₁.symm.trans hplay)
  subst hs₁
  have hlogs₁ : log₁ = log := List.append_cancel_left (hlog₁.symm.trans hlog)
  subst hlogs₁
  rcases hcases with hcoll | ⟨q, p, ph, hend⟩
  · refine ⟨?_, absurd hcoll.unended⟩
    rw [firstBody_of_unended hcoll.unended]
    exact hcoll.bytes
  · obtain ⟨log₂, hcoll, hbody⟩ := hend.firstBody_eq
    refine ⟨?_, fun _ => ?_⟩
    · rw [hbody]
      exact hcoll.bytes
    · -- the bytes collected reach from the end of the head to the end of the input
      rw [hbody, ← hcoll.offset]
      exact endsAt hend hplaced

/-! ## Chunked bodies -/

def Finished (log : List (Nat × Token)) : Prop :=
  ∃ e ∈ log, e.2.code = .endOfBody ∨ e.2.code = .endOfMessage

/-- A record that is not finished is finished by one of two tokens only. -/
theorem not_finished_concat {log : List (Nat × Token)} {e : Nat × Token} (h : ¬ Finished log)
    (hbody : e.2.code ≠ .endOfBody) (hmessage : e.2.code ≠ .endOfMessage) :
    ¬ Finished (log ++ [e]) := by
  rintro ⟨d, hd, hcode⟩
  rcases List.mem_append.mp hd with hd | hd
  · exact h ⟨d, hd, hcode⟩
  · rw [List.mem_singleton.mp hd] at hcode
    rcases hcode with hcode | hcode
    · exact hbody hcode
    · exact hmessage hcode

theorem play_chunked (hA : A.Lawful V P Legal) (hq : A.Quiet V Legal) (ht : Tracks V Legal S s₀)
    (hphase : V.phase s₀.reader.state = .chunkSize)
    (h : (system A mem S guard).conforming s₀ ops = true) :
    ∃ s log, (system A mem S guard).play s₀ ops = .ok s ∧ s.emitted = s₀.emitted ++ log ∧
      (Finished log → HasLastChunk (S.drop s₀.pass.consumed)) := by
  -- nothing is finished before the last chunk has been seen in the stream
  have hrun := play_follows hA
    (J := fun log p s => ¬ Finished log ∧ Unfinished S s₀.pass.consumed p s ∨
      HasLastChunk (S.drop s₀.pass.consumed))
    (F := fun log => ¬ Finished log ∨ HasLastChunk (S.drop s₀.pass.consumed))
    ?_ ?_ ?_ ?_ ht (by rw [hphase]; nofun) ?_ h
  · obtain ⟨s, log, hplay, -, hlog, hfailed, hrunning⟩ := hrun
    refine ⟨s, log, hplay, hlog, fun hfin => ?_⟩
    by_cases he : V.phase s.reader.state = .errored
    · exact (hfailed he).resolve_left (not_not.mpr hfin)
    · exact (hrunning he).resolve_left fun hopen => hopen.1 hfin
  · intro log p x c w c' n code hJ _ hw hlex
    rcases hJ with ⟨hopen, hunf⟩ | hlast
    · rcases hunf.step hw hlex with ⟨hcode, hunf'⟩ | ⟨-, hlast⟩
      · -- the tokens inside a chunked body finish nothing
        refine .inl ⟨not_finished_concat hopen ?_ ?_, hunf'⟩
        · rintro rfl
          simp at hcode
        · rintro rfl
          simp at hcode
      · exact .inr hlast
    · exact .inr hlast
  · intro log p x c w c' t hJ hlex hcode
    refine hJ.imp_left fun ⟨hopen, hunf⟩ => ⟨not_finished_concat hopen ?_ ?_, hunf.need hlex⟩
    · rw [hcode]
      nofun
    · rw [hcode]
      nofun
  · intro log p x c w t hJ hlegal hlex
    have hfatal := hA.implements.keeps.fail hlegal hlex
    refine hJ.imp_left fun ⟨hopen, _⟩ => not_finished_concat hopen ?_ ?_
    · intro hend
      rw [show t.code = _ from hend] at hfatal
      cases hfatal
    · intro hend
      rw [show t.code = _ from hend] at hfatal
      cases hfatal
  · intro log p c s r' hJ hr hc _ hcall
    refine hJ.imp_left fun ⟨hopen, hunf⟩ => ⟨hopen, ?_⟩
    -- `set_method()` needs a status code, and there is none inside of a body
    have hne : V.phase s.reader.state ≠ .spAfterStatusCode := by
      obtain ⟨ks, y, -, hy⟩ := hunf
      intro hp
      rw [Piece, show (V.core s.reader).phase = _ from hp] at hy
      exact hy
    rw [core_of_call hq hr hc hcall hne]
    exact hunf
  · have hnone : ¬ Finished [] := by
      rintro ⟨e, he, -⟩
      cases he
    refine .inl ⟨hnone, [], [], rfl, ?_⟩
    rw [Piece, show (V.core s₀.reader).phase = _ from hphase]

/-! ## The moments after a head, and within a body -/

theorem headers_of_lex {b : Bool} {c c' : Core φ} {w : Bytes} {n : Nat} (hP : P.Orderly)
    (h : P.lex b c w = .emit c' n .endOfHeaders) :
    c'.phase = .endOfBody ∨ c'.phase = .body ∨ c'.phase = .unsafeBody ∨ c'.phase = .chunkSize := by
  obtain ⟨q, -, he⟩ := emits_of_lex h
  exact hP.headers (headers_of_emits he).2.2

/-- Once a head has ended, a body or its end is expected. -/
theorem play_headersEnd (hA : A.Lawful V P Legal) (hP : P.Orderly) (ht : Tracks V Legal S s₀)
    (hcode : s₀.reader.code ≠ .endOfHeaders)
    (h : (system A mem S guard).conforming s₀ ops = true) :
    ∃ s, (system A mem S guard).play s₀ ops = .ok s ∧ (s.reader.code = .endOfHeaders →
      V.phase s.reader.state = .endOfBody ∨ V.phase s.reader.state = .body ∨
        V.phase s.reader.state = .unsafeBody ∨ V.phase s.reader.state = .chunkSize) := by
  have hrun := play_induction hA (I := fun s => s.reader.code = .endOfHeaders →
      V.phase s.reader.state = .endOfBody ∨ V.phase s.reader.state = .body ∨
        V.phase s.reader.state = .unsafeBody ∨ V.phase s.reader.state = .chunkSize)
    ?_ (fun _ hI _ _ => hI) ?_ ht (fun hc => absurd hc hcode) h
  · obtain ⟨s, hplay, -, hI⟩ := hrun
    exact ⟨s, hplay, hI⟩
  · intro s r' ht _ he _ _ hout _ hc
    change r'.code = .endOfHeaders at hc
    -- the code is reported by the step that leaves the head, or kept by a call
    have hlex := hout.emit_of_code hA.implements.keeps (ht.sound.legal he) (by rw [hc]; rfl)
    rw [hc] at hlex
    exact headers_of_lex hP hlex
  · intro s c r' ht hI hp _ hcall hc
    obtain ⟨-, hstate, hcode, -⟩ := hA.of_call ht.sound hp hcall
    change r'.code = .endOfHeaders at hc
    change V.phase r'.state = _ ∨ V.phase r'.state = _ ∨ V.phase r'.state = _ ∨ V.phase r'.state = _
    rw [hstate]
    exact hI (hcode ▸ hc)

/-- A reader that sees unread bytes of a body delivers some of them. -/
theorem Tracks.yields (hA : A.Lawful V P Legal) (ht : Tracks V Legal S s)
    (hp : V.phase s.reader.state = .body ∨ V.phase s.reader.state = .chunkData ∨
      V.phase s.reader.state = .unsafeBody)
    (hne : s.reader.consume.restView ≠ []) :
    ∃ r', A.next s.reader = .ok r' ∧ r'.code = .bodyChunk ∧ r'.tokenSize ≠ 0 := by
  have he : V.phase s.reader.state ≠ .errored := by
    rcases hp with hp | hp | hp <;> rw [hp] <;> nofun
  have hlex : ∃ c' n, P.lex (V.eof s.reader.connection) (V.core s.reader) s.reader.consume.restView
      = .emit c' n .bodyChunk := by
    rcases hp with hp | hp | hp
    · exact ⟨_, _, lex_body (.inl ⟨rfl, rfl⟩) hp hne⟩
    · exact ⟨_, _, lex_body (.inr ⟨rfl, rfl⟩) hp hne⟩
    · exact ⟨_, _, lex_unsafeBody hp hne⟩
  obtain ⟨c', n, hlex⟩ := hlex
  have hn := hA.implements.keeps.chunk (ht.sound.legal he) hlex
  obtain ⟨r', hr', hout⟩ := hA.implements.settles ht.sound he
  rw [hlex] at hout
  obtain ⟨-, hcode, hsize⟩ := hout.outcome
  exact ⟨r', hr', hcode, by rwa [hsize]⟩

/-- How the bodies of a stream are delivered: `s` is the session, and `log` what it has reported since
the moment `s₀`, which may be the end of a head. -/
structure Delivery (S : Bytes) (next : Reader σ β ν → Except Fault (Reader σ β ν)) (V : View σ β ν φ)
    (counted chunked : β) (s₀ s : Session σ β ν κ) (log : List (Nat × Token)) : Prop where
  chunks : ∀ e ∈ s.emitted, e.2.code = .bodyChunk →
    ∃ b bs, e.2 = ⟨.bodyChunk, (b :: bs).length, .buffer (b :: bs)⟩
  yields : V.phase s.reader.state = .body ∨ V.phase s.reader.state = .chunkData ∨
      V.phase s.reader.state = .unsafeBody → s.reader.consume.restView ≠ [] →
    ∃ r', next s.reader = .ok r' ∧ r'.code = .bodyChunk ∧ r'.tokenSize ≠ 0
  counted : s₀.reader.code = .endOfHeaders → s₀.reader.bodyType = counted →
    DeliversCounted S s₀.pass.consumed s₀.reader.bodySize next s log
  chunked : s₀.reader.code = .endOfHeaders → s₀.reader.bodyType = chunked → Finished log →
    HasLastChunk (S.drop s₀.pass.consumed)
  headed : Headed s.emitted

/-- A reader delivers bodies when its `body_type` tells the framings apart. -/
theorem play_delivery {s₁ : Session σ β ν κ} {ops₀ : List (Op κ)} {counted chunked : β}
    (hA : A.Lawful V P Legal) (hq : A.Quiet V Legal) (hP : P.Orderly)
    (hcounted : ∀ {r : Reader σ β ν}, Legal (V.core r) → r.bodyType = counted →
      V.phase r.state = .endOfBody ∨ V.phase r.state = .body ∨ V.phase r.state = .unsafeBody ∨
        V.phase r.state = .chunkSize →
      V.phase r.state = (if r.bodySize = 0 then .endOfBody else .body) ∧
        ∀ x, V.eof x = true → ∀ k, k ≠ 0 → P.waits (V.core r).framing k = true)
    (hchunked : ∀ {r : Reader σ β ν}, Legal (V.core r) → r.bodyType = chunked →
      V.phase r.state = .endOfBody ∨ V.phase r.state = .body ∨ V.phase r.state = .unsafeBody ∨
        V.phase r.state = .chunkSize → V.phase r.state = .chunkSize)
    (ht : Tracks V Legal S s₁) (hr : Recorded s₁) (hnew : s₁.emitted = [])
    (hcode : s₁.reader.code = .errorInsufficientData) (hrest : s₁.reader.restView = [])
    (hhead : (V.phase s₁.reader.state).inBody = false)
    (hzero : (V.phase s₁.reader.state).isZeroSized = false)
    (h₀ : (system A mem S guard).play s₁ ops₀ = .ok s₀)
    (h : (system A mem S guard).conforming s₁ (ops₀ ++ ops) = true) :
    ∃ s log, (system A mem S guard).play s₁ (ops₀ ++ ops) = .ok s ∧
      s.emitted = s₀.emitted ++ log ∧ Delivery S A.next V counted chunked s₀ s log := by
  have he₁ := ht.sound.ne_errored (by rw [hcode]; rfl)
  obtain ⟨s, log, hplay, ht₀, hrec, hlog, hplaced⟩ := play_log hA ht hr h₀ h
  obtain ⟨s', hplay', ht', -⟩ := play_recorded hA ht hr h
  have hs' : s = s' := Except.ok.inj (hplay.symm.trans hplay')
  subst hs'
  have hidle : Idle V P s := by
    obtain ⟨s', hplay', hidle⟩ := play_idle hA hq ht
      (fun _ => ⟨false, by rw [hrest, lex_nil hzero]; rfl⟩) h
    rwa [Except.ok.inj (hplay.symm.trans hplay')]
  have hheaded : Headed s.emitted := by
    obtain ⟨s', hplay', hheaded⟩ := play_headed hA hP ht hhead he₁ hnew h
    rwa [Except.ok.inj (hplay.symm.trans hplay')]
  have hstart : s₀.reader.code = .endOfHeaders →
      V.phase s₀.reader.state = .endOfBody ∨ V.phase s₀.reader.state = .body ∨
        V.phase s₀.reader.state = .unsafeBody ∨ V.phase s₀.reader.state = .chunkSize := by
    obtain ⟨s', hplay', hstart⟩ := play_headersEnd hA hP ht (by rw [hcode]; nofun)
      (Guarded.conforming_append h)
    rwa [Except.ok.inj (h₀.symm.trans hplay')]
  have hlegal : s₀.reader.code = .endOfHeaders → Legal (V.core s₀.reader) := by
    intro hc
    exact ht₀.sound.legal (ht₀.sound.ne_errored (by rw [hc]; rfl))
  -- the run goes on from `s₀`; what is known of it is known of the same session and record
  have hrest := Guarded.conforming_of_play h h₀
  have hgoes : (system A mem S guard).play s₀ ops = .ok s := by
    rw [Guarded.play_append, h₀] at hplay
    exact hplay
  have hsame : ∀ {s' log'}, (system A mem S guard).play s₀ ops = .ok s' →
      s'.emitted = s₀.emitted ++ log' → s' = s ∧ log' = log := by
    intro s' log' hplay' hlog'
    have hs' : s' = s := Except.ok.inj (hplay'.symm.trans hgoes)
    subst hs'
    exact ⟨rfl, List.append_cancel_left (hlog'.symm.trans hlog)⟩
  -- a counted body, a chunked body, and the order of the tokens
  refine ⟨s, log, hplay, hlog, hrec.wellFormed, ht'.yields hA, fun hc hb => ?_, fun hc hb hfin => ?_,
    hheaded⟩
  · obtain ⟨hphase, hwaits⟩ := hcounted (hlegal hc) hb (hstart hc)
    obtain ⟨s', log', hplay', -, hlog', hcases⟩ := play_counted hA hq ht₀ hphase hwaits hrest
    obtain ⟨rfl, rfl⟩ := hsame hplay' hlog'
    rcases hcases with hfill | ⟨p, ph, hend⟩
    · exact Filling.delivers hA ht' hidle hfill
    · exact Ending.delivers hend hplaced
  · obtain ⟨s', log', hplay', hlog', hlast⟩ :=
      play_chunked hA hq ht₀ (hchunked (hlegal hc) hb (hstart hc)) hrest
    obtain ⟨rfl, rfl⟩ := hsame hplay' hlog'
    exact hlast hfin

end Session

/-! ## The two readers -/

namespace Request

theorem quiet (mem : Nat → UInt8) : (api mem).Quiet view Legal := by
  intro c
  exact c.elim

theorem counted_starts {r : Request} (hl : Legal (view.core r)) (hb : r.bodyType = .contentLengthRead)
    (hp : view.phase r.state = .endOfBody ∨ view.phase r.state = .body ∨
      view.phase r.state = .unsafeBody ∨ view.phase r.state = .chunkSize) :
    view.phase r.state = if r.bodySize = 0 then .endOfBody else .body := by
  have hmem : (view.core r).framing.2 = .contentLengthRead := hb
  rcases hp with hp | hp | hp | hp <;> unfold Legal at hl <;>
    rw [show (view.core r).phase = _ from hp] at hl <;> rw [hp]
  · rcases hl with hl | hl
    · rw [hmem] at hl
      cases hl
    · exact (if_pos hl.2).symm
  · exact (if_neg hl.2).symm
  · exact hl.elim
  · change (view.core r).framing.2 = _ at hl
    rw [hmem] at hl
    cases hl

theorem chunked_starts {r : Request} (hl : Legal (view.core r))
    (hb : r.bodyType = .chunkedEncodingRead)
    (hp : view.phase r.state = .endOfBody ∨ view.phase r.state = .body ∨
      view.phase r.state = .unsafeBody ∨ view.phase r.state = .chunkSize) :
    view.phase r.state = .chunkSize := by
  have hmem : (view.core r).framing.2 = .chunkedEncodingRead := hb
  rcases hp with hp | hp | hp | hp <;> unfold Legal at hl <;>
    rw [show (view.core r).phase = _ from hp] at hl
  · simp only [hmem] at hl
    rcases hl with hl | hl <;> cases hl
    contradiction
  · simp only [hmem] at hl
    cases hl.1
  · exact hl.elim
  · exact hp

end Request

namespace Response

theorem quiet (mem : Nat → UInt8) : (api mem).Quiet view Legal := by
  intro c r r' _ hc hcall
  cases c with
  | puteof =>
    cases hcall
    exact .inl rfl
  | setMethod method => exact .inr (by simpa [api] using hc)

theorem counted_starts {r : Response} (hl : Legal (view.core r)) (hb : r.bodyType = .contentLengthRead)
    (hp : view.phase r.state = .endOfBody ∨ view.phase r.state = .body ∨
      view.phase r.state = .unsafeBody ∨ view.phase r.state = .chunkSize) :
    view.phase r.state = (if r.bodySize = 0 then .endOfBody else .body) ∧
      ∀ x, view.eof x = true → ∀ k, k ≠ 0 → policy.waits (view.core r).framing k = true := by
  have hmem : (view.core r).framing.2 = .contentLengthRead := hb
  refine ⟨?_, fun _ _ k hk => ?_⟩
  · have hl := hl.2
    -- of the four phases behind a head, a counted framing leaves two
    rcases hp with hp | hp | hp | hp <;>
      rw [show (view.core r).phase = _ from hp] at hl <;> rw [hp]
    · rcases hl with hl | hl
      · rw [hmem] at hl
        cases hl
      · exact (if_pos hl.2).symm
    · exact (if_neg hl.2).symm
    · change (view.core r).framing.2 = _ at hl
      rw [hmem] at hl
      cases hl
    · change (view.core r).framing.2 = _ at hl
      rw [hmem] at hl
      cases hl
  · simp [policy, hmem, hk]

theorem chunked_starts {r : Response} (hl : Legal (view.core r))
    (hb : r.bodyType = .chunkedEncodingRead)
    (hp : view.phase r.state = .endOfBody ∨ view.phase r.state = .body ∨
      view.phase r.state = .unsafeBody ∨ view.phase r.state = .chunkSize) :
    view.phase r.state = .chunkSize := by
  have hmem : (view.core r).framing.2 = .chunkedEncodingRead := hb
  have hl := hl.2
  rcases hp with hp | hp | hp | hp <;> rw [show (view.core r).phase = _ from hp] at hl
  · simp only [hmem] at hl
    rcases hl with hl | hl
    · cases hl
    · cases hl.1
  · simp only [hmem] at hl
    cases hl.1
  · change (view.core r).framing.2 = _ at hl
    rw [hmem] at hl
    cases hl
  · exact hp

def withoutEof (r : Response) : Response :=
  { r with connection := { r.connection with eofReceived := false } }

theorem withoutEof_sound {r : Response} (hr : Sound view Legal r) : Sound view Legal (withoutEof r) :=
  ⟨hr.fatal, hr.bound, hr.held, hr.zeroSized, hr.last, hr.status, hr.legal⟩

/-- What the end of the input does to bodies: it ends one that has no other end, and only when all of
the bytes that can be seen have been delivered. -/
structure EndsOnlyRest (mem : Nat → UInt8) (S : Bytes) (s₀ s : Run) (log : List (Nat × Token)) :
    Prop where
  /-- The end of a body that would not be reported without the end of the input. -/
  caused : ∀ r', next mem s.reader = .ok r' → r'.code = .endOfBody →
    (∀ r'', next mem (withoutEof s.reader) = .ok r'' → r''.code ≠ .endOfBody) →
    s.reader.state = .expectUnsafeBody ∧ s.reader.consume.restView = []
  untilClose : s₀.reader.state = .expectUnsafeBody → Session.DeliversRest S s₀.pass.consumed log

theorem eof_caused {mem : Nat → UInt8} {r r' : Response} (hr : Sound view Legal r)
    (h : next mem r = .ok r') (hc : r'.code = .endOfBody)
    (hwithout : ∀ r'', next mem (withoutEof r) = .ok r'' → r''.code ≠ .endOfBody) :
    r.state = .expectUnsafeBody ∧ r.consume.restView = [] := by
  have he : view.phase r.state ≠ .errored := by
    intro he
    have hfix : next mem r = .ok r := (implements mem).errored he
    rw [hfix] at h
    cases h
    exact absurd he (hr.ne_errored (by rw [hc]; rfl))
  obtain ⟨r₁, h₁, hout⟩ := (implements mem).settles hr he
  have hr₁ : r' = r₁ := Except.ok.inj (h.symm.trans h₁)
  subst hr₁
  obtain ⟨r₂, h₂, hout₂⟩ := (implements mem).settles (withoutEof_sound hr) he
  -- the flag is no part of what `consume` looks at
  have hsame : (withoutEof r).consume.restView = r.consume.restView := by
    unfold withoutEof Reader.consume
    by_cases hi : r.code = .errorInsufficientData
    · rw [if_neg (not_not.mpr hi), if_neg (not_not.mpr hi)]
      rfl
    · rw [if_pos hi, if_pos hi]
      rfl
  rw [hsame] at hout₂
  have hlex := hout.emit_of_code keeps_policy (hr.legal he) (by rw [hc]; rfl)
  refine (Session.lex_ends_rest (fun hblind => ?_) hlex).imp_left fun hp => State.phase_injective hp
  -- a lexer that does not look at the flag reports the end of the body without it as well
  apply hwithout r₂ h₂
  have hlex₂ : policy.lex (view.eof (withoutEof r).connection) (view.core (withoutEof r))
      r.consume.restView = _ := hblind.trans hlex
  rw [hlex₂] at hout₂
  rw [hout₂.outcome.2.1, hc]

end Response

end BoostHttp
