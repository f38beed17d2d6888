import BoostHttp.Closing
import BoostHttp.Lifetime

/-!
# Progress — calling `next()` again and again comes to an end

A token may have no bytes, so the number of unread bytes is no measure of what is left to do.  Such
tokens come from few phases, and `Phase.rank` counts how many of them can follow each other; three
times the unread bytes and the rank together go down with every token.
-/

open Incremental

namespace BoostHttp

def Phase.slack : Phase → Nat
  | .body | .chunkData => 0
  | .unsafeBody => 2
  | p => p.rank

theorem Phase.slack_le (p : Phase) : p.slack ≤ 2 := by
  cases p <;> decide

theorem Phase.slack_le_rank (p : Phase) : p.slack ≤ p.rank := by
  cases p <;> decide

theorem Phase.slack_resolves {p q : Phase} (h : p.Resolves q) : q.slack ≤ p.slack := by
  cases h with
  | refl => exact Nat.le_refl _
  | _ => decide

def Phase.work (p : Phase) (unread : Nat) : Nat := 3 * unread + p.slack

section Work

variable {φ : Type} {P : Policy φ} {Legal : Core φ → Prop} {s s' : Core φ} {b : Bool} {w : Bytes}
  {n : Nat} {code : Code}

/-- After the end of a body that the end of the input cuts off, only the message can end. -/
theorem closed_of_emits (hs : s.phase = .unsafeBody) (h : P.Emits s [] code s') :
    s'.phase = .endOfMessage := by
  generalize hraw : ([] : Bytes) = raw at h
  cases h with
  | lexeme he =>
    rw [hs] at he
    cases he
  | unsafeBody _ hne => exact absurd hraw.symm hne
  | closed => rfl
  | colon hv hp =>
    rcases hv with ⟨rfl, -⟩ | ⟨rfl, -⟩ <;> rw [hs] at hp <;> cases hp
  | ows hv hp =>
    rcases hv with ⟨-, rfl, -⟩ | ⟨-, rfl, -⟩ <;> rw [hs] at hp <;> cases hp
  | body hb hp =>
    rcases hb with ⟨rfl, -⟩ | ⟨rfl, -⟩ <;> rw [hs] at hp <;> cases hp
  | endOfBody hp | endOfMessage hp =>
    rw [hs] at hp
    cases hp

/-- A counted body gives chunks only. -/
theorem chunk_of_lex {data done : Phase} (hb : BodyPhases data done) (hs : s.phase = data)
    (h : P.lex b s w = .emit s' n code) : code = .bodyChunk := by
  cases w with
  | nil =>
    have hz : s.phase.isZeroSized = false := by
      rcases hb with ⟨rfl, -⟩ | ⟨rfl, -⟩ <;> rw [hs] <;> rfl
    have hne : s.phase ≠ .unsafeBody := by
      rcases hb with ⟨rfl, -⟩ | ⟨rfl, -⟩ <;> rw [hs] <;> nofun
    exact absurd (of_lex_nil_emit hz h).1 hne
  | cons c w =>
    rw [lex_body hb hs (List.cons_ne_nil c w)] at h
    cases h
    rfl

/-- A token without bytes leads to a phase with less slack. -/
theorem slack_of_lex (hP : P.Keeps Legal) (hend : ∀ f, (P.onMessageEnd f).2.rank = 0) (hs : Legal s)
    (h : P.lex b s w = .emit s' 0 code) : s'.phase.slack < s.phase.slack := by
  obtain ⟨q, hq, he⟩ := emits_of_lex h
  rw [List.take_zero] at he
  have hrank := Nat.lt_of_le_of_lt s'.phase.slack_le_rank (rank_lt_of_emits hq hend he)
  -- a token without bytes lowers the rank; only the phases of a body need a closer look
  cases hp : s.phase <;> rw [hp] at hq hrank
  case unsafeBody =>
    cases hq
    rw [closed_of_emits rfl he]
    exact Nat.one_lt_two
  case body =>
    -- the token is a chunk, and these are not empty
    obtain rfl := chunk_of_lex (.inl ⟨rfl, rfl⟩) hp h
    exact absurd rfl (hP.chunk hs h)
  case chunkData =>
    obtain rfl := chunk_of_lex (.inr ⟨rfl, rfl⟩) hp h
    exact absurd rfl (hP.chunk hs h)
  all_goals exact hrank

/-- Every token reduces the work. -/
theorem work_of_lex (hP : P.Keeps Legal) (hend : ∀ f, (P.onMessageEnd f).2.rank = 0) (hs : Legal s)
    (h : P.lex b s w = .emit s' n code) :
    s'.phase.work (w.length - n) < s.phase.work w.length := by
  have hle := lex_le h
  have hslack := s'.phase.slack_le
  unfold Phase.work
  cases n with
  | zero =>
    have hlt := slack_of_lex hP hend hs h
    omega
  | succ n => omega

end Work

/-! ## Tokens without bytes -/

def tokens (log : List (Nat × Token)) : List Token :=
  (log.map Prod.snd).filter fun t => !t.code.isError

theorem tokens_concat_token {log : List (Nat × Token)} {p : Nat} {t : Token}
    (h : t.code.isError = false) : tokens (log ++ [(p, t)]) = tokens log ++ [t] := by
  simp [tokens, h]

theorem tokens_concat_error {log : List (Nat × Token)} {p : Nat} {t : Token}
    (h : t.code.isError = true) : tokens (log ++ [(p, t)]) = tokens log := by
  simp [tokens, h]

/-- At most two tokens in a row have no bytes. -/
def Dense (ts : List Token) : Prop :=
  ∀ run, run <:+: ts → (∀ t ∈ run, t.size = 0) → run.length ≤ 2

/-- The tokens without bytes that were reported last leave enough for those that can follow. -/
structure Advances (ts : List Token) (p : Phase) : Prop where
  dense : Dense ts
  last : ∀ run, run <:+ ts → (∀ t ∈ run, t.size = 0) → run.length + p.slack ≤ 2

theorem Advances.mono {ts : List Token} {p q : Phase} (h : Advances ts p) (hq : q.slack ≤ p.slack) :
    Advances ts q :=
  ⟨h.dense, fun run hrun hz => Nat.le_trans (Nat.add_le_add_left hq _) (h.last run hrun hz)⟩

/-- A token is added that has bytes or leads to a phase with less slack. -/
theorem Advances.concat {ts : List Token} {p q : Phase} (h : Advances ts p) (t : Token)
    (hq : t.size = 0 → q.slack < p.slack) : Advances (ts ++ [t]) q := by
  have hlast : ∀ run, run <:+ ts ++ [t] → (∀ t ∈ run, t.size = 0) → run.length + q.slack ≤ 2 := by
    intro run hrun hz
    rcases List.suffix_concat_iff.mp hrun with rfl | ⟨run', rfl, hrun'⟩
    · rw [List.length_nil, Nat.zero_add]
      exact q.slack_le
    · have hlt := hq (hz t (List.mem_append_right _ (List.mem_singleton.mpr rfl)))
      have hle := h.last run' hrun' fun t ht => hz t (List.mem_append_left _ ht)
      rw [List.length_append, List.length_singleton]
      omega
  refine ⟨fun run hrun hz => ?_, hlast⟩
  rcases List.infix_concat_iff.mp hrun with hrun | hrun
  · exact Nat.le_trans (Nat.le_add_right _ _) (hlast run hrun hz)
  · exact h.dense run hrun hz

namespace Session

variable {σ β ν κ φ : Type} {A : Api σ β ν κ} {mem : Nat → UInt8} {S : Bytes} {V : View σ β ν φ}
  {P : Policy φ} {Legal : Core φ → Prop} {s s₀ : Session σ β ν κ}
  {guard : Session σ β ν κ → Op κ → Bool} {ops : List (Op κ)}

/-- However a session goes on, at most two of its tokens in a row have no bytes. -/
theorem play_dense (hA : A.Lawful V P Legal) (hend : ∀ f, (P.onMessageEnd f).2.rank = 0)
    (ht : Tracks V Legal S s₀) (he : V.phase s₀.reader.state ≠ .errored) (hs : s₀.emitted = [])
    (h : (system A mem S guard).conforming s₀ ops = true) :
    ∃ s, (system A mem S guard).play s₀ ops = .ok s ∧ Tracks V Legal S s ∧ Dense (tokens s.emitted) := by
  have hkeeps := hA.implements.keeps
  -- the run of empty tokens at the end of the record is bounded by what slack is left
  have hrun := play_follows hA (J := fun log _ c => Advances (tokens log) c.phase)
    (F := fun log => Dense (tokens log)) ?_ ?_ ?_ ?_ ht he ?_ h
  · obtain ⟨s, log, hplay, ht', hlog, hF, hJ⟩ := hrun
    rw [hs, List.nil_append] at hlog
    refine ⟨s, hplay, ht', ?_⟩
    rw [hlog]
    by_cases hp : V.phase s.reader.state = .errored
    · exact hF hp
    · exact (hJ hp).dense
  · intro log p x c w c' n code hJ hc _ hlex
    obtain ⟨-, -, hcode, -⟩ := hkeeps.emit hc hlex
    rw [tokens_concat_token hcode]
    refine hJ.concat _ fun hn => ?_
    change n = 0 at hn
    subst hn
    exact slack_of_lex hkeeps hend hc hlex
  · intro log p x c w c' t hJ hlex hcode
    rw [tokens_concat_error (by rw [hcode]; rfl)]
    refine hJ.mono ?_
    obtain ⟨-, ⟨-, rfl⟩ | ⟨d, _, -, rfl⟩⟩ := of_lex_need hlex
    · exact Nat.le_refl _
    · exact Phase.slack_resolves (Phase.resolves_resolve _ d)
  · intro log p x c w t hJ hc hlex
    rw [tokens_concat_error (Code.isError_of_isFatal (hkeeps.fail hc hlex))]
    exact hJ.dense
  · intro log p c s r' hJ hr hc _ hcall
    have hphase : (V.core r').phase = (V.core s.reader).phase := phase_of_call hA hr hc hcall
    rw [hphase]
    exact hJ
  · refine ⟨fun run hrun _ => ?_, fun run hrun _ => ?_⟩
    · rw [List.infix_nil.mp hrun]
      exact Nat.zero_le _
    · rw [List.suffix_nil.mp hrun, List.length_nil, Nat.zero_add]
      exact Phase.slack_le _

/-! ## Calling `next()` again and again -/

theorem lex_congr_eof {b b' : Bool} {c : Core φ} {w : Bytes} (hz : c.phase.isZeroSized = false)
    (hw : w ≠ []) : P.lex b c w = P.lex b' c w := by
  cases w with
  | nil => exact absurd rfl hw
  | cons a w => rw [lex_cons hz, lex_cons hz]

/-- A reader that waits for the rest of a token finds no token in the same buffer. -/
theorem tokenSize_of_idle (ht : Tracks V Legal S s) (hs : Idle V P s)
    (he : V.phase s.reader.state ≠ .errored) {b : Bool} {c' : Core φ} {n : Nat} {code : Code}
    (hlex : P.lex b (V.core s.reader) s.reader.consume.restView = .emit c' n code)
    (hcode : s.reader.code = .errorInsufficientData) : s.reader.tokenSize = 0 := by
  by_contra hsize
  rw [consume_of_insufficient hcode] at hlex
  have hrest : s.reader.restView ≠ [] := by
    intro hnil
    have hle := ht.tokenSize_le he
    rw [hnil, List.length_nil] at hle
    omega
  have hz : (V.core s.reader).phase.isZeroSized = false := by
    rw [Bool.eq_false_iff]
    exact fun hz => ht.sound.zeroSized hz hcode
  obtain ⟨b', hneed⟩ := hs hcode
  rw [lex_congr_eof hz hrest, hneed] at hlex
  cases hlex

end Session

def Reader.unread {σ β ν : Type} (r : Reader σ β ν) : Nat := r.ibuffer.length - (r.idx + r.tokenSize)

def Op.isNext {κ : Type} : Op κ → Bool
  | .next => true
  | _ => false

namespace Session

variable {σ β ν κ φ : Type} {A : Api σ β ν κ} {mem : Nat → UInt8} {S : Bytes} {V : View σ β ν φ}
  {P : Policy φ} {Legal : Core φ → Prop} {s s₀ : Session σ β ν κ}
  {guard : Session σ β ν κ → Op κ → Bool} {ops : List (Op κ)}

def work (V : View σ β ν φ) (s : Session σ β ν κ) : Nat :=
  (V.phase s.reader.state).work s.reader.unread

/-- A token that `next()` reports has reduced the work. -/
theorem work_report (mem : Nat → UInt8) (hA : A.Lawful V P Legal) (hend : ∀ f, (P.onMessageEnd f).2.rank = 0)
    (ht : Tracks V Legal S s) (hs : Idle V P s) (he : V.phase s.reader.state ≠ .errored)
    {r' : Reader σ β ν} {c' : Core φ} {n : Nat} {code : Code}
    (hlex : P.lex (V.eof s.reader.connection) (V.core s.reader) s.reader.consume.restView
      = .emit c' n code)
    (hout : Settles V s.reader.consume (.emit c' n code) r') :
    work V (s.pass.report mem r') < work V s := by
  have hsize := tokenSize_of_idle ht hs he hlex
  have hb := ht.sound.bound he
  have hlt := work_of_lex hA.implements.keeps hend (ht.sound.legal he) hlex
  have hle := lex_le hlex
  obtain ⟨hcore, -, hn⟩ := hout.outcome
  have hphase : V.phase r'.state = c'.phase := congrArg Core.phase hcore
  -- `consume` passes the current token, if it is one
  have hunread : s.reader.consume.restView.length = s.reader.unread := by
    rw [Reader.length_restView, consume_ibuffer]
    by_cases hcode : s.reader.code = .errorInsufficientData
    · rw [consume_of_insufficient hcode, Reader.unread, hsize hcode]
      rfl
    · rw [consume_of_token hcode]
      rfl
  have hunread' : r'.unread = s.reader.consume.restView.length - n := by
    rw [Reader.length_restView, Reader.unread, hout.ibuffer, hout.idx, hn]
    omega
  change (V.phase r'.state).work r'.unread < (V.phase s.reader.state).work s.reader.unread
  rw [hphase, hunread', ← hunread]
  exact hlt

/-- Whatever calls a client makes without a new buffer, an error is reported by one of its first `n`
calls of `next()`: data is insufficient, or the error is fatal. -/
def Drains (G : Guarded (Session σ β ν κ) (Op κ) Fault) (s : Session σ β ν κ) (n : Nat) : Prop :=
  ∀ ops, (∀ size, .setBuffer size ∉ ops) → G.conforming s ops = true → n ≤ ops.countP Op.isNext →
    ∃ pre post s', ops = pre ++ post ∧ G.play s pre = .ok s' ∧ s'.reader.code.isError = true ∧
      0 < pre.countP Op.isNext ∧ pre.countP Op.isNext ≤ n

/-- The induction is on the calls; those of `next()` reduce the work, and the others leave it. -/
theorem drains (hA : A.Lawful V P Legal) (hq : A.Quiet V Legal)
    (hend : ∀ f, (P.onMessageEnd f).2.rank = 0) (ht : Tracks V Legal S s) (hs : Idle V P s) :
    Drains (system A mem S guard) s (work V s + 1) := by
  intro ops hops h hcount
  induction ops generalizing s with
  | nil => exact absurd hcount (by simp)
  | cons o ops ih =>
    have hops' : ∀ size, .setBuffer size ∉ ops := fun size hmem =>
      hops size (List.mem_cons_of_mem _ hmem)
    obtain ⟨hp, hrest⟩ := Guarded.conforming_cons h
    cases o with
    | setBuffer size => exact absurd List.mem_cons_self (hops size)
    | call c =>
      have hp' : A.callable c s.reader = true := by
        simp only [system, Bool.and_eq_true] at hp
        exact hp.1
      obtain ⟨r', hcall, hinv, ht'⟩ := ht.invoke hA hp'
      have hs' := hs.note hA hq ht hp' hcall
      -- a call of the client does not move the reader
      have hwork : work V (s.note c r') = work V s := by
        obtain ⟨-, hstate, -, hidx, hsize, hbuf⟩ := hA.of_call ht.sound hp' hcall
        change (V.phase r'.state).work r'.unread = _
        rw [hstate, Reader.unread, hidx, hsize, hbuf]
        rfl
      obtain ⟨pre, post, s', rfl, hplay, herr, hpos, hle⟩ :=
        ih ht' hs' hops' (hrest hinv) (by rw [hwork]; exact hcount)
      refine ⟨.call c :: pre, post, s', rfl, ?_, herr, hpos, by rw [← hwork]; exact hle⟩
      rw [Guarded.play, show (system A mem S guard).perform s (.call c) = .ok (s.note c r')
        from hinv]
      exact hplay
    -- a call of `next()` reports an error, or does a piece of the work that is left
    | next =>
      have hstop : ∀ s', s.pull A mem = .ok s' → s'.reader.code.isError = true →
          ∃ pre post s', .next :: ops = pre ++ post ∧ (system A mem S guard).play s pre = .ok s' ∧
            s'.reader.code.isError = true ∧ 0 < pre.countP Op.isNext ∧
            pre.countP Op.isNext ≤ work V s + 1 := by
        intro s' hpull herr
        refine ⟨[.next], ops, s', rfl, ?_, herr, Nat.one_pos, Nat.le_add_left _ _⟩
        rw [Guarded.play, show (system A mem S guard).perform s .next = .ok s' from hpull]
        rfl
      by_cases he : V.phase s.reader.state = .errored
      · exact hstop s (pull_fatal hA he ht.sound)
          (Code.isError_of_isFatal (ht.sound.fatal.mpr he))
      obtain ⟨r', -, hpull, hout, ht'⟩ := pull_ok mem hA ht he
      cases hlex : P.lex (V.eof s.reader.connection) (V.core s.reader)
          s.reader.consume.restView with
      | need c' =>
        rw [hlex] at hout
        exact hstop _ hpull (show r'.code.isError = true by rw [hout.outcome.2.1]; rfl)
      | fail code =>
        rw [hlex] at hout
        have hf := hA.implements.keeps.fail (ht.sound.legal he) hlex
        rw [← hout.outcome.2] at hf
        exact hstop _ hpull (Code.isError_of_isFatal hf)
      | emit c' n code =>
        rw [hlex] at hout
        obtain ⟨-, -, hcode, -⟩ := hA.implements.keeps.emit (ht.sound.legal he) hlex
        have hs' : Idle V P (s.pass.report mem r') := by
          intro hc
          rw [← hout.outcome.2.1, show r'.code = _ from hc] at hcode
          cases hcode
        have hlt := work_report mem hA hend ht hs he hlex hout
        have hcount' : work V (s.pass.report mem r') + 1 ≤ ops.countP Op.isNext := by
          rw [List.countP_cons_of_pos rfl] at hcount
          omega
        obtain ⟨pre, post, s', rfl, hplay, herr, hpos, hle⟩ :=
          ih ht' hs' hops' (hrest hpull) hcount'
        refine ⟨.next :: pre, post, s', rfl, ?_, herr, ?_, ?_⟩
        · rw [Guarded.play, show (system A mem S guard).perform s .next = .ok _ from hpull]
          exact hplay
        · rw [List.countP_cons_of_pos rfl]
          omega
        · rw [List.countP_cons_of_pos rfl]
          omega

theorem Drains.mono {G : Guarded (Session σ β ν κ) (Op κ) Fault} {m n : Nat} (h : Drains G s m)
    (hle : m ≤ n) : Drains G s n := by
  intro ops hops hc hcount
  obtain ⟨pre, post, s', heq, hplay, herr, hpos, hm⟩ := h ops hops hc (Nat.le_trans hle hcount)
  exact ⟨pre, post, s', heq, hplay, herr, hpos, Nat.le_trans hm hle⟩

/-- From every state that a session reaches, an error is not far. -/
theorem play_drains (hA : A.Lawful V P Legal) (hq : A.Quiet V Legal)
    (hend : ∀ f, (P.onMessageEnd f).2.rank = 0) (ht : Tracks V Legal S s₀) (hs : Idle V P s₀)
    (h : (system A mem S guard).conforming s₀ ops = true) :
    ∃ s, (system A mem S guard).play s₀ ops = .ok s ∧
      Drains (system A mem S guard) s (3 * s.reader.unread + 3) := by
  obtain ⟨s, hplay, ht', -⟩ := play_induction hA (I := fun _ => True) (fun _ _ _ _ _ _ _ => trivial)
    (fun _ _ _ _ => trivial) (fun _ _ _ _ _ => trivial) ht trivial h
  obtain ⟨s', hplay', hs'⟩ := play_idle hA hq ht hs h
  have heq : s' = s := Except.ok.inj (hplay'.symm.trans hplay)
  subst heq
  refine ⟨s', hplay', (drains hA hq hend ht' hs').mono ?_⟩
  have hslack := (V.phase s'.reader.state).slack_le
  change 3 * s'.reader.unread + (V.phase s'.reader.state).slack + 1 ≤ 3 * s'.reader.unread + 3
  omega

end Session

theorem Request.onMessageEnd_rank (f : Request.Memory) : (Request.policy.onMessageEnd f).2.rank = 0 :=
  rfl

/-- In every state that a client can bring a reader into, `next()` comes back and calls itself once at
most; of the tokens reported, at most two in a row have no bytes, and with `u` bytes behind the
current token an error is reported within `3 * u + 3` calls. -/
theorem pull_loop_terminates (mem : Nat → UInt8) (S : Bytes) :
    (∀ s₀, Request.Begins s₀ → ∀ ops, (Request.session mem S).conforming s₀ ops = true →
      ∃ s, (Request.session mem S).play s₀ ops = .ok s ∧
        (∃ r', Request.nextDepth mem 1 s.reader = .ok r') ∧ Dense (tokens s.emitted) ∧
        Session.Drains (Request.session mem S) s (3 * s.reader.unread + 3)) ∧
    (∀ s₀, Response.Begins s₀ → ∀ ops, (Response.session mem S).conforming s₀ ops = true →
      ∃ s, (Response.session mem S).play s₀ ops = .ok s ∧
        (∃ r', Response.nextDepth mem 1 s.reader = .ok r') ∧ Dense (tokens s.emitted) ∧
        Session.Drains (Response.session mem S) s (3 * s.reader.unread + 3)) := by
  constructor
  · intro s₀ hs₀ ops h
    obtain ⟨version, bodySize, rfl⟩ := hs₀.eq_fresh
    obtain ⟨s, hplay, ht, hdense⟩ := Session.play_dense (Request.lawful mem) Request.onMessageEnd_rank
      (Request.tracks_fresh version bodySize S) nofun rfl h
    obtain ⟨s', hplay', hdrains⟩ := Session.play_drains (Request.lawful mem) (Request.quiet mem)
      Request.onMessageEnd_rank (Request.tracks_fresh version bodySize S) (fun _ => ⟨false, rfl⟩) h
    have heq : s' = s := Except.ok.inj (hplay'.symm.trans hplay)
    subst heq
    exact ⟨s', hplay', (ht.inBounds (Request.lawful mem)).returns, hdense, hdrains⟩
  · intro s₀ hs₀ ops h
    obtain ⟨bodySize, rfl⟩ := hs₀.eq_fresh
    obtain ⟨s, hplay, ht, hdense⟩ := Session.play_dense (Response.lawful mem)
      Response.onMessageEnd_rank (Response.tracks_fresh bodySize S) nofun rfl h
    obtain ⟨s', hplay', hdrains⟩ := Session.play_drains (Response.lawful mem) (Response.quiet mem)
      Response.onMessageEnd_rank (Response.tracks_fresh bodySize S) (fun _ => ⟨false, rfl⟩) h
    have heq : s' = s := Except.ok.inj (hplay'.symm.trans hplay)
    subst heq
    exact ⟨s', hplay', (ht.inBounds (Response.lawful mem)).returns, hdense, hdrains⟩

/-- A request without a body and a response with an empty one, with all three ends behind the head. -/
theorem pull_loop_terminates_empty :
    (∃ s, (Request.session (fun _ => 0) (ascii "GET / HTTP/1.0\n\n")).play (Request.fresh .http10 0)
        (.setBuffer 16 :: List.replicate 9 .next) = .ok s ∧
      (∃ r', Request.nextDepth (fun _ => 0) 1 s.reader = .ok r') ∧ Dense (tokens s.emitted) ∧
      Session.Drains (Request.session (fun _ => 0) (ascii "GET / HTTP/1.0\n\n")) s
        (3 * s.reader.unread + 3)) ∧
    (∃ s, (Response.session (fun _ => 0) (ascii "HTTP/1.1 204 \n\nH")).play (Response.fresh 0)
        (List.flatten [[.setBuffer 16], List.replicate 3 .next, [.call (.setMethod (ascii "GET"))],
          List.replicate 6 .next]) = .ok s ∧
      (∃ r', Response.nextDepth (fun _ => 0) 1 s.reader = .ok r') ∧ Dense (tokens s.emitted) ∧
      Session.Drains (Response.session (fun _ => 0) (ascii "HTTP/1.1 204 \n\nH")) s
        (3 * s.reader.unread + 3)) :=
  ⟨(pull_loop_terminates (fun _ => 0) (ascii "GET / HTTP/1.0\n\n")).1 _ (.inl ⟨.http10, 0, rfl⟩) _
      (by decide +kernel),
    (pull_loop_terminates (fun _ => 0) (ascii "HTTP/1.1 204 \n\nH")).2 _ (.inl ⟨0, rfl⟩) _
      (by decide +kernel)⟩

end BoostHttp
