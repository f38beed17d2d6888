import BoostHttp.Lifetime

/-!
# Waiting — what `token_size()` is while data is insufficient

The documentation says that the token `error_insufficient_data` has no bytes, and its examples add
its size to the number of bytes that they erase from their buffer.  Some states of the readers keep
the bytes of an unfinished token in `token_size_` instead.  `Phase.cuts` says when.
-/

open Incremental

namespace BoostHttp

/-- The unread bytes `w` are the beginning of a token of which the reader keeps track: of a method,
of a request target, of the text around the version, or of a chunk extension. -/
def Phase.cuts (p : Phase) (w : Bytes) : Bool :=
  w ≠ [] && match p with
    | .method => w.all Detail.isTchar
    | .requestTarget => w.all Detail.isRequestTargetChar
    | .staticStrAfterTarget => w <+: ascii " HTTP/1." && w ≠ ascii " HTTP/1."
    | .versionStaticStr => w <+: ascii "HTTP/1." && w ≠ ascii "HTTP/1."
    | .chunkExt => w.all Detail.isChunkExtChar
    | _ => false

theorem literal_need_iff {lit w : Bytes} : literal lit w = .need ↔ w <+: lit ∧ w ≠ lit := by
  unfold literal
  split
  · rename_i h
    refine ⟨nofun, fun ⟨hpre, hne⟩ => absurd (hpre.eq_of_length_le h.length_le) hne⟩
  · rename_i h
    split
    · rename_i hpre
      exact ⟨fun _ => ⟨hpre, fun heq => h (heq ▸ List.prefix_rfl)⟩, fun _ => rfl⟩
    · rename_i hpre
      exact ⟨nofun, fun h => absurd h.1 hpre⟩

theorem Phase.cuts_iff {p : Phase} {w : Bytes} :
    p.cuts w = true ↔ w ≠ [] ∧ p.keeps = true ∧ p.scan w = .need := by
  unfold Phase.cuts
  rw [Bool.and_eq_true, decide_eq_true_eq]
  refine and_congr_right fun _ => ?_
  cases p <;> simp only [Phase.keeps, Phase.scan, true_and, Bool.false_eq_true, false_and]
  case method | requestTarget | chunkExt => rw [spanned_need_iff, List.all_eq_true]
  case staticStrAfterTarget | versionStaticStr =>
    rw [literal_need_iff, Bool.and_eq_true, decide_eq_true_eq, decide_eq_true_eq]

/-- The first byte of a token that is cut does not show that it is absent. -/
theorem Phase.cuts_resolve (p : Phase) (c : UInt8) (w : Bytes) :
    (p.resolve c).cuts (c :: w) = p.cuts (c :: w) := by
  cases p <;> simp only [Phase.resolve] <;> try split
  all_goals try rfl
  rename_i hc
  rw [hc]
  rfl

section Need

variable {φ : Type} {P : Policy φ} {s s' : Core φ} {b : Bool} {w : Bytes}

theorem cuts_of_need (h : P.lex b s w = .need s') : s'.phase.cuts w = s.phase.cuts w := by
  obtain ⟨-, ⟨-, rfl⟩ | ⟨c, w, rfl, rfl⟩⟩ := of_lex_need h
  · rfl
  · exact Phase.cuts_resolve _ c w

/-- Bytes are kept exactly of a token that is cut. -/
theorem kept_of_need (h : P.lex b s w = .need s') :
    s'.phase.kept w = 0 ↔ s.phase.cuts w = false := by
  rw [← cuts_of_need h, Phase.kept]
  by_cases hw : w = []
  · subst hw
    refine ⟨fun _ => rfl, fun _ => ?_⟩
    split <;> rfl
  by_cases hk : s'.phase.keeps = true
  · have hcuts : s'.phase.cuts w = true := Phase.cuts_iff.mpr ⟨hw, hk, scan_of_need hk hw h⟩
    rw [if_pos hk, hcuts]
    exact ⟨fun hlen => absurd (List.length_eq_zero_iff.mp hlen) hw, by simp⟩
  · have hcuts : s'.phase.cuts w = false := by
      rw [Bool.eq_false_iff]
      exact fun hc => hk (Phase.cuts_iff.mp hc).2.1
    rw [if_neg hk, hcuts]
    exact ⟨fun _ => rfl, fun _ => rfl⟩

/-- A token that is cut is asked for. -/
theorem lex_of_cuts (h : s.phase.cuts w = true) : P.lex b s w = .need s := by
  obtain ⟨hw, hk, hscan⟩ := Phase.cuts_iff.mp h
  cases w with
  | nil => exact absurd rfl hw
  | cons c w =>
    have hz : s.phase.isZeroSized = false := by
      cases hp : s.phase <;> rw [hp] at hk <;> first | rfl | cases hk
    have he : s.phase.isElastic = false := by
      cases hp : s.phase <;> rw [hp] at hk <;> first | rfl | cases hk
    have hstatus : s.phase ≠ .spAfterStatusCode := by
      intro hp
      rw [hp] at hk
      cases hk
    -- the phases that cut a token are not changed by the byte in view
    have hres : s.phase.resolve c = s.phase := by
      have hcuts := Phase.cuts_resolve s.phase c w
      rw [h] at hcuts
      cases hp : s.phase <;> rw [hp] at hk hcuts <;> first | rfl | (cases hk; done) | skip
      -- a chunk extension does not begin with the end of its line
      simp only [Phase.resolve] at hcuts ⊢
      split
      · rename_i hc
        rw [if_pos hc] at hcuts
        cases hcuts
      · rfl
    rw [lex_cons hz, hres, Core.goto_self rfl, lexeme_of_rigid he, Policy.scanned,
      if_neg fun h => hstatus h.1, hscan]

end Need

/-! ## Clients that do not cut these tokens -/

/-- The number of bytes that a client of the documentation has parsed: it adds up the sizes of all
tokens, of those that say that data is insufficient as well. -/
def nparsed (log : List (Nat × Token)) : Nat :=
  ((log.filter fun e => !e.2.code.isFatal).map fun e => e.2.size).sum

/-- It is right as long as those have no bytes. -/
theorem nparsed_eq {log : List (Nat × Token)}
    (h : ∀ e ∈ log, e.2.code = .errorInsufficientData → e.2.size = 0) : nparsed log = extent log := by
  induction log with
  | nil => rfl
  | cons e log ih =>
    have ih := ih fun e' he' => h e' (List.mem_cons_of_mem _ he')
    have hsize := h e List.mem_cons_self
    have hext : extent (e :: log) = e.2.extent + extent log := rfl
    have hlog : nparsed (e :: log) = (if e.2.code.isFatal then 0 else e.2.size) + nparsed log := by
      unfold nparsed
      cases hf : e.2.code.isFatal <;> simp [hf]
    rw [hlog, hext, ih]
    congr 1
    unfold Token.extent
    -- a fatal error counts for nothing, and a request for data has size zero by assumption
    by_cases hf : e.2.code.isFatal = true
    · rw [if_pos hf, if_pos (Code.isError_of_isFatal hf)]
    · rw [if_neg hf]
      split
      · rename_i herr
        exact hsize (((isError_iff _).mp herr).resolve_right hf)
      · rfl

namespace Session

variable {σ β ν κ φ : Type} {A : Api σ β ν κ} {mem : Nat → UInt8} {S : Bytes} {V : View σ β ν φ}
  {P : Policy φ} {Legal : Core φ → Prop} {s s₀ : Session σ β ν κ} {ops : List (Op κ)}

/-- When `next()` is called, by the client or by `set_buffer`, the unread bytes do not end within a
token that the reader keeps track of. -/
def uncut (V : View σ β ν φ) (S : Bytes) (s : Session σ β ν κ) : Op κ → Bool
  | .next => !(V.phase s.reader.state).cuts s.reader.consume.restView
  | .setBuffer size => s.reader.code ≠ .errorInsufficientData ||
      !(V.phase s.reader.state).cuts ((S.drop s.consumed).take size)
  | .call _ => true

structure Uncut (V : View σ β ν φ) (s : Session σ β ν κ) : Prop where
  emitted : ∀ e ∈ s.emitted, e.2.code = .errorInsufficientData → e.2.size = 0
  size : s.reader.code = .errorInsufficientData → s.reader.tokenSize = 0
  rest : s.reader.code = .errorInsufficientData →
    (V.phase s.reader.state).cuts s.reader.restView = false

/-- The token that `next()` reports when it asks for more data has bytes exactly if one is cut. -/
theorem size_of_settles (hA : A.Lawful V P Legal) (ht : Tracks V Legal S s)
    (he : V.phase s.reader.state ≠ .errored) {r' : Reader σ β ν}
    (hout : Settles V s.reader.consume
      (P.lex (V.eof s.reader.connection) (V.core s.reader) s.reader.consume.restView) r')
    (hcode : r'.code = .errorInsufficientData) :
    (r'.tokenSize = 0 ↔ (V.phase s.reader.state).cuts s.reader.consume.restView = false) ∧
      (V.phase r'.state).cuts r'.restView
        = (V.phase s.reader.state).cuts s.reader.consume.restView := by
  obtain ⟨hlex, hsize, hrest⟩ := need_of_settles hA ht he hout hcode
  rw [hsize, hrest]
  exact ⟨kept_of_need hlex, cuts_of_need hlex⟩

theorem play_uncut (hA : A.Lawful V P Legal) (ht : Tracks V Legal S s₀) (hs : Uncut V s₀)
    (h : (system A mem S (uncut V S)).conforming s₀ ops = true) :
    ∃ s, (system A mem S (uncut V S)).play s₀ ops = .ok s ∧ Uncut V s := by
  -- `Uncut` is kept because the guard refuses the buffers that would cut a token
  have hrun := play_induction hA (I := Uncut V) ?_ ?_ ?_ ht hs h
  · obtain ⟨s, hplay, -, hs'⟩ := hrun
    exact ⟨s, hplay, hs'⟩
  · intro s r' ht hs he hg _ hout _
    -- either the reader was waiting, and saw the same bytes before, or the guard has looked
    have huncut : (V.phase s.reader.state).cuts s.reader.consume.restView = false := by
      by_cases hc : s.reader.code = .errorInsufficientData
      · rw [consume_of_insufficient hc]
        exact hs.rest hc
      · simpa [uncut] using hg.resolve_left hc
    have hsize := size_of_settles hA ht he hout
    refine ⟨fun e hmem hc => ?_, fun hc => (hsize hc).1.mpr huncut, fun hc => ?_⟩
    · rw [emitted_report] at hmem
      rcases List.mem_append.mp hmem with hmem | hmem
      · exact hs.emitted e hmem hc
      · rw [List.mem_singleton.mp hmem] at hc ⊢
        exact (hsize hc).1.mpr huncut
    · exact (hsize hc).2.trans huncut
  · intro s size _ hs _ hg
    refine ⟨hs.emitted, hs.size, fun hc => ?_⟩
    rw [rebase_restView]
    change (V.phase s.reader.state).cuts _ = false
    simpa [uncut, show s.reader.code = .errorInsufficientData from hc] using hg
  · intro s c r' ht hs hp _ hcall
    obtain ⟨-, hstate, hcode, hidx, hsize, hbuf⟩ := hA.of_call ht.sound hp hcall
    refine ⟨hs.emitted, fun hc => ?_, fun hc => ?_⟩
    · change r'.tokenSize = 0
      rw [hsize]
      exact hs.size (hcode ▸ hc)
    · have hrest : r'.restView = s.reader.restView := by
        rw [Reader.restView, hidx, hbuf]
        rfl
      change (V.phase r'.state).cuts r'.restView = false
      rw [hstate, hrest]
      exact hs.rest (hcode ▸ hc)

/-- From a state that a session has reached, `next()` reports a token of insufficient data that has
bytes exactly when one is cut. -/
theorem size_iff_uncut (hA : A.Lawful V P Legal) (ht : Tracks V Legal S s) :
    ∃ r', A.next s.reader = .ok r' ∧ ((r'.code = .errorInsufficientData → r'.tokenSize = 0) ↔
      (V.phase s.reader.state).cuts s.reader.consume.restView = false) := by
  by_cases he : V.phase s.reader.state = .errored
  · refine ⟨s.reader, hA.implements.errored he, fun _ => ?_, fun _ hc => ?_⟩
    · rw [he, Bool.eq_false_iff]
      exact fun hcuts => nomatch (Phase.cuts_iff.mp hcuts).2.1
    · exact absurd he (ht.sound.ne_errored (by rw [hc]; rfl))
  obtain ⟨r', hnext, hout⟩ := hA.implements.settles ht.sound he
  refine ⟨r', hnext, fun hsize => ?_, fun huncut hc => (size_of_settles hA ht he hout hc).1.mpr huncut⟩
  -- a view that is cut leaves part of the token behind `token_size_`
  by_contra hcuts
  rw [Bool.not_eq_false] at hcuts
  have hcode : r'.code = .errorInsufficientData := by
    rw [lex_of_cuts hcuts] at hout
    exact hout.outcome.2.1
  have hfalse := (size_of_settles hA ht he hout hcode).1.mp (hsize hcode)
  rw [hcuts] at hfalse
  cases hfalse

/-- The two sides of the condition: a client that meets it loses nothing, and where it is not met a
token of insufficient data has bytes. -/
theorem play_waits (hA : A.Lawful V P Legal) (ht : Tracks V Legal S s₀) (hr : s₀.Recorded)
    (hs : Uncut V s₀) (h : (system A mem S (uncut V S)).conforming s₀ ops = true) :
    ∃ s, (system A mem S (uncut V S)).play s₀ ops = .ok s ∧
      (s.reader.code = .errorInsufficientData → s.reader.tokenSize = 0) ∧
      nparsed s.emitted = s.pass.consumed := by
  obtain ⟨s, hplay, hs'⟩ := play_uncut hA ht hs h
  obtain ⟨s', hplay', -, hr'⟩ := play_recorded hA ht hr h
  have heq : s' = s := Except.ok.inj (hplay'.symm.trans hplay)
  subst heq
  refine ⟨s', hplay', hs'.size, ?_⟩
  rw [nparsed_eq hs'.emitted, hr'.consumed]

end Session

/-- A client that never lets a buffer end within a method, a request target, the text around the
version or a chunk extension. -/
abbrev Request.uncutSession (mem : Nat → UInt8) (S : Bytes) : Guarded Request.Run (Op Empty) Fault :=
  Session.system (Request.api mem) mem S (Session.uncut Request.view S)

abbrev Response.uncutSession (mem : Nat → UInt8) (S : Bytes) :
    Guarded Response.Run (Op Response.Call) Fault :=
  Session.system (Response.api mem) mem S (Session.uncut Response.view S)

/-- A new reader waits, and the size of its token is not always zero while it does. -/
theorem insufficient_data_sized :
    ¬ ∀ (S : Bytes) (ops : List (Op Empty)) (s : Request.Run),
      (Request.session (fun _ => 0) S).conforming (Request.fresh .http10 0) ops = true →
      (Request.session (fun _ => 0) S).play (Request.fresh .http10 0) ops = .ok s →
      s.reader.code = .errorInsufficientData → s.reader.tokenSize = 0 := by
  intro hclaim
  have hends : (Request.session (fun _ => 0) (ascii "GE")).ends (Request.fresh .http10 0)
      [.setBuffer 2] (fun s => s.reader.code = .errorInsufficientData && s.reader.tokenSize = 2)
      = true := by decide +kernel
  obtain ⟨s, hplay, hs⟩ := Guarded.of_ends hends
  simp only [Bool.and_eq_true, decide_eq_true_eq] at hs
  have hzero := hclaim (ascii "GE") [.setBuffer 2] s (by decide +kernel) hplay hs.1
  rw [hs.2] at hzero
  cases hzero

/-- In every run of a client that does not cut these tokens, the token of insufficient data has no
bytes and adding up all sizes gives the bytes consumed; in every state of every run, the condition is
also necessary for the next token. -/
theorem insufficient_data_zero (mem : Nat → UInt8) (S : Bytes) :
    (∀ s₀, Request.Begins s₀ → ∀ ops,
      ((Request.uncutSession mem S).conforming s₀ ops = true →
        ∃ s, (Request.uncutSession mem S).play s₀ ops = .ok s ∧
          (s.reader.code = .errorInsufficientData → s.reader.tokenSize = 0) ∧
          nparsed s.emitted = s.pass.consumed) ∧
      ((Request.session mem S).conforming s₀ ops = true →
        ∃ s r', (Request.session mem S).play s₀ ops = .ok s ∧ Request.next mem s.reader = .ok r' ∧
          ((r'.code = .errorInsufficientData → r'.tokenSize = 0) ↔
            s.reader.state.phase.cuts s.reader.consume.restView = false))) ∧
    (∀ s₀, Response.Begins s₀ → ∀ ops,
      ((Response.uncutSession mem S).conforming s₀ ops = true →
        ∃ s, (Response.uncutSession mem S).play s₀ ops = .ok s ∧
          (s.reader.code = .errorInsufficientData → s.reader.tokenSize = 0) ∧
          nparsed s.emitted = s.pass.consumed) ∧
      ((Response.session mem S).conforming s₀ ops = true →
        ∃ s r', (Response.session mem S).play s₀ ops = .ok s ∧
          Response.next mem s.reader = .ok r' ∧
          ((r'.code = .errorInsufficientData → r'.tokenSize = 0) ↔
            s.reader.state.phase.cuts s.reader.consume.restView = false))) := by
  constructor
  · intro s₀ hs₀ ops
    obtain ⟨version, bodySize, rfl⟩ := hs₀.eq_fresh
    refine ⟨Session.play_waits (Request.lawful mem) (Request.tracks_fresh version bodySize S)
      (Request.recorded_fresh version bodySize) ⟨nofun, fun _ => rfl, fun _ => rfl⟩, fun h => ?_⟩
    obtain ⟨s, hplay, ht⟩ := Session.play_tracks (Request.lawful mem)
      (Request.tracks_fresh version bodySize S) h
    obtain ⟨r', hnext, hsize⟩ := Session.size_iff_uncut (Request.lawful mem) ht
    exact ⟨s, r', hplay, hnext, hsize⟩
  · intro s₀ hs₀ ops
    obtain ⟨bodySize, rfl⟩ := hs₀.eq_fresh
    refine ⟨Session.play_waits (Response.lawful mem) (Response.tracks_fresh bodySize S)
      (Response.recorded_fresh bodySize) ⟨nofun, fun _ => rfl, fun _ => rfl⟩, fun h => ?_⟩
    obtain ⟨s, hplay, ht⟩ := Session.play_tracks (Response.lawful mem)
      (Response.tracks_fresh bodySize S) h
    obtain ⟨r', hnext, hsize⟩ := Session.size_iff_uncut (Response.lawful mem) ht
    exact ⟨s, r', hplay, hnext, hsize⟩

/-- A request that arrives in three parts, cut behind its method and within the name of a field, and
a response that is cut behind its static text. -/
theorem insufficient_data_zero_parts :
    (∃ s, (Request.uncutSession (fun _ => 0) (ascii "GET / HTTP/1.1\nHost:")).play
        (Request.fresh .http10 0) (List.flatten [[.setBuffer 4], List.replicate 3 .next,
          [.setBuffer 13], List.replicate 5 .next, [.setBuffer 5, .next]]) = .ok s ∧
      (s.reader.code = .errorInsufficientData → s.reader.tokenSize = 0) ∧
      nparsed s.emitted = s.pass.consumed) ∧
    (∃ s, (Response.uncutSession (fun _ => 0) (ascii "HTTP/1.1")).play (Response.fresh 0)
        [.setBuffer 7, .next, .next, .setBuffer 1, .next] = .ok s ∧
      (s.reader.code = .errorInsufficientData → s.reader.tokenSize = 0) ∧
      nparsed s.emitted = s.pass.consumed) :=
  ⟨((insufficient_data_zero (fun _ => 0) (ascii "GET / HTTP/1.1\nHost:")).1 _
      (.inl ⟨.http10, 0, rfl⟩) _).1 (by decide +kernel),
    ((insufficient_data_zero (fun _ => 0) (ascii "HTTP/1.1")).2 _ (.inl ⟨0, rfl⟩) _).1
      (by decide +kernel)⟩

end BoostHttp
