import BoostHttp.Incremental.Frames
import BoostHttp.Outcome
import BoostHttp.Record

/-!
# Messages — bodies that end by themselves, and how the end of a message is found

A body whose length is announced, or that comes in chunks, ends before the connection does.  A lexer
at the beginning of one reads it and goes on; and when it shows the end of a message, then such a
body has been there.
-/

open Incremental

namespace BoostHttp

/-! ## The ends of messages -/

def Event.messageEnd : Event → Option Nat
  | .token p t => if t.code = .endOfMessage then some (p + t.size) else none
  | .byte _ _ => none

def Quiet (v : List Event) : Prop := ∀ e ∈ v, e.messageEnd = none

theorem quiet_iff {v : List Event} : Quiet v ↔ v.any (Event.shows .endOfMessage) = false := by
  rw [List.any_eq_false]
  have hone : ∀ e : Event, e.messageEnd = none ↔ ¬ Event.shows .endOfMessage e = true := by
    intro e
    cases e with
    | token p t => simp [Event.messageEnd, Event.shows]
    | byte p b => simp [Event.messageEnd, Event.shows]
  constructor
  · intro h e he
    exact (hone e).mp (h e he)
  · intro h e he
    exact (hone e).mpr (h e he)

theorem not_quiet_iff {v : List Event} : ¬ Quiet v ↔ v.any (Event.shows .endOfMessage) = true := by
  rw [quiet_iff, Bool.not_eq_false]

theorem quiet_nil : Quiet [] := by
  intro e he
  cases he

theorem quiet_append {u v : List Event} : Quiet (u ++ v) ↔ Quiet u ∧ Quiet v := by
  simp only [Quiet, List.mem_append, or_imp, forall_and]

theorem quiet_token {p : Nat} {t : Token} (ht : t.code ≠ .endOfMessage) : Quiet [.token p t] := by
  intro e he
  rw [List.mem_singleton.mp he]
  exact if_neg ht

theorem quiet_bytesFrom (p : Nat) (bs : Bytes) : Quiet (bytesFrom p bs) :=
  quiet_iff.mpr (any_bytesFrom _ p bs)

section Shown

variable {d : Code}

/-- Fields, of the head or behind the body, show nothing else. -/
theorem any_fields {name value : Code} (hn : name ≠ d) (hv : value ≠ d) (p : Nat)
    (ls : List (Field × Eol)) : (blockEvents name value p ls).any (Event.shows d) = false := by
  induction ls generalizing p with
  | nil => rfl
  | cons l ls ih =>
    rw [blockEvents, List.any_append, ih]
    simp [Field.events, Event.shows, hn, hv]

theorem any_ext (hd : .chunkExt ≠ d) (p n : Nat) (x : ChunkExt) :
    (x.events p n).any (Event.shows d) = false := by
  unfold ChunkExt.events
  split
  · rfl
  · simp [Event.shows, hd]

theorem any_chunks (hd : .chunkExt ≠ d) (p : Nat) (ks : List Chunk) :
    (chunksEvents p ks).any (Event.shows d) = false := by
  induction ks generalizing p with
  | nil => rfl
  | cons k ks ih =>
    rw [chunksEvents, Chunk.events, List.any_append, List.any_append, any_ext hd, any_bytesFrom, ih]
    rfl

theorem any_lastChunk (hd : .chunkExt ≠ d) (hd' : .endOfBody ≠ d) (p : Nat) (l : LastChunk) :
    (l.events p).any (Event.shows d) = false := by
  rw [LastChunk.events, List.any_append, any_ext hd]
  simp [Event.shows, hd']

end Shown

/-- Fields are no ends of messages. -/
theorem quiet_block {name value : Code} (hn : name ≠ .endOfMessage) (hv : value ≠ .endOfMessage)
    (p : Nat) (ls : List (Field × Eol)) : Quiet (blockEvents name value p ls) :=
  quiet_iff.mpr (any_fields hn hv p ls)

theorem quiet_chunks (p : Nat) (ks : List Chunk) : Quiet (chunksEvents p ks) :=
  quiet_iff.mpr (any_chunks (by simp) p ks)

theorem quiet_lastChunk (p : Nat) (l : LastChunk) : Quiet (l.events p) :=
  quiet_iff.mpr (any_lastChunk (by simp) (by simp) p l)

/-- A first line that ends no message, the fields and the empty line. -/
theorem quiet_headEvents {line : List Event} (hline : Quiet line) (p q : Nat)
    (ls : List (Field × Eol)) (e : Eol) :
    Quiet (line ++ (blockEvents .fieldName .fieldValue p ls ++ [endOfHeaders q e])) :=
  quiet_append.mpr ⟨hline,
    quiet_append.mpr ⟨quiet_block (by simp) (by simp) p ls, quiet_token (by simp)⟩⟩

/-! ## Heads -/

def Phase.inHead : Phase → Bool
  | .method | .spAfterMethod | .requestTarget | .staticStrAfterTarget | .requestVersion
  | .crlfAfterVersion | .versionStaticStr | .responseVersion | .spAfterVersion | .statusCode
  | .spAfterStatusCode | .reasonPhrase | .crlfAfterReasonPhrase | .fieldName | .colon
  | .owsAfterColon | .fieldValue | .crlfAfterFieldValue | .crlfAfterHeaders => true
  | _ => false

def Code.inHead : Code → Bool
  | .method | .requestTarget | .version | .statusCode | .reasonPhrase | .fieldName | .fieldValue
  | .endOfHeaders => true
  | _ => false

def Event.inHead : Event → Bool
  | .token _ t => t.code.inHead
  | .byte _ _ => false

theorem Code.inHead_of_isFatal {c : Code} (h : c.isFatal = true) : c.inHead = false := by
  cases c <;> first | rfl | cases h

/-- What is not of a head does not end one. -/
theorem any_isHeadEnd {v : List Event} (h : ∀ e ∈ v, e.inHead = false) :
    v.any Event.isHeadEnd = false := by
  rw [List.any_eq_false]
  intro e he hend
  have hnot := h e he
  cases e with
  | byte q b => cases hend
  | token q t =>
    have hcode : t.code = .endOfHeaders := by simpa [Event.shows] using hend
    rw [Event.inHead, hcode] at hnot
    cases hnot

theorem events_inHead {t : Token} (h : t.code.inHead = false) (p : Nat) :
    ∀ e ∈ t.events p, e.inHead = false := by
  unfold Token.events
  split
  · simp
  · simp
  · intro e he
    cases e with
    | token q t => exact absurd he (not_mem_bytesFrom _)
    | byte q b => rfl
  · intro e he
    split at he <;> rw [List.mem_singleton.mp he] <;> exact h

theorem Phase.Resolves.inHead {p q : Phase} (h : p.Resolves q) : q.inHead = p.inHead := by
  cases h <;> rfl

section Head

variable {φ : Type} {P : Policy φ} {client : Client φ} {b : Bool} {s s' : Core φ} {j p n : Nat}
  {w raw : Bytes} {v : List Event} {code : Code}

theorem inHead_accept (hs : s.phase.inHead = true) (h : P.accept s raw = .ok (s', code)) :
    code = .endOfHeaders ∨ code ≠ .endOfMessage ∧ s'.phase.inHead = true := by
  unfold Policy.accept at h
  cases hp : s.phase <;> rw [hp] at hs <;> simp only [Phase.inHead, Bool.false_eq_true] at hs <;>
    simp only [hp] at h
  case fieldName =>
    split at h <;> cases h
    exact .inr ⟨by simp, rfl⟩
  case fieldValue =>
    split at h <;> cases h
    exact .inr ⟨by simp, rfl⟩
  case crlfAfterHeaders =>
    split at h <;> cases h
    exact .inl rfl
  case colon | owsAfterColon => cases h
  all_goals
    cases h
    exact .inr ⟨by simp, rfl⟩

/-- A head is left only by its end. -/
theorem inHead_emits (hs : s.phase.inHead = true) (h : P.Emits s raw code s') :
    code = .endOfHeaders ∨ code ≠ .endOfMessage ∧ s'.phase.inHead = true := by
  cases h with
  | lexeme _ _ _ ha => exact inHead_accept hs ha
  | colon hv hp _ hq =>
    refine .inr ⟨by simp, ?_⟩
    rcases hv with ⟨rfl, rfl, rfl⟩ | ⟨rfl, rfl, rfl⟩
    · rcases hq with rfl | rfl <;> rfl
    · rw [hp] at hs
      cases hs
  | ows _ _ _ => exact .inr ⟨by simp, hs⟩
  | body hb hp _ _ =>
    rcases hb with ⟨rfl, rfl⟩ | ⟨rfl, rfl⟩ <;> rw [hp] at hs <;> cases hs
  | unsafeBody hp => rw [hp] at hs; cases hs
  | closed hp => rw [hp] at hs; cases hs
  | endOfBody hp => rw [hp] at hs; cases hs
  | endOfMessage hp => rw [hp] at hs; cases hs

/-- In a run from inside a head, a message ends only after the head has. -/
theorem of_runs_inHead (hP : P.FailsWith fun c => c.isFatal = true)
    (hclient : ∀ j v s, (client j v s).phase = s.phase) (hs : s.phase.inHead = true)
    (hr : (machine P client).Runs b p (s, j) w v) (hv : ¬ Quiet v) : v.any Event.isHeadEnd = true := by
  generalize hst : (s, j) = st at hr
  induction hr generalizing s j with
  | need _ => exact absurd quiet_nil hv
  | fail hstep =>
    obtain ⟨_, _, _, _, hlex, -⟩ :=
      of_runs rfl hP (.fail (hst ▸ hstep)) (not_quiet_iff.mp hv)
    have hfail := (step_fail_iff.mp hstep).1
    rw [← hst, hlex] at hfail
    cases hfail
  | @emit p _ _ st' n t v' hstep _ ih =>
    subst hst
    obtain ⟨hlex, -, -⟩ := step_emit_iff.mp hstep
    obtain ⟨q, hq, hemits⟩ := emits_of_lex hlex
    have hsq : (s.goto q).phase.inHead = true := hq.inHead.trans hs
    change (t.events p ++ v').any _ = true
    rw [List.any_append, Bool.or_eq_true]
    rcases inHead_emits hsq hemits with hcode | ⟨hcode, hs'⟩
    · left
      have hev : t.events p = [.token p t] := by
        unfold Token.events
        rw [hcode]
        rfl
      simp [hev, Event.shows, hcode]
    · right
      have hreact : ((machine P client).react t st').1.phase = st'.1.phase := by
        simp only [machine]
        split
        · exact hclient _ _ _
        · rfl
      refine ih (hreact ▸ hs') (fun hquiet => hv ?_) rfl
      exact quiet_append.mpr ⟨quiet_iff.mpr (any_events hcode), hquiet⟩

/-- Outside a head, up to the end of the message, nothing of a head is emitted. -/
theorem outside_accept (hs : s.phase.inHead = false) (h : P.accept s raw = .ok (s', code)) :
    code = .endOfMessage ∨ code.inHead = false ∧ s'.phase.inHead = false := by
  unfold Policy.accept at h
  cases hp : s.phase <;> rw [hp] at hs <;> first | cases hs; done | simp only [hp] at h
  case chunkSize =>
    split at h <;> cases h
    exact .inr ⟨rfl, rfl⟩
  case crlfAfterChunkExt =>
    split at h <;> cases h <;> exact .inr ⟨rfl, rfl⟩
  case crlfAfterTrailers =>
    cases h
    exact .inl rfl
  all_goals first
    | cases h; done
    | cases h; exact .inr ⟨rfl, rfl⟩

theorem outside_emits (hs : s.phase.inHead = false) (h : P.Emits s raw code s') :
    code = .endOfMessage ∨ code.inHead = false ∧ s'.phase.inHead = false := by
  cases h with
  | lexeme _ _ _ ha => exact outside_accept hs ha
  | colon hv hp _ hq =>
    refine .inr ⟨rfl, ?_⟩
    rcases hv with ⟨rfl, rfl, rfl⟩ | ⟨rfl, rfl, rfl⟩
    · rw [hp] at hs
      cases hs
    · rcases hq with rfl | rfl <;> rfl
  | ows _ _ _ => exact .inr ⟨rfl, hs⟩
  | body hb hp _ _ =>
    refine .inr ⟨rfl, ?_⟩
    rcases hb with ⟨rfl, rfl⟩ | ⟨rfl, rfl⟩ <;> unfold Core.deliver <;> split <;> first | rfl | exact hs
  | unsafeBody hp => exact .inr ⟨rfl, hs⟩
  | closed hp => exact .inr ⟨rfl, rfl⟩
  | endOfBody hp => exact .inr ⟨rfl, rfl⟩
  | endOfMessage hp => exact .inl rfl

/-- In a run from outside a head, nothing of a head is seen before a message ends. -/
theorem of_runs_outside (hP : P.FailsWith fun c => c.isFatal = true)
    (hclient : ∀ j v s, (client j v s).phase = s.phase) (hs : s.phase.inHead = false)
    (hr : (machine P client).Runs b p (s, j) w v) (hv : Quiet v) : ∀ e ∈ v, e.inHead = false := by
  generalize hst : (s, j) = st at hr
  induction hr generalizing s j with
  | need _ => simp
  | @fail _ _ _ t hstep =>
    have hf : t.code.isFatal = true := by
      obtain ⟨hlex, -⟩ := step_fail_iff.mp hstep
      exact hP.lex (fun _ => rfl) hlex
    exact events_inHead (Code.inHead_of_isFatal hf) _
  | @emit p _ _ st' n t v' hstep _ ih =>
    subst hst
    obtain ⟨hlex, -, -⟩ := step_emit_iff.mp hstep
    obtain ⟨q, hq, hemits⟩ := emits_of_lex hlex
    have hsq : (s.goto q).phase.inHead = false := hq.inHead.trans hs
    obtain ⟨ht, hv'⟩ := quiet_append.mp hv
    rcases outside_emits hsq hemits with hcode | ⟨hcode, hs'⟩
    · have hend : (t.events p).any (Event.shows .endOfMessage) = true := by
        rw [any_shows_events rfl, hcode]
        rfl
      exact absurd ht (not_quiet_iff.mpr hend)
    · have hreact : ((machine P client).react t st').1.phase = st'.1.phase := by
        simp only [machine]
        split
        · exact hclient _ _ _
        · rfl
      have hrest := ih (hreact ▸ hs') hv' rfl
      intro e he
      rcases List.mem_append.mp he with he | he
      · exact events_inHead hcode _ e he
      · exact hrest e he

end Head

/-! ## Bodies -/

/-- The body of a message whose end can be told without the end of the connection. -/
inductive Body where
  | counted (data : Bytes)
  | chunked (m : ChunkedBody)

namespace Body

def framing : Body → Framing
  | .counted data => .counted data.length
  | .chunked _ => .chunked

def bytes : Body → Bytes
  | .counted data => data
  | .chunked m => m.bytes

def data : Body → Bytes
  | .counted data => data
  | .chunked m => m.chunks.flatMap Chunk.data

def trailers : Body → List Field
  | .counted _ => []
  | .chunked m => m.trailers

def events (p : Nat) : Body → List Event
  | .counted data => bytesFrom p data ++ bodyEnd (p + data.length)
  | .chunked m => m.events p

/-- A body of no bytes. -/
theorem of_counted_zero {d : Body} (h : d.framing = .counted 0) : d.bytes = [] ∧ d.trailers = [] := by
  cases d with
  | counted data =>
    have hlen : data.length = 0 := by simpa [framing] using h
    exact ⟨List.length_eq_zero_iff.mp hlen, rfl⟩
  | chunked m => cases h

/-- There is no end of headers in a body. -/
theorem any_events (d : Body) (p : Nat) : (d.events p).any Event.isHeadEnd = false := by
  cases d with
  | counted data =>
    rw [events, List.any_append, any_bytesFrom]
    rfl
  | chunked m =>
    simp only [events, ChunkedBody.events, List.any_append]
    rw [any_chunks (by simp), any_lastChunk (by simp) (by simp), any_fields (by simp) (by simp)]
    rfl

/-- The end of the message is the last event, and there is no other. -/
theorem marked (d : Body) (p : Nat) : ∃ es e, d.events p = es ++ [e] ∧ Quiet es ∧
    e.messageEnd = some (p + d.bytes.length) := by
  cases d with
  | counted data =>
    refine ⟨bytesFrom p data ++ [.token (p + data.length) ⟨.endOfBody, 0, .none⟩],
      .token (p + data.length) ⟨.endOfMessage, 0, .none⟩, ?_, ?_, rfl⟩
    · rw [List.append_assoc]
      rfl
    · exact quiet_append.mpr ⟨quiet_bytesFrom p data, quiet_token (by simp)⟩
  | chunked m =>
    have hcrlf : CRLF.length = 2 := rfl
    simp only [events, ChunkedBody.events, ← List.append_assoc]
    refine ⟨_, _, rfl, ?_, ?_⟩
    · simp only [quiet_append]
      exact ⟨⟨quiet_chunks _ _, quiet_lastChunk _ _⟩, quiet_block (by simp) (by simp) _ _⟩
    · simp only [Event.messageEnd, if_true, Option.some.injEq, bytes, ChunkedBody.bytes,
        List.length_append, hcrlf]
      omega

/-- The same behind a head. -/
theorem marked_behind {head : List Event} (hhead : Quiet head) (d : Body) (p : Nat) :
    ∃ es e, head ++ d.events p = es ++ [e] ∧ Quiet es ∧
      e.messageEnd = some (p + d.bytes.length) := by
  obtain ⟨es, e, he, hes, hmark⟩ := d.marked p
  exact ⟨head ++ es, e, by rw [he, List.append_assoc], quiet_append.mpr ⟨hhead, hes⟩, hmark⟩

end Body

theorem Framing.phase_inHead (F : Framing) : F.phase.inHead = false := by
  cases F with
  | chunked => rfl
  | counted n =>
    rw [Framing.phase]
    split <;> rfl
  | untilClose => rfl

def Policy.afterBody {φ : Type} (P : Policy φ) (d : Body) (f : φ) : φ × Phase :=
  match d with
  | .counted _ => P.onMessageEnd f
  | .chunked _ => P.onTrailersEnd f

section Runs

variable {φ : Type} {P : Policy φ} {client : Client φ} {b : Bool} {s : Core φ} {j p n : Nat} {f : φ}
  {rest w : Bytes} {v : List Event} {F : Framing}

/-- A counted body is read as it was written. -/
theorem leads_countedBody (client : Client φ) (rest data : Bytes)
    (hs : (Framing.counted data.length).Starts s) :
    ∃ n', (machine P client).Leads b p (s, j) (data ++ rest)
      (bytesFrom p data ++ bodyEnd (p + data.length)) (p + data.length)
      (⟨(P.onMessageEnd s.framing).2, (P.onMessageEnd s.framing).1, n'⟩, j) rest := by
  obtain ⟨q, f, n⟩ := s
  obtain ⟨hq, hn⟩ := hs
  dsimp only at hq hn
  rw [hq, Framing.phase]
  by_cases hd : data = []
  · subst hd
    exact ⟨n, leads_endOfBody⟩
  · have hne : data.length ≠ 0 := by simpa using hd
    rw [if_neg hne, hn _ rfl hne]
    exact ⟨0, (leads_counted (.inl ⟨rfl, rfl⟩) hd).trans leads_endOfBody⟩

/-- A body is read as it was written, and the lexer goes on behind it. -/
theorem leads_body (client : Client φ) (rest : Bytes) (d : Body) (hs : d.framing.Starts s) :
    ∃ n', (machine P client).Leads b p (s, j) (d.bytes ++ rest) (d.events p)
      (p + d.bytes.length) (⟨(P.afterBody d s.framing).2, (P.afterBody d s.framing).1, n'⟩, j) rest := by
  cases d with
  | counted data => exact leads_countedBody client rest data hs
  | chunked m =>
    obtain ⟨q, f, n⟩ := s
    have hq : q = .chunkSize := hs.phase
    subst hq
    exact ⟨0, leads_chunkedBody m⟩

/-- Where a trailer may start, a run in which a message ends finds the last line or a trailer. -/
theorem of_runs_trailer (hP : P.FailsWith fun c => c.isFatal = true)
    (hr : (machine P client).Runs b p (⟨.trailerName, f, n⟩, j) w v) (hv : ¬ Quiet v) :
    (∃ rest, w = CRLF ++ rest) ∨
      ∃ x rest o v', w = Field.bytes x .crlf ++ rest ∧
        (machine P client).Runs b o (⟨.trailerName, f, n⟩, j) rest v' ∧ ¬ Quiet v' := by
  rw [not_quiet_iff] at hv
  obtain ⟨c, -, name, y, s₁, code, v₁, -, hw, hscan, hacc, hany, hrun⟩ :=
    of_runs_lexeme (s := ⟨.trailerName, f, n⟩) rfl hP rfl (by simp)
      (fun c => by simp only [Phase.resolve]; split <;> rfl) hr hv
  simp only [Phase.resolve] at hscan hacc
  by_cases hc : Detail.isTchar c = true
  · rw [if_pos hc] at hscan hacc
    cases hacc
    obtain ⟨y, rfl, hrun₁⟩ :=
      of_runs_colon rfl hP (.inr ⟨rfl, rfl, rfl⟩) (hrun (by simp)) (hany (by simp))
    obtain ⟨raw, z, v₂, hraw, hscan₂, hrun₂, hany₂⟩ :=
      of_runs_follows (q := .trailerValue) rfl hP rfl (fun _ => rfl) (by simp) (by simp) hrun₁
        (hany (by simp))
    obtain ⟨x, -, -, hx⟩ := exists_field hscan hraw hscan₂
    obtain ⟨eol, rest, v₃, rfl, hscan₃, hrun₃, hany₃⟩ :=
      of_runs_follows (q := .crlfAfterTrailerValue) rfl hP rfl (fun _ => rfl) (by simp) (by simp)
        hrun₂ hany₂
    obtain ⟨-, heol⟩ := take_crlf (q := .crlfAfterTrailerValue) rfl hscan₃
    rw [List.take_left] at heol
    refine .inr ⟨x, rest, _, v₃, ?_, hrun₃, not_quiet_iff.mpr hany₃⟩
    rw [hw, hx, heol]
    simp [Field.bytes, Eol.bytes]
  · rw [if_neg hc] at hscan
    obtain ⟨-, heol⟩ := take_crlf (q := .crlfAfterTrailers) rfl hscan
    rw [List.take_left] at heol
    exact .inl ⟨y, by rw [hw, heol]⟩

theorem of_runs_trailers (hP : P.FailsWith fun c => c.isFatal = true)
    (hr : (machine P client).Runs b p (⟨.trailerName, f, n⟩, j) w v) (hv : ¬ Quiet v) :
    ∃ (xs : List Field) (rest : Bytes),
      w = blockBytes (xs.map fun x => (x, .crlf)) ++ (CRLF ++ rest) := by
  induction hk : w.length using Nat.strongRecOn generalizing p w v with
  | ind k ih =>
    rcases of_runs_trailer hP hr hv with ⟨rest, hw⟩ | ⟨x, rest, o, v', hw, hr', hv'⟩
    · exact ⟨[], rest, hw⟩
    · have hlt : rest.length < k := by
        rw [← hk, hw]
        simp only [Field.bytes, List.length_append, List.length_cons]
        omega
      obtain ⟨xs, rest', hrest⟩ := ih _ hlt hr' hv' rfl
      refine ⟨x :: xs, rest', ?_⟩
      rw [hw, hrest]
      simp [blockBytes]

/-- A run in which a message with a chunked body ends has passed such a body. -/
theorem of_runs_chunkedBody (htotal : ∀ p c w, ∃ v, (machine P client).Runs b p c w v)
    (hP : P.FailsWith fun c => c.isFatal = true)
    (hr : (machine P client).Runs b p (⟨.chunkSize, f, n⟩, j) w v) (hv : ¬ Quiet v) :
    ∃ m rest, w = ChunkedBody.bytes m ++ rest := by
  -- the chunks are there, in any stream with `w` at this offset
  have hdrop : (List.replicate p 0 ++ w).drop p = w := List.drop_left' List.length_replicate
  have hstart : Unfinished (List.replicate p 0 ++ w) p p (⟨.chunkSize, f, n⟩ : Core φ) :=
    ⟨[], [], rfl, rfl⟩
  have hlast := hstart.runs (by decide) rfl hP (hdrop.symm ▸ hr) (not_quiet_iff.mp hv)
  rw [hdrop] at hlast
  obtain ⟨ks, l, rest, rfl⟩ := hlast
  obtain ⟨n', hchunks⟩ : ∃ n', (machine P client).Leads b p (⟨.chunkSize, f, n⟩, j)
      (ks.flatMap Chunk.bytes ++ (l.bytes ++ rest)) (chunksEvents p ks) _ (⟨.chunkSize, f, n'⟩, j) _ :=
    leads_chunks ks
  obtain ⟨v₁, rfl, hr₁⟩ := hchunks.split (htotal _ _ _) hr
  obtain ⟨v₂, rfl, hr₂⟩ := (leads_lastChunk l).split (htotal _ _ _) hr₁
  -- and the end of the message comes behind them
  have hv₂ : ¬ Quiet v₂ := fun h => hv
    (quiet_append.mpr ⟨quiet_chunks _ _, quiet_append.mpr ⟨quiet_lastChunk _ _, h⟩⟩)
  obtain ⟨xs, rest', rfl⟩ := of_runs_trailers hP hr₂ hv₂
  refine ⟨⟨ks, l, xs⟩, rest', ?_⟩
  simp [ChunkedBody.bytes, ChunkedBody.lines]

/-- A run in which a message ends, of a lexer that starts a body, has passed such a body. -/
theorem of_runs_body (htotal : ∀ p c w, ∃ v, (machine P client).Runs b p c w v)
    (hP : P.FailsWith fun c => c.isFatal = true)
    (hwaits : ∀ k, F = .counted k → b = true → ∀ k, k ≠ 0 → P.waits s.framing k = true)
    (hF : F ≠ .untilClose) (hs : F.Starts s) (hr : (machine P client).Runs b p (s, j) w v)
    (hv : ¬ Quiet v) : ∃ (d : Body) (rest : Bytes), w = d.bytes ++ rest ∧ d.framing = F := by
  cases F with
  | untilClose => exact absurd rfl hF
  | chunked =>
    obtain ⟨q, f, n⟩ := s
    have hq : q = .chunkSize := hs.phase
    subst hq
    obtain ⟨m, rest, hw⟩ := of_runs_chunkedBody htotal hP hr hv
    exact ⟨.chunked m, rest, hw, rfl⟩
  | counted k =>
    obtain ⟨v', rfl, hshort, -⟩ := describes_counted htotal (hwaits k rfl) hs hr
    have hle : k ≤ w.length := by
      by_contra hlt
      rw [hshort (by omega), List.append_nil] at hv
      exact hv (quiet_bytesFrom _ _)
    refine ⟨.counted (w.take k), w.drop k, (List.take_append_drop k w).symm, ?_⟩
    rw [Body.framing, List.length_take, Nat.min_eq_left hle]

end Runs

/-! ## Streams of messages -/

/-- A record that begins with the events of messages can be cut behind them. -/
theorem cut_stream {σ μ : Type} {M : Machine σ UInt8 Token Event} {F : Format UInt8 Event μ}
    {b : Bool} {Between : Nat → σ → Prop} {Reads : Nat → μ → Prop} {Closes : Nat → μ → Bytes → Prop}
    (hF : Framed M F b Between Reads Closes) (hF' : F.mark = Event.messageEnd) {p : Nat} {ms : List μ}
    {log : List (Nat × Token)} {v : List Event} (hp : Placed p log)
    (h : events log = F.streamEvents p ms ++ v) :
    ∃ log₁ log₂, log = log₁ ++ log₂ ∧ events log₁ = F.streamEvents p ms ∧ events log₂ = v ∧
      Placed (p + (F.stream ms).length) log₂ := by
  induction ms generalizing p log with
  | nil => exact ⟨[], log, rfl, rfl, h, hp⟩
  | cons m ms ih =>
    obtain ⟨es, e, he, -, hmark⟩ := hF.marked p m
    rw [Format.streamEvents, he, List.append_assoc, List.append_assoc] at h
    rw [hF'] at hmark
    cases e with
    | byte q b => cases hmark
    | token q t =>
      have ht : t.code = .endOfMessage := by
        by_contra hne
        rw [Event.messageEnd, if_neg hne] at hmark
        cases hmark
      rw [Event.messageEnd, if_pos ht, Option.some.injEq] at hmark
      obtain ⟨log₁, log₂, rfl, h₁, h₂, -, hp₂⟩ := hp.cut h (by rw [ht]; rfl)
      rw [hmark] at hp₂
      obtain ⟨log₃, log₄, rfl, h₃, h₄, hp₄⟩ := ih hp₂ h₂
      refine ⟨log₁ ++ log₃, log₄, (List.append_assoc _ _ _).symm, ?_, h₄, ?_⟩
      · rw [events_append, h₁, h₃, Format.streamEvents, he]
      · rw [Format.stream_cons, List.length_append, ← Nat.add_assoc]
        exact hp₄

end BoostHttp
