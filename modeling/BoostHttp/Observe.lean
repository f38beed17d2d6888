import BoostHttp.Session

/-!
# Observe — what a client makes of the tokens it is shown

How a stream is cut into buffers decides how bodies are cut into chunks, how whitespace is cut into
skipped tokens, and how often data is reported to be insufficient.  `observe` is what is left of a
record when these are abstracted from, and it is a function of the events of the lexer.
-/

open Incremental

namespace BoostHttp

variable {σ β ν κ φ : Type}

def joinChunk (t : Token) : List Token → List Token
  | [] => [t]
  | u :: ts =>
    match t.code, t.value, u.code, u.value with
    | .bodyChunk, .buffer a, .bodyChunk, .buffer b =>
      ⟨.bodyChunk, t.size + u.size, .buffer (a ++ b)⟩ :: ts
    | _, _, _, _ => t :: u :: ts

/-- The observable tokens of a record: skipped bytes and requests for more data are left out,
adjacent body chunks are concatenated, and of a fatal error only the code is kept. -/
def observe : List (Nat × Token) → List Token
  | [] => []
  | (_, t) :: ts =>
    if t.code = .skip ∨ t.code = .errorInsufficientData then observe ts
    else if t.code.isFatal then ⟨t.code, 0, .none⟩ :: observe ts
    else joinChunk t (observe ts)

def events (log : List (Nat × Token)) : List Event := log.flatMap fun e => e.2.events e.1

theorem events_append (log log' : List (Nat × Token)) :
    events (log ++ log') = events log ++ events log' := List.flatMap_append

def assemble : List Event → List Token
  | [] => []
  | .token _ t :: es => t :: assemble es
  | .byte _ b :: es => joinChunk ⟨.bodyChunk, 1, .buffer [b]⟩ (assemble es)

/-- Body chunks have bytes, as many as their size says. -/
def Token.WellFormed (t : Token) : Prop :=
  t.code = .bodyChunk → ∃ b bs, t = ⟨.bodyChunk, (b :: bs).length, .buffer (b :: bs)⟩

theorem joinChunk_of_ne {t : Token} (h : t.code ≠ .bodyChunk) (ts : List Token) :
    joinChunk t ts = t :: ts := by
  cases ts with
  | nil => rfl
  | cons u ts =>
    simp only [joinChunk]
    split
    · rename_i hc _ _ _
      exact absurd hc h
    · rfl

theorem joinChunk_joinChunk (b : UInt8) (bs : Bytes) (ts : List Token) :
    joinChunk ⟨.bodyChunk, 1, .buffer [b]⟩
        (joinChunk ⟨.bodyChunk, bs.length, .buffer bs⟩ ts)
      = joinChunk ⟨.bodyChunk, (b :: bs).length, .buffer (b :: bs)⟩ ts := by
  have hlen : 1 + bs.length = (b :: bs).length := by rw [List.length_cons, Nat.add_comm]
  cases ts with
  | nil => simp [joinChunk, ← hlen]
  | cons u ts =>
    obtain ⟨c, n, v⟩ := u
    by_cases hc : c = .bodyChunk
    · subst hc
      cases v <;> simp [joinChunk, ← hlen, Nat.add_assoc]
    · have hne : ∀ m d, joinChunk ⟨.bodyChunk, m, .buffer d⟩ (⟨c, n, v⟩ :: ts)
          = ⟨.bodyChunk, m, .buffer d⟩ :: ⟨c, n, v⟩ :: ts := by
        intro m d
        simp only [joinChunk]
        split
        · rename_i h _
          exact absurd h hc
        · rfl
      rw [hne, hne]
      simp [joinChunk, ← hlen]

theorem assemble_bytesFrom (p : Nat) (b : UInt8) (bs : Bytes) (es : List Event) :
    assemble (bytesFrom p (b :: bs) ++ es)
      = joinChunk ⟨.bodyChunk, (b :: bs).length, .buffer (b :: bs)⟩ (assemble es) := by
  induction bs generalizing p b with
  | nil => rfl
  | cons c bs ih =>
    rw [bytesFrom, List.cons_append, assemble, ih, joinChunk_joinChunk]

/-- A record can be told from its events as far as a client observes it. -/
theorem observe_eq {log : List (Nat × Token)} (h : ∀ e ∈ log, e.2.WellFormed) :
    observe log = assemble (events log) := by
  induction log with
  | nil => rfl
  | cons e log ih =>
    obtain ⟨p, t⟩ := e
    have ih := ih fun e he => h e (List.mem_cons_of_mem _ he)
    have hev : events ((p, t) :: log) = t.events p ++ events log := rfl
    rw [observe, hev, ih]
    by_cases hskip : t.code = .skip ∨ t.code = .errorInsufficientData
    · have hnil : t.events p = [] := by
        unfold Token.events
        rcases hskip with hc | hc <;> rw [hc]
      rw [if_pos hskip, hnil, List.nil_append]
    · rw [if_neg hskip]
      by_cases hb : t.code = .bodyChunk
      · obtain ⟨b, bs, rfl⟩ := h _ List.mem_cons_self hb
        have hbytes : Token.events p ⟨.bodyChunk, (b :: bs).length, .buffer (b :: bs)⟩
            = bytesFrom p (b :: bs) := rfl
        rw [hbytes, assemble_bytesFrom]
        rfl
      · have hev : t.events p = if t.code.isFatal then [.token p ⟨t.code, 0, .none⟩]
            else [.token p t] := by
          unfold Token.events
          split
          · rename_i hc
            exact absurd (.inl hc) hskip
          · rename_i hc
            exact absurd (.inr hc) hskip
          · rename_i hc _
            exact absurd hc hb
          · rfl
        rw [hev]
        split
        · rfl
        · rw [joinChunk_of_ne hb]
          rfl

/-! ## The tokens of a reader -/

theorem value_eq (mem : Nat → UInt8) (r : Reader σ β ν) :
    r.value mem = tokenValue r.code r.bodySize r.restView r.tokenSize := by
  unfold Reader.value tokenValue Reader.slice
  cases r.code <;> simp only [Detail.decodeFieldValue_eq]

/-- What a reader reports is what the lexer found. -/
theorem token_eq {V : View σ β ν φ} {r r' : Reader σ β ν} {s : Core φ} {n : Nat} {c : Code}
    (mem : Nat → UInt8) (h : Settles V r (.emit s n c) r') :
    r'.token mem = ⟨c, n, tokenValue c s.bodySize r.restView n⟩ := by
  obtain ⟨hcore, rfl, rfl⟩ := h.outcome
  have hsize : r'.bodySize = s.bodySize := by
    rw [← hcore]
    rfl
  rw [Reader.token, value_eq, hsize, h.restView]

theorem wellFormed_token {V : View σ β ν φ} {P : Policy φ} {Legal : Core φ → Prop}
    {r r' : Reader σ β ν} {s : Core φ} {b : Bool} (mem : Nat → UInt8) (hP : P.Keeps Legal)
    (hs : Legal s) (h : Settles V r (P.lex b s r.restView) r') : (r'.token mem).WellFormed := by
  intro hc
  change r'.code = .bodyChunk at hc
  have hlex := h.emit_of_code hP hs (by rw [hc]; rfl)
  rw [hlex] at h
  rw [hc] at hlex
  have hn := hP.chunk hs hlex
  have hlen : (r.restView.take r'.tokenSize).length = r'.tokenSize := by
    rw [List.length_take, Nat.min_eq_left (lex_le hlex)]
  rw [token_eq mem h, hc]
  -- a chunk has a byte
  cases hw : r.restView.take r'.tokenSize with
  | nil =>
    rw [hw] at hlen
    exact absurd hlen.symm hn
  | cons b bs =>
    refine ⟨b, bs, ?_⟩
    rw [← hw, hlen]
    rfl

end BoostHttp
