import BoostHttp.Bodies

/-!
# Truncation — an unfinished chunked body is not taken for a finished one

While a chunked body is read, the bytes behind the head are some chunks and a part of another one.
The end of the body is reported only after a last chunk.
-/

open Incremental

namespace BoostHttp

variable {φ : Type}

structure IsSize (size : Bytes) (n : Nat) : Prop where
  ne : size ≠ []
  digits : ∀ c ∈ size, c ∈ Alphabet.hexDigits
  value : Syntax.base16 size = n
  lt : n < 2 ^ 64

/-- The part `y` of a chunk that has been read before the lexer came to the state `s`, with `rest`
still to come. -/
def Piece (s : Core φ) (rest y : Bytes) : Prop :=
  match s.phase with
  | .chunkSize => y = []
  | .chunkExt => IsSize y s.bodySize ∧ ∀ d ∈ rest.head?, d ∉ Alphabet.hexDigits
  | .crlfAfterChunkExt => ∃ size x, IsSize size s.bodySize ∧ y = size ++ ChunkExt.bytes x
  | .chunkData => ∃ size x data, IsSize size (data.length + s.bodySize) ∧ s.bodySize ≠ 0 ∧
      y = size ++ (ChunkExt.bytes x ++ (CRLF ++ data))
  | .crlfAfterChunkData => ∃ size x data, IsSize size data.length ∧ data ≠ [] ∧
      y = size ++ (ChunkExt.bytes x ++ (CRLF ++ data))
  | _ => False

def Unfinished (S : Bytes) (c p : Nat) (s : Core φ) : Prop :=
  ∃ (ks : List Chunk) (y : Bytes), S.drop c = ks.flatMap Chunk.bytes ++ (y ++ S.drop p) ∧
    Piece s (S.drop p) y

def HasLastChunk (w : Bytes) : Prop :=
  ∃ (ks : List Chunk) (l : LastChunk) (rest : Bytes), w = ks.flatMap Chunk.bytes ++ (l.bytes ++ rest)

section Step

variable {P : Policy φ} {b : Bool} {S w : Bytes} {c p n : Nat} {s s' : Core φ} {code : Code}

theorem isSize_of_decode {raw : Bytes} {out k : Nat}
    (h : Syntax.chunkSizeDecode 64 raw out = (.ok, k)) : IsSize raw k := by
  obtain ⟨⟨hne, hdigits, hlt⟩, rfl⟩ := Syntax.chunkSize_ok_iff.mp h
  exact ⟨hne, hdigits, rfl, hlt⟩

/-- A size of zero is written with zeros. -/
theorem IsSize.zeros {size : Bytes} (h : IsSize size 0) : ∀ c ∈ size, c = 0x30 := by
  intro c hc
  have hall := (Syntax.allDigits_hexadecimal _).mpr h.digits
  by_contra hne
  -- without its leading zeros the numeral still has a digit
  have hdrop : size.dropWhile (· == 0x30) ≠ [] := by
    intro hnil
    have hz := List.dropWhile_eq_nil_iff.mp hnil c hc
    exact hne (by simpa using hz)
  have hlast : Syntax.hexadecimal.digitOf ((size.dropWhile (· == 0x30)).reverse.getLast
      (by simpa using hdrop)) ≠ some 0 := by
    intro hd
    have h0 := Syntax.hexadecimal.eq_of_digitOf_zero hd
    rw [List.getLast_reverse] at h0
    have hnot := List.head_dropWhile_not (· == 0x30) hdrop
    rw [h0] at hnot
    cases hnot
  have hpos := Syntax.hexadecimal.ofDigits_pos (by simpa using hdrop) hlast fun a ha =>
    hall a (List.dropWhile_subset _ (List.mem_reverse.mp ha))
  have hval := Syntax.hexadecimal.value_dropWhile size
  rw [Syntax.value_eq_base16 h.digits, h.value] at hval
  unfold Syntax.Radix.value at hval
  omega

/-- Reading `raw` extends the part of the chunk that has been read. -/
theorem Unfinished.extend {raw : Bytes} (h : Unfinished S c p s) (hn : (S.drop p).take n = raw)
    (hpiece : ∀ y, Piece s (S.drop p) y → Piece s' (S.drop (p + n)) (y ++ raw)) :
    Unfinished S c (p + n) s' := by
  obtain ⟨ks, y, hS, hy⟩ := h
  refine ⟨ks, y ++ raw, ?_, hpiece y hy⟩
  rw [hS, ← List.drop_drop, List.append_assoc, ← hn, List.take_append_drop]

/-- A phase that turns out to be another one does not change what has been read. -/
theorem Unfinished.resolve (h : Unfinished S c p s) (d : UInt8) :
    Unfinished S c p (s.goto (s.phase.resolve d)) := by
  obtain ⟨ks, y, hS, hy⟩ := h
  refine ⟨ks, y, hS, ?_⟩
  cases hp : s.phase <;> simp only [Piece, hp] at hy
  case chunkExt =>
    by_cases hd : d = CR
    · simp only [Phase.resolve, if_pos hd, Piece, Core.goto_phase, Core.goto_bodySize]
      exact ⟨y, ⟨[], by simp, by simp⟩, hy.1, (List.append_nil y).symm⟩
    · simp only [Phase.resolve, if_neg hd, Piece, Core.goto_phase, Core.goto_bodySize]
      exact hy
  all_goals simp only [Phase.resolve, Piece, Core.goto_phase, Core.goto_bodySize]; exact hy

theorem Unfinished.phase (h : Unfinished S c p s) :
    s.phase.isZeroSized = false ∧ s.phase ≠ .unsafeBody := by
  obtain ⟨ks, y, -, hy⟩ := h
  unfold Piece at hy
  split at hy
  all_goals first | exact hy.elim | (rename_i hp; rw [hp]; exact ⟨rfl, nofun⟩)

theorem step_chunkSize (hp : s.phase = .chunkSize) (h : Unfinished S c p s)
    (hw : w <+: S.drop p) (hlex : P.lex b s w = .emit s' n code) :
    code = .skip ∧ Unfinished S c (p + n) s' := by
  obtain ⟨d, x, -, hscan, hacc⟩ := of_lex_lexeme (by rw [hp]; rfl) (by rw [hp]; nofun)
    (fun d => by rw [hp]; rfl) hw hlex
  simp only [hp, Phase.resolve, Phase.scan] at hscan hacc
  obtain ⟨a, z, hW, hchars, ha, -, hlen⟩ := spanned_ok hscan
  simp only [Policy.accept, Core.goto_phase, Core.goto_bodySize] at hacc
  split at hacc
  · rename_i k hk
    rw [Except.ok.injEq, Prod.mk.injEq] at hacc
    obtain ⟨rfl, rfl⟩ := hacc
    refine ⟨rfl, h.extend rfl fun y hy => ?_⟩
    simp only [Piece, hp] at hy ⊢
    rw [hy, List.nil_append]
    -- the byte that ends the numeral is no digit, so all of the digits have been read
    refine ⟨isSize_of_decode hk, fun e he => ?_⟩
    rw [← List.drop_drop, hW, List.drop_left' hlen] at he
    cases he
    simpa [← isHexdigit_iff] using ha
  · cases hacc
  · cases hacc

theorem step_chunkExt (hp : s.phase = .chunkExt) (hres : ∀ d ∈ (S.drop p).head?, d ≠ CR)
    (h : Unfinished S c p s) (hw : w <+: S.drop p) (hlex : P.lex b s w = .emit s' n code) :
    code = .chunkExt ∧ Unfinished S c (p + n) s' := by
  obtain ⟨d, x, hd, hscan, hacc⟩ := of_lex_lexeme (by rw [hp]; rfl) (by rw [hp]; nofun)
    (fun d => by rw [hp]; simp only [Phase.resolve]; split <;> rfl) hw hlex
  have hne : d ≠ CR := hres d (by rw [hd]; rfl)
  simp only [hp, Phase.resolve, if_neg hne, Phase.scan, Policy.accept, Core.goto_phase,
    Except.ok.injEq, Prod.mk.injEq] at hscan hacc
  obtain ⟨a, z, hW, hchars, ha, -, hlen⟩ := spanned_ok hscan
  obtain ⟨rfl, rfl⟩ := hacc
  refine ⟨rfl, h.extend rfl fun y hy => ?_⟩
  simp only [Piece, hp] at hy
  refine ⟨y, ⟨(S.drop p).take n, fun e he => (isChunkExtChar_eq e).symm.trans (hchars e he),
    fun e he => hy.2 e ?_⟩, hy.1, rfl⟩
  -- the first byte of the extension is the byte behind the size
  rw [hW]
  cases htake : (S.drop p).take n with
  | nil =>
    rw [htake] at he
    cases he
  | cons e' t =>
    rw [htake] at he
    cases he
    rfl

theorem take_crlf {q : Phase} {W : Bytes} (hq : q.scan = fixed 2 (· == CRLF))
    (h : q.scan W = .ok n) : n = 2 ∧ W.take n = CRLF := by
  rw [hq] at h
  obtain ⟨rfl, -, hcrlf⟩ := fixed_ok h
  exact ⟨rfl, eq_of_beq hcrlf⟩

theorem step_crlfAfterChunkExt (hp : s.phase = .crlfAfterChunkExt) (h : Unfinished S c p s)
    (hw : w <+: S.drop p) (hlex : P.lex b s w = .emit s' n code) :
    code = .skip ∧ Unfinished S c (p + n) s' ∨ code = .endOfBody ∧ HasLastChunk (S.drop c) := by
  obtain ⟨d, x, hd, hscan, hacc⟩ := of_lex_lexeme (by rw [hp]; rfl) (by rw [hp]; nofun)
    (fun d => by rw [hp]; rfl) hw hlex
  rw [hp] at hscan hacc
  obtain ⟨-, hcrlf⟩ := take_crlf (q := .crlfAfterChunkExt) rfl hscan
  change (if s.bodySize ≠ 0 then Except.ok (s.goto .chunkData, Code.skip)
    else .ok (s.goto .trailerName, .endOfBody)) = .ok (s', code) at hacc
  -- a chunk with data goes on; the chunk of size zero is what had to be found
  split at hacc
  · rename_i hne
    cases hacc
    refine .inl ⟨rfl, h.extend hcrlf fun y hy => ?_⟩
    simp only [Piece, hp] at hy
    obtain ⟨size, x, hsize, rfl⟩ := hy
    refine ⟨size, x, [], ?_, hne, by simp⟩
    rw [List.length_nil, Nat.zero_add]
    exact hsize
  · rename_i hz
    cases hacc
    obtain ⟨ks, y, hS, hy⟩ := h
    simp only [Piece, hp] at hy
    obtain ⟨size, x, hsize, rfl⟩ := hy
    rw [not_not.mp hz] at hsize
    refine .inr ⟨rfl, ks, ⟨size, x, hsize.ne, hsize.zeros⟩, S.drop (p + n), ?_⟩
    have hW : S.drop p = CRLF ++ S.drop (p + n) := by
      rw [← hcrlf, ← List.drop_drop, List.take_append_drop]
    rw [hS, hW]
    simp [LastChunk.bytes]

theorem step_chunkData (hp : s.phase = .chunkData) (h : Unfinished S c p s)
    (hw : w <+: S.drop p) (hlex : P.lex b s w = .emit s' n code) :
    code = .bodyChunk ∧ Unfinished S c (p + n) s' := by
  have hne : w ≠ [] := by
    rintro rfl
    exact lex_nil_ne_emit (by rw [hp]; rfl) (by rw [hp]; nofun) hlex
  have hn := lex_le hlex
  rw [lex_body (.inr ⟨rfl, rfl⟩) hp hne, lexBody] at hlex
  cases hlex
  have hlen : ((S.drop p).take (min w.length s.bodySize)).length = min w.length s.bodySize := by
    have hle := hw.length_le
    rw [List.length_take]
    omega
  refine ⟨rfl, h.extend rfl fun y hy => ?_⟩
  simp only [Piece, hp] at hy
  obtain ⟨size, x, data, hsize, hbody, rfl⟩ := hy
  by_cases hz : s.bodySize - min w.length s.bodySize = 0
  · simp only [Piece, Core.deliver, if_pos hz]
    refine ⟨size, x, data ++ (S.drop p).take (min w.length s.bodySize), ?_, ?_, by simp⟩
    · have hsum : (data ++ (S.drop p).take (min w.length s.bodySize)).length
          = data.length + s.bodySize := by
        rw [List.length_append, hlen]
        omega
      rw [hsum]
      exact hsize
    · intro hnil
      have hl := congrArg List.length hnil
      rw [List.length_append, hlen, List.length_nil] at hl
      omega
  · simp only [Piece, Core.deliver, if_neg hz, hp]
    refine ⟨size, x, data ++ (S.drop p).take (min w.length s.bodySize), ?_, hz, by simp⟩
    have hsum : (data ++ (S.drop p).take (min w.length s.bodySize)).length +
        (s.bodySize - min w.length s.bodySize) = data.length + s.bodySize := by
      rw [List.length_append, hlen]
      omega
    rw [hsum]
    exact hsize

theorem step_crlfAfterChunkData (hp : s.phase = .crlfAfterChunkData) (h : Unfinished S c p s)
    (hw : w <+: S.drop p) (hlex : P.lex b s w = .emit s' n code) :
    code = .skip ∧ Unfinished S c (p + n) s' := by
  obtain ⟨d, x, hd, hscan, hacc⟩ := of_lex_lexeme (by rw [hp]; rfl) (by rw [hp]; nofun)
    (fun d => by rw [hp]; rfl) hw hlex
  rw [hp] at hscan hacc
  obtain ⟨-, hcrlf⟩ := take_crlf (q := .crlfAfterChunkData) rfl hscan
  cases hacc
  refine ⟨rfl, ?_⟩
  obtain ⟨ks, y, hS, hy⟩ := h
  simp only [Piece, hp] at hy
  obtain ⟨size, x, data, hsize, hne, rfl⟩ := hy
  have hW : S.drop p = CRLF ++ S.drop (p + n) := by
    rw [← hcrlf, ← List.drop_drop, List.take_append_drop]
  -- the chunk is complete, and joins the chunks before it
  refine ⟨ks ++ [⟨size, x, data, hsize.ne, hsize.digits, hsize.value, hne, hsize.lt⟩], [], ?_, rfl⟩
  rw [hS, hW]
  simp [Chunk.bytes]

/-- One token of an unfinished body: it is still unfinished, or its last chunk has been read. -/
theorem Unfinished.step (h : Unfinished S c p s) (hw : w <+: S.drop p)
    (hlex : P.lex b s w = .emit s' n code) :
    code ∈ [.skip, .chunkExt, .bodyChunk] ∧ Unfinished S c (p + n) s' ∨
      code = .endOfBody ∧ HasLastChunk (S.drop c) := by
  cases w with
  | nil => exact absurd hlex (lex_nil_ne_emit h.phase.1 h.phase.2)
  | cons d x =>
    rw [← lex_resolve h.phase.1] at hlex
    have hres : (s.goto (s.phase.resolve d)).phase = s.phase.resolve d := rfl
    have hres' : (s.phase.resolve d).resolve d = s.phase.resolve d := Phase.resolve_resolve _ _
    have h' := h.resolve d
    generalize hsr : s.goto (s.phase.resolve d) = sr at hlex hres h'
    rw [← hres] at hres'
    have hhead : ∀ e ∈ (S.drop p).head?, e = d := by
      obtain ⟨z, hz⟩ := hw
      intro e he
      rw [← hz] at he
      cases he
      rfl
    -- a step lemma for each phase of a chunked body, up to the last chunk
    cases hp : sr.phase
    case chunkSize =>
      obtain ⟨rfl, hu⟩ := step_chunkSize hp h' hw hlex
      exact .inl ⟨by simp, hu⟩
    case chunkExt =>
      have hne : ∀ e ∈ (S.drop p).head?, e ≠ CR := by
        intro e he hcr
        rw [hp, ← hhead e he, hcr] at hres'
        cases hres'
      obtain ⟨rfl, hu⟩ := step_chunkExt hp hne h' hw hlex
      exact .inl ⟨by simp, hu⟩
    case crlfAfterChunkExt =>
      rcases step_crlfAfterChunkExt hp h' hw hlex with ⟨rfl, hu⟩ | hlast
      · exact .inl ⟨by simp, hu⟩
      · exact .inr hlast
    case chunkData =>
      obtain ⟨rfl, hu⟩ := step_chunkData hp h' hw hlex
      exact .inl ⟨by simp, hu⟩
    case crlfAfterChunkData =>
      obtain ⟨rfl, hu⟩ := step_crlfAfterChunkData hp h' hw hlex
      exact .inl ⟨by simp, hu⟩
    all_goals
      obtain ⟨_, _, _, hy⟩ := h'
      simp only [Piece, hp] at hy

theorem Unfinished.need (h : Unfinished S c p s) (hlex : P.lex b s w = .need s') :
    Unfinished S c p s' := by
  obtain ⟨-, ⟨-, rfl⟩ | ⟨d, x, -, rfl⟩⟩ := of_lex_need hlex
  · exact h
  · exact h.resolve d

/-- Whatever follows the head, the end of the body, or what comes after it, is observed only if there
is a last chunk. -/
theorem Unfinished.runs {client : Client φ} {j : Nat} {v : List Event} {d : Code}
    (hd : d ∉ [.skip, .chunkExt, .bodyChunk]) (hf : d.isFatal = false)
    (hP : P.FailsWith fun c => c.isFatal = true) (h : Unfinished S c p s)
    (hr : (machine P client).Runs b p (s, j) (S.drop p) v)
    (hv : v.any (Event.shows d) = true) : HasLastChunk (S.drop c) := by
  generalize hw : S.drop p = w at hr
  generalize hst : (s, j) = st at hr
  induction hr generalizing s j with
  | need _ => cases hv
  | fail hstep =>
    obtain ⟨_, _, _, _, hlex, -⟩ := of_runs hf hP (.fail (hst ▸ hstep)) hv
    have hfail := (step_fail_iff.mp hstep).1
    rw [← hst, hlex] at hfail
    cases hfail
  | @emit p _ _ st' n t v' hstep _ ih =>
    subst hst hw
    obtain ⟨hlex, -, -⟩ := step_emit_iff.mp hstep
    rcases h.step List.prefix_rfl hlex with ⟨hcode, h'⟩ | ⟨-, hlast⟩
    · have hne : t.code ≠ d ∧ t.code ≠ .statusCode := by
        refine ⟨fun hc => hd (hc ▸ hcode), fun hc => ?_⟩
        rw [hc] at hcode
        simp at hcode
      have hreact : (machine P client).react t st' = st' := if_neg hne.2
      change (t.events p ++ v').any _ = true at hv
      rw [List.any_append, any_events hne.1, Bool.false_or] at hv
      exact ih h' hv List.drop_drop.symm hreact.symm
    · exact hlast

end Step

end BoostHttp
