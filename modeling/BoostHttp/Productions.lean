import BoostHttp.Grammar
import BoostHttp.Observe
import BoostHttp.Order

/-!
# Productions — what the tokens carry

Whether a stream is well-formed or not, each token that is reported is one of the grammar: its value
is made of the characters of its production, and its numbers are in range.
-/

open Incremental

namespace BoostHttp

def Value.Spells (x : Value) (A : UInt8 → Prop) (n : Nat) : Prop :=
  ∃ v, x = .view v ∧ v.length = n ∧ ∀ c ∈ v, A c

def Token.Produced (t : Token) : Prop :=
  match t.code with
  | .method | .fieldName | .trailerName => t.size ≠ 0 ∧ t.value.Spells (· ∈ Alphabet.token) t.size
  | .requestTarget => t.size ≠ 0 ∧ t.value.Spells (· ∈ Alphabet.target) t.size
  | .reasonPhrase => t.value.Spells (isText ·) t.size
  | .fieldValue | .trailerValue => ∃ n, n ≤ t.size ∧ t.value.Spells (isText ·) n
  | .version => t.size = 1 ∧ ∃ n : Nat, n ≤ 9 ∧ t.value = .version n
  | .statusCode => t.size = 3 ∧ ∃ n < 1000, t.value = .statusCode n
  | .chunkExt => t.size ≠ 0 ∧ ∃ n < 2 ^ 64, ∃ v, t.value = .chunkExt n v ∧ v.length = t.size ∧
      ∀ c ∈ v, isText c = true
  | .bodyChunk => t.size ≠ 0 ∧ ∃ v, t.value = .buffer v ∧ v.length = t.size
  | _ => t.value = .none

def Value.text : Value → Bytes
  | .view v | .chunkExt _ v => v
  | _ => []

/-- The characters of all productions are those of texts. -/
theorem isText_of_token : ∀ c ∈ Alphabet.token, isText c = true := by decide +kernel

theorem isText_of_target : ∀ c ∈ Alphabet.target, isText c = true := by decide +kernel

/-- The text of a token of the grammar. -/
theorem Token.Produced.isText {t : Token} (h : t.Produced) : ∀ c ∈ t.value.text, isText c = true := by
  obtain ⟨code, n, x⟩ := t
  intro c hc
  dsimp only at hc
  cases code <;> simp only [Produced] at h
  case method | fieldName | trailerName =>
    obtain ⟨-, v, rfl, -, hclass⟩ := h
    exact isText_of_token c (hclass c hc)
  case requestTarget =>
    obtain ⟨-, v, rfl, -, hclass⟩ := h
    exact isText_of_target c (hclass c hc)
  case reasonPhrase =>
    obtain ⟨v, rfl, -, hclass⟩ := h
    exact hclass c hc
  case fieldValue | trailerValue =>
    obtain ⟨-, -, v, rfl, -, hclass⟩ := h
    exact hclass c hc
  case chunkExt =>
    obtain ⟨-, k, -, v, rfl, -, hclass⟩ := h
    exact hclass c hc
  case version =>
    obtain ⟨-, k, -, rfl⟩ := h
    cases hc
  case statusCode =>
    obtain ⟨-, k, -, rfl⟩ := h
    cases hc
  case bodyChunk =>
    obtain ⟨-, v, rfl, -⟩ := h
    cases hc
  all_goals
    subst h
    cases hc

section Lex

variable {φ : Type} {P : Policy φ} {Legal : Core φ → Prop} {b : Bool} {s s' : Core φ}
  {w raw : Bytes} {n : Nat} {code : Code}

theorem spells_of_spanned {pr : UInt8 → Bool} {A : UInt8 → Prop} {good : Nat → UInt8 → Bool}
    (hA : ∀ c, pr c = true → A c) (h : spanned pr good w = .ok n) :
    (Value.view (w.take n)).Spells A n := by
  obtain ⟨_, _, -, hclass, -, -, hlen⟩ := spanned_ok h
  exact ⟨_, rfl, hlen, fun c hc => hA c (hclass c hc)⟩

theorem ne_zero_of_spanned {pr : UInt8 → Bool} (h : spanned pr (fun n _ => n != 0) w = .ok n) :
    n ≠ 0 := by
  obtain ⟨_, _, -, -, -, hgood, -⟩ := spanned_ok h
  simpa using hgood

/-- A value is a part of its token. -/
theorem spells_trimTail {good : Nat → UInt8 → Bool}
    (h : spanned Syntax.isFieldValueChar good w = .ok n) :
    ∃ k, k ≤ n ∧ (Value.view (Detail.trimTail (w.take n))).Spells (isText ·) k := by
  obtain ⟨_, _, -, hclass, -, -, hlen⟩ := spanned_ok h
  have hinitial : Detail.trimTail (w.take n) <+: w.take n := by
    cases w.take n with
    | nil => exact List.nil_prefix
    | cons a v => exact (List.prefix_cons_inj a).mpr (List.rdropWhile_prefix _ _)
  exact ⟨_, hinitial.length_le.trans_eq hlen, _, rfl, rfl, fun c hc =>
    (isFieldValueChar_eq c).symm.trans (hclass c (hinitial.subset hc))⟩

/-- A digit is the version that it stands for. -/
theorem version_of_fixed (h : fixed 1 (·.all Syntax.isDigit) w = .ok n) :
    n = 1 ∧ ∃ k : Nat, k ≤ 9 ∧ ((w.headD 0).toNat : Int) - 0x30 = k := by
  obtain ⟨rfl, hlen, hall⟩ := fixed_ok h
  refine ⟨rfl, ?_⟩
  cases w with
  | nil => cases hlen
  | cons c w =>
    have hc : 48 ≤ c.toNat ∧ c.toNat ≤ 57 := by
      simpa [Syntax.isDigit, UInt8.le_iff_toNat_le] using hall
    refine ⟨c.toNat - 48, by omega, ?_⟩
    rw [List.headD_cons]
    omega

/-- Three digits are a status code. -/
theorem status_of_fixed (h : fixed 3 (·.all Syntax.isDigit) w = .ok n) :
    n = 3 ∧ (Syntax.statusCodeDecode (w.take n)).toOption.getD 0 < 1000 := by
  obtain ⟨rfl, hlen, hall⟩ := fixed_ok h
  refine ⟨rfl, ?_⟩
  match w, hlen with
  | a :: b :: c :: w, _ =>
    have hdigits : (48 ≤ a.toNat ∧ a.toNat ≤ 57) ∧ (48 ≤ b.toNat ∧ b.toNat ≤ 57) ∧
        48 ≤ c.toNat ∧ c.toNat ≤ 57 := by
      simpa [Syntax.isDigit, UInt8.le_iff_toNat_le, and_assoc] using hall
    simp only [List.take_succ_cons, List.take_zero, Syntax.statusCodeDecode, Except.toOption,
      Option.getD_some]
    rw [Int.emod_eq_of_lt (by omega) (by omega)]
    omega

/-- The size of a chunk is in range where its extension may come. -/
def Bounded (s : Core φ) : Prop := s.phase = .chunkExt → s.bodySize < 2 ^ 64

theorem Bounded.goto {q : Phase} (h : Bounded s) (hq : s.phase.Resolves q) : Bounded (s.goto q) := by
  obtain ⟨p, f, k⟩ := s
  cases hq <;> first | exact h | (intro hp; cases hp)

/-- The lexemes are those of the grammar. -/
theorem produced_lexeme (hP : P.Orderly) (hs : Bounded s) (hn : s.phase = .chunkExt → n ≠ 0)
    (hscan : s.phase.scan w = .ok n) (h : P.accept s (w.take n) = .ok (s', code)) :
    Token.Produced ⟨code, n, tokenValue code s'.bodySize w n⟩ ∧ Bounded s' := by
  unfold Policy.accept at h
  unfold Bounded at hs
  cases hp : s.phase <;> rw [hp] at hs hn hscan h <;> simp only [Phase.scan] at hscan h
  case method | trailerName =>
    cases h
    exact ⟨⟨ne_zero_of_spanned hscan, spells_of_spanned (fun c => (isTchar_iff c).mp) hscan⟩,
      by rintro ⟨⟩⟩
  case requestTarget =>
    cases h
    exact ⟨⟨ne_zero_of_spanned hscan,
      spells_of_spanned (fun c => (isRequestTargetChar_iff c).mp) hscan⟩, by rintro ⟨⟩⟩
  case reasonPhrase =>
    cases h
    exact ⟨spells_of_spanned (fun c => (isReasonPhraseChar_eq c).symm.trans) hscan, by rintro ⟨⟩⟩
  case fieldName =>
    split at h <;> cases h
    exact ⟨⟨ne_zero_of_spanned hscan, spells_of_spanned (fun c => (isTchar_iff c).mp) hscan⟩,
      by rintro ⟨⟩⟩
  case fieldValue =>
    split at h <;> cases h
    exact ⟨spells_trimTail hscan, by rintro ⟨⟩⟩
  case trailerValue =>
    cases h
    exact ⟨spells_trimTail hscan, by rintro ⟨⟩⟩
  case requestVersion | responseVersion =>
    cases h
    obtain ⟨hone, k, hk, hd⟩ := version_of_fixed hscan
    exact ⟨⟨hone, k, hk, congrArg Value.version hd⟩, by rintro ⟨⟩⟩
  case statusCode =>
    cases h
    obtain ⟨hthree, hlt⟩ := status_of_fixed hscan
    exact ⟨⟨hthree, _, hlt, rfl⟩, by rintro ⟨⟩⟩
  case crlfAfterHeaders =>
    split at h <;> cases h
    rename_i f q hq
    refine ⟨rfl, fun hp => ?_⟩
    rcases hP.headers hq with rfl | rfl | rfl | rfl <;> cases hp
  case chunkSize =>
    split at h <;> cases h
    rename_i k hk
    obtain ⟨-, -, hlt, rfl⟩ := Syntax.of_decode_ok Syntax.hexadecimal hk
    exact ⟨rfl, fun _ => hlt⟩
  case chunkExt =>
    cases h
    obtain ⟨_, _, -, hclass, -, -, hlen⟩ := spanned_ok hscan
    exact ⟨⟨hn rfl, _, hs rfl, _, rfl, hlen,
      fun c hc => (isChunkExtChar_eq c).symm.trans (hclass c hc)⟩, by rintro ⟨⟩⟩
  case crlfAfterChunkExt =>
    split at h <;> cases h <;> exact ⟨rfl, by rintro ⟨⟩⟩
  case crlfAfterTrailers =>
    cases h
    refine ⟨rfl, fun hp => ?_⟩
    rcases hP.trailersEnd s.framing with h | h <;> rw [h] at hp <;> cases hp
  all_goals
    cases h
    try exact ⟨rfl, by rintro ⟨⟩⟩

/-- Only the bytes of a token matter to its value. -/
theorem tokenValue_congr {x : Bytes} {k : Nat} (h : w.take n = x.take n) (hn : n ≠ 0 ∨ code ≠ .version) :
    tokenValue code k w n = tokenValue code k x n := by
  cases code <;> simp only [tokenValue, h]
  case version =>
    have hhead : ∀ y : Bytes, y.headD 0 = (y.take n).headD 0 := by
      intro y
      cases n with
      | zero => simp at hn
      | succ n => cases y <;> rfl
    rw [hhead w, hhead x, h]

/-- An extension that comes to nothing is no token. -/
theorem ne_zero_of_chunkExt (hp : s.phase = .chunkExt) (h : P.lex b s w = .emit s' n code) : n ≠ 0 := by
  obtain ⟨c, x, rfl, hscan, -⟩ := of_lex_lexeme (by rw [hp]; rfl) (by simp [hp])
    (fun c => by rw [hp, Phase.resolve]; split <;> rfl) List.prefix_rfl h
  rw [hp, Phase.resolve] at hscan
  rintro rfl
  by_cases hc : c = CR
  · simp only [if_pos hc, Phase.scan] at hscan
    obtain ⟨hsize, -⟩ := fixed_ok hscan
    cases hsize
  · simp only [if_neg hc, Phase.scan] at hscan
    obtain ⟨d, y, hw, -, -, hgood, -⟩ := spanned_ok hscan
    obtain ⟨rfl, -⟩ := List.cons.inj hw
    exact hc (by simpa using hgood)

/-- Every token of the lexer is one of the grammar. -/
theorem produced_of_lex (hP : P.Keeps Legal) (ho : P.Orderly) (hl : Legal s) (hs : Bounded s)
    (h : P.lex b s w = .emit s' n code) :
    Token.Produced ⟨code, n, tokenValue code s'.bodySize w n⟩ ∧ Bounded s' := by
  have hlen : (w.take n).length = n := by rw [List.length_take, Nat.min_eq_left (lex_le h)]
  obtain ⟨q, hq, he⟩ := emits_of_lex h
  have hn : (s.goto q).phase = .chunkExt → n ≠ 0 := by
    rintro rfl
    refine ne_zero_of_chunkExt ?_ h
    generalize s.phase = p at hq
    cases hq
    rfl
  have hsq := hs.goto hq
  generalize hraw : w.take n = raw at he
  cases he with
  | @lexeme _ x m _ _ _ hscan hacc =>
    have hm : (x.take m).length = m := by
      rw [List.length_take, Nat.min_eq_left ((Phase.stable_scan _).le hscan)]
    have hnm : n = m := by rw [← hlen, hraw, hm]
    subst hnm
    obtain ⟨hproduced, hbounded⟩ := produced_lexeme ho hsq hn hscan hacc
    refine ⟨?_, hbounded⟩
    rwa [tokenValue_congr hraw]
    by_cases hc : code = .version
    · left
      rintro rfl
      subst hc
      exact absurd hproduced.1 (by simp)
    · exact .inr hc
  | colon hv hp _ hq' =>
    refine ⟨rfl, fun hp' => ?_⟩
    rcases hv with ⟨-, rfl, rfl⟩ | ⟨-, rfl, rfl⟩ <;> rcases hq' with rfl | rfl <;> cases hp'
  | ows hv hp _ =>
    refine ⟨rfl, fun hp' => ?_⟩
    rw [hp] at hp'
    rcases hv with ⟨-, rfl, -⟩ | ⟨-, rfl, -⟩ <;> cases hp'
  | body hb hp _ _ =>
    refine ⟨⟨hP.chunk hl h, _, rfl, hlen⟩, fun hp' => ?_⟩
    unfold Core.deliver at hp'
    rcases hb with ⟨rfl, rfl⟩ | ⟨rfl, rfl⟩ <;> (split at hp' <;> simp_all)
  | unsafeBody hp _ =>
    refine ⟨⟨hP.chunk hl h, _, rfl, hlen⟩, fun hp' => ?_⟩
    rw [hp] at hp'
    cases hp'
  | closed hp | endOfBody hp => exact ⟨rfl, by rintro ⟨⟩⟩
  | endOfMessage hp =>
    refine ⟨rfl, fun hp' => ?_⟩
    rcases ho.messageEnd (s.goto q).framing with h | h | h <;> rw [h] at hp' <;> cases hp'

end Lex

/-! ## Sessions -/

namespace Session

variable {σ β ν κ φ : Type} {A : Api σ β ν κ} {mem : Nat → UInt8} {S : Bytes} {V : View σ β ν φ}
  {P : Policy φ} {Legal : Core φ → Prop} {s : Session σ β ν κ} {r' : Reader σ β ν}

structure Produces (V : View σ β ν φ) (s : Session σ β ν κ) : Prop where
  tokens : ∀ e ∈ s.emitted, e.2.Produced
  bounded : V.phase s.reader.state ≠ .errored → Bounded (V.core s.reader)

theorem Produces.report (hA : A.Lawful V P Legal) (ho : P.Orderly) (ht : Tracks V Legal S s)
    (hs : Produces V s) (he : V.phase s.reader.state ≠ .errored)
    (hout : Settles V s.reader.consume
      (P.lex (V.eof s.reader.connection) (V.core s.reader) s.reader.consume.restView) r') :
    Produces V (s.pass.report mem r') := by
  have hlegal := ht.sound.legal he
  have hkeeps := hA.implements.keeps
  have hadd : (r'.token mem).Produced → (V.phase r'.state ≠ .errored → Bounded (V.core r')) →
      Produces V (s.pass.report mem r') := by
    intro htoken hbounded
    refine ⟨fun e hmem => ?_, hbounded⟩
    change e ∈ s.pass.emitted ++ [(s.pass.consumed, r'.token mem)] at hmem
    rw [pass_emitted] at hmem
    rcases List.mem_append.mp hmem with h | h
    · exact hs.tokens e h
    · rw [List.mem_singleton.mp h]
      exact htoken
  -- a token without a value
  have hnone : r'.code.isError = true → (r'.token mem).Produced := by
    intro hc
    rw [Reader.token, value_eq]
    revert hc
    cases r'.code <;> intro hc <;> first | rfl | cases hc
  cases hlex : P.lex (V.eof s.reader.connection) (V.core s.reader) s.reader.consume.restView with
  | need s' =>
    rw [hlex] at hout
    obtain ⟨hcore, hcode, -⟩ := hout.outcome
    refine hadd (hnone (by rw [hcode]; rfl)) fun _ => ?_
    rw [hcore]
    obtain ⟨-, ⟨-, rfl⟩ | ⟨c, x, -, rfl⟩⟩ := of_lex_need hlex
    · exact hs.bounded he
    · exact (hs.bounded he).goto (Phase.resolves_resolve _ c)
  | emit s' n c =>
    rw [hlex] at hout
    obtain ⟨htoken, hbounded⟩ := produced_of_lex hkeeps ho hlegal (hs.bounded he) hlex
    refine hadd ?_ fun _ => ?_
    · rw [token_eq mem hout]
      exact htoken
    · rw [hout.outcome.1]
      exact hbounded
  | fail c =>
    have hf := hkeeps.fail hlegal hlex
    rw [hlex] at hout
    obtain ⟨hphase, hcode⟩ := hout.outcome
    refine hadd (hnone ?_) fun h => absurd hphase h
    rw [hcode]
    cases c <;> first | rfl | cases hf

end Session

theorem Request.play_produces {mem : Nat → UInt8} {S : Bytes} {ops : List (Op Empty)}
    (version : Version) (bodySize : Nat)
    (h : (session mem S).conforming (fresh version bodySize) ops = true) :
    ∃ s, (session mem S).play (fresh version bodySize) ops = .ok s ∧
      Session.Tracks view Legal S s ∧ Session.Produces view s := by
  refine Session.play_induction (lawful mem) ?_ ?_ ?_ (tracks_fresh version bodySize S)
    ⟨by simp [fresh, Session.start], fun _ hp => by cases hp⟩ h
  · intro s r' ht hs he _ _ hout _
    exact hs.report (lawful mem) orderly ht he hout
  · intro s size _ hs _ _
    exact ⟨hs.tokens, hs.bounded⟩
  · intro s c
    exact c.elim

theorem Response.play_produces {mem : Nat → UInt8} {S : Bytes} {ops : List (Op Call)} (bodySize : Nat)
    (h : (session mem S).conforming (fresh bodySize) ops = true) :
    ∃ s, (session mem S).play (fresh bodySize) ops = .ok s ∧ Session.Tracks view Legal S s ∧
      Session.Produces view s := by
  refine Session.play_induction (lawful mem) ?_ ?_ ?_ (tracks_fresh bodySize S)
    ⟨by simp [fresh, Session.start], fun _ hp => by cases hp⟩ h
  · intro s r' ht hs he _ _ hout _
    exact hs.report (lawful mem) orderly ht he hout
  · intro s size _ hs _ _
    exact ⟨hs.tokens, hs.bounded⟩
  · intro s c r' ht hs hc _ hcall
    cases c with
    | puteof =>
      cases hcall
      exact ⟨hs.tokens, hs.bounded⟩
    | setMethod method =>
      -- behind a status code there is no chunk
      have hcode : s.reader.code = .statusCode := by simpa [api] using hc
      have hp : s.reader.state.phase = .spAfterStatusCode := (ht.sound.status hcode).1
      have hcall : setMethod s.reader method = .ok r' := hcall
      rw [setMethod_eq method ht.sound hcode] at hcall
      cases hcall
      refine ⟨hs.tokens, fun _ hchunk => ?_⟩
      have hchunk : s.reader.state.phase = .chunkExt := hchunk
      rw [hp] at hchunk
      cases hchunk

/-- However a client drives a reader, whatever the stream holds, each token that is reported is one
of the grammar, and no text that it carries holds a line end or another control character but the
tabulator. -/
theorem tokens_produced (mem : Nat → UInt8) (S : Bytes) :
    (∀ version bodySize ops,
      (Request.session mem S).conforming (Request.fresh version bodySize) ops = true →
      ∃ s, (Request.session mem S).play (Request.fresh version bodySize) ops = .ok s ∧
        ∀ e ∈ s.emitted, e.2.Produced ∧ ∀ c ∈ e.2.value.text, isText c = true) ∧
    (∀ bodySize ops, (Response.session mem S).conforming (Response.fresh bodySize) ops = true →
      ∃ s, (Response.session mem S).play (Response.fresh bodySize) ops = .ok s ∧
        ∀ e ∈ s.emitted, e.2.Produced ∧ ∀ c ∈ e.2.value.text, isText c = true) := by
  constructor
  · intro version bodySize ops h
    obtain ⟨s, hplay, -, hs⟩ := Request.play_produces version bodySize h
    exact ⟨s, hplay, fun e he => ⟨hs.tokens e he, (hs.tokens e he).isText⟩⟩
  · intro bodySize ops h
    obtain ⟨s, hplay, -, hs⟩ := Response.play_produces bodySize h
    exact ⟨s, hplay, fun e he => ⟨hs.tokens e he, (hs.tokens e he).isText⟩⟩

/-- A request whose second field is none, and a response with a control character in its reason
phrase. -/
theorem tokens_produced_malformed :
    (∃ s, (Request.session (fun _ => 0) (ascii "GET / HTTP/1.0\na:b\n c:d\n\n")).play
        (Request.fresh .http10 0) (.setBuffer 25 :: List.replicate 14 .next) = .ok s ∧
      ∀ e ∈ s.emitted, e.2.Produced ∧ ∀ c ∈ e.2.value.text, isText c = true) ∧
    (∃ s, (Response.session (fun _ => 0) (ascii "HTTP/1.1 200 O\x07K\r\n")).play (Response.fresh 0)
        (List.flatten [[.setBuffer 18], List.replicate 3 .next,
          [.call (.setMethod (ascii "GET"))], List.replicate 5 .next]) = .ok s ∧
      ∀ e ∈ s.emitted, e.2.Produced ∧ ∀ c ∈ e.2.value.text, isText c = true) :=
  ⟨(tokens_produced (fun _ => 0) (ascii "GET / HTTP/1.0\na:b\n c:d\n\n")).1 .http10 0 _
      (by decide +kernel),
    (tokens_produced (fun _ => 0) (ascii "HTTP/1.1 200 O\x07K\r\n")).2 0 _ (by decide +kernel)⟩

end BoostHttp
