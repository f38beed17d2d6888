import BoostHttp.Truncation

/-!
# Outcome — what a framing means for the bytes behind a head

`Framing.Describes` says, for each way to find the end of a body, what is observed of the rest of a
stream; a lexer that starts a body with a framing observes just that.
-/

open Incremental

namespace BoostHttp

def bodyEnd (p : Nat) : List Event :=
  [.token p ⟨.endOfBody, 0, .none⟩, .token p ⟨.endOfMessage, 0, .none⟩]

/-- What is observed of `rest`, from offset `p` on; `b` says that the connection ends with `rest`.

A counted body takes that many bytes; if they are not there, nothing follows.  A chunked body that
is there is read as it was written, and its end is not seen before its last chunk.  A body that ends
with the connection takes all the bytes, and no message can follow it. -/
def Framing.Describes (b : Bool) (F : Framing) (p : Nat) (rest : Bytes) (v : List Event) : Prop :=
  match F with
  | .counted n => ∃ v', v = bytesFrom p (rest.take n) ++ v' ∧ (rest.length < n → v' = []) ∧
      (n ≤ rest.length → bodyEnd (p + n) <+: v')
  | .chunked => (∀ m rest', rest = ChunkedBody.bytes m ++ rest' → m.events p <+: v) ∧
      (v.any (Event.shows .endOfBody) = true → HasLastChunk rest)
  | .untilClose => v = bytesFrom p rest ++
      if b then bodyEnd (p + rest.length) ++
        [.token (p + rest.length) ⟨.errorUseAnotherConnection, 0, .none⟩]
      else []

/-- A fatal error behind events without an end of headers. -/
theorem refused_events {es : List Event} {o : Nat} {c : Code} (hc : c.isFatal = true)
    (hes : es.any Event.isHeadEnd = false) :
    (es ++ Token.events o ⟨c, 0, .none⟩).any Event.isHeadEnd = false ∧
      ∃ d : Code, d.isFatal = true ∧ (es ++ Token.events o ⟨c, 0, .none⟩).any (Event.shows d) = true := by
  have hev : Token.events o ⟨c, 0, .none⟩ = [.token o ⟨c, 0, .none⟩] := by
    cases c <;> first | rfl | cases hc
  have hne : (c == .endOfHeaders) = false := by
    cases c <;> first | rfl | cases hc
  rw [hev]
  refine ⟨?_, c, hc, ?_⟩
  · rw [List.any_append, hes]
    simp [Event.shows, hne]
  · simp [Event.shows]

section Runs

variable {φ : Type} {P : Policy φ} {client : Client φ} {b : Bool} {s : Core φ} {j p n : Nat} {f : φ}
  {rest : Bytes} {v : List Event} {F : Framing}

theorem leads_endOfBody :
    (machine P client).Leads b p (⟨.endOfBody, f, n⟩, j) rest (bodyEnd p) p
      (⟨(P.onMessageEnd f).2, (P.onMessageEnd f).1, n⟩, j) rest := by
  have hbody : (machine P client).Leads b p (⟨.endOfBody, f, n⟩, j) rest
      [.token p ⟨.endOfBody, 0, .none⟩] p (⟨.endOfMessage, f, n⟩, j) rest :=
    leads_of_lex (s := ⟨.endOfBody, f, n⟩) rfl nofun
  have hmessage : (machine P client).Leads b p (⟨.endOfMessage, f, n⟩, j) rest
      [.token p ⟨.endOfMessage, 0, .none⟩] p _ rest :=
    leads_of_lex (s := ⟨.endOfMessage, f, n⟩) rfl nofun
  exact hbody.trans hmessage

/-- A counted body that is not all there is waited for. -/
theorem runs_short (hwaits : b = true → ∀ k, k ≠ 0 → P.waits f k = true) (hn : rest.length < n) :
    (machine P client).Runs b p (⟨.body, f, n⟩, j) rest (bytesFrom p rest) := by
  -- with bytes of the body missing the lexer waits, at the end of the input as well
  have hnil : ∀ q k, k ≠ 0 → (machine P client).Runs b q (⟨.body, f, k⟩, j) [] [] := by
    intro q k hk
    have hlex : P.lex b ⟨.body, f, k⟩ [] = .need ⟨.body, f, k⟩ := by
      rw [lex_nil rfl]
      split
      · rename_i hb
        exact if_pos (hwaits hb k hk)
      · rfl
    have hstep : (machine P client).step b (⟨.body, f, k⟩, j) [] = .need (⟨.body, f, k⟩, j) :=
      step_need_iff.mpr ⟨hlex, rfl⟩
    exact .need hstep
  by_cases hne : rest = []
  · subst hne
    exact hnil p n (by rw [List.length_nil] at hn; omega)
  · have hlex : P.lex b ⟨.body, f, n⟩ rest = _ := lex_body (.inl ⟨rfl, rfl⟩) rfl hne
    have hdeliver : (Core.mk Phase.body f n).deliver .endOfBody rest.length
        = ⟨.body, f, n - rest.length⟩ := by
      simp only [Core.deliver]
      rw [if_neg (by omega)]
    rw [lexBody, Nat.min_eq_left (Nat.le_of_lt hn), hdeliver] at hlex
    rw [runs_bodyChunk hlex, List.take_length, List.drop_length]
    exact ⟨[], (List.append_nil _).symm, hnil _ _ (by omega)⟩

theorem describes_counted (htotal : ∀ p c w, ∃ v, (machine P client).Runs b p c w v)
    (hwaits : b = true → ∀ k, k ≠ 0 → P.waits s.framing k = true)
    (hs : (Framing.counted n).Starts s) (hr : (machine P client).Runs b p (s, j) rest v) :
    (Framing.counted n).Describes b p rest v := by
  obtain ⟨q, f, m⟩ := s
  obtain ⟨hq, hm⟩ := hs
  dsimp only at hq hm hwaits
  -- the body is cut short, empty, or there as a whole
  rcases Nat.lt_or_ge rest.length n with hlt | hge
  · have hn : n ≠ 0 := by omega
    rw [hm n rfl hn, hq, Framing.phase, if_neg hn] at hr
    refine ⟨[], ?_, fun _ => rfl, fun h => absurd hlt (Nat.not_lt.mpr h)⟩
    rw [List.take_of_length_le (Nat.le_of_lt hlt), List.append_nil]
    exact hr.unique (runs_short hwaits hlt)
  · by_cases hn : n = 0
    · subst hn
      rw [hq] at hr
      obtain ⟨v', rfl, -⟩ := leads_endOfBody.split (htotal _ _ _) hr
      exact ⟨bodyEnd p ++ v', rfl, fun h => absurd h (Nat.not_lt_zero _), fun _ => List.prefix_append _ _⟩
    · rw [hm n rfl hn, hq, Framing.phase, if_neg hn] at hr
      have hlen : (rest.take n).length = n := by rw [List.length_take, Nat.min_eq_left hge]
      have hne : rest.take n ≠ [] := by
        intro hnil
        rw [hnil, List.length_nil] at hlen
        exact hn hlen.symm
      have hbody : (machine P client).Leads b p (⟨.body, f, (rest.take n).length⟩, j)
          (rest.take n ++ rest.drop n) _ _ (⟨.endOfBody, f, 0⟩, j) _ :=
        leads_counted (.inl ⟨rfl, rfl⟩) hne
      rw [hlen, List.take_append_drop] at hbody
      obtain ⟨v', rfl, hr'⟩ := hbody.split (htotal _ _ _) hr
      obtain ⟨v'', rfl, -⟩ := leads_endOfBody.split (htotal _ _ _) hr'
      exact ⟨_, rfl, fun h => absurd h (Nat.not_lt.mpr hge), fun _ => List.prefix_append _ _⟩

theorem describes_chunked (htotal : ∀ p c w, ∃ v, (machine P client).Runs b p c w v)
    (hP : P.FailsWith fun c => c.isFatal = true) (hs : Framing.chunked.Starts s)
    (hr : (machine P client).Runs b p (s, j) rest v) : Framing.chunked.Describes b p rest v := by
  obtain ⟨q, f, m⟩ := s
  have hq : q = .chunkSize := hs.phase
  subst hq
  constructor
  · rintro m rest' rfl
    obtain ⟨v', rfl, -⟩ := (leads_chunkedBody m).split (htotal _ _ _) hr
    exact List.prefix_append _ _
  · intro hv
    -- any stream with `rest` at this offset will do
    have hrest : (List.replicate p 0 ++ rest).drop p = rest := List.drop_left' List.length_replicate
    have hstart : Unfinished (List.replicate p 0 ++ rest) p p (⟨.chunkSize, f, m⟩ : Core φ) :=
      ⟨[], [], rfl, rfl⟩
    have hlast := hstart.runs (by decide) rfl hP (hrest.symm ▸ hr) hv
    rwa [hrest] at hlast

/-- What is observed when a body ends with the connection. -/
theorem runs_close (hwaits : P.waits f n = false)
    (hend : (P.onMessageEnd f).2 = .endOfConnectionError) :
    (machine P client).Runs true p (⟨.unsafeBody, f, n⟩, j) []
      (bodyEnd p ++ [.token p ⟨.errorUseAnotherConnection, 0, .none⟩]) := by
  have hclose : P.lex true ⟨.unsafeBody, f, n⟩ [] = .emit ⟨.endOfMessage, f, n⟩ 0 .endOfBody := by
    rw [lex_nil rfl, if_pos rfl, Policy.atEof, hwaits]
    rfl
  have hbody : (machine P client).Leads true p (⟨.unsafeBody, f, n⟩, j) []
      [.token p ⟨.endOfBody, 0, .none⟩] p (⟨.endOfMessage, f, n⟩, j) [] :=
    leads_of_lex hclose (by simp)
  have hmessage : (machine P client).Leads true p (⟨.endOfMessage, f, n⟩, j) []
      [.token p ⟨.endOfMessage, 0, .none⟩] p _ [] :=
    leads_of_lex (s := ⟨.endOfMessage, f, n⟩) rfl (by simp)
  have herror : (machine P client).Runs true p
      (⟨(P.onMessageEnd f).2, (P.onMessageEnd f).1, n⟩, j) []
      [.token p ⟨.errorUseAnotherConnection, 0, .none⟩] := by
    rw [hend]
    have hstep : (machine P client).step true
        (⟨.endOfConnectionError, (P.onMessageEnd f).1, n⟩, j) []
        = .fail ⟨.errorUseAnotherConnection, 0, .none⟩ := rfl
    exact .fail hstep
  exact hbody.trans hmessage _ herror

/-- A body that ends with the connection. -/
theorem describes_untilClose (hs : Framing.untilClose.Starts s)
    (hwaits : P.waits s.framing s.bodySize = false)
    (hend : (P.onMessageEnd s.framing).2 = .endOfConnectionError)
    (hr : (machine P client).Runs b p (s, j) rest v) : Framing.untilClose.Describes b p rest v := by
  obtain ⟨q, f, m⟩ := s
  have hq : q = .unsafeBody := hs.phase
  subst hq
  -- behind the last byte the lexer waits, or closes the body if the input has ended
  have hnil : ∀ q, (machine P client).Runs b q (⟨.unsafeBody, f, m⟩, j) []
      (if b then bodyEnd q ++ [.token q ⟨.errorUseAnotherConnection, 0, .none⟩] else []) := by
    intro q
    cases b with
    | true => exact runs_close hwaits hend
    | false =>
      have hstep : (machine P client).step false (⟨.unsafeBody, f, m⟩, j) []
          = .need (⟨.unsafeBody, f, m⟩, j) := step_need_iff.mpr ⟨rfl, rfl⟩
      exact .need hstep
  refine hr.unique ?_
  by_cases hne : rest = []
  · subst hne
    exact hnil p
  · have hlex : P.lex b ⟨.unsafeBody, f, m⟩ rest = _ := lex_unsafeBody rfl hne
    rw [runs_bodyChunk hlex, List.take_length, List.drop_length]
    exact ⟨_, rfl, hnil _⟩

end Runs

end BoostHttp
