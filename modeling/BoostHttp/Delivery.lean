import BoostHttp.Order
import BoostHttp.Record
import BoostHttp.Truncation

/-!
# Delivery — the bytes of a body reach the client, and a body that is cut off has no end

A body is followed from the end of its head on: what has been reported of it is a part of the stream
from there, and its end is reported when its framing says so.  For a counted body the member
`body_size` is what is still to come; a body that ends with the connection ends with the bytes that
can be seen, and a chunked one behind its last chunk.
-/

open Incremental

namespace BoostHttp

def Unended (log : List (Nat × Token)) : Prop := ∀ e ∈ log, e.2.code ≠ .endOfBody

def firstBody (log : List (Nat × Token)) : Bytes :=
  body (log.takeWhile fun e => e.2.code != .endOfBody)

theorem body_append (a b : List (Nat × Token)) : body (a ++ b) = body a ++ body b :=
  List.flatMap_append

theorem firstBody_of_unended {log : List (Nat × Token)} (h : Unended log) :
    firstBody log = body log := by
  have hall : log.takeWhile (fun e => e.2.code != .endOfBody) = log := by
    rw [List.takeWhile_eq_self_iff]
    intro e he
    simpa using h e he
  rw [firstBody, hall]

theorem firstBody_append {log : List (Nat × Token)} (h : Unended log) {e : Nat × Token}
    (he : e.2.code = .endOfBody) (log' : List (Nat × Token)) :
    firstBody (log ++ e :: log') = body log := by
  have hall : ∀ d ∈ log, (d.2.code != .endOfBody) = true := by
    intro d hd
    simpa using h d hd
  rw [firstBody, List.takeWhile_append_of_pos hall, List.takeWhile_cons_of_neg (by simp [he]),
    List.append_nil]

structure Collects (S : Bytes) (c : Nat) (log : List (Nat × Token)) (p : Nat) : Prop where
  unended : Unended log
  offset : p = c + (body log).length
  bytes : body log <+: S.drop c

namespace Collects

variable {S w : Bytes} {c p n : Nat} {log : List (Nat × Token)}

theorem nil (S : Bytes) (c : Nat) : Collects S c [] c := ⟨nofun, rfl, List.nil_prefix⟩

theorem drop_eq (h : Collects S c log p) : body log ++ S.drop p = S.drop c := by
  obtain ⟨x, hx⟩ := h.bytes
  have hrest : S.drop p = x := by
    rw [h.offset, ← List.drop_drop, ← hx, List.drop_left]
  rw [hrest, hx]

/-- What has been collected when it is `n` bytes. -/
theorem take_eq (h : Collects S c log (c + n)) : body log = (S.drop c).take n := by
  have hn : (body log).length = n := by
    have hoff := h.offset
    omega
  rw [← h.drop_eq, ← hn, List.take_left]

/-- A body chunk adds the bytes it shows. -/
theorem chunk (h : Collects S c log p) (hw : w <+: S.drop p) (hn : n ≤ w.length) (m : Nat) :
    Collects S c (log ++ [(p, ⟨.bodyChunk, n, tokenValue .bodyChunk m w n⟩)]) (p + n) := by
  have hbody : body (log ++ [(p, ⟨.bodyChunk, n, tokenValue .bodyChunk m w n⟩)])
      = body log ++ w.take n := by
    rw [body_append]
    exact congrArg (body log ++ ·) (List.append_nil _)
  refine ⟨?_, ?_, ?_⟩
  · intro e he
    rcases List.mem_append.mp he with he | he
    · exact h.unended e he
    · rw [List.mem_singleton.mp he]
      nofun
  · rw [hbody, List.length_append, List.length_take, Nat.min_eq_left hn, h.offset, Nat.add_assoc]
  · rw [hbody, ← h.drop_eq]
    exact (List.prefix_append_right_inj _).mpr ((List.take_prefix n w).trans hw)

/-- A request for more data adds nothing. -/
theorem wait (h : Collects S c log p) {t : Token} (ht : t.code = .errorInsufficientData) :
    Collects S c (log ++ [(p, t)]) p := by
  have hbody : body (log ++ [(p, t)]) = body log := by
    have hnil : t.body = [] := by
      unfold Token.body
      rw [ht]
    rw [body_append]
    change body log ++ (t.body ++ []) = _
    rw [hnil, List.append_nil, List.append_nil]
  refine ⟨?_, ?_, ?_⟩
  · intro e he
    rcases List.mem_append.mp he with he | he
    · exact h.unended e he
    · rw [List.mem_singleton.mp he, ht]
      nofun
  · rw [hbody]
    exact h.offset
  · rw [hbody]
    exact h.bytes

end Collects

/-- The record holds a body from `c` to `q` and its end, and what `next()` reports after it: first the
end of the message, then anything. -/
inductive Ending (S : Bytes) (c q : Nat) : List (Nat × Token) → Nat → Phase → Prop where
  | body {log : List (Nat × Token)} : Collects S c log q →
      Ending S c q (log ++ [(q, ⟨.endOfBody, 0, .none⟩)]) q .endOfMessage
  | message {log : List (Nat × Token)} (log' : List (Nat × Token)) (p : Nat) (ph : Phase) :
      Collects S c log q →
      Ending S c q (log ++ (q, ⟨.endOfBody, 0, .none⟩) :: (q, ⟨.endOfMessage, 0, .none⟩) :: log') p ph

namespace Ending

variable {φ : Type} {P : Policy φ} {S w : Bytes} {c q p n : Nat} {log : List (Nat × Token)} {b : Bool}
  {s s' : Core φ} {ph : Phase} {code : Code}

theorem append (h : Ending S c q log p ph) (hne : ph ≠ .endOfMessage) (e : Nat × Token) (p' : Nat)
    (ph' : Phase) : Ending S c q (log ++ [e]) p' ph' := by
  cases h with
  | body _ => exact absurd rfl hne
  | message log' _ _ hlog =>
    rw [List.append_assoc]
    exact .message (log' ++ [e]) p' ph' hlog

theorem emit (h : Ending S c q log p s.phase) (hlex : P.lex b s w = .emit s' n code) :
    Ending S c q (log ++ [(p, ⟨code, n, tokenValue code s'.bodySize w n⟩)]) (p + n) s'.phase := by
  generalize hs : s.phase = ph at h
  cases h with
  | body hlog =>
    -- the body has ended, and the end of the message needs no byte
    have hmsg : P.lex b s w = .emit { s with
        phase := (P.onMessageEnd s.framing).2, framing := (P.onMessageEnd s.framing).1 } 0
        .endOfMessage := by
      unfold Policy.lex
      rw [hs]
    rw [hmsg] at hlex
    cases hlex
    rw [List.append_assoc]
    exact .message [] _ _ hlog
  | message log' _ _ hlog =>
    rw [List.append_assoc]
    exact .message (log' ++ [_]) _ _ hlog

/-- Any other answer of the lexer comes after the end of the message. -/
theorem other (h : Ending S c q log p s.phase) (hlex : ∀ s' n code, P.lex b s w ≠ .emit s' n code)
    (e : Nat × Token) (p' : Nat) (ph' : Phase) : Ending S c q (log ++ [e]) p' ph' := by
  refine h.append (fun hs => ?_) e p' ph'
  refine hlex { s with
    phase := (P.onMessageEnd s.framing).2, framing := (P.onMessageEnd s.framing).1 } 0
    .endOfMessage ?_
  unfold Policy.lex
  rw [hs]

/-- The end of the body is on record. -/
theorem ended (h : Ending S c q log p ph) : ¬ Unended log := by
  intro hu
  cases h with
  | body _ => exact hu (q, ⟨.endOfBody, 0, .none⟩) (by simp) rfl
  | message log' _ _ _ => exact hu (q, ⟨.endOfBody, 0, .none⟩) (by simp) rfl

theorem firstBody_eq (h : Ending S c q log p ph) :
    ∃ log₁, Collects S c log₁ q ∧ firstBody log = BoostHttp.body log₁ := by
  cases h with
  | body hlog => exact ⟨_, hlog, firstBody_append hlog.unended rfl []⟩
  | message log' _ _ hlog => exact ⟨_, hlog, firstBody_append hlog.unended rfl _⟩

end Ending

structure Filling {φ : Type} (S : Bytes) (c n : Nat) (f : φ) (log : List (Nat × Token)) (p : Nat)
    (s : Core φ) : Prop where
  collects : Collects S c log p
  framing : s.framing = f
  counter : s.bodySize + (body log).length = n
  phase : s.phase = if s.bodySize = 0 then .endOfBody else .body

namespace Filling

variable {φ : Type} {P : Policy φ} {S w : Bytes} {c p n m : Nat} {f : φ} {log : List (Nat × Token)}
  {b : Bool} {s s' : Core φ} {code : Code}

/-- A token is a part of the body, or its end after all of its bytes. -/
theorem emit (h : Filling S c n f log p s) (hw : w <+: S.drop p)
    (hlex : P.lex b s w = .emit s' m code) :
    Filling S c n f (log ++ [(p, ⟨code, m, tokenValue code s'.bodySize w m⟩)]) (p + m) s' ∨
    Ending S c (c + n) (log ++ [(p, ⟨code, m, tokenValue code s'.bodySize w m⟩)]) (p + m)
      s'.phase := by
  have hoff := h.collects.offset
  have hcount := h.counter
  -- nothing left: the end of the body; else a chunk of what is in view
  by_cases hz : s.bodySize = 0
  · have hphase : s.phase = .endOfBody := by rw [h.phase, if_pos hz]
    have hend : P.lex b s w = .emit (s.goto .endOfMessage) 0 .endOfBody := by
      unfold Policy.lex
      rw [hphase]
    rw [hend] at hlex
    cases hlex
    have hp : p = c + n := by omega
    subst hp
    exact .inr (.body h.collects)
  · have hphase : s.phase = .body := by rw [h.phase, if_neg hz]
    by_cases hnil : w = []
    · subst hnil
      have hunsafe := (of_lex_nil_emit (by rw [hphase]; rfl) hlex).1
      rw [hphase] at hunsafe
      cases hunsafe
    · rw [lex_body (.inl ⟨rfl, rfl⟩) hphase hnil, lexBody] at hlex
      have hle : min w.length s.bodySize ≤ w.length := Nat.min_le_left _ _
      have hle' : min w.length s.bodySize ≤ s.bodySize := Nat.min_le_right _ _
      generalize min w.length s.bodySize = k at hlex hle hle'
      cases hlex
      have hcoll := h.collects.chunk hw hle (s.bodySize - m)
      have hlen : p + m = c + (body (log ++ [(p, ⟨.bodyChunk, m,
          tokenValue .bodyChunk (s.bodySize - m) w m⟩)])).length := hcoll.offset
      refine .inl ⟨hcoll, h.framing, ?_, ?_⟩
      · change s.bodySize - m + (body (log ++ [(p, ⟨.bodyChunk, m,
          tokenValue .bodyChunk (s.bodySize - m) w m⟩)])).length = n
        omega
      · change (if s.bodySize - m = 0 then Phase.endOfBody else s.phase) = _
        rw [hphase]
        rfl

theorem need (h : Filling S c n f log p s) (hlex : P.lex b s w = .need s') {t : Token}
    (ht : t.code = .errorInsufficientData) : Filling S c n f (log ++ [(p, t)]) p s' := by
  have hs : s' = s := by
    obtain ⟨-, ⟨-, hs⟩ | ⟨d, x, -, hs⟩⟩ := of_lex_need hlex
    · exact hs
    · have hres : s.phase.resolve d = s.phase := by
        rw [h.phase]
        split <;> rfl
      rw [hs, hres, Core.goto_self rfl]
  subst hs
  have hcoll := h.collects.wait ht
  have hlen := hcoll.offset
  have hoff := h.collects.offset
  have hcount := h.counter
  exact ⟨hcoll, h.framing, by omega, h.phase⟩

theorem not_fail (h : Filling S c n f log p s)
    (hwaits : b = true → ∀ k, k ≠ 0 → P.waits f k = true) : P.lex b s w ≠ .fail code := by
  intro hlex
  by_cases hz : s.bodySize = 0
  · have hphase : s.phase = .endOfBody := by rw [h.phase, if_pos hz]
    unfold Policy.lex at hlex
    rw [hphase] at hlex
    cases hlex
  · have hphase : s.phase = .body := by rw [h.phase, if_neg hz]
    -- with bytes left and none in view the reader waits, even at the end of the input
    by_cases hnil : w = []
    · subst hnil
      rcases lex_nil_cases (P := P) (b := b) (s := s) (by rw [hphase]; rfl) with
        hl | ⟨-, hl⟩ | ⟨hb, hfalse, hl⟩ <;> rw [hl] at hlex <;> cases hlex
      rw [h.framing, hwaits hb _ hz] at hfalse
      cases hfalse
    · rw [lex_body (.inl ⟨rfl, rfl⟩) hphase hnil] at hlex
      cases hlex

end Filling

/-! ## Runs from the end of a head on -/

/-- Other calls change the state of the lexer only while a status code is current. -/
def Api.Quiet {σ β ν κ φ : Type} (A : Api σ β ν κ) (V : View σ β ν φ) (Legal : Core φ → Prop) :
    Prop :=
  ∀ {c r r'}, Sound V Legal r → A.callable c r = true → A.call c r = .ok r' →
    V.core r' = V.core r ∨ r.code = .statusCode

namespace Session

variable {σ β ν κ φ : Type} {A : Api σ β ν κ} {mem : Nat → UInt8} {S : Bytes} {V : View σ β ν φ}
  {P : Policy φ} {Legal : Core φ → Prop} {s s₀ : Session σ β ν κ}
  {guard : Session σ β ν κ → Op κ → Bool} {ops : List (Op κ)}

/-- A state that no status code leads to is not changed by other calls. -/
theorem core_of_call (hq : A.Quiet V Legal) {c : κ} {r r' : Reader σ β ν} (hr : Sound V Legal r)
    (hc : A.callable c r = true) (h : A.call c r = .ok r')
    (hp : V.phase r.state ≠ .spAfterStatusCode) : V.core r' = V.core r :=
  (hq hr hc h).resolve_right fun hcode => hp (hr.status hcode).1

theorem phase_of_call (hA : A.Lawful V P Legal) {c : κ} {r r' : Reader σ β ν} (hr : Sound V Legal r)
    (hc : A.callable c r = true) (h : A.call c r = .ok r') : V.phase r'.state = V.phase r.state := by
  obtain ⟨-, hstate, -⟩ := hA.of_call hr hc h
  rw [hstate]

/-- A body of `n` bytes behind the offset `c` is being delivered or has ended at `c + n`. -/
theorem play_counted (hA : A.Lawful V P Legal) (hq : A.Quiet V Legal) (ht : Tracks V Legal S s₀)
    (hphase : V.phase s₀.reader.state = if s₀.reader.bodySize = 0 then .endOfBody else .body)
    (hwaits : ∀ x, V.eof x = true → ∀ k, k ≠ 0 → P.waits (V.core s₀.reader).framing k = true)
    (h : (system A mem S guard).conforming s₀ ops = true) :
    ∃ s log, (system A mem S guard).play s₀ ops = .ok s ∧ Tracks V Legal S s ∧
      s.emitted = s₀.emitted ++ log ∧
      (Filling S s₀.pass.consumed s₀.reader.bodySize (V.core s₀.reader).framing log s.pass.consumed
          (V.core s.reader) ∨
        ∃ p ph, Ending S s₀.pass.consumed (s₀.pass.consumed + s₀.reader.bodySize) log p ph) := by
  have hne : V.phase s₀.reader.state ≠ .errored := by
    rw [hphase]
    split <;> nofun
  -- the bytes delivered and the counter make up `n` until the body has ended
  have hrun := play_follows hA
    (J := fun log p s => Filling S s₀.pass.consumed s₀.reader.bodySize (V.core s₀.reader).framing log p s ∨
      Ending S s₀.pass.consumed (s₀.pass.consumed + s₀.reader.bodySize) log p s.phase)
    (F := fun log => ∃ p ph,
      Ending S s₀.pass.consumed (s₀.pass.consumed + s₀.reader.bodySize) log p ph)
    ?_ ?_ ?_ ?_ ht hne (.inl ⟨.nil _ _, rfl, Nat.add_zero _, hphase⟩) h
  · obtain ⟨s, log, hplay, ht', hlog, hfailed, hrunning⟩ := hrun
    refine ⟨s, log, hplay, ht', hlog, ?_⟩
    by_cases he : V.phase s.reader.state = .errored
    · exact .inr (hfailed he)
    · exact (hrunning he).imp_right fun hend => ⟨_, _, hend⟩
  · intro log p x c w c' n code hJ _ hw hlex
    rcases hJ with hfill | hend
    · exact hfill.emit hw hlex
    · exact .inr (hend.emit hlex)
  · intro log p x c w c' t hJ hlex hcode
    rcases hJ with hfill | hend
    · exact .inl (hfill.need hlex hcode)
    · exact .inr (hend.other (by rw [hlex]; nofun) _ _ _)
  · intro log p x c w t hJ _ hlex
    rcases hJ with hfill | hend
    · exact absurd hlex (hfill.not_fail (hwaits x))
    · exact ⟨p, .errored, hend.other (by rw [hlex]; nofun) _ _ _⟩
  · intro log p c s r' hJ hr hc _ hcall
    rcases hJ with hfill | hend
    · have hphase := hfill.phase
      rw [core_of_call hq hr hc hcall (by
        intro hp
        change V.phase s.reader.state = _ at hphase
        rw [hp] at hphase
        split at hphase <;> cases hphase)]
      exact .inl hfill
    · have hsame : (V.core r').phase = (V.core s.reader).phase := phase_of_call hA hr hc hcall
      rw [hsame]
      exact .inr hend

def Idle (V : View σ β ν φ) (P : Policy φ) (s : Session σ β ν κ) : Prop :=
  s.reader.code = .errorInsufficientData →
    ∃ b, P.lex b (V.core s.reader) s.reader.restView = .need (V.core s.reader)

theorem Idle.note (hA : A.Lawful V P Legal) (hq : A.Quiet V Legal) (ht : Tracks V Legal S s)
    (hs : Idle V P s) {c : κ} {r' : Reader σ β ν} (hp : A.callable c s.reader = true)
    (hcall : A.call c s.reader = .ok r') : Idle V P (s.note c r') := by
  obtain ⟨-, -, hcode, hidx, -, hbuf⟩ := hA.of_call ht.sound hp hcall
  intro hc
  change r'.code = .errorInsufficientData at hc
  rw [hcode] at hc
  have hcore : V.core r' = V.core s.reader :=
    (hq ht.sound hp hcall).resolve_right (by rw [hc]; nofun)
  have hrest : r'.restView = s.reader.restView := by
    rw [Reader.restView, hidx, hbuf]
    rfl
  change ∃ b, P.lex b (V.core r') r'.restView = .need (V.core r')
  rw [hcore, hrest]
  exact hs hc

theorem play_idle (hA : A.Lawful V P Legal) (hq : A.Quiet V Legal) (ht : Tracks V Legal S s)
    (hs : Idle V P s) (h : (system A mem S guard).conforming s ops = true) :
    ∃ s', (system A mem S guard).play s ops = .ok s' ∧ Idle V P s' := by
  refine play_settled hA ?_ (fun hc _ hc' => absurd hc' hc) ?_ ht hs h
  · intro s r' ht he hout hc
    exact ⟨_, stuck_report hA ht he hout hc⟩
  · intro s c r' ht hp hcall hs
    exact hs.note hA hq ht hp hcall

def EndsAt (q : Nat) (log : List (Nat × Token)) : Prop :=
  ∃ log₁ log₂, log = log₁ ++ (q, ⟨.endOfBody, 0, .none⟩) :: log₂ ∧ Unended log₁ ∧
    (log₂ = [] ∨ ∃ log₃, log₂ = (q, ⟨.endOfMessage, 0, .none⟩) :: log₃ ∧ Placed q log₃)

theorem endsAt {c q p : Nat} {ph : Phase} {log : List (Nat × Token)} (h : Ending S c q log p ph)
    (hplaced : Placed c log) : EndsAt q log := by
  cases h with
  | body hlog => exact ⟨_, _, rfl, hlog.unended, .inl rfl⟩
  | message log' _ _ hlog =>
    refine ⟨_, _, rfl, hlog.unended, .inr ⟨log', rfl, ?_⟩⟩
    -- the ends of the body and of the message cover no byte
    obtain ⟨-, hend, hmsg, hrest⟩ := (placed_append c _ _).mp hplaced
    change q = _ at hmsg
    rw [← hmsg] at hrest
    exact hrest

/-- What a client sees of a body of `n` bytes behind the offset `c`: its bytes as far as they are
there, and its end when they all are. -/
structure DeliversCounted (S : Bytes) (c n : Nat)
    (next : Reader σ β ν → Except Fault (Reader σ β ν)) (s : Session σ β ν κ)
    (log : List (Nat × Token)) : Prop where
  delivered : firstBody log <+: (S.drop c).take n
  whole : s.exposed S = true → s.reader.code.isError = true → firstBody log = (S.drop c).take n
  counter : Unended log → s.reader.bodySize + (firstBody log).length = n
  due : Unended log → (firstBody log).length = n →
    ∃ r', next s.reader = .ok r' ∧ r'.code = .endOfBody ∧ r'.tokenSize = 0
  ended : ¬ Unended log → (firstBody log).length = n ∧ EndsAt (c + n) log

/-- With all of the stream in view, a reader that waits for more of a body has delivered the rest. -/
theorem Filling.whole {c n : Nat} {f : φ} {log : List (Nat × Token)} (ht : Tracks V Legal S s)
    (hs : Idle V P s) (h : Filling S c n f log s.pass.consumed (V.core s.reader))
    (hx : s.exposed S = true) (hc : s.reader.code.isError = true) : body log = (S.drop c).take n := by
  have hphase : V.phase s.reader.state = if s.reader.bodySize = 0 then .endOfBody else .body := h.phase
  have he : V.phase s.reader.state ≠ .errored := by
    rw [hphase]
    split <;> nofun
  have hi := (isError_eq ht.sound he).mp hc
  have hz : s.reader.bodySize ≠ 0 := by
    intro hz
    rw [if_pos hz] at hphase
    exact ht.sound.zeroSized (by rw [hphase]; rfl) hi
  rw [if_neg hz] at hphase
  -- an idle reader in a body has no byte left in view
  have hnil : s.reader.restView = [] := by
    by_contra hne
    obtain ⟨b, hlex⟩ := hs hi
    rw [lex_body (.inl ⟨rfl, rfl⟩) hphase hne] at hlex
    cases hlex
  rw [ht.restView_of_exposed he hx, ← pass_of_isError hc] at hnil
  have hall := h.collects.drop_eq
  have hcount : s.reader.bodySize + (body log).length = n := h.counter
  rw [hnil, List.append_nil] at hall
  rw [← hall, List.take_of_length_le (by omega)]

theorem Filling.delivers {c n : Nat} {f : φ} {log : List (Nat × Token)} (hA : A.Lawful V P Legal)
    (ht : Tracks V Legal S s) (hs : Idle V P s)
    (h : Filling S c n f log s.pass.consumed (V.core s.reader)) :
    DeliversCounted S c n A.next s log := by
  have hcount : s.reader.bodySize + (body log).length = n := h.counter
  have hphase : V.phase s.reader.state = if s.reader.bodySize = 0 then .endOfBody else .body := h.phase
  have hbody := firstBody_of_unended h.collects.unended
  refine ⟨?_, fun hx hc => ?_, fun _ => ?_, fun _ hlen => ?_, absurd h.collects.unended⟩
  · rw [hbody]
    exact List.prefix_take_iff.mpr ⟨h.collects.bytes, by omega⟩
  · rw [hbody]
    exact Filling.whole ht hs h hx hc
  · rw [hbody]
    exact hcount
  · rw [hbody] at hlen
    rw [if_pos (by omega)] at hphase
    obtain ⟨r', hr', hout⟩ := hA.implements.settles ht.sound (by rw [hphase]; nofun)
    have hlex : P.lex (V.eof s.reader.connection) (V.core s.reader) s.reader.consume.restView
        = .emit ((V.core s.reader).goto .endOfMessage) 0 .endOfBody := by
      unfold Policy.lex
      rw [show (V.core s.reader).phase = .endOfBody from hphase]
    rw [hlex] at hout
    obtain ⟨-, hcode, hsize⟩ := hout.outcome
    exact ⟨r', hr', hcode, hsize⟩

theorem Ending.delivers {c n p : Nat} {ph : Phase} {log : List (Nat × Token)}
    {next : Reader σ β ν → Except Fault (Reader σ β ν)} (h : Ending S c (c + n) log p ph)
    (hplaced : Placed c log) : DeliversCounted S c n next s log := by
  obtain ⟨log₁, hlog, hbody⟩ := h.firstBody_eq
  have hlen : (body log₁).length = n := by
    have hoff := hlog.offset
    omega
  refine ⟨?_, fun _ _ => ?_, fun hu => absurd hu h.ended, fun hu => absurd hu h.ended, fun _ => ?_⟩
  · rw [hbody, hlog.take_eq]
  · rw [hbody, hlog.take_eq]
  · rw [hbody]
    exact ⟨hlen, endsAt h hplaced⟩

end Session

end BoostHttp
