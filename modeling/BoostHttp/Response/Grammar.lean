import BoostHttp.Request.Acceptance
import BoostHttp.Response.Acceptance

/-!
# Response.Grammar — the grammar of response heads

The lexer ends a head only where a head has been read that needs no body or whose fields meet the
rules, and it reports the parts of that head.
-/

open Incremental

namespace BoostHttp

open Request (headEnd headData head_of_split filterMap_block)

namespace Response

variable {methods : Nat → Bytes} {b : Bool} {p n j : Nat} {f : Memory} {w rest : Bytes}
  {v : List Event}

/-- A run in which a head ends has passed three digits where it expects a status code. -/
theorem of_runs_statusCode (hr : (lexer methods).Runs b p (⟨.statusCode, f, n⟩, j) w v)
    (hv : v.any Event.isHeadEnd = true) :
    ∃ status rest v', status.length = 3 ∧ (∀ c ∈ status, c ∈ Alphabet.digits) ∧
      w = status ++ rest ∧
      (lexer methods).Runs b (p + 3) (⟨.spAfterStatusCode,
        (f.1, (bodyFor (methods j) (Syntax.base10 status) n).1),
        (bodyFor (methods j) (Syntax.base10 status) n).2⟩, j + 1) rest v' ∧
      v'.any Event.isHeadEnd = true := by
  obtain ⟨_, _, status, rest, _, _, _, -, rfl, hscan, -⟩ :=
    of_runs_lexeme (s := ⟨.statusCode, f, n⟩) rfl fatal_policy rfl (by simp) (fun _ => rfl) hr hv
  simp only [Phase.resolve, Phase.scan] at hscan
  obtain ⟨hlen, -, hdigits⟩ := fixed_ok hscan
  rw [List.take_left' hlen, List.all_eq_true] at hdigits
  replace hdigits : ∀ c ∈ status, c ∈ Alphabet.digits := fun c hc =>
    (isDigit_iff c).mp (hdigits c hc)
  -- the owner answers the status code of any head in the same way
  let g : Head := ⟨0x31, status, [], .lf, [], .lf, isDigit_one, hlen, hdigits, by simp⟩
  have hleads : (lexer methods).Leads b p (⟨.statusCode, f, n⟩, j) (g.status ++ rest) _ _ _ _ :=
    leads_statusCode g
  obtain ⟨v', rfl, hr'⟩ := hleads.split (lexer_total _ _ _ _ _) hr
  exact ⟨status, rest, v', hlen, hdigits, rfl, hr', hv⟩

/-- A run in which a head ends has passed a status line. -/
theorem of_runs_statusLine
    (hr : (lexer methods).Runs b p (⟨.versionStaticStr, (false, .unknownBody), n⟩, j) w v)
    (hv : v.any Event.isHeadEnd = true) :
    ∃ digit status reason eol rest o v', digit ∈ Alphabet.digits ∧ status.length = 3 ∧
      (∀ c ∈ status, c ∈ Alphabet.digits) ∧ (∀ c ∈ reason, isText c = true) ∧
      w = ascii "HTTP/1." ++ digit :: 0x20 :: (status ++ 0x20 :: (reason ++ (Eol.bytes eol ++ rest))) ∧
      (lexer methods).Runs b o (⟨.fieldName,
        (digit == 0x30, (bodyFor (methods j) (Syntax.base10 status) n).1),
        (bodyFor (methods j) (Syntax.base10 status) n).2⟩, j + 1) rest v' ∧
      v'.any Event.isHeadEnd = true := by
  obtain ⟨lit, w₁, v₁, rfl, hscan₁, hrun₁, hany₁⟩ := of_runs_follows (q := .versionStaticStr) rfl
    fatal_policy rfl (fun _ => rfl) (by simp) (by simp) hr hv
  obtain ⟨-, hlit⟩ := literal_ok hscan₁
  rw [List.take_left] at hlit
  obtain ⟨_, _, version, w₂, s₂, code₂, v₂, -, rfl, hscan₂, hacc₂, hany₂, hrun₂⟩ :=
    of_runs_lexeme (s := ⟨.responseVersion, (false, .unknownBody), n⟩) rfl fatal_policy rfl (by simp)
      (fun _ => rfl) hrun₁ hany₁
  obtain ⟨digit, rfl, hdigit⟩ := of_scan_one hscan₂
  cases hacc₂
  obtain ⟨sp, w₃, v₃, rfl, hscan₃, hrun₃, hany₃⟩ := of_runs_follows (q := .spAfterVersion) rfl
    fatal_policy rfl (fun _ => rfl) (by simp) (by simp) (hrun₂ (by simp)) (hany₂ (by simp))
  obtain ⟨status, w₄, v₄, hstatus, hdigits, rfl, hrun₄, hany₄⟩ := of_runs_statusCode hrun₃ hany₃
  obtain ⟨sp', w₅, v₅, rfl, hscan₅, hrun₅, hany₅⟩ := of_runs_follows (q := .spAfterStatusCode) rfl
    fatal_policy rfl (fun _ => rfl) (by simp) (by simp) hrun₄ hany₄
  obtain ⟨reason, w₆, v₆, rfl, hscan₆, hrun₆, hany₆⟩ := of_runs_follows (q := .reasonPhrase) rfl
    fatal_policy rfl (fun _ => rfl) (by simp) (by simp) hrun₅ hany₅
  simp only [Phase.scan] at hscan₆
  obtain ⟨_, _, -, hreason, -, -, -⟩ := spanned_ok hscan₆
  rw [List.take_left] at hreason
  obtain ⟨eol, rest, v₇, rfl, hscan₇, hrun₇, hany₇⟩ := of_runs_follows (q := .crlfAfterReasonPhrase)
    rfl fatal_policy rfl (fun _ => rfl) (by simp) (by simp) hrun₆ hany₆
  obtain ⟨eol, rfl⟩ := of_lineEnd hscan₇
  obtain ⟨c, rfl, hc⟩ := of_scan_one hscan₃
  have hc : c = 0x20 := by simpa [Detail.isSp] using hc
  obtain ⟨c', rfl, hc'⟩ := of_scan_one hscan₅
  have hc' : c' = 0x20 := by simpa [Detail.isSp] using hc'
  refine ⟨digit, status, reason, eol, rest, _, v₇, (isDigit_iff digit).mp hdigit, hstatus, hdigits,
    fun c hc => (isReasonPhraseChar_eq c).symm.trans (hreason c hc), ?_, hrun₇, hany₇⟩
  rw [hlit, hc, hc']
  rfl

def Head.Allowed (method : Bytes) (g : Head) : Prop :=
  Bodiless method g.code ∨ Accepts g.digit g.headers

/-- A run in which a head ends has passed a head that the reader accepts. -/
theorem of_runs_head
    (hr : (lexer methods).Runs b p (⟨.versionStaticStr, (false, .unknownBody), n⟩, j) w v)
    (hv : v.any Event.isHeadEnd = true) :
    ∃ g rest, w = Head.bytes g ++ rest ∧ g.Allowed (methods j) := by
  obtain ⟨digit, status, reason, eol, w', o, v', hd, hlen, hs, hreason, rfl, hr', hv'⟩ :=
    of_runs_statusLine hr hv
  obtain ⟨ls, e, rest, s', rfl, hs'⟩ := of_runs_headers fatal_policy hr' hv'
  let g : Head := ⟨digit, status, reason, eol, ls, e, hd, hlen, hs, hreason⟩
  refine ⟨g, rest, by simp [g, Head.bytes, Head.line], ?_⟩
  by_cases hb : Bodiless (methods j) g.code
  · exact .inl hb
  · obtain ⟨hmemory, hsize⟩ := memory_of_not_bodiless (n := n) hb
    have hok : policy.headers (g.memory (methods j) n) (bodyFor (methods j) g.code n).2 g.headers
        = .ok s' := hs'
    rw [hmemory, hsize] at hok
    exact .inr ((headers_ok_iff g.digit n g.headers).mp ⟨s', hok⟩)

/-- A head that the reader accepts is reported, whatever follows it. -/
theorem runs_allowed (g : Head) (h : g.Allowed (methods j))
    (hr : (lexer methods).Runs b p (⟨.versionStaticStr, (false, .unknownBody), n⟩, j)
      (g.bytes ++ rest) v) : ∃ v', v = g.events p ++ v' := by
  by_cases hb : Bodiless (methods j) g.code
  · obtain ⟨v', hv, -⟩ := runs_bodiless g hb hr
    exact ⟨_, hv⟩
  · obtain ⟨_, v', -, hv, -⟩ := runs_accepted g hb (h.resolve_left hb) hr
    exact ⟨v', hv⟩

def Head.data (g : Head) : List (Code × Value) :=
  [(.version, .version g.version), (.statusCode, .statusCode g.code),
    (.reasonPhrase, .view g.reason)] ++
    g.headers.flatMap fun x => [(.fieldName, .view x.name), (.fieldValue, .view x.value)]

/-- A record that begins with the events of a head shows the parts of the head. -/
theorem head_of_events (g : Head) {log : List (Nat × Token)} (hp : Placed 0 log)
    (hw : ∀ e ∈ log, e.2.WellFormed) (h : events log = g.events 0 ++ v) :
    headEnd log = some g.bytes.length ∧ headData log = g.data := by
  have hlen : 0 + g.line.length + (blockBytes g.fields).length + g.lastEol.bytes.length
      = g.bytes.length := by
    simp only [Head.bytes, List.length_append]
    omega
  have hsplit : events log = (g.lineEvents 0 ++
      blockEvents .fieldName .fieldValue (0 + g.line.length) g.fields) ++
        endOfHeaders (0 + g.line.length + (blockBytes g.fields).length) g.lastEol :: v := by
    simp [h, Head.events]
  obtain ⟨hend, hdata⟩ := head_of_split hp hw hsplit
    (by rw [List.any_append, any_block]; rfl)
    (by rw [List.flatMap_append, body_block]; rfl)
  rw [hend, hdata, hlen, List.filterMap_append, filterMap_block]
  exact ⟨rfl, rfl⟩

/-- The reader ends the first head exactly where a head of this form ends that needs no body or
whose fields meet the rules, and it reports the parts of that head. -/
theorem response_head_grammar (mem : Nat → UInt8) (w : Bytes) (methods : Nat → Bytes)
    (bodySize : Nat) (ops : List (Op Call))
    (h : (attentiveSession mem methods w).conforming (fresh bodySize) ops = true) :
    ∃ s, (attentiveSession mem methods w).play (fresh bodySize) ops = .ok s ∧
      (complete mem w s = true →
        (∀ p, (∃ k, headEnd s.emitted = some k ∧ w.take k = p) ↔
          ∃ g : Head, g.bytes = p ∧ p <+: w ∧ g.Allowed (methods 0)) ∧
        ∀ g : Head, g.bytes <+: w → g.Allowed (methods 0) → headData s.emitted = g.data) := by
  have h₀ : (attentiveSession mem methods w).play (fresh bodySize) [] = .ok (fresh bodySize) := rfl
  obtain ⟨s, log, hplay, ht₀, hrec, hlog, hplaced, hruns⟩ := play_adds h₀ nofun h
  have hlog : s.emitted = log := hlog
  refine ⟨s, hplay, fun hc => ?_⟩
  have hr := hruns hc
  rw [pending_eq ht₀.sound nofun, core_start ht₀.sound rfl] at hr
  have hw : ∀ e ∈ log, e.2.WellFormed := by
    rw [← hlog]
    exact hrec.wellFormed
  rw [hlog]
  have haccepted : ∀ g : Head, g.bytes <+: w → g.Allowed (methods 0) →
      headEnd log = some g.bytes.length ∧ headData log = g.data := by
    rintro g ⟨rest, rfl⟩ hg
    obtain ⟨v, hv⟩ := runs_allowed g hg hr
    exact head_of_events g hplaced hw hv
  refine ⟨fun p => ⟨?_, ?_⟩, fun g hg ha => (haccepted g hg ha).2⟩
  · rintro ⟨k, hk, rfl⟩
    obtain ⟨e, he, -⟩ := Option.map_eq_some_iff.mp hk
    have hany : (events log).any Event.isHeadEnd = true := by
      rw [any_shows rfl]
      exact List.any_eq_true.mpr ⟨e, List.mem_of_find?_eq_some he, by simpa using List.find?_some he⟩
    obtain ⟨g, rest, hg, ha⟩ := of_runs_head hr hany
    have hinitial : g.bytes <+: w := ⟨rest, hg.symm⟩
    rw [(haccepted g hinitial ha).1] at hk
    cases hk
    refine ⟨g, ?_, List.take_prefix _ _, ha⟩
    rw [show w = g.bytes ++ rest from hg, List.take_left]
  · rintro ⟨g, rfl, hg, ha⟩
    refine ⟨g.bytes.length, (haccepted g hg ha).1, ?_⟩
    obtain ⟨rest, rfl⟩ := hg
    exact List.take_left

/-- A head with a reason phrase of no bytes and with blanks around a value, cut in its status code
and answered there, with the beginning of another one behind it. -/
theorem response_head_grammar_pieces :
    let w := ascii "HTTP/1.1 204 \nA:b \r\n\nHTTP"
    let ops : List (Op Call) := List.flatten [[.setBuffer 11], List.replicate 3 .next,
      [.setBuffer 16, .call (.setMethod (ascii "GET"))], List.replicate 11 .next]
    ∃ s, (attentiveSession (fun _ => 0) (fun _ => ascii "GET") w).play (fresh 0) ops = .ok s ∧
      (∀ p, (∃ k, headEnd s.emitted = some k ∧ w.take k = p) ↔
        ∃ g : Head, g.bytes = p ∧ p <+: w ∧ g.Allowed (ascii "GET")) ∧
      headEnd s.emitted = some 21 := by
  intro w ops
  obtain ⟨s, h, hgrammar⟩ := response_head_grammar (fun _ => 0) w (fun _ => ascii "GET") 0 ops
    (by decide +kernel)
  have hc : (attentiveSession (fun _ => 0) (fun _ => ascii "GET") w).ends (fresh 0) ops
      (fun s => complete (fun _ => 0) w s && headEnd s.emitted = some 21) = true := by decide +kernel
  rw [Guarded.ends_eq h, Bool.and_eq_true, decide_eq_true_eq] at hc
  exact ⟨s, h, (hgrammar hc.1).1, hc.2⟩

end Response

end BoostHttp
