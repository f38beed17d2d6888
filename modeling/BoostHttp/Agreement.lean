import BoostHttp.Fields
import BoostHttp.Twins

/-!
# Agreement — the request and the response reader on what they have in common

From the first field of a head on, both readers have the same cases in `next()`, written twice.  With
corresponding body types they report the same tokens and the same errors, up to the end of a message
or to a point where the two kinds of messages differ: a request needs a `Host` field, and without a
length or a chunked encoding a request has no body where a response has one that ends with the
connection.
-/

open Incremental

namespace BoostHttp

/-! ## Corresponding policies -/

def Request.BodyType.counterpart : Request.BodyType → Response.BodyType
  | .noBody => .connectionDelimited
  | .contentLengthRead => .contentLengthRead
  | .readingContentLength => .readingContentLength
  | .readingEncoding => .readingEncoding
  | .randomEncodingRead => .randomEncodingRead
  | .chunkedEncodingRead => .chunkedEncodingRead

/-- The readers are compared behind the start line only, and not for version 1.0. -/
def crossMatching : Matching Request.Memory Response.Memory where
  framing early f g := early = false ∧ f.1 ≠ .http10 ∧ g = (false, f.2.counterpart)
  counted f := f.2 = .contentLengthRead

def Unframed (b : Request.BodyType) : Prop := b = .noBody ∨ b = .randomEncodingRead

/-- The answers with which the comparison ends. -/
def Differ (c : Core Request.Memory) (o : Out (Core Request.Memory) Code)
    (o' : Out (Core Response.Memory) Code) : Prop :=
  o = .fail .errorNoHost ∨ (Unframed c.framing.2 ∧ ∃ d n, o' = .emit d n .endOfHeaders) ∨
    ∃ c' d n, o = .emit c' n .endOfMessage ∧ o' = .emit d n .endOfMessage

variable {f : Request.Memory} {g : Response.Memory} {m k : Nat}

theorem late_of_cross (h : crossMatching.framing false f g) : f.1 ≠ .http10 ∧ g = (false, f.2.counterpart) :=
  h.2

/-- The two readers make the same of a name, unless it is that of a second `Host` field. -/
theorem onFieldName_agree (name : Bytes) (h : crossMatching.framing false f g) :
    Request.onFieldName f name = .error .errorNoHost ∨
      (∃ c, Request.onFieldName f name = .error c ∧ Response.onFieldName g name = .error c) ∨
      ∃ f' g', Request.onFieldName f name = .ok f' ∧ Response.onFieldName g name = .ok g' ∧
        crossMatching.framing false f' g' ∧ (f'.2 = .contentLengthRead → f.2 = .contentLengthRead) := by
  obtain ⟨v, b⟩ := f
  obtain ⟨hv, rfl⟩ := late_of_cross h
  have hforced : b.counterpart.isForced = false := by cases b <;> rfl
  unfold Request.onFieldName Response.onFieldName
  simp only [hforced, Bool.false_eq_true, if_false]
  cases hhost : iequals name (ascii "Host") with
  | true =>
    have hte : iequals name (ascii "Transfer-Encoding") = false := Field.not_iequals hhost (by decide)
    have hcl : iequals name (ascii "Content-Length") = false := Field.not_iequals hhost (by decide)
    simp only [hte, hcl, Bool.false_eq_true, if_false, if_true, false_and]
    -- the request reader counts Host fields, which mean nothing to the response reader
    cases v with
    | http10 => exact absurd rfl hv
    | notHttp10AndHostRead => exact .inl rfl
    | notHttp10AndHostNotRead => exact .inr (.inr ⟨_, _, rfl, rfl, ⟨rfl, nofun, rfl⟩, id⟩)
  | false =>
    simp only [Bool.false_eq_true, if_false]
    cases hte : iequals name (ascii "Transfer-Encoding") with
    | true =>
      simp only [and_self, if_true]
      -- the tables of the two readers are the same, entry by entry
      cases b with
      | chunkedEncodingRead => exact .inr (.inl ⟨_, rfl, rfl⟩)
      | _ => exact .inr (.inr ⟨_, _, rfl, rfl, ⟨rfl, hv, rfl⟩, nofun⟩)
    | false =>
      simp only [Bool.false_eq_true, false_and, if_false]
      cases hcl : iequals name (ascii "Content-Length") with
      | false => exact .inr (.inr ⟨_, _, rfl, rfl, ⟨rfl, hv, rfl⟩, id⟩)
      | true =>
        simp only [if_true]
        cases b with
        | noBody => exact .inr (.inr ⟨_, _, rfl, rfl, ⟨rfl, hv, rfl⟩, nofun⟩)
        | contentLengthRead => exact .inr (.inl ⟨_, rfl, rfl⟩)
        | _ => exact .inr (.inr ⟨_, _, rfl, rfl, ⟨rfl, hv, rfl⟩, id⟩)

/-- The two readers make the same of a value. -/
theorem onFieldValue_agree (value : Bytes) (h : crossMatching.framing false f g)
    (hmk : f.2 = .contentLengthRead → m = k) :
    (∃ c, Request.onFieldValue f m value = .error c ∧ Response.onFieldValue g k value = .error c) ∨
      ∃ f' g' m' k', Request.onFieldValue f m value = .ok (f', m') ∧
        Response.onFieldValue g k value = .ok (g', k') ∧ crossMatching.framing false f' g' ∧
        (f'.2 = .contentLengthRead → m' = k') := by
  obtain ⟨v, b⟩ := f
  obtain ⟨hv, rfl⟩ := late_of_cross h
  unfold Request.onFieldValue Response.onFieldValue
  cases b with
  | readingContentLength =>
    simp only [Request.BodyType.counterpart]
    unfold Syntax.contentLengthDecode
    -- both decode the same value, and the old sizes do not matter
    obtain ⟨n, h₁, h₂⟩ | ⟨res, n, n', hres, h₁, h₂⟩ :=
      Syntax.decode_alike 64 Syntax.decimal value m k
    · simp only [h₁, h₂]
      exact .inr ⟨_, _, n, n, rfl, rfl, ⟨rfl, hv, rfl⟩, fun _ => rfl⟩
    · simp only [h₁, h₂]
      cases res with
      | ok => exact absurd rfl hres
      | invalid | overflow => exact .inl ⟨_, rfl, rfl⟩
  | readingEncoding =>
    simp only [Request.BodyType.counterpart]
    cases Detail.decodeTransferEncoding value with
    | chunkedInvalid => exact .inl ⟨_, rfl, rfl⟩
    | chunkedNotFound | chunkedAtEnd =>
      exact .inr ⟨_, _, m, k, rfl, rfl, ⟨rfl, hv, rfl⟩, by simp⟩
  | _ => exact .inr ⟨_, _, m, k, rfl, rfl, ⟨rfl, hv, rfl⟩, hmk⟩

/-- At the end of the headers the two readers part, unless the body is framed by a field. -/
theorem onHeaders_agree (h : crossMatching.framing false f g) (hf : f.2.isReading = false)
    (hmk : f.2 = .contentLengthRead → m = k) :
    Request.onHeaders f m = .error .errorNoHost ∨
      (Unframed f.2 ∧ ∃ r, Response.onHeaders g k = .ok r) ∨
      ∃ f' g' q, Request.onHeaders f m = .ok (f', q) ∧ Response.onHeaders g k = .ok (g', q) ∧
        crossMatching.framing q.isEarly f' g' ∧ q.isSized = false ∧
        (f'.2 = .contentLengthRead → m = k) := by
  obtain ⟨v, b⟩ := f
  obtain ⟨hv, rfl⟩ := late_of_cross h
  by_cases hhost : v = .notHttp10AndHostNotRead
  · exact .inl (if_pos hhost)
  · unfold Request.onHeaders Response.onHeaders
    simp only [hhost, if_false]
    cases b with
    -- without a framing the request has no body and the response lasts until the end
    | noBody => exact .inr (.inl ⟨.inl rfl, _, rfl⟩)
    | randomEncodingRead => exact .inr (.inl ⟨.inr rfl, _, rfl⟩)
    | chunkedEncodingRead => exact .inr (.inr ⟨_, _, _, rfl, rfl, ⟨rfl, hv, rfl⟩, rfl, nofun⟩)
    | contentLengthRead =>
      have heq : m = k := hmk rfl
      refine .inr (.inr ⟨_, _, _, rfl, by rw [heq]; rfl, ⟨?_, hv, rfl⟩, ?_, hmk⟩)
      · split <;> rfl
      · split <;> rfl
    | readingContentLength | readingEncoding => cases hf

theorem cross_mirrors : Mirrors crossMatching Request.policy Response.policy Request.Legal
    Response.Legal False Differ where
  legal := Request.Legal.goto
  legal' := Response.Legal.goto
  version _ h := absurd h.1 nofun
  methodKnown {e f g} h := by
    obtain ⟨-, -, rfl⟩ := h
    cases f.2 <;> rfl
  waits h := h.elim
  body hl hp := by
    rw [Request.Legal, hp] at hl
    exact hl.1
  accept {c d} w n h hl _ hj := by
    obtain ⟨p, f, m⟩ := c
    obtain ⟨_, g, k⟩ := d
    obtain ⟨rfl, hfr, hsize⟩ := h
    have hmk : f.2 = .contentLengthRead → m = k := fun h => hsize (.inl h)
    unfold Policy.accepted Policy.accept
    cases p <;> simp only [Phase.isJudged, reduceCtorEq] at hj ⊢
    case fieldName =>
      simp only [Request.policy, Response.policy]
      obtain h₁ | ⟨c, h₁, h₂⟩ | ⟨f', g', h₁, h₂, hfr', hcounted⟩ := onFieldName_agree (w.take n) hfr
      · rw [h₁]
        exact .stop (.inl rfl)
      · rw [h₁, h₂]
        exact .fail c
      · rw [h₁, h₂]
        refine .emit ⟨rfl, hfr', ?_⟩
        rintro (hc | hc)
        · exact hmk (hcounted hc)
        · cases hc
    case fieldValue =>
      simp only [Request.policy, Response.policy]
      obtain ⟨c, h₁, h₂⟩ | ⟨f', g', m', k', h₁, h₂, hfr', heq⟩ :=
        onFieldValue_agree (Detail.trimTail (w.take n)) hfr hmk
      · rw [h₁, h₂]
        exact .fail c
      · rw [h₁, h₂]
        refine .emit ⟨rfl, hfr', ?_⟩
        rintro (hc | hc)
        · exact heq hc
        · cases hc
    case crlfAfterHeaders =>
      simp only [Request.policy, Response.policy]
      obtain h₁ | ⟨hunframed, r, h₂⟩ | ⟨f', g', q, h₁, h₂, hfr', hsized, heq⟩ :=
        onHeaders_agree hfr hl hmk
      · rw [h₁]
        exact .stop (.inl rfl)
      · rw [h₂]
        exact .stop (.inr (.inl ⟨hunframed, _, _, rfl⟩))
      · rw [h₁, h₂]
        refine .emit ⟨rfl, hfr', ?_⟩
        rintro (hc | hc)
        · exact heq hc
        · rw [show q.isSized = false from hsized] at hc
          cases hc
    -- behind the message the two readers expect different start lines, so here the runs part
    case crlfAfterTrailers => exact .stop (.inr (.inr ⟨_, _, _, rfl, rfl⟩))
  message {c d} h _ _ hp := by
    unfold Policy.lex
    rw [← h.phase, hp]
    exact .stop (.inr (.inr ⟨_, _, _, rfl, rfl⟩))

/-! ## Side by side -/

/-- The response reader as it is driven here, by `set_buffer` and `next()` only. -/
def Response.plain (mem : Nat → UInt8) :
    Api Response.State Response.BodyType Response.ConnectionFlags Empty where
  next := Response.next mem
  callable _ _ := false
  call _ r := .ok r

theorem Response.lawful_plain (mem : Nat → UInt8) :
    (Response.plain mem).Lawful Response.view Response.policy Response.Legal where
  implements := Response.implements mem
  call {c} := c.elim

def Session.inside {σ β ν κ : Type} (S : Bytes) (r : Reader σ β ν) : Session σ β ν κ :=
  ⟨r, r.idx, r.idx, [S.take r.idx], [], []⟩

structure Place where
  code : Code
  idx : Nat
  tokenSize : Nat
  ibuffer : Bytes

/-- What holds of these members wherever a field name is expected: the token is in the buffer, it is
neither a fatal error nor a status code, and without a token nothing is counted yet. -/
structure Place.Fits (x : Place) : Prop where
  bound : x.idx + x.tokenSize ≤ x.ibuffer.length
  waiting : x.code = .errorInsufficientData → x.tokenSize = 0
  notFatal : x.code.isFatal = false
  notStatus : x.code ≠ .statusCode

namespace Place

variable {x : Place} {S : Bytes}

def request (x : Place) (version : Request.Version) (bodySize : Nat) : Request :=
  ⟨version, .noBody, bodySize, .expectFieldName, x.code, x.idx, x.tokenSize, x.ibuffer⟩

def response (x : Place) (bodySize : Nat) : Response :=
  ⟨⟨false, false⟩, .connectionDelimited, bodySize, .expectFieldName, x.code, x.idx, x.tokenSize,
    x.ibuffer⟩

/-- The members fit if and only if the reader meets the invariant that every reader meets. -/
theorem fits_iff (x : Place) (version : Request.Version) (bodySize : Nat) :
    x.Fits ↔ Sound Request.view Request.Legal (x.request version bodySize) := by
  constructor
  · intro h
    refine ⟨?_, fun _ => h.bound, fun hc => .inl ?_, nofun, nofun, fun hc => absurd hc h.notStatus,
      fun _ => rfl⟩
    · rw [show (x.request version bodySize).code.isFatal = false from h.notFatal]
      exact ⟨nofun, nofun⟩
    -- a place that waits for data holds no part of a token, as `expectFieldName` keeps none
    · change List.take x.tokenSize _ = []
      rw [h.waiting hc, List.take_zero]
  · intro h
    have hbound : x.idx + x.tokenSize ≤ x.ibuffer.length := h.bound nofun
    refine ⟨hbound, fun hc => ?_, ?_, fun hc => ?_⟩
    · have hslice : (x.request version bodySize).slice = [] := (h.held hc).eq_nil rfl
      have hlen := Reader.length_slice (h.bound nofun)
      rw [hslice] at hlen
      exact hlen.symm
    · cases hf : x.code.isFatal with
      | false => rfl
      | true => exact absurd (h.fatal.mp hf) nofun
    · exact absurd (h.status hc).1 nofun

theorem Fits.sound_response (h : x.Fits) (bodySize : Nat) :
    Sound Response.view Response.Legal (x.response bodySize) := by
  have hs := (x.fits_iff .http10 0).mp h
  refine ⟨?_, fun _ => h.bound, fun hc => hs.held hc, nofun, nofun, fun hc => absurd hc h.notStatus,
    fun _ => ⟨nofun, rfl, nofun⟩⟩
  rw [show (x.response bodySize).code.isFatal = false from h.notFatal]
  exact ⟨nofun, nofun⟩

end Place

theorem Session.tracks_inside {σ β ν φ κ : Type} {V : View σ β ν φ} {L : Core φ → Prop}
    {r : Reader σ β ν} {S : Bytes} (hr : Sound V L r) (hb : r.idx ≤ r.ibuffer.length)
    (hS : r.ibuffer <+: S) : Session.Tracks V L S (Session.inside S r : Session σ β ν κ) := by
  have hlen := hS.length_le
  refine ⟨hr, rfl, Nat.le_refl _, Nat.le_trans hb hlen, fun _ => ?_, ?_⟩
  · obtain ⟨rest, rfl⟩ := hS
    change r.ibuffer.drop r.idx <+: (r.ibuffer ++ rest).drop r.idx
    rw [List.drop_append_of_le_length hb]
    exact List.prefix_append _ _
  · exact List.flatten_singleton

/-- The two readers at the same place. -/
theorem paired_inside {x : Place} {S : Bytes} (hx : x.Fits) (hS : x.ibuffer <+: S)
    {version : Request.Version} (hversion : version ≠ .http10) (bodySize bodySize' : Nat) :
    Session.Paired crossMatching Request.view Response.view Request.Legal Response.Legal False False S 0
      [] (.inside S (x.request version bodySize) : Request.Run) (.inside S (x.response bodySize')) := by
  have hb : x.idx ≤ x.ibuffer.length := Nat.le_trans (Nat.le_add_right _ _) hx.bound
  refine ⟨⟨rfl, rfl, rfl, rfl, nofun, rfl, fun _ => ⟨rfl, ⟨rfl, hversion, rfl⟩, ?_⟩⟩,
    Session.tracks_inside ((x.fits_iff version bodySize).mp hx) hb hS,
    Session.tracks_inside (hx.sound_response bodySize') hb hS, (Nat.zero_add _).symm, rfl, nofun⟩
  rintro (hc | hc) <;> cases hc

/-- The point where two sessions part is one where the readers are meant to differ, or the end of
the message. -/
theorem parts_of_differ {mem : Nat → UInt8} {s s' : Request.Run}
    {t t' : Session Response.State Response.BodyType Response.ConnectionFlags Empty}
    (hlog : s.emitted = t.emitted)
    (h : Session.Parts Request.view Response.view mem Differ 0 s s' t t') :
    s'.reader.code = .errorNoHost ∨
      (Unframed s.reader.bodyType ∧ t'.reader.code = .endOfHeaders) ∨
      (s'.reader.code = .endOfMessage ∧ s'.emitted = t'.emitted) := by
  obtain ⟨⟨q, y, y', o, o', -, hdiffer, hout, hout'⟩, p, hs', ht'⟩ := h
  -- the three ways to part: a missing Host, an unframed body, the end of the message
  obtain rfl | ⟨hunframed, d, n, rfl⟩ | ⟨c, d, n, rfl, rfl⟩ := hdiffer
  · exact .inl hout.outcome.2
  · exact .inr (.inl ⟨hunframed, hout'.outcome.2.1⟩)
  · obtain ⟨-, hcode, hsize⟩ := hout.outcome
    obtain ⟨-, hcode', hsize'⟩ := hout'.outcome
    have htoken : s'.reader.token mem = t'.reader.token mem := by
      unfold Reader.token Reader.value
      rw [hcode, hcode', hsize, hsize']
    refine .inr (.inr ⟨hcode, ?_⟩)
    rw [hs', ht', hlog, htoken, Nat.zero_add]

/-- Behind the start line the two readers agree.  Put both where a field name is expected, with the
same buffer and the same position in it: under every schedule they report the same tokens, with the
same codes, sizes and values and errors included, up to and including the end of the message, or up
to the point where the request lacks its `Host` field or has one too many, or where the headers end
without a length or a chunked encoding. -/
theorem readers_agree (mem : Nat → UInt8) (S : Bytes) (x : Place) (hx : x.Fits)
    (hS : x.ibuffer <+: S) (version : Request.Version) (hversion : version ≠ .http10)
    (bodySize bodySize' : Nat) (ops : List (Op Empty))
    (h : (Request.session mem S).conforming (.inside S (x.request version bodySize)) ops = true) :
    let G := Request.session mem S
    let H := Session.system (Response.plain mem) mem S Session.free
    (∃ s t, G.play (.inside S (x.request version bodySize)) ops = .ok s ∧
        H.play (.inside S (x.response bodySize')) ops = .ok t ∧ s.emitted = t.emitted) ∨
      ∃ ops₁ o ops₂ s t s' t', ops = ops₁ ++ o :: ops₂ ∧
        G.play (.inside S (x.request version bodySize)) ops₁ = .ok s ∧
        H.play (.inside S (x.response bodySize')) ops₁ = .ok t ∧ s.emitted = t.emitted ∧
        G.perform s o = .ok s' ∧ H.perform t o = .ok t' ∧
        (s'.reader.code = .errorNoHost ∨
          (Unframed s.reader.bodyType ∧ t'.reader.code = .endOfHeaders) ∨
          (s'.reader.code = .endOfMessage ∧ s'.emitted = t'.emitted)) := by
  intro G H
  have hunshift : ∀ {s t : List (Nat × Token)}, s = [] ++ Session.shift 0 t → s = t := by
    intro s t hst
    simpa [Session.shift] using hst
  obtain ⟨s, t, hs, ht, -, hend⟩ | ⟨ops₁, o, ops₂, s, t, hops, hs, ht, hpair, s', t', hs', ht', hparts⟩ :=
    Session.play_twins (Request.lawful mem) (Response.lawful_plain mem) cross_mirrors
      (fun {c} => c.elim) (paired_inside hx hS hversion bodySize bodySize') h
  · exact .inl ⟨s, t, hs, ht, hunshift hend.emitted⟩
  · have hlog := hunshift hpair.emitted
    exact .inr ⟨ops₁, o, ops₂, s, t, s', t', hops, hs, ht, hlog, hs', ht', parts_of_differ hlog hparts⟩

/-- A counted body behind a `Host` field and bad trailers behind a chunked one, each cut in a field. -/
theorem readers_agree_bodies :
    let H S := Session.system (Response.plain fun _ => 0) (fun _ => 0) S Session.free
    let Agree S (x : Place) ops :=
      (∃ s t, (Request.session (fun _ => 0) S).play (.inside S (x.request .notHttp10AndHostNotRead 3)) ops
          = .ok s ∧ (H S).play (.inside S (x.response 9)) ops = .ok t ∧ s.emitted = t.emitted) ∨
        ∃ ops₁ o ops₂ s t s' t', ops = ops₁ ++ o :: ops₂ ∧
          (Request.session (fun _ => 0) S).play (.inside S (x.request .notHttp10AndHostNotRead 3)) ops₁
            = .ok s ∧ (H S).play (.inside S (x.response 9)) ops₁ = .ok t ∧ s.emitted = t.emitted ∧
          (Request.session (fun _ => 0) S).perform s o = .ok s' ∧ (H S).perform t o = .ok t' ∧
          (s'.reader.code = .errorNoHost ∨
            (Unframed s.reader.bodyType ∧ t'.reader.code = .endOfHeaders) ∨
            (s'.reader.code = .endOfMessage ∧ s'.emitted = t'.emitted))
    Agree (ascii "\r\nHost: a\r\nContent-Length: 3\r\n\r\nabc")
        ⟨.skip, 0, 2, ascii "\r\nHost: a\r\nConte"⟩
        (List.flatten [List.replicate 6 .next, [.setBuffer 24], List.replicate 7 .next]) ∧
      Agree (ascii "Transfer-Encoding: chunked\nHost:\n\n0\r\nbad\r\n")
        ⟨.errorInsufficientData, 0, 0, ascii "Transfer"⟩
        (.setBuffer 42 :: List.replicate 15 .next) := by
  intro H Agree
  constructor
  · exact readers_agree (fun _ => 0) _ ⟨.skip, 0, 2, ascii "\r\nHost: a\r\nConte"⟩
      ⟨by decide, nofun, rfl, nofun⟩ (by decide) .notHttp10AndHostNotRead nofun 3 9 _ (by decide +kernel)
  · exact readers_agree (fun _ => 0) _ ⟨.errorInsufficientData, 0, 0, ascii "Transfer"⟩
      ⟨by decide, fun _ => rfl, rfl, nofun⟩ (by decide) .notHttp10AndHostNotRead nofun 3 9 _
      (by decide +kernel)

end BoostHttp
