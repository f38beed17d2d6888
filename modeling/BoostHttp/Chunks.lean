import BoostHttp.Bodies
import BoostHttp.Record

/-!
# Chunks — chunked decoding undoes chunked encoding

A chunked body is written down by its chunks, its last chunk and its trailers.  Whoever reads the
bytes, through windows of any size, gets these parts back.
-/

open Incremental

namespace BoostHttp

def ChunkedBody.data (m : ChunkedBody) : Bytes := m.chunks.flatMap Chunk.data

/-- The record `log`, from offset `p` on, is that of the chunked body: its events, with the data of
the chunks as the values of body chunks, and no byte more than the body has. -/
structure ChunkedBody.Decoded (m : ChunkedBody) (p : Nat) (log : List (Nat × Token)) : Prop where
  events : BoostHttp.events log = m.events p
  body : BoostHttp.body log = m.data
  extent : BoostHttp.extent log = m.bytes.length

/-! ## The data of a chunked body -/

theorem body_ext (p n : Nat) (x : ChunkExt) : (x.events p n).flatMap Event.body = [] := by
  unfold ChunkExt.events
  split <;> rfl

theorem body_chunks (p : Nat) (ks : List Chunk) :
    (chunksEvents p ks).flatMap Event.body = ks.flatMap Chunk.data := by
  induction ks generalizing p with
  | nil => rfl
  | cons k ks ih =>
    rw [chunksEvents, Chunk.events, List.flatMap_append, List.flatMap_append, body_ext,
      body_bytesFrom, ih]
    rfl

theorem ChunkedBody.body_events (m : ChunkedBody) (p : Nat) :
    (m.events p).flatMap Event.body = m.data := by
  simp only [ChunkedBody.events, LastChunk.events, List.flatMap_append, body_chunks, body_ext,
    body_block]
  exact List.append_nil _

/-- A record that begins with the events of a chunked body begins with a record of that body. -/
theorem ChunkedBody.decoded {m : ChunkedBody} {p : Nat} {log : List (Nat × Token)} {v : List Event}
    (hp : Placed p log) (h : BoostHttp.events log = m.events p ++ v) :
    ∃ log₁ log₂, log = log₁ ++ log₂ ∧ m.Decoded p log₁ ∧ Placed (p + m.bytes.length) log₂ := by
  have hcrlf : CRLF.length = 2 := rfl
  obtain ⟨u, q, hu, hq⟩ : ∃ u q, m.events p = u ++ [.token q ⟨.endOfMessage, 2, .none⟩] ∧
      q + 2 = p + m.bytes.length := by
    simp only [ChunkedBody.events, ← List.append_assoc]
    refine ⟨_, _, rfl, ?_⟩
    simp only [ChunkedBody.bytes, List.length_append, hcrlf]
    omega
  rw [hu, List.append_assoc] at h
  obtain ⟨log₁, log₂, rfl, h₁, -, hext, hplaced⟩ := hp.cut h rfl
  rw [← hu] at h₁
  change p + BoostHttp.extent log₁ = q + 2 at hext
  refine ⟨log₁, log₂, rfl, ⟨h₁, ?_, by omega⟩, hq ▸ hplaced⟩
  rw [body_eq, h₁, m.body_events]

/-! ## The two readers -/

/-- However a client drives a reader that expects a chunk, if the stream goes on with a chunked body
then that body is what the client gets, and the reader goes on right behind it. -/
theorem chunked_decoding (mem : Nat → UInt8) (S rest : Bytes) (m : ChunkedBody) :
    (∀ version bodySize ops₀ ops s₀,
      (Request.session mem S).play (Request.fresh version bodySize) ops₀ = .ok s₀ →
      s₀.reader.state = .expectChunkSize → S.drop s₀.pass.consumed = m.bytes ++ rest →
      (Request.session mem S).conforming (Request.fresh version bodySize) (ops₀ ++ ops) = true →
      ∃ s, (Request.session mem S).play (Request.fresh version bodySize) (ops₀ ++ ops) = .ok s ∧
        (Request.complete S s = true → ∃ log₁ log₂, s.emitted = s₀.emitted ++ (log₁ ++ log₂) ∧
          m.Decoded s₀.pass.consumed log₁ ∧ Placed (s₀.pass.consumed + m.bytes.length) log₂)) ∧
    (∀ methods bodySize ops₀ ops s₀,
      (Response.attentiveSession mem methods S).play (Response.fresh bodySize) ops₀ = .ok s₀ →
      s₀.reader.state = .expectChunkSize → S.drop s₀.pass.consumed = m.bytes ++ rest →
      (Response.attentiveSession mem methods S).conforming (Response.fresh bodySize) (ops₀ ++ ops)
        = true →
      ∃ s, (Response.attentiveSession mem methods S).play (Response.fresh bodySize) (ops₀ ++ ops)
          = .ok s ∧
        (Response.complete mem S s = true → ∃ log₁ log₂, s.emitted = s₀.emitted ++ (log₁ ++ log₂) ∧
          m.Decoded s₀.pass.consumed log₁ ∧ Placed (s₀.pass.consumed + m.bytes.length) log₂)) := by
  constructor
  · intro version bodySize ops₀ ops s₀ h₀ hstate hS h
    obtain ⟨s, log, hplay, -, -, hlog, hplaced, hruns⟩ := Request.play_adds h₀
      (by rw [hstate]; decide) h
    refine ⟨s, hplay, fun hc => ?_⟩
    -- the lexer goes on where the head has left it
    have hcore : Request.view.core s₀.reader
        = ⟨.chunkSize, (s₀.reader.connection, s₀.reader.bodyType), s₀.reader.bodySize⟩ := by
      simp only [View.core, Request.view, hstate]
      rfl
    have hr := hruns hc
    rw [hS, hcore] at hr
    obtain ⟨v, hv, -⟩ := (leads_chunkedBody m).split (Request.lexer_total _ _ _ _) hr
    obtain ⟨log₁, log₂, rfl, hdecoded, hrest⟩ := ChunkedBody.decoded hplaced hv
    exact ⟨log₁, log₂, hlog, hdecoded, hrest⟩
  · intro methods bodySize ops₀ ops s₀ h₀ hstate hS h
    obtain ⟨s, log, hplay, ht₀, -, hlog, hplaced, hruns⟩ := Response.play_adds h₀
      (by rw [hstate]; decide) h
    refine ⟨s, hplay, fun hc => ?_⟩
    -- as for requests; the pending answers of the client are none at this place
    have hcore : Response.view.core s₀.reader
        = ⟨.chunkSize, (s₀.reader.connection.http10, s₀.reader.bodyType), s₀.reader.bodySize⟩ := by
      simp only [View.core, Response.view, hstate]
      rfl
    have hr := hruns hc
    rw [hS, Response.pending_eq ht₀.sound (by rw [hstate]; decide), hcore] at hr
    obtain ⟨v, hv, -⟩ := (leads_chunkedBody m).split (Response.lexer_total _ _ _ _ _) hr
    obtain ⟨log₁, log₂, rfl, hdecoded, hrest⟩ := ChunkedBody.decoded hplaced hv
    exact ⟨log₁, log₂, hlog, hdecoded, hrest⟩

/-- A body of two chunks and a trailer: the first chunk has an extension and looks like the end of a
body, the size of the second one is a letter. -/
def exampleBody : ChunkedBody where
  chunks := [⟨ascii "05", ⟨ascii ";a", by decide +kernel, by decide +kernel⟩, ascii "0\r\n\r\n",
      by decide +kernel, by decide +kernel, by decide +kernel, by decide +kernel, by decide +kernel⟩,
    ⟨ascii "a", ⟨[], by decide +kernel, by decide +kernel⟩, ascii "0123456789",
      by decide +kernel, by decide +kernel, by decide +kernel, by decide +kernel, by decide +kernel⟩]
  last := ⟨ascii "00", ⟨[], by decide +kernel, by decide +kernel⟩, by decide +kernel, by decide +kernel⟩
  trailers := [⟨ascii "t", ascii " u ", by decide +kernel, by decide +kernel, by decide +kernel⟩]

/-- The body, behind the heads of a request and a response, cut in both chunks and in its trailer. -/
theorem chunked_decoding_pieces :
    let rendered := ascii "05;a\r\n0\r\n\r\n\r\na\r\n0123456789\r\n00\r\nt: u \r\n\r\n"
    (let S := ascii "GET / HTTP/1.1\nHost:\nTransfer-Encoding: chunked\r\n\r\n" ++ rendered
      let head : List (Op Empty) := .setBuffer 51 :: List.replicate 14 .next
      let pieces : List (Op Empty) := List.flatten [[.next, .setBuffer 1, .setBuffer 8],
        List.replicate 4 .next, [.setBuffer 13], List.replicate 5 .next, [.setBuffer 14],
        List.replicate 6 .next, [.setBuffer 6], List.replicate 3 .next]
      ∃ s₀ s log₁ log₂,
        (Request.session (fun _ => 0) S).play (Request.fresh .http10 0) head = .ok s₀ ∧
        (Request.session (fun _ => 0) S).play (Request.fresh .http10 0) (head ++ pieces) = .ok s ∧
        s.emitted = s₀.emitted ++ (log₁ ++ log₂) ∧ exampleBody.Decoded s₀.pass.consumed log₁) ∧
    (let S := ascii "HTTP/1.1 200 OK\r\nTransfer-Encoding: chunked\r\n\r\n" ++ rendered
      let get _ := ascii "GET"
      let head : List (Op Response.Call) := List.flatten [[.setBuffer 47], List.replicate 3 .next,
        [.call (.setMethod (ascii "GET"))], List.replicate 8 .next]
      let pieces : List (Op Response.Call) := List.flatten [[.next, .setBuffer 1, .setBuffer 8],
        List.replicate 4 .next, [.setBuffer 13], List.replicate 5 .next, [.setBuffer 14],
        List.replicate 6 .next, [.setBuffer 6], List.replicate 3 .next]
      ∃ s₀ s log₁ log₂,
        (Response.attentiveSession (fun _ => 0) get S).play (Response.fresh 0) head = .ok s₀ ∧
        (Response.attentiveSession (fun _ => 0) get S).play (Response.fresh 0) (head ++ pieces)
          = .ok s ∧
        s.emitted = s₀.emitted ++ (log₁ ++ log₂) ∧ exampleBody.Decoded s₀.pass.consumed log₁) := by
  intro rendered
  constructor
  · intro S head pieces
    have hhead : (Request.session (fun _ => 0) S).ends (Request.fresh .http10 0) head
        (fun s => s.reader.state = .expectChunkSize && S.drop s.pass.consumed = rendered) = true := by
      decide +kernel
    have hbody : rendered = exampleBody.bytes ++ [] := by decide +kernel
    obtain ⟨s₀, h₀, hs₀⟩ := Guarded.of_ends hhead
    simp only [Bool.and_eq_true, decide_eq_true_eq] at hs₀
    obtain ⟨s, h, hread⟩ := (chunked_decoding (fun _ => 0) S [] exampleBody).1 .http10 0 head pieces s₀ h₀
      hs₀.1 (hs₀.2.trans hbody) (by decide +kernel)
    have hc : (Request.session (fun _ => 0) S).ends (Request.fresh .http10 0) (head ++ pieces)
        (Request.complete S) = true := by decide +kernel
    rw [Guarded.ends_eq h] at hc
    obtain ⟨log₁, log₂, hlog, hdecoded, -⟩ := hread hc
    exact ⟨s₀, s, log₁, log₂, h₀, h, hlog, hdecoded⟩
  · intro S get head pieces
    have hhead : (Response.attentiveSession (fun _ => 0) get S).ends (Response.fresh 0) head
        (fun s => s.reader.state = .expectChunkSize && S.drop s.pass.consumed = rendered) = true := by
      decide +kernel
    have hbody : rendered = exampleBody.bytes ++ [] := by decide +kernel
    obtain ⟨s₀, h₀, hs₀⟩ := Guarded.of_ends hhead
    simp only [Bool.and_eq_true, decide_eq_true_eq] at hs₀
    obtain ⟨s, h, hread⟩ := (chunked_decoding (fun _ => 0) S [] exampleBody).2 get 0 head pieces s₀ h₀
      hs₀.1 (hs₀.2.trans hbody) (by decide +kernel)
    have hc : (Response.attentiveSession (fun _ => 0) get S).ends (Response.fresh 0) (head ++ pieces)
        (Response.complete (fun _ => 0) S) = true := by decide +kernel
    rw [Guarded.ends_eq h] at hc
    obtain ⟨log₁, log₂, hlog, hdecoded, -⟩ := hread hc
    exact ⟨s₀, s, log₁, log₂, h₀, h, hlog, hdecoded⟩

end BoostHttp
