import BoostHttp.Fields
import BoostHttp.Grammar
import BoostHttp.Numbers

/-!
# Bodies — what a lexer makes of a body

A body is framed by a count, by chunks or by the end of the connection.  For each framing this
module says what is observed of the bytes that follow a head.
-/

open Incremental

namespace BoostHttp

/-! ## Chunked bodies -/

/-- The extension of a chunk: it can be told from the size before it. -/
structure ChunkExt where
  bytes : Bytes
  chars : ∀ c ∈ bytes, isText c = true
  head : ∀ c ∈ bytes.head?, c ∉ Alphabet.hexDigits

/-- A chunk with data: its size in hexadecimal digits of either case, with leading zeros or not. -/
structure Chunk where
  size : Bytes
  ext : ChunkExt
  data : Bytes
  size_ne : size ≠ []
  size_digits : ∀ c ∈ size, c ∈ Alphabet.hexDigits
  size_value : Syntax.base16 size = data.length
  data_ne : data ≠ []
  data_lt : data.length < 2 ^ 64

def Chunk.bytes (k : Chunk) : Bytes := k.size ++ (k.ext.bytes ++ (CRLF ++ (k.data ++ CRLF)))

/-- The chunk that ends the data, its size written with one zero or more. -/
structure LastChunk where
  zeros : Bytes
  ext : ChunkExt
  zeros_ne : zeros ≠ []
  zeros_zero : ∀ c ∈ zeros, c = 0x30

def LastChunk.bytes (l : LastChunk) : Bytes := l.zeros ++ (l.ext.bytes ++ CRLF)

structure ChunkedBody where
  chunks : List Chunk
  last : LastChunk
  trailers : List Field

def ChunkedBody.lines (m : ChunkedBody) : List (Field × Eol) := m.trailers.map fun x => (x, .crlf)

def ChunkedBody.bytes (m : ChunkedBody) : Bytes :=
  m.chunks.flatMap Chunk.bytes ++ (m.last.bytes ++ (blockBytes m.lines ++ CRLF))

/-- An extension is reported unless it is empty, with the size of its chunk. -/
def ChunkExt.events (p n : Nat) (x : ChunkExt) : List Event :=
  if x.bytes = [] then [] else [.token p ⟨.chunkExt, x.bytes.length, .chunkExt n x.bytes⟩]

def Chunk.events (p : Nat) (k : Chunk) : List Event :=
  k.ext.events (p + k.size.length) k.data.length ++
    bytesFrom (p + k.size.length + k.ext.bytes.length + 2) k.data

def LastChunk.events (p : Nat) (l : LastChunk) : List Event :=
  l.ext.events (p + l.zeros.length) 0 ++
    [.token (p + l.zeros.length + l.ext.bytes.length) ⟨.endOfBody, 2, .none⟩]

def chunksEvents : Nat → List Chunk → List Event
  | _, [] => []
  | p, k :: ks => k.events p ++ chunksEvents (p + k.bytes.length) ks

def ChunkedBody.events (p : Nat) (m : ChunkedBody) : List Event :=
  let last := p + (m.chunks.flatMap Chunk.bytes).length
  let trailers := last + m.last.bytes.length
  chunksEvents p m.chunks ++ (m.last.events last ++
    (blockEvents .trailerName .trailerValue trailers m.lines ++
      [.token (trailers + (blockBytes m.lines).length) ⟨.endOfMessage, 2, .none⟩]))

section Chunks

variable {φ : Type} {P : Policy φ} {client : Client φ} {b : Bool} {j p n : Nat} {f : φ} {rest : Bytes}

/-- The size of a chunk. -/
theorem leads_chunkSize {size : Bytes} {d : UInt8} (hne : size ≠ [])
    (hdigits : ∀ c ∈ size, c ∈ Alphabet.hexDigits) (hd : d ∉ Alphabet.hexDigits)
    (hlt : Syntax.base16 size < 2 ^ 64) :
    (machine P client).Leads b p (⟨.chunkSize, f, n⟩, j) (size ++ d :: rest) [] (p + size.length)
      (⟨.chunkExt, f, Syntax.base16 size⟩, j) (d :: rest) := by
  have hdecode : Syntax.chunkSizeDecode 64 size n = (.ok, Syntax.base16 size) :=
    Syntax.chunkSize_ok_iff.mpr ⟨⟨hne, hdigits, hlt⟩, rfl⟩
  have hacc : P.accept ⟨.chunkSize, f, n⟩ size
      = .ok (⟨.chunkExt, f, Syntax.base16 size⟩, .skip) := by
    simp only [Policy.accept, hdecode]
  have hall : ∀ c ∈ size, Syntax.isHexdigit c = true :=
    fun c hc => (isHexdigit_iff c).mpr (hdigits c hc)
  have hend : Syntax.isHexdigit d = false := by simpa [← isHexdigit_iff] using hd
  obtain ⟨c, w, hw⟩ := List.exists_cons_of_ne_nil (l := size ++ d :: rest) (by simp)
  exact leads_lexeme (s := ⟨.chunkSize, f, n⟩) (q := .chunkSize) hw rfl rfl rfl (by simp)
    (scan_nonempty rfl hne hall hend) hacc (by simp)

/-- The extension of a chunk, if it has one. -/
theorem leads_chunkExt (x : ChunkExt) :
    (machine P client).Leads b p (⟨.chunkExt, f, n⟩, j) (x.bytes ++ CR :: rest) (x.events p n)
      (p + x.bytes.length) (⟨.crlfAfterChunkExt, f, n⟩, j) (CR :: rest) := by
  unfold ChunkExt.events
  cases hx : x.bytes with
  | nil =>
    -- the phase is decided by the carriage return alone
    intro v hr
    exact runs_congr (lex_resolve (s := ⟨.chunkExt, f, n⟩) rfl) hr
  | cons c w =>
    rw [if_neg (List.cons_ne_nil c w), ← hx]
    have hc : c ≠ CR := by
      rintro rfl
      have hchar := x.chars CR (by rw [hx]; exact List.mem_cons_self)
      revert hchar
      decide
    have hw : x.bytes ++ CR :: rest = c :: (w ++ CR :: rest) := by rw [hx]; rfl
    have hvalue : tokenValue .chunkExt n (x.bytes ++ CR :: rest) x.bytes.length
        = .chunkExt n x.bytes := by rw [tokenValue, List.take_left]
    have hspan : Phase.chunkExt.scan = spanned Detail.isChunkExtChar fun _ c => c == CR := rfl
    have hscan : Phase.chunkExt.scan (x.bytes ++ CR :: rest) = .ok x.bytes.length :=
      scan_span hspan (fun c hc => (isChunkExtChar_eq c).trans (x.chars c hc)) (by decide) rfl
    rw [← hvalue]
    exact leads_lexeme (s := ⟨.chunkExt, f, n⟩) (q := .chunkExt) hw rfl (if_neg hc) rfl (by simp)
      hscan rfl (by simp)

theorem scan_crlf {q : Phase} (hq : q.scan = fixed 2 (· == CRLF)) :
    q.scan (CRLF ++ rest) = .ok CRLF.length :=
  scan_fixed hq rfl (by decide)

/-- The line end before the data of a chunk. -/
theorem leads_crlfAfterChunkExt (hn : n ≠ 0) :
    (machine P client).Leads b p (⟨.crlfAfterChunkExt, f, n⟩, j) (CRLF ++ rest) [] (p + 2)
      (⟨.chunkData, f, n⟩, j) rest :=
  leads_lexeme (s := ⟨.crlfAfterChunkExt, f, n⟩) (q := .crlfAfterChunkExt) rfl rfl rfl rfl nofun
    (scan_crlf rfl) (if_pos hn) nofun

/-- The line end of the last chunk is the end of the body. -/
theorem leads_crlfAfterLastChunk :
    (machine P client).Leads b p (⟨.crlfAfterChunkExt, f, 0⟩, j) (CRLF ++ rest)
      [.token p ⟨.endOfBody, 2, .none⟩] (p + 2) (⟨.trailerName, f, 0⟩, j) rest :=
  leads_lexeme (s := ⟨.crlfAfterChunkExt, f, 0⟩) (q := .crlfAfterChunkExt) rfl rfl rfl rfl nofun
    (scan_crlf rfl) rfl nofun

/-- Counted bytes that are all there. -/
theorem leads_counted {data done : Phase} {body : Bytes} (hb : BodyPhases data done)
    (hne : body ≠ []) :
    (machine P client).Leads b p (⟨data, f, body.length⟩, j) (body ++ rest) (bytesFrom p body)
      (p + body.length) (⟨done, f, 0⟩, j) rest := by
  intro v hr
  have hlex : P.lex b ⟨data, f, body.length⟩ (body ++ rest) = _ := lex_body hb rfl (by simp [hne])
  have hmin : min (body ++ rest).length body.length = body.length := by
    rw [List.length_append]
    omega
  have hdone : (Core.mk data f body.length).deliver done body.length = ⟨done, f, 0⟩ := by
    simp [Core.deliver]
  rw [lexBody, hmin, hdone] at hlex
  rw [runs_bodyChunk hlex, List.take_left, List.drop_left]
  exact ⟨v, rfl, hr⟩

theorem ChunkExt.cons_crlf (x : ChunkExt) (rest : Bytes) :
    ∃ d y, x.bytes ++ (CRLF ++ rest) = d :: y ∧ d ∉ Alphabet.hexDigits := by
  cases hx : x.bytes with
  | nil => exact ⟨CR, LF :: rest, rfl, by decide +kernel⟩
  | cons d y => exact ⟨d, y ++ (CRLF ++ rest), rfl, x.head d (by rw [hx]; rfl)⟩

/-- The size of a chunk and its extension. -/
theorem leads_chunkHead {size : Bytes} (x : ChunkExt) (hne : size ≠ [])
    (hdigits : ∀ c ∈ size, c ∈ Alphabet.hexDigits) (hlt : Syntax.base16 size < 2 ^ 64) :
    (machine P client).Leads b p (⟨.chunkSize, f, n⟩, j) (size ++ (x.bytes ++ (CRLF ++ rest)))
      (x.events (p + size.length) (Syntax.base16 size)) (p + size.length + x.bytes.length)
      (⟨.crlfAfterChunkExt, f, Syntax.base16 size⟩, j) (CRLF ++ rest) := by
  obtain ⟨d, y, hy, hd⟩ := x.cons_crlf rest
  have hsize : (machine P client).Leads b p (⟨.chunkSize, f, n⟩, j) (size ++ d :: y) _ _ _ _ :=
    leads_chunkSize hne hdigits hd hlt
  rw [← hy] at hsize
  have hext : (machine P client).Leads b (p + size.length)
      (⟨.chunkExt, f, Syntax.base16 size⟩, j) (x.bytes ++ CR :: (LF :: rest)) _ _ _ _ :=
    leads_chunkExt x
  exact hsize.trans hext

/-- A chunk with data leaves the lexer where it was. -/
theorem leads_chunk (k : Chunk) :
    (machine P client).Leads b p (⟨.chunkSize, f, n⟩, j) (k.bytes ++ rest) (k.events p)
      (p + k.bytes.length) (⟨.chunkSize, f, 0⟩, j) rest := by
  have hlen : p + k.size.length + k.ext.bytes.length + 2 + k.data.length + 2
      = p + k.bytes.length := by
    have hcrlf : CRLF.length = 2 := rfl
    simp only [Chunk.bytes, List.length_append, hcrlf]
    omega
  have hhead : (machine P client).Leads b p (⟨.chunkSize, f, n⟩, j)
      (k.size ++ (k.ext.bytes ++ (CRLF ++ (k.data ++ (CRLF ++ rest))))) _ _ _ _ :=
    leads_chunkHead k.ext k.size_ne k.size_digits (by rw [k.size_value]; exact k.data_lt)
  rw [k.size_value] at hhead
  have hcrlf : (machine P client).Leads b (p + k.size.length + k.ext.bytes.length)
      (⟨.crlfAfterChunkExt, f, k.data.length⟩, j) (CRLF ++ (k.data ++ (CRLF ++ rest))) _ _ _ _ :=
    leads_crlfAfterChunkExt (List.length_pos_iff.mpr k.data_ne).ne'
  have hdata : (machine P client).Leads b (p + k.size.length + k.ext.bytes.length + 2)
      (⟨.chunkData, f, k.data.length⟩, j) (k.data ++ (CRLF ++ rest)) _ _
      (⟨.crlfAfterChunkData, f, 0⟩, j) _ :=
    leads_counted (.inr ⟨rfl, rfl⟩) k.data_ne
  have hend : (machine P client).Leads b
      (p + k.size.length + k.ext.bytes.length + 2 + k.data.length)
      (⟨.crlfAfterChunkData, f, 0⟩, j) (CRLF ++ rest) _ _ (⟨.chunkSize, f, 0⟩, j) _ :=
    leads_follows rfl (fun _ => rfl) rfl rfl nofun nofun (scan_crlf rfl) nofun
  have hbytes : k.bytes ++ rest
      = k.size ++ (k.ext.bytes ++ (CRLF ++ (k.data ++ (CRLF ++ rest)))) := by
    simp [Chunk.bytes]
  rw [hbytes, ← hlen]
  have hall := hhead.trans (hcrlf.trans (hdata.trans hend))
  rwa [List.nil_append, Token.events, List.append_nil] at hall

/-- The chunks before the last one; the member that counts holds what the last of them left. -/
theorem leads_chunks (ks : List Chunk) :
    ∃ n', (machine P client).Leads b p (⟨.chunkSize, f, n⟩, j) (ks.flatMap Chunk.bytes ++ rest)
      (chunksEvents p ks) (p + (ks.flatMap Chunk.bytes).length) (⟨.chunkSize, f, n'⟩, j) rest := by
  induction ks generalizing p n with
  | nil => exact ⟨n, Machine.Leads.refl⟩
  | cons k ks ih =>
    obtain ⟨n', hks⟩ := ih (p := p + k.bytes.length) (n := 0)
    refine ⟨n', ?_⟩
    rw [List.flatMap_cons, List.append_assoc, List.length_append, ← Nat.add_assoc]
    exact (leads_chunk k).trans hks

theorem LastChunk.zeros_digits (l : LastChunk) : ∀ c ∈ l.zeros, c ∈ Alphabet.hexDigits := by
  intro c hc
  rw [l.zeros_zero c hc]
  decide +kernel

theorem LastChunk.value_zeros (l : LastChunk) : Syntax.base16 l.zeros = 0 := by
  have hnil : l.zeros.dropWhile (· == 0x30) = [] :=
    List.dropWhile_eq_nil_iff.mpr fun c hc => by simpa using l.zeros_zero c hc
  rw [← Syntax.value_eq_base16 l.zeros_digits, ← Syntax.Radix.value_dropWhile, hnil]
  rfl

theorem leads_lastChunk (l : LastChunk) :
    (machine P client).Leads b p (⟨.chunkSize, f, n⟩, j) (l.bytes ++ rest) (l.events p)
      (p + l.bytes.length) (⟨.trailerName, f, 0⟩, j) rest := by
  have hlen : p + l.zeros.length + l.ext.bytes.length + 2 = p + l.bytes.length := by
    have hcrlf : CRLF.length = 2 := rfl
    simp only [LastChunk.bytes, List.length_append, hcrlf]
    omega
  have hhead : (machine P client).Leads b p (⟨.chunkSize, f, n⟩, j)
      (l.zeros ++ (l.ext.bytes ++ (CRLF ++ rest))) _ _ _ _ :=
    leads_chunkHead l.ext l.zeros_ne l.zeros_digits (by rw [l.value_zeros]; decide)
  rw [l.value_zeros] at hhead
  have hbytes : l.bytes ++ rest = l.zeros ++ (l.ext.bytes ++ (CRLF ++ rest)) := by
    simp [LastChunk.bytes]
  rw [hbytes, ← hlen]
  exact hhead.trans leads_crlfAfterLastChunk

/-! ## Trailers -/

/-- A trailer field; nothing depends on its name or its value. -/
theorem leads_trailer (x : Field) :
    (machine P client).Leads b p (⟨.trailerName, f, n⟩, j) (x.bytes .crlf ++ rest)
      (x.events .trailerName .trailerValue p) (p + (x.bytes .crlf).length)
      (⟨.trailerName, f, n⟩, j) rest := by
  let afterValue := CRLF ++ rest
  obtain ⟨c, y, hw, hc⟩ := x.name_cons (0x3A :: (x.text ++ afterValue))
  have hname : (machine P client).Leads b p (⟨.trailerName, f, n⟩, j)
      (x.name ++ 0x3A :: (x.text ++ afterValue)) _ _ (⟨.trailerColon, f, n⟩, j) _ :=
    leads_lexeme (s := ⟨.trailerName, f, n⟩) hw rfl (if_pos hc) rfl (by simp) (x.scan_name rfl) rfl
      (by simp)
  have hcolon : (machine P client).Leads b (p + x.name.length) (⟨.trailerColon, f, n⟩, j)
      (0x3A :: (x.text ++ afterValue)) _ _ _ _ := leads_colon (.inr ⟨rfl, rfl, rfl⟩) x (by decide)
  have hvalue : (machine P client).Leads b (p + x.name.length + (x.lead.length + 1))
      (⟨.trailerValue, f, n⟩, j) (x.raw ++ afterValue) _ _ (⟨.crlfAfterTrailerValue, f, n⟩, j) _ :=
    leads_follows rfl (fun _ => rfl) rfl rfl (by simp) (by simp [afterValue, CRLF])
      (x.scan_raw rfl (.inl rfl)) (by simp)
  have hcrlf : (machine P client).Leads b
      (p + x.name.length + (x.lead.length + 1) + x.raw.length)
      (⟨.crlfAfterTrailerValue, f, n⟩, j) afterValue _ _ (⟨.trailerName, f, n⟩, j) _ :=
    leads_follows rfl (fun _ => rfl) rfl rfl (by simp) (by simp [CRLF])
      (scan_crlf rfl) (by simp)
  -- the values shown are the name and the text without the whitespace around it
  have hnv : tokenValue .trailerName n (x.name ++ 0x3A :: (x.text ++ afterValue)) x.name.length
      = .view x.name := by rw [tokenValue, List.take_left]
  have hvv : tokenValue .trailerValue n (x.raw ++ afterValue) x.raw.length = .view x.value := by
    rw [tokenValue, List.take_left, trimTail_raw]
  rw [hnv] at hname
  rw [hvv] at hvalue
  have hbytes : x.bytes .crlf ++ rest = x.name ++ 0x3A :: (x.text ++ afterValue) := by
    simp [Field.bytes, Eol.bytes, afterValue]
  rw [hbytes, ← x.length_bytes]
  exact hname.trans (hcolon.trans (hvalue.trans hcrlf))

theorem leads_trailers (xs : List Field) :
    (machine P client).Leads b p (⟨.trailerName, f, n⟩, j)
      (blockBytes (xs.map fun x => (x, .crlf)) ++ rest)
      (blockEvents .trailerName .trailerValue p (xs.map fun x => (x, .crlf)))
      (p + (blockBytes (xs.map fun x => (x, .crlf))).length) (⟨.trailerName, f, n⟩, j) rest := by
  induction xs generalizing p with
  | nil => exact Machine.Leads.refl
  | cons x xs ih =>
    have hbytes : blockBytes ((x :: xs).map fun x => (x, .crlf))
        = x.bytes .crlf ++ blockBytes (xs.map fun x => (x, .crlf)) := rfl
    rw [hbytes, List.append_assoc, List.length_append, ← Nat.add_assoc]
    exact (leads_trailer x).trans ih

def Policy.afterTrailers (P : Policy φ) (f : φ) : Core φ :=
  ⟨(P.onTrailersEnd f).2, (P.onTrailersEnd f).1, 0⟩

theorem leads_trailersEnd :
    (machine P client).Leads b p (⟨.trailerName, f, 0⟩, j) (CRLF ++ rest)
      [.token p ⟨.endOfMessage, 2, .none⟩] (p + 2) (P.afterTrailers f, j) rest :=
  leads_lexeme (s := ⟨.trailerName, f, 0⟩) (q := .crlfAfterTrailers) rfl rfl (if_neg (by decide))
    rfl nofun (scan_crlf rfl) rfl nofun

/-- A chunked body is read as it was written. -/
theorem leads_chunkedBody (m : ChunkedBody) :
    (machine P client).Leads b p (⟨.chunkSize, f, n⟩, j) (m.bytes ++ rest) (m.events p)
      (p + m.bytes.length) (P.afterTrailers f, j) rest := by
  have hcrlf : CRLF.length = 2 := rfl
  let afterChunks := blockBytes m.lines ++ (CRLF ++ rest)
  let last := p + (m.chunks.flatMap Chunk.bytes).length
  obtain ⟨n', hchunks⟩ : ∃ n', (machine P client).Leads b p (⟨.chunkSize, f, n⟩, j)
      (m.chunks.flatMap Chunk.bytes ++ (m.last.bytes ++ afterChunks)) _ _ (⟨.chunkSize, f, n'⟩, j) _ :=
    leads_chunks m.chunks
  have hlast : (machine P client).Leads b last (⟨.chunkSize, f, n'⟩, j)
      (m.last.bytes ++ afterChunks) _ _ _ _ := leads_lastChunk m.last
  have htrailers : (machine P client).Leads b (last + m.last.bytes.length)
      (⟨.trailerName, f, 0⟩, j) afterChunks _ _ _ _ := leads_trailers m.trailers
  have hend : (machine P client).Leads b (last + m.last.bytes.length + (blockBytes m.lines).length)
      (⟨.trailerName, f, 0⟩, j) (CRLF ++ rest) _ _ _ _ := leads_trailersEnd
  have hbytes : m.bytes ++ rest
      = m.chunks.flatMap Chunk.bytes ++ (m.last.bytes ++ afterChunks) := by
    simp [ChunkedBody.bytes, afterChunks]
  have hlen : p + m.bytes.length
      = last + m.last.bytes.length + (blockBytes m.lines).length + 2 := by
    simp only [ChunkedBody.bytes, List.length_append, hcrlf, last]
    omega
  rw [hbytes, hlen]
  exact hchunks.trans (hlast.trans (htrailers.trans hend))

end Chunks

end BoostHttp
