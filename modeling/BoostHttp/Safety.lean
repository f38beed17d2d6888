import BoostHttp.Clients

/-!
# Safety — no read outside the buffer, and no byte lost or read twice

Both results are read off the invariant of a session: it bounds the token a reader is at, which is
where the loops of `next()` resume, and it relates the index of the reader to the tokens consumed.
-/

open Incremental

namespace BoostHttp

variable {σ β ν κ φ : Type}

/-- The first index and the bound of the loop written with `!=` that `next()` enters in a phase.  A
loop that starts above its bound does not meet it before it leaves the buffer. -/
def Reader.loop (p : Phase) (r : Reader σ β ν) : Option (Nat × Nat) :=
  match p with
  | .method | .requestTarget | .chunkExt => some (r.idx + r.tokenSize, r.ibuffer.length)
  | .staticStrAfterTarget =>
    some (r.idx + r.tokenSize, min r.ibuffer.length (r.idx + (ascii " HTTP/1.").length))
  | .versionStaticStr =>
    some (r.idx + r.tokenSize, min r.ibuffer.length (r.idx + (ascii "HTTP/1.").length))
  | .colon | .trailerColon => some (r.idx + 1, r.ibuffer.length)
  | _ => none

/-- The current token lies within the buffer, and a call of `next()` reads no byte outside of it:
its loops start within their bounds, and it comes back. -/
structure Reader.InBounds (phase : σ → Phase) (next : Reader σ β ν → Except Fault (Reader σ β ν))
    (r : Reader σ β ν) : Prop where
  token : phase r.state ≠ .errored → r.idx + r.tokenSize ≤ r.ibuffer.length
  loops : phase r.state ≠ .errored → r.consume.idx ≠ r.ibuffer.length →
    ∀ l ∈ r.consume.loop (phase r.state), l.1 ≤ l.2
  returns : ∃ r', next r = .ok r'

/-- The tokens consumed so far are the consumed part of the stream, the reader counts those since
the last `set_buffer`, and `next()` passes the current token exactly once. -/
structure Session.Tiled (S : Bytes) (next : Reader σ β ν → Except Fault (Reader σ β ν))
    (s : Session σ β ν κ) : Prop where
  consumed : s.consumed ≤ S.length
  slices : s.slices.flatten = S.take s.consumed
  current : s.reader.code.isError = false →
    s.reader.slice = (S.drop s.consumed).take s.reader.tokenSize ∧
      s.reader.slice.length = s.reader.tokenSize
  parsed : s.reader.parsedCount = s.sinceBuffer
  waits : s.reader.code = .errorInsufficientData →
    ∃ r', next s.reader = .ok r' ∧ r'.parsedCount = s.reader.parsedCount
  passes : s.reader.code.isError = false →
    ∃ r', next s.reader = .ok r' ∧ r'.parsedCount = s.reader.parsedCount + s.reader.tokenSize

namespace Session

variable {A : Api σ β ν κ} {mem : Nat → UInt8} {S : Bytes} {V : View σ β ν φ} {P : Policy φ}
  {Legal : Core φ → Prop} {s : Session σ β ν κ}

/-- The bytes kept of a literal are not more than the literal has. -/
theorem held_le (lit : Bytes) {r : Reader σ β ν} {p : Phase} (hscan : p.scan = literal lit)
    (hk : p.keeps = true) (hb : r.idx + r.tokenSize ≤ r.ibuffer.length) (h : p.Holds r.slice) :
    r.tokenSize ≤ lit.length := by
  have hle := (h.isPrefix hscan hk).length_le
  rwa [Reader.length_slice hb] at hle

theorem Tracks.loops (h : Tracks V Legal S s) (he : V.phase s.reader.state ≠ .errored)
    (hne : s.reader.consume.idx ≠ s.reader.ibuffer.length) :
    ∀ l ∈ s.reader.consume.loop (V.phase s.reader.state), l.1 ≤ l.2 := by
  intro l hl
  obtain ⟨hb, hheld⟩ := h.sound.consume_ready he
  have hbuf : s.reader.consume.ibuffer = s.reader.ibuffer := consume_ibuffer
  rw [← hbuf] at hb hne
  unfold Reader.loop at hl
  split at hl
  case h_1 | h_2 | h_3 => cases hl; exact hb
  case h_4 hp =>
    rw [hp] at hheld
    have hlit := held_le (ascii " HTTP/1.") rfl rfl hb hheld
    cases hl
    exact Nat.le_min.mpr ⟨hb, Nat.add_le_add_left hlit _⟩
  case h_5 hp =>
    rw [hp] at hheld
    have hlit := held_le (ascii "HTTP/1.") rfl rfl hb hheld
    cases hl
    exact Nat.le_min.mpr ⟨hb, Nat.add_le_add_left hlit _⟩
  case h_6 | h_7 =>
    cases hl
    change s.reader.consume.idx + 1 ≤ _
    omega
  case h_8 => cases hl

theorem Tracks.inBounds (hA : A.Lawful V P Legal) (h : Tracks V Legal S s) :
    s.reader.InBounds V.phase A.next := by
  refine ⟨h.sound.bound, h.loops, ?_⟩
  by_cases he : V.phase s.reader.state = .errored
  · exact ⟨_, hA.implements.errored he⟩
  · obtain ⟨r', hr', -⟩ := hA.implements.settles h.sound he
    exact ⟨r', hr'⟩

theorem Tracks.tiled (hA : A.Lawful V P Legal) (h : Tracks V Legal S s) : s.Tiled S A.next := by
  have hne := h.sound.ne_errored
  have hnf : s.reader.code.isError = false → s.reader.code.isFatal = false := by
    intro hc
    rw [Code.isFatal, hc]
    rfl
  refine ⟨h.consumed_le, h.tiles, fun hc => ?_, h.parsed, fun hc => ?_, fun hc => ?_⟩
  · have he := hne (hnf hc)
    exact ⟨(h.take_eq he (h.tokenSize_le he)).symm, Reader.length_slice (h.sound.bound he)⟩
  · obtain ⟨r', hr', hout⟩ := hA.implements.settles h.sound (hne (by rw [hc]; rfl))
    refine ⟨r', hr', hout.idx.trans ?_⟩
    rw [consume_of_insufficient hc]
    rfl
  · obtain ⟨r', hr', hout⟩ := hA.implements.settles h.sound (hne (hnf hc))
    refine ⟨r', hr', hout.idx.trans ?_⟩
    have hi : s.reader.code ≠ .errorInsufficientData := by
      intro hi
      rw [hi] at hc
      cases hc
    rw [consume_of_token hi]
    rfl

/-- The invariant of a session holds at the end of every conforming schedule. -/
theorem play_tracks (hA : A.Lawful V P Legal) {guard : Session σ β ν κ → Op κ → Bool}
    {ops : List (Op κ)} (hs : Tracks V Legal S s)
    (h : (system A mem S guard).conforming s ops = true) :
    ∃ s', (system A mem S guard).play s ops = .ok s' ∧ Tracks V Legal S s' := by
  obtain ⟨s', hplay, ht, -⟩ := play_induction hA (I := fun _ => True) (fun _ _ _ _ _ _ _ => trivial)
    (fun _ _ _ _ => trivial) (fun _ _ _ _ _ => trivial) hs trivial h
  exact ⟨s', hplay, ht⟩

end Session

/-! ## The two readers -/

/-- However a client drives a reader, no read of `next()` leaves the buffer. -/
theorem accesses_in_bounds (mem : Nat → UInt8) (S : Bytes) :
    (∀ version bodySize ops,
      (Request.session mem S).conforming (Request.fresh version bodySize) ops = true →
      ∃ s, (Request.session mem S).play (Request.fresh version bodySize) ops = .ok s ∧
        s.reader.InBounds Request.State.phase (Request.next mem)) ∧
    (∀ bodySize ops, (Response.session mem S).conforming (Response.fresh bodySize) ops = true →
      ∃ s, (Response.session mem S).play (Response.fresh bodySize) ops = .ok s ∧
        s.reader.InBounds Response.State.phase (Response.next mem)) := by
  constructor
  · intro version bodySize ops h
    obtain ⟨s, hplay, ht⟩ := Session.play_tracks (Request.lawful mem)
      (Request.tracks_fresh version bodySize S) h
    exact ⟨s, hplay, ht.inBounds (Request.lawful mem)⟩
  · intro bodySize ops h
    obtain ⟨s, hplay, ht⟩ := Session.play_tracks (Response.lawful mem)
      (Response.tracks_fresh bodySize S) h
    exact ⟨s, hplay, ht.inBounds (Response.lawful mem)⟩

/-- A schedule that shrinks the buffer down to the unfinished token, and one that stops in the
static text of a status line. -/
theorem accesses_in_bounds_shrunk :
    (∃ s, (Request.session (fun _ => 0) (ascii "GET / HTTP/1.1\r\n")).play (Request.fresh .http10 0)
        [.setBuffer 2, .setBuffer 16, .next, .setBuffer 1, .next, .next] = .ok s ∧
      s.reader.InBounds Request.State.phase (Request.next fun _ => 0)) ∧
    (∃ s, (Response.session (fun _ => 0) (ascii "HTTP/1.1 200 OK\r\n")).play (Response.fresh 0)
        [.setBuffer 5, .call .puteof, .next, .setBuffer 6] = .ok s ∧
      s.reader.InBounds Response.State.phase (Response.next fun _ => 0)) :=
  ⟨(accesses_in_bounds (fun _ => 0) (ascii "GET / HTTP/1.1\r\n")).1 .http10 0 _ (by decide +kernel),
    (accesses_in_bounds (fun _ => 0) (ascii "HTTP/1.1 200 OK\r\n")).2 0 _ (by decide +kernel)⟩

/-- However a client drives a reader, the tokens it consumes tile the stream. -/
theorem tokens_tile_stream (mem : Nat → UInt8) (S : Bytes) :
    (∀ version bodySize ops,
      (Request.session mem S).conforming (Request.fresh version bodySize) ops = true →
      ∃ s, (Request.session mem S).play (Request.fresh version bodySize) ops = .ok s ∧
        s.Tiled S (Request.next mem)) ∧
    (∀ bodySize ops, (Response.session mem S).conforming (Response.fresh bodySize) ops = true →
      ∃ s, (Response.session mem S).play (Response.fresh bodySize) ops = .ok s ∧
        s.Tiled S (Response.next mem)) := by
  constructor
  · intro version bodySize ops h
    obtain ⟨s, hplay, ht⟩ := Session.play_tracks (Request.lawful mem)
      (Request.tracks_fresh version bodySize S) h
    exact ⟨s, hplay, ht.tiled (Request.lawful mem)⟩
  · intro bodySize ops h
    obtain ⟨s, hplay, ht⟩ := Session.play_tracks (Response.lawful mem)
      (Response.tracks_fresh bodySize S) h
    exact ⟨s, hplay, ht.tiled (Response.lawful mem)⟩

/-- A request without a body up to its last token, which has no bytes, and the first message of a
response whose headers end in the middle of the buffer. -/
theorem tokens_tile_stream_messages :
    (∃ s, (Request.session (fun _ => 0) (ascii "GET / HTTP/1.0\n\n")).play (Request.fresh .http10 0)
        (.setBuffer 16 :: List.replicate 9 .next) = .ok s ∧
      s.Tiled (ascii "GET / HTTP/1.0\n\n") (Request.next fun _ => 0)) ∧
    (∃ s, (Response.session (fun _ => 0) (ascii "HTTP/1.1 204 \r\n\r\nHTTP/")).play
        (Response.fresh 0) (List.flatten [[.setBuffer 22], List.replicate 3 .next,
          [.call (.setMethod (ascii "GET"))], List.replicate 7 .next]) = .ok s ∧
      s.Tiled (ascii "HTTP/1.1 204 \r\n\r\nHTTP/") (Response.next fun _ => 0)) :=
  ⟨(tokens_tile_stream (fun _ => 0) (ascii "GET / HTTP/1.0\n\n")).1 .http10 0 _ (by decide +kernel),
    (tokens_tile_stream (fun _ => 0) (ascii "HTTP/1.1 204 \r\n\r\nHTTP/")).2 0 _ (by decide +kernel)⟩

end BoostHttp
