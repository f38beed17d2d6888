import BoostHttp.Lifetime

/-!
# Latching — a fatal error stays until `reset()`

The state `ERRORED` and the code of a fatal error are set together, and from then on no call changes
either of them or looks at a buffer.
-/

open Incremental

namespace BoostHttp

variable {σ β ν κ : Type}

/-- A call that a client may make on a failed reader, with a buffer that need not belong to any
stream. -/
inductive Poke (κ : Type) where
  | next
  | setBuffer (buffer : Bytes)
  | call (c : κ)

namespace Reader

def poke (next : Reader σ β ν → Except Fault (Reader σ β ν)) (call : κ → Reader σ β ν → Reader σ β ν)
    (r : Reader σ β ν) : Poke κ → Except Fault (Reader σ β ν)
  | .next => next r
  | .setBuffer buffer => r.setBufferWith next buffer
  | .call c => .ok (call c r)

/-- No byte is read: the calls come back whatever the buffer is, and also with an index outside of
it, where reading a byte would be a fault. -/
structure Unread (next : Reader σ β ν → Except Fault (Reader σ β ν)) (r : Reader σ β ν) : Prop where
  pull : ∀ idx buffer, next { r with idx := idx, ibuffer := buffer }
    = .ok { r with idx := idx, ibuffer := buffer }
  refill : ∀ buffer, r.setBufferWith next buffer = .ok { r with ibuffer := buffer, idx := 0 }

variable {next : Reader σ β ν → Except Fault (Reader σ β ν)} {call : κ → Reader σ β ν → Reader σ β ν}
  {errored : σ} {r : Reader σ β ν}

theorem unread_of_errored (hnext : ∀ r : Reader σ β ν, r.state = errored → next r = .ok r)
    (hr : r.state = errored) (hcode : r.code ≠ .errorInsufficientData) : r.Unread next := by
  refine ⟨fun idx buffer => hnext _ hr, fun buffer => ?_⟩
  unfold setBufferWith
  exact if_neg hcode

/-- One call on a failed reader changes neither its state nor its code. -/
theorem poke_latched (hnext : ∀ r : Reader σ β ν, r.state = errored → next r = .ok r)
    (hcall : ∀ c (r : Reader σ β ν), (call c r).state = r.state ∧ (call c r).code = r.code)
    (hr : r.state = errored) (hcode : r.code ≠ .errorInsufficientData) (o : Poke κ) :
    ∃ r', r.poke next call o = .ok r' ∧ r'.state = r.state ∧ r'.code = r.code := by
  cases o with
  | next => exact ⟨r, hnext r hr, rfl, rfl⟩
  | setBuffer buffer => exact ⟨_, (unread_of_errored hnext hr hcode).refill buffer, rfl, rfl⟩
  | call c => exact ⟨_, rfl, hcall c r⟩

/-- Any number of calls leave a failed reader as it is, and read nothing. -/
theorem pokes_latched (next : Reader σ β ν → Except Fault (Reader σ β ν))
    (call : κ → Reader σ β ν → Reader σ β ν) (errored : σ)
    (hnext : ∀ r : Reader σ β ν, r.state = errored → next r = .ok r)
    (hcall : ∀ c (r : Reader σ β ν), (call c r).state = r.state ∧ (call c r).code = r.code)
    (hr : r.state = errored) (hcode : r.code ≠ .errorInsufficientData) (os : List (Poke κ)) :
    ∃ r', os.foldlM (poke next call) r = .ok r' ∧ r'.state = errored ∧ r'.code = r.code ∧
      r'.Unread next := by
  induction os generalizing r with
  | nil => exact ⟨r, rfl, hr, rfl, unread_of_errored hnext hr hcode⟩
  | cons o os ih =>
    obtain ⟨r₁, h₁, hstate, hcode₁⟩ := poke_latched hnext hcall hr hcode o
    obtain ⟨r', h', hr', hc', hu⟩ := ih (hstate.trans hr) (by rw [hcode₁]; exact hcode)
    refine ⟨r', ?_, hr', hc'.trans hcode₁, hu⟩
    rw [List.foldlM_cons, h₁]
    exact h'

end Reader

theorem Code.ne_of_isFatal {c : Code} (h : c.isFatal = true) : c ≠ .errorInsufficientData := by
  rintro rfl
  cases h

/-- A reader is in the state `ERRORED` when its code is a fatal error, and no calls but `reset()` make
it leave that state, report something else, or read a byte. -/
theorem errors_latched (mem : Nat → UInt8) (S : Bytes) :
    (∀ s₀, Request.Begins s₀ → ∀ ops, (Request.session mem S).conforming s₀ ops = true →
      ∃ s, (Request.session mem S).play s₀ ops = .ok s ∧
        (s.reader.state = .errored ↔ s.reader.code.isFatal = true) ∧
        (s.reader.state = .errored → ∀ calls : List (Poke Empty),
          ∃ r', calls.foldlM (Reader.poke (Request.next mem) nofun) s.reader = .ok r' ∧
            r'.code = s.reader.code ∧ Request.expectedToken r' = s.reader.code ∧
            r'.Unread (Request.next mem))) ∧
    (∀ s₀, Response.Begins s₀ → ∀ ops, (Response.session mem S).conforming s₀ ops = true →
      ∃ s, (Response.session mem S).play s₀ ops = .ok s ∧
        (s.reader.state = .errored ↔ s.reader.code.isFatal = true) ∧
        (s.reader.state = .errored → ∀ calls : List (Poke Unit),
          ∃ r', calls.foldlM (Reader.poke (Response.next mem) fun _ => Response.puteof) s.reader
              = .ok r' ∧
            r'.code = s.reader.code ∧ Response.expectedToken r' = s.reader.code ∧
            r'.Unread (Response.next mem))) := by
  constructor
  · intro s₀ hs₀ ops h
    obtain ⟨version, bodySize, rfl⟩ := hs₀.eq_fresh
    obtain ⟨s, hplay, ht⟩ := Session.play_tracks (Request.lawful mem)
      (Request.tracks_fresh version bodySize S) h
    -- the state and the code say the same: `Sound.fatal`
    have hfatal : s.reader.state = .errored ↔ s.reader.code.isFatal = true :=
      (Request.State.phase_injective.eq_iff (b := .errored)).symm.trans ht.sound.fatal.symm
    refine ⟨s, hplay, hfatal, fun he calls => ?_⟩
    obtain ⟨r', hr', hstate, hcode, hu⟩ := Reader.pokes_latched (Request.next mem) nofun .errored
      (fun r hr => (Request.lawful mem).implements.errored (congrArg Request.State.phase hr))
      nofun he (Code.ne_of_isFatal (hfatal.mp he)) calls
    refine ⟨r', hr', hcode, ?_, hu⟩
    rw [Request.expectedToken, hstate]
    exact hcode
  · intro s₀ hs₀ ops h
    obtain ⟨bodySize, rfl⟩ := hs₀.eq_fresh
    obtain ⟨s, hplay, ht⟩ := Session.play_tracks (Response.lawful mem)
      (Response.tracks_fresh bodySize S) h
    have hfatal : s.reader.state = .errored ↔ s.reader.code.isFatal = true :=
      (Response.State.phase_injective.eq_iff (b := .errored)).symm.trans ht.sound.fatal.symm
    refine ⟨s, hplay, hfatal, fun he calls => ?_⟩
    obtain ⟨r', hr', hstate, hcode, hu⟩ := Reader.pokes_latched (Response.next mem)
      (fun _ => Response.puteof) .errored
      (fun r hr => (Response.lawful mem).implements.errored (congrArg Response.State.phase hr))
      (fun _ _ => ⟨rfl, rfl⟩) he (Code.ne_of_isFatal (hfatal.mp he)) calls
    refine ⟨r', hr', hcode, ?_, hu⟩
    rw [Response.expectedToken, hstate]
    exact hcode

/-- A second `Host` field, which no later buffer hides, and a response without a method, which the end
of the input does not change. -/
theorem errors_latched_host :
    (let S := ascii "GET / HTTP/1.1\nHost:\nHost:\n"
      let ops : List (Op Empty) := .setBuffer 27 :: List.replicate 10 .next
      let calls : List (Poke Empty) := [.setBuffer [], .next, .setBuffer (ascii "GET"), .next]
      ∃ s r', (Request.session (fun _ => 0) S).play (Request.fresh .http10 0) ops = .ok s ∧
        s.reader.code = .errorNoHost ∧
        calls.foldlM (Reader.poke (Request.next fun _ => 0) nofun) s.reader = .ok r' ∧
        r'.code = s.reader.code) ∧
    (let S := ascii "HTTP/1.1 200 OK\n"
      let ops : List (Op Response.Call) := .setBuffer 16 :: List.replicate 4 .next
      let calls : List (Poke Unit) := [.call (), .next, .setBuffer (ascii "H"), .next]
      ∃ s r', (Response.session (fun _ => 0) S).play (Response.fresh 0) ops = .ok s ∧
        s.reader.code = .errorSetMethod ∧
        calls.foldlM (Reader.poke (Response.next fun _ => 0) fun _ => Response.puteof) s.reader
          = .ok r' ∧
        r'.code = s.reader.code) := by
  constructor
  · intro S ops calls
    have hends : (Request.session (fun _ => 0) S).ends (Request.fresh .http10 0) ops
        (fun s => s.reader.code = .errorNoHost) = true := by decide +kernel
    obtain ⟨s, hplay, hcode⟩ := Guarded.of_ends hends
    rw [decide_eq_true_eq] at hcode
    obtain ⟨s', hplay', hfatal, hlatched⟩ := (errors_latched (fun _ => 0) S).1
      (Request.fresh .http10 0) (.inl ⟨_, _, rfl⟩) ops (by decide +kernel)
    have hs : s' = s := Except.ok.inj (hplay'.symm.trans hplay)
    subst hs
    obtain ⟨r', hr', hsame, -⟩ := hlatched (hfatal.mpr (by rw [hcode]; rfl)) calls
    exact ⟨s', r', hplay', hcode, hr', hsame⟩
  · intro S ops calls
    have hends : (Response.session (fun _ => 0) S).ends (Response.fresh 0) ops
        (fun s => s.reader.code = .errorSetMethod) = true := by decide +kernel
    obtain ⟨s, hplay, hcode⟩ := Guarded.of_ends hends
    rw [decide_eq_true_eq] at hcode
    obtain ⟨s', hplay', hfatal, hlatched⟩ := (errors_latched (fun _ => 0) S).2
      (Response.fresh 0) (.inl ⟨_, rfl⟩) ops (by decide +kernel)
    have hs : s' = s := Except.ok.inj (hplay'.symm.trans hplay)
    subst hs
    obtain ⟨r', hr', hsame, -⟩ := hlatched (hfatal.mpr (by rw [hcode]; rfl)) calls
    exact ⟨s', r', hplay', hcode, hr', hsame⟩

end BoostHttp
