import BoostHttp.Incremental.Schedule
import BoostHttp.Refines

/-!
# Session — a reader, the stream it is fed from, and the client that drives it

A session is the state of a reader together with a record of what happened so far: how many bytes
have been consumed, which tokens were reported at which offsets, and which other member functions
were called.  The client hands over windows of one stream `S`, each starting at the first byte that
has not been consumed; `Tracks` is the invariant that relates the reader to the stream.
-/

open Incremental

namespace BoostHttp

variable {σ β ν κ φ : Type}

/-- The member functions of a reader: `next()`, and further calls `κ` that the client may make. -/
structure Api (σ β ν κ : Type) where
  next : Reader σ β ν → Except Fault (Reader σ β ν)
  callable : κ → Reader σ β ν → Bool
  call : κ → Reader σ β ν → Except Fault (Reader σ β ν)

/-- The reader implements a lexer, and a call keeps the invariant and leaves the buffer and the current token alone. -/
structure Api.Lawful (A : Api σ β ν κ) (V : View σ β ν φ) (P : Policy φ)
    (Legal : Core φ → Prop) : Prop where
  implements : Implements V P Legal A.next
  call : ∀ {c r}, Sound V Legal r → A.callable c r = true → ∃ r', A.call c r = .ok r' ∧
    Sound V Legal r' ∧ r'.state = r.state ∧ r'.code = r.code ∧ r'.idx = r.idx ∧
    r'.tokenSize = r.tokenSize ∧ r'.ibuffer = r.ibuffer

/-- What is known of a reader after a call that was made on it. -/
theorem Api.Lawful.of_call {A : Api σ β ν κ} {V : View σ β ν φ} {P : Policy φ}
    {Legal : Core φ → Prop} (hA : A.Lawful V P Legal) {c : κ} {r r' : Reader σ β ν}
    (hr : Sound V Legal r) (hc : A.callable c r = true) (h : A.call c r = .ok r') :
    Sound V Legal r' ∧ r'.state = r.state ∧ r'.code = r.code ∧ r'.idx = r.idx ∧
      r'.tokenSize = r.tokenSize ∧ r'.ibuffer = r.ibuffer := by
  obtain ⟨r'', hcall, hframe⟩ := hA.call hr hc
  have heq : r' = r'' := Except.ok.inj (h.symm.trans hcall)
  rwa [heq]

def Reader.token (mem : Nat → UInt8) (r : Reader σ β ν) : Token where
  code := r.code
  size := r.tokenSize
  value := r.value mem

/-- What a client does.  The buffer is given by its size: it always continues the stream. -/
inductive Op (κ : Type) where
  | next
  | setBuffer (size : Nat)
  | call (c : κ)
  deriving DecidableEq, Repr

structure Session (σ β ν κ : Type) where
  reader : Reader σ β ν
  /-- The number of bytes of the tokens consumed so far, and since the last `set_buffer`. -/
  consumed : Nat
  sinceBuffer : Nat
  /-- The bytes of the tokens consumed so far. -/
  slices : List Bytes
  /-- The tokens that `next()` reported, with their offsets. -/
  emitted : List (Nat × Token)
  /-- The other calls, each with the number of tokens reported before it. -/
  calls : List (Nat × κ)
  deriving DecidableEq, Repr

namespace Session

def start (r : Reader σ β ν) : Session σ β ν κ := ⟨r, 0, 0, [], [], []⟩

def pass (s : Session σ β ν κ) : Session σ β ν κ :=
  if s.reader.code.isError then s
  else
    { s with
      consumed := s.consumed + s.reader.tokenSize
      sinceBuffer := s.sinceBuffer + s.reader.tokenSize
      slices := s.slices ++ [s.reader.slice] }

def report (mem : Nat → UInt8) (s : Session σ β ν κ) (r : Reader σ β ν) : Session σ β ν κ :=
  { s with reader := r, emitted := s.emitted ++ [(s.consumed, r.token mem)] }

variable (A : Api σ β ν κ) (mem : Nat → UInt8) (S : Bytes)

/-- The client calls `next()`.  Once a fatal error is reported, nothing more is. -/
def pull (s : Session σ β ν κ) : Except Fault (Session σ β ν κ) :=
  match A.next s.reader with
  | .error f => .error f
  | .ok r => .ok (if s.reader.code.isFatal then { s with reader := r } else s.pass.report mem r)

def refill (s : Session σ β ν κ) (size : Nat) : Except Fault (Session σ β ν κ) :=
  match s.reader.setBufferWith A.next ((S.drop s.consumed).take size) with
  | .error f => .error f
  | .ok r =>
    let s' := { s with sinceBuffer := 0 }
    .ok (if s.reader.code = .errorInsufficientData then s'.report mem r else { s' with reader := r })

def note (s : Session σ β ν κ) (c : κ) (r : Reader σ β ν) : Session σ β ν κ :=
  { s with reader := r, calls := s.calls ++ [(s.emitted.length, c)] }

def invoke (s : Session σ β ν κ) (c : κ) : Except Fault (Session σ β ν κ) :=
  match A.call c s.reader with
  | .error f => .error f
  | .ok r => .ok (s.note c r)

/-- A buffer must be a part of the stream and cover the current token. -/
def permits (s : Session σ β ν κ) : Op κ → Bool
  | .next => true
  | .setBuffer size =>
    s.consumed + size ≤ S.length && (s.reader.code.isFatal || s.reader.tokenSize ≤ size)
  | .call c => A.callable c s.reader

def system (guard : Session σ β ν κ → Op κ → Bool) : Guarded (Session σ β ν κ) (Op κ) Fault where
  permits s o := permits A S s o && guard s o
  perform s
    | .next => s.pull A mem
    | .setBuffer size => s.refill A mem S size
    | .call c => s.invoke A c

def free (_ : Session σ β ν κ) (_ : Op κ) : Bool := true

def exposed (s : Session σ β ν κ) : Bool :=
  s.consumed - s.sinceBuffer + s.reader.ibuffer.length == S.length

/-! ## The invariant -/

variable {A mem S} {V : View σ β ν φ} {P : Policy φ} {Legal : Core φ → Prop}
  {s : Session σ β ν κ} {r' : Reader σ β ν}

/-- The reader of the session is at the place of the stream that the record says. -/
structure Tracks (V : View σ β ν φ) (Legal : Core φ → Prop) (S : Bytes) (s : Session σ β ν κ) :
    Prop where
  sound : Sound V Legal s.reader
  parsed : s.reader.idx = s.sinceBuffer
  since_le : s.sinceBuffer ≤ s.consumed
  consumed_le : s.consumed ≤ S.length
  window : V.phase s.reader.state ≠ .errored → s.reader.restView <+: S.drop s.consumed
  tiles : s.slices.flatten = S.take s.consumed

@[simp] theorem pass_emitted : s.pass.emitted = s.emitted := by
  unfold pass; split <;> rfl

@[simp] theorem pass_calls : s.pass.calls = s.calls := by
  unfold pass; split <;> rfl

theorem pass_of_isError (h : s.reader.code.isError = true) : s.pass = s := if_pos h

theorem pass_of_token (h : s.reader.code.isError = false) :
    s.pass = { s with
      consumed := s.consumed + s.reader.tokenSize
      sinceBuffer := s.sinceBuffer + s.reader.tokenSize
      slices := s.slices ++ [s.reader.slice] } := if_neg (by simp [h])

theorem isError_eq (hr : Sound V Legal s.reader) (he : V.phase s.reader.state ≠ .errored) :
    s.reader.code.isError = true ↔ s.reader.code = .errorInsufficientData := by
  rw [isError_iff, or_iff_left (fun h => he (hr.fatal.mp h))]

/-- What a window shows of the stream. -/
theorem Tracks.take_eq (h : Tracks V Legal S s) (he : V.phase s.reader.state ≠ .errored) {n : Nat}
    (hn : n ≤ s.reader.restView.length) : (S.drop s.consumed).take n = s.reader.restView.take n := by
  obtain ⟨x, hx⟩ := h.window he
  rw [← hx, List.take_append_of_le_length hn]

theorem Tracks.tokenSize_le (h : Tracks V Legal S s) (he : V.phase s.reader.state ≠ .errored) :
    s.reader.tokenSize ≤ s.reader.restView.length := by
  have hb := h.sound.bound he
  rw [Reader.length_restView]
  omega

/-- The stream from the place on at which `next()` will look. -/
theorem Tracks.pass_window (h : Tracks V Legal S s) (he : V.phase s.reader.state ≠ .errored) :
    s.reader.consume.restView <+: S.drop s.pass.consumed := by
  by_cases hc : s.reader.code.isError = true
  · rw [pass_of_isError hc, consume_of_insufficient ((isError_eq h.sound he).mp hc)]
    exact h.window he
  · have hi : s.reader.code ≠ .errorInsufficientData := fun hi => hc (by rw [hi]; rfl)
    rw [pass_of_token (by simpa using hc), consume_of_token hi]
    obtain ⟨x, hx⟩ := h.window he
    refine ⟨x, ?_⟩
    have hle := h.tokenSize_le he
    change s.reader.ibuffer.drop (s.reader.idx + s.reader.tokenSize) ++ x = _
    rw [← List.drop_drop, ← List.drop_drop, ← hx, List.drop_append_of_le_length hle]
    rfl

/-- A window on all of the stream stays one. -/
theorem Tracks.pass_whole (h : Tracks V Legal S s) (he : V.phase s.reader.state ≠ .errored)
    (hw : s.reader.restView = S.drop s.consumed) :
    s.reader.consume.restView = S.drop s.pass.consumed := by
  refine (h.pass_window he).eq_of_length ?_
  have hlen := congrArg List.length hw
  rw [Reader.length_restView, List.length_drop] at hlen
  have hb := h.sound.bound he
  have hcons := h.consumed_le
  rw [Reader.length_restView, List.length_drop, consume_ibuffer]
  by_cases hc : s.reader.code.isError = true
  · rw [pass_of_isError hc, consume_of_insufficient ((isError_eq h.sound he).mp hc)]
    exact hlen
  · have hi : s.reader.code ≠ .errorInsufficientData := fun hi => hc (by rw [hi]; rfl)
    rw [pass_of_token (by simpa using hc), consume_of_token hi]
    change s.reader.ibuffer.length - (s.reader.idx + s.reader.tokenSize)
      = S.length - (s.consumed + s.reader.tokenSize)
    omega

/-- The record after the current token is consumed is as exact as before. -/
theorem Tracks.pass (h : Tracks V Legal S s) (he : V.phase s.reader.state ≠ .errored) :
    s.reader.consume.idx = s.pass.sinceBuffer ∧ s.pass.sinceBuffer ≤ s.pass.consumed ∧
      s.pass.consumed ≤ S.length ∧ s.pass.slices.flatten = S.take s.pass.consumed := by
  by_cases hc : s.reader.code.isError = true
  · rw [pass_of_isError hc, consume_of_insufficient ((isError_eq h.sound he).mp hc)]
    exact ⟨h.parsed, h.since_le, h.consumed_le, h.tiles⟩
  · have hi : s.reader.code ≠ .errorInsufficientData := fun hi => hc (by rw [hi]; rfl)
    rw [pass_of_token (by simpa using hc), consume_of_token hi]
    have hle := h.tokenSize_le he
    have hwin := (h.window he).length_le
    rw [List.length_drop] at hwin
    have hsince := h.since_le
    have hcons := h.consumed_le
    refine ⟨?_, ?_, ?_, ?_⟩
    · change s.reader.idx + s.reader.tokenSize = s.sinceBuffer + s.reader.tokenSize
      rw [h.parsed]
    · change s.sinceBuffer + s.reader.tokenSize ≤ s.consumed + s.reader.tokenSize
      omega
    · change s.consumed + s.reader.tokenSize ≤ S.length
      omega
    · change (s.slices ++ [s.reader.slice]).flatten = S.take (s.consumed + s.reader.tokenSize)
      rw [List.flatten_append, h.tiles, List.flatten_singleton, List.take_add, h.take_eq he hle]
      rfl

/-! ## The operations -/

theorem Tracks.report (h : Tracks V Legal S s) (he : V.phase s.reader.state ≠ .errored)
    {out : Out (Core φ) Code} (hr' : Sound V Legal r') (hout : Settles V s.reader.consume out r') :
    Tracks V Legal S (s.pass.report mem r') := by
  obtain ⟨hidx, hsince, hcons, htiles⟩ := h.pass he
  refine ⟨hr', ?_, hsince, hcons, fun _ => ?_, htiles⟩
  · change r'.idx = s.pass.sinceBuffer
    rw [← hidx]
    exact hout.idx
  · change r'.restView <+: S.drop s.pass.consumed
    rw [hout.restView]
    exact h.pass_window he

theorem pull_fatal (hA : A.Lawful V P Legal) (he : V.phase s.reader.state = .errored)
    (hr : Sound V Legal s.reader) : s.pull A mem = .ok s := by
  rw [pull, hA.implements.errored he]
  simp only
  rw [if_pos (hr.fatal.mpr he)]

/-- A call of `next()` consumes the current token and reports what the lexer finds behind it. -/
theorem pull_ok (mem : Nat → UInt8) (hA : A.Lawful V P Legal) (h : Tracks V Legal S s)
    (he : V.phase s.reader.state ≠ .errored) :
    ∃ r', A.next s.reader = .ok r' ∧ s.pull A mem = .ok (s.pass.report mem r') ∧
      Settles V s.reader.consume
        (P.lex (V.eof s.reader.connection) (V.core s.reader) s.reader.consume.restView) r' ∧
      Tracks V Legal S (s.pass.report mem r') := by
  obtain ⟨r', hnext, hout⟩ := hA.implements.settles h.sound he
  refine ⟨r', hnext, ?_, hout, h.report he (hout.sound hA.implements.keeps h.sound he) hout⟩
  have hf : ¬ s.reader.code.isFatal = true := fun hf => he (h.sound.fatal.mp hf)
  rw [pull, hnext]
  simp only
  rw [if_neg hf]

/-- The session with a new buffer, before the reader has looked at it. -/
def rebase (S : Bytes) (s : Session σ β ν κ) (size : Nat) : Session σ β ν κ :=
  { s with
    reader := { s.reader with ibuffer := (S.drop s.consumed).take size, idx := 0 }
    sinceBuffer := 0 }

theorem refill_eq_pull (h : s.reader.code = .errorInsufficientData) (size : Nat) :
    s.refill A mem S size = (s.rebase S size).pull A mem := by
  have hpass : (s.rebase S size).pass = s.rebase S size := pass_of_isError (by
    change s.reader.code.isError = true
    rw [h]
    rfl)
  have hf : ¬ (s.rebase S size).reader.code.isFatal = true := by
    change ¬ s.reader.code.isFatal = true
    rw [h]
    decide
  unfold refill pull Reader.setBufferWith
  simp only [if_pos h, if_neg hf, hpass]
  rfl

theorem refill_eq_ok (h : s.reader.code ≠ .errorInsufficientData) (size : Nat) :
    s.refill A mem S size = .ok (s.rebase S size) := by
  unfold refill Reader.setBufferWith
  simp only [if_neg h]
  rfl

@[simp] theorem rebase_restView (s : Session σ β ν κ) (size : Nat) :
    (s.rebase S size).reader.restView = (S.drop s.consumed).take size := List.drop_zero

/-- A permitted buffer shows the current token as the old one did. -/
theorem Tracks.rebase_slice (h : Tracks V Legal S s) (he : V.phase s.reader.state ≠ .errored)
    {size : Nat} (hp : permits A S s (.setBuffer size) = true) :
    s.reader.tokenSize ≤ size ∧ (s.rebase S size).reader.slice = s.reader.slice := by
  simp only [permits, Bool.and_eq_true, decide_eq_true_eq, Bool.or_eq_true] at hp
  have hfit : s.reader.tokenSize ≤ size :=
    hp.2.resolve_left fun hf => he (h.sound.fatal.mp hf)
  refine ⟨hfit, ?_⟩
  change (s.rebase S size).reader.restView.take s.reader.tokenSize = _
  rw [rebase_restView, List.take_take, Nat.min_eq_left hfit, h.take_eq he (h.tokenSize_le he)]
  rfl

theorem Tracks.rebase (h : Tracks V Legal S s) {size : Nat}
    (hp : permits A S s (.setBuffer size) = true) : Tracks V Legal S (s.rebase S size) := by
  have hsize : s.consumed + size ≤ S.length := by
    simp only [permits, Bool.and_eq_true, decide_eq_true_eq] at hp
    exact hp.1
  have hlen : ((S.drop s.consumed).take size).length = size := by
    rw [List.length_take, List.length_drop]
    omega
  refine ⟨⟨h.sound.fatal, fun he => ?_, fun hc => ?_, h.sound.zeroSized, h.sound.last,
    h.sound.status, h.sound.legal⟩, rfl, Nat.zero_le _, h.consumed_le, fun _ => ?_, h.tiles⟩
  · change 0 + s.reader.tokenSize ≤ ((S.drop s.consumed).take size).length
    rw [hlen, Nat.zero_add]
    exact (h.rebase_slice he hp).1
  · have hcode : s.reader.code = .errorInsufficientData := hc
    have he := h.sound.ne_errored (by rw [hcode]; rfl)
    rw [(h.rebase_slice he hp).2]
    exact h.sound.held hc
  · rw [rebase_restView]
    exact List.take_prefix size _

/-! ## Runs -/

variable {guard : Session σ β ν κ → Op κ → Bool} {ops : List (Op κ)}

theorem Tracks.invoke (hA : A.Lawful V P Legal) (h : Tracks V Legal S s) {c : κ}
    (hc : A.callable c s.reader = true) :
    ∃ r', A.call c s.reader = .ok r' ∧ s.invoke A c = .ok (s.note c r') ∧
      Tracks V Legal S (s.note c r') := by
  obtain ⟨r', hcall, hr', hstate, -, hidx, -, hbuf⟩ := hA.call h.sound hc
  refine ⟨r', hcall, by rw [Session.invoke, hcall], ?_⟩
  refine ⟨hr', hidx.trans h.parsed, h.since_le, h.consumed_le, fun he => ?_, h.tiles⟩
  have hrest : r'.restView = s.reader.restView := by
    rw [Reader.restView, hidx, hbuf]
    rfl
  change r'.restView <+: S.drop s.consumed
  rw [hrest]
  exact h.window (by rwa [← hstate])

/-- The induction over the runs of a session: what holds at the beginning and is kept by `next()`,
by a new buffer and by the other calls holds at the end, and nothing goes wrong on the way. -/
theorem play_induction (hA : A.Lawful V P Legal) {I : Session σ β ν κ → Prop}
    (hpull : ∀ {s : Session σ β ν κ} {r'}, Tracks V Legal S s → I s →
      V.phase s.reader.state ≠ .errored →
      s.reader.code = .errorInsufficientData ∨ guard s .next = true →
      A.next s.reader = .ok r' →
      Settles V s.reader.consume
        (P.lex (V.eof s.reader.connection) (V.core s.reader) s.reader.consume.restView) r' →
      Tracks V Legal S (s.pass.report mem r') → I (s.pass.report mem r'))
    (hrebase : ∀ {s : Session σ β ν κ} {size}, Tracks V Legal S s → I s →
      permits A S s (.setBuffer size) = true → guard s (.setBuffer size) = true →
      I (s.rebase S size))
    (hcall : ∀ {s : Session σ β ν κ} {c r'}, Tracks V Legal S s → I s →
      A.callable c s.reader = true → guard s (.call c) = true → A.call c s.reader = .ok r' →
      I (s.note c r'))
    (hs : Tracks V Legal S s) (hI : I s)
    (h : (system A mem S guard).conforming s ops = true) :
    ∃ s', (system A mem S guard).play s ops = .ok s' ∧ Tracks V Legal S s' ∧ I s' := by
  refine Guarded.play_invariant (I := fun s => Tracks V Legal S s ∧ I s) ?_ ⟨hs, hI⟩ h
  rintro s o ⟨ht, hi⟩ hp
  simp only [system, Bool.and_eq_true] at hp
  obtain ⟨hp, hg⟩ := hp
  have hnext : ∀ {s : Session σ β ν κ}, Tracks V Legal S s → I s →
      s.reader.code = .errorInsufficientData ∨ guard s .next = true →
      ∃ s', s.pull A mem = .ok s' ∧ Tracks V Legal S s' ∧ I s' := by
    intro s ht hi hg
    by_cases he : V.phase s.reader.state = .errored
    · exact ⟨s, pull_fatal hA he ht.sound, ht, hi⟩
    · obtain ⟨r', hn, hpl, hout, ht'⟩ := pull_ok mem hA ht he
      exact ⟨_, hpl, ht', hpull ht hi he hg hn hout ht'⟩
  cases o with
  | next => exact hnext ht hi (.inr hg)
  | setBuffer size =>
    have hi' := hrebase ht hi hp hg
    have ht' := ht.rebase hp
    by_cases hc : s.reader.code = .errorInsufficientData
    · simp only [system, refill_eq_pull hc]
      exact hnext ht' hi' (.inl hc)
    · exact ⟨_, refill_eq_ok hc size, ht', hi'⟩
  | call c =>
    obtain ⟨r', hcl, hinv, ht'⟩ := ht.invoke hA hp
    exact ⟨_, hinv, ht', hcall ht hi hp hg hcl⟩

/-! ## The record of calls -/

theorem calls_of_perform {o : Op κ} {s' : Session σ β ν κ}
    (h : (system A mem S guard).perform s o = .ok s') :
    ∀ c, (∃ n, (n, c) ∈ s'.calls) ↔ (∃ n, (n, c) ∈ s.calls) ∨ o = .call c := by
  intro c
  cases o with
  | next =>
    have hcalls : s'.calls = s.calls := by
      simp only [system, pull] at h
      split at h
      · cases h
      · cases h
        split
        · rfl
        · exact pass_calls
    simp [hcalls]
  | setBuffer size =>
    have hcalls : s'.calls = s.calls := by
      simp only [system, refill] at h
      split at h
      · cases h
      · cases h
        split <;> rfl
    simp [hcalls]
  | call d =>
    have hcalls : s'.calls = s.calls ++ [(s.emitted.length, d)] := by
      simp only [system, invoke] at h
      split at h
      · cases h
      · cases h
        rfl
    simp only [hcalls, List.mem_append, List.mem_singleton, Prod.mk.injEq, Op.call.injEq]
    constructor
    · rintro ⟨n, h | ⟨-, rfl⟩⟩
      · exact .inl ⟨n, h⟩
      · exact .inr rfl
    · rintro (⟨n, h⟩ | rfl)
      · exact ⟨n, .inl h⟩
      · exact ⟨s.emitted.length, .inr ⟨rfl, rfl⟩⟩

/-- The calls on record are those of the schedule. -/
theorem calls_of_play {s' : Session σ β ν κ} (h : (system A mem S guard).play s ops = .ok s')
    (c : κ) : (∃ n, (n, c) ∈ s'.calls) ↔ (∃ n, (n, c) ∈ s.calls) ∨ .call c ∈ ops := by
  induction ops generalizing s with
  | nil =>
    cases h
    simp
  | cons o ops ih =>
    rw [Guarded.play] at h
    split at h
    · rename_i s₁ h₁
      rw [ih h, calls_of_perform h₁ c, List.mem_cons, eq_comm (a := Op.call c), or_assoc]
    · cases h

end Session

end BoostHttp
