import BoostHttp.Fragmentation

/-!
# Record — what the record of a session says about its stream

The tokens on record follow each other in the stream without a gap, each later state of a session
extends the record, and a record can be cut wherever its events can.
-/

open Incremental

namespace BoostHttp

/-! ## Cutting a record -/

theorem not_mem_bytesFrom {q p : Nat} {t : Token} (bs : Bytes) : .token q t ∉ bytesFrom p bs := by
  induction bs generalizing p with
  | nil => exact List.not_mem_nil
  | cons b bs ih =>
    rw [bytesFrom, List.mem_cons]
    rintro (h | h)
    · cases h
    · exact ih h

/-- A token that can be observed is all that is observed of its entry. -/
theorem events_of_mem {t t' : Token} {p q : Nat} (h : .token q t ∈ t'.events p) :
    t'.events p = [.token q t] ∧ (t.code.isFatal = false → q = p ∧ t' = t) := by
  unfold Token.events at h ⊢
  split at h
  · cases h
  · cases h
  · exact absurd h (not_mem_bytesFrom _)
  · split at h
    · rename_i hf
      rw [List.mem_singleton] at h
      cases h
      refine ⟨if_pos hf, fun hf' => ?_⟩
      rw [show Code.isFatal t'.code = false from hf'] at hf
      cases hf
    · rename_i hf
      rw [List.mem_singleton] at h
      cases h
      exact ⟨if_neg hf, fun _ => ⟨rfl, rfl⟩⟩

/-- A record can be cut at a token that is observed. -/
theorem events_split {log : List (Nat × Token)} {u v : List Event} {q : Nat} {t : Token}
    (h : events log = u ++ .token q t :: v) :
    ∃ log₁ e log₂, log = log₁ ++ e :: log₂ ∧ events log₁ = u ∧ e.2.events e.1 = [.token q t] ∧
      events log₂ = v := by
  induction log generalizing u with
  | nil => simp [events] at h
  | cons e log ih =>
    have hcons : events (e :: log) = e.2.events e.1 ++ events log := rfl
    rw [hcons] at h
    rcases List.append_eq_append_iff.mp h with ⟨a, hu, hlog⟩ | ⟨a, he, htail⟩
    · obtain ⟨log₁, e', log₂, rfl, h₁, h₂, h₃⟩ := ih hlog
      refine ⟨e :: log₁, e', log₂, rfl, ?_, h₂, h₃⟩
      rw [hu, ← h₁]
      rfl
    · cases a with
      | nil =>
        obtain ⟨log₁, e', log₂, rfl, h₁, h₂, h₃⟩ := ih (u := []) htail.symm
        refine ⟨e :: log₁, e', log₂, rfl, ?_, h₂, h₃⟩
        rw [List.append_nil] at he
        change e.2.events e.1 ++ events log₁ = u
        rw [h₁, List.append_nil, he]
      | cons d a =>
        rw [List.cons_append, List.cons.injEq] at htail
        obtain ⟨rfl, htail⟩ := htail
        obtain ⟨hone, -⟩ := events_of_mem (show .token q t ∈ e.2.events e.1 by rw [he]; simp)
        rw [hone] at he
        -- the entry has this one event, so nothing stands before or behind it
        have hlen := congrArg List.length he
        simp only [List.length_append, List.length_cons, List.length_nil] at hlen
        have hu : u = [] := List.length_eq_zero_iff.mp (by omega)
        have ha : a = [] := List.length_eq_zero_iff.mp (by omega)
        subst hu ha
        exact ⟨[], e, log, rfl, rfl, hone, htail.symm⟩

def Code.isShown (c : Code) : Bool := !([.skip, .errorInsufficientData, .bodyChunk].contains c)

theorem Code.isShown_of_isFatal {c : Code} (h : c.isFatal = true) : c.isShown = true := by
  cases c <;> first | rfl | cases h

theorem any_shows_events {c : Code} (hc : c.isShown = true) (p : Nat) (t : Token) :
    (t.events p).any (Event.shows c) = (t.code == c) := by
  by_cases h : t.code = c
  · have hev : t.events p = if t.code.isFatal then [.token p ⟨t.code, 0, .none⟩] else [.token p t] := by
      unfold Token.events
      rw [h]
      cases c <;> first | rfl | cases hc
    rw [hev]
    split <;> simp [Event.shows, h]
  · rw [any_events h]
    exact (beq_false_of_ne h).symm

/-- Whether a token was reported can be told from the events. -/
theorem any_shows {c : Code} (hc : c.isShown = true) (log : List (Nat × Token)) :
    (events log).any (Event.shows c) = log.any fun e => e.2.code == c := by
  induction log with
  | nil => rfl
  | cons e log ih =>
    have hcons : events (e :: log) = e.2.events e.1 ++ events log := rfl
    rw [hcons, List.any_append, List.any_cons, any_shows_events hc, ih]

/-! ## The bytes of bodies -/

def Token.body (t : Token) : Bytes :=
  match t.code, t.value with
  | .bodyChunk, .buffer bs => bs
  | _, _ => []

def body (log : List (Nat × Token)) : Bytes := log.flatMap fun e => e.2.body

theorem body_events (p : Nat) (t : Token) : (t.events p).flatMap Event.body = t.body := by
  unfold Token.events Token.body
  split
  · rename_i hc
    rw [hc]
    rfl
  · rename_i hc
    rw [hc]
    rfl
  · rename_i hc hv
    rw [hc, hv]
    exact body_bytesFrom p _
  · rename_i hne
    have hbody : (match t.code, t.value with
        | .bodyChunk, .buffer bs => bs
        | _, _ => ([] : Bytes)) = [] := by
      split
      · rename_i hc hv
        exact (hne _ hc hv).elim
      · rfl
    rw [hbody]
    split <;> rfl

/-- The bytes of the bodies on record are those that are observed. -/
theorem body_eq (log : List (Nat × Token)) : body log = (events log).flatMap Event.body := by
  induction log with
  | nil => rfl
  | cons e log ih =>
    have hcons : events (e :: log) = e.2.events e.1 ++ events log := rfl
    rw [hcons, List.flatMap_append, body_events, ← ih]
    rfl

/-! ## The places of the tokens -/

def Token.extent (t : Token) : Nat := if t.code.isError then 0 else t.size

def extent (log : List (Nat × Token)) : Nat := (log.map fun e => e.2.extent).sum

def Placed : Nat → List (Nat × Token) → Prop
  | _, [] => True
  | p, e :: log => e.1 = p ∧ Placed (p + e.2.extent) log

theorem placed_append (p : Nat) (a b : List (Nat × Token)) :
    Placed p (a ++ b) ↔ Placed p a ∧ Placed (p + extent a) b := by
  induction a generalizing p with
  | nil => simp [Placed, extent]
  | cons e a ih =>
    rw [List.cons_append, Placed, Placed, ih, and_assoc]
    simp [extent, Nat.add_assoc]

/-- Cutting a record at a token that is no error leaves a record that goes on behind the token. -/
theorem Placed.split {p q : Nat} {log : List (Nat × Token)} {u v : List Event} {t : Token}
    (hp : Placed p log) (h : events log = u ++ .token q t :: v) (ht : t.code.isError = false) :
    ∃ log₁ log₂, log = log₁ ++ (q, t) :: log₂ ∧ events log₁ = u ∧ events log₂ = v ∧
      q = p + extent log₁ ∧ Placed (q + t.size) log₂ := by
  obtain ⟨log₁, e, log₂, rfl, h₁, he, h₂⟩ := events_split h
  have hf : t.code.isFatal = false := by
    rw [Code.isFatal, ht]
    rfl
  obtain ⟨hq, ht'⟩ := (events_of_mem (show .token q t ∈ e.2.events e.1 by rw [he]; simp)).2 hf
  obtain ⟨-, hat, hplaced⟩ := (placed_append p log₁ (e :: log₂)).mp hp
  rw [← hat, ← hq, ht', Token.extent, if_neg (by rw [ht]; decide)] at hplaced
  refine ⟨log₁, log₂, ?_, h₁, h₂, hq.trans hat, hplaced⟩
  rw [← ht', hq]

/-- The same, with the token in the first part. -/
theorem Placed.cut {p q : Nat} {log : List (Nat × Token)} {u v : List Event} {t : Token}
    (hp : Placed p log) (h : events log = u ++ .token q t :: v) (ht : t.code.isError = false) :
    ∃ log₁ log₂, log = log₁ ++ log₂ ∧ events log₁ = u ++ [.token q t] ∧ events log₂ = v ∧
      p + extent log₁ = q + t.size ∧ Placed (q + t.size) log₂ := by
  obtain ⟨log₁, log₂, rfl, h₁, h₂, hq, hplaced⟩ := hp.split h ht
  have hext : t.extent = t.size := if_neg (by rw [ht]; decide)
  have hone : t.events q = [.token q t] := by
    rw [events_append, h₁] at h
    have hcons : t.events q ++ events log₂ = .token q t :: v := List.append_cancel_left h
    rw [h₂] at hcons
    exact List.append_cancel_right (hcons.trans rfl)
  refine ⟨log₁ ++ [(q, t)], log₂, by simp, ?_, h₂, ?_, hplaced⟩
  · rw [events_append, h₁, ← hone]
    exact congrArg (u ++ ·) (List.append_nil _)
  · have hsum : extent (log₁ ++ [(q, t)]) = extent log₁ + t.extent := by simp [extent]
    rw [hsum, hext]
    omega

namespace Session

variable {σ β ν κ φ : Type} {A : Api σ β ν κ} {mem : Nat → UInt8} {S : Bytes} {V : View σ β ν φ}
  {P : Policy φ} {Legal : Core φ → Prop} {s s₀ : Session σ β ν κ}
  {guard : Session σ β ν κ → Op κ → Bool} {ops₀ ops : List (Op κ)}

/-- The tokens on record follow each other and end where the session goes on, body chunks have
bytes, and a fatal error on record is the current token. -/
structure Recorded (s : Session σ β ν κ) : Prop where
  placed : Placed 0 s.emitted
  consumed : s.pass.consumed = extent s.emitted
  wellFormed : ∀ e ∈ s.emitted, e.2.WellFormed
  fatal : ∀ e ∈ s.emitted, e.2.code.isFatal = true → s.reader.code.isFatal = true

theorem report_pass_consumed (mem : Nat → UInt8) (s : Session σ β ν κ) (r' : Reader σ β ν) :
    (s.pass.report mem r').pass.consumed = s.pass.consumed + (r'.token mem).extent := by
  cases h : r'.code.isError with
  | true =>
    have h' : (s.pass.report mem r').reader.code.isError = true := h
    have ht : (r'.token mem).code.isError = true := h
    rw [pass_of_isError h', Token.extent, if_pos ht]
    rfl
  | false =>
    have h' : (s.pass.report mem r').reader.code.isError = false := h
    have hne : ¬ (r'.token mem).code.isError = true := by
      change ¬ r'.code.isError = true
      rw [h]
      decide
    rw [pass_of_token h', Token.extent, if_neg hne]
    rfl

theorem emitted_report (mem : Nat → UInt8) (s : Session σ β ν κ) (r' : Reader σ β ν) :
    (s.pass.report mem r').emitted = s.emitted ++ [(s.pass.consumed, r'.token mem)] := by
  change s.pass.emitted ++ _ = _
  rw [pass_emitted]

theorem play_recorded (hA : A.Lawful V P Legal) (ht : Tracks V Legal S s) (hr : Recorded s)
    (h : (system A mem S guard).conforming s ops = true) :
    ∃ s', (system A mem S guard).play s ops = .ok s' ∧ Tracks V Legal S s' ∧ Recorded s' := by
  refine play_induction hA ?_ ?_ ?_ ht hr h
  · intro s r' ht hr he _ _ hout _
    refine ⟨?_, ?_, wellFormed_report hA ht he hout hr.wellFormed, fun e hmem hf => ?_⟩
    · rw [emitted_report, placed_append, Nat.zero_add]
      exact ⟨hr.placed, hr.consumed, trivial⟩
    · rw [report_pass_consumed, emitted_report, hr.consumed]
      simp [extent]
    · rw [emitted_report] at hmem
      rcases List.mem_append.mp hmem with hmem | hmem
      · exact absurd (ht.sound.fatal.mp (hr.fatal e hmem hf)) he
      · rw [List.mem_singleton.mp hmem] at hf
        exact hf
  · intro s size _ hr _ _
    refine ⟨hr.placed, ?_, hr.wellFormed, hr.fatal⟩
    rw [rebase_pass_consumed]
    exact hr.consumed
  · intro s c r' ht hr hp _ hcall
    obtain ⟨-, -, hcode, -, hsize, -⟩ := hA.of_call ht.sound hp hcall
    refine ⟨hr.placed, ?_, hr.wellFormed, fun e hmem hf => ?_⟩
    · rw [note_pass_consumed s c r' hcode hsize]
      exact hr.consumed
    · change r'.code.isFatal = true
      rw [hcode]
      exact hr.fatal e hmem hf

/-- A fatal error on record is the current token. -/
theorem play_fatal (hA : A.Lawful V P Legal) (ht : Tracks V Legal S s)
    (hs : ∀ e ∈ s.emitted, e.2.code.isFatal = true → s.reader.code = e.2.code)
    (h : (system A mem S guard).conforming s ops = true) :
    ∃ s', (system A mem S guard).play s ops = .ok s' ∧ Tracks V Legal S s' ∧
      ∀ e ∈ s'.emitted, e.2.code.isFatal = true → s'.reader.code = e.2.code := by
  refine play_induction hA ?_ (fun _ hi _ _ => hi) ?_ ht hs h
  · intro s r' ht hi he _ _ _ _ e hmem hf
    rw [emitted_report] at hmem
    rcases List.mem_append.mp hmem with hmem | hmem
    · refine absurd (ht.sound.fatal.mp ?_) he
      rw [hi e hmem hf]
      exact hf
    · rw [List.mem_singleton.mp hmem]
      rfl
  · intro s c r' ht hi hp _ hcall e hmem hf
    obtain ⟨-, -, hcode, -⟩ := hA.of_call ht.sound hp hcall
    exact hcode.trans (hi e hmem hf)

theorem fatal_of_play (hA : A.Lawful V P Legal) (ht : Tracks V Legal S s)
    (hs : ∀ e ∈ s.emitted, e.2.code.isFatal = true → s.reader.code = e.2.code)
    (h : (system A mem S guard).conforming s ops = true)
    (hplay : (system A mem S guard).play s ops = .ok s') :
    ∀ e ∈ s'.emitted, e.2.code.isFatal = true → s'.reader.code = e.2.code := by
  obtain ⟨s₁, hplay₁, -, hfatal⟩ := play_fatal hA ht hs h
  obtain rfl := Except.ok.inj (hplay₁.symm.trans hplay)
  exact hfatal

/-- A record only grows. -/
theorem play_grows (hA : A.Lawful V P Legal) (ht : Tracks V Legal S s₀)
    (h : (system A mem S guard).conforming s₀ ops = true) :
    ∃ s, (system A mem S guard).play s₀ ops = .ok s ∧ s₀.emitted <+: s.emitted := by
  have hpull : ∀ {s : Session σ β ν κ} {r' : Reader σ β ν}, s₀.emitted <+: s.emitted →
      s₀.emitted <+: (s.pass.report mem r').emitted := by
    intro s r' hi
    rw [emitted_report]
    exact hi.trans (List.prefix_append _ _)
  obtain ⟨s, hplay, -, hgrows⟩ := play_induction hA (I := fun s => s₀.emitted <+: s.emitted)
    (fun _ hi _ _ _ _ _ => hpull hi) (fun _ hi _ _ => hi) (fun _ hi _ _ _ => hi) ht
    List.prefix_rfl h
  exact ⟨s, hplay, hgrows⟩

/-- What `next()` does, in terms of the lexer: the state and the offset follow it. -/
theorem report_cases (mem : Nat → UInt8) {r' : Reader σ β ν} (hA : A.Lawful V P Legal)
    (ht : Tracks V Legal S s) (he : V.phase s.reader.state ≠ .errored)
    (hout : Settles V s.reader.consume
      (P.lex (V.eof s.reader.connection) (V.core s.reader) s.reader.consume.restView) r') :
    (P.lex (V.eof s.reader.connection) (V.core s.reader) s.reader.consume.restView
        = .need (V.core r') ∧ r'.code = .errorInsufficientData ∧
      V.phase r'.state ≠ .errored ∧ (s.pass.report mem r').pass.consumed = s.pass.consumed) ∨
    (∃ n code, P.lex (V.eof s.reader.connection) (V.core s.reader) s.reader.consume.restView
        = .emit (V.core r') n code ∧
      r'.token mem = ⟨code, n, tokenValue code r'.bodySize s.reader.consume.restView n⟩ ∧
      V.phase r'.state ≠ .errored ∧ (s.pass.report mem r').pass.consumed = s.pass.consumed + n) ∨
    (P.lex (V.eof s.reader.connection) (V.core s.reader) s.reader.consume.restView
        = .fail r'.code ∧ V.phase r'.state = .errored) := by
  have hlegal := ht.sound.legal he
  have hkeeps := hA.implements.keeps
  cases hlex : P.lex (V.eof s.reader.connection) (V.core s.reader) s.reader.consume.restView with
  | need c' =>
    rw [hlex] at hout
    obtain ⟨rfl, hcode, -⟩ := hout.outcome
    have herr : (r'.token mem).code.isError = true := by
      change r'.code.isError = true
      rw [hcode]
      rfl
    refine .inl ⟨rfl, hcode, (hkeeps.need hlegal hlex).2, ?_⟩
    rw [report_pass_consumed, Token.extent, if_pos herr]
    rfl
  | emit c' n code =>
    obtain ⟨-, hne, hcodes, -⟩ := hkeeps.emit hlegal hlex
    rw [hlex] at hout
    have htok := token_eq mem hout
    obtain ⟨rfl, -, -⟩ := hout.outcome
    refine .inr (.inl ⟨n, code, rfl, htok, hne, ?_⟩)
    rw [report_pass_consumed, htok, Token.extent, if_neg (by simp [hcodes])]
  | fail code =>
    rw [hlex] at hout
    obtain ⟨hphase, rfl⟩ := hout.outcome
    exact .inr (.inr ⟨rfl, hphase⟩)

/-- The induction over the runs of a session, in terms of its lexer: `J` relates what has been added
to the record, the offset and the state of the lexer, and `F` is what is left of it after a fatal
error. -/
theorem play_follows (hA : A.Lawful V P Legal) {J : List (Nat × Token) → Nat → Core φ → Prop}
    {F : List (Nat × Token) → Prop}
    (hemit : ∀ {log p x c w c' n code}, J log p c → Legal c → w <+: S.drop p →
      P.lex (V.eof x) c w = .emit c' n code →
      J (log ++ [(p, ⟨code, n, tokenValue code c'.bodySize w n⟩)]) (p + n) c')
    (hneed : ∀ {log p x c w c' t}, J log p c → P.lex (V.eof x) c w = .need c' →
      t.code = .errorInsufficientData → J (log ++ [(p, t)]) p c')
    (hfail : ∀ {log p x c w t}, J log p c → Legal c → P.lex (V.eof x) c w = .fail t.code →
      F (log ++ [(p, t)]))
    (hcall : ∀ {log p c s r'}, J log p (V.core s.reader) → Sound V Legal s.reader →
      A.callable c s.reader = true → guard s (.call c) = true → A.call c s.reader = .ok r' →
      J log p (V.core r'))
    (ht : Tracks V Legal S s₀) (he : V.phase s₀.reader.state ≠ .errored)
    (hJ : J [] s₀.pass.consumed (V.core s₀.reader))
    (h : (system A mem S guard).conforming s₀ ops = true) :
    ∃ s log, (system A mem S guard).play s₀ ops = .ok s ∧ Tracks V Legal S s ∧
      s.emitted = s₀.emitted ++ log ∧ (V.phase s.reader.state = .errored → F log) ∧
      (V.phase s.reader.state ≠ .errored → J log s.pass.consumed (V.core s.reader)) := by
  have hrun : ∃ s, (system A mem S guard).play s₀ ops = .ok s ∧ Tracks V Legal S s ∧ ∃ log,
      s.emitted = s₀.emitted ++ log ∧ (V.phase s.reader.state = .errored → F log) ∧
      (V.phase s.reader.state ≠ .errored → J log s.pass.consumed (V.core s.reader)) := by
    refine play_induction hA ?_ ?_ ?_ ht
      ⟨[], (List.append_nil _).symm, fun h => absurd h he, fun _ => hJ⟩ h
    · rintro s r' ht ⟨log, hlog, -, hJ⟩ he - - hout -
      refine ⟨log ++ [(s.pass.consumed, r'.token mem)], ?_, ?_⟩
      · rw [emitted_report, hlog, List.append_assoc]
      have hJ := hJ he
      rcases report_cases mem hA ht he hout with ⟨hlex, hcode, hne, hpass⟩ |
        ⟨n, code, hlex, htok, hne, hpass⟩ | ⟨hlex, hphase⟩
      · refine ⟨fun h => absurd h hne, fun _ => ?_⟩
        rw [hpass]
        exact hneed hJ hlex hcode
      · refine ⟨fun h => absurd h hne, fun _ => ?_⟩
        rw [hpass, htok]
        exact hemit hJ (ht.sound.legal he) (ht.pass_window he) hlex
      · exact ⟨fun _ => hfail hJ (ht.sound.legal he) hlex, fun h => absurd hphase h⟩
    · rintro s size - ⟨log, hlog, hF, hJ⟩ - -
      refine ⟨log, hlog, hF, fun he => ?_⟩
      rw [rebase_pass_consumed]
      exact hJ he
    · rintro s c r' ht ⟨log, hlog, hF, hJ⟩ hp hg hcl
      obtain ⟨-, hstate, hcode, -, hsize, -⟩ := hA.of_call ht.sound hp hcl
      refine ⟨log, hlog, fun h => hF (hstate ▸ h), fun h => ?_⟩
      rw [note_pass_consumed s c r' hcode hsize]
      exact hcall (hJ (hstate ▸ h)) ht.sound hp hg hcl
  obtain ⟨s, hplay, ht', log, hlog, hF, hJ⟩ := hrun
  exact ⟨s, log, hplay, ht', hlog, hF, hJ⟩

/-- When a fatal error and no end of headers is observed, the reader has failed and has not reported
the end of headers. -/
theorem refused_of_events {log₀ log : List (Nat × Token)} {c : Code} (hr : Recorded s)
    (hlog : s.emitted = log₀ ++ log) (hend : (events log).any (Event.shows .endOfHeaders) = false)
    (hc : c.isFatal = true) (hshows : (events log).any (Event.shows c) = true) :
    s.reader.code.isFatal = true ∧ ∀ e ∈ log, e.2.code ≠ .endOfHeaders := by
  have hshown : c.isShown = true := by
    cases c <;> first | rfl | cases hc
  rw [any_shows hshown] at hshows
  rw [any_shows rfl] at hend
  obtain ⟨e, he, hcode⟩ := List.any_eq_true.mp hshows
  constructor
  · refine hr.fatal e ?_ ?_
    · rw [hlog]
      exact List.mem_append_right _ he
    · rwa [eq_of_beq hcode]
  · intro e he hcode
    have hfalse := List.any_eq_false.mp hend e he
    simp [hcode] at hfalse

/-- A fatal error that is observed is the current token. -/
theorem code_of_events {log₀ log : List (Nat × Token)} {c : Code}
    (hs : ∀ e ∈ s.emitted, e.2.code.isFatal = true → s.reader.code = e.2.code)
    (hlog : s.emitted = log₀ ++ log) (hc : c.isFatal = true)
    (hshows : (events log).any (Event.shows c) = true) : s.reader.code = c := by
  rw [any_shows (Code.isShown_of_isFatal hc)] at hshows
  obtain ⟨e, he, hcode⟩ := List.any_eq_true.mp hshows
  have hcode : e.2.code = c := eq_of_beq hcode
  have hmem : e ∈ s.emitted := by
    rw [hlog]
    exact List.mem_append_right _ he
  rw [hs e hmem (by rw [hcode]; exact hc), hcode]

/-- What a session adds to its record from some moment on. -/
theorem play_log (hA : A.Lawful V P Legal) (ht : Tracks V Legal S s) (hr : Recorded s)
    (h₀ : (system A mem S guard).play s ops₀ = .ok s₀)
    (h : (system A mem S guard).conforming s (ops₀ ++ ops) = true) :
    ∃ s' log, (system A mem S guard).play s (ops₀ ++ ops) = .ok s' ∧
      Tracks V Legal S s₀ ∧ Recorded s' ∧ s'.emitted = s₀.emitted ++ log ∧
      Placed s₀.pass.consumed log := by
  obtain ⟨s₁, hplay₁, ht₁, hr₁⟩ := play_recorded hA ht hr (Guarded.conforming_append h)
  have hs₁ : s₀ = s₁ := Except.ok.inj (h₀.symm.trans hplay₁)
  subst hs₁
  have h' := Guarded.conforming_of_play h h₀
  obtain ⟨s', hplay', -, hr'⟩ := play_recorded hA ht₁ hr₁ h'
  obtain ⟨s'', hplay'', log, hlog⟩ := play_grows hA ht₁ h'
  have hs'' : s' = s'' := Except.ok.inj (hplay'.symm.trans hplay'')
  subst hs''
  refine ⟨s', log, ?_, ht₁, hr', hlog.symm, ?_⟩
  · rw [Guarded.play_append, h₀]
    exact hplay'
  · have hplaced := hr'.placed
    rw [← hlog, placed_append, Nat.zero_add, ← hr₁.consumed] at hplaced
    exact hplaced.2

end Session

/-! ## The two readers -/

namespace Request

theorem recorded_fresh (version : Version) (bodySize : Nat) :
    (fresh version bodySize).Recorded := ⟨trivial, rfl, nofun, nofun⟩

/-- What a complete schedule adds from some moment on is what the lexer observes from there. -/
theorem play_adds {mem : Nat → UInt8} {S : Bytes} {version : Version} {bodySize : Nat} {s₀ : Run}
    {ops₀ ops : List (Op Empty)}
    (h₀ : (session mem S).play (fresh version bodySize) ops₀ = .ok s₀)
    (he : s₀.reader.state.phase ≠ .errored)
    (h : (session mem S).conforming (fresh version bodySize) (ops₀ ++ ops) = true) :
    ∃ s log, (session mem S).play (fresh version bodySize) (ops₀ ++ ops) = .ok s ∧
      Session.Tracks view Legal S s₀ ∧ s.Recorded ∧ s.emitted = s₀.emitted ++ log ∧
      Placed s₀.pass.consumed log ∧
      (complete S s = true → lexer.Runs false s₀.pass.consumed (view.core s₀.reader, 0)
        (S.drop s₀.pass.consumed) (events log)) := by
  obtain ⟨s, log, hplay, ht₀, hrec, hlog, hplaced⟩ := Session.play_log (lawful mem)
    (tracks_fresh version bodySize S) (recorded_fresh version bodySize) h₀ h
  obtain ⟨s', hplay', -, -, hruns⟩ := play_continues h₀ he h
  have hs' : s = s' := Except.ok.inj (hplay.symm.trans hplay')
  subst hs'
  refine ⟨s, log, hplay, ht₀, hrec, hlog, hplaced, fun hc => ?_⟩
  obtain ⟨v, hv, hr⟩ := hruns hc
  rw [hlog, events_append] at hv
  rwa [List.append_cancel_left hv]

end Request

namespace Response

theorem pending_eq {methods : Nat → Bytes} {s : Run} (hs : Sound view Legal s.reader)
    (hp : s.reader.state.phase ≠ .spAfterStatusCode) : pending methods s = view.core s.reader :=
  if_neg fun h => hp (hs.status h.1).1

theorem recorded_fresh (bodySize : Nat) : (fresh bodySize).Recorded := ⟨trivial, rfl, nofun, nofun⟩

/-- What a complete schedule adds from some moment on is what the lexer observes from there. -/
theorem play_adds {mem : Nat → UInt8} {S : Bytes} {methods : Nat → Bytes} {bodySize : Nat}
    {s₀ : Run} {ops₀ ops : List (Op Call)}
    (h₀ : (attentiveSession mem methods S).play (fresh bodySize) ops₀ = .ok s₀)
    (he : s₀.reader.state.phase ≠ .errored)
    (h : (attentiveSession mem methods S).conforming (fresh bodySize) (ops₀ ++ ops) = true) :
    ∃ s log, (attentiveSession mem methods S).play (fresh bodySize) (ops₀ ++ ops) = .ok s ∧
      Session.Tracks view Legal S s₀ ∧ s.Recorded ∧ s.emitted = s₀.emitted ++ log ∧
      Placed s₀.pass.consumed log ∧
      (complete mem S s = true → (lexer methods).Runs s.reader.connection.eofReceived
        s₀.pass.consumed (pending methods s₀, statusCodes s₀) (S.drop s₀.pass.consumed)
        (events log)) := by
  obtain ⟨s, log, hplay, ht₀, hrec, hlog, hplaced⟩ := Session.play_log (lawful mem)
    (tracks_fresh bodySize S) (recorded_fresh bodySize) h₀ h
  obtain ⟨s', hplay', -, -, hruns⟩ := play_continues h₀ he h
  have hs' : s = s' := Except.ok.inj (hplay.symm.trans hplay')
  subst hs'
  refine ⟨s, log, hplay, ht₀, hrec, hlog, hplaced, fun hc => ?_⟩
  obtain ⟨v, hv, hr⟩ := hruns hc
  rw [hlog, events_append] at hv
  rwa [List.append_cancel_left hv]

end Response

end BoostHttp
