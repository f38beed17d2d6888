import BoostHttp.Incremental.Machine

/-!
# Frames — machines that read one message after another

Between two messages a framed machine is in a state from which it reads a message of a given form,
and it shows the end of a message only behind such a message; the last message may close the input.
Then an input is read as a sequence of messages, and it is read in one way only.
-/

namespace Incremental

variable {σ α τ ε μ : Type*}

/-- The place of the first marked entry of a list is determined. -/
theorem first_unique {m : ε → Prop} {u u' v v' : List ε} {e e' : ε} (hu : ∀ a ∈ u, ¬ m a)
    (hu' : ∀ a ∈ u', ¬ m a) (he : m e) (he' : m e') (h : u ++ e :: v = u' ++ e' :: v') :
    u = u' ∧ e = e' ∧ v = v' := by
  induction u generalizing u' with
  | nil =>
    cases u' with
    | nil =>
      obtain ⟨rfl, rfl⟩ := List.cons.inj h
      exact ⟨rfl, rfl, rfl⟩
    | cons d u' =>
      obtain ⟨rfl, -⟩ := List.cons.inj h
      exact absurd he (hu' e List.mem_cons_self)
  | cons d u ih =>
    cases u' with
    | nil =>
      obtain ⟨rfl, -⟩ := List.cons.inj h
      exact absurd he' (hu d List.mem_cons_self)
    | cons d' u' =>
      obtain ⟨rfl, htail⟩ := List.cons.inj h
      obtain ⟨rfl, hev⟩ := ih (fun a ha => hu a (List.mem_cons_of_mem _ ha))
        (fun a ha => hu' a (List.mem_cons_of_mem _ ha)) htail
      exact ⟨rfl, hev⟩

/-- Messages as they are written and as they are observed from an offset on. -/
structure Format (α ε μ : Type*) where
  bytes : μ → List α
  events : Nat → μ → List ε
  /-- The offset at which a message ends, for an observation that shows the end of one. -/
  mark : ε → Option Nat

namespace Format

variable (F : Format α ε μ)

def stream (ms : List μ) : List α := ms.flatMap F.bytes

def streamEvents : Nat → List μ → List ε
  | _, [] => []
  | p, m :: ms => F.events p m ++ streamEvents (p + (F.bytes m).length) ms

def Unmarked (v : List ε) : Prop := ∀ e ∈ v, F.mark e = none

/-- Each message may come at its place, counted from `k` on, and only the last one closes an input
that goes on with `rest`. -/
def Sequence (Reads : Nat → μ → Prop) (Closes : Nat → μ → List α → Prop) :
    Nat → List μ → List α → Prop
  | _, [], _ => True
  | k, m :: ms, rest => Reads k m ∧ Sequence Reads Closes (k + 1) ms rest ∨ ms = [] ∧ Closes k m rest

variable {F}

@[simp] theorem stream_nil : F.stream [] = [] := rfl

@[simp] theorem stream_cons (m : μ) (ms : List μ) : F.stream (m :: ms) = F.bytes m ++ F.stream ms :=
  rfl

theorem stream_append (ms ms' : List μ) : F.stream (ms ++ ms') = F.stream ms ++ F.stream ms' :=
  List.flatMap_append

theorem streamEvents_append (p : Nat) (ms ms' : List μ) : F.streamEvents p (ms ++ ms')
    = F.streamEvents p ms ++ F.streamEvents (p + (F.stream ms).length) ms' := by
  induction ms generalizing p with
  | nil => rfl
  | cons m ms ih =>
    rw [List.cons_append, streamEvents, streamEvents, ih, stream_cons, List.length_append,
      List.append_assoc, Nat.add_assoc]

theorem sequence_of_forall {Reads : Nat → μ → Prop} {Closes : Nat → μ → List α → Prop}
    (h : ∀ k m, Reads k m) {k : Nat} (ms : List μ) (rest : List α) :
    Sequence Reads Closes k ms rest := by
  induction ms generalizing k with
  | nil => trivial
  | cons m ms ih => exact .inl ⟨h k m, ih⟩

/-- The first messages of a sequence are one too, before the others. -/
theorem Sequence.of_append {Reads : Nat → μ → Prop} {Closes : Nat → μ → List α → Prop} {k : Nat}
    {ms ms' : List μ} {rest : List α} (h : Sequence Reads Closes k (ms ++ ms') rest) :
    Sequence Reads Closes k ms (F.stream ms' ++ rest) := by
  induction ms generalizing k with
  | nil => trivial
  | cons m ms ih =>
    rcases h with ⟨hm, hms⟩ | ⟨hnil, hm⟩
    · exact .inl ⟨hm, ih hms⟩
    · obtain ⟨rfl, rfl⟩ := List.append_eq_nil_iff.mp hnil
      exact .inr ⟨rfl, hm⟩

/-- How the first message of a sequence comes. -/
theorem Sequence.head {Reads : Nat → μ → Prop} {Closes : Nat → μ → List α → Prop} {k : Nat} {m : μ}
    {ms : List μ} {rest : List α} (h : Sequence Reads Closes k (m :: ms) rest) :
    Reads k m ∨ Closes k m (F.stream ms ++ rest) := by
  rcases h with ⟨hm, -⟩ | ⟨rfl, hm⟩
  · exact .inl hm
  · exact .inr hm

/-- Where the first end of a message is shown is determined. -/
theorem first_mark_unique {u u' v v' : List ε} {e e' : ε} (hu : F.Unmarked u) (hu' : F.Unmarked u')
    (he : F.mark e ≠ none) (he' : F.mark e' ≠ none) (h : u ++ e :: v = u' ++ e' :: v') :
    u = u' ∧ e = e' ∧ v = v' :=
  first_unique (m := fun e => F.mark e ≠ none) (fun a ha => not_not.mpr (hu a ha))
    (fun a ha => not_not.mpr (hu' a ha)) he he' h

end Format

/-- The machine `M` reads messages.  `Between k` holds of its states behind `k` messages, `Reads k`
of the messages that may come there, and `Closes k m rest` of a message after which, with `rest`
behind it, no other one is read. -/
structure Framed (M : Machine σ α τ ε) (F : Format α ε μ) (b : Bool) (Between : Nat → σ → Prop)
    (Reads : Nat → μ → Prop) (Closes : Nat → μ → List α → Prop) : Prop where
  total : ∀ p s w, ∃ v, M.Runs b p s w v
  ne_nil : ∀ m, F.bytes m ≠ []
  marked : ∀ p m, ∃ es e, F.events p m = es ++ [e] ∧ F.Unmarked es ∧
    F.mark e = some (p + (F.bytes m).length)
  leads : ∀ {k p s m w}, Between k s → Reads k m → ∃ s', Between (k + 1) s' ∧
    M.Leads b p s (F.bytes m ++ w) (F.events p m) (p + (F.bytes m).length) s' w
  found : ∀ {k p s w v}, Between k s → M.Runs b p s w v → ¬ F.Unmarked v →
    ∃ m rest, w = F.bytes m ++ rest ∧ (Reads k m ∨ Closes k m rest)
  closes : ∀ {k p s m rest v}, Between k s → Closes k m rest →
    M.Runs b p s (F.bytes m ++ rest) v → ∃ v', v = F.events p m ++ v' ∧ F.Unmarked v'

namespace Framed

variable {M : Machine σ α τ ε} {F : Format α ε μ} {b : Bool} {Between : Nat → σ → Prop}
  {Reads : Nat → μ → Prop} {Closes : Nat → μ → List α → Prop} {k p : Nat} {s : σ}
  {w rest rest' : List α} {u v : List ε} {m : μ} {ms : List μ}

/-- The first message of an input is observed first. -/
theorem observes (hF : Framed M F b Between Reads Closes) (hs : Between k s)
    (hm : Reads k m ∨ Closes k m rest) (hr : M.Runs b p s (F.bytes m ++ rest) v) :
    ∃ v', v = F.events p m ++ v' := by
  rcases hm with hm | hm
  · obtain ⟨_, -, hl⟩ := hF.leads (p := p) (w := rest) hs hm
    obtain ⟨v', hv, -⟩ := hl.split (hF.total _ _ _) hr
    exact ⟨v', hv⟩
  · obtain ⟨v', hv, -⟩ := hF.closes hs hm hr
    exact ⟨v', hv⟩

/-- The messages with which an input begins are observed one after another. -/
theorem observes_stream (hF : Framed M F b Between Reads Closes) (hs : Between k s)
    (hms : Format.Sequence Reads Closes k ms rest) (hr : M.Runs b p s (F.stream ms ++ rest) v) :
    ∃ v', v = F.streamEvents p ms ++ v' := by
  induction ms generalizing k p s v with
  | nil => exact ⟨v, rfl⟩
  | cons m ms ih =>
    rw [Format.stream_cons, List.append_assoc] at hr
    rcases hms with ⟨hm, hms⟩ | ⟨rfl, hm⟩
    · obtain ⟨s', hs', hl⟩ := hF.leads (p := p) (w := F.stream ms ++ rest) hs hm
      obtain ⟨v₁, rfl, hr₁⟩ := hl.split (hF.total _ _ _) hr
      obtain ⟨v', rfl⟩ := ih hs' hms hr₁
      exact ⟨v', (List.append_assoc _ _ _).symm⟩
    · obtain ⟨v', rfl⟩ := hF.observes hs (.inr hm) hr
      exact ⟨v', by rw [Format.streamEvents, Format.streamEvents, List.append_nil]⟩

/-- Behind messages after which others are read, the rest of the input is. -/
theorem runs_rest (hF : Framed M F b Between Reads Closes) (hs : Between k s)
    (hms : Format.Sequence Reads (fun _ _ _ => False) k ms rest)
    (hr : M.Runs b p s (F.stream ms ++ rest) (F.streamEvents p ms ++ v)) :
    ∃ s', Between (k + ms.length) s' ∧ M.Runs b (p + (F.stream ms).length) s' rest v := by
  induction ms generalizing k p s with
  | nil => exact ⟨s, hs, hr⟩
  | cons m ms ih =>
    rw [Format.stream_cons, Format.streamEvents, List.append_assoc, List.append_assoc] at hr
    rcases hms with ⟨hm, hms⟩ | ⟨-, hm⟩
    · obtain ⟨s₁, hs₁, hl⟩ := hF.leads (p := p) (w := F.stream ms ++ rest) hs hm
      obtain ⟨v', hv, hr₁⟩ := hl.split (hF.total _ _ _) hr
      rw [← List.append_cancel_left hv] at hr₁
      obtain ⟨s', hs', hr'⟩ := ih hs₁ hms hr₁
      refine ⟨s', ?_, ?_⟩
      · rw [List.length_cons, Nat.add_comm ms.length, ← Nat.add_assoc]
        exact hs'
      · rw [Format.stream_cons, List.length_append, ← Nat.add_assoc]
        exact hr'
    · exact hm.elim

/-- What is observed of an input are messages, and then something that does not show the end of
another one. -/
theorem runs_stream (hF : Framed M F b Between Reads Closes) (hs : Between k s)
    (hr : M.Runs b p s w v) :
    ∃ ms rest v', w = F.stream ms ++ rest ∧ Format.Sequence Reads Closes k ms rest ∧
      v = F.streamEvents p ms ++ v' ∧ F.Unmarked v' := by
  induction hlen : w.length using Nat.strongRecOn generalizing k p s w v with
  | ind n ih =>
    by_cases hv : F.Unmarked v
    · exact ⟨[], w, v, rfl, trivial, rfl, hv⟩
    obtain ⟨m, rest, rfl, hm | hm⟩ := hF.found hs hr hv
    · -- a message is read, and the rest of the input is shorter
      obtain ⟨s', hs', hl⟩ := hF.leads (p := p) (w := rest) hs hm
      obtain ⟨v₁, rfl, hr₁⟩ := hl.split (hF.total _ _ _) hr
      have hpos := List.length_pos_iff.mpr (hF.ne_nil m)
      have hlt : rest.length < n := by
        rw [← hlen, List.length_append]
        omega
      obtain ⟨ms, rest₁, v', rfl, hms, rfl, hv'⟩ := ih _ hlt hs' hr₁ rfl
      refine ⟨m :: ms, rest₁, v', ?_, .inl ⟨hm, hms⟩, ?_, hv'⟩
      · rw [Format.stream_cons, List.append_assoc]
      · rw [Format.streamEvents, List.append_assoc]
    · obtain ⟨v', rfl, hv'⟩ := hF.closes hs hm hr
      refine ⟨[m], rest, v', ?_, .inr ⟨rfl, hm⟩, ?_, hv'⟩
      · rw [Format.stream_cons, Format.stream_nil, List.append_nil]
      · rw [Format.streamEvents, Format.streamEvents, List.append_nil]

/-- What has been observed at some moment, of messages and something that shows no end of one. -/
theorem prefix_streamEvents (hF : Framed M F b Between Reads Closes) {ms : List μ} {u v : List ε}
    (hv : F.Unmarked v) (h : u <+: F.streamEvents p ms ++ v) :
    ∃ ms₁ ms₂ u', ms = ms₁ ++ ms₂ ∧ u = F.streamEvents p ms₁ ++ u' ∧ F.Unmarked u' := by
  induction ms generalizing p u with
  | nil =>
    obtain ⟨x, hx⟩ := h
    refine ⟨[], [], u, rfl, rfl, fun e he => hv e ?_⟩
    rw [show v = u ++ x from hx.symm]
    exact List.mem_append_left x he
  | cons m ms ih =>
    obtain ⟨es, e, he, hes, -⟩ := hF.marked p m
    obtain ⟨x, hx⟩ := h
    rw [Format.streamEvents, List.append_assoc, he, List.append_assoc] at hx
    -- either the first message has not ended yet, or the others are the same matter
    obtain ⟨z, hz, hx'⟩ | ⟨z, rfl, hx'⟩ := List.append_eq_append_iff.mp hx
    · refine ⟨[], m :: ms, u, rfl, rfl, fun a ha => hes a ?_⟩
      rw [hz]
      exact List.mem_append_left z ha
    · cases z with
      | nil => exact ⟨[], m :: ms, es, rfl, by simp [Format.streamEvents], hes⟩
      | cons a z =>
        obtain ⟨rfl, hx''⟩ := List.cons.inj hx'
        obtain ⟨ms₁, ms₂, u', rfl, rfl, hu'⟩ := ih (p := p + (F.bytes m).length) ⟨x, hx''.symm⟩
        refine ⟨m :: ms₁, ms₂, u', rfl, ?_, hu'⟩
        rw [Format.streamEvents, he]
        simp

/-- The same of the beginning of what is observed. -/
theorem of_beginning (hF : Framed M F b Between Reads Closes) (hs : Between k s)
    (hr : M.Runs b p s w (u ++ v)) :
    ∃ ms rest v', w = F.stream ms ++ rest ∧ Format.Sequence Reads Closes k ms rest ∧
      u = F.streamEvents p ms ++ v' ∧ F.Unmarked v' := by
  obtain ⟨ms, rest, v', hw, hms, hv, hv'⟩ := hF.runs_stream hs hr
  obtain ⟨ms₁, ms₂, u', rfl, hu, hu'⟩ := hF.prefix_streamEvents (p := p) hv' ⟨v, hv⟩
  refine ⟨ms₁, F.stream ms₂ ++ rest, u', ?_, hms.of_append, hu, hu'⟩
  rw [hw, Format.stream_append, List.append_assoc]

theorem marks_streamEvents (hF : Framed M F b Between Reads Closes) (ms : List μ) :
    ((F.streamEvents p ms).filterMap F.mark).length = ms.length := by
  induction ms generalizing p with
  | nil => rfl
  | cons m ms ih =>
    obtain ⟨es, e, he, hes, hmark⟩ := hF.marked p m
    have hnil : es.filterMap F.mark = [] := List.filterMap_eq_nil_iff.mpr hes
    have hone : [e].filterMap F.mark = [p + (F.bytes m).length] := by
      simp only [List.filterMap_cons, hmark, List.filterMap_nil]
    rw [Format.streamEvents, List.filterMap_append, List.length_append, ih, he,
      List.filterMap_append, hnil, hone]
    exact Nat.add_comm 1 ms.length

/-- The last observation of messages is the end of the last one. -/
theorem marked_last (hF : Framed M F b Between Reads Closes) (ms : List μ) (m : μ) :
    ∃ es e, F.streamEvents p (ms ++ [m]) = es ++ [e] ∧
      F.mark e = some (p + (F.stream (ms ++ [m])).length) := by
  obtain ⟨es, e, he, -, hmark⟩ := hF.marked (p + (F.stream ms).length) m
  refine ⟨F.streamEvents p ms ++ es, e, ?_, ?_⟩
  · rw [Format.streamEvents_append, Format.streamEvents, Format.streamEvents, he, List.append_nil,
      List.append_assoc]
  · rw [hmark, Format.stream_append, Format.stream_cons, Format.stream_nil, List.append_nil,
      List.length_append, Nat.add_assoc]

/-- Of the sequences of a given number of messages, an input begins with at most one. -/
theorem stream_unique (hF : Framed M F b Between Reads Closes) (hs : Between k s) {ms ms' : List μ}
    (hms : Format.Sequence Reads Closes k ms rest) (hms' : Format.Sequence Reads Closes k ms' rest')
    (hlen : ms.length = ms'.length) (h : F.stream ms ++ rest = F.stream ms' ++ rest') :
    ms.map F.bytes = ms'.map F.bytes ∧ F.streamEvents p ms = F.streamEvents p ms' ∧ rest = rest' := by
  induction ms generalizing k p s ms' with
  | nil =>
    rw [List.length_nil, eq_comm, List.length_eq_zero_iff] at hlen
    subst hlen
    exact ⟨rfl, rfl, h⟩
  | cons m ms ih =>
    cases ms' with
    | nil => cases hlen
    | cons m' ms' =>
      rw [Format.stream_cons, Format.stream_cons, List.append_assoc, List.append_assoc] at h
      obtain ⟨v, hv⟩ := hF.total p s (F.bytes m ++ (F.stream ms ++ rest))
      obtain ⟨v₁, hv₁⟩ := hF.observes hs hms.head hv
      obtain ⟨v₂, hv₂⟩ := hF.observes hs hms'.head (h ▸ hv)
      -- both messages end at the first end that is observed
      obtain ⟨es, e, he, hes, hmark⟩ := hF.marked p m
      obtain ⟨es', e', he', hes', hmark'⟩ := hF.marked p m'
      rw [hv₁, he, he', List.append_assoc, List.append_assoc] at hv₂
      obtain ⟨rfl, rfl, -⟩ := Format.first_mark_unique hes hes' (by simp [hmark]) (by simp [hmark']) hv₂
      rw [hmark, Option.some.injEq] at hmark'
      obtain ⟨hbytes, hrest⟩ := List.append_inj h (by omega)
      have htail : ms.map F.bytes = ms'.map F.bytes ∧
          F.streamEvents (p + (F.bytes m).length) ms = F.streamEvents (p + (F.bytes m).length) ms' ∧
          rest = rest' := by
        rcases hms with ⟨hm, hms⟩ | ⟨rfl, -⟩
        · obtain ⟨s', hs', -⟩ := hF.leads (p := p) (w := F.stream ms ++ rest) hs hm
          rcases hms' with ⟨-, hms'⟩ | ⟨rfl, -⟩
          · exact ih hs' hms hms' (Nat.succ.inj hlen) hrest
          · obtain rfl := List.length_eq_zero_iff.mp (Nat.succ.inj hlen)
            exact ⟨rfl, rfl, hrest⟩
        · obtain rfl := List.length_eq_zero_iff.mp (Nat.succ.inj hlen).symm
          exact ⟨rfl, rfl, hrest⟩
      obtain ⟨hmap, hevents, hrest'⟩ := htail
      refine ⟨?_, ?_, hrest'⟩
      · rw [List.map_cons, List.map_cons, hbytes, hmap]
      · rw [Format.streamEvents, Format.streamEvents, he, he', ← hmark', hevents]

/-- Two ways to read an input as messages agree as far as both go. -/
theorem stream_prefix (hF : Framed M F b Between Reads Closes) (hs : Between k s) {ms ms' : List μ}
    (hms : Format.Sequence Reads Closes k ms rest) (hms' : Format.Sequence Reads Closes k ms' rest')
    (hlen : ms.length ≤ ms'.length) (h : F.stream ms ++ rest = F.stream ms' ++ rest') :
    ms.map F.bytes <+: ms'.map F.bytes := by
  have hsplit : ms'.take ms.length ++ ms'.drop ms.length = ms' := List.take_append_drop _ _
  have htake : (ms'.take ms.length).length = ms.length := by
    rw [List.length_take, Nat.min_eq_left hlen]
  have hrest : F.stream ms ++ rest
      = F.stream (ms'.take ms.length) ++ (F.stream (ms'.drop ms.length) ++ rest') := by
    rw [← List.append_assoc, ← Format.stream_append, hsplit, h]
  obtain ⟨hbytes, -, -⟩ := hF.stream_unique (p := 0) hs hms
    (Format.Sequence.of_append (hsplit.symm ▸ hms')) htake.symm hrest
  rw [hbytes, List.map_take]
  exact List.take_prefix _ _

/-- No more messages can be found in an input than are observed. -/
theorem stream_maximal (hF : Framed M F b Between Reads Closes) (hs : Between k s) {ms ms' : List μ}
    (hms : Format.Sequence Reads Closes k ms rest) (hms' : Format.Sequence Reads Closes k ms' rest')
    (hr : M.Runs b p s (F.stream ms ++ rest) (F.streamEvents p ms ++ v)) (hv : F.Unmarked v)
    (h : F.stream ms ++ rest = F.stream ms' ++ rest') : ms'.map F.bytes <+: ms.map F.bytes := by
  obtain ⟨v', hev⟩ := hF.observes_stream hs hms' (h ▸ hr)
  have hmarks := congrArg (fun u => (u.filterMap F.mark).length) hev
  have hnil : v.filterMap F.mark = [] := List.filterMap_eq_nil_iff.mpr hv
  simp only [List.filterMap_append, List.length_append, hF.marks_streamEvents, hnil,
    List.length_nil] at hmarks
  exact hF.stream_prefix hs hms' hms (by omega) h.symm

end Framed

end Incremental
