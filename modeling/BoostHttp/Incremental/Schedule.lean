import Mathlib.Data.List.Basic

/-!
# Schedule — sequences of operations a client may perform

An object offers operations; each may be performed only when it is permitted, and may fail.  A
schedule conforms when every operation is permitted at the moment it is performed.  Nothing is
asked of the moments after a failure, so that the absence of failures is a result and not an
assumption.
-/

namespace Incremental

/-- Operations `ω` on states `σ`, with the condition under which a client may perform them. -/
structure Guarded (σ ω ε : Type*) where
  permits : σ → ω → Bool
  perform : σ → ω → Except ε σ

namespace Guarded

variable {σ ω ε : Type*} (G : Guarded σ ω ε)

def conforming : σ → List ω → Bool
  | _, [] => true
  | s, o :: os =>
    G.permits s o && match G.perform s o with
      | .ok s' => conforming s' os
      | .error _ => true

def play : σ → List ω → Except ε σ
  | s, [] => .ok s
  | s, o :: os =>
    match G.perform s o with
    | .ok s' => play s' os
    | .error e => .error e

def ends (s : σ) (os : List ω) (p : σ → Bool) : Bool :=
  match G.play s os with
  | .ok s' => p s'
  | .error _ => false

variable {G} {s s' : σ} {o : ω} {os os' : List ω}

theorem ends_eq (h : G.play s os = .ok s') (p : σ → Bool) : G.ends s os p = p s' := by
  rw [ends, h]

theorem of_ends {p : σ → Bool} (h : G.ends s os p = true) : ∃ s', G.play s os = .ok s' ∧ p s' = true := by
  unfold ends at h
  split at h
  · exact ⟨_, by assumption, h⟩
  · cases h

theorem conforming_cons (h : G.conforming s (o :: os) = true) :
    G.permits s o = true ∧ ∀ {s'}, G.perform s o = .ok s' → G.conforming s' os = true := by
  rw [conforming, Bool.and_eq_true] at h
  refine ⟨h.1, fun hs' => ?_⟩
  have h2 := h.2
  rwa [hs'] at h2

/-- An invariant under which permitted operations succeed holds at the end of every conforming
schedule. -/
theorem play_invariant {I : σ → Prop}
    (hstep : ∀ {s o}, I s → G.permits s o = true → ∃ s', G.perform s o = .ok s' ∧ I s')
    (hs : I s) (h : G.conforming s os = true) : ∃ s', G.play s os = .ok s' ∧ I s' := by
  induction os generalizing s with
  | nil => exact ⟨s, rfl, hs⟩
  | cons o os ih =>
    obtain ⟨hp, hrest⟩ := conforming_cons h
    obtain ⟨s₁, hs₁, hinv⟩ := hstep hs hp
    obtain ⟨s', hs', hinv'⟩ := ih hinv (hrest hs₁)
    refine ⟨s', ?_, hinv'⟩
    rw [play, hs₁]
    exact hs'

theorem play_append : G.play s (os ++ os') =
    match G.play s os with
    | .ok s₁ => G.play s₁ os'
    | .error e => .error e := by
  induction os generalizing s with
  | nil => rfl
  | cons o os ih =>
    rw [List.cons_append, play, play]
    cases G.perform s o with
    | error e => rfl
    | ok s₁ => exact ih

theorem conforming_append (h : G.conforming s (os ++ os') = true) : G.conforming s os = true := by
  induction os generalizing s with
  | nil => rfl
  | cons o os ih =>
    rw [List.cons_append, conforming, Bool.and_eq_true] at h
    rw [conforming, Bool.and_eq_true]
    refine ⟨h.1, ?_⟩
    cases hp : G.perform s o with
    | error e => rfl
    | ok s₁ =>
      have h2 := h.2
      rw [hp] at h2
      exact ih h2

theorem conforming_of_play (h : G.conforming s (os ++ os') = true) (hs' : G.play s os = .ok s') :
    G.conforming s' os' = true := by
  induction os generalizing s with
  | nil =>
    cases hs'
    exact h
  | cons o os ih =>
    obtain ⟨-, hrest⟩ := conforming_cons h
    rw [play] at hs'
    split at hs'
    · rename_i s₁ h₁
      exact ih (hrest h₁) hs'
    · cases hs'

/-- A conforming schedule can be continued by one that conforms where it ends. -/
theorem conforming_continued (h : G.conforming s os = true) (hs' : G.play s os = .ok s')
    (h' : G.conforming s' os' = true) : G.conforming s (os ++ os') = true := by
  induction os generalizing s with
  | nil =>
    cases hs'
    exact h'
  | cons o os ih =>
    obtain ⟨hp, hrest⟩ := conforming_cons h
    rw [play] at hs'
    split at hs'
    · rename_i s₁ h₁
      rw [List.cons_append, conforming, hp, h₁]
      exact ih (hrest h₁) hs'
    · cases hs'

/-- Rules that permit the operations of a schedule, whenever they are due, permit the schedule. -/
theorem conforming_of_mem {G' : Guarded σ ω ε} (hperform : G'.perform = G.perform)
    (hpermits : ∀ {s o}, o ∈ os → G.permits s o = true → G'.permits s o = true)
    (h : G.conforming s os = true) : G'.conforming s os = true := by
  induction os generalizing s with
  | nil => rfl
  | cons o os ih =>
    rw [conforming, Bool.and_eq_true] at h ⊢
    refine ⟨hpermits List.mem_cons_self h.1, ?_⟩
    rw [hperform]
    cases hp : G.perform s o with
    | error e => rfl
    | ok s₁ =>
      have h2 := h.2
      rw [hp] at h2
      exact ih (fun ho => hpermits (List.mem_cons_of_mem _ ho)) h2

/-- The rules have no influence on what a schedule does. -/
theorem play_congr {G' : Guarded σ ω ε} (hperform : G'.perform = G.perform) (s : σ) (os : List ω) :
    G'.play s os = G.play s os := by
  induction os generalizing s with
  | nil => rfl
  | cons o os ih =>
    rw [play, play, hperform]
    cases G.perform s o with
    | error e => rfl
    | ok s₁ => exact ih s₁

/-- An object that fails in the steps marked by `bad`, and does the same otherwise, gets through a
schedule if and only if no step is marked. -/
theorem play_marked_iff {H G' : Guarded σ ω ε} {bad : σ → ω → Bool} {e : ε}
    (hH : ∀ s o, H.perform s o = if bad s o then .error e else G.perform s o)
    (hpermits : ∀ s o, G'.permits s o = (G.permits s o && !bad s o))
    (hperform : G'.perform = G.perform) (h : G.conforming s os = true)
    (hs' : G.play s os = .ok s') : H.play s os = .ok s' ↔ G'.conforming s os = true := by
  induction os generalizing s with
  | nil => exact iff_of_true hs' rfl
  | cons o os ih =>
    obtain ⟨hp, hrest⟩ := conforming_cons h
    rw [play] at hs'
    split at hs'
    · rename_i s₁ h₁
      have hH' := hH s o
      rw [h₁] at hH'
      rw [play, conforming, hpermits, hp, hperform, h₁, Bool.true_and]
      cases hbad : bad s o with
      | true =>
        rw [hbad, if_pos rfl] at hH'
        rw [hH']
        exact iff_of_false nofun nofun
      | false =>
        rw [hbad, if_neg Bool.false_ne_true] at hH'
        rw [hH']
        exact ih (hrest h₁) hs'
    · cases hs'

def Reaches (G : Guarded σ ω ε) (s s' : σ) : Prop :=
  ∃ os, G.conforming s os = true ∧ G.play s os = .ok s'

theorem Reaches.refl (G : Guarded σ ω ε) (s : σ) : G.Reaches s s := ⟨[], rfl, rfl⟩

theorem Reaches.step {s'' : σ} (h : G.Reaches s s') (hp : G.permits s' o = true)
    (ho : G.perform s' o = .ok s'') : G.Reaches s s'' := by
  obtain ⟨os, hc, hs'⟩ := h
  have hone : G.conforming s' [o] = true := by
    rw [conforming, hp, ho]
    rfl
  refine ⟨os ++ [o], conforming_continued hc hs' hone, ?_⟩
  rw [play_append, hs']
  simp only [play, ho]

/-! ## Two objects -/

section Simulation

variable {σ' : Type*} {H : Guarded σ' ω ε} {t : σ'} {R : σ → σ' → Prop} {Stop : σ → σ' → ω → Prop}

/-- Two objects that every permitted operation keeps related, unless it parts them, are related at
the end of every conforming schedule, or up to an operation that parts them. -/
theorem play_simulates
    (hstep : ∀ {s t o}, R s t → G.permits s o = true → Stop s t o ∨ H.permits t o = true ∧
      ∃ s' t', G.perform s o = .ok s' ∧ H.perform t o = .ok t' ∧ R s' t')
    (hR : R s t) (h : G.conforming s os = true) :
    (∃ s' t', G.play s os = .ok s' ∧ H.play t os = .ok t' ∧ H.conforming t os = true ∧ R s' t') ∨
      ∃ os₁ o os₂ s' t', os = os₁ ++ o :: os₂ ∧ G.play s os₁ = .ok s' ∧ H.play t os₁ = .ok t' ∧
        R s' t' ∧ Stop s' t' o := by
  induction os generalizing s t with
  | nil => exact .inl ⟨s, t, rfl, rfl, rfl, hR⟩
  | cons o os ih =>
    obtain ⟨hp, hrest⟩ := conforming_cons h
    obtain hstop | ⟨hp', s₁, t₁, hs₁, ht₁, hR₁⟩ := hstep hR hp
    · exact .inr ⟨[], o, os, s, t, rfl, rfl, rfl, hR, hstop⟩
    obtain ⟨s', t', hs', ht', hc', hR'⟩ | ⟨os₁, o', os₂, s', t', rfl, hs', ht', hR', hstop⟩ :=
      ih hR₁ (hrest hs₁)
    · refine .inl ⟨s', t', ?_, ?_, ?_, hR'⟩
      · rw [play, hs₁]
        exact hs'
      · rw [play, ht₁]
        exact ht'
      · rw [conforming, hp', ht₁]
        exact hc'
    · refine .inr ⟨o :: os₁, o', os₂, s', t', rfl, ?_, ?_, hR', hstop⟩
      · rw [play, hs₁]
        exact hs'
      · rw [play, ht₁]
        exact ht'

end Simulation

end Guarded

end Incremental
