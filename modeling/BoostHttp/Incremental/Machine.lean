import Mathlib.Data.List.Basic

/-!
# Machine — lexers that resume, and why the cuts in their input do not matter

A machine is asked, again and again, what it makes of the input it can see.  It may ask for more,
emit a token that covers the first `n` symbols, or fail.  `Runs` is the meaning of a machine on an
input that is there as a whole; `Coherent` collects what a machine must satisfy so that looking at
the input through windows of any size leads to the same observations.

The owner of a machine may answer a token by adjusting the state (`react`), and tokens are compared
through what they show (`view`), so that a token that was cut in two can still be observed as one.
-/

namespace Incremental

variable {σ α τ ε : Type*}

inductive Out (σ τ : Type*) where
  | need (s : σ)
  | emit (s : σ) (n : Nat) (t : τ)
  | fail (t : τ)

/-- A resumable lexer.  The flag of `step` says that the input is known to be complete. -/
structure Machine (σ α τ ε : Type*) where
  step : Bool → σ → List α → Out σ τ
  react : τ → σ → σ
  view : Nat → τ → List ε

namespace Machine

variable (M : Machine σ α τ ε)

/-- The observations of a machine started at offset `p` on an input that is there as a whole. -/
inductive Runs (b : Bool) : Nat → σ → List α → List ε → Prop where
  | need {p s w s'} : M.step b s w = .need s' → Runs b p s w []
  | fail {p s w t} : M.step b s w = .fail t → Runs b p s w (M.view p t)
  | emit {p s w s' n t v} : M.step b s w = .emit s' n t →
      Runs b (p + n) (M.react t s') (w.drop n) v → Runs b p s w (M.view p t ++ v)

variable {M} {b : Bool} {p : Nat} {s s' : σ} {w : List α} {n : Nat} {t : τ} {v : List ε}

theorem Runs.need_iff (h : M.step b s w = .need s') : M.Runs b p s w v ↔ v = [] := by
  constructor
  · intro hr
    cases hr with
    | need _ => rfl
    | fail h' => rw [h] at h'; cases h'
    | emit h' _ => rw [h] at h'; cases h'
  · rintro rfl
    exact .need h

theorem Runs.fail_iff (h : M.step b s w = .fail t) : M.Runs b p s w v ↔ v = M.view p t := by
  constructor
  · intro hr
    cases hr with
    | need h' => rw [h] at h'; cases h'
    | fail h' => rw [h] at h'; cases h'; rfl
    | emit h' _ => rw [h] at h'; cases h'
  · rintro rfl
    exact .fail h

theorem Runs.emit_iff (h : M.step b s w = .emit s' n t) :
    M.Runs b p s w v ↔
      ∃ v', v = M.view p t ++ v' ∧ M.Runs b (p + n) (M.react t s') (w.drop n) v' := by
  constructor
  · intro hr
    cases hr with
    | need h' => rw [h] at h'; cases h'
    | fail h' => rw [h] at h'; cases h'
    | emit h' hr => rw [h] at h'; cases h'; exact ⟨_, rfl, hr⟩
  · rintro ⟨v', rfl, hr⟩
    exact .emit h hr

/-- Two states with the same next step have the same observations. -/
theorem Runs.congr {s₁ s₂ : σ} (h : M.step b s₁ w = M.step b s₂ w) (hr : M.Runs b p s₁ w v) :
    M.Runs b p s₂ w v := by
  cases hr with
  | need h' => exact .need (h ▸ h')
  | fail h' => exact .fail (h ▸ h')
  | emit h' hr => exact .emit (h ▸ h') hr

theorem Runs.unique {v₁ v₂ : List ε} (h₁ : M.Runs b p s w v₁) (h₂ : M.Runs b p s w v₂) :
    v₁ = v₂ := by
  induction h₁ generalizing v₂ with
  | need h => exact ((Runs.need_iff h).mp h₂).symm
  | fail h => exact ((Runs.fail_iff h).mp h₂).symm
  | emit h _ ih =>
    obtain ⟨v', rfl, hr⟩ := (Runs.emit_iff h).mp h₂
    rw [ih hr]

/-- A machine whose tokens make progress has observations on every input. -/
theorem Runs.exists_of_measure (μ : σ → List α → Nat)
    (hμ : ∀ {s w s' n t}, M.step b s w = .emit s' n t → μ (M.react t s') (w.drop n) < μ s w)
    (p : Nat) (s : σ) (w : List α) : ∃ v, M.Runs b p s w v := by
  induction hk : μ s w using Nat.strongRecOn generalizing p s w with
  | ind k ih =>
    cases h : M.step b s w with
    | need s' => exact ⟨_, .need h⟩
    | fail t => exact ⟨_, .fail h⟩
    | emit s' n t =>
      obtain ⟨v, hv⟩ := ih _ (hk ▸ hμ h) (p + n) (M.react t s') (w.drop n) rfl
      exact ⟨_, .emit h hv⟩

variable (M) in
/-- The run from `(p, s)` on `w` observes `v` and then goes on as the run from `(p', s')` on `w'`. -/
def Leads (b : Bool) (p : Nat) (s : σ) (w : List α) (v : List ε) (p' : Nat) (s' : σ)
    (w' : List α) : Prop :=
  ∀ v', M.Runs b p' s' w' v' → M.Runs b p s w (v ++ v')

variable {p' p'' : Nat} {s'' : σ} {w' w'' : List α} {v' : List ε}

theorem Leads.refl : M.Leads b p s w [] p s w := by
  intro v' h
  exact h

theorem Leads.trans (h : M.Leads b p s w v p' s' w') (h' : M.Leads b p' s' w' v' p'' s'' w'') :
    M.Leads b p s w (v ++ v') p'' s'' w'' := by
  intro v'' hr
  rw [List.append_assoc]
  exact h _ (h' _ hr)

theorem Leads.of_emit (h : M.step b s w = .emit s' n t) :
    M.Leads b p s w (M.view p t) (p + n) (M.react t s') (w.drop n) := by
  intro v' hr
  exact .emit h hr

/-- What the whole run observes when its beginning is known. -/
theorem Leads.split (h : M.Leads b p s w v p' s' w') (htotal : ∃ v', M.Runs b p' s' w' v')
    {u : List ε} (hr : M.Runs b p s w u) : ∃ v', u = v ++ v' ∧ M.Runs b p' s' w' v' := by
  obtain ⟨v', hv'⟩ := htotal
  exact ⟨v', hr.unique (h v' hv'), hv'⟩

end Machine

structure Coherent (M : Machine σ α τ ε) : Prop where
  /-- A request for more leaves nothing undone: the state it leaves behind continues as the old
  one would have. -/
  need : ∀ {b' s w s'}, M.step b' s w = .need s' →
    ∀ b x, M.step b s' (w ++ x) = M.step b s (w ++ x)
  fail : ∀ {s w t}, M.step false s w = .fail t → ∀ b x, M.step b s (w ++ x) = .fail t
  /-- A token found in a window starts a run on the whole input. -/
  emit : ∀ {s w s' n t}, M.step false s w = .emit s' n t → ∀ {b x p v},
    M.Runs b (p + n) (M.react t s') ((w ++ x).drop n) v → M.Runs b p s (w ++ x) (M.view p t ++ v)

namespace Machine

variable (M : Machine σ α τ ε)

/-- A look of the machine at the stream `S` from offset `p`: a window `w` of what is left, and all
of it once the input is known to be complete. -/
structure Look (b : Bool) (S : List α) (p : Nat) (b' : Bool) (w : List α) : Prop where
  window : w <+: S.drop p
  whole : b' = true → b = true ∧ w = S.drop p

/-- The observations `v` made so far, followed by those still to come from `(p, s)`, are the
observations from `(p₀, s₀)`. -/
def Explains (b : Bool) (S : List α) (p₀ : Nat) (s₀ : σ) (p : Nat) (s : σ) (v : List ε) : Prop :=
  M.Leads b p₀ s₀ (S.drop p₀) v p s (S.drop p)

variable {M} {b b' : Bool} {S : List α} {p₀ p : Nat} {s₀ s s' : σ} {w : List α} {n : Nat} {t : τ}
  {v : List ε}

theorem Explains.refl : M.Explains b S p s p s [] := Leads.refl

theorem Explains.need (hM : Coherent M) (he : M.Explains b S p₀ s₀ p s v)
    (hl : Look b S p b' w) (h : M.step b' s w = .need s') : M.Explains b S p₀ s₀ p s' v := by
  intro v' hr
  obtain ⟨x, hx⟩ := hl.window
  apply he
  rw [← hx] at hr ⊢
  exact hr.congr (hM.need h b x)

theorem Explains.emit (hM : Coherent M) (he : M.Explains b S p₀ s₀ p s v)
    (hl : Look b S p b' w) (h : M.step b' s w = .emit s' n t) :
    M.Explains b S p₀ s₀ (p + n) (M.react t s') (v ++ M.view p t) := by
  intro v' hr
  obtain ⟨x, hx⟩ := hl.window
  rw [List.append_assoc]
  apply he
  rw [← List.drop_drop] at hr
  cases b' with
  | true =>
    obtain ⟨rfl, rfl⟩ := hl.whole rfl
    exact .emit h hr
  | false =>
    rw [← hx] at hr ⊢
    exact hM.emit h hr

theorem Explains.runs_of_fail (hM : Coherent M) (he : M.Explains b S p₀ s₀ p s v)
    (hl : Look b S p b' w) (h : M.step b' s w = .fail t) :
    M.Runs b p₀ s₀ (S.drop p₀) (v ++ M.view p t) := by
  obtain ⟨x, hx⟩ := hl.window
  apply he
  cases b' with
  | true =>
    obtain ⟨rfl, rfl⟩ := hl.whole rfl
    exact .fail h
  | false =>
    rw [← hx]
    exact .fail (hM.fail h b x)

/-- A machine that asks for more although it sees all there is has made all its observations. -/
theorem Explains.runs_of_need (he : M.Explains b S p₀ s₀ p s v)
    (h : M.step b s (S.drop p) = .need s') : M.Runs b p₀ s₀ (S.drop p₀) v := by
  have hr := he [] (.need h)
  rwa [List.append_nil] at hr

end Machine

end Incremental
