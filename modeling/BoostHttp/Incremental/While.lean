import Mathlib.Data.List.Basic

/-!
# While — loops that may fail, or leave the function they are in

A loop makes passes while a condition holds.  A pass goes on with a new state, or it leaves the
function with a result, or it fails.  The number of passes is bounded by a fuel; a loop whose passes
reduce a measure does not run out of it.
-/

namespace Incremental

inductive Pass (σ ρ : Type*) where
  | again (s : σ)
  | leave (r : ρ)

namespace Pass

variable {σ ρ ε : Type*} (more : σ → Bool) (pass : σ → Except ε (Pass σ ρ))

/-- `while (more) pass`, with at most `n` passes.  There is no result when they are used up. -/
def loop : Nat → σ → Option (Except ε (Pass σ ρ))
  | 0, s => if more s then none else some (.ok (.again s))
  | n + 1, s =>
    if more s then
      match pass s with
      | .error e => some (.error e)
      | .ok (.leave r) => some (.ok (.leave r))
      | .ok (.again s') => loop n s'
    else some (.ok (.again s))

variable {more pass} {I : σ → Prop} {Q : ρ → Prop} {measure : σ → Nat} {s s' : σ} {r : ρ} {n : Nat}

theorem loop_done (h : more s = false) : loop more pass n s = some (.ok (.again s)) := by
  cases n with
  | zero => rw [loop, h, if_neg Bool.false_ne_true]
  | succ n => rw [loop, h, if_neg Bool.false_ne_true]

theorem loop_again (h : more s = true) (hp : pass s = .ok (.again s')) :
    loop more pass (n + 1) s = loop more pass n s' := by
  rw [loop, if_pos h, hp]

theorem loop_leave (h : more s = true) (hp : pass s = .ok (.leave r)) :
    loop more pass (n + 1) s = some (.ok (.leave r)) := by
  rw [loop, if_pos h, hp]

/-- The rule for a loop with an invariant: it ends where the condition does not hold, or it is left
with a result that the passes warrant. -/
theorem loop_total
    (hpass : ∀ {s}, I s → more s = true →
      (∃ s', pass s = .ok (.again s') ∧ I s' ∧ measure s' < measure s) ∨
        ∃ r, pass s = .ok (.leave r) ∧ Q r)
    (hs : I s) (hn : measure s < n) :
    (∃ s', loop more pass n s = some (.ok (.again s')) ∧ I s' ∧ more s' = false) ∨
      ∃ r, loop more pass n s = some (.ok (.leave r)) ∧ Q r := by
  induction n generalizing s with
  | zero => exact absurd hn (Nat.not_lt_zero _)
  | succ n ih =>
    cases hm : more s with
    | false => exact .inl ⟨s, loop_done hm, hs, hm⟩
    | true =>
      obtain ⟨s', hp, hs', hlt⟩ | ⟨r, hp, hr⟩ := hpass hs hm
      · rw [loop_again hm hp]
        exact ih hs' (by omega)
      · exact .inr ⟨r, loop_leave hm hp, hr⟩

end Pass

end Incremental
