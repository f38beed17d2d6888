import Mathlib.Data.List.TakeWhile

/-!
# Scan — recognisers that see a growing prefix of their input

A scanner looks at the bytes received so far and either recognises a lexeme at their beginning,
rejects them, or asks for more.  What makes it usable on a stream that arrives in pieces is
*stability*: a verdict, once given, is not changed by the bytes that follow.  The scanners below
are the ones a hand-written lexer is made of; each is stable, and each comes with the equations
that say what it answers on an input of known shape.
-/

namespace Incremental

variable {α : Type*}

inductive Scan where
  | need
  | bad
  | ok (n : Nat)
  deriving DecidableEq, Repr

/-- Later input never changes a verdict, and a lexeme lies within the input it was found in. -/
structure Stable (f : List α → Scan) : Prop where
  le : ∀ {w n}, f w = .ok n → n ≤ w.length
  ok : ∀ {w n}, f w = .ok n → ∀ x, f (w ++ x) = .ok n
  bad : ∀ {w}, f w = .bad → ∀ x, f (w ++ x) = .bad

/-! ## Spans -/

/-- The longest run of `p`, recognised once the symbol after it has been seen; `good` judges the
length of the run and that symbol. -/
def spanned (p : α → Bool) (good : Nat → α → Bool) (w : List α) : Scan :=
  match w.dropWhile p with
  | [] => .need
  | c :: _ => if good (w.takeWhile p).length c then .ok (w.takeWhile p).length else .bad

/-- The run ends at a symbol that is not of it. -/
theorem not_of_dropWhile {p : α → Bool} {w r : List α} {c : α} (h : w.dropWhile p = c :: r) :
    p c = false := by
  have hnot := List.head_dropWhile_not p (show w.dropWhile p ≠ [] by simp [h])
  simpa [h] using hnot

theorem takeWhile_append_of_dropWhile {p : α → Bool} {w r : List α} {c : α}
    (h : w.dropWhile p = c :: r) (x : List α) : (w ++ x).takeWhile p = w.takeWhile p := by
  have hlen : (w.takeWhile p).length ≠ w.length := by
    intro heq
    have hsum := congrArg List.length (List.takeWhile_append_dropWhile (p := p) (l := w))
    rw [List.length_append, heq, h, List.length_cons] at hsum
    omega
  rw [List.takeWhile_append, if_neg hlen]

theorem dropWhile_append_of_dropWhile {p : α → Bool} {w r : List α} {c : α}
    (h : w.dropWhile p = c :: r) (x : List α) : (w ++ x).dropWhile p = c :: (r ++ x) := by
  rw [List.dropWhile_append, h]
  rfl

theorem drop_length_takeWhile (p : α → Bool) (w : List α) :
    w.drop (w.takeWhile p).length = w.dropWhile p := by
  have h : (w.takeWhile p ++ w.dropWhile p).drop (w.takeWhile p).length = w.dropWhile p :=
    List.drop_left
  rwa [List.takeWhile_append_dropWhile] at h

theorem stable_spanned (p : α → Bool) (good : Nat → α → Bool) : Stable (spanned p good) where
  le {w n} h := by
    have hle : (w.takeWhile p).length ≤ w.length := (List.takeWhile_prefix p).length_le
    unfold spanned at h
    split at h
    · cases h
    · split at h
      · cases h; exact hle
      · cases h
  ok {w n} h x := by
    unfold spanned at h ⊢
    split at h
    · cases h
    · rename_i c r hd
      rw [dropWhile_append_of_dropWhile hd x, takeWhile_append_of_dropWhile hd x]
      exact h
  bad {w} h x := by
    unfold spanned at h ⊢
    split at h
    · cases h
    · rename_i c r hd
      rw [dropWhile_append_of_dropWhile hd x, takeWhile_append_of_dropWhile hd x]
      exact h

/-- A run of `p` that ends at `c` is the run the scanner measures. -/
theorem takeWhile_run {p : α → Bool} {v : List α} {c : α} (hv : ∀ a ∈ v, p a = true)
    (hc : p c = false) (x : List α) : (v ++ c :: x).takeWhile p = v := by
  rw [List.takeWhile_append_of_pos hv, List.takeWhile_cons_of_neg (by simp [hc]), List.append_nil]

theorem dropWhile_run {p : α → Bool} {v : List α} {c : α} (hv : ∀ a ∈ v, p a = true)
    (hc : p c = false) (x : List α) : (v ++ c :: x).dropWhile p = c :: x := by
  rw [List.dropWhile_append_of_pos hv, List.dropWhile_cons_of_neg (by simp [hc])]

theorem spanned_run {p : α → Bool} {good : Nat → α → Bool} {v : List α} {c : α}
    (hv : ∀ a ∈ v, p a = true) (hc : p c = false) (x : List α) :
    spanned p good (v ++ c :: x) = if good v.length c then .ok v.length else .bad := by
  unfold spanned
  rw [dropWhile_run hv hc, takeWhile_run hv hc]

theorem spanned_need_iff {p : α → Bool} {good : Nat → α → Bool} {w : List α} :
    spanned p good w = .need ↔ ∀ a ∈ w, p a = true := by
  unfold spanned
  rw [← List.dropWhile_eq_nil_iff (p := p)]
  split
  · rename_i h; simp [h]
  · rename_i c r h
    rw [h]
    split <;> simp

/-- The shape of an accepted input: a run of `p` and the symbol that ends it. -/
theorem spanned_ok {p : α → Bool} {good : Nat → α → Bool} {w : List α} {n : Nat}
    (h : spanned p good w = .ok n) :
    ∃ c x, w = w.take n ++ c :: x ∧ (∀ a ∈ w.take n, p a = true) ∧ p c = false ∧
      good n c = true ∧ (w.take n).length = n := by
  unfold spanned at h
  split at h
  · cases h
  · rename_i c r hd
    split at h
    · rename_i hgood
      cases h
      have hsplit : w = w.takeWhile p ++ c :: r := by
        rw [← hd]; exact List.takeWhile_append_dropWhile.symm
      have htake : w.take (w.takeWhile p).length = w.takeWhile p :=
        (List.prefix_iff_eq_take.mp (List.takeWhile_prefix p)).symm
      refine ⟨c, r, ?_, ?_, ?_, hgood, ?_⟩
      · rw [htake]; exact hsplit
      · rw [htake]
        intro a ha
        exact List.mem_takeWhile_imp ha
      · exact not_of_dropWhile hd
      · rw [htake]
    · cases h

/-! ## Fixed sizes and literals -/

def fixed (k : Nat) (p : List α → Bool) (w : List α) : Scan :=
  if w.length < k then .need else if p (w.take k) then .ok k else .bad

theorem stable_fixed (k : Nat) (p : List α → Bool) : Stable (fixed k p) := by
  have hext : ∀ {w : List α}, ¬ w.length < k → ∀ x, fixed k p (w ++ x) = fixed k p w := by
    intro w hw x
    unfold fixed
    rw [if_neg hw, if_neg (by rw [List.length_append]; omega),
      List.take_append_of_le_length (by omega)]
  refine ⟨?_, ?_, ?_⟩
  · intro w n h
    unfold fixed at h
    split at h
    · cases h
    · split at h
      · cases h; omega
      · cases h
  · intro w n h x
    rw [hext _ x, h]
    intro hlt
    rw [fixed, if_pos hlt] at h
    cases h
  · intro w h x
    rw [hext _ x, h]
    intro hlt
    rw [fixed, if_pos hlt] at h
    cases h

theorem fixed_append {k : Nat} {p : List α → Bool} {v : List α} (hv : v.length = k) (x : List α) :
    fixed k p (v ++ x) = if p v then .ok k else .bad := by
  unfold fixed
  rw [if_neg (by rw [List.length_append]; omega), List.take_left' hv]

theorem fixed_ok {k : Nat} {p : List α → Bool} {w : List α} {n : Nat} (h : fixed k p w = .ok n) :
    n = k ∧ k ≤ w.length ∧ p (w.take k) = true := by
  unfold fixed at h
  split at h
  · cases h
  · split at h
    · rename_i hw hp
      cases h
      exact ⟨rfl, by omega, hp⟩
    · cases h

def literal [DecidableEq α] (lit w : List α) : Scan :=
  if lit <+: w then .ok lit.length else if w <+: lit then .need else .bad

theorem stable_literal [DecidableEq α] (lit : List α) : Stable (literal lit) := by
  refine ⟨?_, ?_, ?_⟩
  · intro w n h
    unfold literal at h
    split at h
    · rename_i hp; cases h; exact hp.length_le
    · split at h <;> cases h
  · intro w n h x
    unfold literal at h ⊢
    split at h
    · rename_i hp; rw [if_pos (hp.trans (List.prefix_append w x)), h]
    · split at h <;> cases h
  · intro w h x
    unfold literal at h ⊢
    split at h
    · cases h
    · rename_i hp
      split at h
      · cases h
      · rename_i hq
        -- two prefixes of `w ++ x` are comparable, so a mismatch inside `w` stays one
        rw [if_neg, if_neg]
        · exact fun hwx => hq ((List.prefix_append w x).trans hwx)
        · intro hl
          rcases List.prefix_or_prefix_of_prefix hl (List.prefix_append w x) with h' | h'
          · exact hp h'
          · exact hq h'

theorem literal_append [DecidableEq α] (lit x : List α) :
    literal lit (lit ++ x) = .ok lit.length := by
  rw [literal, if_pos (List.prefix_append lit x)]

theorem literal_ok [DecidableEq α] {lit w : List α} {n : Nat} (h : literal lit w = .ok n) :
    n = lit.length ∧ w.take n = lit := by
  unfold literal at h
  split at h
  · rename_i hp
    cases h
    exact ⟨rfl, (List.prefix_iff_eq_take.mp hp).symm⟩
  · split at h <;> cases h

end Incremental
