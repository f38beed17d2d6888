import BoostHttp.Progress

/-!
# Pump — a loop over the tokens of a reader

A client that handles one token after another until data is insufficient makes a schedule of a
session.  What it does between two tokens must be permitted there; then `next()` succeeds, and the
loop comes to an end.
-/

open Incremental

namespace BoostHttp

def Reader.toDo {σ β ν φ : Type} (V : View σ β ν φ) (r : Reader σ β ν) : Nat :=
  if r.code = .errorInsufficientData then 0
  else if r.code.isFatal then 1
  else (V.phase r.state).work r.unread + 2

namespace Session

variable {σ β ν κ φ : Type} {A : Api σ β ν κ} {mem : Nat → UInt8} {S : Bytes} {V : View σ β ν φ}
  {P : Policy φ} {Legal : Core φ → Prop} {s₀ s : Session σ β ν κ}
  {guard : Session σ β ν κ → Op κ → Bool}

theorem tracks_of_reaches (hA : A.Lawful V P Legal) (ht : Tracks V Legal S s₀)
    (h : (system A mem S guard).Reaches s₀ s) : Tracks V Legal S s := by
  obtain ⟨ops, hc, hs⟩ := h
  obtain ⟨s', hs', ht'⟩ := play_tracks hA ht hc
  rwa [Except.ok.inj (hs.symm.trans hs')]

theorem idle_of_reaches (hA : A.Lawful V P Legal) (hq : A.Quiet V Legal) (ht : Tracks V Legal S s₀)
    (hi : Idle V P s₀) (h : (system A mem S guard).Reaches s₀ s) : Idle V P s := by
  obtain ⟨ops, hc, hs⟩ := h
  obtain ⟨s', hs', hi'⟩ := play_idle hA hq ht hi hc
  rwa [Except.ok.inj (hs.symm.trans hs')]

/-- A call of `next()` behind a token succeeds, and less is left to do. -/
theorem next_of_reaches (hA : A.Lawful V P Legal) (hq : A.Quiet V Legal)
    (hend : ∀ f, (P.onMessageEnd f).2.rank = 0) (ht₀ : Tracks V Legal S s₀) (hi₀ : Idle V P s₀)
    (h : (system A mem S guard).Reaches s₀ s) (hg : guard s .next = true)
    (hc : s.reader.code.isError = false) :
    ∃ r', A.next s.reader = .ok r' ∧
      (system A mem S guard).Reaches s₀ (s.pass.report mem r') ∧
      r'.ibuffer = s.reader.ibuffer ∧ r'.toDo V < s.reader.toDo V := by
  have ht := tracks_of_reaches hA ht₀ h
  have hi := idle_of_reaches hA hq ht₀ hi₀ h
  have he : V.phase s.reader.state ≠ .errored :=
    ht.sound.ne_errored (by rw [Code.isFatal, hc]; rfl)
  obtain ⟨r', hnext, hpull, hout, -⟩ := pull_ok mem hA ht he
  have hperform : (system A mem S guard).perform s .next = .ok (s.pass.report mem r') := hpull
  have hreach : (system A mem S guard).Reaches s₀ (s.pass.report mem r') := by
    refine h.step ?_ hperform
    simp only [system, permits, hg, Bool.and_self]
  refine ⟨r', hnext, hreach, by rw [hout.ibuffer, consume_ibuffer], ?_⟩
  have htoDo : s.reader.toDo V = work V s + 2 := by
    have hdata : s.reader.code ≠ .errorInsufficientData := fun h => by rw [h] at hc; cases hc
    have hfatal : ¬ s.reader.code.isFatal = true := fun h => by
      rw [Code.isError_of_isFatal h] at hc
      cases hc
    rw [Reader.toDo, if_neg hdata, if_neg hfatal]
    rfl
  rw [htoDo, Reader.toDo]
  split
  · omega
  split
  · omega
  rename_i hdata hfatal
  -- neither a request for more data nor a fatal error: a token has been found
  cases hlex : P.lex (V.eof s.reader.connection) (V.core s.reader) s.reader.consume.restView with
  | need c' =>
    rw [hlex] at hout
    exact absurd hout.outcome.2.1 hdata
  | fail code =>
    rw [hlex] at hout
    have hf := hA.implements.keeps.fail (ht.sound.legal he) hlex
    rw [← hout.outcome.2] at hf
    exact absurd hf hfatal
  | emit c' n code =>
    rw [hlex] at hout
    have hlt : work V (s.pass.report mem r') < work V s := work_report mem hA hend ht hi he hlex hout
    have hwork : work V (s.pass.report mem r') = (V.phase r'.state).work r'.unread := rfl
    omega

/-- A new buffer, behind a token: the reader is not moved. -/
theorem rebase_of_reaches {size : Nat} (h : (system A mem S guard).Reaches s₀ s)
    (hg : guard s (.setBuffer size) = true) (hp : permits A S s (.setBuffer size) = true)
    (hc : s.reader.code ≠ .errorInsufficientData) :
    s.reader.setBufferWith A.next ((S.drop s.consumed).take size)
        = .ok (s.rebase S size).reader ∧
      (system A mem S guard).Reaches s₀ (s.rebase S size) := by
  constructor
  · unfold Reader.setBufferWith
    exact if_neg hc
  · have hperform : (system A mem S guard).perform s (.setBuffer size) = .ok (s.rebase S size) :=
      refill_eq_ok hc size
    refine h.step ?_ hperform
    simp only [system, hp, hg, Bool.and_self]

/-- A new buffer, when data was insufficient: the next token is looked for at once. -/
theorem refill_of_reaches {size : Nat} (hA : A.Lawful V P Legal) (ht₀ : Tracks V Legal S s₀)
    (h : (system A mem S guard).Reaches s₀ s) (hg : guard s (.setBuffer size) = true)
    (hp : permits A S s (.setBuffer size) = true) (hc : s.reader.code = .errorInsufficientData) :
    ∃ r', s.reader.setBufferWith A.next ((S.drop s.consumed).take size) = .ok r' ∧
      (system A mem S guard).Reaches s₀ ((s.rebase S size).pass.report mem r') ∧
      r'.ibuffer = (S.drop s.consumed).take size := by
  have ht := (tracks_of_reaches hA ht₀ h).rebase hp
  have he : V.phase (s.rebase S size).reader.state ≠ .errored :=
    (tracks_of_reaches hA ht₀ h).sound.ne_errored (by rw [hc]; decide)
  obtain ⟨r', hnext, hpull, hout, -⟩ := pull_ok mem hA ht he
  refine ⟨r', ?_, ?_, ?_⟩
  · unfold Reader.setBufferWith
    exact (if_pos hc).trans hnext
  · have hperform : (system A mem S guard).perform s (.setBuffer size)
        = .ok ((s.rebase S size).pass.report mem r') := (refill_eq_pull hc size).trans hpull
    refine h.step ?_ hperform
    simp only [system, hp, hg, Bool.and_self]
  · rw [hout.ibuffer, consume_ibuffer]
    rfl

theorem toDo_pos (V : View σ β ν φ) {r : Reader σ β ν} (h : r.code ≠ .errorInsufficientData) :
    0 < r.toDo V := by
  unfold Reader.toDo
  rw [if_neg h]
  split <;> omega

/-- What is left to do is bounded by the size of the buffer. -/
theorem toDo_le (V : View σ β ν φ) (r : Reader σ β ν) : r.toDo V ≤ 3 * r.ibuffer.length + 4 := by
  have hslack := (V.phase r.state).slack_le
  unfold Reader.toDo Phase.work Reader.unread
  split
  · omega
  split <;> omega

end Session

end BoostHttp
