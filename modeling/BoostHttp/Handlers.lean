import BoostHttp.Message
import BoostHttp.Reader

/-!
# Handlers — the cases of `next()` as scanners

Each case of the `switch` that looks for a token is shown to do what a scanner of the lexical
grammar says about the unread bytes.  The loops that resume at `idx + token_size_` are the reason
for the hypotheses on the bytes a reader already holds.
-/

open Incremental

namespace BoostHttp

/-! ## Matchers -/

theorem liberalCrlfMatch_eq (view : Bytes) :
    Syntax.liberalCrlfMatch view = .ok (match lineEnd view with
      | .need => .insufficientData
      | .bad => .invalidData
      | .ok 1 => .lf
      | .ok _ => .crlf) := by
  match view with
  | [] => rfl
  | [c] =>
    by_cases h1 : c = LF
    · subst h1; rfl
    · by_cases h2 : c = CR
      · subst h2; rfl
      · have h1' : ¬ c = 0x0A := h1
        have h2' : ¬ c = 0x0D := h2
        simp [Syntax.liberalCrlfMatch, lineEnd, h1, h2, h1', h2', read, bind, Except.bind, pure,
          Except.pure]
  | c :: d :: w =>
    by_cases h1 : c = LF
    · subst h1; rfl
    · have h1' : ¬ c = 0x0A := h1
      by_cases h2 : c = CR
      · subst h2
        by_cases h3 : d = LF
        · subst h3; rfl
        · have h3' : ¬ d = 0x0A := h3
          simp only [lineEnd, if_neg h1, h3, and_false, if_false]
          simp [Syntax.liberalCrlfMatch, h3', CR, read, bind, Except.bind, pure, Except.pure]
      · have h2' : ¬ c = 0x0D := h2
        simp [Syntax.liberalCrlfMatch, lineEnd, h1, h2, h1', h2', read, bind, Except.bind, pure,
          Except.pure]

theorem strictCrlfMatch_eq {view : Bytes} (h : 2 ≤ view.length) :
    Syntax.strictCrlfMatch view = .ok (if view.take 2 = CRLF then 2 else 0) := by
  match view, h with
  | c :: d :: w, _ =>
    by_cases h1 : c = 0x0D
    · by_cases h2 : d = 0x0A
      · subst h1 h2; rfl
      · simp [Syntax.strictCrlfMatch, CRLF, CR, LF, h1, h2, read, bind, Except.bind, pure,
          Except.pure]
    · simp [Syntax.strictCrlfMatch, CRLF, CR, h1, read, bind, Except.bind, pure, Except.pure]

theorem statusCodeMatch_eq {view : Bytes} (h : 3 ≤ view.length) :
    Syntax.statusCodeMatch view = .ok (if (view.take 3).all Syntax.isDigit then 3 else 0) := by
  match view, h with
  | a :: b :: c :: w, _ =>
    have hlen : ¬ (a :: b :: c :: w).length < 3 := by simp
    have hstop : scanLoop (fun _ c => .ok (Syntax.isDigit c)) 3 3 w = .ok 3 := by
      cases w <;> rfl
    rw [Syntax.statusCodeMatch, if_neg hlen]
    cases ha : Syntax.isDigit a <;> cases hb : Syntax.isDigit b <;> cases hc : Syntax.isDigit c <;>
      simp [scanLoop, hstop, ha, hb, hc, bind, Except.bind, pure, Except.pure]

def agreement : Bytes → Bytes → Nat
  | a :: as, b :: bs => if a = b then agreement as bs + 1 else 0
  | _, _ => 0

theorem agreement_eq_left {a b : Bytes} : agreement a b = a.length ↔ a <+: b := by
  induction a generalizing b with
  | nil => simp [agreement]
  | cons x a ih =>
    cases b with
    | nil => simp [agreement]
    | cons y b =>
      by_cases h : x = y
      · simp [agreement, h, ih]
      · simp [agreement, h]

theorem agreement_comm (a b : Bytes) : agreement a b = agreement b a := by
  induction a generalizing b with
  | nil => cases b <;> rfl
  | cons x a ih =>
    cases b with
    | nil => rfl
    | cons y b => simp only [agreement, ih b, eq_comm (a := x)]

theorem agreement_eq_right {a b : Bytes} : agreement a b = b.length ↔ b <+: a := by
  rw [agreement_comm]
  exact agreement_eq_left

theorem agreement_append {u a b : Bytes} : agreement (u ++ a) (u ++ b) = u.length + agreement a b := by
  induction u with
  | nil => simp
  | cons x u ih => simp only [List.cons_append, agreement, ih, if_true, List.length_cons]; omega

/-- The comparison with a static text stops at the first difference, or at the end of the text or
of the buffer. -/
theorem scanLoop_static (skip : Bytes) (idx k : Nat) (hk : k ≤ skip.length) (rest : Bytes) :
    scanLoop (fun i c => (read skip (i - idx)).map fun s => c == s)
        (min (idx + k + rest.length) (idx + skip.length)) (idx + k) rest
      = .ok (idx + k + agreement (skip.drop k) rest) := by
  induction rest generalizing k with
  | nil =>
    have hmin : idx + k = min (idx + k + ([] : Bytes).length) (idx + skip.length) := by
      rw [List.length_nil]; omega
    rw [scanLoop, if_pos hmin]
    cases skip.drop k <;> rfl
  | cons c rest ih =>
    rw [scanLoop]
    rcases Nat.lt_or_ge k skip.length with hlt | hge
    · have hne : ¬ idx + k = min (idx + k + (c :: rest).length) (idx + skip.length) := by
        rw [List.length_cons]; omega
      have hread : read skip (idx + k - idx) = .ok skip[k] := by
        rw [Nat.add_sub_cancel_left, read, List.getElem?_eq_getElem hlt]
      rw [if_neg hne, hread, List.drop_eq_getElem_cons hlt, agreement]
      by_cases hc : skip[k] = c
      · have hlen : idx + k + (c :: rest).length = idx + (k + 1) + rest.length := by
          rw [List.length_cons]; omega
        have hmap : (Except.ok skip[k] : Except Fault UInt8).map (fun s => c == s) = .ok true := by
          simp [Except.map, hc]
        rw [hmap, if_pos hc]
        simp only
        rw [hlen, Nat.add_assoc idx k 1, ih (k + 1) hlt]
        congr 1
        omega
      · have hmap : (Except.ok skip[k] : Except Fault UInt8).map (fun s => c == s) = .ok false := by
          simp [Except.map, Ne.symm hc]
        rw [hmap, if_neg hc]
        rfl
    · have hk' : k = skip.length := by omega
      have hmin : idx + k = min (idx + k + (c :: rest).length) (idx + skip.length) := by omega
      rw [if_pos hmin, hk', List.drop_length]
      rfl

namespace Reader

variable {σ β ν : Type} {r : Reader σ β ν} {c : UInt8} {w : Bytes}

/-! ## Bytes of the buffer -/

theorem length_restView (r : Reader σ β ν) : r.restView.length = r.ibuffer.length - r.idx :=
  List.length_drop

theorem slice_append_drop (r : Reader σ β ν) :
    r.slice ++ r.ibuffer.drop (r.idx + r.tokenSize) = r.restView := by
  unfold slice restView
  rw [← List.drop_drop, List.take_append_drop]

theorem length_slice (h : r.idx + r.tokenSize ≤ r.ibuffer.length) : r.slice.length = r.tokenSize := by
  unfold slice
  rw [List.length_take, length_restView]
  omega

theorem idx_lt_of_restView (h : r.restView = c :: w) : r.idx < r.ibuffer.length := by
  have hlen := congrArg List.length h
  rw [length_restView, List.length_cons] at hlen
  omega

theorem read_of_restView (h : r.restView = c :: w) : read r.ibuffer r.idx = .ok c := by
  have hget : r.ibuffer[r.idx]? = some c := by
    have h0 : (r.ibuffer.drop r.idx)[0]? = some c := by
      change r.restView[0]? = some c
      rw [h]
      rfl
    rwa [List.getElem?_drop, Nat.add_zero] at h0
  rw [read, hget]

/-- A loop that resumes behind bytes it has already passed ends where a loop from `idx` would. -/
theorem scanWhile_resume {p : UInt8 → Bool} (hle : r.idx + r.tokenSize ≤ r.ibuffer.length)
    (hheld : ∀ a ∈ r.slice, p a = true) :
    scanWhile r.ibuffer p (r.idx + r.tokenSize)
      = .ok (r.idx + (r.restView.takeWhile p).length) := by
  rw [scanWhile_eq p hle, ← r.slice_append_drop, List.takeWhile_append_of_pos hheld,
    List.length_append, length_slice hle, Nat.add_assoc]

/-- A run of the unread bytes ends at the end of the buffer iff all of them belong to it. -/
theorem takeWhile_eq_length_iff {p : UInt8 → Bool} {w : Bytes} :
    (w.takeWhile p).length = w.length ↔ w.dropWhile p = [] := by
  have hsum : (w.takeWhile p).length + (w.dropWhile p).length = w.length := by
    rw [← List.length_append, List.takeWhile_append_dropWhile]
  rw [← List.length_eq_zero_iff]
  omega

/-! ## Handlers -/

/-- What a case of `next()` does with the verdict of a scanner. -/
def settle (r : Reader σ β ν) (errored : σ) (kept : Nat) (verdict : Scan)
    (found : Nat → Except Fault (Reader σ β ν)) : Except Fault (Reader σ β ν) :=
  match verdict with
  | .need => .ok { r with tokenSize := kept }
  | .bad => .ok (r.raise errored .errorInvalidData)
  | .ok n => found n

theorem keep_tokenSize {n : Nat} (h : r.tokenSize = n) : { r with tokenSize := n } = r := by
  subst h; rfl

theorem expectRun_eq (p : UInt8 → Bool) (errored next : σ) (code : Code)
    (hle : r.idx + r.tokenSize ≤ r.ibuffer.length) (hidx : r.idx ≤ r.ibuffer.length)
    (hheld : ∀ a ∈ r.slice, p a = true) :
    r.expectRun p errored next code
      = r.settle errored r.restView.length (spanned p (fun n _ => n != 0) r.restView)
          fun n => .ok (r.found next code n) := by
  unfold expectRun
  rw [scanWhile_resume hle hheld]
  simp only [bind, Except.bind, pure, Except.pure, Nat.add_sub_cancel_left]
  have hend : r.idx + (r.restView.takeWhile p).length = r.ibuffer.length
      ↔ r.restView.dropWhile p = [] := by
    rw [← takeWhile_eq_length_iff, length_restView]
    omega
  unfold spanned
  cases hd : r.restView.dropWhile p with
  | nil =>
    rw [if_neg (by rw [not_not, hend]; exact hd)]
    simp only [settle]
    rw [takeWhile_eq_length_iff.mpr hd]
  | cons d x =>
    rw [if_pos (by rw [Ne, hend, hd]; exact List.cons_ne_nil d x)]
    by_cases hz : (r.restView.takeWhile p).length = 0
    · simp [settle, hz]
    · simp [settle, hz]

theorem expectSp_eq (errored next : σ) (h : r.restView = c :: w) :
    r.expectSp errored next
      = r.settle errored 0 (fixed 1 (·.all Detail.isSp) r.restView)
          fun n => .ok (r.found next .skip n) := by
  unfold expectSp
  rw [read_of_restView h, h]
  cases hc : Detail.isSp c <;>
    simp [fixed, settle, hc, bind, Except.bind, pure, Except.pure]

theorem expectStaticStr_eq (skip : Bytes) (errored next : σ)
    (hle : r.idx + r.tokenSize ≤ r.ibuffer.length) (hpre : r.slice <+: skip) :
    r.expectStaticStr skip errored next
      = r.settle errored r.restView.length (literal skip r.restView)
          fun n => .ok (r.found next .skip n) := by
  have hts : r.tokenSize ≤ skip.length := by
    have := hpre.length_le
    rwa [length_slice hle] at this
  obtain ⟨u, hu⟩ := hpre
  have hlen : r.ibuffer.length = r.idx + r.tokenSize + (r.ibuffer.drop (r.idx + r.tokenSize)).length := by
    rw [List.length_drop]; omega
  have hrest : r.restView.length = r.tokenSize + (r.ibuffer.drop (r.idx + r.tokenSize)).length := by
    rw [← r.slice_append_drop, List.length_append, length_slice hle]
  have hdrop : skip.drop r.tokenSize = u := by
    rw [← hu, List.drop_left' (length_slice hle)]
  have hagree : agreement skip r.restView
      = r.tokenSize + agreement u (r.ibuffer.drop (r.idx + r.tokenSize)) := by
    rw [← r.slice_append_drop, ← hu, agreement_append, length_slice hle]
  have hloop := scanLoop_static skip r.idx r.tokenSize hts (r.ibuffer.drop (r.idx + r.tokenSize))
  rw [← hlen, hdrop, Nat.add_assoc, ← hagree] at hloop
  unfold expectStaticStr
  simp only
  rw [hloop]
  simp only [bind, Except.bind, pure, Except.pure, Nat.add_sub_cancel_left]
  -- the index reached is compared with the shorter of text and buffer
  have hcount : r.idx + agreement skip r.restView = min r.ibuffer.length (r.idx + skip.length)
      ↔ skip <+: r.restView ∨ r.restView <+: skip := by
    rw [← agreement_eq_left, ← agreement_eq_right]
    have h1 : agreement skip r.restView = skip.length → skip.length ≤ r.restView.length :=
      fun h => (agreement_eq_left.mp h).length_le
    have h2 : agreement skip r.restView = r.restView.length → r.restView.length ≤ skip.length :=
      fun h => (agreement_eq_right.mp h).length_le
    omega
  unfold literal
  by_cases h1 : skip <+: r.restView
  · rw [if_neg (by rw [not_not, hcount]; exact .inl h1), if_pos h1,
      if_pos (agreement_eq_left.mpr h1), agreement_eq_left.mpr h1]
    rfl
  · rw [if_neg h1]
    by_cases h2 : r.restView <+: skip
    · rw [if_neg (by rw [not_not, hcount]; exact .inr h2), if_pos h2,
        if_neg (fun h => h1 (agreement_eq_left.mp h)), agreement_eq_right.mpr h2]
      rfl
    · rw [if_pos (by rw [Ne, hcount]; exact fun h => h.elim h1 h2), if_neg h2]
      rfl

theorem expectLiberalCrlf_eq (errored next : σ) (hts : r.tokenSize = 0) :
    r.expectLiberalCrlf errored next
      = r.settle errored 0 (lineEnd r.restView) fun n => .ok (r.found next .skip n) := by
  unfold expectLiberalCrlf
  rw [liberalCrlfMatch_eq]
  simp only [bind, Except.bind, pure, Except.pure]
  cases hl : lineEnd r.restView with
  | need => simp [settle, keep_tokenSize hts]
  | bad => simp [settle]
  | ok n =>
    rcases lineEnd_ok hl with rfl | rfl <;> simp [settle]

theorem expectStrictCrlf_eq (errored : σ) (matched : Reader σ β ν → Nat → Reader σ β ν)
    (hts : r.tokenSize = 0) :
    r.expectStrictCrlf errored matched
      = r.settle errored 0 (fixed 2 (· == CRLF) r.restView) fun n => .ok (matched r n) := by
  unfold expectStrictCrlf fixed
  split
  · simp [settle, keep_tokenSize hts]
  · rename_i hlen
    rw [strictCrlfMatch_eq (by omega)]
    by_cases h : r.restView.take 2 = CRLF
    · simp [h, settle, bind, Except.bind, pure, Except.pure]
    · simp [h, settle, bind, Except.bind, pure, Except.pure]

theorem expectColon_eq (errored ows value : σ) (h : r.restView = c :: w) :
    r.expectColon errored ows value
      = if c ≠ 0x3A then .ok (r.raise errored .errorInvalidData)
        else .ok (r.found (if (w.dropWhile Detail.isOws).isEmpty then ows else value) .skip
          ((w.takeWhile Detail.isOws).length + 1)) := by
  have hlt := idx_lt_of_restView h
  have hw : r.ibuffer.drop (r.idx + 1) = w := by
    have hd : (r.ibuffer.drop r.idx).drop 1 = w := by
      change r.restView.drop 1 = w
      rw [h]
      rfl
    rwa [List.drop_drop] at hd
  unfold expectColon
  rw [read_of_restView h, scanWhile_eq _ (by omega : r.idx + 1 ≤ r.ibuffer.length), hw]
  simp only [bind, Except.bind, pure, Except.pure]
  split
  · rfl
  · have hlen : r.ibuffer.length = r.idx + 1 + w.length := by
      rw [← hw, List.length_drop]; omega
    have hend : r.idx + 1 + (w.takeWhile Detail.isOws).length = r.ibuffer.length
        ↔ (w.dropWhile Detail.isOws).isEmpty = true := by
      rw [List.isEmpty_iff, ← takeWhile_eq_length_iff]
      omega
    have hsize : r.idx + 1 + (w.takeWhile Detail.isOws).length - r.idx
        = (w.takeWhile Detail.isOws).length + 1 := by omega
    rw [hsize]
    by_cases he : (w.dropWhile Detail.isOws).isEmpty = true
    · rw [if_neg (by rw [not_not, hend]; exact he), if_pos he]
    · rw [if_pos (by rw [Ne, hend]; exact he), if_neg he]

theorem expectOws_eq (self : Reader σ β ν → Except Fault (Reader σ β ν)) (value : σ)
    (h : r.restView = c :: w) :
    r.expectOws self value
      = if Detail.isOws c then
          .ok { r with code := .skip, tokenSize := (r.restView.takeWhile Detail.isOws).length }
        else self { r with state := value } := by
  have hmatch : Syntax.owsMatch r.restView = .ok (r.restView.takeWhile Detail.isOws).length :=
    matchWhile_eq Detail.isOws r.restView
  unfold expectOws
  rw [hmatch, h]
  cases hc : Detail.isOws c <;> simp [hc, bind, Except.bind, pure, Except.pure]

theorem expectText_eq (matcher : Bytes → Except Fault Nat) {p : UInt8 → Bool}
    (hm : ∀ v, matcher v = matchWhile p v) (errored next : σ) (code : Code)
    (matched : Reader σ β ν → Except Fault (Reader σ β ν)) (hts : r.tokenSize = 0) :
    r.expectText matcher next code matched
      = r.settle errored 0 (spanned p (fun _ _ => true) r.restView)
          fun n => matched (r.found next code n) := by
  unfold expectText spanned
  rw [hm, matchWhile_eq]
  simp only [bind, Except.bind, pure, Except.pure, takeWhile_eq_length_iff]
  cases hd : r.restView.dropWhile p with
  | nil => simp [settle, keep_tokenSize hts]
  | cons d x => simp [settle]

theorem fieldNameMatch_eq (view : Bytes) :
    Syntax.fieldNameMatch view = .ok (view.takeWhile Detail.isTchar).length := by
  rw [Syntax.fieldNameMatch, matchWhile_eq, show Syntax.isTchar = Detail.isTchar from
    funext Syntax.isTchar_eq]

theorem expectName_eq (self : Reader σ β ν → Except Fault (Reader σ β ν)) (errored crlf next : σ)
    (code : Code) (matched : Reader σ β ν → Except Fault (Reader σ β ν)) (hts : r.tokenSize = 0)
    (h : r.restView = c :: w) :
    r.expectName self crlf next code matched
      = if Detail.isTchar c then
          r.settle errored 0 (spanned Detail.isTchar (fun n _ => n != 0) r.restView)
            fun n => matched (r.found next code n)
        else self { r with state := crlf } := by
  unfold expectName spanned
  rw [fieldNameMatch_eq]
  simp only [bind, Except.bind, pure, Except.pure, takeWhile_eq_length_iff]
  cases hc : Detail.isTchar c with
  | false => simp [h, hc]
  | true =>
    have hpos : (r.restView.takeWhile Detail.isTchar).length ≠ 0 := by simp [h, hc]
    cases hd : r.restView.dropWhile Detail.isTchar with
    | nil => simp [settle, hpos, keep_tokenSize hts]
    | cons d x => simp [settle, hpos]

theorem expectBody_eq (done : σ) :
    r.expectBody done =
      { r with
        code := .bodyChunk
        tokenSize := min r.restView.length r.bodySize
        bodySize := r.bodySize - min r.restView.length r.bodySize
        state := if r.bodySize - min r.restView.length r.bodySize = 0 then done else r.state } := by
  unfold expectBody
  simp only [wrapSub_eq (Nat.min_le_right r.restView.length r.bodySize)]
  split <;> rfl

/-- What `EXPECT_CHUNK_SIZE` makes of a numeral of `n` digits. -/
def chunkSizeRead (r : Reader σ β ν) (errored next : σ) (n : Nat) : Reader σ β ν :=
  match Syntax.chunkSizeDecode 64 (r.restView.take n) r.bodySize with
  | (.invalid, out) => { r with bodySize := out }.raise errored .errorInvalidData
  | (.overflow, out) => { r with bodySize := out }.raise errored .errorChunkSizeOverflow
  | (.ok, out) => { r with bodySize := out }.found next .skip n

theorem expectChunkSize_eq (errored next : σ) (hts : r.tokenSize = 0) (h : r.restView = c :: w) :
    r.expectChunkSize errored next
      = r.settle errored 0 (spanned Syntax.isHexdigit (fun n _ => n != 0) r.restView)
          fun n => .ok (r.chunkSizeRead errored next n) := by
  unfold expectChunkSize spanned
  rw [Syntax.chunkSizeMatch, matchWhile_eq]
  simp only [bind, Except.bind, pure, Except.pure, takeWhile_eq_length_iff]
  cases hd : r.restView.dropWhile Syntax.isHexdigit with
  | nil =>
    have hne : ¬ (r.restView.takeWhile Syntax.isHexdigit).length = 0 := by
      rw [takeWhile_eq_length_iff.mpr hd, h]
      simp
    simp [settle, keep_tokenSize hts, hne]
  | cons d x =>
    by_cases hz : (r.restView.takeWhile Syntax.isHexdigit).length = 0
    · simp [settle, hz]
    · simp only [settle, chunkSizeRead, hz, bne_iff_ne, ne_eq, not_false_iff, if_true, if_false,
        reduceCtorEq]
      cases Syntax.chunkSizeDecode 64
          (r.restView.take (r.restView.takeWhile Syntax.isHexdigit).length) r.bodySize with
      | mk res out => cases res <;> rfl

theorem expectChunkExt_eq (self : Reader σ β ν → Except Fault (Reader σ β ν)) (errored crlf : σ)
    (hle : r.idx + r.tokenSize ≤ r.ibuffer.length)
    (hheld : ∀ a ∈ r.slice, Detail.isChunkExtChar a = true) (h : r.restView = c :: w) :
    r.expectChunkExt self errored crlf
      = if c = CR then self { r with state := crlf, tokenSize := 0 }
        else
          r.settle errored r.restView.length
            (spanned Detail.isChunkExtChar (fun _ c => c == CR) r.restView)
            fun n => .ok (r.found crlf .chunkExt n) := by
  have hlt := idx_lt_of_restView h
  unfold expectChunkExt
  rw [scanWhile_resume hle hheld]
  simp only [bind, Except.bind, pure, Except.pure, Nat.add_sub_cancel_left]
  have hend : r.idx + (r.restView.takeWhile Detail.isChunkExtChar).length = r.ibuffer.length
      ↔ r.restView.dropWhile Detail.isChunkExtChar = [] := by
    rw [← takeWhile_eq_length_iff, length_restView]
    omega
  unfold spanned
  cases hd : r.restView.dropWhile Detail.isChunkExtChar with
  | nil =>
    have hc : c ≠ CR := by
      rintro rfl
      have hcr : Detail.isChunkExtChar CR = false := by decide
      rw [h, List.dropWhile_cons_of_neg (by simp [hcr])] at hd
      cases hd
    rw [if_pos (hend.mpr hd), if_neg hc, takeWhile_eq_length_iff.mpr hd]
    rfl
  | cons d x =>
    rw [if_neg (by rw [hend, hd]; exact List.cons_ne_nil d x)]
    -- the byte at which the loop stopped is the head of what is left
    have hread : read r.ibuffer
        (r.idx + (r.restView.takeWhile Detail.isChunkExtChar).length) = .ok d := by
      have hget : r.restView[(r.restView.takeWhile Detail.isChunkExtChar).length]? = some d := by
        have h0 : (r.restView.drop (r.restView.takeWhile Detail.isChunkExtChar).length)[0]?
            = some d := by
          rw [drop_length_takeWhile, hd]
          rfl
        rwa [List.getElem?_drop, Nat.add_zero] at h0
      rw [restView, List.getElem?_drop] at hget
      rw [read, restView, hget]
    rw [hread]
    simp only
    by_cases hc : c = CR
    · subst hc
      have hcr : Detail.isChunkExtChar CR = false := by decide
      rw [h, List.dropWhile_cons_of_neg (by simp [hcr])] at hd
      cases hd
      have hz : r.restView.takeWhile Detail.isChunkExtChar = [] := by
        rw [h, List.takeWhile_cons_of_neg (by simp [hcr])]
      rw [hz]
      have hcr' : CR = 0x0D := rfl
      simp [hcr']
    · rw [if_neg hc]
      by_cases hdc : d = CR
      · subst hdc
        have hpos : (r.restView.takeWhile Detail.isChunkExtChar).length ≠ 0 := by
          intro hz
          have hnil := List.length_eq_zero_iff.mp hz
          have happ := List.takeWhile_append_dropWhile (p := Detail.isChunkExtChar) (l := r.restView)
          rw [hnil, hd, h, List.nil_append] at happ
          exact hc (List.cons.inj happ).1.symm
        have hcr' : ¬ (CR ≠ 0x0D) := by decide
        simp [settle, hpos, hcr', found]
      · have hdc' : d ≠ 0x0D := hdc
        simp [settle, hdc, hdc']

end Reader

end BoostHttp
