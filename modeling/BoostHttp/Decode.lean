import BoostHttp.Syntax

/-!
# Decode — numbers, field values and names

`syntax::content_length::decode` and `syntax::chunk_size::decode` are one loop over two alphabets;
`decode` is that loop for any radix.  `decodeFieldValue` is `reader::detail::decode_field_value`.
-/

namespace BoostHttp

namespace Syntax

inductive DecodeResult where
  | invalid
  | ok
  | overflow
  deriving DecidableEq, Repr

/-- An alphabet of digits: the `switch` of a decoder. -/
structure Radix where
  base : Nat
  digitOf : UInt8 → Option Nat
  one_lt_base : 1 < base
  digitOf_lt : ∀ {c d}, digitOf c = some d → d < base
  digitOf_zero : digitOf 0x30 = some 0
  eq_of_digitOf_zero : ∀ {c}, digitOf c = some 0 → c = 0x30

def decimalDigit (c : UInt8) : Option Nat :=
  if c ≥ 0x30 && c ≤ 0x39 then some (c.toNat - 0x30) else none

/-- The labels `0` .. `9`, and `a`, `A` .. `f`, `F`, which are folded to lower case. -/
def hexDigit (c : UInt8) : Option Nat :=
  if c ≥ 0x30 && c ≤ 0x39 then some (c.toNat - 0x30)
  else if [0x61, 0x41, 0x62, 0x42, 0x63, 0x43, 0x64, 0x44, 0x65, 0x45, 0x66, 0x46].contains c then
    -- `char c = in[i] | 0x20; value = 10 + c - 'a'`
    some (10 + (c ||| 0x20).toNat - 0x61)
  else none

theorem decimalDigit_lt (c : UInt8) : ∀ d ∈ decimalDigit c, d < 10 := by
  revert c
  decide +kernel

theorem eq_of_decimalDigit_zero {c : UInt8} : decimalDigit c = some 0 → c = 0x30 := by
  revert c
  decide +kernel

theorem hexDigit_lt (c : UInt8) : ∀ d ∈ hexDigit c, d < 16 := by
  revert c
  decide +kernel

theorem eq_of_hexDigit_zero {c : UInt8} : hexDigit c = some 0 → c = 0x30 := by
  revert c
  decide +kernel

def decimal : Radix where
  base := 10
  digitOf := decimalDigit
  one_lt_base := by decide
  digitOf_lt h := decimalDigit_lt _ _ h
  digitOf_zero := by decide
  eq_of_digitOf_zero := eq_of_decimalDigit_zero

def hexadecimal : Radix where
  base := 16
  digitOf := hexDigit
  one_lt_base := by decide
  digitOf_lt h := hexDigit_lt _ _ h
  digitOf_zero := by decide
  eq_of_digitOf_zero := eq_of_hexDigit_zero

/-- `std::numeric_limits<Target>::max()` for an unsigned target of `w` bits. -/
def maxOf (w : Nat) : Nat := 2 ^ w - 1

/-- The loop of `decode`.  It walks the view from its last byte to its first, so the argument is the
reversed view; `digit` is the weight of the current digit. -/
def decodeLoop (w : Nat) (R : Radix) : Bytes → Nat → Nat → DecodeResult × Nat
  | [], _, out => (.ok, out)
  | c :: cs, digit, out =>
    match R.digitOf c with
    | none => (.invalid, out)
    | some value =>
      -- `max / digit < value`: the digit alone does not fit
      if maxOf w / digit < value then (.overflow, out)
      else
        let value := value * digit % 2 ^ w
        -- `max - value < out`: the digit does not fit on top of the others
        if maxOf w - value < out then (.overflow, out)
        else
          let out := (out + value) % 2 ^ w
          -- behind the leading digit the loop ends: the next weight need not fit the target
          match cs with
          | [] => (.ok, out)
          | _ :: _ =>
            if maxOf w / R.base < digit then (.overflow, out)
            else decodeLoop w R cs (digit * R.base % 2 ^ w) out

/-- `decode(in, out)` into an unsigned target of `w` bits: the result and the final value of
`out`. -/
def decode (w : Nat) (R : Radix) (input : Bytes) (out : Nat) : DecodeResult × Nat :=
  if input.length = 0 then (.invalid, out)
  else
    let input := input.dropWhile (· == 0x30)
    -- the zeros in front are removed, and nothing else is left of a zero
    if input.length = 0 then (.ok, 0) else decodeLoop w R input.reverse 1 0

/-- What `out` holds at first does not matter, unless there is nothing to decode. -/
theorem decode_congr (w : Nat) (R : Radix) {input : Bytes} (h : input ≠ []) (out out' : Nat) :
    decode w R input out = decode w R input out' := by
  have hlen : input.length ≠ 0 := fun h₀ => h (List.length_eq_zero_iff.mp h₀)
  unfold decode
  rw [if_neg hlen, if_neg hlen]

/-- Decoding into two targets gives the same result, and the same number where it succeeds. -/
theorem decode_alike (w : Nat) (R : Radix) (input : Bytes) (out out' : Nat) :
    (∃ n, decode w R input out = (.ok, n) ∧ decode w R input out' = (.ok, n)) ∨
      ∃ res n n', res ≠ .ok ∧ decode w R input out = (res, n) ∧ decode w R input out' = (res, n') := by
  by_cases hnil : input = []
  · rw [hnil]
    exact .inr ⟨.invalid, out, out', nofun, rfl, rfl⟩
  · rw [decode_congr w R hnil out out']
    obtain ⟨res, n⟩ := decode w R input out'
    cases res with
    | ok => exact .inl ⟨n, rfl, rfl⟩
    | invalid => exact .inr ⟨.invalid, n, n, nofun, rfl, rfl⟩
    | overflow => exact .inr ⟨.overflow, n, n, nofun, rfl, rfl⟩

def contentLengthDecode (w : Nat) (input : Bytes) (out : Nat) : DecodeResult × Nat :=
  decode w decimal input out

def chunkSizeDecode (w : Nat) (input : Bytes) (out : Nat) : DecodeResult × Nat :=
  decode w hexadecimal input out

/-! ## The value of a numeral -/

def Radix.digits (R : Radix) (cs : Bytes) : List Nat := cs.map fun c => (R.digitOf c).getD 0

def Radix.value (R : Radix) (input : Bytes) : Nat := Nat.ofDigits R.base (R.digits input.reverse)

def Radix.AllDigits (R : Radix) (input : Bytes) : Prop := ∀ c ∈ input, (R.digitOf c).isSome = true

instance (R : Radix) (input : Bytes) : Decidable (R.AllDigits input) :=
  inferInstanceAs (Decidable (∀ c ∈ input, (R.digitOf c).isSome = true))

theorem Radix.digits_cons (R : Radix) {c : UInt8} {d : Nat} (h : R.digitOf c = some d) (cs : Bytes) :
    R.digits (c :: cs) = d :: R.digits cs := by
  simp [Radix.digits, h]

theorem Radix.value_dropWhile (R : Radix) (input : Bytes) :
    R.value (input.dropWhile (· == 0x30)) = R.value input := by
  induction input with
  | nil => rfl
  | cons c cs ih =>
    by_cases hc : (c == 0x30) = true
    · have hc' : c = 0x30 := by simpa using hc
      rw [List.dropWhile_cons_of_pos (p := (· == 0x30)) hc, ih, hc']
      simp [Radix.value, Radix.digits, R.digitOf_zero, Nat.ofDigits_append]
    · rw [List.dropWhile_cons_of_neg (p := (· == 0x30)) hc]

/-- The leading digit of a numeral without leading zeros makes it at least one. -/
theorem Radix.ofDigits_pos (R : Radix) {cs : Bytes} (hne : cs ≠ [])
    (hlast : R.digitOf (cs.getLast hne) ≠ some 0) (hall : R.AllDigits cs) :
    0 < Nat.ofDigits R.base (R.digits cs) := by
  induction cs with
  | nil => exact absurd rfl hne
  | cons c cs ih =>
    obtain ⟨d, hd⟩ := Option.isSome_iff_exists.mp (hall c List.mem_cons_self)
    rw [R.digits_cons hd, Nat.ofDigits_cons]
    cases cs with
    | nil =>
      have hd0 : d ≠ 0 := by
        rintro rfl
        exact hlast hd
      omega
    | cons c' cs' =>
      have hpos := ih (List.cons_ne_nil _ _) (by simpa using hlast)
        (fun a ha => hall a (List.mem_cons_of_mem _ ha))
      have hmul : 0 < R.base * Nat.ofDigits R.base (R.digits (c' :: cs')) :=
        Nat.mul_pos (by have := R.one_lt_base; omega) hpos
      omega

/-- A round of the loop, with its guards read as what they guard. -/
theorem decodeLoop_cons (w : Nat) (R : Radix) {c : UInt8} {d : Nat} (hd : R.digitOf c = some d)
    (cs : Bytes) {digit : Nat} (hdigit : 0 < digit) (out : Nat) :
    decodeLoop w R (c :: cs) digit out =
      if out + d * digit < 2 ^ w then
        if cs = [] then (.ok, out + d * digit)
        else if digit * R.base < 2 ^ w then decodeLoop w R cs (digit * R.base) (out + d * digit)
        else (.overflow, out + d * digit)
      else (.overflow, out) := by
  have hpow : maxOf w + 1 = 2 ^ w := Nat.sub_add_cancel Nat.one_le_two_pow
  have hbase : 0 < R.base := Nat.lt_trans Nat.zero_lt_one R.one_lt_base
  rw [decodeLoop]
  simp only [hd]
  -- the product, the sum and the next weight
  by_cases h1 : maxOf w / digit < d
  · have hbig : maxOf w < d * digit := (Nat.div_lt_iff_lt_mul hdigit).mp h1
    have hnot : ¬ out + d * digit < 2 ^ w := by omega
    rw [if_pos h1, if_neg hnot]
  · have hfit : d * digit ≤ maxOf w := by
      rw [Nat.div_lt_iff_lt_mul hdigit] at h1
      exact Nat.le_of_not_lt h1
    rw [if_neg h1, Nat.mod_eq_of_lt (by omega : d * digit < 2 ^ w)]
    by_cases h2 : maxOf w - d * digit < out
    · have hnot : ¬ out + d * digit < 2 ^ w := by omega
      rw [if_pos h2, if_neg hnot]
    · have hsum : out + d * digit < 2 ^ w := by omega
      rw [if_neg h2, if_pos hsum, Nat.mod_eq_of_lt hsum]
      cases cs with
      | nil => rfl
      | cons c' cs =>
        simp only [reduceCtorEq, if_false]
        by_cases h3 : maxOf w / R.base < digit
        · have hbig : maxOf w < digit * R.base := (Nat.div_lt_iff_lt_mul hbase).mp h3
          have hnot : ¬ digit * R.base < 2 ^ w := by omega
          rw [if_pos h3, if_neg hnot]
        · have hfit' : digit * R.base ≤ maxOf w := by
            rw [Nat.div_lt_iff_lt_mul hbase] at h3
            exact Nat.le_of_not_lt h3
          have hnext : digit * R.base < 2 ^ w := by omega
          rw [if_neg h3, if_pos hnext, Nat.mod_eq_of_lt hnext]

/-- The loop adds the rest of the numeral, at the weight it has reached, to what it has
accumulated, and reports an overflow exactly when the sum does not fit. -/
theorem decodeLoop_eq (w : Nat) (R : Radix) {cs : Bytes} (hne : cs ≠ [])
    (hlast : R.digitOf (cs.getLast hne) ≠ some 0) (hall : R.AllDigits cs) (digit out : Nat)
    (hout : out < digit) :
    (out + digit * Nat.ofDigits R.base (R.digits cs) < 2 ^ w →
      decodeLoop w R cs digit out = (.ok, out + digit * Nat.ofDigits R.base (R.digits cs))) ∧
    (2 ^ w ≤ out + digit * Nat.ofDigits R.base (R.digits cs) →
      (decodeLoop w R cs digit out).1 = .overflow) := by
  induction cs generalizing digit out with
  | nil => exact absurd rfl hne
  | cons c cs ih =>
    obtain ⟨d, hd⟩ := Option.isSome_iff_exists.mp (hall c List.mem_cons_self)
    have hdlt : d < R.base := R.digitOf_lt hd
    rw [R.digits_cons hd, Nat.ofDigits_cons, decodeLoop_cons w R hd cs (by omega)]
    -- the total, with the share of the current digit split off
    have hshare : ∀ r, out + digit * (d + R.base * r) = out + d * digit + digit * R.base * r := by
      intro r; ring
    rw [hshare]
    by_cases hsum : out + d * digit < 2 ^ w
    · rw [if_pos hsum]
      cases cs with
      | nil =>
        have hnil : digit * R.base * Nat.ofDigits R.base (R.digits []) = 0 := rfl
        rw [hnil, Nat.add_zero, if_pos rfl]
        exact ⟨fun _ => rfl, fun h => absurd hsum (Nat.not_lt.mpr h)⟩
      | cons c' cs =>
        rw [if_neg (List.cons_ne_nil _ _)]
        have hall' : R.AllDigits (c' :: cs) := fun a ha => hall a (List.mem_cons_of_mem _ ha)
        have hlast' : R.digitOf ((c' :: cs).getLast (List.cons_ne_nil _ _)) ≠ some 0 := by
          simpa using hlast
        -- the digits left are worth at least one, so a weight too large is a total too large
        have hpos := R.ofDigits_pos (List.cons_ne_nil _ _) hlast' hall'
        by_cases hnext : digit * R.base < 2 ^ w
        · rw [if_pos hnext]
          -- the sum stays below the next weight, as the induction hypothesis asks
          have hcarry : out + d * digit < digit * R.base := by
            have hmul : (d + 1) * digit ≤ R.base * digit := Nat.mul_le_mul_right _ hdlt
            have hcomm : R.base * digit = digit * R.base := Nat.mul_comm _ _
            have hexp : (d + 1) * digit = d * digit + digit := Nat.succ_mul _ _
            omega
          exact ih (List.cons_ne_nil _ _) hlast' hall' _ _ hcarry
        · rw [if_neg hnext]
          have hle := Nat.le_mul_of_pos_right (digit * R.base) hpos
          exact ⟨fun h => by omega, fun _ => rfl⟩
    · rw [if_neg hsum]
      exact ⟨fun h => by omega, fun _ => rfl⟩

/-- The loop reports success only when every byte it walked over is a digit. -/
theorem allDigits_of_decodeLoop (w : Nat) (R : Radix) {cs : Bytes} {digit out n : Nat}
    (h : decodeLoop w R cs digit out = (.ok, n)) : R.AllDigits cs := by
  induction cs generalizing digit out with
  | nil => intro c hc; cases hc
  | cons c cs ih =>
    intro a ha
    rw [decodeLoop] at h
    cases hd : R.digitOf c with
    | none => rw [hd] at h; cases h
    | some d =>
      have hhead : (R.digitOf c).isSome = true := by rw [hd]; rfl
      simp only [hd] at h
      split at h
      · cases h
      · split at h
        · cases h
        · cases cs with
          | nil => rw [List.mem_singleton.mp ha]; exact hhead
          | cons c' cs' =>
            simp only at h
            split at h
            · cases h
            · rcases List.mem_cons.mp ha with rfl | ha
              · exact hhead
              · exact ih h a ha

/-- A decoder reads a numeral that fits its target, and reports an overflow for one that does
not. -/
theorem decode_of_allDigits (w : Nat) (R : Radix) {input : Bytes} (out : Nat) (hne : input ≠ [])
    (hall : R.AllDigits input) :
    (R.value input < 2 ^ w → decode w R input out = (.ok, R.value input)) ∧
    (2 ^ w ≤ R.value input → (decode w R input out).1 = .overflow) := by
  have hlen : ¬ input.length = 0 := by simpa using hne
  unfold decode
  rw [if_neg hlen]
  simp only
  rw [← R.value_dropWhile input]
  by_cases hz : (input.dropWhile (· == 0x30)).length = 0
  · rw [if_pos hz, List.length_eq_zero_iff.mp hz]
    exact ⟨fun _ => rfl, fun h => absurd h (by simp [Radix.value, Radix.digits])⟩
  · rw [if_neg hz]
    have hrev : (input.dropWhile (· == 0x30)).reverse ≠ [] := by simpa using hz
    -- the first byte that is no zero ends the reversed view
    have hlast : R.digitOf ((input.dropWhile (· == 0x30)).reverse.getLast hrev) ≠ some 0 := by
      intro h0
      rw [List.getLast_reverse] at h0
      have hhead := List.head_dropWhile_not (· == (0x30 : UInt8)) (l := input) (by simpa using hz)
      rw [R.eq_of_digitOf_zero h0] at hhead
      simp at hhead
    have hall' : R.AllDigits (input.dropWhile (· == 0x30)).reverse := by
      intro c hc
      exact hall c (List.dropWhile_subset (· == 0x30) (List.mem_reverse.mp hc))
    have h := decodeLoop_eq w R hrev hlast hall' 1 0 (by omega)
    simpa [Radix.value] using h

/-- A decoder succeeds only on a numeral that fits, with its value. -/
theorem of_decode_ok {w : Nat} (R : Radix) {input : Bytes} {out n : Nat}
    (h : decode w R input out = (.ok, n)) :
    input ≠ [] ∧ R.AllDigits input ∧ R.value input < 2 ^ w ∧ n = R.value input := by
  have hne : input ≠ [] := by
    rintro rfl
    simp [decode] at h
  have hall : R.AllDigits input := by
    intro c hc
    by_cases hc0 : c = 0x30
    · rw [hc0, R.digitOf_zero]; rfl
    · have hmem : c ∈ input.dropWhile (· == 0x30) := by
        rw [← List.takeWhile_append_dropWhile (p := (· == (0x30 : UInt8))) (l := input)] at hc
        rcases List.mem_append.mp hc with hc | hc
        · exact absurd (by simpa using List.mem_takeWhile_imp hc) hc0
        · exact hc
      have hlen : ¬ input.length = 0 := by simpa using hne
      have hz : ¬ (input.dropWhile (· == 0x30)).length = 0 := by
        intro hz
        rw [List.length_eq_zero_iff.mp hz] at hmem
        cases hmem
      rw [decode, if_neg hlen] at h
      simp only [if_neg hz] at h
      exact allDigits_of_decodeLoop w R h c (List.mem_reverse.mpr hmem)
  have hdec := decode_of_allDigits w R out hne hall
  by_cases hlt : R.value input < 2 ^ w
  · refine ⟨hne, hall, hlt, ?_⟩
    rw [hdec.1 hlt] at h
    cases h
    rfl
  · have hov := hdec.2 (by omega)
    rw [h] at hov
    cases hov

/-! ## Intermediate results -/

/-- The loop of `decode` together with every product, sum and power that it computes, each as it is
before the target cuts it off; the last one comes first. -/
def decodeLoopLogged (w : Nat) (R : Radix) :
    Bytes → Nat → Nat → List Nat → (DecodeResult × Nat) × List Nat
  | [], _, out, log => ((.ok, out), log)
  | c :: cs, digit, out, log =>
    match R.digitOf c with
    | none => ((.invalid, out), log)
    | some value =>
      if maxOf w / digit < value then ((.overflow, out), log)
      else
        let log := value * digit :: log
        let value := value * digit % 2 ^ w
        if maxOf w - value < out then ((.overflow, out), log)
        else
          let log := (out + value) :: log
          let out := (out + value) % 2 ^ w
          match cs with
          | [] => ((.ok, out), log)
          | _ :: _ =>
            if maxOf w / R.base < digit then ((.overflow, out), log)
            else decodeLoopLogged w R cs (digit * R.base % 2 ^ w) out (digit * R.base :: log)

def decodeLogged (w : Nat) (R : Radix) (input : Bytes) (out : Nat) :
    (DecodeResult × Nat) × List Nat :=
  if input.length = 0 then ((.invalid, out), [])
  else
    let input := input.dropWhile (· == 0x30)
    if input.length = 0 then ((.ok, 0), []) else decodeLoopLogged w R input.reverse 1 0 []

theorem decodeLoopLogged_fst (w : Nat) (R : Radix) (cs : Bytes) (digit out : Nat) (log : List Nat) :
    (decodeLoopLogged w R cs digit out log).1 = decodeLoop w R cs digit out := by
  induction cs generalizing digit out log with
  | nil => rfl
  | cons c cs ih =>
    rw [decodeLoopLogged, decodeLoop]
    cases R.digitOf c with
    | none => rfl
    | some value =>
      simp only
      split
      · rfl
      · split
        · rfl
        · cases cs with
          | nil => rfl
          | cons c' cs =>
            simp only
            split
            · rfl
            · exact ih _ _ _

/-- Keeping the record does not change what is decoded. -/
theorem decodeLogged_fst (w : Nat) (R : Radix) (input : Bytes) (out : Nat) :
    (decodeLogged w R input out).1 = decode w R input out := by
  unfold decodeLogged decode
  split
  · rfl
  · simp only
    split
    · rfl
    · exact decodeLoopLogged_fst w R _ 1 0 []

/-- Each result is guarded before it is computed; the weight of a digit stays positive, so that the
first guard does not divide by zero. -/
theorem decodeLoopLogged_le (w : Nat) (R : Radix) (cs : Bytes) {digit out : Nat} {log : List Nat}
    (hdigit : 0 < digit) (hlog : ∀ n ∈ log, n ≤ maxOf w) :
    ∀ n ∈ (decodeLoopLogged w R cs digit out log).2, n ≤ maxOf w := by
  have hpow : maxOf w + 1 = 2 ^ w := Nat.sub_add_cancel Nat.one_le_two_pow
  have hbase : 0 < R.base := Nat.lt_trans Nat.zero_lt_one R.one_lt_base
  induction cs generalizing digit out log with
  | nil => exact hlog
  | cons c cs ih =>
    rw [decodeLoopLogged]
    cases R.digitOf c with
    | none => exact hlog
    | some value =>
      simp only
      split
      · exact hlog
      · rename_i h1
        -- the product
        have hprod : value * digit ≤ maxOf w := by
          rw [Nat.div_lt_iff_lt_mul hdigit] at h1
          exact Nat.le_of_not_lt h1
        have hlog₁ : ∀ n ∈ value * digit :: log, n ≤ maxOf w :=
          List.forall_mem_cons.mpr ⟨hprod, hlog⟩
        rw [Nat.mod_eq_of_lt (by omega : value * digit < 2 ^ w)]
        split
        · exact hlog₁
        · rename_i h2
          -- the sum
          have hsum : out + value * digit ≤ maxOf w := by omega
          have hlog₂ : ∀ n ∈ (out + value * digit) :: value * digit :: log, n ≤ maxOf w :=
            List.forall_mem_cons.mpr ⟨hsum, hlog₁⟩
          cases cs with
          | nil => exact hlog₂
          | cons c' cs =>
            simp only
            split
            · exact hlog₂
            · rename_i h3
              -- the weight of the next digit
              have hnext : digit * R.base ≤ maxOf w := by
                rw [Nat.div_lt_iff_lt_mul hbase] at h3
                exact Nat.le_of_not_lt h3
              have hpos : 0 < digit * R.base % 2 ^ w := by
                rw [Nat.mod_eq_of_lt (by omega)]
                exact Nat.mul_pos hdigit hbase
              exact ih hpos (List.forall_mem_cons.mpr ⟨hnext, hlog₂⟩)

theorem decodeLogged_le (w : Nat) (R : Radix) (input : Bytes) (out : Nat) :
    ∀ n ∈ (decodeLogged w R input out).2, n ≤ maxOf w := by
  unfold decodeLogged
  split
  · exact nofun
  · simp only
    split
    · exact nofun
    · exact decodeLoopLogged_le w R _ Nat.one_pos nofun

end Syntax

end BoostHttp
