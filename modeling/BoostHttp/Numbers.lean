import BoostHttp.Alphabet
import BoostHttp.Decode

/-!
# Numbers — lengths, chunk sizes, and what a failed decoding leaves behind

The decoders read the numerals of their base that fit the variable of the caller.
`chunk_size::match` and `chunk_size::decode` are written apart from each other and have to agree on
what a digit is.  Both decoders sum up a numeral from its end in the variable of the caller, so that
a numeral that is refused half way leaves the part that has been read.
-/

namespace BoostHttp

namespace Syntax

/-! ## Numerals -/

/-- The value of a digit: its place in the alphabet, upper case or lower case. -/
def nibble (c : UInt8) : Nat := (ascii "0123456789abcdef").idxOf (toLower c)

def base10 (digits : Bytes) : Nat := Nat.ofDigits 10 (digits.reverse.map nibble)

def base16 (digits : Bytes) : Nat := Nat.ofDigits 16 (digits.reverse.map nibble)

theorem decimalDigit_eq (c : UInt8) :
    decimalDigit c = if c ∈ Alphabet.digits then some (nibble c) else none := by
  revert c
  decide +kernel

theorem hexDigit_eq (c : UInt8) :
    hexDigit c = if c ∈ Alphabet.hexDigits then some (nibble c) else none := by
  revert c
  decide +kernel

theorem toNat_of_digit (c : UInt8) : c ∈ Alphabet.digits → c.toNat = 48 + nibble c ∧ nibble c < 10 := by
  revert c
  decide +kernel

/-- The decoder knows the digits of the matcher. -/
theorem isSome_hexDigit (c : UInt8) : (hexDigit c).isSome = isHexdigit c := by
  revert c
  decide +kernel

theorem allDigits_decimal (input : Bytes) :
    decimal.AllDigits input ↔ ∀ c ∈ input, c ∈ Alphabet.digits := by
  apply forall₂_congr
  intro c _
  change (decimalDigit c).isSome = true ↔ _
  rw [decimalDigit_eq]
  split <;> simp [*]

theorem allDigits_hexadecimal (input : Bytes) :
    hexadecimal.AllDigits input ↔ ∀ c ∈ input, c ∈ Alphabet.hexDigits := by
  apply forall₂_congr
  intro c _
  change (hexDigit c).isSome = true ↔ _
  rw [isSome_hexDigit, isHexdigit_iff]

/-- The value of a numeral whose digits have their places in the alphabet as values. -/
theorem Radix.value_eq (R : Radix) {input : Bytes}
    (h : ∀ c ∈ input, R.digitOf c = some (nibble c)) :
    R.value input = Nat.ofDigits R.base (input.reverse.map nibble) := by
  have hdigits : R.digits input.reverse = input.reverse.map nibble := by
    apply List.map_congr_left
    intro c hc
    rw [h c (List.mem_reverse.mp hc)]
    rfl
  unfold Radix.value
  rw [hdigits]

theorem value_eq_base10 {input : Bytes} (h : ∀ c ∈ input, c ∈ Alphabet.digits) :
    decimal.value input = base10 input :=
  decimal.value_eq fun c hc => (decimalDigit_eq c).trans (if_pos (h c hc))

theorem value_eq_base16 {input : Bytes} (h : ∀ c ∈ input, c ∈ Alphabet.hexDigits) :
    hexadecimal.value input = base16 input :=
  hexadecimal.value_eq fun c hc => (hexDigit_eq c).trans (if_pos (h c hc))

/-- A decoder succeeds on the numerals of its alphabet that fit. -/
theorem Radix.decode_ok_iff (R : Radix) {A : Bytes} {k w n : Nat} {input : Bytes} {out : Nat}
    (hA : R.AllDigits input ↔ ∀ c ∈ input, c ∈ A) (hk : (∀ c ∈ input, c ∈ A) → R.value input = k) :
    decode w R input out = (.ok, n) ↔
      (input ≠ [] ∧ (∀ c ∈ input, c ∈ A) ∧ k < 2 ^ w) ∧ n = k := by
  constructor
  · intro h
    obtain ⟨hne, hall, hlt, hn⟩ := of_decode_ok R h
    rw [hk (hA.mp hall)] at hlt hn
    exact ⟨⟨hne, hA.mp hall, hlt⟩, hn⟩
  · rintro ⟨⟨hne, hall, hlt⟩, rfl⟩
    rw [← hk hall] at hlt ⊢
    exact (decode_of_allDigits w R out hne (hA.mpr hall)).1 hlt

theorem contentLength_ok_iff {w : Nat} {input : Bytes} {out n : Nat} :
    contentLengthDecode w input out = (.ok, n) ↔
      (input ≠ [] ∧ (∀ c ∈ input, c ∈ Alphabet.digits) ∧ base10 input < 2 ^ w) ∧
        n = base10 input :=
  decimal.decode_ok_iff (allDigits_decimal input) value_eq_base10

theorem chunkSize_ok_iff {w : Nat} {input : Bytes} {out n : Nat} :
    chunkSizeDecode w input out = (.ok, n) ↔
      (input ≠ [] ∧ (∀ c ∈ input, c ∈ Alphabet.hexDigits) ∧ base16 input < 2 ^ w) ∧
        n = base16 input :=
  hexadecimal.decode_ok_iff (allDigits_hexadecimal input) value_eq_base16

/-! ## Lengths -/

/-- `content_length::decode` is exact for every unsigned target: it reads the numerals that fit, with
their values, reports those that do not fit, reads nothing else, and never wraps around. -/
theorem content_length_exact (w : Nat) (input : Bytes) (out : Nat) :
    (∀ n, contentLengthDecode w input out = (.ok, n) ↔
      (input ≠ [] ∧ (∀ c ∈ input, c ∈ Alphabet.digits) ∧ base10 input < 2 ^ w) ∧
        n = base10 input) ∧
    (input ≠ [] → (∀ c ∈ input, c ∈ Alphabet.digits) → 2 ^ w ≤ base10 input →
      (contentLengthDecode w input out).1 = .overflow) ∧
    (input = [] ∨ (∃ c ∈ input, c ∉ Alphabet.digits) →
      (contentLengthDecode w input out).1 ≠ .ok) ∧
    (decodeLogged w decimal input out).1 = contentLengthDecode w input out ∧
    ∀ n ∈ (decodeLogged w decimal input out).2, n ≤ 2 ^ w - 1 := by
  refine ⟨fun n => contentLength_ok_iff, fun hne hall hge => ?_, fun hbad hok => ?_,
    decodeLogged_fst w decimal input out, decodeLogged_le w decimal input out⟩
  · rw [← value_eq_base10 hall] at hge
    exact (decode_of_allDigits w decimal out hne ((allDigits_decimal input).mpr hall)).2 hge
  · have h : contentLengthDecode w input out = (.ok, (contentLengthDecode w input out).2) :=
      Prod.ext hok rfl
    obtain ⟨⟨hne, hall, -⟩, -⟩ := contentLength_ok_iff.mp h
    rcases hbad with hnil | ⟨c, hc, hnot⟩
    · exact hne hnil
    · exact hnot (hall c hc)

/-- The largest value of a byte with leading zeros, and the one after it. -/
theorem content_length_exact_byte :
    contentLengthDecode 8 (ascii "000255") 7 = (.ok, 255) ∧
      (contentLengthDecode 8 (ascii "256") 7).1 = .overflow ∧
      (contentLengthDecode 8 (ascii "2 5") 7).1 ≠ .ok :=
  ⟨((content_length_exact 8 (ascii "000255") 7).1 255).mpr
      ⟨⟨by decide, by decide +kernel, by decide +kernel⟩, by decide +kernel⟩,
    (content_length_exact 8 (ascii "256") 7).2.1 (by decide) (by decide +kernel)
      (by decide +kernel),
    (content_length_exact 8 (ascii "2 5") 7).2.2.1 (.inr ⟨0x20, by decide +kernel⟩)⟩

/-! ## Chunk sizes -/

/-- The sum in `10 + c - 'a'` fits the smallest target. -/
theorem letter_sum_le (c : UInt8) : c ∈ Alphabet.hexDigits → 10 + (c ||| 0x20).toNat ≤ 255 := by
  revert c
  decide +kernel

def hexPrefix (v : Bytes) : Bytes := v.takeWhile fun c => c ∈ Alphabet.hexDigits

theorem hexPrefix_eq (v : Bytes) : hexPrefix v = v.takeWhile isHexdigit := by
  unfold hexPrefix
  congr 1
  funext c
  rw [Bool.eq_iff_iff, decide_eq_true_eq, isHexdigit_iff]

theorem hexPrefix_digits (v : Bytes) : ∀ c ∈ hexPrefix v, c ∈ Alphabet.hexDigits := by
  intro c hc
  have hdigit := List.mem_takeWhile_imp hc
  exact of_decide_eq_true hdigit

theorem hexPrefix_longest (v : Bytes) {h : Bytes} (hv : h <+: v)
    (hall : ∀ c ∈ h, c ∈ Alphabet.hexDigits) : h <+: hexPrefix v := by
  obtain ⟨rest, rfl⟩ := hv
  unfold hexPrefix
  rw [List.takeWhile_append_of_pos fun c hc => decide_eq_true (hall c hc)]
  exact List.prefix_append _ _

theorem chunkSizeMatch_eq (v : Bytes) : chunkSizeMatch v = .ok (hexPrefix v).length := by
  rw [hexPrefix_eq]
  exact matchWhile_eq _ _

/-- `chunk_size::match` finds the longest prefix of digits, and `chunk_size::decode` is exact for
every unsigned target: it reads the matched digits if their number fits, reports those that do not
fit, reads nothing else, and never wraps around. -/
theorem chunk_size_exact {w : Nat} (hw : 8 ≤ w) (v : Bytes) (out : Nat) :
    (hexPrefix v <+: v ∧ (∀ c ∈ hexPrefix v, c ∈ Alphabet.hexDigits) ∧
      ∀ h, h <+: v → (∀ c ∈ h, c ∈ Alphabet.hexDigits) → h <+: hexPrefix v) ∧
    chunkSizeMatch v = .ok (hexPrefix v).length ∧
    (hexPrefix v ≠ [] →
      (chunkSizeDecode w (hexPrefix v) out).1 ≠ .invalid ∧
      (chunkSizeDecode w (hexPrefix v) out = (.ok, base16 (hexPrefix v)) ↔
        base16 (hexPrefix v) < 2 ^ w) ∧
      (2 ^ w ≤ base16 (hexPrefix v) → (chunkSizeDecode w (hexPrefix v) out).1 = .overflow)) ∧
    (v = [] ∨ (∃ c ∈ v, c ∉ Alphabet.hexDigits) → (chunkSizeDecode w v out).1 ≠ .ok) ∧
    (decodeLogged w hexadecimal v out).1 = chunkSizeDecode w v out ∧
    (∀ n ∈ (decodeLogged w hexadecimal v out).2, n ≤ 2 ^ w - 1) ∧
    ∀ c ∈ Alphabet.hexDigits, 10 + (c ||| 0x20).toNat ≤ 2 ^ w - 1 := by
  refine ⟨⟨List.takeWhile_prefix _, hexPrefix_digits v, fun h => hexPrefix_longest v⟩,
    chunkSizeMatch_eq v, fun hne => ?_, fun hbad hok => ?_, decodeLogged_fst w hexadecimal v out,
    decodeLogged_le w hexadecimal v out, fun c hc => ?_⟩
  · have hall := (allDigits_hexadecimal _).mpr (hexPrefix_digits v)
    have hdec := decode_of_allDigits w hexadecimal out hne hall
    rw [value_eq_base16 (hexPrefix_digits v)] at hdec
    obtain ⟨hfits, hoverflow⟩ := hdec
    unfold chunkSizeDecode
    rcases Nat.lt_or_ge (base16 (hexPrefix v)) (2 ^ w) with hlt | hge
    · rw [hfits hlt]
      exact ⟨nofun, iff_of_true rfl hlt, fun hge => absurd hlt (Nat.not_lt.mpr hge)⟩
    · refine ⟨?_, ?_, hoverflow⟩
      · rw [hoverflow hge]
        nofun
      · refine iff_of_false (fun hok => ?_) (Nat.not_lt.mpr hge)
        rw [hok] at hoverflow
        cases hoverflow hge
  · have hdec : chunkSizeDecode w v out = (.ok, (chunkSizeDecode w v out).2) := Prod.ext hok rfl
    obtain ⟨⟨hne, hall, -⟩, -⟩ := chunkSize_ok_iff.mp hdec
    rcases hbad with hnil | ⟨c, hc, hnot⟩
    · exact hne hnil
    · exact hnot (hall c hc)
  · have hsum := letter_sum_le c hc
    have hbyte : 2 ^ 8 ≤ 2 ^ w := Nat.pow_le_pow_right (by decide) hw
    omega

/-- Leading zeros and both letter cases, the first number that does not fit, and a byte that is no
digit behind one that is. -/
theorem chunk_size_exact_byte :
    chunkSizeDecode 8 (hexPrefix (ascii "00fF\r")) 7 = (.ok, base16 (ascii "00fF")) ∧
      (chunkSizeDecode 8 (hexPrefix (ascii "100;")) 7).1 = .overflow ∧
      (chunkSizeDecode 8 (ascii "1;") 7).1 ≠ .ok :=
  ⟨((chunk_size_exact (Nat.le_refl 8) (ascii "00fF\r") 7).2.2.1 (by decide +kernel)).2.1.mpr
      (by decide +kernel),
    ((chunk_size_exact (Nat.le_refl 8) (ascii "100;") 7).2.2.1 (by decide +kernel)).2.2
      (by decide +kernel),
    (chunk_size_exact (Nat.le_refl 8) (ascii "1;") 7).2.2.2.1 (.inr ⟨0x3B, by decide +kernel⟩)⟩

/-! ## Failed decodings -/

/-- A numeral that the loop of a decoder can sum up: every weight fits the target, and so does the
number. -/
structure Radix.Fits (R : Radix) (w : Nat) (u : Bytes) : Prop where
  allDigits : R.AllDigits u
  weight : R.base ^ (u.length - 1) < 2 ^ w
  value : R.value u < 2 ^ w

instance (R : Radix) (w : Nat) (u : Bytes) : Decidable (R.Fits w u) :=
  decidable_of_iff (R.AllDigits u ∧ R.base ^ (u.length - 1) < 2 ^ w ∧ R.value u < 2 ^ w)
    ⟨fun h => ⟨h.1, h.2.1, h.2.2⟩, fun h => ⟨h.allDigits, h.weight, h.value⟩⟩

def Radix.ending (R : Radix) (w : Nat) : Bytes → Bytes
  | [] => []
  | c :: input => if R.Fits w (c :: input) then c :: input else R.ending w input

/-- A failed decoding leaves its output untouched if there is nothing to decode or if the output
happens to hold the number of the last digits. -/
def Radix.Keeps (R : Radix) (w : Nat) (input : Bytes) (out : Nat) : Prop :=
  input = [] ∨ (R.AllDigits input ∧ R.value input < 2 ^ w) ∨ out = R.value (R.ending w input)

variable {R : Radix} {w : Nat}

theorem Radix.value_cons (R : Radix) {c : UInt8} {d : Nat} (h : R.digitOf c = some d) (u : Bytes) :
    R.value (c :: u) = R.value u + d * R.base ^ u.length := by
  unfold Radix.value
  rw [List.reverse_cons]
  simp [Radix.digits, Nat.ofDigits_append, h, Nat.mul_comm]

theorem Radix.Fits.tail {c : UInt8} {u : Bytes} (h : R.Fits w (c :: u)) : R.Fits w u := by
  have hbase : 0 < R.base := Nat.lt_trans Nat.zero_lt_one R.one_lt_base
  refine ⟨fun a ha => h.allDigits a (List.mem_cons_of_mem _ ha), ?_, ?_⟩
  · refine Nat.lt_of_le_of_lt (Nat.pow_le_pow_right hbase ?_) h.weight
    rw [List.length_cons]
    omega
  · obtain ⟨d, hd⟩ := Option.isSome_iff_exists.mp (h.allDigits c List.mem_cons_self)
    have hvalue := h.value
    rw [R.value_cons hd] at hvalue
    omega

theorem Radix.Fits.suffix {u v : Bytes} (h : R.Fits w v) (hu : u <:+ v) : R.Fits w u := by
  obtain ⟨a, rfl⟩ := hu
  induction a with
  | nil => exact h
  | cons c a ih => exact ih h.tail

/-- The longest numeral is found where one more byte is too much. -/
theorem Radix.ending_eq {c : UInt8} {u input : Bytes} (hu : R.Fits w u) (hc : ¬ R.Fits w (c :: u))
    (h : c :: u <:+ input) : R.ending w input = u := by
  induction input with
  | nil => cases List.suffix_nil.mp h
  | cons a input ih =>
    have hnot : ¬ R.Fits w (a :: input) := fun hfits => hc (hfits.suffix h)
    rw [Radix.ending, if_neg hnot]
    rcases List.suffix_cons_iff.mp h with heq | hsuffix
    · obtain ⟨-, rfl⟩ := List.cons.inj heq
      cases u with
      | nil => rfl
      | cons b u => rw [Radix.ending, if_pos hu]
    · exact ih hsuffix

/-- One more digit, whose weight fits, can be summed up exactly if the number still fits. -/
theorem Radix.Fits.cons_iff {c : UInt8} {d : Nat} {u : Bytes} (hu : R.Fits w u)
    (hd : R.digitOf c = some d) (hweight : R.base ^ u.length < 2 ^ w) :
    R.Fits w (c :: u) ↔ R.value u + d * R.base ^ u.length < 2 ^ w := by
  rw [← R.value_cons hd]
  refine ⟨fun h => h.value, fun h => ⟨?_, ?_, h⟩⟩
  · intro a ha
    rcases List.mem_cons.mp ha with rfl | ha
    · rw [hd]
      rfl
    · exact hu.allDigits a ha
  · rw [List.length_cons, Nat.add_sub_cancel]
    exact hweight

/-- A loop that has summed up `u` fails behind a longest numeral, and leaves its number. -/
theorem decodeLoop_failed {cs u : Bytes} (hcs : cs ≠ []) (hu : R.Fits w u)
    (hweight : R.base ^ u.length < 2 ^ w)
    (hfail : (decodeLoop w R cs (R.base ^ u.length) (R.value u)).1 ≠ .ok) :
    ∃ c u', c :: u' <:+ cs.reverse ++ u ∧ R.Fits w u' ∧ ¬ R.Fits w (c :: u') ∧
      (decodeLoop w R cs (R.base ^ u.length) (R.value u)).2 = R.value u' := by
  induction cs generalizing u with
  | nil => exact absurd rfl hcs
  | cons c cs ih =>
    have hsuffix : c :: u <:+ (c :: cs).reverse ++ u := by
      rw [List.reverse_cons, List.append_assoc]
      exact List.suffix_append _ _
    have hpos : 0 < R.base ^ u.length := Nat.pow_pos (Nat.lt_trans Nat.zero_lt_one R.one_lt_base)
    cases hd : R.digitOf c with
    | none =>
      have hbad : ¬ R.Fits w (c :: u) := by
        intro hfits
        have hdigit := hfits.allDigits c List.mem_cons_self
        rw [hd] at hdigit
        cases hdigit
      have hloop : decodeLoop w R (c :: cs) (R.base ^ u.length) (R.value u)
          = (.invalid, R.value u) := by
        rw [decodeLoop, hd]
      rw [hloop]
      exact ⟨c, u, hsuffix, hu, hbad, rfl⟩
    | some d =>
      rw [decodeLoop_cons w R hd cs hpos] at hfail ⊢
      have hfits := hu.cons_iff hd hweight
      by_cases hsum : R.value u + d * R.base ^ u.length < 2 ^ w
      · rw [if_pos hsum, ← R.value_cons hd] at hfail ⊢
        -- the digit is added, and the numeral is longer by one
        cases cs with
        | nil => exact absurd rfl hfail
        | cons c' cs =>
          have hnext : R.base ^ u.length * R.base = R.base ^ (c :: u).length :=
            (Nat.pow_succ _ _).symm
          rw [if_neg (List.cons_ne_nil _ _), hnext] at hfail ⊢
          by_cases hlt : R.base ^ (c :: u).length < 2 ^ w
          · rw [if_pos hlt] at hfail ⊢
            have hih := ih (List.cons_ne_nil _ _) (hfits.mpr hsum) hlt hfail
            rwa [List.reverse_cons (a := c), List.append_assoc]
          · rw [if_neg hlt] at hfail ⊢
            have hsuffix' : c' :: c :: u <:+ (c :: c' :: cs).reverse ++ u := by
              rw [List.reverse_cons, List.reverse_cons, List.append_assoc, List.append_assoc]
              exact List.suffix_append _ _
            exact ⟨c', c :: u, hsuffix', hfits.mpr hsum, fun h => hlt h.weight, rfl⟩
      · rw [if_neg hsum] at hfail ⊢
        exact ⟨c, u, hsuffix, hu, fun h => hsum (hfits.mp h), rfl⟩

/-- What a failed decoding leaves in its output. -/
theorem decode_failed (hw : w ≠ 0) {input : Bytes} (hne : input ≠ []) (out : Nat)
    (hfail : (decode w R input out).1 ≠ .ok) :
    (decode w R input out).2 = R.value (R.ending w input) := by
  have hlen : ¬ input.length = 0 := by simpa using hne
  unfold decode at hfail ⊢
  rw [if_neg hlen] at hfail ⊢
  simp only at hfail ⊢
  by_cases hz : (input.dropWhile (· == 0x30)).length = 0
  · rw [if_pos hz] at hfail
    exact absurd rfl hfail
  · rw [if_neg hz] at hfail ⊢
    have hone : 1 < 2 ^ w := Nat.one_lt_two_pow hw
    have hempty : R.Fits w [] := ⟨nofun, hone, Nat.lt_of_succ_lt hone⟩
    have hrev : (input.dropWhile (· == 0x30)).reverse ≠ [] := by simpa using hz
    obtain ⟨c, u, hsuffix, hu, hc, hleft⟩ := decodeLoop_failed hrev hempty hone hfail
    rw [List.reverse_reverse, List.append_nil] at hsuffix
    -- the zeros in front do not matter: the byte that is too much stands behind them
    rw [R.ending_eq hu hc (hsuffix.trans (List.dropWhile_suffix _))]
    exact hleft

theorem failed_iff (res : DecodeResult) : res = .invalid ∨ res = .overflow ↔ res ≠ .ok := by
  cases res <;> decide

/-- When a decoder leaves its output as it was. -/
theorem decode_keeps_iff (hw : w ≠ 0) (R : Radix) (input : Bytes) (out : Nat) :
    ((decode w R input out).1 ≠ .ok → (decode w R input out).2 = out) ↔ R.Keeps w input out := by
  by_cases hne : input = []
  · subst hne
    exact iff_of_true (fun _ => rfl) (.inl rfl)
  · by_cases hok : (decode w R input out).1 = .ok
    · obtain ⟨-, hall, hlt, -⟩ := of_decode_ok R (Prod.ext hok rfl : decode w R input out = (.ok, _))
      exact iff_of_true (absurd hok) (.inr (.inl ⟨hall, hlt⟩))
    · have hleft := decode_failed hw hne out hok
      constructor
      · intro h
        exact .inr (.inr ((h hok).symm.trans hleft))
      · rintro (hnil | ⟨hall, hlt⟩ | hout)
        · exact absurd hnil hne
        · rw [(decode_of_allDigits w R out hne hall).1 hlt] at hok
          exact absurd rfl hok
        · exact fun _ => hleft.trans hout.symm

/-- Both decoders write their sum where the caller keeps its number: a failed decoding leaves that
number untouched exactly in these cases. -/
theorem failed_decode_keeps_iff {w : Nat} (hw : w ≠ 0) (input : Bytes) (out : Nat) :
    (((contentLengthDecode w input out).1 = .invalid ∨
          (contentLengthDecode w input out).1 = .overflow →
        (contentLengthDecode w input out).2 = out) ↔ decimal.Keeps w input out) ∧
    (((chunkSizeDecode w input out).1 = .invalid ∨ (chunkSizeDecode w input out).1 = .overflow →
        (chunkSizeDecode w input out).2 = out) ↔ hexadecimal.Keeps w input out) := by
  unfold contentLengthDecode chunkSizeDecode
  rw [← decode_keeps_iff hw decimal, ← decode_keeps_iff hw hexadecimal]
  simp only [failed_iff, and_self]

/-- A number that does not fit, and a byte that is no digit: both lose what was there before. -/
theorem failed_decode_loses :
    contentLengthDecode 8 (ascii "256") 67 = (.overflow, 56) ∧
      contentLengthDecode 8 (ascii "x1") 67 = (.invalid, 1) ∧
      chunkSizeDecode 8 (ascii "100") 67 = (.overflow, 0) ∧
      chunkSizeDecode 8 (ascii "xF") 67 = (.invalid, 15) := by
  decide +kernel

/-- Nothing to decode, and a number that is kept by chance. -/
theorem failed_decode_keeps_iff_byte :
    ((contentLengthDecode 8 [] 67).1 = .invalid ∨ (contentLengthDecode 8 [] 67).1 = .overflow →
        (contentLengthDecode 8 [] 67).2 = 67) ∧
      ((chunkSizeDecode 8 (ascii "x43") 67).1 = .invalid ∨
          (chunkSizeDecode 8 (ascii "x43") 67).1 = .overflow →
        (chunkSizeDecode 8 (ascii "x43") 67).2 = 67) :=
  ⟨(failed_decode_keeps_iff (by decide) [] 67).1.mpr (.inl rfl),
    (failed_decode_keeps_iff (by decide) (ascii "x43") 67).2.mpr
      (.inr (.inr (by decide +kernel)))⟩

end Syntax

end BoostHttp
