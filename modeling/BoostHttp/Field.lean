import BoostHttp.Syntax

/-!
# Field — names and values of header fields

`reader::detail::decode_field_value`, the comparison of field names, and the reading of
`Transfer-Encoding` by `header_value_any_of` and `reader::detail::decode_transfer_encoding`.
-/

namespace BoostHttp

/-! ## Field values -/

/-- Subtraction in `std::size_t` and in `uint_least64_t`: below zero it wraps around. -/
def wrapSub (a b : Nat) : Nat := if b ≤ a then a - b else a + 2 ^ 64 - b

theorem wrapSub_eq {a b : Nat} (h : b ≤ a) : wrapSub a b = a - b := if_pos h

namespace Detail

/-- `v[i]` where nothing bounds `i`: outside of the view the byte is whatever `mem` holds. -/
def peek (mem : Nat → UInt8) (v : Bytes) (i : Nat) : UInt8 := v.getD i (mem i)

/-- `for (i = ... ; i > 0 ; --i)`, counting the trailing bytes that are optional whitespace. -/
def endingOws (mem : Nat → UInt8) (v : Bytes) : Nat → Nat → Nat
  | 0, n => n
  | i + 1, n => if isOws (peek mem v (i + 1)) then endingOws mem v i (n + 1) else n

/-- `decode_field_value`.  On an empty view the loop starts at the wrapped index `2^64 - 1`;
`remove_suffix` removes no more than there is. -/
def decodeFieldValue (mem : Nat → UInt8) (input : Bytes) : Bytes :=
  input.rdrop (endingOws mem input (wrapSub input.length 1) 0)

/-- What `decode_field_value` computes: the first byte is kept whatever it is, and optional
whitespace is removed from the end of the others. -/
def trimTail : Bytes → Bytes
  | [] => []
  | b :: bs => b :: bs.rdropWhile isOws

theorem endingOws_eq (mem : Nat → UInt8) (b : UInt8) (bs rest : Bytes) (n : Nat) :
    endingOws mem (b :: (bs ++ rest)) bs.length n = n + (bs.rtakeWhile isOws).length := by
  induction bs using List.reverseRecOn generalizing rest n with
  | nil => simp [endingOws]
  | append_singleton bs c ih =>
    have hpeek : peek mem (b :: (bs ++ [c] ++ rest)) (bs.length + 1) = c := by
      simp [peek]
    rw [List.length_append, List.length_singleton, endingOws, hpeek]
    by_cases hc : isOws c = true
    · rw [if_pos hc, List.append_assoc, ih, List.rtakeWhile_concat_pos _ _ _ hc,
        List.length_append, List.length_singleton]
      omega
    · rw [if_neg hc, List.rtakeWhile_concat_neg _ _ _ hc, List.length_nil, Nat.add_zero]

/-- The bytes outside of the token do not matter to the result. -/
theorem decodeFieldValue_eq (mem : Nat → UInt8) (input : Bytes) :
    decodeFieldValue mem input = trimTail input := by
  cases input with
  | nil => exact List.rdrop_nil _
  | cons b bs =>
    have hcount := endingOws_eq mem b bs [] 0
    rw [List.append_nil, Nat.zero_add] at hcount
    unfold decodeFieldValue
    rw [wrapSub_eq (by simp), List.length_cons, Nat.add_sub_cancel, hcount]
    have hsplit : b :: bs = (b :: bs.rdropWhile isOws) ++ bs.rtakeWhile isOws := by
      rw [List.cons_append, List.rdropWhile_append_rtakeWhile]
    calc (b :: bs).rdrop (bs.rtakeWhile isOws).length
        = ((b :: bs.rdropWhile isOws) ++ bs.rtakeWhile isOws).rdrop
            (bs.rtakeWhile isOws).length := by rw [← hsplit]
      _ = trimTail (b :: bs) := List.rdrop_append_length

example : decodeFieldValue (fun _ => 0x20) (ascii "a b \t") = ascii "a b" := by decide

end Detail

/-! ## Field names -/

def toLower (c : UInt8) : UInt8 := if c ≥ 0x41 && c ≤ 0x5A then c + 0x20 else c

def iequals (a b : Bytes) : Bool := a.map toLower == b.map toLower

/-! ## Transfer codings -/

namespace Detail

def isspace (c : UInt8) : Bool := c == 0x20 || c == 0x09

variable {τ : Type}

/-- One round of the `do` loop of `header_value_any_of` on the text from `comma` on: whether the
predicate asked to stop, and the state it left. -/
def headerValueElement (p : τ → Bytes → Bool × τ) (t : τ) (segment : Bytes) : Bool × τ :=
  let value := segment.dropWhile isspace
  if value = [] then (false, t)
  else
    let value := value.rdropWhile isspace
    if value = [] then (false, t) else p t value

/-- The `do .. while` loop of `header_value_any_of`.  Every round but the last one passes a comma,
so a fuel above the number of bytes is never used up. -/
def headerValueLoop (p : τ → Bytes → Bool × τ) : Nat → τ → Bytes → Bool × τ
  | 0, t, _ => (false, t)
  | fuel + 1, t, comma =>
    let nextComma := comma.dropWhile (· != 0x2C)
    let (stop, t) := headerValueElement p t (comma.takeWhile (· != 0x2C))
    if stop then (true, t)
    else
      -- `++comma` unless `next_comma` is the end
      let comma := nextComma.drop 1
      if comma = [] then (false, t) else headerValueLoop p fuel t comma

def headerValueAnyOf (p : τ → Bytes → Bool × τ) (t : τ) (headerValue : Bytes) : Bool × τ :=
  headerValueLoop p (headerValue.length + 1) t headerValue

inductive DecodeTransferEncodingResult where
  | chunkedNotFound
  | chunkedAtEnd
  | chunkedInvalid
  deriving DecidableEq, Repr

structure TransferEncodingState where
  count : Nat
  res : DecodeTransferEncodingResult
  deriving DecidableEq, Repr

/-- `decode_transfer_encoding_p::operator()`. -/
def transferEncodingElement (s : TransferEncodingState) (v : Bytes) :
    Bool × TransferEncodingState :=
  if !iequals v (ascii "chunked") then
    if s.count = 1 then (true, { s with res := .chunkedInvalid }) else (false, s)
  else
    let s := { s with count := s.count + 1 }
    if s.count = 2 then (true, { s with res := .chunkedInvalid })
    else (false, { s with res := .chunkedAtEnd })

def decodeTransferEncoding (field : Bytes) : DecodeTransferEncodingResult :=
  (headerValueAnyOf transferEncodingElement ⟨0, .chunkedNotFound⟩ field).2.res

example : decodeTransferEncoding (ascii " gzip ,, Chunked\t") = .chunkedAtEnd := by decide
example : decodeTransferEncoding (ascii "chunked, gzip") = .chunkedInvalid := by decide

end Detail

end BoostHttp
