import BoostHttp.Token

/-!
# Syntax — character classes, matchers and decoders

The functions of `reader/detail/abnf.hpp`, `reader/detail/common.hpp` and of the directory
`syntax/`.  The source keeps two copies of some character classes, one for the readers and one for
the matchers; both are kept here, and shown to agree.

Every byte is read through `read`, so that an index outside its view is a fault of the run.
-/

namespace BoostHttp

/-! ## Character classes of `reader::detail` -/

namespace Detail

def isalpha (c : UInt8) : Bool := (c ≥ 0x41 && c ≤ 0x5A) || (c ≥ 0x61 && c ≤ 0x7A)

def isdigit (c : UInt8) : Bool := c ≥ 0x30 && c ≤ 0x39

def isalnum (c : UInt8) : Bool := isalpha c || isdigit c

/-- The case labels `! # $ % & ' * + - . ^ _ | ~` and the backquote, then `isalnum`. -/
def isTchar (c : UInt8) : Bool :=
  [0x21, 0x23, 0x24, 0x25, 0x26, 0x27, 0x2A, 0x2B, 0x2D, 0x2E, 0x5E, 0x5F, 0x60, 0x7C, 0x7E].contains c
    || isalnum c

def isSp (c : UInt8) : Bool := c == 0x20

def isVchar (c : UInt8) : Bool := c ≥ 0x21 && c ≤ 0x7E

def isObsText (c : UInt8) : Bool := c ≥ 0x80

def isOws (c : UInt8) : Bool := c == 0x20 || c == 0x09

/-- The case labels `; = " \t SP ! \` and the default branch. -/
def isChunkExtChar (c : UInt8) : Bool :=
  [0x3B, 0x3D, 0x22, 0x09, 0x20, 0x21, 0x5C].contains c
    || (isTchar c || (c ≥ 0x23 && c ≤ 0x5B) || (c ≥ 0x5D && c ≤ 0x7E) || isObsText c || isVchar c)

/-- The case labels `? / - . _ ~ % ! $ & ' ( ) * + , ; = : @`, then `isalnum`. -/
def isRequestTargetChar (c : UInt8) : Bool :=
  [0x3F, 0x2F, 0x2D, 0x2E, 0x5F, 0x7E, 0x25, 0x21, 0x24, 0x26, 0x27, 0x28, 0x29, 0x2A, 0x2B, 0x2C,
    0x3B, 0x3D, 0x3A, 0x40].contains c || isalnum c

end Detail

/-! ## Character classes of `syntax::detail` -/

namespace Syntax

def isalnum (c : UInt8) : Bool :=
  (c ≥ 0x30 && c ≤ 0x39) || (c ≥ 0x41 && c ≤ 0x5A) || (c ≥ 0x61 && c ≤ 0x7A)

def isTchar (c : UInt8) : Bool :=
  [0x21, 0x23, 0x24, 0x25, 0x26, 0x27, 0x2A, 0x2B, 0x2D, 0x2E, 0x5E, 0x5F, 0x60, 0x7C, 0x7E].contains c
    || isalnum c

def isDigit (c : UInt8) : Bool := c ≥ 0x30 && c ≤ 0x39

def isVchar (c : UInt8) : Bool := c ≥ 0x21 && c ≤ 0x7E

def isObsText (c : UInt8) : Bool := c ≥ 0x80 && c ≤ 0xFF

def isOws (c : UInt8) : Bool := c == 0x20 || c == 0x09

def isNonnullFieldValueChar (c : UInt8) : Bool := isVchar c || isObsText c

def isFieldValueChar (c : UInt8) : Bool := isNonnullFieldValueChar c || isOws c

def isReasonPhraseChar (c : UInt8) : Bool := isOws c || isVchar c || isObsText c

def isHexdigit (c : UInt8) : Bool :=
  (c ≥ 0x30 && c ≤ 0x39) || (c ≥ 0x41 && c ≤ 0x46) || (c ≥ 0x61 && c ≤ 0x66)

theorem isTchar_eq (c : UInt8) : isTchar c = Detail.isTchar c := by
  unfold isTchar Detail.isTchar isalnum Detail.isalnum Detail.isalpha Detail.isdigit
  rw [Bool.or_assoc, Bool.or_comm (c ≥ 0x30 && c ≤ 0x39)]

theorem isOws_eq (c : UInt8) : isOws c = Detail.isOws c := rfl

end Syntax

/-! ## Loops over a view -/

def read (data : Bytes) (i : Nat) : Except Fault UInt8 :=
  match data[i]? with
  | some c => .ok c
  | none => .error .outOfBounds

/-- `for ( ; i != bound ; ++i)` over the bytes `rest` found from index `i` on: the loop is left at
`bound` or where `p` says so, and the index reached is returned.  Running past the last byte is a
read outside the view. -/
def scanLoop (p : Nat → UInt8 → Except Fault Bool) (bound : Nat) : Nat → Bytes → Except Fault Nat
  | i, [] => if i = bound then .ok i else .error .outOfBounds
  | i, c :: rest =>
    if i = bound then .ok i
    else match p i c with
      | .error f => .error f
      | .ok true => scanLoop p bound (i + 1) rest
      | .ok false => .ok i

def scanWhile (data : Bytes) (p : UInt8 → Bool) (i : Nat) : Except Fault Nat :=
  scanLoop (fun _ c => .ok (p c)) data.length i (data.drop i)

theorem scanLoop_eq (p : UInt8 → Bool) (i : Nat) (rest : Bytes) :
    scanLoop (fun _ c => .ok (p c)) (i + rest.length) i rest
      = .ok (i + (rest.takeWhile p).length) := by
  induction rest generalizing i with
  | nil => simp [scanLoop]
  | cons c rest ih =>
    -- the bound is the end of `rest`, so it is not met while a byte is left
    have hne : ¬ i = i + (c :: rest).length := by simp
    rw [scanLoop, if_neg hne]
    by_cases hp : p c = true
    · have hlen : i + (c :: rest).length = i + 1 + rest.length := by
        rw [List.length_cons]; omega
      simp only [hp, List.takeWhile_cons_of_pos]
      rw [hlen, ih (i + 1), List.length_cons]
      congr 1
      omega
    · simp [hp]

/-- A loop that starts within its view stops within it. -/
theorem scanWhile_eq {data : Bytes} (p : UInt8 → Bool) {i : Nat} (hi : i ≤ data.length) :
    scanWhile data p i = .ok (i + ((data.drop i).takeWhile p).length) := by
  have hlen : data.length = i + (data.drop i).length := by rw [List.length_drop]; omega
  unfold scanWhile
  rw [hlen, scanLoop_eq]

/-- The common body of the `match` functions that count the leading bytes of a class: `res` and the
index of the loop advance together. -/
def matchWhile (p : UInt8 → Bool) (view : Bytes) : Except Fault Nat := scanWhile view p 0

theorem matchWhile_eq (p : UInt8 → Bool) (view : Bytes) :
    matchWhile p view = .ok (view.takeWhile p).length := by
  unfold matchWhile
  rw [scanWhile_eq p (Nat.zero_le _), Nat.zero_add, List.drop_zero]

namespace Syntax

def fieldNameMatch (view : Bytes) : Except Fault Nat := matchWhile isTchar view

def leftTrimmedFieldValueMatch (view : Bytes) : Except Fault Nat := matchWhile isFieldValueChar view

def owsMatch (view : Bytes) : Except Fault Nat := matchWhile isOws view

def reasonPhraseMatch (view : Bytes) : Except Fault Nat := matchWhile isReasonPhraseChar view

def chunkSizeMatch (view : Bytes) : Except Fault Nat := matchWhile isHexdigit view

def strictCrlfMatch (view : Bytes) : Except Fault Nat :=
  if view.length < 2 then .ok 0
  else do
    let c0 ← read view 0
    if c0 ≠ 0x0D then return 0
    let c1 ← read view 1
    if c1 ≠ 0x0A then return 0
    return 2

inductive CrlfResult where
  | crlf
  | lf
  | insufficientData
  | invalidData
  deriving DecidableEq, Repr

def liberalCrlfMatch (view : Bytes) : Except Fault CrlfResult := do
  if view.length ≥ 1 then
    let c0 ← read view 0
    if c0 = 0x0A then return .lf
    if c0 ≠ 0x0D then return .invalidData
  -- the first byte, if there is one, is a carriage return from here on
  if view.length ≥ 2 then
    let c1 ← read view 1
    if c1 = 0x0A then return .crlf
    return .invalidData
  return .insufficientData

def statusCodeMatch (view : Bytes) : Except Fault Nat :=
  if view.length < 3 then .ok 0
  else do
    -- the source loops over the first three bytes only, whatever follows them
    let i ← scanLoop (fun _ c => .ok (isDigit c)) 3 0 view
    return if i = 3 then 3 else 0

/-- `status_code::decode`, with its arithmetic in `int` and its result in `uint_least16_t`. -/
def statusCodeDecode (view : Bytes) : Except Fault Nat :=
  match view with
  | [a, b, c] =>
    .ok ((((a.toNat : Int) - 48) * 100 + ((b.toNat : Int) - 48) * 10 + c.toNat - 48) % 2 ^ 16).toNat
  | _ => .error .assertion

end Syntax

end BoostHttp
