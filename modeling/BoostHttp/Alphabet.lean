import BoostHttp.Field

/-!
# Alphabet — the characters of the grammar

The classes of characters that the grammar of messages is written with, as the bytes they consist of.
The source asks for them with switches and with ranges, and for some of them in two places; each of
its questions is shown to be about one of these classes.
-/

namespace BoostHttp

namespace Alphabet

def digits : Bytes := ascii "0123456789"

def hexDigits : Bytes := ascii "0123456789abcdefABCDEF"

def letters : Bytes := ascii "abcdefghijklmnopqrstuvwxyzABCDEFGHIJKLMNOPQRSTUVWXYZ"

def token : Bytes := ascii "!#$%&'*+-.^_`|~" ++ digits ++ letters

def target : Bytes := ascii "%-._~:/?@!$&'()*+,;=" ++ digits ++ letters

end Alphabet

/-- Neither a line end nor any other control character but the tabulator. -/
def isText (c : UInt8) : Bool := c == 0x09 || (c ≥ 0x20 && c != 0x7F)

/-! ## The classes of the source -/

theorem isTchar_iff (c : UInt8) : Detail.isTchar c = true ↔ c ∈ Alphabet.token := by
  revert c
  decide +kernel

theorem isRequestTargetChar_iff (c : UInt8) :
    Detail.isRequestTargetChar c = true ↔ c ∈ Alphabet.target := by
  revert c
  decide +kernel

theorem isDigit_iff (c : UInt8) : Syntax.isDigit c = true ↔ c ∈ Alphabet.digits := by
  revert c
  decide +kernel

theorem isHexdigit_iff (c : UInt8) : Syntax.isHexdigit c = true ↔ c ∈ Alphabet.hexDigits := by
  revert c
  decide +kernel

theorem isFieldValueChar_eq (c : UInt8) : Syntax.isFieldValueChar c = isText c := by
  revert c
  decide +kernel

theorem isReasonPhraseChar_eq (c : UInt8) : Syntax.isReasonPhraseChar c = isText c := by
  revert c
  decide +kernel

theorem isChunkExtChar_eq (c : UInt8) : Detail.isChunkExtChar c = isText c := by
  revert c
  decide +kernel

end BoostHttp
