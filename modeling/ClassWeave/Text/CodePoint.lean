import ClassWeave.Text.Span
/-!
# Code points and surrogates

Escapes can name surrogates, which are no characters. `CodePoint.decode` joins a high surrogate
with the low one behind it and writes U+FFFD for one that stands alone.
-/

namespace ClassWeave

/-- A code point: a character or a surrogate. -/
abbrev CodePoint := Nat

namespace CodePoint

def isHigh (n : CodePoint) : Bool := 0xD800 ≤ n && n < 0xDC00

def isLow (n : CodePoint) : Bool := 0xDC00 ≤ n && n < 0xE000

def ofPair (high low : CodePoint) : Char :=
  Char.ofNat (0x10000 + (high - 0xD800) * 0x400 + (low - 0xDC00))

def toChar (n : CodePoint) : Char := if isHigh n || isLow n then Char.ofNat 0xFFFD else Char.ofNat n

def decode : List CodePoint → Text
  | [] => []
  | high :: low :: rest =>
    if isHigh high && isLow low then ofPair high low :: decode rest
    else toChar high :: decode (low :: rest)
  | [n] => [toChar n]

end CodePoint
end ClassWeave
