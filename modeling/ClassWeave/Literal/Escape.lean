import ClassWeave.Text.CodePoint
/-!
# Escape sequences

What may follow a backslash in a string or template literal, and the code points that it stands for.
-/

namespace ClassWeave

inductive EscapeFault where
  | twoHexDigits
  | fourHexDigits
  | bracedHexDigits
  | invalidUnicode
  | beyondUnicode
  | octal
deriving DecidableEq, Repr

/-- An escape sequence that cannot be read: why, and the text behind the part that was. -/
structure EscapeFailure where
  fault : EscapeFault
  behind : Text
deriving DecidableEq, Repr

namespace Escape

def digitValue (c : Char) : Nat :=
  if '0' ≤ c && c ≤ '9' then c.toNat - '0'.toNat
  else if 'a' ≤ c && c ≤ 'f' then c.toNat - 'a'.toNat + 10
  else if 'A' ≤ c && c ≤ 'F' then c.toNat - 'A'.toNat + 10
  else 16

def isDigitOf (radix : Nat) (c : Char) : Bool := digitValue c < radix

def valueOf (radix : Nat) (digits : Text) : Nat :=
  digits.foldl (fun value c => value * radix + digitValue c) 0

/-- At most `count` hexadecimal digits, and the text behind them. An underscore among them is passed
over. -/
def takeHex : Nat → Text → Text × Text
  | 0, text => ([], text)
  | _, [] => ([], [])
  | n + 1, c :: rest =>
    if isDigitOf 16 c then
      let (digits, behind) := takeHex n rest
      (c :: digits, behind)
    else if c == '_' then takeHex (n + 1) rest
    else ([], c :: rest)

def readHex (count : Nat) (text : Text) : Option (CodePoint × Text) :=
  let (digits, behind) := takeHex count text
  if digits.length = count then some (valueOf 16 digits, behind) else none

/-- Hexadecimal digits up to a closing brace. Their number has at most 32 bits. -/
def readBraced (text : Text) : Except EscapeFailure (CodePoint × Text) :=
  let isInside (c : Char) : Bool := isDigitOf 16 c || c == '_'
  let digits := (text.takeWhile isInside).filter (· != '_')
  let behind := text.dropWhile isInside
  let value := valueOf 16 digits
  if digits.isEmpty || 0xFFFFFFFF < value then .error ⟨.bracedHexDigits, behind⟩
  else if 0x10FFFF < value then .error ⟨.beyondUnicode, behind⟩
  else match behind with
    | '}' :: rest => .ok (value, rest)
    | _ => .error ⟨.invalidUnicode, behind⟩

def readHalf : Text → Except EscapeFailure (CodePoint × Text)
  | '{' :: rest => readBraced rest
  | text => match readHex 4 text with
    | some found => .ok found
    | none => .error ⟨.fourHexDigits, (takeHex 4 text).2⟩

/-- What follows `\u`. Behind the first half of a pair another such escape has to be readable and
spelled in the same way, with braces or without. -/
def readUnicode (text : Text) : Except EscapeFailure (CodePoint × Text) := do
  let (n, rest) ← readHalf text
  match rest with
  | '\\' :: 'u' :: second =>
    if CodePoint.isHigh n then
      if (text.head? == some '{') != (second.head? == some '{') then
        .error ⟨.invalidUnicode, second⟩
      let _ ← readHalf second
    return (n, rest)
  | _ => return (n, rest)

def readOctal (first : Char) (text : Text) : CodePoint × Text :=
  let one := digitValue first
  match text with
  | second :: rest =>
    if isDigitOf 8 second then
      let two := one * 8 + digitValue second
      match rest with
      | third :: rest' =>
        if isDigitOf 8 third && two * 8 + digitValue third < 256 then
          (two * 8 + digitValue third, rest')
        else (two, rest)
      | [] => (two, [])
    else (one, text)
  | [] => (one, [])

def isLineEnd (c : Char) : Bool :=
  c == '\n' || c == '\r' || c.toNat == 0x2028 || c.toNat == 0x2029

def read (inTemplate : Bool) : Text → Except EscapeFailure (List CodePoint × Text)
  | [] => .ok ([], [])
  | c :: rest =>
    match c with
    | 'n' => .ok ([0x0A], rest)
    | 'r' => .ok ([0x0D], rest)
    | 't' => .ok ([0x09], rest)
    | 'b' => .ok ([0x08], rest)
    | 'v' => .ok ([0x0B], rest)
    | 'f' => .ok ([0x0C], rest)
    | '\r' => match rest with
      | '\n' :: rest' => .ok ([], rest')
      | _ => .ok ([], rest)
    | 'x' => match readHex 2 rest with
      | some (n, rest') => .ok ([n], rest')
      | none => .error ⟨.twoHexDigits, (takeHex 2 rest).2⟩
    | 'u' => match readUnicode rest with
      | .ok (n, rest') => .ok ([n], rest')
      | .error failure => .error failure
    | _ =>
      if isLineEnd c then .ok ([], rest)
      else if isDigitOf 8 c then
        if c == '0' && !(rest.head?.any (isDigitOf 8)) then .ok ([0], rest)
        else if inTemplate then .error ⟨.octal, rest⟩
        else let (n, rest') := readOctal c rest; .ok ([n], rest')
      else .ok ([c.toNat], rest)

end Escape

def EscapeFault.message : EscapeFault → String
  | .twoHexDigits => "Bad character escape sequence, expected 2 hex characters"
  | .fourHexDigits => "Bad character escape sequence, expected 4 hex characters"
  | .bracedHexDigits => "Bad character escape sequence, expected 1-6 hex characters"
  | .invalidUnicode => "Invalid unicode escape"
  | .beyondUnicode =>
    "Bad character escape sequence, expected 1-6 hex characters in the range 0 to 10FFFF."
  | .octal => "Legacy octal literals are not available when targeting ECMAScript 5 and higher"

end ClassWeave
