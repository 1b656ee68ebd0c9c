import ClassWeave.Literal.Escape
import ClassWeave.Number.Binary64
/-!
# Numerals

Numbers and big integers of program text: decimal, with a fraction and an exponent, or in radix two,
eight or sixteen. Underscores between digits carry no meaning.
-/

namespace ClassWeave

inductive Numeral where
  | number (value : Binary64)
  | bigInteger (value : Nat)
deriving DecidableEq, Repr, Inhabited

inductive NumeralFault where
  | digitExpected (radix : Nat)
  | exponentExpected
deriving DecidableEq, Repr

def NumeralFault.message : NumeralFault → String
  | .digitExpected 2 => "Expected a binary digit"
  | .digitExpected 8 => "Expected an octal digit"
  | .digitExpected 16 => "Expected a hexadecimal digit"
  | .digitExpected _ => "Expected a decimal digit"
  | .exponentExpected => "Expected +, - or decimal digit after e"

namespace Numeral

/-- Where and why a numeral cannot be read; `before` is the text from the place of the fault on, `behind`
the text where reading stops. -/
structure Fault where
  cause : NumeralFault
  before : Text
  behind : Text
deriving DecidableEq, Repr

def inRun (radix : Nat) (c : Char) : Bool := Escape.isDigitOf radix c || c == '_'

def readDigits (radix : Nat) (text : Text) : Text × Text :=
  ((text.takeWhile (inRun radix)).filter (· != '_'), text.dropWhile (inRun radix))

def readSomeDigits (radix : Nat) (text : Text) : Except Fault (Text × Text) :=
  let (digits, rest) := readDigits radix text
  if digits.isEmpty then .error ⟨.digitExpected radix, text, rest⟩ else .ok (digits, rest)

def readRadix (radix : Nat) (text : Text) : Except Fault (Numeral × Text) := do
  let (digits, rest) ← readSomeDigits radix text
  match rest with
  | 'n' :: rest' => .ok (.bigInteger (Escape.valueOf radix digits), rest')
  | _ => .ok (.number (Binary64.ofRadix radix (digits.map Escape.digitValue)), rest)

def readExponent (text : Text) : Except Fault (Int × Text) :=
  match text with
  | mark :: rest =>
    if mark == 'e' || mark == 'E' then
      match rest with
      | [] => .error ⟨.exponentExpected, [], []⟩
      | '-' :: rest' => do
        let (digits, behind) ← readSomeDigits 10 rest'
        .ok (-(Escape.valueOf 10 digits : Int), behind)
      | '+' :: rest' => do
        let (digits, behind) ← readSomeDigits 10 rest'
        .ok (Escape.valueOf 10 digits, behind)
      | _ => do
        let (digits, behind) ← readSomeDigits 10 rest
        .ok (Escape.valueOf 10 digits, behind)
    else .ok (0, text)
  | [] => .ok (0, text)

def readDecimal (whole : Text) (text : Text) : Except Fault (Numeral × Text) := do
  let (fraction, rest) : Text × Text := match text with
    | '.' :: rest => readDigits 10 rest
    | _ => ([], text)
  let (exponent, rest) ← readExponent rest
  let digits := Escape.valueOf 10 (whole ++ fraction)
  .ok (.number (Binary64.ofDecimal digits (exponent - fraction.length)), rest)

/-- A numeral that starts with a zero and goes on with its run of digits: octal unless a digit is eight
or nine. -/
def readLeadingZero (text : Text) : Except Fault (Numeral × Text) :=
  let (digits, rest) := readDigits 10 text
  if digits.all (Escape.isDigitOf 8) then
    .ok (.number (Binary64.ofRadix 8 (digits.map Escape.digitValue)), rest)
  else readDecimal digits rest

def read (text : Text) : Except Fault (Numeral × Text) :=
  match text with
  | '0' :: mark :: rest =>
    if mark == 'x' || mark == 'X' then readRadix 16 rest
    else if mark == 'o' || mark == 'O' then readRadix 8 rest
    else if mark == 'b' || mark == 'B' then readRadix 2 rest
    else if inRun 10 mark then readLeadingZero text
    else readPlain text
  | _ => readPlain text
where
  readPlain (text : Text) : Except Fault (Numeral × Text) :=
    let (whole, rest) := readDigits 10 text
    match rest with
    | 'n' :: rest' => .ok (.bigInteger (Escape.valueOf 10 whole), rest')
    | _ => readDecimal whole rest

end Numeral
end ClassWeave
