import ClassWeave.Text.Span
/-!
# Blank characters

A character is blank if it has the Unicode property `White_Space`. Words are what stands between
blank characters, and trimming removes them at both ends.
-/

namespace ClassWeave

namespace Text

/-- The characters with the Unicode property `White_Space`. -/
def isBlank (c : Char) : Bool :=
  let n := c.toNat
  (9 ≤ n && n ≤ 13) || n == 0x20 || n == 0x85 || n == 0xA0 || n == 0x1680 ||
    (0x2000 ≤ n && n ≤ 0x200A) || n == 0x2028 || n == 0x2029 || n == 0x202F || n == 0x205F ||
    n == 0x3000

def trimStart (text : Text) : Text := text.dropWhile isBlank

def trimEnd : Text → Text
  | [] => []
  | c :: cs => match trimEnd cs with
    | [] => if isBlank c then [] else [c]
    | kept => c :: kept

def trim (text : Text) : Text := trimEnd (trimStart text)

/-- The pieces between the characters that satisfy `cuts`; one more than there are such
characters, empty ones included. -/
def splitWhere (cuts : Char → Bool) : Text → List Text
  | [] => [[]]
  | c :: cs =>
    if cuts c then [] :: splitWhere cuts cs
    else match splitWhere cuts cs with
      | [] => [[c]]
      | piece :: pieces => (c :: piece) :: pieces

def joinWith (separator : Text) : List Text → Text
  | [] => []
  | [piece] => piece
  | piece :: pieces => piece ++ separator ++ joinWith separator pieces

end Text
end ClassWeave
