import ClassWeave.Literal.Escape
/-!
# String literals

`Quoted.encode` writes a value as a double-quoted string literal; `Quoted.readBody` reads a string
literal behind its opening quote.
-/

namespace ClassWeave.Quoted

def mark : Char := '\x22'

def encodeChar (c : Char) : Text :=
  if c = mark then ['\\', mark]
  else if c = '\\' then ['\\', '\\']
  else if c = '\n' then ['\\', 'n']
  else if c = '\r' then ['\\', 'r']
  else if c.toNat = 0x2028 then ['\\', 'u', '2', '0', '2', '8']
  else if c.toNat = 0x2029 then ['\\', 'u', '2', '0', '2', '9']
  else [c]

def encode (value : Text) : Text := mark :: value.flatMap encodeChar ++ [mark]

structure Fault where
  cause : EscapeFault
  before : Text
  behind : Text
deriving DecidableEq, Repr

/-- The code points of a string literal that ends at `quote`, and the text behind it. A line feed, a
carriage return or the end of the text closes the literal too. -/
def readUnits (quote : Char) : Nat → Text → Except Fault (List CodePoint × Text)
  | 0, text => .ok ([], text)
  | _ + 1, [] => .ok ([], [])
  | fuel + 1, c :: rest =>
    if c = quote then .ok ([], rest)
    else if c = '\\' then
      match Escape.read false rest with
      | .error failure => .error ⟨failure.fault, c :: rest, failure.behind⟩
      | .ok (units, rest') => do
        let (more, behind) ← readUnits quote fuel rest'
        .ok (units ++ more, behind)
    else if c = '\n' || c = '\r' then .ok ([], c :: rest)
    else do
      let (more, behind) ← readUnits quote fuel rest
      .ok (c.toNat :: more, behind)

def readBody (quote : Char) (text : Text) : Except Fault (Text × Text) := do
  let (units, rest) ← readUnits quote (text.length + 1) text
  .ok (CodePoint.decode units, rest)

end ClassWeave.Quoted
