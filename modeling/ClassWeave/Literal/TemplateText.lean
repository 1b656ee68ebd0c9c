import ClassWeave.Literal.Escape
/-!
# Template text

A template literal is static chunks with embedded expressions between them. `TemplateText.escape`
writes a value as static text; `TemplateText.readChunk` reads one chunk up to the next embedded
expression or the closing backquote.
-/

namespace ClassWeave

structure Chunk where
  raw : Text
  cooked : Option Text
deriving DecidableEq, Repr, Inhabited

def Chunk.value (chunk : Chunk) : Text := chunk.cooked.getD chunk.raw

namespace TemplateText

def mark : Char := '\x60'

/-- A value as static text of a template. A dollar sign is escaped only in front of a brace. -/
def escape : Text → Text
  | [] => []
  | c :: rest =>
    if c = mark then '\\' :: mark :: escape rest
    else if c = '\\' then '\\' :: '\\' :: escape rest
    else if c = '\r' then '\\' :: 'r' :: escape rest
    else if c = '$' && rest.head? == some '{' then '\\' :: '$' :: escape rest
    else c :: escape rest

structure Fault where
  cause : EscapeFault
  before : Text
deriving DecidableEq, Repr

structure Units where
  raw : Text
  units : List CodePoint
  fault : Option Fault

def Units.after (more : Units) (raw : Text) (units : List CodePoint) (fault : Option Fault) : Units :=
  ⟨raw ++ more.raw, units ++ more.units, more.fault.or fault⟩

/-- A chunk from behind the backquote or closing brace in front of it, and the text from its end on:
empty when the template is not closed. A carriage return, alone or with a line feed, is a line feed
of the value. -/
def readUnits : Nat → Text → Units × Text
  | 0, text => (⟨[], [], none⟩, text)
  | _ + 1, [] => (⟨[], [], none⟩, [])
  | fuel + 1, c :: rest =>
    if c = mark || (c = '$' && rest.head? == some '{') then (⟨[], [], none⟩, c :: rest)
    else if c = '\\' then
      match Escape.read true rest with
      | .ok (units, rest') =>
        let (more, behind) := readUnits fuel rest'
        (more.after (c :: rest.take (rest.length - rest'.length)) units none, behind)
      | .error failure =>
        let (more, behind) := readUnits fuel (rest.drop 1)
        (more.after (c :: rest.take 1) [] (some ⟨failure.fault, c :: rest⟩), behind)
    else if c = '\r' then
      match rest with
      | '\n' :: rest' =>
        let (more, behind) := readUnits fuel rest'
        (more.after ['\r', '\n'] [0x0A] none, behind)
      | _ =>
        let (more, behind) := readUnits fuel rest
        (more.after ['\r'] [0x0A] none, behind)
    else
      let (more, behind) := readUnits fuel rest
      (more.after [c] [c.toNat] none, behind)

inductive Stop where
  | expression
  | closed
  | missing
deriving DecidableEq, Repr

structure Reading where
  chunk : Chunk
  fault : Option Fault
  stop : Stop
  rest : Text

def readChunk (text : Text) : Reading :=
  let (found, behind) := readUnits (text.length + 1) text
  let cooked := if found.fault.isSome then none else some (CodePoint.decode found.units)
  let chunk : Chunk := ⟨found.raw, cooked⟩
  match behind with
  | [] => ⟨chunk, found.fault, .missing, []⟩
  | c :: rest =>
    if c = mark then ⟨chunk, found.fault, .closed, rest⟩
    else ⟨chunk, found.fault, .expression, rest.drop 1⟩

end TemplateText
end ClassWeave
