import ClassWeave.SourceMap.Token
/-!
# Written source maps

The mappings of a source map as base64 digits, and the whole map as a JSON text. Numbers are written
as differences in groups of five bits, low group first, the sign in the lowest bit.
-/

namespace ClassWeave.SourceMap

def digits : Text :=
  "ABCDEFGHIJKLMNOPQRSTUVWXYZabcdefghijklmnopqrstuvwxyz0123456789+/".toList

def digit (n : Nat) : Char := digits.getD n 'A'

def groups : Nat → Nat → Text
  | 0, n => [digit n]
  | fuel + 1, n => if n < 32 then [digit n] else digit (n % 32 + 32) :: groups fuel (n / 32)

def signed (n : Int) : Nat := if n < 0 then 2 * n.natAbs + 1 else 2 * n.natAbs

def encodeNumber (n : Int) : Text := groups (signed n).log2 (signed n)

def encodeStep (to' from' : Nat) : Text := encodeNumber ((to' : Int) - (from' : Int))

def encodeToken (token before : MapToken) : Text :=
  let column := if token.generated.line = before.generated.line then before.generated.column else 0
  encodeStep token.generated.column column ++ encodeStep 0 0 ++
    encodeStep token.source.line before.source.line ++
    encodeStep token.source.column before.source.column

/-- The tokens behind `before`: a semicolon for every line that ends, a comma between tokens of a
line, and nothing for a token that repeats the one before it. -/
def encodeTail : MapToken → List MapToken → Text
  | _, [] => []
  | before, token :: rest =>
    let lines := token.generated.line - before.generated.line
    if lines = 0 then
      if token = before then encodeTail before rest
      else ',' :: encodeToken token before ++ encodeTail token rest
    else List.replicate lines ';' ++ encodeToken token before ++ encodeTail token rest

def zero : MapToken := ⟨Position.origin, Position.origin, false⟩

def mappings (map : SourceMap) : Text :=
  match map.tokens with
  | [] => []
  | first :: rest =>
    List.replicate first.generated.line ';' ++ encodeToken first zero ++ encodeTail first rest

/-- Bits in groups of six, the first bit lowest, as base64 digits; up to the last bit that is set. -/
def encodeBits : Nat → List Bool → Text
  | 0, _ => []
  | fuel + 1, bits =>
    if bits.any id then
      let value := (bits.take 6).zipIdx.foldl (fun n (bit, i) => if bit then n + Nat.pow 2 i else n) 0
      digit value :: encodeBits fuel (bits.drop 6)
    else []

structure RangeFlags where
  written : Text
  line : Nat
  bits : List Bool
  first : Nat
  any : Bool

namespace RangeFlags

def set (flags : RangeFlags) (index : Nat) : RangeFlags :=
  let at' := index - flags.first
  let padded := flags.bits ++ List.replicate (at' + 1 - flags.bits.length) false
  { flags with bits := List.set padded at' true, any := true }

def endLines (flags : RangeFlags) (line index : Nat) : RangeFlags :=
  if line ≤ flags.line then flags
  else
    { flags with
      written := flags.written ++ encodeBits (flags.bits.length + 1) flags.bits ++
        List.replicate (line - flags.line) ';'
      line
      bits := []
      first := index }

/-- Takes the token at an index: its flag is set before the lines in front of it end. -/
def step (flags : RangeFlags) (entry : MapToken × Nat) : RangeFlags :=
  let flags := if entry.1.isRange then flags.set entry.2 else flags
  flags.endLines entry.1.generated.line entry.2

end RangeFlags

def rangeMappings (map : SourceMap) : Option Text :=
  let flags := map.tokens.zipIdx.foldl RangeFlags.step ⟨[], 0, [], 0, false⟩
  if flags.any then
    some (flags.written ++ encodeBits (flags.bits.length + 1) flags.bits)
  else none

def sourceName (map : SourceMap) : String := map.file.getD ""

def jsonChar (c : Char) : Text :=
  if c = '\x22' then ['\\', '\x22']
  else if c = '\\' then ['\\', '\\']
  else if c = '\n' then ['\\', 'n']
  else if c = '\r' then ['\\', 'r']
  else if c = '\t' then ['\\', 't']
  else if c.toNat = 8 then ['\\', 'b']
  else if c.toNat = 12 then ['\\', 'f']
  else if c.toNat < 32 then
    ['\\', 'u', '0', '0', Nat.digitChar (c.toNat / 16), Nat.digitChar (c.toNat % 16)]
  else [c]

def jsonString (text : Text) : Text := '\x22' :: text.flatMap jsonChar ++ ['\x22']

def toJson (map : SourceMap) : Text :=
  let field := fun (name : String) (value : Text) => jsonString name.toList ++ ':' :: value
  let fields := [field "version" ['3']] ++
    (map.file.map fun file => field "file" (jsonString file.toList)).toList ++
    [field "sources" ('[' :: jsonString map.sourceName.toList ++ [']']), field "names" ['[', ']']] ++
    (map.rangeMappings.map fun text => field "rangeMappings" (jsonString text)).toList ++
    [field "mappings" (jsonString map.mappings)]
  '{' :: (fields.intersperse [',']).flatten ++ ['}']

end ClassWeave.SourceMap
