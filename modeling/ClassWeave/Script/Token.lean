import ClassWeave.Literal.Numeral
import ClassWeave.Literal.Quoted
import ClassWeave.Literal.TemplateText
import ClassWeave.Script.Fault
import ClassWeave.Text.IdentifierTable
/-!
# Tokens

Program text is cut into tokens one at a time, on demand: whether a slash begins a pattern, or a brace
goes on with a template, is known only to the grammar, which reads those from a `Cursor` itself.
-/

namespace ClassWeave

structure Cursor where
  rest : Text
  offset : Nat
deriving Repr, Inhabited

namespace Cursor

def skip : Nat → Cursor → Cursor
  | 0, cursor => cursor
  | _ + 1, ⟨[], offset⟩ => ⟨[], offset⟩
  | n + 1, ⟨c :: rest, offset⟩ => skip n ⟨rest, offset + c.utf8Size⟩

def goTo (cursor : Cursor) (rest : Text) : Cursor :=
  cursor.skip (cursor.rest.length - rest.length)

end Cursor

inductive Token where
  /-- An identifier or a keyword; `escaped` if it is not spelled plainly. -/
  | word (name : String) (escaped : Bool)
  | privateName (name : String)
  | numeral (value : Numeral)
  | string (value : Text)
  | mark (text : String)
  | invalid (fault : ScriptFault)
  | endOfText
deriving DecidableEq, Repr, Inhabited

structure Lexeme where
  token : Token
  start : Cursor
  stop : Cursor
  onNewLine : Bool
  /-- Where it counts from: its first character, or the marked comment in front of it. -/
  first : Nat
deriving Inhabited

namespace Lexeme

def isSpace (c : Char) : Bool :=
  let n := c.toNat
  n == 0x20 || n == 9 || n == 11 || n == 12 || n == 0x85 || n == 0xA0 || n == 0xFEFF || n == 0x1680 ||
    (0x2000 ≤ n && n ≤ 0x200B) || n == 0x202F || n == 0x205F || n == 0x3000

inductive Gap where
  | space
  | lineComment
  | blockComment
deriving DecidableEq

structure Separation where
  stop : Cursor
  newLine : Bool
  marked : Option Nat

/-- Skips spaces, line ends and comments. A comment may be closed by the end of the text. A marked
comment goes to the end of its line too: it begins with `<!--`, or with `-->` as the first on a line. -/
def skipGap : Gap → Text → Nat → Bool → Option Nat → Separation
  | _, [], offset, newLine, marked => ⟨⟨[], offset⟩, newLine, marked⟩
  | .lineComment, c :: rest, offset, newLine, marked =>
    if Escape.isLineEnd c then skipGap .space rest (offset + c.utf8Size) true marked
    else skipGap .lineComment rest (offset + c.utf8Size) newLine marked
  | .blockComment, '*' :: '/' :: rest, offset, newLine, marked =>
    skipGap .space rest (offset + 2) newLine marked
  | .blockComment, c :: rest, offset, newLine, marked =>
    skipGap .blockComment rest (offset + c.utf8Size) (newLine || Escape.isLineEnd c) marked
  | .space, '/' :: '/' :: rest, offset, newLine, marked =>
    skipGap .lineComment rest (offset + 2) newLine marked
  | .space, '/' :: '*' :: rest, offset, newLine, marked =>
    skipGap .blockComment rest (offset + 2) newLine marked
  | .space, '<' :: '!' :: '-' :: '-' :: rest, offset, newLine, marked =>
    skipGap .lineComment rest (offset + 4) newLine (marked.or (some offset))
  | .space, '-' :: '-' :: '>' :: rest, offset, true, marked =>
    skipGap .lineComment rest (offset + 3) true (marked.or (some offset))
  | .space, c :: rest, offset, newLine, marked =>
    if Escape.isLineEnd c then skipGap .space rest (offset + c.utf8Size) true marked
    else if isSpace c then skipGap .space rest (offset + c.utf8Size) newLine marked
    else ⟨⟨c :: rest, offset⟩, newLine, marked⟩

/-- Brackets, separators and operators, each before every shorter one that it begins with. -/
def marks : List (Text × String) :=
  [">>>=", "...", "===", "!==", "**=", "<<=", ">>=", ">>>", "&&=", "||=", "??=", "=>", "==", "!=",
    "<=", ">=", "++", "--", "<<", ">>", "&&", "||", "??", "+=", "-=", "*=", "/=", "%=", "&=",
    "|=", "^=", "**", "\x7b", "\x7d", "(", ")", "[", "]", ";", ",", "<", ">", "+", "-", "*", "/",
    "%", "&", "|", "^", "!", "~", "?", ":", "=", ".", "@", "#", "\x60"].map fun text => (text.toList, text)

def markOf (text : Text) : Option (Text × String) :=
  marks.find? fun (chars, _) => chars.isPrefixOf text

/-- Where and why a name cannot be read: the text from the offending backslash on, and the text where
reading stops. -/
structure NameFault where
  cause : Cause
  before : Text
  behind : Text

def readEscapedName : Nat → Text → Except NameFault (Text × Text)
  | 0, text => .ok ([], text)
  | _ + 1, [] => .ok ([], [])
  | fuel + 1, c :: rest =>
    if c = '\\' then
      match rest with
      | 'u' :: digits =>
        match Escape.readUnicode digits with
        | .ok (n, behind) => do
          let (name, behind) ← readEscapedName fuel behind
          .ok (CodePoint.toChar n :: name, behind)
        | .error failure => .error ⟨.badEscape failure.fault, c :: rest, failure.behind⟩
      | _ => .error ⟨.escapeExpected, c :: rest, rest⟩
    else if IdentifierTable.isPart c then do
      let (name, behind) ← readEscapedName fuel rest
      .ok (c :: name, behind)
    else .ok ([], c :: rest)

def readName (make : String → Bool → Token) (at' : Cursor) : Token × Cursor :=
  let plain := at'.rest.takeWhile IdentifierTable.isPart
  let behind := at'.skip plain.length
  match behind.rest with
  | '\\' :: _ =>
    match readEscapedName (at'.rest.length + 1) at'.rest with
    | .ok (name, rest) => (make (String.ofList name) true, at'.goTo rest)
    | .error fault => (.invalid ⟨fault.cause, (at'.goTo fault.before).offset⟩, at'.goTo fault.behind)
  | _ => (make (String.ofList plain) false, behind)

/-- The numeral at a cursor, and the cursor behind it. No name may follow a number directly. -/
def readNumeral (at' : Cursor) : Token × Cursor :=
  match Numeral.read at'.rest with
  | .error fault =>
    (.invalid ⟨.badNumeral fault.cause, (at'.goTo fault.before).offset⟩, at'.goTo fault.behind)
  | .ok (value, rest) =>
    let behind := at'.goTo rest
    match value, rest.head?.any IdentifierTable.isStart with
    | .number _, true => (.invalid ⟨.nameBehindNumber, behind.offset⟩, behind)
    | _, _ => (.numeral value, behind)

def read (at' : Cursor) : Token × Cursor :=
  match at'.rest with
  | [] => (.endOfText, at')
  | c :: rest =>
    let isNumeral := Escape.isDigitOf 10 c ||
      (c == '.' && rest.head?.any (Escape.isDigitOf 10))
    if IdentifierTable.isStart c || c == '\\' then readName .word at'
    else if isNumeral then readNumeral at'
    else if c == Quoted.mark || c == '\x27' then
      match Quoted.readBody c rest with
      | .ok (value, behind) => (.string value, at'.goTo behind)
      | .error fault =>
        (.invalid ⟨.badEscape fault.cause, (at'.goTo fault.before).offset⟩, at'.goTo fault.behind)
    else if c == '#' && rest.head?.any (fun d => IdentifierTable.isStart d || d == '\\') then
      readName (fun name _ => .privateName name) (at'.skip 1)
    else match markOf at'.rest with
      | some (chars, text) => (.mark text, at'.skip chars.length)
      | none => (.invalid ⟨.unexpectedCharacter c, at'.offset⟩, at'.skip 1)

def next (cursor : Cursor) : Lexeme :=
  let gap := skipGap .space cursor.rest cursor.offset (cursor.offset == 0) none
  let (token, stop) := read gap.stop
  ⟨token, gap.stop, stop, gap.newLine, gap.marked.getD gap.stop.offset⟩

end Lexeme

namespace Token

def ownNames : List String :=
  ["await", "break", "case", "catch", "class", "const", "continue", "debugger", "default", "delete",
    "do", "else", "export", "extends", "false", "finally", "for", "function", "if", "import", "in",
    "instanceof", "new", "null", "return", "super", "switch", "this", "throw", "true", "try",
    "typeof", "var", "void", "while", "with", "yield", "abstract", "accessor", "any", "as", "assert",
    "asserts", "async", "bigint", "boolean", "constructor", "declare", "enum", "from", "get", "global",
    "implements", "infer", "interface", "intrinsic", "is", "keyof", "let", "meta", "module",
    "namespace", "never", "number", "object", "of", "out", "override", "package", "private",
    "protected", "public", "readonly", "require", "satisfies", "set", "static", "string", "symbol",
    "target", "type", "undefined", "unique", "unknown", "using"]

def keywords : List String :=
  ["break", "case", "catch", "class", "const", "continue", "debugger", "default", "delete", "do",
    "else", "export", "extends", "false", "finally", "for", "function", "if", "import", "in",
    "instanceof", "new", "null", "return", "super", "switch", "this", "throw", "true", "try",
    "typeof", "var", "void", "while", "with"]

/-- The words that may be bound, but are no expressions. -/
def reserved : List String :=
  ["await", "enum", "implements", "interface", "let", "package", "private", "protected", "public",
    "static", "yield"]

def openers : List String :=
  ["class", "delete", "false", "function", "import", "new", "null", "super", "this", "throw", "true",
    "typeof", "void"]

def binaryOperators : List (String × Nat) :=
  [("??", 1), ("||", 1), ("&&", 2), ("|", 3), ("^", 4), ("&", 5), ("==", 6), ("!=", 6), ("===", 6),
    ("!==", 6), ("<", 7), ("<=", 7), (">", 7), (">=", 7), ("in", 7), ("instanceof", 7), ("<<", 8),
    (">>", 8), (">>>", 8), ("+", 9), ("-", 9), ("*", 10), ("/", 10), ("%", 10), ("**", 11)]

def assignmentOperators : List String :=
  ["=", "+=", "-=", "*=", "/=", "%=", "**=", "<<=", ">>=", ">>>=", "&=", "|=", "^=", "&&=", "||=",
    "??="]

def binaryOperator? : Token → Option (String × Nat)
  | .mark text => binaryOperators.find? (·.1 == text)
  | .word name false =>
    if name == "in" || name == "instanceof" then some (name, 7) else none
  | _ => none

def isWord (name : String) : Token → Bool
  | .word found escaped => !escaped && found == name
  | _ => false

def isMark (text : String) : Token → Bool
  | .mark found => found == text
  | _ => false

def isName : Token → Bool
  | .word name escaped => escaped || !keywords.contains name
  | _ => false

def isReference : Token → Bool
  | .word name escaped => escaped || !(keywords.contains name || reserved.contains name)
  | _ => false

def isOperatorMark : Token → Bool
  | .mark text => binaryOperators.any (·.1 == text)
  | _ => false

def isNumeral : Token → Bool
  | .numeral _ => true
  | _ => false

def isString : Token → Bool
  | .string _ => true
  | _ => false

def isPrivate : Token → Bool
  | .privateName _ => true
  | token => token.isMark "#"

def startsExpression : Token → Bool
  | .word name escaped =>
    escaped || openers.contains name || !(keywords.contains name || name == "let")
  | .privateName _ | .numeral _ | .string _ => true
  | .mark text =>
    ["(", "[", "\x7b", "!", "~", "+", "-", "++", "--", "\x60", "/", "/="].contains text
  | .invalid _ | .endOfText => false

def isAnyWord : Token → Bool
  | .word _ _ => true
  | _ => false

end Token

namespace Lexeme

def label (lexeme : Lexeme) : String :=
  match lexeme.token with
  | .word name escaped => if !escaped && Token.ownNames.contains name then name else "ident"
  | .privateName _ => "#"
  | .numeral (.number _) => "numeric literal"
  | .numeral (.bigInteger _) => "bigint literal"
  | .string _ => "string literal"
  | .mark text =>
    if text == "\x60" then
      match (TemplateText.readChunk lexeme.stop.rest).stop with
      | .closed => "no substitution template literal"
      | .expression => "template head"
      | .missing => "<lexing error>"
    else text
  | .invalid _ => "<lexing error>"
  | .endOfText => "<eof>"

/-- The fault of a token that is malformed in itself: a template without an end is one. -/
def fault? (lexeme : Lexeme) : Option ScriptFault :=
  match lexeme.token with
  | .invalid fault => some fault
  | .mark text =>
    if text == "\x60" && (TemplateText.readChunk lexeme.stop.rest).stop == .missing then
      some ⟨.unterminatedTemplate, lexeme.start.offset⟩
    else none
  | _ => none

/-- Where reading goes on behind a token; a template without an end takes up the whole text. -/
def behind (lexeme : Lexeme) : Cursor :=
  match lexeme.token with
  | .mark "\x60" => if lexeme.fault?.isSome then lexeme.stop.goTo [] else lexeme.stop
  | _ => lexeme.stop

end Lexeme
end ClassWeave
