import ClassWeave.Script.Grammar.Class
import ClassWeave.Script.Grammar.Parentheses
/-!
# Operands without operators

Literals, names, functions and classes, and everything in brackets.
-/

namespace ClassWeave.Reader

def arrayItem (g : Grammar) : Reader Node := do
  let start ← here
  if ← atMark "," then form .hole start [] else spreadable g

def arrayLiteral (g : Grammar) (start : Nat) : Reader Node := do
  advance
  let items ← inside Surroundings.fresh (listUntil "]" (arrayItem g) g.budget)
  form .array start items

/-- The end of a regular expression, read behind its first slash: none if its line ends first. The
other part is the text where reading stopped. -/
def patternEnd : Bool → Text → Bool × Text
  | _, [] => (false, [])
  | inClass, c :: rest =>
    if Escape.isLineEnd c then (false, c :: rest)
    else if c == '\\' then
      match rest with
      | d :: rest' => if Escape.isLineEnd d then (false, rest) else patternEnd inClass rest'
      | [] => (false, [])
    else if c == '[' then patternEnd true rest
    else if c == ']' then patternEnd false rest
    else if c == '/' && !inClass then (true, rest)
    else patternEnd inClass rest

def regularExpression : Reader Node := do
  let lexeme := (← place).ahead
  let opening := lexeme.start
  let (closed, rest) := patternEnd false (opening.rest.drop 1)
  if closed then
    resume (opening.goTo (rest.dropWhile IdentifierTable.isPart))
    node (.literal .pattern) lexeme.first []
  else
    let token := Token.invalid ⟨.unterminatedPattern, opening.offset⟩
    let malformed := { lexeme with token, stop := opening.goTo rest }
    fun _ place => .failed ⟨.expressionExpected, lexeme.first⟩ { place with ahead := malformed }

def functionExpression (g : Grammar) (start : Nat) (async : Bool) : Reader Node := do
  let (whole, parts) ← functionFrom g start async false []
  if parts.body.isEmpty then failUnexpected "\x7b"
  return whole

def asyncGenericArrow (g : Grammar) (start : Nat) : Reader Node := do
  advance
  let generic ← typeParameters g
  let given ← parameters g
  let result ← returnType? g
  needMark "=>"
  arrowTail g start true (given.flatMap Node.undecorated) generic result

/-- An arrow function behind `async` and the name of its parameter. If that is `as`, it may be a type
of the name `async` instead. -/
def asyncNameArrow (g : Grammar) (start : Nat) (name : Node) : Reader Node := do
  let loop := (← surroundings).loopHead
  if loop && (← atWord "of") && !(← second).token.isMark "=>" then return name
  let given ← identifier
  if given.shape == .identifier "as" && !(← atMark "=>") then
    let types ← g.type
    return ← form .typed start (name :: types)
  needMark "=>"
  arrowTail g start true [given] [] []

def nameOrArrow (g : Grammar) : Reader Node := do
  let start ← here
  let name ← identifier
  unless (← surroundings).arrowStart == some start && !(← onNewLine) do return name
  if name.shape == .identifier "async" && (← ahead).isReference then
    return ← asyncNameArrow g start name
  if ← takeMark "=>" then return ← arrowTail g start false [name] [] []
  return name

def asyncExpression (g : Grammar) : Reader Node := do
  let start ← here
  let allowed := (← surroundings).arrowStart == some start
  let next ← second
  if next.token.isWord "function" && !next.onNewLine then
    advance
    return ← functionExpression g start true
  if allowed && next.token.isMark "<" then
    if let some arrow ← attempt (asyncGenericArrow g start) then return arrow
  if allowed && next.token.isMark "(" && !next.onNewLine then
    let callee ← identifier
    return ← parenthesesOrArrow g start (some callee)
  nameOrArrow g

def bareName (g : Grammar) : Reader Node := do
  let token ← ahead
  unless token.isReference || token.isWord "let" || token.isWord "await" do fail .expressionExpected
  nameOrArrow g

def keywordExpression (g : Grammar) (start : Nat) (name : String) : Reader Node := do
  match name with
  | "this" => advance; form .this start []
  | "null" => advance; node (.literal .null) start []
  | "true" => advance; node (.literal (.boolean true)) start []
  | "false" => advance; node (.literal (.boolean false)) start []
  | "function" => functionExpression g start false
  | "class" => advance; g.classTail start [] false .classExpression
  | "async" => asyncExpression g
  | _ => bareName g

def decoratedExpression (g : Grammar) (start : Nat) : Reader Node := do
  let decoration ← g.decorators
  if ← takeWord "class" then g.classTail start decoration false .classExpression else bareName g

def markedExpression (g : Grammar) (start : Nat) (mark : String) : Reader Node := do
  match mark with
  | "(" => parenthesesOrArrow g start none
  | "[" => arrayLiteral g start
  | "\x7b" => objectLiteral g
  | "\x60" =>
    let (chunks, embedded) ← template g (freshExpression g) false
    node (.template chunks) start embedded
  | "/" | "/=" => regularExpression
  | "@" => decoratedExpression g start
  | "#" => memberAfterPoint
  | _ => fail .expressionExpected

def primary (g : Grammar) : Reader Node := do
  let lexeme := (← place).ahead
  let start := lexeme.first
  if lexeme.fault?.isSome then fail .expressionExpected
  match lexeme.token with
  | .word name escaped => if escaped then nameOrArrow g else keywordExpression g start name
  | .numeral (.number value) => advance; node (.literal (.number value)) start []
  | .numeral (.bigInteger value) => advance; node (.literal (.bigInteger value)) start []
  | .string value => advance; node (.literal (.string value)) start []
  | .privateName _ => memberAfterPoint
  | .mark mark => markedExpression g start mark
  | _ => fail .expressionExpected

end ClassWeave.Reader
