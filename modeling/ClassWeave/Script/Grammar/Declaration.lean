import ClassWeave.Script.Grammar.Class
import ClassWeave.Script.Grammar.Operation
/-!
# Declarations

Variables, functions, and the declarations of types, enumerations and modules. A word that begins one
of the latter may be a name as well, so it is told apart by what follows it.
-/

namespace ClassWeave

inductive VariableKind where
  | plain
  | constant
  | lexical
deriving DecidableEq

namespace Reader

/-- One variable with its value. A pattern must have one, unless the variable is a constant or defined
elsewhere, or takes the items of something in a loop. -/
def declarator (g : Grammar) (kind : VariableKind) (loop : Bool) : Reader Node := do
  let start ← here
  if kind != .plain && (← atWord "let") then
    failUnexpected "let is reserved in const, let, class declaration"
  let target ← g.binding
  let isName := match target.shape with
    | .identifier _ => true
    | _ => false
  let _ ← if isName then takeMark "!" else pure false
  let types ← annotation? g
  let each := loop && ((← atWord "in") || (← atWord "of"))
  if each then return ← form .declarator start (target :: types)
  if ← takeMark "=" then
    let value ← g.assignment
    return ← form .declarator start (target :: types ++ [value])
  unless isName || (← surroundings).ambient || (kind == .constant && !loop) do
    failAt .patternWithoutValue start
  form .declarator start (target :: types)

def declarators (g : Grammar) (kind : VariableKind) (loop : Bool) : Nat → Reader (List Node)
  | 0 => exhausted
  | fuel + 1 => do
    if ← atMark ";" then return []
    let first ← declarator g kind loop
    if ← takeMark "," then return first :: (← declarators g kind loop fuel)
    return [first]

def skipStatement : Nat → Reader Unit
  | 0 => exhausted
  | fuel + 1 => do
    if ← takeStatementEnd then return
    if (← place).ahead.fault?.isSome then return
    advance
    skipStatement fuel

/-- Variables behind the word that declares them. What follows them on the line means nothing. -/
def variableTail (g : Grammar) (start : Nat) (kind : VariableKind) : Reader Node := do
  let declared ← inside ({ · with allowIn := true }) (declarators g kind false g.budget)
  unless ← takeStatementEnd do
    let skipped : Reader Unit := do
      let _ ← freshExpression g
    recovering skipped fun _ => return
    skipStatement g.budget
  form .variable start declared

def variableKind? : Reader (Option VariableKind) := do
  if ← atWord "var" then return some .plain
  if ← atWord "const" then return some .constant
  unless ← atWord "let" do return none
  let next := (← second).token
  return if next.isName || next.isMark "[" || next.isMark "\x7b" then some .lexical else none

/-- A resource and those behind it, whose word is ahead; none if no name follows on the same line. -/
def resources? (g : Grammar) (start : Nat) : Reader (Option Node) := do
  let next ← second
  unless next.token.isReference && !next.onNewLine do return none
  advance
  let declared ← inside ({ · with allowIn := true }) (declarators g .plain false g.budget)
  let _ ← takeStatementEnd
  return some (← form .variable start declared)

def functionDeclaration (g : Grammar) (named : Bool) (decoration : List Node) : Reader Node := do
  let start ← here
  let async ← takeWord "async"
  return (← functionFrom g start async named decoration).1

def atAsyncFunction : Reader Bool := do
  let next ← second
  return (← atWord "async") && next.token.isWord "function" && !next.onNewLine

def skipToBody : Nat → Reader Unit
  | 0 => exhausted
  | fuel + 1 => do
    unless (← atMark "\x7b") || (← atEnd) do
      advance
      skipToBody fuel

/-- An interface behind its keyword. Only the first list of what it extends counts. -/
def interfaceTail (g : Grammar) (start : Nat) : Reader Node := do
  let name ← anyName
  let generic ← typeParameters? g
  let bases ← if ← takeWord "extends" then heritage g g.budget else pure []
  if ← atWord "extends" then skipToBody g.budget
  let members ← typeBody g
  form .typeDeclaration start (name :: generic ++ bases ++ members)

def aliasTail (g : Grammar) (start : Nat) : Reader Node := do
  let name ← anyName
  let generic ← typeParameters? g
  unless ← takeMark "=" do failUnexpected "="
  let types ← g.type
  endStatement
  form .typeDeclaration start (name :: generic ++ types)

def enumeratedName (g : Grammar) : Reader Node := do
  let start ← here
  match ← ahead with
  | .string _ | .numeral _ => propertyName g
  | _ =>
    unless ← takeMark "[" do return ← anyName
    let _ ← freshExpression g
    needMark "]"
    node (.identifier "") start []

/-- One member of an enumeration with the comma behind it, if there is one. Behind a name any other
token stands for the comma. -/
def enumerationMember (g : Grammar) : Reader Node := do
  let start ← here
  let name ← enumeratedName g
  if ← takeMark "=" then
    let value ← freshAssignment g
    let _ ← takeMark ","
    return ← form .enumMember start [name, value]
  unless ← atMark "\x7d" do advance
  form .enumMember start [name]

def enumerationTail (g : Grammar) (start : Nat) : Reader Node := do
  let name ← anyName
  needMark "\x7b"
  let members ← whileM (return !(← atMark "\x7d")) (enumerationMember g) g.budget
  needMark "\x7d"
  form .enumeration start (name :: members)

def moduleBlock (g : Grammar) (start : Nat) : Reader Node := do
  needMark "\x7b"
  let inner ← statements g .moduleItem g.budget
  form .moduleBlock start inner

def namespaceTail (g : Grammar) (start : Nat) : Reader Node := do
  let _ ← anyName
  let _ ← whileM (takeMark ".") anyName g.budget
  moduleBlock g start

def ambientModuleTail (g : Grammar) (start : Nat) : Reader Node := do
  if ← atMark "\x7b" then return ← moduleBlock g start
  endStatement
  form .moduleBlock start []

def constantEnumeration? (g : Grammar) (start : Nat) : Reader (Option Node) := do
  unless (← atWord "const") && (← second).token.isWord "enum" do return none
  advance
  advance
  return some (← enumerationTail g start)

/-- A declaration that the word `name` begins. If the word is still ahead, what follows must fit it;
otherwise there may be none. -/
def wordDeclaration? (g : Grammar) (start : Nat) (decoration : List Node) (name : String)
    (unread : Bool) : Reader (Option Node) := do
  let sameLine := !(← onNewLine)
  let named := unread || (← ahead).isReference
  let read : Reader Unit := if unread then advance else pure ()
  match name with
  | "abstract" =>
    unless unread || (sameLine && (← atWord "class")) do return none
    read
    needWord "class"
    return some (← g.classTail start decoration true .classDeclaration)
  | "enum" =>
    unless named do return none
    read
    return some (← enumerationTail g start)
  | "interface" =>
    unless named do return none
    read
    return some (← interfaceTail g start)
  | "module" =>
    unless sameLine && (named || (← ahead).isString) do return none
    read
    if (← ahead).isString then
      advance
      return some (← ambientModuleTail g start)
    return some (← namespaceTail g start)
  | "namespace" =>
    unless named do return none
    read
    return some (← namespaceTail g start)
  | "type" =>
    unless unread || (sameLine && named) do return none
    read
    return some (← aliasTail g start)
  | _ => return none

def ambientDeclaration? (g : Grammar) (start : Nat) (decoration : List Node) :
    Reader (Option Node) :=
  inside ({ · with ambient := true }) do
    if ← atWord "function" then return some (← functionFrom g start false true decoration).1
    if ← takeWord "class" then
      return some (← g.classTail start decoration true .classDeclaration)
    if let some found ← constantEnumeration? g start then return some found
    if ← takeWord "const" then return some (← variableTail g start .constant)
    if ← takeWord "var" then return some (← variableTail g start .plain)
    if ← takeWord "let" then return some (← variableTail g start .lexical)
    if ← takeWord "global" then return some (← ambientModuleTail g start)
    match ← ahead with
    | .word name _ => wordDeclaration? g start decoration name true
    | _ => return none

def declarationBehind? (g : Grammar) (start : Nat) (decoration : List Node) (name : String) :
    Reader (Option Node) := do
  match name with
  | "declare" => ambientDeclaration? g start decoration
  | "global" =>
    unless ← atMark "\x7b" do return none
    return some (← moduleBlock g start)
  | _ => wordDeclaration? g start decoration name false

end Reader
end ClassWeave
