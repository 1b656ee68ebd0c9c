import ClassWeave.Script.Node
import ClassWeave.Script.Token
/-!
# Reading by grammar

A `Reader` takes a context and a place between two tokens and gives a result or a fault, each with the
place reached; a reader may go on after a fault of another. The recursive productions come in a
`Grammar`, so that each production is a plain definition over the others.
-/

namespace ClassWeave

/-- The place between two tokens: the token ahead, where the one behind ended, and whether that was
the closing bracket of type arguments. -/
structure Place where
  ahead : Lexeme
  lastEnd : Nat
  behindAngle : Bool := false
deriving Inhabited

inductive Site where
  | moduleItem
  | listed
  /-- As the body of another statement, where no variables are declared but with `var`. -/
  | single
deriving DecidableEq, Repr

structure Surroundings where
  /-- Elements such as `<a/>` are expressions, and `<T>x` is no type assertion. -/
  elements : Bool
  generator : Bool := false
  async : Bool := false
  ambient : Bool := false
  parameters : Bool := false
  loopHead : Bool := false
  allowIn : Bool := true
  /-- The offset at which an arrow function may begin. -/
  arrowStart : Option Nat := none
  inConditional : Bool := false
  /-- Inside the branch of a conditional that a colon ends. -/
  colonAhead : Bool := false
  conditionalTypes : Bool := true

def Surroundings.fresh (around : Surroundings) : Surroundings :=
  { around with allowIn := true, inConditional := false, colonAhead := false }

inductive Outcome (α : Type) where
  | done (value : α) (place : Place)
  | failed (fault : ScriptFault) (place : Place)

def Reader (α : Type) := Surroundings → Place → Outcome α

namespace Reader

variable {α β : Type}

instance : Monad Reader where
  pure value := fun _ place => .done value place
  bind first next := fun around place => match first around place with
    | .done value place' => next value around place'
    | .failed fault place' => .failed fault place'

def place : Reader Place := fun _ place => .done place place

def surroundings : Reader Surroundings := fun around place => .done around place

def inside (change : Surroundings → Surroundings) (reader : Reader α) : Reader α :=
  fun around place => reader (change around) place

def raise (fault : ScriptFault) : Reader α := fun _ place => .failed fault place

def failAt (cause : Cause) (offset : Nat) : Reader α := raise ⟨cause, offset⟩

def fail (cause : Cause) : Reader α := fun _ place => .failed ⟨cause, place.ahead.first⟩ place

/-- The result, or none with nothing read if the reader fails. -/
def attempt (reader : Reader α) : Reader (Option α) := fun around place =>
  match reader around place with
  | .done value place' => .done (some value) place'
  | .failed _ _ => .done none place

/-- The result, or what `recover` makes of the fault, at the place where reading stopped. -/
def recovering (reader : Reader α) (recover : ScriptFault → Reader α) : Reader α :=
  fun around place => match reader around place with
    | .done value place' => .done value place'
    | .failed fault place' => recover fault around place'

/-- The first reading, or else the second from the same place; if both fail, the fault of the first. -/
def orElse (first second : Reader α) : Reader α := fun around place =>
  match first around place with
  | .done value place' => .done value place'
  | .failed fault place' =>
    match second around place with
    | .done value place'' => .done value place''
    | .failed _ _ => .failed fault place'

def ahead : Reader Token := return (← place).ahead.token

def second : Reader Lexeme := return Lexeme.next (← place).ahead.stop

def onNewLine : Reader Bool := return (← place).ahead.onNewLine

def here : Reader Nat := return (← place).ahead.first

def atEnd : Reader Bool := return (← ahead) == .endOfText

def lastEnd : Reader Nat := return (← place).lastEnd

def resume (cursor : Cursor) : Reader Unit := fun _ _ =>
  .done () { ahead := Lexeme.next cursor, lastEnd := cursor.offset }

def advance : Reader Unit := fun _ place =>
  .done () { ahead := Lexeme.next place.ahead.stop, lastEnd := place.ahead.stop.offset }

/-- Fails with the fault of the token ahead, and goes past it, if it is malformed in itself. -/
def refuseMalformed : Reader Unit := do
  let lexeme := (← place).ahead
  if let some fault := lexeme.fault? then
    resume lexeme.behind
    raise fault

/-- Puts a malformed token of this fault ahead, and fails with the fault. -/
def failMalformed (fault : ScriptFault) : Reader α := fun _ place =>
  .failed fault { place with ahead := { place.ahead with token := .invalid fault } }

def atMark (text : String) : Reader Bool := return (← ahead).isMark text

def atWord (name : String) : Reader Bool := return (← ahead).isWord name

def takeMark (text : String) : Reader Bool := do
  if ← atMark text then advance; return true
  return false

def takeWord (name : String) : Reader Bool := do
  if ← atWord name then advance; return true
  return false

def failWanting (wanted : String) : Reader α := do
  fail (.tokenExpected wanted (← place).ahead.label)

def failUnexpected (wanted : String) : Reader α := do
  fail (.unexpectedToken (← place).ahead.label wanted)

def needMark (text : String) : Reader Unit := do
  if ← atMark text then advance else failWanting text

def needWord (name : String) : Reader Unit := do
  if ← atWord name then advance else failWanting name

def node (shape : Shape) (start : Nat) (children : List Node) : Reader Node :=
  return .mk shape ⟨start, ← lastEnd⟩ children

def form (kind : Form) (start : Nat) (children : List Node) : Reader Node :=
  node (.other kind) start children

def atStatementEnd : Reader Bool := do
  let lexeme := (← place).ahead
  return lexeme.onNewLine || lexeme.token.isMark ";" || lexeme.token.isMark "\x7d" ||
    lexeme.token == .endOfText

def takeStatementEnd : Reader Bool := do
  if ← takeMark ";" then return true
  atStatementEnd

def endStatement : Reader Unit := do
  unless ← takeStatementEnd do failWanting ";"

/-- Takes one closing angle bracket, also one that is joined with what follows it. -/
def takeAngle : Reader Bool := fun _ place =>
  match place.ahead.start with
  | ⟨'>' :: rest, offset⟩ =>
    .done true
      { ahead := Lexeme.next ⟨rest, offset + 1⟩, lastEnd := offset + 1, behindAngle := true }
  | _ => .done false place

def needAngle : Reader Unit := do
  unless ← takeAngle do failWanting ">"

/-- An identifier: any word but a keyword, and `this` for its type. Outside declarations of what is
defined elsewhere `await` is none. -/
def identifier : Reader Node := do
  let start ← here
  match ← ahead with
  | .word name escaped =>
    advance
    if !escaped && name == "await" && !(← surroundings).ambient then failAt .awaitName start
    if !escaped && Token.keywords.contains name && name != "this" then
      failAt .identifierExpected start
    node (.identifier name) start []
  | _ => fail .identifierExpected

def anyName : Reader Node := do
  let start ← here
  match ← ahead with
  | .word name _ => advance; node (.identifier name) start []
  | _ => fail .identifierExpected

end Reader

/-- The recursive productions, and a bound on how often a list can go on. -/
structure Grammar where
  budget : Nat
  assignment : Reader Node
  operand : Reader Node
  leftHandSide : Reader Node
  constructed : Reader Node
  binding : Reader Node
  statement : Site → Reader Node
  type : Reader (List Node)
  unconditional : Reader (List Node)
  object : Reader Node
  decorators : Reader (List Node)
  /-- A class behind its keyword, given where it starts, its decorators, whether it must have a name,
  and its form. -/
  classTail : Nat → List Node → Bool → Form → Reader Node
  /-- An element whose first angle bracket is at the cursor, with the cursor behind its last. -/
  element : Cursor → Reader (Node × Cursor)

namespace Reader

def exhausted {α : Type} : Reader α := fail .tooDeep

def whileM {α : Type} (more : Reader Bool) (item : Reader α) : Nat → Reader (List α)
  | 0 => exhausted
  | fuel + 1 => do
    if ← more then
      let first ← item
      return first :: (← whileM more item fuel)
    return []

/-- Items with commas between them up to a closing mark; a comma may stand behind the last. Takes the
closing mark. -/
def listUntil {α : Type} (close : String) (item : Reader α) : Nat → Reader (List α)
  | 0 => exhausted
  | fuel + 1 => do
    if ← takeMark close then return []
    let first ← item
    if ← takeMark close then return [first]
    needMark ","
    return first :: (← listUntil close item fuel)

def listBefore {α : Type} (close : String) (item : Reader α) : Nat → Reader (List α)
  | 0 => exhausted
  | fuel + 1 => do
    if (← atMark close) || (← atEnd) then return []
    let first ← item
    if ← atMark close then return [first]
    needMark ","
    return first :: (← listBefore close item fuel)

end Reader
end ClassWeave
