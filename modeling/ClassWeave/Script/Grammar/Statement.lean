import ClassWeave.Script.Grammar.Exchange
import ClassWeave.Script.Grammar.Expression
import ClassWeave.Script.Grammar.Loop
/-!
# Statements

Statements of all kinds, told apart by their first words.
-/

namespace ClassWeave.Reader

/-- A test and what is done if it holds; the second part tells whether the parenthesis behind the test
is there. Without it nothing else belongs to the statement. -/
def branchHead (g : Grammar) : Reader (List Node × Bool) := do
  let start ← here
  needMark "("
  let test ← freshExpression g
  if ← takeMark ")" then
    let consequent ← g.statement .single
    return ([test, consequent], true)
  let missing ← form .missing start []
  return ([test, ← node .expressionStatement start [missing]], false)

def otherwise (g : Grammar) : Nat → Reader (List Node)
  | 0 => exhausted
  | fuel + 1 => do
    unless ← takeWord "else" do return []
    let start ← here
    unless ← takeWord "if" do return [← g.statement .single]
    let (held, _) ← branchHead g
    let more ← otherwise g fuel
    return [← form .branch start (held ++ more)]

def branchStatement (g : Grammar) (start : Nat) : Reader Node := do
  let (held, whole) ← branchHead g
  let more ← if whole then otherwise g g.budget else pure []
  form .branch start (held ++ more)

def inCase : Reader Bool :=
  return !((← atWord "case") || (← atWord "default") || (← atMark "\x7d"))

def switchCases (g : Grammar) : Nat → Bool → Reader (List Node)
  | 0, _ => exhausted
  | fuel + 1, hasDefault => do
    let start ← here
    let isDefault ← atWord "default"
    unless isDefault || (← atWord "case") do return []
    advance
    if isDefault && hasDefault then fail .secondDefault
    let test ← if isDefault then pure [] else pure [← freshExpression g]
    needMark ":"
    let body ← whileM inCase (g.statement .listed) g.budget
    let first ← form .switchCase start (test ++ body)
    return first :: (← switchCases g fuel (hasDefault || isDefault))

def switchStatement (g : Grammar) (start : Nat) : Reader Node := do
  let subject ← condition g
  needMark "\x7b"
  let cases ← switchCases g g.budget false
  needMark "\x7d"
  form .switch start (subject :: cases)

def handler? (g : Grammar) : Reader (List Node) := do
  let start ← here
  unless ← takeWord "catch" do return []
  let parameter ← if ← takeMark "(" then
      let target ← g.binding
      let types ← annotation? g
      needMark ")"
      pure (target :: types)
    else pure []
  let inner ← block g
  return [← form .catchClause start (parameter ++ [inner])]

def finalBlock? (g : Grammar) : Reader (List Node) := do
  unless ← takeWord "finally" do return []
  return [← block g]

def tryStatement (g : Grammar) (start : Nat) : Reader Node := do
  let body ← block g
  let handler ← handler? g
  let final ← finalBlock? g
  form .tryBlock start (body :: handler ++ final)

/-- A handler without its `try` statement, which means nothing, faults in it included. -/
def strayHandler (g : Grammar) : Reader Node := do
  let lexeme := (← place).ahead
  let span : Span := ⟨lexeme.first, lexeme.stop.offset⟩
  let _ ← recovering (handler? g) fun _ => return []
  let _ ← recovering (finalBlock? g) fun _ => return []
  return .mk .expressionStatement span [.mk (.other .missing) span []]

def returnStatement (g : Grammar) (start : Nat) : Reader Node := do
  let value ← if ← atStatementEnd then pure [] else pure [← freshExpression g]
  endStatement
  form .return start value

def throwStatement (g : Grammar) (start : Nat) : Reader Node := do
  if ← onNewLine then fail .lineBreakInThrow
  let value ← freshExpression g
  endStatement
  form .throw start [value]

def jump (kind : Form) (start : Nat) : Reader Node := do
  if ← takeStatementEnd then return ← form kind start []
  let label ← identifier
  endStatement
  form kind start [label]

def withStatement (g : Grammar) (start : Nat) : Reader Node := do
  let subject ← condition g
  let body ← g.statement .single
  form .withBlock start [subject, body]

def controlStatement? (g : Grammar) (start : Nat) (name : String) : Reader (Option Node) := do
  let behind (tail : Reader Node) : Reader (Option Node) := do
    advance
    return some (← tail)
  match name with
  | "if" => behind (branchStatement g start)
  | "for" => behind (forLoop g start)
  | "while" => behind (whileLoop g start)
  | "do" => behind (doLoop g start)
  | "switch" => behind (switchStatement g start)
  | "try" => behind (tryStatement g start)
  | "catch" | "finally" => return some (← strayHandler g)
  | "throw" => behind (throwStatement g start)
  | "return" => behind (returnStatement g start)
  | "break" => behind (jump .break start)
  | "continue" => behind (jump .continue start)
  | "with" => behind (withStatement g start)
  | "debugger" => behind do
      endStatement
      form .debugger start []
  | _ => return none

def awaitedResource (g : Grammar) (start : Nat) : Reader Node := do
  advance
  if let some found ← resources? g start then return found
  let operand ← inside Surroundings.fresh (awaitTail g start)
  let whole ← inside Surroundings.fresh (operation g g.budget operand 0)
  let _ ← takeStatementEnd
  node .expressionStatement start [whole]

def declaration? (g : Grammar) (site : Site) (start : Nat) (decoration : List Node)
    (name : String) : Reader (Option Node) := do
  let next ← second
  let listed := site != .single
  match name with
  | "function" => return some (← functionDeclaration g true decoration)
  | "async" =>
    unless ← atAsyncFunction do return none
    return some (← functionDeclaration g true decoration)
  | "class" =>
    advance
    return some (← g.classTail start decoration true .classDeclaration)
  | "interface" | "enum" =>
    unless next.token.isAnyWord && !next.onNewLine do return none
    advance
    return some (← if name == "enum" then enumerationTail g start else interfaceTail g start)
  | "using" => if listed then resources? g start else return none
  | "await" =>
    unless listed && next.token.isWord "using" do return none
    return some (← awaitedResource g start)
  | _ =>
    unless listed || name == "var" do return none
    match ← variableKind? with
    | some kind =>
      advance
      return some (← variableTail g start kind)
    | none => return none

def labelled (g : Grammar) (label : Node) : Reader Node := do
  let inner ← if ← atWord "function" then functionDeclaration g true [] else g.statement .single
  form .label label.span.start [label, inner]

/-- An expression as a statement, or a label or declaration that begins like one. Behind an expression
on its line there may be an operator. -/
def expressionStatement (g : Grammar) (start : Nat) (decoration : List Node) : Reader Node := do
  let inner ← freshExpression g
  if let .identifier name := inner.shape then
    if ← takeMark ":" then return ← labelled g inner
    if let some found ← declarationBehind? g inner.span.start decoration name then return found
  if ← takeStatementEnd then return ← node .expressionStatement start [inner]
  unless (← ahead).isOperatorMark do fail .statementEndExpected
  let whole ← inside Surroundings.fresh (operation g g.budget inner 0)
  node .expressionStatement start [whole]

def plainStatement (g : Grammar) (site : Site) (start : Nat) (decoration : List Node) :
    Reader Node := do
  if let some found ← constantEnumeration? g start then return found
  match ← ahead with
  | .mark ";" => advance; form .empty start []
  | .mark "\x7b" => block g
  | .word name false =>
    if let some found ← controlStatement? g start name then return found
    if let some found ← declaration? g site start decoration name then return found
    expressionStatement g start decoration
  | _ => expressionStatement g start decoration

def importedExpression (g : Grammar) (start : Nat) : Reader Node := do
  let inner ← freshExpression g
  let _ ← takeStatementEnd
  node .expressionStatement start [inner]

def statementAt (g : Grammar) (site : Site) : Reader Node := do
  let start ← here
  let decoration ← g.decorators
  let inner ← here
  if ← atWord "import" then
    let next := (← second).token
    if next.isMark "(" || next.isMark "." then return ← importedExpression g inner
    unless site == .moduleItem do fail .exchangeOutsideModule
    advance
    return ← importDeclaration g inner
  if ← atWord "export" then
    unless site == .moduleItem do fail .exchangeOutsideModule
    return ← exportStatement g decoration
  plainStatement g site start decoration

end ClassWeave.Reader
