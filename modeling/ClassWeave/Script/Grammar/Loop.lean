import ClassWeave.Script.Grammar.Declaration
/-!
# Loops

The heads of `for` loops: variables or an expression that take the items of something, or the three
parts of a loop that counts. The children of a loop are the parts of its head and then its body; of a
`do` loop its test and then its body.
-/

namespace ClassWeave.Reader

def condition (g : Grammar) : Reader Node := do
  needMark "("
  let test ← freshExpression g
  needMark ")"
  return test

def eachHead (g : Grammar) (target : Node) : Reader (Form × List Node) := do
  let overValues ← atWord "of"
  advance
  if overValues then return (.forOf, [target, ← freshAssignment g])
  return (.forIn, [target, ← freshExpression g])

def countingHead (g : Grammar) (first : List Node) : Reader (Form × List Node) := do
  let test ← if ← takeMark ";" then pure []
    else
      let test ← freshExpression g
      let _ ← takeMark ";"
      pure [test]
  let update ← if ← atMark ")" then pure [] else pure [← freshExpression g]
  return (.forLoop, first ++ test ++ update)

def atEach : Reader Bool := return (← atWord "of") || (← atWord "in")

def lacksVariables (g : Grammar) : Reader Bool := foresee do
  unless ← atEach do return false
  advance
  let _ ← g.assignment
  atMark ")"

def loopVariables (g : Grammar) (start : Nat) (kind : VariableKind) : Reader Node := do
  let declared ← if ← lacksVariables g then pure []
    else inside ({ · with allowIn := kind != .plain }) (declarators g kind true g.budget)
  form .variable start declared

/-- Whether an expression consists of words that may declare a resource. -/
def declaresResource : Node → Bool
  | .mk (.other .await) _ [inner] => inner.shape == .identifier "using"
  | node => node.shape == .identifier "using"

def expressionHead (g : Grammar) : Reader (Form × List Node) := do
  let start ← here
  let first ← inside ({ · with allowIn := false }) (commaExpression g)
  let next := (← second).token
  if declaresResource first && !(← atWord "of") && (next.isWord "of" || next.isWord "in") then
    let name ← identifier
    let declared ← form .declarator start [name]
    return ← eachHead g (← form .variable start [declared])
  if ← atEach then
    let target ← if first.shape.isComposite then accept (first.asTarget "=") else pure first
    return ← eachHead g target
  needMark ";"
  countingHead g [first]

def loopHead (g : Grammar) : Reader (Form × List Node) := do
  let start ← here
  match ← variableKind? with
  | some kind =>
    advance
    let declared ← loopVariables g start kind
    if ← atEach then return ← eachHead g declared
    needMark ";"
    countingHead g [declared]
  | none =>
    if ← takeMark ";" then countingHead g [] else expressionHead g

def forLoop (g : Grammar) (start : Nat) : Reader Node := do
  let offset ← here
  let awaits ← takeWord "await"
  needMark "("
  let (kind, held) ← inside (fun around => { around.fresh with loopHead := true }) (loopHead g)
  needMark ")"
  let body ← g.statement .single
  if awaits && kind != .forOf then failAt .awaitLoop offset
  form kind start (held ++ [body])

def whileLoop (g : Grammar) (start : Nat) : Reader Node := do
  let test ← condition g
  let body ← g.statement .single
  form .whileLoop start [test, body]

def doLoop (g : Grammar) (start : Nat) : Reader Node := do
  let body ← g.statement .single
  needWord "while"
  let test ← condition g
  let _ ← takeStatementEnd
  form .doWhile start [test, body]

end ClassWeave.Reader
