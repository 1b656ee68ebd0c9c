import ClassWeave.Script.Grammar.Primary
/-!
# Expressions

Operands with what follows them, the operators in front of them, and expressions without commas.
-/

namespace ClassWeave

/-- The offset of an optional chain that cannot be constructed, if an expression is one or a member of
one. -/
def Node.chainStart? : Node → Option Nat
  | .mk (.other .optionalChain) span _ => some span.start
  | .mk (.other .optionalCall) span _ => some span.start
  | .mk (.other .member) _ (.mk (.other .optionalChain) span _ :: _) => some span.start
  | .mk (.other .member) _ (.mk (.other .optionalCall) span _ :: _) => some span.start
  | _ => none

namespace Reader

def importTail (g : Grammar) (start : Nat) (noCall : Bool) : Reader Node := do
  if ← takeMark "." then
    let name ← anyName
    if name.shape == .identifier "meta" then
      let whole ← form .metaProperty start []
      return ← steps g noCall false g.budget whole
    unless name.shape == .identifier "defer" || name.shape == .identifier "source" do
      failUnexpected "meta"
  let callee ← form .importKeyword start []
  steps g noCall false g.budget callee

def callTypes? (g : Grammar) : Reader (Option (List Node)) := do
  unless ← atTypeArguments do return none
  attempt do
    let types ← typeArguments g
    unless ← atMark "(" do failWanting "("
    return types

/-- What is constructed behind `new`; the second part tells whether it has arguments. -/
def construction (g : Grammar) (start : Nat) : Reader (Node × Bool) := do
  if ← takeMark "." then
    unless ← takeWord "target" do failUnexpected "target"
    let whole ← form .metaProperty start []
    return (← steps g true false g.budget whole, true)
  let callee ← g.constructed
  if let some offset := callee.chainStart? then failAt .constructedChain offset
  let types := (← callTypes? g).getD []
  if ← atMark "(" then
    let given ← arguments g
    let whole ← form .construct start (callee :: given ++ types)
    return (← steps g true false g.budget whole, true)
  return (← form .construct start (callee :: types), false)

def memberExpression (g : Grammar) : Reader (Node × Bool) := do
  let start ← here
  if ← takeWord "new" then return ← construction g start
  if ← takeWord "super" then
    let target ← form .superKeyword start []
    return (← steps g true false g.budget target, true)
  if ← takeWord "import" then return (← importTail g start true, true)
  let target ← primary g
  if target.isArrow then return (target, true)
  let target ← instantiated g target
  return (← steps g true false g.budget target, true)

def constructedOperand (g : Grammar) : Reader Node := return (← memberExpression g).1

def atElement : Reader Bool := do
  unless (← surroundings).elements && (← atMark "<") do return false
  let next := (← second).token
  return next.isAnyWord || next.isMark ">"

def leftHandSide (g : Grammar) : Reader Node := do
  let start ← here
  if ← atElement then
    let (found, stop) ← g.element (← place).ahead.start
    resume stop
    return found
  if ← takeWord "super" then
    let target ← form .superKeyword start []
    return ← steps g false false g.budget target
  if ← takeWord "import" then return ← importTail g start false
  let (target, complete) ← memberExpression g
  if target.isArrow || !complete then return target
  let types := (← callTypes? g).getD []
  unless ← atMark "(" do return target
  let call ← callTail g target types
  steps g false false g.budget call

/-- An operand of an operator in front of it. A malformed one is passed over. -/
def prefixed (g : Grammar) : Reader Node := do
  let start ← here
  recovering g.operand fun _ => return .mk (.other .missing) ⟨start - 1, start - 1⟩ []

def angleAssertion (g : Grammar) (start : Nat) : Reader Node := do
  advance
  if ← takeWord "const" then
    needMark ">"
    let inner ← g.operand
    return ← form .constant start [inner]
  let types ← g.unconditional
  needAngle
  let inner ← g.operand
  form .typed start (inner :: types)

/-- What is awaited. Outside asynchronous functions the word may stand alone. -/
def awaitTail (g : Grammar) (start : Nat) : Reader Node := do
  if ← atMark "*" then fail .awaitStar
  let bare := (← atStatementEnd) || (← atMark ")") || (← atMark "]") || (← atMark ",")
  if bare && !(← surroundings).async then return ← node (.identifier "await") start []
  let inner ← g.operand
  form .await start [inner]

def postfixed (g : Grammar) (start : Nat) : Reader Node := do
  let operand ← leftHandSide g
  if operand.isArrow || (← onNewLine) then return operand
  match ← ahead with
  | .mark text =>
    if text == "++" || text == "--" then
      advance
      return ← form (.update text) start [operand]
    return operand
  | _ => return operand

def unaryExpression (g : Grammar) : Reader Node := do
  let start ← here
  match ← ahead with
  | .mark text =>
    if text == "<" && !(← surroundings).elements then return ← angleAssertion g start
    if text == "++" || text == "--" then
      advance
      let inner ← g.operand
      return .mk (.other (.update text)) ⟨start, inner.span.stop⟩ [inner]
    if ["+", "-", "~", "!"].contains text then
      advance
      let inner ← prefixed g
      return .mk (.other (.unary text)) ⟨start, inner.span.stop⟩ [inner]
  | .word name false =>
    if ["delete", "void", "typeof"].contains name then
      advance
      let inner ← prefixed g
      return .mk (.other (.unary name)) ⟨start, inner.span.stop⟩ [inner]
    if name == "await" then
      advance
      return ← awaitTail g start
  | _ => pure ()
  postfixed g start

def yieldExpression (g : Grammar) : Reader Node := do
  let start ← here
  advance
  if (← surroundings).parameters then failAt .yieldInParameters start
  let token ← ahead
  let continues := token.startsExpression || ["<", "*", "/", "/="].any token.isMark
  if (← atStatementEnd) || !continues then return ← form .yield start []
  let _ ← takeMark "*"
  let inner ← g.assignment
  form .yield start [inner]

def plainAssignment (g : Grammar) : Reader Node := do
  if (← surroundings).generator && (← atWord "yield") then return ← yieldExpression g
  refuseMalformed
  let start ← here
  let token ← ahead
  let opens := (token.isName && !token.isWord "await") || token.isMark "("
  let arrowStart := if opens then some start else none
  let target ← inside ({ · with arrowStart }) (conditionalExpression g)
  match target.shape with
  | .conditional | .binary _ | .other (.unary _) | .other (.update _) | .other .arrow => return target
  | _ => assignTo g start target

def genericArrow (g : Grammar) : Reader Node := do
  let start ← here
  let generic ← typeParameters g
  match ← inside ({ · with colonAhead := false }) (plainAssignment g) with
  | .mk (.other .arrow) span children =>
    let (front, result) := children.splitAt (children.length - 1)
    return .mk (.other .arrow) ⟨start, span.stop⟩ (front ++ generic ++ result)
  | _ => failUnexpected "("

/-- Whether the opening angle bracket ahead, where elements are allowed, may be that of type
parameters: the first of them has a bound, a default, or another behind it. -/
def startsTypeParameters : Reader Bool := foresee do
  advance
  let _ ← takeWord "const"
  let _ ← anyName
  return (← atMark ",") || (← atMark "=") || (← atWord "extends")

/-- An expression without commas. Where elements are allowed, an opening angle bracket is first taken
for that of an element. -/
def assignmentExpression (g : Grammar) : Reader Node := do
  unless (← atMark "<") && (← second).token.isAnyWord do return ← plainAssignment g
  if (← surroundings).elements then
    if ← startsTypeParameters then orElse (plainAssignment g) (genericArrow g)
    else plainAssignment g
  else
    if let some found ← attempt (genericArrow g) then return found
    plainAssignment g

def decorator (g : Grammar) : Reader Node := do
  let start ← here
  advance
  let target ← if ← takeMark "(" then
      let inner ← freshExpression g
      needMark ")"
      pure inner
    else
      let name ← identifier
      steps g false true g.budget name
  let typed ← atMark "<"
  if typed then
    let _ ← typeArguments g
  unless typed || (← atMark "(") do return ← form .decorator start [target]
  let given ← arguments g
  let call ← node (.call given.length) target.span.start (target :: given)
  form .decorator start [call]

def decoratorList (g : Grammar) : Reader (List Node) :=
  whileM (atMark "@") (decorator g) g.budget

end Reader
end ClassWeave
