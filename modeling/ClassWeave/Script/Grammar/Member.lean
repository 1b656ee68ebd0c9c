import ClassWeave.Script.Grammar.Annotation
/-!
# Members and calls

What may follow an operand directly: members, calls, templates, assertions and type arguments.
-/

namespace ClassWeave

def Node.isChain : Node → Bool
  | .mk (.other .optionalChain) _ _ => true
  | .mk (.other .optionalCall) _ _ => true
  | .mk (.other .nonNull) _ [inner] => inner.isChain
  | _ => false

namespace Reader

def spreadable (g : Grammar) : Reader Node := do
  let start ← here
  if ← takeMark "..." then
    let inner ← freshAssignment g
    return .mk .spread ⟨start, inner.span.stop⟩ [inner]
  freshAssignment g

def arguments (g : Grammar) : Reader (List Node) := do
  needMark "("
  listUntil ")" (spreadable g) g.budget

def callTail (g : Grammar) (target : Node) (types : List Node) : Reader Node := do
  let given ← arguments g
  let kind := if target.isChain then Shape.other .optionalCall else .call given.length
  node kind target.span.start (target :: given ++ types)

/-- A tagged template behind its tag and type arguments. The expressions in the type arguments are not
walked. -/
def tagged (g : Grammar) (target : Node) : Reader Node := do
  let (chunks, embedded) ← template g (freshExpression g) true
  node (.taggedTemplate chunks) target.span.start (target :: embedded)

def continuesExpression : Reader Bool := do
  let lexeme := (← place).ahead
  match lexeme.token with
  | .word name escaped =>
    return escaped || (name != "throw" && Token.openers.contains name) ||
      lexeme.token.isReference || name == "await" || name == "yield"
  | .mark text =>
    return ["<", "@", "#"].contains text || (lexeme.fault?.isNone && lexeme.token.startsExpression)
  | token => return token.startsExpression

def endsTypeArguments : Reader Bool := do
  let lexeme := (← place).ahead
  let token := lexeme.token
  if ["<", ">", "+", "-", "(", "\x60"].any token.isMark then return false
  if lexeme.onNewLine || token.binaryOperator?.isSome then return true
  return !(← continuesExpression)

/-- An operand with type arguments, if they are followed by what may follow them, or else the operand
alone. -/
def instantiated (g : Grammar) (target : Node) : Reader Node := do
  unless ← atMark "<" do return target
  let found ← attempt do
    let types ← loneTypeArguments g
    unless ← endsTypeArguments do failWanting "("
    return types
  match found with
  | some types => form .typed target.span.start (target :: types)
  | none => return target

/-- A step behind an operand that begins with type arguments; the second part tells whether another
step may follow. -/
def stepWithTypes (g : Grammar) (noCall : Bool) (target : Node) : Reader (Node × Bool) := do
  let types ← if noCall then loneTypeArguments g else typeArguments g
  if !noCall && (← atMark "(") then return (← callTail g target types, true)
  if ← atTemplate then return (← tagged g target, true)
  unless (← atMark "=") || (← atWord "as") || (← atWord "satisfies") do
    failUnexpected (if noCall then "\x60" else "( or \x60")
  return (← form .typed target.span.start (target :: types), false)

def refuseBare (noCall : Bool) (target : Node) : Reader Unit := do
  match target.shape with
  | .other .superKeyword => fail (if noCall then .bareSuperCall else .bareSuper)
  | .other .importKeyword => fail .bareImport
  | _ => return

def memberForm (optional computed : Bool) (target : Node) : Reader Form := do
  if target.shape == .other .superKeyword then
    if optional then failAt .bareSuper target.span.start
    return .superMember
  if optional || target.isChain then return .optionalChain
  return if computed then .index else .member

def indexTail (g : Grammar) (optional : Bool) (target : Node) : Reader Node := do
  let index ← inside ({ · with allowIn := true }) (commaExpression g)
  needMark "]"
  let member ← form (← memberForm optional true target) target.span.start [target, index]
  instantiated g member

def pointTail (g : Grammar) (optional : Bool) (target : Node) : Reader Node := do
  let name ← memberAfterPoint
  let member ← form (← memberForm optional false target) target.span.start [target, name]
  instantiated g member

def optionalStep (g : Grammar) (noIndex : Bool) (target : Node) : Reader Node := do
  advance
  advance
  if !noIndex && (← takeMark "[") then return ← indexTail g true target
  if (← atMark "(") || (← atMark "<") then
    let types ← if ← atMark "<" then typeArguments g else pure []
    let given ← arguments g
    return ← form .optionalCall target.span.start (target :: given ++ types)
  pointTail g true target

/-- One step behind an operand: a member, a call, a template, an assertion. The second part tells
whether another may follow. -/
def step (g : Grammar) (noCall noIndex : Bool) (target : Node) : Reader (Node × Bool) := do
  let keyword? := match target.shape with
    | .other .superKeyword => some "super"
    | .other .importKeyword => some "import"
    | _ => none
  if (← atMark "!") && !(← onNewLine) then
    advance
    if let some keyword := keyword? then fail (.assertedCallee keyword)
    return (← form .nonNull target.span.start [target], true)
  if keyword?.isNone && (← atTypeArguments) then
    if let some found ← attempt (stepWithTypes g noCall target) then return found
  if (← atMark "?") && (← second).token.isMark "." then
    return (← optionalStep g noIndex target, true)
  if !noIndex && (← takeMark "[") then return (← indexTail g false target, true)
  if !noCall && (← atMark "(") then return (← callTail g target [], true)
  if ← takeMark "." then return (← pointTail g false target, true)
  refuseBare noCall target
  if ← atTemplate then return (← tagged g target, true)
  return (target, false)

def steps (g : Grammar) (noCall noIndex : Bool) : Nat → Node → Reader Node
  | 0, _ => exhausted
  | fuel + 1, target => do
    let (found, goesOn) ← step g noCall noIndex target
    if goesOn then steps g noCall noIndex fuel found else return found

end Reader
end ClassWeave
