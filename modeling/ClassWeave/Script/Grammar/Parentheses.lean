import ClassWeave.Script.Grammar.Function
import ClassWeave.Script.Grammar.Operation
/-!
# Parentheses and arrow functions

The head of an arrow function reads like an expression in parentheses until its arrow is seen; an
arrow function may begin only where an expression without commas begins. The children of an arrow
function are its parameters, its body, its type parameters, and the type of its result, which is one
node.
-/

namespace ClassWeave

inductive Enclosed where
  | expression (node : Node)
  | parameter (node : Node)

namespace Enclosed

def node : Enclosed → Node
  | expression node => node
  | parameter node => node

def isParameter : Enclosed → Bool
  | expression _ => false
  | parameter _ => true

def isBareName : Enclosed → Bool
  | expression (.mk .spread _ [.mk (.identifier _) _ _]) => true
  | expression (.mk (.identifier _) _ _) => true
  | parameter (.mk (.identifier _) _ _) => true
  | parameter (.mk (.other .typed) _ (.mk (.identifier _) _ _ :: _)) => true
  | _ => false

def asParameters : List Enclosed → Except ScriptFault (List Node)
  | [] => return []
  | [.expression (.mk .spread span [inner])] => do
    return [.mk (.other .rest) span [← inner.asPattern .binding]]
  | .expression (.mk .spread _ _) :: rest => asParameters rest
  | .expression node :: rest => do
    let first ← node.asPattern .binding
    return first :: (← asParameters rest)
  | [.parameter node] => return [node]
  | .parameter node :: rest => do
    let more ← asParameters rest
    return if node.shape == .other .rest then more else node :: more

end Enclosed

namespace Reader

def arrowTail (g : Grammar) (start : Nat) (async : Bool) (given generic result : List Node) :
    Reader Node := do
  let body ← arrowBody g async
  form .arrow start (given ++ body :: generic ++ [.mk (.other .types) ⟨start, start⟩ result])

def arrowFrom (g : Grammar) (start : Nat) (async : Bool) (items : List Enclosed)
    (result : List Node) : Reader Node := do
  needMark "=>"
  let given ← accept (Enclosed.asParameters items)
  arrowTail g start async given [] result

/-- A parameter out of an expression: what stands behind its question mark or at its colon. A type
behind a default means nothing. -/
def enclosedParameter (g : Grammar) (start : Nat) (item : Node) : Reader Node := do
  let whole ← match item with
    | .mk .spread _ [inner] =>
      pure (.mk (.other .rest) ⟨start, ← lastEnd⟩ [← accept (inner.asPattern .binding)])
    | _ => accept (item.asPattern .binding)
  if whole.shape == .other .missing then return whole
  let types ← annotation? g
  if whole.shape == .assignment "=" || types.isEmpty then return whole
  form .typed start (whole :: types)

def enclosed (g : Grammar) : Reader Enclosed := do
  let first ← here
  let _ ← takeFieldModifier
  let start ← here
  inside ({ · with arrowStart := some first, allowIn := true, colonAhead := false }) do
    let spreadsName := (← atMark "...") && (← second).token.isReference
    let item ← if spreadsName then
        advance
        let inner ← binaryExpression g
        pure (Node.mk .spread ⟨start, inner.span.stop⟩ [inner])
      else if (← ahead).isReference then
        assignTo g start (← binaryExpression g)
      else spreadable g
    let next := (← second).token
    let optional := (← atMark "?") && [",", ":", ")", "="].any next.isMark
    if optional then
      advance
      unless (Enclosed.expression item).isBareName do failAt .optionalPattern item.span.start
    if !optional && item.shape != .spread && (← atMark "?") then
      advance
      return .expression (← branches g start item)
    if optional || (← atMark ":") then
      let target ← enclosedParameter g start item
      if ← takeMark "=" then
        let value ← g.assignment
        return .parameter (.mk (.assignment "=") ⟨start, value.span.stop⟩ [target, value])
      return .parameter target
    return .expression item

/-- What stands in parentheses, the last first. A bare name at their begin may be followed by an
arrow: the arrow function of all that has been read is one more thing then. -/
def enclosedItems (g : Grammar) (start : Nat) : Nat → List Enclosed → Reader (List Enclosed)
  | 0, _ => exhausted
  | fuel + 1, before => do
    if (← atMark ")") || (← atEnd) then return before
    let item ← enclosed g
    let items := item :: before
    let items ← if ← takeMark "=>" then
        if items.getLast?.any Enclosed.isBareName then
          let given ← accept (Enclosed.asParameters items.reverse)
          let arrow ← arrowTail g start false given [] []
          pure (.expression arrow :: items)
        else pure items
      else pure items
    unless ← atMark ")" do needMark ","
    enclosedItems g start fuel items

/-- An arrow function in a branch of a conditional, where the colon of its result might be that of the
conditional. -/
def arrowInBranch (g : Grammar) (start : Nat) (async : Bool) (items : List Enclosed) :
    Reader Node := do
  let types ← returnType? g
  let arrow ← arrowFrom g start async items types
  if (← surroundings).colonAhead && !(← atMark ":") then failUnexpected "fail"
  return arrow

def arrowResult? (g : Grammar) : Reader (Option (List Node)) := do
  if (← surroundings).colonAhead || !(← atMark ":") then return none
  attempt do
    let types ← returnType? g
    unless ← atMark "=>" do failUnexpected "fail"
    return types

def grouped (start : Nat) (nodes : List Node) : Reader Node := do
  match nodes.find? (·.shape == .spread) with
  | some (.mk _ span inner) =>
    failAt .spreadInParentheses ((inner.head?.map (·.span.start)).getD span.start)
  | none =>
    match nodes with
    | [] => failAt .emptyParentheses start
    | [item] => node .parenthesized start [item]
    | first :: rest =>
      let last := rest.getLast?.getD first
      let inner := Node.mk (.other .sequence) ⟨first.span.start, last.span.stop⟩ nodes
      node .parenthesized start [inner]

/-- An arrow function. One with a block may be followed by an operator, and is its operand then. -/
def arrowOperand (g : Grammar) (start : Nat) (async : Bool) (items : List Enclosed)
    (types : List Node) (allowed : Bool) : Reader Node := do
  if ← onNewLine then failAt .lineBreakBeforeArrow start
  unless allowed do failAt .arrowNotAllowed start
  let arrow ← arrowFrom g start async items types
  let isBlock := arrow.children.any (·.shape == .other .block)
  if isBlock && (← ahead).isOperatorMark then operation g g.budget arrow 0 else return arrow

/-- An arrow function, a call of `async`, or an expression in parentheses; `start` is where it begins,
in front of `async` if that has been read. -/
def parenthesesOrArrow (g : Grammar) (start : Nat) (async? : Option Node) : Reader Node := do
  let around ← surroundings
  let allowed := around.arrowStart == some start
  needMark "("
  let items := (← enclosedItems g start g.budget []).reverse
  needMark ")"
  if around.inConditional && (← atMark ":") then
    if let some arrow ← attempt (arrowInBranch g start async?.isSome items) then return arrow
  let types? ← arrowResult? g
  if items.any Enclosed.isParameter || types?.isSome || (← atMark "=>") then
    return ← arrowOperand g start async?.isSome items (types?.getD []) allowed
  let nodes := items.map Enclosed.node
  match async? with
  | some callee => node (.call nodes.length) start (callee :: nodes)
  | none => grouped start nodes

end Reader
end ClassWeave
