import ClassWeave.Script.Grammar.Member
import ClassWeave.Script.Pattern
/-!
# Operators

Operators between operands by how tightly they bind, assignments and conditionals.
-/

namespace ClassWeave

def Node.isArrow (node : Node) : Bool := node.shape == .other .arrow

namespace Reader

def accept {α : Type} : Except ScriptFault α → Reader α
  | .ok value => return value
  | .error fault => raise fault

def assignTo (g : Grammar) (start : Nat) (target : Node) : Reader Node := do
  match ← ahead with
  | .mark operator =>
    unless Token.assignmentOperators.contains operator do return target
    let target ← accept (target.asTarget operator)
    advance
    let value ← g.assignment
    return .mk (.assignment operator) ⟨start, value.span.stop⟩ [target, value]
  | _ => return target

/-- A type behind `as` or `satisfies`. Behind `as` there may be `const`, which no target can have. -/
def assertion (g : Grammar) (left : Node) : Reader Node := do
  let start := left.span.start
  let named ← atWord "as"
  advance
  if named && (← atWord "const") then
    advance
    return ← form .constant start [left]
  let types ← g.type
  form .typed start (left :: types)

/-- Operators and operands behind an operand, as long as they bind more tightly than `minimum`. -/
def operation (g : Grammar) : Nat → Node → Nat → Reader Node
  | 0, _, _ => exhausted
  | fuel + 1, left, minimum => do
    let asserts := (← atWord "as") || (← atWord "satisfies")
    if minimum < 7 && asserts && !(← onNewLine) then
      return ← operation g fuel (← assertion g left) minimum
    refuseMalformed
    match (← ahead).binaryOperator? with
    | none => return left
    | some (operator, strength) =>
      if operator == "in" && !(← surroundings).allowIn then return left
      if strength ≤ minimum then return left
      advance
      let operand ← g.operand
      let right ← operation g fuel operand (if operator == "**" then strength - 1 else strength)
      let whole := Node.mk (.binary operator) ⟨left.span.start, right.span.stop⟩ [left, right]
      operation g fuel whole minimum

def firstOperand (g : Grammar) : Reader Node :=
  recovering g.operand fun fault => do
    let token ← ahead
    let joins := token.isOperatorMark || token.isWord "instanceof" ||
      (token.isWord "in" && (← surroundings).allowIn)
    if joins then return .mk (.other .missing) ⟨fault.offset, fault.offset⟩ []
    refuseMalformed
    raise fault

def binaryExpression (g : Grammar) : Reader Node := do
  let left ← firstOperand g
  if left.isArrow then return left
  operation g g.budget left 0

def branches (g : Grammar) (start : Nat) (test : Node) : Reader Node := do
  let consequent ← inside
    ({ · with inConditional := true, colonAhead := true, allowIn := true }) g.assignment
  needMark ":"
  let alternate ← inside ({ · with inConditional := true, colonAhead := false }) g.assignment
  return .mk .conditional ⟨start, alternate.span.stop⟩ [test, consequent, alternate]

def conditionalExpression (g : Grammar) : Reader Node := do
  let start ← here
  let test ← binaryExpression g
  if test.isArrow then return test
  if ← takeMark "?" then branches g start test else return test

end Reader
end ClassWeave
