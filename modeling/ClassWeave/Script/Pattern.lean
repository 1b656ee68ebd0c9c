import ClassWeave.Script.Fault
import ClassWeave.Script.Node
/-!
# Patterns out of expressions

What stands in front of an arrow or an equals sign is read as an expression first, and only then
found to be a pattern. `Node.asPattern` makes the pattern; a part that no pattern can hold is left out,
with everything inside it.
-/

namespace ClassWeave

inductive PatternUse where
  | binding
  | assignment
deriving DecidableEq, Repr

def Shape.isInnerTarget : Shape → Bool
  | .literal _ | .template _ | .parenthesized | .call _ => true
  | .other form =>
    match form with
    | .member | .index | .superMember | .construct | .function | .classExpression | .typed
    | .nonNull => true
    | _ => false
  | _ => false

def Shape.isComposite : Shape → Bool
  | .other .array | .other .object => true
  | _ => false

namespace Node

def erased (node : Node) : Node := .mk (.other .missing) node.span []

def asRest (use : PatternUse) (node pattern : Node) : Node :=
  match use, node.shape with
  | .assignment, _ => pattern
  | .binding, .identifier _ => pattern
  | .binding, _ => node.erased

mutual

def asPattern (use : PatternUse) : Node → Except ScriptFault Node
  | .mk (.other .array) span items => do
    return .mk (.other .array) span (← asElements use items)
  | .mk (.other .object) span items => do
    return .mk (.other .object) span (← asProperties use items)
  | .mk (.assignment "=") span [left, right] => do
    if left.shape.isComposite then return .mk (.assignment "=") span [left, right]
    return .mk (.assignment "=") span [← asPattern use left, right]
  | .mk (.identifier name) span children => return .mk (.identifier name) span children
  | .mk shape span children =>
    let node := Node.mk shape span children
    if use == .assignment && shape.isInnerTarget then return node else return node.erased

def asElements (use : PatternUse) : List Node → Except ScriptFault (List Node)
  | [] => return []
  | .mk .spread span [inner] :: rest => do
    if rest.isEmpty then return [.mk (.other .rest) span [← asPattern use inner]]
    asElements use rest
  | item :: rest => do
    let first ← asPattern use item
    return first :: (← asElements use rest)

def asProperties (use : PatternUse) : List Node → Except ScriptFault (List Node)
  | [] => return []
  | .mk (.other .property) span [name, value] :: rest => do
    let first := Node.mk (.other .property) span [name, ← asPattern use value]
    return first :: (← asProperties use rest)
  | .mk .spread span [inner] :: rest => do
    let first := Node.mk (.other .rest) span [inner.asRest use (← asPattern use inner)]
    return first :: (← asProperties use rest)
  | .mk (.other .method) span children :: _ =>
    throw ⟨.notPattern, (children.head?.map (·.span.start)).getD span.start⟩
  | .mk (.other .getter) span _ :: _ => throw ⟨.notPattern, span.start⟩
  | .mk (.other .setter) span _ :: _ => throw ⟨.notPattern, span.start⟩
  | item :: rest => do return item :: (← asProperties use rest)

end

def isAssignable (node : Node) : Bool :=
  match node.shape with
  | .identifier _ | .parenthesized => true
  | .other form =>
    match form with
    | .member | .index | .superMember | .optionalChain | .optionalCall | .typed | .nonNull
    | .missing => true
    | _ => false
  | _ => false

/-- What an expression in front of an assignment operator assigns to. Only `=` takes a pattern. -/
def asTarget (operator : String) (node : Node) : Except ScriptFault Node :=
  if node.shape.isComposite && operator == "=" then asPattern .assignment node
  else if node.isAssignable then return node
  else throw ⟨.notTarget, node.span.start⟩

end Node
end ClassWeave
