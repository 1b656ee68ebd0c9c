import ClassWeave.Script.Grammar.Function
import ClassWeave.Script.Grammar.Member
/-!
# Object literals

Properties, methods and accessors of object literals. What looks like an object literal may be a
pattern as well, so a name may have a default here.
-/

namespace ClassWeave

def Node.undecorated (parameter : Node) : List Node :=
  parameter.children.filter fun child => child.shape != .other .decorator

namespace Reader

def atParameters : Reader Bool := return (← atMark "(") || (← atMark "<")

def methodTail (g : Grammar) (kind : FunctionKind) (shape : Form) (start : Nat) (name : Node)
    (decoration : List Node) : Reader Node := do
  let parts ← functionParts g kind
  form shape start (name :: parts.children decoration)

def getterTail (g : Grammar) (start : Nat) : Reader Node := do
  let name ← propertyName g
  let parts ← functionParts g {}
  form .getter start (name :: parts.result ++ parts.body)

/-- A setter behind its word: of two or more parameters, the first is the type of `this`, and those
behind the second mean nothing. -/
def setterTail (g : Grammar) (start : Nat) : Reader Node := do
  let name ← propertyName g
  let parts ← functionParts g {}
  let given := (parts.parameters.take 2).flatMap Node.undecorated
  form .setter start (name :: given ++ parts.body)

def continuesProperty (named : Bool) : Reader Bool := do
  let token ← ahead
  return ["(", "[", ":", ",", "?", "=", "*", "<"].any token.isMark || token.isAnyWord ||
    token.isNumeral || token.isString || (named && token.isMark "\x7d")

def wordProperty (g : Grammar) (start : Nat) (name : Node) : Reader Node := do
  let _ ← takeMark "?"
  if ← takeMark "=" then
    let value ← freshAssignment g
    return ← node (.assignment "=") start [name, value]
  if (← atMark ",") || (← atMark "\x7d") then return ← form .shorthand start [name]
  match name.shape with
  | .identifier "get" => getterTail g start
  | .identifier "set" => setterTail g start
  | .identifier "async" =>
    let generator ← takeMark "*"
    let name ← propertyName g
    methodTail g { async := true, generator } .method start name []
  | _ =>
    failUnexpected ("... , *,  (, [, :, , ?, =, an identifier, public, protected, private, readonly, " ++
      "<.")

/-- A property of an object literal. One whose name nothing belongs to has no value. -/
def objectProperty (g : Grammar) : Reader Node := do
  let start ← here
  if ← takeMark "..." then
    let inner ← freshAssignment g
    return ← node .spread start [inner]
  if ← takeMark "*" then
    let name ← propertyName g
    return ← methodTail g { generator := true } .method start name []
  let _ ← takeFieldModifier
  let named := (← ahead).isAnyWord
  let name ← propertyName g
  unless ← continuesProperty named do
    return ← form .property start [name, .mk (.other .missing) ⟨start, ← lastEnd⟩ []]
  if ← takeMark ":" then
    let value ← freshAssignment g
    return ← form .property start [name, value]
  if ← atParameters then return ← methodTail g {} .method start name []
  unless named do failUnexpected "identifier"
  wordProperty g start name

def objectLiteral (g : Grammar) : Reader Node := do
  let start ← here
  needMark "\x7b"
  let items ← inside Surroundings.fresh (listUntil "\x7d" (objectProperty g) g.budget)
  form .object start items

end Reader
end ClassWeave
