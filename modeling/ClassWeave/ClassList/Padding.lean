import ClassWeave.Number.Shortest
import ClassWeave.Script.Node
import ClassWeave.Text.Blank
/-!
# Literals and padding

What a literal contributes to a text, and the `" " + … + " "` around the value of a conditional.
-/

namespace ClassWeave

def Literal.text? : Literal → Option Text
  | .string value => some value
  | .number value => some value.text
  | .bigInteger value => some (Nat.toDigits 10 value)
  | .boolean true => some "true".toList
  | .boolean false => some "false".toList
  | .null => some "null".toList
  | .pattern => none

def staticText (chunks : List Chunk) : Text := (chunks.head?.map Chunk.value).getD []

namespace Node

def constantText? (node : Node) : Option Text :=
  match node.unparenthesized with
  | .mk (.literal value) _ _ => value.text?
  | .mk (.template chunks) _ [] => some (staticText chunks)
  | _ => none

def isStringAmong (node : Node) (values : List Text) : Bool :=
  match node.unparenthesized with
  | .mk (.literal (.string value)) _ _ => values.contains value
  | _ => false

def isBlankString (node : Node) : Bool := node.isStringAmong [[], [' ']]

def withoutTrail (node : Node) : Node :=
  match node with
  | .mk (.binary "+") _ [left, right] => if right.isStringAmong [[' ']] then left else node
  | _ => node

def withoutLead (node : Node) : Node :=
  match node with
  | .mk (.binary "+") _ [left, right] => if left.isStringAmong [[' ']] then right else node
  | _ => node

def unpadded (node : Node) : Node := node.unparenthesized.withoutTrail.withoutLead

def isOperand (node : Node) : Bool :=
  match node.shape with
  | .identifier _ | .literal _ | .template _ | .taggedTemplate _ | .parenthesized | .call _ =>
    true
  | .other form =>
    match form with
    | .member | .index | .superMember | .array | .object | .this | .optionalChain | .optionalCall
    | .nonNull => true
    | _ => false
  | _ => false

/-- Whether an expression cannot stand in front of a question mark as it is. -/
def isLooseTest (node : Node) : Bool :=
  match node.shape with
  | .conditional | .assignment _ => true
  | .other form =>
    match form with
    | .sequence | .arrow | .yield => true
    | _ => false
  | _ => false

end Node
end ClassWeave
