import ClassWeave.Helper.Transform
import ClassWeave.Proofs.Quoting
import ClassWeave.Proofs.Reading
import ClassWeave.Proofs.Words
/-!
# Trees of helper calls

Calls of helpers whose arguments are literals without expressions, or such calls again: how they are
written, what they come to, and what one pass makes of them.
-/

namespace ClassWeave

/-! ## Literals -/

inductive Leaf where
  | string (quote : Char) (body value : Text) : Lexeme.IsQuote quote →
      (∀ rest, Quoted.readBody quote (body ++ rest) = .ok (value, rest)) → Leaf
  | template (body raw value : Text) :
      (∀ rest, TemplateText.readChunk (body ++ rest) = ⟨⟨raw, some value⟩, none, .closed, rest⟩) → Leaf

namespace Leaf

def text : Leaf → Text
  | string quote body _ _ _ => quote :: body
  | template body _ _ _ => TemplateText.mark :: body

def value : Leaf → Text
  | string _ _ value _ _ => value
  | template _ _ value _ => value

def shape : Leaf → Shape
  | string _ _ value _ _ => .literal (.string value)
  | template _ raw value _ => .template [⟨raw, some value⟩]

/-- What a leaf shows as an argument: the text of a template with one space for all that stand together. -/
def shown : Leaf → Text
  | string _ _ value _ _ => value
  | template _ _ value _ => Text.joinWith [' '] value.words

def quoted (value : Text) : Leaf :=
  .string Quoted.mark (value.flatMap Quoted.encodeChar ++ [Quoted.mark]) value (.inl rfl) fun rest =>
    Quoted.readBody_encode value rest

@[simp] theorem text_quoted (value : Text) : (quoted value).text = Quoted.encode value := rfl

@[simp] theorem value_quoted (value : Text) : (quoted value).value = value := rfl

@[simp] theorem shown_quoted (value : Text) : (quoted value).shown = value := rfl

end Leaf

/-! ## Calls -/

structure Callee where
  name : String
  word : Lexeme.IsWord name.toList
  isVariable : Token.IsVariable name

structure Gap where
  text : Text
  between : Lexeme.Between text

/-- A literal or a call of a helper, with what stands around it. -/
inductive HelperTree where
  | leaf (lead : Gap) (leaf : Leaf) (trail : Gap)
  | call (lead : Gap) (helper : Helper) (callee : Callee) (behind : Gap)
      (given : List HelperTree) (trail : Gap)

namespace HelperTree

def lead : HelperTree → Gap
  | leaf lead _ _ => lead
  | call lead _ _ _ _ _ => lead

def trail : HelperTree → Gap
  | leaf _ _ trail => trail
  | call _ _ _ _ _ trail => trail

def isLeaf : HelperTree → Bool
  | .leaf _ _ _ => true
  | .call _ _ _ _ _ _ => false

mutual

def core : HelperTree → Text
  | .leaf _ literal _ => literal.text
  | .call _ _ callee behind given _ => callee.name.toList ++ (behind.text ++ '(' :: (list given ++ [')']))

def list : List HelperTree → Text
  | [] => []
  | [tree] => tree.lead.text ++ (core tree ++ tree.trail.text)
  | tree :: rest => tree.lead.text ++ (core tree ++ (tree.trail.text ++ ',' :: list rest))

end

def text (tree : HelperTree) : Text := tree.lead.text ++ (tree.core ++ tree.trail.text)

mutual

def value : HelperTree → Text
  | .leaf _ literal _ => literal.value
  | .call _ .tm _ _ given _ =>
    match values given with
    | [modifier, value] => Text.joinWith [' '] ((value.splitWhere (· == ' ')).map (modifier ++ ·))
    | _ => []
  | .call _ _ _ _ given _ => Text.joinWith [' '] ((shown given).filterMap nonBlank)

def values : List HelperTree → List Text
  | [] => []
  | tree :: rest => value tree :: values rest

def shown : List HelperTree → List Text
  | [] => []
  | .leaf _ literal _ :: rest => literal.shown :: shown rest
  | tree :: rest => value tree :: shown rest

end

mutual

def depth : HelperTree → Nat
  | .leaf _ _ _ => 0
  | .call _ _ _ _ given _ => depths given + 1

def depths : List HelperTree → Nat
  | [] => 0
  | tree :: rest => max (depth tree) (depths rest)

end

mutual

/-- Whether the names that are called stand for the helpers, and `tm` has two arguments. -/
def Names (aliases : Aliases) : HelperTree → Prop
  | .leaf _ _ _ => True
  | .call _ helper callee _ given _ => aliases.lookup callee.name = some helper ∧
      (helper = .tx ∨ (helper = .tm ∧ given.length = 2)) ∧ AllName aliases given

def AllName (aliases : Aliases) : List HelperTree → Prop
  | [] => True
  | tree :: rest => Names aliases tree ∧ AllName aliases rest

end

mutual

/-- A tree with every call of literals replaced by what it comes to. -/
def step : HelperTree → HelperTree
  | .leaf lead literal trail => .leaf lead literal trail
  | .call lead helper callee behind given trail =>
    if given.all isLeaf then .leaf lead (.quoted (value (.call lead helper callee behind given trail))) trail
    else .call lead helper callee behind (steps given) trail

def steps : List HelperTree → List HelperTree
  | [] => []
  | tree :: rest => step tree :: steps rest

end

end HelperTree
end ClassWeave
