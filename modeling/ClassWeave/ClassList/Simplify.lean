import ClassWeave.ClassList.Render
import ClassWeave.Pass.Fixpoint
/-!
# Simplifying class lists

The rule that writes templates in class position anew. In class position are the templates that are
statements of their own, and from there on those that stand alone as a class or are the value of a
conditional that does.
-/

namespace ClassWeave

def inPosition? : List (Piece Node) → Option Node
  | [.embedded node] =>
    match node.unparenthesized with
    | .mk (.template _) _ _ => some node
    | .mk (.binary "&&") _ [_, right] => some right.unpadded
    | .mk .conditional _ [_, consequent, alternate] =>
      if alternate.isBlankString then some consequent.unpadded else none
    | _ => none
  | _ => none

/-- The templates in class position from an expression on, to a depth. -/
def classTemplates : Nat → Node → List Span
  | 0, _ => []
  | depth + 1, node =>
    match node.unparenthesized with
    | .mk (.template chunks) span inner =>
      span :: ((classes chunks inner).filterMap inPosition?).flatMap (classTemplates depth)
    | _ => []

def classTemplatesOf (item : Node) : List Span :=
  match item with
  | .mk .expressionStatement _ [inner] => classTemplates inner.height inner
  | _ => []

structure PickedTemplate where
  chunks : List Chunk
  inner : List Node

/-- The rule that writes templates in class position anew. -/
def simplifier : Rule (List Span) PickedTemplate PassFailure where
  initial := []
  seed pass _ := .ok (pass.module.items.flatMap classTemplatesOf)
  select _ state node :=
    match node with
    | .mk (.template chunks) span inner =>
      if state.contains span then some ⟨chunks, inner⟩ else none
    | _ => none
  replace pass _ picked := pass.reading (partSpans picked.chunks picked.inner)
    (some (render (parts pass picked.chunks picked.inner)))
  failure := id

def simplifyTemplate (code : Text) (file : Option String) (limit : Nat) :
    Except PassFailure Text :=
  (simplifier.run file limit code).outcome.map Fixpoint.code

end ClassWeave
