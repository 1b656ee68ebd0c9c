import ClassWeave.ClassList.Class
import ClassWeave.ClassList.Padding
import ClassWeave.Pass.Rule
/-!
# Parts of a class list

A class becomes one part of a list: text, source of another template, an embedded expression, or a
conditional. Classes of several pieces keep their exact value.
-/

namespace ClassWeave

inductive Branch where
  | text (text : Text)
  | expression (source : Text)
deriving DecidableEq, Repr

inductive Part where
  | text (text : Text)
  | splice (source : Text)
  | embed (source : Text)
  | conditional (test : Text) (value : Branch)
deriving DecidableEq, Repr

def Part.isConditional : Part → Bool
  | .conditional _ _ => true
  | _ => false

def nonBlank (text : Text) : Option Text := if text.trim.isEmpty then none else some text.trim

def templateBody (source : Text) : Text :=
  match source with
  | first :: rest =>
    if first.utf8Size = 1 && (rest.getLast?.map Char.utf8Size) == some 1 then rest.dropLast else []
  | [] => []

def embedded (source : Text) : Text := '$' :: '{' :: source ++ ['}']

variable (pass : Pass)

def operandSource (node : Node) : Text :=
  let source := pass.textAt node.span
  if node.isOperand then source else '(' :: source ++ [')']

def testSource (node : Node) : Text :=
  let source := pass.textAt node.span
  if node.isLooseTest then '(' :: source ++ [')'] else source

def conditionalPart (test value : Node) : Part :=
  let value := value.unpadded
  let branch := match value.constantText? with
    | some text => Branch.text text.trim
    | none => .expression (operandSource pass value)
  .conditional (testSource pass test) branch

def aloneParts (node : Node) : Option Part :=
  match node.constantText? with
  | some text => (nonBlank text).map Part.text
  | none =>
    match node.unparenthesized with
    | .mk (.template _) span _ => some (.splice (templateBody (pass.textAt span)))
    | .mk (.binary "&&") _ [left, right] => some (conditionalPart pass left right)
    | .mk .conditional _ [test, consequent, alternate] =>
      if alternate.isBlankString then some (conditionalPart pass test consequent)
      else some (.embed (pass.textAt node.span))
    | _ => some (.embed (pass.textAt node.span))

/-- A class of several pieces that is being put together: its text as long as it is constant, and its
source. -/
structure Glued where
  plain : Option Text
  source : Text

def Glued.addText (glued : Glued) (text : Text) : Glued :=
  ⟨glued.plain.map (· ++ text), glued.source ++ TemplateText.escape text⟩

def Glued.addPiece (glued : Glued) : Piece Node → Glued
  | .text text => glued.addText text
  | .embedded node =>
    match node.constantText? with
    | some text => glued.addText text
    | none =>
      match node.unparenthesized with
      | .mk (.template _) span _ => ⟨none, glued.source ++ templateBody (pass.textAt span)⟩
      | .mk _ span _ => ⟨none, glued.source ++ embedded (pass.textAt span)⟩

def gluedPart (pieces : List (Piece Node)) : Option Part :=
  let glued := pieces.foldl (Glued.addPiece pass) ⟨some [], []⟩
  match glued.plain with
  | some plain => (nonBlank plain).map Part.text
  | none => some (.splice glued.source)

/-- The part of a class; none if it is blank. -/
def partOf : List (Piece Node) → Option Part
  | [.text text] => some (.text text)
  | [.embedded node] => aloneParts pass node
  | pieces => gluedPart pass pieces

def parts (chunks : List Chunk) (inner : List Node) : List Part :=
  (classes chunks inner).filterMap (partOf pass)

/-! ### Where parts are read -/

def conditionalSpans (test value : Node) : List Span :=
  test.span :: if value.unpadded.constantText?.isSome then [] else [value.unpadded.span]

def aloneSpans (node : Node) : List Span :=
  match node.constantText? with
  | some _ => []
  | none =>
    match node.unparenthesized with
    | .mk (.template _) span _ => [span]
    | .mk (.binary "&&") _ [left, right] => conditionalSpans left right
    | .mk .conditional _ [test, consequent, alternate] =>
      if alternate.isBlankString then conditionalSpans test consequent else [node.span]
    | _ => [node.span]

def Piece.spans : Piece Node → List Span
  | .text _ => []
  | .embedded node => if node.constantText?.isSome then [] else [node.unparenthesized.span]

def spansOf : List (Piece Node) → List Span
  | [.text _] => []
  | [.embedded node] => aloneSpans node
  | pieces => pieces.flatMap Piece.spans

def partSpans (chunks : List Chunk) (inner : List Node) : List Span :=
  (classes chunks inner).flatMap spansOf

end ClassWeave
