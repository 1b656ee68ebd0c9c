import ClassWeave.Script.Grammar.Element
import ClassWeave.Script.Grammar.Statement
/-!
# Modules

A module is a text together with its tree. Spans of the tree count from behind a byte order mark, if
the text begins with one; `Module.textAt` reads them against the text as it was given.
-/

namespace ClassWeave

def Grammar.ofDepth (budget : Nat) : Nat → Grammar
  | 0 =>
    { budget
      assignment := Reader.exhausted
      operand := Reader.exhausted
      leftHandSide := Reader.exhausted
      constructed := Reader.exhausted
      binding := Reader.exhausted
      statement := fun _ => Reader.exhausted
      type := Reader.exhausted
      unconditional := Reader.exhausted
      object := Reader.exhausted
      decorators := Reader.exhausted
      classTail := fun _ _ _ _ => Reader.exhausted
      element := fun _ => Reader.exhausted }
  | depth + 1 =>
    { budget
      assignment := fun around place =>
        Reader.assignmentExpression (ofDepth budget depth) around place
      operand := fun around place => Reader.unaryExpression (ofDepth budget depth) around place
      leftHandSide := fun around place => Reader.leftHandSide (ofDepth budget depth) around place
      constructed := fun around place => Reader.constructedOperand (ofDepth budget depth) around place
      binding := fun around place => Reader.pattern (ofDepth budget depth) around place
      statement := fun site around place =>
        Reader.statementAt (ofDepth budget depth) site around place
      type := fun around place => Reader.anyType (ofDepth budget depth) around place
      unconditional := fun around place =>
        Reader.unconditionalType (ofDepth budget depth) around place
      object := fun around place => Reader.objectLiteral (ofDepth budget depth) around place
      decorators := fun around place => Reader.decoratorList (ofDepth budget depth) around place
      classTail := fun start decoration named kind around place =>
        Reader.classAfterKeyword (ofDepth budget depth) start decoration named kind around place
      element := fun cursor around place =>
        Reader.elementAt (ofDepth budget depth) cursor around place }

namespace Reader

def allStatements (g : Grammar) : Nat → Reader (List Node)
  | 0 => exhausted
  | fuel + 1 => do
    if ← atEnd then return []
    let first ← g.statement .moduleItem
    return first :: (← allStatements g fuel)

end Reader

structure Module where
  text : Text
  items : List Node

namespace Module

def byteOrderMark : Char := Char.ofNat 0xFEFF

def body (text : Text) : Text :=
  match text with
  | c :: rest => if c = byteOrderMark then rest else text
  | [] => []

def behindInterpreter (text : Text) : Cursor :=
  match text with
  | '#' :: '!' :: _ =>
    (⟨text, 0⟩ : Cursor).skip (text.takeWhile (fun c => !Escape.isLineEnd c)).length
  | _ => ⟨text, 0⟩

def holdsElements (fileName : String) : Bool :=
  ".tsx".toList.isSuffixOf fileName.toList || ".jsx".toList.isSuffixOf fileName.toList

def read (text : Text) (elements : Bool) : Except ScriptFault Module :=
  let start := behindInterpreter (body text)
  let depth := 8 * (start.rest.length + 8)
  let grammar := Grammar.ofDepth depth depth
  match Reader.allStatements grammar depth { elements }
    { ahead := Lexeme.next start, lastEnd := start.offset } with
  | .done items _ => .ok ⟨text, items⟩
  | .failed fault _ => .error fault

/-- The bytes of the given text that a span of the tree stands for. -/
def range (m : Module) (span : Span) : Span :=
  let length := m.text.byteLength
  ⟨min span.start length, min span.stop length⟩

def textAt (m : Module) (span : Span) : Text := m.text.slice (m.range span)

/-- The given text at a span of the tree, if it can be read there: behind a byte order mark the span
may split a character of it. -/
def textAt? (m : Module) (span : Span) : Option Text := m.text.slice? (m.range span)

def admits (m : Module) (span : Span) : Bool := (m.textAt? span).isSome

inductive ItemKind where
  | exchange
  | statement
deriving DecidableEq, Repr

def ItemKind.of (item : Node) : ItemKind :=
  match item.shape with
  | .importDeclaration _ => .exchange
  | .other form =>
    match form with
    | .importAlias | .exportDeclaration | .exportNames | .exportDefault | .exportAll
    | .exportAssignment | .exportNamespace => .exchange
    | _ => .statement
  | _ => .statement

end Module
end ClassWeave
