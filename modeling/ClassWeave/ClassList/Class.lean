import ClassWeave.Literal.TemplateText
import ClassWeave.Text.Blank
/-!
# Classes of a template

The blank characters in a template's static text cut it into classes. A class is a word of text, an
embedded expression, or several of them with nothing blank in between.
-/

namespace ClassWeave

variable {α : Type}

inductive Piece (α : Type) where
  | text (text : Text)
  | embedded (expression : α)
deriving DecidableEq, Repr

/-- A template that is being cut: the classes that are complete, and the pieces of the next. -/
structure Cutting (α : Type) where
  complete : List (List (Piece α))
  current : List (Piece α)

namespace Cutting

def close (cutting : Cutting α) : Cutting α :=
  if cutting.current.isEmpty then cutting else ⟨cutting.complete ++ [cutting.current], []⟩

def add (cutting : Cutting α) (piece : Piece α) : Cutting α :=
  { cutting with current := cutting.current ++ [piece] }

def addWord (cutting : Cutting α) (word : Text) : Cutting α :=
  if word.isEmpty then cutting else cutting.add (.text word)

/-- Adds static text: every blank character completes the class in progress. -/
def addText (cutting : Cutting α) (text : Text) : Cutting α :=
  match text.splitWhere Text.isBlank with
  | [] => cutting
  | first :: rest => rest.foldl (fun cutting word => cutting.close.addWord word) (cutting.addWord first)

def addAll : List Chunk → List α → Cutting α → Cutting α
  | [], _, cutting => cutting
  | chunk :: chunks, [], cutting => addAll chunks [] (cutting.addText chunk.value)
  | chunk :: chunks, expression :: rest, cutting =>
    addAll chunks rest ((cutting.addText chunk.value).add (.embedded expression))

end Cutting

def classes (chunks : List Chunk) (embedded : List α) : List (List (Piece α)) :=
  (Cutting.addAll chunks embedded ⟨[], []⟩).close.complete

end ClassWeave
