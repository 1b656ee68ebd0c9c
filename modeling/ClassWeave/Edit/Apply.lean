import ClassWeave.Edit.Run
import ClassWeave.Sorting
import ClassWeave.Text.Blank
/-!
# Edits

An edit replaces or deletes a byte range. `Edit.applyAll` applies the edits of one pass and records
where everything went; it refuses edits that overlap, run backwards, leave the text or split a
character.
-/

namespace ClassWeave

/-- Replaces the bytes of a span, or deletes them. -/
structure Edit where
  span : Span
  replacement : Option Text
deriving DecidableEq, Repr

def Edit.text (edit : Edit) : Text := edit.replacement.getD []

inductive EditFault where
  | overlap
  | backwards
  /-- An edit, or what is read for it, starts or ends inside a character or behind the text. -/
  | misplaced
deriving DecidableEq, Repr

structure Progress where
  generated : Position
  input : Position
deriving DecidableEq, Repr

namespace Progress

def copy (at' : Progress) (text : Text) : Progress :=
  ⟨at'.generated.after text, at'.input.after text⟩

def pieceRuns (at' : Progress) (piece : Text) : List Run :=
  if piece.isEmpty then []
  else [⟨.unedited, at'.generated, at'.input, at'.input.after piece⟩]

def lineRuns : Progress → List Text → List Run
  | _, [] => []
  | at', piece :: pieces =>
    let at' := at'.copy ['\n']
    pieceRuns at' piece ++ lineRuns (at'.copy piece) pieces

def copyRuns (at' : Progress) (text : Text) : List Run :=
  match text.splitWhere (· == '\n') with
  | [] => []
  | piece :: pieces => pieceRuns at' piece ++ lineRuns (at'.copy piece) pieces

def edit (at' : Progress) (removed written : Text) : Progress :=
  ⟨at'.generated.after written, at'.input.after removed⟩

def editRun (at' : Progress) (removed written : Text) : Run :=
  ⟨if written.isEmpty then .deleted else .replaced, at'.generated, at'.input,
    at'.input.after removed⟩

end Progress

namespace Edit

/-- Applies edits in order to what is left of a text from byte `cursor` on: the output and its runs. -/
def applyFrom : Nat → Progress → Text → List Edit → Except EditFault (Text × List Run)
  | _, at', rest, [] => .ok (rest, at'.copyRuns rest)
  | cursor, at', rest, edit :: edits =>
    if edit.span.start < cursor then .error .overlap
    else if edit.span.stop < edit.span.start then .error .backwards
    else match rest.cut (edit.span.start - cursor) with
      | none => .error .misplaced
      | some (kept, rest) =>
        match rest.cut (edit.span.stop - edit.span.start) with
        | none => .error .misplaced
        | some (removed, rest) =>
          let before := at'.copy kept
          match applyFrom edit.span.stop (before.edit removed edit.text) rest edits with
          | .error fault => .error fault
          | .ok (output, runs) =>
            .ok (kept ++ edit.text ++ output,
              at'.copyRuns kept ++ before.editRun removed edit.text :: runs)

def inOrder (edits : List Edit) : List Edit :=
  Sorting.sort (fun a b => a.span.start ≤ b.span.start) edits

def applyAll (index : Nat) (text : Text) (edits : List Edit) : Except EditFault (Text × Record) :=
  match applyFrom 0 ⟨Position.origin, Position.origin⟩ text (inOrder edits) with
  | .error fault => .error fault
  | .ok (output, runs) => .ok (output, ⟨index, runs⟩)

end Edit
end ClassWeave
