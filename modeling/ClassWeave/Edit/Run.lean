import ClassWeave.Text.Position
/-!
# Runs

One pass over a text leaves a record: the stretches of the input in order, each with the place where
it landed in the output. Copied text has one run for every piece of a line, an edit one for its whole
range.
-/

namespace ClassWeave

inductive RunKind where
  | unedited
  | replaced
  | deleted
deriving DecidableEq, Repr

/-- A stretch of the input and where it landed. -/
structure Run where
  kind : RunKind
  generated : Position
  start : Position
  stop : Position
deriving DecidableEq, Repr

def Run.contains (run : Run) (position : Position) : Bool :=
  run.start ≤ position && position < run.stop

structure Record where
  index : Nat
  runs : List Run
deriving DecidableEq, Repr

/-- The run that covers a position of the input: the last that starts there or before, if it reaches
that far. -/
def Record.runAt (record : Record) (position : Position) : Option Run :=
  (record.runs.takeWhile (·.start ≤ position)).getLast?.filter (·.contains position)

def Record.indexAt (record : Record) (position : Position) : Option Nat :=
  (record.runAt position).map fun _ => (record.runs.takeWhile (·.start ≤ position)).length - 1

end ClassWeave
