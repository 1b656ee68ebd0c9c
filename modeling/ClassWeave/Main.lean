import ClassWeave.CommandLine.Plan
/-!
# The command line

Reads the input, and performs what is planned for it.
-/

namespace ClassWeave

def FileFault.ofError : IO.Error → FileFault
  | .noFileOrDirectory .. => .missing
  | error => .other (toString error)

def Action.perform : Action → IO Unit
  | write file content => IO.FS.writeFile file (String.ofList content)
  | print content => IO.print (String.ofList content)
  | note message => IO.eprint message

def readInput (file : String) : IO (Except FileFault String) := do
  try return .ok (← IO.FS.readFile file)
  catch error => return .error (.ofError error)

end ClassWeave

open ClassWeave in
def main (arguments : List String) : IO UInt32 := do
  match Invocation.ofArguments arguments with
  | none =>
    IO.eprint Invocation.usage
    return 2
  | some invocation =>
    let plan := invocation.plan (← readInput invocation.input)
    try
      for action in plan.actions do
        action.perform
      return if plan.succeeds then 0 else 1
    catch error =>
      IO.eprint s!"Error: {(FileFault.ofError error).message}\n"
      return 1
