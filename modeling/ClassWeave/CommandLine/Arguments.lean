import ClassWeave.Helper.Options
import ClassWeave.Text.Span
/-!
# Arguments of the command line

A task, one input, and the options that the task knows. `Invocation.ofArguments` refuses what it does
not understand as a whole: unknown and repeated options, values that are missing or malformed, and any
other number of inputs than one.
-/

namespace ClassWeave

inductive Task where
  | transform
  | check
  | parse
deriving DecidableEq, Repr

inductive Switch where
  | output
  | sourceMap
  | moduleName
  | maxPasses
  | ast
deriving DecidableEq, Repr

namespace Switch

def name : Switch → Text
  | output => "output".toList
  | sourceMap => "source-map".toList
  | moduleName => "module-name".toList
  | maxPasses => "max-passes".toList
  | ast => "ast".toList

def takesValue : Switch → Bool
  | output | moduleName | maxPasses => true
  | sourceMap | ast => false

end Switch

namespace Task

def ofName (name : String) : Option Task :=
  if name = "transform" then some transform
  else if name = "check" then some check
  else if name = "parse" then some parse
  else none

def switches : Task → List Switch
  | transform => [.output, .sourceMap, .moduleName, .maxPasses]
  | check => [.moduleName]
  | parse => [.ast]

end Task

inductive Argument where
  | operand
  /-- Two dashes alone: whatever follows is an operand. -/
  | operandsOnly
  | flag (switch : Switch)
  | joined (switch : Switch) (value : Text)
  | pending (switch : Switch)
  | unknown
deriving DecidableEq, Repr

namespace Argument

def ofSwitch (switch : Switch) : Option Text → Argument
  | some value => if switch.takesValue then joined switch value else unknown
  | none => if switch.takesValue then pending switch else flag switch

def ofLong (task : Task) (text : Text) : Argument :=
  let name := text.takeWhile (· != '=')
  match task.switches.find? (·.name == name) with
  | none => unknown
  | some switch =>
    ofSwitch switch (if name.length < text.length then some (text.drop (name.length + 1)) else none)

def ofText (task : Task) : Text → Argument
  | ['-', '-'] => operandsOnly
  | '-' :: '-' :: text => ofLong task text
  | '-' :: 'o' :: value =>
    if task.switches.contains .output then
      match value with
      | [] => pending .output
      | '=' :: value => joined .output value
      | value => joined .output value
    else unknown
  | '-' :: _ :: _ => unknown
  | _ => operand

def isValue : Text → Bool
  | '-' :: _ :: _ => false
  | _ => true

end Argument

structure Given where
  operands : List Text
  values : List (Switch × Text)

namespace Given

def value? (given : Given) (switch : Switch) : Option Text := given.values.lookup switch

def has (given : Given) (switch : Switch) : Bool := (given.value? switch).isSome

def add (given : Given) (switch : Switch) (value : Text) : Option Given :=
  if given.has switch then none
  else some { given with values := given.values ++ [(switch, value)] }

def addOperands (given : Given) (more : List Text) : Given :=
  { given with operands := given.operands ++ more }

def read (task : Task) : Given → List Text → Option Given
  | given, [] => some given
  | given, argument :: rest =>
    match Argument.ofText task argument with
    | .operand => read task (given.addOperands [argument]) rest
    | .operandsOnly => some (given.addOperands rest)
    | .flag switch => (given.add switch []).bind fun given => read task given rest
    | .joined switch value => (given.add switch value).bind fun given => read task given rest
    | .pending switch =>
      match rest with
      | value :: rest =>
        if Argument.isValue value then
          (given.add switch value).bind fun given => read task given rest
        else none
      | [] => none
    | .unknown => none

def input? (given : Given) : Option String :=
  match given.operands with
  | [operand] => if operand.isEmpty then none else some (String.ofList operand)
  | _ => none

def output? (given : Given) : Option (Option String) :=
  match given.value? .output with
  | some [] => none
  | some name => some (some (String.ofList name))
  | none => some none

/-- A number of passes below 2^64; a plus sign may stand in front. -/
def readCount (text : Text) : Option Nat :=
  let digits := match text with
    | '+' :: digits => digits
    | _ => text
  if digits.isEmpty || !digits.all Char.isDigit then none
  else
    let count := digits.foldl (fun n c => 10 * n + (c.toNat - '0'.toNat)) 0
    if count < UInt64.size then some count else none

def options? (given : Given) (input : String) : Option Options :=
  let options : Options :=
    { fileName := some input, moduleName := (given.value? .moduleName).map String.ofList }
  match given.value? .maxPasses with
  | none => some options
  | some text => (readCount text).map fun maxPasses => { options with maxPasses }

end Given

inductive Invocation where
  | transform (input : String) (output : Option String) (withMap : Bool) (options : Options)
  | check (input : String) (options : Options)
  | parse (input : String) (asJson : Bool)
deriving DecidableEq, Repr

namespace Invocation

def ofGiven (task : Task) (given : Given) : Option Invocation := do
  let input ← given.input?
  let output ← given.output?
  let options ← given.options? input
  match task with
  | .transform => return transform input output (given.has .sourceMap) options
  | .check => return check input options
  | .parse => return parse input (given.has .ast)

def ofArguments : List String → Option Invocation
  | [] => none
  | name :: arguments => do
    let task ← Task.ofName name
    let given ← Given.read task ⟨[], []⟩ (arguments.map String.toList)
    ofGiven task given

def usage : String := "usage: (transform | check | parse) INPUT [OPTION ...]\n"

def input : Invocation → String
  | transform input _ _ _ | check input _ | parse input _ => input

end Invocation
end ClassWeave
