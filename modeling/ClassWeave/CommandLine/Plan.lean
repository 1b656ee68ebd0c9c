import ClassWeave.CommandLine.Arguments
import ClassWeave.CommandLine.Outline
import ClassWeave.Helper.Transform
import ClassWeave.SourceMap.Encoding
/-!
# Plans

What an invocation does once its input has been read, as a list of actions. Nothing is written if the
input cannot be transformed.
-/

namespace ClassWeave

inductive FileFault where
  | missing
  | notDirectory
  | directory
  | nameTooLong
  | other (message : String)
deriving DecidableEq, Repr

def FileFault.message : FileFault → String
  | missing => "No such file or directory (os error 2)"
  | notDirectory => "Not a directory (os error 20)"
  | directory => "Is a directory (os error 21)"
  | nameTooLong => "File name too long (os error 36)"
  | other message => message

inductive Action where
  | write (file : String) (content : Text)
  | print (content : Text)
  | note (message : String)
deriving DecidableEq, Repr

structure Plan where
  actions : List Action
  succeeds : Bool
deriving DecidableEq, Repr

namespace Plan

def failure (message : String) : Plan := ⟨[.note s!"Error: {message}\n"], false⟩

def indented (text : String) : String :=
  String.ofList (Text.joinWith ['\n']
    ((Text.splitWhere (· == '\n') text.toList).map fun line => "    ".toList ++ line))

def failureOf (what cause : String) : Plan :=
  failure s!"{what}\n\nCaused by:\n{indented cause}"

end Plan

namespace Invocation

def results (input : String) (output : Option String) (withMap : Bool) (result : Transformed) :
    List Action :=
  let code := match output with
    | some file => Action.write file result.code.toList
    | none => Action.print result.code.toList
  let mapFile := output.getD input ++ ".map"
  if withMap then
    [code, .write mapFile result.map.toJson, .note s!"Source map written to {mapFile}\n"]
  else [code]

def plan (invocation : Invocation) (content : Except FileFault String) : Plan :=
  match content with
  | .error fault => .failureOf s!"failed to read {invocation.input}" fault.message
  | .ok content =>
    match invocation with
    | transform input output withMap options =>
      match ClassWeave.transform content options with
      | .ok result => ⟨results input output withMap result, true⟩
      | .error failure => .failureOf s!"failed to transform {input}" failure.message
    | check input options =>
      match ClassWeave.transform content options with
      | .ok _ => ⟨[.note s!"OK: {input}\n"], true⟩
      | .error failure => .failureOf s!"failed to transform {input}" failure.message
    | parse input asJson =>
      match Module.read content.toList (Module.holdsElements input) with
      | .ok found =>
        ⟨[.print (if asJson then Outline.json found else Outline.text found).toList], true⟩
      | .error fault =>
        .failure (PassFailure.unreadableMessage input fault.cause.message fault.offset)

end Invocation
end ClassWeave
