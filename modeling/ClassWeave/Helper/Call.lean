import ClassWeave.ClassList.Simplify
import ClassWeave.Helper.Options
/-!
# Helper calls

What calls of `tx` and `tm` are compiled to.
-/

namespace ClassWeave

inductive TransformFailure where
  | argumentCount
  | modifierNotConstant
  | valueNotConstant
  | pass (failure : PassFailure)
deriving DecidableEq, Repr

def TransformFailure.message : TransformFailure → String
  | argumentCount => "The number of arguments of 'tm' must be 2."
  | modifierNotConstant => "The first argument to 'tm' must be string literal."
  | valueNotConstant => "The second argument of 'tm' must be string literal, 'tm' or static 'tx'."
  | pass failure => failure.message

def argumentSpan (argument : Node) : Span :=
  match argument with
  | .mk .spread _ [inner] => inner.span
  | _ => argument.span

def elementOf (pass : Pass) (argument : Node) : Text :=
  match argument with
  | .mk .spread _ [inner] =>
    embedded ("[...".toList ++ pass.textAt inner.span ++ "].join(\" \")".toList)
  | _ => embedded (pass.textAt argument.span)

def templateOf (pass : Pass) (given : List Node) : Text :=
  TemplateText.mark :: Text.joinWith [' '] (given.map (elementOf pass)) ++ [TemplateText.mark]

/-- What `tx(a, b, …)` becomes: the template of its arguments, simplified. -/
def compileTx (pass : Pass) (given : List Node) (options : Options) :
    Except TransformFailure Text :=
  ((pass.reading (given.map argumentSpan) (templateOf pass given)).bind fun template =>
    simplifyTemplate template options.fileName options.maxPasses).mapError .pass

def constantArgument? (argument : Node) : Option Text :=
  match argument.unparenthesized with
  | .mk (.literal (.string value)) _ _ => some value
  | .mk (.template chunks) _ [] => some (staticText chunks)
  | _ => none

/-- `modifier` in front of every piece of `value` between single spaces. -/
def distribute (modifier value : Text) : Text :=
  Text.joinWith [' '] ((value.splitWhere (· == ' ')).map (modifier ++ ·))

def compileTm : List Node → Except TransformFailure Text
  | [modifier, value] =>
    match constantArgument? modifier with
    | none => .error .modifierNotConstant
    | some modifier =>
      match constantArgument? value with
      | none => .error .valueNotConstant
      | some value => .ok (Quoted.encode (distribute modifier value))
  | _ => .error .argumentCount

end ClassWeave
