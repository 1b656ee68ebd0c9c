import ClassWeave.Helper.Name
import ClassWeave.Helper.Options
import ClassWeave.Literal.Quoted
import ClassWeave.Pass.Rule
/-!
# Helper imports

Compiled helpers disappear from an import of the helper module. Every other specifier stays as it is
written, and the import points to the module of the options.
-/

namespace ClassWeave

namespace ImportSpecifier

def span : ImportSpecifier → Span
  | single span _ => span
  | everything span _ => span
  | named span _ _ _ => span

def compiled? : ImportSpecifier → Option (String × Helper)
  | named _ imported binding false =>
    ((Helper.ofExport imported).filter Helper.isCompiled).map fun helper => (binding, helper)
  | _ => none

end ImportSpecifier

namespace ImportDeclaration

def isOfHelpers (declaration : ImportDeclaration) (options : Options) : Bool :=
  !declaration.typeOnly && options.isHelperModule (String.ofList declaration.source)

def bindings (declaration : ImportDeclaration) : List (String × Helper) :=
  declaration.specifiers.filterMap ImportSpecifier.compiled?

def single? (declaration : ImportDeclaration) : Option Span :=
  (declaration.specifiers.filterMap fun
    | .single span _ => some span
    | _ => none).getLast?

def everything? (declaration : ImportDeclaration) : Option Span :=
  (declaration.specifiers.filterMap fun
    | .everything span _ => some span
    | _ => none).getLast?

def keptNames (declaration : ImportDeclaration) : List Span :=
  declaration.specifiers.filterMap fun specifier =>
    match specifier with
    | .named span _ _ _ => if specifier.compiled?.isNone then some span else none
    | _ => none

def keptSpans (declaration : ImportDeclaration) : List Span :=
  declaration.single?.toList ++ declaration.everything?.toList ++ declaration.keptNames

/-- The import without compiled helpers; none if nothing stays. -/
def withoutHelpers (pass : Pass) (declaration : ImportDeclaration) (module : String) :
    Option Text :=
  let names := declaration.keptNames.map pass.textAt
  let braces := if names.isEmpty then []
    else ['{' :: ' ' :: Text.joinWith ", ".toList names ++ [' ', '}']]
  let clause := (declaration.single?.map pass.textAt).toList ++
    (declaration.everything?.map pass.textAt).toList ++ braces
  if clause.isEmpty then none
  else some ("import ".toList ++ Text.joinWith ", ".toList clause ++ " from ".toList ++
    Quoted.encode module.toList ++ [';'])

end ImportDeclaration
end ClassWeave
