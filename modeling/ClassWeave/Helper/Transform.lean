import ClassWeave.Helper.Call
import ClassWeave.Helper.Import
/-!
# Transforming files

The rule that compiles calls of helpers and edits their imports. Which local names are helpers is
read from the imports at the top of the first pass and stays known for the whole run; the names have
no scope.
-/

namespace ClassWeave

inductive HelperTarget where
  | importDeclaration (declaration : ImportDeclaration)
  | tx (given : List Node)
  | tm (given : List Node)

/-- Local names of helpers, latest first. -/
abbrev Aliases := List (String × Helper)

def aliasesOf (options : Options) (item : Node) : Aliases :=
  match item with
  | .mk (.importDeclaration declaration) _ _ =>
    if declaration.isOfHelpers options then declaration.bindings.reverse else []
  | _ => []

def aliasesIn (options : Options) (items : List Node) : Aliases :=
  (items.reverse.map (aliasesOf options)).flatten

def pick (options : Options) (pass : Pass) (aliases : Aliases) (node : Node) :
    Option HelperTarget :=
  match node with
  | .mk (.importDeclaration declaration) _ _ =>
    if pass.isFirst && declaration.isOfHelpers options then some (.importDeclaration declaration)
    else none
  | .mk (.call arity) _ (.mk (.identifier name) _ _ :: behind) =>
    match aliases.lookup name with
    | some .tx => some (.tx (behind.take arity))
    | some .tm => some (.tm (behind.take arity))
    | _ => none
  | _ => none

/-- The rule that compiles helpers. -/
def transformer (options : Options) : Rule Aliases HelperTarget TransformFailure where
  initial := []
  seed pass aliases :=
    .ok (if pass.isFirst then aliasesIn options pass.module.items ++ aliases else aliases)
  select := pick options
  replace pass _ picked :=
    match picked with
    | .importDeclaration declaration => (pass.reading declaration.keptSpans
        (declaration.withoutHelpers pass options.module)).mapError .pass
    | .tx given => (compileTx pass given options).map some
    | .tm given => (compileTm given).map some
  failure := .pass

def transformTrace (source : Text) (options : Options) : RunTrace TransformFailure :=
  (transformer options).run options.fileName options.maxPasses source

structure Transformed where
  code : String
  map : SourceMap

def transform (source : String) (options : Options) : Except TransformFailure Transformed :=
  (transformTrace source.toList options).outcome.map fun fixpoint =>
    ⟨String.ofList fixpoint.code, fixpoint.map options.fileName⟩

end ClassWeave
