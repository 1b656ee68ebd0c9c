import ClassWeave.Script.Node
/-!
# Targets

The nodes that a rule can pick: import declarations, calls, and templates without a tag. `Node.walk`
hands them to a visitor in pre-order, and the visitor decides how the walk goes on;
`Node.targets` lists them all.
-/

namespace ClassWeave

inductive TargetKind where
  | importDeclaration
  | call
  | template
deriving DecidableEq, Repr

def Shape.targetKind? : Shape → Option TargetKind
  | .importDeclaration _ => some .importDeclaration
  | .call _ => some .call
  | .template _ => some .template
  | _ => none

def Shape.isTarget (shape : Shape) : Bool := shape.targetKind?.isSome

inductive Step where
  | descend
  | skip
  | stop
deriving DecidableEq, Repr

namespace Node

variable {σ : Type}

mutual

/-- Hands the targets of a tree to a visitor; the second part tells whether it stopped the walk. -/
def walk (visit : σ → Node → σ × Step) : σ → Node → σ × Bool
  | state, .mk shape span children =>
    if shape.isTarget then
      match visit state (.mk shape span children) with
      | (state, .descend) => walkAll visit state children
      | (state, .skip) => (state, false)
      | (state, .stop) => (state, true)
    else walkAll visit state children

def walkAll (visit : σ → Node → σ × Step) : σ → List Node → σ × Bool
  | state, [] => (state, false)
  | state, node :: rest =>
    match walk visit state node with
    | (state, true) => (state, true)
    | (state, false) => walkAll visit state rest

end

mutual

def targets : Node → List Node
  | .mk shape span children =>
    if shape.isTarget then .mk shape span children :: allTargets children else allTargets children

def allTargets : List Node → List Node
  | [] => []
  | node :: rest => targets node ++ allTargets rest

end

mutual

def height : Node → Nat
  | .mk _ _ children => heights children + 1

def heights : List Node → Nat
  | [] => 0
  | node :: rest => max (height node) (heights rest)

end

end Node
end ClassWeave
