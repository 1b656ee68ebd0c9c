import ClassWeave.Script.Grammar.Binding
/-!
# Functions

Blocks, and the bodies of functions. The children of a function are its parameters, what the caller
puts behind them, the body, and the expressions in its types, in this order.
-/

namespace ClassWeave.Reader

def statements (g : Grammar) (site : Site) : Nat → Reader (List Node)
  | 0 => exhausted
  | fuel + 1 => do
    if (← takeMark "\x7d") || (← atEnd) then return []
    let first ← g.statement site
    return first :: (← statements g site fuel)

def block (g : Grammar) : Reader Node := do
  let start ← here
  needMark "\x7b"
  let inner ← statements g .listed g.budget
  form .block start inner

structure FunctionKind where
  async : Bool := false
  generator : Bool := false

def FunctionKind.head (kind : FunctionKind) (around : Surroundings) : Surroundings :=
  { around.fresh with
    async := kind.async, generator := kind.generator, arrowStart := none }

def FunctionKind.body (kind : FunctionKind) (around : Surroundings) : Surroundings :=
  { kind.head around with parameters := false }

structure FunctionParts where
  parameters : List Node
  body : List Node
  types : List Node
  result : List Node

def FunctionParts.children (parts : FunctionParts) (decoration : List Node) : List Node :=
  parts.parameters ++ decoration ++ parts.body ++ parts.types

/-- The body of a function, which may be left out where a statement may end. -/
def functionBody (g : Grammar) (kind : FunctionKind) : Reader (List Node) := do
  if !(← atMark "\x7b") && (← takeStatementEnd) then return []
  return [← inside kind.body (block g)]

def functionParts (g : Grammar) (kind : FunctionKind) : Reader FunctionParts :=
  inside kind.head do
    let generic ← inside ({ · with parameters := true }) (typeParameters? g)
    let given ← parameters g
    let result ← returnType? g
    let body ← functionBody g kind
    return ⟨given, body, generic ++ result, result⟩

def optionalName (required : Bool) : Reader (List Node) := do
  if required || (← ahead).isReference || (← atWord "this") then return [← identifier]
  return []

def functionFrom (g : Grammar) (start : Nat) (async named : Bool) (decoration : List Node) :
    Reader (Node × FunctionParts) := do
  needWord "function"
  let generator ← takeMark "*"
  let name ← optionalName named
  let parts ← functionParts g { async, generator }
  return (← form .function start (name ++ parts.children decoration), parts)

def arrowBody (g : Grammar) (async : Bool) : Reader Node := do
  let enter (around : Surroundings) : Surroundings :=
    { around with async, generator := false, parameters := false }
  if ← atMark "\x7b" then inside (fun around => enter around.fresh) (block g)
  else inside enter g.assignment

end ClassWeave.Reader
