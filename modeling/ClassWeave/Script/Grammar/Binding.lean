import ClassWeave.Script.Grammar.Annotation
/-!
# Bindings

Patterns that bind names, and parameter lists.
-/

namespace ClassWeave.Reader

def withDefault (g : Grammar) (start : Nat) (target : Node) : Reader Node := do
  if ← takeMark "=" then
    let value ← freshAssignment g
    return .mk (.assignment "=") ⟨start, value.span.stop⟩ [target, value]
  return target

def boundElement (g : Grammar) : Reader Node := do
  let start ← here
  withDefault g start (← g.binding)

def arrayBinding (g : Grammar) : Reader Node := do
  let start ← here
  if ← atMark "," then form .hole start []
  else if ← takeMark "..." then
    let inner ← g.binding
    form .rest start [inner]
  else boundElement g

def propertyBinding (g : Grammar) : Reader Node := do
  let start ← here
  if ← takeMark "..." then
    let inner ← g.binding
    return ← form .rest start [inner]
  let named := (← ahead).isAnyWord
  let name ← propertyName g
  if ← takeMark ":" then
    let value ← boundElement g
    form .property start [name, value]
  else
    unless named do failUnexpected "an identifier"
    withDefault g start name

def pattern (g : Grammar) : Reader Node := do
  refuseMalformed
  let start ← here
  if (← ahead).isAnyWord then identifier
  else if ← takeMark "[" then
    let items ← listBefore "]" (arrayBinding g) g.budget
    needMark "]"
    let _ ← ambientMark
    form .array start items
  else if ← takeMark "\x7b" then
    let items ← listUntil "\x7d" (propertyBinding g) g.budget
    let _ ← ambientMark
    form .object start items
  else failUnexpected "yield, an identifier, [ or \x7b"
where
  ambientMark : Reader Bool := do
    if (← surroundings).ambient then takeMark "?" else return false

/-- A parameter that is not spread: pattern, type and default. A default may stand in front of the type
too, which then means nothing. -/
def plainParameter (g : Grammar) : Reader (List Node) := do
  let _ ← takeFieldModifier
  let start ← here
  let target ← boundElement g
  let optional ← here
  let isDefaulted := target.shape == .assignment "="
  if (← takeMark "?") && isDefaulted && !(← surroundings).ambient then
    failAt .optionalPattern optional
  let types ← annotation? g
  let types := if isDefaulted then [] else types
  if ← takeMark "=" then
    let value ← freshAssignment g
    return [.mk (.assignment "=") ⟨start, value.span.stop⟩ (target :: types ++ [value])]
  return target :: types

def restParameter (g : Grammar) : Reader (List Node) := do
  let start ← here
  needMark "..."
  let target ← boundElement g
  let types ← annotation? g
  let whole ← form .rest start (target :: types)
  let _ ← takeMark "?"
  return [whole]

def parameter (g : Grammar) : Reader Node := do
  let start ← here
  let decoration ← g.decorators
  let inner ← if ← atMark "..." then restParameter g else plainParameter g
  form .parameter start (decoration ++ inner)

def amongParameters (around : Surroundings) : Surroundings :=
  { around.fresh with parameters := true, arrowStart := none }

def parameters (g : Grammar) : Reader (List Node) := do
  needMark "("
  let given ← inside amongParameters (listBefore ")" (parameter g) g.budget)
  needMark ")"
  return given

/-- A parameter of a signature, which has no default: what is left of it without its decorators. -/
def signatureParameter (g : Grammar) : Reader (List Node × Bool) := do
  let _ ← g.decorators
  if ← atMark "..." then return (← restParameter g, false)
  let inner ← plainParameter g
  return (inner, inner.any (·.shape == .assignment "="))

def signatureParameters (g : Grammar) : Reader (List Node) := do
  needMark "("
  let given ← inside amongParameters (listBefore ")" (signatureParameter g) g.budget)
  if given.any (·.2) then
    failUnexpected
      ("an identifier, [ for an array pattern, \x7b for an object patter or ... for a rest pattern")
  needMark ")"
  return (given.map (·.1)).flatten

end ClassWeave.Reader
