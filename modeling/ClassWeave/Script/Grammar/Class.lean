import ClassWeave.Script.Grammar.Object
import ClassWeave.Script.Grammar.Type
/-!
# Classes

Members of classes, and what classes and interfaces extend. The children of a class are its name, its
decorators, its members, its superclass, and the expressions in its types; a field has its decorators
last, a method behind its parameters.
-/

namespace ClassWeave

def Node.namesConstructor (name : Node) : Bool :=
  name.shape == .identifier "constructor" ||
    name.shape == .literal (.string "constructor".toList)

namespace Reader

/-- Whether a field may end, or go on, in front of the token ahead; `loose` if a line end ends it. -/
def atFieldEnd (loose : Bool) : Reader Bool := do
  if ["!", ":", "=", "\x7d", ";"].any (← ahead).isMark then return true
  return loose && (← atStatementEnd)

def classMemberName (g : Grammar) : Reader Node := do
  if (← ahead).isPrivate then memberAfterPoint else propertyName g

def fieldTail (g : Grammar) (start : Nat) (name : Node) (optional : Bool) (decoration : List Node) :
    Reader Node := do
  if name.namesConstructor then failAt .fieldNamedConstructor name.span.start
  let _ ← if optional then pure false else takeMark "!"
  let types ← annotation? g
  let value ← if ← takeMark "=" then
      pure [← inside ({ · with allowIn := true }) g.assignment]
    else pure []
  let _ ← takeStatementEnd
  form .field start (name :: value ++ types ++ decoration)

def takeLeadingWord (name : String) : Reader (Option Node) := do
  let start ← here
  if ← takeWord name then return some (← node (.identifier name) start [])
  return none

/-- The member that a leading word names, if no name stands behind that word. -/
def memberNamedSo (g : Grammar) (start : Nat) (decoration : List Node) (loose : Bool) :
    Option Node → Reader (Option Node)
  | none => return none
  | some name => do
    if ← atParameters then return some (← methodTail g {} .method start name decoration)
    if (← atMark "?") || (← atFieldEnd loose) then
      let optional ← takeMark "?"
      return some (← fieldTail g start name optional decoration)
    return none

def constructorField (g : Grammar) : Reader (List Node) := do
  let access ← takeModifier ["public", "protected", "private", "in", "out"]
  let overrides ← takeModifier ["override"]
  let readonly ← takeModifier ["readonly"]
  let inner ← plainParameter g
  let isAccess := access.any fun word => word != "in" && word != "out"
  if isAccess || overrides.isSome || readonly.isSome then
    match inner with
    | .mk (.identifier _) _ _ :: _ => pure ()
    | .mk (.assignment _) _ _ :: _ => pure ()
    | other => failAt .fieldParameter ((other.head?.map (·.span.start)).getD 0)
  return inner

def constructorParameter (g : Grammar) : Reader Node := do
  let start ← here
  let decoration ← g.decorators
  let inner ← if ← atMark "..." then
      let restStart ← here
      advance
      let target ← g.binding
      let types ← annotation? g
      pure [← form .rest restStart (target :: types)]
    else constructorField g
  form .parameter start (decoration ++ inner)

def constructorTail (g : Grammar) (start : Nat) (name : Node) : Reader Node := do
  let _ ← typeParameters? g
  needMark "("
  let given ← inside amongParameters (listBefore ")" (constructorParameter g) g.budget)
  needMark ")"
  let _ ← returnType? g
  let body ← functionBody g {}
  form .method start (name :: given ++ body)

def asyncMethod (g : Grammar) (start : Nat) (readonly : Bool) (decoration : List Node) :
    Reader Node := do
  let _ ← takeModifier ["override"]
  let generator ← takeMark "*"
  let name ← classMemberName g
  if name.namesConstructor then failAt .asyncConstructor name.span.start
  if readonly then failAt .readonlyMethod start
  let _ ← takeMark "?"
  methodTail g { async := true, generator } .method start name decoration

def namedMember (g : Grammar) (start : Nat) (readonly : Bool) (decoration : List Node) :
    Reader Node := do
  if ← takeMark "*" then
    let name ← classMemberName g
    return ← methodTail g { generator := true } .method start name decoration
  let name ← if readonly && ((← atMark "!") || (← atMark ":")) then
      pure (.mk (.identifier "readonly") ⟨start, ← lastEnd⟩ [])
    else classMemberName g
  let optional ← takeMark "?"
  if ← atParameters then
    if readonly then failAt .readonlyMethod start
    if name.namesConstructor then return ← constructorTail g start name
    return ← methodTail g {} .method start name decoration
  let isGetter := name.shape == .identifier "get"
  let isAccessor := (isGetter || name.shape == .identifier "set") && !(← atFieldEnd false) &&
    !((← onNewLine) && (← atMark "*"))
  if !isAccessor && (← atFieldEnd true) then return ← fieldTail g start name optional decoration
  if name.shape == .identifier "async" && !(← onNewLine) then
    return ← asyncMethod g start readonly decoration
  unless isAccessor do failUnexpected "* for generator, private key, identifier or async"
  let name ← classMemberName g
  methodTail g {} (if isGetter then .getter else .setter) start name decoration

def memberModifiers : Nat → Reader (List String)
  | 0 => exhausted
  | fuel + 1 => do
    if (← atWord "static") && (← second).token.isMark "\x7b" then return []
    match ← takeModifier ["abstract", "readonly", "override", "static"] with
    | some name => return name :: (← memberModifiers fuel)
    | none => return []

def classMember (g : Grammar) : Reader Node := do
  let start ← here
  let decoration ← g.decorators
  let declared ← takeLeadingWord "declare"
  if let some found ← memberNamedSo g start decoration true declared then return found
  let access ← takeModifier ["public", "protected", "private", "in", "out"]
  if declared.isNone then
    if let some found ← memberNamedSo g start decoration true (← takeLeadingWord "declare") then
      return found
  let isStatic ← takeLeadingWord "static"
  if let some found ← memberNamedSo g start decoration false isStatic then return found
  let modifiers ← memberModifiers g.budget
  if let some found ← memberNamedSo g start decoration true (← takeLeadingWord "accessor") then
    return found
  if (← atWord "static") && (← second).token.isMark "\x7b" then
    advance
    return ← form .staticBlock start [← block g]
  if (isStatic.isSome || modifiers.contains "static") && (← atMark "\x7b") then
    return ← form .staticBlock start [← block g]
  let plain := !modifiers.contains "abstract" && !modifiers.contains "override" &&
    (access.isNone || access == some "in" || access == some "out")
  if plain && (← startsIndexSignature) then
    return ← form .field start (← indexSignature g)
  namedMember g start (modifiers.contains "readonly") decoration

def classMembers (g : Grammar) : Nat → Reader (List Node)
  | 0 => exhausted
  | fuel + 1 => do
    if (← atMark "\x7d") || (← atEnd) then return []
    if ← takeMark ";" then return ← classMembers g fuel
    let first ← classMember g
    return first :: (← classMembers g fuel)

def atHeritageEnd : Reader Bool :=
  return (← atMark "\x7b") || (← atWord "implements") || (← atWord "extends")

def heritageItem (g : Grammar) : Reader (List Node) := do
  let target ← steps g true true g.budget (← anyName)
  let types ← if ← atMark "<" then typeArguments g else pure []
  return target :: types

def heritage (g : Grammar) : Nat → Reader (List Node)
  | 0 => exhausted
  | fuel + 1 => do
    if ← atHeritageEnd then return []
    let first ← heritageItem g
    if ← takeMark "," then return first ++ (← heritage g fuel)
    unless ← atHeritageEnd do failWanting ","
    return first

def superclass (g : Grammar) : Reader (List Node × List Node) := do
  match ← g.leftHandSide with
  | .mk (.other .typed) _ (target :: types) => return ([target], types)
  | base =>
    let types ← if ← atMark "<" then typeArguments g else pure []
    return ([base], types)

/-- What a class extends, if it says so. Only the first of several counts. -/
def superclass? (g : Grammar) : Reader (List Node × List Node) := do
  unless ← takeWord "extends" do return ([], [])
  let base ← superclass g
  if ← takeMark "," then
    let _ ← heritage g g.budget
  return base

/-- A class behind its keyword. What it extends may also stand behind what it implements. -/
def classAfterKeyword (g : Grammar) (start : Nat) (decoration : List Node) (named : Bool)
    (kind : Form) : Reader Node := do
  if named && (← atWord "let") then
    failUnexpected "let is reserved in const, let, class declaration"
  let name ← optionalName named
  let generic ← typeParameters? g
  let base ← superclass? g
  let implemented ← if ← takeWord "implements" then heritage g g.budget else pure []
  if ← takeWord "implements" then
    let _ ← heritage g g.budget
  let late ← if ← takeWord "extends" then superclass g else pure ([], [])
  let base := if base.1.isEmpty then late else base
  needMark "\x7b"
  let members ← classMembers g g.budget
  needMark "\x7d"
  form kind start (name ++ decoration ++ members ++ base.1 ++ generic ++ base.2 ++ implemented)

end Reader
end ClassWeave
