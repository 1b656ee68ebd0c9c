import ClassWeave.Script.Grammar.Binding
/-!
# Types

Types of all kinds, with the members of object types. The expressions of a signature come in the order
parameters, result, type parameters; those of a function type in the order parameters, type
parameters, result.
-/

namespace ClassWeave.Reader

def startsFunctionType (g : Grammar) : Reader Bool := do
  if ← atMark "<" then return true
  unless ← atMark "(" do return false
  foresee do
    advance
    if (← atMark ")") || (← atMark "...") then return true
    let _ ← takeFieldModifier
    let token ← ahead
    if token.isReference || token.isWord "this" then advance
    else if token.isMark "[" || token.isMark "\x7b" then
      let _ ← g.binding
    else return false
    if (← atMark ":") || (← atMark ",") || (← atMark "?") || (← atMark "=") then return true
    needMark ")"
    atMark "=>"

def functionType (g : Grammar) : Reader (List Node) := do
  let generic ← typeParameters? g
  let given ← signatureParameters g
  needMark "=>"
  return given ++ generic ++ (← typeOrPredicate g)

def endMember : Reader Unit := do
  unless ← takeMark "," do endStatement

def signature (g : Grammar) : Reader (List Node) := do
  let generic ← typeParameters? g
  let given ← signatureParameters g
  let result ← returnType? g
  endMember
  return given ++ result ++ generic

def startsIndexSignature : Reader Bool := foresee do
  needMark "["
  unless (← ahead).isReference do return false
  advance
  return (← atMark ":") || (← atMark ",")

def indexSignature (g : Grammar) : Reader (List Node) := do
  needMark "["
  let _ ← anyName
  unless ← takeMark "," do needMark ":"
  let index ← g.type
  needMark "]"
  let value ← annotation? g
  endMember
  return index ++ value

def memberName (g : Grammar) : Reader Node := do
  let start ← here
  match ← ahead with
  | .string _ | .numeral _ => propertyName g
  | _ =>
    if ← takeMark "[" then
      let inner ← freshAssignment g
      needMark "]"
      form .computed start [inner]
    else memberAfterPoint

def accessorMember (g : Grammar) : Reader (List Node) := do
  if ← takeWord "get" then
    let name ← memberName g
    needMark "("
    needMark ")"
    let types ← annotation? g
    endMember
    return name :: types
  needWord "set"
  let name ← memberName g
  let given ← signatureParameters g
  if given.isEmpty then fail .identifierExpected
  endMember
  return name :: given

def typeMember (g : Grammar) : Reader (List Node) := do
  if (← atMark "(") || (← atMark "<") then return ← signature g
  let next := (← second).token
  if (← atWord "new") && (next.isMark "(" || next.isMark "<") then
    advance
    return ← signature g
  let readonly := (← takeModifier ["readonly"]).isSome
  if ← startsIndexSignature then return ← indexSignature g
  if !readonly then
    if let some found ← attempt (accessorMember g) then return found
  let name ← memberName g
  let _ ← takeMark "?"
  if (← atMark "(") || (← atMark "<") then
    if readonly then fail .readonlyMethod
    return name :: (← signature g)
  let types ← annotation? g
  endMember
  return name :: types

def typeBody (g : Grammar) : Reader (List Node) := do
  needMark "\x7b"
  let members ← whileM (return !(← atMark "\x7d")) (typeMember g) g.budget
  needMark "\x7d"
  return members.flatten

def startsMappedType : Reader Bool := foresee do
  needMark "\x7b"
  if (← takeMark "+") || (← takeMark "-") then return ← atWord "readonly"
  let _ ← takeWord "readonly"
  needMark "["
  unless (← ahead).isReference do return false
  advance
  atWord "in"

def mappedType (g : Grammar) : Reader (List Node) := do
  needMark "\x7b"
  if (← takeMark "+") || (← takeMark "-") then needWord "readonly"
  else let _ ← takeWord "readonly"
  needMark "["
  let _ ← anyName
  needWord "in"
  let domain ← g.type
  let renamed ← if ← takeWord "as" then g.type else pure []
  needMark "]"
  if (← takeMark "+") || (← takeMark "-") then needMark "?"
  else let _ ← takeMark "?"
  let value ← annotation? g
  endStatement
  needMark "\x7d"
  return domain ++ renamed ++ value

def tupleLabel : Reader Unit := do
  let _ ← takeMark "..."
  let _ ← anyName
  let _ ← takeMark "?"
  needMark ":"

def tupleElement (g : Grammar) : Reader (List Node) := do
  let _ ← attempt tupleLabel
  if ← takeMark "..." then return ← g.type
  let inner ← g.type
  let _ ← takeMark "?"
  return inner

def typeStarts : String :=
  "an identifier, void, yield, null, await, break, a string literal, a numeric literal, true, " ++
    "false, \x60, -, import, this, typeof, \x7b, [, ("

/-- The words that are types by themselves, unless a point follows. -/
def typeKeywords : List String :=
  ["any", "bigint", "boolean", "intrinsic", "never", "null", "number", "object", "string", "symbol",
    "undefined", "unknown", "void"]

def typeReference (g : Grammar) : Reader (List Node) := do
  let _ ← takeFieldModifier
  dottedName g anyName
  typeArguments? g

def importSettings (g : Grammar) : Reader (List Node) := do
  unless ← takeMark "\x7b" do return []
  needWord "with"
  needMark ":"
  let settings ← g.object
  let _ ← takeMark ","
  needMark "\x7d"
  return [settings]

def importType (g : Grammar) : Reader (List Node) := do
  needMark "("
  advance
  let settings ← if ← takeMark "," then importSettings g else pure []
  needMark ")"
  if ← takeMark "." then dottedName g identifier
  let types ← if ← atMark "<" then typeArguments g else pure []
  return types ++ settings

def thisPredicate (g : Grammar) : Reader (List Node) := do
  if ← takeWord "is" then g.type else return []

def wordType (g : Grammar) (name : String) (escaped : Bool) : Reader (List Node) := do
  let next := (← second).token
  if escaped then return ← typeReference g
  match name with
  | "import" => advance; importType g
  | "typeof" =>
    advance
    let inner ← if ← takeWord "import" then importType g
      else
        dottedName g anyName
        pure []
    return inner ++ (← typeArguments? g)
  | "this" =>
    advance
    if ← onNewLine then return [] else thisPredicate g
  | "asserts" =>
    unless next.isWord "this" do return ← typeReference g
    advance
    advance
    thisPredicate g
  | "true" | "false" => advance; return []
  | _ =>
    if typeKeywords.contains name && !next.isMark "." then
      advance
      return []
    if Token.keywords.contains name && !(["void", "null", "break"].contains name) then
      failUnexpected typeStarts
    typeReference g

def plainType (g : Grammar) : Reader (List Node) := do
  match ← ahead with
  | .string _ | .numeral _ => advance; return []
  | .word name escaped => wordType g name escaped
  | .mark text =>
    if text == "-" then
      advance
      unless (← ahead).isNumeral do failUnexpected "numeric literal or bigint literal"
      advance
      return []
    else if text == "\x60" && (← atTemplate) then
      let (_, inner) ← template g (g.type) false
      return inner.flatten
    else if text == "\x7b" then
      if ← startsMappedType then mappedType g else typeBody g
    else if text == "[" then
      advance
      return (← listUntil "]" (tupleElement g) g.budget).flatten
    else if text == "(" then
      advance
      let inner ← g.type
      needMark ")"
      return inner
    else failUnexpected typeStarts
  | _ => failUnexpected typeStarts

def arraySuffix (g : Grammar) : Nat → Reader (List Node)
  | 0 => exhausted
  | fuel + 1 => do
    if (← atMark "[") && !(← onNewLine) then
      advance
      let index ← if ← atMark "]" then pure [] else g.type
      needMark "]"
      return index ++ (← arraySuffix g fuel)
    return []

/-- The bound of an inferred type, which may not be the test of a conditional type. -/
def inferredBound (g : Grammar) : Reader (List Node) := do
  needWord "extends"
  let inner ← g.unconditional
  if (← surroundings).conditionalTypes && (← atMark "?") then failWanting "?"
  return inner

def unaryType (g : Grammar) : Nat → Reader (List Node)
  | 0 => exhausted
  | fuel + 1 => do
    if (← atWord "keyof") || (← atWord "unique") || (← atWord "readonly") then
      advance
      unaryType g fuel
    else if ← takeWord "infer" then
      let _ ← anyName
      let bound ← attempt (inferredBound g)
      return bound.getD []
    else
      let inner ← plainType g
      return inner ++ (← arraySuffix g g.budget)

def joinedType (operator : String) (operand : Reader (List Node)) (g : Grammar) :
    Reader (List Node) := do
  let _ ← takeMark operator
  let first ← operand
  let more ← whileM (takeMark operator) operand g.budget
  return first ++ more.flatten

def unconditionalType (g : Grammar) : Reader (List Node) := do
  if ← startsFunctionType g then functionType g
  else if (← atWord "new") || ((← atWord "abstract") && (← second).token.isWord "new") then
    let _ ← takeWord "abstract"
    advance
    functionType g
  else joinedType "|" (joinedType "&" (unaryType g g.budget) g) g

def anyType (g : Grammar) : Reader (List Node) := do
  let checked ← inside ({ · with conditionalTypes := true }) (unconditionalType g)
  if (← onNewLine) || !(← takeWord "extends") then return checked
  let bound ← inside ({ · with conditionalTypes := false }) (unconditionalType g)
  needMark "?"
  let consequent ← g.type
  needMark ":"
  return checked ++ bound ++ consequent ++ (← g.type)

end ClassWeave.Reader
