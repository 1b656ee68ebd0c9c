import ClassWeave.Script.Grammar.Name
/-!
# Annotations

Where types stand: type arguments and parameters, and what stands behind a colon. Types have no
meaning for rules: a reader of types gives the expressions inside them, which are computed names of
members and values of parameters.
-/

namespace ClassWeave.Reader

def needOpenAngle : Reader Unit := do
  match (← place).ahead with
  | { token := .mark "<<", start := ⟨_ :: rest, offset⟩, .. } => resume ⟨rest, offset + 1⟩
  | _ => needMark "<"

def angleList (close : Reader Bool) (item : Reader (List Node)) : Nat → Reader (List Node)
  | 0 => exhausted
  | fuel + 1 => do
    if ← close then return []
    let first ← item
    if ← close then return first
    needMark ","
    return first ++ (← angleList close item fuel)

def typeArguments (g : Grammar) : Reader (List Node) := do
  needOpenAngle
  angleList takeAngle g.type g.budget

def takeLoneAngle : Reader Bool := do
  if (← atMark ">") || (← place).behindAngle then takeAngle else return false

/-- Type arguments of an operand, with their brackets: the last bracket is part of no other mark. -/
def loneTypeArguments (g : Grammar) : Reader (List Node) := do
  needOpenAngle
  angleList takeLoneAngle g.type g.budget

def atTypeArguments : Reader Bool := return (← atMark "<") || (← atMark "<<")

def typeParameter (g : Grammar) : Reader (List Node) := do
  skipModifiers ["public", "private", "protected", "readonly", "abstract", "const", "override", "in",
    "out"] g.budget
  let _ ← anyName
  let bound ← if ← takeWord "extends" then g.type else pure []
  let fallback ← if ← takeMark "=" then g.type else pure []
  return bound ++ fallback

def typeParameters (g : Grammar) : Reader (List Node) := do
  unless ← takeMark "<" do failUnexpected "< (jsx tag start)"
  angleList takeAngle (typeParameter g) g.budget

def typeParameters? (g : Grammar) : Reader (List Node) := do
  if ← atMark "<" then typeParameters g else return []

def typeOrPredicate (g : Grammar) : Reader (List Node) := do
  let asserts := (← atWord "asserts") && (← second).token.isReference
  if asserts then advance
  let next ← second
  let tells := (← ahead).isReference && next.token.isWord "is" && !next.onNewLine
  if tells then
    advance
    advance
    g.type
  else if asserts then
    let _ ← anyName
    return []
  else g.type

def annotation? (g : Grammar) : Reader (List Node) := do
  if ← takeMark ":" then g.type else return []

def returnType? (g : Grammar) : Reader (List Node) := do
  if ← takeMark ":" then typeOrPredicate g else return []

/-- Names behind the first one, each behind its point. The last name may be missing. -/
def dottedTail (next : Reader Node) : Nat → Reader Unit
  | 0 => exhausted
  | fuel + 1 => do
    if ← takeMark "." then
      let token ← ahead
      if token.isAnyWord || token.isPrivate then
        let _ ← next
        dottedTail next fuel

def dottedName (g : Grammar) (next : Reader Node) : Reader Unit := do
  let _ ← anyName
  dottedTail next g.budget

def typeArguments? (g : Grammar) : Reader (List Node) := do
  if (← atTypeArguments) && !(← onNewLine) then typeArguments g else return []

end ClassWeave.Reader
