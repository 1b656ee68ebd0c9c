import ClassWeave.Script.Grammar.Template
/-!
# Names and modifiers

What names a property or a member, and the words that may stand in front of one.
-/

namespace ClassWeave.Reader

variable {α : Type}

/-- The answer of a reader that is then taken back; no if it fails. -/
def foresee (reader : Reader Bool) : Reader Bool := fun around place =>
  match reader around place with
  | .done answer _ => .done answer place
  | .failed _ _ => .done false place

def commaExpression (g : Grammar) : Reader Node := do
  let first ← g.assignment
  let more ← whileM (takeMark ",") g.assignment g.budget
  if more.isEmpty then return first
  form .sequence first.span.start (first :: more)

def freshExpression (g : Grammar) : Reader Node :=
  inside Surroundings.fresh (commaExpression g)

def freshAssignment (g : Grammar) : Reader Node :=
  inside Surroundings.fresh g.assignment

def memberAfterPoint : Reader Node := do
  let lexeme := (← place).ahead
  match lexeme.token with
  | .privateName _ => advance; form .privateName lexeme.first []
  | .mark "#" =>
    if (← second).first == lexeme.stop.offset then
      advance
      fail .identifierExpected
    else fail .spaceInPrivateName
  | _ => anyName

def propertyName (g : Grammar) : Reader Node := do
  let start ← here
  match ← ahead with
  | .word name _ => advance; node (.identifier name) start []
  | .string value => advance; node (.literal (.string value)) start []
  | .numeral (.number value) => advance; node (.literal (.number value)) start []
  | .numeral (.bigInteger value) => advance; node (.literal (.bigInteger value)) start []
  | _ =>
    unless ← takeMark "[" do
      failUnexpected "identifier, string literal, numeric literal or [ for the computed key"
    let inner ← freshExpression g
    needMark "]"
    form .computed start [inner]

def isModified (next : Lexeme) : Bool :=
  !next.onNewLine && match next.token with
  | .word _ _ | .privateName _ | .string _ | .numeral _ => true
  | .mark text => ["[", "\x7b", "*", "...", "#"].contains text
  | _ => false

def takeModifier (allowed : List String) : Reader (Option String) := do
  match ← ahead with
  | .word name false =>
    if allowed.contains name && isModified (← second) then
      advance
      return some name
    return none
  | _ => return none

def skipModifiers (allowed : List String) : Nat → Reader Unit
  | 0 => exhausted
  | fuel + 1 => do
    if (← takeModifier allowed).isSome then skipModifiers allowed fuel

def takeFieldModifier : Reader Bool := do
  let next := (← second).token
  unless next.isAnyWord || next.isMark "[" || next.isMark "\x7b" do return false
  return (← takeModifier ["public", "protected", "private", "readonly"]).isSome

end ClassWeave.Reader
