import ClassWeave.Script.Grammar
/-!
# Templates

A template alternates between static chunks, read from the characters, and whatever stands in its
braces, read by tokens.
-/

namespace ClassWeave.Reader

variable {α : Type}

/-- Reads behind a template's opening mark or one of its closing braces: the chunks and what stands
between them. `start` is where the template begins. Only a tagged template may hold malformed
escapes. -/
def templateTail (inner : Reader α) (start : Nat) (tagged : Bool) :
    Nat → Cursor → Reader (List Chunk × List α)
  | 0, _ => exhausted
  | fuel + 1, cursor => do
    let reading := TemplateText.readChunk cursor.rest
    resume (cursor.goTo reading.rest)
    if reading.stop == .missing then failMalformed ⟨.unterminatedTemplate, start⟩
    match tagged, reading.fault with
    | false, some fault => raise ⟨.badEscape fault.cause, (cursor.goTo fault.before).offset⟩
    | _, _ => pure ()
    if reading.stop == .closed then return ([reading.chunk], [])
    let value ← inner
    unless ← atMark "\x7d" do failUnexpected "\x60\x7d\x60"
    let (chunks, values) ← templateTail inner start tagged fuel (← place).ahead.stop
    return (reading.chunk :: chunks, value :: values)

def template (g : Grammar) (inner : Reader α) (tagged : Bool) : Reader (List Chunk × List α) := do
  let opening := (← place).ahead
  templateTail inner opening.start.offset tagged g.budget opening.stop

def atTemplate : Reader Bool := do
  let lexeme := (← place).ahead
  return lexeme.token.isMark "\x60" && lexeme.fault?.isNone

end ClassWeave.Reader
