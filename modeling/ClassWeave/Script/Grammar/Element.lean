import ClassWeave.Script.Grammar.Annotation
/-!
# Elements

Elements such as `<a b={c}>text</a>`. Their names and texts are read from the characters, the
expressions in their braces by tokens. The children of an element are what its attributes hold, the
expressions in its type arguments, and what stands in it.
-/

namespace ClassWeave.Reader

def behindGap (cursor : Cursor) : Cursor :=
  (Lexeme.skipGap .space cursor.rest cursor.offset false none).stop

def failThere {α : Type} (cursor : Cursor) (failure : Reader α) : Reader α := do
  resume cursor
  failure

def failLacking {α : Type} (cursor : Cursor) (wanted : String) : Reader α :=
  failThere cursor (failWanting wanted)

def nameCharacters : Nat → Text → Text × Text
  | 0, text => ([], text)
  | _ + 1, [] => ([], [])
  | fuel + 1, c :: rest =>
    if c == '-' || IdentifierTable.isPart c then
      let (more, behind) := nameCharacters fuel rest
      (c :: more, behind)
    else match c, rest with
      | '\\', 'u' :: digits =>
        match Escape.readUnicode digits with
        | .ok (n, behind) =>
          let (more, behind) := nameCharacters fuel behind
          (CodePoint.toChar n :: more, behind)
        | .error _ => ([], c :: rest)
      | _, _ => ([], c :: rest)

def namePart (cursor : Cursor) : Reader (String × Cursor) := do
  let begins := cursor.rest.head?.any fun c => IdentifierTable.isStart c || c == '\\'
  unless begins do failThere cursor (failUnexpected "jsx identifier")
  let (characters, rest) := nameCharacters (cursor.rest.length + 1) cursor.rest
  if characters.isEmpty then failThere cursor (failUnexpected "jsx identifier")
  return (String.ofList characters, cursor.goTo rest)

def attributeName (cursor : Cursor) : Reader (String × Cursor) := do
  let (space, stop) ← namePart cursor
  match (behindGap stop).rest with
  | ':' :: _ =>
    let (name, stop) ← namePart (behindGap ((behindGap stop).skip 1))
    return (space ++ ":" ++ name, stop)
  | _ => return (space, stop)

def memberParts : Nat → String × Cursor → Reader (String × Cursor)
  | 0, _ => exhausted
  | fuel + 1, (name, stop) => do
    match (behindGap stop).rest with
    | '.' :: _ =>
      let (member, stop) ← namePart (behindGap ((behindGap stop).skip 1))
      memberParts fuel (name ++ "." ++ member, stop)
    | _ => return (name, stop)

def elementName (g : Grammar) (cursor : Cursor) : Reader (String × Cursor) := do
  memberParts g.budget (← attributeName cursor)

def behindBrace : Reader Cursor := do
  unless ← atMark "\x7d" do failWanting "\x7d"
  return (← place).ahead.stop

/-- An expression in braces among what stands in an element, read behind its opening brace; none if
there is only a comment. -/
def braced (g : Grammar) (cursor : Cursor) : Reader (Option Node × Cursor) := do
  resume cursor
  if ← atMark "\x7d" then return (none, (← place).ahead.stop)
  let start ← here
  let spreads ← takeMark "..."
  let inner ← freshExpression g
  let stop ← behindBrace
  if spreads then return (some (.mk .spread ⟨start, inner.span.stop⟩ [inner]), stop)
  return (some inner, stop)

def spreadAttributes (g : Grammar) (cursor : Cursor) : Reader (Node × Cursor) := do
  resume cursor
  let start ← here
  needMark "..."
  let inner ← freshAssignment g
  let stop ← behindBrace
  return (.mk .spread ⟨start, inner.span.stop⟩ [inner], stop)

def attributeValue (g : Grammar) (cursor : Cursor) : Reader (Node × Cursor) := do
  match cursor.rest with
  | '{' :: _ =>
    resume (cursor.skip 1)
    if ← atMark "\x7d" then
      advance
      failAt .emptyAttribute cursor.offset
    let inner ← freshExpression g
    return (inner, ← behindBrace)
  | '<' :: _ => g.element cursor
  | quote :: rest =>
    let isQuoted := quote == Quoted.mark || quote == '\x27'
    unless isQuoted do failThere cursor (fail .attributeValueExpected)
    let value := rest.takeWhile (· != quote)
    let stop := cursor.skip (value.length + 2)
    return (.mk (.literal (.string value)) ⟨cursor.offset, stop.offset⟩ [], stop)
  | [] => failThere cursor (fail .attributeValueExpected)

/-- Attributes up to the bracket that closes the tag: what they hold, whether the element ends here,
and the cursor behind the bracket. -/
def attributes (g : Grammar) : Nat → Cursor → Reader (List Node × Bool × Cursor)
  | 0, _ => exhausted
  | fuel + 1, cursor => do
    let cursor := behindGap cursor
    match cursor.rest with
    | [] => failLacking cursor ">"
    | '>' :: _ => return ([], false, cursor.skip 1)
    | '/' :: _ =>
      let closing := behindGap (cursor.skip 1)
      unless closing.rest.head? == some '>' do failLacking closing ">"
      return ([], true, closing.skip 1)
    | '{' :: _ =>
      let (inner, stop) ← spreadAttributes g (cursor.skip 1)
      let (more, ends, behind) ← attributes g fuel stop
      return (inner :: more, ends, behind)
    | _ =>
      let (_, stop) ← attributeName cursor
      let sign := behindGap stop
      unless sign.rest.head? == some '=' do return ← attributes g fuel stop
      let (value, stop) ← attributeValue g (behindGap (sign.skip 1))
      let (more, ends, behind) ← attributes g fuel stop
      return (value :: more, ends, behind)

def closingTag (g : Grammar) (name : String) (cursor : Cursor) : Reader Cursor := do
  let (closing, stop) ← if name.isEmpty then pure ("", cursor) else elementName g cursor
  let stop := behindGap stop
  unless stop.rest.head? == some '>' do failLacking stop ">"
  if closing != name then failThere (stop.skip 1) (failAt (.closingTagMismatch name) cursor.offset)
  return stop.skip 1

/-- What stands between an opening tag and its closing tag, up to behind the slash of the latter. A
fault in it shows as a closing tag that is missing. -/
def elementContent (g : Grammar) : Nat → Cursor → Reader (List Node × Cursor)
  | 0, _ => exhausted
  | fuel + 1, cursor => do
    match cursor.rest with
    | [] => failLacking cursor "</"
    | '{' :: _ =>
      let (inner, stop) ← recovering (braced g (cursor.skip 1)) fun _ => failWanting "</"
      let (more, behind) ← elementContent g fuel stop
      return (inner.toList ++ more, behind)
    | '<' :: _ =>
      let inner := behindGap (cursor.skip 1)
      if inner.rest.head? == some '/' then return ([], behindGap (inner.skip 1))
      let (child, stop) ← recovering (g.element cursor) fun _ => failWanting "</"
      let (more, behind) ← elementContent g fuel stop
      return (child :: more, behind)
    | _ :: _ => elementContent g fuel (cursor.skip 1)

def elementTypes? (g : Grammar) (cursor : Cursor) : Reader (List Node × Cursor) := do
  let opening := behindGap cursor
  unless opening.rest.head? == some '<' do return ([], cursor)
  resume opening
  match ← attempt (typeArguments g) with
  | some types => return (types, (← place).ahead.start)
  | none => return ([], cursor)

def elementAt (g : Grammar) (opening : Cursor) : Reader (Node × Cursor) := do
  let cursor := behindGap (opening.skip 1)
  let isFragment := cursor.rest.head? == some '>'
  let (name, held, ends, stop) ← if isFragment then pure ("", [], false, cursor.skip 1)
    else do
      let (name, stop) ← elementName g cursor
      let (types, stop) ← elementTypes? g stop
      let (held, ends, stop) ← attributes g g.budget stop
      pure (name, held ++ types, ends, stop)
  if ends then return (.mk (.other .element) ⟨opening.offset, stop.offset⟩ held, stop)
  let (inner, stop) ← elementContent g g.budget stop
  let stop ← closingTag g name stop
  return (.mk (.other .element) ⟨opening.offset, stop.offset⟩ (held ++ inner), stop)

end ClassWeave.Reader
