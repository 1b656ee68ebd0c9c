import ClassWeave.Script.Grammar.Declaration
/-!
# Imports and exports

Import and export declarations. A specifier covers what stands between its commas, from the word
`type` or the imported name to the local name.
-/

namespace ClassWeave

inductive ExportName where
  | word (name : String)
  | string (value : Text)

def ExportName.text : ExportName → String
  | word name => name
  | string value => String.ofList value

namespace Reader

def exportName : Reader ExportName := do
  match ← ahead with
  | .word name _ => advance; return .word name
  | .string value => advance; return .string value
  | _ => failUnexpected "identifier or string"

def boundName : Reader String := do
  match (← identifier).shape with
  | .identifier name => return name
  | _ => fail .identifierExpected

def renamed (start offset : Nat) (imported : ExportName) (typeOnly : Bool) :
    Reader ImportSpecifier := do
  if ← takeWord "as" then
    let binding ← boundName
    return .named ⟨start, ← lastEnd⟩ imported.text binding typeOnly
  match imported with
  | .string value => failAt (.unboundStringImport (String.ofList value)) offset
  | .word name =>
    if Token.keywords.contains name || Token.reserved.contains name then
      failAt .reservedImport offset
    return .named ⟨start, ← lastEnd⟩ name name typeOnly

def typeAsSpecifier (start : Nat) : Reader ImportSpecifier := do
  unless (← ahead).isAnyWord do return .named ⟨start, ← lastEnd⟩ "as" "as" true
  let binding ← boundName
  if binding == "as" && (← ahead).isAnyWord then
    let binding ← boundName
    return .named ⟨start, ← lastEnd⟩ "as" binding true
  return .named ⟨start, ← lastEnd⟩ "type" binding false

def importSpecifier : Reader ImportSpecifier := do
  let start ← here
  let imported ← exportName
  let token ← ahead
  match imported with
  | .word "type" =>
    unless token.isAnyWord || token.isString do return ← renamed start start imported false
    let offset ← here
    match ← exportName with
    | .word "as" => typeAsSpecifier start
    | imported => renamed start offset imported true
  | _ => renamed start start imported false

def exchangeAttributes (g : Grammar) : Reader (List Node) := do
  if ((← atWord "with") || (← atWord "assert")) && !(← onNewLine) then
    advance
    return [← g.object]
  return []

def moduleSource : Reader Text := do
  match ← ahead with
  | .string value => advance; return value
  | _ => failUnexpected "a string literal"

def sourceClause (g : Grammar) : Reader (Text × List Node) := do
  needWord "from"
  let source ← moduleSource
  let held ← exchangeAttributes g
  endStatement
  return (source, held)

def importAlias (g : Grammar) (start : Nat) : Reader Node := do
  needMark "="
  if (← atWord "require") && (← second).token.isMark "(" then
    advance
    advance
    let _ ← moduleSource
    needMark ")"
  else dottedName g identifier
  endStatement
  form .importAlias start []

inductive ImportPhase where
  | evaluation
  | defer
  | source
deriving DecidableEq

inductive ImportHead where
  | bare (typeOnly : Bool) (phase : ImportPhase)
  | binding (typeOnly : Bool) (phase : ImportPhase) (single : ImportSpecifier)
  | alias

def atImportList : Reader Bool := return (← atMark "\x7b") || (← atMark "*")

def defaultBinding : Reader ImportSpecifier := do
  let start ← here
  let name ← boundName
  return .single ⟨start, ← lastEnd⟩ name

/-- The name that stands behind the word `type` as a default binding; none if that word is the default
binding itself. -/
def typeBinding? : Reader (Option ImportSpecifier) := do
  unless (← ahead).isReference do return none
  let next := (← second).token
  unless !(← atWord "from") || next.isWord "from" || next.isMark "=" do return none
  return some (← defaultBinding)

def phaseBindingFollows : Reader Bool := do
  return ((← ahead).isReference && !(← atWord "from")) || (← second).token.isWord "from"

def importHead : Reader ImportHead := do
  unless (← ahead).isReference do return .bare false .evaluation
  let first ← defaultBinding
  let isType := isNamed "type" first
  if isType && (← atImportList) then return .bare true .evaluation
  let other ← if isType then typeBinding? else pure none
  let local' := other.getD first
  if ← atMark "=" then return .alias
  let phase := if isNamed "source" local' then ImportPhase.source
    else if isNamed "defer" local' then .defer else .evaluation
  if phase != .evaluation && (← atImportList) then return .bare other.isSome phase
  let phased := phase != .evaluation && (← phaseBindingFollows)
  let local' ← if phased then defaultBinding else pure local'
  unless ← atWord "from" do needMark ","
  return .binding other.isSome (if phased then phase else .evaluation) local'
where
  isNamed (name : String) : ImportSpecifier → Bool
    | .single _ found => found == name
    | _ => false

def importedNames (g : Grammar) (phase : ImportPhase) : Reader (List ImportSpecifier) := do
  let start ← here
  if phase != .source && (← atMark "*") then
    advance
    needWord "as"
    let binding ← boundName
    return [.everything ⟨start, ← lastEnd⟩ binding]
  if phase == .evaluation && (← atMark "\x7b") then
    advance
    return ← listUntil "\x7d" importSpecifier g.budget
  return []

def importDeclaration (g : Grammar) (start : Nat) : Reader Node := do
  if let .string source ← ahead then
    advance
    let held ← exchangeAttributes g
    endStatement
    return ← node (.importDeclaration ⟨false, [], source⟩) start held
  match ← importHead with
  | .alias => importAlias g start
  | .bare typeOnly phase => declaration typeOnly phase []
  | .binding typeOnly phase single => declaration typeOnly phase [single]
where
  declaration (typeOnly : Bool) (phase : ImportPhase) (single : List ImportSpecifier) :
      Reader Node := do
    let others ← importedNames g phase
    let (source, held) ← sourceClause g
    node (.importDeclaration ⟨typeOnly, single ++ others, source⟩) start held

/-- What follows the words `type as` of an exported name: perhaps a name, and behind the name `as` perhaps
another. -/
def exportBehindTypeAs : Reader Unit := do
  unless (← ahead).isAnyWord do return
  let isAs := (← anyName).shape == .identifier "as"
  if isAs && (← ahead).isAnyWord then
    let _ ← anyName

def exportSpecifier : Reader Unit := do
  let isType := match ← exportName with
    | .word name => name == "type"
    | .string _ => false
  let token ← ahead
  if isType && (token.isAnyWord || token.isString) then
    if let .word "as" ← exportName then return ← exportBehindTypeAs
  if ← takeWord "as" then
    let _ ← exportName

def exportedClass? (g : Grammar) (decoration : List Node) (named : Bool) :
    Reader (Option Node) := do
  let start ← here
  let next ← second
  if !named && (← atWord "abstract") && next.token.isWord "class" && !next.onNewLine then advance
  unless ← takeWord "class" do return none
  return some (← g.classTail start decoration named .classDeclaration)

def exportDecorators (g : Grammar) (decoration : List Node) : Reader (List Node) := do
  unless ← atMark "@" do return decoration
  let start ← here
  let own ← g.decorators
  unless decoration.isEmpty do failAt .decoratorsTwice start
  return own

def defaultExport (g : Grammar) (decoration : List Node) : Reader Node := do
  let decoration ← exportDecorators g decoration
  let start ← here
  if let some found ← exportedClass? g decoration false then return found
  if ← takeWord "interface" then return ← interfaceTail g start
  if (← atWord "function") || (← atAsyncFunction) then
    return ← functionDeclaration g false decoration
  let value ← freshAssignment g
  endStatement
  return value

def exportedNames (g : Grammar) (start : Nat) : Reader Node := do
  if ← takeMark "*" then
    if ← takeWord "as" then
      let _ ← exportName
    let (_, held) ← sourceClause g
    return ← form .exportAll start held
  needMark "\x7b"
  let _ ← listUntil "\x7d" exportSpecifier g.budget
  if ← atWord "from" then
    let (_, held) ← sourceClause g
    return ← form .exportNames start held
  let _ ← takeStatementEnd
  form .exportNames start []

def exportedDeclaration? (g : Grammar) (typeOnly : Bool) (decoration : List Node) :
    Reader (Option Node) := do
  let start ← here
  if let some found ← constantEnumeration? g start then return some found
  if typeOnly then return none
  if let some found ← exportedClass? g decoration true then return some found
  if (← atWord "function") || (← atAsyncFunction) then
    return some (← functionDeclaration g true decoration)
  match ← variableKind? with
  | some kind =>
    advance
    return some (← variableTail g start kind)
  | none => return none

def specialExport? (g : Grammar) (start : Nat) : Reader (Option Node) := do
  if ← takeWord "import" then
    if (← atWord "type") && (← second).token.isAnyWord then advance
    let _ ← anyName
    return some (← importAlias g start)
  if ← takeMark "=" then
    let value ← freshExpression g
    endStatement
    return some (← form .exportAssignment start [value])
  if ← takeWord "as" then
    needWord "namespace"
    let _ ← identifier
    endStatement
    return some (← form .exportNamespace start [])
  return none

/-- A declaration that a word behind `export` begins, if there is one. Faults in it are no matter: it is
read in another way then. -/
def exportedWord? (g : Grammar) (decoration : List Node) : Reader (Option Node) := do
  match ← ahead with
  | .word name _ =>
    let found ← attempt do
      let start ← here
      match ← wordDeclaration? g start decoration name true with
      | some found => return found
      | none => failUnexpected name
    return found
  | _ => return none

def exportStatement (g : Grammar) (decoration : List Node) : Reader Node := do
  let start ← here
  advance
  if ← atEnd then fail .unexpectedEnd
  let inner ← here
  if ← takeWord "declare" then
    if let some found ← ambientDeclaration? g inner decoration then
      return ← form .exportDeclaration start [found]
  if let some found ← exportedWord? g decoration then
    return ← form .exportDeclaration start [found]
  if let some found ← specialExport? g start then return found
  let typeOnly ← takeWord "type"
  if !typeOnly && (← atWord "default") then
    advance
    let exported ← defaultExport g decoration
    return ← form .exportDefault start [exported]
  let decoration ← exportDecorators g decoration
  match ← exportedDeclaration? g typeOnly decoration with
  | some found => form .exportDeclaration start [found]
  | none => exportedNames g start

end Reader
end ClassWeave
