import ClassWeave.Edit.Run
import ClassWeave.SourceMap.Token
/-!
# Composing source maps

Every pass leaves a record, and every record is a map from the pass's output to its input. The maps
are chained, oldest first. Before each link the older map is aligned with the newer record, so that
every one of its tokens lies in one run.
-/

namespace ClassWeave

def Record.tokens (record : Record) : List MapToken :=
  SourceMap.inOrder <| record.runs.filterMap fun run =>
    if run.kind = .deleted then none
    else some ⟨run.generated, run.start, run.kind = .unedited⟩

namespace SourceMap

structure Stretch where
  token : MapToken
  start : Position
  stop : Position
deriving DecidableEq, Repr

/-- Gives every token the text up to the next one or to the end of its line; `place` tells where a
token stands. -/
def stretches (place : MapToken → Position) : List MapToken → List Stretch
  | [] => []
  | [token] => [⟨token, place token, (place token).nextLine⟩]
  | token :: next :: rest =>
    let lineEnd := (place token).nextLine
    let stop := if place next ≤ lineEnd then place next else lineEnd
    ⟨token, place token, stop⟩ :: stretches place (next :: rest)

def later (p q : Position) : Position := if p ≤ q then q else p

def moved (by' : MapToken) (position : Position) : Position :=
  ⟨position.line + by'.generated.line - by'.source.line,
    position.column + by'.generated.column - by'.source.column⟩

/-- The tokens of the older stretches that reach into a newer one, moved with it, and the older
stretches that may reach further. -/
def carry (newer : Stretch) : List Stretch → List MapToken × List Stretch
  | [] => ([], [])
  | older :: rest =>
    if older.start < newer.stop then
      let token := { older.token with
        generated := moved newer.token (later older.start newer.start) }
      if newer.stop ≤ older.stop then ([token], older :: rest)
      else
        let (tokens, left) := carry newer rest
        (token :: tokens, left)
    else ([], older :: rest)

def carryAll : List Stretch → List Stretch → List MapToken
  | _, [] => []
  | older, newer :: rest =>
    let (tokens, left) := carry newer (older.dropWhile (·.stop ≤ newer.start))
    tokens ++ carryAll left rest

def adjust (older newer : List MapToken) : List MapToken :=
  let byInput := Sorting.sort (fun a b : MapToken => a.source ≤ b.source) newer
  inOrder (carryAll (stretches (·.generated) older) (stretches (·.source) byInput))

/-- A token as the runs of the next pass leave it: dropped inside edited text, without its range at
the start of a replacement. -/
def settle (record : Record) (token : MapToken) : List MapToken :=
  match record.runAt token.generated with
  | none => [token]
  | some run =>
    match run.kind with
    | .unedited => [token]
    | .replaced => if run.start = token.generated then [{ token with isRange := false }] else []
    | .deleted => []

def rangeEnd (token : MapToken) (next : Option MapToken) : Position :=
  match next with
  | some next =>
    if next.generated.line = token.generated.line then next.generated
    else token.generated.nextLine
  | none => token.generated.nextLine

/-- A token, and for a range token one more wherever a run starts inside its range. -/
def split (record : Record) (token : MapToken) (next : Option MapToken) : List MapToken :=
  if token.isRange then
    let stop := rangeEnd token next
    let inside := (record.runs.map (·.start)).filter fun start =>
      token.generated < start && start < stop
    token :: inside.map fun start =>
      { token with
        generated := start
        source := ⟨token.source.line,
          token.source.column + (start.column - token.generated.column)⟩ }
  else [token]

def alignAll (record : Record) : List MapToken → List MapToken
  | [] => []
  | token :: rest => (split record token rest.head?).flatMap (settle record) ++ alignAll record rest

def align (tokens : List MapToken) (record : Record) : List MapToken :=
  inOrder (alignAll record tokens)

def extend (tokens : List MapToken) (record : Record) : List MapToken :=
  adjust (align tokens record) record.tokens

def composeTokens : List Record → List MapToken
  | [] => []
  | first :: rest => rest.foldl extend first.tokens

def compose (records : List Record) (file : Option String) : SourceMap :=
  ⟨file, composeTokens records⟩

end SourceMap
end ClassWeave
