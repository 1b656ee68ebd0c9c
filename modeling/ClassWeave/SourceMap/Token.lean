import ClassWeave.Sorting
import ClassWeave.Text.Position
/-!
# Source maps

A source map is a list of tokens in the order of the generated text. A token stands for the place
where it is; a range token also for the columns behind it.
-/

namespace ClassWeave

structure MapToken where
  generated : Position
  source : Position
  isRange : Bool
deriving DecidableEq, Repr

structure SourceMap where
  file : Option String
  tokens : List MapToken
deriving DecidableEq, Repr

namespace SourceMap

def inOrder (tokens : List MapToken) : List MapToken :=
  Sorting.sort (fun a b => a.generated ≤ b.generated) tokens

/-- The token that answers for a position: the first at the position itself, or else the last before
it. -/
def tokenAt (tokens : List MapToken) (position : Position) : Option MapToken :=
  let upTo := tokens.takeWhile (·.generated ≤ position)
  (upTo.find? (·.generated == position)).or upTo.getLast?

def sourcePosition (map : SourceMap) (position : Position) : Option Position :=
  match tokenAt map.tokens position with
  | none => none
  | some token =>
    if token.generated.line = position.line then
      let shift := if token.isRange then position.column - token.generated.column else 0
      some ⟨token.source.line, token.source.column + shift⟩
    else none

end SourceMap
end ClassWeave
