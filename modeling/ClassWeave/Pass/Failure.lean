import ClassWeave.Edit.Apply
import ClassWeave.Script.Fault
/-!
# Failures of passes

Why a run of passes cannot be completed, whatever its rule.
-/

namespace ClassWeave

inductive PassFailure where
  | unreadable (file : String) (fault : ScriptFault)
  | passLimit (passes : Nat)
  /-- A text is not read or edited at the spans of its tree, which do not fit it. -/
  | misfit (fault : EditFault)
deriving DecidableEq, Repr

namespace PassFailure

def unreadableMessage (file message : String) (offset : Nat) : String :=
  s!"failed to parse {file}: {message} (at byte {offset})"

def passLimitMessage (passes : Nat) : String :=
  s!"no fixed point reached after {passes} rewrite passes"

def message : PassFailure → String
  | unreadable file fault => unreadableMessage file fault.cause.message fault.offset
  | passLimit passes => passLimitMessage passes
  | misfit .overlap => "edits overlap"
  | misfit .backwards => "an edit ends before it starts"
  | misfit .misplaced => "a span splits a character or leaves the text"

end PassFailure
end ClassWeave
