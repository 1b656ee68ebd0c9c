import ClassWeave.Pass.Rule
import ClassWeave.SourceMap.Compose
/-!
# Runs of passes

Passes repeat until one changes nothing. Each reads the text that the one before it left.
-/

namespace ClassWeave

structure Fixpoint where
  code : Text
  /-- One record for every pass, the one that changed nothing included. -/
  records : List Record

def Fixpoint.passes (fixpoint : Fixpoint) : Nat := fixpoint.records.length

def Fixpoint.map (fixpoint : Fixpoint) (file : Option String) : SourceMap :=
  SourceMap.compose fixpoint.records file

structure RunTrace (ε : Type) where
  texts : List Text
  outcome : Except ε Fixpoint

namespace Rule

variable {σ χ ε : Type} (rule : Rule σ χ ε)

def onePass (pass : Pass) (state : σ) : Except ε (σ × List Edit × Text × Record) := do
  let state ← rule.seed pass state
  let edits ← rule.collectEdits pass state
  match Edit.applyAll pass.index pass.module.text edits with
  | .ok (output, record) => return (state, edits, output, record)
  | .error fault => throw (rule.failure (.misfit fault))

/-- At most `left` more passes over `text`, behind those with `records`. -/
def passes (file : Option String) (limit : Nat) : Nat → σ → Text → List Record → RunTrace ε
  | 0, _, _, _ => ⟨[], .error (rule.failure (.passLimit limit))⟩
  | left + 1, state, text, records =>
    let name := file.getD ""
    match Module.read text (Module.holdsElements name) with
    | .error fault => ⟨[], .error (rule.failure (.unreadable name fault))⟩
    | .ok found =>
      match rule.onePass ⟨records.length, found⟩ state with
      | .error failure => ⟨[text], .error failure⟩
      | .ok (state, edits, output, record) =>
        let records := records ++ [record]
        if edits.isEmpty then ⟨[text], .ok ⟨output, records⟩⟩
        else
          let more := passes file limit left state output records
          ⟨text :: more.texts, more.outcome⟩

def run (file : Option String) (limit : Nat) (text : Text) : RunTrace ε :=
  rule.passes file limit limit rule.initial text []

end Rule
end ClassWeave
