import ClassWeave.Pass.Failure
import ClassWeave.Script.Module
import ClassWeave.Script.Walk
/-!
# Rules and passes

A rule picks targets and says what becomes of each. A pass edits the picked targets in which nothing
is left to do: a target with a live one strictly inside is put off, where a target is live if one
strictly inside it is, or if its own replacement differs from its text.
-/

namespace ClassWeave

structure Pass where
  index : Nat
  module : Module

def Pass.isFirst (pass : Pass) : Bool := pass.index == 0

def Pass.textAt (pass : Pass) (span : Span) : Text := pass.module.textAt span

def Pass.reading {α : Type} (pass : Pass) (spans : List Span) (result : α) : Except PassFailure α :=
  if spans.all pass.module.admits then .ok result else .error (.misfit .misplaced)

/-- Which targets are replaced by what: `σ` is kept from pass to pass, `χ` is what was picked of a
target. -/
structure Rule (σ χ ε : Type) where
  initial : σ
  seed : Pass → σ → Except ε σ
  select : Pass → σ → Node → Option χ
  /-- What replaces a picked target; none deletes it. -/
  replace : Pass → σ → χ → Except ε (Option Text)
  failure : PassFailure → ε

namespace Rule

variable {σ χ ε : Type} (rule : Rule σ χ ε) (pass : Pass) (state : σ)

/-- What replaces a picked target. It is compared with the text of the target, so that is read too. -/
def replaceAt (span : Span) (picked : χ) : Except ε (Option Text) := do
  let replacement ← rule.replace pass state picked
  (pass.reading [span] replacement).mapError rule.failure

mutual

/-- Whether a tree holds a live target, one with the span `outer` aside. -/
def hasLive (outer : Span) : Node → Except ε Bool
  | .mk shape span children =>
    if shape.isTarget && span != outer then
      match rule.select pass state (.mk shape span children) with
      | none => anyLive outer children
      | some picked => do
        if ← anyLive span children then return true
        let replacement ← rule.replaceAt pass state span picked
        return replacement.getD [] != pass.textAt span
    else anyLive outer children

def anyLive (outer : Span) : List Node → Except ε Bool
  | [] => return false
  | node :: rest => do
    if ← hasLive outer node then return true
    anyLive outer rest

end

inductive Resolution where
  | deferred
  | unchanged
  | edited (edit : Edit)
deriving DecidableEq, Repr

def resolve (node : Node) (picked : χ) : Except ε Resolution := do
  if ← rule.anyLive pass state node.span node.children then return .deferred
  let replacement ← rule.replaceAt pass state node.span picked
  if replacement.getD [] = pass.textAt node.span then return .unchanged
  return .edited ⟨pass.module.range node.span, replacement⟩

structure Findings (ε : Type) where
  edits : List Edit
  failure : Option ε

def visit (found : Findings ε) (node : Node) : Findings ε × Step :=
  match rule.select pass state node with
  | none => (found, .descend)
  | some picked =>
    match rule.resolve pass state node picked with
    | .ok .deferred => (found, .descend)
    | .ok .unchanged => (found, .skip)
    | .ok (.edited edit) => ({ found with edits := edit :: found.edits }, .skip)
    | .error failure => ({ found with failure := some failure }, .stop)

/-- The edits of a pass, in pre-order. -/
def collectEdits : Except ε (List Edit) :=
  let found := (Node.walkAll (rule.visit pass state) ⟨[], none⟩ pass.module.items).1
  match found.failure with
  | some failure => .error failure
  | none => .ok found.edits.reverse

end Rule
end ClassWeave
