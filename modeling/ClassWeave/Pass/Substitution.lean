import ClassWeave.Pass.Fixpoint
/-!
# Substitutions

Rules given by texts: a target is deleted, replaced by a pattern, or a failure. In a pattern `%t` is
the target's text, `%p` the index of the pass, a digit the text of that argument, and a percent sign
takes any other character as it is.
-/

namespace ClassWeave

inductive Substitution where
  | delete
  | fail (message : String)
  | replace (pattern : Text)
deriving DecidableEq, Repr

structure Substitutions where
  calls : List (String × Substitution)
  imports : Option Substitution
  templates : Option Substitution
  firstPassOnly : Bool

inductive SubstitutionFailure where
  | message (text : String)
  | pass (failure : PassFailure)
deriving DecidableEq, Repr

namespace Substitution

def argument? (node : Node) (index : Nat) : Option Span :=
  match node with
  | .mk (.call arity) _ (_ :: behind) => ((behind.take arity)[index]?).map fun argument =>
    match argument with
    | .mk .spread _ [inner] => inner.span
    | other => other.span
  | _ => none

def fill (pass : Pass) (node : Node) : Text → Text
  | [] => []
  | '%' :: [] => []
  | '%' :: c :: rest =>
    let piece :=
      if c = 't' then pass.textAt node.span
      else if c = 'p' then Nat.toDigits 10 pass.index
      else if c.isDigit then ((argument? node (c.toNat - '0'.toNat)).map pass.textAt).getD []
      else [c]
    piece ++ fill pass node rest
  | c :: rest => c :: fill pass node rest

def spans (node : Node) : Text → List Span
  | [] => []
  | '%' :: [] => []
  | '%' :: c :: rest =>
    let piece :=
      if c = 't' then [node.span]
      else if c.isDigit then (argument? node (c.toNat - '0'.toNat)).toList
      else []
    piece ++ spans node rest
  | _ :: rest => spans node rest

end Substitution

namespace Substitutions

def of (all : Substitutions) (node : Node) : Option Substitution :=
  match node with
  | .mk (.importDeclaration _) _ _ => all.imports
  | .mk (.template _) _ _ => all.templates
  | .mk (.call _) _ (.mk (.identifier name) _ _ :: _) => all.calls.lookup name
  | _ => none

def rule (all : Substitutions) : Rule Unit (Node × Substitution) SubstitutionFailure where
  initial := ()
  seed _ state := .ok state
  select pass _ node :=
    if all.firstPassOnly && !pass.isFirst then none
    else (all.of node).map fun substitution => (node, substitution)
  replace pass _ picked :=
    match picked.2 with
    | .delete => .ok none
    | .fail message => .error (.message message)
    | .replace pattern => (pass.reading (Substitution.spans picked.1 pattern)
        (some (Substitution.fill pass picked.1 pattern))).mapError .pass
  failure := .pass

end Substitutions
end ClassWeave
