import ClassWeave.Proofs.Frontier
/-!
# Probing and walking

The probes and the walk of a pass skip, put off and stop. Over targets that nest, a probe tells what the first
target of the frontier tells, and the walk gathers the edits of the frontier up to the first that fails.
-/

namespace ClassWeave

namespace Rule

variable {σ χ ε : Type} {rule : Rule σ χ ε} {pass : Pass} {state : σ}

/-! ## Probes -/

variable (rule pass state) in
/-- What the first of some targets says about all of them. -/
def probe : List (Node × χ) → Except ε Bool
  | [] => .ok false
  | target :: _ => (rule.editOf pass state target).map fun _ => true

theorem probe_append (a b : List (Node × χ)) : rule.probe pass state (a ++ b) =
    (rule.probe pass state a).bind fun live => if live then .ok true else rule.probe pass state b := by
  cases a with
  | nil => rfl
  | cons target rest =>
    rw [List.cons_append, probe, probe]
    cases rule.editOf pass state target <;> rfl

theorem probe_replaced {node : Node} {picked : χ} :
    rule.probe pass state
        (if rule.changes pass state node.span picked then [(node, picked)] else []) =
      (rule.replaceAt pass state node.span picked).map fun replacement =>
        replacement.getD [] != pass.textAt node.span := by
  unfold changes
  cases h : rule.replaceAt pass state node.span picked with
  | error failure => simp only [if_true, probe, editOf, h]; rfl
  | ok replacement =>
    simp only [Except.map]
    split
    · rename_i hchanged
      simp only [probe, editOf, h, hchanged]; rfl
    · rename_i hsame
      rw [Bool.not_eq_true] at hsame
      rw [hsame]; rfl

theorem probe_bind_of_ne_nil {targets : List (Node × χ)} (h : targets ≠ []) (next : Bool → Except ε Bool)
    (hnext : next true = .ok true) :
    (rule.probe pass state targets).bind next = rule.probe pass state targets := by
  cases targets with
  | nil => exact absurd rfl h
  | cons target rest =>
    rw [probe]
    cases rule.editOf pass state target with
    | error failure => rfl
    | ok edit => exact hnext

mutual

theorem hasLive_eq : ∀ (node : Node) (outer : Span), node.Nested →
    (∀ inner ∈ node.targets, inner.span ≠ outer) →
    rule.hasLive pass state outer node = rule.probe pass state (rule.frontier pass state node.targets)
  | .mk shape span children, outer, hnested, houter => by
    rw [Node.Nested] at hnested
    obtain ⟨hinside, hchildren⟩ := hnested
    rw [Node.targets] at houter
    rw [hasLive]
    by_cases htarget : shape.isTarget = true
    · rw [if_pos htarget] at houter
      have hspan : span ≠ outer := houter _ List.mem_cons_self
      have hbehind := fun inner hinner => houter inner (List.mem_cons_of_mem _ hinner)
      have hpicked : rule.picked? pass state (.mk shape span children) =
          rule.select pass state (.mk shape span children) := picked?_of_isTarget htarget
      rw [if_pos (by simp [htarget, hspan])]
      cases hselect : rule.select pass state (.mk shape span children) with
      | none =>
        rw [frontier_mk_of_none (hpicked.trans hselect)]
        exact anyLive_eq children outer hchildren hbehind
      | some picked =>
        have ih := anyLive_eq children span hchildren fun inner hinner => (hinside htarget inner hinner).ne
        simp only [ih]
        cases hpending : rule.anyPending pass state children with
        | true =>
          rw [frontier_mk_of_inside hpending]
          exact probe_bind_of_ne_nil (frontier_allTargets_ne_nil children hpending) _ rfl
        | false =>
          have hreplaced := @probe_replaced _ _ _ rule pass state (.mk shape span children) picked
          rw [Node.span] at hreplaced
          rw [frontier_mk_of_some htarget hpending (hpicked.trans hselect), frontier_eq_nil hpending,
            hreplaced]
          cases rule.replaceAt pass state span picked <;> rfl
    · rw [if_neg htarget] at houter
      rw [if_neg (by simp [htarget]), Node.targets, if_neg htarget]
      exact anyLive_eq children outer hchildren houter

/-- Probing trees tells whether they have a frontier, or how the first target of it fails. -/
theorem anyLive_eq : ∀ (trees : List Node) (outer : Span), Node.AllNested trees →
    (∀ inner ∈ Node.allTargets trees, inner.span ≠ outer) → rule.anyLive pass state outer trees =
      rule.probe pass state (rule.frontier pass state (Node.allTargets trees))
  | [], _, _, _ => rfl
  | node :: rest, outer, hnested, houter => by
    rw [Node.AllNested] at hnested
    rw [Node.allTargets] at houter
    have hfirst := hasLive_eq node outer hnested.1 fun inner hinner =>
      houter inner (List.mem_append_left _ hinner)
    have hrest := anyLive_eq rest outer hnested.2.1 fun inner hinner =>
      houter inner (List.mem_append_right _ hinner)
    rw [anyLive, hfirst, hrest, Node.allTargets, frontier_append, probe_append]
    rfl

end

/-! ## The walk -/

variable (rule pass state) in
/-- Findings with the edits of targets, up to the first that fails, and whether one did. -/
def gather : Findings ε → List (Node × χ) → Findings ε × Bool
  | found, [] => (found, false)
  | found, target :: rest =>
    match rule.editOf pass state target with
    | .error failure => ({ found with failure := some failure }, true)
    | .ok edit => gather { found with edits := edit :: found.edits } rest

theorem gather_append (a b : List (Node × χ)) : ∀ found : Findings ε, rule.gather pass state found (a ++ b) =
    match rule.gather pass state found a with
    | (found, true) => (found, true)
    | (found, false) => rule.gather pass state found b := by
  induction a with
  | nil => intro found; rfl
  | cons target rest ih =>
    intro found
    rw [List.cons_append, gather, gather]
    cases rule.editOf pass state target with
    | error failure => rfl
    | ok edit => exact ih _

theorem gather_of_probe_error {targets : List (Node × χ)} {failure : ε} (found : Findings ε)
    (h : rule.probe pass state targets = .error failure) :
    rule.gather pass state found targets = ({ found with failure := some failure }, true) := by
  cases targets with
  | nil => cases h
  | cons target rest =>
    rw [probe] at h
    rw [gather]
    cases hedit : rule.editOf pass state target with
    | error other =>
      rw [hedit] at h
      cases h
      rfl
    | ok edit =>
      rw [hedit] at h
      cases h

theorem gather_replaced {shape : Shape} {span : Span} {children : List Node}
    {picked : χ} {replacement : Option Text} (found : Findings ε)
    (h : rule.replaceAt pass state span picked = .ok replacement) : rule.gather pass state found
      (if rule.changes pass state span picked then [(.mk shape span children, picked)] else []) =
        if replacement.getD [] = pass.textAt span then (found, false)
        else ({ found with edits := ⟨pass.module.range span, replacement⟩ :: found.edits }, false) := by
  unfold changes
  by_cases hsame : replacement.getD [] = pass.textAt span
  · simp [h, hsame, gather]
  · simp [h, hsame, gather, editOf, Except.map, Node.span]

theorem probe_eq_true {targets : List (Node × χ)} (h : targets ≠ []) {live : Bool}
    (hprobe : rule.probe pass state targets = .ok live) : live = true := by
  cases targets with
  | nil => exact absurd rfl h
  | cons target rest =>
    rw [probe] at hprobe
    cases hedit : rule.editOf pass state target with
    | error failure => rw [hedit] at hprobe; cases hprobe
    | ok edit => rw [hedit] at hprobe; cases hprobe; rfl

section
variable {node : Node} {picked : χ}

theorem resolve_of_error {failure : ε}
    (h : rule.anyLive pass state node.span node.children = .error failure) :
    rule.resolve pass state node picked = .error failure := by
  rw [resolve, h]; rfl

theorem resolve_of_live (h : rule.anyLive pass state node.span node.children = .ok true) :
    rule.resolve pass state node picked = .ok .deferred := by
  rw [resolve, h]; rfl

theorem resolve_of_failure {failure : ε} (h : rule.anyLive pass state node.span node.children = .ok false)
    (hreplace : rule.replaceAt pass state node.span picked = .error failure) :
    rule.resolve pass state node picked = .error failure := by
  rw [resolve, h]
  show (rule.replaceAt pass state node.span picked >>= _) = _
  rw [hreplace]; rfl

theorem resolve_of_replaced {replacement : Option Text}
    (h : rule.anyLive pass state node.span node.children = .ok false)
    (hreplace : rule.replaceAt pass state node.span picked = .ok replacement) :
    rule.resolve pass state node picked =
      if replacement.getD [] = pass.textAt node.span then .ok .unchanged
      else .ok (.edited ⟨pass.module.range node.span, replacement⟩) := by
  rw [resolve, h]
  show (rule.replaceAt pass state node.span picked >>= _) = _
  rw [hreplace]; rfl

end

mutual

theorem walk_visit_eq : ∀ (node : Node) (found : Findings ε), node.Nested →
    Node.walk (rule.visit pass state) found node =
      rule.gather pass state found (rule.frontier pass state node.targets)
  | .mk shape span children, found, hnested => by
    rw [Node.Nested] at hnested
    obtain ⟨hinside, hchildren⟩ := hnested
    rw [Node.walk]
    by_cases htarget : shape.isTarget = true
    · have hpicked : rule.picked? pass state (.mk shape span children) =
          rule.select pass state (.mk shape span children) := picked?_of_isTarget htarget
      have ih := fun found => walkAll_visit_eq children found hchildren
      rw [if_pos htarget, visit]
      cases hselect : rule.select pass state (.mk shape span children) with
      | none =>
        rw [frontier_mk_of_none (hpicked.trans hselect)]
        exact ih found
      | some picked =>
        have hlive : rule.anyLive pass state (Node.mk shape span children).span
          (Node.mk shape span children).children =
            rule.probe pass state (rule.frontier pass state (Node.allTargets children)) :=
          anyLive_eq children span hchildren fun inner hinner => (hinside htarget inner hinner).ne
        cases hpending : rule.anyPending pass state children with
        | true =>
          rw [frontier_mk_of_inside hpending]
          cases hprobe : rule.probe pass state (rule.frontier pass state (Node.allTargets children)) with
          | error failure =>
            simp only [resolve_of_error (hlive.trans hprobe)]
            rw [gather_of_probe_error found hprobe]
          | ok live =>
            rw [probe_eq_true (frontier_allTargets_ne_nil children hpending) hprobe] at hprobe
            simp only [resolve_of_live (hlive.trans hprobe)]
            exact ih found
        | false =>
          rw [frontier_eq_nil hpending] at hlive
          rw [frontier_mk_of_some htarget hpending (hpicked.trans hselect)]
          cases hreplace : rule.replaceAt pass state span picked with
          | error failure =>
            have hchanges : rule.changes pass state span picked = true := by unfold changes; rw [hreplace]
            simp only [resolve_of_failure hlive hreplace]
            rw [hchanges, if_pos rfl, gather_of_probe_error found]
            rw [probe, editOf, Node.span, hreplace]; rfl
          | ok replacement =>
            rw [gather_replaced found hreplace]
            by_cases hsame : replacement.getD [] = pass.textAt span
            · have hresolve := (resolve_of_replaced hlive hreplace).trans (if_pos hsame)
              simp only [hresolve, if_pos hsame]
            · have hresolve := (resolve_of_replaced hlive hreplace).trans (if_neg hsame)
              simp only [hresolve, if_neg hsame]
              rfl
    · rw [if_neg htarget, Node.targets, if_neg htarget]
      exact walkAll_visit_eq children found hchildren

/-- Walking trees gathers the edits of their frontier. -/
theorem walkAll_visit_eq : ∀ (trees : List Node) (found : Findings ε), Node.AllNested trees →
    Node.walkAll (rule.visit pass state) found trees =
      rule.gather pass state found (rule.frontier pass state (Node.allTargets trees))
  | [], _, _ => rfl
  | node :: rest, found, hnested => by
    rw [Node.AllNested] at hnested
    rw [Node.walkAll, walk_visit_eq node found hnested.1, Node.allTargets, frontier_append, gather_append]
    split
    · rename_i h
      rw [h]
    · rename_i h
      rw [h]
      exact walkAll_visit_eq rest _ hnested.2.1

end

/-! ## The edits of a pass -/

theorem gather_eq_mapM : ∀ (targets : List (Node × χ)) (acc : List Edit),
    match targets.mapM (rule.editOf pass state) with
    | .ok edits => rule.gather pass state ⟨acc, none⟩ targets = (⟨edits.reverse ++ acc, none⟩, false)
    | .error failure => (rule.gather pass state ⟨acc, none⟩ targets).1.failure = some failure
  | [], acc => rfl
  | target :: rest, acc => by
    rw [List.mapM_cons, gather]
    cases hedit : rule.editOf pass state target with
    | error failure => rfl
    | ok edit =>
      have ih := gather_eq_mapM rest (edit :: acc)
      cases hrest : rest.mapM (rule.editOf pass state) with
      | error failure =>
        rw [hrest] at ih
        exact ih
      | ok edits =>
        rw [hrest] at ih
        show rule.gather pass state ⟨edit :: acc, none⟩ rest = (⟨(edit :: edits).reverse ++ acc, none⟩, false)
        rw [ih, List.reverse_cons, List.append_assoc]
        rfl

theorem collectEdits_eq_mapM (nested : Node.AllNested pass.module.items) : rule.collectEdits pass state =
    (rule.frontier pass state (Node.allTargets pass.module.items)).mapM (rule.editOf pass state) := by
  have found :=
    @gather_eq_mapM _ _ _ rule pass state (rule.frontier pass state (Node.allTargets pass.module.items)) []
  rw [collectEdits, walkAll_visit_eq _ _ nested]
  cases hedits : (rule.frontier pass state (Node.allTargets pass.module.items)).mapM
    (rule.editOf pass state) with
  | error failure =>
    rw [hedits] at found
    simp only [found]
  | ok edits =>
    rw [hedits] at found
    simp only [found]
    rw [List.append_nil, List.reverse_reverse]

end Rule
end ClassWeave
