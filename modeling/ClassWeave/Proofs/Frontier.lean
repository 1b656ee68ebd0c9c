import ClassWeave.Proofs.Admission
/-!
# What a pass edits

A picked target is pending if one inside it is, or else if its replacement fails or differs from its text. The
frontier are the pending targets without a pending one inside: a tree has one exactly if it holds a pending
target, and a target of it is all of its own tree's frontier.
-/

namespace ClassWeave

namespace Node

theorem allTargets_subset_targets {shape : Shape} {span : Span} {children : List Node} :
    allTargets children ⊆ (mk shape span children).targets := by
  rw [targets]
  split
  · exact List.subset_cons_self _ _
  · exact List.Subset.refl _

theorem mem_targets_self {shape : Shape} {span : Span} {children : List Node} (h : shape.isTarget = true) :
    mk shape span children ∈ (mk shape span children).targets := by
  rw [targets, if_pos h]
  exact List.mem_cons_self

end Node

namespace Rule

section
variable {σ χ ε : Type} (rule : Rule σ χ ε) (pass : Pass) (state : σ)

def picked? (node : Node) : Option χ := if node.shape.isTarget then rule.select pass state node else none

def changes (span : Span) (picked : χ) : Bool :=
  match rule.replaceAt pass state span picked with
  | .error _ => true
  | .ok replacement => replacement.getD [] != pass.textAt span

mutual

def holdsPending : Node → Bool
  | .mk shape span children =>
    anyPending children ||
      (rule.picked? pass state (.mk shape span children)).any (rule.changes pass state span)

def anyPending : List Node → Bool
  | [] => false
  | node :: rest => holdsPending node || anyPending rest

end

/-- Whether a node is a pending target. -/
def pending (node : Node) : Bool :=
  (rule.picked? pass state node).any fun picked =>
    rule.anyPending pass state node.children || rule.changes pass state node.span picked

/-- Those of some targets that are pending without a pending one inside, with what was picked of them. -/
def frontier (targets : List Node) : List (Node × χ) :=
  targets.filterMap fun node =>
    if rule.pending pass state node && !rule.anyPending pass state node.children then
      (rule.picked? pass state node).map fun picked => (node, picked)
    else none

def editOf (target : Node × χ) : Except ε Edit :=
  (rule.replaceAt pass state target.1.span target.2).map fun replacement =>
    ⟨pass.module.range target.1.span, replacement⟩

variable {rule pass state}

theorem picked?_of_isTarget {node : Node} (h : node.shape.isTarget = true) :
    rule.picked? pass state node = rule.select pass state node := if_pos h

theorem holdsPending_eq (node : Node) : rule.holdsPending pass state node =
    (rule.anyPending pass state node.children || rule.pending pass state node) := by
  obtain ⟨shape, span, children⟩ := node
  rw [holdsPending, pending, Node.children, Node.span]
  cases rule.picked? pass state (.mk shape span children) with
  | none => rfl
  | some picked => cases rule.anyPending pass state children <;> rfl

mutual

theorem holdsPending_iff : ∀ node : Node, rule.holdsPending pass state node = true ↔
    ∃ inner ∈ node.targets, rule.pending pass state inner = true
  | .mk shape span children => by
    have ih := anyPending_iff children
    rw [holdsPending_eq, Bool.or_eq_true, Node.children, ih, Node.targets]
    by_cases h : shape.isTarget = true
    · rw [if_pos h]
      simp only [List.mem_cons, exists_eq_or_imp]
      exact or_comm
    · rw [if_neg h]
      have hpicked : rule.pending pass state (.mk shape span children) = false := by
        rw [pending, picked?, Node.shape, if_neg h]; rfl
      simp [hpicked]

theorem anyPending_iff : ∀ trees : List Node, rule.anyPending pass state trees = true ↔
    ∃ inner ∈ Node.allTargets trees, rule.pending pass state inner = true
  | [] => by simp [anyPending, Node.allTargets]
  | node :: rest => by
    rw [anyPending, Bool.or_eq_true, holdsPending_iff node, anyPending_iff rest, Node.allTargets]
    simp only [List.mem_append, or_and_right, exists_or]

end

/-- A picked target is pending if one inside it is, or else if its own replacement fails or differs. -/
theorem pending_iff {node : Node} : rule.pending pass state node = true ↔
    ∃ picked, rule.picked? pass state node = some picked ∧
      ((∃ inner ∈ Node.allTargets node.children, rule.pending pass state inner = true) ∨
        rule.changes pass state node.span picked = true) := by
  rw [pending, Option.any_eq_true, ← anyPending_iff]
  simp only [Bool.or_eq_true]

/-! ## The frontier of a tree -/

theorem frontier_append (a b : List Node) :
    rule.frontier pass state (a ++ b) = rule.frontier pass state a ++ rule.frontier pass state b :=
  List.filterMap_append

theorem frontier_cons (node : Node) (targets : List Node) : rule.frontier pass state (node :: targets) =
    rule.frontier pass state [node] ++ rule.frontier pass state targets := frontier_append [node] targets

theorem frontier_singleton_of_inside {node : Node} (h : rule.anyPending pass state node.children = true) :
    rule.frontier pass state [node] = [] := by
  simp [frontier, h]

theorem frontier_singleton_of_none {node : Node} (h : rule.picked? pass state node = none) :
    rule.frontier pass state [node] = [] := by
  simp [frontier, h]

theorem frontier_singleton_of_some {node : Node} {picked : χ}
    (hinside : rule.anyPending pass state node.children = false)
    (hpicked : rule.picked? pass state node = some picked) : rule.frontier pass state [node] =
      if rule.changes pass state node.span picked then [(node, picked)] else [] := by
  cases h : rule.changes pass state node.span picked <;> simp [frontier, pending, hinside, hpicked, h]

theorem mem_frontier {targets : List Node} {target : Node × χ} : target ∈ rule.frontier pass state targets ↔
    target.1 ∈ targets ∧ rule.pending pass state target.1 = true ∧
      rule.anyPending pass state target.1.children = false ∧
      rule.picked? pass state target.1 = some target.2 := by
  obtain ⟨node, picked⟩ := target
  simp only [frontier, List.mem_filterMap]
  constructor
  · rintro ⟨other, hother, h⟩
    split at h
    · rename_i hfree
      obtain ⟨picked', hpicked, heq⟩ := Option.map_eq_some_iff.1 h
      obtain ⟨rfl, rfl⟩ := Prod.mk.inj heq
      simp only [Bool.and_eq_true, Bool.not_eq_true'] at hfree
      exact ⟨hother, hfree.1, hfree.2, hpicked⟩
    · cases h
  · rintro ⟨hnode, hpending, hinside, hpicked⟩
    refine ⟨node, hnode, ?_⟩
    rw [hpending, hinside, hpicked]
    rfl

theorem isTarget_of_picked {shape : Shape} {span : Span} {children : List Node} {picked : χ}
    (h : rule.picked? pass state (.mk shape span children) = some picked) : shape.isTarget = true := by
  by_contra hnot
  rw [picked?, Node.shape, if_neg hnot] at h
  cases h

mutual

theorem frontier_targets_ne_nil : ∀ node : Node, rule.holdsPending pass state node = true →
    rule.frontier pass state node.targets ≠ []
  | .mk shape span children, h => by
    have ih := frontier_allTargets_ne_nil children
    rw [holdsPending_eq, Bool.or_eq_true, Node.children] at h
    by_cases hinside : rule.anyPending pass state children = true
    · rw [Node.targets]
      split
      · rw [frontier_cons]
        exact List.append_ne_nil_of_right_ne_nil _ (ih hinside)
      · exact ih hinside
    · have hpending := h.resolve_left hinside
      obtain ⟨picked, hpicked, hchanges⟩ := pending_iff.1 hpending
      rw [Node.targets, if_pos (isTarget_of_picked hpicked), frontier_cons]
      refine List.append_ne_nil_of_left_ne_nil ?_ _
      have hmem : (Node.mk shape span children, picked) ∈
          rule.frontier pass state [.mk shape span children] :=
        mem_frontier.2 ⟨by simp, hpending, Bool.not_eq_true _ ▸ hinside, hpicked⟩
      exact List.ne_nil_of_mem hmem

theorem frontier_allTargets_ne_nil : ∀ trees : List Node, rule.anyPending pass state trees = true →
    rule.frontier pass state (Node.allTargets trees) ≠ []
  | [], h => by simp [anyPending] at h
  | node :: rest, h => by
    rw [anyPending, Bool.or_eq_true] at h
    rw [Node.allTargets, frontier_append]
    rcases h with h | h
    · exact List.append_ne_nil_of_left_ne_nil (frontier_targets_ne_nil node h) _
    · exact List.append_ne_nil_of_right_ne_nil _ (frontier_allTargets_ne_nil rest h)

end

theorem frontier_eq_nil {trees : List Node} (h : rule.anyPending pass state trees = false) :
    rule.frontier pass state (Node.allTargets trees) = [] := by
  rw [List.eq_nil_iff_forall_not_mem]
  intro target htarget
  obtain ⟨hmem, hpending, -, -⟩ := mem_frontier.1 htarget
  rw [(anyPending_iff trees).2 ⟨target.1, hmem, hpending⟩] at h
  cases h

theorem frontier_mk_of_none {shape : Shape} {span : Span} {children : List Node}
    (h : rule.picked? pass state (.mk shape span children) = none) :
    rule.frontier pass state (Node.mk shape span children).targets =
      rule.frontier pass state (Node.allTargets children) := by
  rw [Node.targets]
  split
  · rw [frontier_cons, frontier_singleton_of_none h, List.nil_append]
  · rfl

theorem frontier_mk_of_inside {shape : Shape} {span : Span} {children : List Node}
    (h : rule.anyPending pass state children = true) :
    rule.frontier pass state (Node.mk shape span children).targets =
      rule.frontier pass state (Node.allTargets children) := by
  rw [Node.targets]
  split
  · rw [frontier_cons, frontier_singleton_of_inside h, List.nil_append]
  · rfl

theorem frontier_mk_of_some {shape : Shape} {span : Span} {children : List Node} {picked : χ}
    (htarget : shape.isTarget = true) (hinside : rule.anyPending pass state children = false)
    (hpicked : rule.picked? pass state (.mk shape span children) = some picked) :
    rule.frontier pass state (Node.mk shape span children).targets =
      if rule.changes pass state span picked then [(.mk shape span children, picked)] else [] := by
  rw [Node.targets, if_pos htarget, frontier_cons, frontier_singleton_of_some hinside hpicked,
    frontier_eq_nil hinside, List.append_nil]
  rfl

end

end Rule

/-! ## Targets that nest -/

structure Span.Inside (inner outer : Span) : Prop where
  start : outer.start ≤ inner.start
  stop : inner.stop ≤ outer.stop
  ne : inner ≠ outer

theorem Span.inside_iff {inner outer : Span} :
    inner.Inside outer ↔ outer.start ≤ inner.start ∧ inner.stop ≤ outer.stop ∧ inner ≠ outer :=
  ⟨fun h => ⟨h.start, h.stop, h.ne⟩, fun h => ⟨h.1, h.2.1, h.2.2⟩⟩

instance (inner outer : Span) : Decidable (inner.Inside outer) := decidable_of_iff' _ Span.inside_iff

namespace Node

mutual

/-- The targets of a tree nest: one inside another has its span strictly inside, and unrelated ones
are apart. -/
def Nested : Node → Prop
  | mk shape span children =>
    (shape.isTarget = true → ∀ inner ∈ allTargets children, inner.span.Inside span) ∧ AllNested children

def AllNested : List Node → Prop
  | [] => True
  | node :: rest =>
    Nested node ∧ AllNested rest ∧ ∀ a ∈ targets node, ∀ b ∈ allTargets rest, a.span.Apart b.span

end

mutual

def decideNested : (node : Node) → Decidable node.Nested
  | mk shape span children =>
    have := decideAllNested children
    decidable_of_iff' ((shape.isTarget = true → ∀ inner ∈ allTargets children, inner.span.Inside span) ∧
      AllNested children) (by rw [Nested])

def decideAllNested : (trees : List Node) → Decidable (AllNested trees)
  | [] => .isTrue trivial
  | node :: rest =>
    have := decideNested node
    have := decideAllNested rest
    decidable_of_iff' (Nested node ∧ AllNested rest ∧ ∀ a ∈ targets node,
      ∀ b ∈ allTargets rest, a.span.Apart b.span) (by rw [AllNested])

end

instance (trees : List Node) : Decidable (AllNested trees) := decideAllNested trees

end Node

end ClassWeave
