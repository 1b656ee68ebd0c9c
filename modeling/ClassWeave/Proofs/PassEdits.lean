import ClassWeave.Pass.Substitution
import ClassWeave.Proofs.Probing
/-!
# What a pass edits

The edits of a pass are those of its frontier. They are apart from each other, none is empty, and there is one
as soon as a target is pending; what is replaced while another waits inside it does not matter to them.
-/

namespace ClassWeave

namespace Rule

variable {σ χ ε : Type} {rule : Rule σ χ ε} {pass : Pass} {state : σ}

/-! ## Where the edits stand -/

mutual

theorem frontier_targets_apart : ∀ node : Node, node.Nested →
    (rule.frontier pass state node.targets).Pairwise fun a b => a.1.span.Apart b.1.span
  | .mk shape span children, hnested => by
    rw [Node.Nested] at hnested
    have ih := frontier_allTargets_apart children hnested.2
    cases hpicked : rule.picked? pass state (.mk shape span children) with
    | none =>
      rw [frontier_mk_of_none hpicked]
      exact ih
    | some picked =>
      cases hinside : rule.anyPending pass state children with
      | true =>
        rw [frontier_mk_of_inside hinside]
        exact ih
      | false =>
        rw [frontier_mk_of_some (isTarget_of_picked hpicked) hinside hpicked]
        split
        · exact List.pairwise_singleton _ _
        · exact List.Pairwise.nil

theorem frontier_allTargets_apart : ∀ trees : List Node, Node.AllNested trees →
    (rule.frontier pass state (Node.allTargets trees)).Pairwise fun a b => a.1.span.Apart b.1.span
  | [], _ => List.Pairwise.nil
  | node :: rest, hnested => by
    rw [Node.AllNested] at hnested
    obtain ⟨hnode, hrest, happart⟩ := hnested
    rw [Node.allTargets, frontier_append, List.pairwise_append]
    refine ⟨frontier_targets_apart node hnode, frontier_allTargets_apart rest hrest, ?_⟩
    intro a ha b hb
    exact happart a.1 (mem_frontier.1 ha).1 b.1 (mem_frontier.1 hb).1

end

theorem editOf_eq_ok {target : Node × χ} {edit : Edit} (h : rule.editOf pass state target = .ok edit) :
    edit.span = pass.module.range target.1.span ∧ pass.module.admits target.1.span = true := by
  rw [editOf] at h
  cases hreplace : rule.replaceAt pass state target.1.span target.2 with
  | error failure => rw [hreplace] at h; cases h
  | ok replacement =>
    rw [hreplace] at h
    cases h
    exact ⟨rfl, (replaceAt_eq_ok.1 hreplace).2⟩

theorem spans_of_mapM : ∀ {targets : List (Node × χ)} {edits : List Edit},
    targets.mapM (rule.editOf pass state) = .ok edits →
    edits.map (·.span) = targets.map fun target => pass.module.range target.1.span
  | [], edits, h => by
    cases h
    rfl
  | target :: rest, edits, h => by
    rw [List.mapM_cons] at h
    cases hedit : rule.editOf pass state target with
    | error failure => rw [hedit] at h; cases h
    | ok edit =>
      rw [hedit] at h
      cases hrest : rest.mapM (rule.editOf pass state) with
      | error failure => rw [hrest] at h; cases h
      | ok more =>
        rw [hrest] at h
        cases h
        rw [List.map_cons, List.map_cons, spans_of_mapM hrest, (editOf_eq_ok hedit).1]

theorem exists_of_mapM {α β : Type} {f : α → Except ε β} : ∀ {list : List α} {results : List β},
    list.mapM f = .ok results → ∀ a ∈ list, ∃ b, f a = .ok b
  | [], _, _ => nofun
  | a :: rest, results, h => by
    rw [List.mapM_cons] at h
    cases hfirst : f a with
    | error failure => rw [hfirst] at h; cases h
    | ok b =>
      rw [hfirst] at h
      cases hrest : rest.mapM f with
      | error failure => rw [hrest] at h; cases h
      | ok more => exact List.forall_mem_cons.2 ⟨⟨b, hfirst⟩, exists_of_mapM hrest⟩

theorem mapM_of_exists {α β : Type} {f : α → Except ε β} : ∀ {list : List α},
    (∀ a ∈ list, ∃ b, f a = .ok b) → ∃ results, list.mapM f = .ok results
  | [], _ => ⟨[], rfl⟩
  | a :: rest, h => by
    obtain ⟨⟨b, hb⟩, hrest⟩ := List.forall_mem_cons.1 h
    obtain ⟨results, hresults⟩ := mapM_of_exists hrest
    exact ⟨b :: results, by rw [List.mapM_cons, hb, hresults]; rfl⟩

theorem admits_of_mapM {targets : List (Node × χ)} {edits : List Edit}
    (h : targets.mapM (rule.editOf pass state) = .ok edits) :
    ∀ target ∈ targets, pass.module.admits target.1.span = true := by
  intro target htarget
  obtain ⟨edit, hedit⟩ := exists_of_mapM h target htarget
  exact (editOf_eq_ok hedit).2

end Rule

/-- The targets of a module nest, and each covers some of the text. -/
structure Module.Proper (m : Module) : Prop where
  nested : Node.AllNested m.items
  filled : ∀ target ∈ Node.allTargets m.items,
    target.span.start < target.span.stop ∧ target.span.stop ≤ m.text.byteLength

theorem Module.range_eq {m : Module} {span : Span} (hforward : span.start < span.stop)
    (hstop : span.stop ≤ m.text.byteLength) : m.range span = span := by
  rw [Module.range, Nat.min_eq_left (by omega), Nat.min_eq_left hstop]

namespace Rule

variable {σ χ ε : Type} {rule : Rule σ χ ε} {pass : Pass} {state : σ}

theorem mem_collectEdits (proper : pass.module.Proper) {edits : List Edit}
    (h : rule.collectEdits pass state = .ok edits) :
    edits.map (·.span) =
      (rule.frontier pass state (Node.allTargets pass.module.items)).map fun target => target.1.span := by
  rw [collectEdits_eq_mapM proper.nested] at h
  rw [spans_of_mapM h]
  apply List.map_congr_left
  intro target htarget
  obtain ⟨hforward, hstop⟩ := proper.filled target.1 (mem_frontier.1 htarget).1
  exact Module.range_eq hforward hstop

theorem collectEdits_apart (proper : pass.module.Proper) {edits : List Edit}
    (h : rule.collectEdits pass state = .ok edits) : edits.Pairwise fun a b => a.span.Apart b.span := by
  have apart : (edits.map (·.span)).Pairwise Span.Apart := by
    rw [mem_collectEdits proper h, List.pairwise_map]
    exact frontier_allTargets_apart _ proper.nested
  exact List.pairwise_map.1 apart

theorem collectEdits_filled (proper : pass.module.Proper) {edits : List Edit}
    (h : rule.collectEdits pass state = .ok edits) : ∀ edit ∈ edits,
      edit.span.start < edit.span.stop ∧ edit.span.stop ≤ pass.module.text.byteLength := by
  intro edit hedit
  have hspan : edit.span ∈ edits.map (·.span) := List.mem_map_of_mem hedit
  rw [mem_collectEdits proper h] at hspan
  obtain ⟨target, htarget, heq⟩ := List.mem_map.1 hspan
  rw [← heq]
  exact proper.filled target.1 (mem_frontier.1 htarget).1

theorem collectEdits_boundary (proper : pass.module.Proper) {edits : List Edit}
    (h : rule.collectEdits pass state = .ok edits) : ∀ edit ∈ edits,
      pass.module.text.Boundary edit.span.start ∧ pass.module.text.Boundary edit.span.stop := by
  intro edit hedit
  have hspan : edit.span ∈ edits.map (·.span) := List.mem_map_of_mem hedit
  rw [collectEdits_eq_mapM proper.nested] at h
  rw [spans_of_mapM h] at hspan
  obtain ⟨target, htarget, heq⟩ := List.mem_map.1 hspan
  rw [← heq]
  exact (Module.admits_iff.1 (admits_of_mapM h target htarget)).2

theorem collectEdits_ne_nil_iff (proper : pass.module.Proper) {edits : List Edit}
    (h : rule.collectEdits pass state = .ok edits) : edits ≠ [] ↔
      ∃ target ∈ Node.allTargets pass.module.items, rule.pending pass state target = true := by
  have hnil : edits = [] ↔ rule.frontier pass state (Node.allTargets pass.module.items) = [] := by
    rw [← @List.map_eq_nil_iff _ _ (fun edit : Edit => edit.span),
      mem_collectEdits proper h, List.map_eq_nil_iff]
  rw [← anyPending_iff, ne_eq, hnil]
  constructor
  · intro hne
    by_contra hnone
    exact hne (frontier_eq_nil (Bool.not_eq_true _ ▸ hnone))
  · exact frontier_allTargets_ne_nil _

theorem collectEdits_eq_nil_iff (nested : Node.AllNested pass.module.items) :
    rule.collectEdits pass state = .ok [] ↔ ∀ node ∈ Node.allTargets pass.module.items,
      ∀ picked, rule.picked? pass state node = some picked →
      rule.changes pass state node.span picked = false := by
  rw [collectEdits_eq_mapM nested]
  constructor
  · intro h node hnode picked hpicked
    have hfrontier : rule.frontier pass state (Node.allTargets pass.module.items) = [] := by
      have := spans_of_mapM h
      rwa [List.map_nil, eq_comm, List.map_eq_nil_iff] at this
    by_contra hchanges
    rw [Bool.not_eq_false] at hchanges
    have hpending := pending_iff.2 ⟨picked, hpicked, .inr hchanges⟩
    exact frontier_allTargets_ne_nil _ ((anyPending_iff _).2 ⟨node, hnode, hpending⟩) hfrontier
  · intro h
    have hfrontier : rule.frontier pass state (Node.allTargets pass.module.items) = [] := by
      rw [List.eq_nil_iff_forall_not_mem]
      intro target htarget
      obtain ⟨hmem, hpending, hinside, hpicked⟩ := mem_frontier.1 htarget
      obtain ⟨picked, hpicked', hwhy⟩ := pending_iff.1 hpending
      rcases hwhy with hinner | hchanges
      · rw [(anyPending_iff _).2 hinner] at hinside
        cases hinside
      · rw [h target.1 hmem picked hpicked'] at hchanges
        cases hchanges
    rw [hfrontier]
    rfl

/-! ## What is never replaced -/

/-- Two rules pick the same of some targets, and replace the same of those with nothing pending inside. -/
structure Agrees (rule other : Rule σ χ ε) (pass : Pass) (state : σ) (targets : List Node) : Prop where
  failure : rule.failure = other.failure
  select : rule.select pass state = other.select pass state
  replace : ∀ node ∈ targets, ∀ picked, rule.picked? pass state node = some picked →
    rule.anyPending pass state node.children = false →
    rule.replace pass state picked = other.replace pass state picked

variable {other : Rule σ χ ε}

theorem Agrees.mono {targets more : List Node} (h : rule.Agrees other pass state more)
    (hsubset : targets ⊆ more) : rule.Agrees other pass state targets :=
  ⟨h.failure, h.select, fun node hnode => h.replace node (hsubset hnode)⟩

theorem Agrees.replaceAt {targets : List Node} (h : rule.Agrees other pass state targets) {node : Node}
    (hnode : node ∈ targets) {picked : χ} (hpicked : rule.picked? pass state node = some picked)
    (hinside : rule.anyPending pass state node.children = false) (span : Span) :
    rule.replaceAt pass state span picked = other.replaceAt pass state span picked := by
  rw [Rule.replaceAt, Rule.replaceAt, h.replace node hnode picked hpicked hinside, h.failure]

theorem Agrees.picked? {targets : List Node} (h : rule.Agrees other pass state targets) (node : Node) :
    rule.picked? pass state node = other.picked? pass state node := by
  rw [Rule.picked?, Rule.picked?, h.select]

mutual

theorem Agrees.holdsPending_eq : ∀ node : Node, rule.Agrees other pass state node.targets →
    rule.holdsPending pass state node = other.holdsPending pass state node
  | .mk shape span children, h => by
    have ih := Agrees.anyPending_eq children (h.mono Node.allTargets_subset_targets)
    rw [holdsPending, holdsPending, ← ih, ← h.picked?]
    cases hinside : rule.anyPending pass state children with
    | true => rfl
    | false =>
      cases hpicked : rule.picked? pass state (.mk shape span children) with
      | none => rfl
      | some picked =>
        have htarget := isTarget_of_picked hpicked
        have hreplace := h.replaceAt (Node.mem_targets_self htarget) hpicked hinside span
        simp only [Option.any_some, changes, hreplace]

theorem Agrees.anyPending_eq : ∀ trees : List Node, rule.Agrees other pass state (Node.allTargets trees) →
    rule.anyPending pass state trees = other.anyPending pass state trees
  | [], _ => rfl
  | node :: rest, h => by
    rw [Node.allTargets] at h
    rw [anyPending, anyPending, Agrees.holdsPending_eq node (h.mono (List.subset_append_left _ _)),
      Agrees.anyPending_eq rest (h.mono (List.subset_append_right _ _))]

end

mutual

theorem Agrees.frontier_targets : ∀ node : Node, rule.Agrees other pass state node.targets →
    rule.frontier pass state node.targets = other.frontier pass state node.targets
  | .mk shape span children, h => by
    have hchildren := h.mono Node.allTargets_subset_targets
    have ih := Agrees.frontier_allTargets children hchildren
    have hpending := Agrees.anyPending_eq children hchildren
    cases hpicked : rule.picked? pass state (.mk shape span children) with
    | none => rw [frontier_mk_of_none hpicked, frontier_mk_of_none (h.picked? _ ▸ hpicked), ih]
    | some picked =>
      cases hinside : rule.anyPending pass state children with
      | true => rw [frontier_mk_of_inside hinside, frontier_mk_of_inside (hpending ▸ hinside), ih]
      | false =>
        have htarget := isTarget_of_picked hpicked
        have hreplace := h.replaceAt (Node.mem_targets_self htarget) hpicked hinside span
        rw [frontier_mk_of_some htarget hinside hpicked,
          frontier_mk_of_some htarget (hpending ▸ hinside) (h.picked? _ ▸ hpicked),
          changes, changes, hreplace]

theorem Agrees.frontier_allTargets :
    ∀ trees : List Node, rule.Agrees other pass state (Node.allTargets trees) →
    rule.frontier pass state (Node.allTargets trees) = other.frontier pass state (Node.allTargets trees)
  | [], _ => rfl
  | node :: rest, h => by
    rw [Node.allTargets] at h
    rw [Node.allTargets, frontier_append, frontier_append,
      Agrees.frontier_targets node (h.mono (List.subset_append_left _ _)),
      Agrees.frontier_allTargets rest (h.mono (List.subset_append_right _ _))]

end

theorem mapM_congr {α β : Type} {f g : α → Except ε β} : ∀ {list : List α},
    (∀ a ∈ list, f a = g a) → list.mapM f = list.mapM g
  | [], _ => rfl
  | a :: rest, h => by
    rw [List.mapM_cons, List.mapM_cons, h a List.mem_cons_self,
      mapM_congr fun b hb => h b (List.mem_cons_of_mem _ hb)]

/-- What a rule replaces while something is pending inside does not matter. -/
theorem Agrees.collectEdits_eq (h : rule.Agrees other pass state (Node.allTargets pass.module.items))
    (nested : Node.AllNested pass.module.items) :
    other.collectEdits pass state = rule.collectEdits pass state := by
  rw [collectEdits_eq_mapM nested, collectEdits_eq_mapM nested, ← Agrees.frontier_allTargets _ h]
  refine (mapM_congr fun target htarget => ?_).symm
  obtain ⟨hmem, -, hinside, hpicked⟩ := mem_frontier.1 htarget
  rw [editOf, editOf]
  congr 1
  exact h.replaceAt hmem hpicked hinside target.1.span

theorem editOf_of_admits {target : Node × χ} (h : pass.module.admits target.1.span = true) :
    rule.editOf pass state target = (rule.replace pass state target.2).map fun replacement =>
      ⟨pass.module.range target.1.span, replacement⟩ := by
  rw [editOf]
  congr 1
  cases hreplace : rule.replace pass state target.2 with
  | error failure => exact replaceAt_of_error hreplace
  | ok replacement => exact replaceAt_eq_ok.2 ⟨hreplace, h⟩

theorem collectEdits_of_boundary (proper : pass.module.Proper)
    (boundary : ∀ target ∈ Node.allTargets pass.module.items,
      pass.module.text.Boundary target.span.start ∧ pass.module.text.Boundary target.span.stop) :
    rule.collectEdits pass state =
      (rule.frontier pass state (Node.allTargets pass.module.items)).mapM fun target =>
        (rule.replace pass state target.2).map fun replacement => ⟨target.1.span, replacement⟩ := by
  rw [collectEdits_eq_mapM proper.nested]
  refine mapM_congr fun target htarget => ?_
  have hmem := (mem_frontier.1 htarget).1
  obtain ⟨hforward, hstop⟩ := proper.filled target.1 hmem
  have hrange := Module.range_eq hforward hstop
  have hadmits : pass.module.admits target.1.span = true := by
    rw [Module.admits_iff, hrange]
    exact ⟨Nat.le_of_lt hforward, boundary target.1 hmem⟩
  rw [editOf_of_admits hadmits, hrange]

/-- A pass over targets that nest edits its frontier, up to the first failure, and asks for no other
replacement. It fails at a target that splits a character; the edits of a pass that does not fail
can be applied. -/
theorem collectEdits_of_proper (rule : Rule σ χ ε) (pass : Pass) (state : σ) (proper : pass.module.Proper) :
    rule.collectEdits pass state =
        (rule.frontier pass state (Node.allTargets pass.module.items)).mapM (rule.editOf pass state) ∧
      ((∀ target ∈ Node.allTargets pass.module.items,
          pass.module.text.Boundary target.span.start ∧ pass.module.text.Boundary target.span.stop) →
        rule.collectEdits pass state =
          (rule.frontier pass state (Node.allTargets pass.module.items)).mapM fun target =>
            (rule.replace pass state target.2).map fun replacement => ⟨target.1.span, replacement⟩) ∧
      (∀ other : Rule σ χ ε, rule.Agrees other pass state (Node.allTargets pass.module.items) →
        other.collectEdits pass state = rule.collectEdits pass state) ∧
      ∀ edits, rule.collectEdits pass state = .ok edits →
        (edits.Pairwise fun a b => a.span.Apart b.span) ∧
        (∀ edit ∈ edits, edit.span.start < edit.span.stop ∧ edit.span.stop ≤ pass.module.text.byteLength) ∧
        (edits ≠ [] ↔ ∃ target ∈ Node.allTargets pass.module.items, rule.pending pass state target = true) ∧
        (∀ edit ∈ edits,
          pass.module.text.Boundary edit.span.start ∧ pass.module.text.Boundary edit.span.stop) ∧
        ∃ result, Edit.applyAll pass.index pass.module.text edits = .ok result := by
  refine ⟨collectEdits_eq_mapM proper.nested, collectEdits_of_boundary proper,
    fun other h => h.collectEdits_eq proper.nested, ?_⟩
  intro edits hedits
  have apart := collectEdits_apart proper hedits
  have filled := collectEdits_filled proper hedits
  have boundary := collectEdits_boundary proper hedits
  exact ⟨apart, filled, collectEdits_ne_nil_iff proper hedits, boundary,
    (Edit.applyAll_isOk_iff pass.index apart fun edit hedit => (filled edit hedit).1).2 boundary⟩

/-- In `f(g(),h())` with all calls picked, the inner two are edited. -/
theorem collectEdits_inner_calls :
    ∃ (rule : Rule Unit (Node × Substitution) SubstitutionFailure) (m : Module), m.Proper ∧
      rule.collectEdits ⟨0, m⟩ () = .ok [⟨⟨2, 5⟩, some ['x']⟩, ⟨⟨6, 9⟩, none⟩] ∧
      ∃ result, Edit.applyAll 0 m.text [⟨⟨2, 5⟩, some ['x']⟩, ⟨⟨6, 9⟩, none⟩] = .ok result := by
  let rule := Substitutions.rule
    ⟨[("f", .fail "too early"), ("g", .replace ['x']), ("h", .delete)], none, none, false⟩
  let m : Module := ⟨"f(g(),h())".toList, [.mk (.call 2) ⟨0, 10⟩ [.mk (.identifier "f") ⟨0, 1⟩ [],
    .mk (.call 0) ⟨2, 5⟩ [.mk (.identifier "g") ⟨2, 3⟩ []],
    .mk (.call 0) ⟨6, 9⟩ [.mk (.identifier "h") ⟨6, 7⟩ []]]]⟩
  have proper : m.Proper := by
    constructor
    · decide
    · decide
  have hedits : rule.collectEdits ⟨0, m⟩ () = .ok [⟨⟨2, 5⟩, some ['x']⟩, ⟨⟨6, 9⟩, none⟩] := rfl
  obtain ⟨-, -, -, hspec⟩ := collectEdits_of_proper rule ⟨0, m⟩ () proper
  obtain ⟨-, -, -, -, happly⟩ := hspec _ hedits
  exact ⟨rule, m, proper, hedits, happly⟩

-- A byte order mark in front moves the spans by its three bytes, here into a character.
set_option maxRecDepth 100000 in
example : (match Module.read (Module.byteOrderMark :: "\"😀\";f()".toList) false with
    | .ok m =>
      match (Substitutions.rule ⟨[("f", .replace ['x'])], none, none, false⟩).collectEdits ⟨0, m⟩ () with
      | .ok _ => false
      | .error failure => decide (failure = .pass (.misfit .misplaced))
    | .error _ => false) = true := by decide +kernel

end Rule
end ClassWeave
