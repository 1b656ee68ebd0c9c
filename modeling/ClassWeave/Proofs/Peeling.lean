import ClassWeave.Proofs.Regrowing
/-!
# One layer a pass

If a rule chooses targets by what they are and always changes them, the targets that a pass edits
are the innermost chosen ones, everywhere in the tree. With nothing chosen in what they are replaced
by, and the others chosen as before, the chosen targets nest one less deeply in the next tree; so a
run takes a pass for each layer, and one that finds nothing.
-/

namespace ClassWeave

namespace Node

section
variable (chosen : Node → Bool)

def isChosen (node : Node) : Bool := node.shape.isTarget && chosen node

mutual

/-- How many chosen targets of a tree stand one inside another. -/
def depth : Node → Nat
  | .mk shape span children => depths children + (isChosen chosen (.mk shape span children)).toNat

def depths : List Node → Nat
  | [] => 0
  | node :: rest => max (depth node) (depths rest)

end

end

variable {chosen : Node → Bool}

theorem depths_append : ∀ a b : List Node, depths chosen (a ++ b) = max (depths chosen a) (depths chosen b)
  | [], b => by rw [List.nil_append, depths, Nat.zero_max]
  | node :: rest, b => by rw [List.cons_append, depths, depths, depths_append rest b, Nat.max_assoc]

theorem depths_singleton (node : Node) : depths chosen [node] = depth chosen node := by
  rw [depths, depths, Nat.max_zero]

mutual

theorem depth_eq_zero : ∀ node : Node, (∀ inner ∈ node.targets, chosen inner = false) → depth chosen node = 0
  | .mk shape span children, h => by
    have hchildren := depths_eq_zero children fun inner hinner => h inner (allTargets_subset_targets hinner)
    have hself : isChosen chosen (.mk shape span children) = false := by
      cases htarget : shape.isTarget with
      | false => rw [isChosen, Node.shape, htarget, Bool.false_and]
      | true => rw [isChosen, h _ (mem_targets_self htarget), Bool.and_false]
    rw [depth, hchildren, hself]
    rfl

theorem depths_eq_zero : ∀ trees : List Node, (∀ inner ∈ allTargets trees, chosen inner = false) →
    depths chosen trees = 0
  | [], _ => by rw [depths]
  | node :: rest, h => by
    rw [allTargets] at h
    rw [depths, depth_eq_zero node fun inner hinner => h inner (List.mem_append_left _ hinner),
      depths_eq_zero rest fun inner hinner => h inner (List.mem_append_right _ hinner), Nat.max_self]

end

end Node

namespace Rule

variable {σ χ ε : Type} {rule : Rule σ χ ε} {chosen : Node → Bool}
    {same : Node → Node → Prop} {elements : Bool} {pass : Pass}
  {state : σ}

/-! ## One pass -/

variable (rule chosen same elements pass state) in
/-- A pass that replaces every chosen target by another text; and what it writes is read as the same
tree, but for the edited targets, which give way to trees that nothing is chosen of. -/
structure Peels : Prop where
  seated : pass.module.Seated
  replaces : ∀ node ∈ Node.allTargets pass.module.items, ∀ picked ∈ rule.select pass state node,
    ∃ replacement ∈ (rule.replace pass state picked).toOption, replacement.getD [] ≠ pass.textAt node.span
  rereads : rule.RereadsAs pass state elements (fun _ => same)
    fun _ _ trees => ∀ inner ∈ Node.allTargets trees, chosen inner = false

theorem peels_iff : rule.Peels chosen same elements pass state ↔ pass.module.Seated ∧
    (∀ node ∈ Node.allTargets pass.module.items, ∀ picked ∈ rule.select pass state node,
      ∃ replacement ∈ (rule.replace pass state picked).toOption,
      replacement.getD [] ≠ pass.textAt node.span) ∧
    rule.RereadsAs pass state elements (fun _ => same) fun _ _ trees => ∀ inner ∈ Node.allTargets trees,
    chosen inner = false :=
  ⟨fun h => ⟨h.seated, h.replaces, h.rereads⟩, fun h => ⟨h.1, h.2.1, h.2.2⟩⟩

instance [∀ node found, Decidable (same node found)] :
    Decidable (rule.Peels chosen same elements pass state) :=
  decidable_of_iff' _ peels_iff

namespace Peels

theorem changes (h : rule.Peels chosen same elements pass state) {node : Node} {picked : χ}
    (hnode : node ∈ Node.allTargets pass.module.items)
    (hpicked : rule.picked? pass state node = some picked) :
    rule.changes pass state node.span picked = true := by
  obtain ⟨shape, span, children⟩ := node
  rw [picked?_of_isTarget (isTarget_of_picked hpicked)] at hpicked
  obtain ⟨replacement, hreplace, hne⟩ := h.replaces _ hnode picked hpicked
  rw [Rule.changes, replaceAt_of_admits (h.seated.admits _ hnode) (toOption_eq_some_iff.1 hreplace)]
  simpa using hne

theorem pending_eq (h : rule.Peels chosen same elements pass state)
    (hselect : ∀ node, (rule.select pass state node).isSome = chosen node) {node : Node}
    (hnode : node.targets ⊆ Node.allTargets pass.module.items) :
    rule.pending pass state node = Node.isChosen chosen node := by
  obtain ⟨shape, span, children⟩ := node
  cases hpicked : rule.picked? pass state (.mk shape span children) with
  | none =>
    rw [pending, hpicked, Node.isChosen, ← hselect]
    rw [picked?] at hpicked
    split at hpicked
    · rw [hpicked]
      simp
    · rename_i htarget
      simp [htarget]
  | some picked =>
    have htarget := isTarget_of_picked hpicked
    have hmem := hnode (Node.mem_targets_self htarget)
    have hchosen : chosen (.mk shape span children) = true := by
      rw [← hselect, ← show rule.picked? pass state (.mk shape span children) =
        _ from picked?_of_isTarget htarget, hpicked]
      rfl
    rw [pending, hpicked, Option.any_some, h.changes hmem hpicked,
      Bool.or_true, Node.isChosen, hchosen, Node.shape, htarget]
    rfl

mutual

theorem holdsPending_iff (h : rule.Peels chosen same elements pass state)
    (hselect : ∀ node, (rule.select pass state node).isSome = chosen node) : ∀ node : Node,
    node.targets ⊆ Node.allTargets pass.module.items →
    (rule.holdsPending pass state node = true ↔ 0 < Node.depth chosen node)
  | .mk shape span children, hnode => by
    have ih := anyPending_iff h hselect children (List.Subset.trans Node.allTargets_subset_targets hnode)
    rw [holdsPending_eq, Bool.or_eq_true, h.pending_eq hselect hnode, Node.children, ih, Node.depth]
    cases Node.isChosen chosen (.mk shape span children) <;> simp

theorem anyPending_iff (h : rule.Peels chosen same elements pass state)
    (hselect : ∀ node, (rule.select pass state node).isSome = chosen node) : ∀ trees : List Node,
    Node.allTargets trees ⊆ Node.allTargets pass.module.items →
    (rule.anyPending pass state trees = true ↔ 0 < Node.depths chosen trees)
  | [], _ => by simp [anyPending, Node.depths]
  | node :: rest, htrees => by
    rw [Node.allTargets] at htrees
    have hhere := holdsPending_iff h hselect node (List.Subset.trans (List.subset_append_left _ _) htrees)
    have hbehind := anyPending_iff h hselect rest (List.Subset.trans (List.subset_append_right _ _) htrees)
    rw [anyPending, Bool.or_eq_true, hhere, hbehind, Node.depths]
    omega

end

theorem edited_iff (h : rule.Peels chosen same elements pass state)
    (hselect : ∀ node, (rule.select pass state node).isSome = chosen node) {node : Node}
    (hnode : node.targets ⊆ Node.allTargets pass.module.items) :
    rule.edited pass state node = true ↔ Node.isChosen chosen node = true ∧
    Node.depths chosen node.children = 0 := by
  obtain ⟨shape, span, children⟩ := node
  have hinside := h.anyPending_iff hselect children (List.Subset.trans Node.allTargets_subset_targets hnode)
  rw [edited, Bool.and_eq_true, h.pending_eq hselect hnode, Bool.not_eq_true',
    ← Bool.not_eq_true, Node.children, hinside]
  simp

end Peels

/-! ## One layer less -/

mutual

theorem Peels.depths_of_regrows
    (h : rule.Peels chosen (fun node found => Node.isChosen chosen found = Node.isChosen chosen node)
      elements pass state)
    (hselect : ∀ node, (rule.select pass state node).isSome = chosen node) :
    ∀ (node : Node) (trees : List Node), node.targets ⊆ Node.allTargets pass.module.items →
    Node.Regrows (rule.edited pass state)
      (fun node found => Node.isChosen chosen found = Node.isChosen chosen node)
      (fun _ trees => ∀ inner ∈ Node.allTargets trees, chosen inner = false) node trees →
    Node.depths chosen trees = Node.depth chosen node - 1
  | .mk shape span children, trees, hnode, hregrows => by
    have hedited := h.edited_iff hselect hnode
    rw [Node.depth]
    cases hself : rule.edited pass state (.mk shape span children) with
    | true =>
      obtain ⟨hchosen, hdepths⟩ := hedited.1 hself
      rw [Node.regrows_of_edited hself] at hregrows
      rw [Node.depths_eq_zero trees hregrows, hchosen, show Node.depths chosen children = 0 from hdepths]
      rfl
    | false =>
      obtain ⟨⟨shape', span', children'⟩, rfl, hsame, hchildren⟩ := (Node.regrows_of_kept hself).1 hregrows
      have ih : Node.depths chosen children' = Node.depths chosen children - 1 :=
        Peels.depths_of_allRegrow h hselect children children'
          (List.Subset.trans Node.allTargets_subset_targets hnode) hchildren
      rw [Node.depths_singleton, Node.depth, ih, hsame]
      -- A chosen target that is kept has a chosen one inside, so the layer that goes is not its own.
      have hinside : Node.isChosen chosen (.mk shape span children) = true →
        0 < Node.depths chosen children := by
        intro hchosen
        by_contra hnone
        have := hedited.2 ⟨hchosen, by rw [Node.children]; omega⟩
        rw [this] at hself
        cases hself
      cases hchosen : Node.isChosen chosen (.mk shape span children) with
      | true =>
        have := hinside hchosen
        simp only [Bool.toNat_true]
        omega
      | false => rfl

/-- Behind a pass the chosen targets nest one less deeply. -/
theorem Peels.depths_of_allRegrow
    (h : rule.Peels chosen (fun node found => Node.isChosen chosen found = Node.isChosen chosen node)
      elements pass state)
    (hselect : ∀ node, (rule.select pass state node).isSome = chosen node) :
    ∀ nodes trees : List Node, Node.allTargets nodes ⊆ Node.allTargets pass.module.items →
    Node.AllRegrow (rule.edited pass state)
      (fun node found => Node.isChosen chosen found = Node.isChosen chosen node)
      (fun _ trees => ∀ inner ∈ Node.allTargets trees, chosen inner = false) nodes trees →
    Node.depths chosen trees = Node.depths chosen nodes - 1
  | [], trees, _, hregrow => by
    rw [Node.AllRegrow] at hregrow
    rw [hregrow, Node.depths]
  | node :: rest, trees, hnodes, hregrow => by
    rw [Node.allTargets] at hnodes
    obtain ⟨here, behind, rfl, hhere, hbehind⟩ := Node.allRegrow_cons_iff.1 hregrow
    rw [Node.depths_append, Node.depths,
      Peels.depths_of_regrows h hselect node here
        (List.Subset.trans (List.subset_append_left _ _) hnodes) hhere,
      Peels.depths_of_allRegrow h hselect rest behind
        (List.Subset.trans (List.subset_append_right _ _) hnodes) hbehind]
    omega

end

/-! ## Whole runs -/

namespace Peels

theorem exists_edits (h : rule.Peels chosen same elements pass state) :
    ∃ edits, rule.collectEdits pass state = .ok edits := by
  cases hedits : rule.collectEdits pass state with
  | ok edits => exact ⟨edits, rfl⟩
  | error failure =>
    obtain ⟨node, hnode, picked, hpicked, -, hfails⟩ := collectEdits_error hedits
    obtain ⟨replacement, hreplace, -⟩ := h.replaces node hnode picked hpicked
    rw [replaceAt_of_admits (h.seated.admits node hnode) (toOption_eq_some_iff.1 hreplace)] at hfails
    cases hfails

theorem edits_ne_nil_iff (h : rule.Peels chosen same elements pass state)
    (hselect : ∀ node, (rule.select pass state node).isSome = chosen node) {edits : List Edit}
    (hedits : rule.collectEdits pass state = .ok edits) :
    edits ≠ [] ↔ 0 < Node.depths chosen pass.module.items := by
  rw [collectEdits_ne_nil_iff h.seated.proper hedits, ← Rule.anyPending_iff,
    h.anyPending_iff hselect _ (List.Subset.refl _)]

end Peels

variable {file : Option String} {source : Text}

theorem passes_of_depths (limit : Nat) (hseed : ∀ pass state, ∃ state', rule.seed pass state = .ok state')
    (hselect : ∀ pass state node, (rule.select pass state node).isSome = chosen node)
    (hpeels : ∀ pass state, rule.Begins file source pass state → rule.Peels chosen
      (fun node found => Node.isChosen chosen found = Node.isChosen chosen node)
      (elementsIn file) pass state) :
    ∀ (left : Nat) {state : σ} {records : List Record} {text : Text} {found : Module},
      rule.Reaches file source state records text → Module.read text (elementsIn file) = .ok found →
      (Node.depths chosen found.items + 1 ≤ left → ∃ code more,
        more.length = Node.depths chosen found.items + 1 ∧
        (rule.passes file limit left state text records).outcome = .ok ⟨code, records ++ more⟩) ∧
      (left < Node.depths chosen found.items + 1 →
        (rule.passes file limit left state text records).outcome = .error (rule.failure (.passLimit limit)))
  | 0, state, records, text, found, _, _ => ⟨fun h => absurd h (by omega), fun _ => rfl⟩
  | left + 1, state, records, text, found, reaches, hread => by
    obtain ⟨state', hstate'⟩ := hseed ⟨records.length, found⟩ state
    have htext := Module.text_of_read hread
    have peels := hpeels ⟨records.length, found⟩ state' ⟨state, records, text, reaches, hread, rfl, hstate'⟩
    obtain ⟨edits, hedits⟩ := peels.exists_edits
    have hdepths := peels.edits_ne_nil_iff (hselect _ _) hedits
    by_cases hnil : edits = []
    · subst hnil
      have hzero : Node.depths chosen found.items = 0 := by simpa using hdepths
      obtain ⟨record, hpasses⟩ : ∃ record, (rule.passes file limit (left + 1) state text records).outcome =
          .ok ⟨text, records ++ [record]⟩ := passes_of_collectEdits_eq_nil records hread hstate' hedits
      exact ⟨fun _ => ⟨text, [record], by rw [hzero]; rfl, hpasses⟩, fun h => absurd h (by omega)⟩
    · obtain ⟨output, record, happly⟩ := exists_output peels.seated.proper hedits
      obtain ⟨next, hnext, hregrow⟩ := peels.rereads.next hedits hnil happly
      have hlayer := peels.depths_of_allRegrow (hselect _ _) _ _ (List.Subset.refl _) hregrow
      have hpass := onePass_eq_ok_iff.2 ⟨hstate', hedits, happly⟩
      obtain ⟨hdone, hlost⟩ :=
        passes_of_depths limit hseed hselect hpeels left (.pass reaches hread hpass hnil) hnext
      have hpos := hdepths.1 hnil
      change Node.depths chosen next.items = Node.depths chosen found.items - 1 at hlayer
      change 0 < Node.depths chosen found.items at hpos
      rw [passes_of_edits records hread hstate' hedits (htext ▸ happly) hnil]
      constructor
      · intro hle
        obtain ⟨code, more, hmore, hpasses⟩ := hdone (by omega)
        refine ⟨code, record :: more, by rw [List.length_cons]; omega, ?_⟩
        rw [hpasses, List.append_assoc]
        rfl
      · intro hlt
        exact hlost (by omega)

/-- A run of a rule that peels takes a pass for each layer of chosen targets and one more, if it may. -/
theorem run_of_depths (limit : Nat) {first : Module}
    (hseed : ∀ pass state, ∃ state', rule.seed pass state = .ok state')
    (hselect : ∀ pass state node, (rule.select pass state node).isSome = chosen node)
    (hpeels : ∀ pass state, rule.Begins file source pass state → rule.Peels chosen
      (fun node found => Node.isChosen chosen found = Node.isChosen chosen node) (elementsIn file) pass state)
    (hread : Module.read source (elementsIn file) = .ok first) :
    (Node.depths chosen first.items + 1 ≤ limit → ∃ fixpoint,
      (rule.run file limit source).outcome = .ok fixpoint ∧
      fixpoint.passes = Node.depths chosen first.items + 1) ∧
    (limit < Node.depths chosen first.items + 1 →
      (rule.run file limit source).outcome = .error (rule.failure (.passLimit limit))) := by
  obtain ⟨hdone, hlost⟩ := passes_of_depths limit hseed hselect hpeels limit .start hread
  refine ⟨fun hle => ?_, hlost⟩
  obtain ⟨code, more, hmore, hpasses⟩ := hdone hle
  exact ⟨_, hpasses, hmore⟩

end Rule

/-! ## Substituted calls -/

namespace Substitutions

def chosen (all : Substitutions) (node : Node) : Bool := (all.of node).isSome

theorem isSome_select {all : Substitutions} (h : all.firstPassOnly = false)
    (pass : Pass) (state : Unit) (node : Node) :
    (all.rule.select pass state node).isSome = all.chosen node := by
  simp only [rule, h, chosen, Bool.false_and, Bool.false_eq_true, if_false, Option.isSome_map]

def peelsThrough (all : Substitutions) (same : Node → Node → Prop)
    [∀ node found, Decidable (same node found)] (source : Text) (layers : Nat) : Bool :=
  match (all.rule.run none 100 source).outcome, Module.read source false with
  | .ok _, .ok first => Node.depths all.chosen first.items == layers &&
      decide (∀ entry ∈ all.rule.begun none 100 () source 0,
        all.rule.Peels all.chosen same false entry.1 entry.2)
  | _, _ => false

theorem of_peelsThrough {all : Substitutions} {same : Node → Node → Prop}
    [∀ node found, Decidable (same node found)] {source : Text}
      {layers : Nat} (h : all.peelsThrough same source layers = true) :
    ∃ first, Module.read source false = .ok first ∧ Node.depths all.chosen first.items = layers ∧
      ∀ pass state, all.rule.Begins none source pass state →
      all.rule.Peels all.chosen same false pass state := by
  unfold peelsThrough at h
  split at h
  · rename_i fixpoint first hrun hread
    rw [Bool.and_eq_true, beq_iff_eq, decide_eq_true_eq] at h
    exact ⟨first, hread, h.1, fun pass state begins => h.2 _ (Rule.mem_begun_of_begins hrun begins)⟩
  · cases h

def naming (names : List String) : Substitutions :=
  ⟨names.map fun name => (name, .replace ['x']), none, none, false⟩

set_option maxRecDepth 100000 in
/-- Calls in calls in calls, of which the outermost holds two. -/
theorem run_of_nested_calls :
    (∃ fixpoint, ((naming ["f", "g", "h", "k"]).rule.run none 4 "f(g(),h(k()))".toList).outcome =
      .ok fixpoint ∧
      fixpoint.passes = 4) ∧
    ((naming ["f", "g", "h", "k"]).rule.run none 3 "f(g(),h(k()))".toList).outcome =
      .error (.pass (.passLimit 3)) := by
  have hchecked : (naming ["f", "g", "h", "k"]).peelsThrough (fun node found =>
      Node.isChosen (naming ["f", "g", "h", "k"]).chosen found =
        Node.isChosen (naming ["f", "g", "h", "k"]).chosen node)
      "f(g(),h(k()))".toList 3 = true := by decide +kernel
  obtain ⟨first, hread, hlayers, hpeels⟩ := of_peelsThrough hchecked
  obtain ⟨hdone, -⟩ := Rule.run_of_depths 4 (fun _ _ => ⟨_, rfl⟩) (isSome_select rfl) hpeels hread
  obtain ⟨-, hlost⟩ := Rule.run_of_depths 3 (fun _ _ => ⟨_, rfl⟩) (isSome_select rfl) hpeels hread
  rw [hlayers] at hdone hlost
  exact ⟨hdone (by decide), hlost (by decide)⟩

/-- Calls of `g` are replaced by the name of others, which are replaced in turn. -/
def exposing : Substitutions := ⟨[("g", .replace ['f']), ("f", .replace ['x'])], none, none, false⟩

set_option maxRecDepth 100000 in
/-- Where all but the edited targets is read as it was, a target can still come to be chosen for
what was replaced inside it: the one call that is chosen in `g()()` takes three passes. -/
theorem run_of_exposed_call :
    (∀ pass state node, (exposing.rule.select pass state node).isSome = exposing.chosen node) ∧
    ∃ first, Module.read "g()()".toList false = .ok first ∧ Node.depths exposing.chosen first.items = 1 ∧
      (∀ pass state, exposing.rule.Begins none "g()()".toList pass state →
        exposing.rule.Peels exposing.chosen (fun node found => node.shape = found.shape) false pass state) ∧
      ∃ fixpoint, (exposing.rule.run none 100 "g()()".toList).outcome = .ok fixpoint ∧
      fixpoint.passes = 3 := by
  have hchecked :
      exposing.peelsThrough (fun node found => node.shape = found.shape) "g()()".toList 1 = true := by
    decide +kernel
  have hpasses : (match (exposing.rule.run none 100 "g()()".toList).outcome with
    | .ok fixpoint => fixpoint.passes == 3
    | .error _ => false) = true := by decide +kernel
  obtain ⟨first, hread, hlayers, hpeels⟩ := of_peelsThrough hchecked
  refine ⟨isSome_select rfl, first, hread, hlayers, hpeels, ?_⟩
  split at hpasses
  · rename_i fixpoint hrun
    exact ⟨fixpoint, hrun, beq_iff_eq.1 hpasses⟩
  · cases hpasses

end Substitutions
end ClassWeave
