import ClassWeave.Proofs.Ending
import ClassWeave.Proofs.Keeping
/-!
# Calls through a pass

A call of `tx` that is not within another stands at the same place of the statements of every text
of a run. If what a pass writes is read as the statements with literals in the place of the calls
that were compiled, there are fewer calls of compiled helpers behind the pass than before it.
-/

namespace ClassWeave

/-- Which children lead to a node, from the statements of a module on. -/
abbrev Path := List Nat

namespace Node

def isImport (node : Node) : Bool :=
  match node.shape with
  | .importDeclaration _ => true
  | _ => false

/-- The node at a place, if it is not within a call of a compiled helper or an import. -/
def outermost? (aliases : Aliases) : Path → List Node → Option Node
  | [], _ => none
  | [position], nodes => nodes[position]?
  | position :: path, nodes => nodes[position]?.bind fun node =>
    if node.concerns (compiledNames aliases) then none else outermost? aliases path node.children

theorem targets_of_outermost? {aliases : Aliases} : ∀ {path : Path} {nodes : List Node} {node : Node},
    outermost? aliases path nodes = some node → node.targets ⊆ allTargets nodes
  | [], _, _, h => by cases h
  | [position], nodes, node, h =>
      fun target htarget => mem_allTargets_iff.2 ⟨node, List.mem_of_getElem? h, htarget⟩
  | position :: next :: path, nodes, node, h => by
    rw [outermost?, Option.bind_eq_some_iff] at h
    · obtain ⟨outer, houter, hinner⟩ := h
      split at hinner
      · cases hinner
      · have ih := targets_of_outermost? hinner
        obtain ⟨shape, span, children⟩ := outer
        intro target htarget
        exact mem_allTargets_iff.2 ⟨_, List.mem_of_getElem? houter, allTargets_subset_targets (ih htarget)⟩
    · simp

end Node

namespace Module

def statements (m : Module) : List Node := m.items.filter fun item => !item.isImport

theorem targets_of_statements (m : Module) : Node.allTargets m.statements ⊆ Node.allTargets m.items := by
  intro target htarget
  obtain ⟨item, hitem, htarget⟩ := Node.mem_allTargets_iff.1 htarget
  exact Node.mem_allTargets_iff.2 ⟨item, List.mem_of_mem_filter hitem, htarget⟩

end Module

/-! ## What is written -/

/-- Whether what is written for a target is read alone as a literal without calls of compiled helpers. -/
def WritesLiteral (options : Options) (pass : Pass) (aliases : Aliases)
    (target : Node × HelperTarget) : Prop :=
  ∀ replacement ∈ ((transformer options).replace pass aliases target.2).toOption,
    ∀ m ∈ (Module.read (replacement.getD []) (Rule.elementsIn options.fileName)).toOption, ∀ found ∈ m.sole?,
      found.isClassLiteral = true ∧ found.Uncalled aliases

instance (aliases : Aliases) (node : Node) : Decidable (node.Uncalled aliases) :=
  inferInstanceAs (Decidable (∀ target ∈ node.targets, target.called?.any (compiledNames aliases) = false))

instance (options : Options) (pass : Pass) (aliases : Aliases) (target : Node × HelperTarget) :
    Decidable (WritesLiteral options pass aliases target) :=
  inferInstanceAs (Decidable (∀ replacement ∈ ((transformer options).replace pass aliases target.2).toOption,
    ∀ m ∈ (Module.read (replacement.getD []) (Rule.elementsIn options.fileName)).toOption, ∀ found ∈ m.sole?,
      found.isClassLiteral = true ∧ found.Uncalled aliases))

namespace Rule

variable {σ χ ε : Type} {rule : Rule σ χ ε} {pass : Pass} {state : σ}

theorem frontier_subset {targets more : List Node} (h : targets ⊆ more) :
    rule.frontier pass state targets ⊆ rule.frontier pass state more := fun target htarget => by
  obtain ⟨hmem, hrest⟩ := mem_frontier.1 htarget
  exact mem_frontier.2 ⟨h hmem, hrest⟩

theorem holdsPending_of_frontier_eq_nil {node : Node} (h : rule.frontier pass state [node] = []) :
    rule.holdsPending pass state node = rule.anyPending pass state node.children := by
  rw [holdsPending_eq]
  cases hinside : rule.anyPending pass state node.children with
  | true => rfl
  | false =>
    rw [Bool.false_or, Bool.eq_false_iff]
    intro hpending
    obtain ⟨picked, hpicked, -⟩ := pending_iff.1 hpending
    have hmem : (node, picked) ∈ rule.frontier pass state [node] :=
      mem_frontier.2 ⟨List.mem_singleton_self _, hpending, hinside, hpicked⟩
    rw [h] at hmem
    cases hmem

end Rule

namespace Node

variable {options : Options} {pass next : Pass} {aliases : Aliases} {elements : Bool}

theorem Uncalled.alike {node node' : Node} (h : node.Uncalled aliases) (halike : node.Alike pass next node') :
    node'.Uncalled aliases := by
  intro target' htarget'
  obtain ⟨target, htarget, halike⟩ := targets_alike.1 node node' halike target' htarget'
  exact halike.called? ▸ h target htarget

theorem Uncalled.countP_eq {node : Node} (h : node.Uncalled aliases) :
    node.targets.countP (isHelperCall aliases) = 0 :=
  List.countP_eq_zero.2 fun target htarget => Bool.eq_false_iff.1 (h target htarget)

/-- What becomes of a node: it is edited and read as a literal, or it keeps its shape. -/
theorem becomes_cases {shape : Shape} {span : Span} {children : List Node} {found : Node}
    (h : (transformer options).Becomes pass next aliases (Rule.elementsIn options.fileName)
      (.mk shape span children) found)
    (literals : ∀ target ∈ (transformer options).frontier pass aliases (mk shape span children).targets,
      WritesLiteral options pass aliases target) :
    ((transformer options).picked? pass aliases (.mk shape span children) ≠ none ∧
      found.isClassLiteral = true ∧
        found.Uncalled aliases) ∨
      (transformer options).frontier pass aliases [.mk shape span children] = [] ∧ ∃ span' children',
        found = .mk shape span' children' ∧
          (transformer options).AllBecome pass next aliases (Rule.elementsIn options.fileName)
          children children' := by
  rcases hfrontier : (transformer options).frontier pass aliases [.mk shape span children] with
      - | ⟨target, rest⟩
  · obtain ⟨span', children', hfound, hchildren, -⟩ := h.kept hfrontier
    exact .inr ⟨rfl, span', children', hfound, hchildren⟩
  · have htarget : target ∈ (transformer options).frontier pass aliases [.mk shape span children] :=
      hfrontier ▸ List.mem_cons_self
    obtain ⟨hmem, hpending⟩ := Rule.mem_frontier.1 htarget
    obtain ⟨node, picked⟩ := target
    cases List.mem_singleton.1 hmem
    have hpicked := hpending.2.2
    have hself := Rule.mem_targets_of_picked hpicked
    obtain ⟨replacement, hreplace, m, hread, node, hsole, halike⟩ := h.replaced htarget
    obtain ⟨hliteral, hfree⟩ :=
      literals _ (Rule.mem_frontier.2 ⟨hself, hpending⟩) replacement hreplace m hread node hsole
    exact .inl ⟨by simp [hpicked], halike.isClassLiteral hliteral, hfree.alike halike⟩

theorem isHelperCall_of_kept {shape : Shape} {span span' : Span} {children children' : List Node}
    (h : (transformer options).AllBecome pass next aliases (Rule.elementsIn options.fileName)
      children children')
    (literals : ∀ target ∈ (transformer options).frontier pass aliases (allTargets children),
      WritesLiteral options pass aliases target) :
    isHelperCall aliases (.mk shape span' children') = isHelperCall aliases (.mk shape span children) := by
  suffices hcalled : (Node.mk shape span' children').called? = (Node.mk shape span children).called? by
    rw [isHelperCall, isHelperCall, hcalled]
  cases children with
  | nil => rw [Rule.allBecome_nil_iff.1 h]; cases shape <;> rfl
  | cons callee rest =>
    obtain ⟨callee', rest', rfl, hcallee, -⟩ := Rule.allBecome_cons_iff.1 h
    obtain ⟨calleeShape, calleeSpan, calleeChildren⟩ := callee
    have hsubset : (Node.mk calleeShape calleeSpan calleeChildren).targets ⊆
      allTargets (.mk calleeShape calleeSpan calleeChildren :: rest) := by
      rw [allTargets]
      exact List.subset_append_left _ _
    rcases becomes_cases hcallee fun target htarget =>
      literals target (Rule.frontier_subset hsubset htarget) with
      ⟨hpicked, hliteral, -⟩ | ⟨-, calleeSpan', calleeChildren', rfl, -⟩
    · -- A callee that is edited is no name, and what it is read as is none.
      have htarget : calleeShape.isTarget = true := by
        obtain ⟨picked, hpicked⟩ := Option.ne_none_iff_exists'.1 hpicked
        exact Rule.isTarget_of_picked hpicked
      rcases eq_of_isClassLiteral hliteral with ⟨value, span, rfl⟩ | ⟨chunks, span, inner, rfl⟩
      · cases shape <;> first | rfl | (cases calleeShape <;> first | rfl | cases htarget)
      · cases shape <;> first | rfl | (cases calleeShape <;> first | rfl | cases htarget)
    · cases shape <;> first | rfl | (cases calleeShape <;> rfl)

mutual

theorem countP_of_becomes : ∀ (node found : Node),
    (∀ target ∈ (transformer options).frontier pass aliases node.targets,
      WritesLiteral options pass aliases target) →
    (transformer options).Becomes pass next aliases (Rule.elementsIn options.fileName) node found →
    found.targets.countP (isHelperCall aliases) +
        (!pass.isFirst && (transformer options).holdsPending pass aliases node).toNat ≤
      node.targets.countP (isHelperCall aliases)
  | .mk shape span children, found, literals, h => by
    rcases becomes_cases h literals with ⟨hpicked, -, hfree⟩ | ⟨hnone, span', children', rfl, hchildren⟩
    · rw [hfree.countP_eq]
      cases hfirst : pass.isFirst with
      | true => exact Nat.zero_le _
      | false =>
        obtain ⟨picked, hpicked⟩ := Option.ne_none_iff_exists'.1 hpicked
        have hself := Rule.mem_targets_of_picked hpicked
        rw [Rule.picked?_of_isTarget (Rule.isTarget_of_picked hpicked)] at hpicked
        have hpositive := List.countP_pos_iff.2 ⟨_, hself, isHelperCall_of_pick hfirst hpicked⟩
        have hle :=
          Bool.toNat_le (!false && (transformer options).holdsPending pass aliases (.mk shape span children))
        omega
    · have literals : ∀ target ∈ (transformer options).frontier pass aliases (allTargets children),
          WritesLiteral options pass aliases target :=
        fun target htarget => literals target (Rule.frontier_subset allTargets_subset_targets htarget)
      have ih := countP_of_allBecome children children' literals hchildren
      have hholds := Rule.holdsPending_of_frontier_eq_nil hnone
      have hcall :=
        @isHelperCall_of_kept options pass next aliases shape span span' children children' hchildren literals
      rw [hholds, targets, targets]
      split
      · rw [List.countP_cons, List.countP_cons, hcall, Nat.add_right_comm]
        exact Nat.add_le_add_right ih _
      · exact ih

theorem countP_of_allBecome : ∀ nodes trees : List Node,
    (∀ target ∈ (transformer options).frontier pass aliases (allTargets nodes),
      WritesLiteral options pass aliases target) →
    (transformer options).AllBecome pass next aliases (Rule.elementsIn options.fileName) nodes trees →
    (allTargets trees).countP (isHelperCall aliases) +
        (!pass.isFirst && (transformer options).anyPending pass aliases nodes).toNat ≤
      (allTargets nodes).countP (isHelperCall aliases)
  | [], trees, _, h => by
    rw [Rule.allBecome_nil_iff.1 h, Rule.anyPending, Bool.and_false]
    exact Nat.le_refl _
  | node :: rest, _, literals, h => by
    rw [allTargets] at literals
    obtain ⟨node', rest', rfl, hnode, hrest⟩ := Rule.allBecome_cons_iff.1 h
    have hfirst := countP_of_becomes node node'
      (fun target htarget => literals target (Rule.frontier_subset (List.subset_append_left _ _) htarget))
      hnode
    have hbehind := countP_of_allBecome rest rest'
      (fun target htarget => literals target (Rule.frontier_subset (List.subset_append_right _ _) htarget))
      hrest
    have hor : ∀ later here behind : Bool,
      (later && (here || behind)).toNat ≤ (later && here).toNat + (later && behind).toNat := by
      decide
    have hpending := hor (!pass.isFirst) ((transformer options).holdsPending pass aliases node)
      ((transformer options).anyPending pass aliases rest)
    rw [allTargets, allTargets, List.countP_append, List.countP_append, Rule.anyPending]
    omega

end

theorem getElem?_of_allBecome : ∀ {nodes trees : List Node} {position : Nat} {node : Node},
    (transformer options).AllBecome pass next aliases elements nodes trees → nodes[position]? = some node →
    ∃ found, trees[position]? = some found ∧
    (transformer options).Becomes pass next aliases elements node found
  | first :: rest, _, position, node, h, hnode => by
    obtain ⟨first', rest', rfl, hfirst, hrest⟩ := Rule.allBecome_cons_iff.1 h
    cases position with
    | zero =>
      cases hnode
      exact ⟨first', rfl, hfirst⟩
    | succ position => exact @getElem?_of_allBecome rest rest' position node hrest hnode

theorem outermost?_of_allBecome : ∀ {path : Path} {nodes trees : List Node} {node : Node},
    (∀ target ∈ (transformer options).frontier pass aliases (allTargets nodes),
      WritesLiteral options pass aliases target) →
    (transformer options).AllBecome pass next aliases (Rule.elementsIn options.fileName) nodes trees →
    outermost? aliases path nodes = some node → ∃ found, outermost? aliases path trees = some found ∧
      (transformer options).Becomes pass next aliases (Rule.elementsIn options.fileName) node found
  | [], _, _, _, _, _, hat => by cases hat
  | [position], _, _, _, _, h, hat => getElem?_of_allBecome h hat
  | position :: more :: path, nodes, trees, node, literals, h, hat => by
    rw [outermost?, Option.bind_eq_some_iff] at hat
    · obtain ⟨⟨shape, span, children⟩, houter, hinner⟩ := hat
      split at hinner
      · cases hinner
      · rename_i hconcerns
        rw [Bool.not_eq_true] at hconcerns
        obtain ⟨found, hfound, hbecomes⟩ := getElem?_of_allBecome h houter
        have hsubset : allTargets children ⊆ allTargets nodes := fun target htarget =>
          mem_allTargets_iff.2 ⟨_, List.mem_of_getElem? houter, allTargets_subset_targets htarget⟩
        have literals : ∀ target ∈ (transformer options).frontier pass aliases (allTargets children),
            WritesLiteral options pass aliases target :=
          fun target htarget => literals target (Rule.frontier_subset hsubset htarget)
        -- Nothing is picked of what is around it, which is therefore still there.
        obtain ⟨span', children', rfl, hchildren, -⟩ :=
          hbecomes.kept (Rule.frontier_singleton_of_none (picked?_of_not_concerns hconcerns))
        obtain ⟨literal, hliteral, hbecomes⟩ := outermost?_of_allBecome literals hchildren hinner
        refine ⟨literal, ?_, hbecomes⟩
        have hcall := @isHelperCall_of_kept options pass next aliases
          shape span span' children children' hchildren literals
        have hkept : concerns (compiledNames aliases) (.mk shape span' children') = false := by
          unfold concerns at hconcerns ⊢
          cases shape with
          | importDeclaration => cases hconcerns
          | _ => exact hcall.trans hconcerns
        rw [outermost?, hfound, Option.bind_some, hkept]
        · exact hliteral
        · simp
    · simp

end Node

/-! ## What is read behind a pass -/

namespace Rule

variable {σ χ ε : Type} {rule other : Rule σ χ ε} {pass : Pass} {state : σ} {elements : Bool}

variable (rule pass state elements) in
/-- Whether what a pass writes, if it has edits, is read as what becomes of the statements. -/
def StatementsBecome : Prop := ∀ edits ∈ (rule.collectEdits pass state).toOption, edits ≠ [] →
  ∀ result ∈ (Edit.applyAll pass.index pass.module.text edits).toOption,
    ∃ next ∈ (Module.read result.1 elements).toOption,
      rule.AllBecome pass ⟨pass.index + 1, next⟩ state elements pass.module.statements next.statements

instance : Decidable (rule.StatementsBecome pass state elements) :=
  inferInstanceAs (Decidable (∀ edits ∈ (rule.collectEdits pass state).toOption, edits ≠ [] →
    ∀ result ∈ (Edit.applyAll pass.index pass.module.text edits).toOption,
      ∃ next ∈ (Module.read result.1 elements).toOption,
        rule.AllBecome pass ⟨pass.index + 1, next⟩ state elements pass.module.statements next.statements))

theorem StatementsBecome.next (h : rule.StatementsBecome pass state elements)
    {edits : List Edit} {output : Text} {record : Record} (hedits : rule.collectEdits pass state = .ok edits)
    (hne : edits ≠ []) (happly : Edit.applyAll pass.index pass.module.text edits = .ok (output, record)) :
    ∃ next, Module.read output elements = .ok next ∧
      rule.AllBecome pass ⟨pass.index + 1, next⟩ state elements pass.module.statements next.statements := by
  obtain ⟨next, hread, hbecome⟩ :=
    h edits (toOption_eq_some_iff.2 hedits) hne _ (toOption_eq_some_iff.2 happly)
  exact ⟨next, toOption_eq_some_iff.1 hread, hbecome⟩

theorem Agrees.statementsBecome (h : rule.Agrees other pass state (Node.allTargets pass.module.items))
    (nested : Node.AllNested pass.module.items) (hbecome : rule.StatementsBecome pass state elements) :
    other.StatementsBecome pass state elements := by
  intro edits hedits hne result hresult
  rw [h.collectEdits_eq nested] at hedits
  obtain ⟨next, hread, hbecome⟩ := hbecome edits hedits hne result hresult
  exact ⟨next, hread, (h.mono pass.module.targets_of_statements).allBecome hbecome⟩

end Rule
end ClassWeave
