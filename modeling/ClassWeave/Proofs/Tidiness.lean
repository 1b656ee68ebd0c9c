import ClassWeave.Proofs.Settling
import ClassWeave.Proofs.Standing
/-!
# Tidy templates

A template is tidy if it is written the way it would be written anew and no `test && value` is left
among its expressions. A tree with tidy templates, without imports and without calls of some names
stays so wherever it is copied.
-/

namespace ClassWeave

/-- A template that is written the way it would be written anew, without `test && value` among its
expressions. -/
structure TidyTemplate (pass : Pass) (chunks : List Chunk) (span : Span) (inner : List Node) : Prop where
  fits : chunks.length = inner.length + 1
  clean : ∀ node ∈ inner, node.isAnd = false
  finished : render (parts pass chunks inner) = pass.textAt span

instance (pass : Pass) (chunks : List Chunk) (span : Span) (inner : List Node) :
    Decidable (TidyTemplate pass chunks span inner) :=
  decidable_of_iff (chunks.length = inner.length + 1 ∧ (∀ node ∈ inner, node.isAnd = false) ∧
    render (parts pass chunks inner) = pass.textAt span)
    ⟨fun h => ⟨h.1, h.2.1, h.2.2⟩, fun h => ⟨h.1, h.2, h.3⟩⟩

theorem TidyTemplate.alike {pass other : Pass} {chunks : List Chunk}
    {span span' : Span} {inner inner' : List Node} (h : TidyTemplate pass chunks span inner)
    (hspan : pass.textAt span = other.textAt span') (hinner : Node.AllAlike pass other inner inner') :
    TidyTemplate other chunks span' inner' where
  fits := by rw [h.fits, Node.length_of_allAlike hinner]
  clean := by
    obtain ⟨pairs, hpairs, rfl, rfl⟩ := hinner.exists_pairs
    intro node hnode
    obtain ⟨pair, hpair, rfl⟩ := List.mem_map.1 hnode
    rw [← (hpairs pair hpair).isAnd]
    exact h.clean _ (List.mem_map.2 ⟨pair, hpair, rfl⟩)
  finished := by rw [← parts_alike hinner, h.finished, hspan]

namespace Node

theorem mem_allTargets_iff {target : Node} {trees : List Node} :
    target ∈ allTargets trees ↔ ∃ node ∈ trees, target ∈ node.targets := by
  induction trees with
  | nil => simp [allTargets]
  | cons node rest ih => simp [allTargets, ih]

def concerns (names : String → Bool) (node : Node) : Bool :=
  match node.shape with
  | .importDeclaration _ => true
  | _ => node.called?.any names

/-- A tree with tidy templates, without imports and without calls of some names. -/
structure Tidy (pass : Pass) (names : String → Bool) (node : Node) : Prop where
  templates : ∀ chunks span inner, .mk (.template chunks) span inner ∈ node.targets →
    TidyTemplate pass chunks span inner
  free : ∀ target ∈ node.targets, target.concerns names = false

def isTidyTemplate (pass : Pass) : Node → Bool
  | .mk (.template chunks) span inner => decide (TidyTemplate pass chunks span inner)
  | _ => true

instance (pass : Pass) (names : String → Bool) (node : Node) : Decidable (node.Tidy pass names) :=
  decidable_of_iff (∀ target ∈ node.targets, target.isTidyTemplate pass = true ∧
    target.concerns names = false) <| by
    constructor
    · intro h
      exact ⟨fun _ _ _ htemplate => of_decide_eq_true (h _ htemplate).1,
        fun target htarget => (h target htarget).2⟩
    · intro h target htarget
      refine ⟨?_, h.free target htarget⟩
      unfold isTidyTemplate
      split
      · exact decide_eq_true (h.templates _ _ _ htarget)
      · rfl

def AllTidy (pass : Pass) (names : String → Bool) (nodes : List Node) : Prop :=
  ∀ node ∈ nodes, node.Tidy pass names

variable {pass other : Pass} {names : String → Bool}

theorem AllTidy.nil : AllTidy pass names [] := fun _ hnode => by cases hnode

theorem AllTidy.cons {node : Node} {rest : List Node} (h : node.Tidy pass names)
    (hrest : AllTidy pass names rest) :
    AllTidy pass names (node :: rest) := List.forall_mem_cons.2 ⟨h, hrest⟩

theorem targets_subset_of_mem {shape : Shape} {span : Span} {children : List Node} {child : Node}
    (h : child ∈ children) : child.targets ⊆ (mk shape span children).targets :=
  fun _ htarget => allTargets_subset_targets (mem_allTargets_iff.2 ⟨child, h, htarget⟩)

theorem targets_unparenthesized_subset (node : Node) : node.unparenthesized.targets ⊆ node.targets := by
  fun_induction unparenthesized node with
  | case1 span inner ih => exact List.Subset.trans ih (targets_subset_of_mem (by simp))
  | case2 node _ => exact List.Subset.refl _

theorem targets_withoutTrail_subset (node : Node) : node.withoutTrail.targets ⊆ node.targets := by
  fun_cases withoutTrail node with
  | case1 span left right _ => exact targets_subset_of_mem (by simp)
  | case2 span left right _ => exact List.Subset.refl _
  | case3 node _ => exact List.Subset.refl _

theorem targets_withoutLead_subset (node : Node) : node.withoutLead.targets ⊆ node.targets := by
  fun_cases withoutLead node with
  | case1 span left right _ => exact targets_subset_of_mem (by simp)
  | case2 span left right _ => exact List.Subset.refl _
  | case3 node _ => exact List.Subset.refl _

theorem targets_unpadded_subset (node : Node) : node.unpadded.targets ⊆ node.targets :=
  List.Subset.trans (targets_withoutLead_subset _)
    (List.Subset.trans (targets_withoutTrail_subset _) (targets_unparenthesized_subset node))

theorem Tidy.mono {node inner : Node} (h : node.Tidy pass names) (hsubset : inner.targets ⊆ node.targets) :
    inner.Tidy pass names where
  templates chunks span embedded htemplate := h.templates chunks span embedded (hsubset htemplate)
  free target htarget := h.free target (hsubset htarget)

theorem Tidy.child {shape : Shape} {span : Span} {children : List Node}
    (h : (Node.mk shape span children).Tidy pass names) :
    AllTidy pass names children := fun _ hchild => h.mono (targets_subset_of_mem hchild)

theorem mem_targets_mk {shape : Shape} {span : Span} {children : List Node} {target : Node}
    (h : target ∈ (mk shape span children).targets) :
    target = mk shape span children ∨ target ∈ allTargets children := by
  rw [targets] at h
  split at h
  · exact List.mem_cons.1 h
  · exact .inr h

theorem tidy_mk {shape : Shape} {span : Span} {children : List Node} (h : AllTidy pass names children)
    (htemplate : ∀ chunks, shape = .template chunks → TidyTemplate pass chunks span children)
    (hfree : (mk shape span children).concerns names = false) :
    (mk shape span children).Tidy pass names where
  templates chunks span' inner hinside := by
    rcases mem_targets_mk hinside with heq | hinside
    · cases heq
      exact htemplate chunks rfl
    · obtain ⟨node, hnode, htarget⟩ := mem_allTargets_iff.1 hinside
      exact (h node hnode).templates chunks span' inner htarget
  free target hinside := by
    rcases mem_targets_mk hinside with rfl | hinside
    · exact hfree
    · obtain ⟨node, hnode, htarget⟩ := mem_allTargets_iff.1 hinside
      exact (h node hnode).free target htarget

theorem Tidy.template {node : Node} (h : node.Tidy pass names)
    {chunks : List Chunk} {span : Span} {inner : List Node}
    (hnode : node.unparenthesized = .mk (.template chunks) span inner) :
    TidyTemplate pass chunks span inner := by
  refine h.templates chunks span inner (targets_unparenthesized_subset node ?_)
  rw [hnode]
  exact mem_targets_self rfl

theorem targets_alike : (∀ node : Node, ∀ node', node.Alike pass other node' →
      ∀ target' ∈ node'.targets, ∃ target ∈ node.targets, target.Alike pass other target') ∧
    (∀ trees : List Node, ∀ trees', AllAlike pass other trees trees' →
      ∀ target' ∈ allTargets trees', ∃ target ∈ allTargets trees, target.Alike pass other target') := by
  apply targets.mutual_induct
  · intro shape span children htarget ih node' h target' htarget'
    obtain ⟨span', children', rfl, -, hchildren⟩ := alike_mk_iff.1 h
    rw [targets, if_pos htarget] at htarget' ⊢
    rcases List.mem_cons.1 htarget' with rfl | htarget'
    · exact ⟨_, List.mem_cons_self .., h⟩
    · obtain ⟨target, hmem, halike⟩ := ih children' hchildren target' htarget'
      exact ⟨target, List.mem_cons_of_mem _ hmem, halike⟩
  · intro shape span children htarget ih node' h target' htarget'
    obtain ⟨span', children', rfl, -, hchildren⟩ := alike_mk_iff.1 h
    rw [targets, if_neg htarget] at htarget' ⊢
    exact ih children' hchildren target' htarget'
  · intro trees' h target' htarget'
    rw [allAlike_nil_iff.1 h, allTargets] at htarget'
    cases htarget'
  · intro node rest ih ihrest trees' h target' htarget'
    obtain ⟨node', rest', rfl, hnode, hrest⟩ := allAlike_cons_iff.1 h
    rw [allTargets] at htarget' ⊢
    rcases List.mem_append.1 htarget' with htarget' | htarget'
    · obtain ⟨target, hmem, halike⟩ := ih node' hnode target' htarget'
      exact ⟨target, List.mem_append_left _ hmem, halike⟩
    · obtain ⟨target, hmem, halike⟩ := ihrest rest' hrest target' htarget'
      exact ⟨target, List.mem_append_right _ hmem, halike⟩

theorem Alike.called? {node node' : Node} (h : node.Alike pass other node') :
    node.called? = node'.called? := by
  obtain ⟨shape, span, children⟩ := node
  obtain ⟨span', children', rfl, -, hchildren⟩ := alike_mk_iff.1 h
  cases children with
  | nil => rw [allAlike_nil_iff.1 hchildren]; cases shape <;> rfl
  | cons callee rest =>
    obtain ⟨callee', rest', rfl, hcallee, -⟩ := allAlike_cons_iff.1 hchildren
    obtain ⟨calleeShape, calleeSpan, calleeChildren⟩ := callee
    obtain ⟨calleeSpan', calleeChildren', rfl, -, -⟩ := alike_mk_iff.1 hcallee
    cases shape with
    | call arity => cases calleeShape <;> rfl
    | _ => rfl

theorem Alike.concerns {node node' : Node} (h : node.Alike pass other node') :
    node.concerns names = node'.concerns names := by
  unfold Node.concerns
  rw [h.shape_eq, h.called?]

theorem Tidy.alike {node node' : Node} (h : node.Tidy pass names) (halike : node.Alike pass other node') :
    node'.Tidy other names where
  templates chunks span' inner' hinside := by
    obtain ⟨target, htarget, htargets⟩ := targets_alike.1 node node' halike _ hinside
    obtain ⟨shape, span, inner⟩ := target
    obtain ⟨_, _, heq, hspan, hinner⟩ := alike_mk_iff.1 htargets
    cases heq
    exact (h.templates chunks span inner htarget).alike hspan hinner
  free target' hinside := by
    obtain ⟨target, htarget, htargets⟩ := targets_alike.1 node node' halike _ hinside
    exact htargets.concerns ▸ h.free target htarget

end Node

end ClassWeave
