import ClassWeave.Proofs.Admission
import ClassWeave.Proofs.Tidiness
/-!
# Legible trees

A tree is legible if the text can be read at every span of it. The spans that are read for a picked
target, its own and those of what is made of it, are spans of its tree, so over a legible tree no
reading fails.
-/

namespace ClassWeave

namespace Shape

def specifierSpans : Shape → List Span
  | .importDeclaration declaration => declaration.specifiers.map (·.span)
  | _ => []

end Shape

namespace Node

mutual

/-- Where the nodes of a tree stand, and the specifiers of its imports. -/
def spans : Node → List Span
  | mk shape span children => span :: (shape.specifierSpans ++ allSpans children)

def allSpans : List Node → List Span
  | [] => []
  | node :: rest => spans node ++ allSpans rest

end

theorem span_mem_spans (node : Node) : node.span ∈ node.spans := by
  obtain ⟨shape, span, children⟩ := node
  rw [spans]
  exact List.mem_cons_self

theorem spans_subset_allSpans {node : Node} :
    ∀ {trees : List Node}, node ∈ trees → node.spans ⊆ allSpans trees
  | first :: rest, h => by
    rw [allSpans]
    rcases List.mem_cons.1 h with rfl | h
    · exact List.subset_append_left _ _
    · exact List.Subset.trans (spans_subset_allSpans h) (List.subset_append_right _ _)

theorem allSpans_subset_spans {shape : Shape} {span : Span} {children : List Node} :
    allSpans children ⊆ (mk shape span children).spans := by
  rw [spans]
  exact List.Subset.trans (List.subset_append_right _ _) (List.subset_cons_self _ _)

theorem spans_subset_of_child {shape : Shape} {span : Span} {children : List Node} {child : Node}
    (h : child ∈ children) : child.spans ⊆ (mk shape span children).spans :=
  List.Subset.trans (spans_subset_allSpans h) allSpans_subset_spans

mutual

theorem spans_of_mem_targets {target : Node} :
    ∀ node : Node, target ∈ node.targets → target.spans ⊆ node.spans
  | mk shape span children, h => by
    have ih : target ∈ allTargets children → target.spans ⊆ (mk shape span children).spans := fun h =>
      List.Subset.trans (spans_of_mem_allTargets children h) allSpans_subset_spans
    rw [targets] at h
    split at h
    · rcases List.mem_cons.1 h with rfl | h
      · exact List.Subset.refl _
      · exact ih h
    · exact ih h

theorem spans_of_mem_allTargets {target : Node} :
    ∀ trees : List Node, target ∈ allTargets trees → target.spans ⊆ allSpans trees
  | node :: rest, h => by
    rw [allTargets] at h
    rw [allSpans]
    rcases List.mem_append.1 h with h | h
    · exact List.Subset.trans (spans_of_mem_targets node h) (List.subset_append_left _ _)
    · exact List.Subset.trans (spans_of_mem_allTargets rest h) (List.subset_append_right _ _)

end

/-! ## What is taken off an expression -/

theorem spans_unparenthesized_subset (node : Node) : node.unparenthesized.spans ⊆ node.spans := by
  fun_induction unparenthesized node with
  | case1 span inner ih => exact List.Subset.trans ih (spans_subset_of_child (by simp))
  | case2 node _ => exact List.Subset.refl _

theorem spans_withoutTrail_subset (node : Node) : node.withoutTrail.spans ⊆ node.spans := by
  fun_cases withoutTrail node with
  | case1 span left right _ => exact spans_subset_of_child (by simp)
  | case2 span left right _ => exact List.Subset.refl _
  | case3 node _ => exact List.Subset.refl _

theorem spans_withoutLead_subset (node : Node) : node.withoutLead.spans ⊆ node.spans := by
  fun_cases withoutLead node with
  | case1 span left right _ => exact spans_subset_of_child (by simp)
  | case2 span left right _ => exact List.Subset.refl _
  | case3 node _ => exact List.Subset.refl _

theorem spans_unpadded_subset (node : Node) : node.unpadded.spans ⊆ node.spans :=
  List.Subset.trans (spans_withoutLead_subset _)
    (List.Subset.trans (spans_withoutTrail_subset _) (spans_unparenthesized_subset node))

end Node

/-! ## What is read for a target -/

open Node

theorem conditionalSpans_subset {test value : Node} {spans : List Span} (htest : test.spans ⊆ spans)
    (hvalue : value.spans ⊆ spans) : conditionalSpans test value ⊆ spans := by
  unfold conditionalSpans
  refine List.cons_subset.2 ⟨htest (span_mem_spans test), ?_⟩
  split
  · exact List.nil_subset _
  · refine List.cons_subset.2 ⟨hvalue (spans_unpadded_subset value (span_mem_spans _)), List.nil_subset _⟩

theorem aloneSpans_subset (node : Node) : aloneSpans node ⊆ node.spans := by
  have hbare := spans_unparenthesized_subset node
  have hself : [node.span] ⊆ node.spans := List.cons_subset.2 ⟨span_mem_spans node, List.nil_subset _⟩
  unfold aloneSpans
  split
  · exact List.nil_subset _
  · split
    · rename_i heq
      rw [heq] at hbare
      exact List.cons_subset.2 ⟨hbare (span_mem_spans _), List.nil_subset _⟩
    · rename_i heq
      rw [heq] at hbare
      exact conditionalSpans_subset (List.Subset.trans (spans_subset_of_child (by simp)) hbare)
        (List.Subset.trans (spans_subset_of_child (by simp)) hbare)
    · rename_i heq
      rw [heq] at hbare
      split
      · exact conditionalSpans_subset (List.Subset.trans (spans_subset_of_child (by simp)) hbare)
          (List.Subset.trans (spans_subset_of_child (by simp)) hbare)
      · exact hself
    · exact hself

theorem spansOf_subset {pieces : List (Piece Node)} {spans : List Span}
    (h : ∀ node, Piece.embedded node ∈ pieces → node.spans ⊆ spans) : spansOf pieces ⊆ spans := by
  unfold spansOf
  split
  · exact List.nil_subset _
  · exact List.Subset.trans (aloneSpans_subset _) (h _ (List.mem_singleton_self _))
  · intro span hspan
    obtain ⟨piece, hpiece, hspan⟩ := List.mem_flatMap.1 hspan
    cases piece with
    | text text => cases hspan
    | embedded node =>
      unfold Piece.spans at hspan
      simp only at hspan
      split at hspan
      · cases hspan
      · obtain rfl := List.mem_singleton.1 hspan
        exact h node hpiece (spans_unparenthesized_subset node (span_mem_spans _))

theorem partSpans_subset (chunks : List Chunk) (inner : List Node) :
    partSpans chunks inner ⊆ allSpans inner := by
  intro span hspan
  obtain ⟨pieces, hpieces, hspan⟩ := List.mem_flatMap.1 hspan
  exact spansOf_subset (fun node hnode => spans_subset_allSpans (mem_of_mem_classes hpieces hnode)) hspan

theorem argumentSpan_mem (argument : Node) : argumentSpan argument ∈ argument.spans := by
  unfold argumentSpan
  split
  · exact spans_subset_of_child (List.mem_singleton_self _) (span_mem_spans _)
  · exact span_mem_spans argument

/-! ## Legible trees and modules -/

def Node.Legible (pass : Pass) (node : Node) : Prop := ∀ span ∈ node.spans, pass.module.admits span = true

def Node.AllLegible (pass : Pass) (trees : List Node) : Prop :=
  ∀ span ∈ allSpans trees, pass.module.admits span = true

def Module.Legible (m : Module) : Prop := ∀ span ∈ allSpans m.items, m.admits span = true

instance (m : Module) : Decidable m.Legible :=
  inferInstanceAs (Decidable (∀ span ∈ allSpans m.items, m.admits span = true))

variable {pass : Pass}

theorem Module.Legible.of_target {target : Node} (h : pass.module.Legible)
    (htarget : target ∈ allTargets pass.module.items) : target.Legible pass :=
  fun span hspan => h span (spans_of_mem_allTargets _ htarget hspan)

namespace Node

theorem allLegible_cons_iff {node : Node} {rest : List Node} :
    AllLegible pass (node :: rest) ↔ node.Legible pass ∧ AllLegible pass rest := by
  unfold AllLegible
  rw [allSpans]
  exact List.forall_mem_append

theorem Legible.children {shape : Shape} {span : Span} {children : List Node}
    (h : (mk shape span children).Legible pass) : AllLegible pass children :=
  fun inner hinner => h inner (allSpans_subset_spans hinner)

theorem Legible.simplified {chunks : List Chunk} {span : Span} {inner : List Node}
    (h : (mk (.template chunks) span inner).Legible pass) (places : List Span) :
    simplifier.replaceAt pass places span ⟨chunks, inner⟩ =
      .ok (some (render (parts pass chunks inner))) := by
  refine Rule.replaceAt_of_admits (h span (span_mem_spans _)) (Pass.reading_of_admits fun part hpart => ?_)
  exact h.children part (partSpans_subset chunks inner hpart)

end Node
end ClassWeave
