import ClassWeave.Helper.Call
import ClassWeave.Proofs.Probing
import ClassWeave.Proofs.Running
/-!
# How compiled forms begin

Whatever is compiled begins with a double quote or a backquote: a string literal and a rendered
template do, and passes that put nothing else in keep a text that does.
-/

namespace ClassWeave

def Text.Marked (text : Text) : Prop := ∃ c rest, text = c :: rest ∧ (c = Quoted.mark ∨ c = TemplateText.mark)

instance (text : Text) : Decidable text.Marked :=
  match text with
  | [] => .isFalse (by rintro ⟨c, rest, h, -⟩; cases h)
  | c :: rest => decidable_of_iff (c = Quoted.mark ∨ c = TemplateText.mark)
    ⟨fun h => ⟨c, rest, rfl, h⟩, by rintro ⟨d, rest', h, hd⟩; cases h; exact hd⟩

theorem Quoted.marked_encode (value : Text) : (Quoted.encode value).Marked := ⟨_, _, rfl, .inl rfl⟩

theorem marked_render (parts : List Part) : (render parts).Marked := by
  unfold render
  split
  · exact Quoted.marked_encode _
  · exact ⟨_, _, rfl, .inr rfl⟩

theorem Text.Marked.append {text : Text} (h : text.Marked) (rest : Text) : (text ++ rest).Marked := by
  obtain ⟨c, tail, rfl, hc⟩ := h
  exact ⟨c, tail ++ rest, rfl, hc⟩

namespace Edit

theorem marked_applyFrom {edits : List Edit} {cursor : Nat} {at' : Progress}
    {text output : Text} {runs : List Run} (hedits : ∀ edit ∈ edits, edit.text.Marked) (htext : text.Marked)
    (h : applyFrom cursor at' text edits = .ok (output, runs)) : output.Marked := by
  cases edits with
  | nil =>
    simp only [applyFrom, Except.ok.injEq, Prod.mk.injEq] at h
    rwa [← h.1]
  | cons edit edits =>
    obtain ⟨kept, removed, rest, output', _, -, -, rfl, -, -, -, rfl, -⟩ := applyFrom_cons h
    cases kept with
    | nil => exact (hedits edit (by simp)).append _
    | cons c kept =>
      obtain ⟨d, tail, heq, hd⟩ := htext
      obtain ⟨rfl, -⟩ := List.cons.inj heq
      exact ⟨_, _, rfl, hd⟩

theorem marked_applyAll {index : Nat} {edits : List Edit} {text : Text} {result : Text × Record}
    (hedits : ∀ edit ∈ edits, edit.text.Marked) (htext : text.Marked)
    (h : applyAll index text edits = .ok result) : result.1.Marked := by
  refine marked_applyFrom (fun edit hedit => hedits edit ?_) htext (applyAll_eq_ok h)
  exact (Sorting.mem_sort _).1 hedit

end Edit

/-! ## Where the edits of a pass come from -/

namespace Node

variable {σ : Type} {visit : σ → Node → σ × Step} {keeps : σ → Prop}

mutual

theorem walk_keeps : ∀ (node : Node) (state : σ), (∀ state inner, inner.shape.isTarget = true →
      inner.targets ⊆ node.targets → keeps state → keeps (visit state inner).1) →
    keeps state → keeps (walk visit state node).1
  | .mk shape span children, state, step, h => by
    have hchildren := fun state inner htarget hinner =>
      step state inner htarget (List.Subset.trans hinner allTargets_subset_targets)
    rw [walk]
    split
    · rename_i htarget
      have hvisit := step state (.mk shape span children) htarget (List.Subset.refl _) h
      split
      · rename_i heq
        rw [heq] at hvisit
        exact walkAll_keeps children _ hchildren hvisit
      · rename_i heq
        rwa [heq] at hvisit
      · rename_i heq
        rwa [heq] at hvisit
    · exact walkAll_keeps children state hchildren h

theorem walkAll_keeps : ∀ (trees : List Node) (state : σ), (∀ state inner, inner.shape.isTarget = true →
      inner.targets ⊆ allTargets trees → keeps state → keeps (visit state inner).1) →
    keeps state → keeps (walkAll visit state trees).1
  | [], _, _, h => h
  | node :: rest, state, step, h => by
    rw [allTargets] at step
    rw [walkAll]
    have hnode := walk_keeps node state (fun state inner htarget hinner =>
      step state inner htarget (List.subset_append_of_subset_left _ hinner)) h
    have hrest := fun state inner htarget hinner =>
      step state inner htarget (List.subset_append_of_subset_right _ hinner)
    split
    · rename_i heq
      rwa [heq] at hnode
    · rename_i heq
      rw [heq] at hnode
      exact walkAll_keeps rest _ hrest hnode

end

end Node

namespace Rule

variable {σ χ ε : Type} {rule : Rule σ χ ε} {pass : Pass} {state : σ}

theorem edit_of_resolve {node : Node} {picked : χ} {edit : Edit}
    (h : rule.resolve pass state node picked = .ok (.edited edit)) :
    rule.replace pass state picked = .ok edit.replacement ∧ edit.span = pass.module.range node.span := by
  cases hlive : rule.anyLive pass state node.span node.children with
  | error failure => rw [resolve_of_error hlive] at h; cases h
  | ok live =>
    cases live with
    | true => rw [resolve_of_live hlive] at h; cases h
    | false =>
      cases hreplace : rule.replaceAt pass state node.span picked with
      | error failure => rw [resolve_of_failure hlive hreplace] at h; cases h
      | ok replacement =>
        rw [resolve_of_replaced hlive hreplace] at h
        split at h
        · cases h
        · cases h
          exact ⟨(replaceAt_eq_ok.1 hreplace).1, rfl⟩

/-- Every edit of a pass stands where a picked target does, and writes what the rule replaces that by. -/
theorem target_of_collectEdits {edits : List Edit} (h : rule.collectEdits pass state = .ok edits) :
    ∀ edit ∈ edits, ∃ node ∈ Node.allTargets pass.module.items,
    ∃ picked, rule.picked? pass state node = some picked ∧
      rule.replace pass state picked = .ok edit.replacement ∧ edit.span = pass.module.range node.span := by
  let keeps : Findings ε → Prop := fun found =>
    ∀ edit ∈ found.edits, ∃ node ∈ Node.allTargets pass.module.items,
      ∃ picked, rule.picked? pass state node = some picked ∧
      rule.replace pass state picked = .ok edit.replacement ∧ edit.span = pass.module.range node.span
  have step : ∀ found node, node.shape.isTarget = true → node.targets ⊆ Node.allTargets pass.module.items →
      keeps found → keeps (rule.visit pass state found node).1 := by
    intro found node htarget hsubset hfound
    have hnode : node ∈ Node.allTargets pass.module.items := by
      obtain ⟨shape, span, children⟩ := node
      exact hsubset (Node.mem_targets_self htarget)
    unfold visit
    cases hselect : rule.select pass state node with
    | none => exact hfound
    | some picked =>
      cases hresolve : rule.resolve pass state node picked with
      | error failure => simp only [hresolve]; exact hfound
      | ok resolution =>
        cases resolution with
        | deferred => simp only [hresolve]; exact hfound
        | unchanged => simp only [hresolve]; exact hfound
        | edited edit =>
          simp only [hresolve]
          intro other hother
          rcases List.mem_cons.1 hother with rfl | hother
          · exact ⟨node, hnode, picked, (picked?_of_isTarget htarget).trans hselect, edit_of_resolve hresolve⟩
          · exact hfound other hother
  have found := Node.walkAll_keeps pass.module.items ⟨[], none⟩ step (by simp [keeps])
  unfold collectEdits at h
  simp only at h
  split at h
  · cases h
  · cases h
    intro edit hedit
    exact found edit (List.mem_reverse.1 hedit)

end Rule

/-! ## What helpers are compiled to -/

theorem marked_of_simplifyTemplate {code text : Text} {file : Option String}
    {limit : Nat} (hcode : code.Marked) (h : simplifyTemplate code file limit = .ok text) : text.Marked := by
  unfold simplifyTemplate at h
  cases hrun : (simplifier.run file limit code).outcome with
  | error failure => rw [hrun] at h; cases h
  | ok fixpoint =>
    rw [hrun] at h
    cases h
    refine Rule.code_of_passes ?_ hcode hrun
    intro pass state edits result htext hedits happly
    refine Edit.marked_applyAll ?_ htext happly
    intro edit hedit
    obtain ⟨-, -, picked, -, hreplace, -⟩ := Rule.target_of_collectEdits hedits edit hedit
    have hwritten : edit.replacement = some (render (parts pass picked.chunks picked.inner)) :=
      (Pass.reading_eq_ok.1 hreplace).2.symm
    rw [Edit.text, hwritten]
    exact marked_render _

theorem marked_of_compileTx {pass : Pass} {given : List Node} {options : Options} {text : Text}
    (h : compileTx pass given options = .ok text) : text.Marked :=
  marked_of_simplifyTemplate ⟨_, _, rfl, .inr rfl⟩ (compileTx_eq_ok.1 h).2

theorem marked_of_compileTm {given : List Node} {text : Text} (h : compileTm given = .ok text) :
    text.Marked := by
  unfold compileTm at h
  split at h
  · split at h
    · cases h
    · split at h
      · cases h
      · cases h
        exact Quoted.marked_encode _
  · cases h

end ClassWeave
