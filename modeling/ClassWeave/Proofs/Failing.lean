import ClassWeave.Proofs.Limiting
import ClassWeave.Proofs.Marking
/-!
# How runs fail

A run that fails has used up its passes, has come to a text that is no program or that its edits do
not fit, or has met a target that the rule cannot replace. For helper calls the last is a call of
`tm` that is not constant, or a call of `tx` whose template cannot be simplified; and as the
template is simplified by a run too, that again is a matter of its texts.
-/

namespace ClassWeave

namespace Rule

variable {σ χ ε : Type} {rule : Rule σ χ ε} {pass : Pass} {state : σ} {failure : ε}

/-! ## Failures of a pass -/

variable (rule pass state) in
def Ready (node : Node) : Prop := rule.anyLive pass state node.span node.children = .ok false

variable (rule pass state) in
def Refuses (targets : List Node) (failure : ε) : Prop :=
  ∃ node ∈ targets, ∃ picked, rule.select pass state node = some picked ∧ rule.Ready pass state node ∧
    rule.replaceAt pass state node.span picked = .error failure

theorem replaceAt_eq_error {span : Span} {picked : χ}
    (h : rule.replaceAt pass state span picked = .error failure) :
    rule.replace pass state picked = .error failure ∨
      pass.module.admits span = false ∧ failure = rule.failure (.misfit .misplaced) := by
  unfold replaceAt at h
  cases hreplace : rule.replace pass state picked with
  | error other => rw [hreplace] at h; cases h; exact .inl rfl
  | ok replacement =>
    rw [hreplace] at h
    change (pass.reading [span] replacement).mapError rule.failure = _ at h
    rcases Pass.reading_cases pass [span] replacement with ⟨-, hreading⟩ | ⟨hsplit, hreading⟩
    · rw [hreading] at h; cases h
    · rw [hreading] at h
      cases h
      exact .inr ⟨by simpa using hsplit, rfl⟩

theorem Refuses.mono {targets more : List Node} (h : rule.Refuses pass state targets failure)
    (hsubset : targets ⊆ more) :
    rule.Refuses pass state more failure := by
  obtain ⟨node, hnode, picked, hrefused⟩ := h
  exact ⟨node, hsubset hnode, picked, hrefused⟩

mutual

theorem hasLive_error : ∀ (node : Node) (outer : Span), rule.hasLive pass state outer node = .error failure →
    rule.Refuses pass state node.targets failure
  | .mk shape span children, outer, h => by
    have ih := anyLive_error children
    have hinside : Node.allTargets children ⊆ (Node.mk shape span children).targets :=
      Node.allTargets_subset_targets
    rw [hasLive] at h
    split at h
    · rename_i htarget
      rw [Bool.and_eq_true] at htarget
      split at h
      · exact (ih outer h).mono hinside
      · rename_i picked hselect
        cases hlive : rule.anyLive pass state span children with
        | error other =>
          rw [hlive] at h
          cases h
          exact (ih span hlive).mono hinside
        | ok live =>
          rw [hlive] at h
          cases live with
          | true => cases h
          | false =>
            cases hreplace : rule.replaceAt pass state span picked with
            | error other =>
              rw [hreplace] at h
              cases h
              exact ⟨_, Node.mem_targets_self htarget.1, picked, hselect, hlive, hreplace⟩
            | ok replacement =>
              rw [hreplace] at h
              cases h
    · exact (ih outer h).mono hinside

theorem anyLive_error : ∀ (trees : List Node) (outer : Span),
    rule.anyLive pass state outer trees = .error failure →
    rule.Refuses pass state (Node.allTargets trees) failure
  | [], _, h => by cases h
  | node :: rest, outer, h => by
    rw [anyLive] at h
    rw [Node.allTargets]
    cases hlive : rule.hasLive pass state outer node with
    | error other =>
      rw [hlive] at h
      cases h
      exact (hasLive_error node outer hlive).mono (List.subset_append_left _ _)
    | ok live =>
      rw [hlive] at h
      cases live with
      | true => cases h
      | false => exact (anyLive_error rest outer h).mono (List.subset_append_right _ _)

end

theorem resolve_error {node : Node} {picked : χ} (htarget : node.shape.isTarget = true)
    (hselect : rule.select pass state node = some picked)
    (h : rule.resolve pass state node picked = .error failure) :
    rule.Refuses pass state node.targets failure := by
  have hself : node ∈ node.targets ∧ Node.allTargets node.children ⊆ node.targets := by
    obtain ⟨shape, span, children⟩ := node
    exact ⟨Node.mem_targets_self htarget, Node.allTargets_subset_targets⟩
  cases hlive : rule.anyLive pass state node.span node.children with
  | error other =>
    rw [resolve_of_error hlive] at h
    cases h
    exact (anyLive_error node.children node.span hlive).mono hself.2
  | ok live =>
    cases live with
    | true => rw [resolve_of_live hlive] at h; cases h
    | false =>
      cases hreplace : rule.replaceAt pass state node.span picked with
      | error other =>
        rw [resolve_of_failure hlive hreplace] at h
        cases h
        exact ⟨node, hself.1, picked, hselect, hlive, hreplace⟩
      | ok replacement =>
        rw [resolve_of_replaced hlive hreplace] at h
        split at h <;> cases h

theorem collectEdits_error (h : rule.collectEdits pass state = .error failure) :
    rule.Refuses pass state (Node.allTargets pass.module.items) failure := by
  let keeps : Findings ε → Prop := fun found => ∀ failure, found.failure = some failure →
    rule.Refuses pass state (Node.allTargets pass.module.items) failure
  have step : ∀ found node, node.shape.isTarget = true → node.targets ⊆ Node.allTargets pass.module.items →
      keeps found → keeps (rule.visit pass state found node).1 := by
    intro found node htarget hsubset hfound
    unfold visit
    cases hselect : rule.select pass state node with
    | none => exact hfound
    | some picked =>
      simp only
      split
      · exact hfound
      · exact hfound
      · exact hfound
      · rename_i other hresolve
        intro failure hfailure
        cases hfailure
        exact (resolve_error htarget hselect hresolve).mono hsubset
  have found := Node.walkAll_keeps pass.module.items ⟨[], none⟩ step (by intro failure h; cases h)
  unfold collectEdits at h
  simp only at h
  split at h
  · rename_i other hfailure
    cases h
    exact found _ hfailure
  · cases h

theorem onePass_error (h : rule.onePass pass state = .error failure) : rule.seed pass state = .error failure ∨
    ∃ state', rule.seed pass state = .ok state' ∧
      (rule.Refuses pass state' (Node.allTargets pass.module.items) failure ∨
        ∃ edits fault, rule.collectEdits pass state' = .ok edits ∧
          Edit.applyAll pass.index pass.module.text edits = .error fault ∧
          failure = rule.failure (.misfit fault)) := by
  unfold onePass at h
  cases hseed : rule.seed pass state with
  | error other =>
    rw [hseed] at h
    cases h
    exact .inl rfl
  | ok state' =>
    rw [hseed] at h
    change ((rule.collectEdits pass state').bind _ = _) at h
    refine .inr ⟨state', rfl, ?_⟩
    cases hedits : rule.collectEdits pass state' with
    | error other =>
      rw [hedits] at h
      cases h
      exact .inl (collectEdits_error hedits)
    | ok edits =>
      rw [hedits] at h
      simp only [Except.bind] at h
      split at h
      · cases h
      · rename_i fault happly
        cases h
        exact .inr ⟨edits, fault, rfl, happly, rfl⟩

/-! ## Failures of a run -/

variable (rule) (file : Option String) (source : Text)

/-- The texts that the passes of a run come to, with the state and the records there. -/
inductive Reaches : σ → List Record → Text → Prop
  | start : Reaches rule.initial [] source
  | pass {state state' : σ} {records : List Record} {record : Record}
      {text output : Text} {found : Module} {edits : List Edit} :
    Reaches state records text → Module.read text (elementsIn file) = .ok found →
    rule.onePass ⟨records.length, found⟩ state = .ok (state', edits, output, record) → edits ≠ [] →
    Reaches state' (records ++ [record]) output

def Begins (pass : Pass) (state : σ) : Prop :=
  ∃ earlier records text, rule.Reaches file source earlier records text ∧
    Module.read text (elementsIn file) = .ok pass.module ∧ pass.index = records.length ∧
    rule.seed pass earlier = .ok state

/-- What the texts of a run keep it from being completed by. -/
inductive Blocks : PassFailure → Prop
  | unreadable {state : σ} {records : List Record} {text : Text} {fault : ScriptFault} :
    rule.Reaches file source state records text → Module.read text (elementsIn file) = .error fault →
    Blocks (.unreadable (file.getD "") fault)
  | unread {pass : Pass} {state : σ} {node : Node} {picked : χ} :
    rule.Begins file source pass state → node ∈ Node.allTargets pass.module.items →
    rule.select pass state node = some picked → rule.Ready pass state node →
    pass.module.admits node.span = false → Blocks (.misfit .misplaced)
  | misfit {pass : Pass} {state : σ} {edits : List Edit} {fault : EditFault} :
    rule.Begins file source pass state → rule.collectEdits pass state = .ok edits →
    Edit.applyAll pass.index pass.module.text edits = .error fault → Blocks (.misfit fault)

variable {rule file source} {limit : Nat}

theorem reaches_of_passes {fixpoint : Fixpoint} :
    ∀ {left : Nat} {state : σ} {records : List Record} {text : Text},
    rule.Reaches file source state records text →
    (rule.passes file limit left state text records).outcome = .ok fixpoint →
    ∃ state records last seeded, rule.Reaches file source state records fixpoint.code ∧
      Module.read fixpoint.code (elementsIn file) = .ok last ∧
      rule.seed ⟨records.length, last⟩ state = .ok seeded ∧
      rule.collectEdits ⟨records.length, last⟩ seeded = .ok []
  | 0, _, _, _, _, h => by cases h
  | left + 1, state, records, text, reaches, h => by
    obtain ⟨_, found, seeded, edits, output, record, hleft, hread, hseed, hedits, happly, hrest⟩ :=
      passes_eq_ok h
    cases hleft
    rcases hrest with ⟨rfl, rfl⟩ | ⟨hne, hrest⟩
    · rw [Edit.applyAll_nil] at happly
      cases happly
      exact ⟨state, records, found, seeded, reaches, hread, hseed, hedits⟩
    · have hpass := onePass_eq_ok_iff.2 ⟨hseed, hedits, Module.text_of_read hread ▸ happly⟩
      exact reaches_of_passes (.pass reaches hread hpass hne) hrest

theorem reaches_of_run {fixpoint : Fixpoint} (h : (rule.run file limit source).outcome = .ok fixpoint) :
    ∃ state records last seeded, rule.Reaches file source state records fixpoint.code ∧
      Module.read fixpoint.code (elementsIn file) = .ok last ∧
      rule.seed ⟨records.length, last⟩ state = .ok seeded ∧
      rule.collectEdits ⟨records.length, last⟩ seeded = .ok [] := reaches_of_passes .start h

theorem passes_error (hseed : ∀ pass state, ∃ state', rule.seed pass state = .ok state') :
    ∀ {left : Nat} {state : σ} {records : List Record} {text : Text},
    rule.Reaches file source state records text →
      (rule.passes file limit left state text records).outcome = .error failure →
      failure = rule.failure (.passLimit limit) ∨
        (∃ cause, rule.Blocks file source cause ∧ failure = rule.failure cause) ∨
        ∃ pass state, rule.Begins file source pass state ∧
        ∃ node ∈ Node.allTargets pass.module.items, ∃ picked,
          rule.select pass state node = some picked ∧ rule.Ready pass state node ∧
          rule.replace pass state picked = .error failure
  | 0, _, _, _, _, h => by
    cases h
    exact .inl rfl
  | left + 1, state, records, text, reaches, h => by
    rw [passes] at h
    simp only at h
    cases hread : Module.read text (Module.holdsElements (file.getD "")) with
    | error fault =>
      rw [hread] at h
      cases h
      exact .inr (.inl ⟨_, .unreadable reaches hread, rfl⟩)
    | ok found =>
      rw [hread] at h
      simp only at h
      cases hpass : rule.onePass ⟨records.length, found⟩ state with
      | error other =>
        rw [hpass] at h
        cases h
        obtain ⟨state', hstate'⟩ := hseed ⟨records.length, found⟩ state
        have begins : rule.Begins file source ⟨records.length, found⟩ state' :=
          ⟨state, records, text, reaches, hread, rfl, hstate'⟩
        rcases onePass_error hpass with hnone | ⟨seeded, hseeded, hwhy⟩
        · rw [hstate'] at hnone
          cases hnone
        · rw [hstate'] at hseeded
          cases hseeded
          rcases hwhy with
              ⟨node, hnode, picked, hpicked, hready, hreplaced⟩ | ⟨edits, fault, hedits, happly, rfl⟩
          · rcases replaceAt_eq_error hreplaced with hreplace | ⟨hsplit, rfl⟩
            · exact .inr (.inr ⟨_, _, begins, node, hnode, picked, hpicked, hready, hreplace⟩)
            · exact .inr (.inl ⟨_, .unread begins hnode hpicked hready hsplit, rfl⟩)
          · exact .inr (.inl ⟨_, .misfit begins hedits happly, rfl⟩)
      | ok result =>
        obtain ⟨state', edits, output, record⟩ := result
        rw [hpass] at h
        simp only at h
        split at h
        · cases h
        · rename_i hne
          exact passes_error hseed (.pass reaches hread hpass (by simpa using hne)) h

/-- A run that fails has used up its passes, is blocked by a text, or has met a target that the rule
cannot replace. -/
theorem run_error (hseed : ∀ pass state, ∃ state', rule.seed pass state = .ok state')
    (h : (rule.run file limit source).outcome = .error failure) :
    failure = rule.failure (.passLimit limit) ∨
      (∃ cause, rule.Blocks file source cause ∧ failure = rule.failure cause) ∨
      ∃ pass state, rule.Begins file source pass state ∧ ∃ node ∈ Node.allTargets pass.module.items, ∃ picked,
        rule.select pass state node = some picked ∧ rule.Ready pass state node ∧
        rule.replace pass state picked = .error failure :=
  passes_error hseed .start h

end Rule

/-! ## Failures of a file -/

/-- What keeps a template from being simplified, however many passes are allowed. -/
inductive TemplateObstacle (file : Option String) (code : Text) : PassFailure → Prop
  | text {cause : PassFailure} : simplifier.Blocks file code cause → TemplateObstacle file code cause
  | part {pass : Pass} {places : List Span} {node : Node} {picked : PickedTemplate} {span : Span} :
    simplifier.Begins file code pass places → node ∈ Node.allTargets pass.module.items →
    simplifier.select pass places node = some picked → simplifier.Ready pass places node →
    span ∈ partSpans picked.chunks picked.inner →
    pass.module.admits span = false → TemplateObstacle file code (.misfit .misplaced)

theorem simplifyTemplate_error {code : Text} {file : Option String} {limit : Nat} {failure : PassFailure}
    (h : simplifyTemplate code file limit = .error failure) :
    failure.IsLimit ∨ TemplateObstacle file code failure := by
  have hrun : (simplifier.run file limit code).outcome = .error failure := by
    unfold simplifyTemplate at h
    cases hrun : (simplifier.run file limit code).outcome with
    | error other => rw [hrun] at h; cases h; rfl
    | ok fixpoint => rw [hrun] at h; cases h
  rcases Rule.run_error (fun _ _ => ⟨_, rfl⟩) hrun with rfl | ⟨cause, hblocks, rfl⟩ |
    ⟨pass, places, begins, node, hnode, picked, hpicked, hready, hreplace⟩
  · exact .inl trivial
  · exact .inr (.text hblocks)
  · change pass.reading (partSpans picked.chunks picked.inner) _ = _ at hreplace
    rcases Pass.reading_cases pass (partSpans picked.chunks picked.inner)
        (some (render (parts pass picked.chunks picked.inner))) with
            ⟨-, hreading⟩ | ⟨⟨span, hspan, hsplit⟩, hreading⟩
    · rw [hreading] at hreplace; cases hreplace
    · rw [hreading] at hreplace
      cases hreplace
      exact .inr (.part begins hnode hpicked hready hspan hsplit)

def HelperTarget.spans : HelperTarget → List Span
  | .importDeclaration declaration => declaration.keptSpans
  | .tx given => given.map argumentSpan
  | .tm _ => []

/-- What keeps a file from being transformed, however many passes are allowed. -/
inductive Obstacle (options : Options) (source : Text) : TransformFailure → Prop
  | text {cause : PassFailure} : (transformer options).Blocks options.fileName source cause →
      Obstacle options source (.pass cause)
  | span {pass : Pass} {aliases : Aliases} {node : Node} {picked : HelperTarget} {span : Span} :
    (transformer options).Begins options.fileName source pass aliases →
    node ∈ Node.allTargets pass.module.items →
    pick options pass aliases node = some picked → (transformer options).Ready pass aliases node →
    span ∈ picked.spans → pass.module.admits span = false →
    Obstacle options source (.pass (.misfit .misplaced))
  | template {pass : Pass} {aliases : Aliases} {node : Node} {given : List Node} {cause : PassFailure} :
    (transformer options).Begins options.fileName source pass aliases →
    node ∈ Node.allTargets pass.module.items →
    pick options pass aliases node = some (.tx given) → (transformer options).Ready pass aliases node →
    TemplateObstacle options.fileName (templateOf pass given) cause → Obstacle options source (.pass cause)
  | argument {pass : Pass} {aliases : Aliases} {node : Node} {given : List Node}
      {failure : TransformFailure} :
    (transformer options).Begins options.fileName source pass aliases →
    node ∈ Node.allTargets pass.module.items →
    pick options pass aliases node = some (.tm given) → (transformer options).Ready pass aliases node →
    compileTm given = .error failure → Obstacle options source failure

theorem replace_error {options : Options} {pass : Pass} {aliases : Aliases}
    {picked : HelperTarget} {failure : TransformFailure}
    (h : (transformer options).replace pass aliases picked = .error failure) :
    ((∃ span ∈ picked.spans, pass.module.admits span = false) ∧ failure = .pass (.misfit .misplaced)) ∨
      (∃ given cause, picked = .tx given ∧ failure = .pass cause ∧
        simplifyTemplate (templateOf pass given) options.fileName options.maxPasses = .error cause) ∨
      ∃ given, picked = .tm given ∧ compileTm given = .error failure := by
  cases picked with
  | importDeclaration declaration =>
    change (pass.reading declaration.keptSpans (declaration.withoutHelpers pass options.module)).mapError
      TransformFailure.pass = _ at h
    rcases Pass.reading_cases pass declaration.keptSpans (declaration.withoutHelpers pass options.module) with
      ⟨-, hreading⟩ | ⟨hsplit, hreading⟩
    · rw [hreading] at h; cases h
    · rw [hreading] at h
      cases h
      exact .inl ⟨hsplit, rfl⟩
  | tx given =>
    change (compileTx pass given options).map some = _ at h
    rcases compileTx_cases pass given with hreadable | ⟨⟨argument, hargument, hsplit⟩, hmisfit⟩
    · rw [compileTx_of_admits options hreadable] at h
      cases hcode : simplifyTemplate (templateOf pass given) options.fileName options.maxPasses with
      | ok code => rw [hcode] at h; cases h
      | error cause =>
        rw [hcode] at h
        cases h
        exact .inr (.inl ⟨given, cause, rfl, rfl, hcode⟩)
    · rw [hmisfit] at h
      cases h
      exact .inl ⟨⟨_, List.mem_map_of_mem hargument, hsplit⟩, rfl⟩
  | tm given =>
    change (compileTm given).map some = _ at h
    cases hcompiled : compileTm given with
    | ok code => rw [hcompiled] at h; cases h
    | error other =>
      rw [hcompiled] at h
      cases h
      exact .inr (.inr ⟨given, rfl, hcompiled⟩)

theorem obstacle_of_transformTrace {options : Options} {source : Text} {failure : TransformFailure}
    (h : (transformTrace source options).outcome = .error failure) :
    failure.IsLimit ∨ Obstacle options source failure := by
  rcases Rule.run_error (fun _ _ => ⟨_, rfl⟩) h with rfl | ⟨cause, hblocks, rfl⟩ |
    ⟨pass, state, begins, node, hnode, picked, hpick, hready, hreplace⟩
  · exact .inl trivial
  · exact .inr (.text hblocks)
  · rcases replace_error hreplace with ⟨⟨span, hspan, hsplit⟩, rfl⟩ | ⟨given, cause, rfl, rfl, hcode⟩ |
      ⟨given, rfl, hcompiled⟩
    · exact .inr (.span begins hnode hpick hready hspan hsplit)
    · rcases simplifyTemplate_error hcode with hlimit | hobstacle
      · exact .inl hlimit
      · exact .inr (.template begins hnode hpick hready hobstacle)
    · exact .inr (.argument begins hnode hpick hready hcompiled)

end ClassWeave
