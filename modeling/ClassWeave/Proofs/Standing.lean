import ClassWeave.Proofs.Likeness
/-!
# Expressions as classes

What an expression is if it stands for a class of its own: constant text, a template, a conditional,
or anything else. The parts of a template are decided by that alone.
-/

namespace ClassWeave

inductive Standing where
  | constant (text : Text)
  | template (chunks : List Chunk) (span : Span) (inner : List Node)
  | conditional (test value : Node)
  | other

def Node.standing (node : Node) : Standing :=
  match node.constantText? with
  | some text => .constant text
  | none =>
    match node.unparenthesized with
    | .mk (.template chunks) span inner => .template chunks span inner
    | .mk (.binary "&&") _ [left, right] => .conditional left right
    | .mk .conditional _ [test, consequent, alternate] =>
      if alternate.isBlankString then .conditional test consequent else .other
    | _ => .other

def Standing.part? (pass : Pass) (node : Node) : Standing → Option Part
  | .constant text => (nonBlank text).map .text
  | .template _ span _ => some (.splice (templateBody (pass.textAt span)))
  | .conditional test value => some (conditionalPart pass test value)
  | .other => some (.embed (pass.textAt node.span))

theorem aloneParts_eq (pass : Pass) (node : Node) : aloneParts pass node = node.standing.part? pass node := by
  unfold Node.standing
  fun_cases aloneParts pass node with
  | case1 text hconstant =>
    rw [hconstant]
    rfl
  | case2 hconstant chunks span children hnode =>
    rw [hconstant, hnode]
    rfl
  | case3 hconstant span left right hnode =>
    rw [hconstant, hnode]
    rfl
  | case4 hconstant span test consequent alternate hnode hblank =>
    rw [hconstant, hnode]
    dsimp only
    rw [if_pos hblank]
    rfl
  | case5 hconstant span test consequent alternate hnode hblank =>
    rw [hconstant, hnode]
    dsimp only
    rw [if_neg hblank]
    rfl
  | case6 hconstant htemplate hand hcond =>
    rw [hconstant]
    dsimp only
    split
    · rename_i heq
      exact absurd heq (htemplate _ _ _)
    · rename_i heq
      exact absurd heq (hand _ _ _)
    · rename_i heq
      exact absurd heq (hcond _ _ _ _)
    · rfl

def Standing.addTo (pass : Pass) (node : Node) (glued : Glued) : Standing → Glued
  | .constant text => glued.addText text
  | .template _ span _ => ⟨none, glued.source ++ templateBody (pass.textAt span)⟩
  | .conditional _ _ => ⟨none, glued.source ++ embedded (pass.textAt node.unparenthesized.span)⟩
  | .other => ⟨none, glued.source ++ embedded (pass.textAt node.unparenthesized.span)⟩

theorem addPiece_embedded (pass : Pass) (glued : Glued) (node : Node) :
    glued.addPiece pass (.embedded node) = node.standing.addTo pass node glued := by
  rw [Glued.addPiece]
  unfold Node.standing
  cases node.constantText? with
  | some text => rfl
  | none =>
    dsimp only
    cases hnode : node.unparenthesized with
    | mk shape span children =>
      have hspan : node.unparenthesized.span = span := by rw [hnode]; rfl
      split
      · rename_i heq
        cases heq
        rfl
      · rename_i htemplate heq
        cases heq
        split
        · rename_i heq
          cases heq
          exact absurd rfl (htemplate _)
        · rw [Standing.addTo, hspan]
        · split
          · rw [Standing.addTo, hspan]
          · rw [Standing.addTo, hspan]
        · rw [Standing.addTo, hspan]

namespace Standing

variable {pass other : Pass}

inductive Alike (pass other : Pass) : Standing → Standing → Prop where
  | constant (text : Text) : Alike pass other (.constant text) (.constant text)
  | template {chunks : List Chunk} {span span' : Span} {inner inner' : List Node}
      (span_eq : pass.textAt span = other.textAt span')
      (inner_alike : Node.AllAlike pass other inner inner') :
      Alike pass other (.template chunks span inner) (.template chunks span' inner')
  | conditional {test test' value value' : Node} (test_alike : test.Alike pass other test')
      (value_alike : value.Alike pass other value') :
      Alike pass other (.conditional test value) (.conditional test' value')
  | other : Alike pass other .other .other

end Standing

theorem Node.Alike.standing {pass other : Pass} {node node' : Node} (h : node.Alike pass other node') :
    node.standing.Alike pass other node'.standing := by
  have hbare := h.unparenthesized
  have hconstant := h.constantText?
  unfold Node.standing
  rw [← hconstant]
  cases node.constantText? with
  | some text => exact .constant text
  | none =>
    dsimp only
    revert hbare
    generalize node.unparenthesized = bare
    generalize node'.unparenthesized = bare'
    intro hbare
    split
    · obtain ⟨span', inner', rfl, hspan, hinner⟩ := alike_mk_iff.1 hbare
      exact .template hspan hinner
    · obtain ⟨span', left', right', rfl, -, hleft, hright⟩ := hbare.two
      exact .conditional hleft hright
    · obtain ⟨span', test', consequent', alternate', rfl, -, htest, hc, ha⟩ := hbare.three
      rw [ha.isBlankString]
      dsimp only
      split
      · exact .conditional htest hc
      · exact .other
    · rename_i htemplate hand hcond
      obtain ⟨shape, span, children⟩ := bare
      obtain ⟨span', children', rfl, -, hchildren⟩ := alike_mk_iff.1 hbare
      split
      · rename_i heq
        cases heq
        exact absurd rfl (htemplate _ _ _)
      · rename_i heq
        cases heq
        exact (hchildren.not_two (fun left right heq => by cases heq; exact hand _ _ _ rfl) _ _ rfl).elim
      · rename_i heq
        cases heq
        exact (hchildren.not_three
          (fun test consequent alternate heq => by cases heq; exact hcond _ _ _ _ rfl) _ _ _ rfl).elim
      · exact .other

/-! ## Parts of templates that are alike -/

section
variable {pass other : Pass}

theorem Standing.Alike.part?_eq {standing standing' : Standing} (h : standing.Alike pass other standing')
    {node node' : Node} (hnode : node.Alike pass other node') :
    standing.part? pass node = standing'.part? other node' := by
  cases h with
  | constant text => rfl
  | template hspan _ => rw [part?, part?, hspan]
  | conditional htest hvalue => rw [part?, part?, conditionalPart_alike htest hvalue]
  | other => rw [part?, part?, hnode.textAt]

theorem Standing.Alike.addTo_eq {standing standing' : Standing} (h : standing.Alike pass other standing')
    {node node' : Node} (hnode : node.Alike pass other node') (glued : Glued) :
    standing.addTo pass node glued = standing'.addTo other node' glued := by
  have htext := hnode.unparenthesized.textAt
  cases h with
  | constant text => rfl
  | template hspan _ => rw [addTo, addTo, hspan]
  | conditional _ _ => rw [addTo, addTo, htext]
  | other => rw [addTo, addTo, htext]

def AllPiecesAlike (pass other : Pass) (pieces : List (Piece (Node × Node))) : Prop :=
  ∀ pair, .embedded pair ∈ pieces → pair.1.Alike pass other pair.2

theorem foldl_addPiece_alike : ∀ {pieces : List (Piece (Node × Node))}, AllPiecesAlike pass other pieces →
    ∀ glued : Glued, (pieces.map (Piece.map Prod.fst)).foldl (Glued.addPiece pass) glued =
      (pieces.map (Piece.map Prod.snd)).foldl (Glued.addPiece other) glued
  | [], _, _ => rfl
  | .text word :: pieces, h, glued =>
    foldl_addPiece_alike (fun pair hpair => h pair (List.mem_cons_of_mem _ hpair)) (glued.addText word)
  | .embedded (node, node') :: pieces, h, glued => by
    have hnode : node.Alike pass other node' := h (node, node') (List.mem_cons_self ..)
    have hpiece : glued.addPiece pass (.embedded node) = glued.addPiece other (.embedded node') := by
      rw [addPiece_embedded, addPiece_embedded, hnode.standing.addTo_eq hnode]
    show List.foldl _ (glued.addPiece pass (.embedded node)) _ =
      List.foldl _ (glued.addPiece other (.embedded node')) _
    rw [hpiece]
    exact foldl_addPiece_alike (fun pair hpair => h pair (List.mem_cons_of_mem _ hpair)) _

theorem partOf_alike {pieces : List (Piece (Node × Node))} (h : AllPiecesAlike pass other pieces) :
    partOf pass (pieces.map (Piece.map Prod.fst)) = partOf other (pieces.map (Piece.map Prod.snd)) := by
  have hglued : gluedPart pass (pieces.map (Piece.map Prod.fst)) =
    gluedPart other (pieces.map (Piece.map Prod.snd)) := by
    unfold gluedPart
    rw [foldl_addPiece_alike h]
  match pieces, h, hglued with
  | [], _, hglued => exact hglued
  | [.text word], _, _ => rfl
  | [.embedded (node, node')], h, _ =>
    have hnode : node.Alike pass other node' := h (node, node') (List.mem_cons_self ..)
    show aloneParts pass node = aloneParts other node'
    rw [aloneParts_eq, aloneParts_eq, hnode.standing.part?_eq hnode]
  | first :: _ :: _, _, hglued =>
    cases first with
    | text word => exact hglued
    | embedded pair => exact hglued

theorem parts_alike {chunks : List Chunk} {inner inner' : List Node}
    (h : Node.AllAlike pass other inner inner') :
    parts pass chunks inner = parts other chunks inner' := by
  obtain ⟨pairs, hpairs, rfl, rfl⟩ := h.exists_pairs
  unfold parts
  rw [classes_map, classes_map, List.filterMap_map, List.filterMap_map]
  refine List.filterMap_congr fun pieces hpieces => partOf_alike fun pair hpair => ?_
  exact hpairs pair (mem_of_mem_classes hpieces hpair)

end

/-! ## What expressions offer as classes -/

namespace Node

theorem standing_constant {node : Node} {text : Text} :
    node.standing = .constant text ↔ node.constantText? = some text := by
  unfold standing
  cases node.constantText? with
  | some found => simp
  | none =>
    dsimp only
    split
    · simp
    · simp
    · split <;> simp
    · simp

theorem constantText?_of_standing {node : Node} {standing : Standing} (h : node.standing = standing)
    (hstanding : ∀ text, standing ≠ .constant text) : node.constantText? = none := by
  cases hconstant : node.constantText? with
  | none => rfl
  | some text => exact absurd (h ▸ standing_constant.2 hconstant) (hstanding text)

theorem unparenthesized_of_template {node : Node} {chunks : List Chunk} {span : Span} {inner : List Node}
    (h : node.standing = .template chunks span inner) :
    node.unparenthesized = .mk (.template chunks) span inner := by
  unfold standing at h
  split at h
  · cases h
  · split at h
    · rename_i heq
      cases h
      exact heq
    · cases h
    · split at h <;> cases h
    · cases h

theorem unparenthesized_of_conditional {node test value : Node}
    (h : node.standing = .conditional test value) :
    (∃ span, node.unparenthesized = .mk (.binary "&&") span [test, value]) ∨
      ∃ span alternate, node.unparenthesized = .mk .conditional span [test, value, alternate] ∧
        alternate.isBlankString = true := by
  unfold standing at h
  split at h
  · cases h
  · split at h
    · cases h
    · rename_i heq
      cases h
      exact .inl ⟨_, heq⟩
    · rename_i heq
      split at h
      · rename_i hblank
        cases h
        exact .inr ⟨_, _, heq, hblank⟩
      · cases h
    · cases h

/-- Whether an expression is `test && value`, in any parentheses. -/
def isAnd (node : Node) : Bool :=
  match node.unparenthesized with
  | .mk (.binary "&&") _ [_, _] => true
  | _ => false

theorem Alike.isAnd {pass other : Pass} {node node' : Node} (h : node.Alike pass other node') :
    node.isAnd = node'.isAnd := by
  unfold Node.isAnd
  have hbare := h.unparenthesized
  revert hbare
  generalize node.unparenthesized = bare
  generalize node'.unparenthesized = bare'
  intro hbare
  split
  · obtain ⟨span', left', right', rfl, -, -, -⟩ := hbare.two
    rfl
  · rename_i hnot
    obtain ⟨shape, span, children⟩ := bare
    obtain ⟨span', children', rfl, -, hchildren⟩ := alike_mk_iff.1 hbare
    split
    · rename_i heq
      cases heq
      exact (hchildren.not_two (fun left right heq => by cases heq; exact hnot _ _ _ rfl) _ _ rfl).elim
    · rfl

variable (setting : Setting) (pass : Pass)

/-- What an expression comes to as a class of its own: nothing, if it is a conditional whose test fails. -/
def offer (node : Node) : Yield :=
  match node.standing with
  | .conditional test value => setting.when (bareText pass test) (Yield.of (signs setting pass value))
  | _ => Yield.of (signs setting pass node)

theorem offer_of_not_isAnd {node : Node} (h : node.isAnd = false) :
    node.offer setting pass = Yield.of (node.signs setting pass) := by
  unfold offer
  split
  · rename_i test value hstanding
    rcases unparenthesized_of_conditional hstanding with ⟨span, hnode⟩ | ⟨span, alternate, hnode, hblank⟩
    · unfold isAnd at h
      rw [hnode] at h
      cases h
    · obtain ⟨blanks, hblanks, heq⟩ := signs_of_isBlankString setting pass hblank
      rw [← signs_unparenthesized setting pass node, hnode, signs, heq, Setting.of_choose]
      rw [Yield.of_spell, Text.words_eq_nil hblanks]
      rfl
  · rfl

theorem Alike.offer {pass other : Pass} {node node' : Node} (h : node.Alike pass other node')
    (setting : Setting) :
    node.offer setting pass = node'.offer setting other := by
  have hstanding := h.standing
  have hsigns := h.signs setting
  unfold Node.offer
  revert hstanding
  generalize node.standing = standing
  generalize node'.standing = standing'
  intro hstanding
  cases hstanding with
  | constant text => exact congrArg Yield.of hsigns
  | template _ _ => exact congrArg Yield.of hsigns
  | conditional htest hvalue =>
    dsimp only
    rw [htest.bareText, hvalue.signs]
  | other => exact congrArg Yield.of hsigns

end Node

end ClassWeave
