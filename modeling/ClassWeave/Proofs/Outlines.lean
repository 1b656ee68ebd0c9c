import ClassWeave.Proofs.Standing
/-!
# Outlines

The outline of a tree leaves out its spans and what its templates hold. It tells which expressions
are conditionals as classes, and how many layers of parentheses and spaces can still be taken off
their values.
-/

namespace ClassWeave

namespace Node

/-! ## Layers -/

/-- How many parentheses and sums stand around an expression, or among its operands. -/
def layers : Node → Nat
  | .mk .parenthesized _ [inner] => inner.layers + 1
  | .mk (.binary "+") _ [left, right] => left.layers + right.layers + 1
  | _ => 0

theorem layers_unparenthesized (node : Node) :
    node.unparenthesized = node ∨ node.unparenthesized.layers < node.layers := by
  fun_induction unparenthesized node with
  | case1 span inner ih =>
    right
    rw [layers]
    rcases ih with heq | hlt
    · rw [heq]
      exact Nat.lt_succ_self _
    · exact Nat.lt_succ_of_lt hlt
  | case2 node hnode => exact .inl rfl

theorem layers_withoutTrail (node : Node) :
    node.withoutTrail = node ∨ node.withoutTrail.layers < node.layers := by
  fun_cases withoutTrail node with
  | case1 span left right hright =>
    right
    rw [layers]
    omega
  | case2 span left right hright => exact .inl rfl
  | case3 node hnode => exact .inl rfl

theorem layers_withoutLead (node : Node) :
    node.withoutLead = node ∨ node.withoutLead.layers < node.layers := by
  fun_cases withoutLead node with
  | case1 span left right hleft =>
    right
    rw [layers]
    omega
  | case2 span left right hleft => exact .inl rfl
  | case3 node hnode => exact .inl rfl

theorem layers_trans {a b c : Node} (hab : a = b ∨ a.layers < b.layers) (hbc : b = c ∨ b.layers < c.layers) :
    a = c ∨ a.layers < c.layers := by
  rcases hab with rfl | hab
  · exact hbc
  · rcases hbc with rfl | hbc
    · exact .inr hab
    · exact .inr (hab.trans hbc)

theorem layers_unpadded (node : Node) : node.unpadded = node ∨ node.unpadded.layers < node.layers :=
  layers_trans (layers_withoutLead _) (layers_trans (layers_withoutTrail _) node.layers_unparenthesized)

/-- How much can still be done to an expression that is a class of its own: to make a conditional of
it part of a larger class, and to take off what stands around its value. -/
def strain (node : Node) : Nat :=
  match node.unparenthesized with
  | .mk (.binary "&&") _ [_, value] => value.unpadded.layers + 1
  | .mk .conditional _ [_, value, alternate] => if alternate.isBlankString then
      value.unpadded.layers + 1 else 0
  | _ => 0

theorem strain_of_conditional {node test value : Node} (h : node.standing = .conditional test value) :
    node.strain = value.unpadded.layers + 1 := by
  unfold strain
  rcases unparenthesized_of_conditional h with ⟨span, hnode⟩ | ⟨span, alternate, hnode, hblank⟩
  · rw [hnode]
    rfl
  · rw [hnode]
    exact if_pos hblank

theorem strain_of_other {node : Node} (h : node.standing = .other) : node.strain = 0 := by
  have hconstant := constantText?_of_standing h nofun
  unfold standing at h
  rw [hconstant] at h
  unfold strain
  split
  · rename_i hnode
    rw [hnode] at h
    cases h
  · rename_i hnode
    rw [hnode] at h
    dsimp only at h
    split at h
    · cases h
    · rename_i hblank
      exact if_neg hblank
  · rfl

/-! ## Outlines -/

mutual

def outline : Node → Node
  | .mk (.template _) _ _ => .mk (.template []) ⟨0, 0⟩ []
  | .mk shape _ children => .mk shape ⟨0, 0⟩ (outlines children)

def outlines : List Node → List Node
  | [] => []
  | node :: rest => outline node :: outlines rest

end

theorem outline_template (chunks : List Chunk) (span : Span) (inner : List Node) :
    outline (.mk (.template chunks) span inner) = .mk (.template []) ⟨0, 0⟩ [] := by
  rw [outline]

theorem outline_mk {shape : Shape} {span : Span} {children : List Node}
    (h : ∀ chunks, shape ≠ .template chunks) :
    outline (.mk shape span children) = .mk shape ⟨0, 0⟩ (outlines children) :=
  outline.eq_2 shape span children h

theorem outlines_eq_map (nodes : List Node) : outlines nodes = nodes.map outline := by
  induction nodes with
  | nil => rw [outlines]; rfl
  | cons node rest ih => rw [outlines, ih, List.map_cons]

theorem outlines_one (a : Node) : outlines [a] = [a.outline] := outlines_eq_map [a]

theorem outlines_two (a b : Node) : outlines [a, b] = [a.outline, b.outline] := outlines_eq_map [a, b]

theorem outlines_three (a b c : Node) : outlines [a, b, c] = [a.outline, b.outline, c.outline] :=
  outlines_eq_map [a, b, c]

theorem eq_of_outline {node : Node} {shape : Shape} {span : Span} {a : Node} {rest : List Node}
    (h : node.outline = .mk shape span (a :: rest)) :
    ∃ span' children, node = .mk shape span' children ∧ children.map outline = a :: rest := by
  obtain ⟨shape', span', children⟩ := node
  by_cases htemplate : ∃ chunks, shape' = .template chunks
  · obtain ⟨chunks, rfl⟩ := htemplate
    rw [outline_template] at h
    cases h
  · rw [not_exists] at htemplate
    rw [outline_mk htemplate, outlines_eq_map] at h
    injection h with hshape hspan hchildren
    exact ⟨span', children, by rw [hshape], hchildren⟩

theorem eq_one_of_outline {node : Node} {shape : Shape} {span : Span}
    {a : Node} (h : node.outline = .mk shape span [a]) :
    ∃ span' inner, node = .mk shape span' [inner] := by
  obtain ⟨span', children, rfl, hchildren⟩ := eq_of_outline h
  obtain ⟨inner, rfl, -⟩ := List.map_eq_singleton_iff.1 hchildren
  exact ⟨span', inner, rfl⟩

theorem eq_two_of_outline {node : Node} {shape : Shape} {span : Span}
    {a b : Node} (h : node.outline = .mk shape span [a, b]) :
    ∃ span' left right, node = .mk shape span' [left, right] := by
  obtain ⟨span', children, rfl, hchildren⟩ := eq_of_outline h
  obtain ⟨left, rest, rfl, -, hrest⟩ := List.map_eq_cons_iff.1 hchildren
  obtain ⟨right, rfl, -⟩ := List.map_eq_singleton_iff.1 hrest
  exact ⟨span', left, right, rfl⟩

theorem eq_three_of_outline {node : Node} {shape : Shape} {span : Span} {a b c : Node}
    (h : node.outline = .mk shape span [a, b, c]) : ∃ span' x y z, node = .mk shape span' [x, y, z] := by
  obtain ⟨span', children, rfl, hchildren⟩ := eq_of_outline h
  obtain ⟨x, rest, rfl, -, hrest⟩ := List.map_eq_cons_iff.1 hchildren
  obtain ⟨y, last, rfl, -, hlast⟩ := List.map_eq_cons_iff.1 hrest
  obtain ⟨z, rfl, -⟩ := List.map_eq_singleton_iff.1 hlast
  exact ⟨span', x, y, z, rfl⟩

theorem unparenthesized_outline (node : Node) :
    node.outline.unparenthesized = node.unparenthesized.outline := by
  fun_induction unparenthesized node with
  | case1 span inner ih => rw [outline_mk (by simp), outlines_one, unparenthesized, ih]
  | case2 node hnode =>
    refine unparenthesized.eq_2 _ fun span inner heq => ?_
    obtain ⟨span', inner', rfl⟩ := eq_one_of_outline heq
    exact hnode span' inner' rfl

theorem isStringAmong_outline (node : Node) (values : List Text) :
    node.outline.isStringAmong values = node.isStringAmong values := by
  unfold isStringAmong
  rw [unparenthesized_outline]
  obtain ⟨shape, span, children⟩ := node.unparenthesized
  cases shape with
  | template chunks => rw [outline_template]
  | literal value =>
    rw [outline_mk (by simp)]
    cases value <;> rfl
  | _ => rw [outline_mk (by simp)]

theorem isBlankString_outline (node : Node) : node.outline.isBlankString = node.isBlankString :=
  node.isStringAmong_outline _

theorem withoutTrail_outline (node : Node) : node.outline.withoutTrail = node.withoutTrail.outline := by
  fun_cases withoutTrail node with
  | case1 span left right hright =>
    rw [outline_mk (by simp), outlines_two, withoutTrail,
      if_pos ((right.isStringAmong_outline _).trans hright)]
  | case2 span left right hright =>
    rw [outline_mk (by simp), outlines_two, withoutTrail, if_neg (by rwa [right.isStringAmong_outline])]
  | case3 node hnode =>
    refine withoutTrail.eq_2 _ fun span left right heq => ?_
    obtain ⟨span', left', right', rfl⟩ := eq_two_of_outline heq
    exact hnode span' left' right' rfl

theorem withoutLead_outline (node : Node) : node.outline.withoutLead = node.withoutLead.outline := by
  fun_cases withoutLead node with
  | case1 span left right hleft =>
    rw [outline_mk (by simp), outlines_two, withoutLead, if_pos ((left.isStringAmong_outline _).trans hleft)]
  | case2 span left right hleft =>
    rw [outline_mk (by simp), outlines_two, withoutLead, if_neg (by rwa [left.isStringAmong_outline])]
  | case3 node hnode =>
    refine withoutLead.eq_2 _ fun span left right heq => ?_
    obtain ⟨span', left', right', rfl⟩ := eq_two_of_outline heq
    exact hnode span' left' right' rfl

theorem unpadded_outline (node : Node) : node.outline.unpadded = node.unpadded.outline := by
  rw [unpadded, unparenthesized_outline, withoutTrail_outline, withoutLead_outline]
  rfl

theorem layers_outline (node : Node) : node.outline.layers = node.layers := by
  fun_induction layers node with
  | case1 span inner ih => rw [outline_mk (by simp), outlines_one, layers, ih]
  | case2 span left right ihl ihr => rw [outline_mk (by simp), outlines_two, layers, ihl, ihr]
  | case3 node hparens hsum =>
    refine layers.eq_3 _ (fun span inner heq => ?_) fun span left right heq => ?_
    · obtain ⟨span', inner', rfl⟩ := eq_one_of_outline heq
      exact hparens span' inner' rfl
    · obtain ⟨span', left', right', rfl⟩ := eq_two_of_outline heq
      exact hsum span' left' right' rfl

/-- The outline of an expression tells what can still be done to it. -/
theorem strain_outline (node : Node) : node.outline.strain = node.strain := by
  unfold strain
  rw [unparenthesized_outline]
  generalize node.unparenthesized = bare
  symm
  split
  · rename_i span test value
    rw [outline_mk (by simp), outlines_two]
    change _ = value.outline.unpadded.layers + 1
    rw [unpadded_outline, layers_outline]
  · rename_i span test value alternate
    rw [outline_mk (by simp), outlines_three]
    change _ = if alternate.outline.isBlankString then value.outline.unpadded.layers + 1 else 0
    rw [isBlankString_outline, unpadded_outline, layers_outline]
  · rename_i hand hcond
    split
    · rename_i heq
      obtain ⟨span', left, right, rfl⟩ := eq_two_of_outline heq
      exact absurd rfl (hand span' left right)
    · rename_i heq
      obtain ⟨span', x, y, z, rfl⟩ := eq_three_of_outline heq
      exact absurd rfl (hcond span' x y z)
    · rfl

theorem strain_of_outline {node other : Node} (h : node.outline = other.outline) :
    node.strain = other.strain := by
  rw [← strain_outline, h, strain_outline]

theorem outline_alike {pass other : Pass} :
    (∀ node node', Alike pass other node node' → node.outline = node'.outline) ∧
    ∀ trees trees', AllAlike pass other trees trees' → outlines trees = outlines trees' := by
  apply outline.mutual_induct
  · intro chunks span inner node' halike
    obtain ⟨span', inner', rfl, -, -⟩ := alike_mk_iff.1 halike
    rw [outline_template, outline_template]
  · intro shape span children hshape ih node' halike
    obtain ⟨span', children', rfl, -, hchildren⟩ := alike_mk_iff.1 halike
    rw [outline_mk hshape, outline_mk hshape, ih children' hchildren]
  · intro trees' halike
    rw [allAlike_nil_iff.1 halike]
  · intro node rest ih ihrest trees' halike
    obtain ⟨node', rest', rfl, hnode, hrest⟩ := allAlike_cons_iff.1 halike
    rw [outlines, outlines, ih node' hnode, ihrest rest' hrest]

theorem Alike.outline {pass other : Pass} {node node' : Node} (h : node.Alike pass other node') :
    node.outline = node'.outline :=
  outline_alike.1 node node' h

end Node

end ClassWeave
