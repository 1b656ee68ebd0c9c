import ClassWeave.Proofs.SnippetSettling
/-!
# One pass over a tree

A pass over a tree of helper calls replaces every call of literals by what it comes to, and nothing else.
-/

namespace ClassWeave

namespace HelperTree

/-! ## Calls of literals -/

def leaves : List HelperTree → List Leaf
  | [] => []
  | .leaf _ literal _ :: rest => literal :: leaves rest
  | .call _ _ _ _ _ _ :: rest => leaves rest

theorem shown_eq : ∀ {given : List HelperTree}, given.all isLeaf = true →
    shown given = (leaves given).map Leaf.shown
  | [], _ => rfl
  | .leaf _ literal _ :: rest, h => by
    rw [List.all_cons, Bool.and_eq_true] at h
    rw [shown, leaves, List.map_cons, shown_eq h.2]
  | .call _ _ _ _ _ _ :: rest, h => by cases (Bool.and_eq_true _ _ ▸ List.all_cons ▸ h).1

theorem text_list_cons (tree next : HelperTree) (given : List HelperTree) :
    list (tree :: next :: given) = tree.text ++ (',' :: list (next :: given)) := by
  simp [list, text]

variable {pass : Pass}

theorem elementOf_leaf (lead trail : Gap) (literal : Leaf) {start : Nat}
    (holds : pass.Holds start (leaf lead literal trail).text) :
    elementOf pass ((leaf lead literal trail).node start) = embedded literal.text := by
  have htext := holds.right.left.textAt_eq
  cases literal with
  | string quote body value hquote closed => exact congrArg embedded htext
  | template body raw value closed => exact congrArg embedded htext

theorem map_elementOf : ∀ {given : List HelperTree} {start : Nat}, given.all isLeaf = true →
    pass.Holds start (list given) →
    (nodes given start).map (elementOf pass) = (leaves given).map fun literal => embedded literal.text
  | [], _, _, _ => rfl
  | .call _ _ _ _ _ _ :: _, _, h, _ => by cases (Bool.and_eq_true _ _ ▸ List.all_cons ▸ h).1
  | [.leaf lead literal trail], start, _, holds => by
    rw [nodes, nodes, leaves, leaves, List.map_cons, List.map_cons, elementOf_leaf lead trail literal holds]
    rfl
  | .leaf lead literal trail :: next :: given, start, h, holds => by
    rw [text_list_cons] at holds
    have hrest : pass.Holds (start + (leaf lead literal trail).text.byteLength + 1) (list (next :: given)) :=
      @Pass.Holds.right _ _ [','] _ holds.right
    rw [List.all_cons, Bool.and_eq_true] at h
    rw [nodes, leaves, List.map_cons, List.map_cons, elementOf_leaf lead trail literal holds.left,
      map_elementOf h.2 hrest]

theorem body_eq : ∀ literals : List Leaf, Leaf.body true literals =
    (literals.map fun literal => embedded literal.text).flatMap ([' '] ++ ·) ++ [TemplateText.mark]
  | [] => rfl
  | literal :: literals => by
    rw [Leaf.body, body_eq literals]
    simp [embedded, space]

theorem snippet_eq (literals : List Leaf) : Leaf.snippet literals =
    TemplateText.mark :: Text.joinWith [' '] (literals.map fun literal => embedded literal.text) ++
      [TemplateText.mark] := by
  cases literals with
  | nil => rfl
  | cons literal literals =>
    rw [Leaf.snippet, Leaf.body, body_eq, List.map_cons, Text.joinWith_cons]
    simp [embedded, space]

theorem admits_leaf (lead trail : Gap) (literal : Leaf) {start : Nat}
    (holds : pass.Holds start (leaf lead literal trail).text) :
    pass.module.admits (argumentSpan ((leaf lead literal trail).node start)) = true := by
  have hadmits := holds.right.left.admits
  cases literal with
  | string quote body value hquote closed => exact hadmits
  | template body raw value closed => exact hadmits

theorem admits_nodes : ∀ {given : List HelperTree} {start : Nat}, given.all isLeaf = true →
    pass.Holds start (list given) →
    ∀ argument ∈ nodes given start, pass.module.admits (argumentSpan argument) = true
  | [], _, _, _, _, hargument => nomatch hargument
  | .call _ _ _ _ _ _ :: _, _, h, _, _, _ => by cases (Bool.and_eq_true _ _ ▸ List.all_cons ▸ h).1
  | [.leaf lead literal trail], _, _, holds, argument, hargument => by
    obtain rfl := List.mem_singleton.1 hargument
    exact admits_leaf lead trail literal holds
  | .leaf lead literal trail :: next :: given, start, h, holds, argument, hargument => by
    rw [text_list_cons] at holds
    have hrest : pass.Holds (start + (leaf lead literal trail).text.byteLength + 1) (list (next :: given)) :=
      @Pass.Holds.right _ _ [','] _ holds.right
    rw [List.all_cons, Bool.and_eq_true] at h
    rcases List.mem_cons.1 hargument with rfl | hargument
    · exact admits_leaf lead trail literal holds.left
    · exact admits_nodes h.2 hrest argument hargument

theorem templateOf_nodes {given : List HelperTree} {start : Nat} (h : given.all isLeaf = true)
    (holds : pass.Holds start (list given)) :
    templateOf pass (nodes given start) = Leaf.snippet (leaves given) := by
  rw [templateOf, map_elementOf h holds, snippet_eq]

theorem constantArgument?_leaf (lead trail : Gap) (literal : Leaf) (start : Nat) :
    constantArgument? ((leaf lead literal trail).node start) = some literal.value := by
  cases literal with
  | string quote body value hquote closed => rfl
  | template body raw value closed => rfl

def targetOf (helper : Helper) (given : List Node) : HelperTarget :=
  match helper with
  | .tm => .tm given
  | _ => .tx given

variable {options : Options} {aliases : Aliases} {helper : Helper} {given : List HelperTree}

theorem select_call {span name : Span} {arguments : List Node} (callee : Callee)
    (hlookup : aliases.lookup callee.name = some helper)
    (hhelper : helper = .tx ∨ (helper = .tm ∧ given.length = 2)) (hlength : arguments.length = given.length) :
    (transformer options).select pass aliases
        (.mk (.call given.length) span (.mk (.identifier callee.name) name [] :: arguments)) =
          some (targetOf helper arguments) := by
  show pick options pass aliases
    (.mk (.call given.length) span (.mk (.identifier callee.name) name [] :: arguments)) = _
  rw [pick, hlookup, ← hlength, List.take_length]
  rcases hhelper with rfl | ⟨rfl, -⟩
  · rfl
  · rfl

theorem replace_call (lead behind trail : Gap) (callee : Callee)
    {start : Nat} (hlimit : 3 ≤ options.maxPasses)
    (hhelper : helper = .tx ∨ (helper = .tm ∧ given.length = 2))
    (h : given.all isLeaf = true) (holds : pass.Holds start (list given)) :
    (transformer options).replace pass aliases (targetOf helper (nodes given start)) =
      .ok (some (Quoted.encode (value (call lead helper callee behind given trail)))) := by
  rcases hhelper with rfl | ⟨rfl, hlength⟩
  · show (compileTx pass (nodes given start) options).map some = _
    rw [compileTx_of_admits options (admits_nodes h holds), templateOf_nodes h holds,
      Leaf.simplifyTemplate_snippet _ hlimit, value, shown_eq h]
    · rfl
    · nofun
  · show (compileTm (nodes given start)).map some = _
    match given, hlength with
    | [.leaf lead₁ modifier trail₁, .leaf lead₂ literal trail₂], _ =>
      simp only [nodes, compileTm, constantArgument?_leaf, value, values]
      rfl
    | [.call _ _ _ _ _ _, _], _ => cases h
    | [.leaf _ _ _, .call _ _ _ _ _ _], _ => cases h

/-! ## Any tree -/

def opening (callee : Callee) (behind : Gap) : Text := callee.name.toList ++ (behind.text ++ ['('])

theorem byteLength_opening (callee : Callee) (behind : Gap) (start : Nat) :
    start + Text.byteLength callee.name.toList + behind.text.byteLength + 1 =
      start + (opening callee behind).byteLength := by
  have hparen : Text.byteLength ['('] = 1 := rfl
  rw [opening, Text.byteLength_append, Text.byteLength_append, hparen]
  omega

theorem core_eq (lead : Gap) (helper : Helper) (callee : Callee)
    (behind : Gap) (given : List HelperTree) (trail : Gap) :
    (call lead helper callee behind given trail).core = opening callee behind ++ (list given ++ [')']) := by
  simp [core, opening]

def nameNode (callee : Callee) (start : Nat) : Node :=
  .mk (.identifier callee.name) ⟨start, start + Text.byteLength callee.name.toList⟩ []

theorem node_call (lead : Gap) (helper : Helper) (callee : Callee)
    (behind : Gap) (given : List HelperTree) (trail : Gap) (start : Nat) :
    (call lead helper callee behind given trail).node start = .mk (.call given.length)
      ⟨start + lead.text.byteLength,
        start + lead.text.byteLength + (call lead helper callee behind given trail).core.byteLength⟩
      (nameNode callee (start + lead.text.byteLength) ::
        nodes given (start + lead.text.byteLength + (opening callee behind).byteLength)) := by
  rw [node, byteLength_opening]
  rfl

theorem encode_ne_core (value : Text) (lead : Gap) (helper : Helper)
    (callee : Callee) (behind : Gap) (given : List HelperTree) (trail : Gap) :
    Quoted.encode value ≠ (call lead helper callee behind given trail).core := by
  intro heq
  obtain ⟨c, rest, hname, hstart⟩ := callee.word.start
  rw [core, hname] at heq
  obtain rfl : Quoted.mark = c := (List.cons.inj heq).1
  have hmark : IdentifierTable.isStart Quoted.mark = false := by decide
  rw [hmark] at hstart
  cases hstart

mutual

/-- A pass replaces the calls of literals in a tree by what they come to. -/
theorem rewrites (hlimit : 3 ≤ options.maxPasses) : ∀ (tree : HelperTree) {start : Nat}, tree.Names aliases →
    pass.Holds start tree.text →
    (transformer options).Rewrites pass aliases [tree.node start] start tree.text tree.step.text ∧
      (transformer options).anyPending pass aliases [tree.node start] = !tree.isLeaf
  | .leaf lead literal trail, start, _, _ => by
    have hnone :
        (transformer options).anyPending pass aliases [(leaf lead literal trail).node start] = false := by
      cases literal <;> rfl
    exact ⟨.keep hnone _ _, hnone⟩
  | .call lead helper callee behind given trail, start, names, holds => by
    obtain ⟨hlookup, hhelper, hall⟩ := names
    have hcore : pass.Holds (start + lead.text.byteLength)
      (call lead helper callee behind given trail).core := holds.right.left
    have hgiven :
        pass.Holds (start + lead.text.byteLength + (opening callee behind).byteLength) (list given) := by
      rw [core_eq] at hcore
      exact hcore.right.left
    obtain ⟨hrewrites, hpending⟩ := allRewrite hlimit given hall hgiven
    obtain ⟨hcall, hinside⟩ :=
      Rule.Rewrites.skip (nameNode callee (start + lead.text.byteLength)) rfl (opening callee behind)
        (hrewrites.before [')'])
    rw [hpending] at hinside
    rw [node_call, step]
    -- Something is pending inside of a call exactly if one of its arguments is a call.
    by_cases hleaves : given.all isLeaf = true
    · rw [hleaves] at hinside
      rw [if_pos hleaves]
      have hreplaced :=
        Rule.Rewrites.replaced
          (some (Quoted.encode (value (call lead helper callee behind given trail)))) rfl hcore
          hinside (select_call callee hlookup hhelper (length_nodes given _))
          (replace_call lead behind trail callee hlimit hhelper hleaves hgiven) (encode_ne_core _ _ _ _ _ _ _)
      exact ⟨.behind lead.text (.before trail.text hreplaced.1), hreplaced.2⟩
    · rw [Bool.not_eq_true] at hleaves
      rw [hleaves] at hinside
      rw [hleaves, if_neg Bool.false_ne_true]
      rw [← core_eq lead helper callee behind given trail,
        ← core_eq lead helper callee behind (steps given) trail] at hcall
      exact ⟨.behind lead.text (.before trail.text (.inside hinside hcall)),
        Rule.anyPending_of_inside hinside⟩

theorem allRewrite (hlimit : 3 ≤ options.maxPasses) :
    ∀ (given : List HelperTree) {start : Nat}, AllName aliases given →
    pass.Holds start (list given) →
    (transformer options).Rewrites pass aliases (nodes given start) start (list given) (list (steps given)) ∧
      (transformer options).anyPending pass aliases (nodes given start) = !given.all isLeaf
  | [], _, _, _ => ⟨.keep rfl _ _, rfl⟩
  | [tree], start, names, holds => by
    obtain ⟨hrewrites, hpending⟩ := rewrites hlimit tree names.1 holds
    rw [List.all_cons, List.all_nil, Bool.and_true]
    exact ⟨hrewrites, hpending⟩
  | tree :: next :: given, start, names, holds => by
    rw [text_list_cons] at holds
    have hrest : pass.Holds (start + tree.text.byteLength + 1) (list (next :: given)) :=
      @Pass.Holds.right _ _ [','] _ holds.right
    obtain ⟨hrewrites, hpending⟩ := rewrites hlimit tree names.1 holds.left
    obtain ⟨hmore, hpending'⟩ := allRewrite hlimit (next :: given) names.2 hrest
    rw [text_list_cons, nodes, steps]
    have hsteps : list (tree.step :: steps (next :: given)) =
      tree.step.text ++ (',' :: list (steps (next :: given))) := by
      rw [steps, text_list_cons]
    rw [hsteps]
    refine ⟨hrewrites.cons (.behind [','] hmore), ?_⟩
    rw [Rule.anyPending, Rule.anyPending, Bool.or_false] at hpending
    rw [Rule.anyPending, hpending, hpending', ← Bool.not_and]
    rfl

end

/-! ## Targets -/

mutual

theorem contained_node : ∀ (tree : HelperTree) (start : Nat),
    Node.Contained [tree.node start] start (start + tree.text.byteLength)
  | .leaf lead literal trail, start => by
    have hliteral := literal.contained_node (start + lead.text.byteLength)
    have hlength := byteLength_text (leaf lead literal trail)
    rw [core] at hlength
    refine hliteral.mono (Nat.le_add_right _ _) ?_
    rw [hlength, ← Nat.add_assoc, ← Nat.add_assoc]
    exact Nat.le_add_right _ _
  | .call lead helper callee behind given trail, start => by
    have hgiven := contained_nodes given
      (start + lead.text.byteLength + Text.byteLength callee.name.toList + behind.text.byteLength + 1)
    have hlength := byteLength_text (call lead helper callee behind given trail)
    have hcore := byteLength_core_call lead helper callee behind given trail
    have hname : Node.Contained [.mk (.identifier callee.name) ⟨start + lead.text.byteLength,
        start + lead.text.byteLength + Text.byteLength callee.name.toList⟩ []]
        (start + lead.text.byteLength + Text.byteLength callee.name.toList + behind.text.byteLength + 1)
        (start + lead.text.byteLength + Text.byteLength callee.name.toList + behind.text.byteLength + 1) :=
      .of_children rfl (.nil _ _)
    have hchildren := hname.cons hgiven (Nat.le_add_right _ _) (Nat.le_refl _)
    refine Node.Contained.mono (.around (hchildren.mono (Nat.le_refl _) ?_) ?_ ?_)
      (Nat.le_add_right start lead.text.byteLength) ?_
    · omega
    · omega
    · omega
    · rw [hlength, ← Nat.add_assoc, ← Nat.add_assoc]
      exact Nat.le_add_right _ _

theorem contained_nodes : ∀ (given : List HelperTree) (start : Nat),
    Node.Contained (nodes given start) start (start + (list given).byteLength)
  | [], _ => .nil _ _
  | [tree], start => contained_node tree start
  | tree :: next :: given, start => by
    have htree := contained_node tree start
    have hrest := contained_nodes (next :: given) (start + tree.text.byteLength + 1)
    rw [byteLength_list_cons]
    exact .cons (htree.mono (Nat.le_refl _) (Nat.le_succ _)) (hrest.mono (Nat.le_refl _) (by omega))
      (by omega) (by omega)

end

/-! ## What a pass keeps -/

mutual

theorem value_step : ∀ tree : HelperTree, tree.step.value = tree.value
  | .leaf _ _ _ => rfl
  | .call lead helper callee behind given trail => by
    have hvalues := values_steps given
    have hshown := shown_steps given
    rw [step]
    by_cases hleaves : given.all isLeaf = true
    · rw [if_pos hleaves]
      rfl
    · rw [if_neg hleaves]
      cases helper with
      | tm => rw [value, value, hvalues]
      | tx => simp only [value, hshown]
      | tv => simp only [value, hshown]

theorem values_steps : ∀ given : List HelperTree, values (steps given) = values given
  | [] => rfl
  | tree :: rest => by rw [steps, values, values, value_step tree, values_steps rest]

theorem shown_steps : ∀ given : List HelperTree, shown (steps given) = shown given
  | [] => rfl
  | .leaf lead literal trail :: rest => by rw [steps, step, shown, shown, shown_steps rest]
  | .call lead helper callee behind given trail :: rest => by
    have hvalue := value_step (call lead helper callee behind given trail)
    have hrest := shown_steps rest
    rw [step] at hvalue
    rw [steps, step]
    by_cases hleaves : given.all isLeaf = true
    · rw [if_pos hleaves, shown, shown, hrest]
      · rfl
      · nofun
    · rw [if_neg hleaves] at hvalue ⊢
      simp only [shown, hvalue, hrest]

end

theorem length_steps : ∀ given : List HelperTree, (steps given).length = given.length
  | [] => rfl
  | _ :: rest => by rw [steps, List.length_cons, length_steps rest, List.length_cons]

mutual

theorem names_step : ∀ {tree : HelperTree}, tree.Names aliases → tree.step.Names aliases
  | .leaf _ _ _, names => names
  | .call lead helper callee behind given trail, ⟨hlookup, hhelper, hall⟩ => by
    have hsteps := names_steps hall
    rw [step]
    split
    · trivial
    · exact ⟨hlookup, (length_steps given).symm ▸ hhelper, hsteps⟩

theorem names_steps : ∀ {given : List HelperTree}, AllName aliases given → AllName aliases (steps given)
  | [], names => names
  | _ :: _, ⟨hfirst, hrest⟩ => ⟨names_step hfirst, names_steps hrest⟩

end

theorem depths_eq_zero : ∀ {given : List HelperTree}, depths given = 0 ↔ given.all isLeaf = true
  | [] => by simp [depths]
  | .leaf lead literal trail :: rest => by
    rw [depths, depth, Nat.zero_max, depths_eq_zero]
    rfl
  | .call lead helper callee behind given trail :: rest => by
    rw [depths, depth]
    constructor
    · intro h
      omega
    · intro h
      cases h

mutual

theorem depth_step : ∀ tree : HelperTree, tree.step.depth = tree.depth - 1
  | .leaf _ _ _ => rfl
  | .call lead helper callee behind given trail => by
    have ih := depths_steps given
    rw [step]
    by_cases hleaves : given.all isLeaf = true
    · rw [if_pos hleaves, depth, depth, depths_eq_zero.2 hleaves]
    · have hpos := mt depths_eq_zero.1 hleaves
      rw [if_neg hleaves, depth, depth, ih]
      omega

theorem depths_steps : ∀ given : List HelperTree, depths (steps given) = depths given - 1
  | [] => rfl
  | tree :: rest => by
    have hfirst := depth_step tree
    have hrest := depths_steps rest
    rw [steps, depths, depths, hfirst, hrest]
    omega

end

@[simp] theorem lead_step (tree : HelperTree) : tree.step.lead = tree.lead := by
  cases tree with
  | leaf _ _ _ => rfl
  | call lead helper callee behind given trail =>
    rw [step]
    split
    · rfl
    · rfl

end HelperTree
end ClassWeave
