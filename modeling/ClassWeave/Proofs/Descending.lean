import ClassWeave.Proofs.Regrowing
import ClassWeave.Proofs.Renewal
import ClassWeave.Proofs.Simplifying
/-!
# Simplifying comes to an end

Every pass that edits templates leaves fewer templates and embedded literals, or as many of them and
less to be done to classes and templates: so there is a last pass, whatever a text holds, as long as
what a pass writes is read as it was written.
-/

namespace ClassWeave

/-! ## What goes down -/

def tallying : Weighing where
  own _ _ inner := inner.countP Node.isInlined + 1
  factor := 1
  gain := 1
  factor_pos := Nat.one_pos
  gain_le _ _ inner := by omega

/-- How much can be done to the classes of templates, and how many templates change if they are
written anew. What is inside of a template counts twice, since the template itself can change with
it. -/
def slackening (pass : Pass) : Weighing where
  own chunks span inner := strainOf chunks inner + (unsettled pass chunks span inner).toNat
  factor := 2
  gain := 0
  factor_pos := Nat.two_pos
  gain_le _ _ _ := by omega

def loneOf : List (Piece Nat) → Nat
  | [.embedded strain] => strain
  | _ => 0

theorem strainOf_eq {chunks : List Chunk} {inner inner' : List Node}
    (h : inner.map Node.strain = inner'.map Node.strain) :
    strainOf chunks inner = strainOf chunks inner' := by
  -- What is left of a class is decided by what is left of its expressions.
  have hlone : ∀ nodes : List Node, strainOf chunks nodes =
    ((classes chunks (nodes.map Node.strain)).map loneOf).sum := by
    intro nodes
    rw [strainOf, classes_map, List.map_map]
    congr 2
    funext pieces
    rcases pieces with - | ⟨_ | node, _ | ⟨second, rest⟩⟩
    all_goals rfl
  rw [hlone, hlone, h]

theorem countP_alike {pass other : Pass} :
    ∀ {trees trees' : List Node}, Node.AllAlike pass other trees trees' →
    trees.countP Node.isInlined = trees'.countP Node.isInlined
  | [], _, h => by rw [Node.allAlike_nil_iff.1 h]
  | node :: rest, _, h => by
    obtain ⟨node', rest', rfl, hnode, hrest⟩ := Node.allAlike_cons_iff.1 h
    rw [List.countP_cons, List.countP_cons, countP_alike hrest, hnode.isInlined]

theorem tallying_alike (pass other : Pass) : tallying.Alike pass other tallying where
  factor_eq := rfl
  gain_eq := rfl
  own_eq _ halike := congrArg (· + 1) (countP_alike halike)

theorem slackening_alike (pass other : Pass) : (slackening pass).Alike pass other (slackening other) where
  factor_eq := rfl
  gain_eq := rfl
  own_eq := by
    intro chunks span span' inner inner' hspan halike
    have hstrain : strainOf chunks inner = strainOf chunks inner' := strainOf_eq <| by
      obtain ⟨pairs, hpairs, rfl, rfl⟩ := halike.exists_pairs
      rw [List.map_map, List.map_map]
      exact List.map_congr_left fun pair hpair => Node.strain_of_outline (hpairs pair hpair).outline
    have hsettled : unsettled pass chunks span inner = unsettled other chunks span' inner' := by
      rw [unsettled, unsettled, parts_alike halike, hspan]
    exact congr_arg₂ (· + Bool.toNat ·) hstrain hsettled

/-! ## What is read behind a pass -/

def Pass.after (pass : Pass) (edits : List Edit) : Pass :=
  ⟨pass.index + 1, ⟨match Edit.applyAll pass.index pass.module.text edits with
    | .ok (output, _) => output
    | .error _ => [], []⟩⟩

def KeptAs (pass : Pass) (state : List Span) (edits : List Edit) (node found : Node) : Prop :=
  found.shape = node.shape ∧ (simplifier.anyPending pass state node.children = false →
    pass.textAt node.span = (pass.after edits).textAt found.span)

instance (pass : Pass) (state : List Span) (edits : List Edit) (node found : Node) :
    Decidable (KeptAs pass state edits node found) :=
  inferInstanceAs (Decidable (_ ∧ _))

def WrittenAs (pass : Pass) (edits : List Edit) (node : Node) (trees : List Node) : Prop :=
  ∃ found ∈ trees.head?, trees.tail = [] ∧ ∃ parts ∈ node.template?,
    (draftOf parts.1 parts.2).Recurs pass (pass.after edits) found

instance (pass : Pass) (edits : List Edit) (node : Node) (trees : List Node) :
    Decidable (WrittenAs pass edits node trees) :=
  inferInstanceAs (Decidable (∃ found ∈ trees.head?, trees.tail = [] ∧ ∃ parts ∈ node.template?,
    (draftOf parts.1 parts.2).Recurs pass (pass.after edits) found))

/-- A pass over templates that are seated in the text and can be read, each with a chunk more than
it has expressions; and what it writes is read as it was written. -/
structure Faithful (elements : Bool) (pass : Pass) (state : List Span) : Prop where
  seated : pass.module.Seated
  legible : pass.module.Legible
  woven : ∀ node ∈ Node.allTargets pass.module.items, ∀ parts ∈ node.template?,
    parts.1.length = parts.2.length + 1
  rereads : simplifier.RereadsAs pass state elements (KeptAs pass state) (WrittenAs pass)

/-- What a faithful pass is, if what it writes can be read at all. -/
structure Steady (elements : Bool) (pass : Pass) (state : List Span) : Prop where
  seated : pass.module.Seated
  legible : pass.module.Legible
  woven : ∀ node ∈ Node.allTargets pass.module.items, ∀ parts ∈ node.template?,
    parts.1.length = parts.2.length + 1
  regrows : simplifier.RegrowsAs pass state elements (KeptAs pass state) (WrittenAs pass)
    fun _ => simplifier.edited pass state

theorem steady_iff {elements : Bool} {pass : Pass} {state : List Span} : Steady elements pass state ↔
    pass.module.Seated ∧ pass.module.Legible ∧
      (∀ node ∈ Node.allTargets pass.module.items, ∀ parts ∈ node.template?,
        parts.1.length = parts.2.length + 1) ∧
      simplifier.RegrowsAs pass state elements (KeptAs pass state) (WrittenAs pass) fun _ =>
        simplifier.edited pass state :=
  ⟨fun h => ⟨h.seated, h.legible, h.woven, h.regrows⟩, fun h => ⟨h.1, h.2.1, h.2.2.1, h.2.2.2⟩⟩

instance (elements : Bool) (pass : Pass) (state : List Span) : Decidable (Steady elements pass state) :=
  decidable_of_iff' _ steady_iff

theorem Faithful.steady {elements : Bool} {pass : Pass} {state : List Span}
    (h : Faithful elements pass state) :
    Steady elements pass state := ⟨h.seated, h.legible, h.woven, h.rereads.regrows⟩

theorem faithful_iff {elements : Bool} {pass : Pass} {state : List Span} : Faithful elements pass state ↔
    pass.module.Seated ∧ pass.module.Legible ∧
      (∀ node ∈ Node.allTargets pass.module.items, ∀ parts ∈ node.template?,
        parts.1.length = parts.2.length + 1) ∧
      simplifier.RereadsAs pass state elements (KeptAs pass state) (WrittenAs pass) :=
  ⟨fun h => ⟨h.seated, h.legible, h.woven, h.rereads⟩, fun h => ⟨h.1, h.2.1, h.2.2.1, h.2.2.2⟩⟩

instance (elements : Bool) (pass : Pass) (state : List Span) : Decidable (Faithful elements pass state) :=
  decidable_of_iff' _ faithful_iff

/-! ## One pass -/

section
variable {pass : Pass} {state : List Span} {edits : List Edit}

theorem not_edited_of_holdsPending {node : Node} (h : simplifier.holdsPending pass state node = false) :
    simplifier.edited pass state node = false := by
  rw [Rule.holdsPending_eq, Bool.or_eq_false_iff] at h
  rw [Rule.edited, h.2, Bool.false_and]

mutual

theorem alike_of_regrows :
    ∀ (node : Node) (trees : List Node), simplifier.holdsPending pass state node = false →
    Node.Regrows (simplifier.edited pass state) (KeptAs pass state edits) (WrittenAs pass edits) node trees →
    ∃ found, trees = [found] ∧ node.Alike pass (pass.after edits) found
  | .mk shape span children, trees, hpending, hregrows => by
    rw [Node.regrows_of_kept (not_edited_of_holdsPending hpending)] at hregrows
    obtain ⟨⟨shape', span', children'⟩, rfl, ⟨hshape, htext⟩, hchildren⟩ := hregrows
    rw [Rule.holdsPending_eq, Bool.or_eq_false_iff] at hpending
    have ih := allAlike_of_allRegrow children children' hpending.1 hchildren
    cases hshape
    exact ⟨_, rfl, Node.alike_mk_iff.2 ⟨span', children', rfl, htext hpending.1, ih⟩⟩

theorem allAlike_of_allRegrow : ∀ nodes trees : List Node, simplifier.anyPending pass state nodes = false →
    Node.AllRegrow (simplifier.edited pass state) (KeptAs pass state edits)
      (WrittenAs pass edits) nodes trees →
    Node.AllAlike pass (pass.after edits) nodes trees
  | [], trees, _, hregrow => by
    rw [Node.AllRegrow] at hregrow
    exact Node.allAlike_nil_iff.2 hregrow
  | node :: rest, trees, hpending, hregrow => by
    obtain ⟨here, behind, rfl, hhere, hbehind⟩ := Node.allRegrow_cons_iff.1 hregrow
    rw [Rule.anyPending, Bool.or_eq_false_iff] at hpending
    obtain ⟨found, rfl, hfound⟩ := alike_of_regrows node here hpending.1 hhere
    exact Node.allAlike_cons_iff.2 ⟨found, behind, rfl, hfound,
      allAlike_of_allRegrow rest behind hpending.2 hbehind⟩

end

variable (pass state edits) in
/-- What becomes of a tree in a pass: it has fewer templates and embedded literals, or as many and
less to be done, if something was to be edited in it. -/
structure Descends (node found : Node) : Prop where
  isInlined_eq : found.isInlined = node.isInlined
  tally_le : tallying.weigh found ≤ tallying.weigh node
  outline_eq : tallying.weigh found = tallying.weigh node → found.outline = node.outline
  slack_le : tallying.weigh found = tallying.weigh node →
    (slackening (pass.after edits)).weigh found + (simplifier.holdsPending pass state node).toNat ≤
      (slackening pass).weigh node

theorem descends_of_alike {node found : Node} (h : node.Alike pass (pass.after edits) found)
    (hpending : simplifier.holdsPending pass state node = false) : Descends pass state edits node found where
  isInlined_eq := h.isInlined.symm
  tally_le := Nat.le_of_eq ((weigh_alike (tallying_alike pass (pass.after edits))).1 node found h).symm
  outline_eq _ := h.outline.symm
  slack_le _ := by
    rw [hpending, (weigh_alike (slackening_alike pass (pass.after edits))).1 node found h]
    exact Nat.le_refl _

theorem picked_of_select {shape : Shape} {span : Span} {children : List Node} {picked : PickedTemplate}
    (h : simplifier.select pass state (.mk shape span children) = some picked) :
    ∃ chunks, shape = .template chunks ∧ picked = ⟨chunks, children⟩ := by
  cases shape with
  | template chunks =>
    simp only [simplifier] at h
    split at h
    · cases h
      exact ⟨chunks, rfl, rfl⟩
    · cases h
  | _ => cases h

def Node.Woven (pass : Pass) (target : Node) : Prop :=
  target.Legible pass ∧ ∀ parts ∈ target.template?, parts.1.length = parts.2.length + 1

theorem Steady.all_woven {elements : Bool} (h : Steady elements pass state) :
    ∀ target ∈ Node.allTargets pass.module.items, target.Woven pass :=
  fun target htarget => ⟨h.legible.of_target htarget, h.woven target htarget⟩

theorem unsettled_of_edited {node : Node} (hlegible : node.Legible pass)
    (h : simplifier.edited pass state node = true) :
    ∃ chunks span inner, node = .mk (.template chunks) span inner ∧
    unsettled pass chunks span inner = true := by
  rw [Rule.edited, Bool.and_eq_true, Bool.not_eq_true'] at h
  obtain ⟨picked, hpicked, hchanges⟩ := Rule.pending_iff.1 h.1
  obtain ⟨shape, span, children⟩ := node
  rw [Rule.picked?_of_isTarget (Rule.isTarget_of_picked hpicked)] at hpicked
  obtain ⟨chunks, rfl, rfl⟩ := picked_of_select hpicked
  have hinside : ¬ ∃ inner ∈ Node.allTargets children, simplifier.pending pass state inner = true :=
    fun hinside => by
    have hnone : simplifier.anyPending pass state children = false := h.2
    rw [(Rule.anyPending_iff children).2 hinside] at hnone
    cases hnone
  have hchanges := hchanges.resolve_left hinside
  rw [Rule.changes, Node.span, hlegible.simplified] at hchanges
  exact ⟨chunks, span, children, rfl, hchanges⟩

theorem weigh_tallying (chunks : List Chunk) (span : Span) (inner : List Node) :
    tallying.weigh (.mk (.template chunks) span inner) =
      inner.countP Node.isInlined + 1 + tallying.weighAll inner := by
  rw [Weighing.weigh_template]
  exact congrArg (_ + ·) (Nat.one_mul _)

theorem weigh_slackening (chunks : List Chunk) (span : Span) (inner : List Node) :
    (slackening pass).weigh (.mk (.template chunks) span inner) =
      strainOf chunks inner + (unsettled pass chunks span inner).toNat +
        2 * (slackening pass).weighAll inner :=
  Weighing.weigh_template chunks span inner

theorem descends_of_edited {chunks : List Chunk} {span : Span} {inner : List Node} {found : Node}
    (hedited : simplifier.edited pass state (.mk (.template chunks) span inner) = true)
    (hlegible : (Node.mk (.template chunks) span inner).Legible pass)
    (hfits : chunks.length = inner.length + 1)
    (h : (draftOf chunks inner).Recurs pass (pass.after edits) found) :
    Descends pass state edits (.mk (.template chunks) span inner) found := by
  have htally := weigh_tallying chunks span inner
  cases hdraft : draftOf chunks inner with
  | quoted text =>
    have hstring := h.reads
    rw [hdraft] at hstring
    have hzero : tallying.weigh found = 0 := Weighing.weigh_of_string? hstring
    obtain ⟨span', rfl⟩ := Node.eq_of_string? hstring
    exact ⟨rfl, by omega, fun heq => by omega, fun heq => by omega⟩
  | template items =>
    obtain ⟨parts, hparts, -⟩ : (Draft.template items).Reads pass (pass.after edits) found := hdraft ▸ h.reads
    obtain ⟨span', rfl⟩ := Node.eq_of_template? hparts
    have hloads := h.reads.loads_le (tallying_alike pass (pass.after edits)) hfits
    have htally' := weigh_tallying parts.1 span' parts.2
    have hsum : (parts.2.map tallying.load).sum =
      tallying.weighAll parts.2 + 1 * parts.2.countP Node.isInlined :=
      Weighing.sum_load parts.2
    refine ⟨rfl, by omega, fun _ => by rw [Node.outline_template, Node.outline_template], fun heq => ?_⟩
    -- As many templates and embedded literals as before: then none of the latter was there to be taken in.
    have hplain : ∀ node ∈ inner, node.isInlined = false := by
      have hcount : inner.countP Node.isInlined = 0 := by omega
      simpa using List.countP_eq_zero.1 hcount
    obtain ⟨chunks', span'', inner', hnode, hunsettled⟩ :=
      unsettled_of_edited hlegible hedited
    cases hnode
    have hpending : (simplifier.holdsPending pass state (.mk (.template chunks) span inner)).toNat = 1 := by
      rw [Rule.edited, Bool.and_eq_true] at hedited
      rw [Rule.holdsPending_eq, hedited.1, Bool.or_true, Bool.toNat_true]
    have hstrain := strainOf_of_recurs hfits hplain h
    have hslack := h.reads.loads_le (slackening_alike pass (pass.after edits)) hfits
    have hslacks : (parts.2.map (slackening (pass.after edits)).load).sum =
        (slackening (pass.after edits)).weighAll parts.2 + 0 * parts.2.countP Node.isInlined :=
      Weighing.sum_load parts.2
    rw [weigh_slackening, weigh_slackening, hpending, hunsettled, Bool.toNat_true]
    omega

/-! ## Whole trees -/

structure AllDescend (pass : Pass) (state : List Span) (edits : List Edit)
    (nodes trees : List Node) : Prop where
  inlined : List.Forall₂ (fun node found : Node => found.isInlined = node.isInlined) nodes trees
  tally_le : tallying.weighAll trees ≤ tallying.weighAll nodes
  outlines_eq : tallying.weighAll trees = tallying.weighAll nodes → Node.outlines trees = Node.outlines nodes
  slack_le : tallying.weighAll trees = tallying.weighAll nodes →
    (slackening (pass.after edits)).weighAll trees + (simplifier.anyPending pass state nodes).toNat ≤
      (slackening pass).weighAll nodes

theorem allDescend_nil : AllDescend pass state edits [] [] where
  inlined := .nil
  tally_le := Nat.le_refl _
  outlines_eq _ := rfl
  slack_le _ := by simp [Weighing.weighAll, Rule.anyPending]

theorem allDescend_cons {node found : Node} {rest trees : List Node}
    (h : Descends pass state edits node found) (hrest : AllDescend pass state edits rest trees) :
    AllDescend pass state edits (node :: rest) (found :: trees) := by
  have htally := h.tally_le
  have htallies := hrest.tally_le
  have hsum : tallying.weighAll (found :: trees) = tallying.weigh found + tallying.weighAll trees := by
    rw [Weighing.weighAll]
  have hsum' : tallying.weighAll (node :: rest) = tallying.weigh node + tallying.weighAll rest := by
    rw [Weighing.weighAll]
  refine ⟨.cons h.isInlined_eq hrest.inlined, by omega, fun heq => ?_, fun heq => ?_⟩
  · rw [Node.outlines, Node.outlines, h.outline_eq (by omega), hrest.outlines_eq (by omega)]
  · have hslack := h.slack_le (by omega)
    have hslacks := hrest.slack_le (by omega)
    have hor : ∀ here behind : Bool, (here || behind).toNat ≤ here.toNat + behind.toNat := by decide
    have hpending := hor (simplifier.holdsPending pass state node) (simplifier.anyPending pass state rest)
    rw [Weighing.weighAll, Weighing.weighAll, Rule.anyPending]
    omega

theorem countP_of_inlined {nodes trees : List Node}
    (h : List.Forall₂ (fun node found : Node => found.isInlined = node.isInlined) nodes trees) :
    trees.countP Node.isInlined = nodes.countP Node.isInlined := by
  induction h with
  | nil => rfl
  | cons heq _ ih => rw [List.countP_cons, List.countP_cons, ih, heq]

theorem isInlined_of_shape_eq {shape : Shape} {span span' : Span} {children children' : List Node}
    (h : List.Forall₂ (fun node found : Node => found.isInlined = node.isInlined) children children') :
    Node.isInlined (.mk shape span' children') = Node.isInlined (.mk shape span children) := by
  by_cases hparens : shape = .parenthesized
  · subst hparens
    match children, children', h with
    | [], [], _ => rfl
    | [a], [b], .cons heq .nil => exact heq
    | _ :: _ :: _, _ :: _ :: _, _ => rfl
  · have hbare : ∀ span children, (Node.mk shape span children).unparenthesized = .mk shape span children :=
      fun span children =>
        Node.unparenthesized.eq_2 _ fun _ _ heq => hparens (by cases heq; rfl)
    exact Node.isInlined_of_shape (by rw [hbare, hbare]; rfl)

theorem descends_of_kept {shape : Shape} {span span' : Span} {children children' : List Node}
    (h : AllDescend pass state edits children children')
    (hpending : simplifier.anyPending pass state children = true) :
    Descends pass state edits (.mk shape span children) (.mk shape span' children') := by
  have hinlined := countP_of_inlined h.inlined
  have htallies := h.tally_le
  have hholds : (simplifier.holdsPending pass state (.mk shape span children)).toNat = 1 := by
    rw [Rule.holdsPending_eq, show simplifier.anyPending pass state (Node.mk shape span children).children =
      true from hpending, Bool.true_or, Bool.toNat_true]
  have hslack := h.slack_le
  rw [hpending, Bool.toNat_true] at hslack
  by_cases htemplate : ∃ chunks, shape = .template chunks
  · -- The template can change with what is inside of it, which counts twice and pays for that.
    obtain ⟨chunks, rfl⟩ := htemplate
    have htally := weigh_tallying chunks span children
    have htally' := weigh_tallying chunks span' children'
    refine ⟨rfl, by omega, fun _ => by rw [Node.outline_template, Node.outline_template], fun heq => ?_⟩
    have hsame : tallying.weighAll children' = tallying.weighAll children := by omega
    have hstrain : strainOf chunks children' = strainOf chunks children := strainOf_eq <| by
      have houtlines := h.outlines_eq hsame
      rw [Node.outlines_eq_map, Node.outlines_eq_map] at houtlines
      have hmap := congrArg (List.map Node.strain) houtlines
      rw [List.map_map, List.map_map] at hmap
      rwa [show Node.strain ∘ Node.outline = Node.strain from funext Node.strain_outline] at hmap
    have hslack := hslack hsame
    have hle := Bool.toNat_le (unsettled (pass.after edits) chunks span' children')
    rw [weigh_slackening, weigh_slackening, hholds, hstrain]
    omega
  · rw [not_exists] at htemplate
    refine ⟨isInlined_of_shape_eq h.inlined, ?_, fun heq => ?_, fun heq => ?_⟩
    · rwa [Weighing.weigh_mk htemplate, Weighing.weigh_mk htemplate]
    · rw [Weighing.weigh_mk htemplate, Weighing.weigh_mk htemplate] at heq
      rw [Node.outline_mk htemplate, Node.outline_mk htemplate, h.outlines_eq heq]
    · rw [Weighing.weigh_mk htemplate, Weighing.weigh_mk htemplate] at heq
      rw [Weighing.weigh_mk htemplate, Weighing.weigh_mk htemplate, hholds]
      exact hslack heq

mutual

theorem descends_of_regrows : ∀ (node : Node) (trees : List Node),
    (∀ target ∈ node.targets, target.Woven pass) →
    Node.Regrows (simplifier.edited pass state) (KeptAs pass state edits) (WrittenAs pass edits) node trees →
    ∃ found, trees = [found] ∧ Descends pass state edits node found
  | .mk shape span children, trees, hwoven, hregrows => by
    cases hpending : simplifier.holdsPending pass state (.mk shape span children) with
    | false =>
      obtain ⟨found, rfl, hfound⟩ := alike_of_regrows _ trees hpending hregrows
      exact ⟨found, rfl, descends_of_alike hfound hpending⟩
    | true =>
      cases hedited : simplifier.edited pass state (.mk shape span children) with
      | true =>
        obtain ⟨found, hhead, htail, parts, hparts, hrecurs⟩ := (Node.regrows_of_edited hedited).1 hregrows
        obtain ⟨rest, rfl⟩ := List.head?_eq_some_iff.1 hhead
        obtain ⟨span', heq⟩ := Node.eq_of_template? hparts
        cases heq
        obtain ⟨hlegible, hfits⟩ := hwoven _ (Node.mem_targets_self rfl)
        exact ⟨found, by rw [← htail, List.tail_cons],
          descends_of_edited hedited hlegible (hfits parts hparts) hrecurs⟩
      | false =>
        obtain ⟨⟨shape', span', children'⟩, rfl, ⟨hshape, -⟩, hchildren⟩ :=
          (Node.regrows_of_kept hedited).1 hregrows
        have ih := allDescend_of_allRegrow children children'
          (fun target htarget => hwoven target (Node.allTargets_subset_targets htarget)) hchildren
        -- It would be edited itself, if nothing in it were.
        have hinside : simplifier.anyPending pass state children = true := by
          rw [Rule.holdsPending_eq, Bool.or_eq_true] at hpending
          refine hpending.elim id fun hself => ?_
          rw [Rule.edited, hself, Bool.true_and, Bool.not_eq_false'] at hedited
          exact hedited
        cases hshape
        exact ⟨_, rfl, descends_of_kept ih hinside⟩

/-- Behind a pass there are fewer templates and embedded literals in some trees, or as many and less
to be done. -/
theorem allDescend_of_allRegrow : ∀ nodes trees : List Node,
    (∀ target ∈ Node.allTargets nodes, target.Woven pass) →
    Node.AllRegrow (simplifier.edited pass state) (KeptAs pass state edits)
      (WrittenAs pass edits) nodes trees →
    AllDescend pass state edits nodes trees
  | [], trees, _, hregrow => by
    rw [Node.AllRegrow] at hregrow
    rw [hregrow]
    exact allDescend_nil
  | node :: rest, trees, hwoven, hregrow => by
    rw [Node.allTargets] at hwoven
    obtain ⟨here, behind, rfl, hhere, hbehind⟩ := Node.allRegrow_cons_iff.1 hregrow
    obtain ⟨found, rfl, hfound⟩ :=
      descends_of_regrows node here
        (fun target htarget => hwoven target (List.mem_append_left _ htarget)) hhere
    exact allDescend_cons hfound
      (allDescend_of_allRegrow rest behind
        (fun target htarget => hwoven target (List.mem_append_right _ htarget)) hbehind)

end

def Module.slack (m : Module) : Nat := (slackening ⟨0, m⟩).weighAll m.items

theorem slack_eq (m : Module) (other : Pass) (h : other.module.text = m.text) :
    (slackening other).weighAll m.items = m.slack :=
  (weigh_alike (slackening_alike other ⟨0, m⟩)).2 _ _ ((@Node.alike_refl other ⟨0, m⟩ h).2 m.items)

theorem descends_of_pass {elements : Bool} (steady : Steady elements pass state)
    (hedits : simplifier.collectEdits pass state = .ok edits)
    (hne : edits ≠ []) {output : Text} {record : Record}
    (happly : Edit.applyAll pass.index pass.module.text edits = .ok (output, record))
    {next : Module} (hnext : Module.read output elements = .ok next) :
    tallying.weighAll next.items < tallying.weighAll pass.module.items ∨
      tallying.weighAll next.items = tallying.weighAll pass.module.items ∧
      next.slack < pass.module.slack := by
  have hregrow := steady.regrows.of_read hedits hne happly hnext
  have hdescend := allDescend_of_allRegrow _ _ steady.all_woven hregrow
  have hpending : simplifier.anyPending pass state pass.module.items = true := by
    rw [Rule.anyPending_iff]
    exact (Rule.collectEdits_ne_nil_iff steady.seated.proper hedits).1 hne
  have hafter : (pass.after edits).module.text = next.text := by
    rw [Module.text_of_read hnext, Pass.after, happly]
  rcases Nat.lt_or_eq_of_le hdescend.tally_le with hless | hsame
  · exact .inl hless
  · have hslack := hdescend.slack_le hsame
    rw [hpending, Bool.toNat_true, slack_eq next _ hafter, slack_eq pass.module pass rfl] at hslack
    exact .inr ⟨hsame, hslack⟩

end

/-! ## Whole runs -/

section
variable {file : Option String} {code : Text}

theorem exists_edits {pass : Pass} (legible : pass.module.Legible) (state : List Span) :
    ∃ edits, simplifier.collectEdits pass state = .ok edits := by
  cases hedits : simplifier.collectEdits pass state with
  | ok edits => exact ⟨edits, rfl⟩
  | error failure =>
    obtain ⟨⟨shape, span, children⟩, hnode, picked, hpicked, -, hfails⟩ := Rule.collectEdits_error hedits
    obtain ⟨chunks, rfl, rfl⟩ := picked_of_select hpicked
    rw [Node.span, (legible.of_target hnode).simplified] at hfails
    cases hfails

/-- From every text that a run comes to it goes on to a pass that makes no edit. -/
theorem exists_lastPass
    (faithful : ∀ pass state, simplifier.Begins file code pass state →
      Faithful (Rule.elementsIn file) pass state)
    {state : List Span} {records : List Record} {text : Text} {found : Module}
    (reaches : simplifier.Reaches file code state records text)
    (hread : Module.read text (Rule.elementsIn file) = .ok found) :
    ∃ last state' left, simplifier.Begins file code last state' ∧
    simplifier.collectEdits last state' = .ok [] ∧
      last.index = records.length + left ∧ ∀ limit, ∃ more,
        (simplifier.passes file limit (left + 1) state text records).outcome =
          .ok ⟨last.module.text, more⟩ := by
  -- By the tree that the text is read as: a pass that edits leaves one that comes before it in the
  -- order below.
  have htext := Module.text_of_read hread
  have hseed : simplifier.seed ⟨records.length, found⟩ state =
    .ok (found.items.flatMap classTemplatesOf) := rfl
  have begins : simplifier.Begins file code ⟨records.length, found⟩ _ :=
    ⟨state, records, text, reaches, hread, rfl, hseed⟩
  have hfaithful := faithful _ _ begins
  obtain ⟨edits, hedits⟩ := exists_edits hfaithful.legible (found.items.flatMap classTemplatesOf)
  by_cases hne : edits = []
  · subst hne
    refine ⟨_, _, 0, begins, hedits, rfl, fun limit => ?_⟩
    obtain ⟨record, hpasses⟩ :=
      @Rule.passes_of_collectEdits_eq_nil _ _ _ simplifier file limit 0 state text found _ records hread
        hseed hedits
    exact ⟨records ++ [record], by
      rw [hpasses, show (Pass.module ⟨records.length, found⟩).text = text from htext]⟩
  · obtain ⟨output, record, happly⟩ := Rule.exists_output hfaithful.seated.proper hedits
    obtain ⟨next, hnext, -⟩ := hfaithful.rereads.next hedits hne happly
    have hless := descends_of_pass hfaithful.steady hedits hne happly hnext
    have hpass := Rule.onePass_eq_ok_iff.2 ⟨hseed, hedits, happly⟩
    obtain ⟨last, state', left, hbegins, hlast, hindex, hleft⟩ :=
      exists_lastPass faithful (.pass reaches hread hpass hne) hnext
    rw [List.length_append, List.length_singleton] at hindex
    refine ⟨last, state', left + 1, hbegins, hlast, by omega, fun limit => ?_⟩
    rw [Rule.passes_of_edits records hread hseed hedits (htext ▸ happly) hne]
    exact hleft limit
termination_by (tallying.weighAll found.items, found.slack)
decreasing_by exact Prod.lex_def.2 hless

theorem simplifyTemplate_of_run {limit limit' : Nat} {final : Text}
    {records : List Record} (hle : limit ≤ limit')
    (hrun : (simplifier.run file limit code).outcome = .ok ⟨final, records⟩) :
    simplifyTemplate code file limit' = .ok final := by
  have hout : simplifyTemplate code file limit = .ok final := by
    rw [simplifyTemplate, hrun]
    rfl
  rw [← hout]
  refine (simplifyTemplate_upTo hle code file).eq_of_not_lost fun failure hfailure => ?_
  rw [hout] at hfailure
  cases hfailure

/-- Simplifying a text of templates comes to a pass that makes no edit, and ends with its text under
every limit that allows it. -/
theorem simplifyTemplate_settles (first : ∃ m, Module.read code (Rule.elementsIn file) = .ok m)
    (faithful : ∀ pass state, simplifier.Begins file code pass state →
      Faithful (Rule.elementsIn file) pass state) :
    ∃ last state, simplifier.Begins file code last state ∧ simplifier.collectEdits last state = .ok [] ∧
      ∀ limit > last.index, simplifyTemplate code file limit = .ok last.module.text := by
  obtain ⟨m, hread⟩ := first
  obtain ⟨last, state, left, begins, hlast, hindex, hpasses⟩ := exists_lastPass faithful .start hread
  rw [List.length_nil, Nat.zero_add] at hindex
  obtain ⟨records, hrun⟩ := hpasses (left + 1)
  exact ⟨last, state, begins, hlast, fun limit hlimit => simplifyTemplate_of_run (by omega) hrun⟩

end

def simplifiesTo (code : Text) (file : Option String) (limit : Nat) (out : Text) : Bool :=
  match (simplifier.run file limit code).outcome, Module.read code (Rule.elementsIn file) with
  | .ok fixpoint, .ok _ => decide (fixpoint.code = out) &&
      decide (∀ entry ∈ simplifier.begun file limit [] code 0,
        Faithful (Rule.elementsIn file) entry.1 entry.2)
  | _, _ => false

theorem of_simplifiesTo {code : Text} {file : Option String} {limit : Nat} {out : Text}
    (h : simplifiesTo code file limit out = true) :
    (∃ m, Module.read code (Rule.elementsIn file) = .ok m) ∧ simplifyTemplate code file limit = .ok out ∧
      ∀ pass state, simplifier.Begins file code pass state → Faithful (Rule.elementsIn file) pass state := by
  unfold simplifiesTo at h
  split at h
  · rename_i fixpoint m hrun hread
    rw [Bool.and_eq_true, decide_eq_true_eq, decide_eq_true_eq] at h
    refine ⟨⟨m, hread⟩, ?_, fun pass state begins => h.2 _ (Rule.mem_begun_of_begins hrun begins)⟩
    rw [simplifyTemplate, hrun, ← h.1]
    rfl
  · cases h

set_option maxRecDepth 100000 in
/-- A blank literal, spaces and parentheses around values, and a template as a value. -/
theorem simplifyTemplate_settles_nested_templates : ∃ last state,
    simplifier.Begins none
      "`$\x7b(x)\x7d $\x7b' '\x7d $\x7bc && `$\x7bq && ((\" \" + (\" \" + d)))\x7d`\x7d`;".toList last state ∧
      simplifier.collectEdits last state = .ok [] ∧
      last.module.text = "`$\x7bx\x7d$\x7bc ? \" \" + `$\x7bq ? d : \"\"\x7d` : \"\"\x7d`;".toList ∧
      ∀ limit > last.index,
        simplifyTemplate
          "`$\x7b(x)\x7d $\x7b' '\x7d $\x7bc && `$\x7bq && ((\" \" + (\" \" + d)))\x7d`\x7d`;".toList
            none limit =
          .ok last.module.text := by
  have hchecked :
      simplifiesTo
        "`$\x7b(x)\x7d $\x7b' '\x7d $\x7bc && `$\x7bq && ((\" \" + (\" \" + d)))\x7d`\x7d`;".toList none 10
        "`$\x7bx\x7d$\x7bc ? \" \" + `$\x7bq ? d : \"\"\x7d` : \"\"\x7d`;".toList = true := by decide +kernel
  obtain ⟨hfirst, hout, hfaithful⟩ := of_simplifiesTo hchecked
  obtain ⟨last, state, begins, hlast, hsettles⟩ := simplifyTemplate_settles hfirst hfaithful
  have hlarger := (simplifyTemplate_upTo (show 10 ≤ last.index + 10 by omega)
    "`$\x7b(x)\x7d $\x7b' '\x7d $\x7bc && `$\x7bq && ((\" \" + (\" \" + d)))\x7d`\x7d`;".toList
      none).eq_of_not_lost fun failure hfailure => by
        rw [hout] at hfailure
        cases hfailure
  rw [hsettles _ (by omega), hout] at hlarger
  exact ⟨last, state, begins, hlast, Except.ok.inj hlarger, hsettles⟩

end ClassWeave
