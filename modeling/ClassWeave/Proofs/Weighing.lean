import Mathlib.Algebra.Order.BigOperators.Group.List
import Mathlib.Algebra.Order.Group.Nat
import ClassWeave.Proofs.Rereading
import ClassWeave.Proofs.Stretches
/-!
# What drafts weigh

A weight of trees in which every template has a weight of its own, and everything else weighs what
its children do. If a template weighs enough for what it embeds, then the expressions of its draft,
however they are padded, parenthesized or taken out of other templates, weigh no more than those
that it had.
-/

namespace ClassWeave

/-- Whether a template that embeds an expression can take it in: it is constant text, or a template. -/
def Node.isInlined (node : Node) : Bool :=
  match node.unparenthesized with
  | .mk (.literal value) _ _ => value.text?.isSome
  | .mk (.template _) _ _ => true
  | _ => false

/-- How much templates weigh: what each has of its own, and how often what it embeds counts. An
embedded expression that can be taken in brings a gain, which the template has to weigh for. -/
structure Weighing where
  own : List Chunk → Span → List Node → Nat
  factor : Nat
  gain : Nat
  factor_pos : 0 < factor
  gain_le : ∀ chunks span inner, gain * inner.countP Node.isInlined ≤ own chunks span inner

namespace Weighing

section
variable (weighing : Weighing)

mutual

def weigh : Node → Nat
  | .mk (.template chunks) span inner => weighing.own chunks span inner + weighing.factor * weighAll inner
  | .mk _ _ children => weighAll children

def weighAll : List Node → Nat
  | [] => 0
  | node :: rest => weigh node + weighAll rest

end

def load (node : Node) : Nat := weighing.weigh node + weighing.gain * node.isInlined.toNat

end

section
variable {weighing : Weighing}

theorem weigh_template (chunks : List Chunk) (span : Span) (inner : List Node) :
    weighing.weigh (.mk (.template chunks) span inner) =
      weighing.own chunks span inner + weighing.factor * weighing.weighAll inner := by
  rw [weigh]

theorem weigh_mk {shape : Shape} {span : Span} {children : List Node}
    (h : ∀ chunks, shape ≠ .template chunks) :
    weighing.weigh (.mk shape span children) = weighing.weighAll children :=
  weigh.eq_2 weighing shape span children h

theorem weighAll_eq_sum (nodes : List Node) : weighing.weighAll nodes = (nodes.map weighing.weigh).sum := by
  induction nodes with
  | nil => rw [weighAll]; rfl
  | cons node rest ih => rw [weighAll, ih, List.map_cons, List.sum_cons]

theorem weighAll_one (a : Node) : weighing.weighAll [a] = weighing.weigh a := by
  rw [weighAll, weighAll, Nat.add_zero]

theorem weighAll_two (a b : Node) : weighing.weighAll [a, b] = weighing.weigh a + weighing.weigh b := by
  rw [weighAll, weighAll_one]

theorem weighAll_three (a b c : Node) :
    weighing.weighAll [a, b, c] = weighing.weigh a + (weighing.weigh b + weighing.weigh c) := by
  rw [weighAll, weighAll_two]

/-! ## Weights of parts of an expression -/

theorem weigh_unparenthesized (node : Node) : weighing.weigh node.unparenthesized = weighing.weigh node := by
  fun_induction Node.unparenthesized node with
  | case1 span inner ih => rw [ih, weigh_mk (by simp), weighAll_one]
  | case2 node hnode => rfl

theorem weigh_withoutTrail_le (node : Node) : weighing.weigh node.withoutTrail ≤ weighing.weigh node := by
  fun_cases Node.withoutTrail node with
  | case1 span left right hright =>
    rw [weigh_mk (by simp), weighAll_two]
    exact Nat.le_add_right _ _
  | case2 span left right hright => exact Nat.le_refl _
  | case3 node hnode => exact Nat.le_refl _

theorem weigh_withoutLead_le (node : Node) : weighing.weigh node.withoutLead ≤ weighing.weigh node := by
  fun_cases Node.withoutLead node with
  | case1 span left right hleft =>
    rw [weigh_mk (by simp), weighAll_two]
    exact Nat.le_add_left _ _
  | case2 span left right hleft => exact Nat.le_refl _
  | case3 node hnode => exact Nat.le_refl _

theorem weigh_unpadded_le (node : Node) : weighing.weigh node.unpadded ≤ weighing.weigh node :=
  (weigh_withoutLead_le _).trans ((weigh_withoutTrail_le _).trans (Nat.le_of_eq (weigh_unparenthesized node)))

theorem weigh_of_string? {node : Node} {value : Text} (h : node.string? = some value) :
    weighing.weigh node = 0 := by
  obtain ⟨span, rfl⟩ := Node.eq_of_string? h
  rw [weigh_mk (by simp), weighAll]

theorem weigh_of_joined? {node inner : Node} (h : node.joined? = some inner) :
    weighing.weigh node = weighing.weigh inner := by
  -- The brackets, the call and the separator around the expression hold no template.
  unfold Node.joined? at h
  split at h
  · cases h
    rw [weigh_mk (by simp), weighAll_two, weigh_mk (by simp), weighAll_two, weigh_mk (by simp), weighAll_one,
      weigh_mk (by simp), weighAll_one]
    simp [weigh, weighAll]
  · cases h

theorem weigh_of_conditional {node test value : Node} (h : node.standing = .conditional test value) :
    weighing.weigh test + weighing.weigh value ≤ weighing.weigh node := by
  rcases Node.unparenthesized_of_conditional h with ⟨span, hnode⟩ | ⟨span, alternate, hnode, -⟩
  · rw [← weigh_unparenthesized node, hnode, weigh_mk (by simp), weighAll_two]
  · rw [← weigh_unparenthesized node, hnode, weigh_mk (by simp), weighAll_three]
    omega

theorem sum_load (nodes : List Node) : (nodes.map weighing.load).sum =
    weighing.weighAll nodes + weighing.gain * nodes.countP Node.isInlined := by
  induction nodes with
  | nil => simp [weighAll]
  | cons node rest ih =>
    rw [List.map_cons, List.sum_cons, ih, load, weighAll, List.countP_cons]
    cases node.isInlined <;> simp [Nat.mul_add] <;> omega

theorem loads_le (chunks : List Chunk) (span : Span) (inner : List Node) :
    (inner.map weighing.load).sum ≤ weighing.weigh (.mk (.template chunks) span inner) := by
  have hfactor := Nat.le_mul_of_pos_left (weighing.weighAll inner) weighing.factor_pos
  have hgain := weighing.gain_le chunks span inner
  rw [sum_load, weigh_template]
  omega

end

end Weighing

/-! ## Expressions that can be taken in -/

namespace Node

theorem unparenthesized_idem (node : Node) : node.unparenthesized.unparenthesized = node.unparenthesized := by
  fun_induction unparenthesized node with
  | case1 span inner ih => exact ih
  | case2 node hnode => exact unparenthesized.eq_2 node hnode

theorem isInlined_of_unparenthesized_eq {node other : Node}
    (h : node.unparenthesized = other.unparenthesized) :
    node.isInlined = other.isInlined := by
  unfold isInlined
  rw [h]

theorem isInlined_unparenthesized (node : Node) : node.unparenthesized.isInlined = node.isInlined :=
  isInlined_of_unparenthesized_eq node.unparenthesized_idem

theorem isInlined_of_shape {node other : Node}
    (h : node.unparenthesized.shape = other.unparenthesized.shape) :
    node.isInlined = other.isInlined := by
  unfold isInlined
  revert h
  generalize node.unparenthesized = bare
  generalize other.unparenthesized = bare'
  intro h
  obtain ⟨shape, span, children⟩ := bare
  obtain ⟨shape', span', children'⟩ := bare'
  cases h
  cases shape <;> rfl

theorem Alike.isInlined {pass other : Pass} {node node' : Node} (h : node.Alike pass other node') :
    node.isInlined = node'.isInlined := isInlined_of_shape h.unparenthesized.shape_eq

theorem isInlined_of_constantText? {node : Node} {text : Text} (h : node.constantText? = some text) :
    node.isInlined = true := by
  unfold constantText? at h
  unfold isInlined
  split at h
  · rename_i hnode
    rw [hnode]
    exact Option.isSome_iff_exists.2 ⟨text, h⟩
  · rename_i hnode
    rw [hnode]
  · cases h

theorem isInlined_of_template {node : Node} {chunks : List Chunk} {span : Span} {inner : List Node}
    (h : node.unparenthesized = .mk (.template chunks) span inner) : node.isInlined = true := by
  unfold isInlined
  rw [h]

theorem isInlined_of_conditional {node : Node} {test value : Node}
    (h : node.standing = .conditional test value) :
    node.isInlined = false := by
  rcases unparenthesized_of_conditional h with ⟨span, hnode⟩ | ⟨span, alternate, hnode, -⟩
  · unfold isInlined
    rw [hnode]
  · unfold isInlined
    rw [hnode]

theorem standing_of_isInlined {node : Node} (h : node.isInlined = true) :
    (∃ text, node.standing = .constant text) ∨ ∃ chunks span inner,
    node.standing = .template chunks span inner := by
  cases hstanding : node.standing with
  | constant text => exact .inl ⟨text, rfl⟩
  | template chunks span inner => exact .inr ⟨chunks, span, inner, rfl⟩
  | conditional test value =>
    rw [isInlined_of_conditional hstanding] at h
    cases h
  | other =>
    have hconstant := constantText?_of_standing hstanding nofun
    unfold standing at hstanding
    rw [hconstant] at hstanding
    unfold isInlined at h
    unfold constantText? at hconstant
    split at h
    · rename_i hnode
      rw [hnode] at hconstant
      change Literal.text? _ = none at hconstant
      rw [hconstant] at h
      cases h
    · rename_i hnode
      rw [hnode] at hstanding
      cases hstanding
    · cases h

theorem standing_of_not_isInlined {node : Node} (h : node.isInlined = false) :
    (∃ test value, node.standing = .conditional test value) ∨ node.standing = .other := by
  cases hstanding : node.standing with
  | constant text => rw [isInlined_of_constantText? (standing_constant.1 hstanding)] at h; cases h
  | template chunks span inner =>
      rw [isInlined_of_template (unparenthesized_of_template hstanding)] at h; cases h
  | conditional test value => exact .inl ⟨test, value, rfl⟩
  | other => exact .inr rfl

end Node

/-! ## Weights of what is written -/

section
variable (weighing : Weighing)

def Written.weight : Written → Nat
  | .copied _ node => weighing.weigh node
  | .quoted _ => 0
  | .led value => value.weight
  | .trailed value => value.weight
  | .choice _ test value alternate => weighing.weigh test + (value.weight + alternate.weight)
  | .listed node => weighing.weigh node

def Written.load : Written → Nat
  | .copied _ node => weighing.load node
  | .quoted _ => weighing.gain
  | value => value.weight weighing

def loads (items : List Item) : Nat :=
  ((embeddedIn (items.flatMap Item.pieces)).map (Written.load weighing)).sum

def Entry.load : Entry → Nat
  | .text _ => 0
  | .splice items => loads weighing items
  | .embed node => weighing.load node
  | .conditional test value => weighing.weigh test + weighing.weigh value

def pieceWeight (pieces : List (Piece Node)) : Nat :=
  ((embeddedIn (pieces.flatMap Piece.places)).map weighing.weigh).sum

end

section
variable {weighing : Weighing}

theorem loads_append (a b : List Item) : loads weighing (a ++ b) = loads weighing a + loads weighing b := by
  rw [loads, List.flatMap_append, embeddedIn_append, List.map_append, List.sum_append]
  rfl

theorem loads_cons (item : Item) (rest : List Item) :
    loads weighing (item :: rest) = loads weighing [item] + loads weighing rest :=
  loads_append [item] rest

theorem loads_shown (text : Text) : loads weighing [.shown text] = 0 := by
  rw [loads, List.flatMap_singleton, Item.pieces, embeddedIn_chars]
  rfl

theorem loads_hole (value : Written) : loads weighing [.hole value] = value.load weighing :=
  Nat.add_zero _

theorem loads_spaced (wanted : Bool) : loads weighing (spaced wanted) = 0 := by
  cases wanted with
  | false => rfl
  | true => exact loads_shown [' ']

theorem loads_body_le (chunks : List Chunk) (span : Span) (inner : List Node) :
    loads weighing [.body chunks span inner] ≤ weighing.weigh (.mk (.template chunks) span inner) := by
  have hsublist := (embeddedIn_weave_sublist chunks inner).map weighing.load
  have hsum := hsublist.sum_le_sum fun _ _ => Nat.zero_le _
  rw [loads, List.flatMap_singleton, Item.pieces, embeddedIn_map, List.map_map]
  exact hsum.trans (Weighing.loads_le chunks span inner)

theorem weight_padded (lead trail : Bool) (value : Written) :
    (padded lead trail value).weight weighing = value.weight weighing := by
  cases lead <;> cases trail <;> rfl

theorem load_writtenConditional_le (test value : Node) (lead trail : Bool) :
    (writtenConditional test value lead trail).load weighing ≤
      weighing.weigh test + weighing.weigh value := by
  change weighing.weigh test + (Written.weight weighing _ + 0) ≤ _
  rw [Nat.add_zero]
  refine Nat.add_le_add_left ?_ _
  split
  · exact Nat.zero_le _
  · rw [weight_padded]
    exact Weighing.weigh_unpadded_le value

theorem loads_itemsOf_le : ∀ (list : List Entry) (first behindConditional : Bool),
    loads weighing (itemsOf first behindConditional list) ≤ (list.map (Entry.load weighing)).sum
  | [], _, _ => Nat.le_refl _
  | .text words :: rest, first, behindConditional => by
    have ih := loads_itemsOf_le rest false false
    rw [itemsOf, loads_append, loads_spaced, loads_cons, loads_shown,
      List.map_cons, List.sum_cons, Entry.load]
    omega
  | .splice items :: rest, first, behindConditional => by
    have ih := loads_itemsOf_le rest false false
    rw [itemsOf, loads_append, loads_append, loads_spaced, List.map_cons, List.sum_cons, Entry.load]
    omega
  | .embed node :: rest, first, behindConditional => by
    have ih := loads_itemsOf_le rest false false
    rw [itemsOf, loads_append, loads_spaced, loads_cons, loads_hole,
      List.map_cons, List.sum_cons, Entry.load, Written.load]
    omega
  | .conditional test value :: rest, first, behindConditional => by
    have ih := loads_itemsOf_le rest false true
    rw [itemsOf, loads_cons, loads_hole, List.map_cons, List.sum_cons, Entry.load]
    refine Nat.add_le_add ?_ ih
    split <;> exact load_writtenConditional_le test value _ _

/-! ## Weights of classes -/

theorem pieceWeight_cons (piece : Piece Node) (rest : List (Piece Node)) :
    pieceWeight weighing (piece :: rest) = pieceWeight weighing [piece] + pieceWeight weighing rest := by
  rw [pieceWeight, List.flatMap_cons, embeddedIn_append, List.map_append,
    List.sum_append, pieceWeight, List.flatMap_singleton]
  rfl

theorem pieceWeight_embedded (node : Node) : pieceWeight weighing [.embedded node] = weighing.weigh node :=
  Nat.add_zero _

theorem load_of_not_isInlined {node : Node} (h : node.isInlined = false) :
    weighing.load node = weighing.weigh node := by
  rw [Weighing.load, h, Bool.toNat_false, Nat.mul_zero, Nat.add_zero]

theorem not_isInlined_of_other {node : Node} (h : node.standing = .other) : node.isInlined = false := by
  rw [← Bool.not_eq_true]
  intro hinlined
  rcases Node.standing_of_isInlined hinlined with ⟨text, hstanding⟩ | ⟨chunks, span, inner, hstanding⟩
  · rw [h] at hstanding; cases hstanding
  · rw [h] at hstanding; cases hstanding

theorem loads_item_le (piece : Piece Node) : loads weighing [piece.item] ≤ pieceWeight weighing [piece] := by
  cases piece with
  | text word => rw [Piece.item, loads_shown]; exact Nat.zero_le _
  | embedded node =>
    rw [pieceWeight_embedded, Piece.item]
    have hhole : node.isInlined = false →
      loads weighing [.hole (.copied false node.unparenthesized)] ≤ weighing.weigh node := by
      intro h
      rw [loads_hole, Written.load, load_of_not_isInlined (node.isInlined_unparenthesized.trans h),
        Weighing.weigh_unparenthesized]
    cases hstanding : node.standing with
    | constant text => rw [Standing.item, loads_shown]; exact Nat.zero_le _
    | template chunks span inner =>
      -- The template is gone, and with it what it weighed for the expressions that now stand in the
      -- outer one.
      rw [Standing.item, ← Weighing.weigh_unparenthesized node, Node.unparenthesized_of_template hstanding]
      exact loads_body_le chunks span inner
    | conditional test value => exact hhole (Node.isInlined_of_conditional hstanding)
    | other => exact hhole (not_isInlined_of_other hstanding)

theorem loads_items_le :
    ∀ pieces : List (Piece Node), loads weighing (pieces.map Piece.item) ≤ pieceWeight weighing pieces
  | [] => Nat.le_refl _
  | piece :: rest => by
    have ih := loads_items_le rest
    have hpiece : loads weighing [piece.item] ≤ pieceWeight weighing [piece] := loads_item_le piece
    rw [List.map_cons, loads_cons, pieceWeight_cons]
    omega

theorem load_gluedEntry_le {pieces : List (Piece Node)} {entry : Entry} (h : gluedEntry pieces = some entry) :
    entry.load weighing ≤ pieceWeight weighing pieces := by
  unfold gluedEntry at h
  split at h
  · obtain ⟨text, -, rfl⟩ := Option.map_eq_some_iff.1 h
    exact Nat.zero_le _
  · cases h
    exact loads_items_le pieces

theorem load_entry?_le {node : Node} {entry : Entry} (h : node.standing.entry? node = some entry) :
    entry.load weighing ≤ weighing.weigh node := by
  cases hstanding : node.standing with
  | constant text =>
    rw [hstanding] at h
    obtain ⟨text, -, rfl⟩ := Option.map_eq_some_iff.1 h
    exact Nat.zero_le _
  | template chunks span inner =>
    rw [hstanding] at h
    cases h
    rw [← Weighing.weigh_unparenthesized node, Node.unparenthesized_of_template hstanding]
    exact loads_body_le chunks span inner
  | conditional test value =>
    rw [hstanding] at h
    cases h
    exact Weighing.weigh_of_conditional hstanding
  | other =>
    rw [hstanding] at h
    cases h
    exact Nat.le_of_eq (load_of_not_isInlined (not_isInlined_of_other hstanding))

theorem load_entryOf_le {pieces : List (Piece Node)} {entry : Entry} (h : entryOf pieces = some entry) :
    entry.load weighing ≤ pieceWeight weighing pieces := by
  match pieces, h with
  | [], h => cases h
  | [.text word], h => cases h; exact Nat.zero_le _
  | [.embedded node], h => exact (load_entry?_le h).trans (Nat.le_of_eq (pieceWeight_embedded node).symm)
  | .text word :: second :: rest, h => exact load_gluedEntry_le h
  | .embedded node :: second :: rest, h => exact load_gluedEntry_le h

theorem pieceWeight_classes {chunks : List Chunk} {inner : List Node} (h : chunks.length = inner.length + 1) :
    ((classes chunks inner).map (pieceWeight weighing)).sum = weighing.weighAll inner := by
  -- Every expression stands in one class, so summing by classes is summing over the expressions.
  rw [classes_eq_stretches h, List.map_map, Weighing.weighAll_eq_sum]
  conv_rhs => rw [← embeddedIn_weave h, ← embeddedIn_stretches]
  induction stretches (weave chunks inner) with
  | nil => rfl
  | cons stretch rest ih =>
    rw [List.map_cons, List.sum_cons, ih, List.flatMap_cons, List.map_append,
      List.sum_append, Function.comp_apply, pieceWeight, places_piecesOf]

/-- What a template embeds when it is written anew weighs no more than what it embedded. -/
theorem loads_draftOf_le {chunks : List Chunk} {inner : List Node} (h : chunks.length = inner.length + 1) :
    loads weighing (itemsOf true false (entries chunks inner)) ≤ weighing.weighAll inner := by
  refine (loads_itemsOf_le _ _ _).trans ?_
  rw [← pieceWeight_classes h]
  unfold entries
  induction classes chunks inner with
  | nil => exact Nat.le_refl _
  | cons pieces rest ih =>
    rw [List.map_cons, List.sum_cons]
    cases hentry : entryOf pieces with
    | none =>
      rw [List.filterMap_cons_none hentry]
      exact ih.trans (Nat.le_add_left _ _)
    | some entry =>
      rw [List.filterMap_cons_some hentry, List.map_cons, List.sum_cons]
      exact Nat.add_le_add (load_entryOf_le hentry) ih

end

/-! ## Weights of what is read -/

structure Weighing.Alike (pass other : Pass) (weighing weighing' : Weighing) : Prop where
  factor_eq : weighing.factor = weighing'.factor
  gain_eq : weighing.gain = weighing'.gain
  own_eq : ∀ {chunks span span' inner inner'}, pass.textAt span = other.textAt span' →
    Node.AllAlike pass other inner inner' →
    weighing.own chunks span inner = weighing'.own chunks span' inner'

section
variable {pass other : Pass} {weighing weighing' : Weighing}

theorem weigh_alike (h : weighing.Alike pass other weighing') :
    (∀ node node', Node.Alike pass other node node' → weighing.weigh node = weighing'.weigh node') ∧
      ∀ trees trees', Node.AllAlike pass other trees trees' →
      weighing.weighAll trees = weighing'.weighAll trees' := by
  apply Weighing.weigh.mutual_induct
  · intro chunks span inner ih node' halike
    obtain ⟨span', inner', rfl, hspan, hinner⟩ := Node.alike_mk_iff.1 halike
    rw [Weighing.weigh_template, Weighing.weigh_template, h.own_eq hspan hinner,
      h.factor_eq, ih inner' hinner]
  · intro shape span children hshape ih node' halike
    obtain ⟨span', children', rfl, -, hchildren⟩ := Node.alike_mk_iff.1 halike
    rw [Weighing.weigh_mk hshape, Weighing.weigh_mk hshape, ih children' hchildren]
  · intro trees' halike
    rw [Node.allAlike_nil_iff.1 halike, Weighing.weighAll, Weighing.weighAll]
  · intro node rest ih ihrest trees' halike
    obtain ⟨node', rest', rfl, hnode, hrest⟩ := Node.allAlike_cons_iff.1 halike
    rw [Weighing.weighAll, Weighing.weighAll, ih node' hnode, ihrest rest' hrest]

theorem Node.CopiedAs.isInlined {enclosed : Bool} {node found : Node}
    (hcopied : node.CopiedAs pass other enclosed found) :
    found.isInlined = node.isInlined := by
  unfold Node.CopiedAs at hcopied
  split at hcopied
  · obtain ⟨inner, hinner, halike⟩ := hcopied
    obtain ⟨span, rfl⟩ := Node.eq_of_enclosed? hinner
    exact halike.isInlined.symm
  · exact hcopied.isInlined.symm

variable (h : weighing.Alike pass other weighing')
include h

theorem Node.CopiedAs.weigh {enclosed : Bool} {node found : Node}
    (hcopied : node.CopiedAs pass other enclosed found) :
    weighing'.weigh found = weighing.weigh node := by
  unfold Node.CopiedAs at hcopied
  split at hcopied
  · obtain ⟨inner, hinner, halike⟩ := hcopied
    obtain ⟨span, rfl⟩ := Node.eq_of_enclosed? hinner
    rw [Weighing.weigh_mk (by simp), Weighing.weighAll_one, (weigh_alike h).1 node inner halike]
  · exact ((weigh_alike h).1 node found hcopied).symm

theorem Written.Reads.weigh : ∀ {value : Written} {found : Node}, value.Reads pass other found →
    weighing'.weigh found = value.weight weighing
  | .copied enclosed node, found, hreads => Node.CopiedAs.weigh h hreads
  | .quoted text, found, hreads => Weighing.weigh_of_string? hreads
  | .led value, found, ⟨operands, hsum, hspace, hvalue⟩ => by
    obtain ⟨span, rfl⟩ := Node.eq_of_sum? hsum
    rw [Weighing.weigh_mk (by simp), Weighing.weighAll_two, Weighing.weigh_of_string? hspace,
      Nat.zero_add, hvalue.weigh, Written.weight]
  | .trailed value, found, ⟨operands, hsum, hvalue, hspace⟩ => by
    obtain ⟨span, rfl⟩ := Node.eq_of_sum? hsum
    rw [Weighing.weigh_mk (by simp), Weighing.weighAll_two, Weighing.weigh_of_string? hspace,
      Nat.add_zero, hvalue.weigh, Written.weight]
  | .choice enclosed test value alternate, found, ⟨three, hchoice, htest, hvalue, halternate⟩ => by
    obtain ⟨span, rfl⟩ := Node.eq_of_choice? hchoice
    rw [Weighing.weigh_mk (by simp), Weighing.weighAll_three,
      htest.weigh h, hvalue.weigh, halternate.weigh, Written.weight]
  | .listed node, found, ⟨inner, hinner, halike⟩ => by
    rw [Weighing.weigh_of_joined? hinner, Written.weight, (weigh_alike h).1 node inner halike]

theorem Written.Reads.load {value : Written} {found : Node} (hreads : value.Reads pass other found) :
    weighing'.load found = value.load weighing := by
  have hweigh := hreads.weigh h
  cases value with
  | copied enclosed node =>
    rw [Weighing.load, hweigh, Node.CopiedAs.isInlined hreads, ← h.gain_eq]
    rfl
  | quoted text =>
    obtain ⟨span, rfl⟩ := Node.eq_of_string? hreads
    rw [Weighing.load, hweigh, ← h.gain_eq]
    exact (Nat.zero_add _).trans (Nat.mul_one _)
  | led value =>
    obtain ⟨operands, hsum, -⟩ := hreads
    obtain ⟨span, rfl⟩ := Node.eq_of_sum? hsum
    exact (load_of_not_isInlined rfl).trans hweigh
  | trailed value =>
    obtain ⟨operands, hsum, -⟩ := hreads
    obtain ⟨span, rfl⟩ := Node.eq_of_sum? hsum
    exact (load_of_not_isInlined rfl).trans hweigh
  | choice enclosed test value alternate =>
    obtain ⟨three, hchoice, -⟩ := hreads
    obtain ⟨span, rfl⟩ := Node.eq_of_choice? hchoice
    exact (load_of_not_isInlined rfl).trans hweigh
  | listed node =>
    obtain ⟨inner, hinner, -⟩ := hreads
    obtain ⟨callee, rest, span, rfl, -, -⟩ := Node.eq_of_joined? hinner
    exact (load_of_not_isInlined rfl).trans hweigh

theorem ReadsAll.loads :
    ∀ {written : List (Char ⊕ Written)} {found : List (Char ⊕ Node)}, ReadsAll pass other written found →
    ((embeddedIn found).map weighing'.load).sum = ((embeddedIn written).map (Written.load weighing)).sum
  | _, _, .nil => rfl
  | _, _, .cons (.inl _) hrest => by
    have ih := ReadsAll.loads hrest
    exact ih
  | _, _, .cons (.inr hvalue) hrest => by
    have ih := ReadsAll.loads hrest
    exact congr_arg₂ (· + ·) (hvalue.load h) ih

theorem Draft.Reads.loads_le {chunks chunks' : List Chunk} {inner inner' : List Node} {span' : Span}
    (hfits : chunks.length = inner.length + 1)
    (hreads : (draftOf chunks inner).Reads pass other (.mk (.template chunks') span' inner')) :
    (inner'.map weighing'.load).sum ≤ weighing.weighAll inner := by
  unfold draftOf at hreads
  split at hreads
  · cases hreads
  · obtain ⟨parts, hparts, hlength, hall⟩ := hreads
    cases hparts
    have hsum := hall.loads h
    rw [embeddedIn_weave hlength] at hsum
    rw [hsum]
    exact loads_draftOf_le hfits

end

end ClassWeave
