import Mathlib.Data.List.Basic
import ClassWeave.ClassList.Simplify
import ClassWeave.Proofs.Cutting
/-!
# Trees that read alike

Two trees of two texts are alike if they have the same shape and the same source at every node.
Everything that is asked of a tree has the same answer for one that is like it.
-/

namespace ClassWeave

namespace Node

mutual

/-- Whether a tree is like one of another text. -/
def Alike (pass other : Pass) : Node → Node → Prop
  | .mk shape span children, node =>
    shape = node.shape ∧ pass.textAt span = other.textAt node.span ∧
      AllAlike pass other children node.children

def AllAlike (pass other : Pass) : List Node → List Node → Prop
  | [], [] => True
  | node :: rest, node' :: rest' => Alike pass other node node' ∧ AllAlike pass other rest rest'
  | _, _ => False

end

mutual

def decideAlike (pass other : Pass) : (node node' : Node) → Decidable (node.Alike pass other node')
  | .mk shape span children, node =>
    have := decideAllAlike pass other children node.children
    decidable_of_iff' (shape = node.shape ∧ pass.textAt span = other.textAt node.span ∧
      AllAlike pass other children node.children) (by rw [Alike])

def decideAllAlike (pass other : Pass) :
    (trees trees' : List Node) → Decidable (AllAlike pass other trees trees')
  | [], [] => .isTrue (by rw [AllAlike]; trivial)
  | node :: rest, node' :: rest' =>
    have := decideAlike pass other node node'
    have := decideAllAlike pass other rest rest'
    decidable_of_iff' (Alike pass other node node' ∧ AllAlike pass other rest rest') (by rw [AllAlike])
  | [], _ :: _ => .isFalse (by rw [AllAlike]; exact id; simp; simp)
  | _ :: _, [] => .isFalse (by rw [AllAlike]; exact id; simp; simp)

end

instance (pass other : Pass) (node node' : Node) : Decidable (node.Alike pass other node') :=
  decideAlike pass other node node'

variable {pass other : Pass}

theorem alike_mk_iff {shape : Shape} {span : Span} {children : List Node} {node : Node} :
    Alike pass other (.mk shape span children) node ↔ ∃ span' children', node = .mk shape span' children' ∧
      pass.textAt span = other.textAt span' ∧ AllAlike pass other children children' := by
  rw [Alike]
  constructor
  · rintro ⟨rfl, htext, hchildren⟩
    obtain ⟨shape, span', children'⟩ := node
    exact ⟨span', children', rfl, htext, hchildren⟩
  · rintro ⟨span', children', rfl, htext, hchildren⟩
    exact ⟨rfl, htext, hchildren⟩

theorem allAlike_nil_iff {trees : List Node} : AllAlike pass other [] trees ↔ trees = [] := by
  cases trees <;> simp [AllAlike]

theorem allAlike_cons_iff {node : Node} {rest trees : List Node} : AllAlike pass other (node :: rest) trees ↔
    ∃ node' rest', trees = node' :: rest' ∧ node.Alike pass other node' ∧ AllAlike pass other rest rest' := by
  cases trees with
  | nil => simp [AllAlike]
  | cons node' rest' =>
    rw [AllAlike]
    constructor
    · exact fun h => ⟨node', rest', rfl, h⟩
    · rintro ⟨_, _, heq, h⟩
      cases heq
      exact h

theorem Alike.textAt {node node' : Node} (h : node.Alike pass other node') :
    pass.textAt node.span = other.textAt node'.span := by
  obtain ⟨shape, span, children⟩ := node
  obtain ⟨span', children', rfl, htext, -⟩ := alike_mk_iff.1 h
  exact htext

theorem Alike.shape_eq {node node' : Node} (h : node.Alike pass other node') : node.shape = node'.shape := by
  obtain ⟨shape, span, children⟩ := node
  obtain ⟨span', children', rfl, -, -⟩ := alike_mk_iff.1 h
  rfl

theorem Alike.one {shape : Shape} {span : Span} {a node : Node}
    (h : Alike pass other (.mk shape span [a]) node) :
    ∃ span' a', node = .mk shape span' [a'] ∧ pass.textAt span = other.textAt span' ∧
    a.Alike pass other a' := by
  obtain ⟨span', children', rfl, htext, hchildren⟩ := alike_mk_iff.1 h
  obtain ⟨a', rest', rfl, ha, hrest⟩ := allAlike_cons_iff.1 hchildren
  obtain rfl := allAlike_nil_iff.1 hrest
  exact ⟨span', a', rfl, htext, ha⟩

theorem Alike.two {shape : Shape} {span : Span} {a b node : Node}
    (h : Alike pass other (.mk shape span [a, b]) node) :
    ∃ span' a' b', node = .mk shape span' [a', b'] ∧ pass.textAt span = other.textAt span' ∧
      a.Alike pass other a' ∧ b.Alike pass other b' := by
  obtain ⟨span', children', rfl, htext, hchildren⟩ := alike_mk_iff.1 h
  obtain ⟨a', rest', rfl, ha, hrest⟩ := allAlike_cons_iff.1 hchildren
  obtain ⟨b', rest', rfl, hb, hrest⟩ := allAlike_cons_iff.1 hrest
  obtain rfl := allAlike_nil_iff.1 hrest
  exact ⟨span', a', b', rfl, htext, ha, hb⟩

theorem Alike.three {shape : Shape} {span : Span} {a b c node : Node}
    (h : Alike pass other (.mk shape span [a, b, c]) node) :
    ∃ span' a' b' c', node = .mk shape span' [a', b', c'] ∧ pass.textAt span = other.textAt span' ∧
      a.Alike pass other a' ∧ b.Alike pass other b' ∧ c.Alike pass other c' := by
  obtain ⟨span', children', rfl, htext, hchildren⟩ := alike_mk_iff.1 h
  obtain ⟨a', rest', rfl, ha, hrest⟩ := allAlike_cons_iff.1 hchildren
  obtain ⟨b', rest', rfl, hb, hrest⟩ := allAlike_cons_iff.1 hrest
  obtain ⟨c', rest', rfl, hc, hrest⟩ := allAlike_cons_iff.1 hrest
  obtain rfl := allAlike_nil_iff.1 hrest
  exact ⟨span', a', b', c', rfl, htext, ha, hb, hc⟩

theorem length_of_allAlike : ∀ {trees trees' : List Node}, AllAlike pass other trees trees' →
    trees.length = trees'.length
  | [], _, h => by rw [allAlike_nil_iff.1 h]
  | node :: rest, _, h => by
    obtain ⟨node', rest', rfl, -, hrest⟩ := allAlike_cons_iff.1 h
    rw [List.length_cons, List.length_cons, length_of_allAlike hrest]

theorem AllAlike.not_one {trees trees' : List Node} (h : AllAlike pass other trees trees')
    (hnot : ∀ a, trees = [a] → False) : ∀ a', trees' = [a'] → False := by
  rintro a' rfl
  obtain ⟨a, rfl⟩ := List.length_eq_one_iff.1 (length_of_allAlike h)
  exact hnot a rfl

theorem AllAlike.not_two {trees trees' : List Node} (h : AllAlike pass other trees trees')
    (hnot : ∀ a b, trees = [a, b] → False) : ∀ a' b', trees' = [a', b'] → False := by
  rintro a' b' rfl
  obtain ⟨a, b, rfl⟩ := List.length_eq_two.1 (length_of_allAlike h)
  exact hnot a b rfl

theorem AllAlike.not_three {trees trees' : List Node} (h : AllAlike pass other trees trees')
    (hnot : ∀ a b c, trees = [a, b, c] → False) : ∀ a' b' c', trees' = [a', b', c'] → False := by
  rintro a' b' c' rfl
  obtain ⟨a, b, c, rfl⟩ := List.length_eq_three.1 (length_of_allAlike h)
  exact hnot a b c rfl

theorem AllAlike.exists_pairs : ∀ {trees trees' : List Node}, AllAlike pass other trees trees' →
    ∃ pairs : List (Node × Node), (∀ pair ∈ pairs, pair.1.Alike pass other pair.2) ∧
      trees = pairs.map Prod.fst ∧ trees' = pairs.map Prod.snd
  | [], _, h => ⟨[], by simp, rfl, allAlike_nil_iff.1 h⟩
  | node :: rest, _, h => by
    obtain ⟨node', rest', rfl, hnode, hrest⟩ := allAlike_cons_iff.1 h
    obtain ⟨pairs, hpairs, rfl, rfl⟩ := hrest.exists_pairs
    refine ⟨(node, node') :: pairs, fun pair hpair => ?_, rfl, rfl⟩
    rcases List.mem_cons.1 hpair with rfl | hpair
    · exact hnode
    · exact hpairs pair hpair

/-! ## Answers about trees that are alike -/

theorem Alike.unparenthesized {node node' : Node} (h : node.Alike pass other node') :
    node.unparenthesized.Alike pass other node'.unparenthesized := by
  fun_induction Node.unparenthesized node generalizing node' with
  | case1 span inner ih =>
    obtain ⟨span', inner', rfl, -, hinner⟩ := h.one
    rw [Node.unparenthesized]
    exact ih hinner
  | case2 node hnode =>
    have heq : node'.unparenthesized = node' := by
      obtain ⟨shape, span, children⟩ := node
      obtain ⟨span', children', rfl, -, hchildren⟩ := alike_mk_iff.1 h
      refine Node.unparenthesized.eq_2 _ fun _ inner' hinner => ?_
      cases hinner
      exact hchildren.not_one (fun inner heq => by cases heq; exact hnode span inner rfl) inner' rfl
    rw [heq]
    exact h

theorem Alike.constantText? {node node' : Node} (h : node.Alike pass other node') :
    node.constantText? = node'.constantText? := by
  unfold Node.constantText?
  have hu := h.unparenthesized
  revert hu
  generalize node.unparenthesized = bare
  generalize node'.unparenthesized = bare'
  intro hu
  obtain ⟨shape, span, children⟩ := bare
  obtain ⟨span', children', rfl, -, hchildren⟩ := alike_mk_iff.1 hu
  cases shape with
  | template chunks =>
    cases children with
    | nil => rw [allAlike_nil_iff.1 hchildren]
    | cons a rest =>
      obtain ⟨a', rest', rfl, -, -⟩ := allAlike_cons_iff.1 hchildren
      rfl
  | _ => rfl

theorem Alike.isStringAmong {node node' : Node} (h : node.Alike pass other node') (values : List Text) :
    node.isStringAmong values = node'.isStringAmong values := by
  unfold Node.isStringAmong
  have hu := h.unparenthesized
  revert hu
  generalize node.unparenthesized = bare
  generalize node'.unparenthesized = bare'
  intro hu
  obtain ⟨shape, span, children⟩ := bare
  obtain ⟨span', children', rfl, -, -⟩ := alike_mk_iff.1 hu
  cases shape with
  | literal value => cases value <;> rfl
  | _ => rfl

theorem Alike.isBlankString {node node' : Node} (h : node.Alike pass other node') :
    node.isBlankString = node'.isBlankString := h.isStringAmong _

theorem Alike.isOperand {node node' : Node} (h : node.Alike pass other node') :
    node.isOperand = node'.isOperand := by
  unfold Node.isOperand
  rw [h.shape_eq]

theorem Alike.isLooseTest {node node' : Node} (h : node.Alike pass other node') :
    node.isLooseTest = node'.isLooseTest := by
  unfold Node.isLooseTest
  rw [h.shape_eq]

theorem Alike.withoutTrail {node node' : Node} (h : node.Alike pass other node') :
    node.withoutTrail.Alike pass other node'.withoutTrail := by
  fun_cases Node.withoutTrail node with
  | case1 span left right hright =>
    obtain ⟨span', left', right', rfl, -, hleft', hright'⟩ := h.two
    rw [Node.withoutTrail, if_pos (hright'.isStringAmong _ ▸ hright)]
    exact hleft'
  | case2 span left right hright =>
    obtain ⟨span', left', right', rfl, -, hleft', hright'⟩ := h.two
    rw [Node.withoutTrail, if_neg (hright'.isStringAmong _ ▸ hright)]
    exact h
  | case3 node hnode =>
    obtain ⟨shape, span, children⟩ := node
    obtain ⟨span', children', rfl, -, hchildren⟩ := alike_mk_iff.1 h
    rw [Node.withoutTrail.eq_2]
    · exact h
    · intro _ left' right' heq
      cases heq
      exact hchildren.not_two (fun left right heq => by cases heq; exact hnode span left right rfl)
        left' right' rfl

theorem Alike.withoutLead {node node' : Node} (h : node.Alike pass other node') :
    node.withoutLead.Alike pass other node'.withoutLead := by
  fun_cases Node.withoutLead node with
  | case1 span left right hleft =>
    obtain ⟨span', left', right', rfl, -, hleft', hright'⟩ := h.two
    rw [Node.withoutLead, if_pos (hleft'.isStringAmong _ ▸ hleft)]
    exact hright'
  | case2 span left right hleft =>
    obtain ⟨span', left', right', rfl, -, hleft', hright'⟩ := h.two
    rw [Node.withoutLead, if_neg (hleft'.isStringAmong _ ▸ hleft)]
    exact h
  | case3 node hnode =>
    obtain ⟨shape, span, children⟩ := node
    obtain ⟨span', children', rfl, -, hchildren⟩ := alike_mk_iff.1 h
    rw [Node.withoutLead.eq_2]
    · exact h
    · intro _ left' right' heq
      cases heq
      exact hchildren.not_two (fun left right heq => by cases heq; exact hnode span left right rfl)
        left' right' rfl

theorem Alike.unpadded {node node' : Node} (h : node.Alike pass other node') :
    node.unpadded.Alike pass other node'.unpadded := h.unparenthesized.withoutTrail.withoutLead

theorem Alike.bareText {node node' : Node} (h : node.Alike pass other node') :
    node.bareText pass = node'.bareText other := h.unparenthesized.textAt

theorem Alike.joined? {node node' inner : Node} (h : node.Alike pass other node')
    (hjoined : node.joined? = some inner) :
    ∃ inner', node'.joined? = some inner' ∧ inner.Alike pass other inner' := by
  unfold Node.joined? at hjoined
  split at hjoined
  · rename_i found
    cases hjoined
    obtain ⟨span₁, callee, glue, rfl, -, hcallee, hglue⟩ := h.two
    obtain ⟨span₂, list, name, rfl, -, hlist, hname⟩ := hcallee.two
    obtain ⟨span₃, spread, rfl, -, hspread⟩ := hlist.one
    obtain ⟨span₄, inner', rfl, -, hinner⟩ := hspread.one
    obtain ⟨span₅, none₁, rfl, -, hnone₁⟩ := alike_mk_iff.1 hname
    obtain ⟨span₆, none₂, rfl, -, hnone₂⟩ := alike_mk_iff.1 hglue
    obtain rfl := allAlike_nil_iff.1 hnone₁
    obtain rfl := allAlike_nil_iff.1 hnone₂
    exact ⟨inner', rfl, hinner⟩
  · cases hjoined

theorem alike_symm : (∀ node node', Alike pass other node node' → Alike other pass node' node) ∧
    (∀ trees trees', AllAlike pass other trees trees' → AllAlike other pass trees' trees) := by
  apply targets.mutual_induct
  · intro shape span children _ ih node' h
    obtain ⟨span', children', rfl, hspan, hchildren⟩ := alike_mk_iff.1 h
    exact alike_mk_iff.2 ⟨span, children, rfl, hspan.symm, ih children' hchildren⟩
  · intro shape span children _ ih node' h
    obtain ⟨span', children', rfl, hspan, hchildren⟩ := alike_mk_iff.1 h
    exact alike_mk_iff.2 ⟨span, children, rfl, hspan.symm, ih children' hchildren⟩
  · intro trees' h
    rw [allAlike_nil_iff.1 h]
    exact allAlike_nil_iff.2 rfl
  · intro node rest ih ihrest trees' h
    obtain ⟨node', rest', rfl, hnode, hrest⟩ := allAlike_cons_iff.1 h
    exact allAlike_cons_iff.2 ⟨node, rest, rfl, ih node' hnode, ihrest rest' hrest⟩

theorem Alike.symm {node node' : Node} (h : node.Alike pass other node') : node'.Alike other pass node :=
  alike_symm.1 node node' h

theorem Alike.joined?_eq_none {node node' : Node} (h : node.Alike pass other node')
    (hnone : node.joined? = none) :
    node'.joined? = none := by
  cases hjoined : node'.joined? with
  | none => rfl
  | some inner =>
    obtain ⟨inner', hjoined', -⟩ := h.symm.joined? hjoined
    rw [hnone] at hjoined'
    cases hjoined'

theorem Alike.known {node node' : Node} (h : node.Alike pass other node') (setting : Setting) :
    node.known setting pass = node'.known setting other := by
  unfold Node.known
  cases hjoined : node.joined? with
  | some inner =>
    obtain ⟨inner', hjoined', hinner⟩ := h.joined? hjoined
    rw [hjoined']
    dsimp only
    rw [hinner.bareText]
  | none => rw [h.joined?_eq_none hjoined, h.textAt]

theorem signs_alike (setting : Setting) : (∀ node node', Alike pass other node node' →
      node.signs setting pass = node'.signs setting other) ∧
    (∀ trees trees', AllAlike pass other trees trees' →
      allSigns setting pass trees = allSigns setting other trees') := by
  apply signs.mutual_induct
  · intro value span children text htext node' h
    obtain ⟨span', children', rfl, -, -⟩ := alike_mk_iff.1 h
    rw [signs, signs, htext]
  · intro value span children hnone node' h
    obtain ⟨span', children', rfl, hspan, -⟩ := alike_mk_iff.1 h
    rw [signs, signs, hnone, hspan]
  · intro chunks span inner ih node' h
    obtain ⟨span', inner', rfl, -, hinner⟩ := alike_mk_iff.1 h
    rw [signs, signs, ih inner' hinner]
  · intro span inner ih node' h
    obtain ⟨span', inner', rfl, -, hinner⟩ := h.one
    rw [signs, signs, ih inner' hinner]
  · intro span left right hspaced ihl ihr node' h
    obtain ⟨span', left', right', rfl, -, hleft, hright⟩ := h.two
    rw [signs, signs, ← hleft.isStringAmong, ← hright.isStringAmong,
      if_pos hspaced, if_pos hspaced, ihl left' hleft, ihr right' hright]
  · intro span left right hspaced node' h
    obtain ⟨span', left', right', rfl, hspan, hleft, hright⟩ := h.two
    rw [signs, signs, ← hleft.isStringAmong, ← hright.isStringAmong, if_neg hspaced, if_neg hspaced, hspan]
  · intro span test value ih node' h
    obtain ⟨span', test', value', rfl, -, htest, hvalue⟩ := h.two
    rw [signs, signs, ih value' hvalue, htest.bareText]
  · intro span test consequent alternate ihc iha node' h
    obtain ⟨span', test', consequent', alternate', rfl, -, htest, hc, ha⟩ := h.three
    rw [signs, signs, ihc consequent' hc, iha alternate' ha, htest.bareText]
  · intro shape span children hliteral htemplate hparens hplus hand hcond node' h
    obtain ⟨span', children', rfl, -, hchildren⟩ := alike_mk_iff.1 h
    rw [signs.eq_7 setting pass shape span children hliteral htemplate hparens hplus hand hcond,
      signs.eq_7 setting other shape span' children' hliteral htemplate, h.known]
    · exact fun inner' hshape => hchildren.not_one (fun inner => hparens inner hshape) inner'
    · exact fun left' right' hshape =>
        hchildren.not_two (fun left right => hplus left right hshape) left' right'
    · exact fun test' value' hshape =>
        hchildren.not_two (fun test value => hand test value hshape) test' value'
    · exact fun test' consequent' alternate' hshape =>
        hchildren.not_three (fun test consequent alternate => hcond test consequent alternate hshape)
          test' consequent' alternate'
  · intro trees' h
    rw [allAlike_nil_iff.1 h, allSigns, allSigns]
  · intro node rest ih ihrest trees' h
    obtain ⟨node', rest', rfl, hnode, hrest⟩ := allAlike_cons_iff.1 h
    rw [allSigns, allSigns, ih node' hnode, ihrest rest' hrest]

theorem Alike.signs {node node' : Node} (h : node.Alike pass other node') (setting : Setting) :
    node.signs setting pass = node'.signs setting other := (signs_alike setting).1 node node' h

end Node

/-! ## Parts of templates that are alike -/

section
variable {pass other : Pass}

theorem operandSource_alike {node node' : Node} (h : node.Alike pass other node') :
    operandSource pass node = operandSource other node' := by
  unfold operandSource
  rw [h.textAt, h.isOperand]

theorem testSource_alike {node node' : Node} (h : node.Alike pass other node') :
    testSource pass node = testSource other node' := by
  unfold testSource
  rw [h.textAt, h.isLooseTest]

theorem conditionalPart_alike {test test' value value' : Node} (htest : test.Alike pass other test')
    (hvalue : value.Alike pass other value') :
    conditionalPart pass test value = conditionalPart other test' value' := by
  unfold conditionalPart
  simp only [testSource_alike htest, hvalue.unpadded.constantText?, operandSource_alike hvalue.unpadded]

end

end ClassWeave
