import ClassWeave.Proofs.Statements
import ClassWeave.Proofs.TreeStep
/-!
# Trees as statements

A tree of calls is an operand, and so a statement of its own. A pass leaves a statement of the tree
that it makes.
-/

namespace ClassWeave
namespace HelperTree

open Lexeme Reader

/-! ## Trees as operands -/

def untrailed : HelperTree → HelperTree
  | .leaf lead literal _ => .leaf lead literal ⟨[], between_nil⟩
  | .call lead helper callee behind given _ => .call lead helper callee behind given ⟨[], between_nil⟩

theorem text_untrailed (tree : HelperTree) : tree.untrailed.text = tree.lead.text ++ tree.core := by
  cases tree with
  | leaf lead literal trail => exact congrArg (lead.text ++ ·) (List.append_nil _)
  | call lead helper callee behind given trail => exact congrArg (lead.text ++ ·) (List.append_nil _)

theorem lead_untrailed (tree : HelperTree) : tree.untrailed.lead = tree.lead := by
  cases tree <;> rfl

theorem node_untrailed (tree : HelperTree) (start : Nat) : tree.untrailed.node start = tree.node start := by
  cases tree <;> rfl

theorem readAs_untrailed (tree : HelperTree) {budget depth : Nat}
    (hbudget : tree.size ≤ budget) (hdepth : tree.size ≤ depth)
    (start : Nat) {rest : Text} (closes : ∀ offset, (next ⟨rest, offset⟩).token.Closes) (s : Surroundings) :
    leftHandSide (Grammar.ofDepth budget depth) s (.at' ⟨tree.lead.text ++ (tree.core ++ rest), start⟩) =
      .done (tree.node start) (.at' ⟨rest, start + tree.lead.text.byteLength + tree.core.byteLength⟩) := by
  cases tree with
  | leaf lead literal trail =>
    exact reads (untrailed (.leaf lead literal trail)) budget hbudget depth hdepth start rest closes s
  | call lead helper callee behind given trail =>
    exact reads (untrailed (.call lead helper callee behind given trail))
      budget hbudget depth hdepth start rest closes s

theorem first_core (tree : HelperTree) (more : Text) (start : Nat) :
    (Place.at' ⟨tree.lead.text ++ (tree.core ++ more), start⟩).ahead.first =
      start + tree.lead.text.byteLength := by
  cases tree with
  | leaf lead literal trail =>
    cases literal with
    | string quote body value hquote closed =>
      exact (next_string lead.between hquote (closed more) start).first_eq
    | template body raw value closed =>
      exact (next_mark lead.between TemplateText.mark "\x60" (by decide) (body ++ more) start).first_eq
  | call lead helper callee behind given trail =>
    rw [core_call]
    exact (next_callee lead behind callee given more start).first_eq

mutual

theorem alike_node {pass next : Pass} :
    ∀ (tree : HelperTree) {start start' : Nat}, pass.Holds start tree.text →
    next.Holds start' tree.text → (tree.node start).Alike pass next (tree.node start')
  | .leaf lead literal trail, start, start', holds, holds' => by
    refine Node.alike_mk_iff.2 ⟨_, _, rfl, ?_, Node.allAlike_nil_iff.2 rfl⟩
    exact holds.right.left.textAt_eq.trans holds'.right.left.textAt_eq.symm
  | .call lead helper callee behind given trail, start, start', holds, holds' => by
    have hcore := holds.right.left
    have hcore' := holds'.right.left
    have htext := hcore.textAt_eq.trans hcore'.textAt_eq.symm
    change pass.Holds (start + lead.text.byteLength)
      (call lead helper callee behind given trail).core at hcore
    change next.Holds (start' + lead.text.byteLength)
      (call lead helper callee behind given trail).core at hcore'
    rw [core_eq] at hcore hcore'
    have hname : (nameNode callee (start + lead.text.byteLength)).Alike pass next
        (nameNode callee (start' + lead.text.byteLength)) := by
      refine Node.alike_mk_iff.2 ⟨_, _, rfl, ?_, Node.allAlike_nil_iff.2 rfl⟩
      exact hcore.left.left.textAt_eq.trans hcore'.left.left.textAt_eq.symm
    rw [node_call, node_call]
    exact Node.alike_mk_iff.2 ⟨_, _, rfl, htext, Node.allAlike_cons_iff.2
      ⟨_, _, rfl, hname, allAlike_nodes given hcore.right.left hcore'.right.left⟩⟩

theorem allAlike_nodes {pass next : Pass} : ∀ (given : List HelperTree) {start start' : Nat},
    pass.Holds start (list given) → next.Holds start' (list given) →
    Node.AllAlike pass next (nodes given start) (nodes given start')
  | [], _, _, _, _ => Node.allAlike_nil_iff.2 rfl
  | [tree], _, _, holds, holds' =>
    Node.allAlike_cons_iff.2 ⟨_, _, rfl, alike_node tree holds holds', Node.allAlike_nil_iff.2 rfl⟩
  | tree :: following :: given, start, start', holds, holds' => by
    rw [text_list_cons] at holds holds'
    have hrest : pass.Holds (start + tree.text.byteLength + 1) (list (following :: given)) :=
      @Pass.Holds.right _ _ [','] _ holds.right
    have hrest' : next.Holds (start' + tree.text.byteLength + 1) (list (following :: given)) :=
      @Pass.Holds.right _ _ [','] _ holds'.right
    exact Node.allAlike_cons_iff.2 ⟨_, _, rfl, alike_node tree holds.left holds'.left,
      allAlike_nodes (following :: given) hrest hrest'⟩

end

def operand (tree : HelperTree) : Operand where
  lead := tree.lead
  core := tree.core
  node := tree.node
  isAtom := isAtom_node tree
  not_identifier := not_identifier tree
  opens more start := (opens_core tree more start).1
  sound more start := (opens_core tree more start).2
  calls more start := @paren_behind_word tree more start
  first more start := first_core tree more start
  reads hbudget hdepth start _ closes s := readAs_untrailed tree (Nat.le_trans (size_le_length tree) hbudget)
    (Nat.le_trans (size_le_length tree) hdepth) start closes s
  contained start := by
    have h := contained_node tree.untrailed start
    rwa [node_untrailed, text_untrailed, Text.byteLength_append, ← Nat.add_assoc] at h
  alike holds holds' := by
    have h := alike_node tree.untrailed (text_untrailed tree ▸ holds) (text_untrailed tree ▸ holds')
    rwa [node_untrailed, node_untrailed] at h

/-! ## What a pass leaves -/

theorem step_untrailed (tree : HelperTree) : tree.untrailed.step = tree.step.untrailed := by
  cases tree with
  | leaf lead literal trail => rfl
  | call lead helper callee behind given trail =>
    have hvalue : value (call lead helper callee behind given ⟨[], between_nil⟩) =
        value (call lead helper callee behind given trail) := by
      cases helper with
      | tm => rw [value, value]
      | tx => simp only [value]
      | tv => simp only [value]
    rw [untrailed, step, step, hvalue]
    split
    · rfl
    · rfl

theorem names_untrailed {aliases : Aliases} {tree : HelperTree} (names : tree.Names aliases) :
    tree.untrailed.Names aliases := by
  cases tree with
  | leaf lead literal trail => trivial
  | call lead helper callee behind given trail => exact names

theorem isLeaf_untrailed (tree : HelperTree) : tree.untrailed.isLeaf = tree.isLeaf := by
  cases tree <;> rfl

theorem holds_untrailed {pass : Pass} {start : Nat} {tree : HelperTree} {semicolon : Option Gap}
    (holds : pass.Holds start (tree.operand.statement semicolon).text) :
    pass.Holds start tree.untrailed.text := by
  rw [text_untrailed]
  exact tree.operand.holds_of_written holds

/-! ## Trees on a line of their own -/

/-- Whether a tree begins with a string, or with a name that goes on with no expression. -/
def Plain : HelperTree → Prop
  | .leaf _ (.string _ _ _ _ _) _ => True
  | .leaf _ (.template _ _ _ _) _ => False
  | .call _ _ callee _ _ _ => callee.name ∉ Token.asserting

theorem plain_step {tree : HelperTree} (plain : tree.Plain) : tree.step.Plain := by
  cases tree with
  | leaf lead literal trail => exact plain
  | call lead helper callee behind given trail =>
    rw [step]
    split
    · trivial
    · exact plain

theorem onLine_operand {tree : HelperTree} (hline : EndsLine tree.lead.text)
    (plain : tree.Plain) (semicolon : Option Gap) :
    (tree.operand.statement semicolon).OnLine := by
  cases tree with
  | leaf lead literal trail =>
    cases literal with
    | string quote body value hquote closed =>
      have hsolid : isSolid quote = true := by
        rcases hquote with rfl | rfl
        · rfl
        · rfl
      refine @Operand.onLine _ hline semicolon quote body rfl hsolid fun more start => ?_
      have htoken : (Place.at' ⟨lead.text ++ (quote :: body ++ more), start⟩).ahead.token = .string value :=
        (next_string lead.between hquote (closed more) start).token_eq
      exact htoken ▸ Token.only_string value
    | template body raw value closed => exact plain.elim
  | call lead helper callee behind given trail =>
    obtain ⟨c, rest, hname, hstart⟩ := callee.word.start
    have hcore : (call lead helper callee behind given trail).core =
      c :: (rest ++ (behind.text ++ '(' :: (list given ++ [')']))) := by
      rw [core, hname]
      rfl
    refine Operand.onLine _ hline semicolon hcore (isSolid_of_isStart hstart) fun more start => ?_
    have htoken :
        (Place.at' ⟨lead.text ++ (callee.name.toList ++ behindName behind given more), start⟩).ahead.token =
          .word callee.name false := (next_callee lead behind callee given more start).token_eq
    show (Place.at' ⟨lead.text ++ ((call lead helper callee behind given trail).core ++ more),
        start⟩).ahead.token.Only []
    rw [core_call, htoken]
    exact Token.only_word callee.isVariable plain

end HelperTree
end ClassWeave
