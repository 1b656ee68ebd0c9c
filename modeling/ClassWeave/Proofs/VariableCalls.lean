import ClassWeave.Proofs.Becoming
import ClassWeave.Proofs.OperandReading
import ClassWeave.Proofs.SnippetReading
import ClassWeave.Proofs.TemplateOperands
/-!
# Calls with a variable

A call of `tx` with a variable becomes a template that embeds it. As statements of their own, both
are read wherever a statement may begin.
-/

namespace ClassWeave

open Lexeme Reader
open Hole (nameNode alike_nameNode contained_nameNode)

structure VariableCall where
  lead : Gap
  callee : Text
  isCallee : IsVariableName callee
  behind : Gap
  before : Gap
  name : Text
  isName : IsVariableName name
  after : Gap

namespace VariableCall

variable (call : VariableCall)

/-! ## The call -/

def opening : Text := call.callee ++ (call.behind.text ++ '(' :: call.before.text)

def core : Text := call.opening ++ (call.name ++ (call.after.text ++ [')']))

def node (start : Nat) : Node :=
  .mk (.call 1) ⟨start, start + call.core.byteLength⟩
    [nameNode call.callee start, nameNode call.name (start + call.opening.byteLength)]

theorem endsName_behind (gap : Gap) (c : Char) (hc : IdentifierTable.isPart c = false ∧ c ≠ '\\')
    (more : Text) :
    EndsName (gap.text ++ c :: more) := by
  refine HelperTree.endsName_append gap.between fun d hd => ?_
  obtain rfl : c = d := Option.some.inj hd
  exact hc

theorem spreadable_of_name {budget : Nat} (hbudget : 0 < budget)
    (depth start : Nat) (before after : Gap) {name : Text} (hname : IsVariableName name)
    (more : Text) (s : Surroundings) :
    spreadable (Grammar.ofDepth budget (depth + 2)) s
        (.at' ⟨before.text ++ (name ++ (after.text ++ ')' :: more)), start⟩) =
      .done (nameNode name (start + before.text.byteLength))
        (.at' ⟨after.text ++ ')' :: more, start + before.text.byteLength + name.byteLength⟩) := by
  have ends := endsName_behind after ')' (by decide) more
  obtain ⟨hopens, hsound⟩ := opens_variable before.between hname ends start
  have found :=
    next_mark after.between ')' ")" (by decide) more (start + before.text.byteLength + name.byteLength)
  have closes := HelperTree.closes_behind after ')' ")" (by decide) (by decide) more
  have hmark :
      (Place.at' ⟨after.text ++ ')' :: more, start + before.text.byteLength + name.byteLength⟩).AtMark
      ")" _ :=
    ⟨found.token_eq, found.stop_eq⟩
  refine spreadable_of_assignment hopens fun s =>
    assignment_of_leftHandSide hopens hsound (fun s => ?_) (closes _) rfl hbudget
  exact leftHandSide_variable before.between hname ends hbudget depth start hmark (by decide)
    (closes (start + before.text.byteLength + name.byteLength)).endsOperand s

def behindCallee (more : Text) : Text :=
  call.behind.text ++ '(' :: (call.before.text ++ (call.name ++ (call.after.text ++ ')' :: more)))

theorem core_append (more : Text) : call.core ++ more = call.callee ++ call.behindCallee more := by
  simp [core, opening, behindCallee]

theorem byteLength_opening : call.opening.byteLength =
    call.callee.byteLength + call.behind.text.byteLength + 1 + call.before.text.byteLength := by
  have hparen : ('(' : Char).utf8Size = 1 := rfl
  simp only [opening, Text.byteLength_append, Text.byteLength_cons, hparen]
  omega

theorem byteLength_core : call.core.byteLength =
    call.opening.byteLength + call.name.byteLength + call.after.text.byteLength + 1 := by
  have hparen : Text.byteLength [')'] = 1 := rfl
  simp only [core, Text.byteLength_append, hparen]
  omega

theorem arguments_of_name {budget : Nat} (hbudget : 0 < budget)
    (depth start : Nat) (more : Text) (s : Surroundings) :
    arguments (Grammar.ofDepth budget (depth + 2)) s
      (.at' ⟨call.behindCallee more, start + call.callee.byteLength⟩) =
      .done [nameNode call.name (start + call.opening.byteLength)]
      (.at' ⟨more, start + call.core.byteLength⟩) := by
  obtain ⟨fuel, rfl⟩ := Nat.exists_eq_add_of_lt hbudget
  have hopen := needMark_of_next (s := s) (next_mark call.behind.between '(' "(" (by decide)
    (call.before.text ++ (call.name ++ (call.after.text ++ ')' :: more))) (start + call.callee.byteLength))
  have hname :=
    spreadable_of_name hbudget depth (start + call.callee.byteLength + call.behind.text.byteLength + 1)
      call.before call.after call.isName more s
  have hclose := takeMark_of_next (s := s) (next_mark call.after.between ')' ")" (by decide) more
    (start + call.callee.byteLength + call.behind.text.byteLength + 1 + call.before.text.byteLength +
      call.name.byteLength))
  have ends := endsName_behind call.after ')' (by decide) more
  have hnot := takeMark_of_not (s := s) ((opens_variable call.before.between call.isName ends
    (start + call.callee.byteLength + call.behind.text.byteLength + 1)).1.mark ")" (by decide))
  have hstart : start + call.callee.byteLength + call.behind.text.byteLength +
    1 + call.before.text.byteLength =
      start + call.opening.byteLength := by
    rw [byteLength_opening]
    omega
  have hstop : start + call.callee.byteLength + call.behind.text.byteLength +
    1 + call.before.text.byteLength +
      call.name.byteLength + call.after.text.byteLength + 1 = start + call.core.byteLength := by
    rw [byteLength_core, byteLength_opening]
    omega
  rw [hstart] at hname
  rw [hstop] at hclose
  rw [hstart] at hclose
  unfold behindCallee
  rw [arguments, run_bind, hopen]
  show listUntil ")" _ (0 + fuel + 1) s _ = _
  rw [listUntil]
  simp only [run_bind, hnot, hname, hclose, run_ite, run_pure, Bool.false_eq_true, if_false, if_true]

theorem next_callee (more : Text) (start : Nat) :
    (next ⟨call.lead.text ++ (call.callee ++ call.behindCallee more), start⟩).Is
    (.word (String.ofList call.callee) false)
      ⟨call.callee ++ call.behindCallee more, start + call.lead.text.byteLength⟩
      ⟨call.behindCallee more, start + call.lead.text.byteLength + call.callee.byteLength⟩ :=
  next_word call.lead.between call.isCallee.word (endsName_behind call.behind '(' (by decide) _) start

theorem leftHandSide_core {budget : Nat} (hbudget : 0 < budget) (depth start : Nat) {rest : Text}
    (closes : ∀ offset, (next ⟨rest, offset⟩).token.Closes) (s : Surroundings) :
    leftHandSide (Grammar.ofDepth budget (depth + 2)) s
      (.at' ⟨call.lead.text ++ (call.core ++ rest), start⟩) =
      .done (call.node (start + call.lead.text.byteLength))
        (.at' ⟨rest, start + call.lead.text.byteLength + call.core.byteLength⟩) := by
  have ends : EndsName (call.behindCallee rest) := endsName_behind call.behind '(' (by decide) _
  have hopens := (opens_variable call.lead.between call.isCallee ends start).1
  have found := call.next_callee rest start
  have htoken : (Place.at' ⟨call.lead.text ++ (call.callee ++ call.behindCallee rest), start⟩).ahead.token =
      .word (String.ofList call.callee) false := found.token_eq
  have hparen :
      (next ⟨call.behindCallee rest, start + call.lead.text.byteLength + call.callee.byteLength⟩).token =
        .mark "(" := (next_mark call.behind.between '(' "(" (by decide) _ _).token_eq
  have hprimary :=
    primary_name (g := Grammar.ofDepth budget (depth + 2)) (s := s) htoken call.isCallee.isVariable
      call.isCallee.ne_async ((congrArg (next · |>.token) found.stop_eq).trans hparen) (by decide)
  have honly : Token.Only ("(" :: Token.closing) (.mark "(") := Token.only_mark (by decide) (by decide)
  simp only [Place.at', found.first_eq, found.stop_eq] at hprimary
  have hmember := memberExpression_of_primary hopens hbudget hprimary (hparen ▸ honly).endsMember rfl
  rw [core_append]
  exact leftHandSide_of_call hopens hmember hparen rfl
    (call.arguments_of_name hbudget depth (start + call.lead.text.byteLength) rest s) (closes _) hbudget

theorem length_core : 2 ≤ call.core.length := by
  simp only [core, opening, List.length_append, List.length_cons]
  omega

def operand : Operand where
  lead := call.lead
  core := call.core
  node start := call.node (start + call.lead.text.byteLength)
  isAtom _ := rfl
  not_identifier _ _ := nofun
  opens more start := by
    rw [core_append]
    exact (opens_variable call.lead.between call.isCallee
      (endsName_behind call.behind '(' (by decide) _) start).1
  sound more start := by
    rw [core_append]
    exact (opens_variable call.lead.between call.isCallee
      (endsName_behind call.behind '(' (by decide) _) start).2
  calls more start := by
    intro name escaped _
    rw [core_append]
    exact (congrArg (next · |>.token) (call.next_callee more start).stop_eq).trans
      (next_mark call.behind.between '(' "(" (by decide) _ _).token_eq
  first more start := by
    rw [core_append]
    exact (call.next_callee more start).first_eq
  reads hbudget hdepth start rest closes s := by
    have hlength := call.length_core
    obtain ⟨depth, rfl⟩ := Nat.exists_eq_add_of_le' (Nat.le_trans hlength hdepth)
    exact call.leftHandSide_core (by omega) depth start closes s
  contained start := by
    have hpos : 0 < call.core.byteLength := by
      rw [byteLength_core]
      exact Nat.succ_pos _
    have hnames := (contained_nameNode call.callee (start + call.lead.text.byteLength)
      (start + call.lead.text.byteLength + call.core.byteLength) _).cons
      (contained_nameNode call.name (start + call.lead.text.byteLength + call.opening.byteLength) _ _)
      (Nat.le_refl _) (Nat.le_refl _)
    exact (Node.Contained.around hnames (by omega) (by omega)).mono (Nat.le_add_right _ _) (Nat.le_refl _)
  alike holds holds' := by
    have hcore := holds.right
    have hcore' := holds'.right
    refine Node.alike_mk_iff.2 ⟨_, _, rfl, hcore.textAt_eq.trans hcore'.textAt_eq.symm, ?_⟩
    exact Node.allAlike_cons_iff.2 ⟨_, _, rfl, alike_nameNode hcore.left.left hcore'.left.left,
      Node.allAlike_cons_iff.2 ⟨_, _, rfl, alike_nameNode hcore.right.left hcore'.right.left,
        Node.allAlike_nil_iff.2 rfl⟩⟩

/-! ## The template -/

def hole : Hole := .ofName call.name call.isName

/-- The template that the call becomes, as an operand. -/
def templateOperand (lead : Gap) : Operand := .ofHoles lead [] [(call.hole, [])]

def template : Text := TemplateText.literal [] (Hole.sources [(call.hole, [])])

def templateNode (start : Nat) : Node := Operand.templateNode [] [(call.hole, [])] start

theorem templateNode_eq (start : Nat) : call.templateNode start =
    .mk (.template [⟨[], some []⟩, ⟨[], some []⟩]) ⟨start, start + call.template.byteLength⟩
      [nameNode call.name (start + 3)] := rfl

theorem template_eq : call.template =
    [TemplateText.mark, '$', '\x7b'] ++ (call.name ++ ['\x7d', TemplateText.mark]) := by
  simp [template, Hole.sources, hole, Hole.ofName, TemplateText.literal, TemplateText.interleave,
    TemplateText.escape, embedded]

theorem read_template (elements : Bool) : Module.read call.template elements =
    .ok ⟨call.template, [.mk .expressionStatement ⟨0, call.template.byteLength⟩ [call.templateNode 0]]⟩ := by
  refine (call.templateOperand ⟨[], between_nil⟩).read_alone rfl (fun c hc => ?_) elements
  obtain rfl : TemplateText.mark = c := Option.some.inj hc
  decide

/-! ## What the call becomes -/

variable {pass : Pass} {start : Nat}

theorem holds_name (holds : pass.Holds start call.template) : pass.Holds (start + 3) call.name := by
  rw [template_eq] at holds
  exact holds.right.left

theorem render_template (holds : pass.Holds start call.template) :
    render (parts pass [⟨[], some []⟩, ⟨[], some []⟩] [nameNode call.name (start + 3)]) = call.template := by
  have hparts : parts pass [⟨[], some []⟩, ⟨[], some []⟩] [nameNode call.name (start + 3)] =
      [.embed call.name] := by
    rw [parts, classes_of_gaps rfl]
    exact congrArg (fun text => [Part.embed text]) (call.holds_name holds).textAt_eq
  rw [hparts, template_eq]
  show TemplateText.mark :: ([] ++ embedded call.name ++ []) ++ [TemplateText.mark] = _
  simp [embedded]

theorem changes_template (holds : pass.Holds start call.template)
    {state : List Span} {picked : PickedTemplate}
    (hpicked : simplifier.picked? pass state (call.templateNode start) = some picked) :
    simplifier.changes pass state (call.templateNode start).span picked = false := by
  rw [templateNode_eq] at hpicked ⊢
  have hspans : partSpans [⟨[], some []⟩, ⟨[], some []⟩] [nameNode call.name (start + 3)] =
      [⟨start + 3, start + 3 + call.name.byteLength⟩] := by
    rw [partSpans, classes_of_gaps rfl]
    rfl
  have hreplace :
      simplifier.replace pass state ⟨[⟨[], some []⟩, ⟨[], some []⟩], [nameNode call.name (start + 3)]⟩ =
        .ok (some call.template) := by
    refine Pass.reading_eq_ok.2 ⟨fun span hspan => ?_, congrArg some (call.render_template holds)⟩
    rw [hspans] at hspan
    rw [List.mem_singleton.1 hspan]
    exact (call.holds_name holds).admits
  obtain ⟨-, rfl⟩ := Option.ite_some_none_eq_some.1 hpicked
  rw [Node.span, Rule.changes, Rule.replaceAt_of_admits holds.admits hreplace, holds.textAt_eq]
  simp

theorem simplifyTemplate_template (file : Option String) {limit : Nat} (hlimit : 0 < limit) :
    simplifyTemplate call.template file limit = .ok call.template := by
  obtain ⟨left, rfl⟩ := Nat.exists_eq_add_of_lt hlimit
  have hread := call.read_template (Rule.elementsIn file)
  have nested :
      Node.AllNested [.mk .expressionStatement ⟨0, call.template.byteLength⟩ [call.templateNode 0]] :=
    (Node.Contained.of_children rfl ((call.templateOperand ⟨[], between_nil⟩).contained 0)).nested
  have hedits : simplifier.collectEdits
      ⟨0, ⟨call.template, [.mk .expressionStatement ⟨0, call.template.byteLength⟩ [call.templateNode 0]]⟩⟩
      (classTemplatesOf (.mk .expressionStatement ⟨0, call.template.byteLength⟩ [call.templateNode 0])) =
        .ok [] := by
    refine (Rule.collectEdits_eq_nil_iff nested).2 fun node hnode picked hpicked => ?_
    obtain rfl : node = call.templateNode 0 := List.mem_singleton.1 hnode
    exact call.changes_template ⟨[], [], (List.append_nil _).symm, rfl⟩ hpicked
  obtain ⟨record, hrun⟩ :=
    @Rule.passes_of_collectEdits_eq_nil _ _ _ _ _ (0 + left + 1) (0 + left) _ _ _ _ [] hread
      (congrArg Except.ok (List.flatMap_singleton _ _)) hedits
  unfold simplifyTemplate Rule.run
  rw [hrun]
  rfl

variable {options : Options} {aliases : Aliases} {next : Pass}

theorem replace_node (hlimit : 0 < options.maxPasses) (holds : pass.Holds start call.core) :
    (transformer options).replace pass aliases (.tx [nameNode call.name (start + call.opening.byteLength)]) =
      .ok (some call.template) := by
  have hname := holds.right.left
  have hadmits : ∀ argument ∈ [nameNode call.name (start + call.opening.byteLength)],
      pass.module.admits (argumentSpan argument) = true := by
    intro argument hargument
    rw [List.mem_singleton.1 hargument]
    exact hname.admits
  have htemplate : templateOf pass [nameNode call.name (start + call.opening.byteLength)] =
    call.template := by
    show TemplateText.mark :: embedded (pass.textAt ⟨start + call.opening.byteLength, _⟩) ++
      [TemplateText.mark] = _
    rw [hname.textAt_eq, template_eq]
    simp [embedded]
  show (compileTx pass _ options).map some = _
  rw [compileTx_of_admits options hadmits, htemplate, call.simplifyTemplate_template _ hlimit]
  rfl

theorem template_ne_core : call.template ≠ call.core := by
  obtain ⟨c, rest, hname, hstart⟩ := call.isCallee.word.start
  intro heq
  rw [core, opening, hname] at heq
  obtain rfl : TemplateText.mark = c := (List.cons.inj heq).1
  have hmark : IdentifierTable.isStart TemplateText.mark = false := by decide
  rw [hmark] at hstart
  cases hstart

theorem select_node (hlookup : aliases.lookup (String.ofList call.callee) = some .tx) :
    (transformer options).select pass aliases (call.node start) =
      some (.tx [nameNode call.name (start + call.opening.byteLength)]) := by
  show pick options pass aliases (call.node start) = _
  unfold node nameNode pick
  simp only [hlookup]
  rfl

theorem rewrites_node (hlimit : 0 < options.maxPasses)
    (hlookup : aliases.lookup (String.ofList call.callee) = some .tx) (holds : pass.Holds start call.core) :
    (transformer options).Rewrites pass aliases [call.node start] start call.core call.template ∧
      (transformer options).anyPending pass aliases [call.node start] = true :=
  Rule.Rewrites.replaced (some call.template) rfl holds rfl (call.select_node hlookup)
    (call.replace_node hlimit holds) call.template_ne_core

/-- The call becomes the template as it is read alone. -/
theorem becomes_node {elements : Bool} {start' : Nat} (hlimit : 0 < options.maxPasses)
    (hlookup : aliases.lookup (String.ofList call.callee) = some .tx) (holds : pass.Holds start call.core)
    (holds' : next.Holds start' call.template) :
    (transformer options).Becomes pass next aliases elements (call.node start)
    (call.templateNode start') := by
  have hreplace := @replace_node call _ _ _ aliases hlimit holds
  refine .of_replaced
    (Rule.frontier_of_ne rfl holds rfl (call.select_node hlookup) hreplace call.template_ne_core) ?_
  have hread := call.read_template elements
  have halone : Pass.Holds ⟨0, ⟨call.template, [.mk .expressionStatement ⟨0, call.template.byteLength⟩
      [call.templateNode 0]]⟩⟩ 0 call.template := ⟨[], [], (List.append_nil _).symm, rfl⟩
  exact ⟨_, toOption_eq_some_iff.2 hreplace, _, toOption_eq_some_iff.2 hread, _, rfl,
    (call.templateOperand ⟨[], between_nil⟩).alike halone holds'⟩

end VariableCall
end ClassWeave
