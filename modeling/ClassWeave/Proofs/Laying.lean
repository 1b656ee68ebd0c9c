import ClassWeave.Proofs.GapReading
import ClassWeave.Proofs.Normalizing
import ClassWeave.Proofs.TemplateOperands
/-!
# How templates are laid out

A template of static text, variables, choices between string literals and further templates is laid
out as the tree says that it is read as. So is a program in which all templates are of that kind, and
no class list in it can be simplified if it is simplified code.
-/

namespace ClassWeave

open Lexeme Reader TemplateText
open Hole (nameNode contained_nameNode alike_nameNode)

/-- Whether the templates of trees, at any depth, are laid out as the trees say. -/
def Node.AllLaidOut (pass : Pass) (trees : List Node) : Prop :=
  ∀ chunks span inner, .mk (.template chunks) span inner ∈ allTargets trees →
    (mk (.template chunks) span inner).LaidOut pass

theorem Node.allLaidOut_iff {pass : Pass} {trees : List Node} :
    AllLaidOut pass trees ↔ ∀ node ∈ trees, AllLaidOut pass [node] := by
  constructor
  · intro h node hnode chunks span inner htarget
    rw [allTargets_singleton] at htarget
    exact h chunks span inner (mem_allTargets_iff.2 ⟨node, hnode, htarget⟩)
  · intro h chunks span inner htarget
    obtain ⟨node, hnode, htarget⟩ := mem_allTargets_iff.1 htarget
    rw [← allTargets_singleton] at htarget
    exact h node hnode chunks span inner htarget

theorem Node.allLaidOut_of_children {pass : Pass} {shape : Shape} {span : Span} {children : List Node}
    (hshape : shape.isTarget = false) (h : AllLaidOut pass children) :
    AllLaidOut pass [mk shape span children] := by
  intro chunks inside inner htarget
  rw [allTargets_singleton, targets, if_neg (by simp [hshape])] at htarget
  exact h chunks inside inner htarget

/-! ## Choices between string literals -/

namespace Choice

variable (name value alternate : Text)

def text : Text :=
  name ++ ' ' :: '?' :: ' ' :: (Quoted.encode value ++ ' ' :: ':' :: ' ' :: Quoted.encode alternate)

def stringNode (value : Text) (start : Nat) : Node :=
  .mk (.literal (.string value)) ⟨start, start + (Quoted.encode value).byteLength⟩ []

def node (start : Nat) : Node :=
  .mk .conditional ⟨start, start + (text name value alternate).byteLength⟩
    [nameNode name start, stringNode value (start + name.byteLength + 3),
      stringNode alternate (start + name.byteLength + 3 + (Quoted.encode value).byteLength + 3)]

theorem byteLength_text : (text name value alternate).byteLength =
    name.byteLength + 3 + (Quoted.encode value).byteLength + 3 + (Quoted.encode alternate).byteLength := by
  have hasks : (' ' : Char).utf8Size + (('?' : Char).utf8Size + (' ' : Char).utf8Size) = 3 := rfl
  have hcolon : (' ' : Char).utf8Size + ((':' : Char).utf8Size + (' ' : Char).utf8Size) = 3 := rfl
  simp only [text, Text.byteLength_append, Text.byteLength_cons]
  omega

theorem holds_parts {pass : Pass} {start : Nat} (holds : pass.Holds start (text name value alternate)) :
    pass.Holds start name ∧ pass.Holds (start + name.byteLength + 3) (Quoted.encode value) ∧
      pass.Holds (start + name.byteLength + 3 + (Quoted.encode value).byteLength + 3)
        (Quoted.encode alternate) := by
  have hvalue : pass.Holds (start + name.byteLength + 3) (Quoted.encode value ++ _) :=
    @Pass.Holds.right _ _ [' ', '?', ' '] _ holds.right
  exact ⟨holds.left, hvalue.left, @Pass.Holds.right _ _ [' ', ':', ' '] _ hvalue.right⟩

theorem alike_stringNode {pass next : Pass} {value : Text} {start start' : Nat}
    (holds : pass.Holds start (Quoted.encode value)) (holds' : next.Holds start' (Quoted.encode value)) :
    (stringNode value start).Alike pass next (stringNode value start') :=
  Node.alike_mk_iff.2 ⟨_, _, rfl, holds.textAt_eq.trans holds'.textAt_eq.symm, Node.allAlike_nil_iff.2 rfl⟩

theorem contained_stringNode (value : Text) (start low high : Nat) :
    Node.Contained [stringNode value start] low high :=
  .of_children rfl (.nil _ _)

variable {value} in
theorem assignment_string {budget : Nat} (hbudget : 0 < budget) (depth : Nat) {rest : Text} (start : Nat)
    {mark : String} {behind : Cursor} (hends : ∀ offset, (Place.at' ⟨rest, offset⟩).EndsOperand)
    (h : (Place.at' ⟨rest, start + 1 + (Quoted.encode value).byteLength⟩).AtMark mark behind)
    (hmark : mark ∈ [":", "\x7d"]) (s : Surroundings) :
    (Grammar.ofDepth budget (depth + 2)).assignment s
        (.at' ⟨' ' :: (Quoted.encode value ++ rest), start⟩) =
      .done (stringNode value (start + 1))
        (.at' ⟨rest, start + 1 + (Quoted.encode value).byteLength⟩) := by
  have htoken := (next_encode between_space value rest start).token_eq
  have weak : ∀ mark ∈ [":", "\x7d"], mark ≠ "\x60" ∧ mark ≠ "?" ∧ mark ∉ Token.assignmentOperators ∧
    ∀ found ∈ (Token.mark mark).binaryOperator?, found.2 ≤ 0 := by decide
  obtain ⟨hplain, hasks, hassigns, hstrength⟩ := weak mark hmark
  have hoperand := fun s => operand_encode between_space value rest hbudget depth start hends s
  exact assignment_of_operation (s := s) (g := Grammar.ofDepth budget (depth + 1))
    (opensPlainly_of_string htoken) s.arrowStart (hoperand _) rfl
    (operation_of_atMark h hplain hstrength hbudget) h hasks hassigns

theorem reads {budget depth : Nat} (hname : IsVariableName name) (hbudget : 0 < budget) (start : Nat)
    (rest : Text) (s : Surroundings) : ∃ place,
    freshExpression (Grammar.ofDepth budget (depth + 3)) s
        (.at' ⟨text name value alternate ++ '\x7d' :: rest, start⟩) =
      .done (node name value alternate start) place ∧
    place.AtMark "\x7d" ⟨rest, start + (text name value alternate).byteLength + 1⟩ := by
  let last : Text := Quoted.encode alternate ++ '\x7d' :: rest
  let behind : Text := Quoted.encode value ++ ' ' :: ':' :: ' ' :: last
  have htext : text name value alternate ++ '\x7d' :: rest = name ++ ' ' :: '?' :: ' ' :: behind := by
    simp [text, behind, last]
  have hquestion := atMark_spaced '?' "?" (by decide) behind (start + name.byteLength)
  have hpoint : (next ⟨' ' :: behind, start + name.byteLength + 2⟩).token.isMark "." = false :=
    (next_encode between_space value (' ' :: ':' :: ' ' :: last) (start + name.byteLength + 2)).token_eq ▸ rfl
  have ends := endsName_space ('?' :: ' ' :: behind)
  obtain ⟨hopens, hsound⟩ := opens_variable between_nil hname ends start
  have hcolon := atMark_spaced ':' ":" (by decide) last
    (start + name.byteLength + 2 + 1 + (Quoted.encode value).byteLength)
  have hbrace := atMark_brace rest (start + name.byteLength + 2 + 1 + (Quoted.encode value).byteLength +
    2 + 1 + (Quoted.encode alternate).byteLength)
  have hconsequent := assignment_string hbudget depth (start + name.byteLength + 2)
    (endsOperand_colon last) hcolon (by decide)
  have halternate := assignment_string hbudget depth
    (start + name.byteLength + 2 + 1 + (Quoted.encode value).byteLength + 2)
    (fun offset => (closes_brace rest offset).endsOperand) hbrace (by decide)
  have hchoice := fun s : Surroundings =>
    conditionalExpression_of_choice (s := s) (g := Grammar.ofDepth budget (depth + 2))
      (binaryExpression_variable hname hbudget (depth + 1) start behind hpoint _) rfl hquestion
      (hconsequent _) hcolon (halternate _)
  have hassignment := assignment_of_conditional (s := s.fresh) (opensPlainly_of_opens hopens hsound)
    s.fresh.arrowStart (hchoice _) hbrace (by decide)
  have hfresh := freshExpression_of_assignment (g := Grammar.ofDepth budget (depth + 3))
    (s := s) hassignment (hbrace.isMark ",") hbudget
  have hfirst : (Place.at' ⟨name ++ ' ' :: '?' :: ' ' :: behind, start⟩).ahead.first = start :=
    (next_word between_nil hname.word ends start).first_eq
  have hstop : start + name.byteLength + 3 + (Quoted.encode value).byteLength + 3 +
      (Quoted.encode alternate).byteLength = start + (text name value alternate).byteLength := by
    rw [byteLength_text]
    omega
  rw [htext]
  refine ⟨_, hfresh.trans (congrArg (Outcome.done · _) ?_), hstop ▸ hbrace⟩
  rw [hfirst, node, ← hstop]
  rfl

end Choice

def Hole.ofChoice (name : Text) (hname : IsVariableName name) (value alternate : Text) : Hole where
  text := Choice.text name value alternate
  node := Choice.node name value alternate
  reads {budget depth} hbudget hlength hdepth start rest s := by
    have hthree : 3 ≤ (Choice.text name value alternate).length := by
      simp only [Choice.text, List.length_append, List.length_cons]
      omega
    obtain ⟨depth, rfl⟩ := Nat.exists_eq_add_of_le' (by omega : 3 ≤ depth)
    exact Choice.reads name value alternate hname hbudget start rest s
  contained start :=
    .of_children rfl ((contained_nameNode name start start start).cons
      ((Choice.contained_stringNode value _ start start).cons
        (Choice.contained_stringNode alternate _ start _) (Nat.le_add_right _ _) (Nat.le_refl _))
      (Nat.le_add_right _ _) (Nat.le_refl _))
  alike holds holds' := by
    obtain ⟨hname, hvalue, halternate⟩ := Choice.holds_parts name value alternate holds
    obtain ⟨hname', hvalue', halternate'⟩ := Choice.holds_parts name value alternate holds'
    refine Node.alike_mk_iff.2 ⟨_, _, rfl, holds.textAt_eq.trans holds'.textAt_eq.symm, ?_⟩
    exact Node.allAlike_cons_iff.2 ⟨_, _, rfl, alike_nameNode hname hname',
      Node.allAlike_cons_iff.2 ⟨_, _, rfl, Choice.alike_stringNode hvalue hvalue',
        Node.allAlike_cons_iff.2 ⟨_, _, rfl, Choice.alike_stringNode halternate halternate',
          Node.allAlike_nil_iff.2 rfl⟩⟩⟩

/-! ## What is laid out -/

structure Hole.Laid (hole : Hole) : Prop where
  fills : ∀ {pass : Pass} {start : Nat}, pass.Holds start hole.text → pass.Fills hole.text (hole.node start)
  laidOut : ∀ {pass : Pass} {start : Nat}, pass.Holds start hole.text → (hole.node start).LaidOut pass
  templates : ∀ {pass : Pass} {start : Nat}, pass.Holds start hole.text →
    Node.AllLaidOut pass [hole.node start]

theorem Lexeme.IsWord.getLast?_ne {name : Text} (h : IsWord name) : name.getLast? ≠ some '\\' := by
  intro hlast
  have hpart := List.all_eq_true.1 h.part _ (List.mem_of_getLast? hlast)
  exact absurd hpart (by decide)

theorem loose_of_between {text : Text} (between : Between text) : text.Loose := by
  have hsolid : [Quoted.mark, mark, '\\'].all (fun c => isSolid c && !Skipped.endsGap c) = true := rfl
  intro c hc
  obtain ⟨hc, hends⟩ := Bool.and_eq_true_iff.1 (List.all_eq_true.1 hsolid c hc)
  constructor
  · intro hhead
    cases text with
    | nil => cases hhead
    | cons d rest =>
      cases hhead
      rw [not_solid_of_between between] at hc
      cases hc
  · intro hlast
    obtain ⟨marked, hskipped⟩ := skipped_of_between between
    rw [hskipped.endsGap_of_getLast?.2 c hlast] at hends
    cases hends

section
variable {pass : Pass} {start : Nat}

theorem loose_nil : Text.Loose [] := by decide

theorem loose_space : Text.Loose [' '] := by decide

theorem fills_of_textAt {text : Text} {node : Node} (h : pass.textAt node.span = text) :
    pass.Fills text node :=
  ⟨[], [], loose_nil, loose_nil, by rw [h, List.append_nil, List.nil_append]⟩

theorem laidOut_nameNode {name : Text} (hname : IsVariableName name) (holds : pass.Holds start name) :
    (nameNode name start).LaidOut pass := by
  refine .plain rfl ?_
  rw [holds.textAt_eq]
  exact hname.word.getLast?_ne

theorem laidOut_stringNode {value : Text} (holds : pass.Holds start (Quoted.encode value)) :
    (Choice.stringNode value start).LaidOut pass := by
  have hread := Quoted.readBody_encode value []
  rw [List.append_nil] at hread
  exact .string loose_nil (.inl rfl) holds.textAt_eq hread

end

namespace Hole

theorem laid_ofName {name : Text} (hname : IsVariableName name) : (ofName name hname).Laid where
  fills holds := fills_of_textAt holds.textAt_eq
  laidOut holds := laidOut_nameNode hname holds
  templates _ := nofun

theorem laid_ofChoice {name : Text} (hname : IsVariableName name) (value alternate : Text) :
    (ofChoice name hname value alternate).Laid where
  fills holds := fills_of_textAt holds.textAt_eq
  laidOut holds := by
    obtain ⟨htest, hvalue, halternate⟩ := Choice.holds_parts name value alternate holds
    have htext : Choice.text name value alternate = (name ++ [' ']) ++ '?' ::
        ([' '] ++ Quoted.encode value ++ [' ']) ++ ':' :: ([' '] ++ Quoted.encode alternate) := by
      simp [Choice.text]
    refine .conditional (holds.textAt_eq.trans htext) ?_ ?_ ?_ (laidOut_nameNode hname htest)
      (laidOut_stringNode hvalue) (laidOut_stringNode halternate)
    · exact ⟨[], [' '], loose_nil, loose_space, congrArg (· ++ [' ']) htest.textAt_eq.symm⟩
    · exact ⟨[' '], [' '], loose_space, loose_space,
        congrArg ([' '] ++ · ++ [' ']) hvalue.textAt_eq.symm⟩
    · refine ⟨[' '], [], loose_space, loose_nil, ?_⟩
      rw [List.append_nil]
      exact congrArg ([' '] ++ ·) halternate.textAt_eq.symm
  templates _ := nofun

/-! ## Templates of what is laid out -/

theorem forall₂_nodesOf {pass : Pass} : ∀ {more : List (Hole × Text)} {first : Text} {start : Nat},
    pass.Holds start (interleave first (sources more)) →
    List.Forall₂ (fun entry node => ∃ start, pass.Holds start entry.1.text ∧ node = entry.1.node start)
      more (nodesOf first more start)
  | [], _, _, _ => .nil
  | (hole, value) :: more, first, start, holds => by
    obtain ⟨hhole, hrest⟩ := holds_interleave holds
    exact .cons ⟨_, hhole, rfl⟩ (forall₂_nodesOf hrest)

theorem braided_interleave : ∀ (more : List (Hole × Text)) (first : Text),
    Braided ((first :: more.map Prod.snd).map chunkFor) (more.map fun entry => entry.1.text)
      (interleave first (sources more) ++ [mark])
  | [], first => .last (readChunk_escape_closed first [])
  | (hole, value) :: more, first => by
    have hread := readChunk_escape_expression first
      (hole.text ++ '\x7d' :: (interleave value (sources more) ++ [mark]))
    rw [← interleave_cons] at hread
    exact .cons hread (braided_interleave more value)

variable {first : Text} {more : List (Hole × Text)} {pass : Pass} {start : Nat}

theorem laidOut_templateNode (laid : ∀ entry ∈ more, entry.1.Laid)
    (holds : pass.Holds start (literal first (sources more))) :
    (Operand.templateNode first more start).LaidOut pass ∧
      Node.AllLaidOut pass [Operand.templateNode first more start] := by
  have hinside : pass.Holds (start + 1) (interleave first (sources more) ++ [mark]) :=
    @Pass.Holds.right _ _ [mark] _ holds
  have hnodes := (List.forall₂_and_left _ _).2 ⟨laid, forall₂_nodesOf hinside.left⟩
  have hall : ∀ node ∈ nodesOf first more (start + 1),
      node.LaidOut pass ∧ Node.AllLaidOut pass [node] := by
    intro node hnode
    obtain ⟨entry, -, hlaid, start, hentry, rfl⟩ := exists_of_forall₂ hnodes hnode
    exact ⟨hlaid.laidOut hentry, hlaid.templates hentry⟩
  have hfills :
      List.Forall₂ pass.Fills (more.map fun entry => entry.1.text) (nodesOf first more (start + 1)) := by
    refine List.forall₂_map_left_iff.2 (hnodes.imp ?_)
    rintro entry node ⟨hlaid, start, hentry, rfl⟩
    exact hlaid.fills hentry
  have hlaidOut : (Operand.templateNode first more start).LaidOut pass :=
    .template loose_nil holds.textAt_eq (braided_interleave more first) hfills fun node hnode =>
      (hall node hnode).1
  refine ⟨hlaidOut, fun chunks span inner htarget => ?_⟩
  rw [Node.allTargets_singleton] at htarget
  rcases List.mem_cons.1 htarget with heq | hmem
  · exact heq ▸ hlaidOut
  · exact Node.allLaidOut_iff.2 (fun node hnode => (hall node hnode).2) chunks span inner hmem

/-- A template that is embedded in turn. -/
theorem laid_ofHoles (lead : Gap) (laid : ∀ entry ∈ more, entry.1.Laid) :
    (ofOperand (.ofHoles lead first more)).Laid where
  fills holds := by
    refine ⟨lead.text, [], loose_of_between lead.between, loose_nil, ?_⟩
    rw [List.append_nil]
    exact congrArg (lead.text ++ ·) holds.right.textAt_eq.symm
  laidOut holds := (laidOut_templateNode laid holds.right).1
  templates holds := (laidOut_templateNode laid holds.right).2

end Hole

/-! ## Programs -/

namespace Statement

def Laid (statement : Statement) : Prop :=
  ∀ {pass : Pass} {start : Nat}, pass.Holds start statement.text → Node.AllLaidOut pass [statement.node start]

theorem laid_ofHoles (lead : Gap) (first : Text) {more : List (Hole × Text)}
    (laid : ∀ entry ∈ more, entry.1.Laid) (semicolon : Option Gap) :
    ((Operand.ofHoles lead first more).statement semicolon).Laid :=
  fun holds => by
    have hwritten := (Operand.ofHoles lead first more).holds_of_written holds
    exact Node.allLaidOut_of_children rfl (Hole.laidOut_templateNode laid hwritten.right).2

theorem allLaidOut_nodesOf {pass : Pass} : ∀ {statements : List Statement} {start : Nat},
    (∀ statement ∈ statements, statement.Laid) → pass.Holds start (textOf statements) →
    Node.AllLaidOut pass (nodesOf statements start)
  | [], _, _, _ => nofun
  | statement :: rest, start, laid, holds => by
    obtain ⟨hstatement, hrest⟩ := List.forall_mem_cons.1 laid
    have hnodes := allLaidOut_nodesOf hrest holds.right
    refine Node.allLaidOut_iff.2 (List.forall_mem_cons.2 ⟨hstatement holds.left, ?_⟩)
    exact Node.allLaidOut_iff.1 hnodes

variable {statements : List Statement} {behind code : Text} {file : Option String} {limit : Nat}

theorem laidOut_module (laid : ∀ statement ∈ statements, statement.Laid) (behind : Text) :
    (Module.mk (textOf statements ++ behind) (nodesOf statements 0)).LaidOut where
  nested := (contained_nodesOf statements 0).nested
  inPosition h := allLaidOut_nodesOf laid ⟨[], behind, rfl, rfl⟩ _ _ _ h.1

/-- No class list in simplified code can be simplified if all templates of the code are of this kind. -/
theorem isNormal_of_parted (between : Between behind) (parted : Parted statements)
    (hplain : Module.Plain (textOf statements ++ behind)) (laid : ∀ statement ∈ statements, statement.Laid)
    (h : simplifyTemplate code file limit = .ok (textOf statements ++ behind))
    {chunks : List Chunk} {span : Span} {inner : List Node}
    (hposition : (Module.mk (textOf statements ++ behind) (nodesOf statements 0)).InPosition
      (.mk (.template chunks) span inner)) : IsNormal chunks inner := by
  obtain ⟨m, hread, hnone⟩ := collectEdits_of_simplifyTemplate h
  cases (read_of_parted between parted hplain _).symm.trans hread
  exact (laidOut_module laid behind).isNormal hnone hposition

theorem isNormal_of_literal {first : Text} {more : List (Hole × Text)} (laid : ∀ entry ∈ more, entry.1.Laid)
    (h : simplifyTemplate code file limit = .ok (literal first (Hole.sources more))) :
    IsNormal ((first :: more.map Prod.snd).map chunkFor) (Hole.nodesOf first more 1) := by
  let statement := (Operand.ofHoles ⟨[], between_nil⟩ first more).statement none
  have htext : textOf [statement] ++ [] = literal first (Hole.sources more) := by
    simp [textOf, statement, Operand.statement, Operand.written, Operand.ofHoles]
  have hplain : Module.Plain (textOf [statement] ++ []) := by
    intro c hc
    rw [htext] at hc
    obtain rfl : mark = c := Option.some.inj hc
    decide
  rw [← htext] at h
  have hposition : (Module.mk (textOf [statement] ++ []) (nodesOf [statement] 0)).InPosition
      (Operand.templateNode first more 0) :=
    ⟨List.mem_cons_self, List.mem_append_left _ (List.contains_iff_mem.1 contains_classTemplatesOf)⟩
  exact isNormal_of_parted between_nil (List.isChain_singleton statement) hplain
    (List.forall_mem_singleton.2 (laid_ofHoles _ first laid none)) h hposition

set_option maxRecDepth 100000 in
example : IsNormal ([['a'], []].map chunkFor)
    (Hole.nodesOf ['a'] [(.ofChoice ['c'] (isVariableName_letter rfl) " b".toList [], [])] 1) :=
  @isNormal_of_literal "` a  $\x7bc && 'b'\x7d `".toList none 5 ['a']
    [(.ofChoice ['c'] (isVariableName_letter rfl) " b".toList [], [])]
    (List.forall_mem_singleton.2 (Hole.laid_ofChoice (isVariableName_letter rfl) _ _))
    (toOption_eq_some_iff.1 (by decide +kernel))

end Statement
end ClassWeave
