import ClassWeave.ClassList.Render
import ClassWeave.Proofs.Gluing
import ClassWeave.Proofs.OperandReading
/-!
# Conditionals of class lists

How a conditional of a class list is read, and what it shows: its value between the spaces that it
brings if its test holds, and the space of its other branch if not.
-/

namespace ClassWeave

open Lexeme

/-! ## What is shown -/

/-- What tests and expressions come to, each where it stands. -/
structure Valuation where
  holds : Node → Bool
  shows : Node → Text

namespace Node

def isString (node : Node) : Bool :=
  match node.shape with
  | .literal (.string _) => true
  | _ => false

variable (valuation : Valuation)

mutual

/-- The text that an expression shows in a template. A sum shows its operands if one of them is a
string literal. -/
def shown : Node → Text
  | .mk (.literal (.string value)) _ _ => value
  | .mk (.template chunks) _ inner => valueOf id (weave chunks (allShown inner))
  | .mk .parenthesized _ [inner] => shown inner
  | .mk (.binary "+") span [left, right] =>
    if left.isString || right.isString then shown left ++ shown right
    else valuation.shows (.mk (.binary "+") span [left, right])
  | .mk .conditional _ [test, consequent, alternate] =>
    if valuation.holds test then shown consequent else shown alternate
  | .mk shape span children => valuation.shows (.mk shape span children)

def allShown : List Node → List Text
  | [] => []
  | node :: rest => shown node :: allShown rest

end

theorem allShown_eq (nodes : List Node) : allShown valuation nodes = nodes.map (shown valuation) := by
  induction nodes with
  | nil => rfl
  | cons node rest ih => exact congrArg (shown valuation node :: ·) ih

@[simp] theorem shown_string (value : Text) (span : Span) (children : List Node) :
    (mk (.literal (.string value)) span children).shown valuation = value := by rw [shown]

theorem shown_template (chunks : List Chunk) (span : Span) (inner : List Node) :
    (mk (.template chunks) span inner).shown valuation = valueOf (shown valuation) (weave chunks inner) := by
  rw [shown, allShown_eq, weave_map, valueOf, valueOf, List.flatMap_map]
  refine congrArg (List.flatMap · _) (funext fun piece => ?_)
  cases piece <;> rfl

theorem shown_sum {left right : Node} (span : Span) (h : (left.isString || right.isString) = true) :
    (mk (.binary "+") span [left, right]).shown valuation =
      left.shown valuation ++ right.shown valuation := by
  rw [shown, if_pos h]

end Node

/-! ## The value of a conditional -/

def behindValue (lead trail : Bool) (rest : Text) : Text :=
  (if trail then " + \" \"".toList else []) ++ " : ".toList ++
    Quoted.encode (space (lead && trail)) ++ '\x7d' :: rest

open Reader

namespace Grammar

/-- Whether a source is found as a test in front of a question mark that an expression follows. -/
structure FindsTest (g : Grammar) (s : Surroundings) (expected : Node → Prop) (source : Text) : Prop where
  opens : ∀ offset rest, (Place.at' ⟨source ++ ' ' :: '?' :: ' ' :: rest, offset⟩).OpensPlainly g s
  finds : ∀ offset rest, (∀ offset, (next ⟨' ' :: rest, offset⟩).token.isMark "." = false) →
    ∃ test behind, expected test ∧ test.isArrow = false ∧
      binaryExpression g
        { s with arrowStart := (Place.at' ⟨source ++ ' ' :: '?' :: ' ' :: rest, offset⟩).arrowStart }
        (.at' ⟨source ++ ' ' :: '?' :: ' ' :: rest, offset⟩) = .done test behind ∧
      behind.AtMark "?" ⟨' ' :: rest, offset + source.byteLength + 2⟩

/-- Whether a source is found as an operand in front of what stands behind the value of a
conditional. An arrow function may begin there only if no space is added in front. -/
structure FindsValue (g : Grammar) (s : Surroundings) (expected : Node → Prop) (source : Text) : Prop where
  opens : ∀ trail offset rest,
    (Place.at' ⟨' ' :: (source ++ behindValue false trail rest), offset⟩).OpensPlainly g s
  finds : ∀ lead trail offset rest, ∃ value behind, expected value ∧ value.isArrow = false ∧
    g.operand { s with arrowStart :=
        if lead then none
          else (Place.at' ⟨' ' :: (source ++ behindValue lead trail rest), offset⟩).arrowStart }
      (.at' ⟨' ' :: (source ++ behindValue lead trail rest), offset⟩) = .done value behind ∧
    behind.AtMark (if trail then "+" else ":")
      ⟨(behindValue lead trail rest).drop 2, offset + 1 + source.byteLength + 2⟩

end Grammar

variable {budget : Nat} {s : Surroundings}

theorem weak_trailing (trail : Bool) : (if trail then "+" else ":") ≠ "\x60" ∧
    ∀ found ∈ (Token.mark (if trail then "+" else ":")).binaryOperator?, found.2 ≤ 9 := by
  cases trail <;> decide

theorem exists_trailed (hbudget : 0 < budget) (depth fuel : Nat)
    (lead trail : Bool) (rest : Text) (value : Node) {place : Place} {offset : Nat}
    (h : place.AtMark (if trail then "+" else ":") ⟨(behindValue lead trail rest).drop 2, offset⟩) :
    ∃ whole behind, operation (Grammar.ofDepth budget (depth + 1)) (fuel + 2) value 0 s place =
      .done whole behind ∧
      behind.AtMark ":" ⟨' ' :: (Quoted.encode (space (lead && trail)) ++ '\x7d' :: rest),
        offset + (if trail then 6 else 0)⟩ ∧
      ∀ valuation, whole.shown valuation = value.shown valuation ++ space trail := by
  cases trail with
  | false =>
    refine ⟨value, place, operation_of_atMark h (by decide) (by decide) (Nat.succ_pos _),
      h, fun valuation => ?_⟩
    exact (List.append_nil _).symm
  | true =>
    have hmore : (behindValue lead true rest).drop 2 = [' '] ++ (Quoted.encode [' '] ++ ' ' :: ':' :: ' ' ::
        (Quoted.encode (space (lead && true)) ++ '\x7d' :: rest)) := rfl
    obtain ⟨span, hspace⟩ := exists_operand_encode between_space [' '] _ hbudget depth offset
      (endsOperand_colon (Quoted.encode (space (lead && true)) ++ '\x7d' :: rest))
    have hcolon := atMark_spaced ':' ":" (by decide) (Quoted.encode (space (lead && true)) ++ '\x7d' :: rest)
      (offset + Text.byteLength [' '] + (Quoted.encode [' ']).byteLength)
    rw [← hmore] at hspace
    have hsum :=
      operation_of_plus (g := Grammar.ofDepth budget (depth + 1)) value h (Nat.succ_pos 8) (hspace s)
        (operation_of_atMark hcolon (by decide) (by decide) (Nat.succ_pos fuel))
    refine ⟨_, _, hsum.trans (operation_of_atMark hcolon (by decide) (by decide) (Nat.succ_pos fuel)),
      hcolon, fun valuation => ?_⟩
    rw [Node.shown_sum _ _ (Bool.or_true _), Node.shown_string]
    rfl

def branchSource (value : Branch) (lead trail : Bool) : Text :=
  match value with
  | .text text => Quoted.encode (space lead ++ text ++ space trail)
  | .expression source =>
    (if lead then "\" \" + ".toList else []) ++ source ++ (if trail then " + \" \"".toList else [])

theorem byteLength_branchSource (source : Text) (lead trail : Bool) :
    (branchSource (.expression source) lead trail).byteLength =
    (if lead then 6 else 0) + source.byteLength + (if trail then 6 else 0) := by
  have hlead : Text.byteLength (if lead then "\" \" + ".toList else []) = if lead then 6 else 0 := by
    cases lead <;> rfl
  have htrail : Text.byteLength (if trail then " + \" \"".toList else []) = if trail then 6 else 0 := by
    cases trail <;> rfl
  rw [branchSource, Text.byteLength_append, Text.byteLength_append, hlead, htrail]

section
variable {β : Type} (g : Grammar) (s : Surroundings) (same : β → Node → Prop)

inductive Branch.StandsFor : Branch → Text ⊕ β → Prop
  | text (text : Text) : StandsFor (.text text) (.inl text)
  | expression {source : Text} {expression : β} : g.FindsValue s (same expression) source →
      StandsFor (.expression source) (.inr expression)

end

def Valuation.Agrees {β : Type} (valuation : Valuation) (same : β → Node → Prop)
    (holds : β → Bool) (shows : β → Text) : Prop :=
  ∀ expression node, same expression node →
    valuation.holds node = holds expression ∧ node.shown valuation = shows expression

variable {β : Type} {same : β → Node → Prop}

/-- Whether the value of a conditional is read between its two marks, and shows a content with the
spaces around it. -/
def Branch.IsRead (value : Branch) (g : Grammar) (s : Surroundings)
    (same : β → Node → Prop) (content : Text ⊕ β) (lead trail : Bool) (rest : Text) (offset : Nat) : Prop :=
  ∃ consequent behind,
    assignmentExpression g s (.at' ⟨' ' :: (branchSource value lead trail ++ " : ".toList ++
      (Quoted.encode (space (lead && trail)) ++ '\x7d' :: rest)), offset⟩) = .done consequent behind ∧
    behind.AtMark ":" ⟨' ' :: (Quoted.encode (space (lead && trail)) ++ '\x7d' :: rest),
      offset + 1 + (branchSource value lead trail).byteLength + 2⟩ ∧
    ∀ valuation holds shows, valuation.Agrees same holds shows →
      consequent.shown valuation = space lead ++ content.elim id shows ++ space trail

theorem branchSource_expression (source : Text) (lead trail : Bool) (rest : Text) :
    branchSource (.expression source) lead trail ++ " : ".toList ++
      (Quoted.encode (space (lead && trail)) ++ '\x7d' :: rest) =
      (if lead then "\" \" + ".toList else []) ++ (source ++ behindValue lead trail rest) := by
  simp only [branchSource, behindValue, List.append_assoc]

theorem isRead_text (hbudget : 0 < budget) (depth : Nat) (text : Text)
    (lead trail : Bool) (rest : Text) (offset : Nat) (arrowStart : Option Nat) :
    (Branch.text text).IsRead (Grammar.ofDepth budget (depth + 1)) { s with arrowStart } same (.inl text)
      lead trail rest offset := by
  have hmark := atMark_spaced ':' ":" (by decide) (Quoted.encode (space (lead && trail)) ++ '\x7d' :: rest)
    (offset + Text.byteLength [' '] + (Quoted.encode (space lead ++ text ++ space trail)).byteLength)
  have htoken := (next_encode between_space (space lead ++ text ++ space trail)
    (' ' :: ':' :: ' ' :: (Quoted.encode (space (lead && trail)) ++ '\x7d' :: rest)) offset).token_eq
  obtain ⟨span, hread⟩ :=
    exists_operand_encode between_space (space lead ++ text ++ space trail) _ hbudget depth offset
      (endsOperand_colon (Quoted.encode (space (lead && trail)) ++ '\x7d' :: rest))
  have hread := assignment_of_operation (s := s) (opensPlainly_of_string htoken) arrowStart (hread _) rfl
    (operation_of_atMark hmark (by decide) (by decide) hbudget) hmark (by decide) (by decide)
  rw [Branch.IsRead, branchSource, List.append_assoc]
  exact ⟨_, _, hread, hmark, fun valuation holds shows _ => Node.shown_string _ _ _ _⟩

variable {source : Text} {expression : β}

theorem isRead_bare (hbudget : 2 ≤ budget) (depth : Nat)
    (hfinds : (Grammar.ofDepth budget (depth + 1)).FindsValue s (same expression) source)
    (trail : Bool) (rest : Text) (offset : Nat) (arrowStart : Option Nat) :
    (Branch.expression source).IsRead (Grammar.ofDepth budget (depth + 1)) { s with arrowStart } same
      (.inr expression) false trail rest offset := by
  obtain ⟨fuel, rfl⟩ : ∃ fuel, budget = fuel + 2 := ⟨budget - 2, by omega⟩
  obtain ⟨value, place, hexpected, harrow, hread, hmark⟩ := hfinds.finds false trail offset rest
  obtain ⟨whole, behind, hwhole, hbehind, hshown⟩ :=
    exists_trailed (Nat.succ_pos (fuel + 1)) depth fuel false trail rest value hmark (s :=
      { s with
        arrowStart := (Place.at' ⟨' ' :: (source ++ behindValue false trail rest), offset⟩).arrowStart })
  have hread :=
    assignment_of_operation (hfinds.opens trail offset rest) arrowStart hread harrow hwhole hbehind
      (by decide) (by decide)
  have hstop : offset + 1 + source.byteLength + 2 + (if trail then 6 else 0) =
      offset + 1 + (branchSource (.expression source) false trail).byteLength + 2 := by
    rw [byteLength_branchSource, if_neg Bool.false_ne_true]
    omega
  rw [Branch.IsRead, branchSource_expression, ← hstop]
  refine ⟨whole, behind, hread, hbehind, fun valuation holds shows agrees => ?_⟩
  rw [hshown, (agrees expression value hexpected).2]
  rfl

theorem isRead_led (hbudget : 3 ≤ budget) (depth : Nat)
    (hfinds : (Grammar.ofDepth budget (depth + 1)).FindsValue s (same expression) source)
    (trail : Bool) (rest : Text) (offset : Nat) (arrowStart : Option Nat) :
    (Branch.expression source).IsRead (Grammar.ofDepth budget (depth + 1)) { s with arrowStart } same
      (.inr expression) true trail rest offset := by
  obtain ⟨fuel, rfl⟩ : ∃ fuel, budget = fuel + 3 := ⟨budget - 3, by omega⟩
  -- The string literal in front takes the place of the operand, which no arrow function begins with any more.
  have hplus := atMark_spaced '+' "+" (by decide) (source ++ behindValue true trail rest)
    (offset + Text.byteLength [' '] + (Quoted.encode [' ']).byteLength)
  have htoken :=
    (next_encode between_space [' '] (' ' :: '+' :: ' ' :: (source ++ behindValue true trail rest))
      offset).token_eq
  obtain ⟨span, hspace⟩ := exists_operand_encode between_space [' '] _ (Nat.succ_pos (fuel + 2)) depth offset
    (endsOperand_plus (source ++ behindValue true trail rest))
  obtain ⟨value, place, hexpected, -, hread, hmark⟩ := hfinds.finds true trail
    (offset + Text.byteLength [' '] + (Quoted.encode [' ']).byteLength + 2) rest
  rw [if_pos rfl] at hread
  obtain ⟨hplain, hstrength⟩ := weak_trailing trail
  have hsum := operation_of_plus (.mk (.literal (.string [' '])) span []) hplus (Nat.succ_pos 8) hread
    (operation_of_atMark hmark hplain hstrength (Nat.succ_pos (fuel + 1)))
  obtain ⟨whole, behind, hwhole, hbehind, hshown⟩ :=
    exists_trailed (Nat.succ_pos (fuel + 2)) depth fuel true trail rest
      (.mk (.binary "+") ⟨span.start, value.span.stop⟩ [.mk (.literal (.string [' '])) span [], value]) hmark
      (s := { s with arrowStart := none })
  have hread := assignment_of_operation (s := s) (opensPlainly_of_string htoken) arrowStart (hspace _) rfl
    (by rw [arrowStart_of_string htoken]; exact hsum.trans hwhole) hbehind (by decide) (by decide)
  have hspaces : Text.byteLength [' '] = 1 ∧ (Quoted.encode [' ']).byteLength = 3 := by decide
  have hstop : offset + Text.byteLength [' '] + (Quoted.encode [' ']).byteLength +
    2 + 1 + source.byteLength + 2 +
      (if trail then 6 else 0) =
        offset + 1 + (branchSource (.expression source) true trail).byteLength + 2 := by
    rw [byteLength_branchSource, if_pos rfl, hspaces.1, hspaces.2]
    omega
  rw [Branch.IsRead, branchSource_expression, ← hstop]
  refine ⟨whole, behind, hread, hbehind, fun valuation holds shows agrees => ?_⟩
  rw [hshown, Node.shown_sum _ _ rfl, Node.shown_string, (agrees expression value hexpected).2]
  rfl

theorem Branch.StandsFor.isRead (hbudget : 3 ≤ budget) {depth : Nat} {value : Branch} {content : Text ⊕ β}
    (hvalue : value.StandsFor (Grammar.ofDepth budget (depth + 1)) s same content)
    (lead trail : Bool) (rest : Text) (offset : Nat) (arrowStart : Option Nat) :
    value.IsRead (Grammar.ofDepth budget (depth + 1)) { s with arrowStart }
      same content lead trail rest offset := by
  cases hvalue with
  | text text => exact isRead_text (by omega) depth text lead trail rest offset arrowStart
  | expression hfinds =>
    cases lead with
    | false => exact isRead_bare (by omega) depth hfinds trail rest offset arrowStart
    | true => exact isRead_led hbudget depth hfinds trail rest offset arrowStart

/-! ## The conditional -/

def choiceSource (test : Text) (value : Branch) (lead trail : Bool) : Text :=
  test ++ " ? ".toList ++ branchSource value lead trail ++ " : ".toList ++
    Quoted.encode (space (lead && trail))

theorem byteLength_choiceSource (test : Text) (value : Branch) (lead trail : Bool) :
    (choiceSource test value lead trail).byteLength =
      test.byteLength + 3 + (branchSource value lead trail).byteLength +
        3 + (Quoted.encode (space (lead && trail))).byteLength := by
  have hasks : Text.byteLength " ? ".toList = 3 ∧ Text.byteLength " : ".toList = 3 := by decide
  simp only [choiceSource, Text.byteLength_append, hasks]

theorem renderConditional_eq (test : Text) (value : Branch) (lead trail : Bool) :
    renderConditional test value lead trail = embedded (choiceSource test value lead trail) := by
  cases value <;> rfl

def Surroundings.consequent (around : Surroundings) : Surroundings :=
  { around.fresh with inConditional := true, colonAhead := true, allowIn := true }

theorem not_point_of_operand {depth : Nat} {place place' : Place} {value : Node}
    (h : (Grammar.ofDepth budget (depth + 1)).operand s place = .done value place') :
    place.ahead.token.isMark "." = false := by
  by_contra hpoint
  have htoken : place.ahead.token = .mark "." := by
    cases htoken : place.ahead.token <;> simp_all [Token.isMark]
  have hfault : place.ahead.fault? = none := by simp [Lexeme.fault?, htoken]
  have hread : unaryExpression (Grammar.ofDepth budget depth) s place = .done value place' := h
  unfold unaryExpression postfixed leftHandSide memberExpression primary at hread
  simp [htoken, hfault, atElement, takeWord, Token.isWord, Token.isMark, markedExpression, fail] at hread

theorem not_point_branch {depth : Nat} {value : Branch} {content : Text ⊕ β}
    (hvalue : value.StandsFor (Grammar.ofDepth budget (depth + 1)) s same content)
    (lead trail : Bool) (rest : Text) (offset : Nat) :
    (next ⟨' ' :: (branchSource value lead trail ++ " : ".toList ++
      (Quoted.encode (space (lead && trail)) ++ '\x7d' :: rest)), offset⟩).token.isMark "." = false := by
  rw [List.append_assoc]
  cases hvalue with
  | text text =>
    have found := next_encode between_space (space lead ++ text ++ space trail)
      (" : ".toList ++ (Quoted.encode (space (lead && trail)) ++ '\x7d' :: rest)) offset
    exact congrArg (Token.isMark ".") found.token_eq
  | @expression source expression hfinds =>
    rw [← List.append_assoc, branchSource_expression]
    cases lead with
    | true =>
      have found :=
        next_encode between_space [' '] (" + ".toList ++ (source ++ behindValue true trail rest)) offset
      exact congrArg (Token.isMark ".") found.token_eq
    | false =>
      obtain ⟨_, _, _, _, hread, _⟩ := hfinds.finds false trail offset rest
      exact not_point_of_operand hread

/-- A conditional is found as the choice that it is: it shows its value with the spaces around it if
its test holds, and if not the space of its other branch. -/
theorem finds_choice (hbudget : 3 ≤ budget) {depth : Nat} {test : Text} {expression : β}
    (htest : (Grammar.ofDepth budget (depth + 2)).FindsTest s.fresh (same expression) test)
    {value : Branch} {content : Text ⊕ β}
    (hvalue : value.StandsFor (Grammar.ofDepth budget (depth + 1)) s.consequent same content)
    (lead trail : Bool) :
    (freshExpression (Grammar.ofDepth budget (depth + 3))).Finds s (fun node => ∀ valuation holds shows,
        valuation.Agrees same holds shows → node.shown valuation =
          if holds expression then space lead ++ content.elim id shows ++ space trail
            else space (lead && trail))
      (choiceSource test value lead trail) := by
  intro offset rest
  let alternate := Quoted.encode (space (lead && trail))
  let more := branchSource value lead trail ++ " : ".toList ++ (alternate ++ '\x7d' :: rest)
  have htext : choiceSource test value lead trail ++ '\x7d' :: rest = test ++ ' ' :: '?' :: ' ' :: more := by
    simp [choiceSource, more, alternate]
  obtain ⟨asked, place, hasked, harrow, hbinary, hquestion⟩ := htest.finds offset more
    fun offset => not_point_branch hvalue lead trail rest offset
  have hopens := htest.opens offset more
  obtain ⟨consequent, place', hconsequent, hcolon, hshown⟩ := hvalue.isRead hbudget lead trail rest
    (offset + test.byteLength + 2) (Place.at' ⟨test ++ ' ' :: '?' :: ' ' :: more, offset⟩).arrowStart
  have hbudget' : 0 < budget := by omega
  obtain ⟨span, halternate⟩ :=
    exists_assignment_encode between_space (space (lead && trail)) rest hbudget' depth
      (offset + test.byteLength + 2 + 1 + (branchSource value lead trail).byteLength + 2)
      { s.fresh with
        arrowStart := (Place.at' ⟨test ++ ' ' :: '?' :: ' ' :: more, offset⟩).arrowStart
        inConditional := true
        colonAhead := false }
  have hchoice := conditionalExpression_of_choice (g := Grammar.ofDepth budget (depth + 2))
    hbinary harrow hquestion hconsequent hcolon halternate
  have hbrace :=
    atMark_brace rest (offset + test.byteLength + 2 + 1 + (branchSource value lead trail).byteLength + 2 +
      Text.byteLength [' '] + (Quoted.encode (space (lead && trail))).byteLength)
  have hassignment := assignment_of_conditional hopens s.arrowStart hchoice hbrace (by decide)
  have hfresh := freshExpression_of_assignment (g := Grammar.ofDepth budget (depth + 3))
    (s := s) hassignment (hbrace.isMark ",") hbudget'
  rw [htext]
  refine ⟨_, _, fun valuation holds shows agrees => ?_, hfresh, ?_⟩
  · rw [Node.shown, (agrees expression asked hasked).1, hshown valuation holds shows agrees,
      Node.shown_string]
  · have hspace : Text.byteLength [' '] = 1 := rfl
    have hstop : offset + test.byteLength + 2 + 1 + (branchSource value lead trail).byteLength +
      2 + Text.byteLength [' '] +
        (Quoted.encode (space (lead && trail))).byteLength + 1 =
          offset + (choiceSource test value lead trail).byteLength + 1 := by
      rw [byteLength_choiceSource, hspace]
      omega
    exact hstop ▸ hbrace

/-! ## Variables -/

theorem endsName_behindValue (lead trail : Bool) (rest : Text) : EndsName (behindValue lead trail rest) := by
  cases trail with
  | false => exact endsName_space _
  | true => exact endsName_space _

theorem atMark_behindValue (lead trail : Bool) (rest : Text) (offset : Nat) :
    (Place.at' ⟨behindValue lead trail rest, offset⟩).AtMark
    (if trail then "+" else ":") ⟨(behindValue lead trail rest).drop 2, offset + 2⟩ := by
  cases trail with
  | false => exact atMark_spaced ':' ":" (by decide) _ offset
  | true => exact atMark_spaced '+' "+" (by decide) _ offset

theorem findsTest_variable {name : Text} (hname : IsVariableName name)
    (hbudget : 0 < budget) (depth : Nat) (s : Surroundings) :
    (Grammar.ofDepth budget (depth + 1)).FindsTest s (Node.IsVariable (String.ofList name)) name where
  opens offset rest := by
    obtain ⟨hopens, hsound⟩ := opens_variable between_nil hname (endsName_space ('?' :: ' ' :: rest)) offset
    exact opensPlainly_of_opens hopens hsound
  finds offset rest hpoint :=
    ⟨_, _, ⟨_, rfl⟩, rfl, binaryExpression_variable hname hbudget depth offset rest (hpoint _) _,
      atMark_spaced '?' "?" (by decide) rest (offset + name.byteLength)⟩

theorem findsValue_variable {name : Text} (hname : IsVariableName name)
    (hbudget : 0 < budget) (depth : Nat) (s : Surroundings) :
    (Grammar.ofDepth budget (depth + 1)).FindsValue s (Node.IsVariable (String.ofList name)) name where
  opens trail offset rest := by
    obtain ⟨hopens, hsound⟩ :=
      opens_variable between_space hname (endsName_behindValue false trail rest) offset
    exact opensPlainly_of_opens hopens hsound
  finds lead trail offset rest := by
    have ends := endsName_behindValue lead trail rest
    have hmark := atMark_behindValue lead trail rest (offset + 1 + name.byteLength)
    have hends := hmark.endsOperand (by cases trail <;> decide) (by cases trail <;> nofun)
    have hoperand :=
      fun s => unaryExpression_of_leftHandSide (s := s) (opens_variable between_space hname ends offset).1
        (leftHandSide_variable between_space hname ends hbudget
          depth offset hmark (by cases trail <;> decide) hends s) hends rfl
    exact ⟨_, _, ⟨_, rfl⟩, rfl, hoperand _, hmark⟩

end ClassWeave
