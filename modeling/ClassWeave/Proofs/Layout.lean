import ClassWeave.Proofs.Braiding
import ClassWeave.Proofs.Weighing
/-!
# Where the parts of an expression stand

The text of an expression is laid out as its tree says: the texts of its parts with marks, spaces
and comments between them. Then no part is heavier than the whole, and neither is the constant text
of a literal.
-/

namespace ClassWeave

open Text (isHeavy bulk heft Sealed)

/-! ## Around expressions -/

/-- Whether a text neither begins nor ends with a quote or a backslash, as spaces and comments do not. -/
def Text.Loose (text : Text) : Prop :=
  ∀ c ∈ [Quoted.mark, TemplateText.mark, '\\'], text.head? ≠ some c ∧ text.getLast? ≠ some c

instance (text : Text) : Decidable text.Loose :=
  List.decidableBAll _ [Quoted.mark, TemplateText.mark, '\\']

theorem Text.Loose.sealed {text : Text} (h : text.Loose) : Sealed text :=
  Text.sealed_of_getLast? text (h '\\' (by decide)).2

def Pass.Fills (pass : Pass) (hole : Text) (node : Node) : Prop :=
  ∃ before behind : Text, before.Loose ∧ behind.Loose ∧ hole = before ++ pass.textAt node.span ++ behind

def Shape.isPlain : Shape → Bool
  | .template _ | .parenthesized | .binary _ | .conditional | .literal (.string _) => false
  | _ => true

namespace Node

/-- Whether the text of an expression is laid out as its tree says. A token counts from the marked
comment in front of it. -/
inductive LaidOut (pass : Pass) : Node → Prop where
  | template {chunks : List Chunk} {span : Span} {inner : List Node}
      {front body : Text} {holes : List Text} (loose : front.Loose)
      (text : pass.textAt span = front ++ TemplateText.mark :: body) (braided : Braided chunks holes body)
      (fills : List.Forall₂ pass.Fills holes inner) (laidOut : ∀ node ∈ inner, LaidOut pass node) :
      LaidOut pass (.mk (.template chunks) span inner)
  | parenthesized {span : Span} {inner : Node} {front hole : Text} (loose : front.Loose)
      (text : pass.textAt span = front ++ '(' :: hole ++ [')'])
      (fills : pass.Fills hole inner) (laidOut : LaidOut pass inner) :
      LaidOut pass (.mk .parenthesized span [inner])
  | binary {operator : String} {span : Span} {left right : Node} {a b : Text}
      (known : operator ∈ Token.binaryOperators.map Prod.fst)
      (text : pass.textAt span = a ++ operator.toList ++ b) (left_fills : pass.Fills a left)
      (right_fills : pass.Fills b right) (left_laidOut : LaidOut pass left)
      (right_laidOut : LaidOut pass right) : LaidOut pass (.mk (.binary operator) span [left, right])
  | conditional {span : Span} {test value alternate : Node} {a b c : Text}
      (text : pass.textAt span = a ++ '?' :: b ++ ':' :: c) (test_fills : pass.Fills a test)
      (value_fills : pass.Fills b value) (alternate_fills : pass.Fills c alternate)
      (test_laidOut : LaidOut pass test) (value_laidOut : LaidOut pass value)
      (alternate_laidOut : LaidOut pass alternate) :
      LaidOut pass (.mk .conditional span [test, value, alternate])
  | string {value : Text} {span : Span} {quote : Char} {front body : Text} (loose : front.Loose)
      (quotes : quote = '\x22' ∨ quote = '\x27') (text : pass.textAt span = front ++ quote :: body ++ [quote])
      (read : Quoted.readBody quote (body ++ [quote]) = .ok (value, [])) :
      LaidOut pass (.mk (.literal (.string value)) span [])
  | plain {shape : Shape} {span : Span} {children : List Node} (isPlain : shape.isPlain = true)
      (ends : (pass.textAt span).getLast? ≠ some '\\') : LaidOut pass (.mk shape span children)

def mass (pass : Pass) (node : Node) : Nat := bulk (pass.textAt node.span)

end Node

variable {pass : Pass}

theorem Pass.Fills.sealed {hole : Text} {node : Node} (h : pass.Fills hole node)
    (hnode : Sealed (pass.textAt node.span)) :
    Sealed hole ∧ node.mass pass ≤ bulk hole := by
  obtain ⟨before, behind, hbefore, hbehind, rfl⟩ := h
  have hfront := hbefore.sealed.append hnode
  refine ⟨hfront.append hbehind.sealed, ?_⟩
  rw [hfront, hbefore.sealed]
  exact (Nat.le_add_left _ _).trans (Nat.le_add_right _ _)

theorem bulk_enclosed {hole : Text} (h : Sealed hole) :
    Sealed ('(' :: hole ++ [')']) ∧ bulk ('(' :: hole ++ [')']) = bulk hole := by
  have hopening : Sealed ('(' :: hole) := h.cons (by decide)
  refine ⟨hopening.append (Text.sealed_nil.cons (by decide)), ?_⟩
  rw [hopening, Text.bulk_cons (by decide)]
  exact Nat.zero_add _

theorem sealed_operator {operator : String} (h : operator ∈ Token.binaryOperators.map Prod.fst) :
    Sealed operator.toList := by
  have hplain : ∀ operator ∈ Token.binaryOperators.map Prod.fst, '\\' ∉ operator.toList := by decide
  exact Text.sealed_of_plain (hplain operator h)

namespace Node.LaidOut

variable {node : Node}

theorem sealed (h : node.LaidOut pass) : Sealed (pass.textAt node.span) := by
  induction h with
  | template loose text braided fills _ ih =>
    have hholes : ∀ hole ∈ _, Sealed hole := fun hole hhole => by
      obtain ⟨inner, hinner, hfills⟩ := exists_of_forall₂ fills.flip hhole
      exact (Pass.Fills.sealed hfills (ih inner hinner)).1
    obtain ⟨inside, rfl, hinside, -⟩ := braided.exists_inside hholes
    rw [Node.span, text]
    exact loose.sealed.append ((hinside.append (Text.sealed_nil.cons (by decide))).cons (by decide))
  | parenthesized loose text fills _ ih =>
    rw [Node.span, text, List.append_assoc]
    exact loose.sealed.append (bulk_enclosed (fills.sealed ih).1).1
  | binary known text left_fills right_fills _ _ ihl ihr =>
    have hoperator := sealed_operator known
    rw [Node.span, text]
    exact ((left_fills.sealed ihl).1.append hoperator).append (right_fills.sealed ihr).1
  | conditional text test_fills value_fills alternate_fills _ _ _ iht ihv iha =>
    rw [Node.span, text]
    exact ((test_fills.sealed iht).1.append ((value_fills.sealed ihv).1.cons (by decide))).append
      ((alternate_fills.sealed iha).1.cons (by decide))
  | string _ quotes text _ =>
    rw [Node.span, text]
    refine Text.sealed_of_getLast? _ ?_
    rw [List.getLast?_append_cons]
    rcases quotes with rfl | rfl
    · decide
    · decide
  | plain _ ends => exact Text.sealed_of_getLast? _ ends

/-! ## Templates -/

section
variable {chunks : List Chunk} {span : Span} {inner : List Node}

theorem of_template (h : (Node.mk (.template chunks) span inner).LaidOut pass) : ∃ front body holes,
    front.Loose ∧ pass.textAt span = front ++ TemplateText.mark :: body ∧ Braided chunks holes body ∧
      List.Forall₂ (fun node hole => node.LaidOut pass ∧ pass.Fills hole node) inner holes := by
  cases h with
  | template loose text braided fills laidOut =>
    exact ⟨_, _, _, loose, text, braided, (List.forall₂_and_left _ _).2 ⟨laidOut, fills.flip⟩⟩
  | plain isPlain _ => cases isPlain

theorem sealed_of_forall₂ {holes : List Text}
    (h : List.Forall₂ (fun node hole => node.LaidOut pass ∧ pass.Fills hole node) inner holes)
    {hole : Text} (hhole : hole ∈ holes) : Sealed hole := by
  obtain ⟨node, -, hlaidOut, hfills⟩ := exists_of_forall₂ h hhole
  exact (hfills.sealed hlaidOut.sealed).1

theorem length_of_template (h : (Node.mk (.template chunks) span inner).LaidOut pass) :
    chunks.length = inner.length + 1 := by
  obtain ⟨front, body, holes, -, -, hbraided, hholes⟩ := h.of_template
  rw [hbraided.length_eq, hholes.length_eq]

/-- The characters and expressions of a template are no heavier than what stands between its backquotes. -/
theorem exists_inside (h : (Node.mk (.template chunks) span inner).LaidOut pass) :
    ∃ front inside : Text, front.Loose ∧
    pass.textAt span = front ++ TemplateText.mark :: (inside ++ [TemplateText.mark]) ∧ Sealed inside ∧
      tally (Node.mass pass) (weave chunks inner) ≤ bulk inside := by
  obtain ⟨front, body, holes, hfront, htext, hbraided, hholes⟩ := h.of_template
  obtain ⟨inside, rfl, hinside, hle⟩ := hbraided.exists_inside fun _ => sealed_of_forall₂ hholes
  have hweave :=
    tally_le_of_forall₂ (fun _ _ hhole => (hhole.2.sealed hhole.1.sealed).2) (weave_forall₂ chunks hholes)
  exact ⟨front, inside, hfront, htext, hinside, hweave.trans hle⟩

theorem bulk_marked {front inside : Text} (hfront : front.Loose) (h : Sealed inside) :
    bulk (front ++ TemplateText.mark :: (inside ++ [TemplateText.mark])) = bulk front + bulk inside := by
  rw [hfront.sealed, Text.bulk_cons (by decide), h]
  exact congrArg _ (Nat.zero_add _)

end

/-! ## Parts of an expression -/

theorem unparenthesized (h : node.LaidOut pass) :
    node.unparenthesized.LaidOut pass ∧ node.unparenthesized.mass pass ≤ node.mass pass := by
  fun_induction Node.unparenthesized node with
  | case1 span inner ih =>
    cases h with
    | parenthesized loose text fills laidOut =>
      obtain ⟨hlaidOut, hle⟩ := ih laidOut
      obtain ⟨hsealed, hhole⟩ := fills.sealed laidOut.sealed
      refine ⟨hlaidOut, hle.trans (hhole.trans ?_)⟩
      rw [mass, Node.span, text, List.append_assoc, loose.sealed]
      exact (Nat.le_of_eq (bulk_enclosed hsealed).2.symm).trans (Nat.le_add_left _ _)
    | plain isPlain _ => cases isPlain
  | case2 node hnode => exact ⟨h, Nat.le_refl _⟩

theorem of_binary {operator : String} {span : Span} {left right : Node}
    (h : (Node.mk (.binary operator) span [left, right]).LaidOut pass) :
    left.LaidOut pass ∧ right.LaidOut pass ∧
      left.mass pass + bulk operator.toList + right.mass pass ≤ bulk (pass.textAt span) := by
  cases h with
  | binary known text left_fills right_fills left_laidOut right_laidOut =>
    obtain ⟨ha, hleft⟩ := left_fills.sealed left_laidOut.sealed
    obtain ⟨-, hright⟩ := right_fills.sealed right_laidOut.sealed
    refine ⟨left_laidOut, right_laidOut, ?_⟩
    rw [text, ha.append (sealed_operator known), ha]
    omega
  | plain isPlain _ => cases isPlain

theorem of_conditional {span : Span} {test value alternate : Node}
    (h : (Node.mk .conditional span [test, value, alternate]).LaidOut pass) :
    test.LaidOut pass ∧ value.LaidOut pass ∧
      test.mass pass + value.mass pass ≤ bulk (pass.textAt span) := by
  cases h with
  | @conditional _ _ _ _ a b c text test_fills value_fills alternate_fills
      test_laidOut value_laidOut alternate_laidOut =>
    obtain ⟨ha, htest⟩ := test_fills.sealed test_laidOut.sealed
    obtain ⟨hb, hvalue⟩ := value_fills.sealed value_laidOut.sealed
    refine ⟨test_laidOut, value_laidOut, ?_⟩
    have hquestion : bulk ('?' :: b) = bulk b := (Text.bulk_cons (by decide) b).trans (Nat.zero_add _)
    rw [text, ha.append (hb.cons (by decide)), ha, hquestion]
    omega
  | plain isPlain _ => cases isPlain

theorem withoutTrail (h : node.LaidOut pass) :
    node.withoutTrail.LaidOut pass ∧ node.withoutTrail.mass pass ≤ node.mass pass := by
  fun_cases Node.withoutTrail node with
  | case1 span left right hright =>
    obtain ⟨hleft, -, hle⟩ := h.of_binary
    exact ⟨hleft, Nat.le_trans (by omega) hle⟩
  | case2 span left right hright => exact ⟨h, Nat.le_refl _⟩
  | case3 node hnode => exact ⟨h, Nat.le_refl _⟩

theorem withoutLead (h : node.LaidOut pass) :
    node.withoutLead.LaidOut pass ∧ node.withoutLead.mass pass ≤ node.mass pass := by
  fun_cases Node.withoutLead node with
  | case1 span left right hleft =>
    obtain ⟨-, hright, hle⟩ := h.of_binary
    exact ⟨hright, Nat.le_trans (by omega) hle⟩
  | case2 span left right hleft => exact ⟨h, Nat.le_refl _⟩
  | case3 node hnode => exact ⟨h, Nat.le_refl _⟩

theorem unpadded (h : node.LaidOut pass) :
    node.unpadded.LaidOut pass ∧ node.unpadded.mass pass ≤ node.mass pass := by
  obtain ⟨hbare, hle⟩ := h.unparenthesized
  obtain ⟨htrail, hle'⟩ := hbare.withoutTrail
  obtain ⟨hlead, hle''⟩ := htrail.withoutLead
  exact ⟨hlead, hle''.trans (hle'.trans hle)⟩

theorem heft_constantText? (h : node.LaidOut pass) {text : Text}
    (hconstant : node.constantText? = some text) :
    heft text ≤ node.mass pass := by
  obtain ⟨hbare, hle⟩ := h.unparenthesized
  refine Nat.le_trans ?_ hle
  unfold Node.constantText? at hconstant
  generalize node.unparenthesized = bare at hbare hconstant ⊢
  split at hconstant
  · rename_i value span children
    cases hbare with
    | @string value _ quote front body loose quotes htext read =>
      cases hconstant
      rw [Node.mass, Node.span, htext, List.append_assoc, loose.sealed]
      refine (Quoted.heft_readBody read).trans (Nat.le_trans ?_ (Nat.le_add_left _ _))
      have hquote : quote ≠ '\\' := by rcases quotes with rfl | rfl <;> decide
      rw [List.cons_append, Text.bulk_cons hquote]
      exact Nat.le_add_left _ _
    | plain isPlain _ =>
      rw [Literal.heft_text? hconstant fun value heq => by rw [heq] at isPlain; cases isPlain]
      exact Nat.zero_le _
  · rename_i chunks span
    cases hconstant
    obtain ⟨front, inside, hfront, htext, hinside, hle⟩ := hbare.exists_inside
    obtain ⟨chunk, rfl⟩ := List.length_eq_one_iff.1 hbare.length_of_template
    rw [weave, weave, List.append_nil, tally_chars] at hle
    rw [Node.mass, Node.span, htext, bulk_marked hfront hinside]
    exact hle.trans (Nat.le_add_left _ _)
  · cases hconstant

/-- The test and the value of a conditional are no heavier than it; the operator of `test && value`
counts too. -/
theorem of_standing (h : node.LaidOut pass) {test value : Node}
    (hstanding : node.standing = .conditional test value) :
    test.LaidOut pass ∧ value.LaidOut pass ∧
    test.mass pass + value.mass pass + node.isAnd.toNat ≤ node.mass pass := by
  obtain ⟨hbare, hle⟩ := h.unparenthesized
  rcases Node.unparenthesized_of_conditional hstanding with ⟨span, hnode⟩ | ⟨span, alternate, hnode, -⟩
  · have hand : node.isAnd = true := by
      unfold Node.isAnd
      rw [hnode]
      rfl
    have hoperator : bulk "&&".toList = 2 := by decide
    rw [hnode] at hbare hle
    obtain ⟨htest, hvalue, hsum⟩ := hbare.of_binary
    refine ⟨htest, hvalue, ?_⟩
    rw [hand, Bool.toNat_true]
    rw [Node.mass, Node.span] at hle
    omega
  · have hand : node.isAnd = false := by
      unfold Node.isAnd
      rw [hnode]
    rw [hnode] at hbare hle
    obtain ⟨htest, hvalue, hsum⟩ := hbare.of_conditional
    refine ⟨htest, hvalue, ?_⟩
    rw [hand, Bool.toNat_false, Nat.add_zero]
    exact hsum.trans hle

end Node.LaidOut
end ClassWeave
