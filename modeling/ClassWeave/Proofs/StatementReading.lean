import ClassWeave.Proofs.Reading
/-!
# Statements that are read

Expressions that are statements of their own, one behind another up to the end of a module.
-/

namespace ClassWeave
namespace Reader

variable {s : Surroundings} {place : Place} {g : Grammar} {inner : Node}

def CallsAhead (place : Place) : Prop :=
  ∀ {name escaped}, place.ahead.token = .word name escaped → (Lexeme.next place.ahead.stop).token = .mark "("

theorem controlStatement?_of_variable {start : Nat} {name : String} (hname : Token.IsVariable name) :
    controlStatement? g start name s place = .done none place := by
  unfold controlStatement?
  split
  all_goals first
    | exact absurd rfl (hname.ne _ (by decide))
    | rfl

theorem declaration?_of_variable {start : Nat} {decoration : List Node}
    {name : String} (hname : Token.IsVariable name) (h : place.ahead.token = .word name false)
    (hparen : (Lexeme.next place.ahead.stop).token = .mark "(") :
    declaration? g .moduleItem start decoration name s place = .done none place := by
  unfold declaration?
  simp only [run_bind, run_second]
  split
  all_goals first
    | exact absurd rfl (hname.ne _ (by decide))
    | skip
  · simp [atAsyncFunction, hparen, Token.isWord]
  · simp [resources?, hparen, Token.isReference]
  · have hvar : (Token.word name false).isWord "var" = false := beq_eq_false_iff_ne.2 (hname.ne _ (by decide))
    have hconst : (Token.word name false).isWord "const" = false :=
      beq_eq_false_iff_ne.2 (hname.ne _ (by decide))
    have hkind : variableKind? s place = .done none place := by
      simp [variableKind?, h, hvar, hconst, hparen, Token.isName, Token.isMark]
    simp [hkind]

/-- How a statement ends: at the end of the text, with a semicolon, or in front of a line that goes
on with nothing. -/
inductive StatementEnd : Place → Place → Prop
  | text {place : Place} : place.ahead.token = .endOfText → StatementEnd place place
  | semicolon {place : Place} : place.ahead.token = .mark ";" → StatementEnd place (.at' place.ahead.stop)
  | line {place : Place} : place.ahead.onNewLine = true → place.ahead.token.Only [] → StatementEnd place place

theorem StatementEnd.closes {place place' : Place} (h : StatementEnd place place') :
    place.ahead.token.Closes := by
  cases h with
  | text h => exact h ▸ Token.closes_endOfText
  | semicolon h => exact h ▸ Token.closes_mark (by decide)
  | line _ h => exact h.mono (List.nil_subset _)

theorem StatementEnd.not_comma {place place' : Place} (h : StatementEnd place place') :
    place.ahead.token.isMark "," = false := by
  cases h with
  | text h => exact h ▸ rfl
  | semicolon h => exact h ▸ rfl
  | line _ h => exact h.mark _ List.not_mem_nil

theorem StatementEnd.take {place place' : Place} (h : StatementEnd place place') :
    takeStatementEnd s place = .done true place' := by
  cases h with
  | text h => simp [takeStatementEnd, takeMark, atStatementEnd, h, Token.isMark]
  | semicolon h => simp [takeStatementEnd, takeMark_of_eq h]
  | line hline h =>
    simp [takeStatementEnd, takeMark_of_not (h.mark ";" List.not_mem_nil), atStatementEnd, hline]

variable {behind place' : Place}

theorem expressionStatement_of_atom (start : Nat) (decoration : List Node)
    (hinner : freshExpression g s place = .done inner behind) (hatom : inner.shape.isAtom = true)
    (hname : ∀ name, inner.shape ≠ .identifier name) (hend : StatementEnd behind place') :
    expressionStatement g start decoration s place =
      .done (.mk .expressionStatement ⟨start, place'.lastEnd⟩ [inner]) place' := by
  obtain ⟨shape, span, children⟩ := inner
  unfold expressionStatement
  cases shape with
  | identifier name => exact absurd rfl (hname name)
  | literal _ | template _ | call _ => simp [hinner, Node.shape, hend.take, node]
  | _ => cases hatom

theorem plainStatement_of_atom (start : Nat) (decoration : List Node) (hopens : place.ahead.token.Opens)
    (hcalls : CallsAhead place) (hinner : freshExpression g s place = .done inner behind)
    (hatom : inner.shape.isAtom = true) (hname : ∀ name, inner.shape ≠ .identifier name)
    (hend : StatementEnd behind place') :
    plainStatement g .moduleItem start decoration s place =
      .done (.mk .expressionStatement ⟨start, place'.lastEnd⟩ [inner]) place' := by
  have hconst : place.ahead.token.isWord "const" = false := hopens.word_eq _ (by decide)
  have hstatement := expressionStatement_of_atom start decoration hinner hatom hname hend
  unfold plainStatement
  simp only [constantEnumeration?, run_bind, run_atWord, run_second, hconst]
  cases htoken : place.ahead.token with
  | word name escaped =>
    rw [htoken] at hopens
    cases hopens with
    | word _ hvariable =>
      simp [htoken, controlStatement?_of_variable hvariable,
        declaration?_of_variable hvariable htoken (hcalls htoken), hstatement]
  | mark text =>
    rw [htoken] at hopens
    cases hopens
    simp [htoken, hstatement]
  | _ => simp [htoken, hstatement]

theorem decorators_of_not {budget : Nat} (depth : Nat) (hbudget : 0 < budget)
    (h : place.ahead.token.isMark "@" = false) :
    (Grammar.ofDepth budget (depth + 1)).decorators s place = .done [] place := by
  obtain ⟨budget, rfl⟩ := Nat.exists_eq_add_of_lt hbudget
  have hbudget' : (Grammar.ofDepth (0 + budget + 1) depth).budget = 0 + budget + 1 := by cases depth <;> rfl
  show decoratorList (Grammar.ofDepth (0 + budget + 1) depth) s place = .done [] place
  rw [decoratorList, hbudget', whileM]
  simp [h]

theorem statement_of_atom {budget depth : Nat} (hbudget : 0 < budget) (hopens : place.ahead.token.Opens)
    (hcalls : CallsAhead place)
    (hinner : freshExpression (Grammar.ofDepth budget (depth + 1)) s place = .done inner behind)
    (hatom : inner.shape.isAtom = true) (hname : ∀ name, inner.shape ≠ .identifier name)
    (hend : StatementEnd behind place') :
    (Grammar.ofDepth budget (depth + 2)).statement .moduleItem s place =
      .done (.mk .expressionStatement ⟨place.ahead.first, place'.lastEnd⟩ [inner]) place' := by
  have himport : place.ahead.token.isWord "import" = false := hopens.word_eq _ (by decide)
  have hexport : place.ahead.token.isWord "export" = false := hopens.word_eq _ (by decide)
  have hstatement := plainStatement_of_atom place.ahead.first [] hopens hcalls hinner hatom hname hend
  show statementAt (Grammar.ofDepth budget (depth + 1)) .moduleItem s place = _
  unfold statementAt
  simp [decorators_of_not _ hbudget (hopens.mark "@" (by decide)), himport, hexport, hstatement]

theorem statement_of_leftHandSide {budget depth : Nat} (hbudget : 0 < budget)
    (hopens : place.ahead.token.Opens) (hsound : Sound place) (hcalls : CallsAhead place)
    (hoperand : ∀ s, leftHandSide (Grammar.ofDepth budget depth) s place = .done inner behind)
    (hatom : inner.shape.isAtom = true) (hname : ∀ name, inner.shape ≠ .identifier name)
    (hend : StatementEnd behind place') :
    (Grammar.ofDepth budget (depth + 3)).statement .moduleItem s place =
      .done (.mk .expressionStatement ⟨place.ahead.first, place'.lastEnd⟩ [inner]) place' := by
  have hfresh := freshExpression_of_assignment (g := Grammar.ofDepth budget (depth + 2)) (s := s)
    (assignment_of_leftHandSide hopens hsound hoperand hend.closes hatom hbudget) hend.not_comma hbudget
  exact statement_of_atom hbudget hopens hcalls hfresh hatom hname hend

/-! ## Modules -/

theorem allStatements_end {fuel : Nat} (hfuel : 0 < fuel) (h : place.ahead.token = .endOfText) :
    allStatements g fuel s place = .done [] place := by
  obtain ⟨fuel, rfl⟩ := Nat.exists_eq_add_of_lt hfuel
  rw [Nat.zero_add, allStatements]
  simp [atEnd, h]

theorem allStatements_cons (fuel : Nat) {first : Node} {rest : List Node}
    (hahead : place.ahead.token ≠ .endOfText) (hfirst : g.statement .moduleItem s place = .done first place')
    (hrest : allStatements g fuel s place' = .done rest behind) :
    allStatements g (fuel + 1) s place = .done (first :: rest) behind := by
  rw [allStatements]
  simp [atEnd, hahead, hfirst, hrest]

end Reader

namespace Module

/-- Neither a byte order mark nor a line that names an interpreter stands in front. -/
def Plain (text : Text) : Prop := ∀ c ∈ text.head?, c ≠ byteOrderMark ∧ c ≠ '#'

theorem read_of_allStatements {text : Text} {elements : Bool}
    {items : List Node} (place : Place) (hplain : Plain text)
    (h : Reader.allStatements (Grammar.ofDepth (8 * (text.length + 8)) (8 * (text.length + 8)))
      (8 * (text.length + 8)) { elements } (.at' ⟨text, 0⟩) =
        .done items place) : read text elements = .ok ⟨text, items⟩ := by
  have hbody : body text = text := by
    cases text with
    | nil => rfl
    | cons c rest => rw [body, if_neg (hplain c rfl).1]
  have hbehind : behindInterpreter text = ⟨text, 0⟩ := by
    unfold behindInterpreter
    split
    · exact absurd rfl (hplain _ rfl).2
    · rfl
  unfold read
  simp only [hbody, hbehind]
  unfold Place.at' at h
  simp only [h]

theorem read_of_leftHandSide {text : Text} {elements : Bool} {budget depth : Nat}
    {inner : Node} (behind : Place) {place : Place} (hbudget : 8 * (text.length + 8) = budget)
    (hdepth : budget = depth + 3) (hplain : Plain text) (hopens : (Place.at' ⟨text, 0⟩).ahead.token.Opens)
    (hsound : Reader.Sound (.at' ⟨text, 0⟩)) (hcalls : Reader.CallsAhead (.at' ⟨text, 0⟩))
    (hoperand : ∀ s, Reader.leftHandSide (Grammar.ofDepth budget depth) s (.at' ⟨text, 0⟩) =
      .done inner behind)
    (hatom : inner.shape.isAtom = true) (hname : ∀ name, inner.shape ≠ .identifier name)
    (hend : Reader.StatementEnd behind place) (hlast : place.ahead.token = .endOfText) :
    ∃ span, read text elements = .ok ⟨text, [.mk .expressionStatement span [inner]]⟩ := by
  have hstatement :=
    Reader.statement_of_leftHandSide (s := { elements }) (by omega) hopens hsound hcalls hoperand hatom
      hname hend
  have hitems := Reader.allStatements_cons (depth + 2) hopens.ne_end hstatement
    (Reader.allStatements_end (Nat.succ_pos _) hlast)
  rw [← hdepth, ← hbudget] at hitems
  exact ⟨_, read_of_allStatements _ hplain hitems⟩

end Module
end ClassWeave
