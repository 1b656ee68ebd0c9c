import ClassWeave.Proofs.Becoming
import ClassWeave.Proofs.Patching
import ClassWeave.Proofs.ProgramReading
import Mathlib.Data.List.Chain
/-!
# Programs of statements

A statement with an end of its own is read in the same way in front of every text, and one that a
line break ends in front of every line that goes on with nothing. So a program is read statement by
statement.
-/

namespace ClassWeave

open Lexeme Reader

/-- A text in front of which a statement ends that has no semicolon. -/
def Breaks (rest : Text) : Prop := ∀ offset, StatementEnd (.at' ⟨rest, offset⟩) (.at' ⟨rest, offset⟩)

theorem breaks_of_between {gap : Text} (between : Between gap) : Breaks gap :=
  fun offset => .text (next_end between offset).token_eq

/-- A text that is read as a statement: one with an end of its own wherever it stands, another where
it can end. -/
structure Statement where
  text : Text
  node : Nat → Node
  closed : Bool
  opens : ∀ rest offset, (next ⟨text ++ rest, offset⟩).token ≠ .endOfText
  reads : ∀ {budget : Nat}, 8 * (text.length + 8) ≤ budget → ∀ (s : Surroundings) (rest : Text) (start : Nat),
    (closed = true ∨ Breaks rest) →
    (Grammar.ofDepth budget budget).statement .moduleItem s (.at' ⟨text ++ rest, start⟩) =
      .done (node start) (.at' ⟨rest, start + text.byteLength⟩)
  contained : ∀ start, Node.Contained [node start] start (start + text.byteLength)
  alike : ∀ {pass next : Pass} {start start' : Nat}, pass.Holds start text → next.Holds start' text →
    (node start).Alike pass next (node start')

/-! ## Operands -/

structure Operand where
  lead : Gap
  core : Text
  node : Nat → Node
  isAtom : ∀ start, (node start).shape.isAtom = true
  not_identifier : ∀ start name, (node start).shape ≠ .identifier name
  opens : ∀ more start, (Place.at' ⟨lead.text ++ (core ++ more), start⟩).ahead.token.Opens
  sound : ∀ more start, Sound (.at' ⟨lead.text ++ (core ++ more), start⟩)
  calls : ∀ more start, CallsAhead (.at' ⟨lead.text ++ (core ++ more), start⟩)
  first : ∀ more start, (Place.at' ⟨lead.text ++ (core ++ more), start⟩).ahead.first =
    start + lead.text.byteLength
  reads : ∀ {budget depth : Nat}, core.length ≤ budget → core.length ≤ depth → ∀ (start : Nat) {rest : Text},
    (∀ offset, (next ⟨rest, offset⟩).token.Closes) → ∀ s,
    leftHandSide (Grammar.ofDepth budget depth) s (.at' ⟨lead.text ++ (core ++ rest), start⟩) =
      .done (node start) (.at' ⟨rest, start + lead.text.byteLength + core.byteLength⟩)
  contained : ∀ start, Node.Contained [node start] start (start + lead.text.byteLength + core.byteLength)
  alike : ∀ {pass next : Pass} {start start' : Nat}, pass.Holds start (lead.text ++ core) →
    next.Holds start' (lead.text ++ core) → (node start).Alike pass next (node start')

namespace Operand

def written (operand : Operand) (semicolon : Option Gap) : Text :=
  operand.lead.text ++ (operand.core ++ semicolon.elim [] fun gap => gap.text ++ [';'])

def statementNode (operand : Operand) (semicolon : Option Gap) (start : Nat) : Node :=
  .mk .expressionStatement
    ⟨start + operand.lead.text.byteLength, start + (operand.written semicolon).byteLength⟩
    [operand.node start]

variable (operand : Operand)

theorem statement_of_end {budget : Nat} (hbudget : operand.core.length + 3 ≤ budget)
    (s : Surroundings) (start : Nat) {rest : Text} {place : Place}
    (closes : ∀ offset, (next ⟨rest, offset⟩).token.Closes)
    (hend : StatementEnd
      (.at' ⟨rest, start + operand.lead.text.byteLength + operand.core.byteLength⟩) place) :
    (Grammar.ofDepth budget budget).statement .moduleItem s
        (.at' ⟨operand.lead.text ++ (operand.core ++ rest), start⟩) =
      .done (.mk .expressionStatement ⟨start + operand.lead.text.byteLength, place.lastEnd⟩
        [operand.node start]) place := by
  obtain ⟨depth, rfl⟩ := Nat.exists_eq_add_of_le' (Nat.le_of_add_left_le hbudget)
  have hbudget' : operand.core.length ≤ depth + 3 := by omega
  have hdepth : operand.core.length ≤ depth := by omega
  have hstatement := statement_of_leftHandSide (s := s) (Nat.succ_pos _) (operand.opens rest start)
    (operand.sound rest start) (operand.calls rest start) (operand.reads hbudget' hdepth start closes)
    (operand.isAtom start) (operand.not_identifier start) hend
  rwa [operand.first] at hstatement

theorem statement_written (semicolon : Option Gap) {budget : Nat}
    (hbudget : 8 * ((operand.written semicolon).length + 8) ≤ budget)
    (s : Surroundings) (rest : Text) (start : Nat) (hrest : semicolon.isSome = true ∨ Breaks rest) :
    (Grammar.ofDepth budget budget).statement .moduleItem s
      (.at' ⟨operand.written semicolon ++ rest, start⟩) =
      .done (operand.statementNode semicolon start)
        (.at' ⟨rest, start + (operand.written semicolon).byteLength⟩) := by
  have hlength : operand.core.length ≤ (operand.written semicolon).length := by
    simp only [written, List.length_append]
    omega
  have hbudget' : operand.core.length + 3 ≤ budget := by omega
  cases semicolon with
  | some gap =>
    have hwritten : operand.written (some gap) ++ rest =
        operand.lead.text ++ (operand.core ++ (gap.text ++ ';' :: rest)) := by simp [written]
    have found := next_mark gap.between ';' ";" (by decide) rest
      (start + operand.lead.text.byteLength + operand.core.byteLength)
    have hstop : (Place.at' ⟨gap.text ++ ';' :: rest,
        start + operand.lead.text.byteLength + operand.core.byteLength⟩).ahead.stop =
          ⟨rest, start + (operand.written (some gap)).byteLength⟩ := by
      have hsemicolon : Text.byteLength [';'] = 1 := rfl
      refine found.stop_eq.trans (congrArg (Cursor.mk rest) ?_)
      simp only [written, Option.elim, Text.byteLength_append, hsemicolon]
      omega
    have hend : StatementEnd (.at' ⟨gap.text ++ ';' :: rest, _⟩) _ := .semicolon found.token_eq
    rw [hstop] at hend
    rw [hwritten]
    exact operand.statement_of_end hbudget' s start
      (HelperTree.closes_behind gap ';' ";" (by decide) (by decide) rest) hend
  | none =>
    have hwritten : operand.written none = operand.lead.text ++ operand.core := by simp [written]
    have hbreaks : Breaks rest := hrest.resolve_left Bool.false_ne_true
    have hend := hbreaks (start + operand.lead.text.byteLength + operand.core.byteLength)
    unfold statementNode
    rw [hwritten, List.append_assoc, Text.byteLength_append, ← Nat.add_assoc]
    exact operand.statement_of_end hbudget' s start (fun offset => (hbreaks offset).closes) hend

theorem holds_of_written {pass : Pass} {start : Nat} {semicolon : Option Gap}
    (holds : pass.Holds start (operand.written semicolon)) :
    pass.Holds start (operand.lead.text ++ operand.core) := by
  rw [written, ← List.append_assoc] at holds
  exact holds.left

def statement (semicolon : Option Gap) : Statement where
  text := operand.written semicolon
  node := operand.statementNode semicolon
  closed := semicolon.isSome
  opens rest offset := by
    rw [written, List.append_assoc, List.append_assoc]
    exact (operand.opens _ offset).ne_end
  reads hbudget s rest start hrest := operand.statement_written semicolon hbudget s rest start hrest
  contained start := by
    refine .of_children rfl ((operand.contained start).mono (Nat.le_refl _) ?_)
    simp only [written, Text.byteLength_append]
    omega
  alike holds holds' := by
    have hnode := operand.alike (operand.holds_of_written holds) (operand.holds_of_written holds')
    have htext := holds.right.textAt_eq.trans holds'.right.textAt_eq.symm
    rw [Nat.add_assoc, Nat.add_assoc, ← Text.byteLength_append] at htext
    exact Node.alike_mk_iff.2
      ⟨_, _, rfl, htext, Node.allAlike_cons_iff.2 ⟨_, _, rfl, hnode, Node.allAlike_nil_iff.2 rfl⟩⟩

variable {σ χ ε : Type} {rule : Rule σ χ ε} {pass next : Pass}
    {state : σ} {elements : Bool} {start start' : Nat}
  {operand operand' : Operand}

theorem anyPending_statement (semicolon : Option Gap) :
    rule.anyPending pass state [(operand.statement semicolon).node start] =
      rule.anyPending pass state [operand.node start] := by
  show rule.anyPending pass state [.mk .expressionStatement _ [operand.node start]] = _
  rw [Rule.anyPending, Rule.anyPending, Bool.or_false, Rule.holdsPending,
    Rule.picked?_of_not_target rfl]
  exact Bool.or_false _

theorem rewrites_statement (semicolon : Option Gap)
    (h : rule.Rewrites pass state [operand.node start] start (operand.lead.text ++ operand.core)
      (operand'.lead.text ++ operand'.core)) :
    rule.Rewrites pass state [(operand.statement semicolon).node start]
      start (operand.statement semicolon).text (operand'.statement semicolon).text := by
  refine .of_none (Rule.picked?_of_not_target rfl _ _) ?_
  show rule.Rewrites pass state _ start (operand.written semicolon) (operand'.written semicolon)
  unfold written
  rw [← List.append_assoc, ← List.append_assoc]
  exact h.before _

theorem becomes_statement (semicolon : Option Gap)
    (h : rule.Becomes pass next state elements (operand.node start) (operand'.node start'))
    (hpending : rule.anyPending pass state [operand.node start] = true) :
    rule.Becomes pass next state elements ((operand.statement semicolon).node start)
      ((operand'.statement semicolon).node start') := by
  refine .of_kept (Rule.frontier_singleton_of_none (Rule.picked?_of_not_target rfl _ _))
    (Rule.allBecome_cons_iff.2 ⟨_, _, rfl, h, Rule.allBecome_nil_iff.2 rfl⟩) fun hnone => ?_
  rw [hpending] at hnone
  cases hnone

/-- An operand on a line of its own that begins with a string or a name ends a statement in front of it. -/
theorem onLine (operand : Operand) (hlead : EndsLine operand.lead.text)
    (semicolon : Option Gap) {c : Char} {more : Text} (hcore : operand.core = c :: more)
    (hsolid : isSolid c = true)
    (honly : ∀ more start,
      (Place.at' ⟨operand.lead.text ++ (operand.core ++ more), start⟩).ahead.token.Only []) (rest : Text) :
    Breaks ((operand.statement semicolon).text ++ rest) := by
  intro offset
  have hwritten : (operand.statement semicolon).text ++ rest = operand.lead.text ++ (operand.core ++
      ((semicolon.elim [] fun gap => gap.text ++ [';']) ++ rest)) := by
    show operand.written semicolon ++ rest = _
    rw [written, List.append_assoc, List.append_assoc]
  rw [hwritten]
  refine .line ?_ (honly _ offset)
  rw [hcore, List.cons_append]
  exact onNewLine_of_endsLine hlead hsolid _ offset

end Operand

/-! ## Programs -/

namespace Statement

def OnLine (statement : Statement) : Prop := ∀ rest, Breaks (statement.text ++ rest)

def textOf : List Statement → Text
  | [] => []
  | statement :: rest => statement.text ++ textOf rest

def nodesOf : List Statement → Nat → List Node
  | [], _ => []
  | statement :: rest, start => statement.node start :: nodesOf rest (start + statement.text.byteLength)

/-- Whether every statement has an end of its own or a line behind it that ends it. -/
def Parted (statements : List Statement) : Prop :=
  statements.IsChain fun statement next => statement.closed = true ∨ next.OnLine

theorem text_ne_nil (statement : Statement) : statement.text ≠ [] := by
  intro hnil
  have hopens := statement.opens [] 0
  rw [hnil] at hopens
  exact hopens (next_end between_nil 0).token_eq

theorem length_le_textOf {statements : List Statement} : statements.length ≤ (textOf statements).length := by
  induction statements with
  | nil => exact Nat.le_refl _
  | cons statement rest ih =>
    have hpos := List.length_pos_of_ne_nil statement.text_ne_nil
    rw [textOf, List.length_cons, List.length_append]
    omega

theorem breaks_of_parted {statement : Statement} {rest : List Statement}
    {behind : Text} (between : Between behind) (parted : Parted (statement :: rest)) :
    statement.closed = true ∨ Breaks (textOf rest ++ behind) := by
  cases rest with
  | nil => exact .inr (breaks_of_between between)
  | cons next rest =>
    rcases (List.isChain_cons_cons.1 parted).1 with hclosed | hline
    · exact .inl hclosed
    · rw [textOf, List.append_assoc]
      exact .inr (hline _)

theorem allStatements_of_parted {behind : Text} (between : Between behind) {s : Surroundings} {budget : Nat} :
    ∀ {statements : List Statement} {fuel : Nat}, 8 * ((textOf statements).length + 8) ≤ budget →
      statements.length < fuel → Parted statements → ∀ start, ∃ place,
      allStatements (Grammar.ofDepth budget budget) fuel s (.at' ⟨textOf statements ++ behind, start⟩) =
        .done (nodesOf statements start) place
  | _, 0, _, hfuel, _, _ => absurd hfuel (Nat.not_lt_zero _)
  | [], fuel + 1, _, _, _, start => ⟨_, allStatements_end (Nat.succ_pos _) (next_end between start).token_eq⟩
  | statement :: rest, fuel + 1, hbudget, hfuel, parted, start => by
    rw [textOf, List.length_append] at hbudget
    have hlonger : 8 * ((textOf rest).length + 8) ≤ budget := by omega
    have hshorter : 8 * (statement.text.length + 8) ≤ budget := by omega
    obtain ⟨place, hrest⟩ := allStatements_of_parted between hlonger (Nat.lt_of_succ_lt_succ hfuel)
      (List.isChain_cons.1 parted).2 (start + statement.text.byteLength)
    have hfirst := statement.reads hshorter s (textOf rest ++ behind) start (breaks_of_parted between parted)
    rw [textOf, List.append_assoc]
    exact ⟨place, allStatements_cons fuel (statement.opens _ _) hfirst hrest⟩

theorem read_of_parted {statements : List Statement} {behind : Text}
    (between : Between behind) (parted : Parted statements)
    (hplain : Module.Plain (textOf statements ++ behind)) (elements : Bool) :
    Module.read (textOf statements ++ behind) elements =
      .ok ⟨textOf statements ++ behind, nodesOf statements 0⟩ := by
  have hlength := @length_le_textOf statements
  have hshorter : (textOf statements).length ≤ (textOf statements ++ behind).length := by
    rw [List.length_append]
    omega
  obtain ⟨place, hread⟩ :=
    @allStatements_of_parted _ between { elements } (8 * ((textOf statements ++ behind).length + 8))
      statements (8 * ((textOf statements ++ behind).length + 8)) (by omega) (by omega) parted 0
  exact Module.read_of_allStatements place hplain hread

theorem contained_nodesOf : ∀ (statements : List Statement) (start : Nat),
    Node.Contained (nodesOf statements start) start (start + (textOf statements).byteLength)
  | [], start => .nil _ _
  | statement :: rest, start => by
    have hrest := contained_nodesOf rest (start + statement.text.byteLength)
    rw [nodesOf, textOf, Text.byteLength_append, ← Nat.add_assoc]
    exact (statement.contained start).cons hrest (Nat.le_add_right _ _) (Nat.le_add_right _ _)

end Statement

/-- An operand that is a module of its own. -/
theorem Operand.read_alone (operand : Operand) (hlead : operand.lead.text = [])
    (hplain : Module.Plain operand.core) (elements : Bool) : Module.read operand.core elements =
      .ok ⟨operand.core, [.mk .expressionStatement ⟨0, operand.core.byteLength⟩ [operand.node 0]]⟩ := by
  have hwritten : operand.written none = operand.core := by simp [Operand.written, hlead]
  have htext : Statement.textOf [operand.statement none] ++ [] = operand.core := by
    show operand.written none ++ [] ++ [] = _
    rw [hwritten, List.append_nil, List.append_nil]
  have hread := Statement.read_of_parted between_nil
    (List.isChain_singleton (operand.statement none)) (htext ▸ hplain) elements
  rw [htext] at hread
  refine hread.trans ?_
  show Except.ok (Module.mk _ [operand.statementNode none 0]) = _
  rw [Operand.statementNode, hwritten, hlead, Nat.zero_add, Nat.zero_add]
  rfl

end ClassWeave
