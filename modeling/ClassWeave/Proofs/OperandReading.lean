import ClassWeave.Proofs.Quoting
import ClassWeave.Proofs.Reading
/-!
# Operands and what they are operands of

String literals and names wherever an operand may stand, and how a choice is read from what its
parts are read as.
-/

namespace ClassWeave

open Lexeme

/-! ## Marks between blanks -/

def spacedMarks : List (Char × String) := [('?', "?"), (':', ":"), ('+', "+")]

theorem atMark_spaced (c : Char) (text : String) (h : (c, text) ∈ spacedMarks) (rest : Text) (offset : Nat) :
    (Place.at' ⟨' ' :: c :: ' ' :: rest, offset⟩).AtMark text ⟨' ' :: rest, offset + 2⟩ := by
  have between : Between [' '] := between_blank rfl
  simp only [spacedMarks, List.mem_cons, Prod.mk.injEq, List.not_mem_nil, or_false] at h
  rcases h with ⟨rfl, rfl⟩ | ⟨rfl, rfl⟩ | ⟨rfl, rfl⟩
  · have found := next_solid between (c := '?') rfl (' ' :: rest) offset
    exact ⟨found.token_eq, found.stop_eq⟩
  · have found := next_solid between (c := ':') rfl (' ' :: rest) offset
    exact ⟨found.token_eq, found.stop_eq⟩
  · have found := next_solid between (c := '+') rfl (' ' :: rest) offset
    exact ⟨found.token_eq, found.stop_eq⟩

theorem atMark_brace (rest : Text) (offset : Nat) :
    (Place.at' ⟨'\x7d' :: rest, offset⟩).AtMark "\x7d" ⟨rest, offset + 1⟩ := by
  have found := next_mark between_nil '\x7d' "\x7d" (by decide) rest offset
  exact ⟨found.token_eq, found.stop_eq⟩

theorem closes_brace (rest : Text) (offset : Nat) : (Place.at' ⟨'\x7d' :: rest, offset⟩).ahead.token.Closes :=
  (atMark_brace rest offset).token_eq ▸ Token.closes_mark (by decide)

namespace Place.AtMark

variable {place : Place} {text : String} {behind : Cursor}

theorem isMark (h : place.AtMark text behind) (other : String) :
    place.ahead.token.isMark other = (text == other) := by
  rw [h.token_eq]
  rfl

theorem endsOperand (h : place.AtMark text behind) (htext : text ∈ ["?", ":", "+"])
    (hchain : text = "?" → (next behind).token.isMark "." = false) : place.EndsOperand where
  endsMember := by
    constructor
    · intro other hother
      rw [h.isMark]
      have apart : ∀ text ∈ ["?", ":", "+"], ∀ other ∈ ["!", "<", "<<", "[", ".", "\x60"],
        (text == other) = false := by decide
      exact apart text htext other hother
    · intro hquestion
      rw [h.isMark, beq_iff_eq] at hquestion
      rw [h.stop_eq]
      exact hchain hquestion
  call := by
    rw [h.isMark]
    exact (show ∀ text ∈ ["?", ":", "+"], (text == "(") = false by decide) text htext
  plus := by
    rw [h.isMark]
    exact (show ∀ text ∈ ["?", ":", "+"], (text == "++") = false by decide) text htext
  minus := by
    rw [h.isMark]
    exact (show ∀ text ∈ ["?", ":", "+"], (text == "--") = false by decide) text htext

end Place.AtMark

namespace Reader

variable {s : Surroundings} {place place' : Place} {g : Grammar}
    {target : Node} {text : String} {cursor : Cursor}

theorem sound_of_atMark (h : place.AtMark text cursor) (htext : text ≠ "\x60") : Sound place := by
  refine sound_of_token (fun fault => ?_) ?_
  · rw [h.token_eq]
    nofun
  · rw [h.isMark]
    exact beq_eq_false_iff_ne.2 htext

theorem operation_of_atMark {minimum : Nat} (h : place.AtMark text cursor) (htext : text ≠ "\x60")
    (hstrength : ∀ found ∈ (Token.mark text).binaryOperator?, found.2 ≤ minimum)
    {fuel : Nat} (hfuel : 0 < fuel) :
    operation g fuel target minimum s place = .done target place := by
  refine operation_of_ends (fun name _ => ?_) (sound_of_atMark h htext)
    (fun operator strength hfound => ?_) hfuel
  · rw [h.token_eq]
    rfl
  · rw [h.token_eq] at hfound
    exact hstrength _ hfound

/-! ## Where an expression begins -/

end Reader

theorem endsOperand_colon (rest : Text) (offset : Nat) :
    (Place.at' ⟨' ' :: ':' :: ' ' :: rest, offset⟩).EndsOperand :=
  (atMark_spaced ':' ":" (by decide) rest offset).endsOperand (by decide) nofun

theorem endsOperand_plus (rest : Text) (offset : Nat) :
    (Place.at' ⟨' ' :: '+' :: ' ' :: rest, offset⟩).EndsOperand :=
  (atMark_spaced '+' "+" (by decide) rest offset).endsOperand (by decide) nofun

open Reader

def Place.arrowStart (place : Place) : Option Nat :=
  if (place.ahead.token.isName && !place.ahead.token.isWord "await") ||
    place.ahead.token.isMark "(" then some place.ahead.first
  else none

/-- An expression that begins at a place begins with an operand: with no type parameters, nothing
that is yielded, and nothing malformed. -/
structure Place.OpensPlainly (place : Place) (g : Grammar) (s : Surroundings) : Prop where
  plain : ∀ arrowStart, assignmentExpression g { s with arrowStart } place =
    plainAssignment g { s with arrowStart } place
  noYield : (s.generator && place.ahead.token.isWord "yield") = false
  sound : Sound place

namespace Reader

variable {s : Surroundings} {place place' : Place} {g : Grammar}
    {target : Node} {text : String} {cursor : Cursor}

theorem opensPlainly_of_opens (hopens : place.ahead.token.Opens) (hsound : Sound place) :
    place.OpensPlainly g s where
  plain arrowStart := by simp [assignmentExpression, hopens.mark "<" (by decide)]
  noYield := by simp [hopens.word_eq "yield" (by decide)]
  sound := hsound

theorem arrowStart_of_string {value : Text} (h : place.ahead.token = .string value) :
    place.arrowStart = none := by
  unfold Place.arrowStart
  simp [h, Token.isName, Token.isMark]

theorem opensPlainly_of_string {value : Text} (h : place.ahead.token = .string value) :
    place.OpensPlainly g s :=
  opensPlainly_of_opens (h ▸ .string value) (sound_of_token (by rw [h]; nofun) (by rw [h]; rfl))

theorem assignment_of_conditional (opens : place.OpensPlainly g s) (arrowStart : Option Nat)
    (hread : conditionalExpression g { s with arrowStart := place.arrowStart } place = .done target place')
    (h : place'.AtMark text cursor) (htext : text ∉ Token.assignmentOperators) :
    assignmentExpression g { s with arrowStart } place = .done target place' := by
  have hassign : ∀ start s, assignTo g start target s place' = .done target place' := by
    intro start s
    unfold assignTo
    simp [h.token_eq, htext]
  unfold Place.arrowStart at hread
  rw [opens.plain]
  unfold plainAssignment
  simp only [run_bind, run_surroundings, run_atWord, run_ite, run_here, run_ahead, run_inside, opens.noYield,
    Bool.false_eq_true, if_false, refuseMalformed_of_sound opens.sound, hread]
  generalize target.shape = shape
  cases shape with
  | other form => cases form <;> first | rfl | exact hassign _ _
  | _ => first | rfl | exact hassign _ _

/-! ## Literals and names -/

variable {gap rest : Text} {budget : Nat}

/-! ### String literals -/

theorem next_encode (between : Between gap) (value rest : Text) (offset : Nat) :
    (next ⟨gap ++ (Quoted.encode value ++ rest), offset⟩).Is (.string value)
      ⟨Quoted.encode value ++ rest, offset + gap.byteLength⟩
      ⟨rest, offset + gap.byteLength + (Quoted.encode value).byteLength⟩ :=
  next_string between (.inl rfl) (Quoted.readBody_encode value rest) offset

theorem primary_encode (between : Between gap) (value rest : Text)
    (offset : Nat) (g : Grammar) (s : Surroundings) :
    primary g s (.at' ⟨gap ++ (Quoted.encode value ++ rest), offset⟩) =
      .done (.mk (.literal (.string value))
          ⟨offset + gap.byteLength, offset + gap.byteLength + (Quoted.encode value).byteLength⟩ [])
        (.at' ⟨rest, offset + gap.byteLength + (Quoted.encode value).byteLength⟩) := by
  have found := next_encode between value rest offset
  have htoken : (Place.at' ⟨gap ++ (Quoted.encode value ++ rest), offset⟩).ahead.token = .string value :=
    found.token_eq
  have hprimary := primary_string (g := g) (s := s) htoken
  simp only [Place.at', found.first_eq, found.stop_eq] at hprimary
  exact hprimary

theorem leftHandSide_encode (between : Between gap) (value rest : Text)
    (hbudget : 0 < budget) (depth offset : Nat) (h : ∀ offset, (Place.at' ⟨rest, offset⟩).EndsOperand)
    (s : Surroundings) :
    leftHandSide (Grammar.ofDepth budget depth) s (.at' ⟨gap ++ (Quoted.encode value ++ rest), offset⟩) =
      .done (.mk (.literal (.string value))
          ⟨offset + gap.byteLength, offset + gap.byteLength + (Quoted.encode value).byteLength⟩ [])
        (.at' ⟨rest, offset + gap.byteLength + (Quoted.encode value).byteLength⟩) := by
  have htoken : (Place.at' ⟨gap ++ (Quoted.encode value ++ rest), offset⟩).ahead.token = .string value :=
    (next_encode between value rest offset).token_eq
  have hopens : (Place.at' ⟨gap ++ (Quoted.encode value ++ rest), offset⟩).ahead.token.Opens :=
    htoken ▸ .string value
  have hbudget' : 0 < (Grammar.ofDepth budget depth).budget := by cases depth <;> exact hbudget
  have hprimary := primary_encode between value rest offset (Grammar.ofDepth budget depth) s
  exact leftHandSide_of_member hopens
    (memberExpression_of_primary hopens hbudget' hprimary (h _).endsMember rfl) (h _) rfl

theorem operand_encode (between : Between gap) (value rest : Text)
    (hbudget : 0 < budget) (depth offset : Nat) (h : ∀ offset, (Place.at' ⟨rest, offset⟩).EndsOperand)
    (s : Surroundings) :
    (Grammar.ofDepth budget (depth + 1)).operand s (.at' ⟨gap ++ (Quoted.encode value ++ rest), offset⟩) =
      .done (.mk (.literal (.string value))
          ⟨offset + gap.byteLength, offset + gap.byteLength + (Quoted.encode value).byteLength⟩ [])
        (.at' ⟨rest, offset + gap.byteLength + (Quoted.encode value).byteLength⟩) := by
  have htoken : (Place.at' ⟨gap ++ (Quoted.encode value ++ rest), offset⟩).ahead.token = .string value :=
    (next_encode between value rest offset).token_eq
  exact unaryExpression_of_leftHandSide (htoken ▸ .string value)
    (leftHandSide_encode between value rest hbudget depth offset h s) (h _) rfl

theorem exists_operand_encode (between : Between gap) (value rest : Text)
    (hbudget : 0 < budget) (depth offset : Nat)
    (h : ∀ offset, (Place.at' ⟨rest, offset⟩).EndsOperand) : ∃ span, ∀ s,
    (Grammar.ofDepth budget (depth + 1)).operand s (.at' ⟨gap ++ (Quoted.encode value ++ rest), offset⟩) =
      .done (.mk (.literal (.string value)) span [])
        (.at' ⟨rest, offset + gap.byteLength + (Quoted.encode value).byteLength⟩) :=
  ⟨_, operand_encode between value rest hbudget depth offset h⟩

theorem exists_assignment_encode (between : Between gap) (value rest : Text)
    (hbudget : 0 < budget) (depth offset : Nat) (s : Surroundings) : ∃ span,
    (Grammar.ofDepth budget (depth + 2)).assignment s
      (.at' ⟨gap ++ (Quoted.encode value ++ '\x7d' :: rest), offset⟩) =
      .done (.mk (.literal (.string value)) span [])
        (.at' ⟨'\x7d' :: rest, offset + gap.byteLength + (Quoted.encode value).byteLength⟩) := by
  have htoken : (Place.at' ⟨gap ++ (Quoted.encode value ++ '\x7d' :: rest), offset⟩).ahead.token =
    .string value :=
    (next_encode between value _ offset).token_eq
  have hread := leftHandSide_encode between value ('\x7d' :: rest) hbudget depth offset
    fun offset => (closes_brace rest offset).endsOperand
  have hsound : Sound (.at' ⟨gap ++ (Quoted.encode value ++ '\x7d' :: rest), offset⟩) :=
    sound_of_token (by rw [htoken]; nofun) (by rw [htoken]; rfl)
  exact ⟨_,
    assignment_of_leftHandSide (htoken ▸ .string value) hsound hread (closes_brace rest _) rfl hbudget⟩

/-! ### Variables -/

structure IsVariableName (name : Text) : Prop where
  word : IsWord name
  isVariable : Token.IsVariable (String.ofList name)
  ne_async : String.ofList name ≠ "async"

theorem isVariableName_letter {c : Char} (h : c.isLower = true) : IsVariableName [c] := by
  have hbounds : (decide (c.val ≥ 'a'.val) && decide (c.val ≤ 'z'.val)) = true := h
  have hplain : c.toNat < 0x80 :=
    Nat.lt_of_le_of_lt (of_decide_eq_true (Bool.and_eq_true_iff.1 hbounds).2) (by decide)
  have halpha : c.isAlpha = true := by
    show (c.isUpper || c.isLower) = true
    rw [h, Bool.or_true]
  have hstart : IdentifierTable.isStart c = true := by
    rw [IdentifierTable.isStart, if_pos hplain, halpha, Bool.true_or, Bool.true_or]
  -- Words that mean something else have more than one letter.
  have hlength : (String.ofList [c]).length = 1 := by simp
  have hbarred : ∀ word ∈ Token.barred, word.length ≠ 1 := by decide
  refine ⟨⟨⟨c, [], rfl, hstart⟩, by simp [isPart_of_isStart hstart]⟩,
    fun hmem => hbarred _ hmem hlength, fun hasync => ?_⟩
  rw [hasync] at hlength
  cases hlength

theorem leftHandSide_variable (between : Between gap) {name : Text}
    (hname : IsVariableName name) (ends : EndsName rest) (hbudget : 0 < budget) (depth offset : Nat)
    (h : (Place.at' ⟨rest, offset + gap.byteLength + name.byteLength⟩).AtMark text cursor)
    (htext : text ≠ "=>") (hends : (Place.at' ⟨rest, offset + gap.byteLength + name.byteLength⟩).EndsOperand)
    (s : Surroundings) :
    leftHandSide (Grammar.ofDepth budget depth) s (.at' ⟨gap ++ (name ++ rest), offset⟩) =
      .done (.mk (.identifier (String.ofList name))
          ⟨offset + gap.byteLength, offset + gap.byteLength + name.byteLength⟩ [])
        (.at' ⟨rest, offset + gap.byteLength + name.byteLength⟩) := by
  have found := next_word between hname.word ends offset
  have htoken : (Place.at' ⟨gap ++ (name ++ rest), offset⟩).ahead.token = .word (String.ofList name) false :=
    found.token_eq
  have hopens : (Place.at' ⟨gap ++ (name ++ rest), offset⟩).ahead.token.Opens :=
    htoken ▸ .word _ hname.isVariable
  have hstop : (Place.at' ⟨gap ++ (name ++ rest), offset⟩).ahead.stop =
      ⟨rest, offset + gap.byteLength + name.byteLength⟩ := found.stop_eq
  have hbudget' : 0 < (Grammar.ofDepth budget depth).budget := by cases depth <;> exact hbudget
  have hmark : (next (Place.at' ⟨gap ++ (name ++ rest), offset⟩).ahead.stop).token = .mark text := by
    rw [hstop]
    exact h.token_eq
  have hprimary := primary_name (g := Grammar.ofDepth budget depth)
    (s := s) htoken hname.isVariable hname.ne_async hmark htext
  simp only [Place.at', found.first_eq, found.stop_eq] at hprimary
  exact leftHandSide_of_member hopens
    (memberExpression_of_primary hopens hbudget' hprimary hends.endsMember rfl) hends rfl

theorem opens_variable (between : Between gap) {name : Text} (hname : IsVariableName name)
    (ends : EndsName rest) (offset : Nat) :
    (Place.at' ⟨gap ++ (name ++ rest), offset⟩).ahead.token.Opens ∧
    Sound (.at' ⟨gap ++ (name ++ rest), offset⟩) := by
  have htoken : (Place.at' ⟨gap ++ (name ++ rest), offset⟩).ahead.token = .word (String.ofList name) false :=
    (next_word between hname.word ends offset).token_eq
  refine ⟨htoken ▸ .word _ hname.isVariable, sound_of_token (fun fault => ?_) ?_⟩
  · rw [htoken]
    nofun
  · rw [htoken]
    rfl

theorem endsName_brace (rest : Text) : EndsName ('\x7d' :: rest) := by
  intro c hc
  obtain rfl : '\x7d' = c := Option.some.inj hc
  decide

/-! ## Sums and choices -/

variable {place'' place''' : Place}

theorem binaryExpression_of_operation {whole : Node} (hoperand : g.operand s place = .done target place')
    (harrow : target.isArrow = false)
    (hoperation : operation g g.budget target 0 s place' = .done whole place'') :
    binaryExpression g s place = .done whole place'' := by
  have hfirst : firstOperand g s place = .done target place' := by
    unfold firstOperand recovering
    rw [hoperand]
  simp [binaryExpression, hfirst, harrow, hoperation]

theorem conditionalExpression_of_binary (hbinary : binaryExpression g s place = .done target place')
    (h : place'.AtMark text cursor) (htext : text ≠ "?") :
    conditionalExpression g s place = .done target place' := by
  have hquestion : takeMark "?" s place' = .done false place' :=
    takeMark_of_not ((h.isMark "?").trans (beq_eq_false_iff_ne.2 htext))
  simp [conditionalExpression, hbinary, hquestion]

/-- What begins with an operand and is read up to a mark that neither asks nor assigns is an
expression without commas. -/
theorem assignment_of_operation {whole : Node} (opens : place.OpensPlainly g s) (arrowStart : Option Nat)
    (hoperand : g.operand { s with arrowStart := place.arrowStart } place = .done target place')
    (harrow : target.isArrow = false)
    (hoperation : operation g g.budget target 0 { s with arrowStart := place.arrowStart } place' =
      .done whole place'') (h : place''.AtMark text cursor) (hquestion : text ≠
        "?") (htext : text ∉ Token.assignmentOperators) :
    assignmentExpression g { s with arrowStart } place = .done whole place'' :=
  assignment_of_conditional opens arrowStart
    (conditionalExpression_of_binary (binaryExpression_of_operation hoperand harrow hoperation) h hquestion)
    h htext

theorem conditionalExpression_of_choice {test consequent alternate : Node} {behind last : Cursor}
    (hbinary : binaryExpression g s place = .done test place')
    (harrow : test.isArrow = false) (hquestion : place'.AtMark "?" behind)
    (hconsequent : g.assignment { s with inConditional := true, colonAhead := true, allowIn := true }
      (.at' behind) =
      .done consequent place'')
    (hcolon : place''.AtMark ":" last)
    (halternate : g.assignment { s with inConditional := true, colonAhead := false } (.at' last) =
      .done alternate place''') :
    conditionalExpression g s place =
      .done (.mk .conditional ⟨place.ahead.first, alternate.span.stop⟩ [test, consequent, alternate])
      place''' := by
  have htake : takeMark "?" s place' = .done true (.at' behind) :=
    hquestion.stop_eq ▸ takeMark_of_eq hquestion.token_eq
  have hneed : needMark ":" s place'' = .done () (.at' last) :=
    hcolon.stop_eq ▸ needMark_of_eq hcolon.token_eq
  simp [conditionalExpression, hbinary, harrow, htake, branches, hconsequent, hneed, halternate]

theorem binaryExpression_variable {name : Text} (hname : IsVariableName name) (hbudget : 0 < budget)
    (depth offset : Nat) (rest : Text)
    (hpoint : (next ⟨' ' :: rest, offset + name.byteLength + 2⟩).token.isMark "." = false)
    (s : Surroundings) :
    binaryExpression (Grammar.ofDepth budget (depth + 1)) s
        (.at' ⟨name ++ ' ' :: '?' :: ' ' :: rest, offset⟩) =
      .done (.mk (.identifier (String.ofList name)) ⟨offset, offset + name.byteLength⟩ [])
        (.at' ⟨' ' :: '?' :: ' ' :: rest, offset + name.byteLength⟩) := by
  have ends := endsName_space ('?' :: ' ' :: rest)
  have hmark := atMark_spaced '?' "?" (by decide) rest (offset + name.byteLength)
  have hends := hmark.endsOperand (by decide) fun _ => hpoint
  have hoperand := unaryExpression_of_leftHandSide (s := s) (opens_variable between_nil hname ends offset).1
    (leftHandSide_variable between_nil hname ends hbudget depth offset hmark (by decide) hends s) hends rfl
  exact binaryExpression_of_operation (g := Grammar.ofDepth budget (depth + 1)) hoperand rfl
    (operation_of_atMark hmark (by decide) (by decide) hbudget)

end Reader
end ClassWeave
