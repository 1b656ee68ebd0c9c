import ClassWeave.Proofs.Lexing
import ClassWeave.Script.Module
/-!
# Expressions that nothing goes on with

Literals and calls in front of a comma, a closing bracket, or the end of a statement or text: none
of the productions between an assignment and a literal finds anything to add to them.
-/

namespace ClassWeave

/-! ## Tokens -/

namespace Token

/-- The words that go on with an expression and stand for variables elsewhere. -/
def asserting : List String := ["as", "satisfies"]

structure Only (allowed : List String) (token : Token) : Prop where
  mark : ∀ text, text ∉ allowed → token.isMark text = false
  word : ∀ name ∈ asserting, token.isWord name = false
  operator : token.binaryOperator? = none
  valid : ∀ fault, token ≠ .invalid fault

def closing : List String := [",", ")", ";", "\x7d"]

/-- A token that ends the expression in front of it. -/
abbrev Closes (token : Token) : Prop := token.Only closing

theorem only_mark {allowed : List String} {text : String} (h : text ∈ allowed)
    (hoperator : (binaryOperators.find? (·.1 == text)) = none) : (Token.mark text).Only allowed :=
  ⟨fun _ hother => beq_eq_false_iff_ne.2 fun heq => hother (heq ▸ h), fun _ _ => rfl, hoperator, nofun⟩

theorem closes_mark {text : String} (h : text ∈ closing) : (Token.mark text).Closes := by
  refine only_mark h ?_
  unfold closing at h
  simp only [List.mem_cons, List.not_mem_nil, or_false] at h
  rcases h with rfl | rfl | rfl | rfl <;> decide

theorem closes_endOfText : Token.endOfText.Closes := ⟨fun _ _ => rfl, fun _ _ => rfl, rfl, nofun⟩

theorem only_string (value : Text) : (Token.string value).Only [] :=
  ⟨fun _ _ => rfl, fun _ _ => rfl, rfl, nofun⟩

theorem Only.mono {allowed more : List String} {token : Token}
    (h : token.Only allowed) (hsubset : allowed ⊆ more) :
    token.Only more :=
  ⟨fun text htext => h.mark text fun hmem => htext (hsubset hmem), h.word, h.operator, h.valid⟩

def barred : List String := keywords ++ reserved.filter (· != "let")

def IsVariable (name : String) : Prop := name ∉ barred

theorem IsVariable.ne {name : String} (h : IsVariable name) (other : String) (hother : other ∈ barred) :
    name ≠ other := by
  rintro rfl
  exact h hother

theorem IsVariable.not_keyword {name : String} (h : IsVariable name) : name ∉ keywords :=
  fun hmem => h (List.mem_append_left _ hmem)

theorem IsVariable.isReference {name : String} (h : IsVariable name) (hlet : name ≠ "let") :
    (Token.word name false).isReference = true := by
  have hreserved : name ∉ reserved := fun hmem =>
    h (List.mem_append_right _ (List.mem_filter.2 ⟨hmem, bne_iff_ne.2 hlet⟩))
  simp [Token.isReference, h.not_keyword, hreserved]

inductive Opens : Token → Prop
  | word (name : String) : IsVariable name → Opens (.word name false)
  | string (value : Text) : Opens (.string value)
  | template : Opens (.mark "\x60")

theorem only_word {name : String} (h : IsVariable name) (hname : name ∉ asserting) :
    (Token.word name false).Only [] where
  mark _ _ := rfl
  word other hother := beq_eq_false_iff_ne.2 fun heq => hname (heq ▸ hother)
  operator := by
    have hin : name ≠ "in" := h.ne _ (by decide)
    have hinstance : name ≠ "instanceof" := h.ne _ (by decide)
    simp [binaryOperator?, hin, hinstance]
  valid := nofun

theorem Opens.mark {token : Token} (h : token.Opens) (text : String) (htext : text ≠ "\x60") :
    token.isMark text = false := by
  cases h with
  | word name _ => rfl
  | string value => rfl
  | template => exact beq_eq_false_iff_ne.2 htext.symm

theorem Opens.ne_end {token : Token} (h : token.Opens) : token ≠ .endOfText := by
  rintro rfl
  cases h

theorem Opens.word_eq {token : Token} (h : token.Opens) (other : String) (hother : other ∈ barred) :
    token.isWord other = false := by
  cases h with
  | word name hname => exact beq_eq_false_iff_ne.2 (hname.ne _ hother)
  | string value => rfl
  | template => rfl

end Token

namespace Reader

variable {α β : Type} {s : Surroundings} {place : Place}

/-! ## Readers that are run -/

@[simp] theorem run_bind (first : Reader α) (next : α → Reader β) : (first >>= next) s place =
    match first s place with
    | .done value place' => next value s place'
    | .failed fault place' => .failed fault place' := rfl

@[simp] theorem run_pure (value : α) : (pure value : Reader α) s place = .done value place := rfl

@[simp] theorem run_ite {c : Prop} [Decidable c] (a b : Reader α) :
    (if c then a else b) s place = if c then a s place else b s place := by
  split
  · rfl
  · rfl

@[simp] theorem run_place : Reader.place s place = .done place place := rfl

@[simp] theorem run_surroundings : surroundings s place = .done s place := rfl

@[simp] theorem run_inside (change : Surroundings → Surroundings) (reader : Reader α) :
    inside change reader s place = reader (change s) place := rfl

@[simp] theorem run_ahead : ahead s place = .done place.ahead.token place := rfl

@[simp] theorem run_second : second s place = .done (Lexeme.next place.ahead.stop) place := rfl

@[simp] theorem run_onNewLine : onNewLine s place = .done place.ahead.onNewLine place := rfl

@[simp] theorem run_here : here s place = .done place.ahead.first place := rfl

@[simp] theorem run_lastEnd : lastEnd s place = .done place.lastEnd place := rfl

@[simp] theorem run_atMark (text : String) :
    atMark text s place = .done (place.ahead.token.isMark text) place := rfl

@[simp] theorem run_atWord (name : String) :
    atWord name s place = .done (place.ahead.token.isWord name) place := rfl

end Reader

def Shape.isAtom : Shape → Bool
  | .identifier _ | .literal _ | .template _ | .call _ => true
  | _ => false

def Place.at' (cursor : Cursor) : Place := ⟨Lexeme.next cursor, cursor.offset, false⟩

structure Place.AtMark (place : Place) (text : String) (behind : Cursor) : Prop where
  token_eq : place.ahead.token = .mark text
  stop_eq : place.ahead.stop = behind

@[simp] theorem Place.lastEnd_at' (cursor : Cursor) : (at' cursor).lastEnd = cursor.offset := rfl

namespace Reader

variable {α : Type} {s : Surroundings} {place : Place}

@[simp] theorem run_advance : advance s place = .done () (.at' place.ahead.stop) := rfl

@[simp] theorem run_resume (cursor : Cursor) : resume cursor s place = .done () (.at' cursor) := rfl

theorem takeMark_of_not {text : String} (h : place.ahead.token.isMark text = false) :
    takeMark text s place = .done false place := by
  simp [takeMark, h]

theorem takeMark_of_eq {text : String} (h : place.ahead.token = .mark text) :
    takeMark text s place = .done true (.at' place.ahead.stop) := by
  simp [takeMark, h, Token.isMark]

theorem needMark_of_eq {text : String} (h : place.ahead.token = .mark text) :
    needMark text s place = .done () (.at' place.ahead.stop) := by
  simp [needMark, h, Token.isMark]

theorem takeMark_of_next {text : String} {cursor front behind : Cursor}
    (h : (Lexeme.next cursor).Is (.mark text) front behind) :
    takeMark text s (.at' cursor) = .done true (.at' behind) := by
  have htoken : (Place.at' cursor).ahead.token = .mark text := h.token_eq
  rw [takeMark_of_eq htoken]
  exact congrArg (fun stop => Outcome.done true (.at' stop)) h.stop_eq

theorem needMark_of_next {text : String} {cursor front behind : Cursor}
    (h : (Lexeme.next cursor).Is (.mark text) front behind) :
    needMark text s (.at' cursor) = .done () (.at' behind) := by
  have htoken : (Place.at' cursor).ahead.token = .mark text := h.token_eq
  rw [needMark_of_eq htoken]
  exact congrArg (fun stop => Outcome.done () (.at' stop)) h.stop_eq

theorem isMark_of_next {text : String} {cursor front behind : Cursor}
    (h : (Lexeme.next cursor).Is (.mark text) front behind) (other : String) :
    (Place.at' cursor).ahead.token.isMark other = (text == other) := congrArg (Token.isMark other) h.token_eq

theorem takeWord_of_not {name : String} (h : place.ahead.token.isWord name = false) :
    takeWord name s place = .done false place := by
  simp [takeWord, h]

theorem takeWord_of_next {name : String} {cursor front behind : Cursor}
    (h : (Lexeme.next cursor).Is (.word name false) front behind) :
    takeWord name s (.at' cursor) = .done true (.at' behind) := by
  have htoken : (Place.at' cursor).ahead.token = .word name false := h.token_eq
  have hstop : (Place.at' cursor).ahead.stop = behind := h.stop_eq
  simp [takeWord, htoken, Token.isWord, hstop]

theorem needWord_of_next {name : String} {cursor front behind : Cursor}
    (h : (Lexeme.next cursor).Is (.word name false) front behind) :
    needWord name s (.at' cursor) = .done () (.at' behind) := by
  have htoken : (Place.at' cursor).ahead.token = .word name false := h.token_eq
  have hstop : (Place.at' cursor).ahead.stop = behind := h.stop_eq
  simp [needWord, htoken, Token.isWord, hstop]

/-! ## Behind an operand -/

end Reader

/-- No member, template or type argument goes on with the operand in front of a place. -/
structure Place.EndsMember (place : Place) : Prop where
  mark : ∀ text ∈ ["!", "<", "<<", "[", ".", "\x60"], place.ahead.token.isMark text = false
  chain : place.ahead.token.isMark "?" = true → (Lexeme.next place.ahead.stop).token.isMark "." = false

/-- Nothing but an operator between two operands goes on with the operand in front of a place. -/
structure Place.EndsOperand (place : Place) : Prop where
  endsMember : place.EndsMember
  call : place.ahead.token.isMark "(" = false
  plus : place.ahead.token.isMark "++" = false
  minus : place.ahead.token.isMark "--" = false

theorem Token.Only.endsMember {place : Place} (h : place.ahead.token.Only ("(" :: closing)) :
    place.EndsMember where
  mark text htext := h.mark text fun hmem => by
    have apart : ∀ text ∈ ["!", "<", "<<", "[", ".", "\x60"], text ∉ "(" :: closing := by decide
    exact apart text htext hmem
  chain hmark := by
    rw [h.mark "?" (by decide)] at hmark
    cases hmark

theorem Token.Only.endsOperand {place : Place} (h : place.ahead.token.Closes) : place.EndsOperand where
  endsMember := (h.mono (List.subset_cons_self _ _)).endsMember
  call := h.mark _ (by decide)
  plus := h.mark _ (by decide)
  minus := h.mark _ (by decide)

namespace Reader

variable {α : Type} {s : Surroundings} {place : Place} {g : Grammar} {target : Node}

theorem isArrow_of_isAtom (h : target.shape.isAtom = true) : target.isArrow = false := by
  rw [Node.isArrow, beq_eq_false_iff_ne]
  intro hshape
  rw [hshape] at h
  cases h

theorem step_of_ends {noCall : Bool} (noIndex : Bool) (h : place.EndsMember)
    (hcall : noCall = true ∨ place.ahead.token.isMark "(" = false) (hatom : target.shape.isAtom = true) :
    step g noCall noIndex target s place = .done (target, false) place := by
  have hbang := h.mark "!" (by decide)
  have hangle := h.mark "<" (by decide)
  have hdouble := h.mark "<<" (by decide)
  have hindex := h.mark "[" (by decide)
  have hpoint := h.mark "." (by decide)
  have htemplate := h.mark "\x60" (by decide)
  have hkeyword : target.shape ≠ .other .superKeyword ∧ target.shape ≠ .other .importKeyword := by
    constructor <;> (intro hshape; simp [hshape, Shape.isAtom] at hatom)
  have hchain :
      (place.ahead.token.isMark "?" && (Lexeme.next place.ahead.stop).token.isMark ".") = false := by
    rw [Bool.and_eq_false_imp]
    exact h.chain
  unfold step
  rcases hcall with rfl | hcall
  · simp [takeMark, refuseBare, atTemplate, atTypeArguments, hbang,
      hangle, hdouble, hindex, hpoint, htemplate, -Bool.and_eq_true, hchain, hkeyword]
  · simp [takeMark, refuseBare, atTemplate, atTypeArguments, hbang,
      hangle, hdouble, hindex, hpoint, htemplate, -Bool.and_eq_true, hchain, hkeyword, hcall]

theorem steps_of_ends {noCall : Bool} (noIndex : Bool) {fuel : Nat} (hfuel : 0 < fuel) (h : place.EndsMember)
    (hcall : noCall = true ∨ place.ahead.token.isMark "(" = false) (hatom : target.shape.isAtom = true) :
    steps g noCall noIndex fuel target s place = .done target place := by
  obtain ⟨fuel, rfl⟩ := Nat.exists_eq_add_of_lt hfuel
  rw [Nat.zero_add, steps]
  simp [step_of_ends noIndex h hcall hatom]

theorem memberExpression_of_primary {place' : Place} (hopens : place.ahead.token.Opens)
    (hbudget : 0 < g.budget) (hprimary : primary g s place = .done target place') (h : place'.EndsMember)
    (hatom : target.shape.isAtom = true) : memberExpression g s place = .done (target, true) place' := by
  have hnew : place.ahead.token.isWord "new" = false := hopens.word_eq _ (by decide)
  have hsuper : place.ahead.token.isWord "super" = false := hopens.word_eq _ (by decide)
  have himport : place.ahead.token.isWord "import" = false := hopens.word_eq _ (by decide)
  have hangle : place'.ahead.token.isMark "<" = false := h.mark _ (by decide)
  unfold memberExpression
  simp [takeWord, hnew, hsuper, himport, hprimary, isArrow_of_isAtom hatom,
    instantiated, hangle, steps_of_ends, hbudget, h, hatom]

theorem callTypes?_of_ends (h : place.EndsMember) : callTypes? g s place = .done none place := by
  have hangle := h.mark "<" (by decide)
  have hdouble := h.mark "<<" (by decide)
  simp [callTypes?, atTypeArguments, hangle, hdouble]

theorem leftHandSide_of_member {place' : Place} (hopens : place.ahead.token.Opens)
    (hmember : memberExpression g s place = .done (target, true) place') (h : place'.EndsOperand)
    (hatom : target.shape.isAtom = true) : leftHandSide g s place = .done target place' := by
  have hsuper : place.ahead.token.isWord "super" = false := hopens.word_eq _ (by decide)
  have himport : place.ahead.token.isWord "import" = false := hopens.word_eq _ (by decide)
  have hangle : place.ahead.token.isMark "<" = false := hopens.mark _ (by decide)
  unfold leftHandSide
  simp [atElement, takeWord, hsuper, himport, hangle, hmember, isArrow_of_isAtom hatom, h.call,
    callTypes?_of_ends h.endsMember]

theorem isChain_of_isAtom (h : target.shape.isAtom = true) : target.isChain = false := by
  obtain ⟨shape, span, children⟩ := target
  cases shape with
  | other form => cases h
  | _ => rfl

theorem callTail_of_arguments {given : List Node} {place' : Place} (hatom : target.shape.isAtom = true)
    (hgiven : arguments g s place = .done given place') : callTail g target [] s place =
      .done (.mk (.call given.length) ⟨target.span.start, place'.lastEnd⟩ (target :: given)) place' := by
  simp [callTail, hgiven, isChain_of_isAtom hatom, node]

theorem leftHandSide_of_call {callee : Node} {given : List Node}
    {place' place'' : Place} (hopens : place.ahead.token.Opens)
    (hmember : memberExpression g s place = .done (callee, true) place')
    (hparen : place'.ahead.token = .mark "(") (hatom : callee.shape.isAtom = true)
    (hgiven : arguments g s place' = .done given place'') (h : place''.ahead.token.Closes)
    (hbudget : 0 < g.budget) : leftHandSide g s place =
      .done (.mk (.call given.length) ⟨callee.span.start, place''.lastEnd⟩ (callee :: given)) place'' := by
  have hsuper : place.ahead.token.isWord "super" = false := hopens.word_eq _ (by decide)
  have himport : place.ahead.token.isWord "import" = false := hopens.word_eq _ (by decide)
  have hangle : place.ahead.token.isMark "<" = false := hopens.mark _ (by decide)
  have hcalled : place'.ahead.token.isMark "(" = true := by rw [hparen]; rfl
  have honly : place'.ahead.token.Only ("(" :: Token.closing) :=
    hparen ▸ Token.only_mark (by decide) (by decide)
  have htypes : callTypes? g s place' = .done none place' := callTypes?_of_ends honly.endsMember
  have hsteps (target : Node) (hatom : target.shape.isAtom = true) :
      steps g false false g.budget target s place'' = .done target place'' :=
    steps_of_ends false hbudget h.endsOperand.endsMember (.inr (h.mark _ (by decide))) hatom
  unfold leftHandSide
  simp [atElement, takeWord, hsuper, himport, hangle, hmember, isArrow_of_isAtom hatom, htypes, hcalled,
    callTail_of_arguments hatom hgiven]
  exact hsteps _ rfl

/-! ## Up to an assignment -/

theorem postfixed_of_leftHandSide {place' : Place} {start : Nat}
    (hoperand : leftHandSide g s place = .done target place') (h : place'.EndsOperand)
    (hatom : target.shape.isAtom = true) : postfixed g start s place = .done target place' := by
  have hplus := h.plus
  have hminus := h.minus
  unfold postfixed
  simp only [run_bind, hoperand, isArrow_of_isAtom hatom, run_onNewLine,
    Bool.false_or, run_ite, run_pure, run_ahead]
  split
  · rfl
  cases htoken : place'.ahead.token with
  | mark text =>
    rw [htoken] at hplus hminus
    simp only [Token.isMark] at hplus hminus
    simp [hplus, hminus]
  | _ => rfl

theorem unaryExpression_of_leftHandSide {place' : Place} (hopens : place.ahead.token.Opens)
    (hoperand : leftHandSide g s place = .done target place') (h : place'.EndsOperand)
    (hatom : target.shape.isAtom = true) : unaryExpression g s place = .done target place' := by
  have hpostfixed (start : Nat) : postfixed g start s place = .done target place' :=
    postfixed_of_leftHandSide hoperand h hatom
  have hdelete := hopens.word_eq "delete" (by decide)
  have hvoid := hopens.word_eq "void" (by decide)
  have htypeof := hopens.word_eq "typeof" (by decide)
  have hawait := hopens.word_eq "await" (by decide)
  unfold unaryExpression
  cases hopens' : place.ahead.token with
  | word name escaped =>
    rw [hopens'] at hopens hdelete hvoid htypeof hawait
    cases hopens with
    | word _ hname =>
      simp only [Token.isWord, Bool.not_false, Bool.true_and,
        beq_eq_false_iff_ne] at hdelete hvoid htypeof hawait
      simp [hopens', hdelete, hvoid, htypeof, hawait, hpostfixed]
  | mark text =>
    rw [hopens'] at hopens
    cases hopens
    simp [hopens', hpostfixed]
  | _ => simp [hopens', hpostfixed]

def Sound (place : Place) : Prop := place.ahead.fault? = none

theorem refuseMalformed_of_sound (h : Sound place) : refuseMalformed s place = .done () place := by
  unfold Sound at h
  simp [refuseMalformed, h]

theorem sound_of_token (hvalid : ∀ fault, place.ahead.token ≠ .invalid fault)
    (hmark : place.ahead.token.isMark "\x60" = false) : Sound place := by
  unfold Sound Lexeme.fault?
  cases htoken : place.ahead.token with
  | mark text =>
    rw [htoken] at hmark
    simp only [Token.isMark] at hmark
    simp [hmark]
  | invalid fault => exact absurd htoken (hvalid fault)
  | _ => rfl

theorem sound_of_chunk (h : place.ahead.token = .mark "\x60")
    (hchunk : (TemplateText.readChunk place.ahead.stop.rest).stop ≠ .missing) : Sound place := by
  unfold Sound Lexeme.fault?
  simp [h, hchunk]

theorem operation_of_ends {minimum : Nat}
    (hword : ∀ name ∈ Token.asserting, place.ahead.token.isWord name = false) (hsound : Sound place)
    (hoperator : ∀ operator strength, place.ahead.token.binaryOperator? = some (operator, strength) →
      strength ≤ minimum)
    {fuel : Nat} (hfuel : 0 < fuel) : operation g fuel target minimum s place = .done target place := by
  obtain ⟨fuel, rfl⟩ := Nat.exists_eq_add_of_lt hfuel
  have has := hword "as" (by decide)
  have hsatisfies := hword "satisfies" (by decide)
  rw [Nat.zero_add, operation]
  cases hfound : place.ahead.token.binaryOperator? with
  | none => simp [has, hsatisfies, refuseMalformed_of_sound hsound, hfound]
  | some found =>
      simp [has, hsatisfies, refuseMalformed_of_sound hsound, hfound, hoperator found.1 found.2 hfound]

theorem operation_of_plus (left : Node) {right : Node} {cursor : Cursor}
    {place' : Place} {fuel minimum : Nat} (hplus : place.AtMark "+" cursor)
    (hminimum : minimum < 9) (hoperand : g.operand s (.at' cursor) = .done right place')
    (hright : operation g fuel right 9 s place' = .done right place') :
    operation g (fuel + 1) left minimum s place =
      operation g fuel (.mk (.binary "+") ⟨left.span.start, right.span.stop⟩ [left, right])
        minimum s place' := by
  have hsound : Sound place := by
    unfold Sound Lexeme.fault?
    simp [hplus.token_eq]
  have hoperator : (Token.mark "+").binaryOperator? = some ("+", 9) := rfl
  rw [← hplus.stop_eq] at hoperand
  rw [operation]
  simp [hplus.token_eq, Token.isWord, refuseMalformed_of_sound hsound,
    hoperator, Nat.not_le.2 hminimum, hoperand, hright]

theorem operation_of_closes (h : place.ahead.token.Closes) {fuel : Nat} (hfuel : 0 < fuel) :
    operation g fuel target 0 s place = .done target place := by
  refine operation_of_ends h.word (sound_of_token h.valid (h.mark _ (by decide)))
    (fun operator strength hfound => ?_) hfuel
  rw [h.operator] at hfound
  cases hfound

theorem binaryExpression_of_operand {place' : Place} (hoperand : g.operand s place = .done target place')
    (h : place'.ahead.token.Closes) (hatom : target.shape.isAtom = true) (hbudget : 0 < g.budget) :
    binaryExpression g s place = .done target place' := by
  have hfirst : firstOperand g s place = .done target place' := by
    unfold firstOperand recovering
    rw [hoperand]
  simp [binaryExpression, hfirst, isArrow_of_isAtom hatom, operation_of_closes h hbudget]

theorem conditionalExpression_of_operand {place' : Place} (hoperand : g.operand s place = .done target place')
    (h : place'.ahead.token.Closes) (hatom : target.shape.isAtom = true) (hbudget : 0 < g.budget) :
    conditionalExpression g s place = .done target place' := by
  simp [conditionalExpression, binaryExpression_of_operand hoperand h hatom hbudget, isArrow_of_isAtom hatom,
    takeMark_of_not (h.mark "?" (by decide))]

theorem assignTo_of_closes {start : Nat} (h : place.ahead.token.Closes) :
    assignTo g start target s place = .done target place := by
  unfold assignTo
  cases htoken : place.ahead.token with
  | mark text =>
    have hoperator : text ∉ Token.assignmentOperators := by
      intro hmem
      have apart : ∀ operator ∈ Token.assignmentOperators, operator ∉ Token.closing := by decide
      have := h.mark text (apart text hmem)
      simp [htoken, Token.isMark] at this
    simp [htoken, hoperator]
  | _ => simp [htoken]

theorem plainAssignment_of_operand {place' : Place} (hopens : place.ahead.token.Opens) (hsound : Sound place)
    (hoperand : ∀ s, g.operand s place = .done target place')
    (h : place'.ahead.token.Closes) (hatom : target.shape.isAtom = true) (hbudget : 0 < g.budget) :
    plainAssignment g s place = .done target place' := by
  have hyield := hopens.word_eq "yield" (by decide)
  have hconditional := fun s => conditionalExpression_of_operand (s := s) (hoperand s) h hatom hbudget
  obtain ⟨shape, span, children⟩ := target
  unfold plainAssignment
  cases shape with
  | identifier _ | literal _ | template _ | call _ =>
    simp [hyield, refuseMalformed_of_sound hsound, hconditional, Node.shape, assignTo_of_closes h]
  | _ => cases hatom

theorem assignmentExpression_of_operand {place' : Place} (hopens : place.ahead.token.Opens)
    (hsound : Sound place) (hoperand : ∀ s, g.operand s place = .done target place')
    (h : place'.ahead.token.Closes) (hatom : target.shape.isAtom = true) (hbudget : 0 < g.budget) :
    assignmentExpression g s place = .done target place' := by
  simp [assignmentExpression, hopens.mark "<" (by decide),
    plainAssignment_of_operand hopens hsound hoperand h hatom hbudget]

theorem assignment_of_leftHandSide {budget depth : Nat} {place' : Place} (hopens : place.ahead.token.Opens)
    (hsound : Sound place)
    (hoperand : ∀ s, leftHandSide (Grammar.ofDepth budget depth) s place = .done target place')
    (h : place'.ahead.token.Closes) (hatom : target.shape.isAtom = true) (hbudget : 0 < budget) :
    (Grammar.ofDepth budget (depth + 2)).assignment s place = .done target place' := by
  refine assignmentExpression_of_operand hopens hsound (fun s => ?_) h hatom hbudget
  exact unaryExpression_of_leftHandSide hopens (hoperand s) h.endsOperand hatom

theorem freshExpression_of_assignment {place' : Place}
    (hassignment : g.assignment s.fresh place = .done target place')
    (h : place'.ahead.token.isMark "," = false) (hbudget : 0 < g.budget) :
    freshExpression g s place = .done target place' := by
  obtain ⟨fuel, hfuel⟩ := Nat.exists_eq_add_of_lt hbudget
  rw [Nat.zero_add] at hfuel
  simp [freshExpression, commaExpression, hassignment, hfuel, whileM, takeMark_of_not h]

/-! ## Literals and names -/

theorem primary_string {value : Text} (h : place.ahead.token = .string value) : primary g s place =
    .done (.mk (.literal (.string value)) ⟨place.ahead.first, place.ahead.stop.offset⟩ [])
    (.at' place.ahead.stop) := by
  unfold primary
  simp [h, Lexeme.fault?, node, Place.at']

theorem templateTail_closed {inner : Reader α} {start fuel : Nat}
    {tagged : Bool} {cursor : Cursor} {chunk : Chunk} {rest : Text}
    (hchunk : TemplateText.readChunk cursor.rest = ⟨chunk, none, .closed, rest⟩) (hfuel : 0 < fuel) :
    templateTail inner start tagged fuel cursor s place = .done ([chunk], []) (.at' (cursor.goTo rest)) := by
  obtain ⟨fuel, rfl⟩ := Nat.exists_eq_add_of_lt hfuel
  rw [Nat.zero_add, templateTail]
  cases tagged
  all_goals simp [hchunk]

theorem templateTail_embedded {inner : Reader α} {start fuel : Nat}
    {tagged : Bool} {cursor : Cursor} {chunk : Chunk} {rest : Text}
    {value : α} {behind place' : Place} {chunks : List Chunk}
    {values : List α} (hchunk : TemplateText.readChunk cursor.rest = ⟨chunk, none, .expression, rest⟩)
    (hinner : inner s (.at' (cursor.goTo rest)) = .done value behind)
    (hclose : behind.ahead.token = .mark "\x7d")
    (hrest : templateTail inner start tagged fuel behind.ahead.stop s behind =
      .done (chunks, values) place') :
    templateTail inner start tagged (fuel + 1) cursor s place =
      .done (chunk :: chunks, value :: values) place' := by
  rw [templateTail]
  cases tagged
  all_goals simp [hchunk, hinner, hclose, Token.isMark, hrest]

theorem not_missing_of_templateTail {inner : Reader α} {start fuel : Nat}
    {cursor : Cursor} {found : List Chunk × List α} {place' : Place}
    (h : templateTail inner start false fuel cursor s place = .done found place') :
    (TemplateText.readChunk cursor.rest).stop ≠ .missing := by
  intro hmissing
  cases fuel with
  | zero => cases h
  | succ fuel =>
    rw [templateTail] at h
    simp [hmissing, failMalformed] at h

theorem primary_of_templateTail {chunks : List Chunk} {embedded : List Node}
    {place' : Place} (h : place.ahead.token = .mark "\x60") (hsound : Sound place)
    (htail : templateTail (freshExpression g) place.ahead.start.offset false g.budget place.ahead.stop
      s place = .done (chunks, embedded) place') : primary g s place =
    .done (.mk (.template chunks) ⟨place.ahead.first, place'.lastEnd⟩ embedded) place' := by
  unfold Sound at hsound
  unfold primary
  simp [h, hsound, markedExpression, template, htail, node]

theorem primary_template {chunk : Chunk} {rest : Text} (h : place.ahead.token = .mark "\x60")
    (hchunk : TemplateText.readChunk place.ahead.stop.rest = ⟨chunk, none, .closed, rest⟩)
    (hbudget : 0 < g.budget) :
    primary g s place =
      .done (.mk (.template [chunk]) ⟨place.ahead.first, (place.ahead.stop.goTo rest).offset⟩ [])
      (.at' (place.ahead.stop.goTo rest)) :=
  primary_of_templateTail h (sound_of_chunk h (by rw [hchunk]; nofun)) (templateTail_closed hchunk hbudget)

theorem identifier_of_word {name : String} (h : place.ahead.token = .word name false)
    (hkeyword : name ∉ Token.keywords) (hawait : name ≠ "await") : identifier s place =
      .done (.mk (.identifier name) ⟨place.ahead.first, place.ahead.stop.offset⟩ [])
      (.at' place.ahead.stop) := by
  unfold identifier
  simp [h, hawait, hkeyword, node, Place.at']

theorem nameOrArrow_of_word {name text : String} (h : place.ahead.token = .word name false)
    (hname : Token.IsVariable name) (hmark : (Lexeme.next place.ahead.stop).token = .mark text)
    (htext : text ≠ "=>") :
    nameOrArrow g s place =
      .done (.mk (.identifier name) ⟨place.ahead.first, place.ahead.stop.offset⟩ [])
      (.at' place.ahead.stop) := by
  have hnext : (Place.at' place.ahead.stop).ahead.token = .mark text := hmark
  have harrow : takeMark "=>" s (.at' place.ahead.stop) = .done false (.at' place.ahead.stop) :=
    takeMark_of_not (by rw [hnext]; exact beq_eq_false_iff_ne.2 htext)
  unfold nameOrArrow
  simp [identifier_of_word h hname.not_keyword (hname.ne _ (by decide)),
    Node.shape, hnext, Token.isReference, harrow]

theorem primary_name {name text : String} (h : place.ahead.token = .word name false)
    (hname : Token.IsVariable name) (hasync : name ≠ "async")
    (hmark : (Lexeme.next place.ahead.stop).token = .mark text) (htext : text ≠ "=>") : primary g s place =
      .done (.mk (.identifier name) ⟨place.ahead.first, place.ahead.stop.offset⟩ [])
      (.at' place.ahead.stop) := by
  have hthis := hname.ne "this" (by decide)
  have hnull := hname.ne "null" (by decide)
  have htrue := hname.ne "true" (by decide)
  have hfalse := hname.ne "false" (by decide)
  have hfunction := hname.ne "function" (by decide)
  have hclass := hname.ne "class" (by decide)
  have hbare : bareName g s place =
      .done (.mk (.identifier name) ⟨place.ahead.first, place.ahead.stop.offset⟩ [])
      (.at' place.ahead.stop) := by
    have hplain := nameOrArrow_of_word (g := g) (s := s) h hname hmark htext
    by_cases hlet : name = "let"
    · subst hlet
      simp [bareName, h, Token.isWord, hplain]
    · simp [bareName, h, hname.isReference hlet, hplain]
  have hkeyword : keywordExpression g place.ahead.first name s place = bareName g s place := by
    unfold keywordExpression
    split <;> simp_all
  unfold primary
  simp [h, Lexeme.fault?, hkeyword, hbare]

/-! ## Arguments -/

theorem spreadable_of_assignment {place' : Place} (hopens : place.ahead.token.Opens)
    (hassignment : ∀ s, g.assignment s place = .done target place') :
    spreadable g s place = .done target place' := by
  simp [spreadable, takeMark_of_not (hopens.mark "..." (by decide)), freshAssignment, hassignment]

/-! ## Parentheses behind a name -/

theorem takeFieldModifier_of_paren
    (hparen : ∀ {name escaped}, place.ahead.token = .word name escaped →
      (Lexeme.next place.ahead.stop).token = .mark "(") :
    takeFieldModifier s place = .done false place := by
  unfold takeFieldModifier takeModifier
  cases htoken : place.ahead.token with
  | word name escaped => simp [hparen htoken, Token.isAnyWord, Token.isMark]
  | _ => simp [htoken]

theorem enclosed_of_operand {place' : Place} (hopens : place.ahead.token.Opens)
    (hparen : ∀ {name escaped}, place.ahead.token = .word name escaped →
      (Lexeme.next place.ahead.stop).token = .mark "(")
    (hoperand : ∀ s, g.operand s place = .done target place')
    (hspreadable : ∀ s, spreadable g s place = .done target place')
    (h : place'.ahead.token.Closes) (hatom : target.shape.isAtom = true) (hbudget : 0 < g.budget) :
    enclosed g s place = .done (.expression target) place' := by
  have hdots : place.ahead.token.isMark "..." = false := hopens.mark _ (by decide)
  have hquestion : place'.ahead.token.isMark "?" = false := h.mark _ (by decide)
  have hcolon : place'.ahead.token.isMark ":" = false := h.mark _ (by decide)
  have hbinary := fun s => binaryExpression_of_operand (s := s) (hoperand s) h hatom hbudget
  unfold enclosed
  simp [takeFieldModifier_of_paren hparen, hdots, hquestion, hcolon,
    hbinary, assignTo_of_closes h, hspreadable]

theorem asyncExpression_of_paren (h : place.ahead.token = .word "async" false)
    (hparen : (Lexeme.next place.ahead.stop).token = .mark "(") : asyncExpression g s place =
      if s.arrowStart == some place.ahead.first && !(Lexeme.next place.ahead.stop).onNewLine then
        parenthesesOrArrow g place.ahead.first
          (some (.mk (.identifier "async") ⟨place.ahead.first, place.ahead.stop.offset⟩ []))
          s (.at' place.ahead.stop)
      else .done (.mk (.identifier "async") ⟨place.ahead.first, place.ahead.stop.offset⟩ [])
        (.at' place.ahead.stop) := by
  have hname : Token.IsVariable "async" := by
    unfold Token.IsVariable
    decide
  have hidentifier := identifier_of_word (s := s) h hname.not_keyword (hname.ne _ (by decide))
  have hplain := nameOrArrow_of_word (g := g) (s := s) h hname hparen (by decide)
  unfold asyncExpression
  simp [hparen, Token.isWord, Token.isMark, hidentifier, hplain]

theorem primary_async (h : place.ahead.token = .word "async" false) :
    primary g s place = asyncExpression g s place := by
  unfold primary
  simp [h, Lexeme.fault?, keywordExpression]

theorem parenthesesOrArrow_of_items (callee : Node) (start : Nat) {given : List Node} {behind place' : Place}
    (hopen : needMark "(" s place = .done () behind)
    (hitems : enclosedItems g start g.budget [] s behind =
      .done (given.map Enclosed.expression).reverse place')
    (hclose : place'.ahead.token = .mark ")") (h : (Lexeme.next place'.ahead.stop).token.Closes) :
    parenthesesOrArrow g start (some callee) s place =
      .done (.mk (.call given.length) ⟨start, place'.ahead.stop.offset⟩ (callee :: given))
      (.at' place'.ahead.stop) := by
  have hcolon : (Place.at' place'.ahead.stop).ahead.token.isMark ":" = false := h.mark _ (by decide)
  have harrow : (Place.at' place'.ahead.stop).ahead.token.isMark "=>" = false := h.mark _ (by decide)
  have hnodes : (given.map Enclosed.expression).map Enclosed.node = given := by
    rw [List.map_map]
    exact List.map_id given
  unfold parenthesesOrArrow
  simp [hopen, hitems, needMark_of_eq hclose, hcolon, harrow,
    hnodes, arrowResult?, node, Enclosed.isParameter]

end Reader
end ClassWeave
