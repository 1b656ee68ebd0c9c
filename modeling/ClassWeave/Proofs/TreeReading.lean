import ClassWeave.Proofs.StaticTree
/-!
# Trees that are read

A tree of helper calls is read as it is written, wherever a comma, a closing bracket or the end of a
statement stands behind it.
-/

namespace ClassWeave

namespace HelperTree

mutual

def node : HelperTree → Nat → Node
  | .leaf lead literal _, start =>
    .mk literal.shape ⟨start + lead.text.byteLength,
      start + lead.text.byteLength + literal.text.byteLength⟩ []
  | .call lead helper callee behind given trail, start =>
    .mk (.call given.length) ⟨start + lead.text.byteLength,
        start + lead.text.byteLength + (core (.call lead helper callee behind given trail)).byteLength⟩
      (.mk (.identifier callee.name) ⟨start + lead.text.byteLength,
        start + lead.text.byteLength + Text.byteLength callee.name.toList⟩ [] ::
        nodes given
          (start + lead.text.byteLength + Text.byteLength callee.name.toList + behind.text.byteLength + 1))

def nodes : List HelperTree → Nat → List Node
  | [], _ => []
  | tree :: rest, start => node tree start :: nodes rest (start + tree.text.byteLength + 1)

end

mutual

def size : HelperTree → Nat
  | .leaf _ _ _ => 1
  | .call _ _ _ _ given _ => sizes given + 2

def sizes : List HelperTree → Nat
  | [] => 1
  | tree :: rest => size tree + sizes rest

end

theorem length_nodes : ∀ (given : List HelperTree) (start : Nat), (nodes given start).length = given.length
  | [], _ => rfl
  | tree :: rest, start => by rw [nodes, List.length_cons, length_nodes rest, List.length_cons]

theorem isAtom_node (tree : HelperTree) (start : Nat) : (tree.node start).shape.isAtom = true := by
  cases tree with
  | leaf lead literal trail =>
    rw [node]
    cases literal <;> rfl
  | call lead helper callee behind given trail =>
    rw [node]
    rfl

theorem size_pos (tree : HelperTree) : 0 < tree.size := by
  cases tree with
  | leaf lead literal trail => exact Nat.one_pos
  | call lead helper callee behind given trail =>
    rw [size]
    omega

theorem length_lt_sizes : ∀ given : List HelperTree, given.length < sizes given
  | [] => Nat.one_pos
  | tree :: rest => by
    have ih := length_lt_sizes rest
    have := tree.size_pos
    rw [sizes, List.length_cons]
    omega

theorem size_le_sizes {given : List HelperTree} {tree : HelperTree} (h : tree ∈ given) :
    tree.size ≤ sizes given := by
  induction given with
  | nil => cases h
  | cons first rest ih =>
    rw [sizes]
    rcases List.mem_cons.1 h with rfl | h
    · omega
    · have := ih h
      omega

/-! ## Tokens of a tree -/

open Lexeme Reader

theorem endsName_append {gap : Text} (between : Between gap) {rest : Text} (hrest : EndsName rest) :
    EndsName (gap ++ rest) := by
  cases gap with
  | nil => exact hrest
  | cons c gap => exact between.apart

theorem endsName_paren (rest : Text) : EndsName ('(' :: rest) := by
  intro c hc
  obtain rfl : '(' = c := Option.some.inj hc
  decide

def behindName (behind : Gap) (given : List HelperTree) (more : Text) : Text :=
  behind.text ++ '(' :: (list given ++ ')' :: more)

theorem core_call (lead : Gap) (helper : Helper) (callee : Callee)
    (behind : Gap) (given : List HelperTree) (trail : Gap) (more : Text) :
    (call lead helper callee behind given trail).core ++ more =
      callee.name.toList ++ behindName behind given more := by
  simp [core, behindName]

theorem byteLength_core_call (lead : Gap) (helper : Helper) (callee : Callee)
    (behind : Gap) (given : List HelperTree) (trail : Gap) :
    (call lead helper callee behind given trail).core.byteLength =
      Text.byteLength callee.name.toList + behind.text.byteLength + 1 + (list given).byteLength + 1 := by
  have hopen : ('(' : Char).utf8Size = 1 := rfl
  have hclose : (')' : Char).utf8Size = 1 := rfl
  rw [core]
  simp only [Text.byteLength_append, Text.byteLength_cons, Text.byteLength_nil, hopen, hclose]
  omega

theorem next_callee (lead behind : Gap) (callee : Callee) (given : List HelperTree)
    (more : Text) (start : Nat) :
    (next ⟨lead.text ++ (callee.name.toList ++ behindName behind given more), start⟩).Is
    (.word callee.name false)
      ⟨callee.name.toList ++ behindName behind given more, start + lead.text.byteLength⟩
      ⟨behindName behind given more, start + lead.text.byteLength + Text.byteLength callee.name.toList⟩ := by
  have found :=
    next_word lead.between callee.word
      (endsName_append behind.between (endsName_paren (list given ++ ')' :: more))) start
  rwa [String.ofList_toList] at found

theorem next_paren (behind : Gap) (given : List HelperTree) (more : Text) (start : Nat) :
    (next ⟨behindName behind given more, start⟩).Is (.mark "(")
      ⟨'(' :: (list given ++ ')' :: more), start + behind.text.byteLength⟩
      ⟨list given ++ ')' :: more, start + behind.text.byteLength + 1⟩ :=
    next_mark behind.between _ _ (by decide) _ start

theorem opens_core (tree : HelperTree) (more : Text) (start : Nat) :
    (Place.at' ⟨tree.lead.text ++ (tree.core ++ more), start⟩).ahead.token.Opens ∧
      Sound (.at' ⟨tree.lead.text ++ (tree.core ++ more), start⟩) := by
  cases tree with
  | leaf lead literal trail =>
    cases literal with
    | string quote body value hquote closed =>
      have found := next_string lead.between hquote (closed more) start
      have htoken : (Place.at' ⟨lead.text ++ (quote :: body ++ more), start⟩).ahead.token = .string value :=
        found.token_eq
      exact ⟨htoken ▸ .string value, sound_of_token (htoken ▸ nofun) (htoken ▸ rfl)⟩
    | template body raw value closed =>
      have found := next_mark lead.between TemplateText.mark "\x60" (by decide) (body ++ more) start
      have htoken : (Place.at' ⟨lead.text ++ (TemplateText.mark :: body ++ more), start⟩).ahead.token =
        .mark "\x60" :=
        found.token_eq
      have hchunk := (congrArg (TemplateText.readChunk ·.rest) found.stop_eq).trans (closed more)
      exact ⟨htoken ▸ .template, sound_of_chunk htoken fun hmissing => by
        cases (congrArg (·.stop) hchunk).symm.trans hmissing⟩
  | call lead helper callee behind given trail =>
    rw [core_call]
    have htoken :
        (Place.at' ⟨lead.text ++ (callee.name.toList ++ behindName behind given more), start⟩).ahead.token =
          .word callee.name false := (next_callee lead behind callee given more start).token_eq
    exact ⟨htoken ▸ .word _ callee.isVariable, sound_of_token (htoken ▸ nofun) (htoken ▸ rfl)⟩

theorem paren_behind_word (tree : HelperTree) (more : Text) (start : Nat) {name : String} {escaped : Bool}
    (h : (Place.at' ⟨tree.lead.text ++ (tree.core ++ more), start⟩).ahead.token = .word name escaped) :
    (next (Place.at' ⟨tree.lead.text ++ (tree.core ++ more), start⟩).ahead.stop).token = .mark "(" := by
  cases tree with
  | leaf lead literal trail =>
    exfalso
    cases literal with
    | string quote body value hquote closed =>
      have found := (next_string lead.between hquote (closed more) start).token_eq
      cases found.symm.trans h
    | template body raw value closed =>
      have found :=
        (next_mark lead.between TemplateText.mark "\x60" (by decide) (body ++ more) start).token_eq
      cases found.symm.trans h
  | call lead helper callee behind given trail =>
    rw [core_call]
    exact (congrArg (next · |>.token) (next_callee lead behind callee given more start).stop_eq).trans
      (next_paren behind given more _).token_eq

/-! ## Leaves -/

/-- How a reader reads a tree: as something made of its node, up to what stands behind it. -/
def ReadAs {α : Type} (reader : Reader α) (result : Node → α) (tree : HelperTree) : Prop :=
  ∀ start rest, (∀ offset, (next ⟨tree.trail.text ++ rest, offset⟩).token.Closes) → ∀ s,
    reader s (.at' ⟨tree.lead.text ++ (tree.core ++ (tree.trail.text ++ rest)), start⟩) =
    .done (result (tree.node start))
      (.at' ⟨tree.trail.text ++ rest, start + tree.lead.text.byteLength + tree.core.byteLength⟩)

theorem readAs_leaf (lead trail : Gap) (literal : Leaf) {budget : Nat} (hbudget : 0 < budget) (depth : Nat) :
    ReadAs (leftHandSide (Grammar.ofDepth budget depth)) id (.leaf lead literal trail) := by
  intro start rest closes s
  have hopens := (opens_core (.leaf lead literal trail) (trail.text ++ rest) start).1
  have hcloses := closes (start + lead.text.byteLength + literal.text.byteLength)
  have hbudget' : 0 < (Grammar.ofDepth budget depth).budget := by cases depth <;> exact hbudget
  refine leftHandSide_of_member hopens (memberExpression_of_primary hopens hbudget' ?_
    hcloses.endsOperand.endsMember (isAtom_node _ _)) hcloses.endsOperand (isAtom_node _ _)
  cases literal with
  | string quote body value hquote closed =>
    have found := next_string lead.between hquote (closed (trail.text ++ rest)) start
    have htoken : (Place.at' ⟨lead.text ++ (quote :: body ++ (trail.text ++ rest)), start⟩).ahead.token =
      .string value :=
      found.token_eq
    have hread := primary_string (g := Grammar.ofDepth budget depth) (s := s) htoken
    simp only [Place.at', found.first_eq, found.stop_eq] at hread
    exact hread
  | template body raw value closed =>
    have found :=
      next_mark lead.between TemplateText.mark "\x60" (by decide) (body ++ (trail.text ++ rest)) start
    have htoken :
        (Place.at' ⟨lead.text ++ TemplateText.mark :: (body ++ (trail.text ++ rest)), start⟩).ahead.token =
          .mark "\x60" := found.token_eq
    have hchunk :=
      (congrArg (TemplateText.readChunk ·.rest) found.stop_eq).trans (closed (trail.text ++ rest))
    have hread := primary_template (g := Grammar.ofDepth budget depth) (s := s) htoken hchunk hbudget'
    simp only [Place.at', found.first_eq, found.stop_eq, Cursor.goTo_append, Nat.add_assoc] at hread
    simp only [node, core, Leaf.text, Leaf.shape, Text.byteLength_cons, Place.at', Nat.add_assoc]
    exact hread

/-! ## Arguments -/

theorem closes_behind (gap : Gap) (c : Char) (text : String) (h : (c, text) ∈ loneMarks)
    (hclosing : text ∈ Token.closing) (rest : Text) (offset : Nat) :
    (next ⟨gap.text ++ c :: rest, offset⟩).token.Closes :=
  (next_mark gap.between _ _ h rest offset).token_eq ▸ Token.closes_mark hclosing

theorem list_single (tree : HelperTree) (more : Text) :
    list [tree] ++ more = tree.lead.text ++ (tree.core ++ (tree.trail.text ++ more)) := by
  simp [list]

theorem list_cons (tree next : HelperTree) (given : List HelperTree) (more : Text) :
    list (tree :: next :: given) ++ more =
    tree.lead.text ++ (tree.core ++ (tree.trail.text ++ ',' :: (list (next :: given) ++ more))) := by
  simp [list]

theorem byteLength_text (tree : HelperTree) : tree.text.byteLength =
    tree.lead.text.byteLength + tree.core.byteLength + tree.trail.text.byteLength := by
  simp only [text, Text.byteLength_append]
  omega

theorem byteLength_list_cons (tree next : HelperTree) (given : List HelperTree) :
    (list (tree :: next :: given)).byteLength =
      tree.text.byteLength + 1 + (list (next :: given)).byteLength := by
  have hcomma : (',' : Char).utf8Size = 1 := rfl
  have hlist := congrArg Text.byteLength (list_cons tree next given [])
  simp only [List.append_nil, Text.byteLength_append, Text.byteLength_cons, hcomma] at hlist
  rw [byteLength_text, hlist]
  omega

theorem listUntil_of_readAs {reader : Reader Node} {s : Surroundings} :
    ∀ {given : List HelperTree} {fuel : Nat},
    given.length < fuel → (∀ tree ∈ given, ReadAs reader id tree) → ∀ (start : Nat) (rest : Text),
    listUntil ")" reader fuel s (.at' ⟨list given ++ ')' :: rest, start⟩) =
      .done (nodes given start) (.at' ⟨rest, start + (list given).byteLength + 1⟩)
  | _, 0, hfuel, _, _, _ => absurd hfuel (Nat.not_lt_zero _)
  | [], fuel + 1, _, _, start, rest => by
    have htake := takeMark_of_next (s := s) (next_mark between_nil ')' ")" (by decide) rest start)
    rw [list, List.nil_append, listUntil, run_bind]
    rw [List.nil_append] at htake
    rw [htake]
    rfl
  | tree :: given, fuel + 1, hfuel, hreads, start, rest => by
    have hfirst := hreads tree List.mem_cons_self
    cases given with
    | nil =>
      have hopens := (opens_core tree (tree.trail.text ++ ')' :: rest) start).1
      have hitem :=
        hfirst start (')' :: rest) (closes_behind tree.trail ')' ")" (by decide) (by decide) rest) s
      have htake := takeMark_of_next (s := s) (next_mark tree.trail.between ')' ")" (by decide) rest
        (start + tree.lead.text.byteLength + tree.core.byteLength))
      have hoffset : start + (list [tree]).byteLength = start + tree.text.byteLength := rfl
      rw [list_single, hoffset, byteLength_text]
      simp only [listUntil, run_bind, takeMark_of_not (hopens.mark ")" (by decide)),
        hitem, htake, run_ite, run_pure, Bool.false_eq_true, if_false, if_true, id, nodes]
      exact congrArg (fun offset => Outcome.done _ (.at' ⟨rest, offset⟩)) (by omega)
    | cons next given =>
      have hmore := listUntil_of_readAs (s := s) (Nat.lt_of_succ_lt_succ hfuel)
        (fun other hother => hreads other (List.mem_cons_of_mem _ hother))
        (start + tree.text.byteLength + 1) rest
      have hopens :=
        (opens_core tree (tree.trail.text ++ ',' :: (list (next :: given) ++ ')' :: rest)) start).1
      have hitem := hfirst start (',' :: (list (next :: given) ++ ')' :: rest))
        (closes_behind tree.trail ',' "," (by decide) (by decide) _) s
      have found := next_mark tree.trail.between ',' "," (by decide) (list (next :: given) ++ ')' :: rest)
        (start + tree.lead.text.byteLength + tree.core.byteLength)
      have hneed := needMark_of_next (s := s) found
      have hnot := takeMark_of_not (s := s) (isMark_of_next found ")")
      have hoffset : start + tree.lead.text.byteLength + tree.core.byteLength +
        tree.trail.text.byteLength + 1 =
          start + tree.text.byteLength + 1 := by
        rw [byteLength_text]
        omega
      rw [list_cons, byteLength_list_cons, nodes]
      simp only [listUntil, run_bind, takeMark_of_not (hopens.mark ")" (by decide)),
        hitem, hnot, hneed, hoffset, hmore, run_ite, run_pure, Bool.false_eq_true, if_false, id]
      exact congrArg (fun offset => Outcome.done _ (.at' ⟨rest, offset⟩)) (by omega)

def Reads (tree : HelperTree) (budget : Nat) : Prop :=
  ∀ depth, tree.size ≤ depth → ReadAs (leftHandSide (Grammar.ofDepth budget depth)) id tree

theorem readAs_spreadable {tree : HelperTree} {budget depth : Nat}
    (hreads : Reads tree budget) (hdepth : tree.size ≤ depth) (hbudget : 0 < budget) :
    ReadAs (spreadable (Grammar.ofDepth budget (depth + 2))) id tree := by
  intro start rest closes s
  obtain ⟨hopens, hsound⟩ := opens_core tree (tree.trail.text ++ rest) start
  exact spreadable_of_assignment hopens fun s =>
    assignment_of_leftHandSide hopens hsound (hreads depth hdepth start rest closes)
      (closes _) (isAtom_node tree start) hbudget

theorem readAs_enclosed {tree : HelperTree} {budget depth : Nat}
    (hreads : Reads tree budget) (hdepth : tree.size ≤ depth) (hbudget : 0 < budget) :
    ReadAs (enclosed (Grammar.ofDepth budget (depth + 2))) .expression tree := by
  intro start rest closes s
  obtain ⟨hopens, hsound⟩ := opens_core tree (tree.trail.text ++ rest) start
  refine enclosed_of_operand hopens (fun h => paren_behind_word tree _ start h) (fun s => ?_)
    (fun s => readAs_spreadable hreads hdepth hbudget start rest closes s)
    (closes _) (isAtom_node tree start) hbudget
  exact unaryExpression_of_leftHandSide hopens
    (hreads (depth + 1) (Nat.le_succ_of_le hdepth) start rest closes s)
    (closes _).endsOperand (isAtom_node tree start)

theorem enclosedItems_of_readAs {g : Grammar} {s : Surroundings} (opening : Nat) :
    ∀ {given : List HelperTree} {fuel : Nat},
    given.length < fuel → (∀ tree ∈ given, ReadAs (enclosed g) .expression tree) →
    ∀ (start : Nat) (rest : Text) (before : List Enclosed), ∃ place,
      enclosedItems g opening fuel before s (.at' ⟨list given ++ ')' :: rest, start⟩) =
        .done (((nodes given start).map Enclosed.expression).reverse ++ before) place ∧
      place.ahead.token = .mark ")" ∧ place.ahead.stop = ⟨rest, start + (list given).byteLength + 1⟩
  | _, 0, hfuel, _, _, _, _ => absurd hfuel (Nat.not_lt_zero _)
  | [], fuel + 1, _, _, start, rest, before => by
    have found := next_mark between_nil ')' ")" (by decide) rest start
    have hparen := isMark_of_next found ")"
    rw [List.nil_append] at hparen
    refine ⟨.at' ⟨')' :: rest, start⟩, ?_, found.token_eq, found.stop_eq⟩
    simp [list, nodes, enclosedItems, hparen, atEnd]
  | tree :: given, fuel + 1, hfuel, hreads, start, rest, before => by
    have hfirst := hreads tree List.mem_cons_self
    cases given with
    | nil =>
      have hopens := (opens_core tree (tree.trail.text ++ ')' :: rest) start).1
      have hitem :=
        hfirst start (')' :: rest) (closes_behind tree.trail ')' ")" (by decide) (by decide) rest) s
      have found := next_mark tree.trail.between ')' ")" (by decide) rest
        (start + tree.lead.text.byteLength + tree.core.byteLength)
      have hparen := isMark_of_next found ")"
      have harrow := takeMark_of_not (s := s) (isMark_of_next found "=>")
      have hfuel' : 0 < fuel := Nat.lt_of_succ_lt_succ hfuel
      obtain ⟨fuel, rfl⟩ := Nat.exists_eq_add_of_lt hfuel'
      refine ⟨.at' ⟨tree.trail.text ++ ')' :: rest, start + tree.lead.text.byteLength + tree.core.byteLength⟩,
        ?_, found.token_eq, found.stop_eq.trans ?_⟩
      · rw [list_single, enclosedItems]
        simp [hopens.mark, hopens.ne_end, atEnd, hitem, hparen, harrow, nodes, enclosedItems]
      · rw [show list [tree] = tree.text from rfl, byteLength_text]
        exact congrArg (Cursor.mk rest) (by omega)
    | cons next given =>
      obtain ⟨place, hmore, htoken, hstop⟩ := enclosedItems_of_readAs (g := g) (s := s) opening
        (Nat.lt_of_succ_lt_succ hfuel) (fun other hother => hreads other (List.mem_cons_of_mem _ hother))
        (start + tree.text.byteLength + 1) rest (.expression (tree.node start) :: before)
      have hopens :=
        (opens_core tree (tree.trail.text ++ ',' :: (list (next :: given) ++ ')' :: rest)) start).1
      have hitem := hfirst start (',' :: (list (next :: given) ++ ')' :: rest))
        (closes_behind tree.trail ',' "," (by decide) (by decide) _) s
      have found := next_mark tree.trail.between ',' "," (by decide) (list (next :: given) ++ ')' :: rest)
        (start + tree.lead.text.byteLength + tree.core.byteLength)
      have hneed := needMark_of_next (s := s) found
      have hparen := isMark_of_next found ")"
      have harrow := takeMark_of_not (s := s) (isMark_of_next found "=>")
      have hoffset : start + tree.lead.text.byteLength + tree.core.byteLength +
        tree.trail.text.byteLength + 1 =
          start + tree.text.byteLength + 1 := by
        rw [byteLength_text]
        omega
      refine ⟨place, ?_, htoken, hstop.trans ?_⟩
      · rw [list_cons, enclosedItems]
        simp [hopens.mark, hopens.ne_end, atEnd, hitem, hparen, hneed, harrow, hoffset, hmore, nodes]
      · rw [byteLength_list_cons]
        exact congrArg (Cursor.mk rest) (by omega)

/-! ## Calls -/

section Call

variable (lead behind trail : Gap) (helper : Helper) (callee : Callee)
    {given : List HelperTree} {budget depth : Nat}

theorem arguments_of_reads (hlength : given.length < budget) (hreads : ∀ tree ∈ given, Reads tree budget)
    (hdepth : ∀ tree ∈ given, tree.size ≤ depth) (more : Text) (offset : Nat) (s : Surroundings) :
    arguments (Grammar.ofDepth budget (depth + 2)) s (.at' ⟨behindName behind given more, offset⟩) =
      .done (nodes given (offset + behind.text.byteLength + 1))
        (.at' ⟨more, offset + behind.text.byteLength + 1 + (list given).byteLength + 1⟩) := by
  rw [arguments, run_bind, needMark_of_next (next_paren behind given more offset)]
  exact listUntil_of_readAs hlength
    (fun tree htree => readAs_spreadable (hreads tree htree) (hdepth tree htree) (Nat.zero_lt_of_lt hlength))
    _ more

theorem readAs_of_name (hlength : given.length < budget) (hreads : ∀ tree ∈ given, Reads tree budget)
    (hdepth : ∀ tree ∈ given, tree.size ≤ depth) (start : Nat) (rest : Text)
    (closes : ∀ offset, (next ⟨trail.text ++ rest, offset⟩).token.Closes) (s : Surroundings)
    (hprimary : primary (Grammar.ofDepth budget (depth + 2)) s
        (.at' ⟨lead.text ++ (callee.name.toList ++ behindName behind given (trail.text ++ rest)), start⟩) =
      .done (.mk (.identifier callee.name) ⟨start + lead.text.byteLength,
          start + lead.text.byteLength + Text.byteLength callee.name.toList⟩ [])
        (.at' ⟨behindName behind given (trail.text ++ rest),
          start + lead.text.byteLength + Text.byteLength callee.name.toList⟩)) :
    leftHandSide (Grammar.ofDepth budget (depth + 2)) s
        (.at' ⟨lead.text ++ (callee.name.toList ++ behindName behind given (trail.text ++ rest)), start⟩) =
      .done ((call lead helper callee behind given trail).node start)
        (.at' ⟨trail.text ++ rest,
          start + lead.text.byteLength + (call lead helper callee behind given trail).core.byteLength⟩) := by
  have hbudget : 0 < budget := Nat.zero_lt_of_lt hlength
  have hopens := (opens_core (call lead helper callee behind given trail) (trail.text ++ rest) start).1
  rw [core_call] at hopens
  have hparen := (next_paren behind given (trail.text ++ rest)
    (start + lead.text.byteLength + Text.byteLength callee.name.toList)).token_eq
  have honly : Token.Only ("(" :: Token.closing) (.mark "(") := Token.only_mark (by decide) (by decide)
  have hmember := memberExpression_of_primary hopens hbudget hprimary (hparen ▸ honly).endsMember rfl
  have hcall := leftHandSide_of_call hopens hmember hparen rfl
    (arguments_of_reads behind hlength hreads hdepth (trail.text ++ rest) _ s) (closes _) hbudget
  have hoffset : start + lead.text.byteLength + (call lead helper callee behind given trail).core.byteLength =
      start + lead.text.byteLength + Text.byteLength callee.name.toList + behind.text.byteLength + 1 +
        (list given).byteLength + 1 := by
    rw [byteLength_core_call]
    omega
  rw [length_nodes] at hcall
  rw [node, hoffset]
  exact hcall

theorem readAs_of_arrow (hlength : given.length < budget) (hreads : ∀ tree ∈ given, Reads tree budget)
    (hdepth : ∀ tree ∈ given, tree.size ≤ depth) (start : Nat) (rest : Text)
    (closes : ∀ offset, (next ⟨trail.text ++ rest, offset⟩).token.Closes) (s : Surroundings) (offset : Nat)
    (name : Node) :
    parenthesesOrArrow (Grammar.ofDepth budget (depth + 2)) start (some name) s
        (.at' ⟨behindName behind given (trail.text ++ rest), offset⟩) =
      .done
      (.mk (.call given.length) ⟨start, offset + behind.text.byteLength + 1 + (list given).byteLength + 1⟩
          (name :: nodes given (offset + behind.text.byteLength + 1)))
        (.at' ⟨trail.text ++ rest, offset + behind.text.byteLength + 1 + (list given).byteLength + 1⟩) := by
  have hopen := needMark_of_next (s := s) (next_paren behind given (trail.text ++ rest) offset)
  obtain ⟨place, hitems, hclose, hstop⟩ := enclosedItems_of_readAs (s := s) start hlength
    (fun tree htree => readAs_enclosed (hreads tree htree) (hdepth tree htree) (Nat.zero_lt_of_lt hlength))
    (offset + behind.text.byteLength + 1) (trail.text ++ rest) []
  rw [List.append_nil] at hitems
  have hcall := parenthesesOrArrow_of_items name start hopen hitems hclose (hstop ▸ closes _)
  rw [hstop, length_nodes] at hcall
  exact hcall

theorem readAs_call (hlength : given.length < budget) (hreads : ∀ tree ∈ given, Reads tree budget)
    (hdepth : ∀ tree ∈ given, tree.size ≤ depth) :
    ReadAs (leftHandSide (Grammar.ofDepth budget (depth + 2)))
      id (.call lead helper callee behind given trail) := by
  intro start rest closes s
  have hcallee := next_callee lead behind callee given (trail.text ++ rest) start
  have htoken :
      (Place.at' ⟨lead.text ++ (callee.name.toList ++ behindName behind given (trail.text ++ rest)),
        start⟩).ahead.token =
        .word callee.name false := hcallee.token_eq
  have hparen := (congrArg (next · |>.token) hcallee.stop_eq).trans
    (next_paren behind given (trail.text ++ rest) _).token_eq
  have hopens := (opens_core (call lead helper callee behind given trail) (trail.text ++ rest) start).1
  have hcloses :=
    closes (start + lead.text.byteLength + (call lead helper callee behind given trail).core.byteLength)
  have hatom := isAtom_node (call lead helper callee behind given trail) start
  change leftHandSide _ s
    (.at' ⟨lead.text ++ ((call lead helper callee behind given trail).core ++ (trail.text ++ rest)), start⟩) =
    .done ((call lead helper callee behind given trail).node start) (.at' ⟨trail.text ++ rest,
      start + lead.text.byteLength + (call lead helper callee behind given trail).core.byteLength⟩)
  rw [core_call] at hopens ⊢
  have hname := readAs_of_name lead behind trail helper callee hlength hreads hdepth start rest closes s
  -- Parentheses behind `async` may hold the parameters of an arrow function, so they are not read
  -- as arguments at first.
  by_cases hasync : callee.name = "async"
  · have hasyncToken := htoken.trans (congrArg (Token.word · false) hasync)
    have hprimary := (primary_async (s := s) hasyncToken).trans
      (asyncExpression_of_paren (g := Grammar.ofDepth budget (depth + 2)) hasyncToken hparen)
    simp only [Place.at', hcallee.first_eq, hcallee.stop_eq, ← hasync] at hprimary
    split at hprimary
    · have hprimary := hprimary.trans (readAs_of_arrow behind trail hlength hreads hdepth _ rest closes s _ _)
      have hoffset : start + lead.text.byteLength +
        (call lead helper callee behind given trail).core.byteLength =
          start + lead.text.byteLength + Text.byteLength callee.name.toList + behind.text.byteLength + 1 +
            (list given).byteLength + 1 := by
        rw [byteLength_core_call]
        omega
      rw [node, hoffset] at hatom ⊢
      rw [hoffset] at hcloses
      exact leftHandSide_of_member hopens
        (memberExpression_of_primary hopens (Nat.zero_lt_of_lt hlength) hprimary
        hcloses.endsOperand.endsMember hatom) hcloses.endsOperand hatom
    · exact hname hprimary
  · have hprimary := primary_name (g := Grammar.ofDepth budget (depth + 2)) (s := s) htoken
      callee.isVariable hasync hparen (by decide)
    simp only [Place.at', hcallee.first_eq, hcallee.stop_eq] at hprimary
    exact hname hprimary

end Call

mutual

theorem reads : ∀ (tree : HelperTree) (budget : Nat), tree.size ≤ budget → Reads tree budget
  | .leaf lead literal trail, _, hbudget => fun depth _ => readAs_leaf lead trail literal hbudget depth
  | .call lead helper callee behind given trail, budget, hbudget => by
    intro depth hdepth
    rw [size] at hbudget hdepth
    have hlength := length_lt_sizes given
    obtain ⟨depth, rfl⟩ := Nat.exists_eq_add_of_le' (Nat.le_of_add_left_le hdepth)
    refine readAs_call lead behind trail helper callee (by omega) (allRead given budget (by omega))
      fun tree htree => ?_
    have := size_le_sizes htree
    omega

theorem allRead : ∀ (given : List HelperTree) (budget : Nat), sizes given ≤ budget →
    ∀ tree ∈ given, Reads tree budget
  | [], _, _, _, hmem => nomatch hmem
  | first :: _, _, hbudget, _, .head _ => reads first _ (Nat.le_trans (Nat.le_add_right _ _) hbudget)
  | _ :: rest, _, hbudget, tree, .tail _ hmem =>
      allRead rest _ (Nat.le_trans (Nat.le_add_left _ _) hbudget) tree hmem

end

end HelperTree
end ClassWeave
