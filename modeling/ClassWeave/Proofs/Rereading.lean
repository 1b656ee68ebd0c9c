import ClassWeave.Proofs.Offering
/-!
# Drafts that are read back

What it takes for a reader to find a draft as it was written: the expressions of the pass where they
were copied, and around them what was put there. What is found comes to what the draft does.
-/

namespace ClassWeave

namespace Node

def string? : Node → Option Text
  | .mk (.literal (.string value)) _ [] => some value
  | _ => none

def enclosed? : Node → Option Node
  | .mk .parenthesized _ [inner] => some inner
  | _ => none

def sum? : Node → Option (Node × Node)
  | .mk (.binary "+") _ [left, right] => some (left, right)
  | _ => none

def choice? : Node → Option (Node × Node × Node)
  | .mk .conditional _ [test, consequent, alternate] => some (test, consequent, alternate)
  | _ => none

def template? : Node → Option (List Chunk × List Node)
  | .mk (.template chunks) _ inner => some (chunks, inner)
  | _ => none

theorem eq_of_string? {node : Node} {value : Text} (h : node.string? = some value) :
    ∃ span, node = .mk (.literal (.string value)) span [] := by
  unfold string? at h
  split at h
  · cases h
    exact ⟨_, rfl⟩
  · cases h

theorem eq_of_enclosed? {node inner : Node} (h : node.enclosed? = some inner) :
    ∃ span, node = .mk .parenthesized span [inner] := by
  unfold enclosed? at h
  split at h
  · cases h
    exact ⟨_, rfl⟩
  · cases h

theorem eq_of_sum? {node : Node} {operands : Node × Node} (h : node.sum? = some operands) :
    ∃ span, node = .mk (.binary "+") span [operands.1, operands.2] := by
  unfold sum? at h
  split at h
  · cases h
    exact ⟨_, rfl⟩
  · cases h

theorem eq_of_choice? {node : Node} {found : Node × Node × Node} (h : node.choice? = some found) :
    ∃ span, node = .mk .conditional span [found.1, found.2.1, found.2.2] := by
  unfold choice? at h
  split at h
  · cases h
    exact ⟨_, rfl⟩
  · cases h

theorem eq_of_template? {node : Node} {found : List Chunk × List Node} (h : node.template? = some found) :
    ∃ span, node = .mk (.template found.1) span found.2 := by
  unfold template? at h
  split at h
  · cases h
    exact ⟨_, rfl⟩
  · cases h

end Node

/-! ## As it was written -/

section
variable (pass other : Pass)

def Node.CopiedAs (enclosed : Bool) (node found : Node) : Prop :=
  if enclosed then ∃ inner ∈ found.enclosed?, node.Alike pass other inner else node.Alike pass other found

instance (enclosed : Bool) (node found : Node) : Decidable (node.CopiedAs pass other enclosed found) :=
  inferInstanceAs (Decidable (if enclosed then ∃ inner ∈ found.enclosed?, node.Alike pass other inner
    else node.Alike pass other found))

/-- Whether a node of another text is what was written. -/
def Written.Reads : Written → Node → Prop
  | .copied enclosed node, found => node.CopiedAs pass other enclosed found
  | .quoted text, found => found.string? = some text
  | .led value, found => ∃ operands ∈ found.sum?, operands.1.string? = some [' '] ∧ value.Reads operands.2
  | .trailed value, found => ∃ operands ∈ found.sum?, value.Reads operands.1 ∧ operands.2.string? = some [' ']
  | .choice enclosed test value alternate, found => ∃ three ∈ found.choice?,
    test.CopiedAs pass other enclosed three.1 ∧ value.Reads three.2.1 ∧ alternate.Reads three.2.2
  | .listed node, found => ∃ inner ∈ found.joined?, node.Alike pass other inner

def Written.decideReads : (value : Written) → (found : Node) → Decidable (value.Reads pass other found)
  | .copied enclosed node, found => inferInstanceAs (Decidable (node.CopiedAs pass other enclosed found))
  | .quoted text, found => inferInstanceAs (Decidable (found.string? = some text))
  | .led value, found =>
    have := decideReads value
    inferInstanceAs (Decidable (∃ operands ∈ found.sum?, operands.1.string? = some [' '] ∧
      value.Reads pass other operands.2))
  | .trailed value, found =>
    have := decideReads value
    inferInstanceAs (Decidable (∃ operands ∈ found.sum?, value.Reads pass other operands.1 ∧
      operands.2.string? = some [' ']))
  | .choice enclosed test value alternate, found =>
    have := decideReads value
    have := decideReads alternate
    inferInstanceAs (Decidable (∃ three ∈ found.choice?, test.CopiedAs pass other enclosed three.1 ∧
      value.Reads pass other three.2.1 ∧ alternate.Reads pass other three.2.2))
  | .listed node, found => inferInstanceAs (Decidable (∃ inner ∈ found.joined?, node.Alike pass other inner))

instance (value : Written) (found : Node) : Decidable (value.Reads pass other found) :=
  value.decideReads pass other found

def Item.pieces : Item → List (Char ⊕ Written)
  | .shown text => text.map .inl
  | .body chunks _ inner => (weave chunks inner).map (Sum.map id (.copied false))
  | .hole value => [.inr value]

def ReadsAll (written : List (Char ⊕ Written)) (found : List (Char ⊕ Node)) : Prop :=
  List.Forall₂ (Sum.LiftRel (· = ·) (Written.Reads pass other)) written found

instance (written : List (Char ⊕ Written)) (found : List (Char ⊕ Node)) :
    Decidable (ReadsAll pass other written found) :=
  inferInstanceAs (Decidable (List.Forall₂ _ written found))

def Draft.Reads : Draft → Node → Prop
  | .quoted text, found => found.string? = some text
  | .template items, found => ∃ parts ∈ found.template?, parts.1.length = parts.2.length + 1 ∧
    ReadsAll pass other (items.flatMap Item.pieces) (weave parts.1 parts.2)

instance : (draft : Draft) → (found : Node) → Decidable (draft.Reads pass other found)
  | .quoted text, found => inferInstanceAs (Decidable (found.string? = some text))
  | .template items, found => inferInstanceAs (Decidable (∃ parts ∈ found.template?,
    parts.1.length = parts.2.length + 1 ∧
    ReadsAll pass other (items.flatMap Item.pieces) (weave parts.1 parts.2)))

end

/-! ## What is read comes to what was written -/

section
variable {setting : Setting} {pass other : Pass} {names : String → Bool}

theorem Node.CopiedAs.signs {enclosed : Bool} {node found : Node}
    (h : node.CopiedAs pass other enclosed found) :
    found.signs setting other = node.signs setting pass := by
  unfold Node.CopiedAs at h
  split at h
  · obtain ⟨inner, hinner, halike⟩ := h
    obtain ⟨span, rfl⟩ := Node.eq_of_enclosed? hinner
    rw [Node.signs, halike.signs]
  · exact (h.signs setting).symm

theorem Node.CopiedAs.bareText {enclosed : Bool} {node found : Node}
    (h : node.CopiedAs pass other enclosed found) :
    found.bareText other = node.bareText pass := by
  unfold Node.CopiedAs at h
  split at h
  · obtain ⟨inner, hinner, halike⟩ := h
    obtain ⟨span, rfl⟩ := Node.eq_of_enclosed? hinner
    exact halike.bareText.symm
  · exact h.bareText.symm

theorem Node.eq_of_joined? {node inner : Node} (h : node.joined? = some inner) :
    ∃ callee rest span, node = .mk (.call 1) span (callee :: rest) ∧ callee.shape = .other .member ∧
      Node.allTargets (callee :: rest) = inner.targets := by
  unfold Node.joined? at h
  split at h
  · cases h
    refine ⟨_, _, _, rfl, rfl, ?_⟩
    simp [Node.allTargets, Node.targets, Shape.isTarget, Shape.targetKind?]
  · cases h

theorem Node.signs_of_joined? {node inner : Node} (h : node.joined? = some inner) :
    node.signs setting pass = setting.list (inner.bareText pass) := by
  obtain ⟨callee, rest, span, rfl, -, -⟩ := Node.eq_of_joined? h
  rw [Node.signs.eq_7 setting pass _ _ _ (by simp) (by simp) (by simp) (by simp) (by simp) (by simp),
    Node.known, h]

theorem Node.signs_of_string? {node : Node} {value : Text} (h : node.string? = some value) :
    node.signs setting pass = Sign.spell value := by
  obtain ⟨span, rfl⟩ := Node.eq_of_string? h
  rw [Node.signs]
  rfl

theorem Node.isStringAmong_of_string? {node : Node} {value : Text} (h : node.string? = some value) :
    node.isStringAmong [value] = true := by
  obtain ⟨span, rfl⟩ := Node.eq_of_string? h
  simp [isStringAmong, unparenthesized]

theorem Written.Reads.signs : ∀ {value : Written} {found : Node}, value.Reads pass other found →
    found.signs setting other = value.signs setting pass
  | .copied enclosed node, found, h => Node.CopiedAs.signs h
  | .quoted text, found, h => Node.signs_of_string? h
  | .led value, found, ⟨operands, hsum, hspace, hvalue⟩ => by
    obtain ⟨span, rfl⟩ := Node.eq_of_sum? hsum
    have hplus : (operands.1.isStringAmong [[' ']] || operands.2.isStringAmong [[' ']]) = true := by
      rw [Node.isStringAmong_of_string? hspace, Bool.true_or]
    rw [Node.signs, if_pos hplus, Node.signs_of_string? hspace, hvalue.signs]
    rfl
  | .trailed value, found, ⟨operands, hsum, hvalue, hspace⟩ => by
    obtain ⟨span, rfl⟩ := Node.eq_of_sum? hsum
    have hplus : (operands.1.isStringAmong [[' ']] || operands.2.isStringAmong [[' ']]) = true := by
      rw [Node.isStringAmong_of_string? hspace, Bool.or_true]
    rw [Node.signs, if_pos hplus, Node.signs_of_string? hspace, hvalue.signs]
    rfl
  | .choice enclosed test value alternate, found, ⟨three, hchoice, htest, hvalue, halternate⟩ => by
    obtain ⟨span, rfl⟩ := Node.eq_of_choice? hchoice
    rw [Node.signs, htest.bareText, hvalue.signs, halternate.signs]
    rfl
  | .listed node, found, ⟨inner, hinner, halike⟩ => by
    rw [Node.signs_of_joined? hinner, ← halike.bareText]
    rfl

theorem Item.signs_eq (setting : Setting) (pass : Pass) (item : Item) :
    item.signs setting pass = signsOf (item.pieces.map (Sum.map id (Written.signs setting pass))) := by
  cases item with
  | shown text => simp [Item.signs, Item.pieces, ← signsOf_chars, Function.comp_def]
  | body chunks span inner =>
    rw [Item.signs, Node.allSigns_eq, weave_map, Item.pieces, List.map_map]
    congr 2
    funext piece
    cases piece <;> rfl
  | hole value => simp [Item.signs, Item.pieces]

theorem ReadsAll.signs :
    ∀ {written : List (Char ⊕ Written)} {found : List (Char ⊕ Node)}, ReadsAll pass other written found →
    signsOf (found.map (Sum.map id (Node.signs setting other))) =
      signsOf (written.map (Sum.map id (Written.signs setting pass)))
  | _, _, .nil => rfl
  | _, _, .cons (.inl heq) hrest => by
    have ih := ReadsAll.signs hrest
    unfold signsOf at ih ⊢
    rw [List.map_cons, List.map_cons, List.flatMap_cons, List.flatMap_cons, ih, heq]
    rfl
  | _, _, .cons (.inr hvalue) hrest => by
    have ih := ReadsAll.signs hrest
    unfold signsOf at ih ⊢
    rw [List.map_cons, List.map_cons, List.flatMap_cons, List.flatMap_cons, ih]
    exact congrArg (· ++ _) hvalue.signs

theorem signs_pieces (setting : Setting) (pass : Pass) : ∀ items : List Item,
    signsOf ((items.flatMap Item.pieces).map (Sum.map id (Written.signs setting pass))) =
      items.flatMap (Item.signs setting pass)
  | [] => rfl
  | item :: rest => by
    rw [List.flatMap_cons, List.map_append, signsOf_append, signs_pieces setting pass rest, ← Item.signs_eq,
      List.flatMap_cons]

/-- What is found where a draft was written comes to what the draft does. -/
theorem Draft.Reads.signs {draft : Draft} {found : Node} (h : draft.Reads pass other found) :
    found.signs setting other = draft.signs setting pass := by
  cases draft with
  | quoted text => exact Node.signs_of_string? h
  | template items =>
    obtain ⟨parts, hparts, -, hreads⟩ := h
    obtain ⟨span, rfl⟩ := Node.eq_of_template? hparts
    rw [Node.signs, Node.allSigns_eq, weave_map, hreads.signs, signs_pieces]
    rfl

/-! ## What is read is as tidy as what was written -/

def Written.Tidy (pass : Pass) (names : String → Bool) : Written → Prop
  | .copied _ node => node.Tidy pass names
  | .quoted _ => True
  | .led value => value.Tidy pass names
  | .trailed value => value.Tidy pass names
  | .choice _ test value alternate => test.Tidy pass names ∧ value.Tidy pass names ∧ alternate.Tidy pass names
  | .listed node => node.Tidy pass names

def Written.isAnd : Written → Bool
  | .copied _ node => node.isAnd
  | _ => false

theorem Node.concerns_of_not_target {node : Node} (h : node.shape.isTarget = false) :
    node.concerns names = false := by
  obtain ⟨shape, span, children⟩ := node
  cases shape with
  | importDeclaration declaration => cases h
  | call arity => cases h
  | _ => rfl

theorem Node.tidy_of_children {shape : Shape} {span : Span} {children : List Node}
    (h : AllTidy pass names children) (hshape : shape.isTarget = false) :
    (Node.mk shape span children).Tidy pass names := by
  refine tidy_mk h (fun chunks heq => ?_) (concerns_of_not_target hshape)
  rw [heq] at hshape
  cases hshape

theorem Node.tidy_of_string? {node : Node} {value : Text} (h : node.string? = some value) :
    node.Tidy pass names := by
  obtain ⟨span, rfl⟩ := eq_of_string? h
  exact tidy_of_children .nil rfl

theorem Node.CopiedAs.tidy {enclosed : Bool} {node found : Node} (h : node.CopiedAs pass other enclosed found)
    (htidy : node.Tidy pass names) : found.Tidy other names := by
  unfold Node.CopiedAs at h
  split at h
  · obtain ⟨inner, hinner, halike⟩ := h
    obtain ⟨span, rfl⟩ := Node.eq_of_enclosed? hinner
    exact Node.tidy_of_children (.cons (htidy.alike halike) .nil) rfl
  · exact htidy.alike h

theorem Written.Reads.tidy : ∀ {value : Written} {found : Node}, value.Reads pass other found →
    value.Tidy pass names → found.Tidy other names
  | .copied enclosed node, found, h, htidy => Node.CopiedAs.tidy h htidy
  | .quoted text, found, h, _ => Node.tidy_of_string? h
  | .led value, found, ⟨operands, hsum, hspace, hvalue⟩, htidy => by
    obtain ⟨span, rfl⟩ := Node.eq_of_sum? hsum
    exact Node.tidy_of_children (.cons (Node.tidy_of_string? hspace) (.cons (hvalue.tidy htidy) .nil)) rfl
  | .trailed value, found, ⟨operands, hsum, hvalue, hspace⟩, htidy => by
    obtain ⟨span, rfl⟩ := Node.eq_of_sum? hsum
    exact Node.tidy_of_children (.cons (hvalue.tidy htidy) (.cons (Node.tidy_of_string? hspace) .nil)) rfl
  | .choice enclosed test value alternate, found, ⟨three, hchoice, htest, hvalue, halternate⟩, htidy => by
    obtain ⟨span, rfl⟩ := Node.eq_of_choice? hchoice
    have hvalues : Node.AllTidy other names [three.2.1, three.2.2] :=
      .cons (hvalue.tidy htidy.2.1) (.cons (halternate.tidy htidy.2.2) .nil)
    exact Node.tidy_of_children (.cons (htest.tidy htidy.1) hvalues) rfl
  | .listed node, found, ⟨inner, hinner, halike⟩, htidy => by
    obtain ⟨callee, rest, span, rfl, hcallee, htargets⟩ := Node.eq_of_joined? hinner
    have hinside : inner.Tidy other names := Node.Tidy.alike htidy halike
    refine Node.tidy_mk (fun child hchild => ?_) (fun _ heq => by cases heq) ?_
    · refine hinside.mono fun target htarget => ?_
      rw [← htargets]
      exact Node.mem_allTargets_iff.2 ⟨child, hchild, htarget⟩
    · obtain ⟨shape, span', children⟩ := callee
      cases hcallee
      rfl

theorem Written.Reads.isAnd : ∀ {value : Written} {found : Node}, value.Reads pass other found →
    found.isAnd = value.isAnd
  | .copied true node, found, h => by
    obtain ⟨inner, hinner, halike⟩ := h
    obtain ⟨span, rfl⟩ := Node.eq_of_enclosed? hinner
    exact halike.isAnd.symm
  | .copied false node, found, h => (Node.Alike.isAnd h).symm
  | .quoted text, found, h => by
    obtain ⟨span, rfl⟩ := Node.eq_of_string? h
    rfl
  | .led value, found, ⟨operands, hsum, _⟩ => by
    obtain ⟨span, rfl⟩ := Node.eq_of_sum? hsum
    rfl
  | .trailed value, found, ⟨operands, hsum, _⟩ => by
    obtain ⟨span, rfl⟩ := Node.eq_of_sum? hsum
    rfl
  | .choice _ _ _ _, found, ⟨three, hchoice, _⟩ => by
    obtain ⟨span, rfl⟩ := Node.eq_of_choice? hchoice
    rfl
  | .listed node, found, ⟨inner, hinner, _⟩ => by
    obtain ⟨callee, rest, span, rfl, -, -⟩ := Node.eq_of_joined? hinner
    rfl

/-! ## Drafts without `test && value` -/

def ClassesClean (chunks : List Chunk) (inner : List Node) : Prop :=
  ∀ pieces ∈ classes chunks inner, ∀ node, .embedded node ∈ pieces →
    pieces = [.embedded node] ∨ node.isAnd = false

/-- Whether an expression that is written has tidy templates only, no calls of some names, and is
not `test && value`. -/
structure Written.Clean (pass : Pass) (names : String → Bool) (value : Written) : Prop where
  tidy : value.Tidy pass names
  isAnd_eq : value.isAnd = false

def Item.Clean (pass : Pass) (names : String → Bool) (item : Item) : Prop :=
  ∀ value, .inr value ∈ item.pieces → value.Clean pass names

def Entry.Clean (pass : Pass) (names : String → Bool) : Entry → Prop
  | .text _ => True
  | .splice items => ∀ item ∈ items, item.Clean pass names
  | .embed node => (Written.copied false node).Clean pass names
  | .conditional test value => test.Tidy pass names ∧ value.Tidy pass names

theorem clean_shown (text : Text) : (Item.shown text).Clean pass names := by
  intro value hvalue
  obtain ⟨c, -, heq⟩ := List.mem_map.1 hvalue
  cases heq

theorem clean_hole {value : Written} (h : value.Clean pass names) : (Item.hole value).Clean pass names := by
  intro found hfound
  cases List.mem_singleton.1 hfound
  exact h

theorem clean_body {node : Node} (h : node.Tidy pass names) {chunks : List Chunk}
    {span : Span} {inner : List Node} (hstanding : node.standing = .template chunks span inner) :
    (Item.body chunks span inner).Clean pass names := by
  have hnode := Node.unparenthesized_of_template hstanding
  have htemplate := h.template hnode
  have hinner := (hnode ▸ h.mono node.targets_unparenthesized_subset).child
  intro value hvalue
  obtain ⟨piece, hpiece, heq⟩ := List.mem_map.1 hvalue
  cases piece with
  | inl c => cases heq
  | inr found =>
    cases heq
    have hfound := (mem_weave htemplate.fits).1 hpiece
    exact ⟨hinner found hfound, htemplate.clean found hfound⟩

theorem isAnd_of_other {node : Node} (h : node.standing = .other) : node.isAnd = false := by
  unfold Node.standing at h
  unfold Node.isAnd
  split at h
  · cases h
  · split at h
    · cases h
    · cases h
    · rename_i heq
      rw [heq]
    · rename_i hand _
      split
      · rename_i heq
        exact absurd heq (hand _ _ _)
      · rfl

theorem clean_entry? {node : Node} (h : node.Tidy pass names) {entry : Entry}
    (hentry : node.standing.entry? node = some entry) : entry.Clean pass names := by
  cases hstanding : node.standing with
  | constant text =>
    rw [hstanding] at hentry
    obtain ⟨text, -, rfl⟩ := Option.map_eq_some_iff.1 hentry
    trivial
  | template chunks span inner =>
    rw [hstanding] at hentry
    cases hentry
    intro item hitem
    cases List.mem_singleton.1 hitem
    exact clean_body h hstanding
  | conditional test value =>
    rw [hstanding] at hentry
    cases hentry
    exact tidy_of_conditional h hstanding
  | other =>
    rw [hstanding] at hentry
    cases hentry
    exact ⟨h, isAnd_of_other hstanding⟩

theorem Node.isAnd_unparenthesized (node : Node) : node.unparenthesized.isAnd = node.isAnd := by
  have hbare : ∀ node : Node, node.unparenthesized.unparenthesized = node.unparenthesized := by
    intro node
    fun_induction unparenthesized node with
    | case1 span inner ih => exact ih
    | case2 node hnode => exact unparenthesized.eq_2 node hnode
  unfold isAnd
  rw [hbare]

theorem clean_item {piece : Piece Node} (h : PiecesTidy pass names [piece])
    (hclean : ∀ node, .embedded node = piece → node.isAnd = false) : piece.item.Clean pass names := by
  cases piece with
  | text word => exact clean_shown word
  | embedded node =>
    have hnode : node.Tidy pass names := h node (List.mem_singleton_self _)
    have hbare : (Written.copied false node.unparenthesized).Clean pass names :=
      ⟨hnode.mono node.targets_unparenthesized_subset, (node.isAnd_unparenthesized).trans (hclean node rfl)⟩
    rw [Piece.item]
    cases hstanding : node.standing with
    | constant text => exact clean_shown text
    | template chunks span inner => exact clean_body hnode hstanding
    | conditional test value => exact clean_hole hbare
    | other => exact clean_hole hbare

theorem clean_gluedEntry {pieces : List (Piece Node)} (h : PiecesTidy pass names pieces)
    (hclean : ∀ node, .embedded node ∈ pieces → node.isAnd = false) {entry : Entry}
    (hentry : gluedEntry pieces = some entry) : entry.Clean pass names := by
  unfold gluedEntry at hentry
  split at hentry
  · obtain ⟨text, -, rfl⟩ := Option.map_eq_some_iff.1 hentry
    trivial
  · cases hentry
    intro item hitem
    obtain ⟨piece, hpiece, rfl⟩ := List.mem_map.1 hitem
    refine clean_item (fun node hnode => h node ?_) fun node hnode => hclean node (hnode ▸ hpiece)
    exact List.mem_singleton.1 hnode ▸ hpiece

theorem clean_entryOf {pieces : List (Piece Node)} (h : PiecesTidy pass names pieces)
    (hclean : ∀ node, .embedded node ∈ pieces → pieces = [.embedded node] ∨ node.isAnd = false)
    {entry : Entry} (hentry : entryOf pieces = some entry) : entry.Clean pass names := by
  match pieces, h, hclean, hentry with
  | [], _, _, hentry => cases hentry
  | [.text word], _, _, hentry => cases hentry; trivial
  | [.embedded node], h, _, hentry => exact clean_entry? (h node (List.mem_cons_self ..)) hentry
  | first :: second :: rest, h, hclean, hentry =>
    have hglued : gluedEntry (first :: second :: rest) = some entry := by
      cases first <;> exact hentry
    exact clean_gluedEntry h (fun node hnode => (hclean node hnode).resolve_left (by simp)) hglued

theorem clean_entries {chunks : List Chunk} {inner : List Node} (h : Node.AllTidy pass names inner)
    (hclean : ClassesClean chunks inner) : ∀ entry ∈ entries chunks inner, entry.Clean pass names := by
  intro entry hentry
  obtain ⟨pieces, hpieces, heq⟩ := List.mem_filterMap.1 hentry
  exact clean_entryOf (piecesTidy h hpieces) (hclean pieces hpieces) heq

theorem tidy_padded {value : Written} (h : value.Tidy pass names) (lead trail : Bool) :
    (padded lead trail value).Tidy pass names := by
  cases lead <;> cases trail <;> exact h

theorem clean_writtenConditional {test value : Node} (htest : test.Tidy pass names)
    (hvalue : value.Tidy pass names) (lead trail : Bool) :
    (writtenConditional test value lead trail).Clean pass names := by
  have hunpadded : (Written.copied (!value.unpadded.isOperand) value.unpadded).Tidy pass names :=
    hvalue.mono value.targets_unpadded_subset
  refine ⟨⟨htest, ?_, trivial⟩, rfl⟩
  split
  · trivial
  · exact tidy_padded hunpadded lead trail

theorem clean_spaced (wanted : Bool) : ∀ item ∈ spaced wanted, item.Clean pass names := by
  intro item hitem
  cases wanted with
  | false => cases hitem
  | true =>
    cases List.mem_singleton.1 hitem
    exact clean_shown _

theorem clean_itemsOf : ∀ {list : List Entry} {first behindConditional : Bool},
    (∀ entry ∈ list, entry.Clean pass names) →
    ∀ item ∈ itemsOf first behindConditional list, item.Clean pass names
  | [], _, _, _, _, hitem => by cases hitem
  | entry :: rest, first, behindConditional, h, item, hitem => by
    have hentry := h entry (List.mem_cons_self ..)
    have hrest := fun other hother => h other (List.mem_cons_of_mem _ hother)
    cases entry with
    | text words =>
      rw [itemsOf] at hitem
      rcases List.mem_append.1 hitem with hitem | hitem
      · exact clean_spaced _ item hitem
      · rcases List.mem_cons.1 hitem with rfl | hitem
        · exact clean_shown words
        · exact clean_itemsOf hrest item hitem
    | splice items =>
      rw [itemsOf] at hitem
      rcases List.mem_append.1 hitem with hitem | hitem
      · rcases List.mem_append.1 hitem with hitem | hitem
        · exact clean_spaced _ item hitem
        · exact hentry item hitem
      · exact clean_itemsOf hrest item hitem
    | embed node =>
      rw [itemsOf] at hitem
      rcases List.mem_append.1 hitem with hitem | hitem
      · exact clean_spaced _ item hitem
      · rcases List.mem_cons.1 hitem with rfl | hitem
        · exact clean_hole hentry
        · exact clean_itemsOf hrest item hitem
    | conditional test value =>
      rw [itemsOf] at hitem
      rcases List.mem_cons.1 hitem with rfl | hitem
      · refine clean_hole ?_
        split
        · exact clean_writtenConditional hentry.1 hentry.2 _ _
        · exact clean_writtenConditional hentry.1 hentry.2 _ _
      · exact clean_itemsOf hrest item hitem

theorem ReadsAll.exists_written : ∀ {written : List (Char ⊕ Written)} {found : List (Char ⊕ Node)},
    ReadsAll pass other written found → ∀ {node : Node}, .inr node ∈ found →
    ∃ value, .inr value ∈ written ∧ value.Reads pass other node
  | _, _, .nil, _, hnode => by cases hnode
  | _, _, .cons hpiece hrest, node, hnode => by
    rcases List.mem_cons.1 hnode with rfl | hnode
    · cases hpiece with
      | inr hvalue => exact ⟨_, List.mem_cons_self .., hvalue⟩
    · obtain ⟨value, hmem, hvalue⟩ := ReadsAll.exists_written hrest hnode
      exact ⟨value, List.mem_cons_of_mem _ hmem, hvalue⟩

theorem clean_of_readsAll {items : List Item} (h : ∀ item ∈ items, item.Clean pass names)
    {chunks : List Chunk} {inner : List Node} (hfits : chunks.length = inner.length + 1)
    (hreads : ReadsAll pass other (items.flatMap Item.pieces) (weave chunks inner))
    {node : Node} (hnode : node ∈ inner) :
    node.Tidy other names ∧ node.isAnd = false := by
  obtain ⟨value, hvalue, hread⟩ := hreads.exists_written ((mem_weave hfits).2 hnode)
  obtain ⟨item, hitem, hpiece⟩ := List.mem_flatMap.1 hvalue
  have hclean := h item hitem value hpiece
  exact ⟨hread.tidy hclean.tidy, hread.isAnd.trans hclean.isAnd_eq⟩

end

end ClassWeave
