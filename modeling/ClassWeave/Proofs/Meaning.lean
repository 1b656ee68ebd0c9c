import ClassWeave.Proofs.Compiling
/-!
# What arguments mean

What the arguments of a call of `tx` are meant to come to, by what they are: a conditional gives its
value's classes if its test holds, a spread expression its elements, a call of `tx` the classes of
its own arguments, and anything else the words that it shows. Arguments of which no call is left are
offered as they are meant.
-/

namespace ClassWeave

namespace Node

section
variable (setting : Setting) (pass : Pass) (aliases : Aliases)

def namesTx : Node → Bool
  | .mk (.identifier name) _ _ => aliases.lookup name == some .tx
  | _ => false

mutual

/-- What an expression is meant to come to as a class list. -/
def meaning : Node → Yield
  | .mk .parenthesized _ [inner] => meaning inner
  | .mk (.binary "&&") _ [test, value] => setting.when (bareText pass test) (meaning value)
  | .mk .conditional span [test, value, alternate] =>
    if alternate.isBlankString then setting.when (bareText pass test) (meaning value)
    else Yield.of (signs setting pass (.mk .conditional span [test, value, alternate]))
  | .mk (.call arity) span (callee :: behind) =>
    if callee.namesTx aliases then meaningOf arity behind
    else Yield.of (signs setting pass (.mk (.call arity) span (callee :: behind)))
  | .mk shape span children => Yield.of (signs setting pass (.mk shape span children))

def meaningOf : Nat → List Node → Yield
  | 0, _ => .none
  | _ + 1, [] => .none
  | arity + 1, .mk .spread _ [inner] :: rest =>
      Yield.of (setting.list (bareText pass inner)) ++ meaningOf arity rest
  | arity + 1, argument :: rest => meaning argument ++ meaningOf arity rest

end

/-- Whether an expression has tidy templates only, no imports and no calls of compiled helpers. -/
def tidies (node : Node) : Bool := decide (node.Tidy pass (compiledNames aliases))

mutual

/-- Whether an expression is one that can be given to `tx`, or as a value the one that a conditional gives. -/
def fits : Bool → Node → Bool
  | asValue, .mk .parenthesized _ [inner] => fits asValue inner
  | asValue, .mk (.binary "&&") _ [test, value] => !asValue && tidies pass aliases test && fits true value
  | _, .mk .conditional span [test, value, alternate] =>
    if alternate.isBlankString then tidies pass aliases test &&
      tidies pass aliases alternate && fits true value
    else tidies pass aliases (.mk .conditional span [test, value, alternate])
  | _, .mk (.call arity) span (callee :: behind) =>
    if callee.namesTx aliases then fitsAll arity behind
    else tidies pass aliases (.mk (.call arity) span (callee :: behind))
  | _, .mk shape span children => tidies pass aliases (.mk shape span children)

def fitsAll : Nat → List Node → Bool
  | 0, _ => true
  | _ + 1, [] => true
  | arity + 1, .mk .spread _ [inner] :: rest => tidies pass aliases inner && fitsAll arity rest
  | arity + 1, argument :: rest => fits false argument && fitsAll arity rest

end

end

/-! ## Arguments that are alike -/

section
variable {pass other : Pass} {aliases : Aliases}

theorem tidies_iff {node : Node} : node.tidies pass aliases = true ↔ node.Tidy pass (compiledNames aliases) :=
  decide_eq_true_iff

theorem Alike.tidies {node node' : Node} (h : node.Alike pass other node') :
    node.tidies pass aliases = node'.tidies other aliases := by
  rw [Bool.eq_iff_iff, tidies_iff, tidies_iff]
  exact ⟨fun htidy => htidy.alike h, fun htidy => htidy.alike h.symm⟩

theorem namesTx_eq {node node' : Node} (h : node.shape = node'.shape) :
    node.namesTx aliases = node'.namesTx aliases := by
  obtain ⟨shape, span, children⟩ := node
  obtain ⟨shape', span', children'⟩ := node'
  cases (show shape = shape' from h)
  cases shape <;> rfl

theorem meaning_alike (setting : Setting) : (∀ asValue node, ∀ node', Alike pass other node node' →
      node.meaning setting pass aliases = node'.meaning setting other aliases ∧
        node.fits pass aliases asValue = node'.fits other aliases asValue) ∧
    (∀ arity given, ∀ given', AllAlike pass other given given' →
      meaningOf setting pass aliases arity given = meaningOf setting other aliases arity given' ∧
        fitsAll pass aliases arity given = fitsAll other aliases arity given') := by
  apply fits.mutual_induct aliases
  · intro asValue span inner ih node' h
    obtain ⟨span', inner', rfl, -, hinner⟩ := h.one
    rw [meaning, meaning, fits, fits]
    exact ih inner' hinner
  · intro asValue span test value ih node' h
    obtain ⟨span', test', value', rfl, -, htest, hvalue⟩ := h.two
    obtain ⟨hmeaning, hfits⟩ := ih value' hvalue
    rw [meaning, meaning, fits, fits, hmeaning, hfits, htest.bareText, htest.tidies]
    exact ⟨rfl, rfl⟩
  · intro asValue span test value alternate hblank ih node' h
    obtain ⟨span', test', value', alternate', rfl, -, htest, hvalue, halternate⟩ := h.three
    obtain ⟨hmeaning, hfits⟩ := ih value' hvalue
    have hblank' : alternate'.isBlankString = true := halternate.isBlankString ▸ hblank
    rw [meaning, meaning, fits, fits, if_pos hblank, if_pos hblank,
      if_pos hblank', if_pos hblank', hmeaning, hfits, htest.bareText, htest.tidies, halternate.tidies]
    exact ⟨rfl, rfl⟩
  · intro asValue span test value alternate hblank node' h
    have hsigns := h.signs setting
    have htidies := @Alike.tidies _ _ aliases _ _ h
    obtain ⟨span', test', value', alternate', rfl, -, htest, hvalue, halternate⟩ := h.three
    have hblank' : ¬ alternate'.isBlankString = true := halternate.isBlankString ▸ hblank
    rw [meaning, meaning, fits, fits, if_neg hblank, if_neg hblank,
      if_neg hblank', if_neg hblank', hsigns, htidies]
    exact ⟨rfl, rfl⟩
  · intro asValue arity span callee behind htx ih node' h
    obtain ⟨span', children', rfl, -, hchildren⟩ := alike_mk_iff.1 h
    obtain ⟨callee', behind', rfl, hcallee, hbehind⟩ := allAlike_cons_iff.1 hchildren
    have htx' : callee'.namesTx aliases = true := namesTx_eq hcallee.shape_eq ▸ htx
    rw [meaning, meaning, fits, fits, if_pos htx, if_pos htx, if_pos htx', if_pos htx']
    exact ih behind' hbehind
  · intro asValue arity span callee behind htx node' h
    have hsigns := h.signs setting
    have htidies := @Alike.tidies _ _ aliases _ _ h
    obtain ⟨span', children', rfl, -, hchildren⟩ := alike_mk_iff.1 h
    obtain ⟨callee', behind', rfl, hcallee, hbehind⟩ := allAlike_cons_iff.1 hchildren
    have htx' : ¬ callee'.namesTx aliases = true := namesTx_eq hcallee.shape_eq ▸ htx
    rw [meaning, meaning, fits, fits, if_neg htx, if_neg htx, if_neg htx', if_neg htx', hsigns, htidies]
    exact ⟨rfl, rfl⟩
  · intro asValue shape span children hparens hand hcond hcall node' h
    have hsigns := h.signs setting
    have htidies := @Alike.tidies _ _ aliases _ _ h
    obtain ⟨span', children', rfl, -, hchildren⟩ := alike_mk_iff.1 h
    have hparens' := fun inner' hshape => hchildren.not_one (fun inner => hparens inner hshape) inner'
    have hand' :=
      fun test' value' hshape => hchildren.not_two (fun test value => hand test value hshape) test' value'
    have hcond' := fun test' value' alternate' hshape =>
      hchildren.not_three (fun test value alternate => hcond test value alternate hshape)
        test' value' alternate'
    have hcall' : ∀ arity callee' behind', shape = .call arity → children' = callee' :: behind' → False := by
      rintro arity callee' behind' hshape rfl
      obtain ⟨callee, behind, rfl⟩ := List.exists_cons_of_length_eq_add_one (length_of_allAlike hchildren)
      exact hcall arity callee behind hshape rfl
    rw [meaning.eq_5 setting pass aliases shape span children hparens hand hcond hcall,
      meaning.eq_5 setting other aliases shape span' children' hparens' hand' hcond' hcall',
      fits.eq_5 pass aliases asValue shape span children hparens hand hcond hcall,
      fits.eq_5 other aliases asValue shape span' children' hparens' hand' hcond' hcall', hsigns, htidies]
    exact ⟨rfl, rfl⟩
  · intro given given' _
    rw [meaningOf, meaningOf, fitsAll, fitsAll]
    exact ⟨rfl, rfl⟩
  · intro arity given' h
    rw [allAlike_nil_iff.1 h, meaningOf, meaningOf, fitsAll, fitsAll]
    exact ⟨rfl, rfl⟩
  · intro arity span inner rest ih given' h
    obtain ⟨argument', rest', rfl, hargument, hrest⟩ := allAlike_cons_iff.1 h
    obtain ⟨span', inner', rfl, -, hinner⟩ := hargument.one
    obtain ⟨hmeaning, hfits⟩ := ih rest' hrest
    rw [meaningOf, meaningOf, fitsAll, fitsAll, hmeaning, hfits, hinner.bareText, hinner.tidies]
    exact ⟨rfl, rfl⟩
  · intro arity argument rest hspread ih ihrest given' h
    obtain ⟨argument', rest', rfl, hargument, hrest⟩ := allAlike_cons_iff.1 h
    obtain ⟨hmeaning, hfits⟩ := ih argument' hargument
    obtain ⟨hmeanings, hfitsAll⟩ := ihrest rest' hrest
    have hspread' : ∀ span' inner', argument' = .mk .spread span' [inner'] → False := by
      rintro span' inner' rfl
      obtain ⟨span, inner, rfl, -, -⟩ := hargument.symm.one
      exact hspread span inner rfl
    rw [meaningOf.eq_4 _ _ _ _ _ _ hspread, meaningOf.eq_4 _ _ _ _ _ _ hspread',
      fitsAll.eq_4 _ _ _ _ _ hspread, fitsAll.eq_4 _ _ _ _ _ hspread', hmeaning, hfits, hmeanings, hfitsAll]
    exact ⟨rfl, rfl⟩

theorem Alike.meaning {node node' : Node} (h : node.Alike pass other node') (setting : Setting) :
    node.meaning setting pass aliases = node'.meaning setting other aliases :=
  ((meaning_alike setting).1 false node node' h).1

theorem Alike.fits {node node' : Node} (h : node.Alike pass other node') (asValue : Bool) :
    node.fits pass aliases asValue = node'.fits other aliases asValue :=
  ((meaning_alike default).1 asValue node node' h).2

/-! ## Arguments without calls -/

def Uncalled (aliases : Aliases) (node : Node) : Prop :=
  ∀ target ∈ node.targets, target.called?.any (compiledNames aliases) = false

theorem Uncalled.child {shape : Shape} {span : Span} {children : List Node}
    (h : (Node.mk shape span children).Uncalled aliases) :
    ∀ child ∈ children, child.Uncalled aliases :=
  fun _ hchild target htarget => h target (targets_subset_of_mem hchild htarget)

theorem lookup_of_namesTx {callee : Node} (h : callee.namesTx aliases = true) :
    ∃ name span children, callee = .mk (.identifier name) span children ∧ aliases.lookup name = some .tx := by
  unfold namesTx at h
  split at h
  · exact ⟨_, _, _, rfl, beq_iff_eq.1 h⟩
  · cases h

theorem Uncalled.namesTx_eq_false {arity : Nat} {span : Span} {callee : Node} {behind : List Node}
    (h : (Node.mk (.call arity) span (callee :: behind)).Uncalled aliases) :
    ¬ callee.namesTx aliases = true := by
  intro htx
  obtain ⟨name, span', children, rfl, hlookup⟩ := lookup_of_namesTx htx
  have hfree := h _ (mem_targets_self rfl)
  rw [called?, Option.any_some, compiledNames, hlookup] at hfree
  cases hfree

theorem offer_parenthesized (setting : Setting) (span : Span) (inner : Node) :
    (Node.mk .parenthesized span [inner]).offer setting pass = inner.offer setting pass := by
  have hstanding : (Node.mk .parenthesized span [inner]).standing = inner.standing := by
    unfold standing constantText?
    rw [unparenthesized]
  unfold offer
  rw [hstanding, signs]

/-- What an argument without calls is offered as. -/
structure Meant (setting : Setting) (pass : Pass) (aliases : Aliases)
    (asValue : Bool) (node : Node) : Prop where
  tidy : node.Tidy pass (compiledNames aliases)
  offer : node.offer setting pass = node.meaning setting pass aliases
  value : asValue = true → node.isAnd = false ∧
    Yield.of (node.signs setting pass) = node.meaning setting pass aliases

variable {setting : Setting}

theorem meant_of_signs {asValue : Bool} {node : Node} (htidy : node.Tidy pass (compiledNames aliases))
    (hand : node.isAnd = false)
    (hsigns : Yield.of (node.signs setting pass) = node.meaning setting pass aliases) :
    Meant setting pass aliases asValue node :=
  ⟨htidy, by rw [offer_of_not_isAnd setting pass hand, hsigns], fun _ => ⟨hand, hsigns⟩⟩

theorem meant_of_fits : (∀ asValue node, node.fits pass aliases asValue = true → node.Uncalled aliases →
      Meant setting pass aliases asValue node) ∧
    (∀ arity given, fitsAll pass aliases arity given = true → (∀ node ∈ given, Node.Uncalled aliases node) →
      AllTidy pass (compiledNames aliases) (given.take arity) ∧
        Yield.all ((given.take arity).map (argumentOffer setting pass)) =
          meaningOf setting pass aliases arity given) := by
  apply fits.mutual_induct aliases
  · intro asValue span inner ih h hfree
    rw [Node.fits] at h
    obtain ⟨htidy, hoffer, hvalue⟩ := ih h (hfree.child inner (List.mem_singleton_self _))
    refine ⟨tidy_of_children (.cons htidy .nil) rfl, ?_, fun hasValue => ?_⟩
    · rw [offer_parenthesized, Node.meaning, hoffer]
    · obtain ⟨hand, hsigns⟩ := hvalue hasValue
      refine ⟨?_, by rw [Node.signs, Node.meaning, hsigns]⟩
      rw [← hand]
      unfold Node.isAnd
      rw [Node.unparenthesized]
  · intro asValue span test value ih h hfree
    rw [Node.fits, Bool.and_eq_true, Bool.and_eq_true, Bool.not_eq_true', tidies_iff] at h
    obtain ⟨⟨hasValue, htest⟩, hvalue⟩ := h
    obtain ⟨htidy, -, hsigns⟩ := ih hvalue (hfree.child value (by simp))
    have hstanding : (Node.mk (.binary "&&") span [test, value]).standing = .conditional test value := rfl
    refine ⟨tidy_of_children (.cons htest (.cons htidy .nil)) rfl,
      ?_, fun h => by rw [hasValue] at h; cases h⟩
    unfold Node.offer
    rw [hstanding, Node.meaning, ← (hsigns rfl).2]
  · intro asValue span test value alternate hblank ih h hfree
    rw [Node.fits, if_pos hblank, Bool.and_eq_true, Bool.and_eq_true, tidies_iff, tidies_iff] at h
    obtain ⟨⟨htest, halternate⟩, hvalue⟩ := h
    obtain ⟨htidy, -, hsigns⟩ := ih hvalue (hfree.child value (by simp))
    obtain ⟨blanks, hblanks, heq⟩ := signs_of_isBlankString setting pass hblank
    refine meant_of_signs (tidy_of_children (.cons htest (.cons htidy (.cons halternate .nil))) rfl) rfl ?_
    rw [Node.signs, Node.meaning, if_pos hblank, ← (hsigns rfl).2, heq, Setting.of_choose]
    rw [Yield.of_spell, Text.words_eq_nil hblanks]
    rfl
  · intro asValue span test value alternate hblank h hfree
    rw [Node.fits, if_neg hblank, tidies_iff] at h
    exact meant_of_signs h rfl (by rw [Node.meaning, if_neg hblank])
  · intro asValue arity span callee behind htx _ _ hfree
    exact absurd htx hfree.namesTx_eq_false
  · intro asValue arity span callee behind htx h hfree
    rw [Node.fits, if_neg htx, tidies_iff] at h
    exact meant_of_signs h rfl (by rw [Node.meaning, if_neg htx])
  · intro asValue shape span children hparens hand hcond hcall h hfree
    rw [Node.fits.eq_5 pass aliases asValue shape span children hparens hand hcond hcall, tidies_iff] at h
    refine meant_of_signs h ?_
      (by rw [Node.meaning.eq_5 setting pass aliases shape span children hparens hand hcond hcall])
    unfold Node.isAnd
    rw [Node.unparenthesized.eq_2 _ fun _ inner heq => by cases heq; exact hparens inner rfl rfl]
    split
    · rename_i test value heq
      cases heq
      exact absurd rfl (hand test value rfl)
    · rfl
  · intro given _ _
    rw [List.take_zero, meaningOf]
    exact ⟨.nil, rfl⟩
  · intro arity _ _
    rw [List.take_nil, meaningOf]
    exact ⟨.nil, rfl⟩
  · intro arity span inner rest ih h hfree
    rw [fitsAll, Bool.and_eq_true, tidies_iff] at h
    obtain ⟨htidy, hoffers⟩ := ih h.2 fun node hnode => hfree node (List.mem_cons_of_mem _ hnode)
    rw [List.take_succ_cons, List.map_cons, Yield.all_cons, hoffers, meaningOf]
    exact ⟨.cons (tidy_of_children (.cons h.1 .nil) rfl) htidy, rfl⟩
  · intro arity argument rest hspread ih ihrest h hfree
    rw [fitsAll.eq_4 _ _ _ _ _ hspread, Bool.and_eq_true] at h
    have hargument := ih h.1 (hfree argument (List.mem_cons_self ..))
    obtain ⟨htidy, hoffers⟩ := ihrest h.2 fun node hnode => hfree node (List.mem_cons_of_mem _ hnode)
    rw [List.take_succ_cons, List.map_cons, Yield.all_cons, hoffers, meaningOf.eq_4 _ _ _ _ _ _ hspread,
      argumentOffer.eq_2 setting pass argument hspread, hargument.offer]
    exact ⟨.cons hargument.tidy htidy, rfl⟩

end
end Node
end ClassWeave
