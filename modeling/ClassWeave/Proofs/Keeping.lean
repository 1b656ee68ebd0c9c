import ClassWeave.Proofs.Becoming
import ClassWeave.Proofs.Meaning
/-!
# What compiling keeps

Pass after pass a call of `tx` is left a call or becomes a literal, and its meaning stays what it
was. So the literal that a completed run leaves comes to the classes of the arguments, one after
another, and evaluates what they do.
-/

namespace ClassWeave

namespace Node

section
variable {options : Options} {pass next : Pass} {aliases : Aliases}

/-! ## Literals -/

def isClassLiteral (node : Node) : Bool := node.string?.isSome || node.template?.isSome

def isTxCall (aliases : Aliases) : Node → Bool
  | .mk (.call _) _ (callee :: _) => callee.namesTx aliases
  | _ => false

def isSpread : Node → Bool
  | .mk .spread _ [_] => true
  | _ => false

theorem eq_of_isClassLiteral {node : Node} (h : node.isClassLiteral = true) :
    (∃ value span, node = .mk (.literal (.string value)) span []) ∨
      ∃ chunks span inner, node = .mk (.template chunks) span inner := by
  rw [isClassLiteral, Bool.or_eq_true, Option.isSome_iff_exists, Option.isSome_iff_exists] at h
  rcases h with ⟨value, h⟩ | ⟨parts, h⟩
  · obtain ⟨span, rfl⟩ := eq_of_string? h
    exact .inl ⟨value, span, rfl⟩
  · obtain ⟨span, rfl⟩ := eq_of_template? h
    exact .inr ⟨_, span, _, rfl⟩

theorem Alike.isClassLiteral {node node' : Node} (h : node.Alike pass next node')
    (hliteral : node.isClassLiteral = true) :
    node'.isClassLiteral = true := by
  rcases eq_of_isClassLiteral hliteral with ⟨value, span, rfl⟩ | ⟨chunks, span, inner, rfl⟩
  · obtain ⟨span', children', rfl, -, hchildren⟩ := alike_mk_iff.1 h
    rw [allAlike_nil_iff.1 hchildren]
    rfl
  · obtain ⟨span', children', rfl, -, -⟩ := alike_mk_iff.1 h
    rfl

theorem fits_of_isClassLiteral {node : Node} (hliteral : node.isClassLiteral = true)
    (htidy : node.Tidy pass (compiledNames aliases)) (asValue : Bool) :
    node.fits pass aliases asValue = true := by
  rcases eq_of_isClassLiteral hliteral with ⟨value, span, rfl⟩ | ⟨chunks, span, inner, rfl⟩
  · rw [fits.eq_5 _ _ _ _ _ _ (by simp) (by simp) (by simp) (by simp)]
    exact tidies_iff.2 htidy
  · rw [fits.eq_5 _ _ _ _ _ _ (by simp) (by simp) (by simp) (by simp)]
    exact tidies_iff.2 htidy

theorem meaning_of_isClassLiteral {node : Node} (hliteral : node.isClassLiteral = true) (setting : Setting) :
    node.meaning setting pass aliases = Yield.of (node.signs setting pass) := by
  rcases eq_of_isClassLiteral hliteral with ⟨value, span, rfl⟩ | ⟨chunks, span, inner, rfl⟩
  · rw [meaning.eq_5 _ _ _ _ _ _ (by simp) (by simp) (by simp) (by simp)]
  · rw [meaning.eq_5 _ _ _ _ _ _ (by simp) (by simp) (by simp) (by simp)]

/-! ## One pass -/

theorem picked?_of_not_concerns {node : Node} (h : node.concerns (compiledNames aliases) = false) :
    (transformer options).picked? pass aliases node = none := by
  unfold Rule.picked?
  split
  · show pick options pass aliases node = none
    unfold pick
    split
    · cases h
    · rename_i span name span' children behind _
      have hnames : (aliases.lookup name).any Helper.isCompiled = false := h
      cases hlookup : aliases.lookup name with
      | none => rfl
      | some helper =>
        rw [hlookup] at hnames
        cases helper with
        | tx => cases hnames
        | tm => cases hnames
        | tv => rfl
    · rfl
  · rfl

theorem picked?_of_tidy {node : Node} (h : node.Tidy pass (compiledNames aliases)) :
    ∀ target ∈ node.targets, (transformer options).picked? pass aliases target = none :=
  fun target htarget => picked?_of_not_concerns (h.free target htarget)

mutual

theorem targets_of_mem_targets {target : Node} :
    ∀ node : Node, target ∈ node.targets → target.targets ⊆ node.targets
  | mk shape span children, h => by
    have ih : target ∈ allTargets children → target.targets ⊆ (mk shape span children).targets := fun h =>
      List.Subset.trans (targets_of_mem_allTargets children h) allTargets_subset_targets
    rw [targets] at h
    split at h
    · rcases List.mem_cons.1 h with rfl | h
      · exact List.Subset.refl _
      · exact ih h
    · exact ih h

theorem targets_of_mem_allTargets {target : Node} :
    ∀ trees : List Node, target ∈ allTargets trees → target.targets ⊆ allTargets trees
  | node :: rest, h => by
    rw [allTargets] at h ⊢
    rcases List.mem_append.1 h with h | h
    · exact List.Subset.trans (targets_of_mem_targets node h) (List.subset_append_left _ _)
    · exact List.Subset.trans (targets_of_mem_allTargets rest h) (List.subset_append_right _ _)

end

/-- What is assumed of the calls among some targets: none begins as a literal does, and the
templates of one without calls inside read back. -/
structure CallsReadBack (options : Options) (pass : Pass) (aliases : Aliases)
    (targets : List Node) : Prop where
  unmarked : ∀ target ∈ targets, target.called?.isSome → ¬ (pass.textAt target.span).Marked
  compiled : ∀ target ∈ targets, ∀ given, pick options pass aliases target = some (.tx given) →
    (∀ child ∈ target.children, child.Uncalled aliases) → CallReadsBack options.fileName pass given

theorem CallsReadBack.mono {targets more : List Node} (h : CallsReadBack options pass aliases more)
    (hsubset : targets ⊆ more) : CallsReadBack options pass aliases targets :=
  ⟨fun target htarget => h.unmarked target (hsubset htarget),
    fun target htarget => h.compiled target (hsubset htarget)⟩

theorem CallsReadBack.child {shape : Shape} {span : Span} {children : List Node}
    (h : CallsReadBack options pass aliases (Node.mk shape span children).targets) :
    ∀ child ∈ children, CallsReadBack options pass aliases child.targets :=
  fun _ hchild => h.mono (targets_subset_of_mem hchild)

theorem uncalled_of_anyPending {trees : List Node}
    (h : (transformer options).anyPending pass aliases trees = false)
    (hback : ∀ node ∈ trees, CallsReadBack options pass aliases node.targets) :
    ∀ node ∈ trees, node.Uncalled aliases := by
  intro node hnode target htarget
  rw [Bool.eq_false_iff]
  intro hcalled
  obtain ⟨name, hname, hcompiled⟩ := Option.any_eq_true _ _ |>.1 hcalled
  obtain ⟨helper, hlookup, hhelper⟩ := Option.any_eq_true _ _ |>.1 hcompiled
  obtain ⟨given, hpick⟩ := @pick_of_called options pass aliases target name helper hname hlookup hhelper
  have hunmarked := (hback node hnode).unmarked target htarget (by rw [hname]; rfl)
  have hpending : (transformer options).pending pass aliases target = true := by
    rw [Rule.pending_iff]
    rcases hpick with hpick | hpick
    · exact ⟨_, (Rule.picked?_of_isTarget (isTarget_of_called hname)).trans hpick,
        .inr (changes_of_unmarked (.inl rfl) hunmarked)⟩
    · exact ⟨_, (Rule.picked?_of_isTarget (isTarget_of_called hname)).trans hpick,
        .inr (changes_of_unmarked (.inr rfl) hunmarked)⟩
  rw [Bool.eq_false_iff, ne_eq, Rule.anyPending_iff] at h
  exact h ⟨target, mem_allTargets_iff.2 ⟨node, hnode, htarget⟩, hpending⟩

/-- What becomes of a call of `tx`: it stays one as long as something inside is pending, and then it
is a literal that comes to what the call means. -/
inductive CallBecomes (options : Options) (pass next : Pass) (aliases : Aliases)
    (arity : Nat) (behind : List Node) :
    Node → Prop where
  | call {span : Span} {callee : Node} {behind' : List Node} (names_tx : callee.namesTx aliases = true)
    (behind_become : (transformer options).AllBecome pass next aliases
      (Rule.elementsIn options.fileName) behind behind') :
    CallBecomes options pass next aliases arity behind (.mk (.call arity) span (callee :: behind'))
  | literal {found : Node} (literal : found.isClassLiteral = true)
      (tidy : found.Tidy next (compiledNames aliases))
    (signs : ∀ setting, Yield.of (found.signs setting next) = meaningOf setting pass aliases arity behind) :
    CallBecomes options pass next aliases arity behind found

theorem compileTx_of_replace {given : List Node} {replacement : Option Text}
    (h : replacement ∈ ((transformer options).replace pass aliases (.tx given)).toOption) :
    ∃ code, compileTx pass given options = .ok code ∧ replacement = some code := by
  change replacement ∈ ((compileTx pass given options).map some).toOption at h
  cases hcompile : compileTx pass given options with
  | error failure => rw [hcompile] at h; cases h
  | ok code => rw [hcompile] at h; cases h; exact ⟨code, rfl, rfl⟩

/-- A call without calls inside is read as a literal that comes to what the call means, if it reads back. -/
theorem literal_of_compileTx {arity : Nat} {behind : List Node} {code : Text} {found : Node}
    (hcompile : compileTx pass (behind.take arity) options = .ok code)
    (hback : CallReadsBack options.fileName pass (behind.take arity))
    (hfits : fitsAll pass aliases arity behind = true) (hfree : ∀ node ∈ behind, node.Uncalled aliases)
    (hfound : found.ReadAlone code (Rule.elementsIn options.fileName) next) :
    CallBecomes options pass next aliases arity behind found := by
  have hgiven := fun setting => (@meant_of_fits pass aliases setting).2 arity behind hfits hfree
  obtain ⟨m, node, hcompiled⟩ := compiled_of_compileTx hcompile hback (hgiven default).1
  obtain ⟨m', hread, node', hsole, halike⟩ := hfound
  cases hcompiled.read.symm.trans (toOption_eq_some_iff.1 hread)
  cases hcompiled.sole.symm.trans hsole
  refine .literal (halike.isClassLiteral ?_) (hcompiled.tidy.alike halike) fun setting => ?_
  · rw [Node.isClassLiteral, Bool.or_eq_true]
    exact hcompiled.literal
  · rw [← halike.signs, hcompiled.offer, (hgiven setting).2]

theorem callBecomes {arity : Nat} {span : Span} {callee found : Node} {behind : List Node}
    (htx : callee.namesTx aliases = true) (hfits : fitsAll pass aliases arity behind = true)
    (hback : CallsReadBack options pass aliases (Node.mk (.call arity) span (callee :: behind)).targets)
    (h : (transformer options).Becomes pass next aliases (Rule.elementsIn options.fileName)
      (.mk (.call arity) span (callee :: behind)) found) : CallBecomes
      options pass next aliases arity behind found := by
  obtain ⟨name, span', inner, rfl, hlookup⟩ := lookup_of_namesTx htx
  cases hinside : (transformer options).anyPending pass aliases
    (.mk (.identifier name) span' inner :: behind) with
  | true =>
    obtain ⟨_, _, rfl, hchildren, -⟩ := h.kept (Rule.frontier_singleton_of_inside hinside)
    obtain ⟨callee', behind', rfl, hcallee, hbehind⟩ := Rule.allBecome_cons_iff.1 hchildren
    obtain ⟨_, _, rfl, -⟩ := hcallee.kept_of_not_target rfl
    exact .call (beq_iff_eq.2 hlookup) hbehind
  | false =>
    have hpick :
        pick options pass aliases (.mk (.call arity) span (.mk (.identifier name) span' inner :: behind)) =
          some (.tx (behind.take arity)) := by
      rw [pick, hlookup]
    have hpicked := (@Rule.picked?_of_isTarget _ _ _ (transformer options) pass aliases
      (.mk (.call arity) span (.mk (.identifier name) span' inner :: behind)) rfl).trans hpick
    have hunmarked := hback.unmarked _ (mem_targets_self rfl) rfl
    have hfrontier := Rule.frontier_singleton_of_some hinside hpicked
    rw [if_pos (changes_of_unmarked (.inl rfl) hunmarked)] at hfrontier
    have hfree := uncalled_of_anyPending hinside hback.child
    obtain ⟨replacement, hreplace, hfound⟩ := h.replaced (hfrontier ▸ List.mem_singleton_self _)
    obtain ⟨code, hcompile, rfl⟩ := compileTx_of_replace hreplace
    exact literal_of_compileTx hcompile (hback.compiled _ (mem_targets_self rfl) _ hpick hfree) hfits
      (fun node hnode => hfree node (List.mem_cons_of_mem _ hnode)) hfound

theorem isSpread_eq_false_iff {node : Node} :
    node.isSpread = false ↔ ∀ span inner, node = .mk .spread span [inner] → False := by
  unfold isSpread
  split
  · simp
  · rename_i hnot
    exact ⟨fun _ => hnot, fun _ => rfl⟩

theorem Alike.isSpread {node node' : Node} (h : node.Alike pass next node') :
    node.isSpread = node'.isSpread := by
  obtain ⟨shape, span, children⟩ := node
  obtain ⟨span', children', rfl, -, hchildren⟩ := alike_mk_iff.1 h
  cases shape with
  | spread =>
    obtain ⟨pairs, -, rfl, rfl⟩ := hchildren.exists_pairs
    match pairs with
    | [] => rfl
    | [_] => rfl
    | _ :: _ :: _ => rfl
  | _ => rfl

theorem isSpread_of_isClassLiteral {node : Node} (h : node.isClassLiteral = true) :
    node.isSpread = false := by
  rcases eq_of_isClassLiteral h with ⟨value, span, rfl⟩ | ⟨chunks, span, inner, rfl⟩
  · rfl
  · rfl

structure Kept (setting : Setting) (pass next : Pass) (aliases : Aliases)
    (asValue : Bool) (node found : Node) : Prop where
  fits : found.fits next aliases asValue = true
  meaning : found.meaning setting next aliases = node.meaning setting pass aliases
  spread : found.isSpread = node.isSpread

theorem kept_of_alike {setting : Setting} {asValue : Bool} {node found : Node}
    (halike : node.Alike pass next found) (hfits : node.fits pass aliases asValue = true) :
    Kept setting pass next aliases asValue node found :=
  ⟨halike.fits asValue ▸ hfits, (halike.meaning setting).symm, halike.isSpread.symm⟩

theorem alike_of_tidy {node found : Node} (htidy : node.Tidy pass (compiledNames aliases))
    (h : (transformer options).Becomes pass next aliases (Rule.elementsIn options.fileName) node found) :
    node.Alike pass next found := Rule.alike_of_unpicked.1 node (picked?_of_tidy htidy) found h

theorem kept_of_tidies {setting : Setting} {asValue : Bool} {node found : Node}
    (htidy : node.tidies pass aliases = true) (hfits : node.fits pass aliases asValue = true)
    (h : (transformer options).Becomes pass next aliases (Rule.elementsIn options.fileName) node found) :
    Kept setting pass next aliases asValue node found :=
      kept_of_alike (alike_of_tidy (tidies_iff.1 htidy) h) hfits

/-- A pass keeps the meaning of what can be given to `tx`. -/
theorem kept_of_becomes (setting : Setting) : (∀ asValue node, node.fits pass aliases asValue = true →
      CallsReadBack options pass aliases node.targets → ∀ found,
      (transformer options).Becomes pass next aliases (Rule.elementsIn options.fileName) node found →
      Kept setting pass next aliases asValue node found) ∧
    (∀ arity given, fitsAll pass aliases arity given = true →
      (∀ node ∈ given, CallsReadBack options pass aliases node.targets) →
      ∀ found,
      (transformer options).AllBecome pass next aliases (Rule.elementsIn options.fileName) given found →
      fitsAll next aliases arity found = true ∧
        meaningOf setting next aliases arity found = meaningOf setting pass aliases arity given) := by
  apply fits.mutual_induct aliases
  · intro asValue span inner ih hfits hback found h
    obtain ⟨span', inner', rfl, hinner⟩ := h.one rfl
    rw [Node.fits] at hfits
    have hkept := ih hfits (hback.child inner (List.mem_singleton_self _)) inner' hinner
    exact ⟨by rw [Node.fits, hkept.fits], by rw [Node.meaning, Node.meaning, hkept.meaning], rfl⟩
  · intro asValue span test value ih hfits hback found h
    obtain ⟨span', test', value', rfl, htest, hvalue⟩ := h.two rfl
    rw [Node.fits, Bool.and_eq_true, Bool.and_eq_true] at hfits
    obtain ⟨⟨hasValue, htidy⟩, hfits⟩ := hfits
    have hkept := ih hfits (hback.child value (by simp)) value' hvalue
    have halike := alike_of_tidy (tidies_iff.1 htidy) htest
    refine ⟨?_, ?_, rfl⟩
    · rw [Node.fits, hasValue, ← halike.tidies, htidy, hkept.fits]
      rfl
    · rw [Node.meaning, Node.meaning, hkept.meaning, halike.bareText]
  · intro asValue span test value alternate hblank ih hfits hback found h
    obtain ⟨span', test', value', alternate', rfl, htest, hvalue, halternate⟩ := h.three rfl
    rw [Node.fits, if_pos hblank, Bool.and_eq_true, Bool.and_eq_true] at hfits
    obtain ⟨⟨htidy, htidyAlternate⟩, hfits⟩ := hfits
    have hkept := ih hfits (hback.child value (by simp)) value' hvalue
    have halike := alike_of_tidy (tidies_iff.1 htidy) htest
    have halikeAlternate := alike_of_tidy (tidies_iff.1 htidyAlternate) halternate
    have hblank' : alternate'.isBlankString = true := halikeAlternate.isBlankString ▸ hblank
    refine ⟨?_, ?_, rfl⟩
    · rw [Node.fits, if_pos hblank', ← halike.tidies, ← halikeAlternate.tidies,
        htidy, htidyAlternate, hkept.fits]
      rfl
    · rw [Node.meaning, Node.meaning, if_pos hblank, if_pos hblank', hkept.meaning, halike.bareText]
  · intro asValue span test value alternate hblank hfits _ found h
    have htidy := hfits
    rw [Node.fits, if_neg hblank] at htidy
    exact kept_of_tidies htidy hfits h
  · intro asValue arity span callee behind htx ih hfits hback found h
    rw [Node.fits, if_pos htx] at hfits
    cases callBecomes htx hfits hback h with
    | call htx' hbehind =>
      obtain ⟨hfits', hmeaning⟩ :=
        ih hfits (fun node hnode => hback.child node (List.mem_cons_of_mem _ hnode)) _ hbehind
      exact ⟨by rw [Node.fits, if_pos htx', hfits'], by
        rw [Node.meaning, Node.meaning, if_pos htx, if_pos htx', hmeaning], rfl⟩
    | literal hliteral htidy hsigns =>
      refine ⟨fits_of_isClassLiteral hliteral htidy asValue, ?_, isSpread_of_isClassLiteral hliteral⟩
      rw [meaning_of_isClassLiteral hliteral, hsigns, Node.meaning, if_pos htx]
  · intro asValue arity span callee behind htx hfits _ found h
    have htidy := hfits
    rw [Node.fits, if_neg htx] at htidy
    exact kept_of_tidies htidy hfits h
  · intro asValue shape span children hparens hand hcond hcall hfits _ found h
    have htidy := hfits
    rw [Node.fits.eq_5 pass aliases asValue shape span children hparens hand hcond hcall] at htidy
    exact kept_of_tidies htidy hfits h
  · intro given _ _ found _
    rw [fitsAll, meaningOf, meaningOf]
    exact ⟨rfl, rfl⟩
  · intro arity _ _ found h
    rw [Rule.allBecome_nil_iff.1 h, fitsAll, meaningOf, meaningOf]
    exact ⟨rfl, rfl⟩
  · intro arity span inner rest ih hfits hback found h
    obtain ⟨argument', rest', rfl, hargument, hrest⟩ := Rule.allBecome_cons_iff.1 h
    obtain ⟨span', inner', rfl, hinner⟩ := hargument.one rfl
    rw [fitsAll, Bool.and_eq_true] at hfits
    have halike := alike_of_tidy (tidies_iff.1 hfits.1) hinner
    obtain ⟨hfits', hmeaning⟩ :=
      ih hfits.2 (fun node hnode => hback node (List.mem_cons_of_mem _ hnode)) rest' hrest
    rw [fitsAll, meaningOf, meaningOf, ← halike.tidies, hfits.1, hfits', hmeaning, halike.bareText]
    exact ⟨rfl, rfl⟩
  · intro arity argument rest hspread ih ihrest hfits hback found h
    obtain ⟨argument', rest', rfl, hargument, hrest⟩ := Rule.allBecome_cons_iff.1 h
    rw [fitsAll.eq_4 _ _ _ _ _ hspread, Bool.and_eq_true] at hfits
    have hkept := ih hfits.1 (hback argument (List.mem_cons_self ..)) argument' hargument
    obtain ⟨hfits', hmeaning⟩ :=
      ihrest hfits.2 (fun node hnode => hback node (List.mem_cons_of_mem _ hnode)) rest' hrest
    have hspread' := isSpread_eq_false_iff.1 (hkept.spread.trans (isSpread_eq_false_iff.2 hspread))
    rw [fitsAll.eq_4 _ _ _ _ _ hspread', meaningOf.eq_4 _ _ _ _ _ _ hspread,
      meaningOf.eq_4 _ _ _ _ _ _ hspread', hkept.fits, hkept.meaning, hfits', hmeaning]
    exact ⟨rfl, rfl⟩

end
end Node
end ClassWeave
