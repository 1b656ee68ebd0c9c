import ClassWeave.Proofs.Concluding
import ClassWeave.Proofs.Following
/-!
# Calls through a run

If a parser reads back what the passes over a file write, the run over it comes to an end. Where a
call of `tx` stood there is a literal then that comes to the classes of the arguments, one after
another, and evaluates the tests and expressions in them, in order.
-/

namespace ClassWeave

/-! ## What is assumed of a pass -/

/-- A pass over a file whose calls of `tm` are of constants, as a parser sees it that reads the
templates of calls, the literals that these become, and the statements around them as they are
written. -/
structure ReadsBack (options : Options) (pass : Pass) (aliases : Aliases) : Prop where
  seated : pass.module.Seated
  legible : pass.module.Legible
  imports : ∀ item ∈ pass.module.items, item.isImport = true → item.Uncalled aliases
  calls : Node.CallsReadBack options pass aliases (Node.allTargets pass.module.items)
  constants : ∀ target ∈ Node.allTargets pass.module.items, ∀ given,
    pick options pass aliases target = some (.tm given) →
    (∀ child ∈ target.children, child.Uncalled aliases) → ∃ code, compileTm given = .ok code
  literals : ∀ target ∈ (transformer options).frontier pass aliases (Node.allTargets pass.module.statements),
    WritesLiteral options pass aliases target
  rereads : (transformer options).StatementsBecome pass aliases (Rule.elementsIn options.fileName)

theorem spans_of_pick {options : Options} {pass : Pass} {aliases : Aliases}
    {node : Node} {picked : HelperTarget} (h : pick options pass aliases node = some picked) :
    picked.spans ⊆ node.spans := by
  unfold pick at h
  split at h
  · rename_i declaration span children
    split at h
    · cases h
      intro kept hkept
      obtain ⟨specifier, hspecifier, rfl⟩ := ImportDeclaration.span_of_mem_keptSpans hkept
      rw [Node.spans]
      exact List.mem_cons_of_mem _ (List.mem_append_left _ (List.mem_map_of_mem hspecifier))
    · cases h
  · rename_i arity span name span' inner behind
    split at h
    · cases h
      intro given hgiven
      obtain ⟨argument, hargument, rfl⟩ := List.mem_map.1 hgiven
      refine Node.spans_subset_of_child ?_ (argumentSpan_mem argument)
      exact List.mem_cons_of_mem _ (List.mem_of_mem_take hargument)
    · cases h
      exact List.nil_subset _
    · cases h
  · cases h

namespace ReadsBack

variable {options : Options} {pass : Pass} {aliases : Aliases} {limit : Nat}

theorem orderly (h : ReadsBack options pass aliases) : pass.module.Orderly :=
  ⟨h.seated.proper.nested, h.calls.unmarked⟩

theorem calls_of_child (h : ReadsBack options pass aliases) {target : Node}
    (htarget : target ∈ Node.allTargets pass.module.items) :
    ∀ child ∈ target.children, Node.CallsReadBack options pass aliases child.targets := by
  obtain ⟨shape, span, children⟩ := target
  exact (h.calls.mono (Node.targets_of_mem_allTargets _ htarget)).child

theorem exists_bound (h : ReadsBack (options.allowing limit) pass aliases) : ∃ bound, limit ≤ bound ∧ ∃ edits,
    (transformer (options.allowing bound)).collectEdits pass aliases = .ok edits := by
  have each : ∀ target ∈ Node.allTargets pass.module.items, ∃ least, ∀ given,
      pick options pass aliases target = some (.tx given) →
      (∀ child ∈ target.children, child.Uncalled aliases) →
      ∀ bound ≥ least, ∃ code, simplifyTemplate (templateOf pass given) options.fileName bound =
        .ok code := by
    intro target htarget
    by_cases hready : ∃ given, pick options pass aliases target = some (.tx given) ∧
        ∀ child ∈ target.children, child.Uncalled aliases
    · obtain ⟨given, hpick, hfree⟩ := hready
      obtain ⟨least, code, hleast⟩ := (h.calls.compiled target htarget given hpick hfree).exists_limit
      refine ⟨least, fun other hother _ bound hbound => ⟨code, ?_⟩⟩
      cases hpick.symm.trans hother
      exact hleast bound hbound
    · exact ⟨0, fun given hpick hfree => absurd ⟨given, hpick, hfree⟩ hready⟩
  obtain ⟨least, hleast⟩ := Rule.exists_bound
    (fun target n m h hle given hpick hfree bound hbound =>
      h given hpick hfree bound (Nat.le_trans hle hbound)) _ each
  refine ⟨max limit least, Nat.le_max_left .., ?_⟩
  rw [Rule.collectEdits_eq_mapM h.seated.proper.nested]
  refine Rule.mapM_of_exists fun target htarget => ?_
  obtain ⟨hmem, -, hinside, hpicked⟩ := Rule.mem_frontier.1 htarget
  rw [Rule.editOf_of_admits (h.seated.admits target.1 hmem)]
  have hpick : pick (options.allowing (max limit least)) pass aliases target.1 = some target.2 := by
    obtain ⟨⟨shape, span, children⟩, picked⟩ := target
    exact (Rule.picked?_of_isTarget (Rule.isTarget_of_picked hpicked)).symm.trans hpicked
  have hfree : ∀ child ∈ target.1.children, child.Uncalled aliases :=
    Node.uncalled_of_anyPending hinside fun child hchild =>
      ⟨(h.calls_of_child hmem child hchild).unmarked, (h.calls_of_child hmem child hchild).compiled⟩
  cases hreplace : (transformer (options.allowing (max limit least))).replace pass aliases target.2 with
  | ok replacement => exact ⟨_, rfl⟩
  | error failure =>
    exfalso
    rcases replace_error hreplace with ⟨⟨span, hspan, hsplit⟩, -⟩ | ⟨given, cause, hgiven, -, hfails⟩ |
      ⟨given, hgiven, hfails⟩
    · have hadmits := h.legible.of_target hmem span (spans_of_pick hpick hspan)
      rw [hsplit] at hadmits
      cases hadmits
    · rw [hgiven] at hpick
      obtain ⟨code, hcode⟩ := hleast target.1 hmem given hpick hfree _ (Nat.le_max_right ..)
      cases hcode.symm.trans hfails
    · rw [hgiven] at hpick
      obtain ⟨code, hcode⟩ := h.constants target.1 hmem given hpick hfree
      cases hcode.symm.trans hfails

theorem descends (h : ReadsBack options pass aliases) {edits : List Edit}
    {output : Text} {record : Record} {next : Module}
    (hedits : (transformer options).collectEdits pass aliases = .ok edits)
    (hne : edits ≠ []) (happly : Edit.applyAll pass.index pass.module.text edits = .ok (output, record))
    (hnext : Module.read output (Rule.elementsIn options.fileName) = .ok next) :
    (Node.allTargets next.statements).countP (Node.isHelperCall aliases) <
      (Node.allTargets pass.module.statements).countP (Node.isHelperCall aliases) + pass.isFirst.toNat := by
  obtain ⟨next', hnext', hbecome⟩ := h.rereads.next hedits hne happly
  cases hnext.symm.trans hnext'
  have hcount := Node.countP_of_allBecome _ _ h.literals hbecome
  cases hfirst : pass.isFirst with
  | true =>
    rw [hfirst, Bool.not_true, Bool.false_and, Bool.toNat_false] at hcount
    rw [Bool.toNat_true]
    omega
  | false =>
    obtain ⟨⟨shape, span, children⟩, hnode, hpending⟩ :=
      (Rule.collectEdits_ne_nil_iff h.seated.proper hedits).1 hne
    obtain ⟨picked, hpicked, -⟩ := Rule.pending_iff.1 hpending
    rw [Rule.picked?_of_isTarget (Rule.isTarget_of_picked hpicked)] at hpicked
    have hcall := isHelperCall_of_pick hfirst hpicked
    obtain ⟨item, hitem, hinner⟩ := Node.mem_allTargets_iff.1 hnode
    have hstatement : item ∈ pass.module.statements := by
      refine List.mem_filter.2 ⟨hitem, ?_⟩
      rw [Bool.not_eq_true', Bool.eq_false_iff]
      intro himport
      cases (h.imports item hitem himport _ hinner).symm.trans hcall
    have hany := (Rule.anyPending_iff pass.module.statements).2
      ⟨_, Node.mem_allTargets_iff.2 ⟨item, hstatement, hinner⟩, hpending⟩
    rw [hfirst, hany] at hcount
    rw [Bool.toNat_false]
    exact hcount

end ReadsBack

/-! ## Calls and literals -/

/-- Whether an expression is a call of `tx` or what it became. -/
def Node.isCompilable (aliases : Aliases) (node : Node) : Bool := node.isTxCall aliases || node.isClassLiteral

section
variable {options : Options} {aliases : Aliases} {pass next : Pass}

theorem Node.eq_of_isTxCall {node : Node} (h : node.isTxCall aliases = true) : ∃ arity span callee behind,
    node = .mk (.call arity) span (callee :: behind) ∧ callee.namesTx aliases = true := by
  unfold Node.isTxCall at h
  split at h
  · exact ⟨_, _, _, _, rfl, h⟩
  · cases h

theorem Node.tidy_of_isClassLiteral {node : Node} {asValue : Bool} (hliteral : node.isClassLiteral = true)
    (hfits : node.fits pass aliases asValue = true) : node.Tidy pass (compiledNames aliases) := by
  rcases Node.eq_of_isClassLiteral hliteral with ⟨value, span, rfl⟩ | ⟨chunks, span, inner, rfl⟩
  · rw [Node.fits.eq_5 _ _ _ _ _ _ (by simp) (by simp) (by simp) (by simp)] at hfits
    exact Node.tidies_iff.1 hfits
  · rw [Node.fits.eq_5 _ _ _ _ _ _ (by simp) (by simp) (by simp) (by simp)] at hfits
    exact Node.tidies_iff.1 hfits

/-- A pass leaves a call of `tx` a call or makes it a literal, and literals stay. -/
theorem Node.isCompilable_of_becomes {node found : Node} {asValue : Bool}
    (hnode : node.isCompilable aliases = true) (hfits : node.fits pass aliases asValue = true)
    (hback : CallsReadBack options pass aliases node.targets)
    (h : (transformer options).Becomes pass next aliases (Rule.elementsIn options.fileName) node found) :
    found.isCompilable aliases = true := by
  rw [isCompilable, Bool.or_eq_true] at hnode ⊢
  rcases hnode with hcall | hliteral
  · obtain ⟨arity, span, callee, behind, rfl, htx⟩ := eq_of_isTxCall hcall
    rw [fits, if_pos htx] at hfits
    cases callBecomes htx hfits hback h with
    | call htx' _ => exact .inl htx'
    | literal hliteral _ _ => exact .inr hliteral
  · exact .inr ((alike_of_tidy (tidy_of_isClassLiteral hliteral hfits) h).isClassLiteral hliteral)

theorem Node.isClassLiteral_of_collectEdits (orderly : pass.module.Orderly)
    (hedits : (transformer options).collectEdits pass aliases = .ok []) {node : Node}
    (hsubset : node.targets ⊆ allTargets pass.module.items) (hnode : node.isCompilable aliases = true) :
    node.isClassLiteral = true := by
  rw [isCompilable, Bool.or_eq_true] at hnode
  refine hnode.resolve_left fun hcall => ?_
  obtain ⟨arity, span, callee, behind, rfl, htx⟩ := eq_of_isTxCall hcall
  obtain ⟨name, span', inner, rfl, hlookup⟩ := lookup_of_namesTx htx
  cases not_called_of_collectEdits orderly hedits (hsubset (mem_targets_self rfl)) rfl hlookup

/-! ## Runs -/

/-- Whether a call of `tx`, or what it became, stands at a place of a module and means what it is to. -/
def Carries (aliases : Aliases) (path : Path) (meant : Setting → Yield) (pass : Pass) : Prop :=
  ∃ node, Node.outermost? aliases path pass.module.statements = some node ∧ node.isCompilable aliases = true ∧
    node.fits pass aliases false = true ∧ ∀ setting, node.meaning setting pass aliases = meant setting

variable {path : Path} {meant : Setting → Yield} {first : Module} {source : Text}

theorem ReadsBack.carries (h : ReadsBack options pass aliases) {m : Module}
    (hbecome : (transformer options).AllBecome pass ⟨pass.index + 1, m⟩
      aliases (Rule.elementsIn options.fileName)
      pass.module.statements m.statements) (carries : Carries aliases path meant pass) :
    Carries aliases path meant ⟨pass.index + 1, m⟩ := by
  obtain ⟨node, hat, hnode, hfits, hmeaning⟩ := carries
  obtain ⟨found, hfound, hbecomes⟩ := Node.outermost?_of_allBecome h.literals hbecome hat
  have hback :=
    h.calls.mono (List.Subset.trans (Node.targets_of_outermost? hat) pass.module.targets_of_statements)
  have hkept := fun setting => (Node.kept_of_becomes setting).1 false node hfits hback found hbecomes
  exact ⟨found, hfound, Node.isCompilable_of_becomes hnode hfits hback hbecomes, (hkept default).fits,
    fun setting => (hkept setting).meaning.trans (hmeaning setting)⟩

theorem carries_of_reaches (hread : Module.read source (Rule.elementsIn options.fileName) = .ok first)
    (readsBack : ∀ pass aliases, (transformer options).Begins options.fileName source pass aliases →
      ReadsBack options pass aliases) (carries : Carries (aliasesIn options first.items)
        path meant ⟨0, first⟩)
    {state : Aliases} {records : List Record} {text : Text}
    (reaches : (transformer options).Reaches options.fileName source state records text) :
    ∃ m, Module.read text (Rule.elementsIn options.fileName) = .ok m ∧
      (transformer options).seed ⟨records.length, m⟩ state = .ok (aliasesIn options first.items) ∧
      Carries (aliasesIn options first.items) path meant ⟨records.length, m⟩ := by
  induction reaches with
  | start => exact ⟨first, hread, seed_first first, carries⟩
  | @pass state state' records record text output found edits reaches hfound hpass hne ih =>
    obtain ⟨m, hm, hseed, carries⟩ := ih
    cases hfound.symm.trans hm
    obtain ⟨hseeded, hedits, happly⟩ := Rule.onePass_eq_ok_iff.1 hpass
    cases hseed.symm.trans hseeded
    have reads := readsBack ⟨records.length, found⟩ _ ⟨state, records, text, reaches, hfound, rfl, hseed⟩
    obtain ⟨next, hnext, hbecome⟩ := reads.rereads.next hedits hne happly
    have hlength : (records ++ [record]).length = records.length + 1 := by simp
    rw [hlength]
    exact ⟨next, hnext, keeps_aliases options _ _ (by simp [Pass.isFirst]), reads.carries hbecome carries⟩

/-- There is a limit under which a file is transformed. -/
theorem exists_limit_of_readsBack {least : Nat}
    (hread : Module.read source (Rule.elementsIn options.fileName) = .ok first)
    (readsBack : ∀ limit, least ≤ limit → ∀ pass aliases,
      (transformer (options.allowing limit)).Begins options.fileName source pass aliases →
      ReadsBack (options.allowing limit) pass aliases)
    (carries : Carries (aliasesIn options first.items) path meant ⟨0, first⟩) :
    ∃ limit fixpoint, least ≤ limit ∧ (transformTrace source (options.allowing limit)).outcome =
      .ok fixpoint := by
  have conclude : Rule.Conclude (· < ·) (fun pass aliases =>
        (Node.allTargets pass.module.statements).countP (Node.isHelperCall aliases) + pass.isFirst.toNat)
      (fun _ => True) (fun limit => transformer (options.allowing limit)) options.fileName source least := {
    seeds := fun _ _ _ => ⟨_, rfl⟩
    reads := by
      intro limit state records text fault hle reaches hfails
      obtain ⟨m, hm, -⟩ :=
        @carries_of_reaches (options.allowing limit) _ _ _ _ hread (readsBack limit hle) carries _ _ _ reaches
      cases hm.symm.trans hfails
    edits := by
      intro limit pass aliases hle begins
      obtain ⟨bound, hbound, edits, hedits⟩ := (readsBack limit hle pass aliases begins).exists_bound
      exact ⟨bound, hbound, fun failure hfailure => by cases hedits.symm.trans hfailure⟩
    applies := by
      intro limit pass aliases edits fault hle begins hedits hfails
      obtain ⟨output, record, happly⟩ :=
        Rule.exists_output (readsBack limit hle pass aliases begins).seated.proper hedits
      cases happly.symm.trans hfails
    descends := by
      intro limit pass aliases edits output record next aliases' hle begins hedits hne happly hnext hseed
      rw [keeps_aliases _ _ _ (by simp [Pass.isFirst])] at hseed
      cases hseed
      exact (readsBack limit hle pass aliases begins).descends hedits hne happly hnext }
  obtain ⟨limit, hle, hsound⟩ :=
    conclude.exists_limit (grow_transformer options) (fun _ _ => trivial) wellFounded_lt
  cases houtcome : (transformTrace source (options.allowing limit)).outcome with
  | ok fixpoint => exact ⟨limit, fixpoint, hle, houtcome⟩
  | error failure => exact absurd trivial (hsound failure houtcome)

end

/-! ## Conditions that can be checked -/

def callReadsBackWithin (file : Option String) (pass : Pass) (given : List Node) (limit : Nat) : Bool :=
  match (simplifier.run file limit (templateOf pass given)).outcome with
  | .ok _ => decide ((snippetOf given).ReadsBack pass (Rule.elementsIn file)) &&
    decide (∀ entry ∈ simplifier.begun file limit [] (templateOf pass given) 0,
      entry.1.module.DraftReadsBack (Rule.elementsIn file) ∧ Faithful (Rule.elementsIn file) entry.1 entry.2)
  | .error _ => false

theorem of_callReadsBackWithin {file : Option String} {pass : Pass} {given : List Node} {limit : Nat}
    (h : callReadsBackWithin file pass given limit = true) : CallReadsBack file pass given := by
  unfold callReadsBackWithin at h
  split at h
  · rename_i hrun
    rw [Bool.and_eq_true, decide_eq_true_eq, decide_eq_true_eq] at h
    exact ⟨h.1, fun inner places begins => (h.2 _ (Rule.mem_begun_of_begins hrun begins)).1,
      fun inner places begins => (h.2 _ (Rule.mem_begun_of_begins hrun begins)).2⟩
  · cases h

def readsBackAt (options : Options) (pass : Pass) (aliases : Aliases) (target : Node) : Bool :=
  match pick options pass aliases target with
  | some (.tx given) => callReadsBackWithin options.fileName pass given options.maxPasses
  | some (.tm given) => (compileTm given).toOption.isSome
  | _ => true

def readsBackThrough (source : Text) (options : Options) : Bool :=
  match (transformTrace source options).outcome with
  | .ok _ => ((transformer options).begun options.fileName options.maxPasses [] source 0).all fun entry =>
    decide (entry.1.module.Seated ∧ entry.1.module.Legible ∧
      (∀ item ∈ entry.1.module.items, item.isImport = true → item.Uncalled entry.2) ∧
      (∀ target ∈ Node.allTargets entry.1.module.items, target.called?.isSome →
        ¬ (entry.1.textAt target.span).Marked) ∧
      (∀ target ∈ Node.allTargets entry.1.module.items, (∀ child ∈ target.children, child.Uncalled entry.2) →
        readsBackAt options entry.1 entry.2 target = true) ∧
      (∀ target ∈ (transformer options).frontier entry.1 entry.2 (Node.allTargets entry.1.module.statements),
        WritesLiteral options entry.1 entry.2 target) ∧
      (transformer options).StatementsBecome entry.1 entry.2 (Rule.elementsIn options.fileName))
  | .error _ => false

section
variable {options : Options} {source : Text}

theorem readsBack_of_readsBackThrough (h : readsBackThrough source options = true) :
    ∀ limit, options.maxPasses ≤ limit → ∀ pass aliases,
      (transformer (options.allowing limit)).Begins options.fileName source pass aliases →
      ReadsBack (options.allowing limit) pass aliases := by
  unfold readsBackThrough at h
  split at h
  · rename_i fixpoint hrun
    intro limit hle pass aliases begins
    have extended := (grow_transformer options).extended hle
    have begins : (transformer options).Begins options.fileName source pass aliases :=
      begins.of_completed extended hrun
    obtain ⟨edits, hedits⟩ := begins.exists_edits hrun
    obtain ⟨seated, legible, imports, unmarked, hat, literals, rereads⟩ :=
      of_decide_eq_true (List.all_eq_true.1 h _ (Rule.mem_begun_of_begins hrun begins))
    -- A larger limit changes nothing in a pass that has edits.
    have agrees := Rule.Agrees.of_extended extended seated.proper.nested hedits
    refine ⟨seated, legible, imports, ⟨unmarked, fun target htarget given hpick hfree => ?_⟩,
      fun target htarget given hpick hfree => ?_, fun target htarget => ?_,
        agrees.statementsBecome seated.proper.nested rereads⟩
    · have hback := hat target htarget hfree
      unfold readsBackAt at hback
      rw [show pick options pass aliases target = some (.tx given) from hpick] at hback
      exact of_callReadsBackWithin hback
    · have hconstant := hat target htarget hfree
      unfold readsBackAt at hconstant
      rw [show pick options pass aliases target = some (.tm given) from hpick] at hconstant
      obtain ⟨code, hcode⟩ := Option.isSome_iff_exists.1 hconstant
      exact ⟨code, toOption_eq_some_iff.1 hcode⟩
    · have agrees := agrees.mono pass.module.targets_of_statements
      rw [← agrees.frontier_allTargets] at htarget
      obtain ⟨hmem, -, hinside, hpicked⟩ := Rule.mem_frontier.1 htarget
      unfold WritesLiteral
      rw [← agrees.replace target.1 hmem target.2 hpicked hinside]
      exact literals target htarget
  · cases h

end

/-! ## Meaning -/

/-- From some limit of passes on a file is transformed, and has a literal where a call of `tx`
stood. It comes to the classes of the arguments, one after another, and evaluates the tests and
expressions in them, in order, whatever these come to. -/
theorem transform_keeps_meaning {source : String} {options : Options} {first : Module}
    (hread : Module.read source.toList (Rule.elementsIn options.fileName) = .ok first)
    (readsBack : ∀ limit, options.maxPasses ≤ limit → ∀ pass aliases,
      (transformer (options.allowing limit)).Begins options.fileName source.toList pass aliases →
      ReadsBack (options.allowing limit) pass aliases)
    {path : Path} {call : Node}
    (hat : Node.outermost? (aliasesIn options first.items) path first.statements = some call)
    (hcall : call.isTxCall (aliasesIn options first.items) = true)
    (hfits : call.fits ⟨0, first⟩ (aliasesIn options first.items) false = true) :
    ∃ bound out last literal, (∀ limit, bound ≤ limit → transform source (options.allowing limit) = .ok out) ∧
      Module.read out.code.toList (Rule.elementsIn options.fileName) = .ok last ∧
      Node.outermost? (aliasesIn options first.items) path last.statements = some literal ∧
      literal.isClassLiteral = true ∧ ∀ setting, Yield.of (literal.signs setting ⟨0, last⟩) =
        call.meaning setting ⟨0, first⟩ (aliasesIn options first.items) := by
  have carries : Carries (aliasesIn options first.items) path
      (fun setting => call.meaning setting ⟨0, first⟩ (aliasesIn options first.items)) ⟨0, first⟩ :=
    ⟨call, hat, by rw [Node.isCompilable, hcall, Bool.true_or], hfits, fun _ => rfl⟩
  obtain ⟨bound, fixpoint, hle, hrun⟩ := exists_limit_of_readsBack hread readsBack carries
  have hout := transform_of_outcome hrun
  have readsBack := readsBack bound hle
  obtain ⟨state, records, last, aliases, reaches, hlast, hseed, hnone⟩ := Rule.reaches_of_run hrun
  obtain ⟨m, hm, hseed', carried⟩ :=
    @carries_of_reaches (options.allowing bound) _ _ _ _ hread readsBack carries _ _ _ reaches
  cases hlast.symm.trans hm
  cases hseed.symm.trans hseed'
  obtain ⟨literal, hat', hcompilable, -, hmeaning⟩ := carried
  have reads := readsBack ⟨records.length, last⟩ _ ⟨state, records, _, reaches, hlast, rfl, hseed⟩
  have hsubset := List.Subset.trans (Node.targets_of_outermost? hat') last.targets_of_statements
  have hliteral := Node.isClassLiteral_of_collectEdits reads.orderly hnone hsubset hcompilable
  refine ⟨bound, ⟨String.ofList fixpoint.code, fixpoint.map options.fileName⟩,
    last, literal, fun limit hlimit => ?_, ?_, hat', hliteral, fun setting => ?_⟩
  · have hsame := (transform_upTo hlimit source).eq_of_not_lost fun failure hfailure => by
      cases hout.symm.trans hfailure
    exact hsame.trans hout
  · rw [String.toList_ofList]
    exact hlast
  · have halike : literal.Alike ⟨records.length, last⟩ ⟨0, last⟩ literal :=
      (@Node.alike_refl ⟨records.length, last⟩ ⟨0, last⟩ rfl).1 literal
    rw [← halike.signs, ← Node.meaning_of_isClassLiteral hliteral]
    exact hmeaning setting

def fitsAt (source : Text) (options : Options) (path : Path) : Bool :=
  (Module.read source (Rule.elementsIn options.fileName)).toOption.any fun first =>
    let aliases := aliasesIn options first.items
    (Node.outermost? aliases path first.statements).any fun call =>
      call.isTxCall aliases && call.fits ⟨0, first⟩ aliases false

theorem of_fitsAt {source : Text} {options : Options} {path : Path} (h : fitsAt source options path = true) :
    ∃ first call, Module.read source (Rule.elementsIn options.fileName) = .ok first ∧
      Node.outermost? (aliasesIn options first.items) path first.statements = some call ∧
      call.isTxCall (aliasesIn options first.items) = true ∧
      call.fits ⟨0, first⟩ (aliasesIn options first.items) false = true := by
  unfold fitsAt at h
  rw [Option.any_eq_true] at h
  obtain ⟨first, hread, h⟩ := h
  simp only [Option.any_eq_true, Bool.and_eq_true] at h
  obtain ⟨call, hat, hcall, hfits⟩ := h
  exact ⟨first, call, toOption_eq_some_iff.1 hread, hat, hcall, hfits⟩

set_option maxRecDepth 100000 in
/-- A call of `tx` inside a conditional is compiled a pass earlier. -/
theorem transform_keeps_meaning_of_nested_call : ∃ first last bound out, ∃ call literal : Node,
    Module.read "import {tx} from \"@mkx419/tx\";\ntx(c && tx('a', b))".toList
      (Rule.elementsIn none) = .ok first ∧
      Node.outermost? (aliasesIn {} first.items) [0, 0] first.statements = some call ∧
      call.isTxCall (aliasesIn {} first.items) = true ∧
      (∀ limit, bound ≤ limit → transform "import {tx} from \"@mkx419/tx\";\ntx(c && tx('a', b))"
        (({} : Options).allowing limit) = .ok out) ∧
      Module.read out.code.toList (Rule.elementsIn none) = .ok last ∧
      Node.outermost? (aliasesIn {} first.items) [0, 0] last.statements = some literal ∧
      literal.isClassLiteral = true ∧ ∀ setting, Yield.of (literal.signs setting ⟨0, last⟩) =
        call.meaning setting ⟨0, first⟩ (aliasesIn {} first.items) := by
  have hfits : fitsAt "import {tx} from \"@mkx419/tx\";\ntx(c && tx('a', b))".toList {} [0, 0] = true := by
    decide +kernel
  have hreads :
      readsBackThrough "import {tx} from \"@mkx419/tx\";\ntx(c && tx('a', b))".toList {} = true := by
    decide +kernel
  generalize "import {tx} from \"@mkx419/tx\";\ntx(c && tx('a', b))" = source at hfits hreads ⊢
  obtain ⟨first, call, hread, hat, hcall, hfits⟩ := of_fitsAt hfits
  obtain ⟨bound, out, last, literal, hout, hlast, hat', hliteral, hmeaning⟩ :=
    transform_keeps_meaning hread (readsBack_of_readsBackThrough hreads) hat hcall hfits
  exact ⟨first, last, bound, out, call, literal, hread, hat, hcall, hout, hlast, hat', hliteral, hmeaning⟩

def yieldOfCode (source : Text) (options : Options) (path : Path) (setting : Setting) : Option Yield := do
  let fixpoint ← (transformTrace source options).outcome.toOption
  let last ← (Module.read fixpoint.code (Rule.elementsIn options.fileName)).toOption
  let literal ← Node.outermost? [] path last.statements
  return Yield.of (literal.signs setting ⟨0, last⟩)

def yieldMeant (source : Text) (options : Options) (path : Path) (setting : Setting) : Option Yield := do
  let first ← (Module.read source (Rule.elementsIn options.fileName)).toOption
  let aliases := aliasesIn options first.items
  let call ← Node.outermost? aliases path first.statements
  return call.meaning setting ⟨0, first⟩ aliases

set_option maxRecDepth 100000 in
/-- The value of a conditional is not looked into: where it is `test && value`, the test shows
itself if it fails. -/
theorem transform_shows_inner_test :
    let setting : Setting := ⟨fun source => source == ['c'], fun _ => "false".toList, fun _ => []⟩
    let source := "import {tx} from \"@mkx419/tx\";\ntx(c && (d && 'x'))".toList
    yieldMeant source {} [0, 0] setting = some ⟨[.test ['c'], .test ['d']], []⟩ ∧
      yieldOfCode source {} [0, 0] setting = some ⟨[.test ['c'], .test ['d']], ["false".toList]⟩ := by
  decide +kernel

end ClassWeave
