import ClassWeave.Proofs.TreeRereading
import ClassWeave.Proofs.TreeStatements
import ClassWeave.Proofs.VariableCalls
/-!
# Programs that are read again

A program behind an import of helpers: calls that are statements of their own, among statements that
call no helper. What every pass leaves of it is read as it was, with a literal in the place of each
call that was edited and without the import. A template is only put where no expression ends in
front of it; a string stands on a line of its own as well.
-/

namespace ClassWeave

open Lexeme Reader

/-! ## Statements of a program -/

def Statement.Apart (statement : Statement) (options : Options) (aliases : Aliases) : Prop :=
  ∀ start, aliasesOf options (statement.node start) = [] ∧
    ∀ pass, ∀ target ∈ (statement.node start).targets, pick options pass aliases target = none

/-- A statement of a program: one that stays, a tree of calls, or a call with a variable. -/
inductive Fragment where
  | kept (statement : Statement)
  | calls (tree : HelperTree) (semicolon : Option Gap)
  | embeds (call : VariableCall) (semicolon : Option Gap)

namespace Fragment

def statement : Fragment → Statement
  | kept statement => statement
  | calls tree semicolon => tree.operand.statement semicolon
  | embeds call semicolon => call.operand.statement semicolon

def step : Fragment → Fragment
  | kept statement => kept statement
  | calls tree semicolon => calls tree.step semicolon
  | embeds call semicolon => kept ((call.templateOperand call.lead).statement semicolon)

def depth : Fragment → Nat
  | kept _ => 0
  | calls tree _ => tree.depth
  | embeds _ _ => 1

def Names (options : Options) (aliases : Aliases) : Fragment → Prop
  | kept statement => statement.Apart options aliases
  | calls tree _ => tree.Names aliases
  | embeds call _ => aliases.lookup (String.ofList call.callee) = some .tx

/-- Whether a statement in front of the fragment can end in front of it, whatever becomes of it. -/
def OnLine : Fragment → Prop
  | kept statement => statement.OnLine
  | calls tree _ => EndsLine tree.lead.text ∧ tree.Plain
  | embeds _ _ => False

variable {options : Options} {aliases : Aliases} {pass next : Pass}
    {elements : Bool} {fragments : List Fragment}

theorem closed_step (fragment : Fragment) : fragment.step.statement.closed = fragment.statement.closed := by
  cases fragment <;> rfl

theorem depth_step (fragment : Fragment) : fragment.step.depth = fragment.depth - 1 := by
  cases fragment with
  | kept statement => rfl
  | calls tree semicolon => exact tree.depth_step
  | embeds call semicolon => rfl

theorem onLine_statement {fragment : Fragment} (h : fragment.OnLine) : fragment.statement.OnLine := by
  cases fragment with
  | kept statement => exact h
  | calls tree semicolon => exact HelperTree.onLine_operand h.1 h.2 semicolon
  | embeds call semicolon => exact h.elim

theorem onLine_step {fragment : Fragment} (h : fragment.OnLine) : fragment.step.OnLine := by
  cases fragment with
  | kept statement => exact h
  | calls tree semicolon => exact ⟨tree.lead_step.symm ▸ h.1, HelperTree.plain_step h.2⟩
  | embeds call semicolon => exact h.elim

/-! ## One pass over a fragment -/

theorem picked?_of_apart {statement : Statement} (h : statement.Apart options aliases) (start : Nat) :
    ∀ target ∈ (statement.node start).targets, (transformer options).picked? pass aliases target = none := by
  intro target htarget
  rw [Rule.picked?]
  split
  · exact (h start).2 pass target htarget
  · rfl

theorem rewrites_statement (hlimit : 3 ≤ options.maxPasses) {fragment : Fragment} {start : Nat}
    (names : fragment.Names options aliases) (holds : pass.Holds start fragment.statement.text) :
    (transformer options).Rewrites pass aliases [fragment.statement.node start] start fragment.statement.text
        fragment.step.statement.text ∧
      (transformer options).anyPending pass aliases [fragment.statement.node start] =
        (fragment.depth != 0) := by
  cases fragment with
  | kept statement =>
    have hnone : (transformer options).anyPending pass aliases [statement.node start] = false := by
      refine Rule.anyPending_of_unpicked fun target htarget => picked?_of_apart names start target ?_
      rwa [Node.allTargets, Node.allTargets, List.append_nil] at htarget
    exact ⟨.keep hnone _ _, hnone⟩
  | calls tree semicolon =>
    obtain ⟨hrewrites, hpending⟩ :=
      HelperTree.rewrites hlimit tree.untrailed (HelperTree.names_untrailed names)
        (HelperTree.holds_untrailed holds)
    rw [HelperTree.step_untrailed, HelperTree.text_untrailed,
      HelperTree.text_untrailed, HelperTree.node_untrailed]
      at hrewrites
    refine ⟨Operand.rewrites_statement semicolon hrewrites, (Operand.anyPending_statement semicolon).trans ?_⟩
    rw [HelperTree.node_untrailed, HelperTree.isLeaf_untrailed] at hpending
    refine hpending.trans ?_
    rw [depth, bne, Bool.eq_iff_iff]
    simp [HelperTree.depth_eq_zero]
  | embeds call semicolon =>
    obtain ⟨hrewrites, hpending⟩ := call.rewrites_node (Nat.zero_lt_of_lt hlimit) names
      (call.operand.holds_of_written holds).right
    exact ⟨Operand.rewrites_statement semicolon (.behind call.lead.text hrewrites),
      (Operand.anyPending_statement semicolon).trans hpending⟩

theorem becomes_statement (hlimit : 3 ≤ options.maxPasses) {fragment : Fragment} {start start' : Nat}
    (names : fragment.Names options aliases) (holds : pass.Holds start fragment.statement.text)
    (holds' : next.Holds start' fragment.step.statement.text) :
    (transformer options).Becomes pass next aliases elements (fragment.statement.node start)
      (fragment.step.statement.node start') := by
  cases fragment with
  | kept statement =>
      exact Rule.becomes_of_alike (picked?_of_apart names start) (statement.alike holds holds')
  | calls tree semicolon =>
    have hholds := HelperTree.holds_untrailed holds
    have hholds' := HelperTree.holds_untrailed holds'
    obtain ⟨-, hpending⟩ :=
      HelperTree.rewrites hlimit tree.untrailed (HelperTree.names_untrailed names) hholds
    rw [← HelperTree.step_untrailed] at hholds'
    have hbecomes : (transformer options).Becomes pass next aliases elements _ _ :=
      HelperTree.becomes_node hlimit tree.untrailed (HelperTree.names_untrailed names) hholds hholds'
    rw [HelperTree.step_untrailed, HelperTree.node_untrailed, HelperTree.node_untrailed] at hbecomes
    rw [HelperTree.node_untrailed, HelperTree.isLeaf_untrailed] at hpending
    cases tree with
    | leaf lead literal trail =>
      refine Rule.becomes_of_alike (fun target htarget => ?_) (Statement.alike _ holds holds')
      cases literal with
      | string quote body value hquote closed => cases htarget
      | template body raw value closed =>
        cases List.mem_singleton.1 htarget
        rfl
    | call lead helper callee behind given trail =>
        exact Operand.becomes_statement semicolon hbecomes hpending
  | embeds call semicolon =>
    have hholds := (call.operand.holds_of_written holds).right
    have hholds' := ((call.templateOperand call.lead).holds_of_written holds').right
    exact Operand.becomes_statement semicolon
      (call.becomes_node (Nat.zero_lt_of_lt hlimit) names hholds hholds')
      (call.rewrites_node (Nat.zero_lt_of_lt hlimit) names hholds).2

/-! ## One pass over a program -/

def textOf (fragments : List Fragment) : Text := Statement.textOf (fragments.map statement)

def nodesOf (fragments : List Fragment) (start : Nat) : List Node :=
  Statement.nodesOf (fragments.map statement) start

def Parted (fragments : List Fragment) : Prop :=
  fragments.IsChain fun fragment next => fragment.statement.closed = true ∨ next.OnLine

def AllName (options : Options) (aliases : Aliases) (fragments : List Fragment) : Prop :=
  ∀ fragment ∈ fragments, fragment.Names options aliases

theorem names_step {fragment : Fragment} (names : fragment.Names options aliases) :
    fragment.step.Names options aliases := by
  cases fragment with
  | kept statement => exact names
  | calls tree semicolon => exact HelperTree.names_step names
  | embeds call semicolon =>
    refine fun start => ⟨rfl, fun pass target htarget => ?_⟩
    cases List.mem_singleton.1 htarget
    rfl

theorem names_steps (names : AllName options aliases fragments) :
    AllName options aliases (fragments.map step) := by
  intro fragment hfragment
  obtain ⟨before, hbefore, rfl⟩ := List.mem_map.1 hfragment
  exact names_step (names before hbefore)

theorem parted_steps {fragments : List Fragment} (parted : Parted fragments) :
    Parted (fragments.map step) := by
  refine (List.isChain_map step).2 (parted.imp fun fragment next h => ?_)
  exact h.imp (fun hclosed => (closed_step fragment).trans hclosed) onLine_step

theorem Parted.statements {fragments : List Fragment} (parted : Parted fragments) :
    Statement.Parted (fragments.map statement) := by
  refine (List.isChain_map statement).2 (parted.imp fun fragment next h => ?_)
  exact h.imp id onLine_statement

theorem rewrites_fragments (hlimit : 3 ≤ options.maxPasses) : ∀ {fragments : List Fragment} {start : Nat},
    AllName options aliases fragments → pass.Holds start (textOf fragments) →
    (transformer options).Rewrites pass aliases (nodesOf fragments start) start (textOf fragments)
        (textOf (fragments.map step)) ∧
      (transformer options).anyPending pass aliases (nodesOf fragments start) = fragments.any (·.depth != 0)
  | [], _, _, _ => ⟨.keep rfl _ _, rfl⟩
  | fragment :: rest, start, names, holds => by
    obtain ⟨hnames, hrest⟩ := List.forall_mem_cons.1 names
    obtain ⟨hrewrites, hpending⟩ := rewrites_statement hlimit hnames holds.left
    obtain ⟨hmore, hpending'⟩ := rewrites_fragments hlimit hrest holds.right
    refine ⟨hrewrites.cons hmore, ?_⟩
    rw [Rule.anyPending, Rule.anyPending, Bool.or_false] at hpending
    show (transformer options).anyPending pass aliases (fragment.statement.node start :: nodesOf rest _) = _
    rw [Rule.anyPending, hpending, hpending', List.any_cons]

theorem allBecome_fragments (hlimit : 3 ≤ options.maxPasses) :
    ∀ {fragments : List Fragment} {start start' : Nat},
    AllName options aliases fragments → pass.Holds start (textOf fragments) →
    next.Holds start' (textOf (fragments.map step)) →
    (transformer options).AllBecome pass next aliases elements (nodesOf fragments start)
      (nodesOf (fragments.map step) start')
  | [], _, _, _, _, _ => Rule.allBecome_nil_iff.2 rfl
  | fragment :: rest, start, start', names, holds, holds' => by
    obtain ⟨hnames, hrest⟩ := List.forall_mem_cons.1 names
    exact Rule.allBecome_cons_iff.2 ⟨_, _, rfl, becomes_statement hlimit hnames holds.left holds'.left,
      allBecome_fragments hlimit hrest holds.right holds'.right⟩

/-! ## The begin of a text -/

theorem plain_of_append {a rest rest' : Text} (hne : a ≠ []) (hplain : Module.Plain (a ++ rest)) :
    Module.Plain (a ++ rest') := by
  obtain ⟨c, more, rfl⟩ := List.exists_cons_of_ne_nil hne
  exact hplain

theorem plain_step {fragment : Fragment} {rest rest' : Text}
    (hplain : Module.Plain (fragment.statement.text ++ rest)) :
    Module.Plain (fragment.step.statement.text ++ rest') := by
  cases fragment with
  | kept statement => exact plain_of_append statement.text_ne_nil hplain
  | calls tree semicolon =>
    have hmark : tree.step.untrailed.lead.text.head? ≠ some Module.byteOrderMark := by
      rw [HelperTree.lead_untrailed, HelperTree.lead_step]
      intro hhead
      obtain ⟨more, hlead⟩ := List.head?_eq_some_iff.1 hhead
      change Module.Plain (tree.lead.text ++ _ ++ rest) at hplain
      rw [hlead] at hplain
      exact (hplain _ rfl).1 rfl
    have hwritten : tree.step.operand.written semicolon ++ rest' =
        tree.step.untrailed.text ++ ((semicolon.elim [] fun gap => gap.text ++ [';']) ++ rest') := by
      rw [HelperTree.text_untrailed, Operand.written]
      simp [HelperTree.operand]
    show Module.Plain (tree.step.operand.written semicolon ++ rest')
    rw [hwritten]
    exact HelperTree.plain_text _ _ hmark
  | embeds call semicolon =>
    show Module.Plain ((call.templateOperand call.lead).written semicolon ++ rest')
    change Module.Plain (call.operand.written semicolon ++ rest) at hplain
    unfold Operand.written at hplain ⊢
    rw [List.append_assoc] at hplain ⊢
    change Module.Plain (call.lead.text ++ _) at hplain
    change Module.Plain (call.lead.text ++ _)
    by_cases hlead : call.lead.text = []
    · rw [hlead]
      intro c hc
      obtain rfl : TemplateText.mark = c := Option.some.inj hc
      decide
    · exact plain_of_append hlead hplain

theorem plain_steps {fragments : List Fragment} {behind : Text}
    (hplain : Module.Plain (textOf fragments ++ behind)) :
    Module.Plain (textOf (fragments.map step) ++ behind) := by
  cases fragments with
  | nil => exact hplain
  | cons fragment rest =>
    change Module.Plain (fragment.statement.text ++ textOf rest ++ behind) at hplain
    change Module.Plain (fragment.step.statement.text ++ textOf (rest.map step) ++ behind)
    rw [List.append_assoc] at hplain ⊢
    exact plain_step hplain

/-! ## The run behind the first pass -/

def programOf (fragments : List Fragment) (final : Gap) : Module :=
  ⟨textOf fragments ++ final.text, nodesOf fragments 0⟩

variable {final : Gap} {limit : Nat}

theorem nested_programOf (fragments : List Fragment) (final : Gap) :
    Node.AllNested (programOf fragments final).items :=
  (Statement.contained_nodesOf (fragments.map statement) 0).nested

theorem holds_programOf (fragments : List Fragment) (final : Gap) (index : Nat) :
    Pass.Holds ⟨index, programOf fragments final⟩ 0 (textOf fragments) := ⟨[], final.text, rfl, rfl⟩

theorem isTarget_of_pick {node : Node} {picked : HelperTarget}
    (h : pick options pass aliases node = some picked) :
    node.shape.isTarget = true := by
  unfold pick at h
  split at h
  · rfl
  · rfl
  · cases h

theorem isDeleted_statement {fragment : Fragment} (names : fragment.Names options aliases) (start : Nat) :
    (fragment.statement.node start).isDeleted options pass aliases = false := by
  cases fragment with
  | kept statement =>
    have hpick : pick options pass aliases (statement.node start) = none := by
      by_contra hsome
      obtain ⟨picked, hpicked⟩ := Option.ne_none_iff_exists'.1 hsome
      have hself : statement.node start ∈ (statement.node start).targets := by
        have htarget := isTarget_of_pick hpicked
        generalize statement.node start = node at htarget ⊢
        obtain ⟨shape, span, children⟩ := node
        exact Node.mem_targets_self htarget
      rw [(names start).2 pass _ hself] at hpicked
      cases hpicked
    show (statement.node start).isDeleted options pass aliases = false
    unfold Node.isDeleted
    rw [hpick]
  | calls tree semicolon => rfl
  | embeds call semicolon => rfl

theorem filter_nodesOf : ∀ {fragments : List Fragment}, AllName options aliases fragments → ∀ start,
    ((nodesOf fragments start).filter fun item => !item.isDeleted options pass aliases) =
      nodesOf fragments start
  | [], _, _ => rfl
  | fragment :: rest, names, start => by
    obtain ⟨hnames, hrest⟩ := List.forall_mem_cons.1 names
    show List.filter _ (fragment.statement.node start :: nodesOf rest _) = _
    rw [List.filter_cons_of_pos (by rw [isDeleted_statement hnames]; rfl), filter_nodesOf hrest]
    rfl

theorem rereads_fragments (hlimit : 3 ≤ options.maxPasses) :
    ∀ (left : Nat) {fragments : List Fragment} {records : List Record},
    (∀ fragment ∈ fragments, fragment.depth < left) → 0 < left →
    AllName options aliases fragments → Parted fragments →
    Module.Plain (textOf fragments ++ final.text) → records ≠ [] → ∃ rest,
    ((transformer options).passes options.fileName limit left
      aliases (textOf fragments ++ final.text) records).modules
        (Rule.elementsIn options.fileName) = programOf fragments final :: rest ∧
      Rereads options aliases records.length (programOf fragments final :: rest)
  | 0, _, _, _, hleft, _, _, _, _ => absurd hleft (Nat.lt_irrefl _)
  | left + 1, fragments, records, hdepth, _, names, parted, hplain, hrecords => by
    have hread :=
      Statement.read_of_parted final.between parted.statements hplain (Rule.elementsIn options.fileName)
    have holds := holds_programOf fragments final records.length
    have nested := nested_programOf fragments final
    obtain ⟨hrewrites, hpending⟩ := rewrites_fragments hlimit names holds
    have hall := hrewrites.before final.text
    obtain ⟨edits, record, hedits, happly, hne⟩ := hall.applyAll nested records.length
    have hpass := Rule.onePass_eq_ok_iff.2 ⟨HelperTree.seed_alone hrecords _, hedits, happly⟩
    change Module.read (textOf fragments ++ final.text) _ = .ok (programOf fragments final) at hread
    rw [Rule.modules_passes hread hpass]
    by_cases hany : fragments.any (·.depth != 0) = true
    · have hleft : 0 < left := by
        obtain ⟨fragment, hfragment, hpositive⟩ := List.any_eq_true.1 hany
        have := hdepth fragment hfragment
        have hne : fragment.depth ≠ 0 := bne_iff_ne.1 hpositive
        omega
      have hdepth' : ∀ fragment ∈ fragments.map step, fragment.depth < left := by
        intro fragment hfragment
        obtain ⟨before, hbefore, rfl⟩ := List.mem_map.1 hfragment
        have := hdepth before hbefore
        rw [depth_step]
        omega
      obtain ⟨rest, hmodules, hrest⟩ := rereads_fragments hlimit left hdepth' hleft (names_steps names)
        (parted_steps parted) (plain_steps hplain)
        (List.append_ne_nil_of_right_ne_nil records (List.cons_ne_nil record []))
      rw [if_neg (by simpa using hne (hpending.trans hany)), hmodules]
      rw [List.length_append] at hrest
      refine ⟨_, rfl, .pass ?_ hrest⟩
      show (transformer options).AllBecome _ _ _ _ (List.filter _ (nodesOf fragments 0))
        (nodesOf (fragments.map step) 0)
      rw [filter_nodesOf names]
      exact allBecome_fragments hlimit names holds
        (holds_programOf (fragments.map step) final (records.length + 1))
    · rw [Bool.not_eq_true] at hany
      have hnone :=
        (Rule.collectEdits_eq_mapM nested).trans (congrArg _ (Rule.frontier_eq_nil (hpending.trans hany)))
      cases hedits.symm.trans hnone
      exact ⟨_, rfl, .last⟩

/-! ## The first pass -/

variable {header : HelperImport}

def headedBy (header : HelperImport) (fragments : List Fragment) (final : Gap) : Module :=
  ⟨header.text ++ (textOf fragments ++ final.text), header.node :: nodesOf fragments header.text.byteLength⟩

theorem read_headedBy (parted : Parted fragments) (elements : Bool) :
    Module.read (header.text ++ (textOf fragments ++ final.text)) elements =
      .ok (headedBy header fragments final) := by
  have hspecifiers := header.length_specifiers_le (textOf fragments ++ final.text)
  have hfragments : (fragments.map statement).length ≤ (textOf fragments).length := Statement.length_le_textOf
  have hlength : (textOf fragments).length ≤ (header.text ++ (textOf fragments ++ final.text)).length := by
    simp only [List.length_append]
    omega
  obtain ⟨budget, hbudget⟩ : ∃ budget,
    8 * ((header.text ++ (textOf fragments ++ final.text)).length + 8) = budget + 2 :=
    ⟨_, rfl⟩
  have hheader := statement_of_header (s := { elements }) header (budget + 2) budget (by omega)
    (textOf fragments ++ final.text)
  have hroom : 8 * ((textOf fragments).length + 8) ≤ budget + 2 := by omega
  have hfuel : (fragments.map statement).length < budget + 1 := by omega
  obtain ⟨place, hrest⟩ :=
    @Statement.allStatements_of_parted final.text final.between { elements } (budget + 2)
      (fragments.map statement) (budget + 1) hroom hfuel parted.statements header.text.byteLength
  have hahead : (Place.at' ⟨header.text ++ (textOf fragments ++ final.text), 0⟩).ahead.token ≠ .endOfText :=
    (next_header header (textOf fragments ++ final.text)).token_eq ▸ nofun
  refine Module.read_of_allStatements place (header.plain_text _) ?_
  rw [hbudget]
  exact allStatements_cons _ hahead hheader hrest

theorem nested_headedBy (header : HelperImport) (fragments : List Fragment) (final : Gap) :
    Node.AllNested (headedBy header fragments final).items :=
  (header.contained_node.cons (Statement.contained_nodesOf (fragments.map statement) header.text.byteLength)
    (Nat.le_add_right _ _) (Nat.zero_le _)).nested

theorem aliasesOf_statement {fragment : Fragment} (names : fragment.Names options aliases) (start : Nat) :
    aliasesOf options (fragment.statement.node start) = [] := by
  cases fragment with
  | kept statement => exact (names start).1
  | calls tree semicolon => rfl
  | embeds call semicolon => rfl

theorem aliasesIn_nodesOf : ∀ {fragments : List Fragment}, AllName options aliases fragments → ∀ start,
    aliasesIn options (nodesOf fragments start) = []
  | [], _, _ => rfl
  | fragment :: rest, names, start => by
    obtain ⟨hnames, hrest⟩ := List.forall_mem_cons.1 names
    have ih := aliasesIn_nodesOf hrest (start + fragment.statement.text.byteLength)
    unfold aliasesIn at ih ⊢
    show (List.map _ (fragment.statement.node start :: nodesOf rest _).reverse).flatten = []
    rw [List.reverse_cons, List.map_append, List.flatten_append,
      ih, List.map_singleton, aliasesOf_statement hnames]
    rfl

theorem seed_headedBy (hmodule : options.isHelperModule (String.ofList header.source) = true)
    (names : AllName options aliases fragments) :
    (transformer options).seed ⟨0, headedBy header fragments final⟩ [] = .ok header.aliases := by
  have hrest := aliasesIn_nodesOf names header.text.byteLength
  unfold aliasesIn at hrest
  show Except.ok
    ((List.map (aliasesOf options) (header.node :: nodesOf fragments header.text.byteLength).reverse).flatten
      ++ []) = _
  rw [List.reverse_cons, List.map_append, List.flatten_append,
    hrest, List.map_singleton, HelperImport.aliasesOf_node hmodule]
  simp

theorem onePass_headedBy (hlimit : 3 ≤ options.maxPasses)
    (hmodule : options.isHelperModule (String.ofList header.source) = true)
    (names : AllName options header.aliases fragments) : ∃ edits record,
    (transformer options).onePass ⟨0, headedBy header fragments final⟩ [] =
      .ok (header.aliases, edits, textOf (fragments.map step) ++ final.text, record) ∧ edits ≠ [] := by
  have hheader : Pass.Holds ⟨0, headedBy header fragments final⟩ 0 header.text :=
    ⟨[], textOf fragments ++ final.text, rfl, rfl⟩
  have hfragments :
      Pass.Holds ⟨0, headedBy header fragments final⟩ header.text.byteLength (textOf fragments) :=
    ⟨header.text, final.text, rfl, rfl⟩
  obtain ⟨himport, hpending⟩ := header.rewrites_node hmodule rfl hheader
  obtain ⟨hrewrites, -⟩ := rewrites_fragments hlimit names hfragments
  rw [← Nat.zero_add header.text.byteLength] at hrewrites
  have hall := himport.cons (hrewrites.before final.text)
  rw [Nat.zero_add] at hall
  obtain ⟨edits, record, hedits, happly, hne⟩ := hall.applyAll (nested_headedBy header fragments final) 0
  have hany : (transformer options).anyPending ⟨0, headedBy header fragments final⟩ header.aliases
      (headedBy header fragments final).items = true := by
    rw [Rule.anyPending, Rule.anyPending, Bool.or_false] at hpending
    exact Bool.or_eq_true_iff.2 (.inl hpending)
  exact ⟨edits, record, Rule.onePass_eq_ok_iff.2 ⟨seed_headedBy hmodule names, hedits, happly⟩, hne hany⟩

/-- After every pass over a program behind an import of helpers, the program is read as it was, but
for the calls that the pass replaced and the import that it deleted. -/
theorem transform_rereads_program (options : Options) (header : HelperImport)
    (fragments : List Fragment) (final : Gap)
    (hmodule : options.isHelperModule (String.ofList header.source) = true)
    (names : AllName options header.aliases fragments) (parted : Parted fragments)
    (hplain : Module.Plain (textOf fragments ++ final.text)) (hlimit : 3 ≤ options.maxPasses)
    (hdepth : ∀ fragment ∈ fragments, fragment.depth + 2 ≤ options.maxPasses) :
    Rereads options header.aliases 0
      ((transformTrace (header.text ++ (textOf fragments ++ final.text)) options).modules
      (Rule.elementsIn options.fileName)) := by
  obtain ⟨limit, hpasses⟩ : ∃ limit, options.maxPasses = limit + 1 := ⟨options.maxPasses - 1, by omega⟩
  have hread := @read_headedBy fragments final header parted (Rule.elementsIn options.fileName)
  obtain ⟨edits, record, hpass, hne⟩ := @onePass_headedBy options fragments final header hlimit hmodule names
  have hdepth' : ∀ fragment ∈ fragments.map step, fragment.depth < limit := by
    intro fragment hfragment
    obtain ⟨before, hbefore, rfl⟩ := List.mem_map.1 hfragment
    have := hdepth before hbefore
    rw [depth_step]
    omega
  obtain ⟨rest, hmodules, hrest⟩ := rereads_fragments hlimit limit hdepth' (by omega) (names_steps names)
    (parted_steps parted) (plain_steps hplain) (List.cons_ne_nil record [])
  have hfragments :
      Pass.Holds ⟨0, headedBy header fragments final⟩ header.text.byteLength (textOf fragments) :=
    ⟨header.text, final.text, rfl, rfl⟩
  have hinitial : (transformer options).initial = [] := rfl
  unfold transformTrace Rule.run
  rw [hpasses, hinitial, Rule.modules_passes hread hpass, if_neg (by simpa using hne),
    List.nil_append, hmodules]
  refine .pass ?_ hrest
  show (transformer options).AllBecome _ _ _ _
    (List.filter _ (header.node :: nodesOf fragments header.text.byteLength))
    (nodesOf (fragments.map step) 0)
  rw [List.filter_cons_of_neg (by simp [HelperTree.isDeleted_header hmodule]), filter_nodesOf names]
  exact allBecome_fragments hlimit names hfragments (holds_programOf (fragments.map step) final 1)

/-- A call inside a call between calls of other names, all on lines of their own, and a call with
a variable. -/
theorem transform_rereads_calls_among_others : Rereads {} [("tx", .tx)] 0 ((transformTrace
    "import { tx } from \"@mkx419/tx\";\nf(\"x\")\ntx(tx(\"a\"), \"b\")\nf(\"y\"); tx(v);".toList {}).modules
      (Rule.elementsIn none)) := by
  let nothing : Gap := ⟨[], between_nil⟩
  let line : Gap := ⟨['\n'], between_blank (by decide)⟩
  let blank : Gap := ⟨[' '], between_space⟩
  have hline : EndsLine line.text := endsLine_blank (by decide) (by decide)
  let header : HelperImport := ⟨[⟨.tx, rfl, none⟩], "@mkx419/tx".toList⟩
  let joins : Callee := ⟨"tx", isWord_helper .tx, by unfold Token.IsVariable; decide⟩
  let other : Callee := ⟨"f", ⟨⟨'f', [], rfl, by decide⟩, by decide⟩, by unfold Token.IsVariable; decide⟩
  let otherCall (value : Text) : HelperTree :=
    .call line .tx other nothing [.leaf nothing (.quoted value) nothing] nothing
  let given : List HelperTree :=
    [.call nothing .tx joins nothing [.leaf nothing (.quoted "a".toList) nothing] nothing,
      .leaf blank (.quoted "b".toList) nothing]
  let embedding : VariableCall :=
    ⟨blank, "tx".toList, ⟨isWord_helper .tx, by unfold Token.IsVariable; decide, by decide⟩,
      nothing, nothing, ['v'], isVariableName_letter (by decide), nothing⟩
  let fragments : List Fragment := [kept ((otherCall "x".toList).operand.statement none),
    calls (.call line .tx joins nothing given nothing) none,
    kept ((otherCall "y".toList).operand.statement (some nothing)),
    embeds embedding (some nothing)]
  have hother : ∀ value semicolon,
    ((otherCall value).operand.statement semicolon).Apart {} [("tx", .tx)] := by
    refine fun value semicolon start => ⟨rfl, fun pass target htarget => ?_⟩
    cases List.mem_singleton.1 htarget
    rfl
  have names : AllName {} header.aliases fragments := by
    refine List.forall_mem_cons.2
      ⟨hother _ _, List.forall_mem_cons.2 ⟨⟨rfl, .inl rfl, ⟨rfl, .inl rfl, trivial, trivial⟩, trivial,
      trivial⟩, List.forall_mem_cons.2 ⟨hother _ _, List.forall_mem_cons.2 ⟨rfl, List.forall_mem_nil _⟩⟩⟩⟩
  have hplainName : ∀ name ∈ ["f", "tx"], name ∉ Token.asserting := by decide
  have parted : Parted fragments := by
    refine .cons_cons (.inr ⟨hline, hplainName "tx" (by decide)⟩)
      (.cons_cons (.inr ?_) (.cons_cons (.inl rfl) (.singleton _)))
    exact @HelperTree.onLine_operand (otherCall "y".toList) hline (hplainName "f" (by decide)) (some nothing)
  have hplain : Module.Plain (textOf fragments ++ nothing.text) := by
    intro c hc
    obtain rfl : '\n' = c := Option.some.inj hc
    decide
  have h :=
    transform_rereads_program {} header fragments nothing (by decide +kernel) names parted hplain (by decide)
      (by decide +kernel)
  have hsource : header.text ++ (textOf fragments ++ nothing.text) =
      "import { tx } from \"@mkx419/tx\";\nf(\"x\")\ntx(tx(\"a\"), \"b\")\nf(\"y\"); tx(v);".toList := by
    decide +kernel
  rw [hsource] at h
  exact h

end Fragment
end ClassWeave
