import ClassWeave.Proofs.HelperHeader
import ClassWeave.Proofs.TreeStep
/-!
# Trees come to their values

A program that is an import of helpers and a tree of their calls is transformed in one pass for
every level of the tree, and one that finds nothing: what is left is the value of the tree, as one
string.
-/

namespace ClassWeave

/-! ## The import -/

theorem Helper.ofExport_name (helper : Helper) : ofExport helper.name = some helper := by
  cases helper <;> rfl

theorem HelperSpecifier.compiled?_read (specifier : HelperSpecifier) (offset : Nat) :
    (specifier.read offset).compiled? = some (specifier.binding, specifier.helper) := by
  unfold read ImportSpecifier.compiled?
  simp only [Helper.ofExport_name, Option.filter_some, specifier.compiled, if_true, Option.map_some]

theorem HelperSpecifier.compiled?_readAll : ∀ (specifiers : List HelperSpecifier) (offset : Nat),
    (readAll specifiers offset).filterMap ImportSpecifier.compiled? =
      specifiers.map fun specifier => (specifier.binding, specifier.helper)
  | [], _ => rfl
  | specifier :: rest, offset => by
    rw [readAll, List.filterMap_cons, compiled?_read, compiled?_readAll rest]
    rfl

theorem HelperSpecifier.exists_of_mem_readAll {found : ImportSpecifier} :
    ∀ {specifiers : List HelperSpecifier} {offset : Nat},
    found ∈ readAll specifiers offset → ∃ specifier start, found = read specifier start
  | [], _, h => nomatch h
  | specifier :: rest, offset, h => by
    rcases List.mem_cons.1 h with rfl | h
    · exact ⟨specifier, _, rfl⟩
    · exact exists_of_mem_readAll h

namespace HelperImport

variable {options : Options} {header : HelperImport}

theorem nothing_kept (header : HelperImport) : header.declaration.keptNames = [] ∧
    header.declaration.single? = none ∧ header.declaration.everything? = none := by
  have hnames : header.declaration.keptNames = [] := by
    refine List.filterMap_eq_nil_iff.2 fun found hfound => ?_
    obtain ⟨specifier, start, rfl⟩ := HelperSpecifier.exists_of_mem_readAll hfound
    have hcompiled := specifier.compiled?_read start
    unfold HelperSpecifier.read at hcompiled ⊢
    simp [hcompiled]
  have hsingle : header.declaration.single? = none := by
    refine List.getLast?_eq_none_iff.2 (List.filterMap_eq_nil_iff.2 fun found hfound => ?_)
    obtain ⟨specifier, start, rfl⟩ := HelperSpecifier.exists_of_mem_readAll hfound
    rfl
  have heverything : header.declaration.everything? = none := by
    refine List.getLast?_eq_none_iff.2 (List.filterMap_eq_nil_iff.2 fun found hfound => ?_)
    obtain ⟨specifier, start, rfl⟩ := HelperSpecifier.exists_of_mem_readAll hfound
    rfl
  exact ⟨hnames, hsingle, heverything⟩

theorem withoutHelpers_declaration (header : HelperImport) (pass : Pass) (module : String) :
    header.declaration.withoutHelpers pass module = none := by
  obtain ⟨hnames, hsingle, heverything⟩ := header.nothing_kept
  unfold ImportDeclaration.withoutHelpers
  rw [hnames, hsingle, heverything]
  rfl

theorem replace_declaration (header : HelperImport) (pass : Pass) (aliases : Aliases) :
    (transformer options).replace pass aliases (.importDeclaration header.declaration) = .ok none := by
  obtain ⟨hnames, hsingle, heverything⟩ := header.nothing_kept
  have hspans : header.declaration.keptSpans = [] := by
    rw [ImportDeclaration.keptSpans, hnames, hsingle, heverything]
    rfl
  show (pass.reading header.declaration.keptSpans _).mapError TransformFailure.pass = _
  rw [hspans, header.withoutHelpers_declaration]
  rfl

theorem rewrites_node {pass : Pass} {aliases : Aliases}
    (hmodule : options.isHelperModule (String.ofList header.source) = true)
    (hfirst : pass.isFirst = true) (holds : pass.Holds 0 header.text) :
    (transformer options).Rewrites pass aliases [header.node] 0 header.text [] ∧
      (transformer options).anyPending pass aliases [header.node] = true := by
  have hselect : (transformer options).select pass aliases
      (.mk (.importDeclaration header.declaration) ⟨0, 0 + header.text.byteLength⟩ []) =
        some (.importDeclaration header.declaration) := if_pos (Bool.and_eq_true_iff.2 ⟨hfirst, hmodule⟩)
  have hne : (none : Option Text).getD [] ≠ header.text := nofun
  have hreplaced :=
    Rule.Rewrites.replaced none rfl holds rfl hselect (header.replace_declaration pass aliases) hne
  rwa [Nat.zero_add] at hreplaced

theorem aliasesOf_node (h : options.isHelperModule (String.ofList header.source) = true) :
    aliasesOf options header.node = header.aliases := by
  have hhelpers : header.declaration.isOfHelpers options = true := h
  have hbindings : header.declaration.bindings = header.specifiers.map fun specifier =>
    (specifier.binding, specifier.helper) :=
    HelperSpecifier.compiled?_readAll header.specifiers 8
  unfold aliasesOf node
  simp only
  rw [if_pos hhelpers, hbindings, aliases]

theorem length_pos (header : HelperImport) : 0 < header.text.byteLength := by
  have hfirst : header.text = 'i' :: header.text.tail := rfl
  rw [hfirst, Text.byteLength_cons]
  exact Nat.add_pos_left ('i' : Char).utf8Size_pos _

theorem contained_node (header : HelperImport) : Node.Contained [header.node] 0 header.text.byteLength :=
  .around (.nil 1 _) Nat.one_pos header.length_pos

end HelperImport

namespace HelperTree

variable {options : Options} {aliases : Aliases} {header : HelperImport} {tree : HelperTree} {ending : Ending}

/-! ## One pass over a program -/

def program (header : HelperImport) (tree : HelperTree) (ending : Ending) (span : Span) : Module :=
  ⟨header.text ++ (tree.text ++ ending.text),
    [header.node, .mk .expressionStatement span [tree.node header.text.byteLength]]⟩

def alone (tree : HelperTree) (ending : Ending) (span : Span) : Module :=
  ⟨tree.text ++ ending.text, [.mk .expressionStatement span [tree.node 0]]⟩

theorem rewrites_alone (names : tree.Names aliases) (hlimit : 3 ≤ options.maxPasses)
    (span : Span) (index : Nat) :
    (transformer options).Rewrites ⟨index, alone tree ending span⟩ aliases (alone tree ending span).items 0
        (tree.text ++ ending.text) (tree.step.text ++ ending.text) ∧
      (transformer options).anyPending ⟨index, alone tree ending span⟩
        aliases (alone tree ending span).items = !tree.isLeaf := by
  have holds : Pass.Holds ⟨index, alone tree ending span⟩ 0 (tree.text ++ ending.text) :=
    ⟨[], [], by simp [alone], rfl⟩
  obtain ⟨hrewrites, hpending⟩ := rewrites hlimit tree names holds.left
  refine ⟨.of_none rfl (hrewrites.before ending.text), ?_⟩
  rw [← hpending, alone, Rule.anyPending, Rule.anyPending, Rule.holdsPending, Bool.or_false]
  exact Bool.or_false _

theorem nested_alone (tree : HelperTree) (ending : Ending) (span : Span) :
    Node.AllNested (alone tree ending span).items :=
  ⟨⟨nofun, (contained_node tree 0).nested⟩, trivial, fun _ _ => nofun⟩

theorem rewrites_program (hmodule : options.isHelperModule (String.ofList header.source) = true)
    (names : tree.Names header.aliases) (hlimit : 3 ≤ options.maxPasses) (span : Span) :
    (transformer options).Rewrites ⟨0, program header tree ending span⟩
    header.aliases (program header tree ending span).items 0
        (header.text ++ (tree.text ++ ending.text)) (tree.step.text ++ ending.text) ∧
      (transformer options).anyPending ⟨0, program header tree ending span⟩ header.aliases
        (program header tree ending span).items = true := by
  have holds :
      Pass.Holds ⟨0, program header tree ending span⟩ 0 (header.text ++ (tree.text ++ ending.text)) :=
    ⟨[], [], by simp [program], rfl⟩
  have htree :
      Pass.Holds ⟨0, program header tree ending span⟩ header.text.byteLength (tree.text ++ ending.text) :=
    Nat.zero_add header.text.byteLength ▸ holds.right
  obtain ⟨himport, hpending⟩ := header.rewrites_node hmodule rfl holds.left
  obtain ⟨hrewrites, -⟩ := rewrites hlimit tree names htree.left
  have hstatement : (transformer options).Rewrites ⟨0, program header tree ending span⟩ header.aliases
      [.mk .expressionStatement span [tree.node header.text.byteLength]] (0 + header.text.byteLength)
      (tree.text ++ ending.text) (tree.step.text ++ ending.text) :=
    .of_none rfl ((Nat.zero_add header.text.byteLength).symm ▸ hrewrites.before ending.text)
  refine ⟨himport.cons hstatement, ?_⟩
  rw [Rule.anyPending, Rule.anyPending, Bool.or_false] at hpending
  exact Bool.or_eq_true_iff.2 (.inl hpending)

theorem nested_program (header : HelperImport) (tree : HelperTree) (ending : Ending) (span : Span) :
    Node.AllNested (program header tree ending span).items := by
  have htree := contained_node tree header.text.byteLength
  have hstatement :
      Node.Contained [.mk .expressionStatement span [tree.node header.text.byteLength]] header.text.byteLength
        (header.text.byteLength + tree.text.byteLength) := .of_children rfl htree
  exact (header.contained_node.cons hstatement (Nat.le_add_right _ _) (Nat.zero_le _)).nested

/-! ## The run -/

def result (tree : HelperTree) : HelperTree :=
  if tree.isLeaf then tree else .leaf tree.lead (.quoted tree.value) tree.trail

theorem result_step (tree : HelperTree) : tree.step.result = tree.result := by
  cases tree with
  | leaf lead literal trail => rfl
  | call lead helper callee behind given trail =>
    have hvalue := value_step (call lead helper callee behind given trail)
    rw [step] at hvalue ⊢
    by_cases hleaves : given.all isLeaf = true
    · rw [if_pos hleaves]
      rfl
    · rw [if_neg hleaves] at hvalue ⊢
      exact congrArg (fun value => leaf lead (.quoted value) trail) hvalue

theorem depth_eq_zero {tree : HelperTree} : tree.depth = 0 ↔ tree.isLeaf = true := by
  cases tree with
  | leaf lead literal trail => simp [depth, isLeaf]
  | call lead helper callee behind given trail => simp [depth, isLeaf]

variable {file : Option String} {limit : Nat}

theorem seed_alone {records : List Record} (hrecords : records ≠ []) (m : Module) :
    (transformer options).seed ⟨records.length, m⟩ aliases = .ok aliases := by
  have hfirst : (records.length == 0) = false := by simpa using hrecords
  show Except.ok (if (records.length == 0) = true then _ else aliases) = _
  rw [hfirst, if_neg Bool.false_ne_true]

structure Passed (options : Options) (file : Option String) (aliases aliases' : Aliases)
    (text : Text) (records : List Record) (m : Module) (output : Text) (record : Record) : Prop where
  read : Module.read text (Rule.elementsIn file) = .ok m
  edited : ∃ edits, (transformer options).onePass ⟨records.length, m⟩ aliases =
    .ok (aliases', edits, output, record) ∧ edits ≠ []

theorem Passed.outcome {aliases' : Aliases} {text output : Text}
    {records : List Record} {m : Module} {record : Record}
    (h : Passed options file aliases aliases' text records m output record) (left : Nat) :
    ((transformer options).passes file limit (left + 1) aliases text records).outcome =
      ((transformer options).passes file limit left aliases' output (records ++ [record])).outcome := by
  obtain ⟨edits, hpass, hne⟩ := h.edited
  obtain ⟨hseed, hedits, happly⟩ := Rule.onePass_eq_ok_iff.1 hpass
  exact Rule.passes_of_edits records h.read hseed hedits (Module.text_of_read h.read ▸ happly) hne

theorem passed_alone {records : List Record} (hlimit : 3 ≤ options.maxPasses) (names : tree.Names aliases)
    (hmark : tree.lead.text.head? ≠ some Module.byteOrderMark)
    (hrecords : records ≠ []) (hcall : tree.isLeaf = false) :
    ∃ span record,
    Passed options file aliases aliases (tree.text ++ ending.text) records (alone tree ending span)
      (tree.step.text ++ ending.text) record := by
  obtain ⟨span, hread⟩ := read_tree tree ending (Rule.elementsIn file) hmark
  obtain ⟨hrewrites, hpending⟩ := @rewrites_alone options aliases tree ending names hlimit span records.length
  obtain ⟨edits, record, hedits, happly, hne⟩ :=
    hrewrites.applyAll (nested_alone tree ending span) records.length
  rw [hcall, Bool.not_false] at hpending
  exact ⟨span, record, hread, edits,
    Rule.onePass_eq_ok_iff.2 ⟨seed_alone hrecords _, hedits, happly⟩, hne hpending⟩

theorem onePass_leaf {records : List Record} (hlimit : 3 ≤ options.maxPasses)
    (names : tree.Names aliases) (hrecords : records ≠ []) (hleaf : tree.isLeaf = true)
    (span : Span) : ∃ record,
    (transformer options).onePass ⟨records.length, alone tree ending span⟩ aliases =
      .ok (aliases, [], tree.text ++ ending.text, record) := by
  have hpending := (@rewrites_alone options aliases tree ending names hlimit span records.length).2
  rw [hleaf, Bool.not_true] at hpending
  have hedits := (Rule.collectEdits_eq_mapM (nested_alone tree ending span)).trans
    (congrArg _ (Rule.frontier_eq_nil hpending))
  exact ⟨_, Rule.onePass_eq_ok_iff.2 ⟨seed_alone hrecords _, hedits, Edit.applyAll_nil _ _⟩⟩

theorem passes_alone (hlimit : 3 ≤ options.maxPasses) :
    ∀ (left : Nat) {tree : HelperTree} {records : List Record},
    tree.depth < left → tree.Names aliases → tree.lead.text.head? ≠ some Module.byteOrderMark →
    records ≠ [] → ∃ more,
    ((transformer options).passes file limit left aliases (tree.text ++ ending.text) records).outcome =
      .ok ⟨tree.result.text ++ ending.text, more⟩
  | 0, _, _, hleft, _, _, _ => absurd hleft (Nat.not_lt_zero _)
  | left + 1, tree, records, hleft, names, hmark, hrecords => by
    -- Every pass lowers the depth, so the pass that finds a literal comes within the limit, and it
    -- is the last.
    by_cases hleaf : tree.isLeaf = true
    · obtain ⟨span, hread⟩ := read_tree tree ending (Rule.elementsIn file) hmark
      obtain ⟨_, hpass⟩ := @onePass_leaf options aliases tree ending records hlimit names hrecords hleaf span
      obtain ⟨hseed, hedits, -⟩ := Rule.onePass_eq_ok_iff.1 hpass
      obtain ⟨record, hlast⟩ := Rule.passes_of_collectEdits_eq_nil records hread hseed hedits
      rw [result, if_pos hleaf]
      exact ⟨_, hlast⟩
    · obtain ⟨span, record, passed⟩ :=
        @passed_alone options aliases tree ending file records hlimit names hmark hrecords
          (Bool.not_eq_true _ ▸ hleaf)
      have hdepth := mt depth_eq_zero.1 hleaf
      have hless := depth_step tree
      have hrecords' : records ++ [record] ≠ [] := by simp
      obtain ⟨more, hmore⟩ :=
        passes_alone hlimit left (by omega) (names_step names) ((lead_step tree).symm ▸ hmark) hrecords'
      rw [result_step] at hmore
      exact ⟨more, (passed.outcome left).trans hmore⟩

theorem seed_program (hmodule : options.isHelperModule (String.ofList header.source) = true) (span : Span) :
    (transformer options).seed ⟨0, program header tree ending span⟩ [] = .ok header.aliases := by
  show Except.ok (([[], aliasesOf options header.node].flatten) ++ []) = _
  rw [HelperImport.aliasesOf_node hmodule]
  simp

theorem passed_program (hmodule : options.isHelperModule (String.ofList header.source) = true)
    (names : tree.Names header.aliases) (hlimit : 3 ≤ options.maxPasses) : ∃ span record,
    Passed options file [] header.aliases (header.text ++ (tree.text ++ ending.text))
      [] (program header tree ending span) (tree.step.text ++ ending.text) record := by
  obtain ⟨span, hread⟩ := read_program header tree ending (Rule.elementsIn file)
  obtain ⟨hrewrites, hpending⟩ := @rewrites_program options header tree ending hmodule names hlimit span
  obtain ⟨edits, record, hedits, happly, hne⟩ := hrewrites.applyAll (nested_program header tree ending span) 0
  exact ⟨span, record, hread, edits,
    Rule.onePass_eq_ok_iff.2 ⟨seed_program hmodule span, hedits, happly⟩, hne hpending⟩

theorem run_program (hmodule : options.isHelperModule (String.ofList header.source) = true)
    (names : tree.Names header.aliases) (hmark : tree.lead.text.head? ≠ some Module.byteOrderMark)
    (hlimit : 3 ≤ options.maxPasses) (hdepth : tree.depth < limit) :
    ∃ more, ((transformer options).run file (limit + 1) (header.text ++ (tree.text ++ ending.text))).outcome =
      .ok ⟨tree.result.text ++ ending.text, more⟩ := by
  obtain ⟨span, record, passed⟩ := @passed_program options header tree ending file hmodule names hlimit
  have hless := depth_step tree
  have hrecords : [] ++ [record] ≠ [] := List.cons_ne_nil _ _
  obtain ⟨more, hmore⟩ :=
    passes_alone hlimit limit (by omega) (names_step names) ((lead_step tree).symm ▸ hmark) hrecords
  rw [result_step] at hmore
  exact ⟨more, (passed.outcome limit).trans hmore⟩

/-- A tree of helper calls comes to one string of its value, whatever the helpers are called. -/
theorem transform_comes_to_value (options : Options) (header : HelperImport)
    (lead : Gap) (helper : Helper) (callee : Callee) (behind : Gap)
    (given : List HelperTree) (trail : Gap) (ending : Ending)
    (hmodule : options.isHelperModule (String.ofList header.source) = true)
    (names : (call lead helper callee behind given trail).Names header.aliases)
    (hmark : lead.text.head? ≠ some Module.byteOrderMark)
    (hlimit : (call lead helper callee behind given trail).depth + 2 ≤ options.maxPasses) : ∃ map,
    transform
      (String.ofList (header.text ++ ((call lead helper callee behind given trail).text ++ ending.text)))
        options =
      .ok
      ⟨String.ofList
        (lead.text ++ (Quoted.encode (call lead helper callee behind given trail).value ++ trail.text) ++
        ending.text), map⟩ := by
  obtain ⟨limit, hpasses⟩ : ∃ limit, options.maxPasses = limit + 1 := ⟨options.maxPasses - 1, by omega⟩
  have hdepth : (call lead helper callee behind given trail).depth < limit := by
    omega
  have hpos : 0 < (call lead helper callee behind given trail).depth := Nat.succ_pos _
  obtain ⟨more, hrun⟩ :=
    @run_program options header (call lead helper callee behind given trail) ending options.fileName limit
      hmodule names hmark (by omega) hdepth
  unfold transform transformTrace
  rw [String.toList_ofList, hpasses, hrun]
  exact ⟨_, rfl⟩

/-- Two levels of calls, with the names of the helpers exchanged. -/
theorem transform_exchanged_helpers : ∃ map,
    transform
      "import { tx as tm, tm as tx } from \"@mkx419/tx\";tm(tx(\"hover:\", \"a  b\"),\"\",\x60y\n z\x60);"
        {} =
      .ok ⟨"\"hover:a hover: hover:b y z\";", map⟩ := by
  let nothing : Gap := ⟨[], Lexeme.between_nil⟩
  let header : HelperImport := ⟨[⟨.tx, rfl, some ⟨"tm", isWord_helper .tm, by decide, by decide⟩⟩,
    ⟨.tm, rfl, some ⟨"tx", isWord_helper .tx, by decide, by decide⟩⟩], "@mkx419/tx".toList⟩
  let joins : Callee := ⟨"tm", isWord_helper .tm, by unfold Token.IsVariable; decide⟩
  let distributes : Callee := ⟨"tx", isWord_helper .tx, by unfold Token.IsVariable; decide⟩
  let prefixed : HelperTree := .call nothing .tm distributes nothing
    [.leaf nothing (.quoted "hover:".toList) nothing,
      .leaf ⟨[' '], between_space⟩ (.quoted "a  b".toList) nothing] nothing
  let given : List HelperTree := [prefixed, .leaf nothing (.quoted []) nothing,
    .leaf nothing (.template "y\n z\x60".toList "y\n z".toList "y\n z".toList fun _ => rfl) nothing]
  have h : ∃ map,
    transform (String.ofList (header.text ++ ((call nothing .tx joins nothing given nothing).text ++
      Ending.text (some nothing)))) {} = .ok ⟨String.ofList (nothing.text ++
        (Quoted.encode (call nothing .tx joins nothing given nothing).value ++ nothing.text) ++
        Ending.text (some nothing)), map⟩ :=
    transform_comes_to_value {} header nothing .tx joins nothing given nothing (some nothing)
      (by decide +kernel)
      ⟨rfl, .inl rfl, ⟨rfl, .inr ⟨rfl, rfl⟩, trivial, trivial, trivial⟩, trivial, trivial, trivial⟩
      nofun (by decide +kernel)
  have hsource : String.ofList (header.text ++ ((call nothing .tx joins nothing given nothing).text ++
      Ending.text (some nothing))) =
      "import { tx as tm, tm as tx } from \"@mkx419/tx\";tm(tx(\"hover:\", \"a  b\"),\"\",\x60y\n z\x60);" := by
    decide +kernel
  have hcode :
      String.ofList (nothing.text ++ (Quoted.encode (call nothing .tx joins nothing given nothing).value ++
        nothing.text) ++ Ending.text (some nothing)) = "\"hover:a hover: hover:b y z\";" := by
    decide +kernel
  rwa [hsource, hcode] at h

end HelperTree
end ClassWeave
