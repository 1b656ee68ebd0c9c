import ClassWeave.Proofs.Patching
import ClassWeave.Proofs.Simplifying
import ClassWeave.Proofs.SnippetReading
/-!
# Templates of literals, simplified

A run over the template of literals first writes the templates among them as what they show, then
all of them as one string, and then finds nothing.
-/

namespace ClassWeave

/-! ## Static templates -/

section
variable {α : Type}

theorem Cutting.addWords_complete : ∀ (words : List Text) (cutting : Cutting α),
    (words.foldl (fun cutting word => cutting.close.addWord word) cutting).close.complete =
      cutting.close.complete ++ (words.filter (!·.isEmpty)).map fun word => [.text word]
  | [], _ => by simp
  | word :: words, cutting => by
    have hcurrent : cutting.close.current = [] := by
      unfold close
      split
      · rename_i hempty
        exact List.isEmpty_iff.1 hempty
      · rfl
    rw [List.foldl_cons, addWords_complete words, addWord]
    generalize cutting.close = closed at hcurrent ⊢
    by_cases hempty : word.isEmpty = true
    · rw [if_pos hempty, List.filter_cons_of_neg (by simp [hempty])]
      simp [close, hcurrent]
    · rw [if_neg hempty, List.filter_cons_of_pos (by simp [hempty])]
      simp [close, add, hcurrent]

theorem classes_static (chunk : Chunk) :
    classes [chunk] ([] : List α) = chunk.value.words.map fun word => [.text word] := by
  obtain ⟨first, rest, hpieces⟩ :=
    List.exists_cons_of_ne_nil (Text.splitWhere_ne_nil Text.isBlank chunk.value)
  have hall := Cutting.addWords_complete (first :: rest) (⟨[], []⟩ : Cutting α)
  unfold classes
  rw [Cutting.addAll, Cutting.addAll, Cutting.addText, hpieces, Text.words, hpieces]
  exact hall

end

theorem render_texts (texts : List Text) :
    render (texts.map .text) = Quoted.encode (Text.joinWith [' '] texts) := by
  have hconstant : (texts.map Part.text).mapM Part.constant? = some texts := by
    induction texts with
    | nil => rfl
    | cons text texts ih =>
      rw [List.map_cons, List.mapM_cons, ih]
      rfl
  unfold render
  rw [hconstant]

theorem render_static (pass : Pass) (chunk : Chunk) :
    render (parts pass [chunk] []) = Quoted.encode (Text.joinWith [' '] chunk.value.words) := by
  have hparts : parts pass [chunk] [] = chunk.value.words.map .text := by
    unfold parts
    rw [classes_static, List.filterMap_map]
    exact congrFun List.filterMap_eq_map chunk.value.words
  rw [hparts, render_texts]

namespace Leaf

def isTemplate : Leaf → Bool
  | string _ _ _ _ _ => false
  | template _ _ _ _ => true

def settled (leaf : Leaf) : Leaf := if leaf.isTemplate then quoted leaf.shown else leaf

@[simp] theorem shown_settled (leaf : Leaf) : leaf.settled.shown = leaf.shown := by
  unfold settled
  split
  · rfl
  · rfl

@[simp] theorem isTemplate_settled (leaf : Leaf) : leaf.settled.isTemplate = false := by
  unfold settled
  split
  · rfl
  · rename_i h
    exact Bool.not_eq_true _ ▸ h

theorem length_pos (leaf : Leaf) : 0 < leaf.text.byteLength := by
  cases leaf with
  | string quote body value hquote closed =>
    rw [text, Text.byteLength_cons]
    exact Nat.add_pos_left quote.utf8Size_pos _
  | template body raw value closed =>
    rw [text, Text.byteLength_cons]
    exact Nat.add_pos_left TemplateText.mark.utf8Size_pos _

/-! ## One literal -/

variable {pass : Pass} {state : List Span} {leaf : Leaf} {start : Nat}

def Known (state : List Span) (leaf : Leaf) (start : Nat) : Prop :=
  leaf.isTemplate = true → state.contains (leaf.node start).span = true

theorem rewrites_node (known : leaf.Known state start) (holds : pass.Holds start leaf.text) :
    simplifier.Rewrites pass state [leaf.node start] start leaf.text leaf.settled.text ∧
      simplifier.anyPending pass state [leaf.node start] = leaf.isTemplate := by
  cases leaf with
  | string quote body value hquote closed => exact ⟨.keep rfl start _, rfl⟩
  | template body raw value closed =>
    have hne : Quoted.encode (Text.joinWith [' '] value.words) ≠
      (template body raw value closed).text := nofun
    have hreplace : simplifier.replace pass state ⟨[⟨raw, some value⟩], []⟩ =
        .ok (some (Quoted.encode (Text.joinWith [' '] value.words))) :=
      Pass.reading_eq_ok.2 ⟨fun part hpart => (List.not_mem_nil (partSpans_subset _ [] hpart)).elim,
        congrArg some (render_static pass ⟨raw, some value⟩)⟩
    exact Rule.Rewrites.replaced (some (Quoted.encode (Text.joinWith [' '] value.words)))
      rfl holds rfl (if_pos (known rfl)) hreplace hne

theorem contained_node (leaf : Leaf) (start : Nat) :
    Node.Contained [leaf.node start] start (start + leaf.text.byteLength) := by
  have hpos := leaf.length_pos
  cases leaf with
  | string quote body value hquote closed => exact .of_children rfl (.nil _ _)
  | template body raw value closed =>
    exact ⟨⟨⟨fun _ _ => nofun, trivial⟩, trivial, fun _ _ _ => nofun⟩, fun target htarget => by
      obtain rfl := List.mem_singleton.1 htarget
      exact ⟨Nat.le_refl _, Nat.lt_add_of_pos_right hpos, Nat.le_refl _⟩⟩

/-! ## Several literals -/

theorem holds_body {separated : Bool} {leaves : List Leaf}
    (holds : pass.Holds start (body separated (leaf :: leaves))) :
    pass.Holds (start + (space separated).byteLength + 2) leaf.text ∧
      pass.Holds (start + (space separated).byteLength + 2 + leaf.text.byteLength + 1)
        (body true leaves) := by
  have hbody : body separated (leaf :: leaves) =
    space separated ++ (['$', '\x7b'] ++ (leaf.text ++ (['\x7d'] ++ body true leaves))) := by
    simp [body]
  rw [hbody] at holds
  exact ⟨holds.right.right.left, holds.right.right.right.right⟩

theorem anyPending_nodes : ∀ {leaves : List Leaf} {separated : Bool} {start : Nat},
    (∀ node ∈ nodes separated leaves start, node.shape.isTarget = true → state.contains node.span = true) →
    pass.Holds start (body separated leaves) →
    simplifier.anyPending pass state (nodes separated leaves start) = leaves.any isTemplate
  | [], _, _, _, _ => rfl
  | leaf :: leaves, separated, start, known, holds => by
    obtain ⟨hleaf, hrest⟩ := holds_body holds
    have hfirst : leaf.Known state (start + (space separated).byteLength + 2) := fun htemplate =>
      known _ List.mem_cons_self
        (by cases leaf with | string _ _ _ _ _ => cases htemplate | template _ _ _ _ => rfl)
    have hnode := (rewrites_node hfirst hleaf).2
    rw [Rule.anyPending, Rule.anyPending, Bool.or_false] at hnode
    rw [nodes, Rule.anyPending, hnode, List.any_cons,
      anyPending_nodes (fun node hnode => known node (List.mem_cons_of_mem _ hnode)) hrest]

theorem rewrites_nodes : ∀ {leaves : List Leaf} {separated : Bool} {start : Nat},
    (∀ node ∈ nodes separated leaves start, node.shape.isTarget = true → state.contains node.span = true) →
    pass.Holds start (body separated leaves) →
    simplifier.Rewrites pass state (nodes separated leaves start) start (body separated leaves)
      (body separated (leaves.map settled))
  | [], _, _, _, _ => .keep rfl _ _
  | leaf :: leaves, separated, start, known, holds => by
    obtain ⟨hleaf, hrest⟩ := holds_body holds
    have hfirst : leaf.Known state (start + (space separated).byteLength + 2) := fun htemplate =>
      known _ List.mem_cons_self
        (by cases leaf with | string _ _ _ _ _ => cases htemplate | template _ _ _ _ => rfl)
    have hmore := rewrites_nodes (fun node hnode => known node (List.mem_cons_of_mem _ hnode)) hrest
    have hbody : ∀ (leaf : Leaf) leaves, body separated (leaf :: leaves) =
        (space separated ++ ['$', '\x7b']) ++ (leaf.text ++ (['\x7d'] ++ body true leaves)) := by
      intro leaf leaves
      simp [body]
    have hopening : (space separated ++ ['$', '\x7b']).byteLength = (space separated).byteLength + 2 :=
      Text.byteLength_append _ _
    rw [List.map_cons, hbody, hbody, nodes]
    refine .behind _ (.cons ?_ (.behind _ ?_))
    · rw [hopening, ← Nat.add_assoc]
      exact (rewrites_node hfirst hleaf).1
    · rw [hopening, ← Nat.add_assoc]
      exact hmore

theorem contained_nodes : ∀ (leaves : List Leaf) (separated : Bool) (start : Nat),
    Node.Contained (nodes separated leaves start) start (start + (body separated leaves).byteLength)
  | [], _, _ => .nil _ _
  | leaf :: leaves, separated, start => by
    have hleaf := leaf.contained_node (start + (space separated).byteLength + 2)
    have hrest :=
      contained_nodes leaves true (start + (space separated).byteLength + 2 + leaf.text.byteLength + 1)
    rw [byteLength_body_cons, nodes]
    refine .cons (hleaf.mono (by omega) ?_) (hrest.mono (Nat.le_refl _) (by omega)) (by omega) (by omega)
    omega

/-! ## The template -/

theorem heights_le {node : Node} {trees : List Node} (h : node ∈ trees) :
    node.height ≤ Node.heights trees := by
  induction trees with
  | nil => cases h
  | cons first rest ih =>
    rw [Node.heights]
    rcases List.mem_cons.1 h with rfl | h
    · exact Nat.le_max_left _ _
    · exact Nat.le_trans (ih h) (Nat.le_max_right _ _)

theorem exists_of_mem_nodes : ∀ {leaves : List Leaf} {separated : Bool} {offset : Nat} {node : Node},
    node ∈ nodes separated leaves offset → ∃ leaf start, node = Leaf.node leaf start
  | [], _, _, _, h => nomatch h
  | leaf :: leaves, separated, offset, node, h => by
    rcases List.mem_cons.1 h with rfl | h
    · exact ⟨leaf, _, rfl⟩
    · exact exists_of_mem_nodes h

theorem classes_nodes (leaves : List Leaf) : classes (chunks false leaves) (nodes false leaves 1) =
    (nodes false leaves 1).map fun node => [.embedded node] := by
  refine classes_of_gaps ?_
  rw [values_snippet, length_nodes]

def classState (leaves : List Leaf) : List Span :=
  classTemplates (snippetNode leaves).height (snippetNode leaves)

theorem known_nodes (leaves : List Leaf) {node : Node} (h : node ∈ nodes false leaves 1)
    (htarget : node.shape.isTarget = true) :
    (classState leaves).contains node.span = true := by
  obtain ⟨leaf, start, rfl⟩ := exists_of_mem_nodes h
  cases leaf with
  | string quote body value hquote closed => cases htarget
  | template body raw value closed =>
    have hheight := heights_le h
    obtain ⟨depth, hdepth⟩ := Nat.exists_eq_add_of_lt (Nat.lt_of_lt_of_le Nat.one_pos hheight)
    have hposition : (template body raw value closed).node start ∈
        ((nodes false leaves 1).map fun node => [Piece.embedded node]).filterMap inPosition? :=
      List.mem_filterMap.2 ⟨_, List.mem_map_of_mem h, rfl⟩
    have hstate : classState leaves = ⟨0, (snippet leaves).byteLength⟩ ::
        ((classes (chunks false leaves) (nodes false leaves 1)).filterMap inPosition?).flatMap
          (classTemplates (Node.heights (nodes false leaves 1))) := rfl
    rw [List.contains_iff_mem, hstate, classes_nodes]
    refine List.mem_cons_of_mem _ (List.mem_flatMap.2 ⟨_, hposition, ?_⟩)
    rw [hdepth]
    exact List.mem_cons_self

def joined (leaves : List Leaf) : Text := Text.joinWith [' '] ((leaves.map shown).filterMap nonBlank)

theorem aloneParts_nodes (pass : Pass) : ∀ {leaves : List Leaf} (separated : Bool) (offset : Nat),
    (∀ leaf ∈ leaves, leaf.isTemplate = false) →
    (nodes separated leaves offset).filterMap (aloneParts pass) =
      ((leaves.map shown).filterMap nonBlank).map .text
  | [], _, _, _ => rfl
  | template _ _ _ _ :: _, _, _, hstrings => nomatch hstrings _ List.mem_cons_self
  | string quote body value hquote closed :: leaves, separated, offset, hstrings => by
    have hmore := aloneParts_nodes pass true
      (offset + (space separated).byteLength + 2 +
        (string quote body value hquote closed).text.byteLength + 1)
      fun leaf hleaf => hstrings leaf (List.mem_cons_of_mem _ hleaf)
    have halone : ∀ start, aloneParts pass ((string quote body value hquote closed).node start) =
      (nonBlank value).map .text :=
      fun _ => rfl
    rw [nodes, List.filterMap_cons, halone, List.map_cons, List.filterMap_cons, shown, hmore]
    cases nonBlank value with
    | none => rfl
    | some text => rfl

theorem render_strings (pass : Pass) {leaves : List Leaf}
    (hstrings : ∀ leaf ∈ leaves, leaf.isTemplate = false) :
    render (parts pass (chunks false leaves) (nodes false leaves 1)) = Quoted.encode (joined leaves) := by
  have hparts : parts pass (chunks false leaves) (nodes false leaves 1) =
    ((leaves.map shown).filterMap nonBlank).map .text := by
    rw [← aloneParts_nodes pass false 1 hstrings, parts, classes_nodes, List.filterMap_map]
    rfl
  rw [hparts, render_texts, joined]

theorem aloneSpans_nodes : ∀ {leaves : List Leaf} {separated : Bool} {offset : Nat} {node : Node},
    (∀ leaf ∈ leaves, leaf.isTemplate = false) → node ∈ nodes separated leaves offset → aloneSpans node = []
  | template _ _ _ _ :: _, _, _, _, hstrings, _ => nomatch hstrings _ List.mem_cons_self
  | string quote body value hquote closed :: leaves, separated, offset, node, hstrings, h => by
    rcases List.mem_cons.1 h with rfl | h
    · rfl
    · exact aloneSpans_nodes (fun leaf hleaf => hstrings leaf (List.mem_cons_of_mem _ hleaf)) h

theorem partSpans_strings {leaves : List Leaf} (hstrings : ∀ leaf ∈ leaves, leaf.isTemplate = false) :
    partSpans (chunks false leaves) (nodes false leaves 1) = [] := by
  rw [partSpans, classes_nodes, List.flatMap_map, List.flatMap_eq_nil_iff]
  exact fun node hnode => aloneSpans_nodes hstrings hnode

def snippetModule (leaves : List Leaf) (span : Span) : Module :=
  ⟨snippet leaves, [.mk .expressionStatement span [snippetNode leaves]]⟩

def written (leaves : List Leaf) : Text :=
  if leaves.any isTemplate then snippet (leaves.map settled)
  else Quoted.encode (joined leaves)

theorem contained_items (leaves : List Leaf) (span : Span) :
    Node.Contained (snippetModule leaves span).items 0 (snippet leaves).byteLength := by
  have hmark : TemplateText.mark.utf8Size = 1 := rfl
  have hlength : (snippet leaves).byteLength = (body false leaves).byteLength + 1 := by
    rw [snippet, Text.byteLength_cons, hmark, Nat.add_comm]
  have hnodes := contained_nodes leaves false 1
  exact .of_children rfl (.around (hnodes.mono (Nat.le_refl _) (by omega)) Nat.one_pos (by omega))

theorem rewrites_snippet (leaves : List Leaf) (span : Span) (index : Nat) :
    simplifier.Rewrites ⟨index, snippetModule leaves span⟩ (classState leaves)
      (snippetModule leaves span).items 0 (snippet leaves) (written leaves) ∧
    simplifier.anyPending ⟨index, snippetModule leaves span⟩ (classState leaves)
      (snippetModule leaves span).items = true := by
  have holds : Pass.Holds ⟨index, snippetModule leaves span⟩ 0 (snippet leaves) :=
    ⟨[], [], by simp [snippetModule], rfl⟩
  have hbody : Pass.Holds ⟨index, snippetModule leaves span⟩ 1 (body false leaves) :=
    @Pass.Holds.right _ 0 [TemplateText.mark] _ holds
  have hinside := anyPending_nodes (fun _ => known_nodes leaves) hbody
  suffices h :
      simplifier.Rewrites ⟨index, snippetModule leaves span⟩ (classState leaves) [snippetNode leaves] 0
        (snippet leaves) (written leaves) ∧
        simplifier.anyPending ⟨index, snippetModule leaves span⟩
          (classState leaves) [snippetNode leaves] = true from
      ⟨.of_none rfl h.1, Rule.anyPending_of_inside h.2⟩
  by_cases htemplates : leaves.any isTemplate = true
  · rw [htemplates] at hinside
    rw [written, if_pos htemplates]
    exact ⟨.inside hinside (.behind [TemplateText.mark] (rewrites_nodes (fun _ => known_nodes leaves) hbody)),
      Rule.anyPending_of_inside hinside⟩
  · rw [Bool.not_eq_true] at htemplates
    rw [htemplates] at hinside
    have hstrings : ∀ leaf ∈ leaves, leaf.isTemplate = false := by
      intro leaf hleaf
      simpa using List.any_eq_false.1 htemplates leaf hleaf
    have hselect : (classState leaves).contains ⟨0, 0 + (snippet leaves).byteLength⟩ = true := by
      rw [Nat.zero_add]
      exact List.contains_iff_mem.2 List.mem_cons_self
    have hne : Quoted.encode (joined leaves) ≠ snippet leaves := nofun
    rw [written, htemplates, if_neg Bool.false_ne_true, snippetNode,
      ← Nat.zero_add (snippet leaves).byteLength]
    have hreplace : simplifier.replace ⟨index, snippetModule leaves span⟩ (classState leaves)
        ⟨chunks false leaves, nodes false leaves 1⟩ = .ok (some (Quoted.encode (joined leaves))) := by
      refine Pass.reading_eq_ok.2 ⟨fun part hpart => ?_, congrArg some (render_strings _ hstrings)⟩
      rw [partSpans_strings hstrings] at hpart
      cases hpart
    exact Rule.Rewrites.replaced (some (Quoted.encode (joined leaves)))
      rfl holds hinside (if_pos hselect) hreplace hne

/-! ## The run -/

variable {file : Option String} {limit left : Nat} {records : List Record}

theorem passes_snippet (leaves : List Leaf) : ∃ record,
    (simplifier.passes file limit (left + 1) state (snippet leaves) records).outcome =
      (simplifier.passes file limit left (classState leaves) (written leaves)
        (records ++ [record])).outcome := by
  obtain ⟨span, hread⟩ := read_snippet leaves (Rule.elementsIn file)
  obtain ⟨hrewrites, hpending⟩ := rewrites_snippet leaves span records.length
  obtain ⟨edits, record, hedits, happly, hne⟩ :=
    hrewrites.applyAll (contained_items leaves span).nested records.length
  have hseed : simplifier.seed ⟨records.length, snippetModule leaves span⟩ state =
    .ok (classState leaves) := by
    show Except.ok (List.flatMap classTemplatesOf [_]) = _
    rw [List.flatMap_singleton]
    rfl
  exact ⟨record, Rule.passes_of_edits records hread hseed hedits happly (hne hpending)⟩

theorem read_encode (value : Text) (elements : Bool) : ∃ span, Module.read (Quoted.encode value) elements =
    .ok ⟨Quoted.encode value, [.mk .expressionStatement span [(quoted value).node 0]]⟩ := by
  obtain ⟨span, hread⟩ := (quoted value).bare.read_tree none elements nofun
  have htext : (quoted value).bare.text ++ Ending.text none = Quoted.encode value := by
    show [] ++ ((quoted value).text ++ []) ++ [] = _
    simp
  rw [htext] at hread
  exact ⟨span, hread⟩

theorem passes_encode (value : Text) : ∃ record,
    (simplifier.passes file limit (left + 1) state (Quoted.encode value) records).outcome =
      .ok ⟨Quoted.encode value, records ++ [record]⟩ := by
  obtain ⟨span, hread⟩ := read_encode value (Rule.elementsIn file)
  exact Rule.passes_of_collectEdits_eq_nil records hread rfl (collectEdits_string rfl _)

theorem joined_settled (leaves : List Leaf) : joined (leaves.map settled) = joined leaves := by
  unfold joined
  rw [List.map_map]
  exact congrArg (fun texts => Text.joinWith [' '] (texts.filterMap nonBlank))
    (List.map_congr_left fun leaf _ => shown_settled leaf)

theorem passes_strings {leaves : List Leaf} (hstrings : leaves.any isTemplate = false) : ∃ more,
    (simplifier.passes file limit (left + 2) state (snippet leaves) records).outcome =
      .ok ⟨Quoted.encode (joined leaves), more⟩ := by
  obtain ⟨record, hfirst⟩ := @passes_snippet state file limit (left + 1) records leaves
  rw [written, hstrings, if_neg Bool.false_ne_true] at hfirst
  obtain ⟨record', hlast⟩ :=
    @passes_encode (classState leaves) file limit left (records ++ [record]) (joined leaves)
  exact ⟨_, hfirst.trans hlast⟩

/-- The template of literals comes to one string of what they show. -/
theorem simplifyTemplate_snippet (leaves : List Leaf) (hlimit : 3 ≤ limit) :
    simplifyTemplate (snippet leaves) file limit = .ok (Quoted.encode (joined leaves)) := by
  obtain ⟨left, rfl⟩ := Nat.exists_eq_add_of_le' hlimit
  suffices h : ∃ more, (simplifier.run file (left + 3) (snippet leaves)).outcome =
    .ok ⟨Quoted.encode (joined leaves), more⟩ by
    obtain ⟨more, hmore⟩ := h
    unfold simplifyTemplate
    rw [hmore]
    rfl
  -- The first pass turns the templates among the literals into strings; the template around them
  -- has to wait for it.
  by_cases htemplates : leaves.any isTemplate = true
  · have hnone : (leaves.map settled).any isTemplate = false := by simp
    obtain ⟨record, hfirst⟩ := @passes_snippet simplifier.initial file (left + 3) (left + 2) [] leaves
    rw [written, if_pos htemplates] at hfirst
    obtain ⟨more, hmore⟩ := @passes_strings (classState leaves) file (left + 3) left ([] ++ [record]) _ hnone
    rw [joined_settled] at hmore
    exact ⟨more, hfirst.trans hmore⟩
  · exact passes_strings (Bool.not_eq_true _ ▸ htemplates)

end Leaf
end ClassWeave
