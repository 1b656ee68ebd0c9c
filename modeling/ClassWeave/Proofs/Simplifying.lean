import ClassWeave.Proofs.Legibility
import ClassWeave.Proofs.Patching
import ClassWeave.Proofs.Regrowing
import ClassWeave.Proofs.Renewal
/-!
# Simplifying runs

A pass over a template with tidy templates inside edits nothing but the template itself, which is
written anew. So if every draft of a run reads back, the run ends with a literal that comes to what
the classes did in the first pass.
-/

namespace ClassWeave

namespace Node

variable {pass other : Pass}

theorem alike_refl (h : pass.module.text = other.module.text) : (∀ node : Node, node.Alike pass other node) ∧
    (∀ trees : List Node, AllAlike pass other trees trees) := by
  have htext : ∀ span, pass.textAt span = other.textAt span := fun span => by
    simp only [Pass.textAt, Module.textAt, Module.range, h]
  apply targets.mutual_induct
  · intro shape span children _ ih
    exact alike_mk_iff.2 ⟨span, children, rfl, htext span, ih⟩
  · intro shape span children _ ih
    exact alike_mk_iff.2 ⟨span, children, rfl, htext span, ih⟩
  · exact allAlike_nil_iff.2 rfl
  · intro node rest ih ihrest
    exact allAlike_cons_iff.2 ⟨node, rest, rfl, ih, ihrest⟩

theorem Tidy.of_module {names : String → Bool} {node : Node} (h : node.Tidy pass names)
    (hmodule : pass.module = other.module) : node.Tidy other names :=
  h.alike ((alike_refl (congrArg Module.text hmodule)).1 node)

theorem AllTidy.of_module {names : String → Bool} {nodes : List Node} (h : AllTidy pass names nodes)
    (hmodule : pass.module = other.module) : AllTidy other names nodes :=
  fun node hnode => (h node hnode).of_module hmodule

end Node

theorem Node.walkAll_singleton {σ : Type} (visit : σ → Node → σ × Step) (state : σ) (node : Node) :
    walkAll visit state [node] = walk visit state node := by
  rw [walkAll]
  rcases walk visit state node with ⟨state, _ | _⟩
  · rfl
  · rfl

/-! ## One pass -/

section
variable {pass : Pass} {names : String → Bool}

theorem anyLive_of_tidy (pass : Pass) (state : List Span) :
    (∀ node : Node, node.Tidy pass names → node.Legible pass → ∀ outer,
      simplifier.hasLive pass state outer node = .ok false) ∧
    (∀ trees : List Node, Node.AllTidy pass names trees → Node.AllLegible pass trees → ∀ outer,
      simplifier.anyLive pass state outer trees = .ok false) := by
  apply Node.targets.mutual_induct
  · intro shape span children _ ih htidy hlegible outer
    have hchildren := ih htidy.child hlegible.children
    unfold Rule.hasLive
    split
    · split
      · exact hchildren outer
      · rename_i picked hpicked
        cases shape with
        | template chunks =>
          simp only [simplifier] at hpicked
          split at hpicked
          · cases hpicked
            have hfinished := (htidy.template rfl).finished
            rw [hchildren span]
            show (simplifier.replaceAt pass state span ⟨chunks, children⟩).bind _ = _
            rw [hlegible.simplified]
            show Except.ok ((some (render (parts pass chunks children))).getD [] != pass.textAt span) = _
            rw [Option.getD_some, hfinished, bne_self_eq_false]
          · cases hpicked
        | _ => cases hpicked
    · exact hchildren outer
  · intro shape span children htarget ih htidy hlegible outer
    have hchildren := ih htidy.child hlegible.children
    unfold Rule.hasLive
    rw [if_neg (by simp [htarget])]
    exact hchildren outer
  · intro _ _ outer
    rw [Rule.anyLive]
    rfl
  · intro node rest ih ihrest htidy hlegible outer
    obtain ⟨hnode, hrest⟩ := Node.allLegible_cons_iff.1 hlegible
    rw [Rule.anyLive, ih (htidy node (List.mem_cons_self ..)) hnode outer]
    exact ihrest (fun other hother => htidy other (List.mem_cons_of_mem _ hother)) hrest outer

theorem contains_classTemplatesOf {statement span : Span} {chunks : List Chunk} {inner : List Node} :
    (classTemplatesOf (.mk .expressionStatement statement [.mk (.template chunks) span inner])).contains
      span = true := by
  unfold classTemplatesOf Node.height classTemplates
  simp [Node.unparenthesized]

theorem collectEdits_template {statement span : Span} {chunks : List Chunk} {inner : List Node}
    (hitems : pass.module.items = [.mk .expressionStatement statement [.mk (.template chunks) span inner]])
    (htidy : Node.AllTidy pass names inner) (hlegible : pass.module.Legible) {state : List Span}
    (hstate : state.contains span = true) :
    simplifier.collectEdits pass state = .ok (if render (parts pass chunks inner) = pass.textAt span then []
      else [⟨pass.module.range span, some (render (parts pass chunks inner))⟩]) := by
  have hselect : simplifier.select pass state (.mk (.template chunks) span inner) = some ⟨chunks, inner⟩ :=
    if_pos hstate
  have htemplate : (Node.mk (.template chunks) span inner).Legible pass := hlegible.of_target (by
    rw [hitems]
    exact List.mem_append_left _ (List.mem_append_left _ (Node.mem_targets_self rfl)))
  have hlive : simplifier.anyLive pass state span inner = .ok false :=
    (anyLive_of_tidy pass state).2 inner htidy htemplate.children span
  have hresolve : simplifier.resolve pass state (.mk (.template chunks) span inner) ⟨chunks, inner⟩ =
      if render (parts pass chunks inner) = pass.textAt span then .ok .unchanged
      else .ok (.edited ⟨pass.module.range span, some (render (parts pass chunks inner))⟩) :=
    @Rule.resolve_of_replaced _ _ _ simplifier pass state (.mk (.template chunks) span inner) ⟨chunks, inner⟩
      (some (render (parts pass chunks inner))) hlive (htemplate.simplified state)
  have hwalk : Node.walkAll (simplifier.visit pass state) ⟨[], none⟩ pass.module.items =
      match simplifier.visit pass state ⟨[], none⟩ (.mk (.template chunks) span inner) with
      | (found, .descend) => Node.walkAll (simplifier.visit pass state) found inner
      | (found, .skip) => (found, false)
      | (found, .stop) => (found, true) := by
    have hstatement : (Shape.expressionStatement).isTarget ≠ true := by decide
    have htemplate : (Shape.template chunks).isTarget = true := rfl
    rw [hitems, Node.walkAll_singleton, Node.walk, if_neg hstatement,
      Node.walkAll_singleton, Node.walk, if_pos htemplate]
    rcases simplifier.visit pass state ⟨[], none⟩ (.mk (.template chunks) span inner) with ⟨found, _ | _ | _⟩
    · rfl
    · rfl
    · rfl
  unfold Rule.collectEdits
  rw [hwalk, Rule.visit, hselect]
  simp only [hresolve]
  by_cases hsame : render (parts pass chunks inner) = pass.textAt span
  · rw [if_pos hsame, if_pos hsame]
    rfl
  · rw [if_neg hsame, if_neg hsame]
    rfl

theorem collectEdits_string {statement span : Span} {value : Text}
    (hitems : pass.module.items =
      [.mk .expressionStatement statement [.mk (.literal (.string value)) span []]])
    (state : List Span) : simplifier.collectEdits pass state = .ok [] := by
  unfold Rule.collectEdits
  rw [hitems]
  rfl

end

theorem Edit.applyAll_whole (index : Nat) (text written : Text) :
    ∃ record, applyAll index text [⟨⟨0, text.byteLength⟩, some written⟩] = .ok (written, record) := by
  have h := (Patch.whole 0 text (some written)).applyAll index
  rwa [Nat.zero_add] at h

/-! ## Modules that are one expression -/

namespace Module

def sole? (m : Module) : Option Node :=
  match m.items with
  | [.mk .expressionStatement _ [node]] => some node
  | _ => none

theorem items_of_sole? {m : Module} {node : Node} (h : m.sole? = some node) :
    ∃ span, m.items = [.mk .expressionStatement span [node]] := by
  unfold sole? at h
  split at h
  · rename_i heq
    cases h
    exact ⟨_, heq⟩
  · cases h

theorem textAt_whole (m : Module) : m.textAt ⟨0, m.text.byteLength⟩ = m.text := by
  have htake := Text.takeBytes_append m.text []
  rw [List.append_nil] at htake
  unfold textAt range Text.slice
  simp [Text.dropBytes, htake]

end Module

structure Draft.ReadsBackAs (draft : Draft) (pass : Pass) (elements : Bool)
    (m : Module) (found : Node) : Prop where
  read : Module.read (draft.text pass) elements = .ok m
  sole : m.sole? = some found
  whole : found.span = ⟨0, (draft.text pass).byteLength⟩
  legible : m.Legible
  reads : draft.Reads pass ⟨0, m⟩ found

def Draft.ReadsBack (draft : Draft) (pass : Pass) (elements : Bool) : Prop :=
  ∃ m found, draft.ReadsBackAs pass elements m found

instance (draft : Draft) (pass : Pass) (elements : Bool) : Decidable (draft.ReadsBack pass elements) :=
  decidable_of_iff (∃ m ∈ (Module.read (draft.text pass) elements).toOption, ∃ found ∈ m.sole?,
    found.span = ⟨0, (draft.text pass).byteLength⟩ ∧ m.Legible ∧ draft.Reads pass ⟨0, m⟩ found) <| by
    constructor
    · rintro ⟨m, hread, found, hsole, hwhole, hlegible, hreads⟩
      exact ⟨m, found, toOption_eq_some_iff.1 hread, hsole, hwhole, hlegible, hreads⟩
    · rintro ⟨m, found, hread, hsole, hwhole, hlegible, hreads⟩
      exact ⟨m, toOption_eq_some_iff.2 hread, found, hsole, hwhole, hlegible, hreads⟩

/-- A text that is one literal, with tidy templates and without calls of some names, and what it comes to. -/
structure CompiledAs (names : String → Bool) (offers : Setting → Yield)
    (elements : Bool) (code : Text) (m : Module) (found : Node) : Prop where
  read : Module.read code elements = .ok m
  sole : m.sole? = some found
  whole : found.span = ⟨0, code.byteLength⟩
  literal : found.string?.isSome ∨ found.template?.isSome
  tidy : found.Tidy ⟨0, m⟩ names
  offer : ∀ setting, Yield.of (found.signs setting ⟨0, m⟩) = offers setting

theorem reads_draftOf {pass other : Pass} {names : String → Bool}
    {chunks : List Chunk} {inner : List Node} {found : Node} (htidy : Node.AllTidy pass names inner)
    (hclean : ClassesClean chunks inner) (h : (draftOf chunks inner).Reads pass other found) :
    found.string?.isSome ∨
      ∃ chunks' span' inner', found = .mk (.template chunks') span' inner' ∧
      chunks'.length = inner'.length + 1 ∧
        Node.AllTidy other names inner' ∧ ∀ node ∈ inner', node.isAnd = false := by
  have hentries := clean_entries htidy hclean
  cases hdraft : draftOf chunks inner with
  | quoted text =>
    rw [hdraft] at h
    exact .inl (Option.isSome_iff_exists.2 ⟨text, h⟩)
  | template items =>
    have hitems : items = itemsOf true false (entries chunks inner) := by
      unfold draftOf at hdraft
      split at hdraft
      · cases hdraft
      · cases hdraft
        rfl
    rw [hdraft] at h
    obtain ⟨parts, hparts, hfits, hreads⟩ := h
    obtain ⟨span', rfl⟩ := Node.eq_of_template? hparts
    have hall : ∀ node ∈ parts.2, node.Tidy other names ∧ node.isAnd = false :=
      fun node hnode => clean_of_readsAll (hitems ▸ clean_itemsOf hentries) hfits hreads hnode
    exact .inr ⟨_, _, _, rfl, hfits, fun node hnode => (hall node hnode).1,
      fun node hnode => (hall node hnode).2⟩

section
variable {elements : Bool} {names : String → Bool} {m : Module}
    {text : Text} {chunks : List Chunk} {inner : List Node}

theorem edits_of_template {index : Nat} {state state' : List Span} {edits : List Edit} (htext : m.text = text)
    (hsole : m.sole? = some (.mk (.template chunks) ⟨0, text.byteLength⟩ inner))
    (htidy : Node.AllTidy ⟨0, m⟩ names inner) (hlegible : m.Legible)
    (hseed : simplifier.seed ⟨index, m⟩ state = .ok state')
    (hedits : simplifier.collectEdits ⟨index, m⟩ state' = .ok edits) :
    edits = if render (parts ⟨0, m⟩ chunks inner) = text then []
      else [⟨⟨0, text.byteLength⟩, some (render (parts ⟨0, m⟩ chunks inner))⟩] := by
  obtain ⟨statement, hitems⟩ := Module.items_of_sole? hsole
  have hcontains : state'.contains ⟨0, text.byteLength⟩ = true := by
    cases hseed
    show (List.flatMap classTemplatesOf m.items).contains _ = true
    rw [hitems, List.flatMap_singleton]
    exact contains_classTemplatesOf
  have hparts : parts ⟨index, m⟩ chunks inner = parts ⟨0, m⟩ chunks inner :=
    parts_alike ((@Node.alike_refl ⟨index, m⟩ ⟨0, m⟩ rfl).2 inner)
  have hwhole : m.textAt ⟨0, text.byteLength⟩ = text := htext ▸ m.textAt_whole
  have hrange : m.range ⟨0, text.byteLength⟩ = ⟨0, text.byteLength⟩ := by
    rw [Module.range, htext]
    simp
  have hfound := @collectEdits_template ⟨index, m⟩ names statement
    _ chunks inner hitems (htidy.of_module rfl) hlegible _ hcontains
  rw [hedits, hparts, Pass.textAt, hwhole] at hfound
  cases hfound
  rw [hrange]

theorem compiled_of_unchanged (hread : Module.read text elements = .ok m)
    (hsole : m.sole? = some (.mk (.template chunks) ⟨0, text.byteLength⟩ inner))
    (htidy : Node.AllTidy ⟨0, m⟩ names inner) (hclean : ClassesClean chunks inner)
    {m' : Module} {found : Node} (hback : (draftOf chunks inner).ReadsBackAs ⟨0, m⟩ elements m' found)
    (hsame : render (parts ⟨0, m⟩ chunks inner) = text) :
    CompiledAs names (fun setting => Yield.all ((classes chunks inner).map (classOffer setting ⟨0, m⟩)))
      elements text m found := by
  have hdraft : (draftOf chunks inner).text ⟨0, m⟩ = text := (text_draftOf _ _ _).trans hsame
  have hagain := hback.read
  rw [hdraft, hread] at hagain
  cases hagain
  have hfound := hback.sole
  rw [hsole] at hfound
  cases hfound
  have hwhole : m.textAt ⟨0, text.byteLength⟩ = text := by
    have h := m.textAt_whole
    rwa [Module.text_of_read hread] at h
  refine ⟨hread, hsole, rfl, .inr rfl, ?_, fun setting => ?_⟩
  · rcases reads_draftOf htidy hclean hback.reads with
        hstring | ⟨chunks', span', inner', heq, hfits, htidy', hand⟩
    · cases hstring
    · cases heq
      exact Node.tidy_mk htidy' (fun _ heq => by cases heq; exact ⟨hfits, hand, hsame.trans hwhole.symm⟩) rfl
  · rw [hback.reads.signs, of_draftOf htidy]

end

/-! ## Runs -/

/-- A string, or a template with tidy templates inside, and what it offers as a class list. -/
inductive Node.Offers (names : String → Bool) (offers : Setting → Yield) (pass : Pass) : Node → Prop where
  | string {found : Node} :
      found.string?.isSome → (∀ setting, Yield.of (found.signs setting pass) = offers setting) →
    Offers names offers pass found
  | template {chunks : List Chunk} {span : Span} {inner : List Node} : chunks.length = inner.length + 1 →
    Node.AllTidy pass names inner → ClassesClean chunks inner →
    (∀ setting, Yield.all ((classes chunks inner).map (classOffer setting pass)) = offers setting) →
    Offers names offers pass (.mk (.template chunks) span inner)

structure HoldsLiteral (names : String → Bool) (offers : Setting → Yield)
    (elements : Bool) (text : Text) (m : Module) (found : Node) : Prop where
  read : Module.read text elements = .ok m
  sole : m.sole? = some found
  whole : found.span = ⟨0, text.byteLength⟩
  legible : m.Legible
  offers : found.Offers names offers ⟨0, m⟩

def Module.DraftReadsBack (m : Module) (elements : Bool) : Prop :=
  ∀ chunks span inner, m.sole? = some (.mk (.template chunks) span inner) →
    (draftOf chunks inner).ReadsBack ⟨0, m⟩ elements

instance (m : Module) (elements : Bool) : Decidable (m.DraftReadsBack elements) :=
  decidable_of_iff (∀ node ∈ m.sole?, ∀ parts ∈ node.template?,
    (draftOf parts.1 parts.2).ReadsBack ⟨0, m⟩ elements) <| by
    constructor
    · exact fun h chunks span inner hsole => h _ hsole (chunks, inner) rfl
    · intro h node hsole parts hparts
      obtain ⟨span, rfl⟩ := Node.eq_of_template? hparts
      exact h parts.1 span parts.2 hsole

section
variable {names : String → Bool} {offers : Setting → Yield} {elements : Bool}
    {text : Text} {m : Module} {found : Node}

theorem holdsLiteral_of_readsBackAs {pass : Pass} {chunks : List Chunk} {inner : List Node}
    (htidy : Node.AllTidy pass names inner) (hclean : ClassesClean chunks inner)
    (hoffers : ∀ setting, Yield.all ((classes chunks inner).map (classOffer setting pass)) = offers setting)
    (h : (draftOf chunks inner).ReadsBackAs pass elements m found) :
    HoldsLiteral names offers elements (render (parts pass chunks inner)) m found := by
  obtain ⟨hread, hsole, hwhole, hlegible, hreads⟩ := h
  rw [text_draftOf] at hread hwhole
  have hsigns : ∀ setting, Yield.of (found.signs setting ⟨0, m⟩) = offers setting := fun setting => by
    rw [hreads.signs, of_draftOf htidy, hoffers]
  refine ⟨hread, hsole, hwhole, hlegible, ?_⟩
  rcases reads_draftOf htidy hclean hreads with hstring | ⟨chunks', span', inner', rfl, hfits, htidy', hand⟩
  · exact .string hstring hsigns
  · refine .template hfits htidy'
      (fun _ hpieces node hnode => .inr (hand node (mem_of_mem_classes hpieces hnode))) ?_
    exact fun setting => by rw [all_classOffer hand, ← hsigns setting, Node.signs]

theorem HoldsLiteral.next (h : HoldsLiteral names offers elements text m found)
    (drafts : m.DraftReadsBack elements) {index : Nat} {state state' : List Span}
    {edits : List Edit} (hseed : simplifier.seed ⟨index, m⟩ state = .ok state')
    (hedits : simplifier.collectEdits ⟨index, m⟩ state' = .ok edits) :
    (edits = [] ∧ ∃ found', CompiledAs names offers elements text m found') ∨
      ∃ output record m' found', edits ≠ [] ∧ Edit.applyAll index text edits = .ok (output, record) ∧
        HoldsLiteral names offers elements output m' found' := by
  obtain ⟨hread, hsole, hwhole, hlegible, hoffers⟩ := h
  cases hoffers with
  | string hstring hsigns =>
    obtain ⟨value, hvalue⟩ := Option.isSome_iff_exists.1 hstring
    obtain ⟨span, rfl⟩ := Node.eq_of_string? hvalue
    obtain ⟨statement, hitems⟩ := Module.items_of_sole? hsole
    have hnone : simplifier.collectEdits ⟨index, m⟩ state' = .ok [] := collectEdits_string hitems state'
    rw [hnone] at hedits
    cases hedits
    exact .inl ⟨rfl, _, hread, hsole, hwhole, .inl hstring, Node.tidy_of_string? hvalue, hsigns⟩
  | template hfits htidy hclean hoffers =>
    rename_i chunks span inner
    cases (show span = ⟨0, text.byteLength⟩ from hwhole)
    obtain ⟨m', found', hback⟩ := drafts _ _ _ hsole
    have hfound := edits_of_template (Module.text_of_read hread) hsole htidy hlegible hseed hedits
    by_cases hsame : render (parts ⟨0, m⟩ chunks inner) = text
    · rw [if_pos hsame] at hfound
      have hcompiled := compiled_of_unchanged hread hsole htidy hclean hback hsame
      exact .inl ⟨hfound, found', hcompiled.read, hcompiled.sole,
        hcompiled.whole, hcompiled.literal, hcompiled.tidy,
        fun setting => (hcompiled.offer setting).trans (hoffers setting)⟩
    · rw [if_neg hsame] at hfound
      obtain ⟨record, happly⟩ := Edit.applyAll_whole index text (render (parts ⟨0, m⟩ chunks inner))
      exact .inr ⟨_, record, m', found', by
        simp [hfound], hfound ▸ happly, holdsLiteral_of_readsBackAs htidy hclean hoffers hback⟩

def DraftsReadBack (file : Option String) (code : Text) : Prop :=
  ∀ pass state, simplifier.Begins file code pass state → pass.module.DraftReadsBack (Rule.elementsIn file)

variable {file : Option String} {code : Text}

/-- A run over a literal comes to literals only, and they offer what the first does. -/
theorem holdsLiteral_of_reaches (h : HoldsLiteral names offers (Rule.elementsIn file) code m found)
    (drafts : DraftsReadBack file code) {state : List Span} {records : List Record} {text : Text}
    (reaches : simplifier.Reaches file code state records text) :
    ∃ m found, HoldsLiteral names offers (Rule.elementsIn file) text m found := by
  induction reaches with
  | start => exact ⟨m, found, h⟩
  | @pass state state' records record text output read edits reaches hread hpass hne ih =>
    obtain ⟨m, found, h⟩ := ih
    obtain rfl : m = read := Except.ok.inj (h.read.symm.trans hread)
    obtain ⟨hseed, hedits, happly⟩ := Rule.onePass_eq_ok_iff.1 hpass
    rw [show (Pass.module ⟨records.length, m⟩).text = text from Module.text_of_read hread] at happly
    have begins : simplifier.Begins file code ⟨records.length, m⟩ state' :=
      ⟨_, _, _, reaches, hread, rfl, hseed⟩
    rcases h.next (drafts _ _ begins) hseed hedits with ⟨hnil, -⟩ | ⟨_, _, m', found', -, happly', h'⟩
    · exact absurd hnil hne
    · rw [happly] at happly'
      cases happly'
      exact ⟨m', found', h'⟩

/-- A completed run over a literal ends with one that comes to what the classes of the first offer. -/
theorem compiled_of_run (h : HoldsLiteral names offers (Rule.elementsIn file) code m found)
    (drafts : DraftsReadBack file code) {limit : Nat} {fixpoint : Fixpoint}
    (hrun : (simplifier.run file limit code).outcome = .ok fixpoint) :
    ∃ m found, CompiledAs names offers (Rule.elementsIn file) fixpoint.code m found := by
  obtain ⟨state, records, last, seeded, reaches, hread, hseed, hnone⟩ := Rule.reaches_of_run hrun
  obtain ⟨m, found, h⟩ := holdsLiteral_of_reaches h drafts reaches
  obtain rfl : m = last := Except.ok.inj (h.read.symm.trans hread)
  rcases h.next (drafts _ _ ⟨_, _, _, reaches, hread, rfl, hseed⟩) hseed hnone with
      ⟨-, found', hcompiled⟩ | ⟨_, _, _, _, hne, -⟩
  · exact ⟨m, found', hcompiled⟩
  · exact absurd rfl hne

end

end ClassWeave
