import ClassWeave.Proofs.Descending
import ClassWeave.Proofs.Simplifying
/-!
# Compiled calls

A call of `tx` becomes a literal that comes to what its arguments do, one after another, provided
that the templates written on the way read back as they were written.
-/

namespace ClassWeave

/-! ## The template of the arguments -/

def snippetItems : List Node → List Item
  | [] => []
  | [argument] => [.hole (argumentOf argument)]
  | argument :: rest => .hole (argumentOf argument) :: .shown [' '] :: snippetItems rest

def snippetOf (given : List Node) : Draft := .template (snippetItems given)

def argumentOffer (setting : Setting) (pass : Pass) : Node → Yield
  | .mk .spread _ [inner] => Yield.of (setting.list (inner.bareText pass))
  | node => node.offer setting pass

theorem text_argumentOf (pass : Pass) (argument : Node) :
    (Item.hole (argumentOf argument)).text pass = elementOf pass argument := by
  unfold elementOf
  split
  · rfl
  · rename_i hnot
    rw [argumentOf.eq_2 argument hnot]
    rfl

theorem text_snippetItems (pass : Pass) : ∀ given : List Node,
    (snippetItems given).flatMap (Item.text pass) = Text.joinWith [' '] (given.map (elementOf pass))
  | [] => rfl
  | [argument] => by simp [snippetItems, Text.joinWith, text_argumentOf]
  | argument :: other :: rest => by
    rw [snippetItems, List.flatMap_cons, List.flatMap_cons, text_snippetItems pass (other :: rest),
      text_argumentOf]
    · show elementOf pass argument ++ ([' '] ++ _) = elementOf pass argument ++ [' '] ++ _
      rw [List.append_assoc]
    · simp

theorem text_snippetOf (pass : Pass) (given : List Node) :
    (snippetOf given).text pass = templateOf pass given := by
  rw [snippetOf, Draft.text, text_snippetItems]
  rfl

theorem pieces_snippetItems : ∀ (argument : Node) (rest : List Node),
    (snippetItems (argument :: rest)).flatMap Item.pieces =
      .inr (argumentOf argument) :: rest.flatMap fun other => [.inl ' ', .inr (argumentOf other)]
  | argument, [] => rfl
  | argument, other :: rest => by
    rw [snippetItems, List.flatMap_cons, List.flatMap_cons, pieces_snippetItems other rest]
    · rfl
    · simp

/-! ## What the template reads as -/

section
variable {pass other : Pass}

theorem readsAll_nil {chunks : List Chunk} {inner : List Node} (hfits : chunks.length = inner.length + 1)
    (h : ReadsAll pass other [] (weave chunks inner)) : chunks.map Chunk.value = [[]] ∧ inner = [] := by
  have hnil : weave chunks inner = [] := List.forall₂_nil_left_iff.1 h
  match chunks, inner, hfits with
  | [chunk], [], _ =>
    rw [weave, weave, List.append_nil, List.map_eq_nil_iff] at hnil
    exact ⟨by rw [List.map_singleton, hnil], rfl⟩
  | chunk :: chunks, expression :: rest, _ =>
    rw [weave] at hnil
    exact absurd hnil (by simp)
  | _ :: _ :: _, [], hfits => simp at hfits

theorem readsAll_cons {value : Written} {written : List (Char ⊕ Written)}
    {chunks : List Chunk} {inner : List Node} (hfits : chunks.length = inner.length + 1)
    (h : ReadsAll pass other (.inr value :: written) (weave chunks inner)) :
    ∃ chunk chunks' found inner', chunks = chunk :: chunks' ∧ inner = found :: inner' ∧ chunk.value = [] ∧
      value.Reads pass other found ∧ chunks'.length = inner'.length + 1 ∧
      ReadsAll pass other written (weave chunks' inner') := by
  match chunks, inner, hfits with
  | [chunk], [], _ =>
    rw [weave, weave, List.append_nil] at h
    cases hvalue : chunk.value with
    | nil => rw [hvalue] at h; cases h
    | cons c rest => rw [hvalue] at h; cases h with | cons hpiece _ => cases hpiece
  | chunk :: chunks, expression :: rest, hfits =>
    rw [weave] at h
    cases hvalue : chunk.value with
    | nil =>
      rw [hvalue] at h
      cases h with
      | cons hpiece hrest =>
        cases hpiece with
        | inr hread =>
            exact ⟨chunk, chunks, expression, rest, rfl, rfl, hvalue, hread, by simpa using hfits, hrest⟩
    | cons c more => rw [hvalue] at h; cases h with | cons hpiece _ => cases hpiece
  | _ :: _ :: _, [], hfits => simp at hfits

theorem readsAll_spaced : ∀ {given : List Node} {chunks : List Chunk} {inner : List Node},
    chunks.length = inner.length + 1 →
    ReadsAll pass other (given.flatMap fun other => [.inl ' ', .inr (argumentOf other)])
      (weave chunks inner) →
    chunks.map Chunk.value = List.replicate inner.length [' '] ++ [[]] ∧
      List.Forall₂ (fun argument found => (argumentOf argument).Reads pass other found) given inner
  | [], chunks, inner, hfits, h => by
    obtain ⟨hchunks, rfl⟩ := readsAll_nil hfits h
    exact ⟨hchunks, .nil⟩
  | argument :: others, chunk :: chunks, [], hfits, h => by
    obtain rfl : chunks = [] := by simpa using hfits
    rw [weave, weave, List.append_nil] at h
    cases hvalue : chunk.value with
    | nil => rw [hvalue] at h; cases h
    | cons c more =>
      rw [hvalue] at h
      cases h with
      | cons _ hrest =>
        cases more with
        | nil => cases hrest
        | cons d more =>
          cases hrest with
          | cons hpiece _ => cases hpiece
  | argument :: others, chunk :: chunks, expression :: rest, hfits, h => by
    rw [weave] at h
    have hlength : chunks.length = rest.length + 1 := by simpa using hfits
    cases hvalue : chunk.value with
    | nil =>
      rw [hvalue] at h
      cases h with
      | cons hpiece _ => cases hpiece
    | cons c more =>
      rw [hvalue] at h
      cases h with
      | cons hspace hrest =>
        cases more with
        | nil =>
          cases hspace with
          | inl hspace =>
            cases hrest with
            | cons hread hrest =>
              cases hread with
              | inr hread =>
                obtain ⟨hchunks, hothers⟩ := readsAll_spaced hlength hrest
                refine ⟨?_, .cons hread hothers⟩
                rw [List.map_cons, hvalue, hchunks, ← hspace,
                  List.length_cons, List.replicate_succ, List.cons_append]
        | cons d more =>
          cases hrest with
          | cons hpiece _ => cases hpiece
  | argument :: others, [], inner, hfits, h => by simp at hfits

theorem reads_snippetOf {given : List Node} {found : Node} (h : (snippetOf given).Reads pass other found) :
    ∃ chunks span inner, found = .mk (.template chunks) span inner ∧ chunks.length = inner.length + 1 ∧
      chunks.map Chunk.value = gaps inner.length ∧
      List.Forall₂ (fun argument node => (argumentOf argument).Reads pass other node) given inner := by
  obtain ⟨parts, hparts, hfits, hreads⟩ := h
  obtain ⟨span, rfl⟩ := Node.eq_of_template? hparts
  obtain ⟨chunks, inner⟩ := parts
  cases given with
  | nil =>
    obtain ⟨hchunks, rfl⟩ := readsAll_nil hfits hreads
    exact ⟨chunks, span, [], rfl, hfits, hchunks, .nil⟩
  | cons argument rest =>
    rw [pieces_snippetItems] at hreads
    obtain ⟨chunk, chunks', node, inner', rfl, rfl, hvalue, hread, hfits', hrest⟩ :=
      readsAll_cons hfits hreads
    obtain ⟨hchunks, hothers⟩ := readsAll_spaced hfits' hrest
    refine ⟨_, span, _, rfl, hfits, ?_, .cons hread hothers⟩
    rw [List.map_cons, hvalue, hchunks, List.length_cons, gaps]

theorem argumentOffer_of_reads {argument found : Node} (setting : Setting)
    (h : (argumentOf argument).Reads pass other found) :
    found.offer setting other = argumentOffer setting pass argument := by
  unfold argumentOf at h
  split at h
  · have hand : found.isAnd = false := h.isAnd
    obtain ⟨inner, hinner, halike⟩ := h
    rw [Node.offer_of_not_isAnd setting other hand, Node.signs_of_joined? hinner, ← halike.bareText]
    rfl
  · rename_i hnot
    rw [argumentOffer.eq_2 setting pass argument hnot]
    exact (Node.Alike.offer h setting).symm

theorem tidy_argumentOf {names : String → Bool} {argument : Node} (h : argument.Tidy pass names) :
    (argumentOf argument).Tidy pass names := by
  unfold argumentOf
  split
  · exact h.child _ (List.mem_singleton_self _)
  · exact h

end

/-! ## Compiled calls -/

/-- A call of `tx`, as a parser sees it that reads back the template of its arguments, and what the
passes over that write. -/
structure CallReadsBack (file : Option String) (pass : Pass) (given : List Node) : Prop where
  snippet : (snippetOf given).ReadsBack pass (Rule.elementsIn file)
  drafts : DraftsReadBack file (templateOf pass given)
  faithful : ∀ inner places, simplifier.Begins file (templateOf pass given) inner places →
    Faithful (Rule.elementsIn file) inner places

theorem all_arguments {pass other : Pass} {given inner : List Node} (setting : Setting)
    (h : List.Forall₂ (fun argument node => (argumentOf argument).Reads pass other node) given inner) :
    Yield.all (inner.map fun node => node.offer setting other) =
      Yield.all (given.map (argumentOffer setting pass)) := by
  induction h with
  | nil => rfl
  | cons hread _ ih =>
    rw [List.map_cons, List.map_cons, Yield.all_cons, Yield.all_cons,
      ih, argumentOffer_of_reads setting hread]

theorem tidy_arguments {pass other : Pass} {names : String → Bool} {given inner : List Node}
    (h : List.Forall₂ (fun argument node => (argumentOf argument).Reads pass other node) given inner)
    (htidy : Node.AllTidy pass names given) : Node.AllTidy other names inner := by
  induction h with
  | nil => exact .nil
  | cons hread _ ih =>
    have hrest := fun other hother => htidy other (List.mem_cons_of_mem _ hother)
    exact .cons (hread.tidy (tidy_argumentOf (htidy _ (List.mem_cons_self ..)))) (ih hrest)

section
variable {file : Option String} {pass : Pass} {names : String → Bool} {given : List Node}

theorem holdsLiteral_of_snippet {elements : Bool} (h : (snippetOf given).ReadsBack pass elements)
    (htidy : Node.AllTidy pass names given) : ∃ m found,
      HoldsLiteral names (fun setting => Yield.all (given.map (argumentOffer setting pass))) elements
        (templateOf pass given) m found := by
  obtain ⟨m, found, hread, hsole, hwhole, hlegible, hreads⟩ := h
  rw [text_snippetOf] at hread hwhole
  obtain ⟨chunks, span, inner, rfl, hfits, hchunks, hinner⟩ := reads_snippetOf hreads
  have hclasses : classes chunks inner = inner.map fun node => [.embedded node] := classes_of_gaps hchunks
  have hclean : ClassesClean chunks inner := by
    intro pieces hpieces node hnode
    rw [hclasses] at hpieces
    obtain ⟨other, -, rfl⟩ := List.mem_map.1 hpieces
    cases List.mem_singleton.1 hnode
    exact .inl rfl
  refine ⟨m, _, hread, hsole, hwhole, hlegible,
    .template hfits (tidy_arguments hinner htidy) hclean fun setting => ?_⟩
  rw [hclasses, List.map_map]
  exact all_arguments setting hinner

/-- A compiled call is a literal that comes to what the arguments do, one after another. -/
theorem compiled_of_compileTx {options : Options} {code : Text} (h : compileTx pass given options = .ok code)
    (hback : CallReadsBack options.fileName pass given) (htidy : Node.AllTidy pass names given) : ∃ m found,
      CompiledAs names (fun setting => Yield.all (given.map (argumentOffer setting pass)))
        (Rule.elementsIn options.fileName) code m found := by
  obtain ⟨m, found, hholds⟩ := holdsLiteral_of_snippet hback.snippet htidy
  have hsimplify := (compileTx_eq_ok.1 h).2
  unfold simplifyTemplate at hsimplify
  cases hrun : (simplifier.run options.fileName options.maxPasses (templateOf pass given)).outcome with
  | error failure => rw [hrun] at hsimplify; cases hsimplify
  | ok fixpoint =>
    rw [hrun] at hsimplify
    cases hsimplify
    exact compiled_of_run hholds hback.drafts hrun

theorem CallReadsBack.exists_limit (h : CallReadsBack file pass given) :
    ∃ bound code, ∀ limit ≥ bound, simplifyTemplate (templateOf pass given) file limit = .ok code := by
  obtain ⟨m, found, hread, -⟩ := h.snippet
  rw [text_snippetOf] at hread
  obtain ⟨last, state, left, -, -, -, hpasses⟩ := exists_lastPass h.faithful .start hread
  obtain ⟨records, hrun⟩ := hpasses (left + 1)
  exact ⟨left + 1, last.module.text, fun limit hlimit => simplifyTemplate_of_run hlimit hrun⟩

end

end ClassWeave
