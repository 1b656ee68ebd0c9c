import ClassWeave.Proofs.Tidiness
import ClassWeave.Proofs.Writing
/-!
# What drafts come to

The spaces of a written class list keep its elements apart: each of them comes to what it would
alone, in the order of the list. The elements in turn come to what the classes do that they were
made from.
-/

namespace ClassWeave

section
variable (setting : Setting) (pass : Pass) {names : String → Bool}

def Written.signs : Written → List Sign
  | .copied _ node => node.signs setting pass
  | .quoted text => Sign.spell text
  | .led value => Sign.spell [' '] ++ value.signs
  | .trailed value => value.signs ++ Sign.spell [' ']
  | .choice _ test value alternate => setting.choose (test.bareText pass) value.signs alternate.signs
  | .listed node => setting.list (node.bareText pass)

def Item.signs : Item → List Sign
  | .shown text => Sign.spell text
  | .body chunks _ inner => signsOf (weave chunks (Node.allSigns setting pass inner))
  | .hole value => value.signs setting pass

def Draft.signs : Draft → List Sign
  | .quoted text => Sign.spell text
  | .template items => items.flatMap (Item.signs setting pass)

/-- What an element comes to. -/
def Entry.offer : Entry → Yield
  | .text words => ⟨[], words.words⟩
  | .splice items => Yield.of (items.flatMap (Item.signs setting pass))
  | .embed node => Yield.of (node.signs setting pass)
  | .conditional test value => setting.when (test.bareText pass) (Yield.of (value.signs setting pass))

/-! ## Conditionals with their spaces -/

theorem isBlank_of_mem_space (wanted : Bool) : ∀ c ∈ space wanted, Text.isBlank c = true := by
  cases wanted with
  | false => simp [space]
  | true => simpa [space] using Text.isBlank_space

theorem signs_padded (lead trail : Bool) (value : Written) : (padded lead trail value).signs setting pass =
    Sign.spell (space lead) ++ value.signs setting pass ++ Sign.spell (space trail) := by
  cases lead <;> cases trail <;> simp [padded, Written.signs, space]

theorem Node.Tidy.constant {setting : Setting} {pass : Pass} {names : String → Bool}
    {node : Node} (h : node.Tidy pass names) {text : Text} (hconstant : node.constantText? = some text) :
    node.signs setting pass = Sign.spell text :=
  node.signs_of_constantText? setting pass (fun _ _ hnode => by simpa using (h.template hnode).fits) hconstant

theorem signs_writtenConditional (test : Node) {value : Node}
    (htidy : value.Tidy pass names) (lead trail : Bool) :
    ∃ signs, Yield.of signs = Yield.of (value.signs setting pass) ∧
      (writtenConditional test value lead trail).signs setting pass =
        setting.choose (test.bareText pass) (Sign.spell (space lead) ++ signs ++ Sign.spell (space trail))
          (Sign.spell (space (lead && trail))) := by
  unfold writtenConditional
  rw [← Node.of_signs_unpadded]
  cases hconstant : value.unpadded.constantText? with
  | some text =>
    refine ⟨Sign.spell text.trim, ?_, by simp [Written.signs]⟩
    rw [(htidy.mono value.targets_unpadded_subset).constant hconstant]
    simp
  | none => exact ⟨_, rfl, by rw [Written.signs, signs_padded]; rfl⟩

theorem of_writtenConditional (test : Node) {value : Node} (htidy : value.Tidy pass names)
    (lead trail : Bool) :
    Yield.of ((writtenConditional test value lead trail).signs setting pass) =
      setting.when (test.bareText pass) (Yield.of (value.signs setting pass)) := by
  obtain ⟨signs, hsigns, heq⟩ := signs_writtenConditional setting pass test htidy lead trail
  rw [heq, Setting.of_choose, Yield.of_append_spell (isBlank_of_mem_space trail),
    Yield.of_spell_append (isBlank_of_mem_space lead), hsigns]
  rw [Yield.of_spell, Text.words_eq_nil (isBlank_of_mem_space _)]
  rfl

theorem closes_writtenConditional (test : Node) {value : Node} (htidy : value.Tidy pass names) (lead : Bool) :
    (Sign.text ((writtenConditional test value lead true).signs setting pass)).Closes := by
  obtain ⟨signs, -, heq⟩ := signs_writtenConditional setting pass test htidy lead true
  rw [heq, Setting.choose, Sign.text_event]
  split
  · rw [Sign.text_append, Sign.text_spell]
    intro c hc
    have hlast : (space true).getLast? = some ' ' := rfl
    rw [List.getLast?_append, hlast] at hc
    cases hc
    exact Text.isBlank_space
  · rw [Sign.text_spell]
    exact fun c hc => isBlank_of_mem_space _ c (List.mem_of_mem_getLast? hc)

theorem Text.opens_append_of_opens {a b : Text} (ha : a.Opens) (hb : b.Opens) : Text.Opens (a ++ b) := by
  cases a with
  | nil => exact hb
  | cons c a => exact ha

theorem Text.opens_space_append (text : Text) : Text.Opens (space true ++ text) := by
  intro c hc
  cases hc
  exact Text.isBlank_space

theorem opens_writtenConditional (test : Node) {value : Node} (htidy : value.Tidy pass names) (trail : Bool) :
    (Sign.text ((writtenConditional test value true trail).signs setting pass)).Opens := by
  obtain ⟨signs, -, heq⟩ := signs_writtenConditional setting pass test htidy true trail
  rw [heq, Setting.choose, Sign.text_event]
  split
  · rw [List.append_assoc, Sign.text_append, Sign.text_spell]
    exact Text.opens_space_append _
  · rw [Sign.text_spell]
    exact fun c hc => isBlank_of_mem_space _ c (List.mem_of_mem_head? hc)

/-! ## Elements with their spaces -/

def Entry.Tidy (pass : Pass) (names : String → Bool) : Entry → Prop
  | .conditional _ value => value.Tidy pass names
  | _ => True

theorem signs_spaced (wanted : Bool) :
    (spaced wanted).flatMap (Item.signs setting pass) = Sign.spell (space wanted) := by
  cases wanted <;> rfl

theorem opens_itemsOf : ∀ (list : List Entry) (behindConditional : Bool),
    (∀ entry ∈ list, entry.Tidy pass names) →
    behindConditional = false ∨ list.all Entry.isConditional = true →
    (Sign.text ((itemsOf false behindConditional list).flatMap (Item.signs setting pass))).Opens
  | [], _, _, _ => fun c hc => by cases hc
  | .text words :: rest, behindConditional, _, h => by
    obtain rfl : behindConditional = false := h.resolve_right (by simp [Entry.isConditional])
    rw [itemsOf, List.flatMap_append, signs_spaced, Sign.text_append, Sign.text_spell]
    exact Text.opens_space_append _
  | .splice items :: rest, behindConditional, _, h => by
    obtain rfl : behindConditional = false := h.resolve_right (by simp [Entry.isConditional])
    rw [itemsOf, List.append_assoc, List.flatMap_append, signs_spaced, Sign.text_append, Sign.text_spell]
    exact Text.opens_space_append _
  | .embed node :: rest, behindConditional, _, h => by
    obtain rfl : behindConditional = false := h.resolve_right (by simp [Entry.isConditional])
    rw [itemsOf, List.flatMap_append, signs_spaced, Sign.text_append, Sign.text_spell]
    exact Text.opens_space_append _
  | .conditional test value :: rest, behindConditional, htidy, h => by
    have hvalue : value.Tidy pass names := htidy _ (List.mem_cons_self ..)
    rw [itemsOf, List.flatMap_cons, Sign.text_append]
    by_cases hall : rest.all Entry.isConditional = true
    · have ih :=
        opens_itemsOf rest true (fun entry hentry => htidy entry (List.mem_cons_of_mem _ hentry)) (.inr hall)
      rw [if_pos hall]
      exact Text.opens_append_of_opens (opens_writtenConditional setting pass test hvalue false) ih
    · obtain rfl : behindConditional = false := h.resolve_right (by simpa [Entry.isConditional] using hall)
      rw [if_neg hall]
      obtain ⟨signs, -, heq⟩ := signs_writtenConditional setting pass test hvalue true true
      show (Sign.text ((writtenConditional test value true true).signs setting pass) ++ _).Opens
      rw [heq, Setting.choose, Sign.text_event]
      split
      · rw [Sign.text_append, Sign.text_append, Sign.text_spell, List.append_assoc, List.append_assoc]
        exact Text.opens_space_append _
      · rw [Sign.text_spell]
        exact Text.opens_space_append _

theorem of_spaced (wanted : Bool) {a b : List Sign} (h : (Sign.text b).Opens) :
    Yield.of (Sign.spell (space wanted) ++ (a ++ b)) = Yield.of a ++ Yield.of b := by
  rw [Yield.of_spell_append (isBlank_of_mem_space wanted), Yield.of_append_of_opens h]

theorem of_itemsOf : ∀ (list : List Entry) (first behindConditional : Bool),
    (∀ entry ∈ list, entry.Tidy pass names) →
    Yield.of ((itemsOf first behindConditional list).flatMap (Item.signs setting pass)) =
      Yield.all (list.map (Entry.offer setting pass))
  | [], _, _, _ => rfl
  | .text words :: rest, first, behindConditional, htidy => by
    have hrest := fun entry hentry => htidy entry (List.mem_cons_of_mem _ hentry)
    have hopens := opens_itemsOf setting pass rest false hrest (.inl rfl)
    rw [itemsOf, List.flatMap_append, signs_spaced, List.flatMap_cons,
      of_spaced _ hopens, of_itemsOf rest _ _ hrest, Item.signs, Yield.of_spell]
    rfl
  | .splice items :: rest, first, behindConditional, htidy => by
    have hrest := fun entry hentry => htidy entry (List.mem_cons_of_mem _ hentry)
    have hopens := opens_itemsOf setting pass rest false hrest (.inl rfl)
    rw [itemsOf, List.append_assoc, List.flatMap_append, signs_spaced,
      List.flatMap_append, of_spaced _ hopens, of_itemsOf rest _ _ hrest]
    rfl
  | .embed node :: rest, first, behindConditional, htidy => by
    have hrest := fun entry hentry => htidy entry (List.mem_cons_of_mem _ hentry)
    have hopens := opens_itemsOf setting pass rest false hrest (.inl rfl)
    rw [itemsOf, List.flatMap_append, signs_spaced, List.flatMap_cons,
      of_spaced _ hopens, of_itemsOf rest _ _ hrest]
    rfl
  | .conditional test value :: rest, first, behindConditional, htidy => by
    have hrest := fun entry hentry => htidy entry (List.mem_cons_of_mem _ hentry)
    have hvalue : value.Tidy pass names := htidy _ (List.mem_cons_self ..)
    rw [itemsOf, List.flatMap_cons, List.map_cons, Yield.all_cons,
      ← of_itemsOf rest false true hrest, Item.signs]
    split
    · rename_i hall
      rw [Yield.of_append_of_opens (opens_itemsOf setting pass rest true hrest (.inr hall)),
        of_writtenConditional setting pass test hvalue]
      rfl
    · rw [Yield.of_append_of_closes (closes_writtenConditional setting pass test hvalue _),
        of_writtenConditional setting pass test hvalue]
      rfl

/-! ## Classes and their elements -/

def classOffer : List (Piece Node) → Yield
  | [.embedded node] => node.offer setting pass
  | pieces => Yield.of (classSigns (pieces.map (Piece.map (Node.signs setting pass))))

def PiecesTidy (pass : Pass) (names : String → Bool) (pieces : List (Piece Node)) : Prop :=
  ∀ node, .embedded node ∈ pieces → node.Tidy pass names

variable {setting pass}

theorem of_nonBlank (text : Text) :
    Yield.all (((nonBlank text).map Entry.text).toList.map (Entry.offer setting pass)) =
    Yield.of (Sign.spell text) := by
  unfold nonBlank
  rw [Yield.of_spell, ← Text.words_trim]
  split
  · rename_i hempty
    rw [List.isEmpty_iff.1 hempty]
    rfl
  · exact Yield.append_none _

theorem signs_of_template {node : Node} {chunks : List Chunk} {span : Span} {inner : List Node}
    (h : node.standing = .template chunks span inner) :
    node.signs setting pass = signsOf (weave chunks (Node.allSigns setting pass inner)) := by
  rw [← Node.signs_unparenthesized, Node.unparenthesized_of_template h, Node.signs]

theorem all_entry? {node : Node} (htidy : node.Tidy pass names) :
    Yield.all ((node.standing.entry? node).toList.map (Entry.offer setting pass)) =
      node.offer setting pass := by
  unfold Node.offer
  cases hstanding : node.standing with
  | constant text =>
    rw [Standing.entry?, of_nonBlank, htidy.constant (Node.standing_constant.1 hstanding)]
  | template chunks span inner =>
    rw [signs_of_template hstanding]
    simp [Standing.entry?, Entry.offer, Item.signs]
  | conditional test value => exact Yield.append_none _
  | other => exact Yield.append_none _

theorem signs_item {piece : Piece Node} (htidy : PiecesTidy pass names [piece]) :
    piece.item.signs setting pass = classSigns [piece.map (Node.signs setting pass)] := by
  cases piece with
  | text word => simp [Piece.item, Item.signs, Piece.map, classSigns]
  | embedded node =>
    have hnode : node.Tidy pass names := htidy node (List.mem_singleton_self _)
    have hclass : classSigns [Piece.map (Node.signs setting pass) (.embedded node)] =
      node.signs setting pass := by
      simp [Piece.map, classSigns]
    rw [hclass, Piece.item]
    cases hstanding : node.standing with
    | constant text => rw [hnode.constant (Node.standing_constant.1 hstanding)]; rfl
    | template chunks span inner => rw [signs_of_template hstanding]; rfl
    | conditional test value => exact Node.signs_unparenthesized setting pass node
    | other => exact Node.signs_unparenthesized setting pass node

theorem classSigns_cons (piece : Piece (List Sign)) (rest : List (Piece (List Sign))) :
    classSigns (piece :: rest) = classSigns [piece] ++ classSigns rest := by
  simp [classSigns]

theorem signs_items : ∀ {pieces : List (Piece Node)}, PiecesTidy pass names pieces →
    (pieces.map Piece.item).flatMap (Item.signs setting pass) =
      classSigns (pieces.map (Piece.map (Node.signs setting pass)))
  | [], _ => rfl
  | piece :: rest, htidy => by
    have hpiece : PiecesTidy pass names [piece] := fun node hnode =>
      htidy node (List.mem_cons.2 (.inl (List.mem_singleton.1 hnode)))
    have hrest : PiecesTidy pass names rest := fun node hnode => htidy node (List.mem_cons_of_mem _ hnode)
    rw [List.map_cons, List.flatMap_cons, List.map_cons, classSigns_cons,
      signs_item hpiece, signs_items hrest]

theorem signs_of_constants :
    ∀ {pieces : List (Piece Node)} {texts : List Text}, PiecesTidy pass names pieces →
    pieces.mapM Piece.constant? = some texts →
    classSigns (pieces.map (Piece.map (Node.signs setting pass))) = Sign.spell texts.flatten
  | [], texts, _, h => by
    obtain rfl : [] = texts := Option.some.inj h
    rfl
  | piece :: rest, texts, htidy, h => by
    have hrest : PiecesTidy pass names rest := fun node hnode => htidy node (List.mem_cons_of_mem _ hnode)
    rw [List.mapM_cons] at h
    obtain ⟨text, htext, h⟩ := Option.bind_eq_some_iff.1 h
    obtain ⟨others, hothers, h⟩ := Option.bind_eq_some_iff.1 h
    obtain rfl : text :: others = texts := Option.some.inj h
    rw [List.map_cons, classSigns_cons, signs_of_constants hrest hothers,
      List.flatten_cons, Sign.spell_append]
    congr 1
    cases piece with
    | text word =>
      cases htext
      simp [Piece.map, classSigns]
    | embedded node =>
      have hnode : node.signs setting pass = Sign.spell text :=
        (htidy node (List.mem_cons_self ..)).constant htext
      rw [← hnode]
      simp [Piece.map, classSigns]

theorem all_entryOf {pieces : List (Piece Node)} (htidy : PiecesTidy pass names pieces) :
    Yield.all ((entryOf pieces).toList.map (Entry.offer setting pass)) = classOffer setting pass pieces := by
  have hglued : Yield.all ((gluedEntry pieces).toList.map (Entry.offer setting pass)) =
      Yield.of (classSigns (pieces.map (Piece.map (Node.signs setting pass)))) := by
    unfold gluedEntry
    cases hconstants : pieces.mapM Piece.constant? with
    | some texts => rw [signs_of_constants htidy hconstants, of_nonBlank]
    | none =>
      rw [← signs_items htidy]
      exact Yield.append_none _
  match pieces, hglued, htidy with
  | [], hglued, _ => exact hglued
  | [.text word], _, _ => simp [entryOf, Entry.offer, classOffer, classSigns, Piece.map]
  | [.embedded node], _, htidy => exact all_entry? (htidy node (List.mem_cons_self ..))
  | first :: _ :: _, hglued, _ =>
    cases first with
    | text word => exact hglued
    | embedded node => exact hglued

/-! ## Drafts of templates -/

theorem tidy_of_conditional {node test value : Node} (h : node.Tidy pass names)
    (hstanding : node.standing = .conditional test value) :
    test.Tidy pass names ∧ value.Tidy pass names := by
  have hbare := h.mono node.targets_unparenthesized_subset
  rcases Node.unparenthesized_of_conditional hstanding with ⟨span, hnode⟩ | ⟨span, alternate, hnode, -⟩
  · rw [hnode] at hbare
    exact ⟨hbare.child test (by simp), hbare.child value (by simp)⟩
  · rw [hnode] at hbare
    exact ⟨hbare.child test (by simp), hbare.child value (by simp)⟩

theorem piecesTidy {chunks : List Chunk} {inner : List Node} (h : Node.AllTidy pass names inner)
    {pieces : List (Piece Node)} (hpieces : pieces ∈ classes chunks inner) : PiecesTidy pass names pieces :=
  fun node hnode => h node (mem_of_mem_classes hpieces hnode)

theorem tidy_of_entryOf {pieces : List (Piece Node)} (htidy : PiecesTidy pass names pieces) {entry : Entry}
    (h : entryOf pieces = some entry) : entry.Tidy pass names := by
  cases entry with
  | conditional test value =>
    match pieces, h, htidy with
    | [.embedded node], h, htidy =>
      have hstanding : node.standing = .conditional test value := by
        change node.standing.entry? node = _ at h
        cases hstanding : node.standing with
        | constant text =>
          rw [hstanding] at h
          obtain ⟨text, -, heq⟩ := Option.map_eq_some_iff.1 h
          cases heq
        | template chunks span inner => rw [hstanding] at h; cases h
        | conditional test value => rw [hstanding] at h; cases h; rfl
        | other => rw [hstanding] at h; cases h
      exact (tidy_of_conditional (htidy node (List.mem_cons_self ..)) hstanding).2
    | [], h, _ => cases h
    | [.text word], h, _ => cases h
    | first :: second :: rest, h, _ =>
      have hglued : gluedEntry (first :: second :: rest) = some (.conditional test value) := by
        cases first <;> exact h
      unfold gluedEntry at hglued
      split at hglued
      · obtain ⟨text, -, heq⟩ := Option.map_eq_some_iff.1 hglued
        cases heq
      · cases hglued
  | _ => trivial

theorem tidy_entries {chunks : List Chunk} {inner : List Node} (h : Node.AllTidy pass names inner) :
    ∀ entry ∈ entries chunks inner, entry.Tidy pass names := by
  intro entry hentry
  obtain ⟨pieces, hpieces, heq⟩ := List.mem_filterMap.1 hentry
  exact tidy_of_entryOf (piecesTidy h hpieces) heq

theorem all_filterMap {α : Type} (f : α → Option Entry) (g : α → Yield) : ∀ {list : List α},
    (∀ a ∈ list, Yield.all ((f a).toList.map (Entry.offer setting pass)) = g a) →
    Yield.all ((list.filterMap f).map (Entry.offer setting pass)) = Yield.all (list.map g)
  | [], _ => rfl
  | a :: list, h => by
    have ha := h a (List.mem_cons_self ..)
    have ih := all_filterMap f g fun b hb => h b (List.mem_cons_of_mem _ hb)
    rw [List.map_cons, Yield.all_cons, ← ha, ← ih]
    cases hfa : f a with
    | none => rw [List.filterMap_cons_none hfa]; rfl
    | some entry =>
      rw [List.filterMap_cons_some hfa]
      simp

theorem all_constants : ∀ {list : List Entry} {texts : List Text}, list.mapM Entry.constant? = some texts →
    Yield.all (list.map (Entry.offer setting pass)) = ⟨[], texts.flatMap Text.words⟩
  | [], texts, h => by
    obtain rfl : [] = texts := Option.some.inj h
    rfl
  | entry :: rest, texts, h => by
    rw [List.mapM_cons] at h
    obtain ⟨text, htext, h⟩ := Option.bind_eq_some_iff.1 h
    obtain ⟨others, hothers, h⟩ := Option.bind_eq_some_iff.1 h
    obtain rfl : text :: others = texts := Option.some.inj h
    rw [List.map_cons, Yield.all_cons, all_constants hothers]
    cases entry with
    | text words => cases htext; rfl
    | _ => cases htext

/-- A template written anew comes to what its classes do, one after another. -/
theorem of_draftOf {chunks : List Chunk} {inner : List Node} (h : Node.AllTidy pass names inner) :
    Yield.of ((draftOf chunks inner).signs setting pass) =
      Yield.all ((classes chunks inner).map (classOffer setting pass)) := by
  have hclasses : Yield.all ((entries chunks inner).map (Entry.offer setting pass)) =
      Yield.all ((classes chunks inner).map (classOffer setting pass)) :=
    all_filterMap entryOf (classOffer setting pass) fun pieces hpieces => all_entryOf (piecesTidy h hpieces)
  rw [← hclasses]
  unfold draftOf
  cases hconstants : (entries chunks inner).mapM Entry.constant? with
  | some texts => rw [Draft.signs, Yield.of_spell, Text.words_joinWith, all_constants hconstants]
  | none => exact of_itemsOf setting pass _ true false (tidy_entries h)

theorem all_classOffer {chunks : List Chunk} {inner : List Node}
    (hclean : ∀ node ∈ inner, node.isAnd = false) :
    Yield.all ((classes chunks inner).map (classOffer setting pass)) =
      Yield.of (signsOf (weave chunks (Node.allSigns setting pass inner))) := by
  rw [Node.allSigns_eq, ← all_classes, classes_map, List.map_map]
  congr 1
  refine List.map_congr_left fun pieces hpieces => ?_
  match pieces, hpieces with
  | [.embedded node], hpieces =>
    have hnode := hclean node (mem_of_mem_classes hpieces (List.mem_cons_self ..))
    show node.offer setting pass = _
    rw [Node.offer_of_not_isAnd setting pass hnode]
    simp [Piece.map, classSigns]
  | [], _ => rfl
  | [.text word], _ => rfl
  | first :: _ :: _, _ => cases first <;> rfl

end

end ClassWeave
