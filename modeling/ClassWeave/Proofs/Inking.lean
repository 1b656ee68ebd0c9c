import ClassWeave.Proofs.Lightening
/-!
# Templates that are written as they are

A template that takes nothing in is written with the expressions that it has, and what is written
for each is no heavier than what stands in its braces. If the template is written as it is, then
what is written for each is what stands there.
-/

namespace ClassWeave

open Text (isHeavy bulk heft Sealed Within)

/-! ## The text of what is written -/

def Piece.ink : Piece Text → Text
  | .text word => TemplateText.escape word
  | .embedded source => ClassWeave.embedded source

theorem ink_piecesOf : ∀ stretch : List (Char ⊕ Text), (piecesOf stretch).flatMap Piece.ink = inked stretch
  | [] => rfl
  | .inr source :: rest => by
    rw [piecesOf, List.flatMap_cons, ink_piecesOf rest]
    rfl
  | [.inl c] => by
    show TemplateText.escape [c] ++ [] = TemplateText.escapeChar c false ++ []
    rw [TemplateText.escape_cons, List.append_nil, List.append_nil]
    exact List.append_nil _
  | .inl c :: .inr source :: rest => by
    have ih := ink_piecesOf (.inr source :: rest)
    show TemplateText.escape [c] ++ (piecesOf (.inr source :: rest)).flatMap Piece.ink =
      TemplateText.escapeChar c (decide (((.inr source : Char ⊕ Text) :: rest).head? = some (.inl '\x7b'))) ++
        inked (.inr source :: rest)
    rw [ih, TemplateText.escape_cons, decide_eq_false (by simp), decide_eq_false (by simp)]
    exact congrArg (· ++ _) (List.append_nil _)
  | .inl c :: .inl d :: rest => by
    have ih := ink_piecesOf (.inl d :: rest)
    obtain ⟨word, more, hpieces⟩ : ∃ word more, piecesOf (.inl d :: rest) = .text (d :: word) :: more := by
      rw [piecesOf]
      unfold Piece.lead
      split
      · exact ⟨_, _, rfl⟩
      · exact ⟨_, _, rfl⟩
    have hsame : decide ((d :: word).head? = some '\x7b') =
      decide (((.inl d : Char ⊕ Text) :: rest).head? = some (.inl '\x7b')) :=
      decide_eq_decide.2 (by simp)
    rw [piecesOf, hpieces, inked, ← ih, hpieces, ← hsame]
    show TemplateText.escape (c :: d :: word) ++ more.flatMap Piece.ink = _
    rw [TemplateText.escape_cons, List.append_assoc]
    rfl

variable {pass : Pass}

def sourcesOf (pass : Pass) (items : List Item) : List (Char ⊕ Text) :=
  (items.flatMap Item.pieces).map (Sum.map id (Written.text pass))

def IsInked (pass : Pass) (items : List Item) : Prop :=
  items.flatMap (Item.text pass) = inked (sourcesOf pass items)

theorem sourcesOf_append (a b : List Item) :
    sourcesOf pass (a ++ b) = sourcesOf pass a ++ sourcesOf pass b := by
  rw [sourcesOf, List.flatMap_append, List.map_append]
  rfl

theorem isInked_append {a b : List Item} (ha : IsInked pass a) (hb : IsInked pass b)
    (h : (sourcesOf pass a).getLast? ≠ some (Sum.inl '$') ∨
      (sourcesOf pass b).head? ≠ some (Sum.inl '\x7b')) : IsInked pass (a ++ b) := by
  rw [IsInked, List.flatMap_append, ha, hb, sourcesOf_append, inked_append h]

theorem isInked_shown (text : Text) : IsInked pass [.shown text] := by
  have hsources : sourcesOf pass [.shown text] = text.map .inl := by
    rw [sourcesOf, List.flatMap_singleton, Item.pieces, List.map_map]
    rfl
  rw [IsInked, hsources, inked_chars]
  exact List.append_nil _

theorem isInked_hole (value : Written) : IsInked pass [.hole value] := rfl

theorem isInked_spaced (wanted : Bool) : IsInked pass (spaced wanted) := by
  cases wanted with
  | false => rfl
  | true => exact isInked_shown [' ']

theorem item_of_plain {node : Node} (h : node.isInlined = false) :
    node.standing.item node = .hole (.copied false node.unparenthesized) := by
  rcases Node.standing_of_not_isInlined h with ⟨test, value, hstanding⟩ | hstanding
  · rw [hstanding]
    rfl
  · rw [hstanding]
    rfl

theorem isInked_items {stretch : List (Char ⊕ Node)}
    (hplain : ∀ node ∈ embeddedIn stretch, node.isInlined = false) :
    IsInked pass ((piecesOf stretch).map Piece.item) := by
  let source : Node → Text := fun node => pass.textAt node.unparenthesized.span
  have hpiece : ∀ piece ∈ piecesOf stretch, piece.item.text pass = (piece.map source).ink := by
    intro piece hpiece
    cases piece with
    | text word => rfl
    | embedded node =>
      have hnode : node ∈ embeddedIn stretch := by
        rw [← places_piecesOf stretch, mem_embeddedIn]
        exact List.mem_flatMap.2 ⟨_, hpiece, List.mem_singleton_self _⟩
      rw [Piece.item, item_of_plain (hplain node hnode)]
      rfl
  have hsources : sourcesOf pass ((piecesOf stretch).map Piece.item) = stretch.map (Sum.map id source) := by
    rw [sourcesOf, pieces_items (by rwa [places_piecesOf]), places_piecesOf, List.map_map]
    congr 1
    funext place
    cases place <;> rfl
  rw [IsInked, hsources, ← ink_piecesOf, piecesOf_map, List.flatMap_map, List.flatMap_map]
  exact List.flatMap_congr hpiece

theorem isInked_entry {stretch : List (Char ⊕ Node)}
    (hplain : ∀ node ∈ embeddedIn stretch, node.isInlined = false)
    {entry : Entry} (hentry : entryOf (piecesOf stretch) = some entry) : IsInked pass entry.items := by
  cases entry with
  | text words => exact isInked_shown words
  | embed node => exact isInked_hole _
  | conditional test value => rfl
  | splice items =>
    have hglued : gluedEntry (piecesOf stretch) = some (.splice items) → IsInked pass items := fun h => by
      unfold gluedEntry at h
      split at h
      · obtain ⟨text, -, heq⟩ := Option.map_eq_some_iff.1 h
        cases heq
      · cases h
        exact isInked_items hplain
    match hpieces : piecesOf stretch, hentry, hglued with
    | [], hentry, _ => cases hentry
    | [.text word], hentry, _ => cases hentry
    | [.embedded node], hentry, _ =>
      -- A template would be spliced in, but then the stretch would take it in.
      have hnode : node.isInlined = false := by
        rw [piecesOf_eq_embedded.1 hpieces] at hplain
        exact hplain node (List.mem_singleton_self node)
      change node.standing.entry? node = _ at hentry
      rcases Node.standing_of_not_isInlined hnode with ⟨test, value, hstanding⟩ | hstanding
      · rw [hstanding] at hentry
        cases hentry
      · rw [hstanding] at hentry
        cases hentry
    | .text word :: second :: rest, hentry, hglued => exact hglued hentry
    | .embedded node :: second :: rest, hentry, hglued => exact hglued hentry

theorem isInked_itemsOf : ∀ {list : List Entry}, (∀ entry ∈ list, IsInked pass entry.items) →
    ∀ first behindConditional, IsInked pass (itemsOf first behindConditional list)
  | [], _, _, _ => rfl
  | entry :: rest, hlist, first, behindConditional => by
    have ih := fun behind =>
      isInked_itemsOf (fun other hother => hlist other (List.mem_cons_of_mem _ hother)) false behind
    cases hconditional : entry.isConditional with
    | true =>
      cases entry with
      | conditional test value =>
        rw [itemsOf]
        exact isInked_append (isInked_hole _) (ih true) (.inl (by rintro ⟨⟩))
      | _ => cases hconditional
    | false =>
      rw [itemsOf_cons hconditional, List.append_assoc]
      refine isInked_append (isInked_spaced _)
        (isInked_append (hlist entry (List.mem_cons_self ..)) (ih false) (.inr ?_)) (.inl ?_)
      · -- Behind an element comes an expression or a space.
        cases rest with
        | nil => rintro ⟨⟩
        | cons next others =>
          cases hnext : next.isConditional with
          | true =>
            cases next with
            | conditional test value => rw [itemsOf]; rintro ⟨⟩
            | _ => cases hnext
          | false =>
            rw [itemsOf_cons hnext, List.append_assoc]
            simp [sourcesOf, spaced, Item.pieces]
      · cases !(first || behindConditional) with
        | false => rintro ⟨⟩
        | true => simp [sourcesOf, spaced, Item.pieces]

/-! ## Where what is written comes from -/

inductive Made : Written → Node → Prop where
  | whole (node : Node) : Made (.copied false node) node
  | bare (node : Node) : Made (.copied false node.unparenthesized) node
  | exchanged {node test value : Node} (standing : node.standing = .conditional test value)
      (lead trail : Bool) :
      Made (writtenConditional test value lead trail) node

theorem Made.within {value : Written} {node : Node} (h : Made value node) (hnode : node.LaidOut pass) :
    Within (node.mass pass) (value.text pass) := by
  cases h with
  | whole => exact hnode.within
  | bare =>
    obtain ⟨hbare, hle⟩ := hnode.unparenthesized
    exact hbare.within.mono hle
  | exchanged standing lead trail =>
    obtain ⟨htest, hvalue, hle⟩ := hnode.of_standing standing
    exact (within_writtenConditional htest hvalue lead trail).mono (by omega)

/-- Whether an element is written from a stretch, each expression of the stretch once. -/
inductive Entry.StemsFrom : Entry → List (Char ⊕ Node) → Prop where
  | exchanged {node test value : Node} (standing : node.standing = .conditional test value) :
      StemsFrom (.conditional test value) [.inr node]
  | kept {entry : Entry} {stretch : List (Char ⊕ Node)} (isConditional_eq : entry.isConditional = false)
      (made : List.Forall₂ (Sum.LiftRel (· = ·) Made) (entry.items.flatMap Item.pieces) stretch) :
      StemsFrom entry stretch

theorem made_bareStretch (stretch : List (Char ⊕ Node)) :
    List.Forall₂ (Sum.LiftRel (· = ·) Made)
      ((bareStretch stretch).map (Sum.map id (.copied false))) stretch := by
  rcases bareStretch_cases stretch with ⟨node, rfl, hbare⟩ | ⟨-, hbare⟩
  · rw [hbare]
    exact .cons (.inr (.whole node)) .nil
  · rw [hbare, List.map_map, List.forall₂_map_left_iff, List.forall₂_same]
    intro place _
    cases place with
    | inl c => exact .inl rfl
    | inr node => exact .inr (.bare node)

theorem stemsFrom_entries : ∀ {list : List (List (Char ⊕ Node))},
    (∀ stretch ∈ list, stretch ≠ [] ∧ ∀ node ∈ embeddedIn stretch, node.isInlined = false) →
    List.Forall₂ Entry.StemsFrom ((list.map piecesOf).filterMap entryOf) list
  | [], _ => .nil
  | stretch :: rest, h => by
    have ih := stemsFrom_entries fun other hother => h other (List.mem_cons_of_mem _ hother)
    obtain ⟨hne, hplain⟩ := h stretch (List.mem_cons_self ..)
    rw [List.map_cons]
    rcases entryOf_stretch hne hplain with
        ⟨node, test, value, rfl, hstanding, hentry⟩ | ⟨entry, hentry, hconditional, hitems, -⟩
    · rw [List.filterMap_cons_some hentry]
      exact .cons (.exchanged hstanding) ih
    · rw [List.filterMap_cons_some hentry]
      exact .cons (.kept hconditional (hitems ▸ made_bareStretch stretch)) ih

theorem embedded_made {a : List (Char ⊕ Written)} {b : List (Char ⊕ Node)}
    (h : List.Forall₂ (Sum.LiftRel (· = ·) Made) a b) :
    List.Forall₂ Made (embeddedIn a) (embeddedIn b) := by
  induction h with
  | nil => exact .nil
  | cons hplace _ ih =>
    cases hplace with
    | inl heq => exact ih
    | inr hmade => exact .cons hmade ih

theorem pieces_spaced (wanted : Bool) : (spaced wanted).flatMap Item.pieces = (space wanted).map .inl := by
  cases wanted <;> rfl

theorem made_itemsOf {list : List Entry} {stretches : List (List (Char ⊕ Node))}
    (h : List.Forall₂ Entry.StemsFrom list stretches) :
    ∀ first behindConditional,
    List.Forall₂ Made (embeddedIn ((itemsOf first behindConditional list).flatMap Item.pieces))
      (stretches.flatMap embeddedIn) := by
  induction h with
  | nil => exact fun _ _ => .nil
  | cons hstems _ ih =>
    intro first behindConditional
    cases hstems with
    | exchanged standing =>
      rw [itemsOf]
      refine .cons ?_ (ih false true)
      split
      · exact .exchanged standing _ _
      · exact .exchanged standing _ _
    | kept hconditional made =>
      rw [itemsOf_cons hconditional, List.flatMap_append, List.flatMap_append,
        pieces_spaced, embeddedIn_append, embeddedIn_append, embeddedIn_chars,
        List.nil_append, List.flatMap_cons]
      exact List.rel_append (embedded_made made) (ih false false)

/-- The characters that are written are no heavier than those of the stretches. -/
theorem tally_itemsOf_le {list : List Entry} {stretches : List (List (Char ⊕ Node))}
    (h : List.Forall₂ Entry.StemsFrom list stretches) : ∀ first behindConditional,
    tally (fun _ => 0) ((itemsOf first behindConditional list).flatMap Item.pieces) ≤
      (stretches.map (tally fun _ => 0)).sum := by
  induction h with
  | nil => exact fun _ _ => Nat.le_refl _
  | @cons entry stretch rest more hstems _ ih =>
    intro first behindConditional
    cases hstems with
    | exchanged standing =>
      rw [itemsOf, List.flatMap_cons, tally_append, List.map_cons, List.sum_cons]
      exact Nat.add_le_add (Nat.le_refl 1) (ih false true)
    | kept hconditional made =>
      have ih := ih false false
      have hspace : ∀ wanted, heft (space wanted) = 0 := by decide
      have hentry : tally (fun _ => 0) (entry.items.flatMap Item.pieces) ≤ tally (fun _ => 0) stretch :=
        tally_le_of_forall₂ (fun _ _ _ => Nat.le_refl 0) made
      rw [itemsOf_cons hconditional, List.flatMap_append, List.flatMap_append,
        tally_append, tally_append, pieces_spaced, tally_chars, hspace, List.map_cons, List.sum_cons]
      omega

/-! ## As heavy as what stands there -/

theorem eq_of_sum_le : ∀ {a b : List Nat}, List.Forall₂ (· ≤ ·) a b → b.sum ≤ a.sum → a = b
  | _, _, .nil, _ => rfl
  | x :: a, y :: b, .cons hxy hrest, h => by
    have hle : a.sum ≤ b.sum := hrest.sum_le_sum
    rw [List.sum_cons, List.sum_cons] at h
    obtain rfl : x = y := by omega
    rw [eq_of_sum_le hrest (by omega)]

theorem forall₂_trans {α β γ : Type} {R : α → β → Prop} {S : β → γ → Prop}
    {T : α → γ → Prop} (htrans : ∀ x y z, R x y → S y z → T x z) :
    ∀ {a : List α} {b : List β} {c : List γ}, List.Forall₂ R a b → List.Forall₂ S b c → List.Forall₂ T a c
  | _, _, _, .nil, .nil => .nil
  | _, _, _, .cons hxy hab, .cons hyz hbc => .cons (htrans _ _ _ hxy hyz) (forall₂_trans htrans hab hbc)

def writtenFor (chunks : List Chunk) (inner : List Node) : List (Char ⊕ Written) :=
  (itemsOf true false (entries chunks inner)).flatMap Item.pieces

section
variable {chunks : List Chunk} {span : Span} {inner : List Node}

theorem stemsFrom_of_plain (h : chunks.length = inner.length + 1)
    (hplain : ∀ node ∈ inner, node.isInlined = false) :
    List.Forall₂ Entry.StemsFrom (entries chunks inner) (stretches (weave chunks inner)) := by
  rw [entries, classes_eq_stretches h]
  refine stemsFrom_entries fun stretch hstretch =>
    ⟨(solid_of_mem_stretches hstretch).1, fun node hnode => hplain node ?_⟩
  rw [← embeddedIn_weave h, mem_embeddedIn]
  exact mem_of_mem_stretches hstretch (mem_embeddedIn.1 hnode)

theorem made_of_plain (h : chunks.length = inner.length + 1)
    (hplain : ∀ node ∈ inner, node.isInlined = false) :
    List.Forall₂ Made (embeddedIn (writtenFor chunks inner)) inner := by
  have hmade := made_itemsOf (stemsFrom_of_plain h hplain) true false
  rwa [embeddedIn_stretches, embeddedIn_weave h] at hmade

theorem isInked_of_plain (h : chunks.length = inner.length + 1)
    (hplain : ∀ node ∈ inner, node.isInlined = false) :
    IsInked pass (itemsOf true false (entries chunks inner)) := by
  refine isInked_itemsOf (fun entry hentry => ?_) true false
  obtain ⟨pieces, hpieces, hof⟩ := List.mem_filterMap.1 hentry
  rw [classes_eq_stretches h] at hpieces
  obtain ⟨stretch, hstretch, rfl⟩ := List.mem_map.1 hpieces
  refine isInked_entry (fun node hnode => hplain node ?_) hof
  rw [← embeddedIn_weave h, mem_embeddedIn]
  exact mem_of_mem_stretches hstretch (mem_embeddedIn.1 hnode)

theorem plain_of_settled (h : (Node.mk (.template chunks) span inner).LaidOut pass)
    (hsettled : render (parts pass chunks inner) = pass.textAt span) :
    ∀ node ∈ inner, node.isInlined = false := by
  intro node hnode
  have hlength := h.length_of_template
  rw [← embeddedIn_weave hlength, ← embeddedIn_stretches, List.mem_flatMap] at hnode
  obtain ⟨stretch, hstretch, hnode⟩ := hnode
  have hclass : piecesOf stretch ∈ classes chunks inner := by
    rw [classes_eq_stretches hlength]
    exact List.mem_map_of_mem hstretch
  have hrelief := relief_eq_zero h hsettled hclass
  unfold relief at hrelief
  split at hrelief
  · rename_i other hpieces
    rw [piecesOf_eq_embedded.1 hpieces] at hnode
    cases List.mem_singleton.1 hnode
    cases hinlined : node.isInlined with
    | false => rfl
    | true => rw [hinlined] at hrelief; cases hrelief
  · rw [intake, places_piecesOf] at hrelief
    exact Bool.eq_false_iff.2 (List.countP_eq_zero.1 hrelief node hnode)

/-- What stands in the braces of a template that is written as it is was written there. -/
theorem weave_holes_eq (h : (Node.mk (.template chunks) span inner).LaidOut pass)
    (hsettled : render (parts pass chunks inner) = pass.textAt span) :
    ∃ holes, List.Forall₂ (fun node hole => node.LaidOut pass ∧ pass.Fills hole node) inner holes ∧
      weave chunks holes = (writtenFor chunks inner).map (Sum.map id (Written.text pass)) := by
  have hlength := h.length_of_template
  have hplain := plain_of_settled h hsettled
  obtain ⟨front, body, holes, hfront, htext, hbraided, hholes⟩ := h.of_template
  obtain ⟨-, -, hbody⟩ := eq_of_settled (hsettled.trans htext) hfront
  have hsealed : ∀ hole ∈ holes, Sealed hole := fun _ => Node.LaidOut.sealed_of_forall₂ hholes
  have hmade := made_of_plain hlength hplain
  have hwithin : List.Forall₂ (fun value hole => Within (bulk hole) (value.text pass))
    (embeddedIn (writtenFor chunks inner)) holes :=
    forall₂_trans
      (fun _ _ _ hmade hhole => (hmade.within hhole.1).mono (hhole.2.sealed hhole.1.sealed).2) hmade hholes
  have hsources : embeddedIn ((writtenFor chunks inner).map (Sum.map id (Written.text pass))) =
      (embeddedIn (writtenFor chunks inner)).map (Written.text pass) := embeddedIn_map _ _
  have hwritten : ∀ source ∈ embeddedIn ((writtenFor chunks inner).map (Sum.map id (Written.text pass))),
    Sealed source := by
    rw [hsources]
    intro source hsource
    obtain ⟨value, hvalue, rfl⟩ := List.mem_map.1 hsource
    obtain ⟨hole, -, hle⟩ := exists_of_forall₂ hwithin.flip hvalue
    exact hle.1
  obtain ⟨inside, rfl, -, hinside⟩ := hbraided.exists_inside hsealed
  have hinked : inside = inked ((writtenFor chunks inner).map (Sum.map id (Written.text pass))) :=
    (List.append_cancel_right hbody).trans (isInked_of_plain hlength hplain)
  -- Nothing that is written is heavier than what stands there, so nothing is lighter.
  have hchars : tally (fun _ => 0) (writtenFor chunks inner) ≤ tally (fun _ => 0) (weave chunks holes) :=
    (tally_itemsOf_le (stemsFrom_of_plain hlength hplain) true false).trans
      <| (tally_stretches_le _ _).trans <|
      tally_le_of_forall₂ (fun _ _ _ => Nat.le_refl 0) (weave_forall₂ chunks hholes)
  have hcharsOf : tally (fun _ => 0) ((writtenFor chunks inner).map (Sum.map id (Written.text pass))) =
      tally (fun _ => 0) (writtenFor chunks inner) := tally_map _ _ _
  have hsum : (holes.map bulk).sum ≤
    ((embeddedIn (writtenFor chunks inner)).map fun value => bulk (value.text pass)).sum := by
    rw [hinked, (sealed_inked hwritten).2, tally_eq, tally_eq bulk (_ : List (Char ⊕ Text)),
      embeddedIn_weave hbraided.length_eq, hcharsOf, hsources, List.map_map] at hinside
    have hsame : bulk ∘ Written.text pass = fun value => bulk (value.text pass) := rfl
    rw [hsame] at hinside
    omega
  have hle : List.Forall₂ (· ≤ ·) ((embeddedIn (writtenFor chunks inner)).map fun value =>
    bulk (value.text pass)) (holes.map bulk) := by
    rw [List.forall₂_map_left_iff, List.forall₂_map_right_iff]
    exact hwithin.imp fun _ _ hvalue => hvalue.2
  refine ⟨holes, hholes, hbraided.weave_eq (by rw [hinked]) hsealed hwritten ?_⟩
  rw [hsources, List.map_map]
  exact eq_of_sum_le hle hsum

end

end ClassWeave
