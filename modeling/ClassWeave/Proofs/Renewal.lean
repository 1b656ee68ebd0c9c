import ClassWeave.Proofs.Outlines
import ClassWeave.Proofs.Weighing
/-!
# Templates with nothing to take in

A template whose expressions are neither constant nor templates is written anew once: then its
classes are conditionals no more, or there is a single one, whose value has lost a layer around it;
otherwise writing it anew again changes nothing.
-/

namespace ClassWeave

/-! ## Stretches of expressions that cannot be taken in -/

/-- The stretch that a stretch is written as: without parentheses around its expressions, unless it
is one of them alone. -/
def bareStretch : List (Char ⊕ Node) → List (Char ⊕ Node)
  | [.inr node] => [.inr node]
  | stretch => stretch.map (Sum.map id Node.unparenthesized)

def Entry.items : Entry → List Item
  | .text words => [.shown words]
  | .splice items => items
  | .embed node => [.hole (.copied false node)]
  | .conditional _ _ => []

theorem itemsOf_cons {entry : Entry} (h : entry.isConditional = false)
    (first behindConditional : Bool) (rest : List Entry) :
    itemsOf first behindConditional (entry :: rest) =
      spaced (!(first || behindConditional)) ++ entry.items ++ itemsOf false false rest := by
  cases entry with
  | text words => rw [itemsOf, Entry.items, List.append_assoc]; rfl
  | splice items => rw [itemsOf, Entry.items]
  | embed node => rw [itemsOf, Entry.items, List.append_assoc]; rfl
  | conditional test value => cases h

section
variable {stretch : List (Char ⊕ Node)}

theorem bareStretch_cases (stretch : List (Char ⊕ Node)) :
    (∃ node, stretch = [.inr node] ∧ bareStretch stretch = [.inr node]) ∨
    (∀ node, stretch ≠ [.inr node]) ∧
    bareStretch stretch = stretch.map (Sum.map id Node.unparenthesized) := by
  by_cases h : ∃ node, stretch = [.inr node]
  · obtain ⟨node, rfl⟩ := h
    exact .inl ⟨node, rfl, rfl⟩
  · rw [not_exists] at h
    exact .inr ⟨h, bareStretch.eq_2 stretch fun node heq => h node heq⟩

theorem bareStretch_eq_one {node : Node} (h : bareStretch stretch = [.inr node]) : stretch = [.inr node] := by
  rcases bareStretch_cases stretch with ⟨node', hstretch, hbare⟩ | ⟨hne, hbare⟩
  · rw [hstretch, ← hbare, h]
  · rw [hbare] at h
    obtain ⟨place, rfl, hplace⟩ := List.map_eq_singleton_iff.1 h
    cases place with
    | inl c => cases hplace
    | inr other => exact absurd rfl (hne other)

theorem solid_bareStretch (hsolid : ∀ place ∈ stretch, isGap place = false) :
    ∀ place ∈ bareStretch stretch, isGap place = false := by
  rcases bareStretch_cases stretch with ⟨node, hstretch, hbare⟩ | ⟨-, hbare⟩
  · rw [hbare, ← hstretch]
    exact hsolid
  · rw [hbare]
    intro place hplace
    obtain ⟨other, hother, rfl⟩ := List.mem_map.1 hplace
    rw [isGap_map]
    exact hsolid other hother

theorem bareStretch_ne_nil (hne : stretch ≠ []) : bareStretch stretch ≠ [] := by
  rcases bareStretch_cases stretch with ⟨node, -, hbare⟩ | ⟨-, hbare⟩
  · rw [hbare]
    exact List.cons_ne_nil _ _
  · rw [hbare]
    simpa using hne

theorem pieces_item {node : Node} (h : node.isInlined = false) :
    (Piece.embedded node).item.pieces = [.inr (.copied false node.unparenthesized)] := by
  rw [Piece.item]
  rcases Node.standing_of_not_isInlined h with ⟨test, value, hstanding⟩ | hstanding
  · rw [hstanding]
    rfl
  · rw [hstanding]
    rfl

theorem pieces_items : ∀ {pieces : List (Piece Node)},
    (∀ node ∈ embeddedIn (pieces.flatMap Piece.places), node.isInlined = false) →
    (pieces.map Piece.item).flatMap Item.pieces =
      (pieces.flatMap Piece.places).map (Sum.map id fun node => .copied false node.unparenthesized)
  | [], _ => rfl
  | piece :: rest, h => by
    rw [List.flatMap_cons, embeddedIn_append] at h
    have ih := pieces_items fun node hnode => h node (List.mem_append_right _ hnode)
    rw [List.map_cons, List.flatMap_cons, ih, List.flatMap_cons, List.map_append]
    congr 1
    cases piece with
    | text word => simp [Piece.item, Item.pieces, Piece.places]
    | embedded node => exact pieces_item (h node (List.mem_append_left _ (List.mem_singleton_self node)))

theorem mapM_eq_none {α β : Type} {f : α → Option β} {a : α} (ha : f a = none) :
    ∀ {list : List α}, a ∈ list → list.mapM f = none
  | b :: rest, h => by
    rw [List.mapM_cons]
    rcases List.mem_cons.1 h with rfl | h
    · rw [ha]
      rfl
    · rw [mapM_eq_none ha h]
      cases f b <;> rfl

theorem gluedEntry_of_embedded {pieces : List (Piece Node)} {node : Node} (hnode : .embedded node ∈ pieces)
    (hinlined : node.isInlined = false) : gluedEntry pieces = some (.splice (pieces.map Piece.item)) := by
  have hconstant : (Piece.embedded node).constant? = none := by
    show node.constantText? = none
    rw [Option.eq_none_iff_forall_ne_some]
    intro text htext
    rw [Node.isInlined_of_constantText? htext] at hinlined
    cases hinlined
  unfold gluedEntry
  rw [mapM_eq_none hconstant hnode]

theorem entryOf_stretch (hne : stretch ≠ []) (h : ∀ node ∈ embeddedIn stretch, node.isInlined = false) :
    (∃ node test value, stretch = [.inr node] ∧ node.standing = .conditional test value ∧
        entryOf (piecesOf stretch) = some (.conditional test value)) ∨
      ∃ entry, entryOf (piecesOf stretch) = some entry ∧ entry.isConditional = false ∧
        entry.items.flatMap Item.pieces = (bareStretch stretch).map (Sum.map id (.copied false)) ∧
        ∀ node, stretch = [.inr node] → node.standing = .other := by
  rcases bareStretch_cases stretch with ⟨node, rfl, hbare⟩ | ⟨hnot, hbare⟩
  · rcases Node.standing_of_not_isInlined (h node (List.mem_singleton_self node)) with
        ⟨test, value, hstanding⟩ | hstanding
    · refine .inl ⟨node, test, value, rfl, hstanding, ?_⟩
      show node.standing.entry? node = _
      rw [hstanding]
      rfl
    · refine .inr ⟨.embed node, ?_, rfl, by
        rw [hbare]; rfl, fun other hother => by cases hother; exact hstanding⟩
      show node.standing.entry? node = _
      rw [hstanding]
      rfl
  · right
    rw [hbare, List.map_map]
    cases hembedded : embeddedIn stretch with
    | nil =>
      obtain ⟨text, rfl⟩ := eq_chars_of_embeddedIn hembedded
      have htext : text ≠ [] := by simpa using hne
      have hpieces : piecesOf (text.map (Sum.inl (β := Node))) = [.text text] := by
        have hword := @piecesOf_word Node [] (by simp) text htext
        rwa [List.append_nil] at hword
      exact ⟨.text text, by rw [hpieces]; rfl, rfl, by
        simp [Entry.items, Item.pieces], fun node hnode => absurd hnode (hnot node)⟩
    | cons node others =>
      -- With an expression that is not constant in it, and not alone, the stretch is spliced in.
      have hnode : node ∈ embeddedIn ((piecesOf stretch).flatMap Piece.places) := by
        rw [places_piecesOf, hembedded]
        exact List.mem_cons_self
      have hpiece : .embedded node ∈ piecesOf stretch := by
        obtain ⟨piece, hpiece, hplace⟩ := List.mem_flatMap.1 (mem_embeddedIn.1 hnode)
        cases piece with
        | text word => simp [Piece.places] at hplace
        | embedded other =>
          cases List.mem_singleton.1 hplace
          exact hpiece
      have hglued : entryOf (piecesOf stretch) = some (.splice ((piecesOf stretch).map Piece.item)) := by
        rw [← gluedEntry_of_embedded hpiece (h node (hembedded ▸ List.mem_cons_self))]
        rcases hpieces : piecesOf stretch with - | ⟨first, - | ⟨second, rest⟩⟩
        · rw [hpieces] at hpiece
          cases hpiece
        · rw [hpieces] at hpiece
          cases List.mem_singleton.1 hpiece
          exact absurd (piecesOf_eq_embedded.1 hpieces) (hnot node)
        · cases first <;> rfl
      refine ⟨_, hglued, rfl, ?_, fun other hother => absurd hother (hnot other)⟩
      rw [Entry.items, pieces_items (by rwa [places_piecesOf]), places_piecesOf]
      congr 1
      funext place
      cases place <;> rfl

end

/-! ## Conditionals that are classes of their own -/

def loneStrain : List (Piece Node) → Nat
  | [.embedded node] => node.strain
  | _ => 0

/-- What can still be done to the classes of a template. -/
def strainOf (chunks : List Chunk) (inner : List Node) : Nat := ((classes chunks inner).map loneStrain).sum

def Written.Unstrained : Written → Prop
  | .copied false node => node.strain = 0
  | _ => False

structure UnstrainedStretch (stretch : List (Char ⊕ Written)) : Prop where
  ne_nil : stretch ≠ []
  solid : ∀ place ∈ stretch, isGap place = false
  unstrained : ∀ value, stretch = [.inr value] → value.Unstrained

theorem unstrained_itemsOf :
    ∀ {list : List Entry} {first behindConditional : Bool} {before : List (Char ⊕ Written)},
    (∀ entry ∈ list, entry.isConditional = false → UnstrainedStretch (entry.items.flatMap Item.pieces)) →
    (∀ place ∈ before, isGap place = false) → first = before.isEmpty →
    (∀ value, before = [.inr value] → value.Unstrained ∨ behindConditional = true ∧ list ≠ []) →
    (before = [] → ∀ test value, list ≠ [.conditional test value]) → ∀ value,
    [.inr value] ∈ stretches (before ++ (itemsOf first behindConditional list).flatMap Item.pieces) →
    value.Unstrained
  | [], first, behindConditional, before, _, hsolid, _, hlone, _, value, hvalue => by
    rw [itemsOf, List.flatMap_nil, List.append_nil] at hvalue
    by_cases hbefore : before = []
    · rw [hbefore] at hvalue
      cases hvalue
    · rw [stretches_of_solid hbefore hsolid] at hvalue
      exact (hlone value (List.mem_singleton.1 hvalue).symm).resolve_right fun h => h.2 rfl
  | entry :: rest, first, behindConditional, before, hlist, hsolid, hfirst, hlone, hsole, value, hvalue => by
    have hrest := fun other hother => hlist other (List.mem_cons_of_mem _ hother)
    cases hconditional : entry.isConditional with
    | true =>
      cases entry with
      | conditional test found =>
        rw [itemsOf] at hvalue
        generalize (if rest.all Entry.isConditional then writtenConditional test found (!first) false
          else writtenConditional test found (!(first || behindConditional)) true) = segment at hvalue
        have hmore : ∀ place ∈ before ++ [.inr segment], isGap place = false := by
          intro place hplace
          rcases List.mem_append.1 hplace with hplace | hplace
          · exact hsolid place hplace
          · cases List.mem_singleton.1 hplace
            rfl
        refine @unstrained_itemsOf rest false true (before ++ [.inr segment]) hrest hmore (by simp)
          (fun other hother => .inr ⟨rfl, ?_⟩) (by simp) value
          ((List.append_assoc before [.inr segment] _).symm ▸ hvalue)
        -- A conditional in front of everything is not alone, so the next element follows it at once.
        have hbefore : before = [] := by
          cases before with
          | nil => rfl
          | cons place others => simp at hother
        rintro rfl
        exact hsole hbefore test found rfl
      | _ => cases hconditional
    | false =>
      have hentry := hlist entry (List.mem_cons_self ..) hconditional
      rw [itemsOf_cons hconditional, List.flatMap_append, List.flatMap_append] at hvalue
      have halone : ∀ other, entry.items.flatMap Item.pieces = [.inr other] →
          other.Unstrained ∨ false = true ∧ rest ≠ [] :=
        fun other hother => .inl (hentry.unstrained other hother)
      have hempty : false = (entry.items.flatMap Item.pieces).isEmpty := by simpa using hentry.ne_nil
      cases hseparated : !(first || behindConditional) with
      | true =>
        rw [hseparated] at hvalue
        have hspace : (spaced true).flatMap Item.pieces = [.inl ' '] := rfl
        have hgap : isGap (.inl ' ' : Char ⊕ Written) = true := Text.isBlank_space
        have hbehind : first = false ∧ behindConditional = false := by simpa using hseparated
        have hbefore : before ≠ [] := by
          rintro rfl
          rw [hfirst] at hbehind
          cases hbehind.1
        rw [hspace, List.append_assoc, List.singleton_append,
          stretches_append_gap hbefore hsolid hgap] at hvalue
        rcases List.mem_cons.1 hvalue with heq | hvalue
        · refine (hlone value heq.symm).resolve_right fun h => ?_
          rw [hbehind.2] at h
          cases h.1
        · exact unstrained_itemsOf hrest hentry.solid hempty halone
            (fun hnil => absurd hnil hentry.ne_nil) value hvalue
      | false =>
        rw [hseparated] at hvalue
        have hspace : (spaced false).flatMap Item.pieces = [] := rfl
        rw [hspace, List.nil_append, ← List.append_assoc] at hvalue
        have hmore : ∀ place ∈ before ++ entry.items.flatMap Item.pieces, isGap place = false := by
          intro place hplace
          rcases List.mem_append.1 hplace with hplace | hplace
          · exact hsolid place hplace
          · exact hentry.solid place hplace
        have hne : before ++ entry.items.flatMap Item.pieces ≠ [] :=
          List.append_ne_nil_of_right_ne_nil _ hentry.ne_nil
        refine unstrained_itemsOf hrest hmore (by simpa using fun _ => hentry.ne_nil)
          (fun other hother => .inl ?_) (fun hnil => absurd hnil hne) value hvalue
        rcases List.append_eq_singleton_iff.1 hother with ⟨-, hother⟩ | ⟨-, hother⟩
        · exact hentry.unstrained other hother
        · exact absurd hother hentry.ne_nil

theorem stretches_itemsOf : ∀ {list : List Entry} {first : Bool},
    (∀ entry ∈ list, entry.isConditional = false ∧ UnstrainedStretch (entry.items.flatMap Item.pieces)) →
    stretches ((itemsOf first false list).flatMap Item.pieces) = list.map fun entry =>
      entry.items.flatMap Item.pieces
  | [], _, _ => rfl
  | entry :: rest, first, hlist => by
    have hrest := fun other hother => hlist other (List.mem_cons_of_mem _ hother)
    obtain ⟨hconditional, hentry⟩ := hlist entry (List.mem_cons_self ..)
    have ih := @stretches_itemsOf rest false hrest
    have hgap : isGap (.inl ' ' : Char ⊕ Written) = true := Text.isBlank_space
    have hbehind :
        stretches (entry.items.flatMap Item.pieces ++ (itemsOf false false rest).flatMap Item.pieces) =
          entry.items.flatMap Item.pieces :: stretches ((itemsOf false false rest).flatMap Item.pieces) := by
      cases rest with
      | nil =>
        rw [itemsOf, List.flatMap_nil, List.append_nil]
        exact stretches_of_solid hentry.ne_nil hentry.solid
      | cons next others =>
        have hspaced : (itemsOf false false (next :: others)).flatMap Item.pieces =
            .inl ' ' :: (next.items ++ itemsOf false false others).flatMap Item.pieces := by
          rw [itemsOf_cons (hrest next (List.mem_cons_self ..)).1, List.append_assoc, List.flatMap_append]
          rfl
        rw [hspaced, stretches_append_gap hentry.ne_nil hentry.solid hgap, stretches_gap hgap]
    rw [itemsOf_cons hconditional, List.append_assoc, List.flatMap_append,
      List.flatMap_append, List.map_cons, ← ih, ← hbehind]
    cases first with
    | true => rfl
    | false => exact stretches_gap hgap _

/-! ## What is found where a template was written -/

section
variable (pass other : Pass)

def Written.Spells : Written → Node → Prop
  | .choice enclosed test _ _, found => ∀ three ∈ found.choice?,
    other.textAt three.1.span = (Written.copied enclosed test).text pass
  | _, _ => True

instance : (value : Written) → (found : Node) → Decidable (value.Spells pass other found)
  | .choice enclosed test _ _, found => inferInstanceAs (Decidable (∀ three ∈ found.choice?,
    other.textAt three.1.span = (Written.copied enclosed test).text pass))
  | .copied _ _, _ | .quoted _, _ | .led _, _ | .trailed _, _ | .listed _, _ => .isTrue trivial

def Draft.Spells : Draft → Node → Prop
  | .quoted _, _ => True
  | .template items, found => ∀ parts ∈ found.template?,
    List.Forall₂ (Sum.LiftRel (fun _ _ => True) (Written.Spells pass other))
      (items.flatMap Item.pieces) (weave parts.1 parts.2)

instance : (draft : Draft) → (found : Node) → Decidable (draft.Spells pass other found)
  | .quoted _, _ => .isTrue trivial
  | .template items, found => inferInstanceAs (Decidable (∀ parts ∈ found.template?, List.Forall₂
    (Sum.LiftRel (fun _ _ => True) (Written.Spells pass other))
    (items.flatMap Item.pieces) (weave parts.1 parts.2)))

structure Draft.Recurs (draft : Draft) (found : Node) : Prop where
  reads : draft.Reads pass other found
  textAt_eq : other.textAt found.span = draft.text pass
  spells : draft.Spells pass other found

instance (draft : Draft) (found : Node) : Decidable (draft.Recurs pass other found) :=
  decidable_of_iff (draft.Reads pass other found ∧ other.textAt found.span = draft.text pass ∧
    draft.Spells pass other found) ⟨fun h => ⟨h.1, h.2.1, h.2.2⟩, fun h => ⟨h.reads, h.textAt_eq, h.spells⟩⟩

def unsettled (pass : Pass) (chunks : List Chunk) (span : Span) (inner : List Node) : Bool :=
  render (parts pass chunks inner) != pass.textAt span

end

section
variable {pass other : Pass}

theorem addPiece_unparenthesized (glued : Glued) (piece : Piece Node) :
    glued.addPiece pass (piece.map Node.unparenthesized) = glued.addPiece pass piece := by
  cases piece with
  | text word => rfl
  | embedded node =>
    show glued.addPiece pass (.embedded node.unparenthesized) = _
    rw [Glued.addPiece, Glued.addPiece, Node.constantText?, Node.constantText?, node.unparenthesized_idem]

theorem partOf_bareStretch (stretch : List (Char ⊕ Node)) :
    partOf pass (piecesOf (bareStretch stretch)) = partOf pass (piecesOf stretch) := by
  rcases bareStretch_cases stretch with ⟨node, hstretch, hbare⟩ | ⟨hnot, hbare⟩
  · rw [hbare, hstretch]
  · rw [hbare, piecesOf_map]
    have hglued : gluedPart pass ((piecesOf stretch).map (Piece.map Node.unparenthesized)) =
      gluedPart pass (piecesOf stretch) := by
      unfold gluedPart
      rw [List.foldl_map]
      simp only [addPiece_unparenthesized]
    match hpieces : piecesOf stretch, hglued with
    | [], hglued => exact hglued
    | [.text word], _ => rfl
    | [.embedded node], _ => exact absurd (piecesOf_eq_embedded.1 hpieces) (hnot node)
    | .text word :: second :: rest, hglued => exact hglued
    | .embedded node :: second :: rest, hglued => exact hglued

theorem partOf_of_readsAll {stretch : List (Char ⊕ Node)} {found : List (Char ⊕ Node)}
    (h : ReadsAll pass other ((bareStretch stretch).map (Sum.map id (.copied false))) found) :
    partOf other (piecesOf found) = partOf pass (piecesOf stretch) := by
  have halike : List.Forall₂ (Sum.LiftRel (· = ·) (Node.Alike pass other)) (bareStretch stretch) found := by
    unfold ReadsAll at h
    rw [List.forall₂_map_left_iff] at h
    refine h.imp fun place place' hplace => ?_
    cases place with
    | inl c => cases hplace with | inl heq => exact .inl heq
    | inr node => cases hplace with | inr hreads => exact .inr hreads
  obtain ⟨pairs, hpairs, hbare, rfl⟩ := exists_pairs halike
  rw [← partOf_bareStretch stretch, hbare, piecesOf_map, piecesOf_map]
  refine (partOf_alike fun pair hpair => hpairs pair ?_).symm
  rw [← places_piecesOf pairs, List.mem_flatMap]
  exact ⟨_, hpair, List.mem_singleton_self _⟩

theorem filterMap_eq_of_forall₂ {α β γ : Type} {R : α → β → Prop}
    {f : α → Option γ} {g : β → Option γ} {a : List α} {b : List β}
    (h : List.Forall₂ R a b) (heq : ∀ x y, R x y → f x = g y) : a.filterMap f = b.filterMap g := by
  induction h with
  | nil => rfl
  | cons hxy _ ih => rw [List.filterMap_cons, List.filterMap_cons, ih, heq _ _ hxy]

variable {chunks chunks' : List Chunk} {inner inner' : List Node} (hfits : chunks.length = inner.length + 1)
  (hplain : ∀ node ∈ inner, node.isInlined = false)
include hfits hplain

theorem entryOf_of_plain {stretch : List (Char ⊕ Node)} (h : stretch ∈ stretches (weave chunks inner)) :
    (∃ node test value, stretch = [.inr node] ∧ node.standing = .conditional test value ∧
        entryOf (piecesOf stretch) = some (.conditional test value)) ∨
      ∃ entry, entryOf (piecesOf stretch) = some entry ∧ entry.isConditional = false ∧
        entry.items.flatMap Item.pieces = (bareStretch stretch).map (Sum.map id (.copied false)) ∧
        ∀ node, stretch = [.inr node] → node.standing = .other :=
  entryOf_stretch (solid_of_mem_stretches h).1 fun node hnode => hplain node <| by
    rw [← embeddedIn_weave hfits, mem_embeddedIn]
    exact mem_of_mem_stretches h (mem_embeddedIn.1 hnode)

theorem unstrained_of_mem_entries {entry : Entry} (hentry : entry ∈ entries chunks inner)
    (hconditional : entry.isConditional = false) : UnstrainedStretch (entry.items.flatMap Item.pieces) := by
  obtain ⟨pieces, hpieces, hof⟩ := List.mem_filterMap.1 hentry
  rw [classes_eq_stretches hfits] at hpieces
  obtain ⟨stretch, hstretch, rfl⟩ := List.mem_map.1 hpieces
  obtain ⟨hne, hsolid⟩ := solid_of_mem_stretches hstretch
  rcases entryOf_of_plain hfits hplain hstretch with
      ⟨node, test, value, -, -, hfound⟩ | ⟨found, hfound, -, hitems, hother⟩
  · rw [hof] at hfound
    cases hfound
    cases hconditional
  · rw [hof] at hfound
    cases hfound
    rw [hitems]
    refine ⟨by simpa using bareStretch_ne_nil hne, fun place hplace => ?_, fun value hvalue => ?_⟩
    · obtain ⟨bare, hbare, rfl⟩ := List.mem_map.1 hplace
      rw [isGap_map]
      exact solid_bareStretch hsolid bare hbare
    · obtain ⟨place, hplace, heq⟩ := List.map_eq_singleton_iff.1 hvalue
      cases place with
      | inl c => cases heq
      | inr node =>
        cases heq
        exact Node.strain_of_other (hother node (bareStretch_eq_one hplace))

theorem strain_le_strainOf {test value : Node} (h : .conditional test value ∈ entries chunks inner) :
    value.unpadded.layers + 1 ≤ strainOf chunks inner := by
  obtain ⟨pieces, hpieces, hof⟩ := List.mem_filterMap.1 h
  have hlone : loneStrain pieces = value.unpadded.layers + 1 := by
    rw [classes_eq_stretches hfits] at hpieces
    obtain ⟨stretch, hstretch, rfl⟩ := List.mem_map.1 hpieces
    rcases entryOf_of_plain hfits hplain hstretch with
        ⟨node, test', value', rfl, hstanding, hfound⟩ | ⟨found, hfound, hnot, -⟩
    · rw [hof] at hfound
      cases hfound
      exact Node.strain_of_conditional hstanding
    · rw [hof] at hfound
      cases hfound
      cases hnot
  rw [← hlone]
  exact List.le_sum_of_mem (List.mem_map_of_mem hpieces)

variable (hfits' : chunks'.length = inner'.length + 1)
  (hreads : ReadsAll pass other ((itemsOf true false (entries chunks inner)).flatMap Item.pieces)
    (weave chunks' inner'))
include hfits' hreads

theorem strainOf_eq_zero (hsole : ∀ test value, entries chunks inner ≠ [.conditional test value]) :
    strainOf chunks' inner' = 0 := by
  refine List.sum_eq_zero fun strain hstrain => ?_
  obtain ⟨pieces, hpieces, rfl⟩ := List.mem_map.1 hstrain
  rw [classes_eq_stretches hfits'] at hpieces
  obtain ⟨found, hfound, rfl⟩ := List.mem_map.1 hpieces
  match hlone : piecesOf found with
  | [] | .text _ :: _ | .embedded _ :: _ :: _ => rfl
  | [.embedded node] =>
    obtain rfl := piecesOf_eq_embedded.1 hlone
    obtain ⟨written, hwritten, hread⟩ := exists_of_forall₂ (stretches_forall₂ hreads) hfound
    match written, hread with
    | [.inr value], .cons (.inr hvalue) .nil =>
      have hunstrained : value.Unstrained := @unstrained_itemsOf _ _ _ []
        (fun entry hentry => unstrained_of_mem_entries hfits hplain hentry)
        nofun rfl nofun (fun _ => hsole) value hwritten
      match value, hunstrained, hvalue with
      | .copied false source, hsource, halike =>
        show node.strain = 0
        rw [← Node.strain_of_outline (Node.Alike.outline halike)]
        exact hsource

theorem parts_eq_of_readsAll (hnone : ∀ entry ∈ entries chunks inner, entry.isConditional = false) :
    parts other chunks' inner' = parts pass chunks inner := by
  have hstretches : stretches ((itemsOf true false (entries chunks inner)).flatMap Item.pieces) =
      (stretches (weave chunks inner)).map fun stretch =>
        (bareStretch stretch).map (Sum.map id (.copied false)) := by
    rw [stretches_itemsOf fun entry hentry =>
      ⟨hnone entry hentry, unstrained_of_mem_entries hfits hplain hentry (hnone entry hentry)⟩]
    unfold entries at hnone ⊢
    rw [classes_eq_stretches hfits] at hnone ⊢
    rw [List.filterMap_map, List.map_filterMap, ← List.filterMap_eq_map]
    refine List.filterMap_congr fun stretch hstretch => ?_
    rcases entryOf_of_plain hfits hplain hstretch with
        ⟨node, test, value, -, -, hfound⟩ | ⟨found, hfound, -, hitems, -⟩
    · have hentry := hnone _ (List.mem_filterMap.2 ⟨_, List.mem_map_of_mem hstretch, hfound⟩)
      cases hentry
    · rw [Function.comp_apply, hfound, Option.map_some, hitems]
      rfl
  have hall := stretches_forall₂ hreads
  rw [hstretches, List.forall₂_map_left_iff] at hall
  unfold parts
  rw [classes_eq_stretches hfits, classes_eq_stretches hfits', List.filterMap_map, List.filterMap_map]
  exact (filterMap_eq_of_forall₂ hall fun stretch found hfound => (partOf_of_readsAll hfound).symm).symm

end

/-! ## A single conditional -/

section
variable {pass other : Pass}

theorem testSource_of_copiedAs {test found : Node} (hcopied : test.CopiedAs pass other test.isLooseTest found)
    (htext : other.textAt found.span = (Written.copied test.isLooseTest test).text pass) :
    testSource other found = testSource pass test := by
  unfold Node.CopiedAs at hcopied
  cases hloose : test.isLooseTest with
  | true =>
    rw [hloose] at hcopied htext
    obtain ⟨inner, hinner, -⟩ := hcopied
    obtain ⟨span, rfl⟩ := Node.eq_of_enclosed? hinner
    unfold testSource
    rw [hloose, htext]
    rfl
  | false =>
    rw [hloose] at hcopied
    exact (testSource_alike hcopied).symm

theorem unpadded_of_copiedAs {enclosed : Bool} {node found : Node}
    (hcopied : node.CopiedAs pass other enclosed found) :
    node.unpadded.Alike pass other found.unpadded := by
  unfold Node.CopiedAs at hcopied
  split at hcopied
  · obtain ⟨inner, hinner, halike⟩ := hcopied
    obtain ⟨span, rfl⟩ := Node.eq_of_enclosed? hinner
    exact halike.unpadded
  · exact hcopied.unpadded

theorem layers_of_reads {test value found : Node}
    (hreads : (writtenConditional test value false false).Reads pass other found)
    (hspells : (writtenConditional test value false false).Spells pass other found) :
    ∃ test' value', found.standing = .conditional test' value' ∧
    (value'.unpadded.layers < value.unpadded.layers ∨
      value'.unpadded.layers ≤ value.unpadded.layers ∧
      conditionalPart other test' value' = conditionalPart pass test value) := by
  obtain ⟨three, hchoice, htest, hvalue, halternate⟩ := hreads
  have htext := hspells three hchoice
  obtain ⟨span, rfl⟩ := Node.eq_of_choice? hchoice
  obtain ⟨test', value', alternate⟩ := three
  obtain ⟨blank, rfl⟩ := Node.eq_of_string? halternate
  refine ⟨test', value', rfl, ?_⟩
  rw [conditionalPart_eq, conditionalPart_eq, testSource_of_copiedAs htest htext]
  cases hconstant : value.unpadded.constantText? with
  | some text =>
    rw [hconstant] at hvalue
    obtain ⟨place, rfl⟩ := Node.eq_of_string? hvalue
    refine .inr ⟨Nat.zero_le _, ?_⟩
    have hbranch :
        branchOf other (.mk (.literal (.string (space false ++ text.trim ++ space false))) place []) =
          .text (space false ++ text.trim ++ space false).trim := rfl
    rw [hbranch, branchOf, hconstant, space, if_neg Bool.false_ne_true,
      List.nil_append, List.append_nil, Text.trim_trim]
  | none =>
    rw [hconstant] at hvalue
    have halike := unpadded_of_copiedAs hvalue
    have hlayers : value'.unpadded.layers = value.unpadded.unpadded.layers := by
      rw [← Node.layers_outline, ← halike.outline, Node.layers_outline]
    -- Taking off what stands around the value once more takes off nothing, or a layer that was inside.
    rcases value.unpadded.layers_unpadded with hsame | hless
    · rw [hsame] at halike hlayers
      refine .inr ⟨Nat.le_of_eq hlayers, ?_⟩
      unfold branchOf
      rw [← halike.constantText?, hconstant, operandSource_alike halike]
    · exact .inl (hlayers ▸ hless)

variable {chunks chunks' : List Chunk} {inner inner' : List Node} {span' : Span}

theorem classes_of_sole {test value : Node} (hentries : entries chunks inner = [.conditional test value])
    (hfits' : chunks'.length = inner'.length + 1)
    (hreads : ReadsAll pass other ((itemsOf true false (entries chunks inner)).flatMap Item.pieces)
      (weave chunks' inner'))
    (hspells : List.Forall₂ (Sum.LiftRel (fun _ _ => True) (Written.Spells pass other))
      ((itemsOf true false (entries chunks inner)).flatMap Item.pieces) (weave chunks' inner')) :
    ∃ node, classes chunks' inner' = [[.embedded node]] ∧
    (writtenConditional test value false false).Reads pass other node ∧
      (writtenConditional test value false false).Spells pass other node := by
  have hitems : (itemsOf true false (entries chunks inner)).flatMap Item.pieces =
      [.inr (writtenConditional test value false false)] := by
    rw [hentries]
    rfl
  rw [hitems] at hreads hspells
  rw [classes_eq_stretches hfits']
  match weave chunks' inner', hreads, hspells with
  | [.inr node], .cons (.inr hread) .nil, .cons (.inr hspell) .nil =>
    refine ⟨node, ?_, hread, hspell⟩
    rw [stretches_of_solid (List.cons_ne_nil _ _) fun place hplace => by
      rw [List.mem_singleton.1 hplace]; rfl]
    rfl

/-- What can still be done to a template that has nothing to take in is less once it has been written anew. -/
theorem strainOf_of_recurs (hfits : chunks.length = inner.length + 1)
    (hplain : ∀ node ∈ inner, node.isInlined = false)
    (h : (draftOf chunks inner).Recurs pass other (.mk (.template chunks') span' inner')) :
    strainOf chunks' inner' + (unsettled other chunks' span' inner').toNat ≤ strainOf chunks inner := by
  have htext : other.textAt span' = render (parts pass chunks inner) :=
    h.textAt_eq.trans (text_draftOf pass chunks inner)
  have hreads := h.reads
  have hdraft : draftOf chunks inner = .template (itemsOf true false (entries chunks inner)) := by
    unfold draftOf at hreads ⊢
    split at hreads
    · cases hreads
    · rfl
  have hspells := h.spells
  rw [hdraft] at hreads hspells
  obtain ⟨⟨chunks'', inner''⟩, hparts, hfits', hall⟩ := hreads
  have hspelled := hspells _ hparts
  cases hparts
  -- A single conditional stays one, with a layer less or with nothing changed; of any others none
  -- is left as a class.
  by_cases hsole : ∃ test value, entries chunks inner = [.conditional test value]
  · obtain ⟨test, value, hentries⟩ := hsole
    have hentry : .conditional test value ∈ entries chunks inner := hentries ▸ List.mem_singleton_self _
    have hstrain := strain_le_strainOf hfits hplain hentry
    obtain ⟨node, hclasses, hread, hspell⟩ := classes_of_sole hentries hfits' hall hspelled
    obtain ⟨test', value', hstanding, hlayers⟩ := layers_of_reads hread hspell
    have hstrain' : strainOf chunks' inner' = value'.unpadded.layers + 1 := by
      rw [strainOf, hclasses, ← Node.strain_of_conditional hstanding]
      exact Nat.add_zero _
    have hparts : parts pass chunks inner = [conditionalPart pass test value] := by
      rw [parts_eq_entries, hentries]
      rfl
    have hparts' : parts other chunks' inner' = [conditionalPart other test' value'] := by
      have halone : partOf other [.embedded node] = some (conditionalPart other test' value') := by
        show aloneParts other node = _
        rw [aloneParts_eq, hstanding]
        rfl
      rw [parts, hclasses, List.filterMap_cons_some halone, List.filterMap_nil]
    rcases hlayers with hless | ⟨hle, hsame⟩
    · have hle := Bool.toNat_le (unsettled other chunks' span' inner')
      omega
    · have hsettled : unsettled other chunks' span' inner' = false := by
        rw [unsettled, hparts', hsame, ← hparts, htext, bne_self_eq_false]
      rw [hsettled, Bool.toNat_false]
      omega
  · have hzero := strainOf_eq_zero hfits hplain hfits' hall fun test value heq => hsole ⟨test, value, heq⟩
    rw [hzero, Nat.zero_add]
    by_cases hnone : ∀ entry ∈ entries chunks inner, entry.isConditional = false
    · have hsame := parts_eq_of_readsAll hfits hplain hfits' hall hnone
      have hsettled : unsettled other chunks' span' inner' = false := by
        rw [unsettled, hsame, htext, bne_self_eq_false]
      rw [hsettled]
      exact Nat.zero_le _
    · push Not at hnone
      obtain ⟨entry, hentry, hconditional⟩ := hnone
      cases entry with
      | conditional test value =>
        have hstrain := strain_le_strainOf hfits hplain hentry
        have hle := Bool.toNat_le (unsettled other chunks' span' inner')
        omega
      | _ => exact absurd rfl hconditional

end

end ClassWeave
