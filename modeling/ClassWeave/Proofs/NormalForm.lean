import ClassWeave.Proofs.Inking
/-!
# The normal form of class lists

A template that is written as it is holds classes with one space between two, none of them a literal
or a template, and a conditional as a class only if there is no other.
-/

namespace ClassWeave

open Text (bulk Sealed Within)

/-! ## Spacing -/

section
variable {α β : Type}

/-- Whether blank characters stand in a sequence only as single spaces between other places, where
`inside` tells whether it goes on behind one. -/
def isSpaced : (inside : Bool) → List (Char ⊕ α) → Bool
  | inside, [] => inside
  | inside, .inl c :: rest => if Text.isBlank c then inside && c == ' ' && isSpaced false rest
      else isSpaced true rest
  | _, .inr _ :: rest => isSpaced true rest

theorem isSpaced_of_forall₂ {R : α → β → Prop} {a : List (Char ⊕ α)} {b : List (Char ⊕ β)}
    (h : List.Forall₂ (Sum.LiftRel (· = ·) R) a b) (inside : Bool) :
    isSpaced inside a = isSpaced inside b := by
  induction h generalizing inside with
  | nil => rfl
  | cons hplace _ ih =>
    cases hplace with
    | inl heq => rw [isSpaced, isSpaced, ih, ih, heq]
    | inr hrel => rw [isSpaced, isSpaced, ih]

theorem isSpaced_solid {inside : Bool} {place : Char ⊕ α} (hplace : isGap place = false)
    (rest : List (Char ⊕ α)) :
    isSpaced inside (place :: rest) = isSpaced true rest := by
  cases place with
  | inl c =>
    have hblank : Text.isBlank c = false := hplace
    rw [isSpaced, if_neg (by simp [hblank])]
  | inr expression => rw [isSpaced]

theorem isSpaced_append {solid : List (Char ⊕ α)} (hne : solid ≠ [])
    (hsolid : ∀ place ∈ solid, isGap place = false) (inside : Bool) (rest : List (Char ⊕ α)) :
    isSpaced inside (solid ++ rest) = isSpaced true rest := by
  induction solid generalizing inside with
  | nil => exact absurd rfl hne
  | cons place solid ih =>
    rw [List.cons_append, isSpaced_solid (hsolid place (List.mem_cons_self ..))]
    by_cases hnil : solid = []
    · rw [hnil]
      rfl
    · exact ih hnil (fun other hother => hsolid other (List.mem_cons_of_mem _ hother)) true

theorem eq_intercalate_of_isSpaced :
    ∀ {sequence before : List (Char ⊕ α)}, (∀ place ∈ before, isGap place = false) →
    isSpaced (!before.isEmpty) sequence = true → stretches (before ++ sequence) ≠ [] ∧
      before ++ sequence = [Sum.inl ' '].intercalate (stretches (before ++ sequence))
  | [], before, hsolid, h => by
    have hne : before ≠ [] := by simpa [isSpaced] using h
    rw [List.append_nil, stretches_of_solid hne hsolid]
    exact ⟨List.cons_ne_nil _ _, by simp [List.intercalate]⟩
  | place :: rest, before, hsolid, h => by
    cases hplace : isGap place with
    | false =>
      have hmore : ∀ other ∈ before ++ [place], isGap other = false := by
        intro other hother
        rcases List.mem_append.1 hother with hother | hother
        · exact hsolid other hother
        · rwa [List.mem_singleton.1 hother]
      rw [isSpaced_solid hplace] at h
      have hinside : (!(before ++ [place]).isEmpty) = true := by simp
      have ih := @eq_intercalate_of_isSpaced rest (before ++ [place]) hmore (by rw [hinside]; exact h)
      rwa [List.append_assoc] at ih
    | true =>
      cases place with
      | inl c =>
        have hblank : Text.isBlank c = true := hplace
        rw [isSpaced, if_pos hblank, Bool.and_eq_true, Bool.and_eq_true, beq_iff_eq] at h
        obtain ⟨⟨hinside, rfl⟩, hrest⟩ := h
        obtain ⟨hne, heq⟩ := @eq_intercalate_of_isSpaced rest [] nofun hrest
        rw [List.nil_append] at hne heq
        obtain ⟨first, more, hstretches⟩ := List.exists_cons_of_ne_nil hne
        rw [stretches_append_gap (by simpa using hinside) hsolid hplace]
        refine ⟨List.cons_ne_nil _ _, ?_⟩
        rw [hstretches] at heq ⊢
        conv_lhs => rw [heq]
        simp [List.intercalate]
      | inr expression => cases hplace

end

theorem isSpaced_itemsOf : ∀ {list : List Entry} {first behindConditional : Bool},
    (∀ entry ∈ list, entry.isConditional = false → UnstrainedStretch (entry.items.flatMap Item.pieces)) →
    (list = [] → first = false) →
    isSpaced (!first) ((itemsOf first behindConditional list).flatMap Item.pieces) = true
  | [], first, _, _, hfirst => by
    rw [hfirst rfl]
    rfl
  | entry :: rest, first, behindConditional, hlist, _ => by
    have ih : ∀ behind, isSpaced true ((itemsOf false behind rest).flatMap Item.pieces) =
      true := fun behind =>
      @isSpaced_itemsOf rest false behind
        (fun other hother => hlist other (List.mem_cons_of_mem _ hother)) fun _ => rfl
    cases hconditional : entry.isConditional with
    | true =>
      cases entry with
      | conditional test value =>
        rw [itemsOf]
        exact ih true
      | _ => cases hconditional
    | false =>
      have hentry := hlist entry (List.mem_cons_self ..) hconditional
      rw [itemsOf_cons hconditional, List.flatMap_append, List.flatMap_append,
        pieces_spaced, List.append_assoc]
      cases hseparated : !(first || behindConditional) with
      | true =>
        have hfirst : first = false := by
          cases first with
          | false => rfl
          | true => cases hseparated
        rw [hfirst]
        show isSpaced true (.inl ' ' :: (entry.items.flatMap Item.pieces ++ _)) = true
        rw [isSpaced, if_pos Text.isBlank_space, isSpaced_append hentry.ne_nil hentry.solid, ih false]
        rfl
      | false =>
        show isSpaced (!first) (entry.items.flatMap Item.pieces ++ _) = true
        rw [isSpaced_append hentry.ne_nil hentry.solid]
        exact ih false

/-! ## Where expressions end -/

theorem Quoted.exists_of_readUnits {quote : Char} (hquote : Escape.isInner quote = false) {more : Text} :
    ∀ {fuel : Nat} {front rest : Text}
    {units : List CodePoint}, front.getLast? ≠ some '\\' →
    readUnits quote fuel (front ++ quote :: more) = .ok (units, rest) →
    ∃ before, rest = before ++ more
  | 0, front, rest, units, _, h => by
    rw [readUnits] at h
    cases h
    exact ⟨front ++ [quote], by simp⟩
  | fuel + 1, [], rest, units, _, h => by
    rw [List.nil_append, readUnits, if_pos rfl] at h
    cases h
    exact ⟨[], rfl⟩
  | fuel + 1, c :: front, rest, units, hlast, h => by
    have hfront : ∀ {d : Char}, front.getLast? = some d → (c :: front).getLast? = some d := fun hd => by
      rw [List.getLast?_cons, hd]
      rfl
    rw [List.cons_append, readUnits] at h
    split at h
    · cases h
      exact ⟨front ++ [quote], by simp⟩
    split at h
    · rename_i hslash
      subst hslash
      cases front with
      | nil => exact absurd rfl hlast
      | cons d front =>
        split at h
        · cases h
        · rename_i units' rest' hread
          cases hmore : readUnits quote fuel rest' with
          | error fault =>
            rw [hmore] at h
            cases h
          | ok found =>
            rw [hmore] at h
            cases h
            -- An escape stops in front of the quote.
            obtain ⟨⟨inside, hinside, hinner⟩, -⟩ := Escape.read_inner hread
            rcases List.append_eq_append_iff.1 hinside with ⟨behind, rfl, heq⟩ | ⟨behind, rfl, heq⟩
            · cases behind with
              | nil =>
                obtain rfl : quote :: more = rest' := heq
                exact @exists_of_readUnits quote hquote more fuel [] _ _ (by simp) hmore
              | cons e behind =>
                obtain rfl := (List.cons.inj heq).1
                exact absurd rfl (Escape.ne_of_inner (hinner quote (by simp)) hquote)
            · refine exists_of_readUnits hquote (fun heq' => hlast ?_) (heq ▸ hmore)
              obtain ⟨others, rfl⟩ := List.getLast?_eq_some_iff.1 heq'
              exact List.getLast?_eq_some_iff.2 ⟨'\\' :: d :: (inside ++ others), by simp⟩
    split at h
    · cases h
      exact ⟨c :: front ++ [quote], by simp⟩
    · cases hmore : readUnits quote fuel (front ++ quote :: more) with
      | error fault =>
        rw [hmore] at h
        cases h
      | ok found =>
        rw [hmore] at h
        cases h
        exact exists_of_readUnits hquote (fun heq => hlast (hfront heq)) hmore

section
variable {pass : Pass} {node : Node}

theorem Pass.Fills.getLast?_eq {hole : Text} (h : pass.Fills hole node)
    (hlast : hole.getLast? = some Quoted.mark) :
    (pass.textAt node.span).getLast? = some Quoted.mark ∧ ∃ before,
    hole = before ++ pass.textAt node.span := by
  obtain ⟨before, behind, hbefore, hbehind, rfl⟩ := h
  have hnone : ∀ {text : Text}, text.Loose → text.getLast? ≠ some Quoted.mark :=
    fun h => (h Quoted.mark (by decide)).2
  rw [List.getLast?_append] at hlast
  cases hend : behind.getLast? with
  | some c =>
    rw [hend] at hlast
    cases hlast
    exact absurd hend (hnone hbehind)
  | none =>
    rw [hend, Option.none_or, List.getLast?_append] at hlast
    rw [List.getLast?_eq_none_iff.1 hend, List.append_nil]
    cases hnode : (pass.textAt node.span).getLast? with
    | some c =>
      rw [hnode] at hlast
      cases hlast
      exact ⟨rfl, before, rfl⟩
    | none =>
      rw [hnode, Option.none_or] at hlast
      exact absurd hlast (hnone hbefore)

theorem Node.LaidOut.unparenthesized_eq (h : node.LaidOut pass)
    (hlast : (pass.textAt node.span).getLast? = some Quoted.mark) :
    node.unparenthesized = node := by
  cases h with
  | parenthesized loose text fills laidOut =>
    rw [Node.span, text, List.getLast?_concat] at hlast
    cases hlast
  | plain isPlain _ =>
    refine Node.unparenthesized.eq_2 _ fun span inner heq => ?_
    cases heq
    cases isPlain
  | _ => rfl

/-- A blank literal at the end of a text that ends with an empty literal is empty. -/
theorem string?_of_fills {hole front : Text} (h : node.LaidOut pass) (hfills : pass.Fills hole node)
    (hhole : hole = front ++ " \"\"".toList) (hblank : node.isBlankString = true) :
    node.string? = some [] := by
  obtain ⟨hlast, before, hbefore⟩ := hfills.getLast?_eq (by rw [hhole]; simp [Quoted.mark])
  have hbare := h.unparenthesized_eq hlast
  unfold Node.isBlankString Node.isStringAmong at hblank
  rw [hbare] at hblank
  cases h with
  | @string value span quote opening body loose quotes text read =>
    rw [Node.span, text, List.getLast?_concat] at hlast
    obtain rfl := Option.some.inj hlast
    rw [hhole, Node.span, text] at hbefore
    -- Were anything between the quotes, the second to last character would be a quote that does not
    -- end the literal.
    rcases List.eq_nil_or_concat' body with rfl | ⟨inside, c, rfl⟩
    · cases read
      rfl
    · have hends : front ++ [' ', Quoted.mark] ++ [Quoted.mark] =
        before ++ opening ++ Quoted.mark :: inside ++ [c] ++ [Quoted.mark] := by
        simpa [Quoted.mark] using hbefore
      have hends' : front ++ [' '] ++ [Quoted.mark] = before ++ opening ++ Quoted.mark :: inside ++ [c] := by
        simpa using List.append_cancel_right hends
      obtain ⟨hfront, hc⟩ := List.append_inj' hends' rfl
      obtain rfl : Quoted.mark = c := (List.cons.inj hc).1
      have hspace : (Quoted.mark :: inside).getLast? = some ' ' := by
        rw [← List.getLast?_append_cons (before ++ opening), ← hfront, List.getLast?_concat]
      have hinside : inside.getLast? ≠ some '\\' := fun heq => by
        rw [List.getLast?_cons, heq] at hspace
        cases hspace
      rw [Quoted.readBody, List.append_assoc] at read
      cases hunits : Quoted.readUnits Quoted.mark ((inside ++ ([Quoted.mark] ++ [Quoted.mark])).length + 1)
          (inside ++ ([Quoted.mark] ++ [Quoted.mark])) with
      | error fault =>
        rw [hunits] at read
        cases read
      | ok found =>
        obtain ⟨units, rest⟩ := found
        rw [hunits] at read
        cases read
        obtain ⟨others, heq⟩ := Quoted.exists_of_readUnits (by decide) hinside hunits
        simp at heq
  | plain isPlain _ =>
    split at hblank
    · rename_i heq
      cases heq
      cases isPlain
    · cases hblank
  | _ => cases hblank

theorem conditional_of_fills {hole front : Text} (h : node.LaidOut pass) (hfills : pass.Fills hole node)
    (hhole : hole = front ++ " \"\"".toList) {test value : Node}
    (hstanding : node.standing = .conditional test value) (hand : node.isAnd = false) :
    ∃ span blank, node = .mk .conditional span [test, value, blank] ∧ blank.string? = some [] := by
  obtain ⟨hlast, before, hbefore⟩ := hfills.getLast?_eq (by rw [hhole]; simp [Quoted.mark])
  rcases Node.unparenthesized_of_conditional hstanding with ⟨span, hnode⟩ | ⟨span, alternate, hnode, hblank⟩
  · unfold Node.isAnd at hand
    rw [hnode] at hand
    cases hand
  · rw [h.unparenthesized_eq hlast] at hnode
    subst hnode
    refine ⟨span, alternate, rfl, ?_⟩
    cases h with
    | @conditional _ _ _ _ a b c text _ _ alternate_fills _ _ alternate_laidOut =>
      rw [hhole, Node.span, text, ← List.append_assoc] at hbefore
      have hcolon : ':' ∉ " \"\"".toList := by decide
      rcases List.append_eq_append_iff.1 hbefore with ⟨more, -, heq⟩ | ⟨more, -, heq⟩
      · exact absurd (heq ▸ List.mem_append_right more (List.mem_cons_self ..)) hcolon
      · cases more with
        | nil => cases heq
        | cons d more => exact string?_of_fills alternate_laidOut alternate_fills (List.cons.inj heq).2 hblank
    | plain isPlain _ => cases isPlain

end

/-! ## Sequences side by side -/

theorem forall₂_and_embedded {α β : Type} {R S : α → β → Prop} :
    ∀ {a : List (Char ⊕ α)} {b : List (Char ⊕ β)},
    List.Forall₂ (Sum.LiftRel (· = ·) R) a b → List.Forall₂ S (embeddedIn a) (embeddedIn b) →
    List.Forall₂ (Sum.LiftRel (· = ·) fun x y => R x y ∧ S x y) a b
  | _, _, .nil, _ => .nil
  | .inl _ :: _, .inl _ :: _, .cons (.inl heq) hrest, h => .cons (.inl heq) (forall₂_and_embedded hrest h)
  | .inr _ :: _, .inr _ :: _, .cons (.inr hrel) hrest, .cons hhead htail =>
    .cons (.inr ⟨hrel, hhead⟩) (forall₂_and_embedded hrest htail)

section
variable {pass : Pass} {chunks : List Chunk} {span : Span} {inner : List Node}

theorem forall₂_writtenFor (h : (Node.mk (.template chunks) span inner).LaidOut pass)
    (hsettled : render (parts pass chunks inner) = pass.textAt span) :
    List.Forall₂ (Sum.LiftRel (· = ·) fun value node =>
      (node.LaidOut pass ∧ pass.Fills (value.text pass) node) ∧ Made value node)
      (writtenFor chunks inner) (weave chunks inner) := by
  have hlength := h.length_of_template
  have hmade := made_of_plain hlength (plain_of_settled h hsettled)
  obtain ⟨holes, hholes, hweave⟩ := weave_holes_eq h hsettled
  have hfills := weave_forall₂ chunks hholes
  rw [hweave, List.forall₂_map_right_iff] at hfills
  refine forall₂_and_embedded (hfills.flip.imp fun place written hplace => ?_)
    (by rwa [embeddedIn_weave hlength])
  cases place with
  | inl c =>
    cases written with
    | inl d => cases hplace with | inl heq => exact .inl heq.symm
    | inr value => cases hplace
  | inr node =>
    cases written with
    | inl d => cases hplace
    | inr value => cases hplace with | inr hfills => exact .inr hfills

theorem exists_entries_eq (h : (Node.mk (.template chunks) span inner).LaidOut pass)
    (hsettled : render (parts pass chunks inner) = pass.textAt span)
    {node : Node} (hclass : [.embedded node] ∈ classes chunks inner)
    {test value : Node} (hstanding : node.standing = .conditional test value) :
    ∃ test value, entries chunks inner = [.conditional test value] := by
  have hlength := h.length_of_template
  by_contra hsole
  have hstretch : [.inr node] ∈ stretches (weave chunks inner) := by
    rw [classes_eq_stretches hlength] at hclass
    obtain ⟨stretch, hstretch, hpieces⟩ := List.mem_map.1 hclass
    rwa [piecesOf_eq_embedded.1 hpieces] at hstretch
  obtain ⟨written, hwritten, hmade⟩ :=
    exists_of_forall₂ (stretches_forall₂ (forall₂_writtenFor h hsettled)) hstretch
  match written, hmade with
  | [.inr value'], .cons (.inr hvalue) .nil =>
    have hentries := fun entry hentry =>
      @unstrained_of_mem_entries chunks inner hlength (plain_of_settled h hsettled) entry hentry
    have hunstrained : value'.Unstrained :=
      @unstrained_itemsOf (entries chunks inner) true false [] hentries nofun rfl nofun
        (fun _ test value heq => hsole ⟨test, value, heq⟩) value' hwritten
    have hstrain := Node.strain_of_conditional hstanding
    match value', hvalue.2, hunstrained with
    | _, .whole node, hzero =>
      change node.strain = 0 at hzero
      omega
    | _, .bare node, hzero =>
      change node.unparenthesized.strain = 0 at hzero
      have hsame : node.unparenthesized.strain = node.strain := by
        unfold Node.strain
        rw [node.unparenthesized_idem]
      omega

/-! ## Class lists -/

/-- Whether a class list cannot be simplified: one space between two classes, no literal and no
template in a class, and no conditional as a class, unless it is the only one and stands with an
empty alternative. -/
structure IsNormal (chunks : List Chunk) (inner : List Node) : Prop where
  spaced : weave chunks inner =
    [Sum.inl ' '].intercalate ((classes chunks inner).map (·.flatMap Piece.places))
  solid : ∀ pieces ∈ classes chunks inner, ∀ place ∈ pieces.flatMap Piece.places, isGap place = false
  plain : ∀ node ∈ inner, node.isInlined = false
  sole : ∀ node, [.embedded node] ∈ classes chunks inner →
    ∀ test value, node.standing = .conditional test value →
    classes chunks inner = [[.embedded node]] ∧
      ∃ span blank, node = .mk .conditional span [test, value, blank] ∧ blank.string? = some []

theorem spaced_of_settled (h : (Node.mk (.template chunks) span inner).LaidOut pass)
    (hsettled : render (parts pass chunks inner) = pass.textAt span) :
    weave chunks inner = [Sum.inl ' '].intercalate ((classes chunks inner).map (·.flatMap Piece.places)) := by
  have hlength := h.length_of_template
  obtain ⟨front, inside, hfront, htext, -⟩ := h.exists_inside
  obtain ⟨-, hne, -⟩ := eq_of_settled (hsettled.trans htext) hfront
  have hspaced : isSpaced false (writtenFor chunks inner) = true :=
    @isSpaced_itemsOf (entries chunks inner) true false
      (fun entry hentry =>
        @unstrained_of_mem_entries chunks inner hlength (plain_of_settled h hsettled) entry hentry)
          fun hnil => absurd hnil hne
  rw [isSpaced_of_forall₂ (forall₂_writtenFor h hsettled)] at hspaced
  have hplaces :
      (stretches (weave chunks inner)).map (fun stretch => (piecesOf stretch).flatMap Piece.places) =
        stretches (weave chunks inner) := by
    simp only [places_piecesOf, List.map_id']
  rw [classes_eq_stretches hlength, List.map_map]
  exact (@eq_intercalate_of_isSpaced _ _ [] nofun hspaced).2.trans (congrArg _ hplaces.symm)

theorem exists_text_writtenConditional (test value : Node) :
    ∃ front, (writtenConditional test value false false).text pass = front ++ " \"\"".toList := by
  have halternate : " : ".toList ++ (Written.quoted (space (false && false))).text pass =
    " :".toList ++ " \"\"".toList := by
    rw [Written.text]
    decide
  rw [writtenConditional, Written.text, List.append_assoc, halternate, ← List.append_assoc]
  exact ⟨_, rfl⟩

/-- A template that is written as it is cannot be simplified. -/
theorem isNormal_of_settled (h : (Node.mk (.template chunks) span inner).LaidOut pass)
    (hsettled : render (parts pass chunks inner) = pass.textAt span) : IsNormal chunks inner where
  spaced := spaced_of_settled h hsettled
  solid := by
    intro pieces hpieces
    rw [classes_eq_stretches h.length_of_template] at hpieces
    obtain ⟨stretch, hstretch, rfl⟩ := List.mem_map.1 hpieces
    rw [places_piecesOf]
    exact (solid_of_mem_stretches hstretch).2
  plain := plain_of_settled h hsettled
  sole := by
    intro node hclass test value hstanding
    obtain ⟨test', value', hentries⟩ := exists_entries_eq h hsettled hclass hstanding
    have hwritten : writtenFor chunks inner = [.inr (writtenConditional test' value' false false)] := by
      rw [writtenFor, hentries]
      rfl
    have hfills := forall₂_writtenFor h hsettled
    rw [hwritten] at hfills
    have hclasses : ∃ node', weave chunks inner = [.inr node'] ∧
        (node'.LaidOut pass ∧
          pass.Fills ((writtenConditional test' value' false false).text pass) node') := by
      match weave chunks inner, hfills with
      | [.inr node'], .cons (.inr hfills) .nil => exact ⟨node', rfl, hfills.1⟩
    obtain ⟨node', hweave, hlaidOut, hfills⟩ := hclasses
    have hall : classes chunks inner = [[.embedded node']] := by
      rw [classes_eq_stretches h.length_of_template, hweave,
        stretches_of_solid (List.cons_ne_nil _ _) fun place hplace => by
          rw [List.mem_singleton.1 hplace]; rfl]
      rfl
    have hrelief := relief_eq_zero h hsettled hclass
    rw [hall, List.mem_singleton] at hclass
    cases hclass
    obtain ⟨front, htext⟩ := @exists_text_writtenConditional pass test' value'
    refine ⟨hall, conditional_of_fills hlaidOut hfills htext hstanding ?_⟩
    rw [relief, Bool.toNat_eq_zero, Bool.or_eq_false_iff] at hrelief
    exact hrelief.2

end

end ClassWeave
