import ClassWeave.Proofs.TemplateReading
import ClassWeave.Proofs.Writing
/-!
# Classes of several pieces

A class of several pieces is written as one stretch of template text. Where its pieces have no seam,
the reader finds in it the expressions of the pieces in order, and what they come to is what the
pieces come to, one behind the other.
-/

namespace ClassWeave

open TemplateText

variable {α : Type}

def valueOf (shows : α → Text) (sequence : List (Char ⊕ α)) : Text :=
  sequence.flatMap (Sum.elim (fun c => [c]) shows)

@[simp] theorem valueOf_append (shows : α → Text) (a b : List (Char ⊕ α)) :
    valueOf shows (a ++ b) = valueOf shows a ++ valueOf shows b := List.flatMap_append

@[simp] theorem valueOf_inr (shows : α → Text) (expression : α) (sequence : List (Char ⊕ α)) :
    valueOf shows (.inr expression :: sequence) = shows expression ++ valueOf shows sequence :=
  List.flatMap_cons

theorem valueOf_chars (shows : α → Text) : ∀ text : Text, valueOf shows (text.map .inl) = text
  | [] => rfl
  | c :: text => congrArg (c :: ·) (valueOf_chars shows text)

theorem valueOf_of_forall₂ {β : Type} {same : β → α → Prop} {shows : β → Text} {shown : α → Text}
    (hshown : ∀ expression value, same expression value → shown value = shows expression) :
    ∀ {a : List (Char ⊕ β)} {b : List (Char ⊕ α)}, List.Forall₂ (Sum.LiftRel Eq same) a b →
    valueOf shown b = valueOf shows a
  | _, _, .nil => rfl
  | _, _, .cons hpiece hrest => by
    have ih := valueOf_of_forall₂ hshown hrest
    cases hpiece with
    | inl hc =>
      subst hc
      exact congrArg (_ :: ·) ih
    | inr hvalue =>
      show shown _ ++ valueOf shown _ = shows _ ++ valueOf shows _
      rw [ih, hshown _ _ hvalue]

namespace Piece

def sequence : Piece Node → List (Char ⊕ Node)
  | .text word => word.map .inl
  | .embedded node =>
    match node.standing with
    | .constant word => word.map .inl
    | .template chunks _ inner => weave chunks inner
    | _ => [.inr node.unparenthesized]

/-- The segments that a piece is written as, if its expressions are read from their source and the
chunks of a nested template are chunks of their own. -/
inductive WrittenAs (pass : Pass) (inner : Reader α) (s : Surroundings) (same : Node → α → Prop) :
    Piece Node → List Segment → Prop
  | word (word : Text) : WrittenAs pass inner s same (.text word) [.static (escape word)]
  | constant {node : Node} {text : Text} : node.standing = .constant text →
      WrittenAs pass inner s same (.embedded node) [.static (escape text)]
  | template {node : Node} {chunks : List Chunk} {span : Span} {embedded : List Node} {sources : List Text} :
      node.standing = .template chunks span embedded →
      templateBody (pass.textAt span) = Segment.sourceOf (templateSegments chunks sources) →
      (∀ chunk ∈ chunks, Static chunk.raw chunk.value) →
      List.Forall₂ (fun node source => inner.Finds s (same node) source) embedded sources →
      WrittenAs pass inner s same (.embedded node) (templateSegments chunks sources)
  | expression {node : Node} :
      node.standing = .other ∨ (∃ test value, node.standing = .conditional test value) →
      inner.Finds s (same node.unparenthesized) (pass.textAt node.unparenthesized.span) →
      WrittenAs pass inner s same (.embedded node) [.hole (pass.textAt node.unparenthesized.span)]

end Piece

variable {pass : Pass} {inner : Reader α} {s : Surroundings} {same : Node → α → Prop}

theorem Piece.WrittenAs.exists_reads {piece : Piece Node} {segments : List Segment}
    (h : piece.WrittenAs pass inner s same segments) :
    ∃ sequences, List.Forall₂ (Segment.Reads inner s same) segments sequences ∧
    sequences.flatten = piece.sequence := by
  cases h with
  | word word => exact ⟨_, .cons (.static (static_escape word)) .nil, List.append_nil _⟩
  | @constant node text hstanding =>
    refine ⟨_, .cons (.static (static_escape text)) .nil, ?_⟩
    rw [Piece.sequence, hstanding]
    exact List.append_nil _
  | template hstanding _ hchunks hsources =>
    obtain ⟨sequences, hreads, hflatten⟩ := exists_reads_templateSegments hchunks hsources
    refine ⟨sequences, hreads, ?_⟩
    rw [hflatten, Piece.sequence, hstanding]
  | expression hstanding hsource =>
    refine ⟨_, .cons (.hole hsource) .nil, ?_⟩
    rcases hstanding with hstanding | ⟨test, value, hstanding⟩
    · rw [Piece.sequence, hstanding]
      rfl
    · rw [Piece.sequence, hstanding]
      rfl

theorem Piece.WrittenAs.text_item {piece : Piece Node} {segments : List Segment}
    (h : piece.WrittenAs pass inner s same segments) : piece.item.text pass = Segment.sourceOf segments := by
  cases h with
  | word word => exact (List.append_nil _).symm
  | constant hstanding =>
    rw [Piece.item, hstanding]
    exact (List.append_nil _).symm
  | template hstanding hbody _ _ =>
    rw [Piece.item, hstanding, ← hbody]
    rfl
  | expression hstanding hsource =>
    rcases hstanding with hstanding | ⟨test, value, hstanding⟩
    · rw [Piece.item, hstanding]
      exact (List.append_nil _).symm
    · rw [Piece.item, hstanding]
      exact (List.append_nil _).symm

theorem exists_reads_written : ∀ {pieces : List (Piece Node)} {written : List (List Segment)},
    List.Forall₂ (Piece.WrittenAs pass inner s same) pieces written →
    ∃ sequences, List.Forall₂ (Segment.Reads inner s same) written.flatten sequences ∧
      sequences.flatten = pieces.flatMap Piece.sequence
  | _, _, .nil => ⟨[], .nil, rfl⟩
  | _, _, .cons hpiece hrest => by
    obtain ⟨front, hfront, hflatten⟩ := hpiece.exists_reads
    obtain ⟨back, hback, hflatten'⟩ := exists_reads_written hrest
    exact ⟨front ++ back, List.rel_append hfront hback, by
      rw [List.flatten_append, hflatten, hflatten', List.flatMap_cons]⟩

theorem flatMap_text_item : ∀ {pieces : List (Piece Node)} {written : List (List Segment)},
    List.Forall₂ (Piece.WrittenAs pass inner s same) pieces written →
    (pieces.map Piece.item).flatMap (Item.text pass) = Segment.sourceOf written.flatten
  | _, _, .nil => rfl
  | _, _, .cons hpiece hrest => by
    rw [List.map_cons, List.flatMap_cons, hpiece.text_item, flatMap_text_item hrest, List.flatten_cons,
      Segment.sourceOf_append]

theorem flatten_of_constants (shows : Node → Text) : ∀ {pieces : List (Piece Node)} {texts : List Text},
    pieces.mapM Piece.constant? = some texts → texts.flatten = pieces.flatMap fun piece =>
      valueOf shows piece.sequence
  | [], texts, h => by
    obtain rfl : [] = texts := Option.some.inj h
    rfl
  | piece :: pieces, texts, h => by
    rw [List.mapM_cons] at h
    obtain ⟨text, htext, h⟩ := Option.bind_eq_some_iff.1 h
    obtain ⟨rest, hrest, h⟩ := Option.bind_eq_some_iff.1 h
    obtain rfl : text :: rest = texts := Option.some.inj h
    have ih := flatten_of_constants shows hrest
    rw [List.flatten_cons, ih, List.flatMap_cons]
    refine congrArg (· ++ _) ?_
    cases piece with
    | text word =>
      obtain rfl : word = text := Option.some.inj htext
      exact (valueOf_chars shows _).symm
    | embedded node =>
      rw [Piece.sequence, Node.standing_constant.2 htext]
      exact (valueOf_chars shows _).symm

theorem partOf_eq_gluedPart (pass : Pass) {pieces : List (Piece Node)} (hlength : 2 ≤ pieces.length) :
    partOf pass pieces = gluedPart pass pieces := by
  match pieces, hlength with
  | .text _ :: _ :: _, _ => rfl
  | .embedded _ :: _ :: _, _ => rfl

/-- A class of two or more pieces keeps its value. If all of them are constant it is their text,
trimmed, and no part if that is blank. Otherwise it is source of template text: if the pieces are
written without a seam, it is read as the expressions of the pieces in order, with what stands
between them, and comes to what the pieces come to. -/
theorem partOf_several (pass : Pass) {pieces : List (Piece Node)} (hlength : 2 ≤ pieces.length) :
    (∀ texts, pieces.mapM Piece.constant? = some texts → ∀ shows,
      partOf pass pieces = (nonBlank (pieces.flatMap fun piece => valueOf shows piece.sequence)).map .text) ∧
    (pieces.mapM Piece.constant? = none → ∃ source, partOf pass pieces = some (.splice source) ∧
      ∀ {α : Type} {inner : Reader α} {s : Surroundings} {same : Node → α → Prop}
        {written : List (List Segment)},
        List.Forall₂ (Piece.WrittenAs pass inner s same) pieces written → Segment.Seamless written.flatten →
        ∀ (start : Nat) {fuel : Nat}, Segment.holes written.flatten < fuel →
        ∀ (offset : Nat) (rest : Text) (place : Place),
          ∃ chunks values,
          Reader.templateTail inner start false fuel ⟨source ++ mark :: rest, offset⟩ s place =
              .done (chunks, values) (.at' ⟨rest, offset + source.byteLength + 1⟩) ∧
            chunks.length = values.length + 1 ∧
            List.Forall₂ (Sum.LiftRel Eq same) (pieces.flatMap Piece.sequence) (weave chunks values) ∧
            ∀ (shows : Node → Text) (shown : α → Text),
            (∀ node value, same node value → shown value = shows node) →
              valueOf shown (weave chunks values) = pieces.flatMap fun piece =>
                valueOf shows piece.sequence) := by
  rw [partOf_eq_gluedPart pass hlength, gluedPart, foldl_addPiece]
  constructor
  · intro texts htexts shows
    rw [htexts, ← flatten_of_constants shows htexts]
    rfl
  · intro hnone
    rw [hnone]
    refine ⟨_, rfl, ?_⟩
    intro α inner s same written hwritten seamless start fuel hfuel offset rest place
    rw [List.nil_append, flatMap_text_item hwritten]
    obtain ⟨sequences, hreads, hflatten⟩ := exists_reads_written hwritten
    obtain ⟨chunks, values, htail, hcount, hsequence⟩ :=
      templateTail_of_segments hreads seamless start hfuel offset rest place
    rw [hflatten] at hsequence
    refine ⟨chunks, values, htail, hcount, hsequence, fun shows shown hshown => ?_⟩
    rw [valueOf_of_forall₂ hshown hsequence]
    exact List.flatMap_assoc

/-- A word that ends in a dollar sign, a variable, and a nested template. -/
theorem partOf_several_nested : ∃ source chunks values,
    partOf ⟨0, ⟨"\x60a$$\x7bx\x7d$\x7b\x60-$\x7by\x7d\x60\x7d\x60".toList, []⟩⟩
      [.text ['a', '$'], .embedded (.mk (.identifier "x") ⟨5, 6⟩ []),
        .embedded
        (.mk (.template [⟨['-'], some ['-']⟩, ⟨[], some []⟩]) ⟨9, 16⟩ [.mk (.identifier "y") ⟨13, 14⟩ []])] =
      some (.splice source) ∧
    Reader.templateTail (Reader.freshExpression (Grammar.ofDepth 9 2))
      0 false 9 ⟨source ++ [mark], 0⟩ { elements := false }
      (.at' ⟨[], 0⟩) = .done (chunks, values) (.at' ⟨[], 0 + source.byteLength + 1⟩) ∧
    valueOf (fun node => match node.shape with
      | .identifier name => name.toList
      | _ => []) (weave chunks values) = "a$x-y".toList := by
  let pass : Pass := ⟨0, ⟨"\x60a$$\x7bx\x7d$\x7b\x60-$\x7by\x7d\x60\x7d\x60".toList, []⟩⟩
  let nested : Node :=
    .mk (.template [⟨['-'], some ['-']⟩, ⟨[], some []⟩]) ⟨9, 16⟩ [.mk (.identifier "y") ⟨13, 14⟩ []]
  let pieces : List (Piece Node) :=
    [.text ['a', '$'], .embedded (.mk (.identifier "x") ⟨5, 6⟩ []), .embedded nested]
  let written : List (List Segment) :=
    [[.static ['a', '$']], [.hole ['x']], [.static ['-'], .hole ['y'], .static []]]
  let shows : Node → Text := fun node => match node.shape with
    | .identifier name => name.toList
    | _ => []
  let same : Node → Node → Prop := fun node found => ∃ name, node.IsVariable name ∧ found.IsVariable name
  have hfinds : ∀ c : Char, c.isLower = true →
    ∀ span, (Reader.freshExpression (Grammar.ofDepth 9 2)).Finds { elements := false }
      (same (.mk (.identifier (String.ofList [c])) span [])) [c] := by
    intro c hc span
    exact (finds_variable (Reader.isVariableName_letter hc) (by decide) 0 _).mono fun found hfound =>
      ⟨_, ⟨span, rfl⟩, hfound⟩
  have hnested : Piece.WrittenAs pass (Reader.freshExpression (Grammar.ofDepth 9 2))
    { elements := false } same (.embedded nested)
      (templateSegments [⟨['-'], some ['-']⟩, ⟨[], some []⟩] [['y']]) := by
    have hchunks : ∀ chunk ∈ ([⟨['-'], some ['-']⟩, ⟨[], some []⟩] : List Chunk),
      Static chunk.raw chunk.value := by
      simp only [List.forall_mem_cons]
      exact ⟨rfl, rfl, nofun⟩
    exact .template rfl rfl hchunks (.cons (hfinds 'y' (by decide) _) .nil)
  have hwritten :
      List.Forall₂
        (Piece.WrittenAs pass (Reader.freshExpression (Grammar.ofDepth 9 2)) { elements := false } same)
      pieces written :=
    .cons (.word _) (.cons (.expression (.inl rfl) (hfinds 'x' (by decide) _)) (.cons hnested .nil))
  have seamless : Segment.Seamless written.flatten := ⟨⟨rfl, rfl⟩, ⟨rfl, rfl⟩, ⟨rfl, rfl⟩, trivial⟩
  obtain ⟨source, hpart, hread⟩ := (partOf_several pass (show 2 ≤ pieces.length by decide)).2 rfl
  obtain ⟨chunks, values, htail, -, -, hvalue⟩ := hread hwritten seamless 0
    (show Segment.holes written.flatten < 9 by decide) 0 [] (.at' ⟨[], 0⟩)
  refine ⟨source, chunks, values, hpart, htail, (hvalue shows shows ?_).trans (by decide)⟩
  rintro node found ⟨name, ⟨span, rfl⟩, ⟨span', rfl⟩⟩
  rfl

end ClassWeave
