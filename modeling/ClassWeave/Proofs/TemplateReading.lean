import ClassWeave.Proofs.Evaluation
import ClassWeave.Proofs.OperandReading
import ClassWeave.Proofs.Seams
import Mathlib.Data.List.Forall2
/-!
# Template text that is put together

Template text in segments: static text that is a chunk of its own, and embedded expressions. Where
no two of the segments have a seam, the reader finds the expressions in order, and between them
chunks that stand for what the static segments stand for alone.
-/

namespace ClassWeave

open TemplateText

inductive Segment where
  | static (raw : Text)
  | hole (source : Text)

namespace Segment

def source : Segment → Text
  | .static raw => raw
  | .hole source => embedded source

def sourceOf (segments : List Segment) : Text := segments.flatMap source

/-- Whether no static segment is read as one with the text behind it. -/
def Seamless : List Segment → Prop
  | [] => True
  | .static raw :: rest =>
      (fuses raw (sourceOf rest) = false ∧ pairs raw (sourceOf rest) = false) ∧ Seamless rest
  | .hole _ :: rest => Seamless rest

def holes : List Segment → Nat
  | [] => 0
  | .static _ :: rest => holes rest
  | .hole _ :: rest => holes rest + 1

@[simp] theorem sourceOf_nil : sourceOf [] = [] := rfl

@[simp] theorem sourceOf_cons (segment : Segment) (segments : List Segment) :
    sourceOf (segment :: segments) = segment.source ++ sourceOf segments := List.flatMap_cons

@[simp] theorem sourceOf_append (a b : List Segment) : sourceOf (a ++ b) = sourceOf a ++ sourceOf b :=
  List.flatMap_append

theorem holes_le_length : ∀ segments : List Segment, holes segments ≤ (sourceOf segments).length
  | [] => Nat.le_refl _
  | .static raw :: segments => by
    have ih := holes_le_length segments
    rw [holes, sourceOf_cons, List.length_append]
    omega
  | .hole source :: segments => by
    have ih := holes_le_length segments
    have hembedded : 1 ≤ (embedded source).length := Nat.le_add_left 1 _
    rw [holes, sourceOf_cons, List.length_append]
    exact Nat.le_trans (Nat.add_le_add ih hembedded) (Nat.le_of_eq (Nat.add_comm _ _))

end Segment

variable {α β : Type}

def Reader.Finds (inner : Reader α) (s : Surroundings) (expected : α → Prop) (source : Text) : Prop :=
  ∀ (offset : Nat) (rest : Text), ∃ value behind, expected value ∧
    inner s (.at' ⟨source ++ '\x7d' :: rest, offset⟩) = .done value behind ∧
    behind.AtMark "\x7d" ⟨rest, offset + source.byteLength + 1⟩

theorem Reader.Finds.mono {inner : Reader α} {s : Surroundings} {expected wanted : α → Prop} {source : Text}
    (h : inner.Finds s expected source) (hexpected : ∀ value, expected value → wanted value) :
    inner.Finds s wanted source := by
  intro offset rest
  obtain ⟨value, behind, hvalue, hread⟩ := h offset rest
  exact ⟨value, behind, hexpected value hvalue, hread⟩

def Node.IsVariable (name : String) (node : Node) : Prop := ∃ span, node = .mk (.identifier name) span []

theorem finds_variable {name : Text} (hname : Reader.IsVariableName name)
    {budget : Nat} (hbudget : 0 < budget) (depth : Nat) (s : Surroundings) :
    (Reader.freshExpression (Grammar.ofDepth budget (depth + 2))).Finds
    s (Node.IsVariable (String.ofList name)) name := by
  intro offset rest
  have hbrace := atMark_brace rest (offset + name.byteLength)
  have ends := Reader.endsName_brace rest
  obtain ⟨hopens, hsound⟩ := Reader.opens_variable Lexeme.between_nil hname ends offset
  have hread :=
    Reader.leftHandSide_variable Lexeme.between_nil hname ends hbudget depth offset hbrace (by decide)
      (closes_brace rest _).endsOperand
  have hassignment :=
    Reader.assignment_of_leftHandSide (s := s.fresh) hopens hsound hread (closes_brace rest _) rfl hbudget
  exact ⟨_, _, ⟨_, rfl⟩,
    Reader.freshExpression_of_assignment (g := Grammar.ofDepth budget (depth + 2)) hassignment
    (hbrace.isMark ",") hbudget, hbrace⟩

section
variable (inner : Reader α) (s : Surroundings) (same : β → α → Prop)

/-- What a segment stands for: characters, or what the reader finds the same as. -/
inductive Segment.Reads : Segment → List (Char ⊕ β) → Prop
  | static {raw value : Text} : Static raw value → Reads (.static raw) (value.map .inl)
  | hole {source : Text} {expression : β} :
      inner.Finds s (same expression) source → Reads (.hole source) [.inr expression]

/-- Template text from the first embedded expression on, with what it stands for. -/
inductive Behind : Text → List (Char ⊕ β) → Nat → Prop
  | closed : Behind [] [] 0
  | hole {source tail : Text} {expression : β} {list : List Glyph}
      {sequence : List (Char ⊕ β)} {holes : Nat} :
      inner.Finds s (same expression) source → ReadInFront list tail → Behind tail sequence holes →
      Behind (embedded source ++ (TemplateText.sourceOf list ++ tail))
        (.inr expression :: ((CodePoint.decode (pointsOf list)).map .inl ++ sequence)) (holes + 1)

end

variable {inner : Reader α} {s : Surroundings} {same : β → α → Prop}

theorem Behind.stops {tail : Text} {sequence : List (Char ⊕ β)}
    {holes : Nat} (h : Behind inner s same tail sequence holes) :
    Stops tail := by
  cases h with
  | closed => exact .missing
  | hole _ _ _ => exact .expression _

theorem exists_behind : ∀ {segments : List Segment} {sequences : List (List (Char ⊕ β))},
    List.Forall₂ (Segment.Reads inner s same) segments sequences → Segment.Seamless segments →
    ∃ list tail sequence, Behind inner s same tail sequence (Segment.holes segments) ∧ ReadInFront list tail ∧
      Segment.sourceOf segments = TemplateText.sourceOf list ++ tail ∧
      sequences.flatten = (CodePoint.decode (pointsOf list)).map .inl ++ sequence
  | _, _, .nil, _ => ⟨[], [], [], .closed, trivial, rfl, rfl⟩
  | .static raw :: _, _, .cons (.static hstatic) hrest, ⟨⟨hfuses, hpairs⟩, hseamless⟩ => by
    obtain ⟨list, tail, sequence, hbehind, hread, hsource, hsequence⟩ := exists_behind hrest hseamless
    rw [hsource] at hfuses hpairs
    obtain ⟨hread', hvalue⟩ := hstatic.append hread hbehind.stops hfuses hpairs
    refine ⟨glyphsOf raw ++ list, tail, sequence, hbehind, hread', ?_, ?_⟩
    · rw [Segment.sourceOf_cons, hsource, TemplateText.sourceOf_append, hstatic.read.1, List.append_assoc]
      rfl
    · rw [List.flatten_cons, hsequence, hvalue, List.map_append, List.append_assoc]
  | _, _, .cons (.hole hfinds) hrest, hseamless => by
    obtain ⟨list, tail, sequence, hbehind, hread, hsource, hsequence⟩ := exists_behind hrest hseamless
    refine ⟨[], _, _, .hole hfinds hread hbehind, trivial, ?_, ?_⟩
    · rw [Segment.sourceOf_cons, hsource]
      rfl
    · rw [List.flatten_cons, hsequence]
      rfl

theorem forall₂_chars : ∀ text : Text, List.Forall₂ (Sum.LiftRel Eq same) (text.map .inl) (text.map .inl)
  | [] => .nil
  | _ :: text => .cons (.inl rfl) (forall₂_chars text)

theorem Behind.templateTail {start : Nat} {tail : Text} {sequence : List (Char ⊕ β)} {holes : Nat}
    (h : Behind inner s same tail sequence holes) :
    ∀ {list : List Glyph} {fuel : Nat}, ReadInFront list tail → holes < fuel →
    ∀ (offset : Nat) (rest : Text) (place : Place), ∃ chunks values,
      Reader.templateTail inner start false fuel
        ⟨TemplateText.sourceOf list ++ (tail ++ mark :: rest), offset⟩ s place =
        .done (chunks, values) (.at' ⟨rest, offset + (TemplateText.sourceOf list ++ tail).byteLength + 1⟩) ∧
      chunks.length = values.length + 1 ∧
      List.Forall₂ (Sum.LiftRel Eq same) ((CodePoint.decode (pointsOf list)).map .inl ++ sequence)
        (weave chunks values) := by
  -- The place in front is general: behind a hole it is where the reader of the expression has stopped.
  induction h with
  | closed =>
    intro list fuel hread hfuel offset rest place
    have hgoTo := Cursor.goTo_append (TemplateText.sourceOf list ++ [mark]) rest offset
    have hchunk := readChunk_closed hread rest
    rw [List.append_assoc, List.singleton_append] at hgoTo
    refine ⟨[chunkOf list], [], ?_, rfl, ?_⟩
    · rw [List.nil_append, Reader.templateTail_closed hchunk hfuel,
        hgoTo, List.append_nil, Text.byteLength_append]
      rfl
    · rw [List.append_nil, weave, weave, List.append_nil]
      exact forall₂_chars _
  | @hole source tail expression list' sequence holes hfinds hread' hbehind ih =>
    intro list fuel hread hfuel offset rest place
    obtain ⟨fuel, rfl⟩ : ∃ more, fuel = more + 1 := ⟨fuel - 1, by omega⟩
    let more := TemplateText.sourceOf list' ++ (tail ++ mark :: rest)
    have htext : TemplateText.sourceOf list ++
      (embedded source ++ (TemplateText.sourceOf list' ++ tail) ++ mark :: rest) =
        TemplateText.sourceOf list ++ '$' :: '\x7b' :: (source ++ '\x7d' :: more) := by
      simp [embedded, more]
    have hgoTo :=
      Cursor.goTo_append (TemplateText.sourceOf list ++ ['$', '\x7b']) (source ++ '\x7d' :: more) offset
    rw [List.append_assoc, List.cons_append, List.singleton_append] at hgoTo
    obtain ⟨value, behind, hvalue, hinner, hclose⟩ := hfinds
      (offset + (TemplateText.sourceOf list ++ ['$', '\x7b']).byteLength) more
    obtain ⟨chunks, values, htail, hlength, hsequence⟩ := ih hread' (Nat.lt_of_succ_lt_succ hfuel)
      (offset + (TemplateText.sourceOf list ++ ['$', '\x7b']).byteLength + source.byteLength + 1) rest behind
    refine ⟨chunkOf list :: chunks, value :: values, ?_, by simp [hlength], ?_⟩
    · have hchunk := readChunk_expression hread (source ++ '\x7d' :: more)
      rw [← hgoTo] at hinner
      rw [← hclose.stop_eq] at htail
      rw [htext, Reader.templateTail_embedded hchunk hinner hclose.token_eq htail]
      have hbraces : (embedded source).byteLength = source.byteLength + 3 := by
        simp only [embedded, Text.byteLength_append, Text.byteLength_cons, Text.byteLength_nil]
        have : ('$' : Char).utf8Size = 1 ∧ ('\x7b' : Char).utf8Size = 1 ∧
          ('\x7d' : Char).utf8Size = 1 := by decide
        omega
      have hopen : Text.byteLength ['$', '\x7b'] = 2 := by decide
      simp only [Text.byteLength_append, hopen, hbraces]
      exact congrArg (fun offset => Outcome.done _ (Place.at' ⟨rest, offset⟩)) (by omega)
    · rw [weave]
      exact List.rel_append (forall₂_chars _) (.cons (.inr hvalue) hsequence)

/-- Segments without seams are read in front of a closing mark: what is found stands for what they
stand for. -/
theorem templateTail_of_segments {segments : List Segment} {sequences : List (List (Char ⊕ β))}
    (hreads : List.Forall₂ (Segment.Reads inner s same) segments sequences)
    (seamless : Segment.Seamless segments) (start : Nat) {fuel : Nat}
    (hfuel : Segment.holes segments < fuel) (offset : Nat) (rest : Text) (place : Place) :
    ∃ chunks values,
    Reader.templateTail inner start false fuel ⟨Segment.sourceOf segments ++ mark :: rest, offset⟩ s place =
        .done (chunks, values) (.at' ⟨rest, offset + (Segment.sourceOf segments).byteLength + 1⟩) ∧
      chunks.length = values.length + 1 ∧
      List.Forall₂ (Sum.LiftRel Eq same) sequences.flatten (weave chunks values) := by
  obtain ⟨list, tail, sequence, hbehind, hread, hsource, hsequence⟩ := exists_behind hreads seamless
  rw [hsource, hsequence, List.append_assoc]
  exact hbehind.templateTail hread hfuel offset rest place

/-! ## Templates out of chunks -/

def templateSegments : List Chunk → List Text → List Segment
  | [], _ => []
  | chunk :: chunks, [] => .static chunk.raw :: templateSegments chunks []
  | chunk :: chunks, source :: sources => .static chunk.raw :: .hole source :: templateSegments chunks sources

theorem exists_reads_templateSegments : ∀ {chunks : List Chunk} {expressions : List β} {sources : List Text},
    (∀ chunk ∈ chunks, Static chunk.raw chunk.value) →
    List.Forall₂ (fun expression source => inner.Finds s (same expression) source) expressions sources →
    ∃ sequences, List.Forall₂ (Segment.Reads inner s same) (templateSegments chunks sources) sequences ∧
      sequences.flatten = weave chunks expressions
  | [], _, _, _, _ => ⟨[], .nil, rfl⟩
  | chunk :: chunks, _, _, hchunks, .nil => by
    obtain ⟨sequences, hreads, hflatten⟩ := exists_reads_templateSegments
      (fun other hother => hchunks other (List.mem_cons_of_mem _ hother)) List.Forall₂.nil
    refine ⟨_ :: sequences, .cons (.static (hchunks chunk List.mem_cons_self)) hreads, ?_⟩
    rw [List.flatten_cons, hflatten, weave]
  | chunk :: chunks, _, _, hchunks, .cons hsource hsources => by
    obtain ⟨sequences, hreads, hflatten⟩ := exists_reads_templateSegments
      (fun other hother => hchunks other (List.mem_cons_of_mem _ hother)) hsources
    refine ⟨_ :: _ :: sequences,
      .cons (.static (hchunks chunk List.mem_cons_self)) (.cons (.hole hsource) hreads), ?_⟩
    rw [List.flatten_cons, List.flatten_cons, hflatten, weave]
    rfl

end ClassWeave
