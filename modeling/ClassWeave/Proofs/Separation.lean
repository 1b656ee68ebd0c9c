import ClassWeave.Proofs.ChoiceReading
import ClassWeave.Proofs.Cutting
/-!
# The spaces between classes

What the literal that is written for parts of a class list shows: what the parts that are present
show, in order and with one space between two of them.
-/

namespace ClassWeave

open TemplateText Reader

variable {β : Type}

/-! ## What parts stand for -/

inductive Content (β : Type) where
  | text (text : Text)
  | splice (sequence : List (Char ⊕ β))
  | embed (expression : β)
  | conditional (test : β) (value : Text ⊕ β)

namespace Content

def isConditional : Content β → Bool
  | .conditional _ _ => true
  | _ => false

variable (holds : β → Bool) (shows : β → Text)

def isPresent : Content β → Bool
  | .conditional test _ => holds test
  | _ => true

def shown : Content β → Text
  | .text words => words
  | .splice sequence => valueOf shows sequence
  | .embed expression => shows expression
  | .conditional _ value => value.elim id shows

def present (contents : List (Content β)) : List Text := (contents.filter (isPresent holds)).map (shown shows)

/-- What is shown for parts as they are written: where `first` tells whether nothing stands in front
of them, and `behindConditional` whether a conditional does. -/
def laidOut : (first behindConditional : Bool) → List (Content β) → Text
  | _, _, [] => []
  | first, behindConditional, content :: rest =>
    let separated := !(first || behindConditional)
    match content with
    | .conditional test value =>
      let lead := if rest.all isConditional then !first else separated
      let trail := !rest.all isConditional
      (if holds test then space lead ++ value.elim id shows ++ space trail else space (lead && trail)) ++
      laidOut false true rest
    | other => space separated ++ other.shown shows ++ laidOut false false rest

/-! ## Spaces -/

variable {holds shows}

theorem exists_of_isConditional {content : Content β} (h : content.isConditional = true) :
    ∃ test value, content = .conditional test value := by
  cases content with
  | conditional test value => exact ⟨test, value, rfl⟩
  | _ => cases h

theorem isPresent_of_not_conditional {content : Content β} (h : content.isConditional = false) :
    content.isPresent holds = true := by
  cases content with
  | conditional test value => cases h
  | _ => rfl

theorem present_cons_of_pos (content : Content β) (rest : List (Content β))
    (h : content.isPresent holds = true) :
    present holds shows (content :: rest) = content.shown shows :: present holds shows rest := by
  rw [present, List.filter_cons_of_pos h]
  rfl

theorem present_cons_of_neg (content : Content β) (rest : List (Content β))
    (h : content.isPresent holds = false) :
    present holds shows (content :: rest) = present holds shows rest := by
  rw [present, List.filter_cons_of_neg (by simp [h])]
  rfl

theorem present_ne_nil {contents : List (Content β)} (h : contents.all isConditional = false) :
    present holds shows contents ≠ [] := by
  obtain ⟨content, hmem, hcontent⟩ := List.all_eq_false.1 h
  have hpresent : content.isPresent holds = true := isPresent_of_not_conditional (by simpa using hcontent)
  unfold present
  intro hnil
  rw [List.map_eq_nil_iff, List.filter_eq_nil_iff] at hnil
  exact hnil content hmem hpresent

def gapped (texts : List Text) : Text := texts.flatMap ([' '] ++ ·)

theorem gapped_eq (texts : List Text) :
    gapped texts = space (!texts.isEmpty) ++ Text.joinWith [' '] texts := by
  cases texts with
  | nil => rfl
  | cons first texts =>
    rw [Text.joinWith_cons]
    rfl

theorem gapped_of_not_all {contents : List (Content β)} (h : contents.all isConditional = false) :
    gapped (present holds shows contents) = [' '] ++ Text.joinWith [' '] (present holds shows contents) := by
  have hne : present holds shows contents ≠ [] := present_ne_nil h
  rw [gapped_eq, List.isEmpty_eq_false_iff.2 hne]
  rfl

theorem laidOut_conditional (first behindConditional : Bool) (test : β)
    (value : Text ⊕ β) {rest : List (Content β)} (hrest : rest.all isConditional = true) :
    laidOut holds shows first behindConditional (.conditional test value :: rest) =
      (if holds test then space (!first) ++ value.elim id shows else []) ++
      laidOut holds shows false true rest := by
  have htrail : space (!true) = [] := rfl
  rw [laidOut, hrest, htrail, List.append_nil, if_pos rfl, Bool.not_true, Bool.and_false]
  rfl

theorem laidOut_of_all : ∀ {contents : List (Content β)}, contents.all isConditional = true →
    ∀ behindConditional : Bool,
    laidOut holds shows false behindConditional contents = gapped (present holds shows contents)
  | [], _, _ => rfl
  | .conditional test value :: rest, h, behindConditional => by
    have hrest : rest.all isConditional = true := h
    rw [laidOut_conditional _ _ _ _ hrest, laidOut_of_all hrest]
    by_cases htest : holds test = true
    · rw [if_pos htest, present_cons_of_pos (.conditional test value) rest htest]
      rfl
    · have habsent : holds test = false := by simpa using htest
      rw [if_neg htest, present_cons_of_neg (.conditional test value) rest habsent]
      rfl

theorem laidOut_of_not_conditional (first behindConditional : Bool)
    {content : Content β} (h : content.isConditional = false) (rest : List (Content β)) :
    laidOut holds shows first behindConditional (content :: rest) =
      space (!(first || behindConditional)) ++ content.shown shows ++
        laidOut holds shows false false rest := by
  cases content with
  | conditional test value => cases h
  | _ =>
    rw [laidOut]
    nofun

theorem joinWith_cons_eq_gapped (text : Text) (texts : List Text) :
    Text.joinWith [' '] (text :: texts) = text ++ gapped texts := Text.joinWith_cons [' '] text texts

theorem laidOut_of_not_all : ∀ {contents : List (Content β)}, contents.all isConditional = false →
    ∀ first behindConditional : Bool, laidOut holds shows first behindConditional contents =
      space (!(first || behindConditional)) ++ Text.joinWith [' '] (present holds shows contents)
  | [], h, _, _ => by cases h
  | content :: rest, h, first, behindConditional => by
    by_cases hcontent : content.isConditional = true
    · -- A conditional in front of something else brings the space behind it.
      have hrest : rest.all isConditional = false := by
        rw [List.all_cons, hcontent] at h
        exact h
      obtain ⟨test, value, rfl⟩ := exists_of_isConditional hcontent
      rw [laidOut, hrest, laidOut_of_not_all hrest]
      by_cases htest : holds test = true
      · rw [present_cons_of_pos (.conditional test value) rest htest,
          joinWith_cons_eq_gapped, gapped_of_not_all hrest, if_pos htest]
        simp [space, shown]
      · have habsent : holds test = false := by simpa using htest
        rw [present_cons_of_neg (.conditional test value) rest habsent, if_neg htest]
        simp [space]
    · have hother : content.isConditional = false := by simpa using hcontent
      rw [laidOut_of_not_conditional _ _ hother,
        present_cons_of_pos content rest (isPresent_of_not_conditional hother),
        joinWith_cons_eq_gapped, List.append_assoc]
      cases hrest : rest.all isConditional with
      | true => rw [laidOut_of_all hrest]
      | false =>
        rw [laidOut_of_not_all hrest, gapped_of_not_all hrest]
        rfl

theorem isEmpty_present (contents : List (Content β)) :
    (present holds shows contents).isEmpty = !contents.any (isPresent holds) := by
  induction contents with
  | nil => rfl
  | cons content rest ih =>
    by_cases hcontent : content.isPresent holds = true
    · rw [present_cons_of_pos content rest hcontent, List.any_cons, hcontent]
      rfl
    · have habsent : content.isPresent holds = false := by simpa using hcontent
      rw [present_cons_of_neg content rest habsent, ih, List.any_cons, habsent, Bool.false_or]

/-- Whether a list begins with a space although nothing stands in front of it: all of it is
conditionals, and the first that is present is none of the first. -/
def startsApart (holds : β → Bool) (contents : List (Content β)) : Bool :=
  contents.all isConditional && contents.head?.any (!isPresent holds ·) && contents.any (isPresent holds)

/-- What is shown for parts is what those of them that are present show, with one space between two. -/
theorem laidOut_eq (contents : List (Content β)) : laidOut holds shows true false contents =
    space (startsApart holds contents) ++ Text.joinWith [' '] (present holds shows contents) := by
  unfold startsApart
  cases hall : contents.all isConditional with
  | false =>
    rw [laidOut_of_not_all hall]
    rfl
  | true =>
    cases contents with
    | nil => rfl
    | cons content rest =>
      rw [List.all_cons, Bool.and_eq_true] at hall
      obtain ⟨test, value, rfl⟩ := exists_of_isConditional hall.1
      rw [laidOut_conditional _ _ _ _ hall.2, laidOut_of_all hall.2]
      by_cases htest : holds test = true
      · rw [present_cons_of_pos (.conditional test value) rest htest, joinWith_cons_eq_gapped, if_pos htest]
        simp [space, shown, isPresent, htest]
      · have habsent : holds test = false := by simpa using htest
        rw [present_cons_of_neg (.conditional test value) rest habsent,
          gapped_eq, isEmpty_present, if_neg htest]
        simp [isPresent, habsent]

end Content

/-! ## Parts as segments -/

section
variable (budget depth : Nat) (s : Surroundings) (same : β → Node → Prop)

/-- What a part stands for, if its source is read as what it was written for: template text that is
spliced in as chunks with the expressions between them, a test in front of a question mark, a value
where it may stand, and any other expression in front of a brace. -/
inductive Part.StandsFor : Part → Content β → Prop
  | text (text : Text) : StandsFor (.text text) (.text text)
  | splice {chunks : List Chunk} {sources : List Text} {expressions : List β} :
      (∀ chunk ∈ chunks, Static chunk.raw chunk.value) → chunks.length = sources.length + 1 →
      List.Forall₂ (fun expression source =>
        (freshExpression (Grammar.ofDepth budget (depth + 3))).Finds s (same expression) source)
        expressions sources →
      StandsFor (.splice (Segment.sourceOf (templateSegments chunks sources)))
        (.splice (weave chunks expressions))
  | embed {source : Text} {expression : β} :
      (freshExpression (Grammar.ofDepth budget (depth + 3))).Finds s (same expression) source →
      StandsFor (.embed source) (.embed expression)
  | conditional {test : Text} {value : Branch} {expression : β} {content : Text ⊕ β} :
      (Grammar.ofDepth budget (depth + 2)).FindsTest s.fresh (same expression) test →
      value.StandsFor (Grammar.ofDepth budget (depth + 1)) s.consequent same content →
      StandsFor (.conditional test value) (.conditional expression content)

end

variable {budget depth : Nat} {s : Surroundings} {same : β → Node → Prop}

theorem Part.StandsFor.isConditional {part : Part} {content : Content β}
    (h : part.StandsFor budget depth s same content) :
    part.isConditional = content.isConditional := by
  cases h <;> rfl

theorem all_isConditional : ∀ {parts : List Part} {contents : List (Content β)},
    List.Forall₂ (Part.StandsFor budget depth s same) parts contents →
    parts.all Part.isConditional = contents.all Content.isConditional
  | _, _, .nil => rfl
  | _, _, .cons hpart hrest => by
    rw [List.all_cons, List.all_cons, hpart.isConditional, all_isConditional hrest]

abbrev Meaning (β : Type) : Type := (β → Bool) → (β → Text) → Text

/-- Whether a node shows what is meant whenever it is given the values that are given to what was
looked for. -/
def Means (same : β → Node → Prop) (meaning : Meaning β) (node : Node) : Prop :=
  ∀ valuation holds shows, valuation.Agrees same holds shows → node.shown valuation = meaning holds shows

def Meaning.of (expression : β) : Meaning β := fun _ shows => shows expression

theorem means_of_same {expression : β} {node : Node} (h : same expression node) :
    Means same (.of expression) node :=
  fun _ _ _ agrees => (agrees expression node h).2

theorem apart_renderParts (parts : List Part) : Apart (renderParts false false parts) := by
  cases parts with
  | nil => exact apart_nil
  | cons part rest =>
    cases part with
    | conditional test value =>
      rw [renderParts]
      split
      · rw [renderConditional_eq]
        exact apart_expression _
      · rw [renderConditional_eq]
        exact apart_expression _
    | _ => exact apart_space _

def Renders (inner : Reader Node) (s : Surroundings) (same : β → Node → Prop)
    (source : Text) (meaning : Meaning β) : Prop :=
  ∃ segments sequences, List.Forall₂ (Segment.Reads inner s (Means same)) segments sequences ∧
    Segment.Seamless segments ∧
    Segment.sourceOf segments = source ∧ ∀ holds shows,
    valueOf (fun meaning => meaning holds shows) sequences.flatten = meaning holds shows

namespace Renders

variable {inner : Reader Node} {source : Text} {meaning : Meaning β}

theorem nil : Renders inner s same [] (fun _ _ => []) := ⟨[], [], .nil, trivial, rfl, fun _ _ => rfl⟩

theorem static {raw value : Text} (hstatic : Static raw value)
    (hseam : fuses raw source = false ∧ pairs raw source = false) (h : Renders inner s same source meaning) :
    Renders inner s same (raw ++ source) (fun holds shows => value ++ meaning holds shows) := by
  obtain ⟨segments, sequences, hreads, hseamless, rfl, hvalue⟩ := h
  refine ⟨.static raw :: segments, _ :: sequences, .cons (.static hstatic) hreads,
    ⟨hseam, hseamless⟩, rfl, fun holds shows => ?_⟩
  rw [List.flatten_cons, valueOf_append, valueOf_chars, hvalue]

theorem hole {expression : Text} {meant : Meaning β} (hfinds : inner.Finds s (Means same meant) expression)
    (h : Renders inner s same source meaning) :
    Renders inner s same (embedded expression ++ source)
      (fun holds shows => meant holds shows ++ meaning holds shows) := by
  obtain ⟨segments, sequences, hreads, hseamless, rfl, hvalue⟩ := h
  refine ⟨.hole expression :: segments, _ :: sequences, .cons (.hole hfinds) hreads,
    hseamless, rfl, fun holds shows => ?_⟩
  rw [List.flatten_cons, valueOf_append, hvalue]
  exact congrArg (· ++ _) (List.append_nil _)

theorem space (wanted : Bool) (h : Renders inner s same source meaning) :
    Renders inner s same (ClassWeave.space wanted ++ source)
      (fun holds shows => ClassWeave.space wanted ++ meaning holds shows) := by
  cases wanted with
  | false => exact h
  | true => exact h.static rfl (not_fuses_space (.inr rfl) source)

theorem apart_embedded (expression next : Text) : Apart (embedded expression ++ next) := apart_expression _

theorem splice (hapart : Apart source) (h : Renders inner s same source meaning) :
    ∀ {chunks : List Chunk} {sources : List Text}
    {expressions : List β}, (∀ chunk ∈ chunks, Static chunk.raw chunk.value) →
    chunks.length = sources.length + 1 →
    List.Forall₂ (fun expression source => inner.Finds s (same expression) source) expressions sources →
    Renders inner s same (Segment.sourceOf (templateSegments chunks sources) ++ source)
      (fun holds shows => valueOf shows (weave chunks expressions) ++ meaning holds shows)
  | [], _, _, _, hlength, _ => by cases hlength
  | [chunk], [], [], hchunks, _, _ => by
    have hstatic := h.static (hchunks chunk List.mem_cons_self) (hapart chunk.raw)
    simpa [templateSegments, Segment.source, weave, valueOf_chars] using hstatic
  | _ :: _ :: _, [], _, _, hlength, _ => by cases hlength
  | chunk :: chunks, expressionSource :: sources, expression :: expressions,
      hchunks, hlength, .cons hfinds hsources => by
    have ih := h.splice hapart (fun other hother => hchunks other (List.mem_cons_of_mem _ hother))
      (Nat.succ.inj hlength) hsources
    have hhole := ih.hole (hfinds.mono fun _ => means_of_same)
    have hstatic := hhole.static (hchunks chunk List.mem_cons_self) (apart_embedded _ _ chunk.raw)
    simpa [templateSegments, Segment.source, weave, valueOf_chars, Meaning.of] using hstatic

end Renders

theorem renders_parts (hbudget : 3 ≤ budget) {parts : List Part} {contents : List (Content β)}
    (hparts : List.Forall₂ (Part.StandsFor budget depth s same) parts contents) :
    ∀ first behindConditional : Bool,
    Renders (freshExpression (Grammar.ofDepth budget (depth + 3)))
      s same (renderParts first behindConditional parts)
      (fun holds shows => Content.laidOut holds shows first behindConditional contents) := by
  induction hparts with
  | nil => exact fun _ _ => .nil
  | @cons part content rest contents hpart hrest ih =>
    intro first behindConditional
    cases hpart with
    | text text =>
      have hstatic := ((ih false false).static (static_escape text) (apart_renderParts _ _)).space
        !(first || behindConditional)
      simpa [renderParts, Content.laidOut, Content.shown] using hstatic
    | splice hchunks hlength hsources =>
      have hsplice := ((ih false false).splice (apart_renderParts _) hchunks hlength hsources).space
        !(first || behindConditional)
      simpa [renderParts, Content.laidOut, Content.shown] using hsplice
    | embed hfinds =>
      have hhole :=
        ((ih false false).hole (hfinds.mono fun _ => means_of_same)).space !(first || behindConditional)
      simpa [renderParts, Content.laidOut, Content.shown, Meaning.of] using hhole
    | conditional htest hvalue =>
      -- Which spaces a conditional brings depends only on what the parts behind it are, so they are
      -- left open here.
      have hhole := fun lead trail => (ih false true).hole (finds_choice hbudget htest hvalue lead trail)
      have hall := all_isConditional hrest
      rw [renderParts]
      simp only [Content.laidOut, ← hall, renderConditional_eq]
      by_cases hrun : rest.all Part.isConditional = true
      · rw [if_pos hrun]
        simpa [hrun] using hhole (!first) false
      · rw [if_neg hrun]
        have hmixed : rest.all Part.isConditional = false := by simpa using hrun
        simpa [hmixed] using hhole (!(first || behindConditional)) true

/-! ## The literal -/

theorem Renders.exists_primary {source : Text} {meaning : Meaning β}
    (h : Renders (freshExpression (Grammar.ofDepth budget (depth + 3))) s same source meaning)
    (hbudget : source.length < budget) (offset : Nat) (rest : Text) : ∃ chunks span inner,
      primary (Grammar.ofDepth budget (depth + 3)) s (.at' ⟨mark :: source ++ mark :: rest, offset⟩) =
        .done (.mk (.template chunks) span inner) (.at' ⟨rest, offset + source.byteLength + 2⟩) ∧
      Means same meaning (.mk (.template chunks) span inner) := by
  obtain ⟨segments, sequences, hreads, hseamless, rfl, hvalue⟩ := h
  have hholes := Segment.holes_le_length segments
  have found := Lexeme.next_mark Lexeme.between_nil mark "\x60"
    (by decide) (Segment.sourceOf segments ++ mark :: rest) offset
  have htoken : (Place.at' ⟨mark :: Segment.sourceOf segments ++ mark :: rest, offset⟩).ahead.token =
    .mark "\x60" := found.token_eq
  have hstop : (Place.at' ⟨mark :: Segment.sourceOf segments ++ mark :: rest, offset⟩).ahead.stop =
      ⟨Segment.sourceOf segments ++ mark :: rest, offset + 1⟩ := found.stop_eq
  obtain ⟨chunks, inner, htail, -, hsequence⟩ := templateTail_of_segments hreads hseamless
    (Place.at' ⟨mark :: Segment.sourceOf segments ++ mark :: rest, offset⟩).ahead.start.offset
    (Nat.lt_of_le_of_lt hholes hbudget) (offset + 1) rest
    (Place.at' ⟨mark :: Segment.sourceOf segments ++ mark :: rest, offset⟩)
  rw [← hstop] at htail
  have hsound := sound_of_chunk htoken (not_missing_of_templateTail htail)
  have hprimary := primary_of_templateTail (g := Grammar.ofDepth budget (depth + 3)) htoken hsound htail
  have hend : offset + 1 + (Segment.sourceOf segments).byteLength + 1 =
    offset + (Segment.sourceOf segments).byteLength + 2 := by
    omega
  rw [hend] at hprimary
  refine ⟨chunks, _, inner, hprimary, fun valuation holds shows agrees => ?_⟩
  rw [Node.shown_template, ← hvalue]
  exact valueOf_of_forall₂ (fun meaning node hmeans => hmeans valuation holds shows agrees) hsequence

theorem byteLength_backquoted (source : Text) :
    Text.byteLength (mark :: source ++ [mark]) = source.byteLength + 2 := by
  have hmark : mark.utf8Size = 1 := rfl
  simp only [List.cons_append, Text.byteLength_cons, Text.byteLength_append, Text.byteLength_nil, hmark]
  omega

theorem contents_of_texts : ∀ {texts : List Text} {contents : List (Content β)},
    List.Forall₂ (Part.StandsFor budget depth s same) (texts.map .text) contents → contents = texts.map .text
  | [], _, .nil => rfl
  | text :: texts, _, .cons (.text _) hrest => congrArg (Content.text text :: ·) (contents_of_texts hrest)

theorem present_texts (holds : β → Bool) (shows : β → Text) (texts : List Text) :
    Content.present holds shows (texts.map .text) = texts := by
  induction texts with
  | nil => rfl
  | cons text texts ih =>
      exact (Content.present_cons_of_pos (.text text) _ rfl).trans (congrArg (text :: ·) ih)

theorem startsApart_texts (holds : β → Bool) (texts : List Text) :
    Content.startsApart holds (texts.map .text : List (Content β)) = false := by
  cases texts <;> rfl

theorem eq_texts_of_constants : ∀ {parts : List Part} {texts : List Text},
    parts.mapM Part.constant? = some texts → parts = texts.map .text
  | [], texts, h => by
    obtain rfl : [] = texts := Option.some.inj h
    rfl
  | part :: parts, texts, h => by
    rw [List.mapM_cons] at h
    obtain ⟨text, htext, h⟩ := Option.bind_eq_some_iff.1 h
    obtain ⟨rest, hrest, h⟩ := Option.bind_eq_some_iff.1 h
    obtain rfl : text :: rest = texts := Option.some.inj h
    have ih := eq_texts_of_constants hrest
    cases part with
    | text words =>
      obtain rfl : words = text := Option.some.inj htext
      exact congrArg (Part.text words :: ·) ih
    | _ => cases htext

theorem exists_not_text_of_constants : ∀ {parts : List Part}, parts.mapM Part.constant? = none →
    ¬∀ part ∈ parts, ∃ words, part = .text words
  | [], h => by cases h
  | part :: parts, h => by
    intro htexts
    obtain ⟨words, rfl⟩ := htexts part List.mem_cons_self
    rw [List.mapM_cons] at h
    cases hrest : parts.mapM Part.constant? with
    | none =>
        exact exists_not_text_of_constants hrest fun other hother =>
          htexts other (List.mem_cons_of_mem _ hother)
    | some texts =>
      rw [hrest] at h
      cases h

/-- The literal that is written for parts is read as one, and shows what the parts that are present
show, joined in order by single spaces; one more space stands in front of it exactly if all parts
are conditionals of which the first is absent and another present. It is a string literal exactly if
all parts are text. -/
theorem render_shows_present {parts : List Part} {contents : List (Content β)}
    (hparts : List.Forall₂ (Part.StandsFor budget depth s same) parts contents)
    (hbudget : (render parts).length < budget) (offset : Nat) (rest : Text) : ∃ literal,
    primary (Grammar.ofDepth budget (depth + 3)) s (.at' ⟨render parts ++ rest, offset⟩) =
      .done literal (.at' ⟨rest, offset + (render parts).byteLength⟩) ∧
    (literal.isString = true ↔ ∀ part ∈ parts, ∃ words, part = .text words) ∧
    ((render parts).head? = some Quoted.mark ↔ ∀ part ∈ parts, ∃ words, part = .text words) ∧
    ∀ valuation holds shows, valuation.Agrees same holds shows → literal.shown valuation =
      space (contents.all Content.isConditional && contents.head?.any (!Content.isPresent holds ·) &&
        contents.any (Content.isPresent holds)) ++
      Text.joinWith [' '] ((contents.filter (Content.isPresent holds)).map (Content.shown shows)) := by
  unfold render at hbudget ⊢
  cases hconstants : parts.mapM Part.constant? with
  | some texts =>
    obtain rfl := eq_texts_of_constants hconstants
    obtain rfl := contents_of_texts hparts
    have htexts : ∀ part ∈ texts.map Part.text, ∃ words, part = .text words := by
      intro part hpart
      obtain ⟨words, -, rfl⟩ := List.mem_map.1 hpart
      exact ⟨words, rfl⟩
    have hprimary := primary_encode Lexeme.between_nil (Text.joinWith [' '] texts)
      rest offset (Grammar.ofDepth budget (depth + 3)) s
    refine ⟨_, hprimary, ⟨fun _ => htexts, fun _ => rfl⟩, ⟨fun _ => htexts, fun _ => rfl⟩,
      fun valuation holds shows _ => ?_⟩
    have hpresent := present_texts holds shows texts
    have happart := startsApart_texts holds texts
    unfold Content.present at hpresent
    unfold Content.startsApart at happart
    rw [hpresent, happart, Node.shown_string]
    rfl
  | none =>
    rw [hconstants] at hbudget
    have hlength : (renderParts true false parts).length + 2 < budget := by simpa using hbudget
    have hnot := exists_not_text_of_constants hconstants
    have hrenders := renders_parts (by omega) hparts true false
    obtain ⟨chunks, span, inner, hprimary, hmeans⟩ := hrenders.exists_primary (by omega) offset rest
    dsimp only
    rw [List.append_assoc, List.singleton_append, byteLength_backquoted]
    refine ⟨_, hprimary, ⟨nofun, fun htexts => absurd htexts hnot⟩, ⟨?_, fun htexts => absurd htexts hnot⟩,
      fun valuation holds shows agrees => ?_⟩
    · intro hhead
      have : mark = Quoted.mark := Option.some.inj hhead
      exact absurd this (by decide)
    · exact (hmeans valuation holds shows agrees).trans (Content.laidOut_eq contents)

/-- Five parts, the first of them absent. -/
theorem render_shows_present_mixed : ∃ literal,
    primary (Grammar.ofDepth 100 3) { elements := false }
      (.at'
        ⟨render [.conditional ['a'] (.text ['x']), .text ['b'],
          .splice ['c', '$', '\x7b', 'd', '\x7d'], .embed ['e'],
        .conditional ['f'] (.expression ['g'])] ++ [';'], 0⟩) =
      .done literal (.at' ⟨[';'], 49⟩) ∧
    literal.shown ⟨fun node => match node.shape with
        | .identifier name => name == "f"
        | _ => false,
      fun node => match node.shape with
        | .identifier name => name.toList
        | _ => []⟩ = "b cd e g".toList := by
  have named : ∀ c : Char, c.isLower = true → IsVariableName [c] := fun _ => isVariableName_letter
  have hbudget : 0 < 100 := by decide
  have hparts : List.Forall₂ (Part.StandsFor 100 0 { elements := false } Node.IsVariable)
      [.conditional ['a'] (.text ['x']), .text ['b'], .splice ['c', '$', '\x7b', 'd', '\x7d'], .embed ['e'],
        .conditional ['f'] (.expression ['g'])]
      [.conditional "a" (.inl ['x']), .text ['b'], .splice [.inl 'c', .inr "d"],
        .embed "e", .conditional "f" (.inr "g")] := by
    have hchunks : ∀ chunk ∈ ([⟨['c'], some ['c']⟩, ⟨[], some []⟩] : List Chunk),
      Static chunk.raw chunk.value := by
      simp only [List.forall_mem_cons]
      exact ⟨rfl, rfl, nofun⟩
    refine .cons (.conditional (findsTest_variable (named 'a' rfl) hbudget 1 _) (.text _))
      (.cons (.text _) (.cons ?_ ?_))
    · exact .splice hchunks rfl (.cons (finds_variable (named 'd' rfl) hbudget 1 _) .nil)
    · refine .cons (.embed (finds_variable (named 'e' rfl) hbudget 1 _)) (.cons ?_ .nil)
      exact .conditional (findsTest_variable (named 'f' rfl) hbudget 1 _)
        (.expression (findsValue_variable (named 'g' rfl) hbudget 0 _))
  obtain ⟨literal, hprimary, -, -, hshown⟩ := render_shows_present hparts (by decide) 0 [';']
  refine ⟨literal, hprimary, (hshown _ (· == "f") String.toList ?_).trans (by decide)⟩
  rintro name node ⟨span, rfl⟩
  exact ⟨rfl, rfl⟩

end ClassWeave
