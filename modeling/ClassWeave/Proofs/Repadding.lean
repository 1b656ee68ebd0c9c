import ClassWeave.Proofs.Renewal
/-!
# Conditionals that are read back

The tree that precedence gives to a conditional as it is written. The spaces that are put around its
value are the ones that are taken off it again, so the conditional that is found there is the one
that was written.
-/

namespace ClassWeave

/-! ## Trees of what is written -/

/-- The tree that precedence gives to an expression as it is written: sums from the left, and
nothing of what is put around an expression taken into it. -/
inductive Written.ParsedAs (pass other : Pass) : Written → Node → Prop where
  | copied {node found : Node} (alike : node.Alike pass other found) :
      ParsedAs pass other (.copied false node) found
  | enclosed {node inner : Node} {span : Span} (alike : node.Alike pass other inner)
      (textAt_eq : other.textAt span = (Written.copied true node).text pass) :
      ParsedAs pass other (.copied true node) (.mk .parenthesized span [inner])
  | quoted (text : Text) (span : Span) :
      ParsedAs pass other (.quoted text) (.mk (.literal (.string text)) span [])
  | led {value : Written} {blank found : Node} (span : Span)
      (blank_parsed : ParsedAs pass other (.quoted [' ']) blank)
      (value_parsed : ParsedAs pass other value found) :
      ParsedAs pass other (.led value) (.mk (.binary "+") span [blank, found])
  | trailed {value : Written} {found blank : Node} (span : Span)
      (value_parsed : ParsedAs pass other value found)
      (blank_parsed : ParsedAs pass other (.quoted [' ']) blank) :
      ParsedAs pass other (.trailed value) (.mk (.binary "+") span [found, blank])
  | choice {enclosed : Bool} {node test consequent alternate : Node} {value otherwise : Written} (span : Span)
      (test_parsed : ParsedAs pass other (.copied enclosed node) test)
      (value_parsed : ParsedAs pass other value consequent)
      (otherwise_parsed : ParsedAs pass other otherwise alternate) :
      ParsedAs pass other (.choice enclosed node value otherwise)
        (.mk .conditional span [test, consequent, alternate])

theorem Text.trim_spaced (text : Text) (lead trail : Bool) :
    (space lead ++ text ++ space trail).trim = text.trim := by
  have hlead : (space lead ++ text).trim = text.trim := by cases lead <;> rfl
  cases trail with
  | false => exact (congrArg trim (List.append_nil _)).trans hlead
  | true => exact (trim_append_space _).trans hlead

namespace Node

theorem withoutLead_of_isOperand {node : Node} (h : node.isOperand = true) : node.withoutLead = node := by
  fun_cases withoutLead node with
  | case1 | case2 => cases h
  | case3 => rfl

theorem isStringAmong_of_constantText?_eq_none {node : Node} (h : node.constantText? = none)
    (values : List Text) :
    node.isStringAmong values = false := by
  unfold isStringAmong
  split
  · rename_i hstring
    rw [constantText?, hstring] at h
    cases h
  · rfl

end Node

section
variable {pass other : Pass}

/-! ## Expressions of the pass that are found again -/

namespace Written.ParsedAs

theorem testSource {test found : Node}
    (h : (Written.copied test.isLooseTest test).ParsedAs pass other found) :
    testSource other found = ClassWeave.testSource pass test := by
  cases hloose : test.isLooseTest with
  | false =>
    rw [hloose] at h
    cases h with
    | copied halike => exact (testSource_alike halike).symm
  | true =>
    rw [hloose] at h
    cases h with
    | enclosed halike htext =>
      unfold ClassWeave.testSource
      rw [hloose]
      exact htext

variable {enclosed : Bool} {node found : Node}

theorem constantText? (h : (Written.copied enclosed node).ParsedAs pass other found) :
    found.constantText? = node.constantText? := by
  cases h with
  | copied halike => exact halike.constantText?.symm
  | enclosed halike => exact halike.constantText?.symm

theorem unpadded (h : (Written.copied enclosed node).ParsedAs pass other found) :
    node.unpadded.Alike pass other found.unpadded := by
  cases h with
  | copied halike => exact halike.unpadded
  | enclosed halike => exact halike.unpadded

theorem isOperand (h : (Written.copied (!node.isOperand) node).ParsedAs pass other found) :
    found.isOperand = true := by
  cases hoperand : node.isOperand with
  | true =>
    rw [hoperand] at h
    cases h with
    | copied halike => rw [← halike.isOperand, hoperand]
  | false =>
    rw [hoperand] at h
    cases h with
    | enclosed => rfl

theorem operandSource (h : (Written.copied (!node.isOperand) node).ParsedAs pass other found) :
    operandSource other found = ClassWeave.operandSource pass node := by
  cases hoperand : node.isOperand with
  | true =>
    rw [hoperand] at h
    cases h with
    | copied halike => exact (operandSource_alike halike).symm
  | false =>
    rw [hoperand] at h
    cases h with
    | enclosed halike htext =>
      unfold ClassWeave.operandSource
      rw [hoperand]
      exact htext

/-! ## Taking the spaces off again -/

theorem isStringAmong_space {blank : Node} (h : (Written.quoted [' ']).ParsedAs pass other blank) :
    blank.isStringAmong [[' ']] = true := by
  cases h with
  | quoted => rfl

theorem withoutTrail_trailed {value : Written} (h : value.trailed.ParsedAs pass other found) :
    ∃ inner, value.ParsedAs pass other inner ∧ found.unpadded = inner.withoutLead := by
  cases h with
  | @trailed _ inner blank span hvalue hblank =>
    refine ⟨inner, hvalue, ?_⟩
    rw [Node.unpadded, Node.unparenthesized, Node.withoutTrail, if_pos hblank.isStringAmong_space]
    rintro _ _ ⟨⟩

theorem withoutLead_led {value : Written} (h : value.led.ParsedAs pass other found) :
    ∃ inner, value.ParsedAs pass other inner ∧ found.withoutLead = inner := by
  cases h with
  | @led _ blank inner span hblank hvalue =>
    exact ⟨inner, hvalue, by rw [Node.withoutLead, if_pos hblank.isStringAmong_space]⟩

theorem unpadded_led {value : Written} (h : value.led.ParsedAs pass other found)
    (hconstant : ∀ inner, value.ParsedAs pass other inner → inner.constantText? = none) :
    found.unpadded = found.withoutLead := by
  cases h with
  | @led _ blank inner span hblank hvalue =>
    have hspace : ¬ inner.isStringAmong [[' ']] = true :=
      Bool.eq_false_iff.1 (Node.isStringAmong_of_constantText?_eq_none (hconstant inner hvalue) _)
    rw [Node.unpadded, Node.unparenthesized, Node.withoutTrail, if_neg hspace]
    rintro _ _ ⟨⟩

theorem unpadded_padded {lead trail : Bool} (hspaced : lead || trail) (hconstant : node.constantText? = none)
    (h : (padded lead trail (.copied (!node.isOperand) node)).ParsedAs pass other found) :
    (Written.copied (!node.isOperand) node).ParsedAs pass other found.unpadded := by
  cases trail with
  | true =>
    obtain ⟨inner, hinner, hfound⟩ := h.withoutTrail_trailed
    rw [hfound]
    cases lead with
    | true =>
      obtain ⟨core, hcore, heq⟩ := hinner.withoutLead_led
      exact heq ▸ hcore
    | false => exact (Node.withoutLead_of_isOperand hinner.isOperand).symm ▸ hinner
  | false =>
    cases lead with
    | true =>
      obtain ⟨core, hcore, heq⟩ := h.withoutLead_led
      rw [h.unpadded_led fun inner hinner => hinner.constantText?.trans hconstant, heq]
      exact hcore
    | false => cases hspaced

end Written.ParsedAs

/-! ## The conditional -/

def writtenValue (value : Node) (lead trail : Bool) : Written :=
  match value.unpadded.constantText? with
  | some text => .quoted (space lead ++ text.trim ++ space trail)
  | none => padded lead trail (.copied (!value.unpadded.isOperand) value.unpadded)

theorem branchOf_of_parsedAs {value found : Node} {lead trail : Bool} (hfixed : value.unpadded = value)
    (h : (writtenValue value lead trail).ParsedAs pass other found) :
    branchOf other found = branchOf pass value := by
  unfold writtenValue at h
  rw [hfixed] at h
  cases hconstant : value.constantText? with
  | some text =>
    rw [hconstant] at h
    cases h with
    | quoted _ span =>
      have hfound :
          branchOf other (.mk (.literal (.string (space lead ++ text.trim ++ space trail))) span []) =
            .text (space lead ++ text.trim ++ space trail).trim := rfl
      rw [hfound, branchOf, hfixed, hconstant, Text.trim_spaced, Text.trim_trim]
  | none =>
    rw [hconstant] at h
    cases hspaced : lead || trail with
    | true =>
      have hcore := h.unpadded_padded hspaced hconstant
      rw [branchOf, branchOf, hfixed, hcore.constantText?, hconstant, hcore.operandSource]
    | false =>
      -- With no space around it, the parentheses that were put around the value are taken off with its own.
      obtain ⟨rfl, rfl⟩ := Bool.or_eq_false_iff.1 hspaced
      have hcore : (Written.copied (!value.isOperand) value).ParsedAs pass other found := h
      have halike := hcore.unpadded
      rw [hfixed] at halike
      rw [branchOf, branchOf, hfixed, ← halike.constantText?, hconstant, operandSource_alike halike]

theorem isBlankString_of_parsedAs {wanted : Bool} {found : Node}
    (h : (Written.quoted (space wanted)).ParsedAs pass other found) :
    found.isBlankString = true := by
  cases h with
  | quoted => cases wanted <;> rfl

theorem standing_of_parsedAs {test value found : Node} {lead trail : Bool}
    (h : (writtenConditional test value lead trail).ParsedAs pass other found) :
    ∃ test' value', found.standing = .conditional test' value' ∧
      (Written.copied test.isLooseTest test).ParsedAs pass other test' ∧
      (writtenValue value lead trail).ParsedAs pass other value' := by
  cases h with
  | @choice _ _ test' value' alternate _ _ span htest hvalue hotherwise =>
    refine ⟨test', value', ?_, htest, hvalue⟩
    have hblank := isBlankString_of_parsedAs hotherwise
    show (if alternate.isBlankString then Standing.conditional test' value' else .other) = _
    rw [if_pos hblank]

theorem conditionalPart_of_parsedAs {test value found : Node}
    {lead trail : Bool} (hfixed : value.unpadded = value)
    (h : (writtenConditional test value lead trail).ParsedAs pass other found) :
    ∃ test' value', found.standing = .conditional test' value' ∧
      conditionalPart other test' value' = conditionalPart pass test value := by
  obtain ⟨test', value', hstanding, htest, hvalue⟩ := standing_of_parsedAs h
  refine ⟨test', value', hstanding, ?_⟩
  rw [conditionalPart_eq, conditionalPart_eq, htest.testSource, branchOf_of_parsedAs hfixed hvalue]

theorem classes_of_blank {chunks : List Chunk} (hchunks : chunks.map Chunk.value = [[], []]) (found : Node) :
    classes chunks [found] = [[.embedded found]] := by
  obtain ⟨first, last, rfl⟩ := List.length_eq_two.1 (by simpa using congrArg List.length hchunks)
  obtain ⟨hfirst, hlast⟩ : first.value = [] ∧ last.value = [] := by simpa using hchunks
  rw [classes_eq_stretches rfl, weave, weave, hfirst, hlast]
  rfl

/-- The segment of a conditional is read as the conditional that it was written from, with any
spaces around its value. Writing it elsewhere puts no more and no fewer spaces and parentheses there
than writing it at first. -/
theorem parts_of_parsed_segment (pass other : Pass) {test value found : Node}
    {lead trail : Bool} {chunks : List Chunk} (hfixed : value.unpadded = value)
    (hchunks : chunks.map Chunk.value = [[], []])
    (h : (writtenConditional test value lead trail).ParsedAs pass other found) :
    ∃ source branch, conditionalPart pass test value = .conditional source branch ∧
      embedded ((writtenConditional test value lead trail).text pass) =
        renderConditional source branch lead trail ∧
      parts other chunks [found] = [.conditional source branch] ∧
      ∃ test' value', found.standing = .conditional test' value' ∧ ∀ lead' trail',
        embedded ((writtenConditional test' value' lead' trail').text other) =
          renderConditional source branch lead' trail' := by
  obtain ⟨test', value', hstanding, hsame⟩ := conditionalPart_of_parsedAs hfixed h
  have hpart : partOf other [.embedded found] = some (conditionalPart other test' value') := by
    show aloneParts other found = _
    rw [aloneParts_eq, hstanding]
    rfl
  refine ⟨testSource pass test, branchOf pass value, rfl, text_writtenConditional pass test value lead trail,
    ?_, test', value', hstanding, fun lead' trail' => ?_⟩
  · rw [parts, classes_of_blank hchunks, List.filterMap_cons_some hpart,
      List.filterMap_nil, hsame, conditionalPart_eq]
  · obtain ⟨htest, hbranch⟩ : testSource other test' = testSource pass test ∧
      branchOf other value' = branchOf pass value := by
      simpa [conditionalPart_eq] using hsame
    rw [← htest, ← hbranch]
    exact text_writtenConditional other test' value' lead' trail'

end

set_option maxRecDepth 100000 in
/-- A value that stands in parentheses between two spaces. -/
theorem parts_of_parsed_segment_enclosed :
    ∃ (test value found : Node) (chunks : List Chunk) (written read : Module),
    Module.read "`$\x7ba ? b || c : ''\x7d`".toList false = .ok written ∧
      Module.read "`$\x7ba ? \" \" + (b || c) + \" \" : \" \"\x7d`".toList false = .ok read ∧
      read.items = [.mk .expressionStatement ⟨0, 35⟩ [.mk (.template chunks) ⟨0, 35⟩ [found]]] ∧
      value.unpadded = value ∧ chunks.map Chunk.value = [[], []] ∧
      (writtenConditional test value true true).ParsedAs ⟨0, written⟩ ⟨0, read⟩ found ∧
      parts ⟨0, read⟩ chunks [found] = [.conditional ['a'] (.expression "(b || c)".toList)] := by
  let test : Node := .mk (.identifier "a") ⟨3, 4⟩ []
  let value : Node :=
    .mk (.binary "||") ⟨7, 13⟩ [.mk (.identifier "b") ⟨7, 8⟩ [], .mk (.identifier "c") ⟨12, 13⟩ []]
  let ends : Node := .mk (.literal (.string [])) ⟨16, 18⟩ []
  let chunks : List Chunk := [⟨[], some []⟩, ⟨[], some []⟩]
  let written : Module := ⟨"`$\x7ba ? b || c : ''\x7d`".toList,
    [.mk .expressionStatement ⟨0, 20⟩
      [.mk (.template chunks) ⟨0, 20⟩ [.mk .conditional ⟨3, 18⟩ [test, value, ends]]]]⟩
  let operand : Node := .mk .parenthesized ⟨13, 21⟩
    [.mk (.binary "||") ⟨14, 20⟩ [.mk (.identifier "b") ⟨14, 15⟩ [], .mk (.identifier "c") ⟨19, 20⟩ []]]
  let led : Node := .mk (.binary "+") ⟨7, 21⟩ [.mk (.literal (.string [' '])) ⟨7, 10⟩ [], operand]
  let found : Node := .mk .conditional ⟨3, 33⟩ [test,
    .mk (.binary "+") ⟨7, 27⟩ [led, .mk (.literal (.string [' '])) ⟨24, 27⟩ []],
    .mk (.literal (.string [' '])) ⟨30, 33⟩ []]
  let read : Module := ⟨"`$\x7ba ? \" \" + (b || c) + \" \" : \" \"\x7d`".toList,
    [.mk .expressionStatement ⟨0, 35⟩ [.mk (.template chunks) ⟨0, 35⟩ [found]]]⟩
  have hfixed : value.unpadded = value := rfl
  have hchunks : chunks.map Chunk.value = [[], []] := rfl
  have hparsed : (writtenConditional test value true true).ParsedAs ⟨0, written⟩ ⟨0, read⟩ found :=
    .choice _ (.copied (by decide +kernel))
      (.trailed _ (.led _ (.quoted _ _) (.enclosed (by decide +kernel) (by decide +kernel))) (.quoted _ _))
      (.quoted _ _)
  obtain ⟨_, _, hpart, -, hparts, -⟩ := parts_of_parsed_segment ⟨0, written⟩ ⟨0, read⟩ hfixed hchunks hparsed
  refine ⟨test, value, found, chunks, written, read, by rfl, by rfl, rfl, hfixed, hchunks, hparsed, ?_⟩
  rw [hparts, ← hpart]
  rfl

end ClassWeave
