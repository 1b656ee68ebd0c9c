import ClassWeave.Proofs.Anchoring
import ClassWeave.Proofs.Governing
/-!
# Where written text comes from

Composing is ordinary composition on text that a pass writes: what is on its first line leads where
the start of the edit leads. It does so as long as the pass answers for the start at all
(`SourceMap.Answers`) and no later pass takes the start of the text away while it leaves more of it
(`Edit.anchoredThrough`). A pass that does is not covered: the token of the text goes with its
place, and what is left of it is answered by whatever stands in front.
-/

namespace ClassWeave

namespace SourceMap

/-! ## Maps of several passes -/

/-- Where a position of the text behind some passes comes from. -/
def originalPosition (records : List Record) (file : Option String) (position : Position) : Option Position :=
  if records = [] then some position else (compose records file).sourcePosition position

theorem composeTokens_append (older : List Record) (record : Record) (newer : List Record) :
    composeTokens (older ++ record :: newer) = newer.foldl extend (composeTokens (older ++ [record])) := by
  cases older with
  | nil => rfl
  | cons first older => simp [composeTokens]

theorem composeTokens_concat {older : List Record} (h : older ≠ []) (record : Record) :
    composeTokens (older ++ [record]) = extend (composeTokens older) record := by
  cases older with
  | nil => exact absurd rfl h
  | cons first older => simp [composeTokens]

structure Ordered (tokens : List MapToken) : Prop where
  sorted : tokens.Pairwise (·.generated ≤ ·.generated)
  unambiguous : Unambiguous tokens

theorem Ordered.extend {tokens : List MapToken} (h : Ordered tokens) {at' : Progress} {record : Record}
    (tiled : Tiled at' record.runs) : Ordered (extend tokens record) :=
  ⟨inOrder_pairwise _, unambiguous_extend tiled h.sorted h.unambiguous⟩

theorem ordered_tokens {at' : Progress} {record : Record} (tiled : Tiled at' record.runs) :
    Ordered record.tokens :=
  ⟨inOrder_pairwise _, unambiguous_tokens tiled⟩

theorem ordered_foldl :
    ∀ {passes : List (List Edit)} {index : Nat} {text final : Text} {records : List Record}
    {tokens : List MapToken}, Edit.applyPasses index text passes = .ok (final, records) → Ordered tokens →
    Ordered (records.foldl SourceMap.extend tokens)
  | [], _, _, _, _, _, happly, h => by
    simp only [Edit.applyPasses, Except.ok.injEq, Prod.mk.injEq] at happly
    rw [← happly.2]
    exact h
  | _ :: _, _, _, _, _, _, happly, h => by
    obtain ⟨output, record, more, hfirst, hrest, rfl⟩ := Edit.applyPasses_cons happly
    rw [List.foldl_cons]
    exact ordered_foldl hrest (h.extend (Edit.tiled_applyAll hfirst))

theorem ordered_composeTokens {passes : List (List Edit)} {index : Nat}
    {text final : Text} {records : List Record}
    (happly : Edit.applyPasses index text passes = .ok (final, records)) :
    Ordered (composeTokens records) := by
  cases passes with
  | nil =>
    simp only [Edit.applyPasses, Except.ok.injEq, Prod.mk.injEq] at happly
    rw [← happly.2]
    exact ⟨.nil, fun token htoken => by cases htoken⟩
  | cons edits rest =>
    obtain ⟨output, record, more, hfirst, hrest, rfl⟩ := Edit.applyPasses_cons happly
    exact ordered_foldl hrest (ordered_tokens (Edit.tiled_applyAll hfirst))

/-! ## The pass that writes -/

/-- A pass answers for what an edit writes as the passes before it answer for where the edit starts. -/
structure Answers (tokens : List MapToken) (record : Record) (span : Span) (start : Position) : Prop where
  /-- A range ends in front of an edit that removes nothing. -/
  range : ∀ token, Governs tokens token start → token.isRange = true → span.start < span.stop
  /-- A token of one place stays where it stands and answers for more than an empty stretch. -/
  point : ∀ token, Governs tokens token start → token.isRange = false →
    Settled record token ∧ (span.start < span.stop ∨ token.generated ≠ start)
  /-- No token stands on the line feed that follows: it would be taken along into the written text. -/
  free : ∀ other ∈ align tokens record, start < other.generated → other.generated.line = start.line →
    record.runAt other.generated ≠ none

section
variable {record : Record} {at' : Progress} {tokens : List MapToken} {run : Run} {position : Position}

theorem governs_tokens (tiled : Tiled at' record.runs) (hrun : run ∈ record.runs)
    (hkind : run.kind = .replaced) (line : run.generated.line = position.line)
    (hle : run.generated ≤ position)
    (hlater : ∀ later ∈ record.runs, later.kind ≠ .deleted → run.Precedes record.runs later →
      position < later.generated) : Governs record.tokens ⟨run.generated, run.start, false⟩ position := by
  have hwrites : run.kind ≠ .deleted := by simp [hkind]
  have htoken : run.token = ⟨run.generated, run.start, false⟩ := by simp [Run.token, hkind]
  rw [← htoken]
  refine ⟨?_, hle, line, fun other hother hposition => ?_⟩
  · rw [Record.tokens_eq tiled]
    exact List.mem_map_of_mem (Record.mem_writing.2 ⟨hrun, hwrites⟩)
  · rw [Record.tokens_eq tiled] at hother
    obtain ⟨run', hmem, rfl⟩ := List.mem_map.1 hother
    obtain ⟨hrun', hkind'⟩ := Record.mem_writing.1 hmem
    rcases tiled.trichotomy hrun hrun' with rfl | hprecedes | hprecedes
    · exact le_refl _
    · exact absurd hposition (not_le.2 (hlater run' hrun' hkind' hprecedes))
    · exact le_of_lt (hprecedes.generated_lt hkind')

/-- A later pass answers with where the passes before it lead from the start of the edit. -/
theorem Answers.governs_extend {span : Span} {source : Position} {file : Option String}
    (h : Answers tokens record span run.start) (tiled : Tiled at' record.runs) (ordered : Ordered tokens)
    (hrun : run ∈ record.runs) (hkind : run.kind = .replaced)
    (hspan : span.start < span.stop → run.start < run.stop)
    (hsource : (SourceMap.mk file tokens).sourcePosition run.start = some source)
    (line : run.generated.line = position.line) (hle : run.generated ≤ position)
    (hlater : ∀ later ∈ record.runs, later.kind ≠ .deleted → run.Precedes record.runs later →
      position < later.generated) : Governs (extend tokens record) ⟨run.generated,
      source, false⟩ position := by
  obtain ⟨token, hgoverns, rfl⟩ := exists_governs_of_sourcePosition ordered.sorted hsource
  have unambiguous := unambiguous_align ordered.sorted ordered.unambiguous record
  cases hrange : token.isRange with
  | true =>
    have hstop := hspan (h.range token hgoverns hrange)
    have haligned := hgoverns.align_range tiled ordered.sorted ordered.unambiguous hrange hrun hkind hstop
    exact haligned.written tiled (inOrder_pairwise _) (fun _ => settled_of_mem_align)
      unambiguous hrun hkind (.inl hstop) h.free line hle hlater
  | false =>
    obtain ⟨settled, hstop⟩ := h.point token hgoverns hrange
    have haligned := hgoverns.align_point ordered.sorted ordered.unambiguous hrange settled
    have hwritten :=
      haligned.written tiled (inOrder_pairwise _) (fun _ => settled_of_mem_align) unambiguous hrun hkind
        (hstop.imp hspan fun hne => lt_of_le_of_ne hgoverns.le hne) h.free line hle hlater
    have hsame : leadsTo token run.start = token.source := by simp [leadsTo, hrange]
    rw [hsame, ← hrange]
    exact hwritten

end

/-! ## Later passes -/

theorem governs_of_anchoredThrough {c : Char} : ∀ {passes : List (List Edit)} {index byte : Nat}
    {text final front inner back : Text} {records : List Record} {tokens : List MapToken} {source : Position},
    Edit.applyPasses index text passes = .ok (final, records) →
    text = front ++ (inner ++ c :: back) → '\n' ∉ inner ++ [c] →
    Edit.anchoredThrough passes front.byteLength (front ++ inner).byteLength = some byte → Ordered tokens →
    Governs tokens ⟨Position.origin.after front, source, false⟩ (Position.origin.after (front ++ inner)) →
    ∃ front' back' token, final = front' ++ c :: back' ∧ front'.byteLength = byte ∧
      Governs (records.foldl SourceMap.extend tokens) token (Position.origin.after front') ∧
      leadsTo token (Position.origin.after front') = source
  | [], _, byte, text, final, front, inner, back, _, tokens, source, happly, htext, _, hbyte, _, h => by
    simp only [Edit.applyPasses, Except.ok.injEq, Prod.mk.injEq] at happly
    obtain ⟨rfl, rfl⟩ := happly
    rw [Edit.anchoredThrough, Option.some.injEq] at hbyte
    refine ⟨front ++ inner, back, _, by rw [htext, List.append_assoc], hbyte, h, ?_⟩
    simp [leadsTo]
  | edits :: rest, _, byte, text, final, front, inner, back, _,
      tokens, source, happly, htext, flat, hbyte, ordered, h => by
    -- The invariant is that the token at the start of the written text is in charge of the
    -- character. A pass that takes the start away would leave it to the token in front.
    obtain ⟨output, record, more, hfirst, hrest, rfl⟩ := Edit.applyPasses_cons happly
    rw [Edit.anchoredThrough] at hbyte
    obtain ⟨anchor, hanchor, hbyte⟩ := Option.bind_eq_some_iff.1 hbyte
    obtain ⟨landing, hlanding, hbyte⟩ := Option.bind_eq_some_iff.1 hbyte
    have tiled := Edit.tiled_applyAll hfirst
    obtain ⟨front', inner', back', houtput, flat', rfl, rfl, run, hrun, copies, hstart⟩ :=
      Edit.exists_anchored_of_applyAll hfirst htext flat hanchor hlanding
    have settled : Settled record ⟨Position.origin.after front, source, false⟩ :=
      Edit.settled_of_anchor hfirst htext flat hanchor rfl
    have haligned := h.align_point ordered.sorted ordered.unambiguous rfl settled
    have hadjusted := haligned.adjust tiled (inOrder_pairwise _) (fun _ => settled_of_mem_align)
      (unambiguous_align ordered.sorted ordered.unambiguous record) hrun copies
    rw [carriedInto, hstart] at hadjusted
    rw [List.foldl_cons]
    exact governs_of_anchoredThrough hrest houtput flat' hbyte (ordered.extend tiled) hadjusted

theorem mem_behind {front back all : List Run} {run later : Run}
    {at' : Progress} (hkind : run.kind ≠ .deleted) (hkind' : later.kind ≠ .deleted)
    (tiled : Tiled at' (front ++ run :: back)) (hprecedes : run.Precedes all later)
    (hlater : later ∈ front ++ run :: back) : later ∈ back := by
  have hlt := hprecedes.generated_lt hkind
  rcases eq_or_before_or_behind tiled.pairwise hlater with rfl | hfront | ⟨hback, -⟩
  · exact absurd hlt (lt_irrefl _)
  · exact absurd hlt (lt_asymm (hfront.generated_lt hkind'))
  · exact hback

/-- A character of the first line that an edit writes and every later pass copies leads where the
passes before lead from the start of the edit. -/
theorem sourcePosition_compose_of_written {text input output final front back line rest : Text} {c : Char}
    {before after : List (List Edit)} {edits earlier later : List Edit}
    {edit : Edit} {older newer : List Record} {record : Record}
    {source : Position} {byte : Nat} (file : Option String)
    (hbefore : Edit.applyPasses 0 text before = .ok (input, older))
    (hpass : Edit.applyAll before.length input edits = .ok (output, record))
    (hafter : Edit.applyPasses (before.length + 1) output after = .ok (final, newer))
    (hedit : Edit.inOrder edits = earlier ++ edit :: later) (hwritten : edit.text = line ++ c :: rest)
    (flat : '\n' ∉ line ++ [c]) (hinput : input = front ++ back) (hstart : front.byteLength = edit.span.start)
    (hsource : originalPosition older file (Position.origin.after front) = some source)
    (answers : older ≠ [] → Answers (composeTokens older) record edit.span (Position.origin.after front))
    (hbyte : Edit.anchoredThrough after (edit.span.start + Edit.written earlier - Edit.removed earlier)
      (edit.span.start + Edit.written earlier - Edit.removed earlier + line.byteLength) = some byte) :
    ∃ front' back', final = front' ++ c :: back' ∧ front'.byteLength = byte ∧
      (compose (older ++ record :: newer) file).sourcePosition (Position.origin.after front') =
        some source := by
  have tiled := Edit.tiled_applyAll hpass
  have hfrom := Edit.applyAll_eq_ok hpass
  have hforward := (Edit.le_of_applyFrom hfrom edit (by rw [hedit]; simp)).2
  rw [hedit] at hfrom
  obtain ⟨front₁, gone, back₁, front₂, back₂, runs₁, runs₂, hsplit,
    houtput, hlength, hgone, hplace, hruns, hlast⟩ :=
    Edit.exists_editRun_of_applyFrom hfrom
  obtain rfl : front = front₁ := Text.eq_of_append_eq (hinput.symm.trans hsplit) (by omega)
  have hspan : edit.span.start < edit.span.stop → gone ≠ [] := by
    rintro hlt rfl
    rw [Text.byteLength_nil] at hgone
    omega
  let run := Progress.editRun ⟨Position.origin.after front₂, Position.origin.after front⟩ gone edit.text
  have hrun : run ∈ record.runs := by
    rw [hruns]
    exact List.mem_append_right _ List.mem_cons_self
  have hkind : run.kind = .replaced := by simp [run, Progress.editRun, hwritten]
  have hline : run.generated.line = (Position.origin.after (front₂ ++ line)).line := by
    rw [Position.after_append, Position.after_eq_of_flat _ fun h => flat (List.mem_append_left _ h)]
    rfl
  have hle : run.generated ≤ Position.origin.after (front₂ ++ line) := by
    rw [Position.after_append]
    exact Position.le_after _ _
  have hahead : ∀ later ∈ record.runs, later.kind ≠ .deleted → run.Precedes record.runs later →
      Position.origin.after (front₂ ++ line) < later.generated := by
    intro later hlater hlaterKind hprecedes
    have hbehind := mem_behind (by simp [hkind]) hlaterKind (hruns ▸ tiled) hprecedes (hruns ▸ hlater)
    refine lt_of_lt_of_le ?_ (hlast later hbehind)
    have hshorter : front₂ ++ edit.text = (front₂ ++ line) ++ c :: rest := by rw [hwritten, List.append_assoc]
    rw [hshorter, Position.after_append _ (front₂ ++ line)]
    exact Position.lt_after _ (by simp)
  have hgoverns : Governs (composeTokens (older ++ [record])) ⟨run.generated, source, false⟩
      (Position.origin.after (front₂ ++ line)) := by
    rw [originalPosition] at hsource
    split at hsource
    · rename_i hfirst
      subst hfirst
      obtain rfl := Option.some.inj hsource
      exact governs_tokens tiled hrun hkind hline hle hahead
    · rename_i hfirst
      rw [composeTokens_concat hfirst]
      exact (answers hfirst).governs_extend tiled (ordered_composeTokens hbefore) hrun hkind
        (fun hlt => Position.lt_after _ (hspan hlt)) hsource hline hle hahead
  have ordered : Ordered (composeTokens (older ++ [record])) := by
    by_cases hfirst : older = []
    · subst hfirst
      exact ordered_tokens tiled
    · rw [composeTokens_concat hfirst]
      exact (ordered_composeTokens hbefore).extend tiled
  have hplace' : edit.span.start + Edit.written earlier - Edit.removed earlier = front₂.byteLength := by omega
  rw [hplace', ← Text.byteLength_append] at hbyte
  have houtput' : output = front₂ ++ (line ++ c :: (rest ++ back₂)) := by
    rw [houtput, hwritten]
    simp
  obtain ⟨front', back', token, hfinal, hlength', hcharge, hleads⟩ :=
    governs_of_anchoredThrough hafter houtput' flat hbyte ordered hgoverns
  refine ⟨front', back', hfinal, hlength', ?_⟩
  rw [compose, composeTokens_append]
  rw [← hleads]
  exact hcharge.sourcePosition (ordered_foldl hafter ordered).sorted
    (ordered_foldl hafter ordered).unambiguous file

/-- The last character of `bc = x3y`: the inner call of `a = f(g(1))` became `12`, then the outer
one `x12y`, of which the last pass replaces the inside. -/
theorem sourcePosition_compose_nested_calls :
    ∃ input older output record final newer front' back',
      Edit.applyPasses 0 "a = f(g(1))".toList [[⟨⟨6, 10⟩, some "12".toList⟩]] = .ok (input, older) ∧
      Edit.applyAll 1 input [⟨⟨4, 9⟩, some "x12y".toList⟩] = .ok (output, record) ∧
      Edit.applyPasses 2 output [[⟨⟨5, 7⟩, some "3".toList⟩, ⟨⟨0, 1⟩, some "bc".toList⟩]] =
        .ok (final, newer) ∧
      final = front' ++ 'y' :: back' ∧
      (compose (older ++ record :: newer) none).sourcePosition (Position.origin.after front') =
        some ⟨0, 4⟩ := by
  have hbefore : Edit.applyPasses 0 "a = f(g(1))".toList [[⟨⟨6, 10⟩, some "12".toList⟩]] = .ok (_, _) := rfl
  have hpass : Edit.applyAll 1 "a = f(12)".toList [⟨⟨4, 9⟩, some "x12y".toList⟩] = .ok (_, _) := rfl
  have hafter : Edit.applyPasses 2 "a = x12y".toList [[⟨⟨5, 7⟩, some "3".toList⟩, ⟨⟨0, 1⟩, some "bc".toList⟩]]
    = .ok (_, _) := rfl
  have answers : Answers [⟨⟨0, 0⟩, ⟨0, 0⟩, true⟩, ⟨⟨0, 6⟩, ⟨0, 6⟩, false⟩, ⟨⟨0, 8⟩, ⟨0, 10⟩, true⟩]
      ⟨1, [⟨.unedited, ⟨0, 0⟩, ⟨0, 0⟩, ⟨0, 4⟩⟩, ⟨.replaced, ⟨0, 4⟩, ⟨0, 4⟩, ⟨0, 9⟩⟩]⟩ ⟨4, 9⟩ ⟨0, 4⟩ := by
    refine ⟨fun _ _ _ => by decide, fun token h hpoint => ?_, by decide⟩
    have hmem := h.mem
    have hle := h.le
    simp only [List.mem_cons, List.not_mem_nil, or_false] at hmem
    rcases hmem with rfl | rfl | rfl
    · cases hpoint
    · exact absurd hle (by decide)
    · cases hpoint
  have hedit : Edit.inOrder [⟨⟨4, 9⟩, some "x12y".toList⟩] = [] ++ ⟨⟨4, 9⟩, some "x12y".toList⟩ :: [] := rfl
  have hwritten : "x12y".toList = "x12".toList ++ 'y' :: [] := rfl
  have hinput : "a = f(12)".toList = "a = ".toList ++ "f(12)".toList := rfl
  have hbyte : Edit.anchoredThrough [[⟨⟨5, 7⟩, some "3".toList⟩, ⟨⟨0, 1⟩, some "bc".toList⟩]] 4 7 =
    some 7 := by decide
  obtain ⟨front', back', hfinal, -, hfound⟩ :=
    sourcePosition_compose_of_written none hbefore hpass hafter hedit hwritten
      (by decide) hinput rfl rfl (fun _ => answers) hbyte
  exact ⟨_, _, _, _, _, _, front', back', hbefore, hpass, hafter, hfinal, hfound⟩

end SourceMap
end ClassWeave
