import ClassWeave.Proofs.Reaching
/-!
# The texts that a composed map relates

Every token of a composed map is on a line of the last text and leads to a line of the first one. It
is on the line itself, and not behind its end, if every token had a character to stand on when a
pass carried it (`Edit.Steady`), and it leads into the line if also each pass in between renewed the
map.
-/

namespace ClassWeave

namespace Edit

/-- Passes that leave every token a character to stand on: only the last one writes text that begins
with a line feed, and only the first one has edits that neither remove nor write. -/
structure Steady (passes : List (List Edit)) : Prop where
  opens : ∀ edits ∈ passes.dropLast, ∀ edit ∈ edits, edit.text.head? ≠ some '\n'
  acts : ∀ edits ∈ passes.tail, ∀ edit ∈ edits, ¬ edit.isVoid

theorem applyPasses_concat {last : List Edit} :
    ∀ {passes : List (List Edit)} {index : Nat} {text final : Text}
    {records : List Record}, applyPasses index text (passes ++ [last]) = .ok (final, records) →
    ∃ input older record, applyPasses index text passes = .ok (input, older) ∧
      applyAll (index + passes.length) input last = .ok (final, record) ∧ records = older ++ [record]
  | [], index, text, final, records, h => by
    obtain ⟨output, record, more, hlast, hrest, rfl⟩ := applyPasses_cons h
    simp only [applyPasses, Except.ok.injEq, Prod.mk.injEq] at hrest
    obtain ⟨rfl, rfl⟩ := hrest
    exact ⟨text, [], record, rfl, hlast, rfl⟩
  | first :: passes, index, text, final, records, h => by
    obtain ⟨output, record, more, hfirst, hrest, rfl⟩ := applyPasses_cons h
    obtain ⟨input, older, newest, hpasses, hlast, rfl⟩ := applyPasses_concat hrest
    refine ⟨input, record :: older, newest, ?_, ?_, rfl⟩
    · rw [applyPasses, hfirst]
      simp only [hpasses]
    · rwa [List.length_cons, Nat.add_comm passes.length, ← Nat.add_assoc]

theorem length_of_applyPasses :
    ∀ {passes : List (List Edit)} {index : Nat} {text final : Text} {records : List Record},
    applyPasses index text passes = .ok (final, records) → records.length = passes.length
  | [], _, _, _, _, h => by
    simp only [applyPasses, Except.ok.injEq, Prod.mk.injEq] at h
    rw [← h.2]
    rfl
  | _ :: _, _, _, _, _, h => by
    obtain ⟨output, record, more, -, hrest, rfl⟩ := applyPasses_cons h
    rw [List.length_cons, List.length_cons, length_of_applyPasses hrest]

end Edit

namespace SourceMap

variable {text final : Text} {passes : List (List Edit)} {records : List Record} {token : MapToken}

theorem not_mem_composeTokens_nil (happly : Edit.applyPasses 0 text [] = .ok (final, records)) :
    token ∉ composeTokens records := by
  obtain rfl := List.length_eq_zero_iff.1 (Edit.length_of_applyPasses happly)
  exact List.not_mem_nil

theorem composeTokens_cases {last : List Edit}
    (happly : Edit.applyPasses 0 text (passes ++ [last]) = .ok (final, records)) :
    ∃ input older record, Edit.applyPasses 0 text passes = .ok (input, older) ∧
      Edit.applyAll passes.length input last = .ok (final, record) ∧ records = older ++ [record] ∧
      (passes = [] ∧ input = text ∧ composeTokens records = record.tokens ∨
        passes ≠ [] ∧ older ≠ [] ∧ composeTokens records = extend (composeTokens older) record) := by
  obtain ⟨input, older, record, hpasses, hlast, rfl⟩ := Edit.applyPasses_concat happly
  rw [Nat.zero_add] at hlast
  refine ⟨input, older, record, hpasses, hlast, rfl, ?_⟩
  have hlength := Edit.length_of_applyPasses hpasses
  cases passes with
  | nil =>
    obtain rfl := List.length_eq_zero_iff.1 hlength
    simp only [Edit.applyPasses, Except.ok.injEq, Prod.mk.injEq, and_true] at hpasses
    exact .inl ⟨rfl, hpasses.symm, rfl⟩
  | cons first passes =>
    have holder : older ≠ [] := by
      rintro rfl
      simp at hlength
    exact .inr ⟨by simp, holder, composeTokens_concat holder record⟩

/-- Tokens stand on characters, as long as passes begin what they write with one. -/
theorem bears_composeTokens (happly : Edit.applyPasses 0 text passes = .ok (final, records))
    (opens : ∀ edits ∈ passes, ∀ edit ∈ edits, edit.text.head? ≠ some '\n')
    (acts : ∀ edits ∈ passes.tail, ∀ edit ∈ edits, ¬ edit.isVoid) :
    ∀ token ∈ composeTokens records, final.Bears token.generated := by
  induction passes using List.reverseRecOn generalizing final records with
  | nil => exact fun token htoken => absurd htoken (not_mem_composeTokens_nil happly)
  | append_singleton passes last ih =>
    intro token htoken
    obtain ⟨input, older, record, hpasses, hlast, rfl, hcases⟩ := composeTokens_cases happly
    have hopens := opens last (by simp)
    rcases hcases with ⟨rfl, rfl, htokens⟩ | ⟨hne, -, htokens⟩
    · rw [htokens, Record.tokens_eq (Edit.tiled_applyAll hlast)] at htoken
      obtain ⟨run, hmem, rfl⟩ := List.mem_map.1 htoken
      obtain ⟨hrun, hkind⟩ := Record.mem_writing.1 hmem
      exact Edit.bears_generated hlast hrun hkind hopens
    · rw [List.tail_append_of_ne_nil hne] at acts
      have bears := ih hpasses (fun edits hedits => opens edits (List.mem_append_left _ hedits))
        fun edits hedits => acts edits (List.mem_append_left _ hedits)
      rw [htokens] at htoken
      rcases landed_or_bears_extend hlast (acts last (by simp)) bears htoken with
          ⟨run, hrun, hkind, hplace⟩ | hbears
      · rw [hplace]
        exact Edit.bears_generated hlast hrun hkind hopens
      · exact hbears

theorem leadsInto_composeTokens (happly : Edit.applyPasses 0 text passes = .ok (final, records))
    (steady : Edit.Steady passes)
    (renews : ∀ older record newer, records = older ++ record :: newer →
      older ≠ [] → Renews (composeTokens older) record) :
    LeadsInto text final (composeTokens records) := by
  induction passes using List.reverseRecOn generalizing final records with
  | nil =>
    exact ⟨fun token htoken => absurd htoken (not_mem_composeTokens_nil happly),
      fun token htoken => absurd htoken (not_mem_composeTokens_nil happly)⟩
  | append_singleton passes last ih =>
    obtain ⟨input, older, record, hpasses, hlast, rfl, hcases⟩ := composeTokens_cases happly
    rcases hcases with ⟨rfl, rfl, htokens⟩ | ⟨hne, holder, htokens⟩
    · rw [htokens]
      exact leadsInto_tokens hlast
    · have opens := steady.opens
      have acts := steady.acts
      rw [List.dropLast_concat] at opens
      rw [List.tail_append_of_ne_nil hne] at acts
      have steady' : Edit.Steady passes :=
        ⟨fun edits hedits => opens edits (List.dropLast_subset _ hedits),
          fun edits hedits => acts edits (List.mem_append_left _ hedits)⟩
      have leads := ih hpasses steady' fun before middle newer hsplit =>
        renews before middle (newer ++ [record]) (by simp [hsplit])
      rw [htokens]
      exact leads.extend hlast (ordered_composeTokens hpasses) (acts last (by simp))
        (bears_composeTokens hpasses opens steady'.acts) (renews older record [] rfl holder)

theorem line_lt_of_mem_composeTokens (happly : Edit.applyPasses 0 text passes = .ok (final, records)) :
    ∀ token ∈ composeTokens records, token.source.line < text.lineLengths.length := by
  induction passes using List.reverseRecOn generalizing final records with
  | nil => exact fun token htoken => absurd htoken (not_mem_composeTokens_nil happly)
  | append_singleton passes last ih =>
    intro token htoken
    obtain ⟨input, older, record, hpasses, hlast, rfl, hcases⟩ := composeTokens_cases happly
    rcases hcases with ⟨rfl, rfl, htokens⟩ | ⟨-, -, htokens⟩
    · rw [htokens] at htoken
      exact ((leadsInto_tokens hlast).stands token htoken).lt_length
    · rw [htokens] at htoken
      obtain ⟨run, carried, hcarried⟩ :=
        exists_carried (Edit.tiled_applyAll hlast) (inOrder_pairwise _) (fun _ => settled_of_mem_align) htoken
      obtain ⟨front, origin, back, part, hsplit, hpart, hsettle, -, -⟩ := exists_of_mem_align hcarried.mem
      have hline : token.source.line = origin.source.line := by
        rw [hcarried.eq, carriedInto, source_of_mem_settle hsettle]
        rcases mem_split.1 hpart with rfl | ⟨-, run', -, -, -, rfl⟩ <;> rfl
      rw [hline]
      exact ih hpasses origin (by simp [hsplit])

/-- A token of a composed map is on a line of the last text and leads to a line of the first. It is
in the line if the passes are steady, and leads into the line if those before the last are and renew
the map. -/
theorem holds_of_mem_compose (happly : Edit.applyPasses 0 text passes = .ok (final, records))
    (file : Option String) :
    ∀ token ∈ (compose records file).tokens,
      token.generated.line < final.lineLengths.length ∧ token.source.line < text.lineLengths.length ∧
      (Edit.Steady passes → final.Holds token.generated) ∧
      (Edit.Steady passes.dropLast →
        (∀ older record newer, records = older ++ record :: newer → older ≠ [] → newer ≠ [] →
        Renews (composeTokens older) record) → text.Holds token.source) := by
  intro token htoken
  have hsource := line_lt_of_mem_composeTokens happly token htoken
  rcases List.eq_nil_or_concat passes with rfl | ⟨before, last, rfl⟩
  · exact absurd htoken (not_mem_composeTokens_nil happly)
  · rw [List.concat_eq_append] at happly ⊢
    obtain ⟨input, older, record, hpasses, hlast, rfl, hcases⟩ := composeTokens_cases happly
    rcases hcases with ⟨rfl, rfl, htokens⟩ | ⟨hne, -, htokens⟩
    · rw [compose, htokens] at htoken
      have hplace := (leadsInto_tokens hlast).stands token htoken
      rw [Record.tokens_eq (Edit.tiled_applyAll hlast)] at htoken
      obtain ⟨run, hmem, rfl⟩ := List.mem_map.1 htoken
      have hgenerated := (Edit.holds_generated hlast (Record.mem_writing.1 hmem).1).2
      exact ⟨hgenerated.lt_length, hsource, fun _ => hgenerated, fun _ _ => hplace⟩
    · rw [compose, htokens] at htoken
      obtain ⟨run, carried, hcarried⟩ :=
        exists_carried (Edit.tiled_applyAll hlast) (inOrder_pairwise _) (fun _ => settled_of_mem_align) htoken
      have hgenerated := (Edit.holds_generated hlast hcarried.run_mem).2
      have hline : token.generated.line = run.generated.line := by
        rw [hcarried.eq]
        rfl
      refine ⟨hline ▸ hgenerated.lt_length, hsource, fun steady => ?_, fun steady renews => ?_⟩
      · have opens := steady.opens
        have acts := steady.acts
        rw [List.dropLast_concat] at opens
        rw [List.tail_append_of_ne_nil hne] at acts
        have bears := bears_composeTokens hpasses opens fun edits hedits =>
          acts edits (List.mem_append_left _ hedits)
        rcases landed_or_bears_extend hlast (acts last (by simp)) bears htoken with
            ⟨run', hrun', -, hplace⟩ | hbears
        · rw [hplace]
          exact (Edit.holds_generated hlast hrun').2
        · exact hbears.holds
      · rw [List.dropLast_concat] at steady
        have leads := leadsInto_composeTokens hpasses steady fun before' middle newer hsplit hne' =>
          renews before' middle (newer ++ [record]) (by simp [hsplit]) hne' (by simp)
        rw [hcarried.eq]
        exact leads.align hlast (ordered_composeTokens hpasses).sorted carried hcarried.mem

/-- Three passes: the inner call of `a = f(g(1))` becomes `12`, the outer one `x12y`, whose inside
is replaced again. -/
theorem holds_of_mem_compose_nested_calls :
    let text : Text := ['a', ' ', '=', ' ', 'f', '(', 'g', '(', '1', ')', ')']
    let passes : List (List Edit) := [[⟨⟨6, 10⟩, some ['1', '2']⟩], [⟨⟨4, 9⟩, some ['x', '1', '2', 'y']⟩],
      [⟨⟨5, 7⟩, some ['3']⟩, ⟨⟨0, 1⟩, some ['b', 'c']⟩]]
    let final : Text := ['b', 'c', ' ', '=', ' ', 'x', '3', 'y']
    let records : List Record := [
      ⟨0, [⟨.unedited, ⟨0, 0⟩, ⟨0, 0⟩, ⟨0, 6⟩⟩, ⟨.replaced, ⟨0, 6⟩, ⟨0, 6⟩, ⟨0, 10⟩⟩,
        ⟨.unedited, ⟨0, 8⟩, ⟨0, 10⟩, ⟨0, 11⟩⟩]⟩,
      ⟨1, [⟨.unedited, ⟨0, 0⟩, ⟨0, 0⟩, ⟨0, 4⟩⟩, ⟨.replaced, ⟨0, 4⟩, ⟨0, 4⟩, ⟨0, 9⟩⟩]⟩,
      ⟨2, [⟨.replaced, ⟨0, 0⟩, ⟨0, 0⟩, ⟨0, 1⟩⟩, ⟨.unedited, ⟨0, 2⟩, ⟨0, 1⟩, ⟨0, 5⟩⟩,
        ⟨.replaced, ⟨0, 6⟩, ⟨0, 5⟩, ⟨0, 7⟩⟩, ⟨.unedited, ⟨0, 7⟩, ⟨0, 7⟩, ⟨0, 8⟩⟩]⟩]
    Edit.applyPasses 0 text passes = .ok (final, records) ∧
      ∀ token ∈ (compose records none).tokens, final.Holds token.generated ∧ text.Holds token.source := by
  intro text passes final records
  have happly : Edit.applyPasses 0 text passes = .ok (final, records) := by decide
  have steady : Edit.Steady passes := ⟨by decide, by decide⟩
  have steady' : Edit.Steady passes.dropLast := ⟨by decide, by decide⟩
  refine ⟨happly, fun token htoken => ?_⟩
  obtain ⟨-, -, hgenerated, hsource⟩ := holds_of_mem_compose happly none token htoken
  refine ⟨hgenerated steady, hsource steady' fun older record newer hsplit holder hnewer => ?_⟩
  -- The second pass is the only one between two others.
  rcases older with _ | ⟨first, _ | ⟨second, older⟩⟩
  · exact absurd rfl holder
  · simp only [records, List.cons_append, List.nil_append, List.cons.injEq] at hsplit
    obtain ⟨rfl, rfl, rfl⟩ := hsplit
    refine ⟨by decide, fun run hrun _ => .inl ⟨⟨⟨0, 0⟩, ⟨0, 0⟩, true⟩, ?_, .inl rfl⟩⟩
    simp only [List.mem_cons, List.not_mem_nil, or_false] at hrun
    rcases hrun with rfl | rfl
    · exact ⟨by decide, by decide, rfl, by decide⟩
    · exact ⟨by decide, by decide, rfl, by decide⟩
  · have hlength := congrArg List.length hsplit
    have := List.length_pos_iff.2 hnewer
    simp [records] at hlength
    omega

/-- A line feed is written at the end of `ab`, and `ab` becomes `x`: the token of the line feed
stays two columns behind the start of the line. -/
example :
    ∃ records, Edit.applyPasses 0 "abc".toList [[⟨⟨2, 3⟩, some "\n".toList⟩], [⟨⟨0, 2⟩, some "x".toList⟩]] =
      .ok ("x\n".toList, records) ∧
    ⟨⟨0, 2⟩, ⟨0, 2⟩, false⟩ ∈ (compose records none).tokens ∧ ¬ Text.Holds "x\n".toList ⟨0, 2⟩ :=
  ⟨_, rfl, by decide, by decide⟩

end SourceMap
end ClassWeave
