import ClassWeave.Proofs.Accounting
/-!
# Which places have a run

A run is found for a place of the input exactly if some run covers it, and then it is the one that
does. The places without a run can be read off the text and the edits: the line feeds that stay and
the columns behind their lines, and everything from the end of the text on.
-/

namespace ClassWeave

/-- A place that belongs to nothing: at or behind the end of the text, or on a line feed outside of
the edits or behind it on its line. -/
def Text.Vacant (text : Text) (edits : List Edit) (position : Position) : Prop :=
  Position.origin.after text ≤ position ∨ ∃ front back, text = front ++ '\n' :: back ∧
    (∀ edit ∈ edits, edit.covers front.byteLength = false) ∧
    Position.origin.after front ≤ position ∧ position < (Position.origin.after front).nextLine

theorem Text.exists_char_of_lt {position : Position} : ∀ {text : Text} {at' : Position}, at' ≤ position →
    position < at'.after text → ∃ front c back, text = front ++ c :: back ∧ at'.after front ≤ position ∧
      position < at'.after (front ++ [c])
  | [], _, hle, hlt => absurd hlt (not_lt.2 hle)
  | c :: text, at', hle, hlt => by
    by_cases here : position < at'.past c
    · exact ⟨[], c, text, rfl, hle, here⟩
    · obtain ⟨front, d, back, rfl, hle', hlt'⟩ := exists_char_of_lt (not_lt.1 here) hlt
      exact ⟨c :: front, d, back, rfl, hle', hlt'⟩

theorem Run.StandsFor.covers_of_contains {text front back : Text} {c : Char} {edit : Edit} {run : Run}
    {position : Position} (h : run.StandsFor text edit) (htext : text = front ++ c :: back)
    (hle : Position.origin.after front ≤ position) (hlt : position < Position.origin.after (front ++ [c]))
    (hcontains : run.contains position) : edit.covers front.byteLength = true := by
  have hstart := h.start
  have hstop := h.stop
  rw [Text.positionAt?, Option.map_eq_some_iff] at hstart hstop
  obtain ⟨⟨before, behind⟩, hcut, hstart⟩ := hstart
  obtain ⟨⟨before', behind'⟩, hcut', hstop⟩ := hstop
  obtain ⟨hsplit, hlength⟩ := Text.cut_eq_some hcut
  obtain ⟨hsplit', hlength'⟩ := Text.cut_eq_some hcut'
  simp only at hstart hstop
  rw [Run.contains_iff, ← hstart, ← hstop] at hcontains
  obtain ⟨hfrom, hto⟩ := hcontains
  simp only [Edit.covers, Bool.and_eq_true, decide_eq_true_eq]
  constructor
  · by_contra hlate
    obtain ⟨between, rfl, hback⟩ := Text.exists_append_of_le (hsplit.symm.trans htext) (by omega)
    cases between with
    | nil =>
      rw [List.append_nil] at hlength
      omega
    | cons d between =>
      obtain ⟨rfl, -⟩ := List.cons.inj hback
      have hpast := Position.after_le_append Position.origin (front ++ [c]) between
      rw [← List.append_cons] at hpast
      exact absurd hlt (not_lt.2 (le_trans hpast hfrom))
  · by_contra hearly
    obtain ⟨between, rfl, -⟩ := Text.exists_append_of_le (htext.symm.trans hsplit') (by omega)
    exact absurd hto (not_lt.2 (le_trans (Position.after_le_append _ _ _) hle))

namespace Edit

variable {index : Nat} {text output : Text} {edits : List Edit} {record : Record} {position : Position}

theorem stop_le_of_applyAll (happly : applyAll index text edits = .ok (output, record)) {run : Run}
    (hrun : run ∈ record.runs) : run.stop ≤ Position.origin.after text := by
  obtain ⟨tiles, rfl, -, -, -, hruns⟩ := Tiles.exists_of_applyFrom (applyAll_eq_ok happly)
  obtain ⟨before, after, hsplit⟩ := List.append_of_mem hrun
  obtain ⟨front, tile, back, rfl, -, htile⟩ := Tiles.exists_tile_of_run (hruns.trans hsplit)
  have hstop : run.stop = Position.origin.after (Tiles.source front ++ tile.source) := by
    rw [Position.after_append]
    cases tile with
    | lineFeed => cases htile
    | piece text => rw [← (List.cons.inj htile).1]; rfl
    | edit change removed => rw [← (List.cons.inj htile).1]; rfl
  rw [hstop, Tiles.source_append, Tiles.source_cons, ← List.append_assoc]
  exact Position.after_le_append _ _ _

theorem not_contains_of_contains (happly : applyAll index text edits = .ok (output, record))
    {before after : List Run} {run : Run} (hruns : record.runs = before ++ run :: after)
    (hcontains : run.contains position) :
    ∀ other ∈ before ++ after, ¬ other.contains position := by
  have order := (tiled_applyAll happly).pairwise
  rw [hruns, List.pairwise_append, List.pairwise_cons] at order
  obtain ⟨hstart, hstop⟩ := Run.contains_iff.1 hcontains
  intro other hother hcovers
  obtain ⟨hstart', hstop'⟩ := Run.contains_iff.1 hcovers
  rcases List.mem_append.1 hother with hother | hother
  · have hbefore := (order.2.2 other hother run List.mem_cons_self).stop_le
    exact absurd hstop' (not_lt.2 (le_trans hbefore hstart))
  · have hbehind := (order.2.1.1 other hother).stop_le
    exact absurd hstop (not_lt.2 (le_trans hbehind hstart'))

theorem runAt_eq_some_iff (happly : applyAll index text edits = .ok (output, record)) {run : Run} :
    record.runAt position = some run ↔ run ∈ record.runs ∧ run.contains position := by
  constructor
  · intro h
    obtain ⟨hrun, hstart, hstop⟩ := Record.mem_of_runAt h
    exact ⟨hrun, Run.contains_iff.2 ⟨hstart, hstop⟩⟩
  · rintro ⟨hrun, hcontains⟩
    obtain ⟨hstart, hstop⟩ := Run.contains_iff.1 hcontains
    exact Record.runAt_eq_some (tiled_applyAll happly) hrun hstart hstop

theorem runAt_eq_none_iff (happly : applyAll index text edits = .ok (output, record)) :
    record.runAt position = none ↔ ∀ run ∈ record.runs, ¬ run.contains position := by
  constructor
  · exact Record.not_contains_of_runAt (tiled_applyAll happly)
  · intro free
    rw [Option.eq_none_iff_forall_ne_some]
    intro run h
    obtain ⟨hrun, hcontains⟩ := (runAt_eq_some_iff happly).1 h
    exact free run hrun hcontains

theorem exists_run_over_char (happly : applyAll index text edits = .ok (output, record))
    {front back : Text} {c : Char} (htext : text = front ++ c :: back)
    (hheld : c ≠ '\n' ∨ ∃ edit ∈ edits, edit.covers front.byteLength = true)
    (hle : Position.origin.after front ≤ position) (hlt : position < Position.origin.after (front ++ [c])) :
    ∃ run ∈ record.runs, run.contains position := by
  by_cases hspared : ∀ edit ∈ edits, edit.covers front.byteLength = false
  · have hc : c ≠ '\n' :=
      hheld.resolve_right fun ⟨edit, hedit, hcovers⟩ => by simp [hspared edit hedit] at hcovers
    obtain ⟨before, run, after, hruns, -, hstart, hstop, -⟩ := covered_of_applyAll happly htext hc hspared
    exact ⟨run, by simp [hruns], Run.contains_iff.2 ⟨le_trans hstart hle, lt_of_lt_of_le hlt hstop⟩⟩
  · simp only [not_forall, Bool.not_eq_false] at hspared
    obtain ⟨edit, hedit, hcovers⟩ := hspared
    obtain ⟨run, hrun, hstands⟩ := exists_standsFor happly hedit
    exact ⟨run, hrun, hstands.contains htext hcovers hle hlt⟩

theorem exists_standsFor_of_mem (happly : applyAll index text edits = .ok (output, record)) {run : Run}
    (hrun : run ∈ record.runs) (hkind : run.kind ≠ .unedited) : ∃ edit ∈ edits, run.StandsFor text edit := by
  have hfiltered : run ∈ record.runs.filter (·.kind ≠ .unedited) :=
    List.mem_filter.2 ⟨hrun, by simpa using hkind⟩
  obtain ⟨edit, hedit, hstands⟩ := exists_of_forall₂ (forall₂_standsFor_of_applyAll happly) hfiltered
  exact ⟨edit, (Sorting.mem_sort _).1 hedit, hstands⟩

theorem not_contains_of_lineFeed (happly : applyAll index text edits = .ok (output, record))
    {front back : Text} (htext : text = front ++ '\n' :: back)
    (hspared : ∀ edit ∈ edits, edit.covers front.byteLength = false)
    (hle : Position.origin.after front ≤ position) (hlt : position < (Position.origin.after front).nextLine) :
    ∀ run ∈ record.runs, ¬ run.contains position := by
  have hlt' : position < Position.origin.after (front ++ ['\n']) := by
    rw [Position.after_append]
    exact hlt
  intro run hrun hcontains
  by_cases hkind : run.kind = .unedited
  · exact clean_of_applyAll happly htext (.inl rfl) hrun hkind hle hlt' hcontains
  · obtain ⟨edit, hedit, hstands⟩ := exists_standsFor_of_mem happly hrun hkind
    have hcovers := hstands.covers_of_contains htext hle hlt' hcontains
    simp [hspared edit hedit] at hcovers

/-- The places without a run are those that the text and the edits leave vacant. -/
theorem vacant_iff (happly : applyAll index text edits = .ok (output, record)) :
    text.Vacant edits position ↔ ∀ run ∈ record.runs, ¬ run.contains position := by
  constructor
  · rintro (hbehind | ⟨front, back, htext, hspared, hle, hlt⟩)
    · intro run hrun hcontains
      have hstop := (Run.contains_iff.1 hcontains).2
      exact absurd hstop (not_lt.2 (le_trans (stop_le_of_applyAll happly hrun) hbehind))
    · exact not_contains_of_lineFeed happly htext hspared hle hlt
  · intro free
    by_contra hvacant
    rw [Text.Vacant, not_or, not_le] at hvacant
    obtain ⟨hinside, hkept⟩ := hvacant
    have hfirst : Position.origin ≤ position := by
      rw [Position.le_iff]
      simp only [Position.origin]
      omega
    obtain ⟨front, c, back, htext, hle, hlt⟩ := Text.exists_char_of_lt hfirst hinside
    have hheld : c ≠ '\n' ∨ ∃ edit ∈ edits, edit.covers front.byteLength = true := by
      by_contra hloose
      simp only [not_or, not_not, not_exists, not_and, Bool.not_eq_true] at hloose
      obtain ⟨rfl, hspared⟩ := hloose
      rw [Position.after_append] at hlt
      exact hkept ⟨front, back, htext, hspared, hle, hlt⟩
    obtain ⟨run, hrun, hcontains⟩ := exists_run_over_char happly htext hheld hle hlt
    exact free run hrun hcontains

/-- A record finds the one run that covers a place. It finds none exactly if there is none, and that
is where the text and the edits leave the place vacant. -/
theorem runAt_of_applyAll (happly : applyAll index text edits = .ok (output, record)) (position : Position) :
    (∀ before run after, record.runs = before ++ run :: after → run.contains position →
      record.runAt position = some run ∧ ∀ other ∈ before ++ after, ¬ other.contains position) ∧
    (∀ run, record.runAt position = some run → run ∈ record.runs ∧ run.contains position) ∧
    (record.runAt position = none ↔ ∀ run ∈ record.runs, ¬ run.contains position) ∧
    (record.runAt position = none ↔ text.Vacant edits position) := by
  refine ⟨fun before run after hruns hcontains => ⟨?_, not_contains_of_contains happly hruns hcontains⟩,
    fun run => (runAt_eq_some_iff happly).1, runAt_eq_none_iff happly, ?_⟩
  · have hrun : run ∈ record.runs := by simp [hruns]
    exact (runAt_eq_some_iff happly).2 ⟨hrun, hcontains⟩
  · rw [runAt_eq_none_iff happly, vacant_iff happly]

/-- Three lines: the first line feed is replaced, one letter deleted, and one inserted at the end of
a line. -/
theorem runAt_of_applyAll_three_lines :
    let text : Text := ['a', '\n', 'b', 'c', '\n', 'd']
    let edits : List Edit := [⟨⟨4, 4⟩, some ['!']⟩, ⟨⟨1, 2⟩, some ['x']⟩, ⟨⟨2, 3⟩, none⟩]
    let record : Record := ⟨0, [⟨.unedited, ⟨0, 0⟩, ⟨0, 0⟩, ⟨0, 1⟩⟩, ⟨.replaced, ⟨0, 1⟩, ⟨0, 1⟩, ⟨1, 0⟩⟩,
      ⟨.deleted, ⟨0, 2⟩, ⟨1, 0⟩, ⟨1, 1⟩⟩, ⟨.unedited, ⟨0, 2⟩, ⟨1, 1⟩, ⟨1, 2⟩⟩,
      ⟨.replaced, ⟨0, 3⟩, ⟨1, 2⟩, ⟨1, 2⟩⟩,
      ⟨.unedited, ⟨1, 0⟩, ⟨2, 0⟩, ⟨2, 1⟩⟩]⟩
    applyAll 0 text edits = .ok (['a', 'x', 'c', '!', '\n', 'd'], record) ∧
      record.runAt ⟨0, 7⟩ = some ⟨.replaced, ⟨0, 1⟩, ⟨0, 1⟩, ⟨1, 0⟩⟩ ∧
      (record.runAt ⟨1, 2⟩ = none ↔ text.Vacant edits ⟨1, 2⟩) := by
  intro text edits record
  have happly : applyAll 0 text edits = .ok (['a', 'x', 'c', '!', '\n', 'd'], record) := by decide
  have held := (runAt_of_applyAll happly ⟨0, 7⟩).1 [⟨.unedited, ⟨0, 0⟩, ⟨0, 0⟩, ⟨0, 1⟩⟩] _ _ rfl (by decide)
  exact ⟨happly, held.1, (runAt_of_applyAll happly ⟨1, 2⟩).2.2.2⟩

end Edit
end ClassWeave
