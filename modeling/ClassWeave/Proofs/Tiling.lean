import ClassWeave.Edit.Apply
import ClassWeave.Proofs.Order
/-!
# The runs of a pass

The runs of a pass lie one behind the other, in the input as in the output. Where two that follow one
another do not touch, line feeds were copied between them, and the later one stands on a later line of
the output. So at most one run covers a position, and `Record.runAt` finds it.
-/

namespace ClassWeave

/-! ## Lines of a text -/

namespace Text

theorem splitWhere_flat {cuts : Char → Bool} : ∀ {text : Text}, (∀ c ∈ text, cuts c = false) →
    text.splitWhere cuts = [text]
  | [], _ => rfl
  | c :: text, flat => by
    rw [splitWhere, flat c List.mem_cons_self, splitWhere_flat fun d hd => flat d (List.mem_cons_of_mem _ hd)]
    rfl

theorem splitWhere_cut {cuts : Char → Bool} {d : Char} (hd : cuts d = true) (rest : Text) :
    ∀ {piece : Text}, (∀ c ∈ piece, cuts c = false) →
      splitWhere cuts (piece ++ d :: rest) = piece :: splitWhere cuts rest
  | [], _ => by rw [List.nil_append, splitWhere, hd, if_pos rfl]
  | c :: piece, flat => by
    rw [List.cons_append, splitWhere, flat c List.mem_cons_self,
      splitWhere_cut hd rest fun b hb => flat b (List.mem_cons_of_mem _ hb)]
    rfl

theorem splitWhere_ne_nil (cuts : Char → Bool) : ∀ text : Text, text.splitWhere cuts ≠ []
  | [] => by simp [splitWhere]
  | c :: text => by
    rw [splitWhere]; split
    · simp
    · split <;> simp

theorem lineInduction {motive : Text → Prop} (flat : ∀ text, '\n' ∉ text → motive text)
    (line : ∀ piece rest, '\n' ∉ piece → motive rest → motive (piece ++ '\n' :: rest)) (text : Text) :
    motive text := by
  by_cases h : '\n' ∈ text
  · obtain ⟨piece, rest, rfl, hpiece⟩ := List.eq_append_cons_of_mem h
    exact line piece rest hpiece (lineInduction flat line rest)
  · exact flat text h
termination_by text.length

end Text

namespace Progress

theorem copyRuns_flat (at' : Progress) {text : Text} (flat : '\n' ∉ text) :
    at'.copyRuns text = at'.pieceRuns text := by
  have hsplit : text.splitWhere (· == '\n') = [text] :=
    Text.splitWhere_flat fun c hc => by simpa using fun e : c = '\n' => flat (e ▸ hc)
  simp only [copyRuns, hsplit, lineRuns, List.append_nil]

theorem copyRuns_line (at' : Progress) {piece : Text} (flat : '\n' ∉ piece) (rest : Text) :
    at'.copyRuns (piece ++ '\n' :: rest) =
      at'.pieceRuns piece ++ ((at'.copy piece).copy ['\n']).copyRuns rest := by
  have hsplit : Text.splitWhere (· == '\n') (piece ++ '\n' :: rest) =
      piece :: rest.splitWhere (· == '\n') :=
    Text.splitWhere_cut (by simp) rest fun c hc => by simpa using fun e : c = '\n' => flat (e ▸ hc)
  simp only [copyRuns, hsplit]
  cases hrest : rest.splitWhere (· == '\n') with
  | nil => exact absurd hrest (Text.splitWhere_ne_nil _ rest)
  | cons first pieces => rfl

theorem copy_append (at' : Progress) (a b : Text) : at'.copy (a ++ b) = (at'.copy a).copy b := by
  simp only [copy, Position.after_append]

theorem copy_cons (at' : Progress) (c : Char) (text : Text) :
    at'.copy (c :: text) = (at'.copy [c]).copy text := copy_append at' [c] text

end Progress

/-! ## Tilings -/

/-- Runs that lie one behind the other from a point on, with line feeds copied in between. -/
inductive Tiled : Progress → List Run → Prop
  | done (at' : Progress) : Tiled at' []
  | newline {at' : Progress} {runs : List Run} : Tiled (at'.copy ['\n']) runs → Tiled at' runs
  | piece {at' : Progress} {piece : Text} {runs : List Run} : piece ≠ [] → '\n' ∉ piece →
      Tiled (at'.copy piece) runs →
      Tiled at' (⟨.unedited, at'.generated, at'.input, at'.input.after piece⟩ :: runs)
  | edit {at' : Progress} {removed written : Text} {runs : List Run} :
      Tiled (at'.edit removed written) runs → Tiled at' (at'.editRun removed written :: runs)

theorem tiled_pieceRuns {at' : Progress} {piece : Text} (flat : '\n' ∉ piece) {runs : List Run}
    (rest : Tiled (at'.copy piece) runs) : Tiled at' (at'.pieceRuns piece ++ runs) := by
  rw [Progress.pieceRuns]
  by_cases hpiece : piece = []
  · subst hpiece; exact rest
  · rw [if_neg (by simpa using hpiece)]
    exact .piece hpiece flat rest

theorem tiled_copyRuns (text : Text) : ∀ {at' : Progress} {runs : List Run},
    Tiled (at'.copy text) runs → Tiled at' (at'.copyRuns text ++ runs) := by
  induction text using Text.lineInduction with
  | flat text flat =>
    intro at' runs rest
    rw [Progress.copyRuns_flat at' flat]
    exact tiled_pieceRuns flat rest
  | line piece rest flat ih =>
    intro at' runs behind
    rw [Progress.copyRuns_line at' flat, List.append_assoc]
    refine tiled_pieceRuns flat (.newline (ih ?_))
    rwa [Progress.copy_append, Progress.copy_cons] at behind

namespace Edit

theorem applyFrom_cons {cursor : Nat} {at' : Progress} {rest output : Text} {edit : Edit}
    {edits : List Edit} {runs : List Run}
    (h : applyFrom cursor at' rest (edit :: edits) = .ok (output, runs)) :
    ∃ kept removed rest' output' runs', cursor ≤ edit.span.start ∧ edit.span.start ≤ edit.span.stop ∧
      rest = kept ++ removed ++ rest' ∧ Text.byteLength kept = edit.span.start - cursor ∧
      Text.byteLength removed = edit.span.stop - edit.span.start ∧
      applyFrom edit.span.stop ((at'.copy kept).edit removed edit.text) rest' edits =
        .ok (output', runs') ∧
      output = kept ++ edit.text ++ output' ∧
      runs = at'.copyRuns kept ++ (at'.copy kept).editRun removed edit.text :: runs' := by
  rw [applyFrom] at h
  split at h
  · cases h
  rename_i notOverlapping
  split at h
  · cases h
  rename_i forward
  split at h
  · cases h
  rename_i kept behind hkept
  split at h
  · cases h
  rename_i removed rest' hremoved
  simp only at h
  split at h
  · cases h
  rename_i output' runs' happly
  simp only [Except.ok.injEq, Prod.mk.injEq] at h
  obtain ⟨rfl, rfl⟩ := h
  obtain ⟨hrest, hlength⟩ := Text.cut_eq_some hkept
  obtain ⟨hbehind, hlength'⟩ := Text.cut_eq_some hremoved
  refine ⟨kept, removed, rest', output', runs', by omega, by omega, ?_, hlength, hlength', happly, rfl, rfl⟩
  rw [hrest, hbehind, List.append_assoc]

theorem tiled_applyFrom : ∀ {edits : List Edit} {cursor : Nat} {at' : Progress} {rest output : Text}
    {runs : List Run}, applyFrom cursor at' rest edits = .ok (output, runs) → Tiled at' runs
  | [], _, at', rest, output, runs, h => by
    simp only [applyFrom, Except.ok.injEq, Prod.mk.injEq] at h
    rw [← h.2, ← List.append_nil (at'.copyRuns rest)]
    exact tiled_copyRuns rest (.done _)
  | edit :: edits, cursor, at', rest, output, runs, h => by
    obtain ⟨kept, removed, rest', output', runs', -, -, -, -, -, happly, -, rfl⟩ := applyFrom_cons h
    exact tiled_copyRuns kept (.edit (tiled_applyFrom happly))

theorem applyAll_eq_ok {index : Nat} {text output : Text} {edits : List Edit} {record : Record}
    (h : applyAll index text edits = .ok (output, record)) :
    applyFrom 0 ⟨Position.origin, Position.origin⟩ text (inOrder edits) = .ok (output, record.runs) := by
  rw [applyAll] at h
  split at h
  · cases h
  · rename_i output' runs happly
    simp only [Except.ok.injEq, Prod.mk.injEq] at h
    obtain ⟨rfl, rfl⟩ := h
    exact happly

theorem tiled_applyAll {index : Nat} {text output : Text} {edits : List Edit} {record : Record}
    (h : applyAll index text edits = .ok (output, record)) :
    Tiled ⟨Position.origin, Position.origin⟩ record.runs := tiled_applyFrom (applyAll_eq_ok h)

end Edit

/-! ## The order of runs -/

def Run.landing (run : Run) (position : Position) : Position :=
  ⟨run.generated.line, run.generated.column + (position.column - run.start.column)⟩

structure Run.Precedes (runs : List Run) (run later : Run) : Prop where
  stop_le : run.stop ≤ later.start
  generated_lt : run.kind ≠ .deleted → run.generated < later.generated
  landing_le : run.kind = .unedited → run.landing run.stop ≤ later.generated
  gap : ∀ position, run.stop ≤ position → position < later.start →
    (∀ other ∈ runs, ¬ other.contains position) → run.generated.line < later.generated.line

namespace Run

theorem contains_iff {run : Run} {position : Position} :
    run.contains position ↔ run.start ≤ position ∧ position < run.stop := by
  simp [contains]

structure Wellformed (run : Run) : Prop where
  start_le : run.start ≤ run.stop
  level : run.kind = .unedited → run.start.line = run.stop.line

end Run

namespace Progress

theorem editRun_kind_ne (at' : Progress) (removed written : Text) :
    (at'.editRun removed written).kind ≠ .unedited := by
  simp only [editRun]; split <;> simp

theorem ne_nil_of_editRun {at' : Progress} {removed written : Text}
    (h : (at'.editRun removed written).kind ≠ .deleted) : written ≠ [] := by
  rintro rfl; exact h rfl

end Progress

namespace Tiled

variable {at' : Progress} {runs : List Run}

theorem bounds (h : Tiled at' runs) :
    ∀ run ∈ runs, at'.input ≤ run.start ∧ at'.generated ≤ run.generated := by
  induction h with
  | done at' => intro run hrun; cases hrun
  | newline rest ih =>
    intro run hrun
    obtain ⟨hi, hg⟩ := ih run hrun
    exact ⟨le_trans (Position.le_after _ _) hi, le_trans (Position.le_after _ _) hg⟩
  | piece _ _ rest ih =>
    intro run hrun
    rcases List.mem_cons.1 hrun with rfl | hrun
    · exact ⟨le_refl _, le_refl _⟩
    · obtain ⟨hi, hg⟩ := ih run hrun
      exact ⟨le_trans (Position.le_after _ _) hi, le_trans (Position.le_after _ _) hg⟩
  | edit rest ih =>
    intro run hrun
    rcases List.mem_cons.1 hrun with rfl | hrun
    · exact ⟨le_refl _, le_refl _⟩
    · obtain ⟨hi, hg⟩ := ih run hrun
      exact ⟨le_trans (Position.le_after _ _) hi, le_trans (Position.le_after _ _) hg⟩

theorem wellformed (h : Tiled at' runs) : ∀ run ∈ runs, run.Wellformed := by
  induction h with
  | done at' => intro run hrun; cases hrun
  | newline rest ih => exact ih
  | piece nonempty flat rest ih =>
    intro run hrun
    rcases List.mem_cons.1 hrun with rfl | hrun
    · refine ⟨Position.le_after _ _, fun _ => ?_⟩
      simp only [Position.after_eq_of_flat _ flat]
    · exact ih run hrun
  | edit rest ih =>
    intro run hrun
    rcases List.mem_cons.1 hrun with rfl | hrun
    · exact ⟨Position.le_after _ _, fun hkind => absurd hkind (Progress.editRun_kind_ne _ _ _)⟩
    · exact ih run hrun

theorem line_lt (h : Tiled at' runs) {position : Position} (reached : at'.input ≤ position)
    (free : ∀ other ∈ runs, ¬ other.contains position) {run : Run} (hrun : run ∈ runs)
    (before : position < run.start) : at'.generated.line < run.generated.line := by
  have lineLe : ∀ {p q : Position}, p ≤ q → p.line ≤ q.line := fun {p q} hpq => by
    rw [Position.le_iff] at hpq; omega
  induction h with
  | done at' => cases hrun
  | @newline at' runs rest ih =>
    have hgenerated := lineLe (rest.bounds run hrun).2
    have : (at'.copy ['\n']).generated.line = at'.generated.line + 1 := rfl
    omega
  | @piece at' piece runs nonempty flat rest ih =>
    have passed : (at'.copy piece).input ≤ position := by
      have hfree := free _ List.mem_cons_self
      rw [Run.contains_iff] at hfree
      exact not_lt.1 fun hlt => hfree ⟨reached, hlt⟩
    rcases List.mem_cons.1 hrun with rfl | hrun
    · exact absurd before (not_lt.2 reached)
    · have hlt := ih passed (fun other hother => free other (List.mem_cons_of_mem _ hother)) hrun
      exact Nat.lt_of_le_of_lt (lineLe (Position.le_after _ _)) hlt
  | @edit at' removed written runs rest ih =>
    have passed : (at'.edit removed written).input ≤ position := by
      have hfree := free _ List.mem_cons_self
      rw [Run.contains_iff] at hfree
      exact not_lt.1 fun hlt => hfree ⟨reached, hlt⟩
    rcases List.mem_cons.1 hrun with rfl | hrun
    · exact absurd before (not_lt.2 reached)
    · have hlt := ih passed (fun other hother => free other (List.mem_cons_of_mem _ hother)) hrun
      exact Nat.lt_of_le_of_lt (lineLe (Position.le_after _ _)) hlt

theorem pairwise (h : Tiled at' runs) : runs.Pairwise (Run.Precedes runs) := by
  suffices ∀ all, runs ⊆ all → runs.Pairwise (Run.Precedes all) from this runs (List.Subset.refl _)
  induction h with
  | done at' => intro all _; exact List.Pairwise.nil
  | newline rest ih => exact ih
  | @piece at' piece runs nonempty flat rest ih =>
    intro all hall
    refine List.pairwise_cons.2 ⟨fun later hlater => ?_,
      ih all fun run hrun => hall (List.mem_cons_of_mem _ hrun)⟩
    obtain ⟨hinput, hgenerated⟩ := rest.bounds later hlater
    refine ⟨hinput, fun _ => lt_of_lt_of_le (Position.lt_after _ nonempty) hgenerated, fun _ => ?_, ?_⟩
    · refine le_trans (le_of_eq ?_) hgenerated
      simp [Run.landing, Progress.copy, Position.after_eq_of_flat _ flat]
    · intro position hstop hstart free
      refine Nat.lt_of_le_of_lt ?_ (rest.line_lt hstop (fun other hother => free other ?_) hlater hstart)
      · simp [Progress.copy, Position.after_eq_of_flat _ flat]
      · exact hall (List.mem_cons_of_mem _ hother)
  | @edit at' removed written runs rest ih =>
    intro all hall
    refine List.pairwise_cons.2 ⟨fun later hlater => ?_,
      ih all fun run hrun => hall (List.mem_cons_of_mem _ hrun)⟩
    obtain ⟨hinput, hgenerated⟩ := rest.bounds later hlater
    refine ⟨hinput, fun hkind => ?_, fun hkind => absurd hkind (Progress.editRun_kind_ne _ _ _), ?_⟩
    · exact lt_of_lt_of_le (Position.lt_after _ (Progress.ne_nil_of_editRun hkind)) hgenerated
    · intro position hstop hstart free
      refine Nat.lt_of_le_of_lt ?_ (rest.line_lt hstop (fun other hother => free other ?_) hlater hstart)
      · have := Position.le_after at'.generated written
        rw [Position.le_iff] at this
        simp only [Progress.editRun, Progress.edit]
        omega
      · exact hall (List.mem_cons_of_mem _ hother)

theorem trichotomy (h : Tiled at' runs) {run other : Run} (hrun : run ∈ runs) (hother : other ∈ runs) :
    run = other ∨ run.Precedes runs other ∨ other.Precedes runs run := by
  obtain ⟨front, back, hruns⟩ := List.append_of_mem hrun
  have order : (front ++ run :: back).Pairwise (Run.Precedes runs) := hruns ▸ h.pairwise
  rcases eq_or_before_or_behind order (hruns ▸ hother) with rfl | hbefore | ⟨-, hbehind⟩
  · exact .inl rfl
  · exact .inr (.inr hbefore)
  · exact .inr (.inl hbehind)

end Tiled

/-! ## Finding a run -/

namespace Record

variable {record : Record} {at' : Progress}

theorem mem_of_runAt {position : Position} {run : Run} (h : record.runAt position = some run) :
    run ∈ record.runs ∧ run.start ≤ position ∧ position < run.stop := by
  rw [runAt, Option.filter_eq_some_iff] at h
  have hmem := List.mem_of_getLast? h.1
  exact ⟨(List.takeWhile_subset _ hmem), Run.contains_iff.1 h.2⟩

theorem runAt_eq_some (tiled : Tiled at' record.runs) {position : Position} {run : Run}
    (hrun : run ∈ record.runs) (hstart : run.start ≤ position) (hstop : position < run.stop) :
    record.runAt position = some run := by
  obtain ⟨front, back, hruns⟩ := List.append_of_mem hrun
  have order := tiled.pairwise
  have wellformed := tiled.wellformed
  rw [hruns] at order wellformed
  have split := List.pairwise_append.1 order
  have reached : ∀ other ∈ front, decide (other.start ≤ position) = true := by
    intro other hother
    have hbefore := (split.2.2 other hother run List.mem_cons_self).stop_le
    have hforward := (wellformed other (List.mem_append_left _ hother)).start_le
    exact decide_eq_true (le_trans hforward (le_trans hbefore hstart))
  have notReached : back.takeWhile (fun other => decide (other.start ≤ position)) = [] := by
    cases back with
    | nil => rfl
    | cons other back =>
      have hbehind := ((List.pairwise_cons.1 split.2.1).1 other List.mem_cons_self).stop_le
      rw [List.takeWhile_cons, if_neg (by simpa using lt_of_lt_of_le hstop hbehind)]
  rw [runAt, hruns, List.takeWhile_append_of_pos reached, List.takeWhile_cons, if_pos (decide_eq_true hstart),
    notReached, List.getLast?_concat, Option.filter_eq_some_iff]
  exact ⟨rfl, Run.contains_iff.2 ⟨hstart, hstop⟩⟩

theorem not_contains_of_runAt (tiled : Tiled at' record.runs) {position : Position}
    (h : record.runAt position = none) : ∀ run ∈ record.runs, ¬ run.contains position := by
  intro run hrun hcontains
  obtain ⟨hstart, hstop⟩ := Run.contains_iff.1 hcontains
  rw [runAt_eq_some tiled hrun hstart hstop] at h
  cases h

end Record
end ClassWeave
