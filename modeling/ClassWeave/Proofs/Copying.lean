import ClassWeave.Proofs.Tiling
/-!
# Characters that are copied

A byte outside all edits of a pass is copied, and every edit in front of it moves it by the bytes that
the edit writes and removes (`Edit.landing?`). The character at such a byte stands in the output where
its byte lands, and a copied run of the record leads from the one position to the other.
-/

namespace ClassWeave

theorem Text.append_eq_append_cons {a b front back : Text} {c : Char} (h : a ++ b = front ++ c :: back) :
    (∃ inner, a = front ++ c :: inner ∧ back = inner ++ b) ∨
      (∃ inner, front = a ++ inner ∧ b = inner ++ c :: back) := by
  rcases List.append_eq_append_iff.1 h with ⟨inner, hfront, hb⟩ | ⟨inner, ha, hback⟩
  · exact .inr ⟨inner, hfront, hb⟩
  · cases inner with
    | nil => exact .inr ⟨[], by simpa using ha.symm, hback.symm⟩
    | cons d inner =>
      obtain ⟨rfl, hrest⟩ := List.cons.inj hback
      exact .inl ⟨inner, ha, hrest⟩

namespace Edit

def covers (edit : Edit) (byte : Nat) : Bool := edit.span.start ≤ byte && byte < edit.span.stop

def inFront (edits : List Edit) (byte : Nat) : List Edit := edits.filter (·.span.stop ≤ byte)

def written (edits : List Edit) : Nat := (edits.map fun edit => edit.text.byteLength).sum

def removed (edits : List Edit) : Nat := (edits.map fun edit => edit.span.stop - edit.span.start).sum

/-- Where a byte of the input stands in the output of a pass; none if an edit takes it away. -/
def landing? (edits : List Edit) (byte : Nat) : Option Nat :=
  if edits.any (·.covers byte) then none
  else some (byte + written (inFront edits byte) - removed (inFront edits byte))

/-- Where a byte of the text stands behind pass after pass; none if one of them takes it away. -/
def landingThrough (passes : List (List Edit)) (byte : Nat) : Option Nat :=
  passes.foldlM (fun byte edits => landing? edits byte) byte

def applyPasses : Nat → Text → List (List Edit) → Except EditFault (Text × List Record)
  | _, text, [] => .ok (text, [])
  | index, text, edits :: rest =>
    match applyAll index text edits with
    | .error fault => .error fault
    | .ok (output, record) =>
      match applyPasses (index + 1) output rest with
      | .error fault => .error fault
      | .ok (final, records) => .ok (final, record :: records)

theorem applyPasses_cons {index : Nat} {text final : Text} {edits : List Edit} {rest : List (List Edit)}
    {records : List Record} (h : applyPasses index text (edits :: rest) = .ok (final, records)) :
    ∃ output record more, applyAll index text edits = .ok (output, record) ∧
      applyPasses (index + 1) output rest = .ok (final, more) ∧ records = record :: more := by
  rw [applyPasses] at h
  split at h
  · cases h
  rename_i output record hfirst
  split at h
  · cases h
  rename_i final' more hrest
  simp only [Except.ok.injEq, Prod.mk.injEq] at h
  obtain ⟨rfl, rfl⟩ := h
  exact ⟨output, record, more, hfirst, hrest, rfl⟩

/-! ## Sums over edits -/

theorem inFront_perm {a b : List Edit} (h : a.Perm b) (byte : Nat) : (inFront a byte).Perm (inFront b byte) :=
  h.filter _

theorem written_perm {a b : List Edit} (h : a.Perm b) : written a = written b := (h.map _).sum_nat

theorem removed_perm {a b : List Edit} (h : a.Perm b) : removed a = removed b := (h.map _).sum_nat

theorem inFront_cons_of_le {edit : Edit} {byte : Nat} (h : edit.span.stop ≤ byte) (edits : List Edit) :
    inFront (edit :: edits) byte = edit :: inFront edits byte := by
  rw [inFront, List.filter_cons_of_pos (by simpa using h)]; rfl

theorem written_cons (edit : Edit) (edits : List Edit) :
    written (edit :: edits) = edit.text.byteLength + written edits := by
  simp [written]

theorem removed_cons (edit : Edit) (edits : List Edit) :
    removed (edit :: edits) = (edit.span.stop - edit.span.start) + removed edits := by
  simp [removed]

theorem le_of_applyFrom : ∀ {edits : List Edit} {cursor : Nat} {at' : Progress} {rest : Text}
    {reply : Text × List Run}, applyFrom cursor at' rest edits = .ok reply →
    ∀ edit ∈ edits, cursor ≤ edit.span.start ∧ edit.span.start ≤ edit.span.stop
  | first :: edits, cursor, at', rest, (output, runs), h, edit, hedit => by
    obtain ⟨_, _, _, _, _, hcursor, hforward, -, -, -, happly, -, -⟩ := applyFrom_cons h
    rcases List.mem_cons.1 hedit with rfl | hedit
    · exact ⟨hcursor, hforward⟩
    · have hbehind := le_of_applyFrom happly edit hedit
      omega

theorem inFront_eq_nil {edits : List Edit} {byte : Nat}
    (h : ∀ edit ∈ edits, byte < edit.span.start ∧ edit.span.start ≤ edit.span.stop) :
    inFront edits byte = [] := by
  rw [inFront, List.filter_eq_nil_iff]
  intro edit hedit
  have := h edit hedit
  simp only [decide_eq_true_eq]
  omega

end Edit

/-! ## Runs and copied characters -/

structure Run.Copies (run : Run) (input output : Position) : Prop where
  kind : run.kind = .unedited
  start_le : run.start ≤ input
  lt_stop : input < run.stop
  line : run.start.line = input.line
  landing : output = run.landing input

theorem exists_pieceRun (at' : Progress) {front back : Text} {c : Char} (flat : '\n' ∉ front ++ c :: back) :
    ∃ run ∈ at'.pieceRuns (front ++ c :: back),
      run.Copies (at'.input.after front) (at'.generated.after front) := by
  have hfront : '\n' ∉ front := fun h => flat (List.mem_append_left _ h)
  refine ⟨_, by
    rw [Progress.pieceRuns, if_neg (by simp)]; exact List.mem_singleton_self _, rfl, ?_, ?_, ?_, ?_⟩
  · exact Position.le_after _ _
  · rw [Position.after_append]
    exact Position.lt_after _ (by simp)
  · rw [Position.after_eq_of_flat _ hfront]
  · simp [Run.landing, Position.after_eq_of_flat _ hfront]

theorem exists_copyRun (text : Text) : ∀ (at' : Progress) {front back : Text} {c : Char},
    text = front ++ c :: back → c ≠ '\n' →
    ∃ run ∈ at'.copyRuns text, run.Copies (at'.input.after front) (at'.generated.after front) := by
  induction text using Text.lineInduction with
  | flat text flat =>
    intro at' front back c htext hc
    rw [Progress.copyRuns_flat at' flat, htext]
    exact exists_pieceRun at' (htext ▸ flat)
  | line piece rest flat ih =>
    intro at' front back c htext hc
    rw [Progress.copyRuns_line at' flat]
    rcases Text.append_eq_append_cons htext with ⟨inner, hpiece, -⟩ | ⟨inner, hfront, hrest⟩
    · rw [hpiece] at flat ⊢
      obtain ⟨run, hrun, hcopies⟩ := exists_pieceRun at' flat
      exact ⟨run, List.mem_append_left _ hrun, hcopies⟩
    · cases inner with
      | nil => exact absurd (List.cons.inj hrest).1.symm hc
      | cons d inner =>
        obtain ⟨rfl, hinner⟩ := List.cons.inj hrest
        obtain ⟨run, hrun, hcopies⟩ := ih ((at'.copy piece).copy ['\n']) hinner hc
        refine ⟨run, List.mem_append_right _ hrun, ?_⟩
        rw [hfront, Position.after_append, Position.after_cons, Position.after_append, Position.after_cons]
        exact hcopies

namespace Edit

variable {front back : Text} {c : Char}

theorem exists_copy_of_applyFrom : ∀ {edits : List Edit} {cursor : Nat} {at' : Progress}
    {rest output : Text} {runs : List Run} {front : Text},
    applyFrom cursor at' rest edits = .ok (output, runs) → rest = front ++ c :: back →
    (∀ edit ∈ edits, edit.covers (cursor + front.byteLength) = false) →
    ∃ front' back', output = front' ++ c :: back' ∧
      Text.byteLength front' + removed (inFront edits (cursor + front.byteLength)) =
        front.byteLength + written (inFront edits (cursor + front.byteLength)) ∧
      (c ≠ '\n' → ∃ run ∈ runs, run.Copies (at'.input.after front) (at'.generated.after front'))
  | [], cursor, at', rest, output, runs, front, happly, hrest, _ => by
    simp only [applyFrom, Except.ok.injEq, Prod.mk.injEq] at happly
    obtain ⟨rfl, rfl⟩ := happly
    exact ⟨front, back, hrest, rfl, fun hc => exists_copyRun _ at' hrest hc⟩
  | edit :: edits, cursor, at', rest, output, runs, front, happly, hrest, spared => by
    obtain ⟨kept, cutOut, rest', output', runs', hcursor, hforward, hsplit, hkept, hcut, hnext, rfl, rfl⟩ :=
      applyFrom_cons happly
    have hspared := spared edit List.mem_cons_self
    simp only [covers, Bool.and_eq_false_imp, decide_eq_true_eq, decide_eq_false_iff_not] at hspared
    have hbehind := le_of_applyFrom hnext
    rw [hrest, List.append_assoc] at hsplit
    rcases Text.append_eq_append_cons hsplit.symm with ⟨inner, hinner, -⟩ | ⟨middle, hfront, hmiddle⟩
    · -- The character is in the text that is kept in front of the first edit.
      have hbefore : cursor + front.byteLength < edit.span.start := by
        have := c.utf8Size_pos
        rw [hinner, Text.byteLength_append, Text.byteLength_cons] at hkept
        omega
      have hinFront : inFront (edit :: edits) (cursor + front.byteLength) = [] := by
        apply inFront_eq_nil
        intro other hother
        rcases List.mem_cons.1 hother with rfl | hother
        · exact ⟨hbefore, hforward⟩
        · have := hbehind other hother
          omega
      refine ⟨front, inner ++ (edit.text ++ output'), by simp [hinner], by rw [hinFront]; rfl, fun hc => ?_⟩
      obtain ⟨run, hrun, hcopies⟩ := exists_copyRun kept at' hinner hc
      exact ⟨run, List.mem_append_left _ hrun, hcopies⟩
    · -- It is behind the first edit, which does not take it away.
      have hpassed : edit.span.stop ≤ cursor + front.byteLength := by
        have : edit.span.start ≤ cursor + front.byteLength := by
          rw [hfront, Text.byteLength_append]; omega
        exact Nat.not_lt.1 (hspared this)
      rcases Text.append_eq_append_cons hmiddle with ⟨inner, hcutOut, -⟩ | ⟨inner, hmiddle, hrest'⟩
      · have := c.utf8Size_pos
        rw [hcutOut, Text.byteLength_append, Text.byteLength_cons] at hcut
        rw [hfront, Text.byteLength_append] at hpassed
        omega
      have hcursor' : edit.span.stop + inner.byteLength = cursor + front.byteLength := by
        rw [hfront, hmiddle, Text.byteLength_append, Text.byteLength_append]; omega
      obtain ⟨front', back', houtput, hlength, hrun⟩ := exists_copy_of_applyFrom hnext hrest'
        (fun other hother => by rw [hcursor']; exact spared other (List.mem_cons_of_mem _ hother))
      refine ⟨kept ++ (edit.text ++ front'), back', by simp [houtput], ?_, fun hc => ?_⟩
      · rw [hcursor'] at hlength
        rw [inFront_cons_of_le hpassed, written_cons, removed_cons, Text.byteLength_append,
          Text.byteLength_append]
        omega
      · obtain ⟨run, hrun, hcopies⟩ := hrun hc
        refine ⟨run, List.mem_append_right _ (List.mem_cons_of_mem _ hrun), ?_⟩
        rw [hfront, hmiddle]
        simp only [Position.after_append]
        exact hcopies

/-- A character of a text that no edit of a pass takes away: where it stands in the output, and the run
that copies it. -/
theorem exists_copy_of_applyAll {index byte : Nat} {text output : Text} {edits : List Edit} {record : Record}
    (happly : applyAll index text edits = .ok (output, record)) (htext : text = front ++ c :: back)
    (hlanding : landing? edits front.byteLength = some byte) :
    ∃ front' back', output = front' ++ c :: back' ∧ Text.byteLength front' = byte ∧
      (c ≠ '\n' → ∃ run ∈ record.runs,
        run.Copies (Position.origin.after front) (Position.origin.after front')) := by
  have hperm : (inOrder edits).Perm edits := Sorting.sort_perm _ edits
  rw [landing?] at hlanding
  split at hlanding
  · cases hlanding
  rename_i spared
  simp only [List.any_eq_true, not_exists, not_and, Bool.not_eq_true] at spared
  obtain ⟨front', back', houtput, hlength, hrun⟩ := exists_copy_of_applyFrom (applyAll_eq_ok happly) htext
    (fun edit hedit => by rw [Nat.zero_add]; exact spared edit (hperm.mem_iff.1 hedit))
  refine ⟨front', back', houtput, ?_, hrun⟩
  rw [Nat.zero_add, written_perm (inFront_perm hperm _), removed_perm (inFront_perm hperm _)] at hlength
  simp only [Option.some.injEq] at hlanding
  omega

end Edit
end ClassWeave
