import ClassWeave.Proofs.Covering
/-!
# Lines and their columns

A position is one of a text if the text has its line and the line reaches up to its column. The
positions in front of and behind each character are, and so is every one in front of them on their
lines.
-/

namespace ClassWeave

namespace Text

def lineLengths (text : Text) : List Nat :=
  (text.splitWhere (· == '\n')).map fun line => (line.map Position.width).sum

/-- A position on a line of a text, at most at its end. -/
def Holds (text : Text) (position : Position) : Prop :=
  ∃ length, text.lineLengths[position.line]? = some length ∧ position.column ≤ length

instance (text : Text) (position : Position) : Decidable (text.Holds position) :=
  match h : text.lineLengths[position.line]? with
  | none => isFalse fun ⟨length, hlength, _⟩ => by rw [h] at hlength; cases hlength
  | some length =>
    if hle : position.column ≤ length then isTrue ⟨length, h, hle⟩
    else isFalse fun ⟨length', hlength', hle'⟩ => by
      rw [h, Option.some.injEq] at hlength'
      exact hle (hlength' ▸ hle')

theorem Holds.lt_length {text : Text} {position : Position} (h : text.Holds position) :
    position.line < text.lineLengths.length := by
  obtain ⟨length, hlength, -⟩ := h
  exact (List.getElem?_eq_some_iff.1 hlength).1

theorem lineLengths_flat {text : Text} (flat : '\n' ∉ text) :
    text.lineLengths = [(text.map Position.width).sum] := by
  rw [lineLengths, splitWhere_flat fun c hc => by simpa using fun e : c = '\n' => flat (e ▸ hc)]
  rfl

theorem lineLengths_line {piece : Text} (flat : '\n' ∉ piece) (rest : Text) :
    lineLengths (piece ++ '\n' :: rest) = (piece.map Position.width).sum :: rest.lineLengths := by
  rw [lineLengths, splitWhere_cut (by simp) rest fun c hc => by simpa using fun e : c = '\n' => flat (e ▸ hc)]
  rfl

end Text

namespace Position

theorem after_lines (lines : Nat) : ∀ (p : Position) (text : Text),
    (Position.mk (p.line + lines) p.column).after text = ⟨(p.after text).line + lines, (p.after text).column⟩
  | _, [] => rfl
  | p, c :: text => by
    have hpast : (Position.mk (p.line + lines) p.column).past c =
      ⟨(p.past c).line + lines, (p.past c).column⟩ := by
      by_cases hc : c = '\n'
      · simp only [past, if_pos hc, nextLine, mk.injEq, and_true]
        omega
      · simp only [past, if_neg hc]
    rw [after_cons, hpast, after_lines lines (p.past c) text, after_cons]

theorem origin_after_line {piece : Text} (flat : '\n' ∉ piece) (rest : Text) :
    origin.after (piece ++ '\n' :: rest) = ⟨(origin.after rest).line + 1, (origin.after rest).column⟩ := by
  rw [after_append, after_eq_of_flat _ flat, after_cons]
  exact after_lines 1 origin rest

theorem column_le_of_le {p q : Position} (h : p ≤ q) (line : p.line = q.line) : p.column ≤ q.column := by
  rw [le_iff] at h
  omega

theorem column_after_le (p : Position) {front back : Text} (flat : '\n' ∉ front ++ back) :
    (p.after front).line = p.line ∧ (p.after front).column ≤ (p.after (front ++ back)).column := by
  have hfront := after_eq_of_flat p fun h => flat (List.mem_append_left _ h)
  refine ⟨by rw [hfront], column_le_of_le (after_le_append p front back) ?_⟩
  rw [hfront, after_eq_of_flat p flat]

end Position

namespace Text

/-- A text holds the positions on the line of a place of it up to the place. -/
theorem holds_iff {text : Text} {position : Position} :
    text.Holds position ↔ ∃ front back, text = front ++ back ∧
    (Position.origin.after front).line = position.line ∧
    position.column ≤ (Position.origin.after front).column := by
  induction text using lineInduction generalizing position with
  | flat text flat =>
    have hend := Position.after_eq_of_flat Position.origin flat
    rw [Holds, lineLengths_flat flat]
    constructor
    · rintro ⟨length, hlength, hle⟩
      rw [List.getElem?_singleton, Option.ite_none_right_eq_some, Option.some.injEq] at hlength
      obtain ⟨hline, rfl⟩ := hlength
      refine ⟨text, [], (List.append_nil _).symm, ?_, ?_⟩
      · rw [hend, hline]
        rfl
      · rw [hend]
        exact le_trans hle (Nat.le_add_left _ _)
    · rintro ⟨front, back, rfl, hline, hle⟩
      obtain ⟨hfirst, hshort⟩ := Position.column_after_le Position.origin flat
      have hzero : position.line = 0 := by rw [← hline, hfirst]; rfl
      refine ⟨_, by rw [hzero]; rfl, le_trans hle (le_trans hshort ?_)⟩
      rw [hend]
      simp [Position.origin]
  | line piece rest flat ih =>
    have hend := Position.after_eq_of_flat Position.origin flat
    rw [Holds, lineLengths_line flat]
    constructor
    · rintro ⟨length, hlength, hle⟩
      cases hline : position.line with
      | zero =>
        rw [hline, List.getElem?_cons_zero, Option.some.injEq] at hlength
        refine ⟨piece, '\n' :: rest, rfl, by rw [hend]; rfl, ?_⟩
        rw [hend]
        exact le_trans (hlength ▸ hle) (Nat.le_add_left _ _)
      | succ line =>
        rw [hline, List.getElem?_cons_succ] at hlength
        obtain ⟨front, back, rfl, hsame, hcolumn⟩ := (@ih ⟨line, position.column⟩).1 ⟨length, hlength, hle⟩
        refine ⟨piece ++ '\n' :: front, back, by simp, ?_, ?_⟩
        · rw [Position.origin_after_line flat, hsame]
        · rw [Position.origin_after_line flat]
          exact hcolumn
    · rintro ⟨front, back, htext, hline, hle⟩
      rcases append_eq_append_cons htext.symm with ⟨inner, rfl, rfl⟩ | ⟨inner, rfl, hback⟩
      · rw [Position.origin_after_line flat] at hline hle
        obtain ⟨length, hlength, hcolumn⟩ := (@ih ⟨position.line - 1, position.column⟩).2
          ⟨inner, back, rfl, by rw [← hline]; rfl, hle⟩
        refine ⟨length, ?_, hcolumn⟩
        rw [← hline, List.getElem?_cons_succ]
        rw [← hline] at hlength
        exact hlength
      · obtain ⟨hfirst, hshort⟩ := Position.column_after_le Position.origin flat
        have hzero : position.line = 0 := by rw [← hline, hfirst]; rfl
        refine ⟨_, by rw [hzero]; rfl, le_trans hle (le_trans hshort ?_)⟩
        rw [hend]
        simp [Position.origin]

theorem holds_after (front back : Text) : (front ++ back).Holds (Position.origin.after front) :=
  holds_iff.2 ⟨front, back, rfl, rfl, le_refl _⟩

theorem Holds.column_le {front back : Text} {position : Position} (h : (front ++ back).Holds position)
    (hend : back.head?.all (· = '\n')) (line : (Position.origin.after front).line = position.line) :
    position.column ≤ (Position.origin.after front).column := by
  obtain ⟨front', back', htext, hline, hle⟩ := holds_iff.1 h
  rcases List.append_eq_append_iff.1 htext with ⟨between, rfl, rfl⟩ | ⟨between, rfl, -⟩
  · cases between with
    | nil => rwa [List.append_nil] at hle
    | cons c between =>
      obtain rfl : c = '\n' := by simpa using hend
      have hlater := Position.le_after (Position.origin.after front).nextLine between
      rw [Position.after_append, Position.after_cons] at hline
      rw [Position.past, if_pos rfl] at hline
      rw [Position.le_iff, hline] at hlater
      simp only [Position.nextLine] at hlater
      omega
  · refine le_trans hle (Position.column_le_of_le (Position.after_le_append _ _ _) (hline.trans line.symm))

end Text
end ClassWeave
