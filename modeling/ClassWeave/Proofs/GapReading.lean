import ClassWeave.Proofs.Lexing
/-!
# What stands between tokens

The text that is skipped up to a token is skipped in the same way in front of every other token.
Where it holds marked comments, the first of them is where the token counts from.
-/

namespace ClassWeave
namespace Lexeme

/-- Text that is skipped, from inside of a comment or not; `marked` is how many bytes of it stand in
front of its first marked comment. -/
inductive Skipped : Gap → Bool → Text → Option Nat → Prop
  | nil {newLine : Bool} : Skipped .space newLine [] none
  | blank {newLine : Bool} {c : Char} {gap : Text} {marked : Option Nat} :
      (isSpace c || Escape.isLineEnd c) = true →
      Skipped .space (newLine || Escape.isLineEnd c) gap marked →
        Skipped .space newLine (c :: gap) (marked.map (c.utf8Size + ·))
  | line {newLine : Bool} {gap : Text} {marked : Option Nat} : Skipped .lineComment newLine gap marked →
      Skipped .space newLine ('/' :: '/' :: gap) (marked.map (2 + ·))
  | block {newLine : Bool} {gap : Text} {marked : Option Nat} : Skipped .blockComment newLine gap marked →
      Skipped .space newLine ('/' :: '*' :: gap) (marked.map (2 + ·))
  | opened {newLine : Bool} {gap : Text} {marked : Option Nat} : Skipped .lineComment newLine gap marked →
      Skipped .space newLine ('<' :: '!' :: '-' :: '-' :: gap) (some 0)
  | closed {gap : Text} {marked : Option Nat} : Skipped .lineComment true gap marked →
      Skipped .space true ('-' :: '-' :: '>' :: gap) (some 0)
  | lineEnd {newLine : Bool} {c : Char} {gap : Text} {marked : Option Nat} : Escape.isLineEnd c = true →
      Skipped .space true gap marked → Skipped .lineComment newLine (c :: gap) (marked.map (c.utf8Size + ·))
  | lineRest {newLine : Bool} {c : Char} {gap : Text} {marked : Option Nat} : Escape.isLineEnd c = false →
      Skipped .lineComment newLine gap marked →
      Skipped .lineComment newLine (c :: gap) (marked.map (c.utf8Size + ·))
  | blockEnd {newLine : Bool} {gap : Text} {marked : Option Nat} : Skipped .space newLine gap marked →
      Skipped .blockComment newLine ('*' :: '/' :: gap) (marked.map (2 + ·))
  | blockRest {newLine : Bool} {c d : Char} {gap : Text} {marked : Option Nat} : ¬(c = '*' ∧ d = '/') →
      Skipped .blockComment (newLine || Escape.isLineEnd c) (d :: gap) marked →
      Skipped .blockComment newLine (c :: d :: gap) (marked.map (c.utf8Size + ·))

namespace Skipped

variable {kind : Gap} {newLine : Bool} {gap : Text} {marked : Option Nat}

theorem map_add_map (offset size : Nat) (marked : Option Nat) :
    (marked.map (size + ·)).map (offset + ·) = marked.map (offset + size + ·) := by
  cases marked with
  | none => rfl
  | some n => exact congrArg some (Nat.add_assoc ..).symm

theorem byteLength_pair {c d : Char} (hc : c.utf8Size = 1) (hd : d.utf8Size = 1) (gap : Text) (offset : Nat) :
    offset + Text.byteLength (c :: d :: gap) = offset + 2 + gap.byteLength := by
  rw [Text.byteLength_cons, Text.byteLength_cons, hc, hd]
  omega

theorem byteLength_opened (gap : Text) (offset : Nat) :
    offset + Text.byteLength ('<' :: '!' :: '-' :: '-' :: gap) = offset + 4 + gap.byteLength := by
  rw [byteLength_pair rfl rfl, byteLength_pair rfl rfl]

theorem byteLength_closed (gap : Text) (offset : Nat) :
    offset + Text.byteLength ('-' :: '-' :: '>' :: gap) = offset + 3 + gap.byteLength := by
  rw [byteLength_pair rfl rfl, Text.byteLength_cons, show ('>' : Char).utf8Size = 1 from rfl]
  omega

theorem ne_nil_of_blockComment (h : Skipped .blockComment newLine gap marked) : gap ≠ [] := by
  cases h <;> simp

theorem skipGap_eq (h : Skipped kind newLine gap marked) :
    ∃ newLine', ∀ (c : Char) (rest : Text) (offset : Nat) (before : Option Nat),
    isSolid c = true → skipGap kind (gap ++ c :: rest) offset newLine before =
      ⟨⟨c :: rest, offset + gap.byteLength⟩, newLine', before.or (marked.map (offset + ·))⟩ := by
  -- The offset and the mark are left open: every character moves the one, and the first marked
  -- comment sets the other.
  induction h with
  | @nil newLine =>
    refine ⟨newLine, fun c rest offset before hc => ?_⟩
    rw [List.nil_append, skipGap_solid hc]
    simp
  | @blank newLine d gap marked hd _ ih =>
    obtain ⟨newLine', ih⟩ := ih
    refine ⟨newLine', fun c rest offset before hc => ?_⟩
    rw [List.cons_append, skipGap_blank hd, ih c rest _ _ hc,
      map_add_map, Text.byteLength_cons, Nat.add_assoc]
  | line _ ih | block _ ih =>
    obtain ⟨newLine', ih⟩ := ih
    refine ⟨newLine', fun c rest offset before hc => ?_⟩
    rw [List.cons_append, List.cons_append, skipGap, ih c rest _ _ hc, map_add_map, byteLength_pair rfl rfl]
  | @opened newLine gap marked _ ih =>
    obtain ⟨newLine', ih⟩ := ih
    refine ⟨newLine', fun c rest offset before hc => ?_⟩
    simp only [List.cons_append]
    rw [skipGap, ih c rest _ _ hc, byteLength_opened]
    cases before
    all_goals rfl
  | @closed gap marked _ ih =>
    obtain ⟨newLine', ih⟩ := ih
    refine ⟨newLine', fun c rest offset before hc => ?_⟩
    simp only [List.cons_append]
    rw [skipGap, ih c rest _ _ hc, byteLength_closed]
    cases before
    all_goals rfl
  | @lineEnd newLine d gap marked hd _ ih =>
    obtain ⟨newLine', ih⟩ := ih
    refine ⟨newLine', fun c rest offset before hc => ?_⟩
    rw [List.cons_append, skipGap, if_pos hd, ih c rest _ _ hc,
      map_add_map, Text.byteLength_cons, Nat.add_assoc]
  | @lineRest newLine d gap marked hd _ ih =>
    obtain ⟨newLine', ih⟩ := ih
    refine ⟨newLine', fun c rest offset before hc => ?_⟩
    rw [List.cons_append, skipGap, if_neg (by simp [hd]), ih c rest _ _ hc,
      map_add_map, Text.byteLength_cons, Nat.add_assoc]
  | @blockEnd newLine gap marked _ ih =>
    obtain ⟨newLine', ih⟩ := ih
    refine ⟨newLine', fun c rest offset before hc => ?_⟩
    rw [List.cons_append, List.cons_append, skipGap, ih c rest _ _ hc, map_add_map, byteLength_pair rfl rfl]
  | @blockRest newLine d e gap marked hne _ ih =>
    obtain ⟨newLine', ih⟩ := ih
    refine ⟨newLine', fun c rest offset before hc => ?_⟩
    rw [List.cons_append, skipGap, ih c rest _ _ hc, map_add_map, Text.byteLength_cons d, Nat.add_assoc]
    rintro more rfl heq
    exact hne ⟨rfl, (List.cons.inj heq).1⟩

theorem lineComment_iff (newLine' : Bool) : Skipped .lineComment newLine gap marked ↔
    Skipped .lineComment newLine' gap marked := by
  have hmono : ∀ {a b : Bool} {gap : Text} {marked : Option Nat},
      Skipped .lineComment a gap marked → Skipped .lineComment b gap marked := by
    intro a b gap marked h
    generalize hkind : Gap.lineComment = kind at h
    induction h with
    | lineEnd hc hgap => exact .lineEnd hc hgap
    | lineRest hc _ ih => exact .lineRest hc (ih hkind)
    | _ => cases hkind
  exact ⟨hmono, hmono⟩

def MarkedAt (gap : Text) (size : Nat) : Prop :=
  ∃ before comment, gap = before ++ comment ∧ before.byteLength = size ∧
    ((∀ newLine, Skipped .space newLine comment (some 0)) ∨ "-->".toList <+: comment)

theorem markedAt_append (front : Text) {gap : Text} {marked : Option Nat} {size : Nat}
    (hsize : marked.map (front.byteLength + ·) = some size)
    (h : ∀ size, marked = some size → MarkedAt gap size) :
    MarkedAt (front ++ gap) size := by
  obtain ⟨n, rfl, rfl⟩ := Option.map_eq_some_iff.1 hsize
  obtain ⟨before, comment, rfl, rfl, hcomment⟩ := h n rfl
  exact ⟨front ++ before, comment, by simp, Text.byteLength_append .., hcomment⟩

theorem markedAt (h : Skipped kind newLine gap marked) : ∀ size, marked = some size → MarkedAt gap size := by
  induction h with
  | nil => exact nofun
  | @blank _ c _ _ _ _ ih | @lineEnd _ c _ _ _ _ ih | @lineRest _ c _ _ _ _ ih
  | @blockRest _ c _ _ _ _ _ ih =>
    exact fun size hsize => markedAt_append [c] hsize ih
  | line _ ih => exact fun size hsize => markedAt_append ['/', '/'] hsize ih
  | block _ ih => exact fun size hsize => markedAt_append ['/', '*'] hsize ih
  | blockEnd _ ih => exact fun size hsize => markedAt_append ['*', '/'] hsize ih
  | opened hgap _ =>
    rintro _ ⟨⟩
    exact ⟨[], _, rfl, rfl, .inl fun newLine => .opened ((lineComment_iff newLine).1 hgap)⟩
  | closed _ _ =>
    rintro _ ⟨⟩
    exact ⟨[], _, rfl, rfl, .inr ⟨_, rfl⟩⟩

/-- Whether a space or a comment can end with a character. -/
def endsGap (c : Char) : Bool := isSpace c || Escape.isLineEnd c || c == '/'

theorem endsGap_of_cons {c : Char} {gap : Text} (hc : gap = [] → endsGap c = true)
    (hgap : ∀ d, gap.getLast? = some d → endsGap d = true) (d : Char) (h : (c :: gap).getLast? = some d) :
    endsGap d = true := by
  rw [List.getLast?_cons] at h
  cases hlast : gap.getLast? with
  | none =>
    rw [hlast] at h
    cases h
    exact hc (List.getLast?_eq_none_iff.1 hlast)
  | some e =>
    rw [hlast] at h
    cases h
    exact hgap _ hlast

theorem endsGap_of_getLast? (h : Skipped kind newLine gap marked) :
    (gap = [] → kind = .space) ∧ ∀ c, gap.getLast? = some c → endsGap c = true := by
  induction h with
  | nil => exact ⟨fun _ => rfl, nofun⟩
  | blank hc _ ih =>
    refine ⟨fun _ => rfl, endsGap_of_cons (fun _ => ?_) ih.2⟩
    rw [endsGap, hc, Bool.true_or]
  | lineEnd hc _ ih =>
    refine ⟨nofun, endsGap_of_cons (fun _ => ?_) ih.2⟩
    rw [endsGap, hc, Bool.or_true, Bool.true_or]
  | blockEnd _ ih => exact ⟨nofun, endsGap_of_cons nofun (endsGap_of_cons (fun _ => by decide) ih.2)⟩
  -- Behind the opening of a comment and inside of it something more is skipped.
  | line _ ih | block _ ih =>
    exact ⟨fun _ => rfl, endsGap_of_cons nofun (endsGap_of_cons (fun hnil => nomatch ih.1 hnil) ih.2)⟩
  | opened _ ih =>
    exact ⟨fun _ => rfl, endsGap_of_cons nofun (endsGap_of_cons nofun
      (endsGap_of_cons nofun (endsGap_of_cons (fun hnil => nomatch ih.1 hnil) ih.2)))⟩
  | closed _ ih =>
    exact ⟨fun _ => rfl, endsGap_of_cons nofun (endsGap_of_cons nofun
      (endsGap_of_cons (fun hnil => nomatch ih.1 hnil) ih.2))⟩
  | lineRest _ _ ih => exact ⟨nofun, endsGap_of_cons (fun hnil => nomatch ih.1 hnil) ih.2⟩
  | blockRest _ _ ih => exact ⟨nofun, endsGap_of_cons nofun ih.2⟩

end Skipped

open Skipped in
/-- What is skipped up to a token. -/
theorem exists_skipped {c : Char} {rest : Text} {offset' : Nat} {newLine' : Bool} {after : Option Nat} :
    ∀ (kind : Gap) (text : Text) (offset : Nat) (newLine : Bool) (before : Option Nat),
    skipGap kind text offset newLine before = ⟨⟨c :: rest, offset'⟩, newLine', after⟩ →
    ∃ gap marked, text = gap ++ c :: rest ∧ offset' = offset + gap.byteLength ∧
    after = before.or (marked.map (offset + ·)) ∧
      Skipped kind newLine gap marked := by
  intro kind text offset newLine before h
  fun_induction skipGap kind text offset newLine before with
  | case1 => cases h
  | case2 d text offset newLine before hd ih =>
    obtain ⟨gap, marked, rfl, rfl, rfl, hgap⟩ := ih h
    refine ⟨_, _, rfl, ?_, ?_, .lineEnd hd hgap⟩
    · rw [Text.byteLength_cons, Nat.add_assoc]
    · rw [map_add_map]
  | case3 d text offset newLine before hd ih =>
    obtain ⟨gap, marked, rfl, rfl, rfl, hgap⟩ := ih h
    refine ⟨_, _, rfl, ?_, ?_, .lineRest (by simpa using hd) hgap⟩
    · rw [Text.byteLength_cons, Nat.add_assoc]
    · rw [map_add_map]
  | case4 text offset newLine before ih =>
    obtain ⟨gap, marked, rfl, rfl, rfl, hgap⟩ := ih h
    exact ⟨_, _, rfl, (byteLength_pair rfl rfl gap offset).symm, by rw [map_add_map], .blockEnd hgap⟩
  | case5 d text offset newLine before hd ih =>
    obtain ⟨gap, marked, rfl, rfl, rfl, hgap⟩ := ih h
    obtain ⟨e, gap, rfl⟩ := List.exists_cons_of_ne_nil hgap.ne_nil_of_blockComment
    refine ⟨_, _, rfl, ?_, ?_,
      .blockRest (fun heq => hd (gap ++ c :: rest) heq.1 (congrArg (· :: _) heq.2)) hgap⟩
    · rw [Text.byteLength_cons d, Nat.add_assoc]
    · rw [map_add_map]
  | case6 text offset newLine before ih =>
    obtain ⟨gap, marked, rfl, rfl, rfl, hgap⟩ := ih h
    exact ⟨_, _, rfl, (byteLength_pair rfl rfl gap offset).symm, by rw [map_add_map], .line hgap⟩
  | case7 text offset newLine before ih =>
    obtain ⟨gap, marked, rfl, rfl, rfl, hgap⟩ := ih h
    exact ⟨_, _, rfl, (byteLength_pair rfl rfl gap offset).symm, by rw [map_add_map], .block hgap⟩
  | case8 text offset newLine before ih =>
    obtain ⟨gap, marked, rfl, rfl, rfl, hgap⟩ := ih h
    refine ⟨_, _, rfl, (byteLength_opened gap offset).symm, ?_, .opened hgap⟩
    cases before
    all_goals rfl
  | case9 text offset before ih =>
    obtain ⟨gap, marked, rfl, rfl, rfl, hgap⟩ := ih h
    refine ⟨_, _, rfl, (byteLength_closed gap offset).symm, ?_, .closed hgap⟩
    cases before
    all_goals rfl
  | case10 d text offset newLine before _ _ _ _ hd ih =>
    obtain ⟨gap, marked, rfl, rfl, rfl, hgap⟩ := ih h
    refine ⟨_, _, rfl, ?_, ?_, .blank (by simp [hd]) (by simpa [hd] using hgap)⟩
    · rw [Text.byteLength_cons, Nat.add_assoc]
    · rw [map_add_map]
  | case11 d text offset newLine before _ _ _ _ hd hspace ih =>
    obtain ⟨gap, marked, rfl, rfl, rfl, hgap⟩ := ih h
    refine ⟨_, _, rfl, ?_, ?_, .blank (by simp [hspace]) (by simpa [hd] using hgap)⟩
    · rw [Text.byteLength_cons, Nat.add_assoc]
    · rw [map_add_map]
  | case12 d text offset newLine before =>
    cases h
    exact ⟨[], none, rfl, rfl, by simp, .nil⟩

theorem skipped_of_between {gap : Text} (between : Between gap) :
    ∃ marked, Skipped .space false gap marked := by
  obtain ⟨newLine, h⟩ := between.skipped ['x'] 0 false none
  rw [skipGap_solid (by decide)] at h
  obtain ⟨skipped, marked, heq, -, -, hskipped⟩ := exists_skipped .space _ _ _ _ h
  exact ⟨marked, List.append_cancel_right heq ▸ hskipped⟩

end Lexeme
end ClassWeave
