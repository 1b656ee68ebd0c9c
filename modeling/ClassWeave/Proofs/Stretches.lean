import Mathlib.Data.List.Forall2
import ClassWeave.Proofs.Cutting
/-!
# Classes as stretches

The classes of a template can be read off its characters and expressions as they stand: they are the
stretches between the blank characters, each with the characters that follow one another taken
together.
-/

namespace ClassWeave

section
variable {α β : Type}

def isGap : Char ⊕ α → Bool
  | .inl c => Text.isBlank c
  | .inr _ => false

def embeddedIn (sequence : List (Char ⊕ α)) : List α := sequence.filterMap Sum.getRight?

/-- The stretches of a sequence between its blank characters. -/
def stretches (sequence : List (Char ⊕ α)) : List (List (Char ⊕ α)) :=
  (sequence.splitOnP isGap).filter (!·.isEmpty)

def Piece.lead (c : Char) : List (Piece α) → List (Piece α)
  | .text word :: pieces => .text (c :: word) :: pieces
  | pieces => .text [c] :: pieces

def Piece.places : Piece α → List (Char ⊕ α)
  | .text word => word.map .inl
  | .embedded expression => [.inr expression]

def piecesOf : List (Char ⊕ α) → List (Piece α)
  | [] => []
  | .inl c :: rest => Piece.lead c (piecesOf rest)
  | .inr expression :: rest => .embedded expression :: piecesOf rest

/-! ## Pieces -/

theorem places_lead (c : Char) (pieces : List (Piece α)) :
    (Piece.lead c pieces).flatMap Piece.places = .inl c :: pieces.flatMap Piece.places := by
  match pieces with
  | [] => rfl
  | .text word :: rest => rfl
  | .embedded expression :: rest => rfl

theorem places_piecesOf : ∀ stretch : List (Char ⊕ α), (piecesOf stretch).flatMap Piece.places = stretch
  | [] => rfl
  | .inl c :: rest => by rw [piecesOf, places_lead, places_piecesOf rest]
  | .inr expression :: rest => by
    rw [piecesOf, List.flatMap_cons, places_piecesOf rest]
    rfl

theorem piecesOf_eq_nil {stretch : List (Char ⊕ α)} : piecesOf stretch = [] ↔ stretch = [] := by
  constructor
  · intro h
    rw [← places_piecesOf stretch, h]
    rfl
  · rintro rfl
    rfl

theorem map_lead (f : α → β) (c : Char) (pieces : List (Piece α)) :
    (Piece.lead c pieces).map (Piece.map f) = Piece.lead c (pieces.map (Piece.map f)) := by
  match pieces with
  | [] => rfl
  | .text word :: rest => rfl
  | .embedded expression :: rest => rfl

theorem piecesOf_map (f : α → β) : ∀ stretch : List (Char ⊕ α),
    piecesOf (stretch.map (Sum.map id f)) = (piecesOf stretch).map (Piece.map f)
  | [] => rfl
  | .inl c :: rest => by
    rw [piecesOf, map_lead, ← piecesOf_map f rest]
    rfl
  | .inr expression :: rest => by
    rw [piecesOf, List.map_cons, List.map_cons, ← piecesOf_map f rest]
    rfl

theorem piecesOf_word {rest : List (Char ⊕ α)} (hrest : ∀ c, rest.head? ≠ some (.inl c)) :
    ∀ {word : Text}, word ≠ [] →
    piecesOf (word.map .inl ++ rest) = .text word :: piecesOf rest
  | [c], _ => by
    match rest, hrest with
    | [], _ => rfl
    | .inl other :: rest, hrest => exact absurd rfl (hrest other)
    | .inr expression :: rest, _ => rfl
  | c :: d :: word, _ => by
    show Piece.lead c (piecesOf ((d :: word).map .inl ++ rest)) = _
    rw [piecesOf_word hrest (List.cons_ne_nil d word)]
    rfl

/-! ## Stretches -/

theorem splitOnP_append {solid : List (Char ⊕ α)} (hsolid : ∀ place ∈ solid, isGap place = false)
    (rest : List (Char ⊕ α)) :
    (solid ++ rest).splitOnP isGap = (rest.splitOnP isGap).modifyHead (solid ++ ·) := by
  obtain ⟨first, more, hsplit⟩ := List.exists_cons_of_ne_nil (List.splitOnP_ne_nil isGap rest)
  induction solid with
  | nil => rw [List.nil_append, hsplit]; rfl
  | cons place solid ih =>
    rw [List.cons_append, List.splitOnP_cons_eq_if_modifyHead, hsolid place (List.mem_cons_self ..),
      ih fun other hother => hsolid other (List.mem_cons_of_mem _ hother), hsplit]
    rfl

theorem stretches_of_solid {solid : List (Char ⊕ α)} (hne : solid ≠ [])
    (hsolid : ∀ place ∈ solid, isGap place = false) :
    stretches solid = [solid] := by
  rw [stretches, List.splitOnP_eq_singleton hsolid, List.filter_cons_of_pos (by simpa using hne)]
  rfl

theorem stretches_gap {gap : Char ⊕ α} (hgap : isGap gap = true) (rest : List (Char ⊕ α)) :
    stretches (gap :: rest) = stretches rest := by
  rw [stretches, List.splitOnP_cons_eq_if_modifyHead, if_pos hgap, List.filter_cons_of_neg (by simp)]
  rfl

theorem stretches_append_gap {solid : List (Char ⊕ α)} (hne : solid ≠ [])
    (hsolid : ∀ place ∈ solid, isGap place = false) {gap : Char ⊕ α}
    (hgap : isGap gap = true) (rest : List (Char ⊕ α)) :
    stretches (solid ++ gap :: rest) = solid :: stretches rest := by
  rw [stretches, List.splitOnP_append_cons_of_forall_mem hsolid gap hgap,
    List.filter_cons_of_pos (by simpa using hne)]
  rfl

theorem mem_splitOnP : ∀ {sequence stretch : List (Char ⊕ α)}, stretch ∈ sequence.splitOnP isGap →
    ∀ place ∈ stretch, isGap place = false
  | [], stretch, h, place, hplace => by
    rw [List.splitOnP_nil, List.mem_singleton] at h
    rw [h] at hplace
    cases hplace
  | first :: rest, stretch, h, place, hplace => by
    rw [List.splitOnP_cons_eq_if_modifyHead] at h
    split at h
    · rcases List.mem_cons.1 h with rfl | h
      · cases hplace
      · exact mem_splitOnP h place hplace
    · rename_i hfirst
      obtain ⟨head, more, hsplit⟩ := List.exists_cons_of_ne_nil (List.splitOnP_ne_nil isGap rest)
      have hmore : ∀ other, other ∈ head :: more → ∀ place ∈ other, isGap place = false :=
        fun other hother => mem_splitOnP (hsplit ▸ hother)
      rw [hsplit, List.modifyHead_cons] at h
      rcases List.mem_cons.1 h with rfl | h
      · rcases List.mem_cons.1 hplace with rfl | hplace
        · exact Bool.eq_false_iff.2 hfirst
        · exact hmore head (List.mem_cons_self ..) place hplace
      · exact hmore stretch (List.mem_cons_of_mem _ h) place hplace

theorem solid_of_mem_stretches {sequence stretch : List (Char ⊕ α)} (h : stretch ∈ stretches sequence) :
    stretch ≠ [] ∧ ∀ place ∈ stretch, isGap place = false := by
  obtain ⟨hmem, hne⟩ := List.mem_filter.1 h
  exact ⟨by simpa using hne, mem_splitOnP hmem⟩

theorem isGap_map (f : α → β) (place : Char ⊕ α) : isGap (Sum.map id f place) = isGap place := by
  cases place <;> rfl

theorem splitOnP_map (f : α → β) :
    ∀ sequence : List (Char ⊕ α), (sequence.map (Sum.map id f)).splitOnP isGap =
    (sequence.splitOnP isGap).map (List.map (Sum.map id f))
  | [] => rfl
  | place :: rest => by
    obtain ⟨first, more, hsplit⟩ := List.exists_cons_of_ne_nil (List.splitOnP_ne_nil isGap rest)
    rw [List.map_cons, List.splitOnP_cons_eq_if_modifyHead, List.splitOnP_cons_eq_if_modifyHead, isGap_map,
      splitOnP_map f rest, hsplit]
    split <;> rfl

theorem stretches_map (f : α → β) (sequence : List (Char ⊕ α)) :
    stretches (sequence.map (Sum.map id f)) = (stretches sequence).map (List.map (Sum.map id f)) := by
  rw [stretches, stretches, splitOnP_map, List.filter_map]
  congr 1
  exact List.filter_congr fun stretch _ => by simp

/-! ## Sequences place by place -/

section
variable {R : α → β → Prop}

theorem exists_pairs : ∀ {a : List (Char ⊕ α)} {b : List (Char ⊕ β)},
    List.Forall₂ (Sum.LiftRel (· = ·) R) a b →
    ∃ pairs : List (Char ⊕ (α × β)), (∀ pair, .inr pair ∈ pairs → R pair.1 pair.2) ∧
      a = pairs.map (Sum.map id Prod.fst) ∧ b = pairs.map (Sum.map id Prod.snd)
  | _, _, .nil => ⟨[], nofun, rfl, rfl⟩
  | _, _, .cons (.inl (a := c) heq) hrest => by
    obtain ⟨pairs, hpairs, rfl, rfl⟩ := exists_pairs hrest
    refine ⟨.inl c :: pairs, fun pair hpair => hpairs pair ?_, rfl, by rw [heq]; rfl⟩
    exact (List.mem_cons.1 hpair).resolve_left nofun
  | _, _, .cons (.inr (b := x) (d := y) hxy) hrest => by
    obtain ⟨pairs, hpairs, rfl, rfl⟩ := exists_pairs hrest
    refine ⟨.inr (x, y) :: pairs, fun pair hpair => ?_, rfl, rfl⟩
    rcases List.mem_cons.1 hpair with heq | hpair
    · cases heq
      exact hxy
    · exact hpairs pair hpair

theorem forall₂_of_pairs : ∀ {pairs : List (Char ⊕ (α × β))}, (∀ pair, .inr pair ∈ pairs → R pair.1 pair.2) →
    List.Forall₂ (Sum.LiftRel (· = ·) R) (pairs.map (Sum.map id Prod.fst)) (pairs.map (Sum.map id Prod.snd))
  | [], _ => .nil
  | .inl _ :: _, h =>
      .cons (.inl rfl) (forall₂_of_pairs fun pair hpair => h pair (List.mem_cons_of_mem _ hpair))
  | .inr pair :: _, h =>
    .cons (.inr (h pair (List.mem_cons_self ..)))
      (forall₂_of_pairs fun pair hpair => h pair (List.mem_cons_of_mem _ hpair))

end

/-! ## Expressions -/

theorem embeddedIn_append (a b : List (Char ⊕ α)) : embeddedIn (a ++ b) = embeddedIn a ++ embeddedIn b :=
  List.filterMap_append

theorem embeddedIn_map (f : α → β) (sequence : List (Char ⊕ α)) :
    embeddedIn (sequence.map (Sum.map id f)) = (embeddedIn sequence).map f := by
  unfold embeddedIn
  rw [List.filterMap_map, List.map_filterMap]
  congr 1
  funext place
  cases place <;> rfl

theorem embeddedIn_chars (text : Text) : embeddedIn (text.map (Sum.inl (β := α))) = [] := by
  unfold embeddedIn
  rw [List.filterMap_map]
  exact List.filterMap_eq_nil_iff.2 fun c _ => rfl

theorem mem_embeddedIn {sequence : List (Char ⊕ α)} {expression : α} :
    expression ∈ embeddedIn sequence ↔ .inr expression ∈ sequence := by
  unfold embeddedIn
  rw [List.mem_filterMap]
  constructor
  · rintro ⟨place, hplace, h⟩
    cases place with
    | inl c => cases h
    | inr found => cases h; exact hplace
  · exact fun h => ⟨_, h, rfl⟩

theorem embeddedIn_splitOnP : ∀ sequence : List (Char ⊕ α),
    (sequence.splitOnP isGap).flatMap embeddedIn = embeddedIn sequence
  | [] => rfl
  | place :: rest => by
    obtain ⟨first, more, hsplit⟩ := List.exists_cons_of_ne_nil (List.splitOnP_ne_nil isGap rest)
    have ih := embeddedIn_splitOnP rest
    rw [hsplit, List.flatMap_cons] at ih
    rw [List.splitOnP_cons_eq_if_modifyHead]
    split
    · rename_i hgap
      rw [hsplit, List.flatMap_cons, List.flatMap_cons, ih]
      cases place with
      | inl c => rfl
      | inr expression => cases hgap
    · rw [hsplit, List.modifyHead_cons, List.flatMap_cons]
      have happend := embeddedIn_append [place] first
      have happend' := embeddedIn_append [place] rest
      rw [List.singleton_append] at happend happend'
      rw [happend, List.append_assoc, ih, ← happend']

/-- Every expression of a sequence stands in one of its stretches, in order. -/
theorem embeddedIn_stretches (sequence : List (Char ⊕ α)) :
    (stretches sequence).flatMap embeddedIn = embeddedIn sequence := by
  rw [← embeddedIn_splitOnP sequence, stretches]
  induction sequence.splitOnP isGap with
  | nil => rfl
  | cons stretch rest ih =>
    cases stretch with
    | nil =>
      rw [List.filter_cons_of_neg (by simp), ih]
      rfl
    | cons place stretch => rw [List.filter_cons_of_pos (by simp), List.flatMap_cons, List.flatMap_cons, ih]

theorem mem_of_mem_stretches {sequence stretch : List (Char ⊕ α)}
    (h : stretch ∈ stretches sequence) {expression : α} (hexpression : .inr expression ∈ stretch) :
    .inr expression ∈ sequence := by
  rw [← mem_embeddedIn, ← embeddedIn_stretches, List.mem_flatMap]
  exact ⟨stretch, h, mem_embeddedIn.2 hexpression⟩

theorem stretches_forall₂ {R : α → β → Prop} {a : List (Char ⊕ α)} {b : List (Char ⊕ β)}
    (h : List.Forall₂ (Sum.LiftRel (· = ·) R) a b) :
    List.Forall₂ (List.Forall₂ (Sum.LiftRel (· = ·) R)) (stretches a) (stretches b) := by
  obtain ⟨pairs, hpairs, rfl, rfl⟩ := exists_pairs h
  rw [stretches_map, stretches_map, List.forall₂_map_left_iff, List.forall₂_map_right_iff, List.forall₂_same]
  exact fun stretch hstretch => forall₂_of_pairs fun pair hpair =>
    hpairs pair (mem_of_mem_stretches hstretch hpair)

theorem eq_chars_of_embeddedIn : ∀ {sequence : List (Char ⊕ α)}, embeddedIn sequence = [] →
    ∃ text : Text, sequence = text.map .inl
  | [], _ => ⟨[], rfl⟩
  | .inl c :: rest, h => by
    obtain ⟨text, rfl⟩ := @eq_chars_of_embeddedIn rest h
    exact ⟨c :: text, rfl⟩
  | .inr expression :: rest, h => by cases h

theorem piecesOf_eq_embedded {stretch : List (Char ⊕ α)} {expression : α} :
    piecesOf stretch = [.embedded expression] ↔ stretch = [.inr expression] := by
  constructor
  · intro h
    rw [← places_piecesOf stretch, h]
    rfl
  · rintro rfl
    rfl

theorem embeddedIn_weave : ∀ {chunks : List Chunk} {inner : List α}, chunks.length = inner.length + 1 →
    embeddedIn (weave chunks inner) = inner
  | [], _, h => by simp at h
  | [chunk], [], _ => by rw [weave, weave, List.append_nil, embeddedIn_chars]
  | chunk :: chunks, expression :: rest, h => by
    have ih : embeddedIn (weave chunks rest) = rest := embeddedIn_weave (by simpa using h)
    rw [weave, embeddedIn_append, embeddedIn_chars, List.nil_append]
    exact congrArg (expression :: ·) ih
  | _ :: _ :: _, [], h => by simp at h

theorem embeddedIn_weave_sublist :
    ∀ (chunks : List Chunk) (inner : List α), (embeddedIn (weave chunks inner)).Sublist inner
  | [], inner => List.nil_sublist inner
  | chunk :: chunks, [] => by
    rw [weave, embeddedIn_append, embeddedIn_chars, List.nil_append]
    exact embeddedIn_weave_sublist chunks []
  | chunk :: chunks, expression :: rest => by
    rw [weave, embeddedIn_append, embeddedIn_chars, List.nil_append]
    exact (embeddedIn_weave_sublist chunks rest).cons_cons expression

/-! ## Classes -/

namespace Cutting

def followedBy (cutting : Cutting α) (sequence : List (Char ⊕ α)) : List (List (Piece α)) :=
  cutting.complete ++
    (((sequence.splitOnP isGap).map piecesOf).modifyHead (cutting.current ++ ·)).filter (!·.isEmpty)

theorem followedBy_nil (cutting : Cutting α) : cutting.followedBy [] = cutting.close.complete := by
  have hsplit : ([] : List (Char ⊕ α)).splitOnP isGap = [[]] := List.splitOnP_nil
  unfold followedBy close
  rw [hsplit, List.map_singleton, List.modifyHead_cons, piecesOf, List.append_nil]
  cases hcurrent : cutting.current with
  | nil => simp
  | cons piece rest => simp

theorem close_followedBy (cutting : Cutting α) {c : Char} (hc : Text.isBlank c = true)
    (sequence : List (Char ⊕ α)) :
    cutting.close.followedBy sequence = cutting.followedBy (.inl c :: sequence) := by
  obtain ⟨first, more, hsplit⟩ := List.exists_cons_of_ne_nil (List.splitOnP_ne_nil isGap sequence)
  have hgap : isGap (.inl c : Char ⊕ α) = true := hc
  unfold followedBy close
  rw [List.splitOnP_cons_eq_if_modifyHead, if_pos hgap, hsplit]
  cases hcurrent : cutting.current with
  | nil => simp [piecesOf, hcurrent]
  | cons piece rest => simp [piecesOf]

theorem add_followedBy (cutting : Cutting α) (expression : α) (sequence : List (Char ⊕ α)) :
    (cutting.add (.embedded expression)).followedBy sequence =
      cutting.followedBy (.inr expression :: sequence) := by
  obtain ⟨first, more, hsplit⟩ := List.exists_cons_of_ne_nil (List.splitOnP_ne_nil isGap sequence)
  have hsolid : isGap (.inr expression : Char ⊕ α) ≠ true := Bool.false_ne_true
  unfold followedBy add
  rw [List.splitOnP_cons_eq_if_modifyHead, if_neg hsolid, hsplit]
  simp [piecesOf]

theorem addWord_followedBy (cutting : Cutting α) {word : Text} (hword : ∀ c ∈ word, Text.isBlank c = false)
    {sequence : List (Char ⊕ α)} (hsequence : ∀ c, sequence.head? = some (.inl c) → Text.isBlank c = true) :
    (cutting.addWord word).followedBy sequence = cutting.followedBy (word.map .inl ++ sequence) := by
  unfold addWord
  split
  · rename_i hempty
    rw [List.isEmpty_iff.1 hempty]
    rfl
  · rename_i hne
    obtain ⟨first, more, hsplit⟩ := List.exists_cons_of_ne_nil (List.splitOnP_ne_nil isGap sequence)
    have hsolid : ∀ place ∈ word.map (Sum.inl (β := α)), isGap place = false := by
      intro place hplace
      obtain ⟨c, hc, rfl⟩ := List.mem_map.1 hplace
      exact hword c hc
    -- A character in front of the sequence is blank, so none follows the word in its stretch.
    have hfirst : ∀ c, first.head? ≠ some (.inl c) := by
      intro c hc
      cases sequence with
      | nil =>
        rw [List.splitOnP_nil] at hsplit
        cases hsplit
        cases hc
      | cons place rest =>
        rw [List.splitOnP_cons_eq_if_modifyHead] at hsplit
        split at hsplit
        · cases hsplit
          cases hc
        · rename_i hplace
          obtain ⟨head, others, hrest⟩ := List.exists_cons_of_ne_nil (List.splitOnP_ne_nil isGap rest)
          rw [hrest] at hsplit
          cases hsplit
          cases hc
          exact hplace (hsequence c rfl)
    unfold followedBy add
    rw [splitOnP_append hsolid, hsplit]
    simp only [List.modifyHead_cons, List.map_cons]
    rw [piecesOf_word hfirst (by simpa using hne), List.append_assoc]
    rfl

theorem addWords_followedBy {sequence : List (Char ⊕ α)}
    (hsequence : ∀ c, sequence.head? = some (.inl c) → Text.isBlank c = true) :
    ∀ (text before : Text) (cutting : Cutting α),
    (∀ c ∈ before, Text.isBlank c = false) → ∀ first rest, text.splitWhere Text.isBlank = first :: rest →
    (rest.foldl (fun cutting word => cutting.close.addWord word)
      (cutting.addWord (before ++ first))).followedBy sequence =
      cutting.followedBy (before.map .inl ++ (text.map .inl ++ sequence))
  | [], before, cutting, hbefore, first, rest, hwords => by
    cases hwords
    rw [List.append_nil]
    exact addWord_followedBy cutting hbefore hsequence
  | c :: text, before, cutting, hbefore, first, rest, hwords => by
    obtain ⟨word, words, htext⟩ := List.exists_cons_of_ne_nil (Text.splitWhere_ne_nil Text.isBlank text)
    rw [Text.splitWhere, htext] at hwords
    by_cases hc : Text.isBlank c = true
    · rw [if_pos hc] at hwords
      cases hwords
      rw [List.append_nil, List.foldl_cons]
      have ih :=
        addWords_followedBy hsequence text [] (cutting.addWord before).close (by simp) word words htext
      rw [List.nil_append] at ih
      rw [ih, close_followedBy _ hc, addWord_followedBy cutting hbefore]
      · rfl
      · exact fun d hd => by cases hd; exact hc
    · rw [if_neg hc] at hwords
      cases hwords
      have hmore : ∀ d ∈ before ++ [c], Text.isBlank d = false := by
        intro d hd
        rcases List.mem_append.1 hd with hd | hd
        · exact hbefore d hd
        · exact List.mem_singleton.1 hd ▸ Bool.eq_false_iff.2 hc
      have ih := addWords_followedBy hsequence text (before ++ [c]) cutting hmore word rest htext
      simpa using ih

theorem addText_followedBy (cutting : Cutting α) (text : Text) {sequence : List (Char ⊕ α)}
    (hsequence : ∀ c, sequence.head? = some (.inl c) → Text.isBlank c = true) :
    (cutting.addText text).followedBy sequence = cutting.followedBy (text.map .inl ++ sequence) := by
  obtain ⟨first, rest, hwords⟩ := List.exists_cons_of_ne_nil (Text.splitWhere_ne_nil Text.isBlank text)
  have h := addWords_followedBy hsequence text [] cutting nofun first rest hwords
  unfold addText
  rw [hwords]
  exact h

theorem addAll_followedBy : ∀ {chunks : List Chunk} {embedded : List α} (cutting : Cutting α),
    chunks.length = embedded.length + 1 →
    (addAll chunks embedded cutting).followedBy [] = cutting.followedBy (weave chunks embedded)
  | [], _, _, h => by simp at h
  | [chunk], [], cutting, _ => by
    rw [addAll, addAll, addText_followedBy cutting chunk.value (by simp)]
    rfl
  | chunk :: chunks, expression :: rest, cutting, h => by
    rw [addAll, addAll_followedBy _ (by simpa using h), add_followedBy,
      addText_followedBy cutting chunk.value (by simp)]
    rfl
  | _ :: _ :: _, [], _, h => by simp at h

end Cutting

/-- The classes of a template are the stretches of its characters and expressions. -/
theorem classes_eq_stretches {chunks : List Chunk} {inner : List α} (h : chunks.length = inner.length + 1) :
    classes chunks inner = (stretches (weave chunks inner)).map piecesOf := by
  unfold classes stretches
  rw [← Cutting.followedBy_nil, Cutting.addAll_followedBy _ h]
  obtain ⟨first, more, hsplit⟩ := List.exists_cons_of_ne_nil (List.splitOnP_ne_nil isGap (weave chunks inner))
  unfold Cutting.followedBy
  rw [List.nil_append, hsplit, List.map_cons, List.modifyHead_cons,
    List.nil_append, ← List.map_cons, List.filter_map]
  congr 1
  refine List.filter_congr fun stretch _ => ?_
  show (!(piecesOf stretch).isEmpty) = !stretch.isEmpty
  rw [Bool.eq_iff_iff]
  simp [piecesOf_eq_nil]

end

end ClassWeave
