import ClassWeave.Proofs.Stretches
/-!
# Templates as a partition

The classes of a template share out what stands in it: every character that is not blank and every
expression goes to one class, in order, and neighbours go to the same class exactly if nothing blank
stands between them.
-/

namespace ClassWeave

variable {α : Type}

/-! ## What stretches take -/

theorem flatten_splitOnP :
    ∀ sequence : List (Char ⊕ α), (sequence.splitOnP isGap).flatten = sequence.filter (!isGap ·)
  | [] => rfl
  | place :: rest => by
    obtain ⟨first, more, hsplit⟩ := List.exists_cons_of_ne_nil (List.splitOnP_ne_nil isGap rest)
    have ih := flatten_splitOnP rest
    rw [hsplit, List.flatten_cons] at ih
    rw [List.splitOnP_cons_eq_if_modifyHead, hsplit]
    by_cases hplace : isGap place = true
    · rw [if_pos hplace, List.flatten_cons, List.flatten_cons,
        ih, List.filter_cons_of_neg (by simpa using hplace)]
      rfl
    · rw [if_neg hplace, List.modifyHead_cons, List.flatten_cons, List.cons_append, ih,
        List.filter_cons_of_pos (by simpa using hplace)]

theorem flatten_stretches (sequence : List (Char ⊕ α)) :
    (stretches sequence).flatten = sequence.filter (!isGap ·) := by
  rw [stretches, List.flatten_filter_not_isEmpty, flatten_splitOnP]

theorem stretches_gaps : ∀ {gaps : List (Char ⊕ α)}, (∀ place ∈ gaps, isGap place = true) →
    ∀ rest : List (Char ⊕ α), stretches (gaps ++ rest) = stretches rest
  | [], _, _ => rfl
  | gap :: gaps, h, rest => by
    rw [List.cons_append, stretches_gap (h gap (List.mem_cons_self ..)),
      stretches_gaps (fun place hplace => h place (List.mem_cons_of_mem _ hplace))]

-- The parts in front of a place and the front of its own part hold what stands before it; what
-- follows in its own part is the first part of what stands after it. So whether a neighbour belongs
-- to it is read off what stands after it.
theorem splitOnP_place {place : Char ⊕ α} (hplace : isGap place = false) (after : List (Char ⊕ α)) :
    ∀ before : List (Char ⊕ α), ∃ left front, left.flatten ++ front = before.filter (!isGap ·) ∧
      (before ++ place :: after).splitOnP isGap =
        left ++ (after.splitOnP isGap).modifyHead fun rear => front ++ place :: rear
  | [] => by
    refine ⟨[], [], rfl, ?_⟩
    rw [List.nil_append, List.splitOnP_cons_eq_if_modifyHead, if_neg (by simp [hplace])]
    rfl
  | other :: before => by
    obtain ⟨left, front, hbefore, hsplit⟩ := splitOnP_place hplace after before
    rw [List.cons_append, List.splitOnP_cons_eq_if_modifyHead, hsplit]
    by_cases hother : isGap other = true
    · refine ⟨[] :: left, front, ?_, by rw [if_pos hother]; rfl⟩
      rw [List.flatten_cons, List.nil_append, hbefore, List.filter_cons_of_neg (by simpa using hother)]
    · rw [if_neg hother, List.filter_cons_of_pos (by simpa using hother), ← hbefore]
      cases left with
      | nil =>
        refine ⟨[], other :: front, rfl, ?_⟩
        rw [List.nil_append, List.modifyHead_modifyHead]
        rfl
      | cons stretch left => exact ⟨(other :: stretch) :: left, front, rfl, rfl⟩

variable {first second : Char ⊕ α} (hfirst : isGap first = false) (hsecond : isGap second = false)

include hfirst hsecond in
theorem stretches_together (before after : List (Char ⊕ α)) : ∃ left front rear right,
    left.flatten ++ front = before.filter (!isGap ·) ∧
      stretches (before ++ first :: second :: after) =
        left ++ (front ++ first :: second :: rear) :: right := by
  obtain ⟨left, front, hbefore, hsplit⟩ := splitOnP_place hfirst (second :: after) before
  obtain ⟨rear, right, hafter⟩ := List.exists_cons_of_ne_nil (List.splitOnP_ne_nil isGap after)
  refine ⟨left.filter (!·.isEmpty), front, rear, right.filter (!·.isEmpty), ?_, ?_⟩
  · rw [List.flatten_filter_not_isEmpty, hbefore]
  · rw [stretches, hsplit, List.splitOnP_cons_eq_if_modifyHead,
      if_neg (by simp [hsecond]), hafter, List.modifyHead_cons,
      List.modifyHead_cons, List.filter_append, List.filter_cons_of_pos (by simp)]

include hfirst hsecond in
theorem stretches_apart (before after : List (Char ⊕ α)) {between : List (Char ⊕ α)} (hne : between ≠ [])
    (hbetween : ∀ place ∈ between, isGap place = true) : ∃ left front rear right,
    left.flatten ++ front = before.filter (!isGap ·) ∧
      stretches (before ++ first :: (between ++ second :: after)) =
        left ++ (front ++ [first]) :: (second :: rear) :: right := by
  obtain ⟨gap, gaps, rfl⟩ := List.exists_cons_of_ne_nil hne
  obtain ⟨left, front, hbefore, hsplit⟩ := splitOnP_place hfirst ((gap :: gaps) ++ second :: after) before
  obtain ⟨rear, right, hafter⟩ := List.exists_cons_of_ne_nil (List.splitOnP_ne_nil isGap after)
  have hrest : stretches (gaps ++ second :: after) = (second :: rear) :: right.filter (!·.isEmpty) := by
    rw [stretches_gaps (fun place hplace => hbetween place (List.mem_cons_of_mem _ hplace)), stretches,
      List.splitOnP_cons_eq_if_modifyHead, if_neg (by simp [hsecond]), hafter, List.modifyHead_cons,
      List.filter_cons_of_pos (by simp)]
  refine ⟨left.filter (!·.isEmpty), front, rear, right.filter (!·.isEmpty), ?_, ?_⟩
  · rw [List.flatten_filter_not_isEmpty, hbefore]
  · rw [stretches, hsplit, List.cons_append, List.splitOnP_cons_eq_if_modifyHead,
      if_pos (hbetween gap (List.mem_cons_self ..)), List.modifyHead_cons,
      List.filter_append, List.filter_cons_of_pos (by simp), ← hrest]
    rfl

/-! ## The pieces of a stretch -/

theorem ne_nil_of_mem_piecesOf {word : Text} :
    ∀ {stretch : List (Char ⊕ α)}, .text word ∈ piecesOf stretch → word ≠ []
  | .inl c :: rest, h => by
    have ih := @ne_nil_of_mem_piecesOf word rest
    rw [piecesOf] at h
    generalize piecesOf rest = pieces at h ih
    cases pieces with
    | nil =>
      cases List.mem_singleton.1 h
      exact List.cons_ne_nil c []
    | cons piece pieces =>
      cases piece with
      | text other =>
        rcases List.mem_cons.1 h with heq | h
        · cases heq
          exact List.cons_ne_nil c other
        · exact ih (List.mem_cons_of_mem _ h)
      | embedded expression =>
        rcases List.mem_cons.1 h with heq | h
        · cases heq
          exact List.cons_ne_nil c []
        · exact ih h
  | .inr expression :: rest, h => ne_nil_of_mem_piecesOf ((List.mem_cons.1 h).resolve_left (by rintro ⟨⟩))

theorem piecesOf_merged (second : Text) (rest : List (Piece α)) :
    ∀ (stretch : List (Char ⊕ α)) (front : List (Piece α))
    (first : Text), piecesOf stretch ≠ front ++ .text first :: .text second :: rest
  | [], front, first => by simp [piecesOf]
  | .inr expression :: stretch, front, first => by
    intro h
    rcases List.cons_eq_append_iff.1 h with ⟨-, heq⟩ | ⟨front, -, heq⟩
    · cases heq
    · exact piecesOf_merged second rest stretch front first heq
  | .inl c :: stretch, front, first => by
    intro h
    have ih := piecesOf_merged second rest stretch
    rw [piecesOf] at h
    generalize piecesOf stretch = pieces at h ih
    cases pieces with
    | nil =>
      rcases List.cons_eq_append_iff.1 h with ⟨-, heq⟩ | ⟨front, -, heq⟩
      · cases heq
      · exact List.append_ne_nil_of_right_ne_nil front (by simp) heq.symm
    | cons piece pieces =>
      cases piece with
      | text word =>
        rcases List.cons_eq_append_iff.1 h with ⟨-, heq⟩ | ⟨front, -, rfl⟩
        · cases heq
          exact ih [] word rfl
        · exact ih (.text word :: front) first rfl
      | embedded expression =>
        rcases List.cons_eq_append_iff.1 h with ⟨-, heq⟩ | ⟨front, -, heq⟩
        · cases heq
        · exact ih front first heq

theorem not_isBlank_of_mem_piecesOf {stretch : List (Char ⊕ α)}
    (hsolid : ∀ place ∈ stretch, isGap place = false) {word : Text} (h : .text word ∈ piecesOf stretch) :
    ∀ c ∈ word, Text.isBlank c = false := by
  intro c hc
  refine hsolid (.inl c) ?_
  rw [← places_piecesOf stretch]
  exact List.mem_flatMap.2 ⟨_, h, List.mem_map_of_mem hc⟩

/-! ## Classes -/

theorem charactersIn_weave : ∀ {chunks : List Chunk} {inner : List α}, chunks.length = inner.length + 1 →
    (weave chunks inner).filterMap Sum.getLeft? = chunks.flatMap Chunk.value
  | [], _, h => by simp at h
  | [chunk], [], _ => by
    simp [weave, List.filterMap_map, Function.comp_def]
  | chunk :: chunks, expression :: rest, h => by
    have ih : (weave chunks rest).filterMap Sum.getLeft? = chunks.flatMap Chunk.value :=
      charactersIn_weave (by simpa using h)
    rw [weave, List.filterMap_append, List.filterMap_cons_none rfl, ih, List.flatMap_cons]
    simp [List.filterMap_map, Function.comp_def]
  | _ :: _ :: _, [], h => by simp at h

theorem map_places_classes {chunks : List Chunk} {inner : List α} (h : chunks.length = inner.length + 1) :
    (classes chunks inner).map (·.flatMap Piece.places) = stretches (weave chunks inner) := by
  rw [classes_eq_stretches h, List.map_map]
  exact List.map_id'' (fun stretch => places_piecesOf stretch) _

/-- The classes of a template are the stretches between the blank characters of its text, with the
characters that follow one another as one piece. So they share out its characters that are not blank
and its expressions. -/
theorem classes_partition {chunks : List Chunk} {inner : List α} (h : chunks.length = inner.length + 1) :
    classes chunks inner = (stretches (weave chunks inner)).map piecesOf ∧
    (weave chunks inner).filterMap Sum.getLeft? = chunks.flatMap Chunk.value ∧
    embeddedIn (weave chunks inner) = inner ∧
    (classes chunks inner).flatMap (·.flatMap Piece.places) = (weave chunks inner).filter (!isGap ·) ∧
    (∀ before first between second after,
      weave chunks inner = before ++ first :: (between ++ second :: after) →
      isGap first = false → isGap second = false → (∀ place ∈ between, isGap place = true) →
      ∃ left front rear right, left.flatten ++ front = before.filter (!isGap ·) ∧
        (classes chunks inner).map (·.flatMap Piece.places) =
          if between = [] then left ++ (front ++ first :: second :: rear) :: right
          else left ++ (front ++ [first]) :: (second :: rear) :: right) ∧
    ∀ pieces ∈ classes chunks inner, pieces ≠ [] ∧
      (∀ word, .text word ∈ pieces → word ≠ [] ∧ ∀ c ∈ word, Text.isBlank c = false) ∧
      ∀ front first second rest, pieces ≠ front ++ .text first :: .text second :: rest := by
  refine ⟨classes_eq_stretches h, charactersIn_weave h, embeddedIn_weave h, ?_, ?_, ?_⟩
  · rw [List.flatMap_def, map_places_classes h, flatten_stretches]
  · intro before first between second after hweave hfirst hsecond hbetween
    rw [map_places_classes h, hweave]
    by_cases hnil : between = []
    · subst hnil
      simpa using stretches_together hfirst hsecond before after
    · simpa [hnil] using stretches_apart hfirst hsecond before after hnil hbetween
  · intro pieces hpieces
    rw [classes_eq_stretches h] at hpieces
    obtain ⟨stretch, hstretch, rfl⟩ := List.mem_map.1 hpieces
    obtain ⟨hne, hsolid⟩ := solid_of_mem_stretches hstretch
    refine ⟨mt piecesOf_eq_nil.1 hne, ?_, fun front first second rest =>
      piecesOf_merged second rest stretch front first⟩
    intro word hword
    exact ⟨ne_nil_of_mem_piecesOf hword, not_isBlank_of_mem_piecesOf hsolid hword⟩

/-- Chunks with blank characters at their ends, an empty one and a blank one. -/
def adjacentChunks : List Chunk :=
  ["a ".toList, [], "b\t".toList, " ".toList].map fun text => ⟨text, some text⟩

theorem classes_partition_adjacent :
    classes adjacentChunks [0, 1, 2] =
      [[.text ['a']], [.embedded 0, .embedded 1, .text ['b']], [.embedded 2]] ∧
    (classes adjacentChunks [0, 1, 2]).flatMap (·.flatMap Piece.places) =
      [.inl 'a', .inr 0, .inr 1, .inl 'b', .inr 2] := by
  have hlength : adjacentChunks.length = [0, 1, 2].length + 1 := rfl
  obtain ⟨hclasses, -, -, hplaces, -⟩ := classes_partition hlength
  exact ⟨hclasses.trans (by decide +kernel), hplaces.trans (by decide +kernel)⟩

end ClassWeave
