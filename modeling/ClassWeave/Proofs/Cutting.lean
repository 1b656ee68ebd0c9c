import ClassWeave.Proofs.Evaluation
/-!
# Cutting templates

Cutting a template into classes loses nothing: the classes one after another come to what the
template does, and no class holds an expression that the template does not embed.
-/

namespace ClassWeave

/-! ## Other expressions -/

section
variable {α β : Type}

def Piece.map (f : α → β) : Piece α → Piece β
  | .text word => .text word
  | .embedded expression => .embedded (f expression)

def Cutting.map (f : α → β) (cutting : Cutting α) : Cutting β :=
  ⟨cutting.complete.map (List.map (Piece.map f)), cutting.current.map (Piece.map f)⟩

theorem Cutting.map_close (f : α → β) (cutting : Cutting α) :
    (cutting.map f).close = cutting.close.map f := by
  unfold close map
  by_cases h : cutting.current.isEmpty = true
  · simp [h]
  · simp [h]

theorem Cutting.map_addWord (f : α → β) (cutting : Cutting α) (word : Text) :
    (cutting.map f).addWord word = (cutting.addWord word).map f := by
  unfold addWord
  by_cases h : word.isEmpty = true
  · rw [if_pos h, if_pos h]
  · rw [if_neg h, if_neg h]
    simp [add, map, Piece.map]

theorem Cutting.map_addWords (f : α → β) : ∀ (words : List Text) (cutting : Cutting α),
    words.foldl (fun cutting word => cutting.close.addWord word) (cutting.map f) =
      (words.foldl (fun cutting word => cutting.close.addWord word) cutting).map f
  | [], _ => rfl
  | word :: words, cutting => by
    rw [List.foldl_cons, List.foldl_cons, map_close, map_addWord, map_addWords f words]

theorem Cutting.map_addText (f : α → β) (cutting : Cutting α) (text : Text) :
    (cutting.map f).addText text = (cutting.addText text).map f := by
  unfold addText
  cases text.splitWhere Text.isBlank with
  | nil => rfl
  | cons first rest =>
    show rest.foldl _ _ = _
    rw [map_addWord, map_addWords]

theorem Cutting.map_addAll (f : α → β) : ∀ (chunks : List Chunk) (embedded : List α) (cutting : Cutting α),
    addAll chunks (embedded.map f) (cutting.map f) = (addAll chunks embedded cutting).map f
  | [], _, _ => by rw [addAll, addAll]
  | chunk :: chunks, [], cutting => by
    rw [List.map_nil, addAll, addAll, map_addText]
    exact map_addAll f chunks [] _
  | chunk :: chunks, expression :: rest, cutting => by
    rw [List.map_cons, addAll, addAll, map_addText, ← map_addAll f chunks rest]
    simp [add, map, Piece.map]

theorem classes_map (f : α → β) (chunks : List Chunk) (embedded : List α) :
    classes chunks (embedded.map f) = (classes chunks embedded).map (List.map (Piece.map f)) := by
  unfold classes
  have h := Cutting.map_addAll f chunks embedded ⟨[], []⟩
  rw [show (⟨[], []⟩ : Cutting β) = Cutting.map f ⟨[], []⟩ from rfl, h, Cutting.map_close]
  rfl

end

/-! ## What classes come to -/

namespace Text

theorem joinWith_cons (separator piece : Text) : ∀ pieces : List Text,
    joinWith separator (piece :: pieces) = piece ++ pieces.flatMap (separator ++ ·)
  | [] => by simp [joinWith]
  | other :: pieces => by
    show piece ++ separator ++ joinWith separator (other :: pieces) = _
    rw [joinWith_cons separator other pieces]
    simp

theorem words_respaced (b : Text) : ∀ text a : Text,
    words (a ++ text ++ b) = words (a ++ joinWith [' '] (text.splitWhere isBlank) ++ b)
  | [], a => by simp [splitWhere, joinWith]
  | c :: text, a => by
    obtain ⟨piece, pieces, hpieces⟩ := List.exists_cons_of_ne_nil (splitWhere_ne_nil isBlank text)
    unfold splitWhere
    by_cases hc : isBlank c = true
    · have ih := words_respaced b text []
      rw [if_pos hc, hpieces, joinWith_cons]
      rw [hpieces, joinWith_cons] at ih
      simp only [List.nil_append, List.flatMap_cons, List.append_assoc, List.cons_append,
        words_append_blank hc, words_append_blank isBlank_space] at ih ⊢
      rw [ih]
    · have ih := words_respaced b text (a ++ [c])
      rw [if_neg hc]
      rw [hpieces, joinWith_cons] at ih ⊢
      simpa using ih

end Text

def classSigns (pieces : List (Piece (List Sign))) : List Sign :=
  pieces.flatMap fun
    | .text word => Sign.spell word
    | .embedded signs => signs

namespace Cutting

def total (cutting : Cutting (List Sign)) (more : List Sign) : Yield :=
  Yield.all (cutting.complete.map fun pieces => Yield.of (classSigns pieces)) ++
    Yield.of (classSigns cutting.current ++ more)

theorem total_close (cutting : Cutting (List Sign)) :
    Yield.all (cutting.close.complete.map fun pieces => Yield.of (classSigns pieces)) = cutting.total [] := by
  unfold close total
  split
  · rename_i hempty
    rw [List.isEmpty_iff.1 hempty]
    exact (Yield.append_none _).symm
  · simp

theorem close_total (cutting : Cutting (List Sign)) (more : List Sign) :
    cutting.close.total more = cutting.total (Sign.spell [' '] ++ more) := by
  have hopens : (Sign.text (Sign.spell [' '] ++ more)).Opens := by
    rw [Sign.text_append, Sign.text_spell]
    exact fun c hc => by cases hc; exact Text.isBlank_space
  unfold total
  rw [Yield.of_append_of_opens hopens, Yield.of_spell_append Node.isBlank_of_mem_space]
  unfold close
  split
  · rename_i hempty
    rw [List.isEmpty_iff.1 hempty]
    rfl
  · simp [classSigns]

theorem addWord_total (cutting : Cutting (List Sign)) (word : Text) (more : List Sign) :
    (cutting.addWord word).total more = cutting.total (Sign.spell word ++ more) := by
  unfold addWord
  split
  · rename_i hempty
    rw [List.isEmpty_iff.1 hempty]
    rfl
  · simp [add, total, classSigns]

theorem addWords_total (more : List Sign) : ∀ (words : List Text) (cutting : Cutting (List Sign)),
    (words.foldl (fun cutting word => cutting.close.addWord word) cutting).total more =
      cutting.total (Sign.spell (words.flatMap ([' '] ++ ·)) ++ more)
  | [], _ => rfl
  | word :: words, cutting => by
    rw [List.foldl_cons, addWords_total more words, addWord_total, close_total]
    simp only [List.flatMap_cons, Sign.spell_append, List.append_assoc]

theorem addText_total (cutting : Cutting (List Sign)) (text : Text) (more : List Sign) :
    (cutting.addText text).total more = cutting.total (Sign.spell text ++ more) := by
  obtain ⟨first, rest, hpieces⟩ := List.exists_cons_of_ne_nil (Text.splitWhere_ne_nil Text.isBlank text)
  have hwords := Text.words_respaced (Sign.text more) text (Sign.text (classSigns cutting.current))
  rw [hpieces, Text.joinWith_cons] at hwords
  unfold addText
  rw [hpieces]
  show total (rest.foldl _ _) more = _
  rw [addWords_total, addWord_total]
  unfold total Yield.of
  simp only [Sign.text_append, Sign.text_spell, Sign.events_append,
    Sign.events_spell, ← List.append_assoc] at hwords ⊢
  rw [hwords]
  simp

theorem addAll_total : ∀ (chunks : List Chunk) (embedded : List (List Sign)) (cutting : Cutting (List Sign)),
    (addAll chunks embedded cutting).total [] = cutting.total (signsOf (weave chunks embedded))
  | [], _, _ => by rw [addAll, weave]; rfl
  | chunk :: chunks, [], cutting => by
    rw [addAll, addAll_total chunks [], addText_total, weave, signsOf_append, signsOf_chars]
  | chunk :: chunks, expression :: rest, cutting => by
    rw [addAll, addAll_total chunks rest, weave, signsOf_append, signsOf_chars, signsOf_inr]
    rw [← addText_total]
    simp [add, total, classSigns]

end Cutting

/-- The classes of a template, one after another, come to what the template does. -/
theorem all_classes (chunks : List Chunk) (embedded : List (List Sign)) :
    Yield.all ((classes chunks embedded).map fun pieces => Yield.of (classSigns pieces)) =
      Yield.of (signsOf (weave chunks embedded)) := by
  unfold classes
  rw [Cutting.total_close, Cutting.addAll_total]
  rfl

/-! ## What classes hold -/

section
variable {α : Type}

theorem mem_of_mem_classes {chunks : List Chunk} {inner : List α} {pieces : List (Piece α)} {expression : α}
    (hpieces : pieces ∈ classes chunks inner) (h : .embedded expression ∈ pieces) : expression ∈ inner := by
  rw [← List.attach_map_subtype_val inner, classes_map] at hpieces
  obtain ⟨source, -, rfl⟩ := List.mem_map.1 hpieces
  obtain ⟨piece, -, heq⟩ := List.mem_map.1 h
  cases piece with
  | text word => cases heq
  | embedded found => cases heq; exact found.2

def gaps : Nat → List Text
  | 0 => [[]]
  | count + 1 => [] :: (List.replicate count [' '] ++ [[]])

theorem Cutting.addText_nil (cutting : Cutting α) : cutting.addText [] = cutting := rfl

theorem Cutting.addText_space {cutting : Cutting α} (h : cutting.current ≠ []) :
    cutting.addText [' '] = ⟨cutting.complete ++ [cutting.current], []⟩ := by
  show cutting.close = _
  rw [close, if_neg (by simpa using h)]

theorem Cutting.addAll_spaced : ∀ (rest : List α) (chunks : List Chunk) (cutting : Cutting α),
    cutting.current ≠ [] → chunks.map Chunk.value = List.replicate rest.length [' '] ++ [[]] →
    (addAll chunks rest cutting).close.complete =
      cutting.complete ++ [cutting.current] ++ rest.map fun expression => [.embedded expression]
  | [], chunks, cutting, hcurrent, hchunks => by
    obtain ⟨chunk, rest, rfl, hchunk, hrest⟩ := List.map_eq_cons_iff.1 hchunks
    obtain rfl := List.map_eq_nil_iff.1 hrest
    rw [addAll, addAll, hchunk, addText_nil, close, if_neg (by simpa using hcurrent)]
    simp
  | expression :: others, chunks, cutting, hcurrent, hchunks => by
    rw [List.length_cons, List.replicate_succ, List.cons_append] at hchunks
    obtain ⟨chunk, rest, rfl, hchunk, hrest⟩ := List.map_eq_cons_iff.1 hchunks
    rw [addAll, hchunk, addText_space hcurrent, addAll_spaced others rest _ (by simp [add]) hrest]
    simp [add]

theorem classes_of_gaps {chunks : List Chunk} {inner : List α}
    (h : chunks.map Chunk.value = gaps inner.length) :
    classes chunks inner = inner.map fun expression => [.embedded expression] := by
  unfold classes
  cases inner with
  | nil =>
    obtain ⟨chunk, rest, rfl, hchunk, hrest⟩ := List.map_eq_cons_iff.1 h
    obtain rfl := List.map_eq_nil_iff.1 hrest
    rw [Cutting.addAll, Cutting.addAll, hchunk]
    rfl
  | cons expression others =>
    obtain ⟨chunk, rest, rfl, hchunk, hrest⟩ := List.map_eq_cons_iff.1 h
    rw [Cutting.addAll, hchunk, Cutting.addText_nil,
      Cutting.addAll_spaced others rest _ (by simp [Cutting.add]) hrest]
    rfl

end

end ClassWeave
