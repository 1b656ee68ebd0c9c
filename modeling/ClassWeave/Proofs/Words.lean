import ClassWeave.Proofs.Tiling
/-!
# Words

What stands between the blank characters of a text. Words are cut at every blank character, so
nothing is lost where the first of two texts closes or the second opens with one.
-/

namespace ClassWeave.Text

def words (text : Text) : List Text := (text.splitWhere isBlank).filter (!·.isEmpty)

def Opens (text : Text) : Prop := ∀ c ∈ text.head?, isBlank c = true

def Closes (text : Text) : Prop := ∀ c ∈ text.getLast?, isBlank c = true

theorem splitWhere_append {cuts : Char → Bool} {c : Char} (hc : cuts c = true) (b : Text) : ∀ a : Text,
    splitWhere cuts (a ++ c :: b) = splitWhere cuts a ++ splitWhere cuts b
  | [] => by simp [splitWhere, hc]
  | d :: a => by
    rw [List.cons_append, splitWhere, splitWhere, splitWhere_append hc b a]
    by_cases hd : cuts d = true
    · rw [if_pos hd, if_pos hd, List.cons_append]
    · rw [if_neg hd, if_neg hd]
      obtain ⟨piece, pieces, hpieces⟩ := List.exists_cons_of_ne_nil (splitWhere_ne_nil cuts a)
      rw [hpieces]
      rfl

@[simp] theorem words_nil : words [] = [] := rfl

theorem isBlank_space : isBlank ' ' = true := by decide

theorem words_append_blank {c : Char} (hc : isBlank c = true) (a b : Text) :
    words (a ++ c :: b) = words a ++ words b := by
  unfold words
  rw [splitWhere_append hc, List.filter_append]

theorem words_blank_cons {c : Char} (hc : isBlank c = true) (text : Text) : words (c :: text) = words text :=
  words_append_blank hc [] text

theorem words_append_of_opens {a b : Text} (h : b.Opens) : words (a ++ b) = words a ++ words b := by
  cases b with
  | nil => simp
  | cons c b =>
    have hc : isBlank c = true := h c rfl
    rw [words_append_blank hc, words_blank_cons hc]

theorem words_append_of_closes {a b : Text} (h : a.Closes) : words (a ++ b) = words a ++ words b := by
  rcases List.eq_nil_or_concat a with rfl | ⟨front, c, rfl⟩
  · rfl
  · have hc : isBlank c = true := h c (by simp)
    rw [List.concat_eq_append, List.append_assoc, List.singleton_append, words_append_blank hc,
      words_append_blank hc, words_nil, List.append_nil]

theorem words_eq_nil : ∀ {text : Text}, (∀ c ∈ text, isBlank c = true) → words text = []
  | [], _ => rfl
  | c :: text, h => by
    rw [words_blank_cons (h c (List.mem_cons_self ..))]
    exact words_eq_nil fun d hd => h d (List.mem_cons_of_mem _ hd)

theorem words_trimStart : ∀ text : Text, words (trimStart text) = words text
  | [] => rfl
  | c :: text => by
    unfold trimStart
    by_cases hc : isBlank c = true
    · rw [List.dropWhile_cons_of_pos hc, words_blank_cons hc]
      exact words_trimStart text
    · rw [List.dropWhile_cons_of_neg hc]

theorem trimEnd_append : ∀ text : Text, ∃ tail, (∀ c ∈ tail, isBlank c = true) ∧ text = trimEnd text ++ tail
  | [] => ⟨[], by simp, rfl⟩
  | c :: text => by
    obtain ⟨tail, htail, heq⟩ := trimEnd_append text
    unfold trimEnd
    split
    · rename_i hnone
      rw [hnone, List.nil_append] at heq
      by_cases hc : isBlank c = true
      · rw [if_pos hc]
        refine ⟨c :: text, fun d hd => ?_, rfl⟩
        rcases List.mem_cons.1 hd with rfl | hd
        · exact hc
        · exact htail d (heq ▸ hd)
      · rw [if_neg hc]
        exact ⟨tail, htail, congrArg (c :: ·) heq⟩
    · exact ⟨tail, htail, congrArg (c :: ·) heq⟩

theorem words_trimEnd (text : Text) : words (trimEnd text) = words text := by
  obtain ⟨tail, htail, heq⟩ := trimEnd_append text
  have hopens : Opens tail := fun c hc => htail c (List.mem_of_mem_head? hc)
  conv => rhs; rw [heq, words_append_of_opens hopens, words_eq_nil htail, List.append_nil]

@[simp] theorem words_trim (text : Text) : words (trim text) = words text := by
  rw [trim, words_trimEnd, words_trimStart]

theorem trimEnd_trimEnd : ∀ text : Text, trimEnd (trimEnd text) = trimEnd text
  | [] => rfl
  | c :: cs => by
    have ih := trimEnd_trimEnd cs
    rw [trimEnd]
    split
    · split
      · rfl
      · rename_i hc
        rw [trimEnd, trimEnd]
        exact if_neg hc
    · rename_i hkept
      rw [trimEnd, ih]
      split
      · exact absurd ‹_› hkept
      · rfl

theorem trimStart_trim (text : Text) : trimStart (trim text) = trim text := by
  unfold trim
  cases hstart : trimStart text with
  | nil => rfl
  | cons c rest =>
    have hc : ¬isBlank c = true := by
      have hhead := List.head?_dropWhile_not isBlank text
      unfold trimStart at hstart
      rw [hstart] at hhead
      exact Bool.eq_false_iff.1 hhead
    rw [trimEnd]
    split
    · rw [if_neg hc]
      exact List.dropWhile_cons_of_neg hc
    · exact List.dropWhile_cons_of_neg hc

theorem trim_trim (text : Text) : trim (trim text) = trim text := by
  rw [trim, trimStart_trim]
  exact trimEnd_trimEnd _

theorem trimEnd_append_space : ∀ text : Text, trimEnd (text ++ [' ']) = trimEnd text
  | [] => rfl
  | c :: text => by rw [List.cons_append, trimEnd, trimEnd, trimEnd_append_space text]

theorem trim_append_space (text : Text) : trim (text ++ [' ']) = trim text := by
  rw [trim, trim, trimStart, trimStart, List.dropWhile_append]
  split
  · rename_i hnone
    rw [List.isEmpty_iff.1 hnone]
    rfl
  · exact trimEnd_append_space _

theorem words_joinWith : ∀ texts : List Text, words (joinWith [' '] texts) = texts.flatMap words
  | [] => rfl
  | [text] => by simp [joinWith]
  | text :: other :: texts => by
    show words (text ++ [' '] ++ joinWith [' '] (other :: texts)) = _
    rw [List.append_assoc, List.singleton_append, words_append_blank isBlank_space,
      words_joinWith (other :: texts)]
    simp

end ClassWeave.Text
