import ClassWeave.Literal.Quoted
/-!
# Literals that are read back

A value that is written as a string literal is what is read behind its opening quote, up to its closing one.
-/

namespace ClassWeave

namespace CodePoint

theorem not_surrogate (c : Char) : isHigh c.toNat = false ∧ isLow c.toNat = false := by
  have hvalid : c.toNat < 0xD800 ∨ 0xDFFF < c.toNat ∧ c.toNat < 0x110000 := c.valid
  rw [isHigh, isLow, Bool.and_eq_false_iff, Bool.and_eq_false_iff]
  simp only [decide_eq_false_iff_not]
  by_cases h : c.toNat < 0xD800
  · exact ⟨.inl (Nat.not_le.2 h), .inl (Nat.not_le.2 (Nat.lt_trans h (by decide)))⟩
  · exact ⟨.inr (Nat.not_lt.2 (by omega)), .inr (Nat.not_lt.2 (by omega))⟩

theorem toChar_toNat (c : Char) : toChar c.toNat = c := by
  obtain ⟨hhigh, hlow⟩ := not_surrogate c
  rw [toChar, hhigh, hlow]
  exact Char.ofNat_toNat c

theorem decode_toNat : ∀ text : Text, decode (text.map Char.toNat) = text
  | [] => rfl
  | [c] => by rw [List.map_cons, List.map_nil, decode, toChar_toNat]
  | c :: d :: text => by
    have ih := decode_toNat (d :: text)
    rw [List.map_cons] at ih
    rw [List.map_cons, List.map_cons, decode, (not_surrogate c).1,
      Bool.false_and, if_neg (by simp), toChar_toNat, ih]

end CodePoint

namespace Quoted

theorem readUnits_escaped {quote : Char} (hquote : quote ≠ '\\')
    {fuel : Nat} {behind rest : Text} (units : List CodePoint)
    (hread : Escape.read false behind = .ok (units, rest)) {more : List CodePoint}
    {final : Text} (hrest : readUnits quote fuel rest = .ok (more, final)) :
    readUnits quote (fuel + 1) ('\\' :: behind) = .ok (units ++ more, final) := by
  rw [readUnits, if_neg hquote.symm, if_pos rfl, hread]
  simp only [hrest]
  rfl

theorem read_unicode (last : Char) (rest : Text) (h : last ∈ ['8', '9']) :
    Escape.read false ('u' :: '2' :: '0' :: '2' :: last :: rest) =
      .ok ([0x2020 + Escape.digitValue last], rest) := by
  have hdigits : ∀ c ∈ ['0', '2', '8', '9'], Escape.isDigitOf 16 c = true := List.all_eq_true.1 (by decide)
  have hlast : Escape.isDigitOf 16 last = true ∧
      Escape.valueOf 16 ['2', '0', '2', last] = 0x2020 + Escape.digitValue last := by
    simp only [List.mem_cons, List.not_mem_nil, or_false] at h
    rcases h with rfl | rfl
    · decide
    · decide
  have hhalf : Escape.readHalf ('2' :: '0' :: '2' :: last :: rest) =
    .ok (0x2020 + Escape.digitValue last, rest) := by
    simp [Escape.readHalf, Escape.readHex, Escape.takeHex, hdigits, hlast]
  have hhigh : CodePoint.isHigh (0x2020 + Escape.digitValue last) = false := by
    simp only [List.mem_cons, List.not_mem_nil, or_false] at h
    rcases h with rfl | rfl
    · rfl
    · rfl
  have hunicode : Escape.readUnicode ('2' :: '0' :: '2' :: last :: rest) =
    .ok (0x2020 + Escape.digitValue last, rest) := by
    simp only [Escape.readUnicode, hhalf, bind, Except.bind]
    split
    · simp [hhigh]
      rfl
    · rfl
  simp only [Escape.read, hunicode]

theorem readUnits_encodeChar (c : Char) {fuel : Nat} {rest final : Text} {more : List CodePoint}
    (hrest : readUnits mark fuel rest = .ok (more, final)) :
    readUnits mark (fuel + 1) (encodeChar c ++ rest) = .ok (c.toNat :: more, final) := by
  have hmark : mark ≠ '\\' := by decide
  unfold encodeChar
  split
  · rename_i h
    subst h
    exact readUnits_escaped hmark [mark.toNat] rfl hrest
  split
  · rename_i h
    subst h
    exact readUnits_escaped hmark ['\\'.toNat] rfl hrest
  split
  · rename_i h
    subst h
    exact readUnits_escaped hmark ['\n'.toNat] rfl hrest
  split
  · rename_i h
    subst h
    exact readUnits_escaped hmark ['\r'.toNat] rfl hrest
  split
  · rename_i h
    exact readUnits_escaped hmark [c.toNat] (by rw [h]; exact read_unicode _ rest (by decide)) hrest
  split
  · rename_i h
    exact readUnits_escaped hmark [c.toNat] (by rw [h]; exact read_unicode _ rest (by decide)) hrest
  · rename_i hmarkNe hslash hfeed hreturn _ _
    rw [List.singleton_append, readUnits, if_neg hmarkNe, if_neg hslash, if_neg (by simp [hfeed, hreturn])]
    simp only [hrest]
    rfl

theorem readUnits_encode : ∀ (value rest : Text) (fuel : Nat), value.length < fuel →
    readUnits mark fuel (value.flatMap encodeChar ++ mark :: rest) = .ok (value.map Char.toNat, rest)
  | [], rest, fuel + 1, _ => by
    rw [List.flatMap_nil, List.nil_append, readUnits, if_pos rfl]
    rfl
  | c :: value, rest, fuel + 1, hfuel => by
    rw [List.flatMap_cons, List.append_assoc]
    exact readUnits_encodeChar c (readUnits_encode value rest fuel (by simpa using hfuel))

theorem encodeChar_ne_nil (c : Char) : encodeChar c ≠ [] := by
  unfold encodeChar
  repeat' split
  all_goals simp

theorem length_le_encode : ∀ value : Text, value.length ≤ (value.flatMap encodeChar).length
  | [] => Nat.le_refl _
  | c :: value => by
    have hc := List.length_pos_iff.2 (encodeChar_ne_nil c)
    have ih := length_le_encode value
    rw [List.flatMap_cons, List.length_append, List.length_cons]
    omega

/-- What is encoded is read back. -/
theorem readBody_encode (value rest : Text) :
    readBody mark (value.flatMap encodeChar ++ [mark] ++ rest) = .ok (value, rest) := by
  have hlength := length_le_encode value
  have htext : value.flatMap encodeChar ++ [mark] ++ rest =
    value.flatMap encodeChar ++ mark :: rest := by simp
  have hunits := readUnits_encode value rest ((value.flatMap encodeChar ++ mark :: rest).length + 1) (by
    rw [List.length_append]
    omega)
  rw [htext, readBody, hunits]
  exact congrArg (fun text => Except.ok (text, rest)) (CodePoint.decode_toNat value)

end Quoted
end ClassWeave
