import ClassWeave.Literal.Escape
import Mathlib.Data.List.TakeWhile
/-!
# What an escape looks at

Escapes with digits are read in the same way whatever stands behind the digits. Only three escapes
look at the text behind them: an escaped carriage return, a null and the first half of a pair.
-/

namespace ClassWeave
namespace Escape

theorem takeHex_local : ∀ {count : Nat} {text digits behind : Text}, takeHex count text = (digits, behind) →
    digits.length = count → ∃ front, text = front ++ behind ∧
    ∀ other, takeHex count (front ++ other) = (digits, other)
  | 0, text, digits, behind, h, _ => by
    rw [takeHex] at h
    cases h
    exact ⟨[], rfl, fun other => by rw [List.nil_append, takeHex]⟩
  | n + 1, [], digits, behind, h, hlength => by
    rw [takeHex] at h
    · cases h
      cases hlength
    · simp
  | n + 1, c :: rest, digits, behind, h, hlength => by
    rw [takeHex] at h
    by_cases hdigit : isDigitOf 16 c = true
    · rw [if_pos hdigit] at h
      cases h
      have htake : takeHex n rest = ((takeHex n rest).1, (takeHex n rest).2) := rfl
      obtain ⟨front, hrest, hlocal⟩ := takeHex_local htake (Nat.succ.inj hlength)
      refine ⟨c :: front, congrArg (c :: ·) hrest, fun other => ?_⟩
      rw [List.cons_append, takeHex, if_pos hdigit, hlocal]
    · rw [if_neg hdigit] at h
      by_cases hline : (c == '_') = true
      · rw [if_pos hline] at h
        obtain ⟨front, rfl, hlocal⟩ := takeHex_local h hlength
        refine ⟨c :: front, rfl, fun other => ?_⟩
        rw [List.cons_append, takeHex, if_neg hdigit, if_pos hline, hlocal]
      · rw [if_neg hline] at h
        cases h
        cases hlength

theorem readHex_local {count n : Nat} {text behind : Text} (h : readHex count text = some (n, behind)) :
    ∃ front, text = front ++ behind ∧ ∀ other, readHex count (front ++ other) = some (n, other) := by
  rcases htake : takeHex count text with ⟨digits, rest⟩
  rw [readHex, htake] at h
  dsimp only at h
  by_cases hlength : digits.length = count
  · rw [if_pos hlength] at h
    cases h
    obtain ⟨front, htext, hlocal⟩ := takeHex_local htake hlength
    refine ⟨front, htext, fun other => ?_⟩
    rw [readHex, hlocal]
    exact if_pos hlength
  · rw [if_neg hlength] at h
    cases h

theorem readBraced_local {n : Nat} {text behind : Text} (h : readBraced text = .ok (n, behind)) :
    ∃ front, text = front ++ behind ∧ ∀ other, readBraced (front ++ other) = .ok (n, other) := by
  obtain ⟨inside, hinside⟩ : ∃ inside : Char → Bool, inside = fun c => isDigitOf 16 c || c == '_' := ⟨_, rfl⟩
  unfold readBraced at h
  rw [← hinside] at h
  dsimp only at h
  split at h
  · cases h
  rename_i hdigits
  split at h
  · cases h
  rename_i hbound
  split at h
  · rename_i rest hbehind
    cases h
    have htext : text = text.takeWhile inside ++ '\x7d' :: behind := by
      rw [← hbehind, List.takeWhile_append_dropWhile]
    have hall : ∀ c ∈ text.takeWhile inside, inside c = true := fun c hc => List.mem_takeWhile_imp hc
    have hclose : inside '\x7d' = false := by rw [hinside]; decide
    refine ⟨text.takeWhile inside ++ ['\x7d'], by simpa using htext, fun other => ?_⟩
    have htake : (text.takeWhile inside ++ '\x7d' :: other).takeWhile inside = text.takeWhile inside := by
      rw [List.takeWhile_append_of_pos hall, List.takeWhile_cons, hclose]
      simp
    have hdrop : (text.takeWhile inside ++ '\x7d' :: other).dropWhile inside = '\x7d' :: other := by
      rw [List.dropWhile_append_of_pos hall, List.dropWhile_cons, hclose]
      simp
    unfold readBraced
    rw [← hinside, List.append_assoc, List.singleton_append]
    dsimp only
    rw [htake, hdrop, if_neg hdigits, if_neg hbound]
    rfl
  · cases h

theorem readHalf_braced (rest : Text) : readHalf ('\x7b' :: rest) = readBraced rest := by rw [readHalf]

theorem readHalf_plain {text : Text} (h : text.head? ≠ some '\x7b') : readHalf text =
    match readHex 4 text with
    | some found => .ok found
    | none => .error ⟨.fourHexDigits, (takeHex 4 text).2⟩ := by
  cases text with
  | nil => rfl
  | cons c rest =>
    have hc : c ≠ '\x7b' := fun e => h (congrArg some e)
    unfold readHalf
    split
    · rename_i heq
      exact absurd (List.cons.inj heq).1 hc
    · rfl

theorem readHalf_local {n : Nat} {text behind : Text} (h : readHalf text = .ok (n, behind)) :
    ∃ front, text = front ++ behind ∧ ∀ other, readHalf (front ++ other) = .ok (n, other) := by
  by_cases hbrace : text.head? = some '\x7b'
  · obtain ⟨rest, rfl⟩ := List.head?_eq_some_iff.1 hbrace
    rw [readHalf_braced] at h
    obtain ⟨front, rfl, hlocal⟩ := readBraced_local h
    refine ⟨'\x7b' :: front, rfl, fun other => ?_⟩
    rw [List.cons_append, readHalf_braced, hlocal]
  · rw [readHalf_plain hbrace] at h
    split at h
    · rename_i found hfound
      cases h
      obtain ⟨front, rfl, hlocal⟩ := readHex_local hfound
      refine ⟨front, rfl, fun other => ?_⟩
      cases front with
      | nil =>
        -- Four digits cannot be read from nothing.
        cases hlocal []
      | cons c front =>
        rw [readHalf_plain (by simpa using hbrace), hlocal]
    · cases h

def Paired (half : Text) (n : CodePoint) (behind : Text) : Prop :=
  CodePoint.isHigh n = true → ∀ second, behind = '\\' :: 'u' :: second →
    (half.head? == some '\x7b') = (second.head? == some '\x7b') ∧ ∃ found, readHalf second = .ok found

theorem paired_append {half more behind : Text} {n : CodePoint} (h : half ≠ []) :
    Paired (half ++ more) n behind ↔ Paired half n behind := by
  obtain ⟨c, half, rfl⟩ := List.exists_cons_of_ne_nil h
  exact Iff.rfl

theorem readUnicode_eq_ok_iff {text behind : Text} {n : CodePoint} :
    readUnicode text = .ok (n, behind) ↔ readHalf text = .ok (n, behind) ∧ Paired text n behind := by
  unfold readUnicode Paired
  cases hhalf : readHalf text with
  | error fault => simp [bind, Except.bind]
  | ok found =>
    obtain ⟨m, rest⟩ := found
    simp only [bind, Except.bind, pure, Except.pure, Except.ok.injEq, Prod.mk.injEq]
    split
    · rename_i second
      by_cases hhigh : CodePoint.isHigh m = true
      · by_cases hspelling : (text.head? == some '\x7b') = (second.head? == some '\x7b')
        · cases hsecond : readHalf second with
          | error fault =>
            simp only [hhigh, hspelling, bne_self_eq_false, Bool.false_eq_true,
              if_true, if_false, reduceCtorEq, false_iff]
            rintro ⟨⟨rfl, rfl⟩, hpaired⟩
            obtain ⟨-, found, hfound⟩ := hpaired hhigh second rfl
            rw [hsecond] at hfound
            cases hfound
          | ok found =>
            simp only [hhigh, hspelling, bne_self_eq_false, Bool.false_eq_true,
              if_true, if_false, Except.ok.injEq, Prod.mk.injEq]
            constructor
            · rintro ⟨rfl, rfl⟩
              refine ⟨⟨rfl, rfl⟩, fun _ other hother => ?_⟩
              cases hother
              exact ⟨rfl, found, hsecond⟩
            · exact And.left
        · have hbne : ((text.head? == some '\x7b') != (second.head? == some '\x7b')) = true := by
            simpa using hspelling
          simp only [hhigh, hbne, if_true, reduceCtorEq, false_iff]
          rintro ⟨⟨rfl, rfl⟩, hpaired⟩
          exact hspelling (hpaired hhigh second rfl).1
      · rw [if_neg hhigh]
        simp only [Except.ok.injEq, Prod.mk.injEq]
        constructor
        · rintro ⟨rfl, rfl⟩
          exact ⟨⟨rfl, rfl⟩, fun h => absurd h hhigh⟩
        · exact And.left
    · rename_i hsecond
      simp only [Except.ok.injEq, Prod.mk.injEq]
      constructor
      · rintro ⟨rfl, rfl⟩
        exact ⟨⟨rfl, rfl⟩, fun _ second heq => (hsecond second heq).elim⟩
      · exact And.left

theorem read_plain {c : Char} (hreturn : c ≠ '\r') (hx : c ≠ 'x')
    (hu : c ≠ 'u') (hdigit : isDigitOf 8 c = false) :
    ∃ points, ∀ rest, read true (c :: rest) = .ok (points, rest) := by
  by_cases hletter : c ∈ ['n', 'r', 't', 'b', 'v', 'f']
  · simp only [List.mem_cons, List.not_mem_nil, or_false] at hletter
    rcases hletter with rfl | rfl | rfl | rfl | rfl | rfl
    all_goals exact ⟨_, fun _ => rfl⟩
  · simp only [List.mem_cons, List.not_mem_nil, or_false, not_or] at hletter
    obtain ⟨hn, hr, ht, hb, hv, hf⟩ := hletter
    refine ⟨if isLineEnd c then [] else [c.toNat], fun rest => ?_⟩
    rw [read]
    · simp only [hdigit, Bool.false_eq_true, if_false]
      split
      · rfl
      · rfl
    all_goals assumption

theorem read_digit {c : Char} (hdigit : isDigitOf 8 c = true) (rest : Text) : read true (c :: rest) =
    if c == '0' && !(rest.head?.any (isDigitOf 8)) then .ok ([0], rest) else .error ⟨.octal, rest⟩ := by
  have notDigit : ∀ d : Char, isDigitOf 8 d = false → c ≠ d := by
    rintro d hd rfl
    rw [hd] at hdigit
    cases hdigit
  have hend : isLineEnd c = false := by
    have h1 : c.toNat ≠ 0x2028 :=
      fun h => notDigit (Char.ofNat 0x2028) (by decide) (by rw [← h, Char.ofNat_toNat])
    have h2 : c.toNat ≠ 0x2029 :=
      fun h => notDigit (Char.ofNat 0x2029) (by decide) (by rw [← h, Char.ofNat_toNat])
    simp [isLineEnd, notDigit '\n' (by decide), notDigit '\r' (by decide), h1, h2]
  rw [read]
  · simp only [hend, hdigit, Bool.false_eq_true, if_true, if_false]
  all_goals exact notDigit _ (by decide)

theorem read_return {rest : Text} (h : rest.head? ≠ some '\n') :
    read true ('\r' :: rest) = .ok ([], rest) := by
  cases rest with
  | nil => rfl
  | cons c rest =>
    have hc : c ≠ '\n' := fun e => h (congrArg some e)
    simp only [read]
    split
    · rename_i heq
      exact absurd (List.cons.inj heq).1 hc
    · rfl

end Escape
end ClassWeave
