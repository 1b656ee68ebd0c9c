import ClassWeave.Proofs.Glyphs
import ClassWeave.Proofs.Quoting
/-!
# Where template texts meet

Template text that is read in front of a backquote is read in the same way in front of other text,
unless its last glyph and the text behind it are read as one (`fuses`): `$` and `{`, a carriage
return and a line feed, `\0` and a digit, or two halves of a pair with braces around one of them.
Where a pair is not cut in two either (`pairs`), texts that are put together stand for what they
stand for alone.
-/

namespace ClassWeave

theorem CodePoint.decode_append : ∀ (a b : List CodePoint),
    (a.getLast?.any isHigh && b.head?.any isLow) = false → decode (a ++ b) = decode a ++ decode b
  | [], b, _ => rfl
  | [n], [], _ => rfl
  | [high], low :: b, h => by
    have h' : (isHigh high && isLow low) = false := h
    rw [List.singleton_append, decode, if_neg (by simp [h'])]
    rfl
  | high :: low :: a, b, h => by
    rw [List.cons_append, List.cons_append, decode, decode]
    by_cases hpair : (isHigh high && isLow low) = true
    · rw [if_pos hpair, if_pos hpair]
      have ih := decode_append a b (by
        cases a with
        | nil => rfl
        | cons m a => exact h)
      rw [ih]
      rfl
    · rw [if_neg hpair, if_neg hpair]
      have ih := decode_append (low :: a) b h
      rw [List.cons_append] at ih
      rw [ih]
      rfl

namespace TemplateText

open Escape

/-! ## Escaped text -/

theorem head?_escape {text : Text} (h : (escape text ++ [mark]).head? = some '\x7b') :
    text.head? = some '\x7b' := by
  cases text with
  | nil => cases h
  | cons c rest =>
    rw [escape] at h
    split at h
    · cases h
    split at h
    · cases h
    split at h
    · cases h
    split at h
    · cases h
    · exact h

theorem exists_of_escape :
    ∀ text : Text, ∃ list, sourceOf list = escape text ∧ pointsOf list = text.map Char.toNat ∧
    ReadInFront list [mark]
  | [] => ⟨[], rfl, rfl, trivial⟩
  | c :: rest => by
    obtain ⟨list, hsource, hpoints, hread⟩ := exists_of_escape rest
    have escaped : ∀ d : Char, (∀ next, glyph? ('\\' :: d :: next) = some ([c.toNat], next)) →
        escape (c :: rest) = '\\' :: d :: escape rest →
        ∃ list, sourceOf list = escape (c :: rest) ∧ pointsOf list = (c :: rest).map Char.toNat ∧
        ReadInFront list [mark] := by
      intro d hglyph hescape
      refine ⟨⟨['\\', d], [c.toNat]⟩ :: list, ?_, ?_, ⟨by simp, ?_⟩, hread⟩
      · rw [sourceOf_cons, hsource, hescape]
        rfl
      · rw [pointsOf_cons, hpoints]
        rfl
      · exact hglyph _
    by_cases hmark : c = mark
    · exact escaped mark (fun next => by rw [hmark]; rfl) (by rw [escape, if_pos hmark])
    by_cases hslash : c = '\\'
    · exact escaped '\\' (fun next => by rw [hslash]; rfl) (by rw [escape, if_neg hmark, if_pos hslash])
    by_cases hreturn : c = '\r'
    · exact escaped 'r' (fun next => by rw [hreturn]; rfl)
        (by rw [escape, if_neg hmark, if_neg hslash, if_pos hreturn])
    by_cases hdollar : (c = '$' && rest.head? == some '\x7b') = true
    · refine escaped '$' (fun next => ?_)
        (by rw [escape, if_neg hmark, if_neg hslash, if_neg hreturn, if_pos hdollar])
      rw [Bool.and_eq_true, decide_eq_true_eq] at hdollar
      rw [hdollar.1]
      rfl
    · have hescape : escape (c :: rest) = c :: escape rest := by
        rw [escape, if_neg hmark, if_neg hslash, if_neg hreturn, if_neg hdollar]
      refine ⟨⟨[c], [c.toNat]⟩ :: list, ?_, ?_, ⟨by simp, ?_⟩, hread⟩
      · rw [sourceOf_cons, hsource, hescape]
        rfl
      · rw [pointsOf_cons, hpoints]
        rfl
      · have hstop : ¬ (c = mark || (c = '$' && (sourceOf list ++ [mark]).head? == some '\x7b')) = true := by
          rw [hsource]
          simp only [hmark, decide_false, Bool.false_or, Bool.and_eq_true, decide_eq_true_eq, beq_iff_eq]
          rintro ⟨rfl, hhead⟩
          exact hdollar (by simpa using head?_escape hhead)
        rw [List.singleton_append, glyph?, if_neg hstop, if_neg hslash, if_neg hreturn]

theorem static_escape (text : Text) : Static (escape text) text := by
  obtain ⟨list, hsource, hpoints, hread⟩ := exists_of_escape text
  have h := static_sourceOf hread
  rwa [hsource, hpoints, CodePoint.decode_toNat] at h

/-! ## Seams -/

/-- Whether a glyph and the text behind it are read as one. -/
def Glyph.fuses (glyph : Glyph) (next : Text) : Bool :=
  match glyph.source with
  | ['$'] => next.head? == some '\x7b'
  | ['\r'] => next.head? == some '\n'
  | ['\\', '\r'] => next.head? == some '\n'
  | ['\\', '0'] => next.head?.any (isDigitOf 8)
  | '\\' :: 'u' :: half =>
    match readHalf half with
    | .ok (n, _) => CodePoint.isHigh n && next.take 2 == ['\\', 'u'] &&
      (half.head? == some '\x7b') != ((next.drop 2).head? == some '\x7b')
    | .error _ => false
  | _ => false

def fuses (raw next : Text) : Bool := (glyphsOf raw).getLast?.any (·.fuses next)

/-- Whether a static text ends with the first half of a pair and the text behind it begins with the
second one. -/
def pairs (raw next : Text) : Bool :=
  (pointsOf (glyphsOf raw)).getLast?.any CodePoint.isHigh &&
    (pointsOf (glyphsOf next)).head?.any CodePoint.isLow

theorem precedes_of_not_fuses {glyph : Glyph} {next : Text} (h : glyph.fuses next = false)
    (hnext : ∀ rest, next = '\\' :: rest → (glyph? next).isSome = true) : Precedes glyph.source next := by
  unfold Glyph.fuses at h
  constructor
  · intro hsource
    rw [hsource] at h
    simpa using h
  · rintro (hsource | hsource)
    · rw [hsource] at h
      simpa using h
    · rw [hsource] at h
      simpa using h
  · intro hsource
    rw [hsource] at h
    exact h
  · intro half n hsource hn hhigh second hsecond
    obtain ⟨found, hfound⟩ := Option.isSome_iff_exists.1 (hnext _ hsecond)
    rw [hsecond] at hfound
    refine ⟨?_, readHalf_of_glyph? hfound⟩
    rw [hsource, hsecond] at h
    simp only [hn, hhigh] at h
    simpa using h

/-- Static text in front of more of it that it neither fuses nor pairs with. -/
theorem Static.append {raw value next : Text} {list : List Glyph}
    (h : Static raw value) (hread : ReadInFront list next) (hnext : Stops next)
    (hfuses : fuses raw (sourceOf list ++ next) = false)
    (hpairs : pairs raw (sourceOf list ++ next) = false) :
    ReadInFront (glyphsOf raw ++ list) next ∧
      CodePoint.decode (pointsOf (glyphsOf raw ++ list)) = value ++ CodePoint.decode (pointsOf list) := by
  obtain ⟨hsource, hvalue, hraw⟩ := h.read
  rw [pairs, glyphsOf, glyphsOf, glyphsOf_eq hread hnext, ← glyphsOf] at hpairs
  refine ⟨(readInFront_append _ _ _).2 ⟨hraw.replace ?_, hread⟩, ?_⟩
  · intro glyph hglyph
    rw [fuses] at hfuses
    rw [Option.mem_def.1 hglyph] at hfuses
    refine precedes_of_not_fuses hfuses fun rest hrest => ?_
    cases list with
    | nil =>
      rw [sourceOf_nil, List.nil_append] at hrest
      subst hrest
      cases hnext
    | cons first list =>
      rw [sourceOf_cons, List.append_assoc, hread.1.2]
      rfl
  · rw [pointsOf_append, CodePoint.decode_append _ _ hpairs, hvalue]

def Apart (next : Text) : Prop := ∀ raw, fuses raw next = false ∧ pairs raw next = false

theorem apart_of_head {next : Text}
    (hhead : ∀ c ∈ next.head?, c ≠ '\x7b' ∧ c ≠ '\n' ∧ c ≠ '\\' ∧ Escape.isDigitOf 8 c = false)
    (hlow : (pointsOf (glyphsOf next)).head?.any CodePoint.isLow = false) : Apart next := by
  intro raw
  constructor
  · rw [fuses, Option.any_eq_false]
    intro glyph _
    cases next with
    | nil =>
      unfold Glyph.fuses
      split
      all_goals try rfl
      split
      · simp
      · rfl
    | cons c next =>
      obtain ⟨hbrace, hfeed, hslash, hdigit⟩ := hhead c rfl
      unfold Glyph.fuses
      split
      all_goals simp [hbrace, hfeed, hdigit]
      split
      · simp [hslash]
      · rfl
  · rw [pairs, hlow, Bool.and_false]

theorem apart_nil : Apart [] := apart_of_head nofun rfl

theorem apart_space (next : Text) : Apart (' ' :: next) := by
  refine apart_of_head (fun c hc => ?_) rfl
  obtain rfl : ' ' = c := Option.some.inj hc
  decide

theorem apart_expression (next : Text) : Apart ('$' :: '\x7b' :: next) := by
  refine apart_of_head (fun c hc => ?_) rfl
  obtain rfl : '$' = c := Option.some.inj hc
  decide

theorem not_fuses_space {raw : Text} (h : raw = [] ∨ raw = [' ']) (next : Text) :
    fuses raw next = false ∧ pairs raw next = false := by
  rcases h with rfl | rfl
  · exact ⟨rfl, rfl⟩
  · exact ⟨rfl, rfl⟩

end TemplateText
end ClassWeave
