import ClassWeave.Literal.TemplateText
import ClassWeave.Proofs.EscapeReading
/-!
# The glyphs of template text

Template text is a sequence of glyphs: single characters, escapes and line ends. A glyph is read in
the same way in front of every text that may follow it (`Precedes`), and static text is what its
glyphs stand for.
-/

namespace ClassWeave
namespace TemplateText

open Escape

/-! ## Glyphs -/

/-- A character of template text, or an escape or a line end of several characters, and what it stands for. -/
structure Glyph where
  source : Text
  points : List CodePoint
deriving DecidableEq, Repr

def glyph? : Text → Option (List CodePoint × Text)
  | [] => none
  | c :: rest =>
    if c = mark || (c = '$' && rest.head? == some '\x7b') then none
    else if c = '\\' then
      if rest.isEmpty then none
      else match Escape.read true rest with
        | .ok found => some found
        | .error _ => none
    else if c = '\r' then some ([0x0A], if rest.head? == some '\n' then rest.tail else rest)
    else some ([c.toNat], rest)

/-- What has to be true of the text behind a glyph for it to be read as that glyph. -/
structure Precedes (source next : Text) : Prop where
  dollar : source = ['$'] → next.head? ≠ some '\x7b'
  feed : source = ['\r'] ∨ source = ['\\', '\r'] → next.head? ≠ some '\n'
  digit : source = ['\\', '0'] → next.head?.any (isDigitOf 8) = false
  half : ∀ half n, source = '\\' :: 'u' :: half → readHalf half = .ok (n, []) → Paired half n next

def ReadAlike (text : Text) (points : List CodePoint) (behind : Text) : Prop :=
  ∃ front, text = front ++ behind ∧ front ≠ [] ∧ Precedes ('\\' :: front) behind ∧
    ∀ other, Precedes ('\\' :: front) other → read true (front ++ other) = .ok (points, other)

section
variable {rest behind : Text} {points : List CodePoint}

theorem readAlike_return (h : read true ('\r' :: rest) = .ok (points, behind)) :
    ReadAlike ('\r' :: rest) points behind := by
  by_cases hfeed : rest.head? = some '\n'
  · obtain ⟨rest', rfl⟩ := List.head?_eq_some_iff.1 hfeed
    cases h
    exact ⟨['\r', '\n'], rfl, by simp, by constructor <;> simp, fun _ _ => rfl⟩
  · rw [read_return hfeed] at h
    cases h
    have hprecedes : Precedes ['\\', '\r'] rest := ⟨by simp, fun _ => hfeed, by simp, by simp⟩
    exact ⟨['\r'], rfl, by simp, hprecedes, fun other hother => read_return (hother.feed (.inr rfl))⟩

theorem readAlike_hex (h : read true ('x' :: rest) = .ok (points, behind)) :
    ReadAlike ('x' :: rest) points behind := by
  simp only [Escape.read] at h
  split at h
  · rename_i n rest' hhex
    cases h
    obtain ⟨front, rfl, hlocal⟩ := readHex_local hhex
    refine ⟨'x' :: front, rfl, by simp, by constructor <;> simp, fun other _ => ?_⟩
    simp only [List.cons_append, Escape.read, hlocal]
  · cases h

theorem readAlike_unicode (h : read true ('u' :: rest) = .ok (points, behind)) :
    ReadAlike ('u' :: rest) points behind := by
  simp only [Escape.read] at h
  split at h
  · rename_i n rest' hunicode
    cases h
    obtain ⟨hhalf, hpaired⟩ := readUnicode_eq_ok_iff.1 hunicode
    obtain ⟨front, rfl, hlocal⟩ := readHalf_local hhalf
    have hfront : front ≠ [] := by
      rintro rfl
      cases hlocal []
    have halone : readHalf front = .ok (n, []) := by simpa using hlocal []
    have hprecedes : Precedes ('\\' :: 'u' :: front) behind := by
      refine ⟨by simp, by simp, by simp, fun half m hsource hm => ?_⟩
      cases hsource
      rw [halone] at hm
      cases hm
      exact (paired_append hfront).1 hpaired
    refine ⟨'u' :: front, rfl, by simp, hprecedes, fun other hother => ?_⟩
    have hnext := hother.half front n rfl halone
    have hread : readUnicode (front ++ other) = .ok (n, other) :=
      readUnicode_eq_ok_iff.2 ⟨hlocal other, (paired_append hfront).2 hnext⟩
    simp only [List.cons_append, Escape.read, hread]
  · cases h

theorem readAlike_digit {c : Char} (hdigit : isDigitOf 8 c = true)
    (h : read true (c :: rest) = .ok (points, behind)) :
    ReadAlike (c :: rest) points behind := by
  rw [read_digit hdigit] at h
  split at h
  · rename_i hzero
    cases h
    simp only [Bool.and_eq_true, beq_iff_eq, Bool.not_eq_true'] at hzero
    obtain ⟨rfl, hnext⟩ := hzero
    refine ⟨['0'], rfl, by simp, ⟨by simp, by simp, fun _ => hnext, by simp⟩, fun other hother => ?_⟩
    rw [List.singleton_append, read_digit hdigit, hother.digit rfl]
    rfl
  · cases h

theorem readAlike_plain {c : Char} (hreturn : c ≠ '\r') (hx : c ≠ 'x')
    (hu : c ≠ 'u') (hdigit : isDigitOf 8 c = false) (h : read true (c :: rest) = .ok (points, behind)) :
    ReadAlike (c :: rest) points behind := by
  obtain ⟨points', hplain⟩ := read_plain hreturn hx hu hdigit
  rw [hplain] at h
  cases h
  have hprecedes : Precedes ['\\', c] rest := by
    refine ⟨by simp, by simp [hreturn], fun heq => ?_, fun half n heq => ?_⟩
    · cases heq
      cases hdigit
    · cases heq
      exact absurd rfl hu
  exact ⟨[c], rfl, by simp, hprecedes, fun other _ => hplain other⟩

theorem readAlike_of_read {text : Text} (hne : text ≠ []) (h : read true text = .ok (points, behind)) :
    ReadAlike text points behind := by
  obtain ⟨c, rest, rfl⟩ := List.exists_cons_of_ne_nil hne
  by_cases hreturn : c = '\r'
  · subst hreturn
    exact readAlike_return h
  by_cases hx : c = 'x'
  · subst hx
    exact readAlike_hex h
  by_cases hu : c = 'u'
  · subst hu
    exact readAlike_unicode h
  by_cases hdigit : isDigitOf 8 c = true
  · exact readAlike_digit hdigit h
  · exact readAlike_plain hreturn hx hu (by simpa using hdigit) h

end

/-- A glyph is read in the same way in front of every text that may follow it. -/
theorem glyph?_local {text behind : Text} {points : List CodePoint}
    (h : glyph? text = some (points, behind)) :
    ∃ source, text = source ++ behind ∧ source ≠ [] ∧ Precedes source behind ∧
      ∀ other, Precedes source other → glyph? (source ++ other) = some (points, other) := by
  cases text with
  | nil => cases h
  | cons c rest =>
    rw [glyph?] at h
    split at h
    · cases h
    rename_i hstop
    simp only [Bool.or_eq_true, decide_eq_true_eq, Bool.and_eq_true, beq_iff_eq, not_or, not_and] at hstop
    obtain ⟨hmark, hdollar⟩ := hstop
    split at h
    · rename_i hslash
      subst hslash
      split at h
      · cases h
      rename_i hrest
      split at h
      · rename_i found hread
        cases h
        obtain ⟨front, rfl, hfront, hprecedes, hlocal⟩ := readAlike_of_read (by simpa using hrest) hread
        refine ⟨'\\' :: front, rfl, by simp, hprecedes, fun other hother => ?_⟩
        have hempty : (front ++ other).isEmpty = false := by simpa using fun h => absurd h hfront
        rw [List.cons_append, glyph?, if_neg (by simp; decide), if_pos rfl, hempty, hlocal other hother]
        rfl
      · cases h
    rename_i hslash
    split at h
    · rename_i hreturn
      subst hreturn
      by_cases hfeed : rest.head? = some '\n'
      · obtain ⟨rest', rfl⟩ := List.head?_eq_some_iff.1 hfeed
        cases h
        exact ⟨['\r', '\n'], rfl, by simp, by constructor <;> simp, fun _ _ => rfl⟩
      · rw [if_neg (by simpa using hfeed)] at h
        cases h
        refine ⟨['\r'], rfl, by simp, ⟨by simp, fun _ => hfeed, by simp, by simp⟩, fun other hother => ?_⟩
        rw [List.singleton_append, glyph?, if_neg (by simp; decide), if_neg (by decide), if_pos rfl,
          if_neg (by simpa using hother.feed (.inl rfl))]
    rename_i hreturn
    cases h
    have hprecedes : Precedes [c] behind := by
      refine ⟨fun heq => ?_, by simp [hreturn], by simp, by simp⟩
      cases heq
      exact hdollar rfl
    refine ⟨[c], rfl, by simp, hprecedes, fun other hother => ?_⟩
    have hopens : c = '$' → other.head? ≠ some '\x7b' := fun hc => hother.dollar (by rw [hc])
    rw [List.singleton_append, glyph?, if_neg (by simpa [hmark] using hopens), if_neg hslash, if_neg hreturn]

theorem glyph?_alone {source next : Text} {points : List CodePoint}
    (h : glyph? (source ++ next) = some (points, next)) :
    glyph? source = some (points, []) := by
  obtain ⟨source', heq, -, -, hlocal⟩ := glyph?_local h
  obtain rfl := List.append_cancel_right heq
  have hnil : Precedes source [] := ⟨by simp, by simp, by simp, fun _ _ _ _ _ _ heq => by cases heq⟩
  simpa using hlocal [] hnil

theorem readHalf_of_glyph? {rest behind : Text} {points : List CodePoint}
    (h : glyph? ('\\' :: 'u' :: rest) = some (points, behind)) : ∃ found, readHalf rest = .ok found := by
  rw [glyph?, if_neg (by simp; decide), if_pos rfl, if_neg (by simp)] at h
  split at h
  · rename_i found hread
    simp only [Escape.read] at hread
    split at hread
    · rename_i n rest' hunicode
      exact ⟨_, (readUnicode_eq_ok_iff.1 hunicode).1⟩
    · cases hread
  · cases h

theorem Precedes.replace {source first a b : Text} {points points' : List CodePoint}
    (h : Precedes source (first ++ a)) (ha : glyph? (first ++ a) = some (points, a))
    (hb : glyph? (first ++ b) = some (points', b)) (hne : first ≠ []) :
    Precedes source (first ++ b) := by
  have halone := glyph?_alone ha
  obtain ⟨c, front, rfl⟩ := List.exists_cons_of_ne_nil hne
  refine ⟨h.dollar, h.feed, h.digit, fun half n hsource hn hhigh second hsecond => ?_⟩
  obtain ⟨rfl, hfront⟩ := List.cons.inj hsecond
  refine ⟨?_, readHalf_of_glyph? (hsecond ▸ hb)⟩
  -- No glyph ends in front of the digits of an escape, so that both texts begin with the same one.
  match front, hfront, halone with
  | [], _, halone => cases halone
  | [d], hfront, halone =>
    obtain ⟨rfl, -⟩ := List.cons.inj hfront
    cases halone
  | d :: e :: front, hfront, _ =>
    obtain ⟨rfl, rfl⟩ := List.cons.inj hfront
    exact (h.half half n hsource hn hhigh (e :: front ++ a) rfl).1

/-! ## Static text -/

def sourceOf (glyphs : List Glyph) : Text := glyphs.flatMap Glyph.source

def pointsOf (glyphs : List Glyph) : List CodePoint := glyphs.flatMap Glyph.points

@[simp] theorem sourceOf_nil : sourceOf [] = [] := rfl

@[simp] theorem pointsOf_nil : pointsOf [] = [] := rfl

@[simp] theorem sourceOf_cons (glyph : Glyph) (glyphs : List Glyph) :
    sourceOf (glyph :: glyphs) = glyph.source ++ sourceOf glyphs := List.flatMap_cons

@[simp] theorem pointsOf_cons (glyph : Glyph) (glyphs : List Glyph) :
    pointsOf (glyph :: glyphs) = glyph.points ++ pointsOf glyphs := List.flatMap_cons

@[simp] theorem sourceOf_append (a b : List Glyph) : sourceOf (a ++ b) = sourceOf a ++ sourceOf b :=
  List.flatMap_append

@[simp] theorem pointsOf_append (a b : List Glyph) : pointsOf (a ++ b) = pointsOf a ++ pointsOf b :=
  List.flatMap_append

/-- Glyphs that are read one after the other in front of a text. -/
def ReadInFront : List Glyph → Text → Prop
  | [], _ => True
  | glyph :: glyphs, next =>
    (glyph.source ≠ [] ∧ glyph? (glyph.source ++ (sourceOf glyphs ++ next)) =
      some (glyph.points, sourceOf glyphs ++ next)) ∧
      ReadInFront glyphs next

theorem readInFront_append (next : Text) (b : List Glyph) : ∀ a : List Glyph,
    ReadInFront (a ++ b) next ↔ ReadInFront a (sourceOf b ++ next) ∧ ReadInFront b next
  | [] => by simp [ReadInFront]
  | glyph :: a => by
    simp only [List.cons_append, ReadInFront, readInFront_append next b a,
      sourceOf_append, List.append_assoc, and_assoc]

theorem ReadInFront.replace {a b : Text} : ∀ {glyphs : List Glyph}, ReadInFront glyphs a →
    (∀ glyph ∈ glyphs.getLast?, Precedes glyph.source b) → ReadInFront glyphs b
  | [], _, _ => trivial
  | [glyph], ⟨⟨hne, hglyph⟩, _⟩, hlast => by
    obtain ⟨source, heq, -, -, hlocal⟩ := glyph?_local hglyph
    obtain rfl := List.append_cancel_right heq
    exact ⟨⟨hne, hlocal _ (hlast glyph rfl)⟩, trivial⟩
  | glyph :: second :: glyphs, ⟨⟨hne, hglyph⟩, hrest⟩, hlast => by
    -- The text behind the first glyph changes too, but not the glyph that it begins with.
    have hrest' : ReadInFront (second :: glyphs) b := hrest.replace fun last hmem => hlast last (by
      rwa [List.getLast?_cons_cons])
    obtain ⟨source, heq, -, hprecedes, hlocal⟩ := glyph?_local hglyph
    obtain rfl := List.append_cancel_right heq
    refine ⟨⟨hne, hlocal _ ?_⟩, hrest'⟩
    rw [sourceOf_cons, List.append_assoc] at hprecedes ⊢
    exact hprecedes.replace hrest.1.2 hrest'.1.2 hrest.1.1

theorem length_le_sourceOf {next : Text} : ∀ {glyphs : List Glyph}, ReadInFront glyphs next →
    glyphs.length ≤ (sourceOf glyphs).length
  | [], _ => Nat.le_refl _
  | glyph :: glyphs, ⟨⟨hne, _⟩, hrest⟩ => by
    have ih := length_le_sourceOf hrest
    have hpos := List.length_pos_iff.2 hne
    rw [sourceOf_cons, List.length_append, List.length_cons]
    omega

theorem readUnits_of_glyph? {source behind : Text} {points : List CodePoint} (fuel : Nat)
    (h : glyph? (source ++ behind) = some (points, behind)) : readUnits (fuel + 1) (source ++ behind) =
      ((readUnits fuel behind).1.after source points none, (readUnits fuel behind).2) := by
  obtain ⟨source', heq, hne, -, -⟩ := glyph?_local h
  obtain rfl := List.append_cancel_right heq
  obtain ⟨c, front, rfl⟩ := List.exists_cons_of_ne_nil hne
  have hself : ∀ {rest : Text}, rest ++ behind = behind → rest = [] := fun h => List.append_left_eq_self.1 h
  rw [List.cons_append, glyph?] at h
  rw [List.cons_append, readUnits.eq_def]
  dsimp only
  split at h
  · cases h
  rename_i hstop
  rw [if_neg hstop]
  split at h
  · rename_i hslash
    split at h
    · cases h
    split at h
    · rename_i found hread
      cases h
      rw [if_pos hslash, hread]
      dsimp only
      rw [List.length_append, Nat.add_sub_cancel, List.take_left]
    · cases h
  rename_i hslash
  rw [if_neg hslash]
  split at h
  · rename_i hreturn
    subst hreturn
    rw [if_pos rfl]
    by_cases hfeed : (front ++ behind).head? = some '\n'
    · obtain ⟨rest, hrest⟩ := List.head?_eq_some_iff.1 hfeed
      rw [hrest] at h ⊢
      obtain rfl : rest = behind := (Prod.mk.inj (Option.some.inj h)).2
      obtain rfl : points = [0x0A] := (Prod.mk.inj (Option.some.inj h)).1.symm
      obtain rfl : front = ['\n'] := List.append_cancel_right hrest
      rfl
    · rw [if_neg (by simpa using hfeed)] at h
      obtain ⟨rfl, hbehind⟩ := Prod.mk.inj (Option.some.inj h)
      obtain rfl := hself hbehind
      rw [List.nil_append] at hfeed ⊢
      split
      · exact absurd rfl hfeed
      · rfl
  · rename_i hreturn
    rw [if_neg hreturn]
    obtain ⟨rfl, hbehind⟩ := Prod.mk.inj (Option.some.inj h)
    obtain rfl := hself hbehind
    rfl

theorem readUnits_of_readInFront {next : Text}
    (hstop : ∀ fuel, readUnits fuel next = (⟨[], [], none⟩, next)) :
    ∀ {glyphs : List Glyph} {fuel : Nat}, ReadInFront glyphs next → glyphs.length ≤ fuel →
      readUnits fuel (sourceOf glyphs ++ next) = (⟨sourceOf glyphs, pointsOf glyphs, none⟩, next)
  | [], fuel, _, _ => hstop fuel
  | glyph :: glyphs, fuel + 1, ⟨⟨_, hglyph⟩, hrest⟩, hfuel => by
    have ih := readUnits_of_readInFront hstop hrest (Nat.le_of_succ_le_succ hfuel)
    rw [sourceOf_cons, pointsOf_cons, List.append_assoc, readUnits_of_glyph? fuel hglyph, ih]
    rfl

theorem readUnits_of_glyph?_none {text : Text} (fuel : Nat) (h : glyph? text = none) :
    readUnits (fuel + 1) text = (⟨[], [], none⟩, text) ∨ (readUnits (fuel + 1) text).1.fault.isSome = true ∨
      (readUnits (fuel + 1) text).2 = [] := by
  cases text with
  | nil => exact .inl rfl
  | cons c rest =>
    rw [glyph?] at h
    rw [readUnits.eq_def]
    dsimp only
    split at h
    · rename_i hstop
      rw [if_pos hstop]
      exact .inl rfl
    rename_i hstop
    rw [if_neg hstop]
    split at h
    · rename_i hslash
      rw [if_pos hslash]
      split at h
      · rename_i hrest
        rw [List.isEmpty_iff] at hrest
        subst hrest
        refine .inr (.inr ?_)
        cases fuel with
        | zero => rfl
        | succ fuel => rfl
      · split at h
        · cases h
        · rename_i failure hread
          rw [hread]
          refine .inr (.inl ?_)
          cases (readUnits fuel (rest.drop 1)).1.fault <;> simp [Units.after]
    · split at h
      · cases h
      · cases h

theorem exists_of_readUnits {next : Text} (hnext : next ≠ []) :
    ∀ {fuel : Nat} {text raw : Text} {points : List CodePoint},
    readUnits fuel text = (⟨raw, points, none⟩, next) →
    ∃ glyphs, sourceOf glyphs = raw ∧ pointsOf glyphs = points ∧ text = raw ++ next ∧ ReadInFront glyphs next
  | 0, text, raw, points, h => by
    rw [readUnits] at h
    cases h
    exact ⟨[], rfl, rfl, rfl, trivial⟩
  | fuel + 1, text, raw, points, h => by
    cases hglyph : glyph? text with
    | none =>
      rcases readUnits_of_glyph?_none fuel hglyph with hstop | hfault | hend
      · rw [hstop] at h
        cases h
        exact ⟨[], rfl, rfl, rfl, trivial⟩
      · rw [h] at hfault
        cases hfault
      · rw [h] at hend
        exact absurd hend hnext
    | some found =>
      obtain ⟨points', behind⟩ := found
      obtain ⟨source, rfl, hne, -, -⟩ := glyph?_local hglyph
      rw [readUnits_of_glyph? fuel hglyph] at h
      rcases hmore : readUnits fuel behind with ⟨⟨raw', points'', fault⟩, next'⟩
      rw [hmore] at h
      cases fault with
      | some fault => cases h
      | none =>
        cases h
        obtain ⟨glyphs, rfl, rfl, rfl, hread⟩ := exists_of_readUnits hnext hmore
        exact ⟨⟨source, points'⟩ :: glyphs, sourceOf_cons _ _, pointsOf_cons _ _, by
          simp, ⟨hne, hglyph⟩, hread⟩

def glyphs : Nat → Text → List Glyph
  | 0, _ => []
  | fuel + 1, text =>
    match glyph? text with
    | none => []
    | some (points, behind) => ⟨text.take (text.length - behind.length), points⟩ :: glyphs fuel behind

def glyphsOf (text : Text) : List Glyph := glyphs text.length text

theorem glyphs_of_readInFront {next : Text} (hnext : glyph? next = none) : ∀ {list : List Glyph} {fuel : Nat},
    ReadInFront list next → list.length ≤ fuel → glyphs fuel (sourceOf list ++ next) = list
  | [], 0, _, _ => rfl
  | [], fuel + 1, _, _ => by rw [sourceOf_nil, List.nil_append, glyphs, hnext]
  | glyph :: list, fuel + 1, ⟨⟨_, hglyph⟩, hrest⟩, hfuel => by
    have ih := glyphs_of_readInFront hnext hrest (Nat.le_of_succ_le_succ hfuel)
    rw [sourceOf_cons, List.append_assoc, glyphs, hglyph]
    dsimp only
    rw [ih, List.length_append, Nat.add_sub_cancel, List.take_left]

/-- Where a chunk can end: at the end of the text, at a backquote, and in front of an embedded expression. -/
inductive Stops : Text → Prop where
  | missing : Stops []
  | closed (rest : Text) : Stops (mark :: rest)
  | expression (rest : Text) : Stops ('$' :: '\x7b' :: rest)

namespace Stops

variable {next : Text}

theorem glyph?_eq (h : Stops next) : glyph? next = none := by
  cases h with
  | missing => rfl
  | closed rest => rfl
  | expression rest => rfl

theorem readUnits_eq (h : Stops next) : ∀ fuel, readUnits fuel next = (⟨[], [], none⟩, next)
  | 0 => rfl
  | fuel + 1 => by
    rw [readUnits.eq_def]
    cases h with
    | missing => rfl
    | closed rest => rfl
    | expression rest => rfl

theorem precedes (h : Stops next) (source : Text) : Precedes source next := by
  cases h with
  | missing => exact ⟨by simp, by simp, by simp, fun _ _ _ _ _ _ heq => by cases heq⟩
  | closed rest =>
      exact ⟨fun _ => by simp; decide, fun _ => by
        simp; decide, fun _ => rfl, fun _ _ _ _ _ _ heq => by cases heq⟩
  | expression rest =>
      exact ⟨fun _ => by simp, fun _ => by simp, fun _ => rfl, fun _ _ _ _ _ _ heq => by cases heq⟩

end Stops

theorem ReadInFront.stop {list : List Glyph} {a b : Text} (h : ReadInFront list a) (hb : Stops b) :
    ReadInFront list b :=
  h.replace fun glyph _ => hb.precedes glyph.source

theorem glyphsOf_eq {list : List Glyph} {a b : Text} (h : ReadInFront list a) (hb : Stops b) :
    glyphs (sourceOf list ++ b).length (sourceOf list ++ b) = list := by
  have hlength := length_le_sourceOf h
  refine glyphs_of_readInFront hb.glyph?_eq (h.stop hb) ?_
  rw [List.length_append]
  omega

/-- Text that is a chunk of its own in front of a closing backquote, and what it stands for. -/
def Static (raw value : Text) : Prop := readChunk (raw ++ [mark]) = ⟨⟨raw, some value⟩, none, .closed, []⟩

def chunkOf (list : List Glyph) : Chunk := ⟨sourceOf list, some (CodePoint.decode (pointsOf list))⟩

theorem readUnits_of_glyphs {list : List Glyph} {next : Text}
    (h : ReadInFront list next) (hstop : Stops next) :
    readUnits ((sourceOf list ++ next).length + 1) (sourceOf list ++ next) =
      (⟨sourceOf list, pointsOf list, none⟩, next) := by
  have hlength := length_le_sourceOf h
  refine readUnits_of_readInFront hstop.readUnits_eq h ?_
  rw [List.length_append]
  omega

theorem readChunk_closed {list : List Glyph} {next : Text} (h : ReadInFront list next) (rest : Text) :
    readChunk (sourceOf list ++ mark :: rest) = ⟨chunkOf list, none, .closed, rest⟩ := by
  have hstop := Stops.closed rest
  rw [readChunk, readUnits_of_glyphs (h.stop hstop) hstop]
  rfl

theorem readChunk_expression {list : List Glyph} {next : Text} (h : ReadInFront list next) (rest : Text) :
    readChunk (sourceOf list ++ '$' :: '\x7b' :: rest) = ⟨chunkOf list, none, .expression, rest⟩ := by
  have hstop := Stops.expression rest
  rw [readChunk, readUnits_of_glyphs (h.stop hstop) hstop]
  rfl

theorem Static.read {raw value : Text} (h : Static raw value) : sourceOf (glyphsOf raw) = raw ∧
    CodePoint.decode (pointsOf (glyphsOf raw)) = value ∧ ReadInFront (glyphsOf raw) [mark] := by
  rcases hunits : readUnits ((raw ++ [mark]).length + 1) (raw ++ [mark]) with ⟨⟨raw', points, fault⟩, behind⟩
  rw [Static, readChunk, hunits] at h
  dsimp only at h
  have hstop := congrArg Reading.stop h
  have hfault := congrArg Reading.fault h
  cases behind with
  | nil => cases hstop
  | cons c rest =>
    dsimp only at h hstop hfault
    by_cases hc : c = mark
    · rw [if_pos hc] at h hfault
      cases hfault
      cases h
      subst hc
      obtain ⟨list, rfl, rfl, -, hread⟩ := exists_of_readUnits (by simp) hunits
      have hlist := glyphsOf_eq hread .missing
      rw [List.append_nil] at hlist
      rw [glyphsOf, hlist]
      exact ⟨rfl, rfl, hread⟩
    · rw [if_neg hc] at hstop
      cases hstop

theorem static_sourceOf {list : List Glyph} {next : Text} (h : ReadInFront list next) :
    Static (sourceOf list) (CodePoint.decode (pointsOf list)) := readChunk_closed h []

end TemplateText
end ClassWeave
