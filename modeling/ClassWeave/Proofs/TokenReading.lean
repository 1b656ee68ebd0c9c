import ClassWeave.Proofs.GapReading
import ClassWeave.Proofs.Glyphs
/-!
# Tokens in front of other text

A word is read in the same way in front of every text that no name goes on with, and a string
literal or a star in front of every text with the same first character: an escape looks further only
at an escape that the same token goes on with.
-/

namespace ClassWeave

namespace Escape

/-! ## Escapes -/

theorem read_of_not_digit {c : Char} (hdigit : isDigitOf 8 c = false) (rest : Text) :
    read false (c :: rest) = read true (c :: rest) := by
  unfold read
  simp only [hdigit, Bool.false_eq_true, if_false]

theorem readOctal_local {c : Char} {text behind : Text} {n : CodePoint} (h : readOctal c text = (n, behind)) :
    ∃ front, text = front ++ behind ∧ ∀ other, other.head? = behind.head? →
    readOctal c (front ++ other) = (n, other) := by
  have same : ∀ {d : Char} {rest other : Text}, other.head? = (d :: rest).head? → ∃ more, other = d :: more :=
    fun hhead => List.head?_eq_some_iff.1 hhead
  cases text with
  | nil =>
    cases h
    exact ⟨[], rfl, fun other hother => by rw [List.head?_eq_none_iff.1 hother]; rfl⟩
  | cons second rest =>
    rw [readOctal] at h
    by_cases hsecond : isDigitOf 8 second = true
    · rw [if_pos hsecond] at h
      cases rest with
      | nil =>
        cases h
        refine ⟨[second], rfl, fun other hother => ?_⟩
        rw [List.head?_eq_none_iff.1 hother]
        exact if_pos hsecond
      | cons third rest =>
        dsimp only at h
        split at h
        · rename_i hthird
          cases h
          refine ⟨[second, third], rfl, fun other _ => ?_⟩
          exact (if_pos hsecond).trans (if_pos hthird)
        · rename_i hthird
          cases h
          refine ⟨[second], rfl, fun other hother => ?_⟩
          obtain ⟨more, rfl⟩ := same hother
          exact (if_pos hsecond).trans (if_neg hthird)
    · rw [if_neg hsecond] at h
      cases h
      refine ⟨[], rfl, fun other hother => ?_⟩
      obtain ⟨more, rfl⟩ := same hother
      exact if_neg hsecond

theorem read_octal {c : Char} (hdigit : isDigitOf 8 c = true) (rest : Text) : read false (c :: rest) =
    if c == '0' && !(rest.head?.any (isDigitOf 8)) then .ok ([0], rest)
    else .ok ([(readOctal c rest).1], (readOctal c rest).2) := by
  have notDigit : ∀ d : Char, isDigitOf 8 d = false → c ≠ d := by
    rintro d hd rfl
    rw [hd] at hdigit
    cases hdigit
  have hend : isLineEnd c = false := by
    have h1 : c.toNat ≠ 0x2028 :=
      fun h => notDigit (Char.ofNat 0x2028) (by decide) (by rw [← h, Char.ofNat_toNat])
    have h2 : c.toNat ≠ 0x2029 :=
      fun h => notDigit (Char.ofNat 0x2029) (by decide) (by rw [← h, Char.ofNat_toNat])
    simp [isLineEnd, notDigit '\n' (by decide), notDigit '\r' (by decide), h1, h2]
  rw [read]
  · simp only [hend, hdigit, Bool.false_eq_true, if_true, if_false]
  all_goals exact notDigit _ (by decide)

theorem head?_append_eq (front : Text) {a b : Text} (h : a.head? = b.head?) :
    (front ++ a).head? = (front ++ b).head? := by
  cases front with
  | nil => exact h
  | cons c front => rfl

theorem read_local {text behind : Text} {points : List CodePoint} (hne : text ≠ [])
    (h : read false text = .ok (points, behind)) :
    ∃ front, text = front ++ behind ∧ front ≠ [] ∧ (∀ half, front = 'u' :: half → half ≠ []) ∧
      (∀ half n, front = 'u' :: half → readHalf half = .ok (n, []) → Paired half n behind) ∧
      ∀ other, other.head? = behind.head? → (∀ half n, front = 'u' :: half → readHalf half = .ok (n, []) →
        Paired half n other) →
        read false (front ++ other) = .ok (points, other) := by
  obtain ⟨c, rest, rfl⟩ := List.exists_cons_of_ne_nil hne
  by_cases hdigit : isDigitOf 8 c = true
  · have hu : ∀ {front : Text} {half : Text}, c :: front = 'u' :: half → False := by
      rintro front half heq
      obtain ⟨rfl, -⟩ := List.cons.inj heq
      cases hdigit
    rw [read_octal hdigit] at h
    split at h
    · rename_i hzero
      cases h
      refine ⟨[c], rfl, by
        simp, fun half heq => (hu heq).elim, fun half n heq => (hu heq).elim, fun other hother _ => ?_⟩
      rw [List.singleton_append, read_octal hdigit, hother, if_pos hzero]
    · rename_i hzero
      cases h
      rcases hoctal : readOctal c rest with ⟨n, behind⟩
      obtain ⟨front, rfl, hlocal⟩ := readOctal_local hoctal
      refine ⟨c :: front, rfl, by simp, fun half heq => (hu heq).elim, fun half n heq => (hu heq).elim,
        fun other hother _ => ?_⟩
      rw [List.cons_append, read_octal hdigit, hlocal other hother,
        head?_append_eq front hother, if_neg hzero]
  · have hdigit' : isDigitOf 8 c = false := by simpa using hdigit
    rw [read_of_not_digit hdigit'] at h
    obtain ⟨front, htext, hfront, hprecedes, hlocal⟩ := TemplateText.readAlike_of_read hne h
    obtain ⟨d, front, rfl⟩ := List.exists_cons_of_ne_nil hfront
    obtain ⟨rfl, rfl⟩ := List.cons.inj htext
    refine ⟨c :: front, rfl, hfront, ?_, ?_, fun other hother hhalf => ?_⟩
    · rintro half heq rfl
      obtain ⟨rfl, rfl⟩ := List.cons.inj heq
      have hnil := hlocal [] ⟨by simp, by simp, by simp, fun _ _ _ _ _ _ heq => by cases heq⟩
      cases hnil
    · intro half n heq
      exact hprecedes.half half n (by rw [heq])
    · rw [List.cons_append, read_of_not_digit hdigit']
      refine hlocal other ⟨by simp, fun hsource => ?_, fun hsource => ?_, fun half n heq => ?_⟩
      · rw [hother]
        exact hprecedes.feed hsource
      · rw [hother]
        exact hprecedes.digit hsource
      · exact hhalf half n (List.cons.inj heq).2

def Opened (source : Text) : Prop :=
  source.head? = some '\\' → ∃ c more, source = '\\' :: c :: more ∧ (c = 'u' → more ≠ [])

theorem Paired.replace {half source a b : Text} {n : CodePoint}
    (h : Paired half n (source ++ a)) (opened : Opened source) (hnil : source = [] → b.head? ≠ some '\\')
    (hread : ∀ second, source ++ b = '\\' :: 'u' :: second → ∃ found, readHalf second = .ok found) :
      Paired half n (source ++ b) := by
  intro hhigh second hsecond
  have hhead : source.head? = some '\\' := by
    cases source with
    | nil =>
      rw [List.nil_append] at hsecond
      exact absurd (by rw [hsecond]; rfl) (hnil rfl)
    | cons c source => exact congrArg List.head? hsecond
  obtain ⟨c, more, rfl, hmore⟩ := opened hhead
  obtain ⟨-, hsecond'⟩ := List.cons.inj hsecond
  obtain ⟨rfl, rfl⟩ := List.cons.inj hsecond'
  obtain ⟨d, more, rfl⟩ := List.exists_cons_of_ne_nil (hmore rfl)
  exact ⟨(h hhigh (d :: more ++ a) rfl).1, hread _ rfl⟩

end Escape

namespace Quoted

open Escape

/-! ## String literals -/

theorem readHalf_of_readUnits {quote : Char} (hquote : quote ≠ '\\') {fuel : Nat} {second : Text}
    {found : List CodePoint × Text}
    (h : readUnits quote fuel ('\\' :: 'u' :: second) = .ok found) (hfuel : 0 < fuel) :
    ∃ half, readHalf second = .ok half := by
  obtain ⟨fuel, rfl⟩ := Nat.exists_eq_add_of_lt hfuel
  rw [Nat.zero_add, readUnits, if_neg hquote.symm, if_pos rfl] at h
  split at h
  · cases h
  · rename_i units rest hread
    simp only [Escape.read] at hread
    split at hread
    · rename_i n rest' hunicode
      exact ⟨_, (readUnicode_eq_ok_iff.1 hunicode).1⟩
    · cases hread

/-- Whether the inside of a string literal is read in the same way in front of every text that
begins as the one behind it. -/
structure IsInside (quote : Char) (body rest : Text) (units : List CodePoint) : Prop where
  opened : Opened body
  head?_ne : body = [] → rest.head? ≠ some '\\'
  readUnits_eq : ∀ (other : Text) (fuel : Nat), other.head? = rest.head? → (body ++ other).length < fuel →
    readUnits quote fuel (body ++ other) = .ok (units, other)

namespace IsInside

variable {quote c : Char} {body rest : Text} {units : List CodePoint}

theorem closing (hquote : quote ≠ '\\') (rest : Text) : IsInside quote [quote] rest [] where
  opened hhead := absurd (Option.some.inj hhead) hquote
  head?_ne := by simp
  readUnits_eq other fuel _ hfuel := by
    obtain ⟨fuel, rfl⟩ := Nat.exists_eq_add_of_lt (Nat.zero_lt_of_lt hfuel)
    rw [Nat.zero_add, List.singleton_append, readUnits, if_pos rfl]

theorem lineEnd (hc : c ≠ quote) (hslash : c ≠ '\\') (hline : (c = '\n' || c = '\r') = true) (text : Text) :
    IsInside quote [] (c :: text) [] where
  opened := by rintro ⟨⟩
  head?_ne _ := by simpa using hslash
  readUnits_eq other fuel hother hfuel := by
    obtain ⟨fuel, rfl⟩ := Nat.exists_eq_add_of_lt (Nat.zero_lt_of_lt hfuel)
    obtain ⟨tail, rfl⟩ := List.head?_eq_some_iff.1 hother
    rw [Nat.zero_add, List.nil_append, readUnits, if_neg hc, if_neg hslash, if_pos hline]

theorem char (h : IsInside quote body rest units) (hc : c ≠ quote) (hslash : c ≠ '\\')
    (hline : ¬ (c = '\n' || c = '\r') = true) : IsInside quote (c :: body) rest (c.toNat :: units) where
  opened hhead := absurd (Option.some.inj hhead) hslash
  head?_ne := by simp
  readUnits_eq other fuel hother hfuel := by
    obtain ⟨fuel, rfl⟩ := Nat.exists_eq_add_of_lt (Nat.zero_lt_of_lt hfuel)
    rw [Nat.zero_add] at hfuel ⊢
    rw [List.cons_append, readUnits, if_neg hc, if_neg hslash, if_neg hline,
      h.readUnits_eq other fuel hother (Nat.lt_of_succ_lt_succ hfuel)]
    rfl

theorem escape (h : IsInside quote body rest units) (hquote : quote ≠ '\\')
    {text : Text} {points : List CodePoint} (hne : text ≠ [])
    (hread : Escape.read false text = .ok (points, body ++ rest)) :
    ∃ body', '\\' :: text = body' ++ rest ∧ IsInside quote body' rest (points ++ units) := by
  obtain ⟨front, rfl, hfront, hhalf, hpaired, hescape⟩ := Escape.read_local hne hread
  obtain ⟨d, front, rfl⟩ := List.exists_cons_of_ne_nil hfront
  refine ⟨'\\' :: d :: (front ++ body), by simp, fun _ => ⟨d, front ++ body, rfl, ?_⟩, by
    simp, fun other fuel hother hfuel => ?_⟩
  · rintro rfl hempty
    exact hhalf front rfl (List.append_eq_nil_iff.1 hempty).1
  · obtain ⟨fuel, rfl⟩ := Nat.exists_eq_add_of_lt (Nat.zero_lt_of_lt hfuel)
    rw [Nat.zero_add] at hfuel ⊢
    have hfuel' : (body ++ other).length < fuel := by
      simp only [List.length_cons, List.length_append] at hfuel ⊢
      omega
    have hunits := h.readUnits_eq other fuel hother hfuel'
    have hread' : Escape.read false (d :: front ++ (body ++ other)) = .ok (points, body ++ other) := by
      refine hescape _ (head?_append_eq body hother) fun half n heq hn => ?_
      refine (hpaired half n heq hn).replace h.opened (fun hbody => hother ▸ h.head?_ne hbody)
        fun second hsecond => ?_
      exact readHalf_of_readUnits hquote (hsecond ▸ hunits) (Nat.zero_lt_of_lt hfuel')
    have htext : '\\' :: d :: (front ++ body) ++ other = '\\' :: (d :: front ++ (body ++ other)) := by simp
    rw [htext, readUnits, if_neg hquote.symm, if_pos rfl, hread']
    simp only [hunits]
    rfl

end IsInside

theorem readUnits_local {quote : Char} (hquote : quote ≠ '\\') :
    ∀ {fuel : Nat} {text rest : Text} {units : List CodePoint},
    readUnits quote fuel text = .ok (units, rest) → text.length < fuel → rest ≠ [] →
    ∃ body, text = body ++ rest ∧ IsInside quote body rest units
  | 0, _, _, _, _, hfuel, _ => absurd hfuel (Nat.not_lt_zero _)
  | fuel + 1, [], rest, units, h, _, hrest => by
    rw [readUnits] at h
    cases h
    exact absurd rfl hrest
  | fuel + 1, c :: text, rest, units, h, hfuel, hrest => by
    rw [readUnits] at h
    split at h
    · rename_i hc
      cases h
      exact ⟨[c], rfl, hc ▸ .closing hquote text⟩
    rename_i hc
    split at h
    · rename_i hslash
      subst hslash
      split at h
      · cases h
      · rename_i points behind hread
        cases hmore : readUnits quote fuel behind with
        | error fault =>
          rw [hmore] at h
          cases h
        | ok found =>
          rw [hmore] at h
          cases h
          by_cases hne : text = []
          · subst hne
            cases hread
            cases fuel
            all_goals
              cases hmore
              exact absurd rfl hrest
          obtain ⟨front, rfl, hfront, -⟩ := Escape.read_local hne hread
          have hbehind : behind.length < fuel := by
            simp only [List.length_cons, List.length_append] at hfuel
            omega
          obtain ⟨body, rfl, hinside⟩ := readUnits_local hquote hmore hbehind hrest
          exact hinside.escape hquote hne hread
    rename_i hslash
    split at h
    · rename_i hline
      cases h
      exact ⟨[], rfl, .lineEnd hc hslash hline text⟩
    · rename_i hline
      cases hmore : readUnits quote fuel text with
      | error fault =>
        rw [hmore] at h
        cases h
      | ok found =>
        rw [hmore] at h
        cases h
        obtain ⟨body, rfl, hinside⟩ := readUnits_local hquote hmore (Nat.lt_of_succ_lt_succ hfuel) hrest
        exact ⟨c :: body, rfl, hinside.char hc hslash hline⟩

end Quoted

namespace Lexeme

open Escape

/-! ## Words -/

theorem readEscapedName_escape (fuel : Nat) (digits : Text) :
    readEscapedName (fuel + 1) ('\\' :: 'u' :: digits) =
    match readUnicode digits with
    | .ok (n, behind) => do
      let (name, behind) ← readEscapedName fuel behind
      .ok (CodePoint.toChar n :: name, behind)
    | .error failure => .error ⟨.badEscape failure.fault, '\\' :: 'u' :: digits, failure.behind⟩ := by
  rw [readEscapedName]
  exact (if_pos rfl).trans rfl

theorem readEscapedName_plain {c : Char} (hslash : c ≠ '\\') (fuel : Nat) (rest : Text) :
    readEscapedName (fuel + 1) (c :: rest) =
    if IdentifierTable.isPart c then do
      let (name, behind) ← readEscapedName fuel rest
      .ok (c :: name, behind)
    else .ok ([], c :: rest) := by
  rw [readEscapedName.eq_def]
  simp only [if_neg hslash]

theorem exists_of_readEscapedName {fuel : Nat} {text name rest : Text}
    (h : readEscapedName (fuel + 1) ('\\' :: text) = .ok (name, rest)) :
    ∃ digits n behind more, text = 'u' :: digits ∧
      readUnicode digits = .ok (n, behind) ∧ readEscapedName fuel behind = .ok (more, rest) ∧
        name = CodePoint.toChar n :: more := by
  rw [readEscapedName.eq_def] at h
  simp only [if_pos] at h
  split at h
  · rename_i digits
    split at h
    · rename_i n behind hunicode
      cases hmore : readEscapedName fuel behind with
      | error fault =>
        rw [hmore] at h
        cases h
      | ok found =>
        rw [hmore] at h
        cases h
        exact ⟨digits, n, behind, _, rfl, hunicode, hmore, rfl⟩
    · cases h
  · cases h

theorem readEscapedName_of_endsName {rest : Text} (ends : EndsName rest) (fuel : Nat) :
    readEscapedName fuel rest = .ok ([], rest) := by
  cases fuel with
  | zero => rfl
  | succ fuel =>
    cases rest with
    | nil => rfl
    | cons c rest =>
      obtain ⟨hpart, hslash⟩ := ends c rfl
      rw [readEscapedName_plain hslash, if_neg (by simp [hpart])]

structure IsNamePart (source name : Text) : Prop where
  opened : Opened source
  readEscapedName_eq : ∀ (other : Text) (fuel : Nat), EndsName other → (source ++ other).length < fuel →
    readEscapedName fuel (source ++ other) = .ok (name, other)

namespace IsNamePart

variable {source name : Text}

theorem nil : IsNamePart [] [] := ⟨by rintro ⟨⟩, fun _ fuel ends _ => readEscapedName_of_endsName ends fuel⟩

theorem plain (h : IsNamePart source name) {c : Char} (hslash : c ≠ '\\')
    (hpart : IdentifierTable.isPart c = true) :
    IsNamePart (c :: source) (c :: name) where
  opened hhead := absurd (Option.some.inj hhead) hslash
  readEscapedName_eq other fuel ends hfuel := by
    obtain ⟨fuel, rfl⟩ := Nat.exists_eq_add_of_lt (Nat.zero_lt_of_lt hfuel)
    rw [Nat.zero_add] at hfuel ⊢
    rw [List.cons_append, readEscapedName_plain hslash, if_pos hpart,
      h.readEscapedName_eq other fuel ends (Nat.lt_of_succ_lt_succ hfuel)]
    rfl

theorem escape (h : IsNamePart source name) {front rest : Text} {n : CodePoint} (hfront : front ≠ [])
    (hhalf : ∀ other, readHalf (front ++ other) = .ok (n, other))
    (hpaired : Paired front n (source ++ rest)) :
    IsNamePart ('\\' :: 'u' :: (front ++ source)) (CodePoint.toChar n :: name) where
  opened _ := ⟨'u', _, rfl, fun _ => by simp [hfront]⟩
  readEscapedName_eq other fuel ends hfuel := by
    obtain ⟨fuel, rfl⟩ := Nat.exists_eq_add_of_lt (Nat.zero_lt_of_lt hfuel)
    rw [Nat.zero_add] at hfuel ⊢
    have hfuel' : (source ++ other).length < fuel := by
      simp only [List.length_cons, List.length_append] at hfuel ⊢
      omega
    have hmore := h.readEscapedName_eq other fuel ends hfuel'
    have hpaired' : Paired front n (source ++ other) := by
      refine hpaired.replace h.opened (fun _ hhead => (ends _ hhead).2 rfl) fun second hsecond => ?_
      obtain ⟨fuel', rfl⟩ := Nat.exists_eq_add_of_lt (Nat.zero_lt_of_lt hfuel')
      rw [Nat.zero_add, hsecond] at hmore
      obtain ⟨_, n', behind', -, hdigits, hunicode', -, -⟩ := exists_of_readEscapedName hmore
      obtain ⟨-, rfl⟩ := List.cons.inj hdigits
      exact ⟨_, (readUnicode_eq_ok_iff.1 hunicode').1⟩
    have hread : readUnicode (front ++ (source ++ other)) = .ok (n, source ++ other) :=
      readUnicode_eq_ok_iff.2 ⟨hhalf _, (paired_append hfront).2 hpaired'⟩
    have htext : '\\' :: 'u' :: (front ++ source) ++ other =
      '\\' :: 'u' :: (front ++ (source ++ other)) := by simp
    rw [htext, readEscapedName_escape, hread]
    simp only [hmore]
    rfl

end IsNamePart

theorem readEscapedName_local :
    ∀ {fuel : Nat} {text name rest : Text}, readEscapedName fuel text = .ok (name, rest) →
    text.length < fuel → EndsName rest ∧ ∃ source, text = source ++ rest ∧ IsNamePart source name
  | 0, _, _, _, _, hfuel => absurd hfuel (Nat.not_lt_zero _)
  | fuel + 1, [], name, rest, h, _ => by
    rw [readEscapedName] at h
    cases h
    exact ⟨nofun, [], rfl, .nil⟩
  | fuel + 1, c :: text, name, rest, h, hfuel => by
    by_cases hslash : c = '\\'
    · subst hslash
      obtain ⟨digits, n, behind, name, rfl, hunicode, hmore, rfl⟩ := exists_of_readEscapedName h
      obtain ⟨hhalf, hpaired⟩ := readUnicode_eq_ok_iff.1 hunicode
      obtain ⟨front, rfl, hlocal⟩ := readHalf_local hhalf
      have hfront : front ≠ [] := by
        rintro rfl
        cases hlocal []
      have hbehind : behind.length < fuel := by
        simp only [List.length_cons, List.length_append] at hfuel
        omega
      obtain ⟨ends, source, rfl, hpart⟩ := readEscapedName_local hmore hbehind
      exact ⟨ends, '\\' :: 'u' :: (front ++ source), by
        simp, hpart.escape hfront hlocal ((paired_append hfront).1 hpaired)⟩
    rw [readEscapedName_plain hslash] at h
    by_cases hpart : IdentifierTable.isPart c = true
    · rw [if_pos hpart] at h
      cases hmore : readEscapedName fuel text with
      | error fault =>
        rw [hmore] at h
        cases h
      | ok found =>
        rw [hmore] at h
        cases h
        obtain ⟨ends, source, rfl, hsource⟩ := readEscapedName_local hmore (Nat.lt_of_succ_lt_succ hfuel)
        exact ⟨ends, c :: source, rfl, hsource.plain hslash hpart⟩
    · rw [if_neg hpart] at h
      cases h
      have ends : EndsName (c :: text) := by
        intro d hd
        obtain rfl : c = d := Option.some.inj hd
        exact ⟨by simpa using hpart, hslash⟩
      exact ⟨ends, [], rfl, .nil⟩

/-- Whether a text is read as a token in front of another text, wherever it stands. -/
def ReadsAs (source : Text) (token : Token) (rest : Text) : Prop :=
  ∀ offset, read ⟨source ++ rest, offset⟩ = (token, ⟨rest, offset + source.byteLength⟩)

def OpensSolidly (source : Text) : Prop := ∃ c more, source = c :: more ∧ isSolid c = true

theorem readsAs_of_plain {name rest : Text} (hname : IsWord name) (ends : EndsName rest) :
    ReadsAs name (.word (String.ofList name) false) rest := by
  obtain ⟨c, more, rfl, hstart⟩ := hname.start
  intro offset
  rw [List.cons_append, read]
  simp only [hstart, Bool.true_or, if_true]
  exact readName_plain .word hname.part ends offset

theorem readName_token (make : String → Bool → Token) (at' : Cursor) :
    (∃ name escaped, (readName make at').1 = make name escaped) ∨
    ∃ fault, (readName make at').1 = .invalid fault := by
  unfold readName
  dsimp only
  split
  · split
    · exact .inl ⟨_, _, rfl⟩
    · exact .inr ⟨_, rfl⟩
  · exact .inl ⟨_, _, rfl⟩

theorem word_or_invalid_of_readName {at' stop : Cursor} {token : Token}
    (h : readName .word at' = (token, stop)) :
    token.isAnyWord = true ∨ ∃ fault, token = .invalid fault := by
  rcases readName_token .word at' with ⟨_, _, hword⟩ | ⟨fault, hfault⟩
  · rw [h] at hword
    obtain rfl : token = _ := hword
    exact .inl rfl
  · rw [h] at hfault
    exact .inr ⟨fault, hfault⟩

theorem readNumeral_token (at' : Cursor) : (∃ value, (readNumeral at').1 = .numeral value) ∨
    ∃ fault, (readNumeral at').1 = .invalid fault := by
  unfold readNumeral
  split
  · exact .inr ⟨_, rfl⟩
  · dsimp only
    split
    · exact .inr ⟨_, rfl⟩
    · exact .inl ⟨_, rfl⟩

theorem read_cases {c : Char} {text : Text} {offset : Nat} {token : Token} {stop : Cursor}
    (h : read ⟨c :: text, offset⟩ = (token, stop)) :
    ((IdentifierTable.isStart c || c == '\\') = true ∧ readName .word ⟨c :: text, offset⟩ = (token, stop)) ∨
    (IsQuote c ∧ ∃ value behind, Quoted.readBody c text = .ok (value, behind) ∧ token = .string value ∧
      stop = (⟨c :: text, offset⟩ : Cursor).goTo behind) ∨
    (∃ chars mark, markOf (c :: text) = some (chars, mark) ∧ token = .mark mark ∧
      stop = (⟨c :: text, offset⟩ : Cursor).skip chars.length) ∨
    (∃ value, token = .numeral value) ∨ (∃ name, token = .privateName name) ∨
    ∃ fault, token = .invalid fault := by
  rw [read] at h
  dsimp only at h
  split at h
  · rename_i hstart
    exact .inl ⟨hstart, h⟩
  split at h
  · rcases readNumeral_token ⟨c :: text, offset⟩ with ⟨value, hvalue⟩ | ⟨fault, hfault⟩
    · rw [h] at hvalue
      exact .inr (.inr (.inr (.inl ⟨value, hvalue⟩)))
    · rw [h] at hfault
      exact .inr (.inr (.inr (.inr (.inr ⟨fault, hfault⟩))))
  split at h
  · rename_i hquote
    split at h
    · rename_i value behind hbody
      cases h
      refine .inr (.inl ⟨?_, value, behind, hbody, rfl, rfl⟩)
      simpa [IsQuote] using hquote
    · cases h
      exact .inr (.inr (.inr (.inr (.inr ⟨_, rfl⟩))))
  split at h
  · rcases readName_token (fun name _ => .privateName name)
      ((⟨c :: text, offset⟩ : Cursor).skip 1) with ⟨name, _, hname⟩ | ⟨fault, hfault⟩
    · rw [h] at hname
      exact .inr (.inr (.inr (.inr (.inl ⟨name, hname⟩))))
    · rw [h] at hfault
      exact .inr (.inr (.inr (.inr (.inr ⟨fault, hfault⟩))))
  split at h
  · rename_i chars mark hmark
    cases h
    exact .inr (.inr (.inl ⟨chars, mark, hmark, rfl, rfl⟩))
  · cases h
    exact .inr (.inr (.inr (.inr (.inr ⟨_, rfl⟩))))

theorem dropWhile_not_part (text : Text) : ∀ c ∈ (text.dropWhile IdentifierTable.isPart).head?,
    IdentifierTable.isPart c = false := by
  intro c hc
  have hnot := List.head?_dropWhile_not IdentifierTable.isPart text
  rw [Option.mem_def.1 hc] at hnot
  exact hnot

theorem readName_of_escape (make : String → Bool → Token) {plain escape name other : Text}
    (hplain : ∀ c ∈ plain, IdentifierTable.isPart c = true)
    (hname : readEscapedName ((plain ++ '\\' :: escape ++ other).length + 1)
      (plain ++ '\\' :: escape ++ other) =
      .ok (name, other))
    (offset : Nat) : readName make ⟨plain ++ '\\' :: escape ++ other, offset⟩ =
      (make (String.ofList name) true, ⟨other, offset + (plain ++ '\\' :: escape).byteLength⟩) := by
  have hslash : IdentifierTable.isPart '\\' = false := by decide +kernel
  have htake : (plain ++ '\\' :: escape ++ other).takeWhile IdentifierTable.isPart = plain := by
    rw [List.append_assoc, List.takeWhile_append_of_pos hplain, List.cons_append, List.takeWhile_cons, hslash]
    simp
  have hskip : ((⟨plain ++ '\\' :: escape ++ other, offset⟩ : Cursor).skip plain.length).rest =
    '\\' :: (escape ++ other) := by
    rw [List.append_assoc, Cursor.skip_append]
    rfl
  rw [readName]
  dsimp only
  rw [htake]
  split
  · rw [hname]
    dsimp only
    rw [Cursor.goTo_append]
  · rename_i hnone
    exact absurd hskip (hnone (escape ++ other))

theorem read_of_start {c : Char} (hstart : (IdentifierTable.isStart c || c == '\\') = true)
    (text : Text) (offset : Nat) :
    read ⟨c :: text, offset⟩ = readName .word ⟨c :: text, offset⟩ := by
  rw [read]
  exact if_pos hstart

theorem isSolid_of_start {c : Char} (hstart : (IdentifierTable.isStart c || c == '\\') = true) :
    isSolid c = true := by
  rw [Bool.or_eq_true, beq_iff_eq] at hstart
  rcases hstart with hstart | rfl
  · exact isSolid_of_isStart hstart
  · rfl

theorem exists_escape_of_append {plain escape source behind : Text}
    (hplain : ∀ c ∈ plain, IdentifierTable.isPart c = true) (ends : EndsName behind)
    (h : plain ++ '\\' :: escape = source ++ behind) : ∃ more, source = plain ++ '\\' :: more := by
  rcases List.append_eq_append_iff.1 h with ⟨front, rfl, hfront⟩ | ⟨back, rfl, hback⟩
  · cases front with
    | nil => exact absurd rfl (ends '\\' (by rw [← List.nil_append behind, ← hfront]; rfl)).2
    | cons d front =>
      obtain ⟨rfl, -⟩ := List.cons.inj hfront
      exact ⟨front, rfl⟩
  · cases back with
    | nil => exact absurd rfl (ends '\\' (by rw [hback]; rfl)).2
    | cons d back =>
      have hd := hplain d (by simp)
      rw [(ends d (by rw [hback]; rfl)).1] at hd
      cases hd

theorem isWord_of_start {c : Char} {text plain rest : Text}
    (hstart : (IdentifierTable.isStart c || c == '\\') = true)
    (hplain : ∀ d ∈ plain, IdentifierTable.isPart d = true) (ends : EndsName rest)
    (h : plain ++ rest = c :: text) :
    (∃ more, plain = c :: more) ∧ IsWord plain := by
  rw [Bool.or_eq_true, beq_iff_eq] at hstart
  cases plain with
  | nil =>
    rw [List.nil_append] at h
    subst h
    obtain ⟨hpart, hslash⟩ := ends c rfl
    rcases hstart with hstart | heq
    · rw [isPart_of_isStart hstart] at hpart
      cases hpart
    · exact absurd heq hslash
  | cons d plain =>
    obtain ⟨rfl, -⟩ := List.cons.inj h
    refine ⟨⟨plain, rfl⟩, ⟨d, plain, rfl, ?_⟩, List.all_eq_true.2 hplain⟩
    rcases hstart with hstart | rfl
    · exact hstart
    · exact absurd (hplain '\\' (by simp)) (by decide +kernel)

theorem readName_cases {text rest : Text} {offset offset' : Nat} {name : String} {escaped : Bool}
    (h : readName .word ⟨text, offset⟩ = (.word name escaped, ⟨rest, offset'⟩)) :
    ∃ plain tail, text = plain ++ tail ∧
      (∀ c ∈ plain, IdentifierTable.isPart c = true) ∧
      ((∃ escape found behind, tail = '\\' :: escape ∧
        readEscapedName (text.length + 1) text = .ok (found, behind) ∧
        name = String.ofList found ∧ escaped = true ∧
        (⟨text, offset⟩ : Cursor).goTo behind = ⟨rest, offset'⟩) ∨
      (tail = rest ∧ EndsName rest ∧ name = String.ofList plain ∧
        escaped = false ∧ offset' = offset + plain.byteLength)) := by
  have htext := List.takeWhile_append_dropWhile (p := IdentifierTable.isPart) (l := text)
  have hplain : ∀ d ∈ text.takeWhile IdentifierTable.isPart, IdentifierTable.isPart d = true :=
    fun d hd => List.mem_takeWhile_imp hd
  have hskip :=
    Cursor.skip_append (text.takeWhile IdentifierTable.isPart) (text.dropWhile IdentifierTable.isPart) offset
  have hpart := dropWhile_not_part text
  rw [htext] at hskip
  rw [readName] at h
  dsimp only at h
  rw [hskip] at h
  dsimp only at h
  generalize text.takeWhile IdentifierTable.isPart = plain at *
  generalize text.dropWhile IdentifierTable.isPart = tail at *
  refine ⟨plain, tail, htext.symm, hplain, ?_⟩
  split at h
  · rename_i escape
    split at h
    · rename_i found behind hread
      obtain ⟨hword, hcursor⟩ := Prod.mk.inj h
      cases hword
      exact .inl ⟨escape, found, behind, rfl, hread, rfl, rfl, hcursor⟩
    · cases h
  · rename_i hslash
    cases h
    exact .inr
      ⟨rfl, fun d hd => ⟨hpart d hd, fun heq => hslash _ (List.head?_eq_some_iff.1 (heq ▸ hd)).choose_spec⟩,
      rfl, rfl, rfl⟩

theorem exists_word {text rest : Text} {offset offset' : Nat} {name : String} {escaped : Bool}
    (h : read ⟨text, offset⟩ = (.word name escaped, ⟨rest, offset'⟩)) : EndsName rest ∧
    ∃ source, text = source ++ rest ∧ offset' = offset + source.byteLength ∧ OpensSolidly source ∧
      (escaped = false → source = name.toList) ∧ ∀ other, EndsName other →
      ReadsAs source (.word name escaped) other := by
  cases text with
  | nil =>
    rw [read] at h
    cases h
  | cons c text =>
    rcases read_cases h with
        ⟨hstart, hname⟩ | ⟨-, _, _, -, heq, -⟩ | ⟨_, _, -, heq, -⟩ | ⟨_, heq⟩ | ⟨_, heq⟩ | ⟨_, heq⟩
    · have hsolid := isSolid_of_start hstart
      obtain ⟨plain, tail, htext, hplain,
        ⟨escape, found, _, rfl, hread, rfl, rfl, hcursor⟩ | ⟨rfl, ends, rfl, rfl, rfl⟩⟩ :=
        readName_cases hname
      · obtain ⟨ends, source, hsource, hpart⟩ := readEscapedName_local hread (Nat.lt_succ_self _)
        obtain ⟨more, rfl⟩ := exists_escape_of_append hplain ends (htext.symm.trans hsource)
        rw [hsource, Cursor.goTo_append] at hcursor
        cases hcursor
        have hopens : ∃ front, plain ++ '\\' :: more = c :: front := by
          cases plain with
          | nil => exact ⟨more, by rw [← (List.cons.inj hsource).1]; rfl⟩
          | cons d plain => exact ⟨plain ++ '\\' :: more, by rw [← (List.cons.inj hsource).1]; rfl⟩
        refine ⟨ends, _, hsource, rfl, ⟨c, hopens.choose, hopens.choose_spec, hsolid⟩, by
          rintro ⟨⟩, fun other ends' at' => ?_⟩
        rw [← readName_of_escape .word hplain
          (hpart.readEscapedName_eq other _ ends' (Nat.lt_succ_self _)) at']
        rw [hopens.choose_spec, List.cons_append, read_of_start hstart]
      · obtain ⟨hopens, hname'⟩ := isWord_of_start hstart hplain ends htext.symm
        exact ⟨ends, plain, htext, rfl, ⟨c, hopens.choose, hopens.choose_spec, hsolid⟩,
          fun _ => String.toList_ofList.symm, fun other ends' => readsAs_of_plain hname' ends'⟩
    all_goals cases heq

/-! ## String literals and stars -/

theorem read_of_quote {c : Char} (hquote : IsQuote c) {text value rest : Text}
    (hbody : Quoted.readBody c text = .ok (value, rest)) (offset : Nat) :
    read ⟨c :: text, offset⟩ = (.string value, (⟨c :: text, offset⟩ : Cursor).goTo rest) := by
  rw [read]
  rcases hquote with rfl | rfl
  · have hstart : (IdentifierTable.isStart Quoted.mark || Quoted.mark == '\\') = false := by decide
    have hdigit : (Escape.isDigitOf 10 Quoted.mark ||
      (Quoted.mark == '.' && text.head?.any (Escape.isDigitOf 10))) = false :=
      rfl
    simp only [hstart, hdigit, hbody]
    rfl
  · have hstart : (IdentifierTable.isStart '\x27' || '\x27' == '\\') = false := by decide
    have hdigit :
        (Escape.isDigitOf 10 '\x27' || ('\x27' == '.' && text.head?.any (Escape.isDigitOf 10))) = false := rfl
    simp only [hstart, hdigit, hbody]
    rfl

theorem exists_string {text rest : Text} {offset offset' : Nat} {value : Text}
    (h : read ⟨text, offset⟩ = (.string value, ⟨rest, offset'⟩)) (hrest : rest ≠ []) :
    ∃ source, text = source ++ rest ∧ offset' = offset + source.byteLength ∧ OpensSolidly source ∧
      ∀ other, other.head? = rest.head? → ReadsAs source (.string value) other := by
  cases text with
  | nil =>
    rw [read] at h
    cases h
  | cons c text =>
    rcases read_cases h with
        ⟨-, hname⟩ | ⟨hquote, _, behind, hbody, heq, hstop⟩ | ⟨_, _, -, heq, -⟩ | ⟨_, heq⟩ | ⟨_,
      heq⟩ | ⟨_, heq⟩
    · rcases word_or_invalid_of_readName hname with hword | ⟨_, hfault⟩
      · cases hword
      · cases hfault
    · cases heq
      have hslash : c ≠ '\\' ∧ isSolid c = true := by
        rcases hquote with rfl | rfl
        all_goals decide
      have hbehind : behind ≠ [] := by
        rintro rfl
        have hgoTo := Cursor.goTo_append (c :: text) [] offset
        rw [List.append_nil, ← hstop] at hgoTo
        exact hrest (congrArg Cursor.rest hgoTo)
      rw [Quoted.readBody] at hbody
      cases hunits : Quoted.readUnits c (text.length + 1) text with
      | error fault =>
        rw [hunits] at hbody
        cases hbody
      | ok found =>
        rw [hunits] at hbody
        cases hbody
        obtain ⟨body, rfl, hinside⟩ := Quoted.readUnits_local hslash.1 hunits (Nat.lt_succ_self _) hbehind
        have hgoTo := fun other at' => Cursor.goTo_append (c :: body) other at'
        simp only [List.cons_append] at hgoTo
        rw [hgoTo] at hstop
        cases hstop
        refine ⟨c :: body, rfl, rfl, ⟨c, body, rfl, hslash.2⟩, fun other hother at' => ?_⟩
        have hbody : Quoted.readBody c (body ++ other) = .ok (CodePoint.decode found.1, other) := by
          rw [Quoted.readBody, hinside.readUnits_eq other _ hother (Nat.lt_succ_self _)]
          rfl
        rw [List.cons_append, read_of_quote hquote hbody, hgoTo]
    all_goals cases heq

theorem markOf_star {rest : Text} (h : rest.head? ≠ some '*' ∧ rest.head? ≠ some '=') :
    markOf ('*' :: rest) = some (['*'], "*") := by
  cases rest with
  | nil => rfl
  | cons d rest =>
    have hstar : d ≠ '*' := fun heq => h.1 (by rw [heq]; rfl)
    have hequals : d ≠ '=' := fun heq => h.2 (by rw [heq]; rfl)
    simp [markOf, marks, List.isPrefixOf, hstar.symm, hequals.symm]

theorem exists_of_markOf {text chars : Text} {mark : String} (h : markOf text = some (chars, mark)) :
    chars = mark.toList ∧ ∃ rest, text = chars ++ rest := by
  have hmem := List.mem_of_find?_eq_some h
  have hprefix := List.find?_some h
  obtain ⟨_, -, heq⟩ := List.mem_map.1 hmem
  cases heq
  obtain ⟨rest, hrest⟩ := List.isPrefixOf_iff_prefix.1 hprefix
  exact ⟨rfl, rest, hrest.symm⟩

theorem head?_of_markOf_star {rest chars : Text} (h : markOf ('*' :: rest) = some (chars, "*")) :
    rest.head? ≠ some '*' ∧ rest.head? ≠ some '=' := by
  constructor
  all_goals
    intro hhead
    obtain ⟨more, rfl⟩ := List.head?_eq_some_iff.1 hhead
  · cases more with
    | nil => simp [markOf, marks, List.isPrefixOf] at h
    | cons d more =>
      by_cases hequals : '=' = d
      · subst hequals
        simp [markOf, marks, List.isPrefixOf] at h
      · simp [markOf, marks, List.isPrefixOf, hequals] at h
  · simp [markOf, marks, List.isPrefixOf] at h

theorem exists_star {text rest : Text} {offset offset' : Nat}
    (h : read ⟨text, offset⟩ = (.mark "*", ⟨rest, offset'⟩)) :
    ∃ source, text = source ++ rest ∧ offset' = offset + source.byteLength ∧ OpensSolidly source ∧
      ∀ other, other.head? = rest.head? → ReadsAs source (.mark "*") other := by
  cases text with
  | nil =>
    rw [read] at h
    cases h
  | cons c text =>
    rcases read_cases h with
        ⟨-, hname⟩ | ⟨-, _, _, -, heq, -⟩ | ⟨chars, _, hmark, heq, hstop⟩ | ⟨_, heq⟩ | ⟨_, heq⟩ | ⟨_, heq⟩
    · rcases word_or_invalid_of_readName hname with hword | ⟨_, hfault⟩
      · cases hword
      · cases hfault
    · cases heq
    · cases heq
      obtain ⟨rfl, _, htext⟩ := exists_of_markOf hmark
      obtain ⟨rfl, rfl⟩ := List.cons.inj htext
      cases hstop
      refine ⟨['*'], rfl, rfl, ⟨'*', [], rfl, rfl⟩, fun other hother at' => ?_⟩
      have hhead := head?_of_markOf_star hmark
      rw [← hother] at hhead
      rw [List.singleton_append, read]
      have hstart : (IdentifierTable.isStart '*' || '*' == '\\') = false := by decide +kernel
      simp only [hstart, markOf_star hhead]
      rfl
    all_goals cases heq

/-- A word, a string literal or a star is read in the same way in front of every text with the same
first character. -/
theorem exists_token {text rest : Text} {offset offset' : Nat} {token : Token}
    (h : read ⟨text, offset⟩ = (token, ⟨rest, offset'⟩))
    (htoken : token.isAnyWord = true ∨ token.isString = true ∨ token = .mark "*") (hrest : rest ≠ []) :
    ∃ source, text = source ++ rest ∧ offset' = offset + source.byteLength ∧ OpensSolidly source ∧
      ∀ other, other.head? = rest.head? → ReadsAs source token other := by
  rcases htoken with htoken | htoken | rfl
  · cases token
    case word name escaped =>
      obtain ⟨ends, source, htext, hoffset, hopens, -, hlocal⟩ := exists_word h
      exact ⟨source, htext, hoffset, hopens, fun other hother =>
        hlocal other fun c hc => ends c (hother ▸ hc)⟩
    all_goals cases htoken
  · cases token
    case string value => exact exists_string h hrest
    all_goals cases htoken
  · exact exists_star h

end Lexeme
end ClassWeave
