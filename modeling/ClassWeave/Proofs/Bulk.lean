import Mathlib.Algebra.GroupWithZero.Nat
import ClassWeave.ClassList.Padding
import ClassWeave.Proofs.EscapeReading
import ClassWeave.Proofs.Quoting
/-!
# The bulk of a text

A measure of program text that writing a class list anew cannot raise: how many closing braces,
ampersands and separators of lines there are, and escapes that can stand for one. Of the marks that
are written around an expression only the closing brace counts, and what a literal stands for counts
no more than the literal.
-/

namespace ClassWeave

/-- A closing brace, an ampersand, or a separator of lines that string literals escape. -/
def CodePoint.isHeavy (n : CodePoint) : Bool := n == 0x7D || n == 0x26 || n == 0x2028 || n == 0x2029

namespace Text

def isHeavy (c : Char) : Bool := CodePoint.isHeavy c.toNat

def isHeavyEscape (c : Char) : Bool := isHeavy c || c == 'x' || c == 'u' || Escape.isDigitOf 8 c

/-- The characters of a text that count, a backslash and the character behind it taken as one. -/
def bulk : Text → Nat
  | [] => 0
  | '\\' :: c :: rest => (isHeavyEscape c).toNat + bulk rest
  | c :: rest => (isHeavy c).toNat + bulk rest

def heft (value : Text) : Nat := value.countP isHeavy

/-- Whether the bulk of a text is the same in front of every other. -/
def Sealed (text : Text) : Prop := ∀ more, bulk (text ++ more) = bulk text + bulk more

theorem bulk_escaped (c : Char) (rest : Text) :
    bulk ('\\' :: c :: rest) = (isHeavyEscape c).toNat + bulk rest := by
  rw [bulk]

theorem bulk_cons {c : Char} (h : c ≠ '\\') (rest : Text) :
    bulk (c :: rest) = (isHeavy c).toNat + bulk rest :=
  bulk.eq_3 c rest fun _ _ heq => absurd heq h

theorem heft_cons (c : Char) (rest : Text) : heft (c :: rest) = (isHeavy c).toNat + heft rest := by
  rw [heft, List.countP_cons, Nat.add_comm, heft]
  cases isHeavy c <;> rfl

@[simp] theorem heft_append (a b : Text) : heft (a ++ b) = heft a + heft b := List.countP_append

theorem heft_le_of_sublist {a b : Text} (h : a.Sublist b) : heft a ≤ heft b := h.countP_le

theorem heft_eq_zero {value : Text} (h : ∀ c ∈ value, isHeavy c = false) : heft value = 0 :=
  List.countP_eq_zero.2 fun c hc => by rw [h c hc]; exact Bool.false_ne_true

/-! ## Sealed texts -/

theorem sealed_nil : Sealed [] := fun more => (Nat.zero_add (bulk more)).symm

theorem Sealed.append {a b : Text} (ha : Sealed a) (hb : Sealed b) : Sealed (a ++ b) := by
  intro more
  rw [List.append_assoc, ha, hb, ha, Nat.add_assoc]

theorem Sealed.cons {c : Char} (h : c ≠ '\\') {text : Text} (htext : Sealed text) : Sealed (c :: text) := by
  intro more
  rw [List.cons_append, bulk_cons h, bulk_cons h, htext, Nat.add_assoc]

theorem Sealed.escaped (c : Char) {text : Text} (htext : Sealed text) : Sealed ('\\' :: c :: text) := by
  intro more
  rw [List.cons_append, List.cons_append, bulk_escaped, bulk_escaped, htext, Nat.add_assoc]

theorem sealed_flatMap {α : Type} {f : α → Text} :
    ∀ {list : List α}, (∀ a ∈ list, Sealed (f a)) → Sealed (list.flatMap f)
  | [], _ => sealed_nil
  | a :: rest, h => by
    rw [List.flatMap_cons]
    exact (h a (List.mem_cons_self ..)).append (sealed_flatMap fun b hb => h b (List.mem_cons_of_mem _ hb))

theorem bulk_flatMap {α : Type} {f : α → Text} : ∀ {list : List α}, (∀ a ∈ list, Sealed (f a)) →
    bulk (list.flatMap f) = (list.map fun a => bulk (f a)).sum
  | [], _ => rfl
  | a :: rest, h => by
    rw [List.flatMap_cons, h a (List.mem_cons_self ..), bulk_flatMap fun b hb =>
      h b (List.mem_cons_of_mem _ hb), List.map_cons,
      List.sum_cons]

theorem bulk_of_plain : ∀ {text : Text}, '\\' ∉ text → bulk text = heft text
  | [], _ => rfl
  | c :: rest, h => by
    rw [bulk_cons (List.ne_of_not_mem_cons h).symm, heft_cons, bulk_of_plain (List.not_mem_of_not_mem_cons h)]

theorem sealed_of_plain : ∀ {text : Text}, '\\' ∉ text → Sealed text
  | [], _ => sealed_nil
  | _ :: _, h => (sealed_of_plain (List.not_mem_of_not_mem_cons h)).cons (List.ne_of_not_mem_cons h).symm

theorem sealed_of_getLast? (text : Text) (h : text.getLast? ≠ some '\\') : Sealed text := by
  fun_induction bulk text with
  | case1 => exact sealed_nil
  | case2 c rest ih =>
    refine Sealed.escaped c (ih fun hlast => h ?_)
    obtain ⟨front, rfl⟩ := List.getLast?_eq_some_iff.1 hlast
    exact List.getLast?_eq_some_iff.2 ⟨'\\' :: c :: front, rfl⟩
  | case3 c rest hslash ih =>
    have hc : c ≠ '\\' := by
      rintro rfl
      cases rest with
      | nil => exact h rfl
      | cons d rest => exact hslash d rest rfl rfl
    refine Sealed.cons hc (ih fun hlast => h ?_)
    obtain ⟨front, rfl⟩ := List.getLast?_eq_some_iff.1 hlast
    exact List.getLast?_eq_some_iff.2 ⟨c :: front, rfl⟩

/-- Sealed texts that are equally heavy and both end in front of a closing brace are equal. -/
theorem eq_of_closed {a b x y : Text} (ha : Sealed a) (hb : Sealed b) (hbulk : bulk a = bulk b)
    (h : a ++ '\x7d' :: x = b ++ '\x7d' :: y) : a = b ∧ x = y := by
  have hclosing : '\x7d' ≠ '\\' := by decide
  -- If one went on behind the end of the other, it would hold the brace that the other ends in front of.
  have hlonger : ∀ {a b rest x y : Text}, Sealed a → Sealed b → bulk a = bulk b → b = a ++ rest →
      '\x7d' :: x = rest ++ '\x7d' :: y → rest = [] := by
    intro a b rest x y ha hb hbulk hrest heq
    cases rest with
    | nil => rfl
    | cons c rest =>
      obtain rfl : '\x7d' = c := (List.cons.inj heq).1
      rw [hrest, ha, bulk_cons hclosing] at hbulk
      have hheavy : (isHeavy '\x7d').toNat = 1 := by decide
      omega
  rcases List.append_eq_append_iff.1 h with ⟨rest, hrest, heq⟩ | ⟨rest, hrest, heq⟩
  · obtain rfl := hlonger ha hb hbulk hrest heq
    exact ⟨by simpa using hrest.symm, by simpa using heq⟩
  · obtain rfl := hlonger hb ha hbulk.symm hrest heq
    exact ⟨by simpa using hrest, (by simpa using heq : y = x).symm⟩

end Text

/-! ## Code points -/

namespace CodePoint

theorem isHeavy_ofNat {n : CodePoint} (h : n.isHeavy = false) : Text.isHeavy (Char.ofNat n) = false := by
  unfold Char.ofNat
  by_cases hvalid : n.isValidChar
  · rw [dif_pos hvalid]
    exact h
  · rw [dif_neg hvalid]
    decide

theorem isHeavy_toChar {n : CodePoint} (h : n.isHeavy = false) : Text.isHeavy (toChar n) = false := by
  unfold toChar
  split
  · decide
  · exact isHeavy_ofNat h

theorem isHeavy_ofPair (high low : CodePoint) : Text.isHeavy (ofPair high low) = false := by
  have hlarge : ∀ n : Nat, 0x10000 ≤ n → isHeavy n = false := fun n hn => by
    have hne : ∀ m < 0x10000, n ≠ m := fun m hm => Nat.ne_of_gt (Nat.lt_of_lt_of_le hm hn)
    simp only [isHeavy, Bool.or_eq_false_iff, beq_eq_false_iff_ne]
    exact ⟨⟨⟨hne _ (by decide), hne _ (by decide)⟩, hne _ (by decide)⟩, hne _ (by decide)⟩
  exact isHeavy_ofNat (hlarge _ (Nat.le_trans (Nat.le_add_right _ _) (Nat.le_add_right _ _)))

theorem countP_cons (n : CodePoint) (rest : List CodePoint) :
    (n :: rest).countP isHeavy = (isHeavy n).toNat + rest.countP isHeavy := by
  rw [List.countP_cons, Nat.add_comm]
  cases isHeavy n <;> rfl

theorem heft_decode_le (units : List CodePoint) : (decode units).heft ≤ units.countP isHeavy := by
  have hchar : ∀ n : CodePoint, (Text.isHeavy (toChar n)).toNat ≤ (isHeavy n).toNat := fun n => by
    cases h : isHeavy n with
    | true => exact Bool.toNat_le _
    | false => rw [isHeavy_toChar h]
  fun_induction decode units with
  | case1 => exact Nat.le_refl _
  | case2 high low rest hpair ih =>
    rw [Text.heft_cons, isHeavy_ofPair, countP_cons, countP_cons, Bool.toNat_false, Nat.zero_add]
    omega
  | case3 high low rest hpair ih =>
    have := hchar high
    rw [Text.heft_cons, countP_cons]
    omega
  | case4 n =>
    have := hchar n
    rw [Text.heft_cons, countP_cons]
    exact Nat.add_le_add this (Nat.zero_le _)

end CodePoint

/-! ## Escapes -/

namespace Escape

def isInner (c : Char) : Bool := isDigitOf 16 c || c == '_' || c == '\x7b' || c == '\x7d' || c == '\n'

theorem takeHex_inner : ∀ (count : Nat) (text : Text), ∃ front,
    text = front ++ (takeHex count text).2 ∧ ∀ c ∈ front, isInner c = true
  | 0, text => ⟨[], by rw [takeHex]; rfl, nofun⟩
  | n + 1, [] => ⟨[], by rw [takeHex]; rfl; simp, nofun⟩
  | n + 1, c :: rest => by
    rw [takeHex]
    have hfront : ∀ {front : Text}, isInner c = true → (∀ d ∈ front, isInner d = true) →
      ∀ d ∈ c :: front, isInner d = true :=
      fun hc h d hd => (List.mem_cons.1 hd).elim (fun heq => heq ▸ hc) (h d)
    split
    · rename_i hdigit
      obtain ⟨front, hrest, hinner⟩ := takeHex_inner n rest
      exact ⟨c :: front, congrArg (c :: ·) hrest, hfront (by simp [isInner, hdigit]) hinner⟩
    split
    · rename_i hline
      obtain ⟨front, hrest, hinner⟩ := takeHex_inner (n + 1) rest
      exact ⟨c :: front, congrArg (c :: ·) hrest, hfront (by simp_all [isInner]) hinner⟩
    · exact ⟨[], rfl, nofun⟩

theorem readHex_inner {count n : Nat} {text behind : Text} (h : readHex count text = some (n, behind)) :
    ∃ front, text = front ++ behind ∧ ∀ c ∈ front, isInner c = true := by
  unfold readHex at h
  dsimp only at h
  split at h
  · cases h
    exact takeHex_inner count text
  · cases h

theorem readBraced_inner {n : Nat} {text behind : Text} (h : readBraced text = .ok (n, behind)) :
    ∃ front, text = front ++ behind ∧ ∀ c ∈ front, isInner c = true := by
  unfold readBraced at h
  dsimp only at h
  split at h
  · cases h
  split at h
  · cases h
  split at h
  · rename_i rest hbehind
    cases h
    refine ⟨text.takeWhile (fun c => isDigitOf 16 c || c == '_') ++ ['\x7d'], ?_, fun c hc => ?_⟩
    · rw [List.append_assoc, List.singleton_append, ← hbehind, List.takeWhile_append_dropWhile]
    · rcases List.mem_append.1 hc with hc | hc
      · have hdigit := List.mem_takeWhile_imp hc
        unfold isInner
        rw [hdigit]
        rfl
      · rw [List.mem_singleton.1 hc]
        decide
  · cases h

theorem readHalf_inner {n : Nat} {text behind : Text} (h : readHalf text = .ok (n, behind)) :
    ∃ front, text = front ++ behind ∧ ∀ c ∈ front, isInner c = true := by
  unfold readHalf at h
  split at h
  · obtain ⟨front, rfl, hinner⟩ := readBraced_inner h
    refine ⟨'\x7b' :: front, rfl, fun c hc => ?_⟩
    rcases List.mem_cons.1 hc with rfl | hc
    · decide
    · exact hinner c hc
  · split at h
    · rename_i hhex
      cases h
      exact readHex_inner hhex
    · cases h

theorem readOctal_inner {n : Nat} {first : Char} {text behind : Text}
    (h : readOctal first text = (n, behind)) :
    ∃ front, text = front ++ behind ∧ ∀ c ∈ front, isInner c = true := by
  have hoctal : ∀ {c : Char}, isDigitOf 8 c = true → isInner c = true := by
    intro c hc
    have hlt : digitValue c < 8 := by simpa [isDigitOf] using hc
    have hdigit : isDigitOf 16 c = true := by simp [isDigitOf]; omega
    unfold isInner
    rw [hdigit]
    rfl
  unfold readOctal at h
  dsimp only at h
  split at h
  · rename_i second rest
    split at h
    · rename_i hsecond
      split at h
      · rename_i third rest'
        split at h
        · rename_i hthird
          cases h
          rw [Bool.and_eq_true] at hthird
          refine ⟨[second, third], rfl, fun c hc => ?_⟩
          rcases List.mem_cons.1 hc with rfl | hc
          · exact hoctal hsecond
          · rw [List.mem_singleton.1 hc]
            exact hoctal hthird.1
        · cases h
          exact ⟨[second], rfl, fun c hc => by rw [List.mem_singleton.1 hc]; exact hoctal hsecond⟩
      · cases h
        exact ⟨[second], rfl, fun c hc => by rw [List.mem_singleton.1 hc]; exact hoctal hsecond⟩
    · cases h
      exact ⟨[], rfl, nofun⟩
  · cases h
    exact ⟨[], rfl, nofun⟩

/-- An escape takes no backslash and no quote behind its first character, and is no heavier than it
stands for. -/
theorem read_inner {inTemplate : Bool} {c : Char} {rest behind : Text} {units : List CodePoint}
    (h : read inTemplate (c :: rest) = .ok (units, behind)) :
    (∃ front, rest = front ++ behind ∧ ∀ d ∈ front, isInner d = true) ∧
      units.countP CodePoint.isHeavy ≤ (Text.isHeavyEscape c).toNat := by
  have hnone : ∃ front, rest = front ++ rest ∧ ∀ d ∈ front, isInner d = true := ⟨[], rfl, nofun⟩
  have hone : ∀ n : CodePoint, Text.isHeavyEscape c = true →
    [n].countP CodePoint.isHeavy ≤ (Text.isHeavyEscape c).toNat :=
    fun n hc => by
      rw [hc]
      exact List.countP_le_length
  generalize htext : c :: rest = text at h
  unfold read at h
  split at h
  · cases htext
  split at h
  any_goals (cases htext; cases h; exact ⟨hnone, Nat.zero_le _⟩)
  · cases htext
    split at h
    · cases h
      exact ⟨⟨['\n'], rfl, fun d hd => by rw [List.mem_singleton.1 hd]; decide⟩, Nat.zero_le _⟩
    · cases h
      exact ⟨hnone, Nat.zero_le _⟩
  · cases htext
    split at h
    · rename_i hhex
      cases h
      exact ⟨readHex_inner hhex, hone _ rfl⟩
    · cases h
  · cases htext
    split at h
    · rename_i hunicode
      cases h
      exact ⟨readHalf_inner (readUnicode_eq_ok_iff.1 hunicode).1, hone _ rfl⟩
    · cases h
  · cases htext
    split at h
    · cases h
      exact ⟨hnone, Nat.zero_le _⟩
    split at h
    · rename_i hdigit
      have hheavy : Text.isHeavyEscape c = true := by simp [Text.isHeavyEscape, hdigit]
      split at h
      · cases h
        exact ⟨hnone, Nat.zero_le _⟩
      split at h
      · cases h
      · rcases hoctal : readOctal c rest with ⟨n, rest'⟩
        rw [hoctal] at h
        cases h
        exact ⟨readOctal_inner hoctal, hone _ hheavy⟩
    · cases h
      refine ⟨hnone, ?_⟩
      rw [List.countP_singleton]
      unfold Text.isHeavyEscape Text.isHeavy
      cases CodePoint.isHeavy c.toNat
      · exact Nat.zero_le _
      · exact Nat.le_refl _

theorem ne_of_inner {c d : Char} (h : isInner c = true) (hd : isInner d = false) : c ≠ d := by
  rintro rfl
  rw [h] at hd
  cases hd

end Escape

/-! ## Literals -/

theorem Text.isHeavy_of_isDigit {c : Char} (h : c.isDigit = true) : isHeavy c = false := by
  have hrange : 48 ≤ c.toNat ∧ c.toNat ≤ 57 := by
    simpa [Char.isDigit, UInt32.le_iff_toNat_le] using h
  have hne : ∀ m, m < 48 ∨ 57 < m → c.toNat ≠ m := fun m hm => by omega
  simp only [isHeavy, CodePoint.isHeavy, Bool.or_eq_false_iff, beq_eq_false_iff_ne]
  exact ⟨⟨⟨hne _ (by decide), hne _ (by decide)⟩, hne _ (by decide)⟩, hne _ (by decide)⟩

theorem Text.isHeavy_of_mem_toDigits {n : Nat} {c : Char} (h : c ∈ Nat.toDigits 10 n) : isHeavy c = false :=
  isHeavy_of_isDigit (Nat.isDigit_of_mem_toDigits (by decide) (by decide) h)

namespace Decimal

theorem significant_subset (digits : Nat) : significant digits ⊆ Nat.toDigits 10 digits := by
  intro c hc
  rw [significant, List.mem_reverse] at hc
  exact List.mem_reverse.1 ((List.dropWhile_sublist _).subset hc)

theorem not_heavy_of_mem_text {d : Decimal} {c : Char} (hc : c ∈ d.text) : Text.isHeavy c = false := by
  have hkept : c ∈ significant d.digits → Text.isHeavy c = false :=
    fun h => Text.isHeavy_of_mem_toDigits (significant_subset _ h)
  have hmark : c ∈ ['0', '.', 'e', '+', '-'] → Text.isHeavy c = false := fun h => by
    simp only [List.mem_cons, List.not_mem_nil, or_false] at h
    rcases h with rfl | rfl | rfl | rfl | rfl
    all_goals decide
  unfold text at hc
  dsimp only at hc
  split at hc
  · exact hmark (by simp_all)
  split at hc
  · split at hc
    · rcases List.mem_append.1 hc with hc | hc
      · exact hkept hc
      · exact hmark (by simp [List.eq_of_mem_replicate hc])
    · rcases List.mem_append.1 hc with hc | hc
      · exact hkept (List.mem_of_mem_take hc)
      rcases List.mem_cons.1 hc with rfl | hc
      · decide
      · exact hkept (List.mem_of_mem_drop hc)
  split at hc
  · rcases List.mem_append.1 hc with hc | hc
    · rcases List.mem_cons.1 hc with rfl | hc
      · decide
      rcases List.mem_cons.1 hc with rfl | hc
      · decide
      · exact hmark (by simp [List.eq_of_mem_replicate hc])
    · exact hkept hc
  · have hexponent : ∀ power : Int,
      c ∈ (if power < 0 then ['e', '-'] else ['e', '+']) ++ Nat.toDigits 10 power.natAbs →
        Text.isHeavy c = false := fun power h => by
      rcases List.mem_append.1 h with h | h
      · have hsubset : (if power < 0 then ['e', '-'] else ['e', '+']) ⊆ ['0', '.', 'e', '+', '-'] := by
          split <;> simp
        exact hmark (hsubset h)
      · exact Text.isHeavy_of_mem_toDigits h
    split at hc
    · exact hmark (by simp_all)
    · rename_i digit hdigits
      rcases List.mem_cons.1 hc with rfl | hc
      · exact hkept (by simp [hdigits])
      · exact hexponent _ hc
    · rename_i digit more _ hdigits
      rcases List.mem_cons.1 hc with rfl | hc
      · exact hkept (by simp [hdigits])
      rcases List.mem_append.1 hc with hc | hc
      · rcases List.mem_cons.1 hc with rfl | hc
        · decide
        · exact hkept (by simp [hdigits, hc])
      · exact hexponent _ hc

end Decimal

theorem Literal.heft_text? {literal : Literal} {text : Text} (h : literal.text? = some text)
    (hstring : ∀ value, literal ≠ .string value) : text.heft = 0 := by
  cases literal with
  | string value => exact absurd rfl (hstring value)
  | number value =>
    cases h
    cases value with
    | infinite => rfl
    | finite mantissa exponent => exact Text.heft_eq_zero fun c hc => Decimal.not_heavy_of_mem_text hc
  | bigInteger value =>
    cases h
    exact Text.heft_eq_zero fun c hc => Text.isHeavy_of_mem_toDigits hc
  | boolean value =>
    cases value
    all_goals (cases h; decide)
  | null => cases h; decide
  | pattern => cases h

namespace Quoted

variable {quote : Char}

theorem bulk_readUnits : ∀ {fuel : Nat} {text behind : Text} {units : List CodePoint},
    readUnits quote fuel text = .ok (units, behind) → units.countP CodePoint.isHeavy ≤ text.bulk
  | 0, text, behind, units, h => by
    rw [readUnits] at h
    cases h
    exact Nat.zero_le _
  | fuel + 1, [], behind, units, h => by
    rw [readUnits] at h
    cases h
    exact Nat.zero_le _
  | fuel + 1, c :: rest, behind, units, h => by
    rw [readUnits] at h
    split at h
    · cases h
      exact Nat.zero_le _
    split at h
    · rename_i hslash
      subst hslash
      split at h
      · cases h
      · rename_i units' rest' hread
        cases hmore : readUnits quote fuel rest' with
        | error fault =>
          rw [hmore] at h
          cases h
        | ok found =>
          obtain ⟨more, behind'⟩ := found
          rw [hmore] at h
          cases h
          have ih := bulk_readUnits hmore
          cases rest with
          | nil =>
            cases hread
            exact Nat.le_trans ih (Nat.zero_le _)
          | cons d rest =>
            obtain ⟨⟨front, rfl, hinner⟩, hheavy⟩ := Escape.read_inner hread
            have hplain := Text.sealed_of_plain fun hmem => Escape.ne_of_inner (hinner _ hmem) (by decide) rfl
            rw [List.countP_append, Text.bulk_escaped, hplain]
            omega
    split at h
    · cases h
      exact Nat.zero_le _
    · rename_i hquote hslash hend
      cases hmore : readUnits quote fuel rest with
      | error fault =>
        rw [hmore] at h
        cases h
      | ok found =>
        obtain ⟨more, behind'⟩ := found
        rw [hmore] at h
        cases h
        have ih := bulk_readUnits hmore
        rw [Text.bulk_cons hslash, CodePoint.countP_cons]
        exact Nat.add_le_add_left ih _

theorem heft_readBody {text behind value : Text} (h : readBody quote text = .ok (value, behind)) :
    value.heft ≤ text.bulk := by
  unfold readBody at h
  cases hunits : readUnits quote (text.length + 1) text with
  | error fault =>
    rw [hunits] at h
    cases h
  | ok found =>
    obtain ⟨units, rest⟩ := found
    rw [hunits] at h
    cases h
    exact (CodePoint.heft_decode_le units).trans (bulk_readUnits hunits)

theorem sealed_encodeChar (c : Char) :
    (encodeChar c).Sealed ∧ (encodeChar c).bulk = (Text.isHeavy c).toNat := by
  unfold encodeChar
  split
  · rename_i h
    subst h
    exact ⟨Text.Sealed.escaped _ Text.sealed_nil, rfl⟩
  split
  · rename_i h
    subst h
    exact ⟨Text.Sealed.escaped _ Text.sealed_nil, rfl⟩
  split
  · rename_i h
    subst h
    exact ⟨Text.Sealed.escaped _ Text.sealed_nil, rfl⟩
  split
  · rename_i h
    subst h
    exact ⟨Text.Sealed.escaped _ Text.sealed_nil, rfl⟩
  split
  · rename_i h
    refine ⟨Text.Sealed.escaped _ (Text.sealed_of_plain (by decide)), ?_⟩
    rw [Text.isHeavy, h]
    decide
  split
  · rename_i h
    refine ⟨Text.Sealed.escaped _ (Text.sealed_of_plain (by decide)), ?_⟩
    rw [Text.isHeavy, h]
    decide
  · rename_i hslash _ _ _ _
    exact ⟨Text.sealed_nil.cons hslash, Text.bulk_cons hslash []⟩

theorem sealed_encode (value : Text) : (encode value).Sealed :=
  ((Text.sealed_flatMap fun c _ => (sealed_encodeChar c).1).cons (by decide)).append
    (Text.sealed_nil.cons (by decide))

theorem bulk_encode (value : Text) : (encode value).bulk = value.heft := by
  have hvalue : Text.bulk (value.flatMap encodeChar) = value.heft := by
    rw [Text.bulk_flatMap fun c _ => (sealed_encodeChar c).1]
    induction value with
    | nil => rfl
    | cons c rest ih => rw [List.map_cons, List.sum_cons, ih, (sealed_encodeChar c).2, Text.heft_cons]
  have hmark : mark ≠ '\\' := by decide
  have hsealed : Text.Sealed (mark :: value.flatMap encodeChar) :=
    (Text.sealed_flatMap fun c _ => (sealed_encodeChar c).1).cons hmark
  rw [encode, hsealed, Text.bulk_cons hmark, hvalue]
  exact Nat.zero_add _

end Quoted
end ClassWeave
