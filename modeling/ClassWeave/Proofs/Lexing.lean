import ClassWeave.Proofs.Acceptance
import ClassWeave.Script.Token
/-!
# Tokens behind gaps

What stands between two tokens, and which token is found behind it: names, marks, string literals
and the end of the text. A token is what its first characters say, whatever the text goes on with,
so long as a name ends where it ends.
-/

namespace ClassWeave

namespace Cursor

theorem skip_append : ∀ (front rest : Text) (offset : Nat),
    (⟨front ++ rest, offset⟩ : Cursor).skip front.length = ⟨rest, offset + front.byteLength⟩
  | [], _, _ => rfl
  | c :: front, rest, offset => by
    rw [List.cons_append, List.length_cons, skip, skip_append front, Text.byteLength_cons, Nat.add_assoc]

theorem goTo_append (front rest : Text) (offset : Nat) :
    (⟨front ++ rest, offset⟩ : Cursor).goTo rest = ⟨rest, offset + front.byteLength⟩ := by
  have hlength : (front ++ rest).length - rest.length = front.length := by
    rw [List.length_append]
    omega
  rw [goTo, hlength, skip_append]

end Cursor

namespace Lexeme

/-! ## Gaps -/

def isSolid (c : Char) : Bool := !isSpace c && !Escape.isLineEnd c && c != '/' && c != '<' && c != '-'

theorem skipGap_solid {c : Char} (h : isSolid c = true) (rest : Text)
    (offset : Nat) (newLine : Bool) (marked : Option Nat) :
    skipGap .space (c :: rest) offset newLine marked = ⟨⟨c :: rest, offset⟩, newLine, marked⟩ := by
  simp only [isSolid, Bool.and_eq_true, Bool.not_eq_true', bne_iff_ne] at h
  obtain ⟨⟨⟨⟨hspace, hline⟩, hslash⟩, hangle⟩, hminus⟩ := h
  rw [skipGap.eq_def]
  split
  all_goals simp_all

theorem skipGap_blank {c : Char} (h : (isSpace c || Escape.isLineEnd c) = true)
    (rest : Text) (offset : Nat) (newLine : Bool) (marked : Option Nat) :
    skipGap .space (c :: rest) offset newLine marked =
      skipGap .space rest (offset + c.utf8Size) (newLine || Escape.isLineEnd c) marked := by
  have hslash : c ≠ '/' := by rintro rfl; exact absurd h (by decide)
  have hangle : c ≠ '<' := by rintro rfl; exact absurd h (by decide)
  have hminus : c ≠ '-' := by rintro rfl; exact absurd h (by decide)
  rw [skipGap]
  · cases hline : Escape.isLineEnd c with
    | true => simp
    | false =>
      rw [hline, Bool.or_false] at h
      simp [h]
  all_goals simp_all

/-- Text that stands between two tokens and holds no marked comment. -/
structure Between (text : Text) : Prop where
  skipped : ∀ rest offset newLine marked, ∃ newLine',
    skipGap .space (text ++ rest) offset newLine marked =
      skipGap .space rest (offset + text.byteLength) newLine' marked
  apart : ∀ c ∈ text.head?, IdentifierTable.isPart c = false ∧ c ≠ '\\'

theorem between_nil : Between [] := ⟨fun _ _ newLine _ => ⟨newLine, rfl⟩, nofun⟩

theorem not_solid_of_between {c : Char} {text : Text} (between : Between (c :: text)) :
    isSolid c = false := by
  cases hsolid : isSolid c with
  | false => rfl
  | true =>
    obtain ⟨newLine, h⟩ := between.skipped [] 0 false none
    rw [List.cons_append, skipGap_solid hsolid, skipGap] at h
    cases congrArg (·.stop.rest) h

def EndsLine (gap : Text) : Prop := ∀ rest offset newLine marked,
  skipGap .space (gap ++ rest) offset newLine marked =
    skipGap .space rest (offset + gap.byteLength) true marked

/-! ## Tokens -/

structure Is (lexeme : Lexeme) (token : Token) (front behind : Cursor) : Prop where
  token_eq : lexeme.token = token
  start_eq : lexeme.start = front
  stop_eq : lexeme.stop = behind
  first_eq : lexeme.first = front.offset

variable {gap rest : Text} {offset : Nat} {c : Char}

theorem next_solid (between : Between gap) (h : isSolid c = true) (rest : Text) (offset : Nat) :
    (next ⟨gap ++ c :: rest, offset⟩).Is (read ⟨c :: rest, offset + gap.byteLength⟩).1
      ⟨c :: rest, offset + gap.byteLength⟩ (read ⟨c :: rest, offset + gap.byteLength⟩).2 := by
  obtain ⟨newLine, hgap⟩ := between.skipped (c :: rest) offset (offset == 0) none
  rw [skipGap_solid h] at hgap
  rw [next]
  simp only [hgap]
  exact ⟨rfl, rfl, rfl, rfl⟩

theorem next_end (between : Between gap) (offset : Nat) :
    (next ⟨gap, offset⟩).Is .endOfText ⟨[], offset + gap.byteLength⟩ ⟨[], offset + gap.byteLength⟩ := by
  obtain ⟨newLine, hgap⟩ := between.skipped [] offset (offset == 0) none
  rw [List.append_nil, skipGap] at hgap
  rw [next]
  simp only [hgap]
  exact ⟨rfl, rfl, rfl, rfl⟩

/-! ### Marks -/

def loneMarks : List (Char × String) :=
  [('(', "("), (')', ")"), (',', ","), (';', ";"), ('{', "\x7b"), ('}', "\x7d"), ('\x60', "\x60")]

theorem read_mark {text : String} (h : (c, text) ∈ loneMarks) (rest : Text) (offset : Nat) :
    read ⟨c :: rest, offset⟩ = (.mark text, ⟨rest, offset + 1⟩) := by
  simp only [loneMarks, List.mem_cons, Prod.mk.injEq, List.not_mem_nil, or_false] at h
  rcases h with ⟨rfl, rfl⟩ | ⟨rfl, rfl⟩ | ⟨rfl, rfl⟩ | ⟨rfl, rfl⟩ | ⟨rfl, rfl⟩ | ⟨rfl, rfl⟩ | ⟨rfl, rfl⟩
  all_goals rfl

theorem isSolid_loneMark {text : String} (h : (c, text) ∈ loneMarks) : isSolid c = true := by
  simp only [loneMarks, List.mem_cons, Prod.mk.injEq, List.not_mem_nil, or_false] at h
  rcases h with ⟨rfl, rfl⟩ | ⟨rfl, rfl⟩ | ⟨rfl, rfl⟩ | ⟨rfl, rfl⟩ | ⟨rfl, rfl⟩ | ⟨rfl, rfl⟩ | ⟨rfl, rfl⟩
  all_goals rfl

theorem next_mark (between : Between gap) (c : Char) (text : String)
    (h : (c, text) ∈ loneMarks) (rest : Text) (offset : Nat) :
    (next ⟨gap ++ c :: rest, offset⟩).Is (.mark text) ⟨c :: rest, offset + gap.byteLength⟩
      ⟨rest, offset + gap.byteLength + 1⟩ := by
  have found := next_solid between (isSolid_loneMark h) rest offset
  rwa [read_mark h] at found

/-! ### Names -/

structure IsWord (name : Text) : Prop where
  start : ∃ c rest, name = c :: rest ∧ IdentifierTable.isStart c = true
  part : name.all IdentifierTable.isPart = true

/-- No name goes on with the text. -/
def EndsName (rest : Text) : Prop := ∀ c ∈ rest.head?, IdentifierTable.isPart c = false ∧ c ≠ '\\'

theorem takeWhile_name {name : Text} (hname : name.all IdentifierTable.isPart = true) (ends : EndsName rest) :
    (name ++ rest).takeWhile IdentifierTable.isPart = name := by
  rw [List.takeWhile_append_of_pos (List.all_eq_true.1 hname)]
  cases rest with
  | nil => simp
  | cons c rest => simp [(ends c rfl).1]

theorem readName_plain (make : String → Bool → Token) {name : Text}
    (hname : name.all IdentifierTable.isPart = true) (ends : EndsName rest) (offset : Nat) :
    readName make ⟨name ++ rest, offset⟩ =
      (make (String.ofList name) false, ⟨rest, offset + name.byteLength⟩) := by
  rw [readName]
  simp only [takeWhile_name hname ends, Cursor.skip_append]
  cases rest with
  | nil => rfl
  | cons c rest =>
    split
    · rename_i heq
      cases heq
      exact absurd rfl (ends _ rfl).2
    · rfl

def looseCodes : List Nat :=
  [9, 10, 11, 12, 13, 0x20, 0x2D, 0x2F, 0x3C, 0x85, 0xA0, 0x1680,
    0x2000, 0x2001, 0x2002, 0x2003, 0x2004, 0x2005, 0x2006, 0x2007,
    0x2008, 0x2009, 0x200A, 0x200B, 0x2028, 0x2029, 0x202F, 0x205F, 0x3000, 0xFEFF]

theorem toNat_mem_looseCodes (h : isSolid c = false) : c.toNat ∈ looseCodes := by
  have hcode : ∀ d : Char, c = d → c.toNat = d.toNat := fun _ heq => congrArg Char.toNat heq
  simp only [isSolid, isSpace, Escape.isLineEnd, Bool.and_eq_false_iff, Bool.not_eq_false', Bool.or_eq_true,
    Bool.and_eq_true, decide_eq_true_eq, beq_iff_eq, bne_eq_false_iff_eq] at h
  simp only [looseCodes, List.mem_cons, List.not_mem_nil, or_false]
  rcases h with (((h | h) | h) | h) | h
  · omega
  · rcases h with ((h | h) | h) | h
    · have : c.toNat = 10 := hcode _ h
      omega
    · have : c.toNat = 13 := hcode _ h
      omega
    · omega
    · omega
  · have : c.toNat = 0x2F := hcode _ h
    omega
  · have : c.toNat = 0x3C := hcode _ h
    omega
  · have : c.toNat = 0x2D := hcode _ h
    omega

theorem isPart_of_loose (h : c.toNat ∈ looseCodes) : IdentifierTable.isPart c = false := by
  have none : ∀ n ∈ looseCodes, IdentifierTable.isPart (Char.ofNat n) = false := by decide +kernel
  have := none _ h
  rwa [Char.ofNat_toNat] at this

theorem isPart_of_isStart (h : IdentifierTable.isStart c = true) : IdentifierTable.isPart c = true := by
  unfold IdentifierTable.isStart at h
  unfold IdentifierTable.isPart
  split
  · rename_i hplain
    rw [if_pos hplain] at h
    simp only [Char.isAlphanum, Bool.or_eq_true] at h ⊢
    exact h.imp_left (Or.imp_left .inl)
  · rename_i hplain
    rw [if_neg hplain] at h
    rw [h, Bool.true_or]

theorem isSolid_of_isStart (h : IdentifierTable.isStart c = true) : isSolid c = true := by
  cases hsolid : isSolid c with
  | true => rfl
  | false =>
    -- The table is asked about the loose characters alone, not about all characters.
    have hnone := isPart_of_loose (toNat_mem_looseCodes hsolid)
    rw [isPart_of_isStart h] at hnone
    cases hnone

theorem skipGap_blanks : ∀ {gap : Text}, gap.all (fun c => isSpace c || Escape.isLineEnd c) = true →
    ∀ rest offset newLine marked, skipGap .space (gap ++ rest) offset newLine marked =
      skipGap .space rest (offset + gap.byteLength) (newLine || gap.any Escape.isLineEnd) marked
  | [], _, rest, offset, newLine, marked => by simp
  | c :: gap, h, rest, offset, newLine, marked => by
    rw [List.all_cons, Bool.and_eq_true] at h
    rw [List.cons_append, skipGap_blank h.1, skipGap_blanks h.2,
      Text.byteLength_cons, List.any_cons, Nat.add_assoc, Bool.or_assoc]

theorem between_blank {gap : Text} (h : gap.all (fun c => isSpace c || Escape.isLineEnd c) = true) :
    Between gap := by
  refine ⟨fun rest offset newLine marked => ⟨_, skipGap_blanks h rest offset newLine marked⟩, fun c hc => ?_⟩
  have hblank := List.all_eq_true.1 h c (List.mem_of_mem_head? hc)
  have hloose : isSolid c = false := by
    rw [Bool.or_eq_true] at hblank
    rcases hblank with hblank | hblank
    · simp [isSolid, hblank]
    · simp [isSolid, hblank]
  refine ⟨isPart_of_loose (toNat_mem_looseCodes hloose), ?_⟩
  rintro rfl
  cases hblank

theorem endsLine_blank {gap : Text} (h : gap.all (fun c => isSpace c || Escape.isLineEnd c) = true)
    (hline : gap.any Escape.isLineEnd = true) : EndsLine gap := by
  intro rest offset newLine marked
  rw [skipGap_blanks h, hline, Bool.or_true]

/-- What a gap with the end of a line in it stands in front of is on a line of its own. -/
theorem onNewLine_of_endsLine (ends : EndsLine gap) (h : isSolid c = true) (rest : Text) (offset : Nat) :
    (next ⟨gap ++ c :: rest, offset⟩).onNewLine = true := by
  have hgap := ends (c :: rest) offset (offset == 0) none
  rw [skipGap_solid h] at hgap
  rw [next]
  simp only [hgap]

theorem next_word (between : Between gap) {name : Text} (hname : IsWord name)
    (ends : EndsName rest) (offset : Nat) :
    (next ⟨gap ++ (name ++ rest), offset⟩).Is (.word (String.ofList name) false)
      ⟨name ++ rest, offset + gap.byteLength⟩ ⟨rest, offset + gap.byteLength + name.byteLength⟩ := by
  obtain ⟨c, more, rfl, hstart⟩ := hname.start
  have found := next_solid between (isSolid_of_isStart hstart) (more ++ rest) offset
  have hread : ∀ offset, read ⟨c :: (more ++ rest), offset⟩ =
      (.word (String.ofList (c :: more)) false, ⟨rest, offset + Text.byteLength (c :: more)⟩) := by
    intro offset
    rw [read]
    simp only [hstart, Bool.true_or, if_true]
    exact readName_plain .word hname.part ends offset
  rwa [hread] at found

/-! ### Strings -/

def IsQuote (c : Char) : Prop := c = Quoted.mark ∨ c = '\x27'

theorem next_string (between : Between gap) {quote : Char} (hquote : IsQuote quote) {body value : Text}
    (hbody : Quoted.readBody quote (body ++ rest) = .ok (value, rest)) (offset : Nat) :
    (next ⟨gap ++ (quote :: body ++ rest), offset⟩).Is (.string value)
      ⟨quote :: body ++ rest, offset + gap.byteLength⟩
      ⟨rest, offset + gap.byteLength + Text.byteLength (quote :: body)⟩ := by
  have hsolid : isSolid quote = true := by
    rcases hquote with rfl | rfl
    · rfl
    · rfl
  have found := next_solid between hsolid (body ++ rest) offset
  have hread : ∀ offset, read ⟨quote :: (body ++ rest), offset⟩ =
      (.string value, ⟨rest, offset + Text.byteLength (quote :: body)⟩) := by
    intro offset
    have hgoTo := Cursor.goTo_append (quote :: body) rest offset
    rw [List.cons_append] at hgoTo
    rw [read]
    rcases hquote with rfl | rfl
    · have hstart : (IdentifierTable.isStart Quoted.mark || Quoted.mark == '\\') = false := by decide
      have hdigit : (Escape.isDigitOf 10 Quoted.mark ||
        (Quoted.mark == '.' && (body ++ rest).head?.any (Escape.isDigitOf 10))) =
        false := rfl
      simp only [hstart, hdigit, hbody, hgoTo]
      rfl
    · have hstart : (IdentifierTable.isStart '\x27' || '\x27' == '\\') = false := by decide
      have hdigit :
          (Escape.isDigitOf 10 '\x27' || ('\x27' == '.' && (body ++ rest).head?.any (Escape.isDigitOf 10))) =
          false := rfl
      simp only [hstart, hdigit, hbody, hgoTo]
      rfl
  rwa [hread] at found

end Lexeme

theorem between_space : Lexeme.Between [' '] := Lexeme.between_blank (by decide)

theorem endsName_space (rest : Text) : Lexeme.EndsName (' ' :: rest) := by
  intro c hc
  obtain rfl : ' ' = c := Option.some.inj hc
  decide

end ClassWeave
