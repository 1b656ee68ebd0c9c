import ClassWeave.Proofs.Patching
import ClassWeave.Proofs.TokenReading
/-!
# Tokens one behind another

Which tokens are the next ones at a cursor, and the text that spells them: it is read as the same
tokens wherever it stands behind a space.
-/

namespace ClassWeave

/-! ## Cursors in the text of a pass -/

namespace Pass.Holds

open Lexeme

variable {pass : Pass}

theorem skip : ∀ (n : Nat) {rest : Text} {offset : Nat}, pass.Holds offset rest →
    pass.Holds ((⟨rest, offset⟩ : Cursor).skip n).offset ((⟨rest, offset⟩ : Cursor).skip n).rest
  | 0, _, _, h => h
  | _ + 1, [], _, h => h
  | n + 1, c :: rest, offset, h => by
    rw [Cursor.skip]
    exact skip n (Pass.Holds.right (a := [c]) h)

theorem goTo {at' : Cursor} (h : pass.Holds at'.offset at'.rest) (rest : Text) :
    pass.Holds (at'.goTo rest).offset (at'.goTo rest).rest :=
  h.skip _

theorem skipGap {kind : Lexeme.Gap} {text : Text} {offset : Nat}
    {newLine : Bool} {marked : Option Nat} (h : pass.Holds offset text) :
    pass.Holds (skipGap kind text offset newLine marked).stop.offset
      (skipGap kind text offset newLine marked).stop.rest := by
  fun_induction Lexeme.skipGap kind text offset newLine marked with
  | case1 => exact h
  | case2 c _ _ _ _ _ ih | case3 c _ _ _ _ _ ih | case5 c _ _ _ _ _ ih => exact ih (right (a := [c]) h)
  | case10 c _ _ _ _ _ _ _ _ _ ih | case11 c _ _ _ _ _ _ _ _ _ _ ih => exact ih (right (a := [c]) h)
  | case4 _ _ _ _ ih => exact ih (right (a := ['*', '/']) h)
  | case6 _ _ _ _ ih => exact ih (right (a := ['/', '/']) h)
  | case7 _ _ _ _ ih => exact ih (right (a := ['/', '*']) h)
  | case8 _ _ _ _ ih => exact ih (right (a := ['<', '!', '-', '-']) h)
  | case9 _ _ _ ih => exact ih (right (a := ['-', '-', '>']) h)
  | case12 => exact h

theorem readName {make : String → Bool → Token} {at' : Cursor} (h : pass.Holds at'.offset at'.rest) :
    pass.Holds (readName make at').2.offset (readName make at').2.rest := by
  unfold Lexeme.readName
  dsimp only
  split
  · split
    · exact h.goTo _
    · exact h.goTo _
  · exact h.skip _

theorem readNumeral {at' : Cursor} (h : pass.Holds at'.offset at'.rest) :
    pass.Holds (readNumeral at').2.offset (readNumeral at').2.rest := by
  unfold Lexeme.readNumeral
  split
  · exact h.goTo _
  · dsimp only
    split
    · exact h.goTo _
    · exact h.goTo _

theorem read {at' : Cursor} (h : pass.Holds at'.offset at'.rest) :
    pass.Holds (read at').2.offset (read at').2.rest := by
  unfold Lexeme.read
  split
  · exact h
  · dsimp only
    split
    · exact h.readName
    split
    · exact h.readNumeral
    split
    · split
      · exact h.goTo _
      · exact h.goTo _
    split
    · exact readName (h.skip 1)
    split
    · exact h.skip _
    · exact h.skip 1

theorem next {at' : Cursor} (h : pass.Holds at'.offset at'.rest) :
    pass.Holds (next at').stop.offset (next at').stop.rest :=
  read (skipGap h)

end Pass.Holds

namespace Lexeme

/-! ## One token -/

theorem next_skipped {gap source rest : Text} {marked : Option Nat} {token : Token} {offset : Nat}
    (hgap : Skipped .space (offset == 0) gap marked) (opens : OpensSolidly source)
    (hread : ReadsAs source token rest) :
    (next ⟨gap ++ (source ++ rest), offset⟩).token = token ∧
    (next ⟨gap ++ (source ++ rest), offset⟩).stop = ⟨rest, offset + gap.byteLength + source.byteLength⟩ ∧
    (next ⟨gap ++ (source ++ rest), offset⟩).first =
      (marked.map (offset + ·)).getD (offset + gap.byteLength) := by
  obtain ⟨c, more, rfl, hc⟩ := opens
  obtain ⟨newLine, hskip⟩ := hgap.skipGap_eq
  have hfound := hskip c (more ++ rest) offset none hc
  have htoken := hread (offset + gap.byteLength)
  rw [List.cons_append] at htoken ⊢
  rw [next]
  simp only [hfound, htoken, Option.none_or, true_and]

theorem exists_of_next {at' : Cursor} (h : (next at').token ≠ .endOfText) : ∃ gap marked text,
    at'.rest = gap ++ text ∧ Skipped .space (at'.offset == 0) gap marked ∧
    read ⟨text, at'.offset + gap.byteLength⟩ = ((next at').token, (next at').stop) ∧
    (next at').first = (marked.map (at'.offset + ·)).getD (at'.offset + gap.byteLength) := by
  rcases hskip : skipGap .space at'.rest at'.offset (at'.offset == 0) none with
      ⟨⟨text, offset⟩, newLine, marked⟩
  rw [next] at h ⊢
  simp only [hskip] at h ⊢
  cases text with
  | nil => exact absurd (by rw [read]) h
  | cons c text =>
    obtain ⟨gap, marked, hrest, rfl, rfl, hgap⟩ := exists_skipped .space _ _ _ _ hskip
    refine ⟨gap, marked, c :: text, hrest, hgap, rfl, ?_⟩
    rw [Option.none_or]

/-! ## Tokens in a row -/

def Leads : List Token → Cursor → Cursor → Prop
  | [], at', behind => behind = at'
  | token :: tokens, at', behind => (next at').token = token ∧ Leads tokens (next at').stop behind

/-- Text from the first of some tokens to the end of the last: whatever stands around it, these are
read, unless a name goes on with the last. -/
inductive Spells : List Token → Text → Prop
  | last {token : Token} {source : Text} :
      OpensSolidly source → (∀ rest, EndsName rest → ReadsAs source token rest) →
      Spells [token] source
  | more {token : Token} {tokens : List Token} {source gap text : Text} {marked : Option Nat} :
      OpensSolidly source →
      Skipped .space false gap marked → (∀ rest, ReadsAs source token (gap ++ (text ++ rest))) →
      Spells tokens text →
      Spells (token :: tokens) (source ++ (gap ++ text))

theorem byteLength_pos_of_opens {source : Text} (opens : OpensSolidly source) : 0 < source.byteLength := by
  obtain ⟨c, more, rfl, -⟩ := opens
  have := c.utf8Size_pos
  rw [Text.byteLength_cons]
  omega

theorem Spells.opens {tokens : List Token} {text : Text} (h : Spells tokens text) : OpensSolidly text := by
  cases h with
  | last opens _ => exact opens
  | more opens _ _ _ =>
    obtain ⟨c, more, rfl, hc⟩ := opens
    exact ⟨c, _, rfl, hc⟩

theorem Spells.leads {tokens : List Token} {text : Text} (h : Spells tokens text) :
    ∀ {gap rest : Text} {marked : Option Nat} {offset : Nat},
    Skipped .space (offset == 0) gap marked → EndsName rest →
    Leads tokens ⟨gap ++ (text ++ rest), offset⟩ ⟨rest, offset + gap.byteLength + text.byteLength⟩ ∧
    (next ⟨gap ++ (text ++ rest), offset⟩).first =
      (marked.map (offset + ·)).getD (offset + gap.byteLength) := by
  induction h with
  | last opens hread =>
    intro gap rest marked offset hgap ends
    obtain ⟨htoken, hstop, hfirst⟩ := next_skipped hgap opens (hread rest ends)
    exact ⟨⟨htoken, hstop.symm⟩, hfirst⟩
  | @more token tokens source gap' text marked' opens hgap' hread _ ih =>
    intro gap rest marked offset hgap ends
    -- Behind a token the text has begun, so the gap there is skipped as on a line.
    have hne : (offset + gap.byteLength + source.byteLength == 0) = false := by
      have := byteLength_pos_of_opens opens
      simp only [beq_eq_false_iff_ne]
      omega
    obtain ⟨htoken, hstop, hfirst⟩ := next_skipped hgap opens (hread rest)
    obtain ⟨hleads, -⟩ := ih (hne ▸ hgap') ends
    have hlength : offset + gap.byteLength + (source ++ (gap' ++ text)).byteLength =
        offset + gap.byteLength + source.byteLength + gap'.byteLength + text.byteLength := by
      simp only [Text.byteLength_append]
      omega
    rw [hlength, List.append_assoc, List.append_assoc]
    refine ⟨⟨htoken, ?_⟩, hfirst⟩
    rw [hstop]
    exact hleads

def IsPiece (token : Token) : Prop := token.isAnyWord = true ∨ token.isString = true ∨ token = .mark "*"

theorem IsPiece.ne_end {token : Token} (h : IsPiece token) : token ≠ .endOfText := by
  rintro rfl
  rcases h with h | h | h
  all_goals cases h

theorem exists_spells {name : String} {escaped : Bool} : ∀ {tokens : List Token} {at' behind : Cursor},
    (∀ token ∈ tokens, IsPiece token) →
    Leads (tokens ++ [.word name escaped]) at' behind →
    ∃ gap marked text, Skipped .space (at'.offset == 0) gap marked ∧
      at'.rest = gap ++ (text ++ behind.rest) ∧
      behind.offset = at'.offset + gap.byteLength + text.byteLength ∧
      Spells (tokens ++ [.word name escaped]) text ∧
      (next at').first = (marked.map (at'.offset + ·)).getD (at'.offset + gap.byteLength) ∧
      (tokens = [] → escaped = false → text = name.toList)
  | [], at', behind, _, h => by
    obtain ⟨htoken, hbehind⟩ := h
    have hend : (next at').token ≠ .endOfText := by
      rw [htoken]
      nofun
    obtain ⟨gap, marked, text, hrest, hgap, hread, hfirst⟩ := exists_of_next hend
    rw [htoken, ← (show behind = (next at').stop from hbehind)] at hread
    obtain ⟨-, source, rfl, hoffset, opens, hplain, hlocal⟩ :=
      exists_word (show read _ = (.word name escaped, ⟨behind.rest, behind.offset⟩) from hread)
    exact ⟨gap, marked, source, hgap, hrest, hoffset, .last opens hlocal, hfirst, fun _ => hplain⟩
  | token :: tokens, at', behind, hpieces, h => by
    obtain ⟨htoken, hleads⟩ := h
    obtain ⟨hpiece, hpieces⟩ := List.forall_mem_cons.1 hpieces
    have hend : (next at').token ≠ .endOfText := htoken ▸ hpiece.ne_end
    obtain ⟨gap, marked, text, hrest, hgap, hread, hfirst⟩ := exists_of_next hend
    obtain ⟨gap', marked', text', hgap', hrest', hoffset', hspells, -, -⟩ := exists_spells hpieces hleads
    have hne : (next at').stop.rest ≠ [] := by
      obtain ⟨c, more, rfl, -⟩ := hspells.opens
      rw [hrest']
      simp
    obtain ⟨source, rfl, hoffset, opens, hlocal⟩ :=
      exists_token (show read _ = (_, ⟨(next at').stop.rest, (next at').stop.offset⟩) from hread)
        (htoken ▸ hpiece) hne
    have hstop : ((next at').stop.offset == 0) = false := by
      have := byteLength_pos_of_opens opens
      simp only [beq_eq_false_iff_ne, hoffset]
      omega
    rw [hstop] at hgap'
    -- Only the last token has to be kept from going on: a gap or a token behind the others does so.
    refine ⟨gap, marked, source ++ (gap' ++ text'), hgap, ?_,
      ?_, .more opens hgap' (fun rest => ?_) hspells, hfirst, nofun⟩
    · rw [hrest, hrest']
      simp
    · rw [hoffset', hoffset]
      simp only [Text.byteLength_append]
      omega
    · rw [← htoken]
      refine hlocal _ ?_
      obtain ⟨c, more, rfl, -⟩ := hspells.opens
      rw [hrest']
      cases gap'
      all_goals rfl

/-! ## Text behind a space -/

def Stands (tokens : List Token) (text : Text) : Prop := ∃ comment words marked, text = comment ++ words ∧
  (∀ newLine, Skipped .space newLine comment marked) ∧ marked.getD comment.byteLength = 0 ∧
  Spells tokens words

theorem Stands.leads {tokens : List Token} {text rest : Text}
    (h : Stands tokens text) (ends : EndsName rest) (offset : Nat) :
    Leads tokens ⟨' ' :: (text ++ rest), offset⟩ ⟨rest, offset + 1 + text.byteLength⟩ ∧
    (next ⟨' ' :: (text ++ rest), offset⟩).first = offset + 1 := by
  obtain ⟨comment, words, marked, rfl, hcomment, hmarked, hspells⟩ := h
  have hgap : Skipped .space (offset == 0) (' ' :: comment) (marked.map (1 + ·)) :=
    .blank (by decide) (hcomment _)
  obtain ⟨hleads, hfirst⟩ := hspells.leads hgap ends
  have hsize : Text.byteLength (' ' :: comment) = 1 + comment.byteLength := rfl
  have hlength : offset + Text.byteLength (' ' :: comment) + words.byteLength =
    offset + 1 + (comment ++ words).byteLength := by
    rw [Text.byteLength_append, hsize]
    omega
  have htext : ' ' :: (comment ++ words ++ rest) = (' ' :: comment) ++ (words ++ rest) := by simp
  rw [htext, hfirst]
  refine ⟨hlength ▸ hleads, ?_⟩
  cases marked with
  | none =>
    have : comment.byteLength = 0 := hmarked
    show offset + Text.byteLength (' ' :: comment) = offset + 1
    rw [hsize, this]
  | some n =>
    have : n = 0 := hmarked
    rw [this]
    rfl

end Lexeme

/-- What the text of a pass holds from the first of some tokens on to the end of the last leads to
them wherever it stands, if no comment in front of them has to be the first on its line. -/
theorem Pass.Holds.stands {pass : Pass} {at' behind : Cursor}
    {tokens : List Token} {name : String} {escaped : Bool} (h : pass.Holds at'.offset at'.rest)
    (hpieces : ∀ token ∈ tokens, Lexeme.IsPiece token)
    (hleads : Lexeme.Leads (tokens ++ [.word name escaped]) at' behind) :
    pass.Holds behind.offset behind.rest ∧
    (¬ "-->".toList <+: pass.textAt ⟨(Lexeme.next at').first, behind.offset⟩ →
      Lexeme.Stands (tokens ++ [.word name escaped]) (pass.textAt ⟨(Lexeme.next at').first, behind.offset⟩)) ∧
    (tokens = [] → escaped = false →
      name.toList <:+ pass.textAt ⟨(Lexeme.next at').first, behind.offset⟩) := by
  obtain ⟨gap, marked, text, hgap, hrest, hoffset, hspells, hfirst, hplain⟩ :=
    Lexeme.exists_spells hpieces hleads
  rw [hrest] at h
  refine ⟨?_, ?_⟩
  · have hbehind := h.right.right
    rwa [← hoffset] at hbehind
  cases marked with
  | none =>
    have htext := h.right.left.textAt_eq
    rw [← hoffset, ← (show (Lexeme.next at').first = at'.offset + gap.byteLength from hfirst)] at htext
    rw [htext]
    exact ⟨fun _ => ⟨[], text, none, rfl, fun _ => .nil, rfl, hspells⟩,
      fun hnil hescaped => hplain hnil hescaped ▸ List.suffix_rfl⟩
  | some size =>
    obtain ⟨before, comment, rfl, rfl, hcomment⟩ := hgap.markedAt size rfl
    rw [List.append_assoc, ← List.append_assoc comment] at h
    have htext := h.right.left.textAt_eq
    have hstop : at'.offset + before.byteLength + (comment ++ text).byteLength = behind.offset := by
      rw [hoffset]
      simp only [Text.byteLength_append]
      omega
    rw [hstop, ← (show (Lexeme.next at').first = at'.offset + before.byteLength from hfirst)] at htext
    rw [htext]
    refine ⟨fun hline => ?_, fun hnil hescaped => hplain hnil hescaped ▸ List.suffix_append ..⟩
    rcases hcomment with hcomment | hcomment
    · exact ⟨comment, text, some 0, rfl, hcomment, rfl, hspells⟩
    · exact absurd (hcomment.trans (List.prefix_append ..)) hline

end ClassWeave
