import ClassWeave.Proofs.TemplateReading
/-!
# Literals that stand in a text

A value that is written as a string literal, or values that are written as the static text of a
template with expressions between them, are what the literal is read as, whatever the values hold
and whatever stands behind the literal.
-/

namespace ClassWeave

/-! ## String literals -/

namespace Quoted

theorem not_isLineEnd_of_mem_encodeChar {c d : Char} (h : d ∈ encodeChar c) : Escape.isLineEnd d = false := by
  have hescape : ∀ text : Text, d ∈ text → text.any Escape.isLineEnd = false → Escape.isLineEnd d = false :=
    fun text hd hnone => by simpa using List.any_eq_false.1 hnone d hd
  unfold encodeChar at h
  split at h
  · exact hescape _ h (by decide)
  split at h
  · exact hescape _ h (by decide)
  split at h
  · exact hescape _ h (by decide)
  split at h
  · exact hescape _ h (by decide)
  split at h
  · exact hescape _ h (by decide)
  split at h
  · exact hescape _ h (by decide)
  · rename_i hfeed hreturn hline hparagraph
    obtain rfl := List.mem_singleton.1 h
    simp [Escape.isLineEnd, hfeed, hreturn, hline, hparagraph]

theorem not_isLineEnd_of_mem_encode {value : Text} {c : Char} (h : c ∈ encode value) :
    Escape.isLineEnd c = false := by
  rcases List.mem_append.1 h with h | h
  · rcases List.mem_cons.1 h with rfl | h
    · rfl
    · obtain ⟨d, -, h⟩ := List.mem_flatMap.1 h
      exact not_isLineEnd_of_mem_encodeChar h
  · rw [List.mem_singleton.1 h]
    rfl

theorem encode_append_injective {a b rest rest' : Text} (h : encode a ++ rest = encode b ++ rest') :
    a = b ∧ rest = rest' := by
  have hbody : a.flatMap encodeChar ++ [mark] ++ rest = b.flatMap encodeChar ++ [mark] ++ rest' :=
    (List.cons.inj h).2
  have hread := readBody_encode a rest
  rw [hbody, readBody_encode b rest'] at hread
  cases hread
  exact ⟨rfl, rfl⟩

end Quoted

namespace Lexeme

theorem next_encode_front (value rest : Text) (offset : Nat) : next ⟨Quoted.encode value ++ rest, offset⟩ =
    ⟨.string value, ⟨Quoted.encode value ++ rest, offset⟩, ⟨rest, offset + (Quoted.encode value).byteLength⟩,
      offset == 0, offset⟩ := by
  have found := Reader.next_encode between_nil value rest offset
  have hgap :=
    skipGap_solid (c := Quoted.mark) rfl (value.flatMap Quoted.encodeChar ++ [Quoted.mark] ++ rest) offset
      (offset == 0) none
  have hline : (next ⟨Quoted.encode value ++ rest, offset⟩).onNewLine = (offset == 0) :=
    congrArg Separation.newLine hgap
  obtain ⟨htoken, hstart, hstop, hfirst⟩ := found
  rw [List.nil_append] at htoken hstart hstop hfirst
  generalize next ⟨Quoted.encode value ++ rest, offset⟩ = lexeme at *
  obtain ⟨token, start, stop, newLine, first⟩ := lexeme
  dsimp only at hline htoken hstart hstop hfirst
  rw [hline, htoken, hstart, hstop, hfirst]
  rfl

/-- A value that is written as a string literal is read as one, whatever stands behind it: up to its
own closing quote and no further, on one line, and as the value that was written. So no two values
are written alike, and no literal begins another. -/
theorem next_of_encoded : (∀ (value rest : Text) (offset : Nat), next ⟨Quoted.encode value ++ rest, offset⟩ =
      ⟨.string value, ⟨Quoted.encode value ++ rest, offset⟩,
        ⟨rest, offset + (Quoted.encode value).byteLength⟩, offset == 0, offset⟩) ∧
    (∀ value : Text, (Quoted.encode value).head? = some Quoted.mark ∧
      (Quoted.encode value).getLast? = some Quoted.mark ∧
      ∀ c ∈ Quoted.encode value, Escape.isLineEnd c = false) ∧
    (∀ a b rest rest' : Text, Quoted.encode a ++ rest = Quoted.encode b ++ rest' → a = b ∧ rest = rest') ∧
    Function.Injective Quoted.encode := by
  refine ⟨next_encode_front, fun value => ⟨rfl, ?_, fun c => Quoted.not_isLineEnd_of_mem_encode⟩,
    fun a b rest rest' => Quoted.encode_append_injective, fun a b h => ?_⟩
  · rw [Quoted.encode, List.getLast?_concat]
  · have happend : Quoted.encode a ++ [] = Quoted.encode b ++ [] := congrArg (· ++ []) h
    exact (Quoted.encode_append_injective happend).1

end Lexeme

/-! ## Templates -/

namespace TemplateText

def chunkFor (value : Text) : Chunk := ⟨escape value, some value⟩

/-- A value as static text, and more of them, each behind an expression. -/
def interleave (first : Text) : List (Text × Text) → Text
  | [] => escape first
  | (source, value) :: more => escape first ++ (embedded source ++ interleave value more)

def literal (first : Text) (more : List (Text × Text)) : Text := mark :: interleave first more ++ [mark]

theorem exists_glyphs_escape (value : Text) :
    ∃ list, sourceOf list = escape value ∧ chunkOf list = chunkFor value ∧
    ReadInFront list [mark] := by
  obtain ⟨list, hsource, hpoints, hread⟩ := exists_of_escape value
  refine ⟨list, hsource, ?_, hread⟩
  rw [chunkOf, hsource, hpoints, CodePoint.decode_toNat]
  rfl

theorem readChunk_escape_closed (value rest : Text) :
    readChunk (escape value ++ mark :: rest) = ⟨chunkFor value, none, .closed, rest⟩ := by
  obtain ⟨list, hsource, hchunk, hread⟩ := exists_glyphs_escape value
  rw [← hsource, ← hchunk]
  exact readChunk_closed hread rest

-- The last character of a value may be a dollar sign that is not escaped: what it stands in front of is then
-- the dollar sign of the expression, and no brace.
theorem readChunk_escape_expression (value rest : Text) :
    readChunk (escape value ++ '$' :: '\x7b' :: rest) = ⟨chunkFor value, none, .expression, rest⟩ := by
  obtain ⟨list, hsource, hchunk, hread⟩ := exists_glyphs_escape value
  rw [← hsource, ← hchunk]
  exact readChunk_expression hread rest

theorem length_le_interleave :
    ∀ (more : List (Text × Text)) (first : Text), more.length ≤ (interleave first more).length
  | [], _ => Nat.zero_le _
  | (source, value) :: more, first => by
    have ih := length_le_interleave more value
    rw [interleave, embedded]
    simp only [List.length_append, List.length_cons]
    omega

theorem byteLength_literal (first : Text) (more : List (Text × Text)) :
    (literal first more).byteLength = (interleave first more).byteLength + 2 := by
  have hmark : mark.utf8Size = 1 := rfl
  rw [literal, Text.byteLength_append, Text.byteLength_cons, Text.byteLength_cons, hmark, Text.byteLength_nil]
  omega

theorem interleave_cons (first source value : Text) (more : List (Text × Text)) (rest : Text) :
    interleave first ((source, value) :: more) ++ rest =
      escape first ++ '$' :: '\x7b' :: (source ++ '\x7d' :: (interleave value more ++ rest)) := by
  simp [interleave, embedded]

end TemplateText

namespace Reader

open TemplateText

variable {α : Type} {inner : Reader α} {s : Surroundings} {start fuel : Nat} {tagged : Bool}

theorem templateTail_last (first : Text) (hfuel : 0 < fuel) (offset : Nat) (rest : Text) (place : Place) :
    templateTail inner start tagged fuel ⟨interleave first [] ++ mark :: rest, offset⟩ s place =
      .done ([chunkFor first], []) (.at' ⟨rest, offset + (interleave first []).byteLength + 1⟩) := by
  have hgoTo := Cursor.goTo_append (escape first ++ [mark]) rest offset
  rw [List.append_assoc, List.singleton_append, Text.byteLength_append] at hgoTo
  rw [interleave, templateTail_closed (readChunk_escape_closed first rest) hfuel, hgoTo]
  rfl

/-- Behind a value an expression is read, and behind its brace the rest of the template. -/
theorem templateTail_next {first source value : Text} {more : List (Text × Text)} {offset : Nat} {rest : Text}
    {found : α} {behind : Place} {chunks : List Chunk} {values : List α}
    (hinner : inner s (.at' ⟨source ++ '\x7d' :: (interleave value more ++ mark :: rest),
      offset + (escape first).byteLength + 2⟩) = .done found behind)
    (hclose : behind.AtMark "\x7d" ⟨interleave value more ++ mark :: rest,
      offset + (escape first).byteLength + 2 + source.byteLength + 1⟩)
    (htail : templateTail inner start tagged fuel ⟨interleave value more ++ mark :: rest,
        offset + (escape first).byteLength + 2 + source.byteLength + 1⟩ s behind =
      .done (chunks, values) (.at' ⟨rest, offset + (escape first).byteLength + 2 + source.byteLength + 1 +
        (interleave value more).byteLength + 1⟩)) (place : Place) :
    templateTail inner start tagged (fuel + 1)
        ⟨interleave first ((source, value) :: more) ++ mark :: rest, offset⟩ s place =
      .done (chunkFor first :: chunks, found :: values)
        (.at' ⟨rest, offset + (interleave first ((source, value) :: more)).byteLength + 1⟩) := by
  let text := interleave value more ++ mark :: rest
  have hgoTo := Cursor.goTo_append (escape first ++ ['$', '\x7b']) (source ++ '\x7d' :: text) offset
  rw [List.append_assoc, List.cons_append, List.singleton_append, Text.byteLength_append,
    ← Nat.add_assoc] at hgoTo
  change _ = Cursor.mk _ (offset + (escape first).byteLength + 2) at hgoTo
  rw [← hgoTo] at hinner
  rw [← hclose.stop_eq] at htail
  have hchunk := readChunk_escape_expression first (source ++ '\x7d' :: text)
  rw [interleave_cons, templateTail_embedded hchunk hinner hclose.token_eq htail]
  -- The lengths on both sides are those of the same text.
  have hlength := congrArg Text.byteLength (interleave_cons first source value more [])
  simp only [List.append_nil, Text.byteLength_append, Text.byteLength_cons] at hlength
  have hclosing : ('\x7d' : Char).utf8Size = 1 := rfl
  have hopening : ('$' : Char).utf8Size + ('\x7b' : Char).utf8Size = 2 := rfl
  refine congrArg (fun offset => Outcome.done _ (Place.at' ⟨rest, offset⟩)) ?_
  omega

variable {expected : Text → α → Prop}

theorem templateTail_interleave (start : Nat) (tagged : Bool) :
    ∀ {more : List (Text × Text)} {first : Text} {fuel : Nat},
    (∀ source ∈ more.map Prod.fst, inner.Finds s (expected source) source) → more.length < fuel →
    ∀ (offset : Nat) (rest : Text) (place : Place), ∃ values,
      templateTail inner start tagged fuel ⟨interleave first more ++ mark :: rest, offset⟩ s place =
        .done ((first :: more.map Prod.snd).map chunkFor, values)
          (.at' ⟨rest, offset + (interleave first more).byteLength + 1⟩) ∧
      List.Forall₂ expected (more.map Prod.fst) values
  | [], first, fuel + 1, _, _, offset, rest, place =>
    ⟨[], templateTail_last first (Nat.succ_pos fuel) offset rest place, .nil⟩
  | (source, value) :: more, first, fuel + 1, hsources, hfuel, offset, rest, place => by
    obtain ⟨found, behind, hfound, hinner, hclose⟩ := hsources source List.mem_cons_self
      (offset + (escape first).byteLength + 2) (interleave value more ++ mark :: rest)
    obtain ⟨values, htail, hvalues⟩ := templateTail_interleave start tagged
      (fun other hother => hsources other (List.mem_cons_of_mem _ hother)) (Nat.lt_of_succ_lt_succ hfuel)
      (offset + (escape first).byteLength + 2 + source.byteLength + 1) rest behind
    exact ⟨found :: values, templateTail_next hinner hclose htail place, .cons hfound hvalues⟩

/-- Values that are written as the static text of a template are what its chunks are read as, and
the expressions between them what stands between the chunks, whatever the values begin and end with,
and wherever the template stands in the text of a module: as an expression, behind a tag, or as a
type. -/
theorem template_of_escaped (first : Text) (more : List (Text × Text))
    (hsources : ∀ source ∈ more.map Prod.fst, inner.Finds s (expected source) source)
    (tagged : Bool) (front rest : Text) (depth offset : Nat) : ∃ values,
    template (Grammar.ofDepth (8 * ((front ++ (literal first more ++ rest)).length + 8)) depth) inner tagged s
        (.at' ⟨literal first more ++ rest, offset⟩) =
      .done ((first :: more.map Prod.snd).map fun value => ⟨escape value, some value⟩, values)
        (.at' ⟨rest, offset + (literal first more).byteLength⟩) ∧
    List.Forall₂ expected (more.map Prod.fst) values := by
  have hlength : more.length < 8 * ((front ++ (literal first more ++ rest)).length + 8) := by
    have hmore := length_le_interleave more first
    rw [literal]
    simp only [List.length_append, List.length_cons]
    omega
  generalize 8 * ((front ++ (literal first more ++ rest)).length + 8) = budget at hlength ⊢
  have hbudget : (Grammar.ofDepth budget depth).budget = budget := by cases depth <;> rfl
  have htext : literal first more ++ rest = mark :: (interleave first more ++ mark :: rest) := by
    simp [literal]
  have found :=
    Lexeme.next_mark Lexeme.between_nil mark "\x60" (by decide) (interleave first more ++ mark :: rest) offset
  have hstop : (Place.at' ⟨mark :: (interleave first more ++ mark :: rest), offset⟩).ahead.stop =
      ⟨interleave first more ++ mark :: rest, offset + 1⟩ := found.stop_eq
  obtain ⟨values, htail, hvalues⟩ := templateTail_interleave
    (Place.at' ⟨mark :: (interleave first more ++ mark :: rest), offset⟩).ahead.start.offset
    tagged hsources hlength
    (offset + 1) rest (Place.at' ⟨mark :: (interleave first more ++ mark :: rest), offset⟩)
  refine ⟨values, ?_, hvalues⟩
  rw [htext, template]
  simp only [run_bind, run_place, hbudget, hstop, byteLength_literal]
  refine htail.trans (congrArg (fun offset => Outcome.done _ (Place.at' ⟨rest, offset⟩)) ?_)
  omega

/-- Dollar signs, braces, backslashes, a backquote and a carriage return next to the expressions. -/
theorem template_of_escaped_dollars : ∃ values,
    template (Grammar.ofDepth 248 3) (freshExpression (Grammar.ofDepth 248 3)) false { elements := false }
        (.at' ⟨literal ['$'] [(['x'], ['{', '$', '{', '\\']), (['y'], ['\r', '\x60', '$'])] ++ [';'], 0⟩) =
      .done ([⟨['$'], some ['$']⟩, ⟨['{', '\\', '$', '{', '\\', '\\'], some ['{', '$', '{', '\\']⟩,
        ⟨['\\', 'r', '\\', '\x60', '$'], some ['\r', '\x60', '$']⟩], values) (.at' ⟨[';'], 22⟩) ∧
    List.Forall₂ (fun source node => Node.IsVariable (String.ofList source) node) [['x'], ['y']] values := by
  have hsources : ∀ source ∈ [['x'], ['y']],
    (freshExpression (Grammar.ofDepth 248 3)).Finds { elements := false }
      (Node.IsVariable (String.ofList source)) source := by
    intro source hsource
    simp only [List.mem_cons, List.not_mem_nil, or_false] at hsource
    rcases hsource with rfl | rfl
    · exact finds_variable (isVariableName_letter rfl) (by decide) 1 _
    · exact finds_variable (isVariableName_letter rfl) (by decide) 1 _
  exact template_of_escaped ['$'] [(['x'], ['{', '$', '{', '\\']), (['y'], ['\r', '\x60', '$'])]
    hsources false [] [';'] 3 0

end Reader

end ClassWeave
