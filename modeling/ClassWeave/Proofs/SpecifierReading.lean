import ClassWeave.Proofs.HelperHeader
import ClassWeave.Proofs.TokenRuns
/-!
# Specifiers that are read again

Which tokens a specifier of an import is read from. It is the same specifier wherever these tokens
are the next ones.
-/

namespace ClassWeave
namespace Reader

open Lexeme

variable {α β : Type} {s : Surroundings} {place place' : Place} {at' behind : Cursor}

theorem exists_of_bind {first : Reader α} {next : α → Reader β} {value : β}
    (h : (first >>= next) s place = .done value place') :
    ∃ found mid, first s place = .done found mid ∧ next found s mid = .done value place' := by
  rw [run_bind] at h
  split at h
  · exact ⟨_, _, by assumption, h⟩
  · cases h

/-- Whether a reader takes some tokens wherever they are the next ones and neither a word nor a
string literal follows. What it gives depends on where they stand alone. -/
def Takes (s : Surroundings) (reader : Reader α) (tokens : List Token) (make : Span → α) : Prop :=
  ∀ at' behind, Leads tokens at' behind → (next behind).token.isAnyWord = false →
    (next behind).token.isString = false →
    reader s (.at' at') = .done (make ⟨(next at').first, behind.offset⟩) (.at' behind)

def TakesFrom (s : Surroundings) (reader : Nat → Reader α) (tokens : List Token) (make : Span → α) : Prop :=
  ∀ start at' behind, Leads tokens at' behind → (next behind).token.isAnyWord = false →
    (next behind).token.isString = false →
    reader start s (.at' at') = .done (make ⟨start, behind.offset⟩) (.at' behind)

def EndInWord (tokens : List Token) : Prop :=
  ∃ front name escaped, tokens = front ++ [.word name escaped] ∧ ∀ token ∈ front, IsPiece token

theorem endInWord_word (name : String) (escaped : Bool) : EndInWord [.word name escaped] :=
  ⟨[], name, escaped, rfl, nofun⟩

theorem EndInWord.cons {token : Token} {tokens : List Token} (h : EndInWord tokens) (htoken : IsPiece token) :
    EndInWord (token :: tokens) := by
  obtain ⟨front, name, escaped, rfl, hfront⟩ := h
  exact ⟨token :: front, name, escaped, rfl, List.forall_mem_cons.2 ⟨htoken, hfront⟩⟩

theorem isPiece_word (name : String) (escaped : Bool) : IsPiece (.word name escaped) := .inl rfl

/-! ## Names -/

theorem exists_of_exportName {name : ExportName} (h : exportName s (.at' at') = .done name place) :
    place = .at' (next at').stop ∧
    ((∃ word escaped, (next at').token = .word word escaped ∧ name = .word word) ∨
      ∃ value, (next at').token = .string value ∧ name = .string value) := by
  obtain ⟨token, _, hahead, h⟩ := exists_of_bind h
  cases hahead
  cases htoken : (Place.at' at').ahead.token
  all_goals rw [htoken] at h
  case word word escaped =>
    cases h
    exact ⟨rfl, .inl ⟨word, escaped, htoken, rfl⟩⟩
  case string value =>
    cases h
    exact ⟨rfl, .inr ⟨value, htoken, rfl⟩⟩
  all_goals cases h

theorem exportName_of_word {name : String} {escaped : Bool} (h : (next at').token = .word name escaped) :
    exportName s (.at' at') = .done (.word name) (.at' (next at').stop) := by
  have htoken : (Place.at' at').ahead.token = .word name escaped := h
  simp [exportName, htoken]
  rfl

theorem exportName_of_string {value : Text} (h : (next at').token = .string value) :
    exportName s (.at' at') = .done (.string value) (.at' (next at').stop) := by
  have htoken : (Place.at' at').ahead.token = .string value := h
  simp [exportName, htoken]
  rfl

theorem exportName_again {name : ExportName} {other : Cursor} (h : exportName s (.at' at') = .done name place)
    (htoken : (next other).token = (next at').token) :
    exportName s (.at' other) = .done name (.at' (next other).stop) := by
  obtain ⟨-, ⟨word, escaped, hword, rfl⟩ | ⟨value, hstring, rfl⟩⟩ := exists_of_exportName h
  · exact exportName_of_word (htoken.trans hword)
  · exact exportName_of_string (htoken.trans hstring)

theorem exportName_or_not (at' : Cursor) :
    (∃ name, exportName s (.at' at') = .done name (.at' (next at').stop)) ∨
    ((next at').token.isAnyWord = false ∧ (next at').token.isString = false) := by
  cases h : (next at').token
  case word => exact .inl ⟨_, exportName_of_word h⟩
  case string => exact .inl ⟨_, exportName_of_string h⟩
  all_goals exact .inr ⟨rfl, rfl⟩

theorem boundName_of_word {name : String} {escaped : Bool} (h : (next at').token = .word name escaped) :
    boundName s (.at' at') =
      if !escaped && name == "await" && !s.ambient then
        .failed ⟨.awaitName, (next at').first⟩ (.at' (next at').stop)
      else if !escaped && Token.keywords.contains name && name != "this" then
        .failed ⟨.identifierExpected, (next at').first⟩ (.at' (next at').stop)
      else .done name (.at' (next at').stop) := by
  have htoken : (Place.at' at').ahead.token = .word name escaped := h
  unfold boundName identifier
  by_cases hawait : (!escaped && name == "await" && !s.ambient) = true
  · simp only [run_bind, run_here, run_ahead, htoken, run_advance, run_surroundings, run_ite, hawait, if_true]
    rfl
  by_cases hkeyword : (!escaped && Token.keywords.contains name && name != "this") = true
  · simp only [run_bind, run_here, run_ahead, htoken, run_advance,
      run_surroundings, run_ite, hawait, hkeyword, if_true]
    rfl
  · simp only [run_bind, run_here, run_ahead, htoken, run_advance,
      run_surroundings, run_ite, hawait, hkeyword]
    rfl

theorem exists_of_boundName {name : String} (h : boundName s (.at' at') = .done name place) :
    place = .at' (next at').stop ∧ ∃ escaped, (next at').token = .word name escaped ∧
      ∀ other, (next other).token = .word name escaped →
      boundName s (.at' other) = .done name (.at' (next other).stop) := by
  cases htoken : (next at').token
  case word word escaped =>
    rw [boundName_of_word htoken] at h
    split at h
    · cases h
    split at h
    · cases h
    rename_i hawait hkeyword
    cases h
    refine ⟨rfl, escaped, rfl, fun other hother => ?_⟩
    rw [boundName_of_word hother, if_neg hawait, if_neg hkeyword]
  all_goals
    have htoken' : (Place.at' at').ahead.token = _ := htoken
    simp [boundName, identifier, htoken', fail] at h

/-! ## Specifiers in braces -/

theorem run_takeWord (name : String) : takeWord name s place =
    if place.ahead.token.isWord name then .done true (.at' place.ahead.stop) else .done false place := by
  by_cases h : place.ahead.token.isWord name = true
  · simp [takeWord, h]
  · rw [takeWord_of_not (by simpa using h), if_neg h]

theorem eq_of_isWord {token : Token} {name : String} (h : token.isWord name = true) :
    token = .word name false := by
  cases token
  case word found escaped =>
    simp only [Token.isWord, Bool.and_eq_true, Bool.not_eq_true', beq_iff_eq] at h
    rw [h.1, h.2]
  all_goals cases h

theorem isWord_of_not_anyWord {token : Token} (h : token.isAnyWord = false) (name : String) :
    token.isWord name = false := by
  cases token
  case word => cases h
  all_goals rfl

theorem isAnyWord_of_eq {token : Token} {name : String} {escaped : Bool} (h : token = .word name escaped) :
    token.isAnyWord = true := by
  rw [h]
  rfl

/-- What stands behind the name of an import: nothing if that is a word which is bound itself, or
`as` and what is bound. -/
inductive Renames : List Token → ExportName → String → Prop
  | same {name : String} : Renames [] (.word name) name
  | other {imported : ExportName} {binding : String} {escaped : Bool} :
      Renames [.word "as" false, .word binding escaped] imported binding

theorem exists_of_renamed {start offset : Nat} {imported : ExportName}
    {typeOnly : Bool} {specifier : ImportSpecifier}
    (h : renamed start offset imported typeOnly s (.at' at') = .done specifier place) :
    ∃ tokens behind binding, place = .at' behind ∧ Leads tokens at' behind ∧ Renames tokens imported binding ∧
      specifier = .named ⟨start, behind.offset⟩ imported.text binding typeOnly ∧
      ∀ offset, TakesFrom s (renamed · offset imported typeOnly) tokens fun span =>
        .named span imported.text binding typeOnly := by
  unfold renamed at h
  rw [run_bind, run_takeWord] at h
  by_cases has : (Place.at' at').ahead.token.isWord "as" = true
  · rw [if_pos has] at h
    obtain ⟨binding, _, hbound, h⟩ := exists_of_bind (show (boundName >>= _) s _ = _ from h)
    obtain ⟨rfl, escaped, htoken, hagain⟩ := exists_of_boundName hbound
    cases h
    have has' : (next at').token = .word "as" false := eq_of_isWord has
    refine ⟨[.word "as" false, .word binding escaped], _, binding, rfl, ⟨has', htoken, rfl⟩, .other, rfl, ?_⟩
    rintro offset start other behind ⟨htoken, htoken', rfl⟩ - -
    have hother : (Place.at' other).ahead.token.isWord "as" = true := by
      have htoken : (Place.at' other).ahead.token = .word "as" false := htoken
      rw [htoken]
      rfl
    show renamed start offset imported typeOnly s (.at' other) =
      .done (.named ⟨start, _⟩ imported.text binding typeOnly) _
    unfold renamed
    rw [run_bind, run_takeWord, if_pos hother]
    have hbound' := hagain (Place.at' other).ahead.stop htoken'
    simp only [run_ite, if_true, run_bind, hbound']
    rfl
  · rw [if_neg has] at h
    cases imported with
    | string value => cases h
    | word name =>
      by_cases hreserved : (Token.keywords.contains name || Token.reserved.contains name) = true
      · simp only [Bool.false_eq_true, run_ite, if_false, hreserved, if_true, run_bind] at h
        cases h
      · simp only [Bool.false_eq_true, run_ite, if_false, hreserved, run_bind, run_lastEnd, run_pure] at h
        cases h
        refine ⟨[], at', name, rfl, rfl, .same, rfl, ?_⟩
        rintro offset start _ behind rfl hword -
        show renamed start offset (.word name) typeOnly s (.at' behind) =
          .done (.named ⟨start, _⟩ name name typeOnly) _
        unfold renamed
        have hother : (Place.at' behind).ahead.token.isWord "as" = false := isWord_of_not_anyWord hword _
        rw [run_bind, run_takeWord, hother]
        simp only [Bool.false_eq_true, run_ite, if_false, hreserved, run_bind, run_lastEnd, run_pure]
        rfl

theorem Renames.endInWord {tokens : List Token} {imported : ExportName} {binding : String} {token : Token}
    (h : Renames tokens imported binding)
    (htoken : (∃ word escaped, token = .word word escaped ∧ imported = .word word) ∨
      ∃ value, token = .string value ∧ imported = .string value) :
    EndInWord (token :: tokens) := by
  cases h with
  | same =>
    rcases htoken with ⟨word, escaped, rfl, -⟩ | ⟨value, -, heq⟩
    · exact endInWord_word _ _
    · cases heq
  | other =>
    refine ((endInWord_word _ _).cons (isPiece_word _ _)).cons ?_
    rcases htoken with ⟨word, escaped, rfl, -⟩ | ⟨value, rfl, -⟩
    · exact isPiece_word _ _
    · exact .inr (.inl rfl)

theorem exists_of_typeAsSpecifier {start : Nat} {specifier : ImportSpecifier}
    (h : typeAsSpecifier start s (.at' at') = .done specifier place) :
    ∃ tokens behind imported binding typeOnly,
    place = .at' behind ∧ Leads tokens at' behind ∧
    (∀ name escaped, EndInWord (.word name escaped :: tokens)) ∧
    specifier = .named ⟨start, behind.offset⟩ imported binding typeOnly ∧
    TakesFrom s typeAsSpecifier tokens fun span => .named span imported binding typeOnly := by
  unfold typeAsSpecifier at h
  by_cases hword : (Place.at' at').ahead.token.isAnyWord = true
  · simp only [run_bind, run_ahead, hword, if_true] at h
    rcases hbound : boundName s (.at' at') with ⟨binding, mid⟩ | ⟨fault, mid⟩
    · obtain ⟨rfl, escaped, htoken, hagain⟩ := exists_of_boundName hbound
      by_cases has : (binding == "as" && (Place.at' (next at').stop).ahead.token.isAnyWord) = true
      · simp only [hbound, has, if_true] at h
        obtain ⟨other, _, hbound', h⟩ := exists_of_bind h
        obtain ⟨rfl, escaped', htoken', hagain'⟩ := exists_of_boundName hbound'
        cases h
        refine ⟨[.word binding escaped, .word other escaped'],
          _, "as", other, true, rfl, ⟨htoken, htoken', rfl⟩,
            fun _ _ => ((endInWord_word _ _).cons (isPiece_word _ _)).cons (isPiece_word _ _), rfl, ?_⟩
        rintro start at' _ ⟨hfirst, hsecond, rfl⟩ - -
        have hfirst' : (Place.at' at').ahead.token.isAnyWord = true := isAnyWord_of_eq hfirst
        have hsecond' : (Place.at' (next at').stop).ahead.token.isAnyWord = true := isAnyWord_of_eq hsecond
        rw [Bool.and_eq_true] at has
        unfold typeAsSpecifier
        simp only [run_bind, run_ahead, hfirst', hagain _ hfirst,
          has.1, hsecond', hagain' _ hsecond, Bool.and_true, if_true]
        rfl
      · simp only [hbound, has] at h
        cases h
        refine ⟨[.word binding escaped], _, "type", binding, false, rfl, ⟨htoken, rfl⟩,
          fun _ _ => (endInWord_word _ _).cons (isPiece_word _ _), rfl, ?_⟩
        rintro start at' _ ⟨hfirst, rfl⟩ hbehind -
        have hfirst' : (Place.at' at').ahead.token.isAnyWord = true := isAnyWord_of_eq hfirst
        have hbehind' : (Place.at' (next at').stop).ahead.token.isAnyWord = false := hbehind
        unfold typeAsSpecifier
        simp only [run_bind, run_ahead, hfirst', hagain _ hfirst, hbehind', Bool.and_false, if_true]
        rfl
    · rw [hbound] at h
      cases h
  · simp only [run_bind, run_ahead, hword] at h
    cases h
    refine ⟨[], at', "as", "as", true, rfl, rfl, fun _ _ => endInWord_word _ _, rfl, ?_⟩
    rintro start _ at' rfl hbehind -
    have hbehind' : (Place.at' at').ahead.token.isAnyWord = false := hbehind
    unfold typeAsSpecifier
    simp only [run_bind, run_ahead, hbehind']
    rfl

theorem importSpecifier_of_name {imported : ExportName}
    (h : exportName s (.at' at') = .done imported (.at' (next at').stop)) (htype : imported ≠ .word "type") :
    importSpecifier s (.at' at') =
      renamed (next at').first (next at').first imported false s (.at' (next at').stop) := by
  unfold importSpecifier
  simp only [run_bind, run_here, h, run_ahead]
  rfl

section

variable {escaped : Bool} (h : (next at').token = .word "type" escaped)

include h

theorem importSpecifier_of_type (hword : (next (next at').stop).token.isAnyWord = false)
    (hstring : (next (next at').stop).token.isString = false) :
    importSpecifier s (.at' at') =
      renamed (next at').first (next at').first (.word "type") false s (.at' (next at').stop) := by
  have hword' : (Place.at' (next at').stop).ahead.token.isAnyWord = false := hword
  have hstring' : (Place.at' (next at').stop).ahead.token.isString = false := hstring
  unfold importSpecifier
  simp only [run_bind, run_here, exportName_of_word h, run_ahead, hword', hstring', run_ite, Bool.or_false,
    Bool.false_eq_true, if_false]
  rfl

theorem importSpecifier_of_typed {imported : ExportName}
    (hname : exportName s (.at' (next at').stop) = .done imported (.at' (next (next at').stop).stop))
    (has : imported ≠ .word "as") :
    importSpecifier s (.at' at') = renamed (next at').first (next (next at').stop).first imported true s
      (.at' (next (next at').stop).stop) := by
  have hpiece :
      ((Place.at' (next at').stop).ahead.token.isAnyWord ||
        (Place.at' (next at').stop).ahead.token.isString) = true := by
    obtain ⟨-, ⟨word, escaped, htoken, -⟩ | ⟨value, htoken, -⟩⟩ := exists_of_exportName hname
    · rw [show (Place.at' (next at').stop).ahead.token = .word word escaped from htoken]
      rfl
    · rw [show (Place.at' (next at').stop).ahead.token = .string value from htoken]
      rfl
  unfold importSpecifier
  simp only [run_bind, run_here, exportName_of_word h, run_ahead, hpiece, run_ite, if_true, hname]
  rfl

theorem importSpecifier_of_typeAs {escaped' : Bool}
    (has : (next (next at').stop).token = .word "as" escaped') :
    importSpecifier s (.at' at') = typeAsSpecifier (next at').first s (.at' (next (next at').stop).stop) := by
  have hword : (Place.at' (next at').stop).ahead.token.isAnyWord = true := isAnyWord_of_eq has
  unfold importSpecifier
  simp only [run_bind, run_here, exportName_of_word h, run_ahead,
    hword, run_ite, Bool.true_or, if_true, exportName_of_word has]
  rfl

end

theorem exists_of_typed {escaped : Bool} {imported : ExportName} {specifier : ImportSpecifier}
    (htoken : (next at').token = .word "type" escaped)
    (hname : exportName s (.at' (next at').stop) = .done imported (.at' (next (next at').stop).stop))
    (h : importSpecifier s (.at' at') = .done specifier place) :
    ∃ tokens behind imported binding typeOnly, place = .at' behind ∧
    Leads tokens at' behind ∧ EndInWord tokens ∧
      specifier = .named ⟨(next at').first, behind.offset⟩ imported binding typeOnly ∧
      Takes s importSpecifier tokens fun span => .named span imported binding typeOnly := by
  obtain ⟨-, hform⟩ := exists_of_exportName hname
  by_cases has : imported = .word "as"
  · obtain ⟨escaped', hsecond⟩ : ∃ escaped, (next (next at').stop).token = .word "as" escaped := by
      rcases hform with ⟨word, escaped, hsecond, heq⟩ | ⟨value, -, heq⟩
      · rw [has] at heq
        cases heq
        exact ⟨escaped, hsecond⟩
      · rw [has] at heq
        cases heq
    rw [importSpecifier_of_typeAs htoken hsecond] at h
    obtain ⟨tokens, behind, imported, binding, typeOnly, rfl, hleads, hend, rfl, htakes⟩ :=
      exists_of_typeAsSpecifier h
    refine ⟨.word "type" escaped :: .word "as" escaped' :: tokens, behind, imported, binding, typeOnly, rfl,
      ⟨htoken, hsecond, hleads⟩,
      (hend _ _).cons (isPiece_word _ _), rfl, ?_⟩
    rintro other behind ⟨hother, hother', hleads⟩ hword hstring
    rw [importSpecifier_of_typeAs hother hother']
    exact htakes _ _ _ hleads hword hstring
  · rw [importSpecifier_of_typed htoken hname has] at h
    obtain ⟨tokens, behind, binding, rfl, hleads, hrenames, rfl, htakes⟩ := exists_of_renamed h
    refine ⟨.word "type" escaped :: (next (next at').stop).token :: tokens,
      behind, imported.text, binding, true, rfl, ⟨htoken, rfl, hleads⟩,
      (hrenames.endInWord hform).cons (isPiece_word _ _), rfl, ?_⟩
    rintro other behind ⟨hother, hother', hleads⟩ hword hstring
    rw [importSpecifier_of_typed hother (exportName_again hname hother') has]
    exact htakes _ _ _ _ hleads hword hstring

/-- A specifier in braces is read from tokens that end with a word, and again wherever they are the
next ones in front of a mark. -/
theorem exists_of_importSpecifier {specifier : ImportSpecifier}
    (h : importSpecifier s (.at' at') = .done specifier place) :
    ∃ tokens behind imported binding typeOnly, place = .at' behind ∧
    Leads tokens at' behind ∧ EndInWord tokens ∧
      specifier = .named ⟨(next at').first, behind.offset⟩ imported binding typeOnly ∧
      Takes s importSpecifier tokens fun span => .named span imported binding typeOnly := by
  obtain ⟨imported, hname⟩ : ∃ imported, exportName s (.at' at') = .done imported (.at' (next at').stop) := by
    obtain ⟨_, _, hhere, h⟩ := exists_of_bind h
    cases hhere
    obtain ⟨imported, _, hname, -⟩ := exists_of_bind h
    obtain ⟨rfl, -⟩ := exists_of_exportName hname
    exact ⟨imported, hname⟩
  obtain ⟨-, hform⟩ := exists_of_exportName hname
  by_cases htype : imported = .word "type"
  · subst htype
    obtain ⟨escaped, htoken⟩ : ∃ escaped, (next at').token = .word "type" escaped := by
      rcases hform with ⟨word, escaped, htoken, heq⟩ | ⟨value, -, heq⟩
      · cases heq
        exact ⟨escaped, htoken⟩
      · cases heq
    rcases exportName_or_not (s := s) (next at').stop with ⟨imported, hname'⟩ | ⟨hword, hstring⟩
    · exact exists_of_typed htoken hname' h
    · -- The word `type` is the name itself.
      rw [importSpecifier_of_type htoken hword hstring] at h
      obtain ⟨tokens, behind, binding, rfl, hleads, hrenames, rfl, htakes⟩ := exists_of_renamed h
      cases hrenames with
      | same =>
        refine ⟨[.word "type" escaped], behind, "type", "type",
          false, rfl, ⟨htoken, hleads⟩, endInWord_word _ _, rfl, ?_⟩
        rintro other _ ⟨hother, rfl⟩ hword hstring
        rw [importSpecifier_of_type hother hword hstring]
        exact htakes _ _ _ _ rfl hword hstring
      | other =>
        rw [hleads.1] at hword
        cases hword
  · rw [importSpecifier_of_name hname htype] at h
    obtain ⟨tokens, behind, binding, rfl, hleads, hrenames, rfl, htakes⟩ := exists_of_renamed h
    refine ⟨(next at').token :: tokens, behind, imported.text,
      binding, false, rfl, ⟨rfl, hleads⟩, hrenames.endInWord hform, rfl, ?_⟩
    rintro other behind ⟨hother, hleads⟩ hword hstring
    rw [importSpecifier_of_name (exportName_again hname hother) htype]
    exact htakes _ _ _ _ hleads hword hstring

end Reader
end ClassWeave
