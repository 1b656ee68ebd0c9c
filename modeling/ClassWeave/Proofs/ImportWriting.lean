import ClassWeave.Proofs.ImportReading
import ClassWeave.Proofs.Settling
/-!
# Imports that are written anew

An import that is put together from the texts of specifiers is read as an import of these specifiers.
-/

namespace ClassWeave

open Lexeme Reader

variable {s : Surroundings} {g : Grammar} {pass pass' : Pass}

theorem ImportSpecifier.alike_moved {before after : Module} {span : Span} : ∀ {specifier : ImportSpecifier},
    after.textAt? span = some (before.textAt specifier.span) →
    Alike before after specifier (specifier.moved span)
  | .single _ _, text => .single text
  | .everything _ _, text => .everything text
  | .named _ _ _ _, text => .named text

theorem Pass.Holds.alike {specifier : ImportSpecifier} {offset : Nat} {more : Text}
    (holds : pass'.Holds offset (' ' :: (pass.textAt specifier.span ++ more))) :
    ImportSpecifier.Alike pass.module pass'.module specifier
      (specifier.moved ⟨offset + 1, offset + 1 + (pass.textAt specifier.span).byteLength⟩) :=
  ImportSpecifier.alike_moved (Pass.Holds.right (a := [' ']) holds).left.textAt?_eq

/-! ## Names in braces -/

theorem isMark_of_importSpecifier {at' : Cursor} {specifier : ImportSpecifier} {place : Place}
    (h : importSpecifier s (.at' at') = .done specifier place) (text : String) :
      (Place.at' at').ahead.token.isMark text = false := by
  obtain ⟨_, _, hhere, h⟩ := exists_of_bind h
  cases hhere
  obtain ⟨_, _, hname, -⟩ := exists_of_bind h
  obtain ⟨-, ⟨word, escaped, htoken, -⟩ | ⟨value, htoken, -⟩⟩ := exists_of_exportName hname
  · exact congrArg (Token.isMark text) htoken
  · exact congrArg (Token.isMark text) htoken

theorem importSpecifier_of_written {specifier : ImportSpecifier}
    {text more : Text} (h : specifier.IsWritten s text) (hnamed : specifier.isNamed = true)
    (ends : EndsItem more) (offset : Nat) :
    importSpecifier s (.at' ⟨' ' :: (text ++ more), offset⟩) =
      .done (specifier.moved ⟨offset + 1, offset + 1 + text.byteLength⟩)
      (.at' ⟨more, offset + 1 + text.byteLength⟩) := by
  cases h with
  | single => cases hnamed
  | everything => cases hnamed
  | named stands takes =>
    obtain ⟨hleads, hfirst⟩ := stands.leads ends.name offset
    obtain ⟨mark, hmark⟩ := ends.mark (offset + 1 + text.byteLength)
    rw [takes _ _ hleads (by rw [hmark]; rfl) (by rw [hmark]; rfl), hfirst]
    rfl

namespace ImportSpecifier

def item (pass : Pass) (specifier : ImportSpecifier) : Text × (Nat → ImportSpecifier) :=
  (pass.textAt specifier.span, fun offset =>
    specifier.moved ⟨offset + 1, offset + 1 + (pass.textAt specifier.span).byteLength⟩)

theorem readsItem {specifier : ImportSpecifier}
    (hwritten : specifier.IsWritten s (pass.textAt specifier.span)) (hnamed : specifier.isNamed = true) :
    ReadsItem s importSpecifier (specifier.item pass).1 (specifier.item pass).2 where
  done ends offset := importSpecifier_of_written hwritten hnamed ends offset
  open_brace ends offset :=
    isMark_of_importSpecifier (importSpecifier_of_written hwritten hnamed ends offset) "\x7d"

end ImportSpecifier

def namesText (pass : Pass) (specifiers : List ImportSpecifier) : Text :=
  listText ((specifiers.map (ImportSpecifier.item pass)).map Prod.fst)

theorem listText_cons : ∀ (text : Text) (rest : List Text),
    listText (text :: rest) = ' ' :: Text.joinWith ", ".toList (text :: rest)
  | _, [] => rfl
  | text, other :: rest => by
    show ' ' :: (text ++ ',' :: listText (other :: rest)) =
      ' ' :: (text ++ ", ".toList ++ Text.joinWith ", ".toList (other :: rest))
    rw [listText_cons other rest]
    simp

theorem namesText_cons (specifier : ImportSpecifier) (others : List ImportSpecifier) :
    namesText pass (specifier :: others) =
    ' ' :: Text.joinWith ", ".toList ((specifier :: others).map fun found => pass.textAt found.span) := by
  rw [namesText, List.map_map]
  exact listText_cons _ _

theorem alike_listValues : ∀ {specifiers : List ImportSpecifier} {offset : Nat} {more : Text},
    pass'.Holds offset (namesText pass specifiers ++ more) →
      List.Forall₂ (ImportSpecifier.Alike pass.module pass'.module) specifiers
        (listValues (specifiers.map (ImportSpecifier.item pass)) offset)
  | [], _, _, _ => .nil
  | [_], _, _, holds => .cons holds.alike .nil
  | specifier :: other :: rest, offset, more, holds => by
    have htext : namesText pass (specifier :: other :: rest) ++ more =
        ' ' :: (pass.textAt specifier.span ++ ',' :: (namesText pass (other :: rest) ++ more)) := by
      simp [namesText, listText, ImportSpecifier.item]
    rw [htext] at holds
    have holds' : pass'.Holds (offset + 1 + (pass.textAt specifier.span).byteLength + 1)
      (namesText pass (other :: rest) ++ more) :=
      Pass.Holds.right (a := [',']) (Pass.Holds.right (a := [' ']) holds).right
    exact .cons holds.alike (alike_listValues holds')

/-! ## The names beside a default binding -/

def ReadsNames (s : Surroundings) (g : Grammar) (pass pass' : Pass)
    (specifiers : List ImportSpecifier) (text : Text) : Prop :=
  ∀ offset more, pass'.Holds offset (' ' :: (text ++ ' ' :: more)) →
    (∃ mark ∈ ["\x7b", "*"], (next ⟨' ' :: (text ++ ' ' :: more), offset⟩).token = .mark mark) ∧
    ∃ found, importedNames g .evaluation s (.at' ⟨' ' :: (text ++ ' ' :: more), offset⟩) =
      .done found (.at' ⟨' ' :: more, offset + 1 + text.byteLength⟩) ∧
      List.Forall₂ (ImportSpecifier.Alike pass.module pass'.module) specifiers found

def bracesText (pass : Pass) (specifiers : List ImportSpecifier) : Text :=
  '\x7b' :: (namesText pass specifiers ++ [' ', '\x7d'])

theorem byteLength_bracesText (specifiers : List ImportSpecifier) :
    (bracesText pass specifiers).byteLength = 1 + ((namesText pass specifiers).byteLength + 2) := by
  rw [bracesText, Text.byteLength_cons, Text.byteLength_append]
  rfl

theorem importedNames_of_brace {at' front behind : Cursor} {found : List ImportSpecifier} {place : Place}
    (h : (next at').Is (.mark "\x7b") front behind)
    (hnames : listUntil "\x7d" importSpecifier g.budget s (.at' behind) = .done found place) :
    importedNames g .evaluation s (.at' at') = .done found place := by
  have htoken : (Place.at' at').ahead.token = .mark "\x7b" := h.token_eq
  have hstop : (Place.at' at').ahead.stop = behind := h.stop_eq
  simp [importedNames, htoken, Token.isMark, hstop, hnames]

theorem importedNames_of_star {at' behind : Cursor} {name : String} (hstar : (next at').token = .mark "*")
    (has : (next (next at').stop).token = .word "as" false)
    (hbound : boundName s (.at' (next (next at').stop).stop) = .done name (.at' behind)) :
    importedNames g .evaluation s (.at' at') =
      .done [.everything ⟨(next at').first, behind.offset⟩ name] (.at' behind) := by
  have htoken : (Place.at' at').ahead.token = .mark "*" := hstar
  have hneed : needWord "as" s (.at' (next at').stop) = .done () (.at' (next (next at').stop).stop) := by
    rw [run_needWord,
      if_pos (by rw [show (Place.at' (next at').stop).ahead.token = .word "as" false from has]; rfl)]
    rfl
  have hphase : (ImportPhase.evaluation != ImportPhase.source &&
    Token.isMark "*" (Place.at' at').ahead.token) = true := by
    rw [htoken]
    rfl
  unfold importedNames
  simp only [run_bind, run_here, run_atMark, hphase, run_ite, if_true, run_advance]
  rw [show (Place.at' at').ahead.stop = (next at').stop from rfl]
  simp only [hneed, hbound]
  rfl

theorem readsNames_of_names {specifiers : List ImportSpecifier}
    (hwritten : ∀ found ∈ specifiers, found.isNamed = true ∧ found.IsWritten s (pass.textAt found.span))
    (hbudget : specifiers.length < g.budget) :
    ReadsNames s g pass pass' specifiers (bracesText pass specifiers) := by
  intro offset more holds
  have htext : ' ' :: (bracesText pass specifiers ++ ' ' :: more) =
      ' ' :: '\x7b' :: (namesText pass specifiers ++ ' ' :: '\x7d' :: ' ' :: more) := by simp [bracesText]
  rw [htext] at holds ⊢
  have hbrace := next_mark between_space '\x7b' "\x7b" (by decide)
    (namesText pass specifiers ++ ' ' :: '\x7d' :: ' ' :: more) offset
  have holds' : pass'.Holds (offset + 2) (namesText pass specifiers ++ ' ' :: '\x7d' :: ' ' :: more) :=
    Pass.Holds.right (a := [' ', '\x7b']) holds
  have hreads : ∀ found ∈ specifiers.map (ImportSpecifier.item pass),
    ReadsItem s importSpecifier found.1 found.2 :=
    List.forall_mem_map.2 fun found hmem =>
      ImportSpecifier.readsItem (hwritten found hmem).2 (hwritten found hmem).1
  have hnames := listUntil_of_items (by rwa [List.length_map]) hreads (offset + 2) (' ' :: more)
  have hoffset : offset + 2 + (namesText pass specifiers).byteLength + 2 =
    offset + 1 + (bracesText pass specifiers).byteLength := by
    rw [byteLength_bracesText]
    omega
  rw [← hoffset]
  exact ⟨⟨_, by decide, hbrace.token_eq⟩, _, importedNames_of_brace hbrace hnames, alike_listValues holds'⟩

theorem readsNames_of_everything {specifier : ImportSpecifier} (heverything : specifier.isEverything = true)
    (hwritten : specifier.IsWritten s (pass.textAt specifier.span)) :
    ReadsNames s g pass pass' [specifier] (pass.textAt specifier.span) := by
  intro offset more holds
  cases hwritten with
  | single => cases heverything
  | named => cases heverything
  | everything stands binds =>
    obtain ⟨⟨hstar, has, hword, hbehind⟩, hfirst⟩ := stands.leads (endsName_space more) offset
    refine ⟨⟨_, by decide, hstar⟩, [_], ?_, .cons holds.alike .nil⟩
    have hbound := binds _ hword
    rw [← hbehind] at hbound
    rw [importedNames_of_star hstar has hbound, hfirst]
    rfl

/-! ## Default bindings -/

structure LeadsSingle (s : Surroundings) (at' behind : Cursor) (name : String) : Prop where
  token : ∃ escaped, (next at').token = .word name escaped ∧ (Token.word name escaped).isReference = true
  binding : boundName s (.at' at') = .done name (.at' behind)

namespace LeadsSingle

variable {at' behind : Cursor} {name : String} (h : LeadsSingle s at' behind name)

include h

theorem defaultBinding_eq : defaultBinding s (.at' at') =
    .done (.single ⟨(next at').first, behind.offset⟩ name) (.at' behind) := by
  unfold defaultBinding
  simp only [run_bind, run_here, h.binding]
  rfl

theorem importHead_of_from {source : Text} (hfrom : (next behind).token = .word "from" false)
    (hsource : (next (next behind).stop).token = .string source) :
    importHead s (.at' at') =
      .done (.binding false .evaluation (.single ⟨(next at').first, behind.offset⟩ name))
      (.at' behind) := by
  obtain ⟨escaped, htoken, href⟩ := h.token
  have htoken' : (Place.at' at').ahead.token = .word name escaped := htoken
  have hfrom' : (Place.at' behind).ahead.token = .word "from" false := hfrom
  have hsource' : (next (Place.at' behind).ahead.stop).token = .string source := hsource
  have hlist : atImportList s (.at' behind) = .done false (.at' behind) := by
    simp [atImportList, hfrom', Token.isMark]
  have hnone : typeBinding? s (.at' behind) = .done none (.at' behind) := by
    simp [typeBinding?, hfrom', hsource', Token.isMark, Token.isWord]
  have hphase : phaseBindingFollows s (.at' behind) = .done false (.at' behind) := by
    simp [phaseBindingFollows, hfrom', hsource', Token.isWord]
  unfold importHead
  by_cases htype : importHead.isNamed "type" (.single ⟨(next at').first, behind.offset⟩ name) = true
  · simp [htoken', href, h.defaultBinding_eq, hlist, hnone, htype, hphase, hfrom', Token.isMark, Token.isWord]
  · simp [htoken', href, h.defaultBinding_eq, hlist, htype, hphase, hfrom', Token.isMark, Token.isWord]

theorem importHead_of_comma {text : String} (hcomma : (next behind).token = .mark ",")
    (hmark : (next (next behind).stop).token = .mark text) :
    importHead s (.at' at') =
      .done (.binding false .evaluation (.single ⟨(next at').first, behind.offset⟩ name))
      (.at' (next behind).stop) := by
  obtain ⟨escaped, htoken, href⟩ := h.token
  have htoken' : (Place.at' at').ahead.token = .word name escaped := htoken
  have hcomma' : (Place.at' behind).ahead.token = .mark "," := hcomma
  have hmark' : (next (Place.at' behind).ahead.stop).token = .mark text := hmark
  have hlist : atImportList s (.at' behind) = .done false (.at' behind) := by
    simp [atImportList, hcomma', Token.isMark]
  have hnone : typeBinding? s (.at' behind) = .done none (.at' behind) := by
    simp [typeBinding?, hcomma', Token.isReference]
  have hphase : phaseBindingFollows s (.at' behind) = .done false (.at' behind) := by
    simp [phaseBindingFollows, hcomma', hmark', Token.isWord, Token.isReference]
  have hneed := needMark_of_eq (s := s) hcomma'
  unfold importHead
  by_cases htype : importHead.isNamed "type" (.single ⟨(next at').first, behind.offset⟩ name) = true
  · simp [htoken', href, h.defaultBinding_eq, hlist, hnone, htype,
      hphase, hcomma', hneed, Token.isMark, Token.isWord]
    rfl
  · simp [htoken', href, h.defaultBinding_eq, hlist, htype, hphase,
      hcomma', hneed, Token.isMark, Token.isWord]
    rfl

end LeadsSingle

theorem leadsSingle_of_written {specifier : ImportSpecifier} {text more : Text}
    (h : specifier.IsWritten s text) (hsingle : specifier.isSingle = true)
    (ends : EndsName more) (offset : Nat) : ∃ name,
    LeadsSingle s ⟨' ' :: (text ++ more), offset⟩ ⟨more, offset + 1 + text.byteLength⟩ name ∧
    specifier.moved ⟨offset + 1, offset + 1 + text.byteLength⟩ =
      .single ⟨(next ⟨' ' :: (text ++ more), offset⟩).first, offset + 1 + text.byteLength⟩ name := by
  cases h with
  | everything => cases hsingle
  | named => cases hsingle
  | single stands href binds =>
    obtain ⟨⟨htoken, hbehind⟩, hfirst⟩ := stands.leads ends offset
    have hbound := binds _ htoken
    rw [← hbehind] at hbound
    exact ⟨_, ⟨⟨_, htoken, href⟩, hbound⟩, by rw [hfirst]; rfl⟩

/-! ## Declarations -/

def originText (source more : Text) : Text := "from".toList ++ ' ' :: (Quoted.encode source ++ ';' :: more)

theorem next_originText (source more : Text) (offset : Nat) :
    (next ⟨' ' :: originText source more, offset⟩).token = .word "from" false ∧
    (next (next ⟨' ' :: originText source more, offset⟩).stop).token = .string source := by
  have hword : IsWord "from".toList := ⟨⟨_, _, rfl, by decide +kernel⟩, by decide +kernel⟩
  have hfrom := next_spaced "from" hword (endsName_space (Quoted.encode source ++ ';' :: more)) offset
  refine ⟨hfrom.token_eq, ?_⟩
  rw [originText, hfrom.stop_eq]
  exact (next_string between_space (.inl rfl) (Quoted.readBody_encode source (';' :: more)) _).token_eq

/-- What the names of an import are written as, one part behind another. -/
inductive IsClause (s : Surroundings) (g : Grammar) (pass pass' : Pass) :
    List Text → List ImportSpecifier → Prop
  | names {text : Text} {specifiers : List ImportSpecifier} : ReadsNames s g pass pass' specifiers text →
      IsClause s g pass pass' [text] specifiers
  | single {specifier : ImportSpecifier} :
      specifier.isSingle = true → specifier.IsWritten s (pass.textAt specifier.span) →
      IsClause s g pass pass' [pass.textAt specifier.span] [specifier]
  | both {specifier : ImportSpecifier} {text : Text} {specifiers : List ImportSpecifier} :
      specifier.isSingle = true →
      specifier.IsWritten s (pass.textAt specifier.span) → ReadsNames s g pass pass' specifiers text →
      IsClause s g pass pass' [pass.textAt specifier.span, text] (specifier :: specifiers)

def importText (clause : List Text) (source more : Text) : Text :=
  ' ' :: (Text.joinWith ", ".toList clause ++ ' ' :: originText source more)

theorem declaration_of_names {phase : ImportPhase} {front others : List ImportSpecifier}
    {start offset : Nat} {place : Place} {source more : Text}
    (hnames : importedNames g phase s place = .done others (.at' ⟨' ' :: originText source more, offset⟩)) :
    importDeclaration.declaration g start false phase front s place =
      .done (.mk (.importDeclaration ⟨false, front ++ others, source⟩)
        ⟨start, offset + 7 + (Quoted.encode source).byteLength⟩ [])
        (.at' ⟨more, offset + 7 + (Quoted.encode source).byteLength⟩) := by
  have hsource := sourceClause_of_text (s := s) (g := g) source more offset
  unfold importDeclaration.declaration
  simp only [run_bind, hnames]
  rw [show (' ' :: originText source more) =
    ' ' :: ("from".toList ++ ' ' :: (Quoted.encode source ++ ';' :: more)) from rfl,
    hsource]
  rfl

theorem importDeclaration_of_not_string {at' : Cursor} {start : Nat}
    (hnot : (next at').token.isString = false) :
    importDeclaration g start s (.at' at') = (importHead >>= fun head => match head with
      | .alias => importAlias g start
      | .bare typeOnly phase => importDeclaration.declaration g start typeOnly phase []
      | .binding typeOnly phase single =>
          importDeclaration.declaration g start typeOnly phase [single]) s (.at' at') := by
  unfold importDeclaration
  rw [run_bind, run_ahead]
  cases htoken : (Place.at' at').ahead.token
  case string source =>
    rw [show (next at').token = .string source from htoken] at hnot
    cases hnot
  all_goals rfl

theorem importDeclaration_of_names {at' : Cursor} {start offset : Nat}
    {text : String} {found : List ImportSpecifier} {source more : Text}
    (hmark : (next at').token = .mark text)
    (hnames : importedNames g .evaluation s (.at' at') =
      .done found (.at' ⟨' ' :: originText source more, offset⟩)) :
    importDeclaration g start s (.at' at') =
      .done (.mk (.importDeclaration ⟨false, found, source⟩)
        ⟨start, offset + 7 + (Quoted.encode source).byteLength⟩ [])
        (.at' ⟨more, offset + 7 + (Quoted.encode source).byteLength⟩) := by
  have htoken : (Place.at' at').ahead.token = .mark text := hmark
  have hhead : importHead s (.at' at') = .done (.bare false .evaluation) (.at' at') := by
    simp [importHead, htoken, Token.isReference]
  rw [importDeclaration_of_not_string (by rw [hmark]; rfl), run_bind, hhead]
  exact declaration_of_names hnames

theorem LeadsSingle.importDeclaration_eq {at' behind behind' : Cursor} {name : String} {start offset : Nat}
    {others : List ImportSpecifier}
    {source more : Text} (h : LeadsSingle s at' behind name)
    (hhead : importHead s (.at' at') =
      .done (.binding false .evaluation (.single ⟨(next at').first, behind.offset⟩ name))
      (.at' behind'))
    (hnames : importedNames g .evaluation s (.at' behind') =
      .done others (.at' ⟨' ' :: originText source more, offset⟩)) :
    importDeclaration g start s (.at' at') =
      .done
      (.mk (.importDeclaration ⟨false, .single ⟨(next at').first, behind.offset⟩ name :: others, source⟩)
        ⟨start, offset + 7 + (Quoted.encode source).byteLength⟩ [])
        (.at' ⟨more, offset + 7 + (Quoted.encode source).byteLength⟩) := by
  obtain ⟨escaped, htoken, -⟩ := h.token
  rw [importDeclaration_of_not_string (by rw [htoken]; rfl), run_bind, hhead]
  exact declaration_of_names hnames

theorem importedNames_of_not_mark {phase : ImportPhase} {at' : Cursor}
    (h : ∀ text, (next at').token.isMark text = false) :
    importedNames g phase s (.at' at') = .done [] (.at' at') := by
  have hmark : ∀ text, (Place.at' at').ahead.token.isMark text = false := h
  simp [importedNames, hmark]

theorem LeadsSingle.not_mark {at' behind : Cursor} {name : String} (h : LeadsSingle s at' behind name) :
    ∀ text ∈ ["(", "."], (next at').token.isMark text = false := by
  obtain ⟨escaped, htoken, -⟩ := h.token
  exact fun text _ => congrArg (Token.isMark text) htoken

theorem importDeclaration_of_clause (start : Nat) {clause : List Text} {specifiers : List ImportSpecifier}
    (h : IsClause s g pass pass' clause specifiers) {offset : Nat} {source more : Text}
    (holds : pass'.Holds offset (importText clause source more)) :
    (∀ text ∈ ["(", "."], (next ⟨importText clause source more, offset⟩).token.isMark text = false) ∧
    ∃ found, importDeclaration g start s (.at' ⟨importText clause source more, offset⟩) =
      .done (.mk (.importDeclaration ⟨false, found, source⟩)
        ⟨start, offset + 1 + (Text.joinWith ", ".toList clause).byteLength +
          7 + (Quoted.encode source).byteLength⟩ [])
        (.at' ⟨more, offset + 1 + (Text.joinWith ", ".toList clause).byteLength +
          7 + (Quoted.encode source).byteLength⟩) ∧
      List.Forall₂ (ImportSpecifier.Alike pass.module pass'.module) specifiers found := by
  cases h with
  | @names text _ hreads =>
    obtain ⟨⟨mark, hmem, hmark⟩, found, hnames, halike⟩ := hreads offset (originText source more) holds
    have hother : ∀ mark ∈ ["\x7b", "*"], ∀ other ∈ ["(", "."],
      (Token.mark mark).isMark other = false := by decide
    exact ⟨fun other hmem' =>
      (congrArg (Token.isMark other) hmark).trans (hother mark hmem other hmem'), found,
      importDeclaration_of_names hmark hnames, halike⟩
  | @single specifier hsingle hwritten =>
    obtain ⟨hfrom, hsource⟩ :=
      next_originText source more (offset + 1 + (pass.textAt specifier.span).byteLength)
    obtain ⟨name, hleads, hmoved⟩ :=
      leadsSingle_of_written hwritten hsingle (endsName_space (originText source more)) offset
    have hnames : importedNames g .evaluation s
        (.at' ⟨' ' :: originText source more, offset + 1 + (pass.textAt specifier.span).byteLength⟩)
          = .done [] _ :=
      importedNames_of_not_mark (fun text => congrArg (Token.isMark text) hfrom)
    have hsame := holds.alike
    rw [hmoved] at hsame
    exact ⟨hleads.not_mark, _, hleads.importDeclaration_eq (hleads.importHead_of_from hfrom hsource) hnames,
      .cons hsame .nil⟩
  | @both specifier text specifiers hsingle hwritten hreads =>
    have htext : importText [pass.textAt specifier.span, text] source more =
        ' ' :: (pass.textAt specifier.span ++ ',' :: ' ' :: (text ++ ' ' :: originText source more)) := by
      simp [importText, Text.joinWith]
    have hends : EndsName (',' :: ' ' :: (text ++ ' ' :: originText source more)) :=
      (endsItem_of_mark between_nil ',' "," (by decide) (by decide +kernel) _).name
    rw [htext] at holds ⊢
    have holds' : pass'.Holds (offset + 1 + (pass.textAt specifier.span).byteLength + 1)
      (' ' :: (text ++ ' ' :: originText source more)) :=
      Pass.Holds.right (a := [',']) (Pass.Holds.right (a := [' ']) holds).right
    obtain ⟨⟨mark, -, hmark⟩, found, hnames, halike⟩ := hreads _ _ holds'
    obtain ⟨name, hleads, hmoved⟩ := leadsSingle_of_written hwritten hsingle hends offset
    have hcomma := next_mark between_nil ',' "," (by decide) (' ' :: (text ++ ' ' :: originText source more))
      (offset + 1 + (pass.textAt specifier.span).byteLength)
    have hstop : (next ⟨',' :: ' ' :: (text ++ ' ' :: originText source more),
          offset + 1 + (pass.textAt specifier.span).byteLength⟩).stop =
        ⟨' ' :: (text ++ ' ' :: originText source more),
          offset + 1 + (pass.textAt specifier.span).byteLength + 1⟩ :=
      hcomma.stop_eq
    have hhead := hleads.importHead_of_comma hcomma.token_eq (hstop.symm ▸ hmark)
    have hlength : (Text.joinWith ", ".toList [pass.textAt specifier.span, text]).byteLength =
        (pass.textAt specifier.span).byteLength + (2 + text.byteLength) := by
      have hcomma : (',' : Char).utf8Size = 1 := rfl
      have hspace : (' ' : Char).utf8Size = 1 := rfl
      simp [Text.joinWith, hcomma, hspace]
      omega
    have hoffset : offset + 1 + (Text.joinWith ", ".toList [pass.textAt specifier.span, text]).byteLength =
        offset + 1 + (pass.textAt specifier.span).byteLength + 1 + 1 + text.byteLength := by omega
    have hsame := holds.alike
    rw [hmoved] at hsame
    rw [hoffset]
    exact ⟨hleads.not_mark, _, hleads.importDeclaration_eq hhead (hstop.symm ▸ hnames), .cons hsame halike⟩

end ClassWeave
