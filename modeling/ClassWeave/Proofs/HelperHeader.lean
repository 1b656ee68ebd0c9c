import ClassWeave.Helper.Transform
import ClassWeave.Proofs.Quoting
import ClassWeave.Proofs.StatementReading
/-!
# Imports of helpers

An import of helpers under any names, how it is written and what it is read as.
-/

namespace ClassWeave

structure Alias where
  name : String
  word : Lexeme.IsWord name.toList
  bindable : name ∉ Token.keywords
  ne_await : name ≠ "await"

structure HelperSpecifier where
  helper : Helper
  compiled : helper.isCompiled = true
  alias? : Option Alias

namespace HelperSpecifier

def binding (specifier : HelperSpecifier) : String :=
  (specifier.alias?.map Alias.name).getD specifier.helper.name

def asClause (specifier : HelperSpecifier) : Text :=
  match specifier.alias? with
  | some local' => ' ' :: ("as".toList ++ ' ' :: local'.name.toList)
  | none => []

def text (specifier : HelperSpecifier) : Text := specifier.helper.name.toList ++ specifier.asClause

def read (specifier : HelperSpecifier) (offset : Nat) : ImportSpecifier :=
  .named ⟨offset, offset + specifier.text.byteLength⟩ specifier.helper.name specifier.binding false

def list : List HelperSpecifier → Text
  | [] => []
  | [specifier] => ' ' :: specifier.text
  | specifier :: rest => ' ' :: (specifier.text ++ ',' :: list rest)

theorem length_le_list : ∀ specifiers : List HelperSpecifier, specifiers.length ≤ (list specifiers).length
  | [] => Nat.le_refl _
  | [specifier] => Nat.succ_le_succ (Nat.zero_le _)
  | specifier :: next :: rest => by
    have ih := length_le_list (next :: rest)
    have hlist : list (specifier :: next :: rest) =
      ' ' :: (specifier.text ++ ',' :: list (next :: rest)) := by simp [list]
    rw [hlist]
    simp only [List.length_cons, List.length_append] at ih ⊢
    omega

def readAll : List HelperSpecifier → Nat → List ImportSpecifier
  | [], _ => []
  | specifier :: rest, offset =>
    specifier.read (offset + 1) :: readAll rest (offset + 1 + specifier.text.byteLength + 1)

end HelperSpecifier

/-- An import of compiled helpers. -/
structure HelperImport where
  specifiers : List HelperSpecifier
  source : Text

namespace HelperImport

def text (header : HelperImport) : Text :=
  "import".toList ++ ' ' :: '{' ::
    (HelperSpecifier.list header.specifiers ++ ' ' :: '}' :: ' ' :: ("from".toList ++
    ' ' :: (Quoted.encode header.source ++ [';'])))

def aliases (header : HelperImport) : Aliases :=
  (header.specifiers.map fun specifier => (specifier.binding, specifier.helper)).reverse

def declaration (header : HelperImport) : ImportDeclaration :=
  ⟨false, HelperSpecifier.readAll header.specifiers 8, header.source⟩

def node (header : HelperImport) : Node :=
  .mk (.importDeclaration header.declaration) ⟨0, header.text.byteLength⟩ []

end HelperImport

/-! ## Reading -/

open Lexeme Reader

variable {s : Surroundings}

structure EndsItem (more : Text) : Prop where
  name : EndsName more
  mark : ∀ offset, ∃ text, (next ⟨more, offset⟩).token = .mark text

theorem endsItem_of_mark {gap : Text} (between : Between gap)
    (c : Char) (text : String) (h : (c, text) ∈ loneMarks)
    (hends : IdentifierTable.isPart c = false ∧ c ≠ '\\') (rest : Text) : EndsItem (gap ++ c :: rest) := by
  constructor
  · cases gap with
    | nil =>
      intro d hd
      obtain rfl : c = d := Option.some.inj hd
      exact hends
    | cons d gap => exact between.apart
  · exact fun offset => ⟨text, (next_mark between c text h rest offset).token_eq⟩

section

variable {α : Type} {item : Reader α}

structure ReadsItem (s : Surroundings) (item : Reader α) (text : Text) (value : Nat → α) : Prop where
  done : ∀ {more : Text}, EndsItem more → ∀ offset, item s (.at' ⟨' ' :: (text ++ more), offset⟩) =
    .done (value offset) (.at' ⟨more, offset + 1 + text.byteLength⟩)
  open_brace : ∀ {more : Text}, EndsItem more → ∀ offset,
    (Place.at' ⟨' ' :: (text ++ more), offset⟩).ahead.token.isMark "\x7d" = false

def listText : List Text → Text
  | [] => []
  | [text] => ' ' :: text
  | text :: rest => ' ' :: (text ++ ',' :: listText rest)

def listValues : List (Text × (Nat → α)) → Nat → List α
  | [], _ => []
  | (text, value) :: rest, offset => value offset :: listValues rest (offset + 1 + text.byteLength + 1)

theorem byteLength_listText_cons (text next : Text) (rest : List Text) :
    (listText (text :: next :: rest)).byteLength =
      1 + text.byteLength + 1 + (listText (next :: rest)).byteLength := by
  have hspace : (' ' : Char).utf8Size = 1 := rfl
  have hcomma : (',' : Char).utf8Size = 1 := rfl
  have hlist : listText (text :: next :: rest) = ' ' :: (text ++ ',' :: listText (next :: rest)) := by
    simp [listText]
  rw [hlist]
  simp only [Text.byteLength_append, Text.byteLength_cons, hspace, hcomma]
  omega

theorem listUntil_of_items : ∀ {items : List (Text × (Nat → α))} {fuel : Nat}, items.length < fuel →
    (∀ found ∈ items, ReadsItem s item found.1 found.2) → ∀ (offset : Nat) (rest : Text),
      listUntil "\x7d" item fuel s (.at' ⟨listText (items.map Prod.fst) ++ ' ' :: '\x7d' :: rest, offset⟩) =
        .done (listValues items offset) (.at' ⟨rest, offset + (listText (items.map Prod.fst)).byteLength + 2⟩)
  | _, 0, hfuel, _, _, _ => absurd hfuel (Nat.not_lt_zero _)
  | [], fuel + 1, _, _, offset, rest => by
    have htake : takeMark "\x7d" s (.at' ⟨' ' :: '\x7d' :: rest, offset⟩) =
      .done true (.at' ⟨rest, offset + 2⟩) :=
      takeMark_of_next (next_mark between_space _ _ (by decide) rest offset)
    rw [List.map_nil, listText, List.nil_append, listUntil, run_bind, htake]
    rfl
  | [(text, value)], fuel + 1, _, hreads, offset, rest => by
    have reads := hreads _ (List.mem_singleton_self _)
    have ends : EndsItem (' ' :: '\x7d' :: rest) :=
      endsItem_of_mark between_space '\x7d' "\x7d" (by decide) (by decide +kernel) rest
    have hopen := takeMark_of_not (s := s) (reads.open_brace ends offset)
    have hitem := reads.done ends offset
    have htake : takeMark "\x7d" s (.at' ⟨' ' :: '\x7d' :: rest, offset + 1 + text.byteLength⟩) =
        .done true (.at' ⟨rest, offset + 1 + text.byteLength + 2⟩) :=
      takeMark_of_next (next_mark between_space _ _ (by decide) rest _)
    have hoffset : offset + (listText [text]).byteLength = offset + 1 + text.byteLength := by
      have hspace : (' ' : Char).utf8Size = 1 := rfl
      rw [listText, Text.byteLength_cons, hspace]
      omega
    show listUntil "\x7d" item (fuel + 1) s (.at' ⟨' ' :: (text ++ ' ' :: '\x7d' :: rest), offset⟩) =
      .done _ (.at' ⟨rest, offset + (listText [text]).byteLength + 2⟩)
    rw [hoffset, listUntil]
    simp only [run_bind, hopen, run_ite, hitem, htake, run_pure, Bool.false_eq_true, if_false, if_true]
    rfl
  | (text, value) :: next :: items, fuel + 1, hfuel, hreads, offset, rest => by
    obtain ⟨reads, hreads⟩ := List.forall_mem_cons.1 hreads
    have ends : EndsItem (',' :: (listText ((next :: items).map Prod.fst) ++ ' ' :: '\x7d' :: rest)) :=
      endsItem_of_mark between_nil ',' "," (by decide) (by decide +kernel) _
    have hopen := takeMark_of_not (s := s) (reads.open_brace ends offset)
    have hitem := reads.done ends offset
    have found := next_mark between_nil ',' "," (by decide)
      (listText ((next :: items).map Prod.fst) ++ ' ' :: '\x7d' :: rest)
      (offset + 1 + text.byteLength)
    have hnot := takeMark_of_not (s := s) (isMark_of_next found "\x7d")
    have hneed := needMark_of_next (s := s) found
    have hrest :=
      listUntil_of_items (Nat.lt_of_succ_lt_succ hfuel) hreads (offset + 1 + text.byteLength + 1) rest
    have htext : listText (((text, value) :: next :: items).map Prod.fst) ++ ' ' :: '\x7d' :: rest =
        ' ' :: (text ++ ',' :: (listText ((next :: items).map Prod.fst) ++ ' ' :: '\x7d' :: rest)) := by
      simp [listText]
    have hlength := byteLength_listText_cons text next.1 (items.map Prod.fst)
    rw [htext, listUntil]
    simp only [List.nil_append, Text.byteLength_nil, Nat.add_zero] at hneed hnot
    simp only [run_bind, hopen, run_ite, hitem, hnot, hneed, hrest, run_pure, Bool.false_eq_true, if_false]
    exact congrArg (fun offset => Outcome.done _ (.at' ⟨rest, offset⟩))
      (by simp only [List.map_cons] at hlength ⊢; omega)

end

structure EndsSpecifier (more : Text) : Prop where
  name : EndsName more
  word : ∀ offset name, (next ⟨more, offset⟩).token.isWord name = false

theorem EndsItem.endsSpecifier {more : Text} (h : EndsItem more) : EndsSpecifier more := by
  refine ⟨h.name, fun offset name => ?_⟩
  obtain ⟨text, htext⟩ := h.mark offset
  rw [htext]
  rfl

theorem isWord_helper (helper : Helper) : IsWord helper.name.toList := by
  cases helper
  all_goals exact ⟨⟨_, _, rfl, by decide +kernel⟩, by decide +kernel⟩

theorem next_spaced (name : String) (hname : IsWord name.toList)
    {rest : Text} (ends : EndsName rest) (offset : Nat) :
    (next ⟨' ' :: (name.toList ++ rest), offset⟩).Is (.word name false) ⟨name.toList ++ rest, offset + 1⟩
      ⟨rest, offset + 1 + Text.byteLength name.toList⟩ := by
  have found := next_word between_space hname ends offset
  rwa [String.ofList_toList] at found

theorem exportName_of_next {name : String} {cursor front behind : Cursor}
    (h : (next cursor).Is (.word name false) front behind) :
    exportName s (.at' cursor) = .done (.word name) (.at' behind) := by
  have htoken : (Place.at' cursor).ahead.token = .word name false := h.token_eq
  have hstop : (Place.at' cursor).ahead.stop = behind := h.stop_eq
  simp [exportName, htoken, hstop]

theorem boundName_of_next {name : String} {cursor front behind : Cursor}
    (h : (next cursor).Is (.word name false) front behind) (hkeyword : name ∉ Token.keywords)
    (hawait : name ≠ "await") :
    boundName s (.at' cursor) = .done name (.at' behind) := by
  have htoken : (Place.at' cursor).ahead.token = .word name false := h.token_eq
  have hstop : (Place.at' cursor).ahead.stop = behind := h.stop_eq
  simp [boundName, identifier_of_word htoken hkeyword hawait, Node.shape, hstop]

theorem importSpecifier_of_helper {cursor front behind : Cursor} {helper : Helper}
    (h : (next cursor).Is (.word helper.name false) front behind) :
    importSpecifier s (.at' cursor) =
      renamed front.offset front.offset (.word helper.name) false s (.at' behind) := by
  have hfirst : (Place.at' cursor).ahead.first = front.offset := h.first_eq
  unfold importSpecifier
  simp only [run_bind, run_here, hfirst, exportName_of_next h, run_ahead]
  cases helper
  all_goals rfl

theorem importSpecifier_of_specifier (specifier : HelperSpecifier)
    {more : Text} (hmore : EndsSpecifier more) (offset : Nat) :
    importSpecifier s (.at' ⟨' ' :: (specifier.text ++ more), offset⟩) =
      .done (specifier.read (offset + 1)) (.at' ⟨more, offset + 1 + specifier.text.byteLength⟩) := by
  obtain ⟨helper, compiled, alias?⟩ := specifier
  cases alias? with
  | none =>
    have found := next_spaced _ (isWord_helper helper) hmore.name offset
    have hnot : takeWord "as" s (.at' ⟨more, offset + 1 + Text.byteLength helper.name.toList⟩) =
      .done false _ :=
      takeWord_of_not (hmore.word _ _)
    have hkeyword : helper.name ∉ Token.keywords ∧ helper.name ∉ Token.reserved := by cases helper <;> decide
    simp only [HelperSpecifier.text, HelperSpecifier.asClause, List.append_nil]
    rw [importSpecifier_of_helper found]
    simp [renamed, hnot, hkeyword, HelperSpecifier.read, HelperSpecifier.text, HelperSpecifier.asClause,
      HelperSpecifier.binding]
  | some local' =>
    have found := next_spaced _ (isWord_helper helper)
      (endsName_space ("as".toList ++ ' ' :: (local'.name.toList ++ more))) offset
    have hword : IsWord "as".toList := ⟨⟨_, _, rfl, by decide +kernel⟩, by decide +kernel⟩
    have hname := next_spaced "as" hword (endsName_space (local'.name.toList ++ more))
      (offset + 1 + Text.byteLength helper.name.toList)
    have hlocal := next_spaced _ local'.word hmore.name
      (offset + 1 + Text.byteLength helper.name.toList + 1 + Text.byteLength "as".toList)
    have htext : ' ' :: ((⟨helper, compiled, some local'⟩ : HelperSpecifier).text ++ more) =
        ' ' :: (helper.name.toList ++ ' ' :: ("as".toList ++ ' ' :: (local'.name.toList ++ more))) := by
      simp [HelperSpecifier.text, HelperSpecifier.asClause]
    rw [htext, importSpecifier_of_helper found]
    have htake := takeWord_of_next (s := s) hname
    have hbound := boundName_of_next (s := s) hlocal local'.bindable local'.ne_await
    simp only [renamed, run_bind, htake, run_ite, if_true, hbound,
      run_lastEnd, run_pure, Place.lastEnd_at', HelperSpecifier.read, HelperSpecifier.text,
      HelperSpecifier.asClause, HelperSpecifier.binding, Text.byteLength_append, Text.byteLength_cons]
    have hspaceSize : (' ' : Char).utf8Size = 1 := rfl
    have hoffset :
        offset + 1 + (Text.byteLength helper.name.toList + (' '.utf8Size + (Text.byteLength "as".toList +
          (' '.utf8Size + Text.byteLength local'.name.toList)))) =
          offset + 1 + Text.byteLength helper.name.toList + 1 + Text.byteLength "as".toList + 1 +
            Text.byteLength local'.name.toList := by omega
    rw [hoffset]
    rfl

theorem text_append (specifier : HelperSpecifier) (more : Text) :
    specifier.text ++ more = specifier.helper.name.toList ++ (specifier.asClause ++ more) :=
  List.append_assoc ..

theorem isMark_specifier (specifier : HelperSpecifier) {more : Text}
    (hmore : EndsName more) (offset : Nat) (text : String) :
    (Place.at' ⟨' ' :: (specifier.text ++ more), offset⟩).ahead.token.isMark text = false := by
  have hends : EndsName (specifier.asClause ++ more) := by
    unfold HelperSpecifier.asClause
    split
    · exact endsName_space _
    · exact hmore
  rw [text_append]
  have htoken :
      (Place.at' ⟨' ' :: (specifier.helper.name.toList ++ (specifier.asClause ++ more)),
        offset⟩).ahead.token = .word specifier.helper.name false :=
    (next_spaced _ (isWord_helper specifier.helper) hends offset).token_eq
  rw [htoken]
  rfl

namespace HelperSpecifier

def item (specifier : HelperSpecifier) : Text × (Nat → ImportSpecifier) :=
  (specifier.text, fun offset => specifier.read (offset + 1))

theorem readsItem (specifier : HelperSpecifier) :
    ReadsItem s importSpecifier specifier.item.1 specifier.item.2 where
  done hmore offset := importSpecifier_of_specifier specifier hmore.endsSpecifier offset
  open_brace hmore offset := isMark_specifier specifier hmore.name offset "\x7d"

theorem listText_items :
    ∀ specifiers : List HelperSpecifier, listText ((specifiers.map item).map Prod.fst) = list specifiers
  | [] => rfl
  | [_] => rfl
  | specifier :: next :: rest =>
      congrArg (fun more => ' ' :: (specifier.text ++ ',' :: more)) (listText_items (next :: rest))

theorem listValues_items : ∀ (specifiers : List HelperSpecifier) (offset : Nat),
    listValues (specifiers.map item) offset = readAll specifiers offset
  | [], _ => rfl
  | specifier :: rest, offset => congrArg (specifier.read (offset + 1) :: ·) (listValues_items rest _)

end HelperSpecifier

theorem listUntil_of_specifiers {specifiers : List HelperSpecifier}
    {fuel : Nat} (hfuel : specifiers.length < fuel) (offset : Nat) (rest : Text) :
    listUntil "\x7d" importSpecifier fuel s
      (.at' ⟨HelperSpecifier.list specifiers ++ ' ' :: '\x7d' :: rest, offset⟩) =
      .done (HelperSpecifier.readAll specifiers offset)
        (.at' ⟨rest, offset + (HelperSpecifier.list specifiers).byteLength + 2⟩) := by
  have hreads : ∀ found ∈ specifiers.map HelperSpecifier.item, ReadsItem s importSpecifier found.1 found.2 :=
    List.forall_mem_map.2 fun specifier _ => specifier.readsItem
  have hlength : (specifiers.map HelperSpecifier.item).length < fuel := by rwa [List.length_map]
  have hlist := listUntil_of_items hlength hreads offset rest
  rwa [HelperSpecifier.listText_items, HelperSpecifier.listValues_items] at hlist

theorem sourceClause_of_text {g : Grammar} (source more : Text) (offset : Nat) :
    sourceClause g s (.at' ⟨' ' :: ("from".toList ++ ' ' :: (Quoted.encode source ++ ';' :: more)), offset⟩) =
      .done (source, []) (.at' ⟨more, offset + 7 + (Quoted.encode source).byteLength⟩) := by
  have hword : IsWord "from".toList := ⟨⟨_, _, rfl, by decide +kernel⟩, by decide +kernel⟩
  have hfrom :
      needWord "from" s
        (.at' ⟨' ' :: ("from".toList ++ ' ' :: (Quoted.encode source ++ ';' :: more)), offset⟩) =
        .done () (.at' ⟨' ' :: (Quoted.encode source ++ ';' :: more), offset + 5⟩) :=
    needWord_of_next (next_spaced "from" hword (endsName_space _) offset)
  have found :=
    next_string between_space (.inl rfl) (Quoted.readBody_encode source (';' :: more)) (offset + 5)
  have hstring : (Place.at' ⟨' ' :: (Quoted.encode source ++ ';' :: more), offset + 5⟩).ahead.token =
    .string source :=
    found.token_eq
  have hstop : (Place.at' ⟨' ' :: (Quoted.encode source ++ ';' :: more), offset + 5⟩).ahead.stop =
      ⟨';' :: more, offset + 6 + (Quoted.encode source).byteLength⟩ := found.stop_eq
  have hsource : moduleSource s (.at' ⟨' ' :: (Quoted.encode source ++ ';' :: more), offset + 5⟩) =
      .done source (.at' ⟨';' :: more, offset + 6 + (Quoted.encode source).byteLength⟩) := by
    simp [moduleSource, hstring, hstop]
  have hsemicolon := next_mark between_nil ';' ";" (by decide) more
    (offset + 6 + (Quoted.encode source).byteLength)
  have htoken :
      (Place.at' ⟨';' :: more, offset + 6 + (Quoted.encode source).byteLength⟩).ahead.token = .mark ";" :=
    hsemicolon.token_eq
  have hattributes :
      exchangeAttributes g s (.at' ⟨';' :: more, offset + 6 + (Quoted.encode source).byteLength⟩) =
        .done [] (.at' ⟨';' :: more, offset + 6 + (Quoted.encode source).byteLength⟩) := by
    simp [exchangeAttributes, htoken, Token.isWord]
  have hend : endStatement s (.at' ⟨';' :: more, offset + 6 + (Quoted.encode source).byteLength⟩) =
      .done () (.at' ⟨more, offset + 6 + (Quoted.encode source).byteLength + 1⟩) := by
    have htake : takeMark ";" s (.at' ⟨';' :: more, offset + 6 + (Quoted.encode source).byteLength⟩) =
        .done true (.at' ⟨more, offset + 6 + (Quoted.encode source).byteLength + 1⟩) :=
      takeMark_of_next hsemicolon
    simp [endStatement, takeStatementEnd, htake]
  rw [sourceClause]
  simp only [run_bind, hfrom, hsource, hattributes, hend, run_pure]
  exact congrArg (fun offset => Outcome.done _ (.at' ⟨more, offset⟩)) (by omega)

namespace HelperImport

def origin (header : HelperImport) (more : Text) : Text :=
  ' ' :: ("from".toList ++ ' ' :: (Quoted.encode header.source ++ ';' :: more))

def clause (header : HelperImport) (more : Text) : Text :=
  ' ' :: '\x7b' :: (HelperSpecifier.list header.specifiers ++ ' ' :: '\x7d' :: header.origin more)

theorem text_append (header : HelperImport) (more : Text) :
    header.text ++ more = "import".toList ++ header.clause more := by
  simp [text, clause, origin]

theorem byteLength_text (header : HelperImport) : header.text.byteLength =
    8 + (HelperSpecifier.list header.specifiers).byteLength +
      2 + 7 + (Quoted.encode header.source).byteLength := by
  have himport : Text.byteLength "import".toList = 6 := rfl
  have hfrom : Text.byteLength "from".toList = 4 := rfl
  have hsize : (' ' : Char).utf8Size = 1 ∧ ('\x7b' : Char).utf8Size = 1 ∧ ('\x7d' : Char).utf8Size = 1 ∧
    (';' : Char).utf8Size = 1 := ⟨rfl, rfl, rfl, rfl⟩
  simp only [text, Text.byteLength_append, Text.byteLength_cons, Text.byteLength_nil, himport, hfrom, hsize]
  omega

theorem length_specifiers_le (header : HelperImport) (more : Text) :
    header.specifiers.length ≤ (header.text ++ more).length := by
  have hlist := HelperSpecifier.length_le_list header.specifiers
  rw [text_append]
  simp only [clause, List.length_append, List.length_cons]
  omega

theorem plain_text (header : HelperImport) (more : Text) : Module.Plain (header.text ++ more) := by
  intro c hc
  rw [text_append] at hc
  obtain rfl : 'i' = c := Option.some.inj hc
  decide

end HelperImport

theorem importDeclaration_of_header (header : HelperImport) {g : Grammar}
    (hbudget : header.specifiers.length < g.budget) (more : Text) :
    importDeclaration g 0 s (.at' ⟨header.clause more, 6⟩) =
      .done header.node (.at' ⟨more, header.text.byteLength⟩) := by
  have hbrace := next_mark between_space '\x7b' "\x7b" (by decide)
    (HelperSpecifier.list header.specifiers ++ ' ' :: '\x7d' :: header.origin more) 6
  have htoken : (Place.at' ⟨header.clause more, 6⟩).ahead.token = .mark "\x7b" := hbrace.token_eq
  have hstop : (Place.at' ⟨header.clause more, 6⟩).ahead.stop =
      ⟨HelperSpecifier.list header.specifiers ++ ' ' :: '\x7d' :: header.origin more, 8⟩ := hbrace.stop_eq
  have hspecifiers := listUntil_of_specifiers (s := s) hbudget 8 (header.origin more)
  have hsource : sourceClause g s
      (.at' ⟨header.origin more, 8 + (HelperSpecifier.list header.specifiers).byteLength + 2⟩) =
      .done (header.source, []) (.at' ⟨more, header.text.byteLength⟩) := by
    rw [header.byteLength_text]
    exact sourceClause_of_text header.source more _
  have hhead : importHead s (.at' ⟨header.clause more, 6⟩) =
      .done (.bare false .evaluation) (.at' ⟨header.clause more, 6⟩) := by
    simp [importHead, htoken, Token.isReference]
  have hnames : importedNames g .evaluation s (.at' ⟨header.clause more, 6⟩) =
      .done (HelperSpecifier.readAll header.specifiers 8)
        (.at' ⟨header.origin more, 8 + (HelperSpecifier.list header.specifiers).byteLength + 2⟩) := by
    simp [importedNames, htoken, Token.isMark, hstop, hspecifiers]
  unfold importDeclaration importDeclaration.declaration
  simp [htoken, hhead, hnames, hsource, node, HelperImport.node, HelperImport.declaration]

theorem next_header (header : HelperImport) (more : Text) :
    (next ⟨header.text ++ more, 0⟩).Is (.word "import" false)
    ⟨header.text ++ more, 0⟩ ⟨header.clause more, 6⟩ := by
  have hword : IsWord "import".toList := ⟨⟨_, _, rfl, by decide +kernel⟩, by decide +kernel⟩
  rw [header.text_append]
  exact next_word between_nil hword (endsName_space _) 0

theorem statement_of_import {budget depth : Nat} (hbudget : 0 < budget)
    {cursor front behind : Cursor} {found : Node} {place : Place}
    (himport : (next cursor).Is (.word "import" false) front behind)
    (hnot : ∀ text ∈ ["(", "."], (next behind).token.isMark text = false)
    (hdeclaration : importDeclaration (Grammar.ofDepth budget (depth + 1)) front.offset s (.at' behind) =
      .done found place) :
    (Grammar.ofDepth budget (depth + 2)).statement .moduleItem s (.at' cursor) = .done found place := by
  have htoken : (Place.at' cursor).ahead.token = .word "import" false := himport.token_eq
  have hfirst : (Place.at' cursor).ahead.first = front.offset := himport.first_eq
  have hstop : (Place.at' cursor).ahead.stop = behind := himport.stop_eq
  have hmark : (Place.at' cursor).ahead.token.isMark "@" = false := htoken ▸ rfl
  have hdecorators := decorators_of_not (s := s) depth hbudget hmark
  have hparen := hnot "(" (by decide)
  have hpoint := hnot "." (by decide)
  show statementAt (Grammar.ofDepth budget (depth + 1)) .moduleItem s _ = _
  generalize Place.at' cursor = place' at htoken hfirst hstop hdecorators ⊢
  unfold statementAt
  simp [hdecorators, htoken, hfirst, hstop, hparen, hpoint, hdeclaration, Token.isWord]

/-- An import of helpers at the begin of a module. -/
theorem statement_of_header (header : HelperImport) (budget depth : Nat)
    (hbudget : header.specifiers.length < budget) (more : Text) :
    (Grammar.ofDepth budget (depth + 2)).statement .moduleItem s (.at' ⟨header.text ++ more, 0⟩) =
      .done header.node (.at' ⟨more, header.text.byteLength⟩) := by
  have hbrace : (next ⟨header.clause more, 6⟩).token = .mark "\x7b" :=
    (next_mark between_space '\x7b' "\x7b" (by decide) _ 6).token_eq
  have hnot : ∀ text ∈ ["(", "."], (next ⟨header.clause more, 6⟩).token.isMark text = false := by
    rw [hbrace]
    decide
  exact statement_of_import (Nat.zero_lt_of_lt hbudget) (next_header header more) hnot
    (importDeclaration_of_header (g := Grammar.ofDepth budget (depth + 1)) header hbudget more)

end ClassWeave
