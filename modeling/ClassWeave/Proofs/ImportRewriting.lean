import ClassWeave.Proofs.ImportWriting
/-!
# Imports without compiled helpers

Every specifier of an import is a compiled helper, which the import binds, or is kept. What is kept
is written anew as an import of the same specifiers, in the same order and with the same texts, from
the module of the options; written anew once more it stays as it is.
-/

namespace ClassWeave

open Lexeme Reader

variable {s : Surroundings} {g : Grammar} {pass pass' : Pass}

/-! ## What is kept -/

namespace ImportSpecifier

def isKeptName (specifier : ImportSpecifier) : Bool := specifier.isNamed && specifier.compiled?.isNone

theorem isCompiled_of_compiled? {specifier : ImportSpecifier} {name : String} {helper : Helper}
    (h : specifier.compiled? = some (name, helper)) :
    helper = .tx ∨ helper = .tm := by
  cases specifier
  case named _ imported _ typeOnly =>
    cases typeOnly with
    | true => cases h
    | false =>
      obtain ⟨found, hfound, heq⟩ := Option.map_eq_some_iff.1 h
      obtain ⟨-, hcompiled⟩ := Option.filter_eq_some_iff.1 hfound
      cases heq
      cases helper
      · exact .inl rfl
      · exact .inr rfl
      · cases hcompiled
  all_goals cases h

end ImportSpecifier

/-! ## What an import is written as -/

def textsOf (pass : Pass) (p : ImportSpecifier → Bool) (specifiers : List ImportSpecifier) : List Text :=
  (specifiers.filter p).map fun specifier => pass.textAt specifier.span

/-- The parts of an import: a default binding, a star, and names in braces, as far as they stay. -/
def clauseOf (pass : Pass) (specifiers : List ImportSpecifier) : List Text :=
  (textsOf pass ImportSpecifier.isSingle specifiers).getLast?.toList ++
    (textsOf pass ImportSpecifier.isEverything specifiers).getLast?.toList ++
    if (textsOf pass ImportSpecifier.isKeptName specifiers).isEmpty then []
    else ['\x7b' :: ' ' :: Text.joinWith ", ".toList (textsOf pass ImportSpecifier.isKeptName specifiers) ++
      [' ', '\x7d']]

def importCode? (clause : List Text) (source : Text) : Option Text :=
  if clause.isEmpty then none
  else some
    ("import ".toList ++ Text.joinWith ", ".toList clause ++ " from ".toList ++ Quoted.encode source ++ [';'])

theorem map_filterMap_eq {f : ImportSpecifier → Option Span} {p : ImportSpecifier → Bool}
    (h : ∀ specifier, f specifier = if p specifier then some specifier.span else none) :
    ∀ specifiers : List ImportSpecifier, (specifiers.filterMap f).map pass.textAt = textsOf pass p specifiers
  | [] => rfl
  | specifier :: rest => by
    have ih := map_filterMap_eq h rest
    unfold textsOf at ih ⊢
    rw [List.filterMap_cons, h]
    cases hp : p specifier with
    | true => simpa [hp] using ih
    | false => simpa [hp] using ih

theorem withoutHelpers_eq (declaration : ImportDeclaration) (module : String) :
    declaration.withoutHelpers pass module =
      importCode? (clauseOf pass declaration.specifiers) module.toList := by
  have hsingle :
    declaration.single?.map pass.textAt =
      (textsOf pass ImportSpecifier.isSingle declaration.specifiers).getLast? := by
    rw [ImportDeclaration.single?, ← List.getLast?_map]
    exact congrArg List.getLast? (map_filterMap_eq (fun specifier => by cases specifier <;> rfl) _)
  have heverything : declaration.everything?.map pass.textAt =
    (textsOf pass ImportSpecifier.isEverything declaration.specifiers).getLast? := by
    rw [ImportDeclaration.everything?, ← List.getLast?_map]
    exact congrArg List.getLast? (map_filterMap_eq (fun specifier => by cases specifier <;> rfl) _)
  have hnames : declaration.keptNames.map pass.textAt =
    textsOf pass ImportSpecifier.isKeptName declaration.specifiers :=
    map_filterMap_eq (fun specifier => by cases specifier <;> rfl) _
  unfold ImportDeclaration.withoutHelpers
  simp only [hsingle, heverything, hnames]
  rfl

theorem clauseOf_kept (declaration : ImportDeclaration) :
    clauseOf pass declaration.kept = clauseOf pass declaration.specifiers := by
  have htexts : ∀ p : ImportSpecifier → Bool,
    (∀ specifier, p specifier = true → specifier.compiled?.isNone = true) →
      textsOf pass p declaration.kept = textsOf pass p declaration.specifiers := by
    intro p hp
    unfold textsOf ImportDeclaration.kept
    rw [List.filter_filter]
    refine congrArg (List.map _) (List.filter_congr fun specifier _ => ?_)
    cases hspecifier : p specifier with
    | true => rw [hp specifier hspecifier, Bool.and_true]
    | false => rw [Bool.false_and]
  have hsingle : ∀ specifier : ImportSpecifier, specifier.isSingle = true →
    specifier.compiled?.isNone = true := by
    intro specifier h
    cases specifier
    case single => rfl
    all_goals cases h
  have heverything : ∀ specifier : ImportSpecifier, specifier.isEverything = true →
    specifier.compiled?.isNone = true := by
    intro specifier h
    cases specifier
    case everything => rfl
    all_goals cases h
  have hnames : ∀ specifier : ImportSpecifier, specifier.isKeptName = true →
    specifier.compiled?.isNone = true :=
    fun _ h => (Bool.and_eq_true_iff.1 h).2
  unfold clauseOf
  rw [htexts _ hsingle, htexts _ heverything, htexts _ hnames]

/-! ### Parts -/

theorem textsOf_eq_nil {p : ImportSpecifier → Bool} {specifiers : List ImportSpecifier}
    (h : ∀ specifier ∈ specifiers, p specifier = false) :
    textsOf pass p specifiers = [] := by
  rw [textsOf, List.filter_eq_nil_iff.2 (fun specifier hmem => by simp [h specifier hmem]), List.map_nil]

theorem textsOf_eq_map {p : ImportSpecifier → Bool} {specifiers : List ImportSpecifier}
    (h : ∀ specifier ∈ specifiers, p specifier = true) :
    textsOf pass p specifiers = specifiers.map fun specifier => pass.textAt specifier.span := by
  rw [textsOf, List.filter_eq_self.2 h]

theorem textsOf_append (p : ImportSpecifier → Bool) (a b : List ImportSpecifier) :
    textsOf pass p (a ++ b) = textsOf pass p a ++ textsOf pass p b := by
  rw [textsOf, List.filter_append, List.map_append]
  rfl

theorem Arranged.filter {specifiers : List ImportSpecifier} (h : Arranged specifiers)
    (p : ImportSpecifier → Bool) :
    Arranged (specifiers.filter p) := by
  obtain ⟨front, rest, rfl, hlength, hfront, hrest⟩ := h
  refine ⟨front.filter p, rest.filter p, List.filter_append .., (List.length_filter_le ..).trans hlength,
    fun specifier hmem => hfront specifier (List.mem_of_mem_filter hmem), ?_⟩
  rcases hrest with ⟨hlength, heverything⟩ | hnamed
  · exact .inl ⟨(List.length_filter_le ..).trans hlength,
      fun specifier hmem => heverything specifier (List.mem_of_mem_filter hmem)⟩
  · exact .inr fun specifier hmem => hnamed specifier (List.mem_of_mem_filter hmem)

theorem clauseOf_rest {rest : List ImportSpecifier} (hkept : ∀ specifier ∈ rest, specifier.compiled? = none)
    (hwritten : ∀ specifier ∈ rest, specifier.IsWritten s (pass.textAt specifier.span))
    (hbudget : rest.length < g.budget)
    (hrest : (rest.length ≤ 1 ∧ ∀ specifier ∈ rest, specifier.isEverything = true) ∨
      ∀ specifier ∈ rest, specifier.isNamed = true) :
    (rest = [] ∧ clauseOf pass rest = []) ∨ ∃ text, rest ≠ [] ∧ clauseOf pass rest = [text] ∧
      ReadsNames s g pass pass' rest text := by
  cases rest with
  | nil => exact .inl ⟨rfl, rfl⟩
  | cons specifier others =>
    right
    rcases hrest with ⟨hlength, heverything⟩ | hnamed
    · obtain rfl : others = [] := List.eq_nil_of_length_eq_zero (by simpa using hlength)
      obtain ⟨hspecifier, -⟩ := List.forall_mem_cons.1 heverything
      refine ⟨pass.textAt specifier.span, nofun, ?_, readsNames_of_everything hspecifier
        (hwritten specifier (List.mem_singleton_self _))⟩
      cases specifier
      case everything => rfl
      all_goals cases hspecifier
    · refine ⟨bracesText pass (specifier :: others), nofun, ?_,
        readsNames_of_names (fun found hmem => ⟨hnamed found hmem, hwritten found hmem⟩) hbudget⟩
      have hsingle : ∀ found ∈ specifier :: others, found.isSingle = false ∧ found.isEverything = false := by
        intro found hmem
        have := hnamed found hmem
        cases found
        case named => exact ⟨rfl, rfl⟩
        all_goals cases this
      have hnames : ∀ found ∈ specifier :: others, found.isKeptName = true := by
        intro found hmem
        rw [ImportSpecifier.isKeptName, hnamed found hmem, hkept found hmem]
        rfl
      rw [clauseOf, textsOf_eq_nil fun found hmem => (hsingle found hmem).1,
        textsOf_eq_nil fun found hmem => (hsingle found hmem).2,
        textsOf_eq_map hnames, bracesText, namesText_cons]
      rfl

theorem clauseOf_append {front rest : List ImportSpecifier} (hlength : front.length ≤ 1)
    (hfront : ∀ specifier ∈ front, specifier.isSingle = true)
    (hrest : ∀ specifier ∈ rest, specifier.isSingle = false) :
    clauseOf pass (front ++ rest) = front.map (fun specifier => pass.textAt specifier.span) ++
      clauseOf pass rest := by
  have hothers : ∀ specifier ∈ front, specifier.isEverything = false ∧ specifier.isKeptName = false := by
    intro specifier hmem
    have := hfront specifier hmem
    cases specifier
    case single => exact ⟨rfl, rfl⟩
    all_goals cases this
  have hlast : ∀ texts : List Text, texts.length ≤ 1 → texts.getLast?.toList = texts := by
    rintro (_ | ⟨text, _ | ⟨other, texts⟩⟩) h
    · rfl
    · rfl
    · simp at h
  unfold clauseOf
  simp only [textsOf_append, textsOf_eq_map hfront, textsOf_eq_nil hrest,
    textsOf_eq_nil fun specifier hmem => (hothers specifier hmem).1,
    textsOf_eq_nil fun specifier hmem => (hothers specifier hmem).2, List.append_nil, List.nil_append]
  rw [hlast _ (by simpa using hlength), List.getLast?_nil]
  simp

/-- What arranged specifiers are written as is read as these specifiers. -/
theorem clauseOf_arranged {specifiers : List ImportSpecifier} (h : Arranged specifiers)
    (hkept : ∀ specifier ∈ specifiers, specifier.compiled? = none)
    (hwritten : ∀ specifier ∈ specifiers, specifier.IsWritten s (pass.textAt specifier.span))
    (hbudget : specifiers.length < g.budget) :
    (specifiers = [] ∧ clauseOf pass specifiers = []) ∨
    (specifiers ≠ [] ∧ clauseOf pass specifiers ≠ [] ∧
      IsClause s g pass pass' (clauseOf pass specifiers) specifiers) := by
  obtain ⟨front, rest, rfl, hlength, hfront, hrest⟩ := h
  have hsingle : ∀ specifier ∈ rest, specifier.isSingle = false := by
    intro specifier hmem
    rcases hrest with ⟨-, heverything⟩ | hnamed
    · have := heverything specifier hmem
      cases specifier
      case everything => rfl
      all_goals cases this
    · have := hnamed specifier hmem
      cases specifier
      case named => rfl
      all_goals cases this
  have hparts : (rest = [] ∧ clauseOf pass rest = []) ∨ ∃ text, rest ≠ [] ∧ clauseOf pass rest = [text] ∧
      ReadsNames s g pass pass' rest text := clauseOf_rest
    (fun specifier hmem => hkept specifier (List.mem_append_right _ hmem))
    (fun specifier hmem => hwritten specifier (List.mem_append_right _ hmem))
      (by rw [List.length_append] at hbudget; omega) hrest
  rw [clauseOf_append hlength hfront hsingle]
  rcases front with _ | ⟨specifier, _ | ⟨other, front⟩⟩
  · rcases hparts with ⟨rfl, hnil⟩ | ⟨text, hne, htext, hreads⟩
    · exact .inl ⟨rfl, hnil⟩
    · rw [htext]
      exact .inr ⟨hne, nofun, .names hreads⟩
  · have hspecifier := hfront specifier (List.mem_singleton_self _)
    have hspecifier' := hwritten specifier (List.mem_append_left _ (List.mem_singleton_self _))
    rcases hparts with ⟨rfl, hnil⟩ | ⟨text, hne, htext, hreads⟩
    · rw [hnil]
      exact .inr ⟨nofun, nofun, .single hspecifier hspecifier'⟩
    · rw [htext]
      exact .inr ⟨nofun, nofun, .both hspecifier hspecifier' hreads⟩
  · simp at hlength

/-! ## What is written is read -/

theorem exists_of_importCode? {clause : List Text} {source code : Text}
    (h : importCode? clause source = some code) :
    clause ≠ [] ∧ (∀ more, code ++ more = "import".toList ++ importText clause source more) ∧
    code.byteLength = 14 + (Text.joinWith ", ".toList clause).byteLength +
      (Quoted.encode source).byteLength := by
  unfold importCode? at h
  split at h
  · cases h
  rename_i hne
  cases h
  refine ⟨by simpa using hne, fun more => by simp [importText, originText], ?_⟩
  have himport : Text.byteLength "import ".toList = 7 := rfl
  have hfrom : Text.byteLength " from ".toList = 6 := rfl
  have hend : Text.byteLength [';'] = 1 := rfl
  simp only [Text.byteLength_append, himport, hfrom, hend]
  omega

theorem importCode?_eq_none_iff {clause : List Text} {source : Text} :
    importCode? clause source = none ↔ clause = [] := by
  unfold importCode?
  cases clause with
  | nil => simp
  | cons text clause => simp

theorem statement_of_clause {budget depth offset : Nat} {clause : List Text}
    {specifiers : List ImportSpecifier} {source code more : Text}
    (h : IsClause s (Grammar.ofDepth budget (depth + 1)) pass pass' clause specifiers) (hbudget : 0 < budget)
    (hcode : importCode? clause source = some code) (holds : pass'.Holds offset (code ++ more)) :
    ∃ found, (Grammar.ofDepth budget (depth + 2)).statement .moduleItem s (.at' ⟨code ++ more, offset⟩) =
      .done (.mk (.importDeclaration ⟨false, found, source⟩) ⟨offset, offset + code.byteLength⟩ [])
        (.at' ⟨more, offset + code.byteLength⟩) ∧
      List.Forall₂ (ImportSpecifier.Alike pass.module pass'.module) specifiers found := by
  obtain ⟨-, htext, hlength⟩ := exists_of_importCode? hcode
  rw [htext] at holds ⊢
  have hword : IsWord "import".toList := ⟨⟨_, _, rfl, by decide +kernel⟩, by decide +kernel⟩
  have himport := next_word between_nil hword (endsName_space
    (Text.joinWith ", ".toList clause ++ ' ' :: originText source more)) offset
  have holds' : pass'.Holds (offset + 6) (importText clause source more) :=
    Pass.Holds.right (a := "import".toList) holds
  obtain ⟨hnot, found, hdeclaration, halike⟩ :=
    importDeclaration_of_clause offset h holds'
  have hoffset : offset + 6 + 1 + (Text.joinWith ", ".toList clause).byteLength +
    7 + (Quoted.encode source).byteLength =
      offset + code.byteLength := by omega
  rw [hoffset] at hdeclaration
  exact ⟨found, statement_of_import hbudget himport hnot hdeclaration, halike⟩

/-! ## Rewriting an import -/

namespace ImportDeclaration

variable {declaration : ImportDeclaration}

theorem mem_kept_or (declaration : ImportDeclaration) : ∀ specifier ∈ declaration.specifiers,
    (specifier ∈ declaration.kept ∧ specifier.compiled? = none) ∨
    (specifier ∉ declaration.kept ∧ ∃ name helper, specifier.compiled? = some (name, helper) ∧
      (helper = .tx ∨ helper = .tm) ∧
      (name, helper) ∈ declaration.bindings) := by
  intro specifier hmem
  cases hcompiled : specifier.compiled? with
  | none => exact .inl ⟨List.mem_filter.2 ⟨hmem, by rw [hcompiled]; rfl⟩, rfl⟩
  | some bound =>
    refine .inr ⟨fun hkept => ?_, bound.1, bound.2, rfl, specifier.isCompiled_of_compiled? hcompiled,
      List.mem_filterMap.2 ⟨specifier, hmem, hcompiled⟩⟩
    have := (List.mem_filter.1 hkept).2
    rw [hcompiled] at this
    cases this

theorem length_bindings_add_length_kept (declaration : ImportDeclaration) :
    declaration.bindings.length + declaration.kept.length = declaration.specifiers.length := by
  unfold bindings kept
  induction declaration.specifiers with
  | nil => rfl
  | cons specifier rest ih =>
    cases hcompiled : specifier.compiled? with
    | none =>
      simp only [List.filterMap_cons, List.filter_cons, hcompiled,
        Option.isNone_none, if_true, List.length_cons]
      omega
    | some bound =>
      simp only [List.filterMap_cons, List.filter_cons, hcompiled,
        Option.isNone_some, Bool.false_eq_true, if_false, List.length_cons]
      omega

/-- Each specifier of an import that is read is bound to a compiled helper or kept. What is kept is
deleted with the import if it is nothing, and otherwise written anew: read at any place, this is
an import of what is kept from the module of the options, each specifier with its text and in its
order, which binds no compiled helper and is written anew as it is. The text of the pass is read
from its begin on, and what is kept can be moved. -/
theorem withoutHelpers_of_read {at' : Cursor} {start : Nat} {span : Span} {held : List Node} {place : Place}
    (holds : pass.Holds at'.offset at'.rest)
    (hread : importDeclaration g start s (.at' at') =
      .done (.mk (.importDeclaration declaration) span held) place)
    (hmovable : ∀ specifier ∈ declaration.kept, specifier.IsMovable pass) (options : Options) :
    (∀ specifier ∈ declaration.specifiers, (specifier ∈ declaration.kept ∧ specifier.compiled? = none) ∨
      (specifier ∉ declaration.kept ∧ ∃ name helper, specifier.compiled? = some (name, helper) ∧
        (helper = .tx ∨ helper = .tm) ∧
        (name, helper) ∈ declaration.bindings)) ∧
    declaration.bindings.length + declaration.kept.length = declaration.specifiers.length ∧
    (declaration.withoutHelpers pass options.module = none ↔ declaration.kept = []) ∧
    ∀ code, declaration.withoutHelpers pass options.module = some code →
      ∀ (pass' : Pass) (offset budget depth : Nat) (more : Text),
      pass'.Holds offset (code ++ more) → declaration.kept.length < budget → ∃ found : ImportDeclaration,
        (Grammar.ofDepth budget (depth + 2)).statement .moduleItem s (.at' ⟨code ++ more, offset⟩) =
          .done (.mk (.importDeclaration found) ⟨offset, offset + code.byteLength⟩ [])
            (.at' ⟨more, offset + code.byteLength⟩) ∧
        List.Forall₂ (ImportSpecifier.Alike pass.module pass'.module) declaration.kept found.specifiers ∧
        found.source = options.module.toList ∧ found.isOfHelpers options = true ∧ found.bindings = [] ∧
        found.withoutHelpers pass' options.module = some code := by
  obtain ⟨harranged, hstays⟩ := ensures_importDeclaration _ _ _ ⟨at', rfl, holds⟩ hread declaration rfl
  have hkept : ∀ specifier ∈ declaration.kept, specifier.compiled? = none :=
    fun specifier hmem => Option.isNone_iff_eq_none.1 (List.mem_filter.1 hmem).2
  have hwritten : ∀ specifier ∈ declaration.kept, specifier.IsWritten s (pass.textAt specifier.span) :=
    fun specifier hmem => hstays specifier (List.mem_of_mem_filter hmem) (hmovable specifier hmem)
  have harranged' : Arranged declaration.kept := harranged.filter _
  have hclause : ∀ (pass' : Pass) (g : Grammar), declaration.kept.length < g.budget →
      (declaration.kept = [] ∧ clauseOf pass declaration.kept = []) ∨
      (declaration.kept ≠ [] ∧ clauseOf pass declaration.kept ≠ [] ∧
        IsClause s g pass pass' (clauseOf pass declaration.kept) declaration.kept) :=
    fun _ _ => clauseOf_arranged harranged' hkept hwritten
  refine ⟨mem_kept_or declaration, length_bindings_add_length_kept declaration, ?_, ?_⟩
  · rw [withoutHelpers_eq, ← clauseOf_kept, importCode?_eq_none_iff]
    have hbudget := Nat.lt_succ_self declaration.kept.length
    rcases hclause pass (Grammar.ofDepth (declaration.kept.length + 1) 0) hbudget with
        ⟨hnil, hempty⟩ | ⟨hne, hclause, -⟩
    · exact iff_of_true hempty hnil
    · exact iff_of_false hclause hne
  · intro code hcode pass' offset budget depth more holds' hbudget
    -- The text is that of the specifiers that stay, which are read again one part behind another.
    have hclauseCode : importCode? (clauseOf pass declaration.kept) options.module.toList = some code := by
      rw [clauseOf_kept, ← withoutHelpers_eq, hcode]
    rcases hclause pass' (Grammar.ofDepth budget (depth + 1)) hbudget with ⟨-, hempty⟩ | ⟨-, -, hclause⟩
    · exact absurd hempty (exists_of_importCode? hclauseCode).1
    · obtain ⟨found, hstatement, halike⟩ :=
        statement_of_clause hclause (Nat.zero_lt_of_lt hbudget) hclauseCode holds'
      have htext : pass'.module.textAt? ⟨offset, offset + code.byteLength⟩ = some code :=
        holds'.left.textAt?_eq
      -- What is read is left by this import, so it stays as it is.
      have hstays : (declaration.withoutHelpers ⟨0, pass.module⟩ options.module).isSome = true :=
        Option.isSome_of_eq_some hcode
      have hleaves :
          declaration.LeavesAs pass.module pass'.module options ⟨false, found, options.module.toList⟩
            ⟨offset, offset + code.byteLength⟩ := ⟨hstays, htext.trans hcode.symm, halike⟩
      refine ⟨⟨false, found, options.module.toList⟩, hstatement, halike, rfl, ?_, hleaves.bindings_eq_nil,
        hleaves.withoutHelpers_eq.trans hcode⟩
      simp [isOfHelpers, Options.isHelperModule]

def read? : Outcome Node → Option ImportDeclaration
  | .done (.mk (.importDeclaration declaration) _ _) _ => some declaration
  | _ => none

theorem exists_of_read? {outcome : Outcome Node} (h : read? outcome = some declaration) :
    ∃ span held place, outcome = .done (.mk (.importDeclaration declaration) span held) place := by
  unfold read? at h
  split at h
  · cases h
    exact ⟨_, _, _, rfl⟩
  · cases h

/-- A default binding and a helper that is never compiled are kept, a compiled helper with another
name is not. -/
theorem withoutHelpers_of_read_renamed :
    let code := "import s, { tv } from \"@mkx419/tx\";".toList
    let pass : Pass := ⟨0, ⟨"import s, { tv, tx as t } from \"@mkx419/tx\";".toList, []⟩⟩
    let declaration : ImportDeclaration :=
      ⟨false, [.single ⟨7, 8⟩ "s", .named ⟨12, 14⟩ "tv" "tv" false, .named ⟨16, 23⟩ "tx" "t" false],
      "@mkx419/tx".toList⟩
    declaration.withoutHelpers pass "@mkx419/tx" = some code ∧ ∃ found : ImportDeclaration,
      (Grammar.ofDepth 3 2).statement .moduleItem { elements := false } (.at' ⟨code, 0⟩) =
        .done (.mk (.importDeclaration found) ⟨0, 35⟩ []) (.at' ⟨[], 35⟩) ∧
      List.Forall₂ (ImportSpecifier.Alike pass.module ⟨code, []⟩) declaration.kept found.specifiers := by
  intro code pass declaration
  have hdone : read? (importDeclaration (Grammar.ofDepth 4 0) 0 { elements := false }
      (.at' ⟨" s, { tv, tx as t } from \"@mkx419/tx\";".toList, 6⟩)) = some declaration := by decide +kernel
  obtain ⟨span, held, place, hread⟩ := exists_of_read? hdone
  have holds : pass.Holds 6 " s, { tv, tx as t } from \"@mkx419/tx\";".toList :=
    ⟨"import".toList, [], by decide +kernel, rfl⟩
  have hcode : declaration.withoutHelpers pass "@mkx419/tx" = some code := by decide +kernel
  have hkept : declaration.kept = [.single ⟨7, 8⟩ "s", .named ⟨12, 14⟩ "tv" "tv" false] := by decide +kernel
  have hmovable : ∀ specifier ∈ declaration.kept, specifier.IsMovable pass := by
    have hfree : ¬ ("s" ∈ Token.keywords ∨ "s" ∈ Token.reserved) := by decide
    rw [hkept, List.forall_mem_cons, List.forall_mem_singleton]
    exact ⟨⟨by decide +kernel, fun _ _ heq hname => by cases heq; exact absurd hname hfree⟩, by
      decide +kernel, nofun⟩
  have hlength : Text.byteLength code = 35 := by decide +kernel
  obtain ⟨-, -, -, hrewritten⟩ := withoutHelpers_of_read holds hread hmovable {}
  obtain ⟨found, hstatement, halike, -⟩ :=
    hrewritten code hcode ⟨1, ⟨code, []⟩⟩ 0 3 0 [] ⟨[], [], by simp, rfl⟩
      (by decide +kernel)
  rw [List.append_nil, Nat.zero_add, hlength] at hstatement
  exact ⟨hcode, found, hstatement, halike⟩

end ImportDeclaration

end ClassWeave
