import ClassWeave.Proofs.SpecifierReading
/-!
# Imports that are read

What an import declaration is read from: how its specifiers are arranged, and which of them are read
again wherever their text stands.
-/

namespace ClassWeave

open Lexeme Reader

namespace ImportSpecifier

def moved (span : Span) : ImportSpecifier → ImportSpecifier
  | single _ binding => single span binding
  | everything _ binding => everything span binding
  | named _ imported binding typeOnly => named span imported binding typeOnly

def isSingle : ImportSpecifier → Bool
  | single _ _ => true
  | _ => false

def isEverything : ImportSpecifier → Bool
  | everything _ _ => true
  | _ => false

def isNamed : ImportSpecifier → Bool
  | named _ _ _ _ => true
  | _ => false

/-- Whether a specifier can be written behind other text as it is. Its text begins with no comment
that has to be the first on its line, and a default binding is no reserved word that is spelled
plainly. -/
def IsMovable (pass : Pass) (specifier : ImportSpecifier) : Prop :=
  ¬ "-->".toList <+: pass.textAt specifier.span ∧ ∀ span name, specifier = single span name →
    name ∈ Token.keywords ∨ name ∈ Token.reserved → ¬ name.toList <:+ pass.textAt span

end ImportSpecifier

def Reader.Binds (s : Surroundings) (token : Token) (name : String) : Prop :=
  ∀ at', (next at').token = token → boundName s (.at' at') = .done name (.at' (next at').stop)

/-- Whether a text is read as a specifier wherever it stands behind a space. -/
inductive ImportSpecifier.IsWritten (s : Surroundings) : ImportSpecifier → Text → Prop
  | single {span : Span} {name : String} {escaped : Bool} {text : Text} : Stands [.word name escaped] text →
      (Token.word name escaped).isReference = true → Binds s (.word name escaped) name →
      IsWritten s (.single span name) text
  | everything {span : Span} {name : String} {escaped : Bool} {text : Text} :
      Stands [.mark "*", .word "as" false, .word name escaped] text →
      Binds s (.word name escaped) name → IsWritten s (.everything span name) text
  | named {span : Span} {imported binding : String} {typeOnly : Bool} {tokens : List Token} {text : Text} :
      Stands tokens text →
      Takes s importSpecifier tokens (fun span => .named span imported binding typeOnly) →
      IsWritten s (.named span imported binding typeOnly) text

/-- Whether specifiers are a default binding, then a star or any names, each of them or none. -/
def Arranged (specifiers : List ImportSpecifier) : Prop := ∃ front rest, specifiers = front ++ rest ∧
  front.length ≤ 1 ∧ (∀ specifier ∈ front, specifier.isSingle = true) ∧
  ((rest.length ≤ 1 ∧ ∀ specifier ∈ rest, specifier.isEverything = true) ∨
    ∀ specifier ∈ rest, specifier.isNamed = true)

namespace Reader

variable {α β : Type} {s : Surroundings} {P : Place → Prop} {pass : Pass}

/-! ## What holds behind a reader -/

def Ensures (s : Surroundings) (P : Place → Prop) (reader : Reader α) (Q : α → Place → Prop) : Prop :=
  ∀ place value place', P place → reader s place = .done value place' → Q value place'

namespace Ensures

theorem bind {first : Reader α} {next : α → Reader β} {Q : α → Place → Prop}
    {R : β → Place → Prop} (h : Ensures s P first Q) (h' : ∀ value, Ensures s (Q value) (next value) R) :
    Ensures s P (first >>= next) R := by
  intro place value place' hplace hdone
  obtain ⟨found, mid, hfirst, hnext⟩ := exists_of_bind hdone
  exact h' found _ _ _ (h _ _ _ hplace hfirst) hnext

theorem pure {value : α} {Q : α → Place → Prop} (h : ∀ place, P place → Q value place) :
    Ensures s P (Pure.pure value) Q := by
  intro place _ _ hplace hdone
  cases hdone
  exact h place hplace

theorem ite {c : Prop} [Decidable c] {a b : Reader α} {Q : α → Place → Prop}
    (h : Ensures s P a Q) (h' : Ensures s P b Q) :
    Ensures s P (if c then a else b) Q := by
  split
  · exact h
  · exact h'

theorem mono {reader : Reader α} {Q R : α → Place → Prop} (h : Ensures s P reader Q)
    (hmono : ∀ value place, Q value place → R value place) :
    Ensures s P reader R := fun _ _ _ hplace hdone => hmono _ _ (h _ _ _ hplace hdone)

theorem of_and {Q : Prop} {reader : Reader α} {R : α → Place → Prop} (h : Q → Ensures s P reader R) :
    Ensures s (fun place => P place ∧ Q) reader R := fun _ _ _ hplace hdone => h hplace.2 _ _ _ hplace.1 hdone

theorem look {f : Place → α} : Ensures s P (fun _ place => .done (f place) place) fun _ => P := by
  intro place _ _ hplace hdone
  cases hdone
  exact hplace

end Ensures

def InText (pass : Pass) (place : Place) : Prop := ∃ at', place = .at' at' ∧ pass.Holds at'.offset at'.rest

theorem ensures_advance : Ensures s (InText pass) advance fun _ => InText pass := by
  rintro _ _ _ ⟨at', rfl, holds⟩ ⟨⟩
  exact ⟨_, rfl, holds.next⟩

/-- Whether a specifier is written at its span in the text of a pass, if it can be moved. -/
def Stays (s : Surroundings) (pass : Pass) (specifier : ImportSpecifier) : Prop :=
  specifier.IsMovable pass → specifier.IsWritten s (pass.textAt specifier.span)

theorem ensures_defaultBinding : Ensures s (InText pass) defaultBinding fun specifier place =>
    InText pass place ∧ specifier.isSingle = true ∧ Stays s pass specifier := by
  rintro _ specifier place ⟨at', rfl, holds⟩ h
  unfold defaultBinding at h
  rw [run_bind, run_here] at h
  obtain ⟨name, _, hbound, h⟩ := exists_of_bind h
  obtain ⟨rfl, escaped, htoken, hagain⟩ := exists_of_boundName hbound
  cases h
  have hleads : Leads ([] ++ [.word name escaped]) at' (next at').stop := ⟨htoken, rfl⟩
  obtain ⟨holds', hstands, hplain⟩ := holds.stands (List.forall_mem_nil _) hleads
  refine ⟨⟨_, rfl, holds'⟩, rfl, fun hmovable => ?_⟩
  refine .single (hstands hmovable.1) ?_ hagain
  -- A name that is spelled plainly ends the text, so it is no reserved word.
  cases escaped with
  | true => rfl
  | false =>
    have hnot : ¬ (name ∈ Token.keywords ∨ name ∈ Token.reserved) :=
      fun hname => hmovable.2 _ _ rfl hname (hplain rfl rfl)
    simpa [Token.isReference] using hnot

theorem ensures_importSpecifier : Ensures s (InText pass) importSpecifier fun specifier place =>
    InText pass place ∧ specifier.isNamed = true ∧ Stays s pass specifier := by
  rintro _ specifier place ⟨at', rfl, holds⟩ h
  obtain ⟨tokens, behind, imported, binding, typeOnly, rfl, hleads,
    ⟨front, name, escaped, rfl, hpieces⟩, rfl, htakes⟩ :=
    exists_of_importSpecifier h
  obtain ⟨holds', hstands, -⟩ := holds.stands hpieces hleads
  exact ⟨⟨_, rfl, holds'⟩, rfl, fun hmovable => .named (hstands hmovable.1) htakes⟩

theorem ensures_takeMark (text : String) : Ensures s (InText pass) (takeMark text) fun _ => InText pass :=
  .bind .look fun _ => .ite (ensures_advance.bind fun _ => .pure fun _ => id) (.pure fun _ => id)

theorem ensures_failWanting {Q : α → Place → Prop} (wanted : String) :
    Ensures s P (failWanting wanted : Reader α) Q := by
  rintro _ _ _ - ⟨⟩

theorem ensures_needMark (text : String) : Ensures s (InText pass) (needMark text) fun _ => InText pass :=
  .bind .look fun _ => .ite ensures_advance (ensures_failWanting _)

theorem ensures_listUntil (close : String) : ∀ fuel,
    Ensures s (InText pass) (listUntil close importSpecifier fuel) fun specifiers place =>
    InText pass place ∧ ∀ specifier ∈ specifiers, specifier.isNamed = true ∧ Stays s pass specifier
  | 0 => by rintro _ _ _ - ⟨⟩
  | fuel + 1 => by
    refine (ensures_takeMark close).bind fun _ => .ite (.pure fun _ holds => ⟨holds, nofun⟩) ?_
    refine ensures_importSpecifier.bind fun first => ?_
    refine .of_and fun hfirst => ?_
    refine (ensures_takeMark close).bind fun _ =>
      .ite (.pure fun _ holds => ⟨holds, by simpa using hfirst⟩) ?_
    refine (ensures_needMark ",").bind fun _ => (ensures_listUntil close fuel).bind fun rest => ?_
    exact .pure fun _ ⟨holds, hrest⟩ => ⟨holds, List.forall_mem_cons.2 ⟨hfirst, hrest⟩⟩

theorem run_needWord (name : String) (place : Place) : needWord name s place =
    if place.ahead.token.isWord name then .done () (.at' place.ahead.stop) else failWanting name s place := by
  rw [needWord, run_bind, run_atWord, ← run_advance (s := s), ← run_ite]

theorem eq_of_isMark {token : Token} {text : String} (h : token.isMark text = true) : token = .mark text := by
  cases token
  case mark found => rw [eq_of_beq (show (found == text) = true from h)]
  all_goals cases h

theorem ensures_everything (start : Nat) :
    Ensures s (fun place => place.ahead.token = .mark "*" ∧ place.ahead.first = start ∧ InText pass place)
    (do
      advance
      needWord "as"
      let binding ← boundName
      return [.everything ⟨start, ← lastEnd⟩ binding])
    fun specifiers _ => ∃ specifier, specifiers = [specifier] ∧
      specifier.isEverything = true ∧ Stays s pass specifier := by
  rintro _ specifiers place ⟨hstar, rfl, at', rfl, holds⟩ h
  rw [run_bind, run_advance] at h
  obtain ⟨_, _, hword, h⟩ := exists_of_bind h
  rw [run_needWord] at hword
  split at hword
  · rename_i has
    cases hword
    obtain ⟨name, _, hbound, h⟩ := exists_of_bind h
    obtain ⟨rfl, escaped, htoken, hagain⟩ := exists_of_boundName hbound
    cases h
    have has' := eq_of_isWord has
    have hleads : Leads ([.mark "*", .word "as" false] ++ [.word name escaped])
      at' (next (next (next at').stop).stop).stop :=
      ⟨hstar, has', htoken, rfl⟩
    have hpieces : ∀ token ∈ [Token.mark "*", .word "as" false], IsPiece token := by
      simp [IsPiece, Token.isAnyWord]
    obtain ⟨-, hstands, -⟩ := holds.stands hpieces hleads
    exact ⟨_, rfl, rfl, fun hmovable => .everything (hstands hmovable.1) hagain⟩
  · cases hword

theorem ensures_importedNames {g : Grammar} (phase : ImportPhase) :
    Ensures s (InText pass) (importedNames g phase) fun specifiers _ =>
    ((specifiers.length ≤ 1 ∧ ∀ specifier ∈ specifiers, specifier.isEverything = true) ∨
      ∀ specifier ∈ specifiers, specifier.isNamed = true) ∧
    ∀ specifier ∈ specifiers, Stays s pass specifier := by
  rintro place specifiers place' holds h
  unfold importedNames at h
  rw [run_bind, run_here] at h
  dsimp only at h
  rw [run_bind, run_atMark] at h
  dsimp only at h
  rw [run_ite] at h
  split at h
  · rename_i hstar
    rw [Bool.and_eq_true] at hstar
    obtain ⟨specifier, rfl, hspecifier, hstays⟩ :=
      ensures_everything place.ahead.first place specifiers place' ⟨eq_of_isMark hstar.2, rfl, holds⟩ h
    exact ⟨.inl ⟨Nat.le_refl _, by simpa using hspecifier⟩, by simpa using hstays⟩
  · rw [run_bind, run_atMark] at h
    dsimp only at h
    rw [run_ite] at h
    split at h
    · obtain ⟨-, hnames⟩ := (ensures_advance.bind fun _ => ensures_listUntil "\x7d" g.budget) _ _ _ holds h
      exact ⟨.inr fun specifier hmem => (hnames specifier hmem).1,
        fun specifier hmem => (hnames specifier hmem).2⟩
    · cases h
      exact ⟨.inr nofun, nofun⟩

/-! ## Default bindings -/

theorem ensures_atImportList : Ensures s (InText pass) atImportList fun _ => InText pass :=
  .bind .look fun _ => .bind .look fun _ => .pure fun _ => id

theorem ensures_phaseBindingFollows : Ensures s (InText pass) phaseBindingFollows fun _ => InText pass :=
  .bind .look fun _ => .bind .look fun _ => .bind .look fun _ => .pure fun _ => id

theorem ensures_typeBinding : Ensures s (InText pass) typeBinding? fun binding place =>
    InText pass place ∧ ∀ specifier ∈ binding, specifier.isSingle = true ∧ Stays s pass specifier := by
  refine .bind .look fun _ => .ite ?_ (.pure fun _ holds => ⟨holds, nofun⟩)
  refine .bind .look fun _ => .bind .look fun _ => .ite ?_ (.pure fun _ holds => ⟨holds, nofun⟩)
  exact ensures_defaultBinding.bind fun _ => .pure fun _ ⟨holds, hbinding⟩ => ⟨holds, by simpa using hbinding⟩

def HeadInText (s : Surroundings) (pass : Pass) (head : ImportHead) (place : Place) : Prop :=
  match head with
  | .alias => True
  | .bare _ _ => InText pass place
  | .binding _ _ single => InText pass place ∧ single.isSingle = true ∧ Stays s pass single

theorem ensures_importHead : Ensures s (InText pass) importHead (HeadInText s pass) := by
  refine .bind .look fun _ => .ite ?_ (.pure fun _ holds => holds)
  refine ensures_defaultBinding.bind fun first => .of_and fun hfirst => ?_
  refine ensures_atImportList.bind fun _ => .ite (.pure fun _ holds => holds) ?_
  -- The first binding may be the word `type` or a phase in front of the one that is bound.
  have hnone : Ensures s (InText pass) (pure none) fun (other : Option ImportSpecifier) place =>
      InText pass place ∧ ∀ specifier ∈ other, specifier.isSingle = true ∧ Stays s pass specifier :=
    .pure fun _ holds => ⟨holds, nofun⟩
  refine .ite (ensures_typeBinding.bind fun other => .of_and fun hother => ?_)
    (hnone.bind fun other => .of_and fun hother => ?_)
  all_goals
    have hlocal : (other.getD first).isSingle = true ∧ Stays s pass (other.getD first) := by
      cases other with
      | none => exact hfirst
      | some other => exact hother other rfl
    refine .bind .look fun _ => .ite (.pure fun _ _ => trivial) ?_
    refine ensures_atImportList.bind fun _ => .ite (.pure fun _ holds => holds) ?_
    refine .bind ensures_phaseBindingFollows fun _ => ?_
    have hpure : Ensures s (InText pass) (pure (other.getD first)) fun single place =>
        InText pass place ∧ single.isSingle = true ∧ Stays s pass single :=
          .pure fun _ holds => ⟨holds, hlocal⟩
    refine .ite (ensures_defaultBinding.bind fun _ => .of_and fun hsingle => ?_)
      (hpure.bind fun _ => .of_and fun hsingle => ?_)
    all_goals
      refine .bind .look fun _ => .ite (.pure fun _ holds => ⟨holds, hsingle⟩) ?_
      exact (ensures_needMark ",").bind fun _ => .pure fun _ holds => ⟨holds, hsingle⟩

/-! ## Declarations -/

theorem ensures_true (reader : Reader α) : Ensures s P reader fun _ _ => True := fun _ _ _ _ _ => trivial

theorem ensures_form {kind : Form} {start : Nat} {children : List Node} :
    Ensures s P (form kind start children) fun found _ => found.shape = .other kind := by
  rintro _ _ _ - ⟨⟩
  rfl

theorem ensures_importAlias {g : Grammar} {start : Nat} :
    Ensures s P (importAlias g start) fun found _ => found.shape = .other .importAlias := by
  refine (ensures_true _).bind fun _ => (ensures_true _).bind fun _ =>
    (ensures_true _).bind fun _ => .ite ?_ ?_
  · refine (ensures_true _).bind fun _ => (ensures_true _).bind fun _ => (ensures_true _).bind fun _ => ?_
    exact (ensures_true _).bind fun _ => (ensures_true _).bind fun _ => ensures_form
  · exact (ensures_true _).bind fun _ => (ensures_true _).bind fun _ => ensures_form

/-- Whether the specifiers of an import are a default binding, then a star or any names, and each is
written at its span. -/
def IsLaid (s : Surroundings) (pass : Pass) (declaration : ImportDeclaration) : Prop :=
  Arranged declaration.specifiers ∧ ∀ specifier ∈ declaration.specifiers, Stays s pass specifier

theorem ensures_declaration {g : Grammar} {start : Nat} {typeOnly : Bool}
    {phase : ImportPhase} {front : List ImportSpecifier} (hlength : front.length ≤ 1)
    (hfront : ∀ specifier ∈ front, specifier.isSingle = true ∧ Stays s pass specifier) :
    Ensures s (InText pass) (importDeclaration.declaration g start typeOnly phase front) fun found _ =>
      ∀ declaration, found.shape = .importDeclaration declaration → IsLaid s pass declaration := by
  rintro place found place' holds h
  obtain ⟨others, mid, hnames, h⟩ := exists_of_bind h
  obtain ⟨harranged, hstays⟩ := ensures_importedNames phase _ _ _ holds hnames
  obtain ⟨⟨source, held⟩, mid', -, h⟩ := exists_of_bind h
  cases h
  rintro _ ⟨⟩
  refine ⟨⟨front, others, rfl, hlength, fun specifier hmem => (hfront specifier hmem).1, harranged⟩,
    fun specifier hmem => ?_⟩
  rcases List.mem_append.1 hmem with hmem | hmem
  · exact (hfront specifier hmem).2
  · exact hstays specifier hmem

theorem ensures_importDeclaration {g : Grammar} {start : Nat} :
    Ensures s (InText pass) (importDeclaration g start) fun found _ =>
    ∀ declaration, found.shape = .importDeclaration declaration → IsLaid s pass declaration := by
  refine .bind .look fun token => ?_
  split
  · rename_i source
    refine (ensures_true _).bind fun _ => (ensures_true _).bind fun _ => (ensures_true _).bind fun _ => ?_
    rintro _ _ _ - ⟨⟩ _ ⟨⟩
    exact ⟨⟨[], [], rfl, Nat.zero_le _, nofun, .inr nofun⟩, nofun⟩
  · refine ensures_importHead.bind fun head => ?_
    rcases head with ⟨typeOnly, phase⟩ | ⟨typeOnly, phase, single⟩ | _
    · exact ensures_declaration (Nat.zero_le _) nofun
    · exact .of_and fun hsingle => ensures_declaration (Nat.le_refl _) (by simpa using hsingle)
    · exact ensures_importAlias.mono fun found _ hshape declaration heq => by rw [hshape] at heq; cases heq

end Reader
end ClassWeave
