import ClassWeave.ClassList.Part
import ClassWeave.Proofs.Words
import Mathlib.Data.List.Monad
/-!
# Evaluating class lists

What an expression comes to when it is put into a template: the characters that it shows, and
between them the tests and expressions that are evaluated for it. Of these only the source is known;
a setting says what they come to.
-/

namespace ClassWeave

/-- What tests and expressions come to, by their source. -/
structure Setting where
  holds : Text → Bool
  shows : Text → Text
  elements : Text → List Text
deriving Inhabited

inductive Event where
  | test (source : Text)
  | expression (source : Text)
deriving DecidableEq, Repr

inductive Sign where
  | event (event : Event)
  | shown (c : Char)
deriving DecidableEq, Repr

namespace Sign

def spell (text : Text) : List Sign := text.map .shown

def text (signs : List Sign) : Text := signs.filterMap fun
  | .shown c => some c
  | .event _ => none

def events (signs : List Sign) : List Event := signs.filterMap fun
  | .event found => some found
  | .shown _ => none

@[simp] theorem text_nil : text [] = [] := rfl
@[simp] theorem events_nil : events [] = [] := rfl
@[simp] theorem text_event (event : Event) (signs : List Sign) :
    text (.event event :: signs) = text signs := rfl
@[simp] theorem text_shown (c : Char) (signs : List Sign) : text (.shown c :: signs) = c :: text signs := rfl
@[simp] theorem events_event (event : Event) (signs : List Sign) :
    events (.event event :: signs) = event :: events signs := rfl
@[simp] theorem events_shown (c : Char) (signs : List Sign) : events (.shown c :: signs) = events signs := rfl

@[simp] theorem text_append (a b : List Sign) : text (a ++ b) = text a ++ text b := List.filterMap_append
@[simp] theorem events_append (a b : List Sign) : events (a ++ b) = events a ++ events b :=
  List.filterMap_append

@[simp] theorem text_spell : ∀ chars : Text, text (spell chars) = chars
  | [] => rfl
  | c :: chars => congrArg (c :: ·) (text_spell chars)

@[simp] theorem events_spell : ∀ chars : Text, events (spell chars) = []
  | [] => rfl
  | _ :: chars => events_spell chars

@[simp] theorem spell_nil : spell [] = [] := rfl

@[simp] theorem spell_append (a b : Text) : spell (a ++ b) = spell a ++ spell b := List.map_append

end Sign

/-! ## What an evaluation yields -/

/-- What is evaluated for a class list, and the classes that it comes to. -/
structure Yield where
  events : List Event
  words : List Text
deriving DecidableEq, Repr

namespace Yield

instance : Append Yield := ⟨fun a b => ⟨a.events ++ b.events, a.words ++ b.words⟩⟩

def none : Yield := ⟨[], []⟩

def all (yields : List Yield) : Yield := yields.foldr (· ++ ·) none

def of (signs : List Sign) : Yield := ⟨Sign.events signs, (Sign.text signs).words⟩

theorem append_def (a b : Yield) : a ++ b = ⟨a.events ++ b.events, a.words ++ b.words⟩ := rfl

@[simp] theorem append_assoc (a b c : Yield) : a ++ b ++ c = a ++ (b ++ c) := by simp [append_def]
@[simp] theorem none_append (a : Yield) : none ++ a = a := rfl
@[simp] theorem append_none (a : Yield) : a ++ none = a := by simp [append_def, none]

@[simp] theorem all_nil : all [] = none := rfl
@[simp] theorem all_cons (a : Yield) (rest : List Yield) : all (a :: rest) = a ++ all rest := rfl

@[simp] theorem all_append : ∀ a b : List Yield, all (a ++ b) = all a ++ all b
  | [], b => rfl
  | y :: a, b => by simp [all_append a b]

@[simp] theorem of_nil : of [] = none := rfl

@[simp] theorem of_event (event : Event) (signs : List Sign) :
    of (.event event :: signs) = ⟨[event], []⟩ ++ of signs := rfl

theorem of_append_of_opens {a b : List Sign} (h : (Sign.text b).Opens) : of (a ++ b) = of a ++ of b := by
  simp [of, append_def, Text.words_append_of_opens h]

theorem of_append_of_closes {a b : List Sign} (h : (Sign.text a).Closes) : of (a ++ b) = of a ++ of b := by
  simp [of, append_def, Text.words_append_of_closes h]

@[simp] theorem of_spell (text : Text) : of (Sign.spell text) = ⟨[], text.words⟩ := by simp [of]

theorem of_append_spell {blanks : Text} (h : ∀ c ∈ blanks, Text.isBlank c = true) (a : List Sign) :
    of (a ++ Sign.spell blanks) = of a := by
  rw [of_append_of_opens, of_spell, Text.words_eq_nil h]
  · exact append_none _
  · rw [Sign.text_spell]
    exact fun c hc => h c (List.mem_of_mem_head? hc)

theorem of_spell_append {blanks : Text} (h : ∀ c ∈ blanks, Text.isBlank c = true) (a : List Sign) :
    of (Sign.spell blanks ++ a) = of a := by
  rw [of_append_of_closes, of_spell, Text.words_eq_nil h]
  · exact none_append _
  · rw [Sign.text_spell]
    exact fun c hc => h c (List.mem_of_mem_getLast? hc)

end Yield

/-! ## Templates as sequences -/

section
variable {α β : Type}

def weave : List Chunk → List α → List (Char ⊕ α)
  | [], _ => []
  | chunk :: chunks, [] => chunk.value.map .inl ++ weave chunks []
  | chunk :: chunks, expression :: rest => chunk.value.map .inl ++ .inr expression :: weave chunks rest

theorem weave_map (f : α → β) : ∀ (chunks : List Chunk) (embedded : List α),
    weave chunks (embedded.map f) = (weave chunks embedded).map (Sum.map id f)
  | [], _ => by simp [weave]
  | chunk :: chunks, [] => by
    have ih := weave_map f chunks []
    rw [List.map_nil] at ih ⊢
    simp [weave, ih, Function.comp_def]
  | chunk :: chunks, expression :: rest => by simp [weave, weave_map f chunks rest, Function.comp_def]

theorem mem_weave {expression : α} :
    ∀ {chunks : List Chunk} {embedded : List α}, chunks.length = embedded.length + 1 →
    (.inr expression ∈ weave chunks embedded ↔ expression ∈ embedded)
  | [], _, h => by simp at h
  | [chunk], [], _ => by simp [weave]
  | chunk :: chunks, other :: rest, h => by
    have hlength : chunks.length = rest.length + 1 := by simpa using h
    simp [weave, mem_weave hlength]
  | _ :: _ :: _, [], h => by simp at h

end

/-! ## What expressions show -/

variable (setting : Setting) (pass : Pass)

def Node.bareText (node : Node) : Text := pass.textAt node.unparenthesized.span

def Setting.ask (source : Text) : List Sign :=
  .event (.expression source) :: Sign.spell (setting.shows source)

def Setting.list (source : Text) : List Sign :=
  .event (.expression source) :: Sign.spell (Text.joinWith [' '] (setting.elements source))

def Setting.choose (test : Text) (yes no : List Sign) : List Sign :=
  .event (.test test) :: if setting.holds test then yes else no

def Setting.when (test : Text) (yield : Yield) : Yield :=
  ⟨[.test test], []⟩ ++ if setting.holds test then yield else .none

theorem Setting.of_choose (test : Text) (yes : List Sign) {no : List Sign} (h : Yield.of no = .none) :
    Yield.of (setting.choose test yes no) = setting.when test (Yield.of yes) := by
  rw [choose, when, Yield.of_event]
  split
  · rfl
  · rw [h]

def signsOf (sequence : List (Char ⊕ List Sign)) : List Sign :=
  sequence.flatMap (Sum.elim (fun c => [.shown c]) id)

@[simp] theorem signsOf_nil : signsOf [] = [] := rfl

@[simp] theorem signsOf_append (a b : List (Char ⊕ List Sign)) : signsOf (a ++ b) = signsOf a ++ signsOf b :=
  List.flatMap_append

@[simp] theorem signsOf_inr (signs : List Sign) (rest : List (Char ⊕ List Sign)) :
    signsOf (.inr signs :: rest) = signs ++ signsOf rest := rfl

@[simp] theorem signsOf_chars : ∀ text : Text, signsOf (text.map .inl) = Sign.spell text
  | [] => rfl
  | c :: text => by
    have ih := signsOf_chars text
    unfold signsOf Sign.spell at *
    rw [List.map_cons, List.flatMap_cons, ih]
    rfl

namespace Node

def joined? : Node → Option Node
  | .mk (.call 1) _ [.mk (.other .member) _ [.mk (.other .array) _ [.mk .spread _ [inner]],
      .mk (.identifier "join") _ []], .mk (.literal (.string [' '])) _ []] => some inner
  | _ => none

def known (node : Node) : List Sign :=
  match node.joined? with
  | some inner => setting.list (bareText pass inner)
  | none => setting.ask (pass.textAt node.span)

mutual

/-- What is evaluated for an expression that is put into a template, and what it shows. -/
def signs : Node → List Sign
  | .mk (.literal value) span _ =>
    match value.text? with
    | some text => Sign.spell text
    | none => setting.ask (pass.textAt span)
  | .mk (.template chunks) _ inner => signsOf (weave chunks (allSigns inner))
  | .mk .parenthesized _ [inner] => signs inner
  | .mk (.binary "+") span [left, right] =>
    if left.isStringAmong [[' ']] || right.isStringAmong [[' ']] then signs left ++ signs right
    else setting.ask (pass.textAt span)
  | .mk (.binary "&&") _ [test, value] =>
    setting.choose (bareText pass test) (signs value) (Sign.spell (setting.shows (bareText pass test)))
  | .mk .conditional _ [test, consequent, alternate] =>
    setting.choose (bareText pass test) (signs consequent) (signs alternate)
  | .mk shape span children => known setting pass (.mk shape span children)

def allSigns : List Node → List (List Sign)
  | [] => []
  | node :: rest => signs node :: allSigns rest

end

theorem allSigns_eq (nodes : List Node) : allSigns setting pass nodes = nodes.map (signs setting pass) := by
  induction nodes with
  | nil => rfl
  | cons node rest ih => exact congrArg (signs setting pass node :: ·) ih

@[simp] theorem signs_unparenthesized : ∀ node : Node,
    signs setting pass node.unparenthesized = signs setting pass node := by
  intro node
  fun_induction unparenthesized node with
  | case1 span inner ih => rw [ih, signs]
  | case2 node h => rfl

theorem signs_of_constantText? {node : Node} {text : Text}
    (hfit : ∀ chunks span, node.unparenthesized = .mk (.template chunks) span [] → chunks.length = 1)
    (h : node.constantText? = some text) : signs setting pass node = Sign.spell text := by
  rw [← signs_unparenthesized]
  unfold constantText? at h
  split at h
  · rename_i value span children heq
    rw [heq, signs.eq_1, h]
  · rename_i chunks span heq
    obtain ⟨chunk, rfl⟩ := List.length_eq_one_iff.1 (hfit chunks span heq)
    cases h
    rw [heq]
    simp [signs, allSigns, weave, staticText]
  · cases h

theorem signs_of_isStringAmong {node : Node} {values : List Text} (h : node.isStringAmong values = true) :
    ∃ value ∈ values, signs setting pass node = Sign.spell value := by
  rw [← signs_unparenthesized]
  unfold isStringAmong at h
  split at h
  · rename_i value span children heq
    exact ⟨value, by simpa using h, by rw [heq]; rfl⟩
  · cases h

theorem signs_of_isBlankString {node : Node} (h : node.isBlankString = true) :
    ∃ blanks, (∀ c ∈ blanks, Text.isBlank c = true) ∧ signs setting pass node = Sign.spell blanks := by
  obtain ⟨value, hvalue, heq⟩ := signs_of_isStringAmong setting pass h
  refine ⟨value, ?_, heq⟩
  simp only [List.mem_cons, List.not_mem_nil, or_false] at hvalue
  rcases hvalue with rfl | rfl
  · simp
  · simpa using Text.isBlank_space

theorem signs_of_space {node : Node} (h : node.isStringAmong [[' ']] = true) :
    signs setting pass node = Sign.spell [' '] := by
  obtain ⟨value, hvalue, heq⟩ := signs_of_isStringAmong setting pass h
  rw [heq, List.mem_singleton.1 hvalue]

theorem isBlank_of_mem_space : ∀ c ∈ [' '], Text.isBlank c = true := by simpa using Text.isBlank_space

theorem of_signs_withoutTrail (node : Node) :
    Yield.of (signs setting pass node.withoutTrail) = Yield.of (signs setting pass node) := by
  unfold withoutTrail
  split
  · rename_i span left right
    split
    · rename_i hright
      have hplus : (left.isStringAmong [[' ']] || right.isStringAmong [[' ']]) = true := by simp [hright]
      rw [signs, if_pos hplus, signs_of_space setting pass hright, Yield.of_append_spell isBlank_of_mem_space]
    · rfl
  · rfl

theorem of_signs_withoutLead (node : Node) :
    Yield.of (signs setting pass node.withoutLead) = Yield.of (signs setting pass node) := by
  unfold withoutLead
  split
  · rename_i span left right
    split
    · rename_i hleft
      have hplus : (left.isStringAmong [[' ']] || right.isStringAmong [[' ']]) = true := by simp [hleft]
      rw [signs, if_pos hplus, signs_of_space setting pass hleft, Yield.of_spell_append isBlank_of_mem_space]
    · rfl
  · rfl

theorem of_signs_unpadded (node : Node) :
    Yield.of (signs setting pass node.unpadded) = Yield.of (signs setting pass node) := by
  rw [unpadded, of_signs_withoutLead, of_signs_withoutTrail, signs_unparenthesized]

end Node
end ClassWeave
