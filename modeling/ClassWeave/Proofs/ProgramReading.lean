import ClassWeave.Proofs.HelperHeader
import ClassWeave.Proofs.TreeReading
/-!
# Programs of one tree

A tree of helper calls as the only statement of a module, alone or behind the import of its helpers.
-/

namespace ClassWeave

abbrev Ending := Option Gap

def Ending.text : Ending → Text
  | none => []
  | some gap => ';' :: gap.text

namespace HelperTree

open Lexeme Reader

variable {s : Surroundings}

theorem not_identifier (tree : HelperTree) (start : Nat) (name : String) :
    (tree.node start).shape ≠ .identifier name := by
  cases tree with
  | leaf lead literal trail =>
    intro h
    cases literal <;> cases h
  | call lead helper callee behind given trail =>
    intro h
    cases h

mutual

theorem size_le_length : ∀ tree : HelperTree, tree.size ≤ tree.core.length
  | .leaf lead literal trail => by
    rw [size, core]
    cases literal with
    | string quote body value hquote closed => exact Nat.succ_pos _
    | template body raw value closed => exact Nat.succ_pos _
  | .call lead helper callee behind given trail => by
    have ih := sizes_le_length given
    obtain ⟨c, rest, hname, -⟩ := callee.word.start
    have hlength : 0 < callee.name.toList.length := by
      rw [hname]
      exact Nat.succ_pos _
    rw [size, core]
    simp only [List.length_append, List.length_cons, List.length_nil]
    omega

theorem sizes_le_length : ∀ given : List HelperTree, sizes given ≤ (list given).length + 1
  | [] => Nat.le_refl _
  | [tree] => by
    have ih := size_le_length tree
    rw [sizes, sizes, list]
    simp only [List.length_append]
    omega
  | tree :: next :: rest => by
    have ih := size_le_length tree
    have ih' := sizes_le_length (next :: rest)
    have hlist : list (tree :: next :: rest) =
        tree.lead.text ++ (tree.core ++ (tree.trail.text ++ ',' :: list (next :: rest))) := by simp [list]
    rw [sizes, hlist]
    simp only [List.length_append, List.length_cons]
    omega

end

theorem statementEnd_of_ending (trail : Gap) (ending : Ending) (offset : Nat) : ∃ place,
    StatementEnd (.at' ⟨trail.text ++ ending.text, offset⟩) place ∧ place.ahead.token = .endOfText := by
  cases ending with
  | none =>
    have found := next_end trail.between offset
    have htext : trail.text ++ Ending.text none = trail.text := List.append_nil _
    rw [htext]
    exact ⟨_, .text found.token_eq, found.token_eq⟩
  | some gap =>
    have found := next_mark trail.between ';' ";" (by decide) gap.text offset
    refine ⟨_, .semicolon found.token_eq, ?_⟩
    exact (congrArg (next · |>.token) found.stop_eq).trans (next_end gap.between _).token_eq

theorem closes_of_ending (trail : Gap) (ending : Ending) (offset : Nat) :
    (next ⟨trail.text ++ ending.text, offset⟩).token.Closes := by
  obtain ⟨place, hend, -⟩ := statementEnd_of_ending trail ending offset
  exact hend.closes

theorem text_append (tree : HelperTree) (more : Text) :
    tree.text ++ more = tree.lead.text ++ (tree.core ++ (tree.trail.text ++ more)) := by
  simp [text]

theorem allStatements_of_tree (tree : HelperTree) (ending : Ending)
    (budget : Nat) (hbudget : tree.size + 3 ≤ budget) (fuel : Nat)
    (hfuel : 2 ≤ fuel) (start : Nat) : ∃ place span,
      allStatements (Grammar.ofDepth budget budget) fuel s (.at' ⟨tree.text ++ ending.text, start⟩) =
        .done [.mk .expressionStatement span [tree.node start]] place := by
  obtain ⟨depth, rfl⟩ := Nat.exists_eq_add_of_le' (Nat.le_of_add_left_le hbudget)
  obtain ⟨fuel, rfl⟩ := Nat.exists_eq_add_of_le' hfuel
  obtain ⟨hopens, hsound⟩ := opens_core tree (tree.trail.text ++ ending.text) start
  obtain ⟨place, hend, hlast⟩ := statementEnd_of_ending tree.trail ending
    (start + tree.lead.text.byteLength + tree.core.byteLength)
  have hread :=
    reads tree (depth + 3) (by omega) depth (by omega) start ending.text (closes_of_ending tree.trail ending)
  have hstatement :=
    statement_of_leftHandSide (s := s) (by omega) hopens hsound (@paren_behind_word tree _ start) hread
      (isAtom_node tree start) (not_identifier tree start) hend
  rw [text_append]
  exact ⟨place, _, allStatements_cons _ hopens.ne_end hstatement (allStatements_end (Nat.succ_pos _) hlast)⟩

theorem plain_text (tree : HelperTree) (more : Text)
    (hmark : tree.lead.text.head? ≠ some Module.byteOrderMark) :
    Module.Plain (tree.text ++ more) := by
  intro c hc
  rw [text_append] at hc
  generalize hlead : tree.lead = lead at hmark hc
  obtain ⟨gap, between⟩ := lead
  cases gap with
  | cons d gap =>
    obtain rfl : d = c := Option.some.inj hc
    refine ⟨fun heq => hmark (congrArg some heq), ?_⟩
    rintro rfl
    cases not_solid_of_between between
  | nil =>
    cases tree with
    | leaf lead literal trail =>
      cases literal with
      | string quote body value hquote closed =>
        obtain rfl : quote = c := Option.some.inj hc
        rcases hquote with rfl | rfl
        all_goals decide
      | template body raw value closed =>
        obtain rfl : TemplateText.mark = c := Option.some.inj hc
        decide
    | call lead helper callee behind given trail =>
      obtain ⟨d, rest, hname, hstart⟩ := callee.word.start
      rw [core, hname] at hc
      obtain rfl : d = c := Option.some.inj hc
      constructor
      · rintro rfl
        cases isSolid_of_isStart hstart
      · rintro rfl
        have hhash : IdentifierTable.isStart '#' = false := by decide +kernel
        rw [hhash] at hstart
        cases hstart

theorem length_core_le (tree : HelperTree) (front behind : Text) :
    tree.core.length ≤ (front ++ (tree.text ++ behind)).length := by
  simp only [text, List.length_append]
  omega

theorem read_tree (tree : HelperTree) (ending : Ending) (elements : Bool)
    (hmark : tree.lead.text.head? ≠ some Module.byteOrderMark) : ∃ span,
    Module.read (tree.text ++ ending.text) elements =
      .ok ⟨tree.text ++ ending.text, [.mk .expressionStatement span [tree.node 0]]⟩ := by
  have hsize := size_le_length tree
  have hlength := tree.length_core_le [] ending.text
  rw [List.nil_append] at hlength
  obtain ⟨place, span, hstatements⟩ := allStatements_of_tree (s := { elements }) tree ending
    (8 * ((tree.text ++ ending.text).length + 8)) (by omega)
    (8 * ((tree.text ++ ending.text).length + 8)) (by omega) 0
  exact ⟨span, Module.read_of_allStatements _ (plain_text tree _ hmark) hstatements⟩

theorem read_program (header : HelperImport) (tree : HelperTree) (ending : Ending) (elements : Bool) : ∃ span,
    Module.read (header.text ++ (tree.text ++ ending.text)) elements =
      .ok ⟨header.text ++ (tree.text ++ ending.text),
      [header.node, .mk .expressionStatement span [tree.node header.text.byteLength]]⟩ := by
  have hsize := size_le_length tree
  have hlength := tree.length_core_le header.text ending.text
  have hspecifiers := header.length_specifiers_le (tree.text ++ ending.text)
  obtain ⟨budget, hbudget⟩ : ∃ budget,
    8 * ((header.text ++ (tree.text ++ ending.text)).length + 8) = budget + 2 :=
    ⟨_, rfl⟩
  obtain ⟨place, span, hstatements⟩ := allStatements_of_tree (s := { elements }) tree ending
    (budget + 2) (by omega) (budget + 1) (by omega) header.text.byteLength
  have hheader := statement_of_header (s := { elements }) header (budget + 2) budget (by omega)
    (tree.text ++ ending.text)
  refine ⟨span, Module.read_of_allStatements place (header.plain_text _) ?_⟩
  have hahead : (Place.at' ⟨header.text ++ (tree.text ++ ending.text), 0⟩).ahead.token ≠ .endOfText :=
    (next_header header (tree.text ++ ending.text)).token_eq ▸ nofun
  rw [hbudget]
  exact allStatements_cons _ hahead hheader hstatements

end HelperTree
end ClassWeave
