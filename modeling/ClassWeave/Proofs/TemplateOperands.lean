import ClassWeave.Proofs.LiteralReading
import ClassWeave.Proofs.Statements
/-!
# Templates as operands

What is read in front of every closing brace can be embedded by a template. The template is an
operand then, and can be embedded in turn.
-/

namespace ClassWeave

open Lexeme Reader TemplateText

/-- An expression as it stands in the braces of a template. -/
structure Hole where
  text : Text
  node : Nat → Node
  reads : ∀ {budget depth : Nat}, 0 < budget → text.length ≤ budget → text.length + 2 ≤ depth →
    ∀ (start : Nat) (rest : Text) (s : Surroundings), ∃ place,
      freshExpression (Grammar.ofDepth budget depth) s (.at' ⟨text ++ '\x7d' :: rest, start⟩) =
        .done (node start) place ∧ place.AtMark "\x7d" ⟨rest, start + text.byteLength + 1⟩
  contained : ∀ start, Node.Contained [node start] start (start + text.byteLength)
  alike : ∀ {pass next : Pass} {start start' : Nat}, pass.Holds start text → next.Holds start' text →
    (node start).Alike pass next (node start')

namespace Hole

theorem reads_of_leftHandSide {budget depth start : Nat} {text rest : Text} {node : Node} {stop : Nat}
    (hbudget : 0 < budget) (hopens : (Place.at' ⟨text, start⟩).ahead.token.Opens)
    (hsound : Sound (.at' ⟨text, start⟩))
    (hread : ∀ s, leftHandSide (Grammar.ofDepth budget depth) s (.at' ⟨text, start⟩) =
      .done node (.at' ⟨'\x7d' :: rest, stop⟩)) (hatom : node.shape.isAtom = true) (s : Surroundings) :
    freshExpression (Grammar.ofDepth budget (depth + 2)) s (.at' ⟨text, start⟩) =
      .done node (.at' ⟨'\x7d' :: rest, stop⟩) :=
  freshExpression_of_assignment (g := Grammar.ofDepth budget (depth + 2))
    (assignment_of_leftHandSide hopens hsound hread (closes_brace rest stop) hatom hbudget)
    ((atMark_brace rest stop).isMark ",") hbudget

def ofOperand (operand : Operand) : Hole where
  text := operand.lead.text ++ operand.core
  node := operand.node
  reads {budget depth} hbudget hlength hdepth start rest s := by
    rw [List.length_append] at hlength hdepth
    obtain ⟨depth, rfl⟩ := Nat.exists_eq_add_of_le' (Nat.le_of_add_left_le hdepth)
    have hread := fun s => operand.reads (Nat.le_of_add_left_le hlength) (by omega : _ ≤ depth) start
      (fun offset => closes_brace rest offset) s
    refine ⟨_, ?_, atMark_brace rest _⟩
    rw [List.append_assoc, Text.byteLength_append, ← Nat.add_assoc]
    exact reads_of_leftHandSide hbudget (operand.opens _ start) (operand.sound _ start) hread
      (operand.isAtom start) s
  contained start := by
    rw [Text.byteLength_append, ← Nat.add_assoc]
    exact operand.contained start
  alike := operand.alike

def nameNode (name : Text) (start : Nat) : Node :=
  .mk (.identifier (String.ofList name)) ⟨start, start + name.byteLength⟩ []

theorem alike_nameNode {pass next : Pass} {name : Text} {start start' : Nat} (holds : pass.Holds start name)
    (holds' : next.Holds start' name) : (nameNode name start).Alike pass next (nameNode name start') :=
  Node.alike_mk_iff.2 ⟨_, _, rfl, holds.textAt_eq.trans holds'.textAt_eq.symm, Node.allAlike_nil_iff.2 rfl⟩

theorem contained_nameNode (name : Text) (start low high : Nat) :
    Node.Contained [nameNode name start] low high :=
  .of_children rfl (.nil _ _)

def ofName (name : Text) (hname : IsVariableName name) : Hole where
  text := name
  node := nameNode name
  reads {budget depth} hbudget hlength hdepth start rest s := by
    obtain ⟨depth, rfl⟩ := Nat.exists_eq_add_of_le' (Nat.le_of_add_left_le hdepth)
    obtain ⟨hopens, hsound⟩ := opens_variable between_nil hname (endsName_brace rest) start
    have hbrace := atMark_brace rest (start + name.byteLength)
    have hread := fun s => leftHandSide_variable between_nil hname (endsName_brace rest) hbudget depth start
      hbrace (by decide) (closes_brace rest _).endsOperand s
    exact ⟨_, reads_of_leftHandSide hbudget hopens hsound hread rfl s, hbrace⟩
  contained start := contained_nameNode name start _ _
  alike := alike_nameNode

/-! ## What a template embeds -/

def sources (more : List (Hole × Text)) : List (Text × Text) := more.map fun entry => (entry.1.text, entry.2)

/-- The nodes of what a template embeds, whose text begins at an offset behind its opening mark. -/
def nodesOf : Text → List (Hole × Text) → Nat → List Node
  | _, [], _ => []
  | first, (hole, value) :: more, start =>
    hole.node (start + (escape first).byteLength + 2) ::
      nodesOf value more (start + (escape first).byteLength + 2 + hole.text.byteLength + 1)

theorem length_lt_interleave {entry : Hole × Text} : ∀ {more : List (Hole × Text)} (first : Text),
    entry ∈ more → entry.1.text.length < (interleave first (sources more)).length
  | (hole, value) :: more, first, h => by
    show _ < (escape first ++ (embedded hole.text ++ interleave value (sources more))).length
    rw [embedded]
    simp only [List.length_append, List.length_cons]
    rcases List.mem_cons.1 h with rfl | hmem
    · show hole.text.length < _
      omega
    · have := length_lt_interleave value hmem
      omega

theorem byteLength_interleave (first source value : Text) (more : List (Text × Text)) :
    (interleave first ((source, value) :: more)).byteLength =
      (escape first).byteLength + 2 + source.byteLength + 1 + (interleave value more).byteLength := by
  have hlength := congrArg Text.byteLength (interleave_cons first source value more [])
  have hclosing : ('\x7d' : Char).utf8Size = 1 := rfl
  have hopening : ('$' : Char).utf8Size + ('\x7b' : Char).utf8Size = 2 := rfl
  simp only [List.append_nil, Text.byteLength_append, Text.byteLength_cons] at hlength
  omega

theorem templateTail_holes {budget depth start : Nat} (hbudget : 0 < budget) :
    ∀ {more : List (Hole × Text)} {first : Text} {fuel : Nat},
    (∀ entry ∈ more, entry.1.text.length ≤ budget ∧ entry.1.text.length + 2 ≤ depth) → more.length < fuel →
    ∀ (offset : Nat) (rest : Text) (s : Surroundings) (place : Place),
      templateTail (freshExpression (Grammar.ofDepth budget depth)) start false fuel
          ⟨interleave first (sources more) ++ mark :: rest, offset⟩ s place =
        .done ((first :: more.map Prod.snd).map chunkFor, nodesOf first more offset)
          (.at' ⟨rest, offset + (interleave first (sources more)).byteLength + 1⟩)
  | [], first, fuel + 1, _, _, offset, rest, s, place =>
    templateTail_last first (Nat.succ_pos fuel) offset rest place
  | (hole, value) :: more, first, fuel + 1, hroom, hfuel, offset, rest, s, place => by
    obtain ⟨⟨hlength, hdepth⟩, hmore⟩ := List.forall_mem_cons.1 hroom
    obtain ⟨behind, hinner, hclose⟩ := hole.reads hbudget hlength hdepth
      (offset + (escape first).byteLength + 2) (interleave value (sources more) ++ mark :: rest) s
    refine templateTail_next hinner hclose ?_ place
    exact templateTail_holes hbudget hmore (Nat.lt_of_succ_lt_succ hfuel) _ rest s behind

theorem contained_nodesOf : ∀ (more : List (Hole × Text)) (first : Text) (start : Nat),
    Node.Contained (nodesOf first more start) start (start + (interleave first (sources more)).byteLength)
  | [], _, _ => .nil _ _
  | (hole, value) :: more, first, start => by
    have hlength := byteLength_interleave first hole.text value (sources more)
    have hnode := hole.contained (start + (escape first).byteLength + 2)
    have hrest := contained_nodesOf more value
      (start + (escape first).byteLength + 2 + hole.text.byteLength + 1)
    have hcons := hnode.cons (hrest.mono (Nat.le_succ _) (Nat.le_refl _)) (by omega) (by omega)
    refine hcons.mono (by omega) ?_
    show _ ≤ start + (interleave first ((hole.text, value) :: sources more)).byteLength
    omega

theorem holds_interleave {pass : Pass} {start : Nat} {first source value : Text} {more : List (Text × Text)}
    (holds : pass.Holds start (interleave first ((source, value) :: more))) :
    pass.Holds (start + (escape first).byteLength + 2) source ∧
      pass.Holds (start + (escape first).byteLength + 2 + source.byteLength + 1) (interleave value more) := by
  rw [interleave, embedded] at holds
  have hsource :
      pass.Holds (start + (escape first).byteLength + 2) (source ++ ['\x7d'] ++ interleave value more) :=
    @Pass.Holds.right _ _ ['$', '\x7b'] _ (by simpa using holds.right)
  refine ⟨hsource.left.left, ?_⟩
  have hrest := hsource.right
  rwa [Text.byteLength_append, ← Nat.add_assoc] at hrest

theorem allAlike_nodesOf {pass next : Pass} :
    ∀ {more : List (Hole × Text)} {first : Text} {start start' : Nat},
    pass.Holds start (interleave first (sources more)) → next.Holds start' (interleave first (sources more)) →
    Node.AllAlike pass next (nodesOf first more start) (nodesOf first more start')
  | [], _, _, _, _, _ => Node.allAlike_nil_iff.2 rfl
  | (hole, value) :: more, first, start, start', holds, holds' => by
    obtain ⟨hhole, hrest⟩ := holds_interleave holds
    obtain ⟨hhole', hrest'⟩ := holds_interleave holds'
    exact Node.allAlike_cons_iff.2 ⟨_, _, rfl, hole.alike hhole hhole', allAlike_nodesOf hrest hrest'⟩

end Hole

/-! ## Templates -/

namespace Operand

open Hole

variable (lead : Gap) (first : Text) (more : List (Hole × Text))

/-- What a template is read as whose opening mark stands at an offset. -/
def templateNode (start : Nat) : Node :=
  .mk (.template ((first :: more.map Prod.snd).map chunkFor))
    ⟨start, start + (literal first (sources more)).byteLength⟩ (nodesOf first more (start + 1))

theorem literal_append (first : Text) (more : List (Text × Text)) (rest : Text) :
    literal first more ++ rest = mark :: (interleave first more ++ mark :: rest) := by
  simp [literal]

theorem next_literal (more : List (Text × Text)) (rest : Text) (start : Nat) :
    (next ⟨lead.text ++ (literal first more ++ rest), start⟩).Is (.mark "\x60")
      ⟨literal first more ++ rest, start + lead.text.byteLength⟩
      ⟨interleave first more ++ mark :: rest, start + lead.text.byteLength + 1⟩ := by
  rw [literal_append]
  exact next_mark lead.between mark "\x60" (by decide) _ start

theorem not_missing_interleave (first : Text) (more : List (Text × Text)) (rest : Text) :
    (readChunk (interleave first more ++ mark :: rest)).stop ≠ .missing := by
  intro hmissing
  cases more with
  | nil =>
    rw [interleave, readChunk_escape_closed] at hmissing
    cases hmissing
  | cons entry more =>
    obtain ⟨source, value⟩ := entry
    rw [interleave_cons, readChunk_escape_expression] at hmissing
    cases hmissing

theorem sound_literal (more : List (Text × Text)) (rest : Text) (start : Nat) :
    Sound (.at' ⟨lead.text ++ (literal first more ++ rest), start⟩) := by
  have found := next_literal lead first more rest start
  have hstop : (Place.at' ⟨lead.text ++ (literal first more ++ rest), start⟩).ahead.stop =
      ⟨interleave first more ++ mark :: rest, start + lead.text.byteLength + 1⟩ := found.stop_eq
  refine sound_of_chunk found.token_eq ?_
  rw [hstop]
  exact not_missing_interleave first more rest

theorem leftHandSide_literal {budget depth : Nat} (hbudget : (literal first (sources more)).length ≤ budget)
    (hdepth : (literal first (sources more)).length ≤ depth) (start : Nat) {rest : Text}
    (closes : ∀ offset, (next ⟨rest, offset⟩).token.Closes) (s : Surroundings) :
    leftHandSide (Grammar.ofDepth budget depth) s
        (.at' ⟨lead.text ++ (literal first (sources more) ++ rest), start⟩) =
      .done (templateNode first more (start + lead.text.byteLength))
        (.at' ⟨rest, start + lead.text.byteLength + (literal first (sources more)).byteLength⟩) := by
  have found := next_literal lead first (sources more) rest start
  have hsound := sound_literal lead first (sources more) rest start
  generalize hplace : Place.at' ⟨lead.text ++ (literal first (sources more) ++ rest), start⟩ =
    place at hsound ⊢
  have htoken : place.ahead.token = .mark "\x60" := hplace ▸ found.token_eq
  have hfirst : place.ahead.first = start + lead.text.byteLength := hplace ▸ found.first_eq
  have hstop : place.ahead.stop =
      ⟨interleave first (sources more) ++ mark :: rest, start + lead.text.byteLength + 1⟩ :=
    hplace ▸ found.stop_eq
  have hopens : place.ahead.token.Opens := htoken ▸ .template
  have hlength : (literal first (sources more)).length = (interleave first (sources more)).length + 2 := by
    simp [literal]
  have hroom : ∀ entry ∈ more, entry.1.text.length ≤ budget ∧ entry.1.text.length + 2 ≤ depth := by
    intro entry hentry
    have := length_lt_interleave first hentry
    omega
  have hfuel : more.length < budget := by
    have hmore := length_le_interleave (sources more) first
    have hsources : (sources more).length = more.length := List.length_map _
    omega
  have hpositive : 0 < budget := Nat.zero_lt_of_lt hfuel
  have hgrammar : (Grammar.ofDepth budget depth).budget = budget := by cases depth <;> rfl
  have htail : templateTail (freshExpression (Grammar.ofDepth budget depth)) place.ahead.start.offset false
      (Grammar.ofDepth budget depth).budget place.ahead.stop s place =
        .done ((first :: more.map Prod.snd).map chunkFor,
          nodesOf first more (start + lead.text.byteLength + 1))
          (.at' ⟨rest, start + lead.text.byteLength + (literal first (sources more)).byteLength⟩) := by
    have hbehind : start + lead.text.byteLength + (literal first (sources more)).byteLength =
        start + lead.text.byteLength + 1 + (interleave first (sources more)).byteLength + 1 := by
      rw [byteLength_literal]
      omega
    rw [hstop, hgrammar, hbehind]
    exact templateTail_holes hpositive hroom hfuel _ rest s place
  have hprimary := primary_of_templateTail htoken hsound htail
  rw [hfirst] at hprimary
  have hends : (Place.at' ⟨rest, start + lead.text.byteLength +
      (literal first (sources more)).byteLength⟩).EndsOperand := (closes _).endsOperand
  exact leftHandSide_of_member hopens
    (memberExpression_of_primary hopens (Nat.lt_of_lt_of_eq hpositive hgrammar.symm) hprimary
      hends.endsMember rfl) hends rfl

/-- A template with these values as its static text, and these holes in front of all but the first. -/
def ofHoles : Operand where
  lead := lead
  core := literal first (sources more)
  node start := templateNode first more (start + lead.text.byteLength)
  isAtom _ := rfl
  not_identifier _ _ := nofun
  opens rest start := by
    have htoken : (Place.at' ⟨lead.text ++ (literal first (sources more) ++ rest), start⟩).ahead.token =
        .mark "\x60" := (next_literal lead first (sources more) rest start).token_eq
    exact htoken ▸ .template
  sound rest start := sound_literal lead first (sources more) rest start
  calls rest start := by
    intro name escaped hword
    cases (next_literal lead first (sources more) rest start).token_eq.symm.trans hword
  first rest start := (next_literal lead first (sources more) rest start).first_eq
  reads hbudget hdepth start rest closes s :=
    leftHandSide_literal lead first more hbudget hdepth start closes s
  contained start := by
    have hnodes := contained_nodesOf more first (start + lead.text.byteLength + 1)
    have hlength := byteLength_literal first (sources more)
    have hinside := hnodes.mono (Nat.le_refl _) (by omega :
      _ ≤ start + lead.text.byteLength + (literal first (sources more)).byteLength)
    exact (Node.Contained.around hinside (Nat.lt_succ_self _) (by omega)).mono
      (Nat.le_add_right _ _) (Nat.le_refl _)
  alike holds holds' := by
    have hcore := holds.right
    have hcore' := holds'.right
    refine Node.alike_mk_iff.2 ⟨_, _, rfl, hcore.textAt_eq.trans hcore'.textAt_eq.symm, ?_⟩
    rw [literal, List.cons_append] at hcore hcore'
    exact allAlike_nodesOf (@Pass.Holds.right _ _ [mark] _ hcore).left
      (@Pass.Holds.right _ _ [mark] _ hcore').left

end Operand
end ClassWeave
