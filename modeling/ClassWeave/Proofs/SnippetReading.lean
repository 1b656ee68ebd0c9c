import ClassWeave.Helper.Call
import ClassWeave.Proofs.Cutting
import ClassWeave.Proofs.ProgramReading
/-!
# Templates of literals

The template that a call of literals becomes, and how it is read.
-/

namespace ClassWeave

open Lexeme Reader

namespace Leaf

def bare (leaf : Leaf) : HelperTree := .leaf ⟨[], between_nil⟩ leaf ⟨[], between_nil⟩

def node (leaf : Leaf) (start : Nat) : Node := .mk leaf.shape ⟨start, start + leaf.text.byteLength⟩ []

def body : (separated : Bool) → List Leaf → Text
  | _, [] => [TemplateText.mark]
  | separated, leaf :: rest => space separated ++ '$' :: '\x7b' :: (leaf.text ++ '\x7d' :: body true rest)

def snippet (leaves : List Leaf) : Text := TemplateText.mark :: body false leaves

def chunks : (separated : Bool) → List Leaf → List Chunk
  | _, [] => [⟨[], some []⟩]
  | separated, _ :: rest => ⟨space separated, some (space separated)⟩ :: chunks true rest

def nodes : (separated : Bool) → List Leaf → Nat → List Node
  | _, [], _ => []
  | separated, leaf :: rest, offset =>
    leaf.node (offset + (space separated).byteLength + 2) ::
      nodes true rest (offset + (space separated).byteLength + 2 + leaf.text.byteLength + 1)

theorem length_nodes : ∀ (leaves : List Leaf) (separated : Bool) (offset : Nat),
    (nodes separated leaves offset).length = leaves.length
  | [], _, _ => rfl
  | _ :: rest, _, _ => by rw [nodes, List.length_cons, length_nodes rest, List.length_cons]

theorem values_chunks :
    ∀ leaves : List Leaf, (chunks true leaves).map Chunk.value = List.replicate leaves.length [' '] ++ [[]]
  | [] => rfl
  | _ :: rest => by
    rw [chunks, List.map_cons, values_chunks rest]
    rfl

theorem values_snippet (leaves : List Leaf) : (chunks false leaves).map Chunk.value = gaps leaves.length := by
  cases leaves with
  | nil => rfl
  | cons leaf rest =>
    rw [chunks, List.map_cons, values_chunks rest]
    rfl

theorem readChunk_embedded (separated : Bool) (more : Text) :
    TemplateText.readChunk (space separated ++ ['$', '\x7b'] ++ more) =
      ⟨⟨space separated, some (space separated)⟩, none, .expression, more⟩ := by
  cases separated with
  | false => rfl
  | true => rfl

theorem readChunk_closed (more : Text) :
    TemplateText.readChunk (TemplateText.mark :: more) = ⟨⟨[], some []⟩, none, .closed, more⟩ := rfl

theorem freshExpression_of_leaf (leaf : Leaf) {budget : Nat} (hbudget : 0 < budget)
    (depth : Nat) (more : Text) (offset : Nat) (s : Surroundings) :
    freshExpression (Grammar.ofDepth budget (depth + 2)) s (.at' ⟨leaf.text ++ '\x7d' :: more, offset⟩) =
      .done (leaf.node offset) (.at' ⟨'\x7d' :: more, offset + leaf.text.byteLength⟩) := by
  obtain ⟨hopens, hsound⟩ := HelperTree.opens_core leaf.bare ('\x7d' :: more) offset
  have closes := HelperTree.closes_behind ⟨[], between_nil⟩ '\x7d' "\x7d" (by decide) (by decide) more
  have hread := HelperTree.readAs_leaf ⟨[], between_nil⟩ ⟨[], between_nil⟩
    leaf hbudget depth offset ('\x7d' :: more) closes
  have hmark : (next ⟨'\x7d' :: more, offset + leaf.text.byteLength⟩).token.isMark "," = false :=
    isMark_of_next (next_mark between_nil '\x7d' "\x7d" (by decide) more _) ","
  exact freshExpression_of_assignment (g := Grammar.ofDepth budget (depth + 2))
    (assignment_of_leftHandSide hopens hsound hread (closes _)
      (HelperTree.isAtom_node leaf.bare offset) hbudget)
    hmark hbudget

theorem body_cons (separated : Bool) (leaf : Leaf) (leaves : List Leaf) (more : Text) :
    body separated (leaf :: leaves) ++ more =
    (space separated ++ ['$', '\x7b']) ++ (leaf.text ++ '\x7d' :: (body true leaves ++ more)) := by
  simp [body]

theorem byteLength_body_cons (separated : Bool) (leaf : Leaf) (leaves : List Leaf) :
    (body separated (leaf :: leaves)).byteLength =
    (space separated).byteLength + 2 + leaf.text.byteLength + 1 + (body true leaves).byteLength := by
  have hopen : Text.byteLength ['$', '\x7b'] = 2 := rfl
  have hclose : ('\x7d' : Char).utf8Size = 1 := rfl
  have hbody := congrArg Text.byteLength (body_cons separated leaf leaves [])
  simp only [List.append_nil, Text.byteLength_append, Text.byteLength_cons, hopen, hclose] at hbody
  omega

theorem templateTail_of_leaves {budget : Nat} (hbudget : 0 < budget) (depth start : Nat) :
    ∀ (leaves : List Leaf) (separated : Bool) (fuel : Nat), leaves.length < fuel →
    ∀ (offset : Nat) (rest : Text)
      (s : Surroundings) (place : Place),
      templateTail (freshExpression (Grammar.ofDepth budget (depth + 2)))
        start false fuel ⟨body separated leaves ++ rest, offset⟩
          s place =
        .done (chunks separated leaves, nodes separated leaves offset)
          (.at' ⟨rest, offset + (body separated leaves).byteLength⟩)
  | _, _, 0, hfuel, _, _, _, _ => absurd hfuel (Nat.not_lt_zero _)
  | [], separated, fuel + 1, _, offset, rest, s, place => by
    refine (templateTail_closed (readChunk_closed rest) (Nat.succ_pos fuel)).trans ?_
    exact congrArg (Outcome.done _ ∘ Place.at') (Cursor.goTo_append [TemplateText.mark] rest offset)
  | leaf :: leaves, separated, fuel + 1, hfuel, offset, rest, s, place => by
    have hgoTo := Cursor.goTo_append (space separated ++ ['$', '\x7b'])
      (leaf.text ++ '\x7d' :: (body true leaves ++ rest)) offset
    have hlength : (space separated ++ ['$', '\x7b']).byteLength = (space separated).byteLength + 2 :=
      Text.byteLength_append _ _
    rw [hlength, ← Nat.add_assoc] at hgoTo
    have hleaf := freshExpression_of_leaf leaf hbudget depth (body true leaves ++ rest)
      (offset + (space separated).byteLength + 2) s
    have found := next_mark between_nil '\x7d' "\x7d" (by decide) (body true leaves ++ rest)
      (offset + (space separated).byteLength + 2 + leaf.text.byteLength)
    have hrest :=
      fun place => templateTail_of_leaves hbudget depth start leaves true fuel (Nat.lt_of_succ_lt_succ hfuel)
        (offset + (space separated).byteLength + 2 + leaf.text.byteLength + 1) rest s place
    rw [body_cons, byteLength_body_cons, chunks, nodes]
    refine (templateTail_embedded (readChunk_embedded separated _)
      (hgoTo ▸ hleaf) found.token_eq (found.stop_eq ▸ hrest _)).trans ?_
    exact congrArg (fun offset => Outcome.done _ (.at' ⟨rest, offset⟩)) (by omega)

def snippetNode (leaves : List Leaf) : Node :=
  .mk (.template (chunks false leaves)) ⟨0, (snippet leaves).byteLength⟩ (nodes false leaves 1)

theorem length_le_body :
    ∀ (leaves : List Leaf) (separated : Bool), leaves.length < (body separated leaves).length
  | [], _ => Nat.one_pos
  | leaf :: leaves, separated => by
    have ih := length_le_body leaves true
    rw [body]
    simp only [List.length_append, List.length_cons]
    omega

theorem readChunk_body (separated : Bool) (leaves : List Leaf) (more : Text) :
    (TemplateText.readChunk (body separated leaves ++ more)).stop ≠ .missing := by
  cases leaves with
  | nil => rw [body, List.singleton_append, readChunk_closed]; nofun
  | cons leaf leaves => rw [body_cons, readChunk_embedded]; nofun

/-- The template of literals is read as it is written. -/
theorem read_snippet (leaves : List Leaf) (elements : Bool) : ∃ span, Module.read (snippet leaves) elements =
    .ok ⟨snippet leaves, [.mk .expressionStatement span [snippetNode leaves]]⟩ := by
  have hlength := length_le_body leaves false
  have hsnippet : (snippet leaves).length = (body false leaves).length + 1 := rfl
  obtain ⟨depth, hdepth⟩ : ∃ depth, 8 * ((snippet leaves).length + 8) = depth + 2 + 3 :=
    ⟨8 * ((snippet leaves).length + 8) - 5, by omega⟩
  have found := next_mark between_nil TemplateText.mark "\x60" (by decide) (body false leaves) 0
  have htoken : (Place.at' ⟨snippet leaves, 0⟩).ahead.token = .mark "\x60" := found.token_eq
  have hfirst : (Place.at' ⟨snippet leaves, 0⟩).ahead.first = 0 := found.first_eq
  have hstop : (Place.at' ⟨snippet leaves, 0⟩).ahead.stop = ⟨body false leaves, 1⟩ := found.stop_eq
  have hsound : Sound (.at' ⟨snippet leaves, 0⟩) := by
    have hchunk := readChunk_body false leaves []
    rw [List.append_nil] at hchunk
    exact sound_of_chunk htoken (by rw [hstop]; exact hchunk)
  have hend : (Place.at' ⟨[], (snippet leaves).byteLength⟩).ahead.token = .endOfText :=
    (next_end between_nil _).token_eq
  have hopens : (Place.at' ⟨snippet leaves, 0⟩).ahead.token.Opens := htoken ▸ .template
  have hcalls : CallsAhead (.at' ⟨snippet leaves, 0⟩) := fun hword => by cases htoken.symm.trans hword
  have hplain : Module.Plain (snippet leaves) := by
    intro c hc
    obtain rfl : TemplateText.mark = c := Option.some.inj hc
    decide
  have hbudget : 0 < 8 * ((snippet leaves).length + 8) := by omega
  refine Module.read_of_leftHandSide (.at' ⟨[], (snippet leaves).byteLength⟩)
    rfl hdepth hplain hopens hsound hcalls (fun s => ?_) rfl nofun (.text hend) hend
  have htail :=
    templateTail_of_leaves hbudget depth (Place.at' ⟨snippet leaves, 0⟩).ahead.start.offset leaves false
      (8 * ((snippet leaves).length + 8)) (by omega) 1 [] s (.at' ⟨snippet leaves, 0⟩)
  rw [List.append_nil, ← hstop] at htail
  have hprimary :=
    primary_of_templateTail
      (g := Grammar.ofDepth (8 * ((snippet leaves).length + 8)) (depth + 2)) htoken hsound
      htail
  rw [hfirst] at hprimary
  have hcloses : (Place.at' ⟨[], (snippet leaves).byteLength⟩).ahead.token.Closes :=
    hend ▸ Token.closes_endOfText
  exact leftHandSide_of_member hopens (memberExpression_of_primary hopens hbudget hprimary
    hcloses.endsOperand.endsMember rfl) hcloses.endsOperand rfl

end Leaf
end ClassWeave
