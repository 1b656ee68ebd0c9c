import ClassWeave.Helper.Call
import ClassWeave.Proofs.Standing
/-!
# Class lists as they are written

The tree behind the text of a rendered class list: which expressions of the pass it copies, and what
it puts around them. Its text is the rendered one, so a reader that takes the text as it is written
finds this tree.
-/

namespace ClassWeave

inductive Written where
  | copied (enclosed : Bool) (node : Node)
  | quoted (text : Text)
  | led (value : Written)
  | trailed (value : Written)
  | choice (enclosed : Bool) (test : Node) (value alternate : Written)
  | listed (node : Node)

/-- A stretch of a template as it is written. -/
inductive Item where
  | shown (text : Text)
  | body (chunks : List Chunk) (span : Span) (inner : List Node)
  | hole (value : Written)

inductive Entry where
  | text (text : Text)
  | splice (items : List Item)
  | embed (node : Node)
  | conditional (test value : Node)

inductive Draft where
  | quoted (text : Text)
  | template (items : List Item)

/-! ## From classes to a draft -/

def Standing.entry? (node : Node) : Standing → Option Entry
  | .constant text => (nonBlank text).map .text
  | .template chunks span inner => some (.splice [.body chunks span inner])
  | .conditional test value => some (.conditional test value)
  | .other => some (.embed node)

def Standing.item (node : Node) : Standing → Item
  | .constant text => .shown text
  | .template chunks span inner => .body chunks span inner
  | .conditional _ _ => .hole (.copied false node.unparenthesized)
  | .other => .hole (.copied false node.unparenthesized)

namespace Piece

def constant? : Piece Node → Option Text
  | .text word => some word
  | .embedded node => node.constantText?

def item : Piece Node → Item
  | .text word => .shown word
  | .embedded node => node.standing.item node

end Piece

def gluedEntry (pieces : List (Piece Node)) : Option Entry :=
  match pieces.mapM Piece.constant? with
  | some texts => (nonBlank texts.flatten).map .text
  | none => some (.splice (pieces.map Piece.item))

def entryOf : List (Piece Node) → Option Entry
  | [.text word] => some (.text word)
  | [.embedded node] => node.standing.entry? node
  | pieces => gluedEntry pieces

def entries (chunks : List Chunk) (inner : List Node) : List Entry := (classes chunks inner).filterMap entryOf

namespace Entry

def isConditional : Entry → Bool
  | .conditional _ _ => true
  | _ => false

def constant? : Entry → Option Text
  | .text words => some words
  | _ => none

end Entry

def padded (lead trail : Bool) (value : Written) : Written :=
  let led := if lead then .led value else value
  if trail then .trailed led else led

def writtenConditional (test value : Node) (lead trail : Bool) : Written :=
  .choice test.isLooseTest test
    (match value.unpadded.constantText? with
      | some text => .quoted (space lead ++ text.trim ++ space trail)
      | none => padded lead trail (.copied (!value.unpadded.isOperand) value.unpadded))
    (.quoted (space (lead && trail)))

def spaced (wanted : Bool) : List Item := if wanted then [.shown [' ']] else []

/-- How elements are written, where `first` tells whether nothing stands in front of them, and
`behindConditional` whether a conditional does. -/
def itemsOf : (first behindConditional : Bool) → List Entry → List Item
  | _, _, [] => []
  | first, behindConditional, entry :: rest =>
    let separated := !(first || behindConditional)
    match entry with
    | .text text => spaced separated ++ .shown text :: itemsOf false false rest
    | .splice items => spaced separated ++ items ++ itemsOf false false rest
    | .embed node => spaced separated ++ .hole (.copied false node) :: itemsOf false false rest
    | .conditional test value =>
      let segment :=
        if rest.all Entry.isConditional then writtenConditional test value (!first) false
        else writtenConditional test value separated true
      .hole segment :: itemsOf false true rest

def draftOf (chunks : List Chunk) (inner : List Node) : Draft :=
  match (entries chunks inner).mapM Entry.constant? with
  | some texts => .quoted (Text.joinWith [' '] texts)
  | none => .template (itemsOf true false (entries chunks inner))

def argumentOf : Node → Written
  | .mk .spread _ [inner] => .listed inner
  | node => .copied false node

/-! ## The text of a draft -/

section
variable (pass : Pass)

def Written.text : Written → Text
  | .copied enclosed node => if enclosed then '(' :: pass.textAt node.span ++ [')'] else pass.textAt node.span
  | .quoted text => Quoted.encode text
  | .led value => Quoted.encode [' '] ++ " + ".toList ++ value.text
  | .trailed value => value.text ++ " + ".toList ++ Quoted.encode [' ']
  | .choice enclosed test value alternate =>
    (if enclosed then '(' :: pass.textAt test.span ++ [')'] else pass.textAt test.span) ++
      " ? ".toList ++ value.text ++ " : ".toList ++ alternate.text
  | .listed node => "[...".toList ++ pass.textAt node.span ++ "].join(\" \")".toList

def Item.text : Item → Text
  | .shown text => TemplateText.escape text
  | .body _ span _ => templateBody (pass.textAt span)
  | .hole value => embedded (value.text pass)

def Draft.text : Draft → Text
  | .quoted text => Quoted.encode text
  | .template items => TemplateText.mark :: items.flatMap (Item.text pass) ++ [TemplateText.mark]

def Entry.part : Entry → Part
  | .text words => .text words
  | .splice items => .splice (items.flatMap (Item.text pass))
  | .embed node => .embed (pass.textAt node.span)
  | .conditional test value => conditionalPart pass test value

theorem Standing.part?_eq_entry (node : Node) (standing : Standing) :
    standing.part? pass node = (standing.entry? node).map (Entry.part pass) := by
  cases standing with
  | constant text => rw [part?, entry?, Option.map_map]; rfl
  | template chunks span inner => simp [part?, entry?, Entry.part, Item.text]
  | conditional test value => rfl
  | other => rfl

theorem foldl_addPiece : ∀ (pieces : List (Piece Node)) (glued : Glued),
    pieces.foldl (Glued.addPiece pass) glued =
      ⟨glued.plain.bind fun plain => (pieces.mapM Piece.constant?).map fun texts => plain ++ texts.flatten,
        glued.source ++ (pieces.map Piece.item).flatMap (Item.text pass)⟩
  | [], ⟨plain, source⟩ => by simp
  | .text word :: pieces, glued => by
    have h : glued.addPiece pass (.text word) = glued.addText word := rfl
    rw [List.foldl_cons, h, foldl_addPiece pieces, Glued.addText]
    cases glued.plain <;> cases hrest : pieces.mapM Piece.constant? <;>
      simp [List.mapM_cons, Piece.constant?, Piece.item, Item.text, hrest]
  | .embedded node :: pieces, glued => by
    rw [List.foldl_cons, addPiece_embedded, foldl_addPiece pieces]
    cases hstanding : node.standing with
    | constant text =>
      have hconstant := Node.standing_constant.1 hstanding
      rw [Standing.addTo, Glued.addText]
      cases glued.plain <;> cases hrest : pieces.mapM Piece.constant? <;>
        simp [List.mapM_cons, Piece.constant?, Piece.item, Item.text,
          hrest, hconstant, hstanding, Standing.item]
    | _ =>
      have hconstant := Node.constantText?_of_standing hstanding (by simp)
      simp [Standing.addTo, List.mapM_cons, Piece.constant?, Piece.item,
        Item.text, Written.text, hconstant, hstanding, Standing.item]

theorem partOf_eq_entryOf (pieces : List (Piece Node)) :
    partOf pass pieces = (entryOf pieces).map (Entry.part pass) := by
  have hglued : gluedPart pass pieces = (gluedEntry pieces).map (Entry.part pass) := by
    unfold gluedPart gluedEntry
    rw [foldl_addPiece]
    cases pieces.mapM Piece.constant? with
    | some texts => simp [Entry.part, Function.comp_def]
    | none => simp [Entry.part]
  match pieces, hglued with
  | [], hglued => exact hglued
  | [.text word], _ => rfl
  | [.embedded node], _ =>
    show aloneParts pass node = (node.standing.entry? node).map (Entry.part pass)
    rw [aloneParts_eq, Standing.part?_eq_entry]
  | first :: _ :: _, hglued =>
    cases first with
    | text word => exact hglued
    | embedded node => exact hglued

theorem parts_eq_entries (chunks : List Chunk) (inner : List Node) :
    parts pass chunks inner = (entries chunks inner).map (Entry.part pass) := by
  unfold parts entries
  rw [List.map_filterMap]
  exact List.filterMap_congr fun pieces _ => partOf_eq_entryOf pass pieces

theorem isConditional_part (entry : Entry) : (entry.part pass).isConditional = entry.isConditional := by
  cases entry <;> rfl

theorem constant?_part (entry : Entry) : (entry.part pass).constant? = entry.constant? := by
  cases entry <;> rfl

theorem all_isConditional_part (rest : List Entry) :
    (rest.map (Entry.part pass)).all Part.isConditional = rest.all Entry.isConditional := by
  rw [List.all_map]
  exact congrArg rest.all (funext fun entry => isConditional_part pass entry)

theorem mapM_constant?_part : ∀ list : List Entry,
    (list.map (Entry.part pass)).mapM Part.constant? = list.mapM Entry.constant?
  | [] => rfl
  | entry :: rest => by
    rw [List.map_cons, List.mapM_cons, List.mapM_cons, constant?_part, mapM_constant?_part rest]

theorem text_spaced (wanted : Bool) : (spaced wanted).flatMap (Item.text pass) = space wanted := by
  cases wanted <;> rfl

def branchOf (value : Node) : Branch :=
  match value.unpadded.constantText? with
  | some text => .text text.trim
  | none => .expression (operandSource pass value.unpadded)

theorem conditionalPart_eq (test value : Node) :
    conditionalPart pass test value = .conditional (testSource pass test) (branchOf pass value) := rfl

theorem text_padded (lead trail : Bool) (value : Written) :
    (padded lead trail value).text pass =
      (if lead then "\" \" + ".toList else []) ++ value.text pass ++ if trail then
        " + \" \"".toList else [] := by
  have hlead : "\" \" + ".toList = Quoted.encode [' '] ++ " + ".toList := by decide
  have htrail : " + \" \"".toList = " + ".toList ++ Quoted.encode [' '] := by decide
  rw [hlead, htrail]
  cases lead <;> cases trail <;>
    simp only [padded, Written.text, Bool.false_eq_true, ↓reduceIte,
      List.append_assoc, List.nil_append, List.append_nil]

theorem text_writtenConditional (test value : Node) (lead trail : Bool) :
    (Item.hole (writtenConditional test value lead trail)).text pass =
      renderConditional (testSource pass test) (branchOf pass value) lead trail := by
  unfold writtenConditional branchOf
  cases value.unpadded.constantText? with
  | some text => rfl
  | none =>
    simp only [Item.text, Written.text, text_padded, renderConditional, testSource, operandSource]
    cases value.unpadded.isOperand <;>
      simp only [Bool.not_true, Bool.not_false, Bool.false_eq_true, ↓reduceIte]

theorem text_itemsOf : ∀ (list : List Entry) (first behindConditional : Bool),
    (itemsOf first behindConditional list).flatMap (Item.text pass) =
      renderParts first behindConditional (list.map (Entry.part pass))
  | [], _, _ => rfl
  | .text words :: rest, first, behindConditional => by
    rw [itemsOf, List.map_cons, Entry.part, renderParts, ← text_itemsOf rest]
    simp [text_spaced, Item.text]
  | .splice items :: rest, first, behindConditional => by
    rw [itemsOf, List.map_cons, Entry.part, renderParts, ← text_itemsOf rest]
    simp [text_spaced]
  | .embed node :: rest, first, behindConditional => by
    rw [itemsOf, List.map_cons, Entry.part, renderParts, ← text_itemsOf rest]
    simp [text_spaced, Item.text, Written.text]
  | .conditional test value :: rest, first, behindConditional => by
    rw [itemsOf, List.map_cons, Entry.part, conditionalPart_eq,
      renderParts, ← text_itemsOf rest, all_isConditional_part]
    rw [List.flatMap_cons]
    split
    · rw [text_writtenConditional]
    · rw [text_writtenConditional]

/-- The draft of a template has the text that is rendered. -/
theorem text_draftOf (chunks : List Chunk) (inner : List Node) :
    (draftOf chunks inner).text pass = render (parts pass chunks inner) := by
  unfold draftOf render
  rw [parts_eq_entries, mapM_constant?_part]
  cases (entries chunks inner).mapM Entry.constant? with
  | some texts => rfl
  | none => rw [Draft.text, text_itemsOf]

end

end ClassWeave
