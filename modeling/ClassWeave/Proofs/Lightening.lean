import ClassWeave.Proofs.Layout
import ClassWeave.Proofs.Renewal
import ClassWeave.Proofs.Words
/-!
# What writing a template anew takes off

Written anew, a template is no heavier than it was, and lighter for every expression that it takes
in and for every `test && value` that becomes a conditional. So a template that is written as it is
has neither.
-/

namespace ClassWeave

open Text (isHeavy bulk heft Sealed)

/-! ## Texts within a bound -/

namespace Text

def Within (bound : Nat) (text : Text) : Prop := Sealed text ∧ bulk text ≤ bound

variable {a b text : Text} {m n : Nat}

theorem Sealed.within (h : Sealed text) : Within (bulk text) text := ⟨h, Nat.le_refl _⟩

theorem Within.mono (h : Within m text) (hle : m ≤ n) : Within n text := ⟨h.1, h.2.trans hle⟩

theorem Within.append (ha : Within m a) (hb : Within n b) : Within (m + n) (a ++ b) :=
  ⟨ha.1.append hb.1, (ha.1 b).symm ▸ Nat.add_le_add ha.2 hb.2⟩

theorem within_of_plain (h : '\\' ∉ text) (hle : heft text ≤ n) : Within n text :=
  ⟨sealed_of_plain h, (bulk_of_plain h).symm ▸ hle⟩

theorem within_space (wanted : Bool) : Within 0 (space wanted) := by
  cases wanted with
  | false => exact within_of_plain (by decide) (by decide)
  | true => exact within_of_plain (by decide) (by decide)

theorem within_encode (value : Text) : Within (heft value) (Quoted.encode value) :=
  ⟨Quoted.sealed_encode value, Nat.le_of_eq (Quoted.bulk_encode value)⟩

theorem within_escape (value : Text) : Within (heft value) (TemplateText.escape value) :=
  ⟨(TemplateText.sealed_escape value).1, Nat.le_of_eq (TemplateText.sealed_escape value).2⟩

theorem Within.embedded (h : Within n text) : Within (n + 1) (embedded text) :=
  ⟨(sealed_embedded h.1).1, (sealed_embedded h.1).2.symm ▸ Nat.succ_le_succ h.2⟩

theorem Within.enclosed (h : Within n text) (wanted : Bool) :
    Within n (if wanted then '(' :: text ++ [')'] else text) := by
  cases wanted with
  | false => exact h
  | true => exact ⟨(bulk_enclosed h.1).1, (bulk_enclosed h.1).2.symm ▸ h.2⟩

theorem heft_trim_le (text : Text) : heft text.trim ≤ heft text := by
  obtain ⟨tail, -, htail⟩ := trimEnd_append text.trimStart
  have hend : (trimEnd text.trimStart).Sublist text.trimStart := by
    conv_rhs => rw [htail]
    exact List.sublist_append_left _ _
  exact heft_le_of_sublist (hend.trans (List.dropWhile_sublist _))

end Text

open Text (Within)

variable {pass : Pass}

theorem Node.LaidOut.within {node : Node} (h : node.LaidOut pass) :
    Within (node.mass pass) (pass.textAt node.span) := h.sealed.within

theorem templateBody_marked (inside : Text) :
    templateBody (TemplateText.mark :: (inside ++ [TemplateText.mark])) = inside := by
  have hmark : TemplateText.mark.utf8Size = 1 := by decide
  simp [templateBody, hmark]

theorem within_templateBody {chunks : List Chunk} {span : Span} {inner : List Node}
    (h : (Node.mk (.template chunks) span inner).LaidOut pass) :
    Within (bulk (pass.textAt span)) (templateBody (pass.textAt span)) := by
  obtain ⟨front, inside, hfront, htext, hinside, -⟩ := h.exists_inside
  have hmarked : Within (bulk inside) (TemplateText.mark :: inside) :=
    ⟨hinside.cons (by decide), Nat.le_of_eq ((Text.bulk_cons (by decide) inside).trans (Nat.zero_add _))⟩
  rw [htext, Node.LaidOut.bulk_marked hfront hinside]
  cases front with
  | nil =>
    rw [List.nil_append, templateBody_marked]
    exact hinside.within.mono (Nat.le_add_left _ _)
  | cons c front =>
    -- Behind a marked comment, what is taken off in front is a character of the comment.
    have hsplit : c :: front ++ TemplateText.mark :: (inside ++ [TemplateText.mark]) =
        c :: (front ++ TemplateText.mark :: inside ++ [TemplateText.mark]) := by simp
    have hslash : c ≠ '\\' := fun heq => (hfront '\\' (by decide)).1 (heq ▸ rfl)
    have hmore : Sealed front := Text.sealed_of_getLast? front fun hlast =>
      (hfront '\\' (by decide)).2 (by rw [List.getLast?_cons, hlast]; rfl)
    rw [hsplit, templateBody]
    split
    · rw [List.dropLast_concat, Text.bulk_cons hslash]
      exact (hmore.within.append hmarked).mono (by omega)
    · exact Text.sealed_nil.within.mono (Nat.zero_le _)

/-! ## Conditionals -/

theorem within_padded {value : Written} {n : Nat} (h : Within n (value.text pass)) (lead trail : Bool) :
    Within n ((padded lead trail value).text pass) := by
  rw [text_padded]
  have hlead : Within 0 (if lead then "\" \" + ".toList else []) := by
    cases lead with
    | false => exact Text.within_of_plain (by decide) (by decide)
    | true => exact Text.within_of_plain (by decide) (by decide)
  have htrail : Within 0 (if trail then " + \" \"".toList else []) := by
    cases trail with
    | false => exact Text.within_of_plain (by decide) (by decide)
    | true => exact Text.within_of_plain (by decide) (by decide)
  exact ((hlead.append h).append htrail).mono (by omega)

theorem within_writtenConditional {test value : Node} (htest : test.LaidOut pass)
    (hvalue : value.LaidOut pass) (lead trail : Bool) :
    Within (test.mass pass + value.mass pass) ((writtenConditional test value lead trail).text pass) := by
  obtain ⟨hbare, hle⟩ := hvalue.unpadded
  have hquestion : Within 0 " ? ".toList := Text.within_of_plain (by decide) (by decide)
  have hcolon : Within 0 " : ".toList := Text.within_of_plain (by decide) (by decide)
  have halternate : Within 0 (Quoted.encode (space (lead && trail))) :=
    (Text.within_encode _).mono (by cases lead <;> cases trail <;> decide)
  -- Only the test and the branch count, whatever the branch is.
  have hwhole : ∀ {branch : Written}, Within (value.mass pass) (branch.text pass) →
    Within (test.mass pass + value.mass pass)
      ((Written.choice test.isLooseTest test branch (.quoted (space (lead && trail)))).text pass) :=
    fun hbranch =>
    (((((htest.within.enclosed test.isLooseTest).append hquestion).append hbranch).append hcolon).append
      halternate).mono (by omega)
  unfold writtenConditional
  cases hconstant : value.unpadded.constantText? with
  | some text =>
    refine hwhole ((Text.within_encode _).mono (Nat.le_trans ?_ hle))
    have hspace : ∀ wanted, heft (space wanted) = 0 := by decide
    rw [Text.heft_append, Text.heft_append, hspace, hspace, Nat.zero_add, Nat.add_zero]
    exact (Text.heft_trim_le text).trans (hbare.heft_constantText? hconstant)
  | none => exact hwhole (within_padded ((hbare.within.enclosed _).mono hle) lead trail)

/-! ## Elements -/

def Entry.Within (pass : Pass) (entry : Entry) (bound : Nat) : Prop :=
  match entry with
  | .conditional test value =>
    ∀ lead trail, Text.Within bound (embedded ((writtenConditional test value lead trail).text pass))
  | entry => Text.Within bound (entry.items.flatMap (Item.text pass))

theorem within_itemsOf {list : List Entry} {bounds : List Nat}
    (h : List.Forall₂ (Entry.Within pass) list bounds) :
    ∀ first behindConditional,
    Within bounds.sum ((itemsOf first behindConditional list).flatMap (Item.text pass)) := by
  induction h with
  | nil => exact fun _ _ => Text.sealed_nil.within
  | @cons entry bound rest bounds hentry _ ih =>
    intro first behindConditional
    rw [List.sum_cons]
    cases hconditional : entry.isConditional with
    | true =>
      cases entry with
      | conditional test value =>
        rw [itemsOf, List.flatMap_cons]
        refine Within.append ?_ (ih false true)
        split
        · exact hentry _ _
        · exact hentry _ _
      | _ => cases hconditional
    | false =>
      rw [itemsOf_cons hconditional, List.flatMap_append, List.flatMap_append, text_spaced]
      have hitems : Within bound (entry.items.flatMap (Item.text pass)) := by
        cases entry with
        | conditional test value => cases hconditional
        | _ => exact hentry
      exact (((Text.within_space _).append hitems).append (ih false false)).mono (by omega)

/-! ## Classes -/

def pieceMass (pass : Pass) (pieces : List (Piece Node)) : Nat :=
  tally (Node.mass pass) (pieces.flatMap Piece.places)

def intake (pieces : List (Piece Node)) : Nat :=
  (embeddedIn (pieces.flatMap Piece.places)).countP Node.isInlined

/-- How much lighter a class is for being written anew, at least. -/
def relief : List (Piece Node) → Nat
  | [.embedded node] => (node.isInlined || node.isAnd).toNat
  | pieces => intake pieces

theorem pieceMass_cons (piece : Piece Node) (rest : List (Piece Node)) :
    pieceMass pass (piece :: rest) = pieceMass pass [piece] + pieceMass pass rest := by
  rw [pieceMass, List.flatMap_cons, tally_append, pieceMass, List.flatMap_singleton]
  rfl

theorem intake_cons (piece : Piece Node) (rest : List (Piece Node)) :
    intake (piece :: rest) = intake [piece] + intake rest := by
  rw [intake, List.flatMap_cons, embeddedIn_append, List.countP_append, intake, List.flatMap_singleton]
  rfl

theorem pieceMass_text (word : Text) : pieceMass pass [.text word] = heft word := by
  rw [pieceMass, List.flatMap_singleton, Piece.places, tally_chars]

theorem intake_text (word : Text) : intake [.text word] = 0 := by
  rw [intake, List.flatMap_singleton, Piece.places, embeddedIn_chars]
  rfl

theorem pieceMass_embedded (node : Node) : pieceMass pass [.embedded node] = node.mass pass + 1 :=
  Nat.add_zero _

theorem intake_embedded (node : Node) : intake [.embedded node] = node.isInlined.toNat := by
  show [node].countP Node.isInlined = _
  rw [List.countP_singleton]
  cases node.isInlined <;> rfl

theorem intake_le : ∀ pieces : List (Piece Node), intake pieces ≤ pieceMass pass pieces
  | [] => Nat.le_refl _
  | .text word :: rest => by
    rw [intake_cons, intake_text, pieceMass_cons, Nat.zero_add]
    exact (intake_le rest).trans (Nat.le_add_left _ _)
  | .embedded node :: rest => by
    have hone := Bool.toNat_le node.isInlined
    have ih : intake rest ≤ pieceMass pass rest := intake_le rest
    rw [intake_cons, intake_embedded, pieceMass_cons, pieceMass_embedded]
    omega

theorem relief_le (pieces : List (Piece Node)) : relief pieces ≤ pieceMass pass pieces := by
  unfold relief
  split
  · rename_i node
    rw [pieceMass_embedded]
    exact (Bool.toNat_le _).trans (Nat.le_add_left _ _)
  · exact intake_le pieces

def PiecesLaidOut (pass : Pass) (pieces : List (Piece Node)) : Prop :=
  ∀ node, .embedded node ∈ pieces → node.LaidOut pass

theorem exists_within_item {piece : Piece Node} (h : PiecesLaidOut pass [piece]) :
    ∃ bound, Within bound (piece.item.text pass) ∧ bound + intake [piece] ≤ pieceMass pass [piece] := by
  cases piece with
  | text word =>
    refine ⟨heft word, Text.within_escape word, ?_⟩
    rw [intake_text, pieceMass_text, Nat.add_zero]
  | embedded node =>
    have hnode := h node (List.mem_singleton_self _)
    obtain ⟨hbare, hle⟩ := hnode.unparenthesized
    have hone := Bool.toNat_le node.isInlined
    rw [intake_embedded, pieceMass_embedded, Piece.item]
    have hhole : node.isInlined = false →
      ∃ bound, Within bound ((Item.hole (.copied false node.unparenthesized)).text pass) ∧
        bound + node.isInlined.toNat ≤ node.mass pass + 1 := fun hinlined => by
      refine ⟨_, hbare.within.embedded, ?_⟩
      rw [hinlined, Bool.toNat_false]
      omega
    cases hstanding : node.standing with
    | constant text =>
      have hheft := hnode.heft_constantText? (Node.standing_constant.1 hstanding)
      exact ⟨heft text, Text.within_escape text, by omega⟩
    | template chunks span inner =>
      rw [Node.unparenthesized_of_template hstanding] at hbare hle
      exact ⟨_, within_templateBody hbare, Nat.add_le_add hle hone⟩
    | conditional test value => exact hhole (Node.isInlined_of_conditional hstanding)
    | other => exact hhole (not_isInlined_of_other hstanding)

theorem exists_within_items : ∀ {pieces : List (Piece Node)}, PiecesLaidOut pass pieces →
    ∃ bound, Within bound ((pieces.map Piece.item).flatMap (Item.text pass)) ∧
    bound + intake pieces ≤ pieceMass pass pieces
  | [], _ => ⟨0, Text.sealed_nil.within, Nat.le_refl _⟩
  | piece :: rest, h => by
    obtain ⟨bound, hitems, hle⟩ := exists_within_items fun node hnode => h node (List.mem_cons_of_mem _ hnode)
    obtain ⟨first, hitem, hfirst⟩ := @exists_within_item pass piece fun node hnode =>
      h node (List.mem_cons.2 (.inl (List.mem_singleton.1 hnode)))
    rw [List.map_cons, List.flatMap_cons, intake_cons, pieceMass_cons]
    exact ⟨_, hitem.append hitems, by omega⟩

theorem heft_constants_le : ∀ {pieces : List (Piece Node)} {texts : List Text}, PiecesLaidOut pass pieces →
    pieces.mapM Piece.constant? = some texts → heft texts.flatten + intake pieces ≤ pieceMass pass pieces
  | [], texts, _, htexts => by
    cases htexts
    exact Nat.le_refl _
  | piece :: rest, texts, h, htexts => by
    rw [List.mapM_cons] at htexts
    obtain ⟨text, htext, htexts⟩ := Option.bind_eq_some_iff.1 htexts
    obtain ⟨others, hothers, htexts⟩ := Option.bind_eq_some_iff.1 htexts
    cases htexts
    have ih := heft_constants_le (fun node hnode => h node (List.mem_cons_of_mem _ hnode)) hothers
    rw [List.flatten_cons, Text.heft_append, intake_cons, pieceMass_cons]
    have hpiece : heft text + intake [piece] ≤ pieceMass pass [piece] := by
      cases piece with
      | text word =>
        cases htext
        rw [intake_text, pieceMass_text, Nat.add_zero]
      | embedded node =>
        rw [intake_embedded, pieceMass_embedded]
        exact Nat.add_le_add ((h node (List.mem_cons_self ..)).heft_constantText? htext) (Bool.toNat_le _)
    omega

theorem within_nonBlank {text : Text} {entry : Entry} (h : (nonBlank text).map .text = some entry) :
    entry.Within pass (heft text) := by
  obtain ⟨kept, hkept, rfl⟩ := Option.map_eq_some_iff.1 h
  unfold nonBlank at hkept
  split at hkept
  · cases hkept
  · cases hkept
    have hitems : (Entry.text text.trim).items.flatMap (Item.text pass) = TemplateText.escape text.trim :=
      List.append_nil _
    show Within (heft text) _
    rw [hitems]
    exact (Text.within_escape _).mono (Text.heft_trim_le text)

theorem exists_within_gluedEntry {pieces : List (Piece Node)} {entry : Entry} (h : PiecesLaidOut pass pieces)
    (hentry : gluedEntry pieces = some entry) :
    ∃ bound, entry.Within pass bound ∧ bound + intake pieces ≤ pieceMass pass pieces := by
  unfold gluedEntry at hentry
  split at hentry
  · rename_i texts htexts
    exact ⟨_, within_nonBlank hentry, heft_constants_le h htexts⟩
  · cases hentry
    exact exists_within_items h

theorem exists_within_entry? {node : Node} {entry : Entry} (h : node.LaidOut pass)
    (hentry : node.standing.entry? node = some entry) :
    ∃ bound, entry.Within pass bound ∧ bound + (node.isInlined || node.isAnd).toNat ≤ node.mass pass + 1 := by
  have hone := Bool.toNat_le (node.isInlined || node.isAnd)
  cases hstanding : node.standing with
  | constant text =>
    rw [hstanding] at hentry
    have hheft := h.heft_constantText? (Node.standing_constant.1 hstanding)
    exact ⟨_, within_nonBlank hentry, by omega⟩
  | template chunks span inner =>
    rw [hstanding] at hentry
    cases hentry
    obtain ⟨hbare, hle⟩ := h.unparenthesized
    rw [Node.unparenthesized_of_template hstanding] at hbare hle
    have hitems : [Item.body chunks span inner].flatMap (Item.text pass) = templateBody (pass.textAt span) :=
      List.append_nil _
    refine ⟨_, ?_, Nat.add_le_add hle hone⟩
    show Within _ _
    rw [Entry.items, hitems]
    exact within_templateBody hbare
  | conditional test value =>
    rw [hstanding] at hentry
    cases hentry
    obtain ⟨htest, hvalue, hle⟩ := h.of_standing hstanding
    refine ⟨_, fun lead trail => (within_writtenConditional htest hvalue lead trail).embedded, ?_⟩
    rw [Node.isInlined_of_conditional hstanding, Bool.false_or]
    omega
  | other =>
    rw [hstanding] at hentry
    cases hentry
    have hitems : [Item.hole (.copied false node)].flatMap (Item.text pass) =
      embedded (pass.textAt node.span) := List.append_nil _
    refine ⟨node.mass pass + 1, ?_, ?_⟩
    · show Within _ _
      rw [Entry.items, hitems]
      exact h.within.embedded
    · rw [not_isInlined_of_other hstanding, isAnd_of_other hstanding]
      exact Nat.le_refl _

theorem exists_within_entryOf {pieces : List (Piece Node)} {entry : Entry} (h : PiecesLaidOut pass pieces)
    (hentry : entryOf pieces = some entry) :
    ∃ bound, entry.Within pass bound ∧ bound + relief pieces ≤ pieceMass pass pieces := by
  match pieces, h, hentry with
  | [], _, hentry => cases hentry
  | [.text word], _, hentry =>
    cases hentry
    refine ⟨heft word, ?_, ?_⟩
    · show Within _ (TemplateText.escape word ++ [])
      rw [List.append_nil]
      exact Text.within_escape word
    · rw [relief, intake_text, pieceMass_text, Nat.add_zero]
      nofun
  | [.embedded node], h, hentry =>
    rw [relief, pieceMass_embedded]
    exact exists_within_entry? (h node (List.mem_singleton_self _)) hentry
  | .text word :: second :: rest, h, hentry => exact exists_within_gluedEntry h hentry
  | .embedded node :: second :: rest, h, hentry => exact exists_within_gluedEntry h hentry

theorem exists_within_entries :
    ∀ {list : List (List (Piece Node))}, (∀ pieces ∈ list, PiecesLaidOut pass pieces) →
    ∃ bounds, List.Forall₂ (Entry.Within pass) (list.filterMap entryOf) bounds ∧
      bounds.sum + (list.map relief).sum ≤ (list.map (pieceMass pass)).sum
  | [], _ => ⟨[], .nil, Nat.le_refl _⟩
  | pieces :: rest, h => by
    obtain ⟨bounds, hbounds, hle⟩ :=
      exists_within_entries fun other hother => h other (List.mem_cons_of_mem _ hother)
    have hpieces := h pieces (List.mem_cons_self ..)
    simp only [List.map_cons, List.sum_cons]
    cases hentry : entryOf pieces with
    | none =>
      have hrelief : relief pieces ≤ pieceMass pass pieces := relief_le pieces
      rw [List.filterMap_cons_none hentry]
      exact ⟨bounds, hbounds, by omega⟩
    | some entry =>
      obtain ⟨bound, hbound, hfirst⟩ := exists_within_entryOf hpieces hentry
      rw [List.filterMap_cons_some hentry]
      refine ⟨bound :: bounds, .cons hbound hbounds, ?_⟩
      rw [List.sum_cons]
      omega

/-! ## Templates -/

section
variable {chunks : List Chunk} {span : Span} {inner : List Node}

theorem sum_pieceMass_le (h : chunks.length = inner.length + 1) :
    ((classes chunks inner).map (pieceMass pass)).sum ≤ tally (Node.mass pass) (weave chunks inner) := by
  refine Nat.le_trans (Nat.le_of_eq ?_) (tally_stretches_le _ _)
  rw [classes_eq_stretches h, List.map_map]
  congr 2
  funext stretch
  rw [Function.comp_apply, pieceMass, places_piecesOf]

/-- Written anew, a template is lighter by what is taken in and by the operators that are exchanged. -/
theorem within_draft (h : (Node.mk (.template chunks) span inner).LaidOut pass) : ∃ bound,
    Within bound ((itemsOf true false (entries chunks inner)).flatMap (Item.text pass)) ∧
      bound + ((classes chunks inner).map relief).sum ≤ tally (Node.mass pass) (weave chunks inner) := by
  have hlength := h.length_of_template
  obtain ⟨-, -, holes, -, -, -, hholes⟩ := h.of_template
  have hinner := ((List.forall₂_and_left _ _).1 hholes).1
  obtain ⟨bounds, hbounds, hle⟩ :=
    @exists_within_entries pass (classes chunks inner) fun pieces hpieces node hnode =>
      hinner node (mem_of_mem_classes hpieces hnode)
  exact ⟨_, within_itemsOf hbounds true false, hle.trans (sum_pieceMass_le hlength)⟩

theorem eq_of_settled {front body : Text}
    (hsettled : render (parts pass chunks inner) = front ++ TemplateText.mark :: body)
    (hfront : front.Loose) : front = [] ∧ entries chunks inner ≠ [] ∧
      body = (itemsOf true false (entries chunks inner)).flatMap (Item.text pass) ++ [TemplateText.mark] := by
  have hfirst : ∀ {c : Char} {more : Text}, c ∈ [Quoted.mark, TemplateText.mark, '\\'] →
    c :: more = front ++ TemplateText.mark :: body →
      front = [] := fun {c more} hc heq => by
    cases front with
    | nil => rfl
    | cons d front => exact absurd (congrArg some (List.cons.inj heq).1.symm) (hfront c hc).1
  rw [← text_draftOf] at hsettled
  unfold draftOf at hsettled
  split at hsettled
  · obtain rfl := hfirst (by decide) hsettled
    cases hsettled
  · rename_i hconstant
    obtain rfl := hfirst (by decide) hsettled
    refine ⟨rfl, fun hnil => ?_, (List.cons.inj hsettled).2.symm⟩
    rw [hnil] at hconstant
    cases hconstant

/-- A template that is written as it is takes nothing in, and no operator in it is exchanged. -/
theorem relief_eq_zero (h : (Node.mk (.template chunks) span inner).LaidOut pass)
    (hsettled : render (parts pass chunks inner) = pass.textAt span) {pieces : List (Piece Node)}
    (hpieces : pieces ∈ classes chunks inner) : relief pieces = 0 := by
  obtain ⟨front, inside, hfront, htext, -, hle⟩ := h.exists_inside
  obtain ⟨bound, hdraft, hbound⟩ := within_draft h
  obtain ⟨-, -, hbody⟩ := eq_of_settled (hsettled.trans htext) hfront
  rw [← List.append_cancel_right hbody] at hdraft
  have hmem : relief pieces ∈ (classes chunks inner).map relief := List.mem_map_of_mem hpieces
  have hsum := List.le_sum_of_mem hmem
  have hheavy := hdraft.2
  omega

end

end ClassWeave
