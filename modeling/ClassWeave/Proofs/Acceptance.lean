import ClassWeave.Proofs.Order
import ClassWeave.Proofs.Tiling
/-!
# Edits that can be applied

Edits in order can be applied exactly if each runs forward from one boundary between characters to another and
none starts in front of where the one before it stops. Edits apart from each other are put in such an order.
-/

namespace ClassWeave

namespace Text

/-- A byte that characters of a text do not straddle. -/
def Boundary (text : Text) (byte : Nat) : Prop := ∃ front back, text = front ++ back ∧ byteLength front = byte

theorem eq_nil_of_byteLength {text : Text} (h : byteLength text = 0) : text = [] := by
  cases text with
  | nil => rfl
  | cons c text =>
    have := c.utf8Size_pos
    rw [byteLength_cons] at h
    omega

theorem exists_append_of_le {a b front back : Text} (h : a ++ b = front ++ back)
    (hle : front.byteLength ≤ a.byteLength) :
    ∃ between, a = front ++ between ∧ back = between ++ b := by
  rcases List.append_eq_append_iff.1 h with ⟨rest, rfl, hb⟩ | ⟨between, ha, hback⟩
  · rw [byteLength_append] at hle
    obtain rfl : rest = [] := eq_nil_of_byteLength (by omega)
    exact ⟨[], by simp, by simpa using hb.symm⟩
  · exact ⟨between, ha, hback⟩

theorem boundary_iff_cut {text : Text} {byte : Nat} : Boundary text byte ↔ (cut byte text).isSome = true := by
  constructor
  · rintro ⟨front, back, rfl, rfl⟩
    rw [cut_append]
    rfl
  · intro h
    obtain ⟨⟨front, back⟩, hcut⟩ := Option.isSome_iff_exists.1 h
    exact ⟨front, back, cut_eq_some hcut⟩

instance (text : Text) (byte : Nat) : Decidable (Boundary text byte) := decidable_of_iff' _ boundary_iff_cut

theorem Boundary.exists_between {front rest : Text} {byte : Nat} (h : Boundary (front ++ rest) byte)
    (hle : byteLength front ≤ byte) :
    ∃ between back, rest = between ++ back ∧ byteLength between = byte - byteLength front := by
  obtain ⟨front', back, htext, rfl⟩ := h
  rcases List.append_eq_append_iff.1 htext with ⟨between, rfl, hrest⟩ | ⟨between, rfl, hback⟩
  · exact ⟨between, back, hrest, by rw [byteLength_append]; omega⟩
  · rw [byteLength_append] at hle
    have hbetween : between = [] := eq_nil_of_byteLength (by omega)
    subst hbetween
    exact ⟨[], rest, rfl, by rw [List.append_nil]; simp⟩

/-- A text can be read exactly from one boundary forward to another. -/
theorem slice?_isSome_iff {text : Text} {span : Span} : (slice? text span).isSome = true ↔
    span.start ≤ span.stop ∧ Boundary text span.start ∧ Boundary text span.stop := by
  rw [Option.isSome_iff_exists]
  constructor
  · rintro ⟨part, hpart⟩
    obtain ⟨front, back, rfl, rfl⟩ := slice?_eq_some_iff.1 hpart
    refine ⟨Nat.le_add_right _ _, ⟨front, part ++ back, rfl, rfl⟩, ⟨front ++ part, back, ?_, ?_⟩⟩
    · rw [List.append_assoc]
    · exact byteLength_append front part
  · obtain ⟨start, stop⟩ := span
    rintro ⟨hforward, ⟨front, rest, rfl, rfl⟩, hstop⟩
    obtain ⟨part, back, rfl, hlength⟩ := hstop.exists_between hforward
    refine ⟨part, slice?_eq_some_iff.2 ⟨front, back, rfl, ?_⟩⟩
    rw [hlength]
    simp only [Span.mk.injEq, true_and] at hforward ⊢
    omega

end Text

/-- Two spans without a byte in common, neither inside the other. -/
def Span.Apart (a b : Span) : Prop := a.stop ≤ b.start ∨ b.stop ≤ a.start

instance (a b : Span) : Decidable (a.Apart b) :=
  inferInstanceAs (Decidable (a.stop ≤ b.start ∨ b.stop ≤ a.start))

theorem Span.Apart.symm {a b : Span} (h : a.Apart b) : b.Apart a := Or.symm h

namespace Edit

structure Fits (text : Text) (edit : Edit) : Prop where
  forward : edit.span.start ≤ edit.span.stop
  start : text.Boundary edit.span.start
  stop : text.Boundary edit.span.stop

def EndsBefore (a b : Edit) : Prop := a.span.stop ≤ b.span.start

theorem fits_of_applyFrom : ∀ {edits : List Edit} {cursor : Nat} {at' : Progress} (front : Text) {rest : Text}
    {reply : Text × List Run}, applyFrom cursor at' rest edits = .ok reply → front.byteLength = cursor →
    (∀ edit ∈ edits, cursor ≤ edit.span.start ∧ edit.Fits (front ++ rest)) ∧ edits.Pairwise EndsBefore
  | [], _, _, _, _, _, _, _ => ⟨by simp, .nil⟩
  | first :: edits, cursor, at', front, _, (output, runs), h, hfront => by
    obtain ⟨kept, removed, rest', _, _, hcursor, hforward, rfl, hkept, hremoved, happly, -, -⟩ :=
      applyFrom_cons h
    have hbehind : (front ++ kept ++ removed).byteLength = first.span.stop := by
      rw [Text.byteLength_append, Text.byteLength_append]; omega
    obtain ⟨hfits, hpairwise⟩ := fits_of_applyFrom _ happly hbehind
    have htext : front ++ (kept ++ removed ++ rest') = front ++ kept ++ removed ++ rest' := by
      simp only [List.append_assoc]
    rw [htext]
    refine ⟨?_, List.pairwise_cons.2 ⟨fun edit hedit => (hfits edit hedit).1, hpairwise⟩⟩
    intro edit hedit
    rcases List.mem_cons.1 hedit with rfl | hedit
    · refine ⟨hcursor, hforward, ⟨front ++ kept, removed ++ rest', ?_, ?_⟩, ⟨_, rest', rfl, hbehind⟩⟩
      · rw [List.append_assoc]
      · rw [Text.byteLength_append]; omega
    · exact ⟨by have := (hfits edit hedit).1; omega, (hfits edit hedit).2⟩

theorem applyFrom_of_fits :
    ∀ {edits : List Edit} {cursor : Nat} (at' : Progress) (front : Text) {rest : Text},
    front.byteLength = cursor → (∀ edit ∈ edits, cursor ≤ edit.span.start ∧ edit.Fits (front ++ rest)) →
    edits.Pairwise EndsBefore → ∃ reply, applyFrom cursor at' rest edits = .ok reply
  | [], _, at', _, rest, _, _, _ => ⟨_, by rw [applyFrom]⟩
  | first :: edits, cursor, at', front, rest, hfront, hfits, hpairwise => by
    obtain ⟨hcursor, hforward, hstart, hstop⟩ := hfits first (by simp)
    obtain ⟨hbefore, hpairwise⟩ := List.pairwise_cons.1 hpairwise
    obtain ⟨kept, behind, rfl, hkept⟩ := hstart.exists_between (by omega)
    have hlength : (front ++ kept).byteLength = first.span.start := by rw [Text.byteLength_append]; omega
    rw [← List.append_assoc] at hstop
    obtain ⟨removed, rest', rfl, hremoved⟩ := hstop.exists_between (by omega)
    have hbehind : (front ++ kept ++ removed).byteLength = first.span.stop := by
      rw [Text.byteLength_append]; omega
    have hrest : ∀ edit ∈ edits, first.span.stop ≤ edit.span.start ∧
        edit.Fits (front ++ kept ++ removed ++ rest') := by
      intro edit hedit
      refine ⟨hbefore edit hedit, ?_⟩
      have := (hfits edit (List.mem_cons_of_mem _ hedit)).2
      simpa only [List.append_assoc] using this
    obtain ⟨⟨output, runs⟩, happly⟩ :=
      applyFrom_of_fits ((at'.copy kept).edit removed first.text) _ hbehind hrest hpairwise
    have hcutKept := Text.cut_append (removed ++ rest') kept
    have hcutRemoved := Text.cut_append rest' removed
    rw [hkept, hfront] at hcutKept
    rw [hremoved, hlength] at hcutRemoved
    rw [applyFrom, if_neg (by omega), if_neg (by omega), hcutKept]
    simp only [hcutRemoved, happly]
    exact ⟨_, rfl⟩

theorem applyAll_isOk {index : Nat} {text : Text} {edits : List Edit} {reply : Text × List Run}
    (h : applyFrom 0 ⟨Position.origin, Position.origin⟩ text (inOrder edits) = .ok reply) :
    ∃ result, applyAll index text edits = .ok result := by
  rw [applyAll, h]
  exact ⟨_, rfl⟩

theorem mem_inOrder {edits : List Edit} {edit : Edit} : edit ∈ inOrder edits ↔ edit ∈ edits :=
  Sorting.mem_sort _

theorem inOrder_pairwise_start (edits : List Edit) :
    (inOrder edits).Pairwise fun a b => a.span.start ≤ b.span.start := by
  have sorted : (inOrder edits).Pairwise fun a b => decide (a.span.start ≤ b.span.start) = true :=
    Sorting.sort_pairwise (fun a b => by simp only [decide_eq_true_eq]; omega)
      (fun a b c => by simp only [decide_eq_true_eq]; omega) edits
  exact sorted.imp of_decide_eq_true

theorem endsBefore_inOrder {edits : List Edit} (apart : edits.Pairwise fun a b => a.span.Apart b.span)
    (filled : ∀ edit ∈ edits, edit.span.start < edit.span.stop) : (inOrder edits).Pairwise EndsBefore := by
  have apart' : (inOrder edits).Pairwise fun a b => a.span.Apart b.span :=
    ((Sorting.sort_perm _ edits).pairwise_iff fun h => Span.Apart.symm h).2 apart
  refine List.Pairwise.imp_of_mem ?_ ((inOrder_pairwise_start edits).and apart')
  rintro a b - hb ⟨hle, hends | hends⟩
  · exact hends
  · have := filled b (mem_inOrder.1 hb)
    omega

/-- Edits apart from each other can be applied exactly if they do not split a character. -/
theorem applyAll_isOk_iff (index : Nat) {text : Text} {edits : List Edit}
    (apart : edits.Pairwise fun a b => a.span.Apart b.span)
    (filled : ∀ edit ∈ edits, edit.span.start < edit.span.stop) :
    (∃ result, applyAll index text edits = .ok result) ↔
      ∀ edit ∈ edits, text.Boundary edit.span.start ∧ text.Boundary edit.span.stop := by
  constructor
  · rintro ⟨⟨output, record⟩, h⟩ edit hedit
    obtain ⟨hfits, -⟩ := fits_of_applyFrom [] (applyAll_eq_ok h) rfl
    obtain ⟨-, -, hstart, hstop⟩ := hfits edit (mem_inOrder.2 hedit)
    exact ⟨hstart, hstop⟩
  · intro hboundary
    have hfits : ∀ edit ∈ inOrder edits, 0 ≤ edit.span.start ∧ edit.Fits ([] ++ text) := by
      intro edit hedit
      rw [mem_inOrder] at hedit
      exact ⟨Nat.zero_le _, Nat.le_of_lt (filled edit hedit),
        (hboundary edit hedit).1, (hboundary edit hedit).2⟩
    obtain ⟨reply, happly⟩ := applyFrom_of_fits ⟨Position.origin, Position.origin⟩ [] rfl hfits
      (endsBefore_inOrder apart filled)
    exact applyAll_isOk happly

end Edit
end ClassWeave
