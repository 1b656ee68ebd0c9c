import ClassWeave.Proofs.Acceptance
import Mathlib.Data.List.Chain
import Mathlib.Data.List.Nodup
/-!
# Splicing edits one at a time

A pass reads its text once, from the first edit to the last. That comes to the same as replacing the
range of one edit after the other in the whole text, from the last edit to the first: what a later
edit changes lies behind every range that is still to be replaced, so the ranges keep their meaning.
-/

namespace ClassWeave
namespace Edit

/-- A text with the range of an edit replaced; none for a range that runs backwards, leaves the text
or splits a character. -/
def splice? (text : Text) (edit : Edit) : Option Text :=
  if edit.span.stop < edit.span.start then none
  else (text.cut edit.span.start).bind fun (front, behind) =>
    (behind.cut (edit.span.stop - edit.span.start)).map fun (_, back) => front ++ edit.text ++ back

def spliceAll (text : Text) : List Edit → Option Text
  | [] => some text
  | edit :: edits => (spliceAll text edits).bind (splice? · edit)

/-- Edits of a text in a row, the next one never in front of where the last one ends. -/
structure InARow (text : Text) (edits : List Edit) : Prop where
  fits : ∀ edit ∈ edits, edit.Fits text
  chain : edits.IsChain EndsBefore

theorem splice?_append {edit : Edit} {front removed : Text} (back : Text)
    (forward : edit.span.start ≤ edit.span.stop) (hfront : front.byteLength = edit.span.start)
    (hremoved : removed.byteLength = edit.span.stop - edit.span.start) :
    splice? (front ++ removed ++ back) edit = some (front ++ edit.text ++ back) := by
  have cutFront := Text.cut_append (removed ++ back) front
  have cutRemoved := Text.cut_append back removed
  rw [hfront] at cutFront
  rw [hremoved] at cutRemoved
  rw [splice?, if_neg (by omega), List.append_assoc, cutFront]
  simp only [Option.bind_some, cutRemoved, Option.map_some]

/-! ## A pass splices -/

theorem spliceAll_of_applyFrom : ∀ {edits : List Edit} {cursor : Nat} {at' : Progress} {rest output : Text}
    {runs : List Run} (front : Text), applyFrom cursor at' rest edits = .ok (output, runs) →
    front.byteLength = cursor → spliceAll (front ++ rest) edits = some (front ++ output)
  | [], _, _, rest, output, runs, front, h, _ => by
    simp only [applyFrom, Except.ok.injEq, Prod.mk.injEq] at h
    rw [spliceAll, h.1]
  | first :: edits, cursor, at', _, _, _, front, h, hfront => by
    obtain ⟨kept, removed, rest', output', _, hcursor, forward, rfl, hkept, hremoved, happly, rfl, -⟩ :=
      applyFrom_cons h
    have hstart : (front ++ kept).byteLength = first.span.start := by rw [Text.byteLength_append]; omega
    have hstop : (front ++ kept ++ removed).byteLength = first.span.stop := by
      rw [Text.byteLength_append]; omega
    -- The edits behind the first one leave everything up to its end as it was.
    have behind := spliceAll_of_applyFrom (front ++ kept ++ removed) happly hstop
    have here := splice?_append output' forward hstart hremoved
    simp only [List.append_assoc] at behind here ⊢
    rw [spliceAll, behind, Option.bind_some, here]

theorem spliceAll_of_applyAll {index : Nat} {text output : Text} {edits : List Edit} {record : Record}
    (h : applyAll index text edits = .ok (output, record)) : spliceAll text (inOrder edits) = some output :=
  spliceAll_of_applyFrom [] (applyAll_eq_ok h) rfl

/-! ## Which passes are accepted -/

theorem pairwise_of_inARow {text : Text} :
    ∀ {edits : List Edit}, InARow text edits → edits.Pairwise EndsBefore
  | [], _ => .nil
  | [_], _ => List.pairwise_singleton _ _
  | first :: second :: edits, h => by
    obtain ⟨hbefore, hchain⟩ := List.isChain_cons_cons.1 h.chain
    have behind : InARow text (second :: edits) :=
      ⟨fun edit hedit => h.fits edit (List.mem_cons_of_mem _ hedit), hchain⟩
    have hpairwise := pairwise_of_inARow behind
    refine List.pairwise_cons.2 ⟨?_, hpairwise⟩
    intro edit hedit
    rcases List.mem_cons.1 hedit with rfl | hedit
    · exact hbefore
    · have hforward := (behind.fits second List.mem_cons_self).forward
      have hlater := (List.pairwise_cons.1 hpairwise).1 edit hedit
      exact le_trans hbefore (le_trans hforward hlater)

/-- A pass goes through exactly if its edits, in order, are in a row. -/
theorem applyAll_isOk_iff_inARow (index : Nat) (text : Text) (edits : List Edit) :
    (∃ result, applyAll index text edits = .ok result) ↔ InARow text (inOrder edits) := by
  constructor
  · rintro ⟨⟨output, record⟩, h⟩
    obtain ⟨hfits, hpairwise⟩ := fits_of_applyFrom [] (applyAll_eq_ok h) rfl
    exact ⟨fun edit hedit => (hfits edit hedit).2, hpairwise.isChain⟩
  · intro h
    obtain ⟨reply, happly⟩ := applyFrom_of_fits ⟨Position.origin, Position.origin⟩ [] rfl
      (fun edit hedit => ⟨Nat.zero_le _, h.fits edit hedit⟩) (pairwise_of_inARow h)
    exact applyAll_isOk happly

/-! ## Distinct starts -/

theorem inOrder_eq_of_perm {sorted pushed : List Edit}
    (strict : sorted.Pairwise fun a b => a.span.start < b.span.start) (h : pushed.Perm sorted) :
    inOrder pushed = sorted := by
  have hperm : (inOrder pushed).Perm sorted := (Sorting.sort_perm _ pushed).trans h
  refine hperm.eq_of_pairwise ?_ (inOrder_pairwise_start pushed) (strict.imp Nat.le_of_lt)
  intro a b ha hb hab hba
  have starts : (sorted.map (·.span.start)).Nodup := List.pairwise_map.2 (strict.imp Nat.ne_of_lt)
  exact List.inj_on_of_nodup_map starts (hperm.mem_iff.1 ha) hb (Nat.le_antisymm hab hba)

theorem inOrder_pairwise_lt {edits : List Edit}
    (distinct : edits.Pairwise fun a b => a.span.start ≠ b.span.start) :
    (inOrder edits).Pairwise fun a b => a.span.start < b.span.start := by
  have distinct' : (inOrder edits).Pairwise fun a b => a.span.start ≠ b.span.start :=
    ((Sorting.sort_perm _ edits).pairwise_iff Ne.symm).2 distinct
  exact ((inOrder_pairwise_start edits).and distinct').imp fun h => Nat.lt_of_le_of_ne h.1 h.2

/-- Edits with distinct starts, pushed in any order: if they are in a row once sorted, the output is
what splicing them one at a time from the last to the first leaves, and otherwise there is none. -/
theorem applyAll_of_distinct (index : Nat) (text : Text) {edits : List Edit}
    (distinct : edits.Pairwise fun a b => a.span.start ≠ b.span.start) :
    ∃ sorted : List Edit, sorted.Perm edits ∧ sorted.Pairwise (fun a b => a.span.start < b.span.start) ∧
      (InARow text sorted → ∃ output record, spliceAll text sorted = some output ∧
        ∀ pushed, pushed.Perm edits → applyAll index text pushed = .ok (output, record)) ∧
      (¬ InARow text sorted → ∀ pushed, pushed.Perm edits →
        ∃ fault, applyAll index text pushed = .error fault) := by
  have hperm : (inOrder edits).Perm edits := Sorting.sort_perm _ edits
  have strict := inOrder_pairwise_lt distinct
  have sameOrder : ∀ pushed : List Edit, pushed.Perm edits → inOrder pushed = inOrder edits :=
    fun pushed h => inOrder_eq_of_perm strict (h.trans hperm.symm)
  refine ⟨inOrder edits, hperm, strict, ?_, ?_⟩
  · intro inARow
    obtain ⟨⟨output, record⟩, happly⟩ := (applyAll_isOk_iff_inARow index text edits).2 inARow
    refine ⟨output, record, spliceAll_of_applyAll happly, ?_⟩
    intro pushed hpushed
    rw [← happly, applyAll, applyAll, sameOrder pushed hpushed]
  · intro notInARow pushed hpushed
    rw [← sameOrder pushed hpushed, ← applyAll_isOk_iff_inARow index] at notInARow
    cases happly : applyAll index text pushed with
    | ok result => exact absurd ⟨result, happly⟩ notInARow
    | error fault => exact ⟨fault, rfl⟩

/-- An insertion that touches a deletion, pushed in front of it. -/
theorem applyAll_of_distinct_touching :
    let deletion : Edit := ⟨⟨1, 5⟩, none⟩
    let insertion : Edit := ⟨⟨5, 5⟩, some ['!']⟩
    ∃ record, ∀ pushed : List Edit, pushed.Perm [insertion, deletion] →
      applyAll 0 ['a', '😀', 'b'] pushed = .ok (['a', '!', 'b'], record) := by
  intro deletion insertion
  have distinct : [insertion, deletion].Pairwise fun a b => a.span.start ≠ b.span.start := by decide
  obtain ⟨sorted, hperm, strict, accepted, -⟩ := applyAll_of_distinct 0 ['a', '😀', 'b'] distinct
  have hsorted : sorted = [deletion, insertion] :=
    (inOrder_eq_of_perm strict hperm.symm).symm.trans (by decide)
  subst hsorted
  have inARow : InARow ['a', '😀', 'b'] [deletion, insertion] := by
    refine ⟨fun edit hedit => ?_, by simp [EndsBefore, deletion, insertion]⟩
    rcases List.mem_pair.1 hedit with rfl | rfl
    · exact ⟨by decide, by decide, by decide⟩
    · exact ⟨by decide, by decide, by decide⟩
  obtain ⟨output, record, hsplice, hall⟩ := accepted inARow
  have houtput : spliceAll ['a', '😀', 'b'] [deletion, insertion] = some ['a', '!', 'b'] := by decide
  rw [hsplice] at houtput
  obtain rfl := Option.some.inj houtput
  exact ⟨record, hall⟩

end Edit
end ClassWeave
