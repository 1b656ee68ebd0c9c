import ClassWeave.Proofs.Copying
import ClassWeave.Proofs.Patching
/-!
# Frames

Two texts have a frame in common if they differ in some stretches only. Edits inside the stretches
of the one leave the frame as it is, and the edits in front of a byte tell how far it is moved.
-/

namespace ClassWeave

def Span.Within (inner outer : Span) : Prop := outer.start ≤ inner.start ∧ inner.stop ≤ outer.stop

instance (inner outer : Span) : Decidable (inner.Within outer) :=
  inferInstanceAs (Decidable (outer.start ≤ inner.start ∧ inner.stop ≤ outer.stop))

theorem Span.Within.trans {a b c : Span} (h : a.Within b) (h' : b.Within c) : a.Within c :=
  ⟨h'.1.trans h.1, h.2.trans h'.2⟩

/-! ## Moved bytes -/

namespace Edit

/-- Where a byte that no edit straddles stands behind a pass. -/
def moved (edits : List Edit) (byte : Nat) : Nat :=
  byte + written (inFront edits byte) - removed (inFront edits byte)

theorem inOrder_perm (edits : List Edit) : (inOrder edits).Perm edits := Sorting.sort_perm _ edits

theorem moved_perm {a b : List Edit} (h : a.Perm b) (byte : Nat) : moved a byte = moved b byte := by
  rw [moved, moved, written_perm (inFront_perm h byte), removed_perm (inFront_perm h byte)]

theorem inFront_append (a b : List Edit) (byte : Nat) :
    inFront (a ++ b) byte = inFront a byte ++ inFront b byte :=
  List.filter_append ..

theorem written_append (a b : List Edit) : written (a ++ b) = written a + written b := by
  rw [written, List.map_append, List.sum_append]; rfl

theorem removed_append (a b : List Edit) : removed (a ++ b) = removed a + removed b := by
  rw [removed, List.map_append, List.sum_append]; rfl

theorem inFront_eq_self {edits : List Edit} {byte : Nat} (h : ∀ edit ∈ edits, edit.span.stop ≤ byte) :
    inFront edits byte = edits := by
  rw [inFront, List.filter_eq_self]
  exact fun edit hedit => decide_eq_true (h edit hedit)

theorem inFront_eq_nil_of_le {edits : List Edit} {byte : Nat}
    (h : ∀ edit ∈ edits, byte ≤ edit.span.start ∧ edit.span.start < edit.span.stop) :
    inFront edits byte = [] := by
  rw [inFront, List.filter_eq_nil_iff]
  intro edit hedit
  have := h edit hedit
  simp only [decide_eq_true_eq]
  omega

theorem moved_append {a b : List Edit} {byte : Nat} (ha : ∀ edit ∈ a, edit.span.stop ≤ byte)
    (hb : ∀ edit ∈ b, byte ≤ edit.span.start ∧ edit.span.start < edit.span.stop) :
    moved (a ++ b) byte = byte + written a - removed a := by
  rw [moved, inFront_append, inFront_eq_self ha, inFront_eq_nil_of_le hb, List.append_nil]

theorem removed_inFront_le {byte : Nat} : ∀ {edits : List Edit} {start : Nat}, edits.Pairwise EndsBefore →
    (∀ edit ∈ edits, start ≤ edit.span.start ∧ edit.span.start < edit.span.stop) → start ≤ byte →
    removed (inFront edits byte) + start ≤ byte
  | [], start, _, _, hle => by simpa [inFront, removed] using hle
  | edit :: rest, start, sorted, filled, hle => by
    obtain ⟨hbefore, sorted⟩ := List.pairwise_cons.1 sorted
    have hedit := filled edit List.mem_cons_self
    have hrest : ∀ other ∈ rest, edit.span.stop ≤ other.span.start ∧ other.span.start < other.span.stop :=
      fun other hother => ⟨hbefore other hother, (filled other (List.mem_cons_of_mem _ hother)).2⟩
    by_cases hstop : edit.span.stop ≤ byte
    · have ih := removed_inFront_le sorted hrest hstop
      rw [inFront_cons_of_le hstop, removed_cons]
      omega
    · have hnone : inFront (edit :: rest) byte = [] := by
        rw [inFront, List.filter_cons_of_neg (by simpa using hstop)]
        exact inFront_eq_nil_of_le fun other hother => by have := hrest other hother; omega
      rw [hnone]
      simpa [removed] using hle

theorem moved_le_moved {low high : Nat} (hle : low ≤ high) :
    ∀ {edits : List Edit}, edits.Pairwise EndsBefore →
    (∀ edit ∈ edits, edit.span.start < edit.span.stop) →
    (∀ edit ∈ edits, edit.span.stop ≤ low ∨ low ≤ edit.span.start) →
    written (inFront edits low) + removed (inFront edits high) + low ≤
      written (inFront edits high) + removed (inFront edits low) + high
  | [], _, _, _ => by simpa [inFront, removed, written] using hle
  | edit :: rest, sorted, filled, hclear => by
    have hedit := filled edit List.mem_cons_self
    rcases hclear edit List.mem_cons_self with hstop | hstart
    · have ih := moved_le_moved hle (List.pairwise_cons.1 sorted).2
        (fun other hother => filled other (List.mem_cons_of_mem _ hother))
        (fun other hother => hclear other (List.mem_cons_of_mem _ hother))
      rw [inFront_cons_of_le hstop, inFront_cons_of_le (hstop.trans hle),
        written_cons, written_cons, removed_cons, removed_cons]
      omega
    · have hbehind : ∀ other ∈ edit :: rest, low ≤ other.span.start ∧ other.span.start < other.span.stop := by
        intro other hother
        refine ⟨?_, filled other hother⟩
        rcases List.mem_cons.1 hother with rfl | hrest
        · exact hstart
        · have hends : edit.span.stop ≤ other.span.start := (List.pairwise_cons.1 sorted).1 other hrest
          omega
      have := removed_inFront_le sorted hbehind hle
      rw [inFront_eq_nil_of_le hbehind]
      simp only [written, removed, List.map_nil, List.sum_nil] at this ⊢
      omega

theorem moved_mono {edits : List Edit} {low high : Nat}
    (apart : edits.Pairwise fun a b => a.span.Apart b.span)
    (filled : ∀ edit ∈ edits, edit.span.start < edit.span.stop)
    (hle : low ≤ high) (hclear : ∀ edit ∈ edits, edit.span.stop ≤ low ∨ low ≤ edit.span.start) :
    moved edits low ≤ moved edits high := by
  have sorted := endsBefore_inOrder apart filled
  have hlow := moved_le_moved hle sorted (fun edit hedit => filled edit (mem_inOrder.1 hedit))
    fun edit hedit => hclear edit (mem_inOrder.1 hedit)
  have hhigh : removed (inFront (inOrder edits) high) + 0 ≤ high := removed_inFront_le sorted
    (fun edit hedit => ⟨Nat.zero_le _, filled edit (mem_inOrder.1 hedit)⟩) (Nat.zero_le _)
  have hlow' : removed (inFront (inOrder edits) low) + 0 ≤ low := removed_inFront_le sorted
    (fun edit hedit => ⟨Nat.zero_le _, filled edit (mem_inOrder.1 hedit)⟩) (Nat.zero_le _)
  rw [← moved_perm (inOrder_perm edits) low, ← moved_perm (inOrder_perm edits) high, moved, moved]
  omega

end Edit

namespace Span

def moved (edits : List Edit) (span : Span) : Span :=
  ⟨Edit.moved edits span.start, Edit.moved edits span.stop⟩

theorem moved_inOrder (edits : List Edit) : moved (Edit.inOrder edits) = moved edits := by
  funext span
  rw [moved, moved, Edit.moved_perm (Edit.inOrder_perm edits), Edit.moved_perm (Edit.inOrder_perm edits)]

theorem Within.moved {edits : List Edit} {inner outer : Span} (h : inner.Within outer)
    (apart : edits.Pairwise fun a b => a.span.Apart b.span)
    (filled : ∀ edit ∈ edits, edit.span.start < edit.span.stop)
    (hstart : ∀ edit ∈ edits, edit.span.stop ≤ outer.start ∨ outer.start ≤ edit.span.start)
    (hstop : ∀ edit ∈ edits, edit.span.stop ≤ inner.stop ∨ inner.stop ≤ edit.span.start) :
    (inner.moved edits).Within (outer.moved edits) :=
  ⟨Edit.moved_mono apart filled h.1 hstart, Edit.moved_mono apart filled h.2 hstop⟩

end Span

/-! ## Edits that can be applied -/

theorem Patch.of_applyFrom :
    ∀ {edits : List Edit} {cursor : Nat} {at' : Progress} {rest output : Text} {runs : List Run},
    Edit.applyFrom cursor at' rest edits = .ok (output, runs) → Patch cursor rest edits output
  | [], cursor, at', rest, output, runs, h => by
    cases h
    exact .keep cursor rest
  | ⟨⟨start, stop⟩, replacement⟩ :: edits, cursor, at', rest, output, runs, h => by
    obtain ⟨kept, removed, rest', output', runs', hcursor, hforward, rfl, hkept, hremoved, happly, rfl, -⟩ :=
      Edit.applyFrom_cons h
    simp only at hcursor hforward hkept hremoved happly
    have hstart : start = cursor + kept.byteLength := by omega
    have hstop : stop = cursor + kept.byteLength + removed.byteLength := by omega
    subst hstop hstart
    rw [List.append_assoc, List.append_assoc]
    exact .edit kept removed replacement (Patch.of_applyFrom happly)

theorem Patch.of_applyAll {index : Nat} {edits : List Edit} {text output : Text} {record : Record}
    (h : Edit.applyAll index text edits = .ok (output, record)) : Patch 0 text (Edit.inOrder edits) output :=
  .of_applyFrom (Edit.applyAll_eq_ok h)

/-- Edits on either side of a cut are edits of either part. -/
theorem Patch.split {start : Nat} {text output : Text} {edits : List Edit}
    (h : Patch start text edits output) :
    ∀ {a b : Text}, text = a ++ b →
      (∀ edit ∈ edits, edit.span.stop ≤ start + a.byteLength ∨ start + a.byteLength ≤ edit.span.start) →
      ∃ front behind a' b', edits = front ++ behind ∧ output = a' ++ b' ∧ Patch start a front a' ∧
        Patch (start + a.byteLength) b behind b' ∧ (∀ edit ∈ front, edit.span.stop ≤ start + a.byteLength) ∧
        ∀ edit ∈ behind, start + a.byteLength ≤ edit.span.start := by
  induction h with
  | keep start text =>
    rintro a b rfl -
    exact ⟨[], [], a, b, rfl, rfl, .keep _ _, .keep _ _, nofun, nofun⟩
  | @edit start kept removed replacement rest output edits hrest ih =>
    intro a b htext hcut
    rcases hcut _ List.mem_cons_self with hstop | hstart
    · -- The first edit is part of the front, and the cut is behind it.
      have hle : (kept ++ removed).byteLength ≤ a.byteLength := by
        rw [Text.byteLength_append]
        simp only at hstop
        omega
      rw [← List.append_assoc] at htext
      obtain ⟨between, rfl, rfl⟩ := Text.exists_append_of_le htext.symm hle
      have hlength : start + kept.byteLength + removed.byteLength + between.byteLength =
          start + (kept ++ removed ++ between).byteLength := by
        simp only [Text.byteLength_append]
        omega
      obtain ⟨front, behind, a', b', rfl, rfl, hfront, hbehind, hbefore, hafter⟩ :=
        ih rfl fun edit hedit => by
        have := hcut edit (List.mem_cons_of_mem _ hedit)
        omega
      rw [hlength] at hbehind hbefore hafter
      refine ⟨_ :: front, behind, kept ++ (replacement.getD [] ++ a'), b', rfl, by
        simp only [List.append_assoc], ?_, hbehind, ?_, hafter⟩
      · rw [List.append_assoc]
        exact .edit kept removed replacement hfront
      · intro edit hedit
        rcases List.mem_cons.1 hedit with rfl | hedit
        · exact hstop
        · exact hbefore edit hedit
    · obtain ⟨between, rfl, rfl⟩ := Text.exists_append_of_le htext (by simp only at hstart; omega)
      have hlength : start + (a ++ between).byteLength = start + a.byteLength + between.byteLength := by
        rw [Text.byteLength_append]
        omega
      rw [hlength] at hrest ⊢
      have hall : Patch (start + a.byteLength) (between ++ (removed ++ rest)) _ _ :=
        .edit between removed replacement hrest
      refine ⟨[], _, a, between ++ (replacement.getD [] ++ output), rfl, by
        simp only [List.append_assoc], .keep _ _, hall, nofun, ?_⟩
      exact hall.le_start

theorem Patch.byteLength {start : Nat} {text output : Text} {edits : List Edit}
    (h : Patch start text edits output) :
    output.byteLength + Edit.removed edits = text.byteLength + Edit.written edits := by
  induction h with
  | keep => rfl
  | edit kept removed replacement hrest ih =>
    rw [Edit.written_cons, Edit.removed_cons]
    simp only [Text.byteLength_append, Edit.text] at ih ⊢
    omega

/-! ## Frames -/

/-- Two texts from two offsets on, alike but for some stretches of the one and as many of the other. -/
inductive Framed : Nat → Nat → List Span → List Span → Text → Text → Prop
  | done (start start' : Nat) (text : Text) : Framed start start' [] [] text text
  | hole {start start' : Nat} (clean old new : Text) {spans spans' : List Span} {rest rest' : Text} :
      Framed (start + clean.byteLength + old.byteLength) (start' + clean.byteLength + new.byteLength)
        spans spans' rest rest' →
      Framed start start' (⟨start + clean.byteLength, start + clean.byteLength + old.byteLength⟩ :: spans)
        (⟨start' + clean.byteLength, start' + clean.byteLength + new.byteLength⟩ :: spans')
        (clean ++ (old ++ rest)) (clean ++ (new ++ rest'))

namespace Framed

variable {start start' : Nat} {spans spans' : List Span} {text text' : Text}

theorem le_start (h : Framed start start' spans spans' text text') : ∀ span ∈ spans',
    start' ≤ span.start ∧ span.start ≤ span.stop := by
  induction h with
  | done => exact nofun
  | hole clean old new hrest ih =>
    intro span hspan
    rcases List.mem_cons.1 hspan with rfl | hspan
    · exact ⟨Nat.le_add_right _ _, Nat.le_add_right _ _⟩
    · have := ih span hspan
      omega

theorem apart (h : Framed start start' spans spans' text text') : spans'.Pairwise Span.Apart := by
  induction h with
  | done => exact .nil
  | hole clean old new hrest ih =>
    exact List.pairwise_cons.2 ⟨fun span hspan => .inl (hrest.le_start span hspan).1, ih⟩

theorem of_patch {edits : List Edit} {output : Text} (h : Patch start text edits output) :
    Framed start start (edits.map (·.span)) (edits.map (·.span)) text text := by
  induction h with
  | keep start text => exact .done start start text
  | edit kept removed replacement hrest ih => exact .hole kept removed removed ih

/-- The stretches of the one text are edits of the other. -/
theorem exists_patch (h : Framed start start' spans spans' text text') :
    ∃ edits : List Edit, edits.map (·.span) = spans ∧ Patch start text edits text' := by
  induction h with
  | done start start' text => exact ⟨[], rfl, .keep start text⟩
  | hole clean old new hrest ih =>
    obtain ⟨edits, rfl, hpatch⟩ := ih
    exact ⟨_ :: edits, rfl, .edit clean old (some new) hpatch⟩

theorem patch (h : Framed start start' spans spans' text text') :
    ∀ {edits front : List Edit} {output : Text} {start'' : Nat},
    Patch start' text' edits output →
    (∀ edit ∈ edits, edit.span.start < edit.span.stop ∧ ∃ span ∈ spans', edit.span.Within span) →
    (∀ edit ∈ front, edit.span.stop ≤ start') → start'' + Edit.removed front = start' + Edit.written front →
    Framed start start'' spans (spans'.map (Span.moved (front ++ edits))) text output := by
  induction h with
  | done start start' text =>
    intro edits front output start'' hpatch hinside hfront hmoved
    have hnone : edits = [] := List.eq_nil_iff_forall_not_mem.2 fun edit hedit => by
      obtain ⟨-, span, hspan, -⟩ := hinside edit hedit
      cases hspan
    subst hnone
    cases hpatch
    exact .done start start'' text
  | @hole start start' clean old new spans spans' rest rest' hrest ih =>
    intro edits front output start'' hpatch hinside hfront hmoved
    have hbehind := hrest.le_start
    -- The edits begin behind the clean text, and those that do not end in the first stretch begin behind it.
    have hplaced : ∀ edit ∈ edits, start' + clean.byteLength ≤ edit.span.start ∧
        (edit.span.stop ≤ start' + clean.byteLength + new.byteLength ∨
          start' + clean.byteLength + new.byteLength ≤ edit.span.start ∧
          ∃ span ∈ spans', edit.span.Within span) := by
      intro edit hedit
      obtain ⟨-, span, hspan, hstart, hstop⟩ := hinside edit hedit
      rcases List.mem_cons.1 hspan with rfl | hspan
      · exact ⟨hstart, .inl hstop⟩
      · have := (hbehind span hspan).1
        exact ⟨by omega, .inr ⟨by omega, span, hspan, hstart, hstop⟩⟩
    obtain ⟨none, edits', clean', output', rfl, rfl, hclean, hpatch', hbefore, -⟩ :=
      hpatch.split rfl fun edit hedit => .inr (hplaced edit hedit).1
    have hnone : none = [] := List.eq_nil_iff_forall_not_mem.2 fun edit hedit => by
      have hedit' := List.mem_append_left edits' hedit
      have := hbefore edit hedit
      have := (hplaced edit hedit').1
      have := (hinside edit hedit').1
      omega
    subst hnone
    cases hclean
    rw [List.nil_append] at hplaced hinside ⊢
    obtain ⟨here, there, new', output'', rfl, rfl, hnew, hpatch'', hends, hstarts⟩ :=
      hpatch'.split rfl fun edit hedit =>
        (hplaced edit hedit).2.imp id And.left
    have hlength := hnew.byteLength
    have hfilled := fun edit hedit => (hinside edit hedit).1
    have hframed := @ih there (front ++ here) output'' (start'' + clean.byteLength + new'.byteLength) hpatch''
      (fun edit hedit => ?_) (fun edit hedit => ?_) (by rw [Edit.removed_append, Edit.written_append]; omega)
    · have hstart : Edit.moved (front ++ (here ++ there)) (start' + clean.byteLength) =
        start'' + clean.byteLength := by
        rw [Edit.moved_append (fun edit hedit => (hfront edit hedit).trans (Nat.le_add_right _ _))
          fun edit hedit => ⟨(hplaced edit hedit).1, hfilled edit hedit⟩]
        omega
      have hstop : Edit.moved (front ++ (here ++ there)) (start' + clean.byteLength + new.byteLength) =
          start'' + clean.byteLength + new'.byteLength := by
        rw [← List.append_assoc, Edit.moved_append (fun edit hedit => ?_)
          fun edit hedit => ⟨hstarts edit hedit, hfilled edit (List.mem_append_right _ hedit)⟩,
            Edit.written_append,
          Edit.removed_append]
        · omega
        · rcases List.mem_append.1 hedit with hedit | hedit
          · exact (hfront edit hedit).trans (by omega)
          · exact hends edit hedit
      have hfirst : Span.moved (front ++ (here ++ there))
          ⟨start' + clean.byteLength, start' + clean.byteLength + new.byteLength⟩ =
          ⟨start'' + clean.byteLength, start'' + clean.byteLength + new'.byteLength⟩ := by
        rw [Span.moved, hstart, hstop]
      rw [List.map_cons, hfirst]
      rw [List.append_assoc] at hframed
      exact .hole clean old new' hframed
    · have hedit' := List.mem_append_right here hedit
      rcases (hplaced edit hedit').2 with hstop | ⟨-, hspan⟩
      · have := hstarts edit hedit
        have := hfilled edit hedit'
        omega
      · exact ⟨hfilled edit hedit', hspan⟩
    · rcases List.mem_append.1 hedit with hedit | hedit
      · exact (hfront edit hedit).trans (by omega)
      · exact hends edit hedit

end Framed
end ClassWeave
