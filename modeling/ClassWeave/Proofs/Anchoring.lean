import ClassWeave.Proofs.Acceptance
import ClassWeave.Proofs.Alignment
/-!
# Where tokens of one place stand

Text that a pass writes has one token, where it starts. What later passes copy of that text stays
with the token, as long as none of them takes the text away in which it stands: it stands there
still, or where the copied text goes on behind the last edit (`Edit.anchor?`).
-/

namespace ClassWeave

namespace Text

theorem eq_of_append_eq {a b front back : Text} (h : a ++ b = front ++ back)
    (hlength : a.byteLength = front.byteLength) :
    a = front := by
  obtain ⟨between, rfl, -⟩ := exists_append_of_le h (by omega)
  obtain rfl : between = [] := eq_nil_of_byteLength (by rw [byteLength_append] at hlength; omega)
  rw [List.append_nil]

theorem byteLength_pos {text : Text} (h : text ≠ []) : 0 < text.byteLength :=
  Nat.pos_of_ne_zero fun hzero => h (eq_nil_of_byteLength hzero)

end Text

/-! ## Blocks that are copied -/

structure Run.CopiesBlock (run : Run) (input output : Position) (block : Text) : Prop where
  kind : run.kind = .unedited
  start_le : run.start ≤ input
  le_stop : input.after block ≤ run.stop
  line : run.start.line = input.line
  landing : output = run.landing input

theorem Run.CopiesBlock.copies {run : Run} {input output : Position} {inner back : Text} {c : Char}
    (h : run.CopiesBlock input output (inner ++ c :: back)) (flat : '\n' ∉ inner) :
    run.Copies (input.after inner) (output.after inner) := by
  have hcolumn : run.start.column ≤ input.column := by
    have hle := h.start_le
    have hline := h.line
    rw [Position.le_iff] at hle
    omega
  refine ⟨h.kind, le_trans h.start_le (Position.le_after _ _), lt_of_lt_of_le ?_ h.le_stop, ?_, ?_⟩
  · rw [Position.after_append]
    exact Position.lt_after _ (by simp)
  · rw [Position.after_eq_of_flat _ flat, h.line]
  · rw [h.landing, Position.after_eq_of_flat _ flat, Position.after_eq_of_flat _ flat]
    simp only [Run.landing, Position.mk.injEq, true_and]
    omega

theorem exists_copyRun_block {block : Text} (hblock : block ≠ []) (flat : '\n' ∉ block) (text : Text) :
    ∀ (at' : Progress) {front back : Text}, text = front ++ (block ++ back) →
      ∃ run ∈ at'.copyRuns text,
      run.CopiesBlock (at'.input.after front) (at'.generated.after front) block := by
  induction text using Text.lineInduction with
  | flat text hflat =>
    intro at' front back htext
    have hfront : '\n' ∉ front := fun h => hflat (htext ▸ List.mem_append_left _ h)
    rw [Progress.copyRuns_flat at' hflat, Progress.pieceRuns, if_neg (by simp [htext, hblock])]
    refine ⟨_, List.mem_singleton_self _, rfl, Position.le_after _ _, ?_, ?_, ?_⟩
    · rw [htext, ← List.append_assoc, Position.after_append, ← Position.after_append]
      exact Position.le_after _ _
    · rw [Position.after_eq_of_flat _ hfront]
    · simp [Run.landing, Position.after_eq_of_flat _ hfront]
  | line piece rest hpiece ih =>
    intro at' front back htext
    rw [Progress.copyRuns_line at' hpiece]
    obtain ⟨d, more, rfl⟩ := List.exists_cons_of_ne_nil hblock
    rcases Text.append_eq_append_cons htext with ⟨inner, rfl, hback⟩ | ⟨inner, rfl, hrest⟩
    · have hmore : ∃ inner', inner = more ++ inner' := by
        rcases Text.append_eq_append_cons hback with ⟨between, hmore, -⟩ | ⟨between, hinner, -⟩
        · exact absurd (by simp [hmore]) flat
        · exact ⟨between, hinner⟩
      obtain ⟨inner', rfl⟩ := hmore
      have hfront : '\n' ∉ front := fun h => hpiece (List.mem_append_left _ h)
      rw [Progress.pieceRuns, if_neg (by simp)]
      refine ⟨_, List.mem_append_left _ (List.mem_singleton_self _), rfl, Position.le_after _ _, ?_, ?_, ?_⟩
      · have : front ++ d :: (more ++ inner') = front ++ (d :: more) ++ inner' := by simp
        rw [this, Position.after_append, ← Position.after_append]
        exact Position.le_after _ _
      · rw [Position.after_eq_of_flat _ hfront]
      · simp [Run.landing, Position.after_eq_of_flat _ hfront]
    · cases inner with
      | nil =>
        obtain ⟨rfl, -⟩ := List.cons.inj hrest
        exact absurd (by simp) flat
      | cons e inner =>
        obtain ⟨rfl, hinner⟩ := List.cons.inj hrest
        have hrest' : rest = inner ++ (d :: more ++ back) := by simpa using hinner
        obtain ⟨run, hrun, hcopies⟩ := ih ((at'.copy piece).copy ['\n']) hrest'
        refine ⟨run, List.mem_append_right _ hrun, ?_⟩
        rw [Position.after_append, Position.after_cons, Position.after_append, Position.after_cons]
        exact hcopies

namespace Edit

theorem exists_block_of_applyFrom {block back : Text} (hblock : block ≠ []) (flat : '\n' ∉ block) :
    ∀ {edits : List Edit}
    {cursor : Nat} {at' : Progress} {rest output : Text} {runs : List Run} {front : Text},
    applyFrom cursor at' rest edits = .ok (output, runs) → rest = front ++ (block ++ back) →
    (∀ edit ∈ edits, edit.span.stop ≤ cursor + front.byteLength ∨
      cursor + front.byteLength + block.byteLength ≤ edit.span.start) →
    ∃ front' back', output = front' ++ (block ++ back') ∧
      front'.byteLength + removed (inFront edits (cursor + front.byteLength)) =
        front.byteLength + written (inFront edits (cursor + front.byteLength)) ∧
      ∃ run ∈ runs, run.CopiesBlock (at'.input.after front) (at'.generated.after front') block
  | [], cursor, at', rest, output, runs, front, happly, hrest, _ => by
    simp only [applyFrom, Except.ok.injEq, Prod.mk.injEq] at happly
    obtain ⟨rfl, rfl⟩ := happly
    exact ⟨front, back, hrest, rfl, exists_copyRun_block hblock flat _ at' hrest⟩
  | edit :: edits, cursor, at', rest, output, runs, front, happly, hrest, spared => by
    obtain ⟨kept, cutOut, rest', output', runs', hcursor, hforward, hsplit, hkept, hcut, hnext, rfl, rfl⟩ :=
      applyFrom_cons happly
    have hbehind := le_of_applyFrom hnext
    rcases spared edit List.mem_cons_self with hpassed | hbefore
    · -- The block is behind the first edit.
      have hsplit' : kept ++ cutOut ++ rest' = front ++ (block ++ back) := hsplit.symm.trans hrest
      obtain ⟨inner, hfront, hinner⟩ := Text.exists_append_of_le hsplit'.symm (by
        rw [Text.byteLength_append]; omega)
      have hcursor' : edit.span.stop + inner.byteLength = cursor + front.byteLength := by
        rw [hfront, Text.byteLength_append, Text.byteLength_append]; omega
      obtain ⟨front', back', houtput, hlength, run, hrun, hcopies⟩ :=
        exists_block_of_applyFrom hblock flat hnext hinner
          fun other hother => by rw [hcursor']; exact spared other (List.mem_cons_of_mem _ hother)
      refine ⟨kept ++ (edit.text ++ front'), back', by simp [houtput], ?_, run,
        List.mem_append_right _ (List.mem_cons_of_mem _ hrun), ?_⟩
      · rw [hcursor'] at hlength
        rw [inFront_cons_of_le hpassed, written_cons, removed_cons,
          Text.byteLength_append, Text.byteLength_append]
        omega
      · rw [hfront]
        simp only [Position.after_append]
        exact hcopies
    · -- It is in the text that is kept in front of it.
      have hsplit' : kept ++ (cutOut ++ rest') = (front ++ block) ++ back := by
        rw [← List.append_assoc, ← hsplit, hrest, List.append_assoc]
      obtain ⟨inner, hinner, -⟩ := Text.exists_append_of_le hsplit' (by rw [Text.byteLength_append]; omega)
      have hinFront : inFront (edit :: edits) (cursor + front.byteLength) = [] := by
        have := Text.byteLength_pos hblock
        apply inFront_eq_nil
        intro other hother
        rcases List.mem_cons.1 hother with rfl | hother
        · omega
        · have := hbehind other hother
          omega
      rw [List.append_assoc] at hinner
      obtain ⟨run, hrun, hcopies⟩ := exists_copyRun_block hblock flat kept at' hinner
      exact ⟨front, inner ++ (edit.text ++ output'), by simp [hinner], by rw [hinFront]; rfl, run,
        List.mem_append_left _ hrun, hcopies⟩

/-! ## Runs of edits -/

theorem exists_editRun_of_applyFrom {edit : Edit} {later : List Edit} : ∀ {earlier : List Edit} {cursor : Nat}
    {at' : Progress} {rest output : Text} {runs : List Run},
    applyFrom cursor at' rest (earlier ++ edit :: later) = .ok (output, runs) →
    ∃ front gone back front' back' runs₁ runs₂, rest = front ++ (gone ++ back) ∧
    output = front' ++ (edit.text ++ back') ∧
      cursor + front.byteLength = edit.span.start ∧ gone.byteLength = edit.span.stop - edit.span.start ∧
      front'.byteLength + removed earlier = front.byteLength + written earlier ∧
      runs = runs₁ ++ Progress.editRun ⟨at'.generated.after front', at'.input.after front⟩
        gone edit.text :: runs₂ ∧
      ∀ run ∈ runs₂, at'.generated.after (front' ++ edit.text) ≤ run.generated
  | [], cursor, at', rest, output, runs, happly => by
    obtain ⟨kept, gone, rest', output', runs', hcursor, -, hsplit, hkept, hgone, hnext, rfl, rfl⟩ :=
      applyFrom_cons happly
    refine ⟨kept, gone, rest', kept, output', at'.copyRuns kept, runs', by
      simp [hsplit], by simp, by omega, hgone, rfl,
      rfl, fun run hrun => ?_⟩
    rw [Position.after_append]
    exact ((tiled_applyFrom hnext).bounds run hrun).2
  | first :: earlier, cursor, at', rest, output, runs, happly => by
    obtain ⟨kept, cutOut, rest', output', runs', hcursor, hforward, hsplit, hkept, hcut, hnext, rfl, rfl⟩ :=
      applyFrom_cons happly
    obtain ⟨front, gone, back, front', back', runs₁, runs₂, hrest,
      houtput, hstart, hgone, hlength, hruns, hlater⟩ :=
      exists_editRun_of_applyFrom hnext
    refine ⟨kept ++ cutOut ++ front, gone, back, kept ++ first.text ++ front', back',
      at'.copyRuns kept ++ (at'.copy kept).editRun cutOut first.text :: runs₁, runs₂, by simp [hsplit, hrest],
      by simp [houtput], ?_, hgone, ?_, ?_, ?_⟩
    · simp only [Text.byteLength_append]
      omega
    · simp only [Text.byteLength_append, written_cons, removed_cons]
      omega
    · rw [hruns]
      simp only [Position.after_append, List.append_assoc, List.cons_append]
      rfl
    · intro run hrun
      have := hlater run hrun
      simp only [Position.after_append] at this ⊢
      exact this

/-! ## Anchors -/

/-- Whether an edit takes the place of a token away: it covers the byte and writes nothing from there on. -/
def takes (edit : Edit) (byte : Nat) : Bool :=
  edit.covers byte && (edit.text.isEmpty || edit.span.start != byte)

/-- The last place up to a byte at which an edit stops, or a place in front of it if there is none. -/
def footing (edits : List Edit) (place byte : Nat) : Nat :=
  (inFront edits byte).foldl (fun place edit => max place edit.span.stop) place

/-- Where the token stands behind a pass that stood at `place` and was in charge of `byte`; none if
the pass takes its place away. -/
def anchor? (edits : List Edit) (place byte : Nat) : Option Nat :=
  if edits.any (·.takes place) then none else landing? edits (footing edits place byte)

/-- Where a byte stands behind pass after pass that leave the token in charge of it, which stands at
`place`. -/
def anchoredThrough : List (List Edit) → Nat → Nat → Option Nat
  | [], _, byte => some byte
  | edits :: rest, place, byte => do anchoredThrough rest (← anchor? edits place byte) (← landing? edits byte)

theorem le_foldl_max : ∀ (edits : List Edit) (place : Nat),
    place ≤ edits.foldl (fun place edit => max place edit.span.stop) place ∧
      (∀ edit ∈ edits, edit.span.stop ≤ edits.foldl (fun place edit => max place edit.span.stop) place) ∧
      (edits.foldl (fun place edit => max place edit.span.stop) place = place ∨
        ∃ edit ∈ edits, edits.foldl (fun place edit => max place edit.span.stop) place = edit.span.stop)
  | [], place => ⟨Nat.le_refl _, by simp, .inl rfl⟩
  | first :: rest, place => by
    obtain ⟨hle, hall, hlast⟩ := le_foldl_max rest (max place first.span.stop)
    refine ⟨Nat.le_trans (Nat.le_max_left _ _) hle, fun edit hedit => ?_, ?_⟩
    · rcases List.mem_cons.1 hedit with rfl | hedit
      · exact Nat.le_trans (Nat.le_max_right _ _) hle
      · exact hall edit hedit
    · rcases hlast with hlast | ⟨edit, hedit, hlast⟩
      · rcases Nat.le_total first.span.stop place with hmax | hmax
        · exact .inl (hlast.trans (Nat.max_eq_left hmax))
        · exact .inr ⟨first, List.mem_cons_self, hlast.trans (Nat.max_eq_right hmax)⟩
      · exact .inr ⟨edit, List.mem_cons_of_mem _ hedit, hlast⟩

theorem le_footing (edits : List Edit) (place byte : Nat) : place ≤ footing edits place byte :=
  (le_foldl_max _ _).1

theorem stop_le_footing {edits : List Edit} {place byte : Nat} {edit : Edit} (hedit : edit ∈ edits)
    (hstop : edit.span.stop ≤ byte) : edit.span.stop ≤ footing edits place byte :=
  (le_foldl_max _ _).2.1 edit (List.mem_filter.2 ⟨hedit, by simpa using hstop⟩)

theorem footing_eq (edits : List Edit) (place byte : Nat) : footing edits place byte = place ∨
    ∃ edit ∈ edits, edit.span.stop ≤ byte ∧ footing edits place byte = edit.span.stop := by
  rcases (le_foldl_max (inFront edits byte) place).2.2 with h | ⟨edit, hedit, h⟩
  · exact .inl h
  · obtain ⟨hmem, hstop⟩ := List.mem_filter.1 hedit
    exact .inr ⟨edit, hmem, by simpa using hstop, h⟩

theorem footing_le {edits : List Edit} {place byte : Nat} (h : place ≤ byte) :
    footing edits place byte ≤ byte := by
  rcases footing_eq edits place byte with heq | ⟨edit, -, hstop, heq⟩
  · rw [heq]; exact h
  · rw [heq]; exact hstop

/-! ## One pass -/

section
variable {index : Nat} {text output front inner back : Text} {c : Char} {edits : List Edit} {record : Record}

theorem exists_run_of_mem {edit : Edit} (happly : applyAll index text edits = .ok (output, record))
    (hedit : edit ∈ edits) :
    ∃ front gone back, text = front ++ (gone ++ back) ∧ front.byteLength = edit.span.start ∧
      gone.byteLength = edit.span.stop - edit.span.start ∧ edit.span.start ≤ edit.span.stop ∧
      ∃ generated, Progress.editRun ⟨generated, Position.origin.after front⟩ gone edit.text ∈
        record.runs := by
  obtain ⟨earlier, later, hinOrder⟩ := List.append_of_mem (mem_inOrder.2 hedit)
  have hfrom := applyAll_eq_ok happly
  have hforward := (le_of_applyFrom hfrom edit (mem_inOrder.2 hedit)).2
  rw [hinOrder] at hfrom
  obtain ⟨front, gone, back, front', back', runs₁, runs₂, htext, -, hstart, hgone, -, hruns, -⟩ :=
    exists_editRun_of_applyFrom hfrom
  refine ⟨front, gone, back, htext, by omega, hgone, hforward,
    Position.origin.after front', ?_⟩
  rw [hruns]
  exact List.mem_append_right _ List.mem_cons_self

theorem settled_of_not_takes (happly : applyAll index text edits = .ok (output, record))
    (htext : text = front ++ c :: back) (hc : c ≠ '\n')
    (spared : ∀ edit ∈ edits, edit.takes front.byteLength = false) {token : MapToken}
    (htoken : token.generated = Position.origin.after front) : SourceMap.Settled record token := by
  have tiled := tiled_applyAll happly
  intro run hrun
  rw [htoken] at hrun ⊢
  by_cases hcovered : ∃ edit ∈ edits, edit.covers front.byteLength = true
  · obtain ⟨edit, hedit, hcovers⟩ := hcovered
    have hkept := spared edit hedit
    simp only [takes, hcovers, Bool.true_and, Bool.or_eq_false_iff, bne_eq_false_iff_eq] at hkept
    simp only [covers, Bool.and_eq_true, decide_eq_true_eq] at hcovers
    obtain ⟨front', gone, back', htext', hstart, hgone, hforward, generated, hmem⟩ :=
      exists_run_of_mem happly hedit
    obtain rfl : front = front' := Text.eq_of_append_eq (htext.symm.trans htext') (by omega)
    have hgoneNonempty : gone ≠ [] := by
      rintro rfl
      rw [Text.byteLength_nil] at hgone
      omega
    have found := Record.runAt_eq_some tiled hmem (le_refl _) (Position.lt_after _ hgoneNonempty)
    obtain rfl := Option.some.inj (found.symm.trans hrun)
    exact .inr ⟨by simp [Progress.editRun, hkept.1], rfl⟩
  · have hlanding : landing? edits front.byteLength =
        some (front.byteLength + written (inFront edits front.byteLength) -
          removed (inFront edits front.byteLength)) := by
      rw [landing?, if_neg]
      simpa using hcovered
    obtain ⟨front', back', -, -, hcopied⟩ := exists_copy_of_applyAll happly htext hlanding
    obtain ⟨run', hrun', copies⟩ := hcopied hc
    have found := Record.runAt_eq_some tiled hrun' copies.start_le copies.lt_stop
    obtain rfl := Option.some.inj (found.symm.trans hrun)
    exact .inl copies.kind

theorem settled_of_anchor {anchor byte : Nat} (happly : applyAll index text edits = .ok (output, record))
    (htext : text = front ++ (inner ++ c :: back)) (flat : '\n' ∉ inner ++ [c])
    (hanchor : anchor? edits front.byteLength byte = some anchor) {token : MapToken}
    (htoken : token.generated = Position.origin.after front) : SourceMap.Settled record token := by
  have spared : ∀ edit ∈ edits, edit.takes front.byteLength = false := by
    rw [anchor?] at hanchor
    split at hanchor
    · cases hanchor
    rename_i hspared
    simpa using hspared
  cases inner with
  | nil => exact settled_of_not_takes happly htext (by rintro rfl; simp at flat) spared htoken
  | cons d inner => exact settled_of_not_takes happly htext (by rintro rfl; simp at flat) spared htoken

theorem stop_le_or_le_start (happly : applyAll index text edits = .ok (output, record))
    (htext : text = front ++ c :: back) {edit : Edit} (hedit : edit ∈ edits)
    (spared : edit.covers front.byteLength = false) :
    edit.span.stop ≤ front.byteLength ∨ front.byteLength + c.utf8Size ≤ edit.span.start := by
  by_cases hstop : edit.span.stop ≤ front.byteLength
  · exact .inl hstop
  right
  simp only [covers, Bool.and_eq_false_imp, decide_eq_true_eq, decide_eq_false_iff_not] at spared
  obtain ⟨hfits, -⟩ := fits_of_applyFrom [] (applyAll_eq_ok happly) rfl
  have hboundary := (hfits edit (mem_inOrder.2 hedit)).2.start
  rw [List.nil_append, htext] at hboundary
  obtain ⟨between, rest, hbetween, hlength⟩ := hboundary.exists_between (by omega)
  cases between with
  | nil =>
    rw [Text.byteLength_nil] at hlength
    omega
  | cons d between =>
    obtain ⟨rfl, -⟩ := List.cons.inj hbetween
    rw [Text.byteLength_cons] at hlength
    omega

theorem exists_footing (happly : applyAll index text edits = .ok (output, record))
    (htext : text = front ++ (inner ++ back)) : ∃ inner₁ inner₂, inner = inner₁ ++ inner₂ ∧
      (front ++ inner₁).byteLength = footing edits front.byteLength (front ++ inner).byteLength := by
  have hplace : front.byteLength ≤ (front ++ inner).byteLength := by rw [Text.byteLength_append]; omega
  have hle := le_footing edits front.byteLength (front ++ inner).byteLength
  have hreach : footing edits front.byteLength (front ++ inner).byteLength ≤ (front ++ inner).byteLength :=
    footing_le hplace
  rcases footing_eq edits front.byteLength (front ++ inner).byteLength with heq | ⟨edit, hedit, -, heq⟩
  · exact ⟨[], inner, rfl, by simpa using heq.symm⟩
  · obtain ⟨hfits, -⟩ := fits_of_applyFrom [] (applyAll_eq_ok happly) rfl
    have hboundary := (hfits edit (mem_inOrder.2 hedit)).2.stop
    rw [List.nil_append, htext] at hboundary
    obtain ⟨between, rest, hbetween, hlength⟩ := hboundary.exists_between (by omega)
    obtain ⟨inner₂, hinner, -⟩ := Text.exists_append_of_le hbetween (by
      have := Text.byteLength_append front inner
      omega)
    exact ⟨between, inner₂, hinner, by rw [Text.byteLength_append]; omega⟩

theorem start_eq_of_stop {edit : Edit} (happly : applyAll index text edits = .ok (output, record))
    (hedit : edit ∈ edits) (htext : text = front ++ back) (hstop : edit.span.stop = front.byteLength)
    {run : Run} (hrun : run ∈ record.runs) {output : Position}
    {block : Text} (copies : run.CopiesBlock (Position.origin.after front) output block)
    (hblock : block ≠ []) : run.start = Position.origin.after front := by
  obtain ⟨front', gone, back', htext', hstart, hgone, hforward, generated, hmem⟩ :=
    exists_run_of_mem happly hedit
  obtain rfl : front = front' ++ gone := Text.eq_of_append_eq
    (by rw [← htext, htext', List.append_assoc]) (by rw [Text.byteLength_append]; omega)
  have hlt : Position.origin.after (front' ++ gone) < run.stop :=
    lt_of_lt_of_le (Position.lt_after _ hblock) copies.le_stop
  rcases (tiled_applyAll happly).trichotomy hmem hrun with rfl | hprecedes | hprecedes
  · exact absurd copies.kind (Progress.editRun_kind_ne _ _ _)
  · refine le_antisymm copies.start_le ?_
    rw [Position.after_append]
    exact hprecedes.stop_le
  · have hle := ((tiled_applyAll happly).wellformed _ hmem).start_le
    rw [Position.after_append] at hlt
    exact absurd (lt_of_lt_of_le hlt (le_trans hprecedes.stop_le hle)) (lt_irrefl _)

/-- Up to a character that is copied one run goes on from the footing. It starts there, unless the
footing is the place that was asked for. -/
theorem exists_anchored_of_applyAll {anchor byte : Nat}
    (happly : applyAll index text edits = .ok (output, record))
    (htext : text = front ++ (inner ++ c :: back)) (flat : '\n' ∉ inner ++ [c])
    (hanchor : anchor? edits front.byteLength (front ++ inner).byteLength = some anchor)
    (hbyte : landing? edits (front ++ inner).byteLength = some byte) :
    ∃ front' inner' back', output = front' ++ (inner' ++ c :: back') ∧ '\n' ∉ inner' ++ [c] ∧
      front'.byteLength = anchor ∧ (front' ++ inner').byteLength = byte ∧ ∃ run ∈ record.runs,
        run.Copies (Position.origin.after (front ++ inner)) (Position.origin.after (front' ++ inner')) ∧
        run.landing (max (Position.origin.after front) run.start) = Position.origin.after front' := by
  have tiled := tiled_applyAll happly
  obtain ⟨inner₁, inner₂, hinner, hlength⟩ := exists_footing happly htext
  have hfooting := hlength.symm
  rw [anchor?] at hanchor
  split at hanchor
  · cases hanchor
  rw [hfooting, landing?] at hanchor
  rw [landing?] at hbyte
  split at hanchor
  · cases hanchor
  split at hbyte
  · cases hbyte
  rename_i hcopied
  simp only [List.any_eq_true, not_exists, not_and, Bool.not_eq_true] at hcopied
  -- No edit reaches between the footing and the end of the character, so one run copies all of it.
  have apart : ∀ edit ∈ edits, edit.span.stop ≤ (front ++ inner₁).byteLength ∨
      (front ++ inner).byteLength + c.utf8Size ≤ edit.span.start := by
    intro edit hedit
    refine (stop_le_or_le_start happly (by rw [htext, List.append_assoc]) hedit (hcopied edit hedit)).imp_left
      fun h => ?_
    rw [hlength]
    exact stop_le_footing hedit h
  have hsplit : (front ++ inner).byteLength = (front ++ inner₁).byteLength + inner₂.byteLength := by
    rw [hinner, ← List.append_assoc, Text.byteLength_append]
  have hblock : (inner₂ ++ [c]).byteLength = inner₂.byteLength + c.utf8Size := by
    rw [Text.byteLength_append, Text.byteLength_cons, Text.byteLength_nil, Nat.add_zero]
  have inFront_eq : inFront edits (front ++ inner).byteLength =
    inFront edits (front ++ inner₁).byteLength := by
    refine List.filter_congr fun edit hedit => ?_
    have hforward := (le_of_applyFrom (applyAll_eq_ok happly) edit (mem_inOrder.2 hedit)).2
    have := c.utf8Size_pos
    rw [decide_eq_decide]
    rcases apart edit hedit with h | h <;> omega
  have hperm : (inOrder edits).Perm edits := Sorting.sort_perm _ edits
  have flat₂ : '\n' ∉ inner₂ ++ [c] :=
    fun h => flat (by rw [hinner, List.append_assoc]; exact List.mem_append_right _ h)
  have htext' : text = front ++ inner₁ ++ (inner₂ ++ [c] ++ back) := by simp [htext, hinner]
  obtain ⟨front', back', houtput, hfront', run, hrun, hcopies⟩ := exists_block_of_applyFrom (by simp) flat₂
    (applyAll_eq_ok happly) htext' (by
      intro edit hedit
      rw [Nat.zero_add, hblock, ← Nat.add_assoc, ← hsplit]
      exact apart edit (mem_inOrder.1 hedit))
  rw [Nat.zero_add, written_perm (inFront_perm hperm _), removed_perm (inFront_perm hperm _)] at hfront'
  simp only [Option.some.injEq] at hanchor hbyte
  refine ⟨front', inner₂, back', by simp [houtput], flat₂, by omega, ?_, run, hrun, ?_, ?_⟩
  · rw [inFront_eq] at hbyte
    rw [Text.byteLength_append]
    omega
  · rw [hinner, ← List.append_assoc, Position.after_append, Position.after_append _ front']
    exact hcopies.copies fun h => flat₂ (List.mem_append_left _ h)
  · rcases footing_eq edits front.byteLength (front ++ inner).byteLength with heq | ⟨edit, hedit, -, heq⟩
    · obtain rfl : inner₁ = [] := Text.eq_nil_of_byteLength (by
        rw [← hlength, Text.byteLength_append] at heq
        omega)
      rw [List.append_nil] at hcopies
      rw [max_eq_left hcopies.start_le]
      exact hcopies.landing.symm
    · have hstart :=
        start_eq_of_stop happly hedit (by rw [htext, hinner, List.append_assoc, List.append_assoc])
          (heq.symm.trans hlength.symm) hrun hcopies (by simp)
      rw [hstart, max_eq_right (Position.after_append _ front _ ▸ Position.le_after _ _)]
      exact hcopies.landing.symm

end

end Edit
end ClassWeave
