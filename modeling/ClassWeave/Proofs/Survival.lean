import ClassWeave.Proofs.Alignment
/-!
# Where copied characters come from

Adjusting moves a token along with the run that holds it, and no other run puts a token between the two.
So for a character that every pass has copied, the composed map gives the position where it stands in
the text of the first pass.
-/

namespace ClassWeave

/-! ## The map of one pass -/

def Run.token (run : Run) : MapToken := ⟨run.generated, run.start, run.kind = .unedited⟩

namespace Record

variable {record : Record} {at' : Progress}

def writing (record : Record) : List Run := record.runs.filter (·.kind ≠ .deleted)

theorem mem_writing {run : Run} : run ∈ record.writing ↔ run ∈ record.runs ∧ run.kind ≠ .deleted := by
  simp [writing]

theorem writing_pairwise (tiled : Tiled at' record.runs) : record.writing.Pairwise fun run later =>
    run.Precedes record.runs later ∧ run.generated < later.generated := by
  rw [writing, List.pairwise_filter]
  refine tiled.pairwise.imp fun hprecedes hkind _ => ⟨hprecedes, hprecedes.generated_lt ?_⟩
  simpa using hkind

theorem tokens_eq (tiled : Tiled at' record.runs) : record.tokens = record.writing.map Run.token := by
  have hmap : (record.runs.filterMap fun run => if run.kind = .deleted then none
      else some (⟨run.generated, run.start, run.kind = .unedited⟩ : MapToken)) =
      record.writing.map Run.token := by
    rw [writing, ← List.filterMap_eq_map', ← List.filterMap_eq_filter, List.filterMap_filterMap]
    congr 1
    funext run
    by_cases hkind : run.kind = .deleted <;> simp [hkind, Option.guard, Run.token]
  rw [tokens, hmap, SourceMap.inOrder]
  refine Sorting.sort_eq_self (List.pairwise_map.2 ((writing_pairwise tiled).imp fun h => ?_))
  exact decide_eq_true (le_of_lt h.2)

theorem sources_pairwise (tiled : Tiled at' record.runs) : record.tokens.Pairwise (·.source ≤ ·.source) := by
  rw [tokens_eq tiled]
  refine List.pairwise_map.2 (List.Pairwise.imp_of_mem (fun hrun _ h => ?_) (writing_pairwise tiled))
  exact le_trans (tiled.wellformed _ (mem_writing.1 hrun).1).start_le h.1.stop_le

theorem sort_tokens (tiled : Tiled at' record.runs) :
    Sorting.sort (fun a b : MapToken => a.source ≤ b.source) record.tokens = record.tokens :=
  Sorting.sort_eq_self ((sources_pairwise tiled).imp fun h => decide_eq_true h)

theorem exists_runStretch (tiled : Tiled at' record.runs) {run : Run} (hrun : run ∈ record.runs)
    (hkind : run.kind ≠ .deleted) {position : Position} (line : run.start.line = position.line)
    (hstop : position < run.stop) :
    ∃ stretch ∈ SourceMap.stretches (·.source) record.tokens, stretch.token = run.token ∧
      stretch.start = run.start ∧ position < stretch.stop := by
  obtain ⟨front, back, hruns⟩ := List.append_of_mem (mem_writing.2 ⟨hrun, hkind⟩)
  obtain ⟨stretch, hstretch, htoken, hstart, hreach⟩ :=
    SourceMap.exists_stretch (·.source) run.token (back.map Run.token) (front.map Run.token)
  refine ⟨stretch, ?_, htoken, hstart, hreach position ?_ fun other hother => ?_⟩
  · rw [tokens_eq tiled, hruns, List.map_append, List.map_cons]
    exact hstretch
  · exact Position.lt_nextLine_iff.2 (Nat.le_of_eq line.symm)
  · obtain ⟨later, hlater, rfl⟩ := List.mem_map.1 hother
    have order := writing_pairwise tiled
    rw [hruns] at order
    have := (List.pairwise_cons.1 (List.pairwise_append.1 order).2.1).1 later hlater
    exact lt_of_lt_of_le hstop this.1.stop_le

theorem exists_run_of_mem_stretches (tiled : Tiled at' record.runs) {stretch : SourceMap.Stretch}
    (h : stretch ∈ SourceMap.stretches (·.source) record.tokens) :
    ∃ run ∈ record.runs, run.kind ≠ .deleted ∧ stretch.token = run.token ∧ stretch.start = run.start ∧
      stretch.start ≤ stretch.stop ∧ stretch.stop ≤ run.start.nextLine ∧
      ∀ later ∈ record.runs, later.kind ≠ .deleted → run.Precedes record.runs later →
        stretch.stop ≤ later.start := by
  obtain ⟨front, back, htokens, hstart, hforward, hline, hback⟩ :=
    SourceMap.exists_split_of_mem_stretches (sources_pairwise tiled) h
  rw [tokens_eq tiled] at htokens
  obtain ⟨frontRuns, rest, hruns, rfl, hrest⟩ := List.map_eq_append_iff.1 htokens
  obtain ⟨run, backRuns, rfl, htoken, rfl⟩ := List.map_eq_cons_iff.1 hrest
  have hmem : run ∈ record.writing := by rw [hruns]; simp
  have order := writing_pairwise tiled
  rw [hruns] at order
  refine ⟨run, (mem_writing.1 hmem).1, (mem_writing.1 hmem).2, htoken.symm, ?_, hforward, ?_, ?_⟩
  · rw [hstart, ← htoken]; rfl
  · rwa [hstart, ← htoken] at hline
  · intro later hlater hkind hprecedes
    have hlater' : later ∈ frontRuns ++ run :: backRuns := hruns ▸ mem_writing.2 ⟨hlater, hkind⟩
    have hgenerated := hprecedes.generated_lt (mem_writing.1 hmem).2
    rcases eq_or_before_or_behind order hlater' with rfl | hfront | ⟨hbehind, -⟩
    · exact absurd hgenerated (lt_irrefl _)
    · exact absurd hgenerated (lt_asymm hfront.2)
    · exact hback later.token (List.mem_map_of_mem hbehind)

end Record

namespace Run

variable {run : Run} {position other output : Position}

theorem landing_lt (line : position.line = other.line) (le : run.start.column ≤ position.column)
    (lt : position < other) : run.landing position < run.landing other := by
  rw [Position.lt_iff] at lt ⊢
  simp only [landing, true_and]
  omega

theorem generated_le_landing (run : Run) (position : Position) : run.generated ≤ run.landing position := by
  rw [Position.le_iff]
  simp only [landing, true_and]
  omega

theorem landing_start (run : Run) : run.landing run.start = run.generated := by
  simp [landing]

theorem Copies.column_le (copies : run.Copies position output) : run.start.column ≤ position.column := by
  have hle := copies.start_le
  have hline := copies.line
  rw [Position.le_iff] at hle
  omega

theorem Copies.lt_generated (copies : run.Copies position output) (wellformed : run.Wellformed)
    {runs : List Run} {later : Run} (precedes : run.Precedes runs later) : output < later.generated := by
  rw [copies.landing]
  refine lt_of_lt_of_le (landing_lt ?_ copies.column_le copies.lt_stop) (precedes.landing_le copies.kind)
  rw [← copies.line, wellformed.level copies.kind]

end Run

namespace SourceMap

variable {record : Record} {at' : Progress} {position output source : Position} {run : Run}

/-- A record's map tracks what the pass has copied. -/
theorem tracks_tokens (tiled : Tiled at' record.runs) (hrun : run ∈ record.runs)
    (copies : run.Copies position output) : Tracks record.tokens output position := by
  have leads : run.token.Leads output position := by
    refine ⟨decide_eq_true copies.kind, copies.landing ▸ run.generated_le_landing position, ?_, ?_⟩
    · rw [copies.landing]; rfl
    · have hline := copies.line
      have hcolumn := copies.column_le
      simp only [copies.landing, Run.landing, Run.token]
      cases position
      simp only [Position.mk.injEq] at hline hcolumn ⊢
      omega
  have htokens := Record.tokens_eq tiled
  have hkind : run.kind ≠ .deleted := by rw [copies.kind]; simp
  refine ⟨run.token, ?_, leads, fun other hother hle => ?_⟩
  · rw [htokens]
    exact List.mem_map_of_mem (Record.mem_writing.2 ⟨hrun, hkind⟩)
  · rw [htokens] at hother
    obtain ⟨otherRun, hotherRun, rfl⟩ := List.mem_map.1 hother
    obtain ⟨hotherRun, hotherKind⟩ := Record.mem_writing.1 hotherRun
    rcases tiled.trichotomy hrun hotherRun with rfl | hprecedes | hprecedes
    · exact ⟨le_refl _, fun _ => leads⟩
    · exact absurd (copies.lt_generated (tiled.wellformed run hrun) hprecedes) (not_lt.2 hle)
    · have hlt := hprecedes.generated_lt hotherKind
      exact ⟨le_of_lt hlt, fun heq => absurd heq (ne_of_lt hlt)⟩

/-! ## Adjusting -/

theorem moved_token {position : Position} (line : position.line = run.start.line)
    (le : run.start.column ≤ position.column) : moved run.token position = run.landing position := by
  simp only [moved, Run.token, Run.landing, Position.mk.injEq]
  omega

theorem generated_carriedBy {older newer : Stretch} (hmeets : older.Meets newer)
    (htoken : newer.token = run.token) (hstart : newer.start = run.start)
    (hline : newer.stop ≤ run.start.nextLine) :
    ∃ place, place = max older.start newer.start ∧ place.line = run.start.line ∧
      run.start.column ≤ place.column ∧ (older.carriedBy newer).generated = run.landing place := by
  have hle : run.start ≤ max older.start newer.start := hstart ▸ le_max_right _ _
  have hlt : max older.start newer.start < run.start.nextLine := by
    refine max_lt (lt_of_lt_of_le hmeets.1 hline) ?_
    rw [hstart]
    exact Position.lt_nextLine_iff.2 (Nat.le_refl _)
  have line : (max older.start newer.start).line = run.start.line := by
    have := Position.lt_nextLine_iff.1 hlt
    rw [Position.le_iff] at hle
    omega
  have column : run.start.column ≤ (max older.start newer.start).column := by
    rw [Position.le_iff] at hle
    omega
  refine ⟨_, rfl, line, column, ?_⟩
  rw [Stretch.carriedBy, later_eq_max, htoken]
  exact moved_token line column

theorem leads_carriedBy {token : MapToken} (leads : token.Leads position source)
    (copies : run.Copies position output) (hstart : run.start ≤ token.generated) :
    MapToken.Leads { token with generated := run.landing token.generated } output source := by
  have hline := leads.line
  have hrunLine := copies.line
  have hle := leads.le
  rw [Position.le_iff] at hle hstart
  refine ⟨leads.isRange, ?_, ?_, ?_⟩
  · rw [copies.landing, Position.le_iff]
    simp only [Run.landing, true_and]
    omega
  · rw [copies.landing]; rfl
  · rw [leads.source_eq, copies.landing]
    simp only [Run.landing, Position.mk.injEq, true_and]
    omega

theorem carriedBy_lt (tiled : Tiled at' record.runs) {earlier : Run} (hearlier : earlier ∈ record.runs)
    (hkind : earlier.kind ≠ .deleted) (hrun : run ∈ record.runs) (hrunKind : run.kind ≠ .deleted)
    (precedes : earlier.Precedes record.runs run) {older newer : Stretch} (hmeets : older.Meets newer)
    (settled : Settled record older.token) (holder : older.start = older.token.generated)
    (htoken : newer.token = earlier.token) (hstart : newer.start = earlier.start)
    (hline : newer.stop ≤ earlier.start.nextLine)
    (hbefore : ∀ later ∈ record.runs, later.kind ≠ .deleted → earlier.Precedes record.runs later →
      newer.stop ≤ later.start) : (older.carriedBy newer).generated < run.generated := by
  obtain ⟨place, hplace, line, column, hgenerated⟩ := generated_carriedBy hmeets htoken hstart hline
  rw [hgenerated]
  rcases le_or_gt older.start newer.start with hle | hlt
  · -- The older token reaches into the run from in front of it.
    rw [hplace, max_eq_right hle, hstart, Run.landing_start]
    exact precedes.generated_lt hkind
  have hat : place = older.token.generated := by rw [hplace, max_eq_left (le_of_lt hlt), holder]
  have hbehind : earlier.start < place := by rw [hat, ← holder, ← hstart]; exact hlt
  have hinside : place < newer.stop := by rw [hat, ← holder]; exact hmeets.1
  rcases lt_or_ge place earlier.stop with hstop | hstop
  · -- It stands inside the run, which therefore copies it.
    have found := Record.runAt_eq_some tiled hearlier (le_of_lt hbehind) hstop
    rw [hat] at found
    rcases settled earlier found with hunedited | ⟨-, hsame⟩
    · refine lt_of_lt_of_le (Run.landing_lt ?_ column hstop) (precedes.landing_le hunedited)
      rw [line, (tiled.wellformed earlier hearlier).level hunedited]
    · exact absurd hbehind (by rw [hat, hsame]; exact lt_irrefl _)
  · -- It stands behind the run and in no other, so a line feed is copied between it and the later run.
    have hfree : record.runAt place = none := by
      cases hfound : record.runAt place with
      | none => rfl
      | some other =>
        obtain ⟨hother, hotherStart, hotherStop⟩ := Record.mem_of_runAt hfound
        have hotherKind : other.kind ≠ .deleted := by
          rw [hat] at hfound
          rcases settled other hfound with h | ⟨h, -⟩ <;> rw [h] <;> simp
        rcases tiled.trichotomy hearlier hother with rfl | hprecedes | hprecedes
        · exact absurd hotherStop (not_lt.2 hstop)
        · exact absurd (lt_of_lt_of_le hinside (hbefore other hother hotherKind hprecedes))
            (not_lt.2 hotherStart)
        · exact absurd (lt_of_lt_of_le hotherStop hprecedes.stop_le) (not_lt.2 (le_of_lt hbehind))
    have hlater : place < run.start := lt_of_lt_of_le hinside (hbefore run hrun hrunKind precedes)
    have := precedes.gap place hstop hlater (Record.not_contains_of_runAt tiled hfree)
    exact .inl this

/-- Adjusting by the map of a pass tracks a position where the pass has copied it to. -/
theorem Tracks.adjust (tiled : Tiled at' record.runs) {aligned : List MapToken}
    (sorted : aligned.Pairwise (·.generated ≤ ·.generated))
    (settled : ∀ token ∈ aligned, Settled record token) (h : Tracks aligned position source)
    (inside : ∃ token ∈ aligned, run.start ≤ token.generated ∧ token.generated ≤ position)
    (hrun : run ∈ record.runs) (copies : run.Copies position output) :
    Tracks (adjust aligned record.tokens) output source := by
  obtain ⟨front, token, back, haligned, leads, hback, latest⟩ := h.exists_last sorted
  have hkind : run.kind ≠ .deleted := by rw [copies.kind]; simp
  have hinside : run.start ≤ token.generated := by
    obtain ⟨other, hother, hstart, hle⟩ := inside
    exact le_trans hstart (latest other hother hle).1
  have mem_adjust : ∀ other, other ∈ SourceMap.adjust aligned record.tokens ↔
      ∃ newer ∈ stretches (·.source) record.tokens, ∃ older ∈ stretches (·.generated) aligned,
        older.Meets newer ∧ other = older.carriedBy newer := by
    intro other
    rw [SourceMap.adjust, mem_inOrder, Record.sort_tokens tiled]
    exact mem_carryAll (consecutive_stretches (Record.sources_pairwise tiled)) (consecutive_stretches sorted)
  obtain ⟨newer, hnewer, hnewerToken, hnewerStart, hreach⟩ :=
    Record.exists_runStretch tiled hrun hkind copies.line copies.lt_stop
  obtain ⟨older, holder, rfl, holderStart, hcovers⟩ := exists_stretch (·.generated) token back front
  rw [← haligned] at holder
  have hcarried : older.carriedBy newer =
      { older.token with generated := run.landing older.token.generated } := by
    have line : older.token.generated.line = run.start.line := by rw [leads.line, copies.line]
    have column : run.start.column ≤ older.token.generated.column := by
      rw [Position.le_iff] at hinside
      omega
    rw [Stretch.carriedBy, later_eq_max, hnewerToken, holderStart, hnewerStart, max_eq_left hinside,
      moved_token line column]
  refine ⟨_, (mem_adjust _).2 ⟨newer, hnewer, older, holder, ⟨?_, ?_⟩, hcarried.symm⟩,
    leads_carriedBy leads copies hinside, fun other hother hle => ?_⟩
  · exact lt_of_le_of_lt (holderStart ▸ leads.le) hreach
  · refine lt_of_le_of_lt (hnewerStart ▸ copies.start_le) (hcovers position ?_ hback)
    exact Position.lt_nextLine_iff.2 (Nat.le_of_eq leads.line.symm)
  obtain ⟨newer', hnewer', older', holder', hmeets, rfl⟩ := (mem_adjust other).1 hother
  obtain ⟨run', hrun', hkind', htoken', hstart', hforward', hline', hbefore'⟩ :=
    Record.exists_run_of_mem_stretches tiled hnewer'
  obtain ⟨front', back', haligned', holderStart', -, -, hback'⟩ :=
    exists_split_of_mem_stretches sorted holder'
  have hmem' : older'.token ∈ aligned := by rw [haligned']; simp
  have hlanding : run.generated ≤ run.landing older.token.generated := run.generated_le_landing _
  rcases tiled.trichotomy hrun hrun' with rfl | hprecedes | hprecedes
  · -- The same run carries both tokens.
    obtain ⟨place, hplace, line, column, hgenerated⟩ := generated_carriedBy hmeets htoken' hstart' hline'
    have hplaceLe : place ≤ position := by
      refine not_lt.1 fun hlt => absurd hle (not_le.2 ?_)
      rw [hgenerated, copies.landing]
      exact Run.landing_lt (by rw [line, copies.line]) copies.column_le hlt
    have holder'Le : older'.token.generated ≤ position := by
      rw [← holderStart']
      exact le_trans (le_max_left _ _) (hplace ▸ hplaceLe)
    obtain ⟨hlatest, htie⟩ := latest older'.token hmem' holder'Le
    have hplaceToken : place ≤ older.token.generated := by
      rw [hplace, holderStart', hstart']
      exact max_le hlatest hinside
    have lineToken : place.line = older.token.generated.line := by rw [line, leads.line, copies.line]
    change (older'.carriedBy newer').generated ≤ run.landing older.token.generated ∧
      ((older'.carriedBy newer').generated = run.landing older.token.generated →
        (older'.carriedBy newer').Leads output source)
    rw [hgenerated]
    rcases (le_iff_lt_or_eq.1 hplaceToken).symm with heq | hlt
    · refine ⟨by rw [heq], fun _ => ?_⟩
      have hsame : older'.token.generated = older.token.generated := by
        -- A token further in front ends where the one that answers stands.
        refine le_antisymm hlatest (not_lt.1 fun hearlier => ?_)
        have hbehind : older.token ∈ back' := by
          have hmem : older.token ∈ front' ++ older'.token :: back' := by
            rw [← haligned', haligned]; simp
          exact (le_or_mem_back (haligned' ▸ sorted) hmem).resolve_left (not_le.2 hearlier)
        have hends : older'.stop ≤ place := heq ▸ hback' older.token hbehind
        have hbefore : older'.start < place := by rw [holderStart', heq]; exact hearlier
        have hat : place = newer'.start := by
          rcases le_total newer'.start older'.start with hmax | hmax
          · rw [hplace, max_eq_left hmax] at hbefore
            exact absurd hbefore (lt_irrefl _)
          · rw [hplace, max_eq_right hmax]
        exact absurd hmeets.2 (not_lt.2 (hat ▸ hends))
      have hstart : run.start ≤ older'.token.generated := hsame ▸ hinside
      have hmoved : older'.carriedBy newer' =
          { older'.token with generated := run.landing older'.token.generated } := by
        rw [hsame, ← heq, ← hgenerated]; rfl
      rw [hmoved]
      exact leads_carriedBy (htie hsame) copies hstart
    · have := Run.landing_lt lineToken column hlt
      exact ⟨le_of_lt this, fun heq => absurd heq (ne_of_lt this)⟩
  · refine absurd hle
      (not_le.2 (lt_of_lt_of_le (copies.lt_generated (tiled.wellformed run hrun) hprecedes) ?_))
    obtain ⟨place, -, -, -, hgenerated⟩ := generated_carriedBy hmeets htoken' hstart' hline'
    rw [hgenerated]
    exact run'.generated_le_landing place
  · have := lt_of_lt_of_le (carriedBy_lt tiled hrun' hkind' hrun hkind hprecedes hmeets
      (settled _ hmem') holderStart' htoken' hstart' hline' hbefore') hlanding
    exact ⟨le_of_lt this, fun heq => absurd heq (ne_of_lt this)⟩

theorem Tracks.extend (tiled : Tiled at' record.runs) {tokens : List MapToken}
    (sorted : tokens.Pairwise (·.generated ≤ ·.generated)) (h : Tracks tokens position source)
    (hrun : run ∈ record.runs) (copies : run.Copies position output) :
    Tracks (extend tokens record) output source := by
  obtain ⟨hAligned, inside⟩ := h.align tiled sorted hrun copies
  exact hAligned.adjust tiled (inOrder_pairwise _) (fun token => settled_of_mem_align) inside hrun copies

end SourceMap

/-! ## Passes in a row -/

open SourceMap in
theorem Edit.tracks_of_landingThrough {c : Char} (hc : c ≠ '\n') : ∀ {passes : List (List Edit)}
    {index byte : Nat} {text final front back : Text} {records : List Record} {tokens : List MapToken}
    {source : Position}, applyPasses index text passes = .ok (final, records) → text = front ++ c :: back →
    landingThrough passes front.byteLength = some byte → tokens.Pairwise (·.generated ≤ ·.generated) →
    Tracks tokens (Position.origin.after front) source →
    ∃ front' back', final = front' ++ c :: back' ∧ Text.byteLength front' = byte ∧
      (records.foldl extend tokens).Pairwise (·.generated ≤ ·.generated) ∧
      Tracks (records.foldl extend tokens) (Position.origin.after front') source
  | [], index, byte, text, final, front, back, records, tokens, source, happly, htext, hbyte, sorted, h => by
    simp only [applyPasses, Except.ok.injEq, Prod.mk.injEq] at happly
    obtain ⟨rfl, rfl⟩ := happly
    simp only [landingThrough, List.foldlM_nil, Option.pure_def, Option.some.injEq] at hbyte
    exact ⟨front, back, htext, hbyte, sorted, h⟩
  | edits :: rest, index, byte, text, final, front, back, records,
      tokens, source, happly, htext, hbyte, sorted, h => by
    obtain ⟨output, record, more, hfirst, hrest, rfl⟩ := applyPasses_cons happly
    rw [landingThrough, List.foldlM_cons] at hbyte
    obtain ⟨landing, hlanding, hbyte⟩ := Option.bind_eq_some_iff.1 hbyte
    obtain ⟨front', back', houtput, hlength, hcopied⟩ := exists_copy_of_applyAll hfirst htext hlanding
    obtain ⟨run, hrun, copies⟩ := hcopied hc
    have tracked := h.extend (tiled_applyAll hfirst) sorted hrun copies
    rw [← hlength] at hbyte
    rw [List.foldl_cons]
    exact tracks_of_landingThrough hc hrest houtput hbyte (inOrder_pairwise _) tracked

/-- A character other than a line feed that every pass copies is mapped back to where it stands in the
text of the first pass. -/
theorem SourceMap.sourcePosition_compose_of_copied {text final front back : Text} {c : Char}
    {edits : List Edit} {rest : List (List Edit)} {records : List Record} {byte : Nat} (file : Option String)
    (happly : Edit.applyPasses 0 text (edits :: rest) = .ok (final, records))
    (htext : text = front ++ c :: back) (hc : c ≠ '\n')
    (hbyte : Edit.landingThrough (edits :: rest) front.byteLength = some byte) :
    ∃ front' back', final = front' ++ c :: back' ∧ Text.byteLength front' = byte ∧
      (compose records file).sourcePosition (Position.origin.after front') =
        some (Position.origin.after front) := by
  obtain ⟨output, record, more, hfirst, hrest, rfl⟩ := Edit.applyPasses_cons happly
  rw [Edit.landingThrough, List.foldlM_cons] at hbyte
  obtain ⟨landing, hlanding, hbyte⟩ := Option.bind_eq_some_iff.1 hbyte
  obtain ⟨front₁, back₁, houtput, hlength, hcopied⟩ := Edit.exists_copy_of_applyAll hfirst htext hlanding
  obtain ⟨run, hrun, copies⟩ := hcopied hc
  have tracked := tracks_tokens (Edit.tiled_applyAll hfirst) hrun copies
  rw [← hlength] at hbyte
  obtain ⟨front', back', hfinal, hbytes, sorted, tracked'⟩ :=
    Edit.tracks_of_landingThrough hc hrest houtput hbyte (inOrder_pairwise _) tracked
  exact ⟨front', back', hfinal, hbytes, tracked'.sourcePosition sorted file⟩

/-- The last character of `a𝒳⏎bcd`: the first pass writes in front of the text and joins its lines, the second
removes a character in front and writes two lines. -/
theorem SourceMap.sourcePosition_compose_joined_lines :
    ∃ final records front' back',
      Edit.applyPasses 0 "a𝒳\nbcd".toList
        [[⟨⟨5, 6⟩, none⟩, ⟨⟨0, 0⟩, some "𝒴".toList⟩], [⟨⟨4, 5⟩, none⟩, ⟨⟨9, 10⟩, some "u\nv".toList⟩]] =
        .ok (final, records) ∧
      final = front' ++ 'd' :: back' ∧
      (compose records none).sourcePosition (Position.origin.after front') = some ⟨1, 2⟩ := by
  have happly : ∃ final records, Edit.applyPasses 0 "a𝒳\nbcd".toList
      [[⟨⟨5, 6⟩, none⟩, ⟨⟨0, 0⟩, some "𝒴".toList⟩], [⟨⟨4, 5⟩, none⟩, ⟨⟨9, 10⟩, some "u\nv".toList⟩]] =
      .ok (final, records) := ⟨_, _, rfl⟩
  obtain ⟨final, records, happly⟩ := happly
  have htext : "a𝒳\nbcd".toList = "a𝒳\nbc".toList ++ 'd' :: [] := rfl
  have hbyte : Edit.landingThrough
      [[⟨⟨5, 6⟩, none⟩, ⟨⟨0, 0⟩, some "𝒴".toList⟩], [⟨⟨4, 5⟩, none⟩, ⟨⟨9, 10⟩, some "u\nv".toList⟩]]
      (Text.byteLength "a𝒳\nbc".toList) = some 12 := by decide
  obtain ⟨front', back', hfinal, -, hfound⟩ :=
    SourceMap.sourcePosition_compose_of_copied none happly htext (by decide) hbyte
  exact ⟨final, records, front', back', happly, hfinal, hfound⟩

/-- Without a pass there is no token, and a character that stays where it is has no source position. -/
theorem SourceMap.sourcePosition_compose_no_pass :
    Edit.applyPasses 0 "abc".toList [] = .ok ("abc".toList, []) ∧
    Edit.landingThrough [] (Text.byteLength ['a']) = some 1 ∧
      (compose [] none).sourcePosition (Position.origin.after ['a']) ≠ some (Position.origin.after ['a']) :=
  ⟨rfl, rfl, by decide⟩

end ClassWeave
