import ClassWeave.Proofs.Footing
/-!
# How far tokens reach

A range answers for its line up to the next token. What it answers stays in the source as long as
nothing comes to stand in it that was not copied with it: each pass keeps a token, or cuts a range,
wherever it copies or writes (`SourceMap.Renews`).
-/

namespace ClassWeave.SourceMap

/-- A position of a token's line that no later token is in front of. -/
structure Reaches (tokens : List MapToken) (token : MapToken) (position : Position) : Prop where
  mem : token ∈ tokens
  le : token.generated ≤ position
  line : token.generated.line = position.line
  latest : ∀ other ∈ tokens, other.generated < position → other.generated ≤ token.generated

/-- Tokens that lead into a source, ranges from every place of a text that they reach. -/
structure LeadsInto (source text : Text) (tokens : List MapToken) : Prop where
  stands : ∀ token ∈ tokens, source.Holds token.source
  reach : ∀ token ∈ tokens, token.isRange = true → ∀ position, Reaches tokens token position →
    text.Holds position →
    source.Holds (leadsTo token position)

/-- A pass that keeps the map in charge of what it copies and writes: its replacements remove
something, and wherever one of its runs starts, the token in charge is a range, which is cut there,
or keeps its place. -/
structure Renews (tokens : List MapToken) (record : Record) : Prop where
  removes : ∀ run ∈ record.runs, run.kind = .replaced → run.start < run.stop
  answered : ∀ run ∈ record.runs, run.kind ≠ .deleted →
    (∃ token, Governs tokens token run.start ∧ (token.isRange = true ∨ Settled record token)) ∨
      ∀ token, ¬ Governs (extend tokens record) token run.generated

section
variable {index : Nat} {source text output : Text} {edits : List Edit} {record : Record} {run : Run}
  {tokens : List MapToken} {token older : MapToken} {position : Position}

theorem exists_governs (sorted : tokens.Pairwise (·.generated ≤ ·.generated)) (htoken : token ∈ tokens)
    (hle : token.generated ≤ position) (line : token.generated.line = position.line) :
    ∃ other, Governs tokens other position := by
  obtain ⟨front, last, back, rfl, hlast, hback⟩ := exists_last_le sorted ⟨token, htoken, hle⟩
  have latest : ∀ other ∈ front ++ last :: back, other.generated ≤ position →
    other.generated ≤ last.generated :=
    fun other hother hposition =>
      (le_or_mem_back sorted hother).resolve_right fun hbehind => not_le.2 (hback other hbehind) hposition
  refine ⟨last, by simp, hlast, ?_, latest⟩
  have hbetween := latest token htoken hle
  rw [Position.le_iff] at hbetween hlast
  omega

/-! ## The map of one pass -/

theorem leadsTo_token (hkind : run.kind = .unedited) (position : Position) :
    leadsTo run.token position = run.start.right (position.column - run.generated.column) := by
  simp [leadsTo, Run.token, Position.right, hkind]

theorem holds_right (happly : Edit.applyAll index text edits = .ok (output, record))
    (hrun : run ∈ record.runs) (hkind : run.kind = .unedited)
    {columns : Nat} (hle : run.start.column + columns ≤ run.stop.column) :
    text.Holds (run.start.right columns) := by
  obtain ⟨front, piece, back, _, _, rfl, -, flat, rfl⟩ := Edit.copiesPiece_of_applyAll happly hrun hkind
  refine Text.holds_iff.2 ⟨front ++ piece, back, rfl, ?_, hle⟩
  rw [Position.after_append, Position.after_eq_of_flat _ flat]
  rfl

theorem leadsInto_tokens (happly : Edit.applyAll index text edits = .ok (output, record)) :
    LeadsInto text output record.tokens := by
  have tiled := Edit.tiled_applyAll happly
  have htokens := Record.tokens_eq tiled
  refine ⟨fun token htoken => ?_, fun token htoken hrange position reaches holds => ?_⟩
  · rw [htokens] at htoken
    obtain ⟨run, hrun, rfl⟩ := List.mem_map.1 htoken
    exact (Edit.holds_generated happly (Record.mem_writing.1 hrun).1).1
  · rw [htokens] at htoken
    obtain ⟨run, hmem, rfl⟩ := List.mem_map.1 htoken
    obtain ⟨hrun, hwrites⟩ := Record.mem_writing.1 hmem
    have hkind : run.kind = .unedited := of_decide_eq_true hrange
    obtain ⟨hforward, hbehind⟩ := Edit.exists_piece_of_mem happly hrun hkind
    have level := (tiled.wellformed run hrun).level hkind
    have hcolumn := Position.column_le_of_le (le_of_lt hforward) level
    rw [leadsTo_token hkind]
    refine holds_right happly hrun hkind ?_
    by_contra hfar
    -- Another run has written what is there, and its token stands between this one and the position.
    have hlt : (run.landing run.stop).column < position.column := by
      simp only [Run.landing]
      omega
    obtain ⟨next, hnext, hnextKind, hgenerated⟩ := hbehind position holds reaches.line hlt
    have hmem : next.token ∈ record.tokens := by
      rw [htokens]
      exact List.mem_map_of_mem (Record.mem_writing.2 ⟨hnext, hnextKind⟩)
    have hbefore : next.generated < position := by
      rw [hgenerated]
      exact .inr ⟨reaches.line, hlt⟩
    have hle := reaches.latest next.token hmem hbefore
    have hahead := Run.landing_lt level (le_refl _) hforward
    rw [Run.landing_start, ← hgenerated] at hahead
    exact absurd hahead (not_lt.2 hle)

/-! ## Aligning -/

theorem reaches_of_lt_rangeEnd (sorted : tokens.Pairwise (·.generated ≤ ·.generated))
    {front back : List MapToken} (htokens : tokens = front ++ token :: back)
    (hlt : token.generated < position) (hend : position < rangeEnd token back.head?) :
    Reaches tokens token position := by
  subst htokens
  refine ⟨by simp, le_of_lt hlt, ?_, fun other hother hposition => ?_⟩
  · have hline : rangeEnd token back.head? ≤ token.generated.nextLine := by
      unfold rangeEnd
      split
      · split
        · rename_i hsame
          exact le_of_lt (Position.lt_nextLine_iff.2 (Nat.le_of_eq hsame))
        · exact le_refl _
      · exact le_refl _
    have hle := Position.lt_nextLine_iff.1 (lt_of_lt_of_le hend hline)
    rw [Position.lt_iff] at hlt
    omega
  · refine (le_or_mem_back sorted hother).resolve_right fun hbehind => ?_
    have := rangeEnd_le (List.pairwise_append.1 sorted).2.1 other hbehind
    exact not_lt.2 (le_trans (le_of_lt hend) this) hposition

theorem source_of_mem_settle {part : MapToken} (h : older ∈ settle record part) :
    older.source = part.source := by
  unfold settle at h
  split at h
  · rw [List.mem_singleton.1 h]
  · split at h
    · rw [List.mem_singleton.1 h]
    · split at h
      · rw [List.mem_singleton.1 h]
      · cases h
    · cases h

theorem range_of_mem_settle {part : MapToken} (h : older ∈ settle record part)
    (range : older.isRange = true) :
    older = part ∧ ∀ run, record.runAt part.generated = some run → run.kind = .unedited := by
  unfold settle at h
  cases hrun : record.runAt part.generated with
  | none =>
    simp only [hrun, List.mem_singleton] at h
    exact ⟨h, fun run hsome => by cases hsome⟩
  | some run =>
    simp only [hrun] at h
    cases hkind : run.kind with
    | unedited =>
      simp only [hkind, List.mem_singleton] at h
      refine ⟨h, fun other hsome => ?_⟩
      rw [← Option.some.inj hsome]
      exact hkind
    | replaced =>
      simp only [hkind] at h
      split at h
      · rw [List.mem_singleton.1 h] at range
        cases range
      · cases h
    | deleted =>
      simp only [hkind] at h
      cases h

theorem exists_origin (sorted : tokens.Pairwise (·.generated ≤ ·.generated)) (h : older ∈ align tokens record)
    (range : older.isRange = true) :
    ∃ origin ∈ tokens, origin.isRange = true ∧ origin.generated ≤ older.generated ∧
      origin.generated.line = older.generated.line ∧
      (∀ later ∈ tokens, origin.generated < later.generated → older.generated < later.generated) ∧
      ∀ columns, leadsTo older (older.generated.right columns) =
        leadsTo origin (older.generated.right columns) := by
  obtain ⟨front, origin, back, part, htokens, hpart, hsettle, -, -⟩ := exists_of_mem_align h
  obtain ⟨rfl, -⟩ := range_of_mem_settle hsettle range
  have horigin : origin ∈ tokens := by simp [htokens]
  have hbehind : ∀ later ∈ tokens, origin.generated < later.generated → older.generated < later.generated :=
    fun later hlater hlt => part_lt sorted htokens hlater hlt hpart
  rcases mem_split.1 hpart with rfl | ⟨hrange, run, -, hlt, hend, rfl⟩
  · exact ⟨older, horigin, range, le_refl _, rfl, hbehind, fun _ => rfl⟩
  · have hline := (reaches_of_lt_rangeEnd sorted htokens hlt hend).line
    have hcolumn := Position.column_le_of_le (le_of_lt hlt) hline
    refine ⟨origin, horigin, hrange, le_of_lt hlt, hline, hbehind, fun columns => ?_⟩
    simp only [leadsTo, MapToken.startingAt, hrange, if_true, Position.right, Position.mk.injEq, true_and]
    omega

theorem LeadsInto.align (h : LeadsInto source text tokens)
    (happly : Edit.applyAll index text edits = .ok (output, record))
    (sorted : tokens.Pairwise (·.generated ≤ ·.generated)) :
    ∀ older ∈ SourceMap.align tokens record, source.Holds older.source := by
  intro older holder
  obtain ⟨front, origin, back, part, htokens, hpart, hsettle, -, -⟩ := exists_of_mem_align holder
  have horigin : origin ∈ tokens := by simp [htokens]
  rw [source_of_mem_settle hsettle]
  rcases mem_split.1 hpart with rfl | ⟨hrange, run, hrun, hlt, hend, rfl⟩
  · exact h.stands part horigin
  · have reaches := reaches_of_lt_rangeEnd sorted htokens hlt hend
    have hleads := h.reach origin horigin hrange run.start reaches (Edit.holds_generated happly hrun).1
    rwa [leadsTo, if_pos hrange] at hleads

theorem exists_aligned {at' : Progress} (tiled : Tiled at' record.runs)
    (ordered : Ordered tokens) (hrun : run ∈ record.runs) (hkind : run.kind ≠ .deleted)
    (hlt : run.start < run.stop) (h : Governs tokens token run.start)
    (kept : token.isRange = true ∨ Settled record token) :
    ∃ older, Governs (SourceMap.align tokens record) older run.start ∧
      (older.generated = run.start ∨ older = token ∧ token.isRange = false) := by
  cases hrange : token.isRange with
  | false =>
    have settled := kept.resolve_left (by simp [hrange])
    exact ⟨token, h.align_point ordered.sorted ordered.unambiguous hrange settled, .inr ⟨rfl, rfl⟩⟩
  | true =>
    obtain ⟨front, back, htokens, hback⟩ := exists_last_of_governs ordered.sorted ordered.unambiguous h
    have hpart : token.startingAt run.start ∈ split record token back.head? := by
      rcases le_iff_lt_or_eq.1 h.le with hbefore | heq
      · exact mem_split.2 (.inr ⟨hrange, run, hrun, hbefore, lt_rangeEnd h.line hback, rfl⟩)
      · rw [← heq, MapToken.startingAt_self]
        exact mem_split.2 (.inl rfl)
    have hfound : record.runAt (token.startingAt run.start).generated = some run :=
      Record.runAt_eq_some tiled hrun (le_refl _) hlt
    have hsettle : ∃ older ∈ settle record (token.startingAt run.start), older.generated = run.start := by
      unfold settle
      simp only [hfound]
      cases hrunKind : run.kind with
      | unedited => exact ⟨_, List.mem_singleton_self _, rfl⟩
      | replaced =>
        simp only
        rw [if_pos (by rfl)]
        exact ⟨_, List.mem_singleton_self _, rfl⟩
      | deleted => exact absurd hrunKind hkind
    obtain ⟨older, holder, hplace⟩ := hsettle
    have hmem : older ∈ SourceMap.align tokens record :=
      mem_inOrder.2 (mem_alignAll.2 ⟨front, token, back, htokens, _, hpart, holder⟩)
    refine ⟨older, ⟨hmem, le_of_eq hplace, by rw [hplace], fun other _ hother => ?_⟩, .inl hplace⟩
    rwa [hplace]

/-! ## Adjusting -/

theorem Renews.lt_stop (h : Renews tokens record)
    (happly : Edit.applyAll index text edits = .ok (output, record))
    (hrun : run ∈ record.runs) (hkind : run.kind ≠ .deleted) : run.start < run.stop := by
  cases hrunKind : run.kind with
  | unedited => exact (Edit.exists_piece_of_mem happly hrun hrunKind).1
  | replaced => exact h.removes run hrun hrunKind
  | deleted => exact absurd hrunKind hkind

theorem Carried.start_le {at' : Progress} (tiled : Tiled at' record.runs) (ordered : Ordered tokens)
    (h : Carried record (SourceMap.align tokens record) token run older) (range : older.isRange = true)
    (hlt : run.start < run.stop) {governing : MapToken} (governs : Governs tokens governing run.start)
    (kept : governing.isRange = true ∨ Settled record governing) : run.start ≤ older.generated := by
  by_contra hfront
  rw [not_le] at hfront
  obtain ⟨aligned, haligned, hwhere⟩ := exists_aligned tiled ordered h.run_mem h.kind hlt governs kept
  have hbetween : aligned.generated ≤ older.generated := by
    by_contra hbehind
    have hshort := h.short aligned haligned.mem (not_le.1 hbehind)
    exact absurd haligned.le (not_le.2 hshort)
  rcases hwhere with hplace | ⟨rfl, hpoint⟩
  · exact absurd hfront (not_lt.2 (hplace ▸ hbetween))
  · -- The range was cut from one in front of the token in charge, and ends there.
    obtain ⟨origin, horigin, hrange, hle, -, hbehind, -⟩ := exists_origin ordered.sorted h.mem range
    have hlatest := governs.latest origin horigin (le_trans hle (le_of_lt hfront))
    rcases le_iff_lt_or_eq.1 hlatest with hbefore | hsame
    · exact absurd (hbehind aligned governs.mem hbefore) (not_lt.2 hbetween)
    · rw [ordered.unambiguous origin horigin aligned governs.mem hsame, hpoint] at hrange
      cases hrange

theorem contains_of_range (happly : Edit.applyAll index text edits = .ok (output, record))
    (ordered : Ordered tokens) (acts : ∀ edit ∈ edits, ¬ edit.isVoid)
    (bears : ∀ token ∈ tokens, text.Bears token.generated) (renews : Renews tokens record)
    (hcarried : Carried record (SourceMap.align tokens record) token run older)
    (hmem : token ∈ extend tokens record) (range : older.isRange = true) :
    run.kind = .unedited ∧ run.contains older.generated := by
  have tiled := Edit.tiled_applyAll happly
  have hlt := renews.lt_stop happly hcarried.run_mem hcarried.kind
  have hstart : run.start ≤ older.generated := by
    rcases renews.answered run hcarried.run_mem hcarried.kind with ⟨governing, governs, kept⟩ | hnone
    · exact hcarried.start_le tiled ordered range hlt governs kept
    · by_contra hfront
      have hplace : token.generated = run.generated := by
        rw [hcarried.eq, carriedInto, max_eq_right (le_of_lt (not_le.1 hfront)), Run.landing_start]
      refine hnone token ⟨hmem, le_of_eq hplace, by rw [hplace], fun other _ hother => ?_⟩
      rwa [hplace]
  rcases le_iff_lt_or_eq.1 hstart with hbehind | heq
  · obtain ⟨hkind, hcontains, -⟩ := contains_of_carried happly acts bears hcarried hbehind
    exact ⟨hkind, hcontains⟩
  · obtain ⟨front, origin, back, part, -, -, hsettle, hplace, -⟩ := exists_of_mem_align hcarried.mem
    obtain ⟨-, hunedited⟩ := range_of_mem_settle hsettle range
    have hcontains : run.contains older.generated := Run.contains_iff.2 ⟨hstart, heq ▸ hlt⟩
    rw [← hplace] at hunedited
    exact ⟨hunedited run ((Edit.runAt_eq_some_iff happly).2 ⟨hcarried.run_mem, hcontains⟩), hcontains⟩

theorem not_reaches_of_lt (happly : Edit.applyAll index text edits = .ok (output, record))
    (ordered : Ordered tokens) (renews : Renews tokens record)
    {next : Run} (hnext : next ∈ record.runs) (hkind : next.kind ≠ .deleted)
    (hbefore : token.generated < next.generated) (line : token.generated.line = next.generated.line)
    (hlt : next.generated < position) : ¬ Reaches (extend tokens record) token position := by
  intro reaches
  have tiled := Edit.tiled_applyAll happly
  have haligned := inOrder_pairwise (alignAll record tokens)
  rcases renews.answered next hnext hkind with ⟨governing, governs, kept⟩ | hnone
  · have hforward := renews.lt_stop happly hnext hkind
    obtain ⟨older, holder, -⟩ := exists_aligned tiled ordered hnext hkind hforward governs kept
    have hmem := holder.carriedInto_mem tiled haligned
      (unambiguous_align ordered.sorted ordered.unambiguous record)
      hnext hkind rfl (le_refl _) (.inl hforward)
    have hplace : (carriedInto next older).generated = next.generated := by
      rw [carriedInto, max_eq_right holder.le, Run.landing_start]
    have hle := reaches.latest _ hmem (by rwa [hplace])
    rw [hplace] at hle
    exact absurd hbefore (not_lt.2 hle)
  · obtain ⟨other, governs⟩ := exists_governs (inOrder_pairwise _) reaches.mem (le_of_lt hbefore) line
    exact hnone other governs

theorem reaches_of_carried {at' : Progress} (tiled : Tiled at' record.runs) (ordered : Ordered tokens)
    (hrun : run ∈ record.runs) (hkind : run.kind = .unedited)
    {origin : MapToken} {place : Position} (horigin : origin ∈ tokens)
    (hle : origin.generated ≤ older.generated) (line : origin.generated.line = older.generated.line)
    (behind : ∀ later ∈ tokens, origin.generated < later.generated → older.generated < later.generated)
    (hstart : run.start ≤ older.generated) (hplace : older.generated ≤ place)
    (hstop : place ≤ run.stop) (reaches : Reaches (extend tokens record) token (run.landing place))
    (htoken : token.generated = run.landing older.generated) : Reaches tokens origin place := by
  have haligned := inOrder_pairwise (alignAll record tokens)
  have level := (tiled.wellformed run hrun).level hkind
  -- Everything between the start and the end of the run is on its line.
  have onLine : ∀ {p : Position}, run.start ≤ p → p ≤ run.stop → p.line = run.start.line := by
    intro p hfrom hto
    rw [Position.le_iff] at hfrom hto
    omega
  have hline := onLine hstart (le_trans hplace hstop)
  have hplaceLine := onLine (le_trans hstart hplace) hstop
  refine ⟨horigin, le_trans hle hplace, by rw [line, hline, hplaceLine], fun other hother hbefore => ?_⟩
  by_contra hlater
  have hbetween := behind other hother (not_le.1 hlater)
  have hfrom := le_of_lt (lt_of_le_of_lt hstart hbetween)
  have hto := lt_of_lt_of_le hbefore hstop
  have hotherLine := onLine hfrom (le_of_lt hto)
  -- The token between the two stays where it is, and the run carries it.
  have hsettle := settle_of_unedited (Record.runAt_eq_some tiled hrun hfrom hto) hkind
  obtain ⟨front, back, htokens⟩ := List.append_of_mem hother
  have hmem : other ∈ SourceMap.align tokens record := by
    refine mem_inOrder.2 (mem_alignAll.2 ⟨front, other, back, htokens, other, mem_split.2 (.inl rfl), ?_⟩)
    rw [hsettle]
    exact List.mem_singleton_self _
  have governs : Governs (SourceMap.align tokens record) other other.generated :=
    ⟨hmem, le_refl _, rfl, fun _ _ h => h⟩
  have hcarried := governs.carriedInto_mem tiled haligned
    (unambiguous_align ordered.sorted ordered.unambiguous record)
    hrun (by simp [hkind]) hotherLine.symm hfrom (.inl hto)
  have hgenerated : (carriedInto run other).generated = run.landing other.generated := by
    rw [carriedInto, max_eq_left hfrom]
  have hlatest := reaches.latest _ hcarried (by
    rw [hgenerated]
    exact Run.landing_lt (by rw [hotherLine, hplaceLine])
      (Position.column_le_of_le hfrom hotherLine.symm) hbefore)
  rw [hgenerated, htoken] at hlatest
  have hahead :=
    Run.landing_lt (by rw [hline, hotherLine]) (Position.column_le_of_le hstart hline.symm) hbetween
  exact absurd hahead (not_lt.2 hlatest)

/-- A pass that renews the map keeps it leading into the source. -/
theorem LeadsInto.extend (h : LeadsInto source text tokens)
    (happly : Edit.applyAll index text edits = .ok (output, record)) (ordered : Ordered tokens)
    (acts : ∀ edit ∈ edits, ¬ edit.isVoid) (bears : ∀ token ∈ tokens, text.Bears token.generated)
    (renews : Renews tokens record) : LeadsInto source output (SourceMap.extend tokens record) := by
  have tiled := Edit.tiled_applyAll happly
  have haligned := inOrder_pairwise (alignAll record tokens)
  refine ⟨fun token htoken => ?_, fun token htoken hrange position reaches holds => ?_⟩
  · obtain ⟨run, older, hcarried⟩ := exists_carried tiled haligned (fun _ => settled_of_mem_align) htoken
    rw [hcarried.eq]
    exact h.align happly ordered.sorted older hcarried.mem
  · obtain ⟨run, older, hcarried⟩ := exists_carried tiled haligned (fun _ => settled_of_mem_align) htoken
    have range : older.isRange = true := by
      rw [hcarried.eq] at hrange
      exact hrange
    obtain ⟨hkind, hcontains⟩ := contains_of_range happly ordered acts bears renews hcarried htoken range
    obtain ⟨hstart, hstop⟩ := Run.contains_iff.1 hcontains
    have hrun := hcarried.run_mem
    have level := (tiled.wellformed run hrun).level hkind
    have hplace : token.generated = run.landing older.generated := by
      rw [hcarried.eq, carriedInto, max_eq_left hstart]
    have hline : older.generated.line = run.start.line := by
      have := hcarried.line
      rwa [max_eq_left hstart] at this
    have hcolumn := Position.column_le_of_le hstart hline.symm
    have hahead : run.landing older.generated < run.landing run.stop :=
      Run.landing_lt (hline.trans level) hcolumn hstop
    have near : position.column ≤ (run.landing run.stop).column := by
      by_contra hfar
      have hline' : run.generated.line = position.line := by rw [← reaches.line, hplace]; rfl
      obtain ⟨next, hnext, hnextKind, hgenerated⟩ :=
        (Edit.exists_piece_of_mem happly hrun hkind).2 position holds hline' (not_le.1 hfar)
      refine not_reaches_of_lt happly ordered renews hnext hnextKind ?_ ?_ ?_ reaches
      · rwa [hgenerated, hplace]
      · rw [hgenerated, hplace]
        rfl
      · rw [hgenerated]
        exact .inr ⟨hline', not_le.1 hfar⟩
    have hforward := Position.column_le_of_le (tiled.wellformed run hrun).start_le level
    have hcolumns : token.generated.column =
      run.generated.column + (older.generated.column - run.start.column) := by
      rw [hplace]
      rfl
    have hright := Position.column_le_of_le reaches.le reaches.line
    simp only [Run.landing] at near
    -- What the run has copied to the position.
    have hfrom : older.generated.right (position.column - token.generated.column) =
        run.start.right (position.column - run.generated.column) := by
      simp only [Position.right, hline, Position.mk.injEq, true_and]
      omega
    have hto : run.landing (older.generated.right (position.column - token.generated.column)) = position := by
      rw [hfrom, Run.landing, Position.right]
      cases position
      simp only [Position.mk.injEq] at hright ⊢
      refine ⟨?_, by omega⟩
      have := reaches.line
      rw [hplace] at this
      exact this
    obtain ⟨origin, horigin, horiginRange, hle, horiginLine, hbehind, hsame⟩ :=
      exists_origin ordered.sorted hcarried.mem range
    have hleads : leadsTo token position =
        leadsTo older (older.generated.right (position.column - token.generated.column)) := by
      rw [leadsTo, leadsTo, if_pos hrange, if_pos range, hcarried.eq]
      simp [carriedInto, Position.right]
    rw [hleads, hsame]
    refine h.reach origin horigin horiginRange _ ?_ ?_
    · refine reaches_of_carried tiled ordered hrun hkind horigin hle horiginLine hbehind hstart
        (.inr ⟨rfl, Nat.le_add_right _ _⟩) ?_ (hto.symm ▸ reaches) hplace
      rw [hfrom]
      refine .inr ⟨level, ?_⟩
      simp only [Position.right]
      omega
    · rw [hfrom]
      exact holds_right happly hrun hkind (by omega)

end
end ClassWeave.SourceMap
