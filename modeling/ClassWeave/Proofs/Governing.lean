import ClassWeave.Proofs.Survival
import Mathlib.Data.List.TakeWhile
/-!
# Tokens in charge

The token in charge of a position is the last one at or in front of it, if it stands on the same
line. Composed maps never hold two different tokens for one place, so what is in charge answers. A
pass leaves it in charge of whatever it copies, unless the pass edits the text where the token
stands.
-/

namespace ClassWeave.SourceMap

/-- The last token at or in front of a position, on its line. -/
structure Governs (tokens : List MapToken) (token : MapToken) (position : Position) : Prop where
  mem : token ∈ tokens
  le : token.generated ≤ position
  line : token.generated.line = position.line
  latest : ∀ other ∈ tokens, other.generated ≤ position → other.generated ≤ token.generated

def leadsTo (token : MapToken) (position : Position) : Position :=
  ⟨token.source.line, token.source.column +
    if token.isRange then position.column - token.generated.column else 0⟩

def Unambiguous (tokens : List MapToken) : Prop :=
  ∀ token ∈ tokens, ∀ other ∈ tokens, token.generated = other.generated → token = other

section
variable {tokens : List MapToken} {position : Position} {token : MapToken}

theorem Governs.eq (unambiguous : Unambiguous tokens) {other : MapToken} (h : Governs tokens token position)
    (h' : Governs tokens other position) : token = other :=
  unambiguous token h.mem other h'.mem
    (le_antisymm (h'.latest token h.mem h.le) (h.latest other h'.mem h'.le))

theorem takeWhile_le {front back : List MapToken}
    (sorted : (front ++ token :: back).Pairwise (·.generated ≤ ·.generated))
    (hle : token.generated ≤ position) (hback : ∀ other ∈ back, position < other.generated) :
    (front ++ token :: back).takeWhile (fun other => decide (other.generated ≤ position)) =
      front ++ [token] := by
  have reached : ∀ other ∈ front, decide (other.generated ≤ position) = true := by
    intro other hother
    have := (List.pairwise_append.1 sorted).2.2 other hother token List.mem_cons_self
    exact decide_eq_true (le_trans this hle)
  rw [List.takeWhile_append_of_pos reached, List.takeWhile_cons, if_pos (decide_eq_true hle)]
  cases back with
  | nil => rfl
  | cons next back => rw [List.takeWhile_cons, if_neg (by simpa using hback next List.mem_cons_self)]

theorem exists_last_of_governs (sorted : tokens.Pairwise (·.generated ≤ ·.generated))
    (unambiguous : Unambiguous tokens) (h : Governs tokens token position) :
    ∃ front back, tokens = front ++ token :: back ∧ ∀ other ∈ back, position < other.generated := by
  obtain ⟨front, last, back, htokens, hle, hback⟩ := exists_last_le sorted ⟨token, h.mem, h.le⟩
  have hlast : last ∈ tokens := by simp [htokens]
  suffices last = token by subst this; exact ⟨front, back, htokens, hback⟩
  refine unambiguous last hlast token h.mem (le_antisymm (h.latest last hlast hle) ?_)
  have hmem := h.mem
  rw [htokens] at hmem sorted
  exact (le_or_mem_back sorted hmem).resolve_right fun hbehind => not_le.2 (hback token hbehind) h.le

theorem tokenAt_mem (h : tokenAt tokens position = some token) :
    token ∈ tokens.takeWhile (fun other => decide (other.generated ≤ position)) ∧
      (token.generated = position ∨
        (tokens.takeWhile (fun other => decide (other.generated ≤ position))).getLast? = some token) := by
  unfold tokenAt at h
  simp only at h
  cases hfind : (tokens.takeWhile (fun other => decide (other.generated ≤ position))).find?
      (fun other => other.generated == position) with
  | none =>
    rw [hfind, Option.none_or] at h
    exact ⟨List.mem_of_getLast? h, .inr h⟩
  | some found =>
    rw [hfind, Option.some_or, Option.some.injEq] at h
    subst h
    exact ⟨List.mem_of_find?_eq_some hfind, .inl (by simpa using List.find?_some hfind)⟩

theorem latest_of_tokenAt (sorted : tokens.Pairwise (·.generated ≤ ·.generated))
    (h : tokenAt tokens position = some token) : token ∈ tokens ∧ token.generated ≤ position ∧
      ∀ other ∈ tokens, other.generated ≤ position → other.generated ≤ token.generated := by
  obtain ⟨hmem, hlast⟩ := tokenAt_mem h
  have hle : token.generated ≤ position := by simpa using List.mem_takeWhile_imp hmem
  refine ⟨List.takeWhile_subset _ hmem, hle, fun other hother hposition => ?_⟩
  rcases hlast with heq | hlast
  · rw [heq]
    exact hposition
  obtain ⟨front, last, back, rfl, hreach, hback⟩ := exists_last_le sorted ⟨other, hother, hposition⟩
  rw [takeWhile_le sorted hreach hback, List.getLast?_concat, Option.some.injEq] at hlast
  subst hlast
  exact (le_or_mem_back sorted hother).resolve_right fun hbehind => not_le.2 (hback other hbehind) hposition

theorem governs_of_tokenAt (sorted : tokens.Pairwise (·.generated ≤ ·.generated))
    (h : tokenAt tokens position = some token) (line : token.generated.line = position.line) :
    Governs tokens token position := by
  obtain ⟨hmem, hle, latest⟩ := latest_of_tokenAt sorted h
  exact ⟨hmem, hle, line, latest⟩

theorem exists_governs_of_sourcePosition (sorted : tokens.Pairwise (·.generated ≤ ·.generated))
    {file : Option String} {source : Position}
    (h : (SourceMap.mk file tokens).sourcePosition position = some source) :
    ∃ token, Governs tokens token position ∧ source = leadsTo token position := by
  unfold sourcePosition at h
  split at h
  · cases h
  rename_i token htoken
  split at h
  · rename_i line
    simp only [Option.some.injEq] at h
    exact ⟨token, governs_of_tokenAt sorted htoken line, h.symm⟩
  · cases h

theorem Governs.sourcePosition (sorted : tokens.Pairwise (·.generated ≤ ·.generated))
    (unambiguous : Unambiguous tokens) (h : Governs tokens token position) (file : Option String) :
    (SourceMap.mk file tokens).sourcePosition position = some (leadsTo token position) := by
  obtain ⟨front, back, rfl, hback⟩ := exists_last_of_governs sorted unambiguous h
  have upTo := takeWhile_le sorted h.le hback
  have answered : ∃ found, tokenAt (front ++ token :: back) position = some found := by
    unfold tokenAt
    simp only [upTo, List.getLast?_concat]
    cases List.find? _ _ <;> simp
  obtain ⟨found, hfound⟩ := answered
  have line : found.generated.line = position.line := by
    rcases (tokenAt_mem hfound).2 with heq | hlast
    · rw [heq]
    · rw [upTo, List.getLast?_concat, Option.some.injEq] at hlast
      rw [← hlast, h.line]
  obtain rfl := (governs_of_tokenAt sorted hfound line).eq unambiguous h
  unfold SourceMap.sourcePosition
  simp only [hfound, h.line, if_true]
  rfl

end

/-! ## Maps that are unambiguous -/

section
variable {record : Record} {at' : Progress} {tokens : List MapToken}

theorem unambiguous_tokens (tiled : Tiled at' record.runs) : Unambiguous record.tokens := by
  intro token htoken other hother heq
  rw [Record.tokens_eq tiled] at htoken hother
  obtain ⟨run, hrun, rfl⟩ := List.mem_map.1 htoken
  obtain ⟨run', hrun', rfl⟩ := List.mem_map.1 hother
  obtain ⟨hrun, hkind⟩ := Record.mem_writing.1 hrun
  obtain ⟨hrun', hkind'⟩ := Record.mem_writing.1 hrun'
  rcases tiled.trichotomy hrun hrun' with rfl | hprecedes | hprecedes
  · rfl
  · exact absurd heq (ne_of_lt (hprecedes.generated_lt hkind))
  · exact absurd heq.symm (ne_of_lt (hprecedes.generated_lt hkind'))

theorem eq_of_mem_settle {token other older : MapToken} (h : token ∈ settle record older)
    (h' : other ∈ settle record older) : token = other := by
  unfold settle at h h'
  cases hrun : record.runAt older.generated with
  | none =>
    simp only [hrun, List.mem_singleton] at h h'
    rw [h, h']
  | some run =>
    simp only [hrun] at h h'
    cases hkind : run.kind with
    | unedited =>
      simp only [hkind, List.mem_singleton] at h h'
      rw [h, h']
    | replaced =>
      simp only [hkind] at h h'
      split at h
      · rename_i hstart
        rw [if_pos hstart, List.mem_singleton] at h'
        rw [List.mem_singleton] at h
        rw [h, h']
      · cases h
    | deleted =>
      simp only [hkind] at h
      cases h

theorem part_lt {older later part : MapToken} (sorted : tokens.Pairwise (·.generated ≤ ·.generated))
    {front back : List MapToken} (htokens : tokens = front ++ older :: back) (hlater : later ∈ tokens)
    (hlt : older.generated < later.generated) (hpart : part ∈ split record older back.head?) :
    part.generated < later.generated := by
  rcases mem_split.1 hpart with rfl | ⟨-, run, -, -, hend, rfl⟩
  · exact hlt
  subst htokens
  have hback : later ∈ back := (le_or_mem_back sorted hlater).resolve_left (not_le.2 hlt)
  exact lt_of_lt_of_le hend (rangeEnd_le (List.pairwise_append.1 sorted).2.1 later hback)

theorem le_of_mem_split {older part : MapToken} {next : Option MapToken}
    (h : part ∈ split record older next) :
    older.generated ≤ part.generated := by
  rcases mem_split.1 h with rfl | ⟨-, run, -, hlt, -, rfl⟩
  · exact le_refl _
  · exact le_of_lt hlt

theorem unambiguous_align (sorted : tokens.Pairwise (·.generated ≤ ·.generated))
    (unambiguous : Unambiguous tokens) (record : Record) : Unambiguous (align tokens record) := by
  intro token htoken other hother heq
  obtain ⟨front, older, back, htokens, part, hpart, hsettle⟩ := mem_alignAll.1 (mem_inOrder.1 htoken)
  obtain ⟨front', older', back', htokens', part', hpart', hsettle'⟩ := mem_alignAll.1 (mem_inOrder.1 hother)
  have hmem : older ∈ tokens := by simp [htokens]
  have hmem' : older' ∈ tokens := by simp [htokens']
  have hplace : part.generated = part'.generated := by
    rw [← (settled_of_mem_settle hsettle).1, ← (settled_of_mem_settle hsettle').1, heq]
  suffices part = part' by subst this; exact eq_of_mem_settle hsettle hsettle'
  have hsame : older = older' := by
    refine unambiguous older hmem older' hmem' ?_
    rcases lt_trichotomy older.generated older'.generated with hlt | hsame | hlt
    · have := lt_of_lt_of_le (part_lt sorted htokens hmem' hlt hpart) (le_of_mem_split hpart')
      exact absurd hplace (ne_of_lt this)
    · exact hsame
    · have := lt_of_lt_of_le (part_lt sorted htokens' hmem hlt hpart') (le_of_mem_split hpart)
      exact absurd hplace.symm (ne_of_lt this)
  subst hsame
  rcases mem_split.1 hpart with rfl | ⟨-, run, -, hlt, -, rfl⟩
  · rcases mem_split.1 hpart' with rfl | ⟨-, run', -, hlt', -, rfl⟩
    · rfl
    · exact absurd hplace (ne_of_lt hlt')
  · rcases mem_split.1 hpart' with rfl | ⟨-, run', -, hlt', -, rfl⟩
    · exact absurd hplace.symm (ne_of_lt hlt)
    · have : run.start = run'.start := hplace
      rw [this]

/-! ## Adjusting -/

theorem mem_adjust (tiled : Tiled at' record.runs) (sorted : tokens.Pairwise (·.generated ≤ ·.generated))
    {token : MapToken} : token ∈ adjust tokens record.tokens ↔
      ∃ newer ∈ stretches (·.source) record.tokens, ∃ older ∈ stretches (·.generated) tokens,
        older.Meets newer ∧ token = older.carriedBy newer := by
  rw [adjust, mem_inOrder, Record.sort_tokens tiled]
  exact mem_carryAll (consecutive_stretches (Record.sources_pairwise tiled)) (consecutive_stretches sorted)

def carriedInto (run : Run) (token : MapToken) : MapToken :=
  { token with generated := run.landing (max token.generated run.start) }

/-- What a token of an adjusted map was carried by, and from where. -/
structure Carried (record : Record) (tokens : List MapToken) (token : MapToken)
    (run : Run) (older : MapToken) :
    Prop where
  run_mem : run ∈ record.runs
  kind : run.kind ≠ .deleted
  mem : older ∈ tokens
  eq : token = carriedInto run older
  line : (max older.generated run.start).line = run.start.line
  column : run.start.column ≤ (max older.generated run.start).column
  short : ∀ next ∈ tokens, older.generated < next.generated → run.start < next.generated
  before : ∀ later ∈ record.runs, later.kind ≠ .deleted → run.Precedes record.runs later →
    older.generated < later.start
  ahead : ∀ later ∈ record.runs, later.kind ≠ .deleted → run.Precedes record.runs later →
    token.generated < later.generated

theorem exists_carried (tiled : Tiled at' record.runs) (sorted : tokens.Pairwise (·.generated ≤ ·.generated))
    (settled : ∀ token ∈ tokens, Settled record token) {token : MapToken}
    (h : token ∈ adjust tokens record.tokens) : ∃ run older, Carried record tokens token run older := by
  obtain ⟨newer, hnewer, older, holder, hmeets, rfl⟩ := (mem_adjust tiled sorted).1 h
  obtain ⟨run, hrun, hkind, htoken, hstart, -, hline, hbefore⟩ :=
    Record.exists_run_of_mem_stretches tiled hnewer
  obtain ⟨front, back, htokens, holderStart, -, -, hback⟩ := exists_split_of_mem_stretches sorted holder
  obtain ⟨place, hplace, line, column, hgenerated⟩ := generated_carriedBy hmeets htoken hstart hline
  have hmem : older.token ∈ tokens := by simp [htokens]
  rw [holderStart, hstart] at hplace
  refine ⟨run, older.token, hrun, hkind, hmem, ?_, hplace ▸ line, hplace ▸ column, ?_, ?_, ?_⟩
  · unfold carriedInto
    rw [← hplace, ← hgenerated]
    rfl
  · intro next hnext hlt
    have hbehind : next ∈ back := by
      rw [htokens] at hnext sorted
      exact (le_or_mem_back sorted hnext).resolve_left (not_le.2 hlt)
    exact hstart ▸ lt_of_lt_of_le hmeets.2 (hback next hbehind)
  · intro later hlater hlaterKind hprecedes
    exact holderStart ▸ lt_of_lt_of_le hmeets.1 (hbefore later hlater hlaterKind hprecedes)
  · intro later hlater hlaterKind hprecedes
    exact carriedBy_lt tiled hrun hkind hlater hlaterKind hprecedes
      hmeets (settled _ hmem) holderStart htoken hstart
      hline hbefore

theorem Carried.lt {token other older older' : MapToken} {run : Run}
    (h : Carried record tokens token run older) (h' : Carried record tokens other run older')
    (hlt : older.generated < older'.generated) :
    token.generated < other.generated := by
  rw [h.eq, h'.eq]
  refine Run.landing_lt (by rw [h.line, h'.line]) h.column (max_lt ?_ ?_)
  · exact lt_of_lt_of_le hlt (le_max_left _ _)
  · exact lt_of_lt_of_le (h.short older' h'.mem hlt) (le_max_left _ _)

theorem Carried.generated_le {token older : MapToken} {run : Run}
    (h : Carried record tokens token run older) :
    run.generated ≤ token.generated := by
  rw [h.eq]
  exact run.generated_le_landing _

theorem unambiguous_adjust (tiled : Tiled at' record.runs)
    (sorted : tokens.Pairwise (·.generated ≤ ·.generated)) (settled : ∀ token ∈ tokens, Settled record token)
    (unambiguous : Unambiguous tokens) :
    Unambiguous (adjust tokens record.tokens) := by
  intro token htoken other hother heq
  obtain ⟨run, older, h⟩ := exists_carried tiled sorted settled htoken
  obtain ⟨run', older', h'⟩ := exists_carried tiled sorted settled hother
  rcases tiled.trichotomy h.run_mem h'.run_mem with rfl | hprecedes | hprecedes
  · rcases lt_trichotomy older.generated older'.generated with hlt | hsame | hlt
    · exact absurd heq (ne_of_lt (h.lt h' hlt))
    · rw [h.eq, h'.eq, unambiguous older h.mem older' h'.mem hsame]
    · exact absurd heq.symm (ne_of_lt (h'.lt h hlt))
  · exact absurd heq (ne_of_lt (lt_of_lt_of_le (h.ahead run' h'.run_mem h'.kind hprecedes) h'.generated_le))
  · exact absurd heq.symm (ne_of_lt (lt_of_lt_of_le (h'.ahead run h.run_mem h.kind hprecedes) h.generated_le))

theorem unambiguous_extend (tiled : Tiled at' record.runs)
    (sorted : tokens.Pairwise (·.generated ≤ ·.generated)) (unambiguous : Unambiguous tokens) :
    Unambiguous (extend tokens record) :=
  unambiguous_adjust tiled (inOrder_pairwise _) (fun _ => settled_of_mem_align)
    (unambiguous_align sorted unambiguous record)

theorem Governs.carriedInto_mem (tiled : Tiled at' record.runs)
    (sorted : tokens.Pairwise (·.generated ≤ ·.generated)) (unambiguous : Unambiguous tokens)
    {token : MapToken} {position : Position} (h : Governs tokens token position) {run : Run}
    (hrun : run ∈ record.runs) (hkind : run.kind ≠ .deleted) (line : run.start.line = position.line)
    (hstart : run.start ≤ position)
    (hstop : position < run.stop ∨ (position = run.start ∧ token.generated < position)) :
    carriedInto run token ∈ adjust tokens record.tokens := by
  obtain ⟨front, back, htokens, hback⟩ := exists_last_of_governs sorted unambiguous h
  obtain ⟨older, holder, rfl, holderStart, hcovers⟩ := exists_stretch (·.generated) token back front
  rw [← htokens] at holder
  have hreach : position < older.stop :=
    hcovers position (Position.lt_nextLine_iff.2 (Nat.le_of_eq h.line.symm)) hback
  have found : ∃ newer ∈ stretches (·.source) record.tokens, newer.token = run.token ∧
    newer.start = run.start ∧
      older.start < newer.stop := by
    rcases hstop with hstop | ⟨rfl, hlt⟩
    · obtain ⟨newer, hnewer, htoken, hnewerStart, hlt⟩ := Record.exists_runStretch tiled hrun hkind line hstop
      exact ⟨newer, hnewer, htoken, hnewerStart, lt_of_le_of_lt (holderStart ▸ h.le) hlt⟩
    · obtain ⟨frontRuns, backRuns, hruns⟩ := List.append_of_mem (Record.mem_writing.2 ⟨hrun, hkind⟩)
      obtain ⟨newer, hnewer, htoken, hnewerStart, -⟩ :=
        exists_stretch (·.source) run.token (backRuns.map Run.token) (frontRuns.map Run.token)
      rw [← List.map_cons, ← List.map_append, ← hruns, ← Record.tokens_eq tiled] at hnewer
      obtain ⟨_, _, -, -, hforward, -⟩ := exists_split_of_mem_stretches (Record.sources_pairwise tiled) hnewer
      refine ⟨newer, hnewer, htoken, hnewerStart, lt_of_lt_of_le ?_ hforward⟩
      rw [holderStart, hnewerStart]
      exact hlt
  obtain ⟨newer, hnewer, hnewerToken, hnewerStart, hmeets⟩ := found
  refine (mem_adjust tiled sorted).2 ⟨newer, hnewer, older, holder, ⟨hmeets, ?_⟩, ?_⟩
  · rw [hnewerStart]
    exact lt_of_le_of_lt hstart hreach
  · have hline : (max older.token.generated run.start).line = run.start.line := by
      rcases le_total run.start older.token.generated with hmax | hmax
      · rw [max_eq_left hmax, h.line, line]
      · rw [max_eq_right hmax]
    have hcolumn : run.start.column ≤ (max older.token.generated run.start).column := by
      have := le_max_right older.token.generated run.start
      rw [Position.le_iff] at this
      omega
    rw [carriedInto, Stretch.carriedBy, later_eq_max, hnewerToken,
      hnewerStart, holderStart, moved_token hline hcolumn]

/-- A pass leaves the token in charge of what it copies. -/
theorem Governs.adjust (tiled : Tiled at' record.runs) (sorted : tokens.Pairwise (·.generated ≤ ·.generated))
    (settled : ∀ token ∈ tokens, Settled record token) (unambiguous : Unambiguous tokens) {token : MapToken}
    {position output : Position} (h : Governs tokens token position) {run : Run} (hrun : run ∈ record.runs)
    (copies : run.Copies position output) :
    Governs (adjust tokens record.tokens) (carriedInto run token) output := by
  have hkind : run.kind ≠ .deleted := by simp [copies.kind]
  have hle : max token.generated run.start ≤ position := max_le h.le copies.start_le
  have hline : (max token.generated run.start).line = position.line := by
    rcases le_total run.start token.generated with hmax | hmax
    · rw [max_eq_left hmax, h.line]
    · rw [max_eq_right hmax, copies.line]
  refine ⟨h.carriedInto_mem tiled sorted unambiguous hrun hkind
    copies.line copies.start_le (.inl copies.lt_stop), ?_,
    ?_, ?_⟩
  · rw [copies.landing, carriedInto, Position.le_iff]
    rw [Position.le_iff] at hle
    simp only [Run.landing, true_and]
    omega
  · rw [copies.landing]
    rfl
  intro other hother hposition
  obtain ⟨run', older, hcarried⟩ := exists_carried tiled sorted settled hother
  rcases tiled.trichotomy hrun hcarried.run_mem with rfl | hprecedes | hprecedes
  · have holder : older.generated ≤ position := by
      refine le_trans (le_max_left _ run.start) (not_lt.1 fun hlt => absurd hposition (not_le.2 ?_))
      rw [hcarried.eq, copies.landing]
      exact Run.landing_lt (by rw [hcarried.line, copies.line]) copies.column_le hlt
    rcases le_iff_lt_or_eq.1 (h.latest older hcarried.mem holder) with hlt | hsame
    · rw [hcarried.eq]
      refine le_of_lt
        (Run.landing_lt (by rw [hcarried.line, hline, copies.line]) hcarried.column (max_lt ?_ ?_))
      · exact lt_of_lt_of_le hlt (le_max_left _ _)
      · exact lt_of_lt_of_le (hcarried.short token h.mem hlt) (le_max_left _ _)
    · rw [hcarried.eq, unambiguous older hcarried.mem token h.mem hsame]
  · have := lt_of_lt_of_le (copies.lt_generated (tiled.wellformed run hrun) hprecedes) hcarried.generated_le
    exact absurd hposition (not_le.2 this)
  · exact le_of_lt (lt_of_lt_of_le (hcarried.ahead run hrun hkind hprecedes) (run.generated_le_landing _))

/-! ## Text that a pass writes -/

theorem settle_of_settled {token : MapToken} (h : Settled record token) (point : token.isRange = false) :
    settle record token = [token] := by
  unfold settle
  cases hrun : record.runAt token.generated with
  | none => rfl
  | some run =>
    rcases h run hrun with hkind | ⟨hkind, hstart⟩
    · simp only [hkind]
    · simp only [hkind, if_pos hstart, ← point]

/-- A token of one place that the next pass leaves standing stays in charge. -/
theorem Governs.align_point (sorted : tokens.Pairwise (·.generated ≤ ·.generated))
    (unambiguous : Unambiguous tokens) {token : MapToken} {position : Position}
    (h : Governs tokens token position) (point : token.isRange = false) (settled : Settled record token) :
    Governs (align tokens record) token position := by
  obtain ⟨front, back, htokens, hback⟩ := exists_last_of_governs sorted unambiguous h
  refine ⟨?_, h.le, h.line, fun other hother hposition => ?_⟩
  · refine mem_inOrder.2 (mem_alignAll.2 ⟨front, token, back, htokens, token, mem_split.2 (.inl rfl), ?_⟩)
    rw [settle_of_settled settled point]
    exact List.mem_singleton_self _
  · obtain ⟨front', older, back', htokens', part, hpart, hsettle⟩ := mem_alignAll.1 (mem_inOrder.1 hother)
    rw [(settled_of_mem_settle hsettle).1] at hposition ⊢
    have hmem : older ∈ tokens := by simp [htokens']
    rcases le_iff_lt_or_eq.1 (h.latest older hmem (le_trans (le_of_mem_split hpart) hposition)) with
        hlt | hsame
    · exact le_of_lt (part_lt sorted htokens' h.mem hlt hpart)
    · obtain rfl := unambiguous older hmem token h.mem hsame
      rcases mem_split.1 hpart with rfl | ⟨hrange, -⟩
      · exact le_refl _
      · rw [point] at hrange
        cases hrange

/-- A range that reaches text which is replaced is cut where the replacement starts. -/
theorem Governs.align_range (tiled : Tiled at' record.runs)
    (sorted : tokens.Pairwise (·.generated ≤ ·.generated)) (unambiguous : Unambiguous tokens)
    {token : MapToken} {run : Run} (h : Governs tokens token run.start)
    (range : token.isRange = true) (hrun : run ∈ record.runs)
    (hkind : run.kind = .replaced) (hstop : run.start < run.stop) :
    Governs (align tokens record) ⟨run.start, leadsTo token run.start, false⟩ run.start := by
  obtain ⟨front, back, htokens, hback⟩ := exists_last_of_governs sorted unambiguous h
  refine ⟨?_, le_refl _, rfl, fun other _ hposition => hposition⟩
  refine mem_inOrder.2
    (mem_alignAll.2 ⟨front, token, back, htokens, token.startingAt run.start, mem_split.2 ?_, ?_⟩)
  · rcases le_iff_lt_or_eq.1 h.le with hlt | heq
    · exact .inr ⟨range, run, hrun, hlt, lt_rangeEnd h.line hback, rfl⟩
    · rw [← heq, MapToken.startingAt_self]
      exact .inl rfl
  · have covered : record.runAt (token.startingAt run.start).generated = some run :=
      Record.runAt_eq_some tiled hrun (le_refl _) hstop
    have hstart : run.start = (token.startingAt run.start).generated := rfl
    unfold settle
    simp only [covered, hkind, if_pos hstart, List.mem_singleton]
    rw [leadsTo, if_pos range]
    rfl

/-- The text that a pass writes is in charge of the token that was in charge of where the edit
starts, if no token stands on the line feed behind the edit. -/
theorem Governs.written (tiled : Tiled at' record.runs) (sorted : tokens.Pairwise (·.generated ≤ ·.generated))
    (settled : ∀ token ∈ tokens, Settled record token) (unambiguous : Unambiguous tokens)
    {token : MapToken} {run : Run} (h : Governs tokens token run.start)
    (hrun : run ∈ record.runs) (hkind : run.kind = .replaced)
    (hstop : run.start < run.stop ∨ token.generated < run.start)
    (free : ∀ other ∈ tokens, run.start < other.generated → other.generated.line = run.start.line →
      record.runAt other.generated ≠ none)
    {position : Position} (line : run.generated.line = position.line) (hle : run.generated ≤ position)
    (hlater : ∀ later ∈ record.runs, later.kind ≠ .deleted → run.Precedes record.runs later →
      position < later.generated) :
    Governs (SourceMap.adjust tokens record.tokens) { token with generated := run.generated } position := by
  have hwrites : run.kind ≠ .deleted := by simp [hkind]
  have hcarried : carriedInto run token = { token with generated := run.generated } := by
    rw [carriedInto, max_eq_right h.le, Run.landing_start]
  refine ⟨?_, hle, line, ?_⟩
  · rw [← hcarried]
    exact h.carriedInto_mem tiled sorted unambiguous hrun hwrites
      rfl (le_refl _) (hstop.imp id fun hlt => ⟨rfl, hlt⟩)
  intro other hother hposition
  obtain ⟨run', older, hother⟩ := exists_carried tiled sorted settled hother
  rcases tiled.trichotomy hrun hother.run_mem with rfl | hprecedes | hprecedes
  · suffices older.generated ≤ run.start by
      rw [hother.eq, carriedInto, max_eq_right this, Run.landing_start]
    -- Behind the start a token could only stand outside all runs, on the line feed.
    refine not_lt.1 fun hlt => ?_
    have hline := hother.line
    rw [max_eq_left (le_of_lt hlt)] at hline
    obtain ⟨found, hfound⟩ := Option.ne_none_iff_exists'.1 (free older hother.mem hlt hline)
    obtain ⟨hmem, hstart, hstop'⟩ := Record.mem_of_runAt hfound
    rcases tiled.trichotomy hrun hmem with rfl | hprecedes | hprecedes
    · rcases settled older hother.mem run hfound with hunedited | ⟨-, hsame⟩
      · rw [hkind] at hunedited
        cases hunedited
      · exact absurd hlt (by rw [hsame]; exact lt_irrefl _)
    · have hfoundKind : found.kind ≠ .deleted := by
        rcases settled older hother.mem found hfound with h | ⟨h, -⟩ <;> simp [h]
      exact absurd (hother.before found hmem hfoundKind hprecedes) (not_lt.2 hstart)
    · exact absurd (lt_of_lt_of_le hstop' hprecedes.stop_le) (not_lt.2 (le_of_lt hlt))
  · have := lt_of_lt_of_le (hlater run' hother.run_mem hother.kind hprecedes) hother.generated_le
    exact absurd hposition (not_le.2 this)
  · exact le_of_lt (hother.ahead run hrun hwrites hprecedes)

end
end ClassWeave.SourceMap
